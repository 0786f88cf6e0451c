import Kdns.Wire.Detached
import Kdns.Wire.NameLimits
import Kdns.Wire.Soa
import Kdns.Wire.WriteBack

namespace Kdns.Wire

open ByteStream Dns CompressedName GoStrings List

variable {bytes front wire text w name : Bytes} {lib : Library} {type : RRType} {x : PacketWriter}

section Numbers

def shownNumbers : List ℕ → Bytes → List Text
  | [], _ => []
  | width :: widths, wire => formatUint (ofBigEndian (wire.take width)) :: shownNumbers widths (wire.drop width)

def parsedNumbers (widths : List ℕ) (texts : List Text) : List (ℕ × Option ℕ) :=
  List.zipWith (fun width s => (width, parseUint s (8 * width))) widths texts

theorem numbers_cons {width v : ℕ} {parsed : List (ℕ × Option ℕ)} (h : numbers parsed = some bytes) :
    numbers ((width, some v) :: parsed) = some (bigEndian width v ++ bytes) := by
  obtain ⟨parts, hparts, rfl⟩ := Option.map_eq_some_iff.mp h
  rw [numbers, mapM_cons, hparts]
  rfl

theorem parseUint_shown (bs : Bytes) : parseUint (formatUint (ofBigEndian bs)) (8 * bs.length) = some (ofBigEndian bs) := by
  apply parseUint_formatUint
  have hpow : Nat.pow 2 (8 * bs.length) = 256 ^ bs.length := pow_mul 2 8 bs.length
  rw [hpow]
  exact ofBigEndian_lt bs

theorem numbers_shown_cons {parsed : List (ℕ × Option ℕ)} {width : ℕ} (hle : width ≤ front.length)
    (h : numbers parsed = some (front.drop width)) :
    numbers ((width, parseUint (formatUint (ofBigEndian (front.take width))) (8 * width)) :: parsed) = some front := by
  have hlength : (front.take width).length = width := length_take_of_le hle
  have hvalue := parseUint_shown (front.take width)
  have hbytes := bigEndian_ofBigEndian (front.take width)
  rw [hlength] at hvalue hbytes
  rw [hvalue, numbers_cons h, hbytes, take_append_drop]

theorem numbers_shown {widths : List ℕ} (h : front.length = widths.sum) (rest : Bytes) :
    numbers (parsedNumbers widths (shownNumbers widths (front ++ rest))) = some front := by
  induction widths generalizing front with
  | nil =>
    rw [eq_nil_of_length_eq_zero h]
    rfl
  | cons width widths ih =>
    rw [sum_cons] at h
    have hle : width ≤ front.length := by omega
    rw [shownNumbers, take_append_of_le_length hle, drop_append_of_le_length hle]
    apply numbers_shown_cons hle
    apply ih
    rw [length_drop]
    omega

theorem shownNumbers_words {widths : List ℕ} : ∀ s ∈ shownNumbers widths wire, s ≠ [] ∧ Unspaced s := by
  induction widths generalizing wire with
  | nil => exact fun s hs => absurd hs not_mem_nil
  | cons width widths ih =>
    rw [shownNumbers, forall_mem_cons]
    exact ⟨⟨formatUint_ne_nil _, unspaced_of_graphic fun b hb => formatUint_graphic hb⟩, ih⟩

end Numbers

section Addresses

theorem writesBack_address (htype : type = typeA ∨ type = typeAAAA)
    (h : packRData (encoders lib) type text = .ok w) : WritesBack lib type w := by
  obtain ⟨v, hv, rfl⟩ := packRData_iff.mp h
  rcases htype with rfl | rfl
  · have hcase : ∀ x text, writeRData (encoders lib) x typeA text = writeRDataA lib x text := fun _ _ => rfl
    have hread : ∀ wire, unpackRData lib typeA wire = unpackAddress lib "A" 4 wire := fun _ => rfl
    rw [hcase, writeRDataA] at hv
    split at hv
    · cases hv
    rename_i ip4 hip4
    have hlength := lib.addresses.length4 hip4
    have hout : v.out = ip4 := by rw [fill_ok hv, PacketWriter.put, nil_append]
    rw [hout]
    refine ⟨lib.addresses.toText ip4, ?_, packRData_iff.mpr ⟨v, ?_, hout⟩⟩
    · rw [hread, unpackAddress, if_neg (not_not.mpr hlength)]
    · rw [hcase, writeRDataA, lib.addresses.back4 ip4 hlength]
      exact hv
  · have hcase : ∀ x text, writeRData (encoders lib) x typeAAAA text = writeRDataAAAA lib x text := fun _ _ => rfl
    have hread : ∀ wire, unpackRData lib typeAAAA wire = unpackAddress lib "AAAA" 16 wire := fun _ => rfl
    rw [hcase, writeRDataAAAA] at hv
    split at hv
    · cases hv
    rename_i ip6 hip6
    have hlength := lib.addresses.length6 hip6
    have hout : v.out = ip6 := by rw [fill_ok hv, PacketWriter.put, nil_append]
    rw [hout]
    refine ⟨lib.addresses.toText ip6, ?_, packRData_iff.mpr ⟨v, ?_, hout⟩⟩
    · rw [hread, unpackAddress, if_neg (not_not.mpr hlength)]
    · rw [hcase, writeRDataAAAA, lib.addresses.back6 ip6 hlength]
      exact hv

end Addresses

section Payloads

structure Payload (shown : Bytes → Text) (decode : Text → Option Bytes) : Prop where
  back : ∀ bytes, decode (shown bytes) = some bytes
  graphic : ∀ {bytes b}, b ∈ shown bytes → 0x20 < b.toNat ∧ b.toNat < 0x7F
  empty : decode [] = some []
  nonempty : ∀ {s bytes}, decode s = some bytes → s ≠ [] → (∀ b ∈ s, b ≠ 0x0A ∧ b ≠ 0x0D) → bytes ≠ []

theorem isASCII_encodeHex (bytes : Bytes) : isASCII (encodeHex bytes) = true := by
  apply all_eq_true.mpr
  intro b hb
  have hgraphic := hexValue_graphic (hexValue_encodeHex hb)
  have hself : runeSelf.toNat = 128 := rfl
  exact decide_eq_true (UInt8.lt_iff_toNat_lt.mpr (by omega))

theorem upperHex_eq (lib : Library) (bytes : Bytes) : upperHex lib bytes = (encodeHex bytes).map upperASCII := by
  rw [upperHex, toUpper, if_pos (isASCII_encodeHex bytes)]

theorem payload_hex (lib : Library) : Payload (upperHex lib) decodeHex where
  back bytes := by rw [upperHex_eq, decodeHex_map hexValue_upperASCII, decodeHex_encodeHex]
  graphic h := by
    rw [upperHex_eq] at h
    obtain ⟨b, hb, rfl⟩ := mem_map.mp h
    apply hexValue_graphic
    rw [hexValue_upperASCII]
    exact hexValue_encodeHex hb
  empty := rfl
  nonempty h hs _ := decodeHex_ne_nil h hs

theorem payload_base64 : Payload Base64.encodeToString Base64.decodeString where
  back := Base64.decodeString_encodeToString
  graphic := Base64.encodeToString_graphic
  empty := rfl
  nonempty := Base64.decodeString_ne_nil

variable {shown : Bytes → Text} {decode : Text → Option Bytes}

theorem Payload.word (h : Payload shown decode) (hne : bytes ≠ []) : shown bytes ≠ [] ∧ Unspaced (shown bytes) := by
  refine ⟨fun hnil => hne ?_, unspaced_of_graphic fun b hb => h.graphic hb⟩
  have hback := h.back bytes
  rw [hnil, h.empty] at hback
  exact (Option.some.inj hback).symm

theorem Payload.decoded (h : Payload shown decode) {part : Text} {parts : List Text}
    (hdecode : decode (part :: parts).flatten = some bytes) (hparts : ∀ p ∈ part :: parts, p ≠ [] ∧ Unspaced p) : bytes ≠ [] := by
  apply h.nonempty hdecode
  · rw [flatten_cons]
    exact append_ne_nil_of_left_ne_nil (hparts part mem_cons_self).1 _
  · intro b hb
    obtain ⟨p, hp, hbp⟩ := mem_flatten.mp hb
    have hclear := (hparts p hp).2
    constructor
    · rintro rfl
      exact hclear.not_mem (by decide) hbp
    · rintro rfl
      exact hclear.not_mem (by decide) hbp

theorem writeNumbersAndPayload_ok {v : PacketWriter} {numeric payload : String} {parsed : List (ℕ × Option ℕ)}
    {decoded : Option Bytes} (h : writeNumbersAndPayload x numeric payload parsed decoded = .ok v) :
    ∃ front bytes, numbers parsed = some front ∧ decoded = some bytes ∧ x.fill (front ++ bytes) = .ok v := by
  unfold writeNumbersAndPayload at h
  split at h
  · cases h
  · split at h
    · cases h
    · exact ⟨_, _, ‹_›, rfl, h⟩

structure PayloadType (lib : Library) (type : RRType) (widths : List ℕ) (shown : Bytes → Text)
    (decode : Text → Option Bytes) : Prop where
  three : widths.length = 3
  write : ∃ numeric payload e, ∀ (x : PacketWriter) (s : Text), writeRData (encoders lib) x type s =
    match fields s with
    | a :: b :: c :: part :: parts =>
      writeNumbersAndPayload x numeric payload (parsedNumbers widths [a, b, c]) (decode (part :: parts).flatten)
    | _ => .error (.invalidRData e)
  unpack : ∃ e, ∀ wire : Bytes, unpackRData lib type wire =
    if wire.length < widths.sum then .error (.invalidRData e)
    else .ok (spaced (shownNumbers widths wire ++ [shown (wire.drop widths.sum)]))

theorem payloadType_ds (lib : Library) : PayloadType lib typeDS [2, 1, 1] (upperHex lib) decodeHex where
  three := rfl
  write := ⟨_, _, _, fun _ _ => rfl⟩
  unpack := by
    refine ⟨"DS wire payload too short", fun wire => ?_⟩
    simp only [shownNumbers, drop_drop]
    rfl

theorem payloadType_dnskey (lib : Library) :
    PayloadType lib typeDNSKEY [2, 1, 1] Base64.encodeToString Base64.decodeString where
  three := rfl
  write := ⟨_, _, _, fun _ _ => rfl⟩
  unpack := by
    refine ⟨"DNSKEY wire payload too short", fun wire => ?_⟩
    simp only [shownNumbers, drop_drop]
    rfl

theorem payloadType_zonemd (lib : Library) : PayloadType lib typeZONEMD [4, 1, 1] (upperHex lib) decodeHex where
  three := rfl
  write := ⟨_, _, _, fun _ _ => rfl⟩
  unpack := by
    refine ⟨"ZONEMD wire payload too short", fun wire => ?_⟩
    simp only [shownNumbers, drop_drop]
    rfl

theorem shownNumbers_three {widths : List ℕ} (h : widths.length = 3) (wire : Bytes) :
    ∃ a b c, shownNumbers widths wire = [a, b, c] := by
  match widths, h with
  | [_, _, _], _ => exact ⟨_, _, _, rfl⟩

theorem PayloadType.writesBack {widths : List ℕ} (ht : PayloadType lib type widths shown decode)
    (hp : Payload shown decode) (h : packRData (encoders lib) type text = .ok w) : WritesBack lib type w := by
  obtain ⟨v, hv, rfl⟩ := packRData_iff.mp h
  obtain ⟨numeric, payload, e, hwrite⟩ := ht.write
  obtain ⟨e', hunpack⟩ := ht.unpack
  rw [hwrite] at hv
  split at hv
  · rename_i a b c part parts hfields
    obtain ⟨front, bytes, hfront, hdecode, hfill⟩ := writeNumbersAndPayload_ok hv
    have hlength : front.length = widths.sum := by
      rw [numbers_length hfront]
      match widths, ht.three with
      | [_, _, _], _ => rfl
    have hbytes : bytes ≠ [] := by
      apply hp.decoded hdecode
      intro p hp
      have hmem : p ∈ fields text := by grind
      exact mem_fields hmem
    have hout : v.out = front ++ bytes := by rw [fill_ok hfill, PacketWriter.put, nil_append]
    obtain ⟨a', b', c', hshown⟩ := shownNumbers_three ht.three (front ++ bytes)
    have hagain : fields (spaced (shownNumbers widths (front ++ bytes) ++ [shown bytes])) = [a', b', c', shown bytes] := by
      rw [spaced, fields_intercalate, hshown]
      · rfl
      · intro p hp'
        rcases mem_append.mp hp' with hp' | hp'
        · exact shownNumbers_words p hp'
        · rw [mem_singleton] at hp'
          exact hp' ▸ hp.word hbytes
    have hlong : ¬(front ++ bytes).length < widths.sum := by
      rw [length_append, hlength]
      omega
    rw [hout]
    refine ⟨spaced (shownNumbers widths (front ++ bytes) ++ [shown bytes]), ?_, packRData_iff.mpr ⟨v, ?_, hout⟩⟩
    · rw [hunpack, if_neg hlong, drop_left' hlength]
    · rw [hwrite, hagain]
      dsimp only
      rw [← hshown, writeNumbersAndPayload, numbers_shown hlength]
      rw [flatten_cons, flatten_nil, append_nil, hp.back]
      exact hfill
  · cases hv

end Payloads

section Domains

def absolute (ls : List Bytes) : Text := (dotted ls).dropLast ++ [dotByte]

theorem absolute_eq (ls : List Bytes) : absolute ls = if ls = [] then [dotByte] else dotted ls := by
  split_ifs with h
  · rw [h]
    rfl
  · exact (dotted_concat h).symm

theorem nameLabels_isInfix {l : Bytes} (h : l ∈ nameLabels name) : l <:+: name := by
  have hone : ∀ a : Bytes, dotByte ∉ a → l ∈ nameLabels a → l = a := by
    intro a ha hl
    rw [nameLabels_nodot ha] at hl
    split_ifs at hl
    · cases hl
    · exact mem_singleton.mp hl
  induction name using first_dot_induction with
  | base a ha => exact hone a ha h ▸ infix_rfl
  | step a b ha ih =>
    rw [nameLabels_dot] at h
    rcases mem_append.mp h with h | h
    · rw [hone a ha h]
      exact (prefix_append a _).isInfix
    · exact (ih h).trans ((suffix_cons dotByte b).trans (suffix_append a _)).isInfix

theorem segmented_dotted {ls : List Bytes} (hls : ∀ l ∈ ls, IsLabel l) : Segmented (dotted ls) := by
  induction ls with
  | nil => exact segmented_of_length (Nat.zero_le _)
  | cons l ls ih =>
    rw [forall_mem_cons] at hls
    rw [dotted_cons, append_assoc, singleton_append]
    exact segmented_cons.mpr ⟨segmented_of_length hls.1.length_le, ih hls.2⟩

theorem unspaced_dotted {ls : List Bytes} (hls : ∀ l ∈ ls, Unspaced l) : Unspaced (dotted ls) := by
  induction ls with
  | nil => exact unspaced_of_graphic fun b hb => absurd hb not_mem_nil
  | cons l ls ih =>
    rw [forall_mem_cons] at hls
    rw [dotted_cons, append_assoc, singleton_append]
    exact unspaced_append_cons hls.1 (ih hls.2) (by decide)

variable {ls : List Bytes}

theorem absolute_length (hlen : (dotted ls).length ≤ maxNameLen) : (absolute ls).length ≤ maxNameLen := by
  rw [absolute_eq]
  split_ifs
  · decide
  · exact hlen

theorem segmented_absolute (hls : ∀ l ∈ ls, IsLabel l) : Segmented (absolute ls) := by
  rw [absolute_eq]
  split_ifs
  · exact segmented_of_length (by decide)
  · exact segmented_dotted hls

theorem absolute_word (hls : ∀ l ∈ ls, Unspaced l) : absolute ls ≠ [] ∧ Unspaced (absolute ls) := by
  constructor
  · exact append_ne_nil_of_right_ne_nil _ (cons_ne_nil dotByte [])
  · rw [absolute_eq]
    split_ifs
    · exact unspaced_of_graphic (forall_mem_singleton.mpr (by decide))
    · exact unspaced_dotted hls

theorem nameLabels_absolute (hls : ∀ l ∈ ls, IsLabel l) (hdot : ∀ l ∈ ls, dotByte ∉ l) : nameLabels (absolute ls) = ls := by
  rw [absolute, nameLabels_concat, nameLabels_dotted hls hdot]

theorem absolute_written (hls : ∀ l ∈ ls, IsLabel l) (hlen : (dotted ls).length ≤ maxNameLen)
    (hroom : x.offset + 257 ≤ x.limit) (allow : Bool) :
    ∃ v, x.writeDomainCompressed (absolute ls) allow = (v, none) ∧ SuffixRun allow x (absolute ls) v := by
  have hshort := absolute_length hlen
  have hmax : maxNameLen = 255 := rfl
  have htotal := writeDomainCompressed_total hshort (segmented_absolute hls) (v := x) (by omega) allow
  have hwritten : x.writeDomainCompressed (absolute ls) allow = ((x.writeDomainCompressed (absolute ls) allow).1, none) := by
    rw [← htotal]
  exact ⟨_, hwritten, (writeDomainCompressed_run hwritten).2⟩

theorem SuffixRun.again {allow : Bool} {v : PacketWriter} {name : Text} (h : SuffixRun allow x name v) (ht : x.table = [])
    (hlen : (dotted (nameLabels name)).length ≤ maxNameLen) (hroom : x.offset + 257 ≤ x.limit) :
    ∃ v', x.writeDomainCompressed (absolute (nameLabels name)) allow = (v', none) ∧ v'.out = v.out ∧ v'.limit = v.limit := by
  obtain ⟨hls, hout⟩ := h.first ht
  obtain ⟨v', hwrite, hrun⟩ := absolute_written hls hlen hroom allow
  obtain ⟨-, hout'⟩ := hrun.first ht
  obtain ⟨_, _, _, hname⟩ := h.written
  obtain ⟨_, _, _, hname'⟩ := hrun.written
  refine ⟨v', hwrite, ?_, hname'.limit_eq.trans hname.limit_eq.symm⟩
  rw [hout', hout, wireName, wireName, nameLabels_absolute hls fun l hl => nameLabels_no_dot hl]

theorem dotted_of_wireName {name : Text} (h : (wireName name).length ≤ maxNameLen) :
    (dotted (nameLabels name)).length ≤ maxNameLen := by
  rw [wireName, length_append, length_singleton, encodeLabels_length] at h
  omega

theorem writesBack_name (htype : type = typeNS ∨ type = typeCNAME ∨ type = typePTR)
    (h : packRData (encoders lib) type text = .ok w) (hlen : (wireName text).length ≤ maxNameLen) : WritesBack lib type w := by
  have hcase : ∀ x s, writeRData (encoders lib) x type s = x.domain s := by
    rcases htype with rfl | rfl | rfl <;> exact fun _ _ => rfl
  have hshort := dotted_of_wireName hlen
  obtain ⟨v, hv, rfl⟩ := packRData_iff.mp h
  rw [hcase] at hv
  obtain ⟨-, hrun⟩ := domain_ok hv
  obtain ⟨hls, hout⟩ := hrun.first rfl
  rw [nil_append] at hout
  have hat : NameAt v.out 0 0 (nameLabels text) 0 (0 + (wireName text).length) :=
    nameAt_wireName hls ⟨[], by rw [append_nil, hout, drop_zero]⟩
  obtain ⟨v', hwrite, hout', -⟩ := hrun.again rfl hshort (by decide)
  refine ⟨absolute (nameLabels text), ?_, packRData_iff.mpr ⟨v', ?_, hout'⟩⟩
  · exact unpackRData_single htype (unpackDomainName_of_nameAt hat (Nat.zero_le _) hshort)
  · rw [hcase, PacketWriter.domain, PacketWriter.writeDomain, hwrite]
    rfl

structure NumberedType (lib : Library) (type : RRType) (widths : List ℕ) : Prop where
  split : ∀ {x v : PacketWriter} {s : Text}, writeRData (encoders lib) x type s = .ok v →
    ∃ texts name rest, fields s = texts ++ name :: rest ∧ texts.length = widths.length
  write : ∀ {s : Text} {texts : List Text} {name : Text} {rest : List Text}, fields s = texts ++ name :: rest →
    texts.length = widths.length → ∃ e, ∀ x : PacketWriter, writeRData (encoders lib) x type s =
      match numbers (parsedNumbers widths texts) with
      | none => .error (.message e)
      | some bytes => x.fill bytes >>= fun x => x.domain name
  unpack : ∀ {wire name : Bytes} {next : ℕ}, unpackDomainName wire widths.sum = .ok (name, next) →
    unpackRData lib type wire = .ok (spaced (shownNumbers widths wire ++ [name ++ [dotByte]]))

theorem numberedType_mx (lib : Library) : NumberedType lib typeMX [2] where
  split {x v s} h := by
    have hcase : writeRData (encoders lib) x typeMX s = writeRDataMX x s := rfl
    rw [hcase, writeRDataMX] at h
    split at h
    · exact ⟨[_], _, _, ‹_›, rfl⟩
    · cases h
  write {s texts name rest} h htexts := by
    refine ⟨"dns: invalid MX preference", fun x => ?_⟩
    match texts, htexts with
    | [preference], _ =>
      have hcase : writeRData (encoders lib) x typeMX s = writeRDataMX x s := rfl
      rw [hcase, writeRDataMX, h]
      rfl
  unpack h := unpackRData_mx h

theorem numberedType_srv (lib : Library) : NumberedType lib typeSRV [2, 2, 2] where
  split {x v s} h := by
    have hcase : writeRData (encoders lib) x typeSRV s = writeRDataSRV x s := rfl
    rw [hcase, writeRDataSRV] at h
    split at h
    · exact ⟨[_, _, _], _, _, ‹_›, rfl⟩
    · cases h
  write {s texts name rest} h htexts := by
    refine ⟨"dns: invalid SRV numeric field", fun x => ?_⟩
    match texts, htexts with
    | [priority, weight, port], _ =>
      have hcase : writeRData (encoders lib) x typeSRV s = writeRDataSRV x s := rfl
      rw [hcase, writeRDataSRV, h]
      rfl
  unpack {wire name next} h := by
    have hcase : unpackRData lib typeSRV wire = unpackSRV wire := rfl
    obtain ⟨ls, j, hat, -⟩ := unpackDomainName_nameAt h
    have hbounds := hat.bounds
    have hsix : [2, 2, 2].sum = 6 := rfl
    rw [hsix] at h hbounds
    rw [hcase, unpackSRV, if_neg (by omega), readWireDomain_ok h]
    simp only [shownNumbers, drop_drop]
    rfl

theorem shownNumbers_length (widths : List ℕ) (wire : Bytes) : (shownNumbers widths wire).length = widths.length := by
  induction widths generalizing wire with
  | nil => rfl
  | cons width widths ih => rw [shownNumbers, length_cons, length_cons, ih]

theorem parsedNumbers_widths {widths : List ℕ} {texts : List Text} (h : texts.length = widths.length) :
    (parsedNumbers widths texts).map Prod.fst = widths := by
  induction widths generalizing texts with
  | nil => rfl
  | cons width widths ih =>
    match texts, h with
    | s :: texts, h => exact congrArg (width :: ·) (ih (Nat.succ.inj h))

theorem NumberedType.writesBack {widths : List ℕ} (ht : NumberedType lib type widths)
    (hwidths : widths.sum ≤ 6) (h : packRData (encoders lib) type text = .ok w)
    (hlen : ∀ texts name rest, fields text = texts ++ name :: rest → texts.length = widths.length →
      (wireName name).length ≤ maxNameLen) : WritesBack lib type w := by
  obtain ⟨v, hv, rfl⟩ := packRData_iff.mp h
  obtain ⟨texts, name, rest, hfields, htexts⟩ := ht.split hv
  obtain ⟨e, hwrite⟩ := ht.write hfields htexts
  have hshort := dotted_of_wireName (hlen texts name rest hfields htexts)
  have hclear : Unspaced name := by
    have hmem : name ∈ fields text := by
      rw [hfields]
      exact mem_append_right texts mem_cons_self
    exact (mem_fields hmem).2
  rw [hwrite] at hv
  split at hv
  · cases hv
  rename_i front hfront
  obtain ⟨x, hfill, hv⟩ := Fallible.bind_ok hv
  obtain ⟨-, hrun⟩ := domain_ok hv
  have hx := fill_ok hfill
  have htable : x.table = [] := by rw [hx]; rfl
  have hstart : x.out = front := by rw [hx, PacketWriter.put, nil_append]
  have hlimit : x.limit = rdataBufferSize := by rw [hx]; rfl
  have hlength : front.length = widths.sum := by rw [numbers_length hfront, parsedNumbers_widths htexts]
  obtain ⟨hls, hout⟩ := hrun.first htable
  rw [hstart] at hout
  have hplace : wireName name <+: v.out.drop widths.sum :=
    ⟨[], by rw [append_nil, hout, ← hlength, drop_left]⟩
  have hroom : x.offset + 257 ≤ x.limit := by
    have hbuffer : rdataBufferSize = 4096 := rfl
    rw [PacketWriter.offset, hstart, hlimit]
    omega
  obtain ⟨v', hagain, hout', -⟩ := hrun.again htable hshort hroom
  have hwords : fields (spaced (shownNumbers widths v.out ++ [absolute (nameLabels name)])) =
      shownNumbers widths v.out ++ [absolute (nameLabels name)] := by
    apply fields_intercalate
    intro p hp
    rcases mem_append.mp hp with hp | hp
    · exact shownNumbers_words p hp
    · rw [mem_singleton] at hp
      exact hp ▸ absolute_word fun l hl => hclear.of_isInfix (nameLabels_isInfix hl)
  obtain ⟨e', hwrite'⟩ := ht.write hwords (shownNumbers_length _ _)
  have hnumbers := numbers_shown hlength (wireName name)
  rw [← hout] at hnumbers
  refine ⟨spaced (shownNumbers widths v.out ++ [absolute (nameLabels name)]), ?_, packRData_iff.mpr ⟨v', ?_, hout'⟩⟩
  · exact ht.unpack (unpackDomainName_of_nameAt (nameAt_wireName hls hplace) (Nat.zero_le _) hshort)
  · rw [hwrite', hnumbers]
    dsimp only
    rw [hfill, Fallible.ok_bind, PacketWriter.domain, PacketWriter.writeDomain, hagain]
    rfl

end Domains

section Signatures

theorem parseRRSIGTimestamp_formatUint {n : ℕ} (hn : n < 2 ^ 32) : parseRRSIGTimestamp (formatUint n) = some n := by
  have hshort : (formatUint n).length ≤ 9 + 1 := formatUint_length (Nat.lt_trans hn (by decide))
  rw [parseRRSIGTimestamp, if_neg (by omega)]
  exact parseUint_formatUint hn

theorem typeString_word (type : RRType) : typeString type ≠ [] ∧ Unspaced (typeString type) := by
  have htable : ∀ e ∈ mnemonics, ascii e.1 ≠ [] ∧ ∀ b ∈ ascii e.1, 0x20 < b.toNat ∧ b.toNat < 0x7F := by decide +kernel
  unfold typeString
  split
  · rename_i e hfind
    obtain ⟨hne, hgraphic⟩ := htable e (mem_of_find?_eq_some hfind)
    exact ⟨hne, unspaced_of_graphic hgraphic⟩
  · refine ⟨append_ne_nil_of_right_ne_nil _ (formatUint_ne_nil _), unspaced_of_graphic fun b hb => ?_⟩
    have hgeneric : ∀ b ∈ ascii "TYPE", 0x20 < b.toNat ∧ b.toNat < 0x7F := by decide +kernel
    rcases mem_append.mp hb with hb | hb
    · exact hgeneric b hb
    · exact formatUint_graphic hb

def signatureNumbers (c : Capitals) (typeCovered algorithm labels originalTTL expiration inception keyTag : Text) :
    List (ℕ × Option ℕ) :=
  (2, (parseType c typeCovered).map UInt16.toNat) :: decimals 1 [algorithm, labels] ++ decimals 4 [originalTTL] ++
    [(4, parseRRSIGTimestamp expiration), (4, parseRRSIGTimestamp inception)] ++ decimals 2 [keyTag]

theorem parseRRSIGTimestamp_uintAt (wire : Bytes) (i : ℕ) :
    parseRRSIGTimestamp (uintAt 4 wire i) = parseUint (uintAt 4 wire i) (8 * 4) := by
  have hlt : ofBigEndian ((wire.drop i).take 4) < 2 ^ 32 :=
    calc ofBigEndian ((wire.drop i).take 4) < 256 ^ ((wire.drop i).take 4).length := ofBigEndian_lt _
      _ ≤ 256 ^ 4 := Nat.pow_le_pow_right (by decide) (length_take_le _ _)
  rw [uintAt, parseRRSIGTimestamp_formatUint hlt]
  exact (parseUint_formatUint hlt).symm

theorem signatureNumbers_shown (c : Capitals) (h : front.length = 18) (hwire : front <+: wire) :
    numbers (signatureNumbers c (typeString (uint16At wire 0)) (uintAt 1 wire 2) (uintAt 1 wire 3) (uintAt 4 wire 4)
      (uintAt 4 wire 8) (uintAt 4 wire 12) (uintAt 2 wire 16)) = some front := by
  obtain ⟨rest, rfl⟩ := hwire
  have htwo : (front.take 2).length = 2 := by
    rw [length_take]
    omega
  have hvalue : (uint16At (front ++ rest) 0).toNat = ofBigEndian (front.take 2) := by
    have hlt : ofBigEndian (front.take 2) < 2 ^ 16 := by
      have hlt := ofBigEndian_lt (front.take 2)
      rwa [htwo] at hlt
    rw [uint16At, drop_zero, take_append_of_le_length (by omega), UInt16.toNat_ofNat', Nat.mod_eq_of_lt hlt]
  have hdrop : (front ++ rest).drop 2 = front.drop 2 ++ rest := drop_append_of_le_length (by omega)
  have hsum : (front.drop 2).length = [1, 1, 4, 4, 4, 2].sum := by
    rw [length_drop, h]
    rfl
  have hrest := numbers_shown hsum rest
  have hbytes := bigEndian_ofBigEndian (front.take 2)
  rw [htwo] at hbytes
  rw [← hdrop] at hrest
  simp only [shownNumbers, drop_drop] at hrest
  rw [signatureNumbers, parseType_typeString, Option.map_some, hvalue, parseRRSIGTimestamp_uintAt, parseRRSIGTimestamp_uintAt]
  refine (numbers_cons hrest).trans ?_
  rw [hbytes, take_append_drop]

def signatureFields (wire : Bytes) (name signature : Text) : List Text :=
  [typeString (uint16At wire 0), uintAt 1 wire 2, uintAt 1 wire 3, uintAt 4 wire 4, uintAt 4 wire 8, uintAt 4 wire 12,
    uintAt 2 wire 16, name, signature]

theorem unpackRData_rrsig {next : ℕ} (h : unpackDomainName wire 18 = .ok (name, next)) :
    unpackRData lib typeRRSIG wire =
      .ok (spaced (signatureFields wire (name ++ [dotByte]) (Base64.encodeToString (wire.drop next)))) := by
  have hcase : unpackRData lib typeRRSIG wire = unpackRRSIG wire := rfl
  obtain ⟨ls, j, hat, -⟩ := unpackDomainName_nameAt h
  have hbounds := hat.bounds
  rw [hcase, unpackRRSIG, if_neg (by omega), readWireDomain_ok h]
  rfl

theorem signatureFields_words (wire : Bytes) {signature : Bytes} (hname : name ≠ [] ∧ Unspaced name)
    (hsignature : signature ≠ [] ∧ Unspaced signature) :
    fields (spaced (signatureFields wire name signature)) = signatureFields wire name signature := by
  have hword : ∀ width i, uintAt width wire i ≠ [] ∧ Unspaced (uintAt width wire i) := fun width i =>
    ⟨formatUint_ne_nil _, unspaced_of_graphic fun _ hb => formatUint_graphic hb⟩
  apply fields_intercalate
  simp only [signatureFields, forall_mem_cons]
  refine ⟨typeString_word _, hword 1 2, hword 1 3, hword 4 4, hword 4 8, hword 4 12, hword 2 16, hname, hsignature, ?_⟩
  exact fun p hp => absurd hp not_mem_nil

structure SignatureForm (text wire front name signature : Bytes) : Prop where
  field : (fields text)[7]? = some name
  word : Unspaced name
  front_length : front.length = 18
  labels : ∀ l ∈ nameLabels name, IsLabel l
  nonempty : signature ≠ []
  wire_eq : wire = front ++ (wireName name ++ signature)
  fits : wire.length ≤ rdataBufferSize

theorem signatureForm (h : packRData (encoders lib) typeRRSIG text = .ok w) :
    ∃ front name signature, SignatureForm text w front name signature := by
  obtain ⟨v, hv, rfl⟩ := packRData_iff.mp h
  have hcase : ∀ x s, writeRData (encoders lib) x typeRRSIG s = writeRDataRRSIG lib.capitals x s := fun _ _ => rfl
  rw [hcase, writeRDataRRSIG] at hv
  split at hv
  · rename_i typeCovered algorithm labels originalTTL expiration inception keyTag signerName part parts hfields
    dsimp only at hv
    split at hv
    · cases hv
    rename_i front hfront
    split at hv
    · cases hv
    rename_i signature hsignature
    have hfound : ∀ p ∈ signerName :: part :: parts, p ≠ [] ∧ Unspaced p := by
      intro p hp
      apply mem_fields (s := text)
      rw [hfields]
      simp only [mem_cons] at hp ⊢
      tauto
    obtain ⟨x, hfill, hv⟩ := Fallible.bind_ok hv
    obtain ⟨y, hname, hv⟩ := Fallible.bind_ok hv
    obtain ⟨-, hrun⟩ := writeUncompressedDomain_ok hname
    have hx := fill_ok hfill
    obtain ⟨hls, hout⟩ := hrun.first (by rw [hx]; rfl)
    have hwire : v.out = front ++ (wireName signerName ++ signature) := by
      rw [fill_ok hv, PacketWriter.put, hout, hx, PacketWriter.put, nil_append, append_assoc]
    refine ⟨front, signerName, signature, by rw [hfields]; rfl, (hfound signerName mem_cons_self).2,
      numbers_length hfront, hls, ?_, hwire, packRData_length (by decide) h⟩
    exact payload_base64.decoded hsignature fun p hp => hfound p (mem_cons_of_mem signerName hp)
  · cases hv

theorem fill_of_le (h : x.offset + bytes.length ≤ x.limit) : x.fill bytes = .ok (x.put bytes) := by
  rw [PacketWriter.fill, if_neg (Nat.not_lt.mpr h)]

theorem writesBack_rrsig (h : packRData (encoders lib) typeRRSIG text = .ok w)
    (hlen : ∀ name, (fields text)[7]? = some name → (wireName name).length ≤ maxNameLen) : WritesBack lib typeRRSIG w := by
  obtain ⟨front, name, signature, hform⟩ := signatureForm h
  have hlength := hform.front_length
  have hshort := dotted_of_wireName (hlen name hform.field)
  have hplace : wireName name <+: w.drop 18 := by
    rw [hform.wire_eq, ← hlength, drop_left]
    exact prefix_append _ _
  have hbehind : w.drop (18 + (wireName name).length) = signature := by
    rw [hform.wire_eq, ← drop_drop, ← hlength, drop_left, drop_left]
  have hread := unpackDomainName_of_nameAt (nameAt_wireName hform.labels hplace) (Nat.zero_le _) hshort
  refine ⟨spaced (signatureFields w (absolute (nameLabels name)) (Base64.encodeToString signature)), ?_, ?_⟩
  · rw [unpackRData_rrsig hread, hbehind]
    rfl
  -- The front is filled into the empty buffer, then the name is written and the signature behind it.
  have hfit := hform.fits
  rw [hform.wire_eq, length_append, length_append, hlength] at hfit
  have hbuffer : rdataBufferSize = 4096 := rfl
  have hfill : PacketWriter.fill ⟨rdataBufferSize, [], []⟩ front = .ok ⟨rdataBufferSize, front, []⟩ := by
    apply fill_of_le
    dsimp only [PacketWriter.offset]
    rw [length_nil]
    omega
  obtain ⟨y, hwrite, hrun⟩ := absolute_written hform.labels hshort (x := ⟨rdataBufferSize, front, []⟩)
    (by dsimp only [PacketWriter.offset]; omega) false
  obtain ⟨_, _, _, hwritten⟩ := hrun.written
  obtain ⟨-, hout⟩ := hrun.first rfl
  rw [wireName, nameLabels_absolute hform.labels fun l hl => nameLabels_no_dot hl, ← wireName] at hout
  have hlast : y.fill signature = .ok (y.put signature) := by
    apply fill_of_le
    rw [hwritten.limit_eq, PacketWriter.offset, hout, length_append]
    dsimp only
    omega
  have hwords := signatureFields_words w (absolute_word fun l hl => hform.word.of_isInfix (nameLabels_isInfix hl))
    (payload_base64.word hform.nonempty)
  have hfront : front <+: w := ⟨_, hform.wire_eq.symm⟩
  have hnumbers := signatureNumbers_shown lib.capitals hlength hfront
  rw [signatureNumbers] at hnumbers
  apply packRData_iff.mpr
  refine ⟨y.put signature, ?_, ?_⟩
  · have hcase : ∀ x s, writeRData (encoders lib) x typeRRSIG s = writeRDataRRSIG lib.capitals x s := fun _ _ => rfl
    rw [hcase, writeRDataRRSIG, hwords, signatureFields]
    dsimp only
    rw [hnumbers]
    rw [flatten_cons, flatten_nil, append_nil, Base64.decodeString_encodeToString]
    dsimp only
    rw [hfill, Fallible.ok_bind, PacketWriter.writeUncompressedDomain, hwrite]
    exact hlast
  · rw [PacketWriter.put, hout, hform.wire_eq, append_assoc]

end Signatures

end Kdns.Wire
