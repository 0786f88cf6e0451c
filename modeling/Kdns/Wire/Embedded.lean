import Kdns.Lib.Fallible
import Kdns.Wire.RData
import Kdns.Wire.Suffixes

namespace Kdns.Wire

open ByteStream Dns CompressedName Fallible List

def namedTypes : List RRType := [typeNS, typeCNAME, typePTR, typeMX, typeSRV, typeSOA, typeRRSIG, typeNSEC]

def nameField (text : Text) (index offset : ℕ) : List (ℕ × Text) :=
  ((GoStrings.fields text)[index]?).toList.map fun name => (offset, name)

def soaNames (text : Text) : List (ℕ × Text) :=
  match GoStrings.fields text with
  | primaryMaster :: responsibleMailbox :: _ => [(0, primaryMaster), ((wireName primaryMaster).length, responsibleMailbox)]
  | _ => []

def embeddedNames (type : RRType) (text : Text) : List (ℕ × Text) :=
  if type = typeCNAME ∨ type = typeNS ∨ type = typePTR then [(0, text)]
  else if type = typeSOA then soaNames text
  else if type = typeMX then nameField text 1 2
  else if type = typeSRV then nameField text 3 6
  else if type = typeRRSIG then nameField text 7 18
  else if type = typeNSEC then nameField text 0 0
  else []

def InFull (names : List (ℕ × Text)) (rdata : Bytes) : Prop :=
  ∀ e ∈ names, (∀ l ∈ nameLabels e.2, IsLabel l) ∧ wireName e.2 <+: rdata.drop e.1

variable {enc : Encoders} {type : RRType} {text : Text} {rdata bytes name : Bytes} {allow : Bool} {w w' : PacketWriter}

theorem packRData_iff :
    packRData enc type text = .ok rdata ↔ ∃ w, writeRData enc ⟨rdataBufferSize, [], []⟩ type text = .ok w ∧ w.out = rdata := by
  constructor
  · intro h
    obtain ⟨w, hw, h⟩ := bind_ok h
    exact ⟨w, hw, Except.ok.inj h⟩
  · rintro ⟨w, hw, rfl⟩
    rw [packRData, hw]
    rfl

theorem numbers_length {parsed : List (ℕ × Option ℕ)} (h : numbers parsed = some bytes) :
    bytes.length = (parsed.map Prod.fst).sum := by
  obtain ⟨parts, hparts, rfl⟩ := Option.map_eq_some_iff.mp h
  clear h
  induction parsed generalizing parts with
  | nil =>
    cases hparts
    rfl
  | cons e parsed ih =>
    rw [mapM_cons] at hparts
    obtain ⟨part, hpart, hparts⟩ := Option.bind_eq_some_iff.mp hparts
    obtain ⟨rest, hrest, hparts⟩ := Option.bind_eq_some_iff.mp hparts
    cases hparts
    obtain ⟨n, -, rfl⟩ := Option.map_eq_some_iff.mp hpart
    rw [flatten_cons, length_append, bigEndian_length, map_cons, sum_cons, ih rest hrest]

section Steps

variable {name : Text} {front back : Bytes}

theorem fill_ok (h : w.fill bytes = .ok w') : w' = w.put bytes := by
  unfold PacketWriter.fill at h
  split_ifs at h
  cases h
  rfl

theorem written_ok {r : PacketWriter × Option WireError} (h : written r = .ok w') : r = (w', none) := by
  rcases r with ⟨w, _ | e⟩
  · cases h
    rfl
  · cases h

theorem domain_ok (h : w.domain name = .ok w') : name.length ≤ maxNameLen ∧ SuffixRun true w name w' :=
  writeDomainCompressed_run (written_ok h)

theorem writeUncompressedDomain_ok (h : w.writeUncompressedDomain name = .ok w') :
    name.length ≤ maxNameLen ∧ SuffixRun false w name w' :=
  writeDomainCompressed_run (written_ok h)

theorem SuffixRun.first (h : SuffixRun allow w name w') (hw : w.table = []) :
    (∀ l ∈ nameLabels name, IsLabel l) ∧ w'.out = w.out ++ wireName name := by
  have hknown : w.known = [] := by rw [PacketWriter.known, hw, map_nil]
  rcases h.full_or_known (by rw [hknown]; intro s hs; cases hs) with ⟨-, hfull⟩ | ⟨-, _, _, _, _, -, hmem, -⟩
  · exact hfull
  · rw [hw] at hmem
    cases hmem

theorem isPrefix_drop_of_append {x : Bytes} {i : ℕ} (h : front.length = i) : x <+: (front ++ (x ++ back)).drop i := by
  subst h
  rw [drop_left]
  exact prefix_append _ _

theorem inFull_field {index offset : ℕ} (hfield : (GoStrings.fields text)[index]? = some name)
    (hlabels : ∀ l ∈ nameLabels name, IsLabel l) (hfront : front.length = offset)
    (hout : rdata = front ++ (wireName name ++ back)) : InFull (nameField text index offset) rdata := by
  intro e he
  rw [nameField, hfield] at he
  obtain rfl := mem_singleton.mp he
  rw [hout]
  exact ⟨hlabels, isPrefix_drop_of_append hfront⟩

end Steps

section Single

variable {c : GoStrings.Capitals}

theorem inFull_domain (h : w.domain text = .ok w') (ht : w.table = []) (hw : w.out = []) :
    InFull [(0, text)] w'.out := by
  intro e he
  obtain rfl := mem_singleton.mp he
  obtain ⟨hlabels, hout⟩ := (domain_ok h).2.first ht
  rw [hout, hw]
  exact ⟨hlabels, prefix_rfl⟩

theorem inFull_behind_numbers {parsed : List (ℕ × Option ℕ)} {name : Text} {index : ℕ}
    (hbytes : numbers parsed = some bytes) (hfield : (GoStrings.fields text)[index]? = some name)
    (h : (w.fill bytes >>= fun w => w.domain name) = .ok w') (ht : w.table = []) (hw : w.out = []) :
    InFull (nameField text index (parsed.map Prod.fst).sum) w'.out := by
  obtain ⟨v, hfill, h⟩ := bind_ok h
  obtain rfl := fill_ok hfill
  obtain ⟨hlabels, hname⟩ := (domain_ok h).2.first ht
  have hout : w'.out = bytes ++ (wireName name ++ []) := by rw [hname, PacketWriter.put, hw, nil_append, append_nil]
  exact inFull_field hfield hlabels (numbers_length hbytes) hout

theorem inFull_mx (h : writeRDataMX w text = .ok w') (ht : w.table = []) (hw : w.out = []) :
    InFull (nameField text 1 2) w'.out := by
  unfold writeRDataMX at h
  split at h
  · rename_i preference exchange rest hfields
    split at h
    · cases h
    · rename_i bytes hbytes
      exact inFull_behind_numbers hbytes (by rw [hfields]; rfl) h ht hw
  · cases h

theorem inFull_srv (h : writeRDataSRV w text = .ok w') (ht : w.table = []) (hw : w.out = []) :
    InFull (nameField text 3 6) w'.out := by
  unfold writeRDataSRV at h
  split at h
  · rename_i priority weight port target rest hfields
    split at h
    · cases h
    · rename_i bytes hbytes
      exact inFull_behind_numbers hbytes (by rw [hfields]; rfl) h ht hw
  · cases h

theorem inFull_rrsig (h : writeRDataRRSIG c w text = .ok w') (ht : w.table = []) (hw : w.out = []) :
    InFull (nameField text 7 18) w'.out := by
  unfold writeRDataRRSIG at h
  split at h
  · rename_i typeCovered algorithm labels originalTTL expiration inception keyTag signerName part parts hfields
    dsimp only at h
    split at h
    · cases h
    · rename_i bytes hbytes
      split at h
      · cases h
      · rename_i signature _
        obtain ⟨v, hfill, h⟩ := bind_ok h
        obtain rfl := fill_ok hfill
        obtain ⟨v, hname, h⟩ := bind_ok h
        obtain rfl := fill_ok h
        obtain ⟨hlabels, hout⟩ := (writeUncompressedDomain_ok hname).2.first ht
        apply inFull_field (by rw [hfields]; rfl) hlabels (numbers_length hbytes)
        rw [PacketWriter.put, hout, PacketWriter.put, hw, nil_append, append_assoc]
  · cases h

theorem inFull_nsec (h : writeRDataNSEC c w text = .ok w') (ht : w.table = []) (hw : w.out = []) :
    InFull (nameField text 0 0) w'.out := by
  unfold writeRDataNSEC at h
  split at h
  · rename_i nextOwnerName type types hfields
    obtain ⟨v, hname, h⟩ := bind_ok h
    obtain ⟨bitmap, -, h⟩ := bind_ok h
    cases h
    obtain ⟨hlabels, hout⟩ := (writeUncompressedDomain_ok hname).2.first ht
    apply inFull_field (by rw [hfields]; rfl) hlabels length_nil
    rw [PacketWriter.put, hout, hw, nil_append, nil_append]
  · cases h

end Single

theorem encodeLabels_length (ls : List Bytes) : (encodeLabels ls).length = (dotted ls).length := by
  induction ls with
  | nil => rfl
  | cons l ls ih =>
    rw [encodeLabels_cons, dotted_cons, length_append, length_append, length_append, labelBytes_length, ih,
      length_singleton]
    omega

theorem SuffixRun.place_lt (h : SuffixRun allow w name w') (hlen : name.length ≤ maxNameLen) (ht : w.table = [])
    (hw : w.out = []) {s : Bytes} {t : ℕ} (hmem : (s, t) ∈ w'.table) : t < 255 := by
  obtain ⟨front, back, closing, hwritten⟩ := h.written
  rcases hwritten.learned _ hmem with hmem | ⟨-, -, k, hk, hplace, -⟩
  · rw [ht] at hmem
    cases hmem
  · have hoffset : w.offset = 0 := by rw [PacketWriter.offset, hw, length_nil]
    have hmax : maxNameLen = 255 := rfl
    have hshort := dotted_nameLabels_length name
    have hpos := length_pos_of_ne_nil (hwritten.front_labels _ (getElem_mem hk)).nonempty
    have hfront : encodeLabels front = encodeLabels (front.take k) ++ (labelBytes front[k] ++ encodeLabels (front.drop (k + 1))) := by
      rw [← encodeLabels_cons, ← encodeLabels_append, getElem_cons_drop, take_append_drop]
    rw [hwritten.labels_eq, ← encodeLabels_length, encodeLabels_append, hfront] at hshort
    simp only [length_append, labelBytes_length] at hshort
    omega

def Shortened (name : Text) (i : ℕ) (rdata : Bytes) : Prop :=
  ∃ front back t, nameLabels name = front ++ back ∧ (∀ l ∈ front, IsLabel l) ∧ back ≠ [] ∧ t < 255 ∧
    encodeLabels front ++ pointerBytes t <+: rdata.drop i

def remembered (name : Text) : List Bytes := (labelSuffixes name).take maxCompressionOffsets

theorem SuffixRun.remembered (h : SuffixRun true w name w') (ht : w.table = [])
    (hlimit : w.limit ≤ pointerOffsetMask) : w'.known = remembered name := by
  obtain ⟨front, back, closing, hwritten⟩ := h.written
  have hfits := hwritten.fits
  have hsame := hwritten.limit_eq
  have hknown : w.known = [] := by rw [PacketWriter.known, ht, map_nil]
  have hlong : ∀ s ∈ w.known, name.length < s.length := by
    rw [hknown]
    intro s hs
    cases hs
  rw [h.known_eq hlong (by omega) (by rw [hknown]; exact Nat.zero_le _), hknown, nil_append]
  rfl

theorem soa_cases (h : writeRDataSOA w text = .ok w') (ht : w.table = []) (hw : w.out = [])
    (hlimit : w.limit ≤ pointerOffsetMask) : ∃ first second rest, GoStrings.fields text = first :: second :: rest ∧
      (Apart (remembered first) second ∧ InFull (soaNames text) w'.out ∨
        ¬ Apart (remembered first) second ∧ Shortened second (wireName first).length w'.out) := by
  unfold writeRDataSOA at h
  split at h
  · rename_i first second serial refresh retry expire minimumTTL hfields
    split at h
    · cases h
    · rename_i timers _
      obtain ⟨v, hfirst, h⟩ := bind_ok h
      obtain ⟨v', hsecond, h⟩ := bind_ok h
      obtain rfl := fill_ok h
      obtain ⟨hlen, hrun⟩ := domain_ok hfirst
      obtain ⟨-, hrun'⟩ := domain_ok hsecond
      obtain ⟨hlabels, hout⟩ := hrun.first ht
      rw [hw, nil_append] at hout
      have hknown := hrun.remembered ht hlimit
      have hhead : ∀ s ∈ v.known, Headed s := by
        intro s hs
        rw [hknown] at hs
        exact headed_of_mem_suffixesFrom (mem_of_mem_take hs)
      refine ⟨first, second, _, hfields, ?_⟩
      rcases hrun'.full_or_known hhead with ⟨hnone, hlabels', hout'⟩ | ⟨-, front, s, t, r, hsome, hmem, hsplit, hfront, hout'⟩
      · left
        rw [hknown] at hnone
        refine ⟨sharedPart_eq_none.mp (hnone rfl), ?_⟩
        intro e he
        rw [soaNames, hfields] at he
        simp only [mem_cons, not_mem_nil, or_false] at he
        rw [PacketWriter.put, hout', hout, append_assoc]
        rcases he with rfl | rfl
        · exact ⟨hlabels, prefix_append _ _⟩
        · exact ⟨hlabels', isPrefix_drop_of_append rfl⟩
      · right
        constructor
        · intro hapart
          rw [hknown, sharedPart_eq_none.mpr hapart] at hsome
          cases hsome
        · have hback := (headed_of_mem_suffixesFrom (sharedPart_some hsome).1).nameLabels_ne
          refine ⟨front, nameLabels r, t, hsplit, hfront, hback, hrun.place_lt hlen ht hw hmem, ?_⟩
          rw [PacketWriter.put, hout', hout, append_assoc]
          exact isPrefix_drop_of_append rfl
  · cases h

def NamesApart (type : RRType) (text : Text) : Prop :=
  match embeddedNames type text with
  | [first, second] => Apart (remembered first.2) second.2
  | _ => True

instance (type : RRType) (text : Text) : Decidable (NamesApart type text) := by
  unfold NamesApart
  split <;> infer_instance

theorem nameField_apart (text : Text) (index offset : ℕ) {a b : ℕ × Text} : nameField text index offset ≠ [a, b] := by
  unfold nameField
  cases (GoStrings.fields text)[index]? <;> simp

theorem packRData_cases (htype : type ∈ namedTypes) (h : packRData enc type text = .ok rdata) :
    NamesApart type text ∧ InFull (embeddedNames type text) rdata ∨
      ¬ NamesApart type text ∧ type = typeSOA ∧ ∃ first second, embeddedNames type text = [(0, first), ((wireName first).length, second)] ∧
        Shortened second (wireName first).length rdata := by
  obtain ⟨w, hw, h⟩ := bind_ok h
  cases h
  simp only [namedTypes, mem_cons, not_mem_nil, or_false] at htype
  have hsingle : ∀ index offset, embeddedNames type text = nameField text index offset →
      InFull (nameField text index offset) w.out →
      NamesApart type text ∧ InFull (embeddedNames type text) w.out := by
    intro index offset hnames hfull
    rw [NamesApart, hnames]
    split
    · exact absurd ‹_› (nameField_apart text index offset)
    · trivial
  rcases htype with rfl | rfl | rfl | rfl | rfl | rfl | rfl | rfl
  · exact .inl ⟨trivial, inFull_domain hw rfl rfl⟩
  · exact .inl ⟨trivial, inFull_domain hw rfl rfl⟩
  · exact .inl ⟨trivial, inFull_domain hw rfl rfl⟩
  · exact .inl (hsingle 1 2 rfl (inFull_mx hw rfl rfl))
  · exact .inl (hsingle 3 6 rfl (inFull_srv hw rfl rfl))
  · obtain ⟨first, second, rest, hfields, hcases⟩ := soa_cases hw rfl rfl (by decide)
    have hnames : embeddedNames typeSOA text = [(0, first), ((wireName first).length, second)] := by
      change soaNames text = _
      rw [soaNames, hfields]
    have happart : NamesApart typeSOA text ↔ Apart (remembered first) second := by rw [NamesApart, hnames]
    rw [happart]
    rcases hcases with ⟨hapart, hfull⟩ | ⟨hshared, hshort⟩
    · exact .inl ⟨hapart, hfull⟩
    · exact .inr ⟨hshared, rfl, first, second, hnames, hshort⟩
  · exact .inl (hsingle 7 18 rfl (inFull_rrsig hw rfl rfl))
  · exact .inl (hsingle 0 0 rfl (inFull_nsec hw rfl rfl))

end Kdns.Wire
