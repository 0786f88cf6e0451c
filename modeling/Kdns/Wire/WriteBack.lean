import Kdns.Lib.GoFields
import Kdns.Lib.GoQuote
import Kdns.Wire.Embedded
import Kdns.Wire.Presentation

namespace Kdns.Wire

open ByteStream Dns GoStrings List

variable {s tag : Text} {lib : Library} {text w : Bytes} {type : RRType}

section Chunks

def chunksFrom : ℕ → Text → List Text
  | 0, _ => []
  | fuel + 1, s => if s = [] then [] else s.take 255 :: chunksFrom fuel (s.drop 255)

theorem chunksFrom_length {fuel : ℕ} (h : s.length ≤ fuel) : (chunksFrom fuel s).length = (s.length + 254) / 255 := by
  induction fuel generalizing s with
  | zero =>
    rw [eq_nil_of_length_eq_zero (Nat.le_zero.mp h)]
    rfl
  | succ fuel ih =>
    rw [chunksFrom]
    split_ifs with hnil
    · rw [hnil]
      rfl
    · have hpos := length_pos_of_ne_nil hnil
      rw [length_cons, ih (by rw [length_drop]; omega), length_drop]
      omega

theorem chunksFrom_sizes (fuel : ℕ) (s : Text) : ∀ c ∈ chunksFrom fuel s, c ≠ [] ∧ c.length ≤ 255 := by
  induction fuel generalizing s with
  | zero => exact fun c hc => absurd hc not_mem_nil
  | succ fuel ih =>
    rw [chunksFrom]
    split_ifs with hnil
    · exact fun c hc => absurd hc not_mem_nil
    · intro c hc
      rcases mem_cons.mp hc with rfl | hc
      · exact ⟨by simpa using hnil, length_take_le _ _⟩
      · exact ih _ c hc

theorem chunksFrom_flatten {fuel : ℕ} (h : s.length ≤ fuel) : (chunksFrom fuel s).flatten = s := by
  induction fuel generalizing s with
  | zero =>
    rw [eq_nil_of_length_eq_zero (Nat.le_zero.mp h)]
    rfl
  | succ fuel ih =>
    rw [chunksFrom]
    split_ifs with hnil
    · rw [hnil]
      rfl
    · have hpos := length_pos_of_ne_nil hnil
      rw [flatten_cons, ih (by rw [length_drop]; omega), take_append_drop]

theorem writeChunks_ok {fuel : ℕ} {w v : PacketWriter} (h : writeChunks fuel w s = .ok v) :
    v.out = w.out ++ (chunksFrom fuel s).flatMap chunkBytes := by
  induction fuel generalizing w s with
  | zero =>
    cases h
    exact (append_nil _).symm
  | succ fuel ih =>
    rw [writeChunks] at h
    rw [chunksFrom]
    split_ifs at h ⊢ with hnil
    · cases h
      exact (append_nil _).symm
    · obtain ⟨x, hfill, h⟩ := Fallible.bind_ok h
      rw [ih h, fill_ok hfill, PacketWriter.put, flatMap_cons, append_assoc]

theorem flatMap_chunkBytes_length (chunks : List Text) :
    (chunks.flatMap chunkBytes).length = chunks.flatten.length + chunks.length := by
  induction chunks with
  | nil => rfl
  | cons c chunks ih =>
    rw [flatMap_cons, flatten_cons, length_append, length_append, ih, chunkBytes]
    simp only [length_cons]
    omega

def joined (builder chunk : Text) : Text := builder ++ (if builder = [] then [] else [0x20]) ++ chunk

theorem unpackChunks_flatMap {fuel : ℕ} {chunks : List Text} (h : ∀ c ∈ chunks, c.length ≤ 255) (hfuel : chunks.length ≤ fuel)
    (builder : Text) : unpackChunks fuel builder (chunks.flatMap chunkBytes) = .ok (chunks.foldl joined builder) := by
  induction chunks generalizing fuel builder with
  | nil => cases fuel <;> rfl
  | cons c chunks ih =>
    obtain ⟨fuel, rfl⟩ : ∃ k, fuel = k + 1 := ⟨fuel - 1, by rw [length_cons] at hfuel; omega⟩
    have hc : (UInt8.ofNat c.length).toNat = c.length := by
      have hle := h c mem_cons_self
      rw [UInt8.toNat_ofNat']
      omega
    rw [flatMap_cons, chunkBytes, cons_append, unpackChunks, hc, if_neg (by rw [length_append]; omega),
      take_left, drop_left, ih (fun c' hc' => h c' (mem_cons_of_mem c hc')) (Nat.le_of_succ_le_succ hfuel),
      foldl_cons]
    rfl

theorem foldl_joined_length (chunks : List Text) {builder : Text} (hb : builder ≠ []) :
    (chunks.foldl joined builder).length = builder.length + chunks.flatten.length + chunks.length := by
  induction chunks generalizing builder with
  | nil => rfl
  | cons c chunks ih =>
    have hjoined : joined builder c = builder ++ [0x20] ++ c := by rw [joined, if_neg hb]
    rw [foldl_cons, hjoined, ih (by simp)]
    simp only [length_append, length_cons, length_nil, flatten_cons]
    omega

end Chunks

def WritesBack (lib : Library) (type : RRType) (w : Bytes) : Prop :=
  ∃ shown, unpackRData lib type w = .ok shown ∧ packRData (encoders lib) type shown = .ok w

section Texts

theorem packRData_txt (h : packRData (encoders lib) typeTXT text = .ok w) (hne : text ≠ []) :
    w = (chunksFrom text.length text).flatMap chunkBytes := by
  obtain ⟨v, hv, rfl⟩ := packRData_iff.mp h
  have hcase : writeRData (encoders lib) ⟨rdataBufferSize, [], []⟩ typeTXT text =
      writeRDataTXT ⟨rdataBufferSize, [], []⟩ text := rfl
  rw [hcase, writeRDataTXT, if_neg hne] at hv
  exact writeChunks_ok hv

theorem unpackRData_txt (lib : Library) {chunks : List Text} (h : ∀ c ∈ chunks, c.length ≤ 255) :
    unpackRData lib typeTXT (chunks.flatMap chunkBytes) = .ok (chunks.foldl joined []) := by
  have hcase : unpackRData lib typeTXT (chunks.flatMap chunkBytes) =
      unpackChunks (chunks.flatMap chunkBytes).length [] (chunks.flatMap chunkBytes) := rfl
  rw [hcase, unpackChunks_flatMap h]
  rw [flatMap_chunkBytes_length]
  exact Nat.le_add_left _ _

variable (h : packRData (encoders lib) typeTXT text = .ok w)
include h

theorem packRData_txt_length (hne : text ≠ []) :
    w.length = text.length + (text.length + 254) / 255 := by
  rw [packRData_txt h hne, flatMap_chunkBytes_length, chunksFrom_flatten (Nat.le_refl _), chunksFrom_length (Nat.le_refl _)]

theorem writesBack_txt : WritesBack lib typeTXT w ↔ text.length ≤ 255 := by
  by_cases hnil : text = []
  · subst hnil
    obtain ⟨v, hv, rfl⟩ := packRData_iff.mp h
    cases hv
    exact ⟨fun _ => Nat.zero_le _, fun _ => ⟨[], rfl, rfl⟩⟩
  have hw := packRData_txt h hnil
  have hpos := length_pos_of_ne_nil hnil
  have hcount := chunksFrom_length (Nat.le_refl text.length)
  have hsizes := chunksFrom_sizes text.length text
  have hflat := chunksFrom_flatten (Nat.le_refl text.length)
  have hread := unpackRData_txt lib fun c hc => (hsizes c hc).2
  rw [← hw] at hread
  generalize chunksFrom text.length text = chunks at *
  obtain ⟨first, rest, rfl⟩ : ∃ c cs, chunks = c :: cs :=
    exists_cons_of_length_pos (by rw [hcount]; omega)
  have hfirst : joined [] first = first := rfl
  rw [foldl_cons, hfirst] at hread
  rw [length_cons] at hcount
  rw [flatten_cons] at hflat
  constructor
  · rintro ⟨shown, hunpack, hpack⟩
    rw [hread] at hunpack
    cases hunpack
    have hshown := foldl_joined_length rest (hsizes first mem_cons_self).1
    rw [← length_append, hflat] at hshown
    have hlength := packRData_txt_length h hnil
    rw [packRData_txt_length hpack (ne_nil_of_length_pos (by omega))] at hlength
    omega
  · intro hshort
    have hrest : rest = [] := eq_nil_of_length_eq_zero (by omega)
    subst hrest
    rw [flatten_nil, append_nil] at hflat
    rw [foldl_nil, hflat] at hread
    exact ⟨text, hread, h⟩

end Texts

section Hexadecimal

theorem fields_encodeHex (bytes : Bytes) : fields (encodeHex bytes) = if bytes = [] then [] else [encodeHex bytes] := by
  split_ifs with hnil
  · rw [hnil]
    rfl
  · apply fields_word
    · exact unspaced_of_graphic fun b hb => hexValue_graphic (hexValue_encodeHex hb)
    · apply ne_nil_of_length_pos
      have hpos := length_pos_of_ne_nil hnil
      rw [encodeHex_length]
      omega

theorem encodeHex_eq_self {bytes : Bytes} (h : encodeHex bytes = bytes) : bytes = [] := by
  have hlength := congrArg length h
  rw [encodeHex_length] at hlength
  exact eq_nil_of_length_eq_zero (by omega)

theorem not_writesBack_nsec (htype : type = typeNSEC ∨ type = typeNSEC3) : ¬WritesBack lib type w := by
  rintro ⟨shown, hunpack, hpack⟩
  obtain ⟨v, hv, -⟩ := packRData_iff.mp hpack
  rcases htype with rfl | rfl
  · cases hunpack
    have hcase : writeRData (encoders lib) ⟨rdataBufferSize, [], []⟩ typeNSEC (encodeHex w) =
        writeRDataNSEC lib.capitals ⟨rdataBufferSize, [], []⟩ (encodeHex w) := rfl
    rw [hcase, writeRDataNSEC, fields_encodeHex] at hv
    by_cases hnil : w = []
    · rw [if_pos hnil] at hv
      cases hv
    · rw [if_neg hnil] at hv
      cases hv
  · cases hunpack
    have hcase : writeRData (encoders lib) ⟨rdataBufferSize, [], []⟩ typeNSEC3 (encodeHex w) =
        writeRDataNSEC3 lib ⟨rdataBufferSize, [], []⟩ (encodeHex w) := rfl
    rw [hcase, writeRDataNSEC3, fields_encodeHex] at hv
    by_cases hnil : w = []
    · rw [if_pos hnil] at hv
      cases hv
    · rw [if_neg hnil] at hv
      cases hv

def codecs : List RRType :=
  [typeA, typeAAAA, typeTXT, typeCNAME, typeNS, typePTR, typeSOA, typeMX, typeSRV, typeDNSKEY, typeDS, typeRRSIG, typeNSEC,
    typeNSEC3, typeZONEMD, typeCAA]

variable (htype : type ∉ codecs)
include htype

theorem packRData_raw (h : packRData (encoders lib) type text = .ok w) : w = text := by
  obtain ⟨v, hv, rfl⟩ := packRData_iff.mp h
  simp only [codecs, mem_cons, not_mem_nil, or_false, not_or] at htype
  simp only [writeRData, encoders, writePlain, htype, or_self, if_false] at hv
  rw [fill_ok hv]
  rfl

theorem unpackRData_raw : unpackRData lib type w = .ok (encodeHex w) := by
  simp only [codecs, mem_cons, not_mem_nil, or_false, not_or] at htype
  simp only [unpackRData, htype, or_self, if_false]

theorem writesBack_raw (h : packRData (encoders lib) type text = .ok w) :
    WritesBack lib type w ↔ text = [] := by
  have hw := packRData_raw htype h
  subst hw
  constructor
  · rintro ⟨shown, hunpack, hpack⟩
    rw [unpackRData_raw htype] at hunpack
    cases hunpack
    exact encodeHex_eq_self (packRData_raw htype hpack).symm
  · rintro rfl
    exact ⟨[], unpackRData_raw htype, h⟩

end Hexadecimal

section Properties

theorem cutBlank_append {a : Text} (h : (0x20 : UInt8) ∉ a) (s : Text) : cutBlank (a ++ 0x20 :: s) = (a, some s) := by
  induction a with
  | nil => rfl
  | cons b a ih =>
    rw [mem_cons, not_or] at h
    rw [cons_append, cutBlank, if_neg (Ne.symm h.1), ih h.2]

theorem cutBlank_some {a rest : Text} (h : cutBlank s = (a, some rest)) : s = a ++ 0x20 :: rest ∧ (0x20 : UInt8) ∉ a := by
  induction s generalizing a with
  | nil => cases h
  | cons b s ih =>
    rw [cutBlank] at h
    split_ifs at h with hb
    · cases h
      exact ⟨by rw [hb, nil_append], not_mem_nil⟩
    · obtain ⟨hfront, hback⟩ := Prod.mk.inj h
      obtain ⟨hs, hnot⟩ := ih (a := (cutBlank s).1) (by rw [← hback])
      rw [← hfront, cons_append, ← hs, mem_cons, not_or]
      exact ⟨rfl, Ne.symm hb, hnot⟩

theorem dropWhile_head (s : Text) : (s.dropWhile (· = quoteByte)).head? ≠ some quoteByte := by
  intro h
  have hnot := head?_dropWhile_not (fun b : UInt8 => decide (b = quoteByte)) s
  rw [h] at hnot
  exact absurd hnot (by decide)

theorem dropWhile_of_head (h : s.head? ≠ some quoteByte) : s.dropWhile (· = quoteByte) = s := by
  cases s with
  | nil => rfl
  | cons b s =>
    rw [dropWhile_cons, if_neg]
    simpa using h

theorem trimQuotes_ends (s : Text) : (trimQuotes s).head? ≠ some quoteByte ∧ (trimQuotes s).getLast? ≠ some quoteByte := by
  constructor
  · intro h
    have hfront : trimQuotes s <+: s.dropWhile (· = quoteByte) := by
      have hsuffix := dropWhile_suffix (fun b : UInt8 => decide (b = quoteByte)) (l := (s.dropWhile (· = quoteByte)).reverse)
      rwa [← reverse_prefix, reverse_reverse] at hsuffix
    obtain ⟨rest, hrest⟩ := hfront
    apply dropWhile_head s
    rw [← hrest, head?_append, h, Option.some_or]
  · rw [trimQuotes, getLast?_reverse]
    apply dropWhile_head

theorem trimQuotes_quoted (hhead : s.head? ≠ some quoteByte) (hlast : s.getLast? ≠ some quoteByte) :
    trimQuotes (quoteByte :: s ++ [quoteByte]) = s := by
  have hquote : decide (quoteByte = quoteByte) = true := by decide
  rw [trimQuotes, cons_append, dropWhile_cons, if_pos hquote]
  cases s with
  | nil => rfl
  | cons b s =>
    have hfront : (b :: s ++ [quoteByte]).dropWhile (· = quoteByte) = b :: s ++ [quoteByte] :=
      dropWhile_of_head (by simpa using hhead)
    have hback : (b :: s).reverse.dropWhile (· = quoteByte) = (b :: s).reverse :=
      dropWhile_of_head (by rwa [head?_reverse])
    rw [hfront, reverse_append, reverse_singleton, singleton_append, dropWhile_cons, if_pos hquote, hback,
      reverse_reverse]

theorem trimQuotes_quoteString (t : Printing) (s : Text) :
    trimQuotes (quoteString t (trimQuotes s)) = quoteFrom t (trimQuotes s).length (trimQuotes s) :=
  trimQuotes_quoted (quoteFrom_head t _ _) (quoteFrom_last t (Nat.le_refl _) (trimQuotes_ends s).2)

def PlainProperty (lib : Library) (text : Text) : Prop :=
  ∃ flags tag value, text = flags ++ 0x20 :: (tag ++ 0x20 :: value) ∧ (0x20 : UInt8) ∉ flags ∧ (0x20 : UInt8) ∉ tag ∧
    (tag ≠ [] ∨ trimQuotes value ≠ []) ∧
    quoteString lib.printing (trimQuotes value) = quoteByte :: trimQuotes value ++ [quoteByte]

theorem writeRDataCAA_cut {x : PacketWriter} {flags value : Text} (hflags : (0x20 : UInt8) ∉ flags)
    (htag : (0x20 : UInt8) ∉ tag) {n : ℕ} (hn : parseUint flags 8 = some n) (hlen : tag.length ≤ 255) :
    writeRDataCAA x (flags ++ 0x20 :: (tag ++ 0x20 :: value)) =
      x.fill (UInt8.ofNat n :: chunkBytes tag ++ trimQuotes value) := by
  rw [writeRDataCAA, cutBlank_append hflags]
  dsimp only
  rw [cutBlank_append htag]
  rw [hn]
  exact if_neg (Nat.not_lt.mpr hlen)

theorem writeRDataCAA_ok {x v : PacketWriter} (h : writeRDataCAA x text = .ok v) :
    ∃ flags tag value n, text = flags ++ 0x20 :: (tag ++ 0x20 :: value) ∧ (0x20 : UInt8) ∉ flags ∧ (0x20 : UInt8) ∉ tag ∧
      parseUint flags 8 = some n ∧ tag.length ≤ 255 ∧ x.fill (UInt8.ofNat n :: chunkBytes tag ++ trimQuotes value) = .ok v := by
  unfold writeRDataCAA at h
  split at h
  · cases h
  · rename_i flags rest hcut
    split at h
    · cases h
    · rename_i tag value hcut'
      obtain ⟨rfl, hflags⟩ := cutBlank_some hcut
      obtain ⟨rfl, htag⟩ := cutBlank_some hcut'
      split at h
      · cases h
      · rename_i n hn
        split_ifs at h with hlen
        exact ⟨flags, tag, value, n, rfl, hflags, htag, hn, Nat.le_of_not_lt hlen, h⟩

theorem digits_whole (h : s.all isDigit = true) : (0x20 : UInt8) ∉ s := by
  intro hmem
  exact absurd (all_eq_true.mp h _ hmem) (by decide)

theorem unpackRData_caa (lib : Library) (flag : UInt8) (value : Text) (hlen : tag.length ≤ 255) :
    unpackRData lib typeCAA (flag :: chunkBytes tag ++ value) =
      if tag = [] ∧ value = [] then .error (.invalidRData "CAA wire payload too short")
      else .ok (spaced [formatUint flag.toNat, tag, quoteString lib.printing value]) := by
  have hcase : unpackRData lib typeCAA (flag :: chunkBytes tag ++ value) =
      unpackCAA lib (flag :: UInt8.ofNat tag.length :: (tag ++ value)) := rfl
  have htag : (UInt8.ofNat tag.length).toNat = tag.length := by
    rw [UInt8.toNat_ofNat']
    omega
  rw [hcase, unpackCAA, htag]
  by_cases hnil : tag = [] ∧ value = []
  · rw [if_pos hnil, if_pos (by rw [hnil.1, hnil.2]; rfl)]
  · simp

theorem packRData_shown {value out : Text} {n : ℕ} (hn : n < 256) (htag : (0x20 : UInt8) ∉ tag) (hlen : tag.length ≤ 255) :
    packRData (encoders lib) typeCAA (spaced [formatUint n, tag, quoteString lib.printing (trimQuotes value)]) = .ok out ↔
      ∃ v, PacketWriter.fill ⟨rdataBufferSize, [], []⟩
        (UInt8.ofNat n :: chunkBytes tag ++ quoteFrom lib.printing (trimQuotes value).length (trimQuotes value)) = .ok v ∧
          v.out = out := by
  have hspaced : ∀ q : Text, spaced [formatUint n, tag, q] = formatUint n ++ 0x20 :: (tag ++ 0x20 :: q) := by
    intro q
    rw [spaced, intercalate_cons_cons, intercalate_cons_cons, intercalate_singleton]
    simp only [append_assoc, singleton_append]
  have hcase : ∀ x text, writeRData (encoders lib) x typeCAA text = writeRDataCAA x text := fun _ _ => rfl
  rw [packRData_iff, hcase, hspaced, writeRDataCAA_cut (digits_whole (formatUint_digits n)) htag (parseUint_formatUint hn) hlen,
    trimQuotes_quoteString]

theorem writesBack_caa (h : packRData (encoders lib) typeCAA text = .ok w) : WritesBack lib typeCAA w ↔ PlainProperty lib text := by
  obtain ⟨v, hv, rfl⟩ := packRData_iff.mp h
  obtain ⟨flags, tag, value, n, rfl, hflags, htag, hn, hlen, hfill⟩ := writeRDataCAA_ok (x := ⟨rdataBufferSize, [], []⟩) hv
  have hout : v.out = UInt8.ofNat n :: chunkBytes tag ++ trimQuotes value := by
    rw [fill_ok hfill]
    rfl
  have hlt : n < 256 := parseUint_lt hn
  have hread := unpackRData_caa lib (UInt8.ofNat n) (trimQuotes value) hlen
  rw [← hout, UInt8.toNat_ofNat', Nat.mod_eq_of_lt hlt] at hread
  constructor
  · rintro ⟨shown, hunpack, hpack⟩
    rw [hread] at hunpack
    split_ifs at hunpack with hempty
    cases hunpack
    obtain ⟨v', hfill', hout'⟩ := (packRData_shown hlt htag hlen).mp hpack
    have hsame : quoteFrom lib.printing (trimQuotes value).length (trimQuotes value) = trimQuotes value := by
      rw [fill_ok hfill', hout] at hout'
      exact append_cancel_left hout'
    refine ⟨flags, tag, value, rfl, hflags, htag, ?_, by rw [quoteString, hsame]⟩
    by_contra hnone
    rw [not_or, not_not, not_not] at hnone
    exact hempty hnone
  · rintro ⟨flags', tag', value', htext, hflags', htag', hlong, hquote⟩
    have hcut := congrArg cutBlank htext
    rw [cutBlank_append hflags, cutBlank_append hflags'] at hcut
    obtain ⟨-, hrest⟩ := Prod.mk.inj hcut
    have hcut' := congrArg cutBlank (Option.some.inj hrest)
    rw [cutBlank_append htag, cutBlank_append htag'] at hcut'
    obtain ⟨rfl, hvalue⟩ := Prod.mk.inj hcut'
    obtain rfl := Option.some.inj hvalue
    rw [if_neg (fun hempty => hlong.elim (· hempty.1) (· hempty.2))] at hread
    refine ⟨_, hread, (packRData_shown hlt htag hlen).mpr ⟨v, ?_, rfl⟩⟩
    have hsame : quoteFrom lib.printing (trimQuotes value).length (trimQuotes value) = trimQuotes value := by
      exact append_cancel_right (cons.inj hquote).2
    rw [hsame]
    exact hfill

end Properties

structure Rewritable (lib : Library) (type : RRType) (text : Text) : Prop where
  txt : type = typeTXT → text.length ≤ 255
  caa : type = typeCAA → PlainProperty lib text
  nsec : type ≠ typeNSEC ∧ type ≠ typeNSEC3
  raw : type ∉ codecs → text = []

/-- What is shown can be written back exactly for the texts above. -/
theorem writesBack_iff {type : RRType} (htype : type ∈ [typeTXT, typeCAA, typeNSEC, typeNSEC3] ∨ type ∉ codecs)
    (h : packRData (encoders lib) type text = .ok w) : WritesBack lib type w ↔ Rewritable lib type text := by
  rcases htype with htype | htype
  · simp only [mem_cons, not_mem_nil, or_false] at htype
    rcases htype with rfl | rfl | htype
    · rw [writesBack_txt h]
      refine ⟨fun hlen => ⟨fun _ => hlen, fun heq => ?_, by decide, fun hnot => ?_⟩, fun hr => hr.txt rfl⟩
      · exact absurd heq (by decide)
      · exact absurd (by decide) hnot
    · rw [writesBack_caa h]
      refine ⟨fun hplain => ⟨fun heq => ?_, fun _ => hplain, by decide, fun hnot => ?_⟩, fun hr => hr.caa rfl⟩
      · exact absurd heq (by decide)
      · exact absurd (by decide) hnot
    · refine ⟨fun hback => absurd hback (not_writesBack_nsec htype), fun hr => ?_⟩
      exact htype.elim (absurd · hr.nsec.1) (absurd · hr.nsec.2)
  · rw [writesBack_raw htype h]
    have hother : ∀ t ∈ codecs, type ≠ t := fun t ht heq => htype (heq ▸ ht)
    refine ⟨fun hnil => ⟨?_, ?_, ⟨?_, ?_⟩, fun _ => hnil⟩, fun hr => hr.raw htype⟩
    · exact fun heq => absurd heq (hother _ (by decide))
    · exact fun heq => absurd heq (hother _ (by decide))
    · exact hother _ (by decide)
    · exact hother _ (by decide)

theorem writesBack_words : WritesBack .basic typeTXT (3 :: ascii "a b") :=
  (writesBack_iff (.inl (by decide)) (rfl : packRData (encoders .basic) typeTXT (ascii "a b") = .ok (3 :: ascii "a b"))).mpr
    ⟨fun _ => by decide, fun heq => absurd heq (by decide), by decide, by decide⟩

/-- A second chunk, a backslash, a list of types, and any byte of a type without codec. -/
theorem writesBack_lost :
    (∃ w, packRData (encoders .basic) typeTXT (replicate 256 0x61) = .ok w ∧ ¬WritesBack .basic typeTXT w) ∧
    (∃ w, packRData (encoders .basic) typeCAA (ascii "0 issue a\\b") = .ok w ∧ ¬WritesBack .basic typeCAA w) ∧
    (∃ w, packRData (encoders .basic) typeNSEC (ascii "b. A") = .ok w ∧ ¬WritesBack .basic typeNSEC w) ∧
    ∃ w, packRData (encoders .basic) 99 (ascii "x") = .ok w ∧ ¬WritesBack .basic 99 w := by
  have hlong : ∃ w, packRData (encoders .basic) typeTXT (replicate 256 0x61) = .ok w ∧ w ≠ [] :=
    Fallible.exists_ok (by decide +kernel)
  have hbyte : ∃ w, packRData (encoders .basic) 99 (ascii "x") = .ok w ∧ w ≠ [] := Fallible.exists_ok (by decide +kernel)
  obtain ⟨long, hlong, -⟩ := hlong
  obtain ⟨byte, hbyte, -⟩ := hbyte
  refine ⟨⟨long, hlong, fun h => ?_⟩, ⟨_, rfl, ?_⟩, ⟨_, rfl, not_writesBack_nsec (.inl rfl)⟩, ⟨byte, hbyte, fun h => ?_⟩⟩
  · exact absurd ((writesBack_txt hlong).mp h) (by decide +kernel)
  · rintro ⟨shown, hunpack, hpack⟩
    cases hunpack
    cases hpack
  · exact absurd ((writesBack_raw (by decide) hbyte).mp h) (by decide)

end Kdns.Wire
