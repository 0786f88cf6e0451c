import Kdns.Lib.GoRunes
import Kdns.Wire.Slip
import Kdns.Server.Authentic

namespace Kdns.Tsig

open ByteStream Dns Wire CompressedName GoStrings List

def keyText (u : Unicode) (name : Bytes) : Bytes := trimSuffix (canonicalName u name) [dotByte]

def Dense (name : Bytes) : Prop := name = [] ∨ [] ∉ name.splitOn dotByte

structure KeyName (name : Bytes) : Prop where
  ascii : isASCII name = true
  length_le : name.length ≤ 253
  labels : trimSuffix name [dotByte] = [] ∨
    ∀ label ∈ (trimSuffix name [dotByte]).splitOn dotByte, 1 ≤ label.length ∧ label.length ≤ maxLabelLen

theorem withDot_concat (s : Bytes) : ∃ t, withDot s = t ++ [dotByte] ∧ t <+: s := by
  unfold withDot
  split_ifs with h
  · obtain ⟨t, rfl⟩ := (hasSuffix_singleton s).mp h
    exact ⟨t, rfl, prefix_append t _⟩
  · exact ⟨s, rfl, prefix_rfl⟩

theorem canonicalName_concat (u : Unicode) (name : Bytes) :
    canonicalName u name = keyText u name ++ [dotByte] ∧ keyText u name <+: toLower u (trimSpace name) := by
  obtain ⟨t, ht, hprefix⟩ := withDot_concat (toLower u (trimSpace name))
  have htext : keyText u name = t := by rw [keyText, canonicalName, ht, trimSuffix_concat]
  rw [htext, canonicalName]
  exact ⟨ht, hprefix⟩

section Text

variable {name : Bytes}

theorem keyText_lower (u : Unicode) (h : isASCII name = true) : keyText u name <+: (trimSpace name).map lowerASCII := by
  have hprefix := (canonicalName_concat u name).2
  rwa [toLower, if_pos (isASCII_of_isInfix h (trimSpace_isInfix name))] at hprefix

theorem keyText_ascii (u : Unicode) (h : isASCII name = true) : isASCII (keyText u name) = true :=
  isASCII_of_isInfix (isASCII_lower (isASCII_of_isInfix h (trimSpace_isInfix name))) (keyText_lower u h).isInfix

theorem keyText_lowered (u : Unicode) (h : isASCII name = true) : (keyText u name).map lowerASCII = keyText u name := by
  obtain ⟨rest, hrest⟩ := keyText_lower u h
  have hidem := map_lowerASCII_idem (trimSpace name)
  rw [← hrest, map_append] at hidem
  exact append_inj_left hidem (length_map _)

theorem KeyName.segmented (h : KeyName name) : Segmented name := by
  have htrim : Segmented (trimSuffix name [dotByte]) := by
    rcases h.labels with hnil | hlabels
    · rw [hnil]
      exact segmented_of_length (Nat.zero_le _)
    · exact fun label hl => (hlabels label hl).2
  unfold trimSuffix at htrim
  split_ifs at htrim with hdot
  · obtain ⟨t, rfl⟩ := (hasSuffix_singleton name).mp hdot
    rw [length_append, length_singleton, Nat.add_sub_cancel, take_left] at htrim
    exact segmented_cons.mpr ⟨htrim, segmented_of_length (Nat.zero_le _)⟩
  · exact htrim

theorem KeyName.text_segmented (h : KeyName name) (u : Unicode) : Segmented (keyText u name) :=
  (h.segmented.of_isInfix (trimSpace_isInfix name)).lower.of_isInfix (keyText_lower u h.ascii).isInfix

theorem KeyName.text_length (h : KeyName name) (u : Unicode) : (keyText u name).length ≤ 253 := by
  have hle := (keyText_lower u h.ascii).length_le
  rw [length_map] at hle
  exact hle.trans ((trimSpace_length_le name).trans h.length_le)

theorem canonicalName_stable (u : Unicode) (h : isASCII name = true) :
    toLower u (trimSpace (canonicalName u name)) = canonicalName u name := by
  obtain ⟨heq, -⟩ := canonicalName_concat u name
  have hascii : isASCII (keyText u name ++ [dotByte]) = true := by
    rw [isASCII, all_append, Bool.and_eq_true]
    exact ⟨keyText_ascii u h, by decide⟩
  have htrim : trimSpace (keyText u name ++ [dotByte]) = keyText u name ++ [dotByte] := by
    apply trimSpace_eq_self
    · intro w hw hbegins
      obtain ⟨b, rfl, hb⟩ := space_of_ascii hw hascii hbegins.isInfix
      have hlower := keyText_lower u h
      cases htext : keyText u name with
      | nil =>
        rw [htext] at hbegins
        have hdot := singleton_inj.mp (hbegins.eq_of_length rfl)
        exact absurd (hdot ▸ hb) (by decide)
      | cons c rest =>
        rw [htext] at hbegins hlower
        obtain ⟨rfl, -⟩ := cons_prefix_cons.mp hbegins
        cases hspace : trimSpace name with
        | nil =>
          rw [hspace] at hlower
          cases prefix_nil.mp hlower
        | cons d rest' =>
          rw [hspace, map_cons] at hlower
          obtain ⟨hd, -⟩ := cons_prefix_cons.mp hlower
          -- A byte that small is its own lower case, so the trimmed name would start with it.
          have hsame : d = b := by
            rw [hd, lowerASCII] at hb ⊢
            split_ifs at hb ⊢ with hupper
            · simp only [UInt8.le_iff_toNat_le, UInt8.toNat_add, UInt8.reduceToNat] at hupper hb
              omega
            · rfl
          apply trimSpace_clear name [b] hw
          rw [hspace, hsame]
          exact prefix_append [b] rest'
    · intro w hw hends
      obtain ⟨b, rfl, hb⟩ := space_of_ascii hw hascii hends.isInfix
      obtain ⟨t, ht⟩ := hends
      have hdot := singleton_inj.mp (append_inj' ht rfl).2
      exact absurd (hdot ▸ hb) (by decide)
  rw [heq, htrim, toLower, if_pos hascii, map_append, keyText_lowered u h]
  rfl

theorem canonicalName_keyText (u : Unicode) (h : isASCII name = true) (hdense : Dense (keyText u name)) :
    canonicalName u (keyText u name) = canonicalName u name ↔ trimSpace (keyText u name) = keyText u name := by
  have hascii := keyText_ascii u h
  rw [(canonicalName_concat u name).1, canonicalName, toLower, if_pos (isASCII_of_isInfix hascii (trimSpace_isInfix _))]
  constructor
  · intro heq
    apply (trimSpace_isInfix _).eq_of_length
    have hlength := trimSpace_length_le (keyText u name)
    have hlen := congrArg List.length heq
    unfold withDot at hlen
    split_ifs at hlen <;> simp only [length_append, length_map, length_singleton] at hlen <;> omega
  · intro htrim
    rw [htrim, keyText_lowered u h, withDot, if_neg]
    intro hdot
    obtain ⟨t, ht⟩ := (hasSuffix_singleton _).mp hdot
    rcases hdense with hnil | hempty
    · rw [hnil] at ht
      exact absurd ht.symm (by simp)
    · apply hempty
      rw [ht, splitOn_append_cons_self]
      simp

end Text

section Wire

variable {name p : Bytes} {i : ℕ}

theorem encodeDomainName_canonicalName (u : Unicode) (h : KeyName name) : encodeDomainName u (canonicalName u name) =
      if keyText u name = [] then [0] else encodeLabels ((keyText u name).splitOn dotByte) ++ [0] := by
  have hstable := canonicalName_stable u h.ascii
  rw [(canonicalName_concat u name).1] at hstable ⊢
  unfold encodeDomainName
  simp only [hstable, trimSuffix_concat]
  by_cases hnil : keyText u name = []
  · rw [if_pos hnil, if_pos (.inr (by rw [hnil]; rfl))]
  · rw [if_neg hnil, if_neg (by simp [hnil]), encodeLabels_of_segmented (h.text_segmented u)]

theorem encodeDomainName_dense (u : Unicode) (h : KeyName name) (hdense : Dense (keyText u name)) :
    encodeDomainName u (canonicalName u name) = wireName (keyText u name) := by
  rw [encodeDomainName_canonicalName u h, wireName]
  by_cases hnil : keyText u name = []
  · rw [if_pos hnil, hnil]
    rfl
  · rw [if_neg hnil, nameLabels_of_nonempty (hdense.resolve_left hnil)]

theorem dotted_splitOn_length (s : Bytes) : (dotted (s.splitOn dotByte)).length = s.length + 1 := by
  induction s using first_dot_induction with
  | base a ha => simp [splitOn_eq_singleton ha, dotted]
  | step a b ha ih =>
    rw [splitOn_append_cons_self, splitOn_eq_singleton ha, singleton_append, dotted_cons]
    simp only [length_append, length_cons, length_nil, ih]
    omega

theorem unpack_dense (u : Unicode) (h : KeyName name) (hdense : Dense (keyText u name))
    (hp : encodeDomainName u (canonicalName u name) <+: p.drop i) :
    unpackDomainName p i = .ok (keyText u name, i + (encodeDomainName u (canonicalName u name)).length) := by
  rw [encodeDomainName_dense u h hdense] at hp ⊢
  exact unpackDomainName_wireName (h.text_segmented u) hdense (Nat.lt_of_le_of_lt (h.text_length u) (by decide)) hp

theorem labels_not_type {labels : List Bytes} (h : ∀ l ∈ labels, l.length ≤ maxLabelLen) :
    ∃ b c rest, encodeLabels labels ++ [0] ++ bigEndian 2 typeTSIG.toNat = b :: c :: rest ∧ (b ≠ 0 ∨ c.toNat ≤ maxLabelLen) := by
  have hlength : ∀ l : Bytes, l.length ≤ maxLabelLen → (UInt8.ofNat l.length).toNat = l.length := by
    intro l hl
    have hmax : maxLabelLen = 63 := rfl
    rw [UInt8.toNat_ofNat']
    omega
  cases labels with
  | nil => exact ⟨0, 0, _, rfl, .inr (by decide)⟩
  | cons l labels =>
    cases l with
    | cons x l =>
      refine ⟨UInt8.ofNat (x :: l).length, x, _, rfl, .inl fun hzero => ?_⟩
      have hlen := hlength (x :: l) (h _ mem_cons_self)
      rw [hzero, length_cons] at hlen
      exact absurd hlen (by simp)
    | nil =>
      cases labels with
      | nil => exact ⟨0, 0, _, rfl, .inr (by decide)⟩
      | cons l labels =>
        have hle := h l (mem_cons_of_mem _ mem_cons_self)
        exact ⟨0, UInt8.ofNat l.length, _, rfl, .inr ((hlength l hle).trans_le hle)⟩

theorem uint16At_cons {b c : UInt8} {rest : Bytes} (h : b :: c :: rest <+: p.drop i) :
    (uint16At p i).toNat = b.toNat * 256 + c.toNat := by
  have hb := b.toNat_lt
  have hc := c.toNat_lt
  apply uint16At_of_isPrefix (by omega)
  rw [bigEndian_two]
  exact (prefix_append [b, c] rest).trans h

theorem unpack_sparse (u : Unicode) (h : KeyName name) (hsparse : ¬Dense (keyText u name))
    (hp : encodeDomainName u (canonicalName u name) ++ bigEndian 2 typeTSIG.toNat <+: p.drop i) :
    ∃ read next, unpackDomainName p i = .ok (read, next) ∧ uint16At p next ≠ typeTSIG := by
  obtain ⟨hnil, hempty⟩ := not_or.mp hsparse
  obtain ⟨front, back, hsplit, hfront⟩ := eq_append_cons_of_mem (not_not.mp hempty)
  have hseg := h.text_segmented u
  rw [Segmented, hsplit] at hseg
  have hwire : encodeLabels front ++ ([0] ++ (encodeLabels back ++ [0] ++ bigEndian 2 typeTSIG.toNat)) <+: p.drop i := by
    rw [encodeDomainName_canonicalName u h, if_neg hnil, hsplit, encodeLabels_append, encodeLabels_cons] at hp
    have hlabel : labelBytes [] = [0] := rfl
    simpa only [append_assoc, hlabel] using hp
  have hlabels : ∀ l ∈ front, IsLabel l := by
    intro l hl
    exact ⟨fun hl' => hfront (hl' ▸ hl), hseg l (mem_append_left _ hl)⟩
  have hrest := isPrefix_drop_right hwire
  have hroot : NameAt p 0 (i + (encodeLabels front).length) [] 0 (i + (encodeLabels front).length + 1) :=
    .root (Nat.zero_le _) ((prefix_append [0] _).trans hrest)
  have hname := NameAt.encode (Nat.zero_le i) hlabels ((prefix_append _ _).trans hwire) hroot
  rw [append_nil] at hname
  have hshort : (dotted front).length ≤ maxNameLen := by
    have hlen := dotted_splitOn_length (keyText u name)
    have hle := h.text_length u
    have hmax : maxNameLen = 255 := rfl
    rw [hsplit, dotted, flatMap_append, length_append, ← dotted] at hlen
    omega
  refine ⟨_, _, unpackDomainName_of_nameAt hname (Nat.zero_le _) hshort, fun htype => ?_⟩
  obtain ⟨b, c, rest, heq, hbytes⟩ :=
    labels_not_type fun l hl => hseg l (mem_append_right _ (mem_cons_of_mem _ hl))
  have hvalue := uint16At_cons (heq ▸ isPrefix_drop_right hrest)
  rw [length_singleton, htype] at hvalue
  have hmax : maxLabelLen = 63 := rfl
  have htsig : typeTSIG.toNat = 250 := rfl
  rcases hbytes with hb | hc
  · have hb' : b.toNat ≠ 0 := fun hz => hb (UInt8.toNat_inj.mp hz)
    omega
  · omega

end Wire

end Kdns.Tsig
