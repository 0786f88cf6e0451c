import Kdns.Domain
import Kdns.Lib.GoRunes
import Kdns.Wire.Slip

open List

namespace Kdns.Dns

open ByteStream GoStrings Wire CompressedName

/-- What `ValidateDomain` returns for a name other than the root. -/
structure Canonical (name : Bytes) : Prop where
  lower_eq : name.map lowerASCII = name
  labels : checkLabels 0 (name.splitOn dotByte) = none
  length_le : name.length ≤ maxPresentationLen

theorem checkLabels_lower {labelIndex : ℕ} {labels : List Bytes} (h : checkLabels labelIndex labels = none) :
    checkLabels labelIndex (lowered labels) = none := by
  induction labels generalizing labelIndex with
  | nil => rfl
  | cons label labels ih =>
    have hlength : (label.map lowerASCII).length = label.length := length_map _
    rw [checkLabels] at h
    split_ifs at h with hnil hlong hstar
    · rw [lowered_cons, checkLabels, hlength, if_neg (by simpa using hnil), if_neg hlong, hstar.1]
      exact (if_pos ⟨rfl, hstar.2⟩).trans (ih h)
    · cases hfind : label.find? fun char => !isLabelChar char with
      | some char => simp [hfind] at h
      | none =>
        rw [hfind] at h
        have hchars : ∀ char ∈ label, isLabelChar char = true := by simpa using hfind
        have hlower : (label.map lowerASCII).find? (fun char => !isLabelChar char) = none := by
          rw [List.find?_eq_none]
          intro char hchar
          obtain ⟨b, hb, rfl⟩ := mem_map.mp hchar
          rw [lowerASCII_eq, isLabelChar_lowerByte (hchars b hb)]
          decide
        rw [lowered_cons, checkLabels, hlength, if_neg (by simpa using hnil), if_neg hlong, hlower, ih h, ite_self]

theorem canonical_of_ok {u : Unicode} {text name : Bytes} (h : validateDomain u text = .ok name) :
    name = [dotByte] ∨ Canonical name := by
  obtain rfl | ⟨trimmed, hcheck, rfl, hlen⟩ := validateDomain_trimmed h
  · exact .inl rfl
  · refine .inr ⟨map_lowerASCII_idem trimmed, ?_, ?_⟩
    · rw [← checkLabels_lower hcheck, ← splitOn_lower]
      rfl
    · rwa [Radix.lower, length_map]

namespace Canonical

variable {name : Bytes} (h : Canonical name)

include h

theorem hostLabel : ∀ l ∈ name.splitOn dotByte, HostLabel l := checkLabels_none h.labels

theorem ne_nil : name ≠ [] := by
  rintro rfl
  exact (h.hostLabel [] (by decide)).ne_nil rfl

theorem nonempty : [] ∉ name.splitOn dotByte := fun hmem => (h.hostLabel [] hmem).ne_nil rfl

theorem segmented : Segmented name := fun l hl => (h.hostLabel l hl).length_le

theorem no_suffix : hasSuffix name [dotByte] = false := by
  rw [Bool.eq_false_iff]
  intro hdot
  obtain ⟨t, rfl⟩ := (hasSuffix_singleton name).mp hdot
  apply h.nonempty
  rw [splitOn_append_cons_self]
  simp

theorem trimSuffix_eq : trimSuffix name [dotByte] = name := by
  rw [trimSuffix, h.no_suffix]
  rfl

theorem trimSpace_eq : trimSpace name = name := by
  apply trimSpace_of_graphic (isASCII_of_checkLabels h.labels)
  intro b hb
  have hjoin : [dotByte].intercalate (name.splitOn dotByte) = name := intercalate_splitOn dotByte
  rw [← hjoin] at hb
  obtain rfl | ⟨l, hl, hb⟩ := mem_intercalate hb
  · decide
  · exact (h.hostLabel l hl).graphic b hb

theorem toLower_eq (u : Unicode) : toLower u name = name := by
  rw [toLower, if_pos (isASCII_of_checkLabels h.labels), h.lower_eq]

theorem ne_root : name ≠ [dotByte] := by
  rintro rfl
  exact absurd h.no_suffix (by decide)

theorem validateDomain_eq (u : Unicode) : validateDomain u name = .ok name := by
  have hat : name ≠ ascii "@" := by
    rintro rfl
    exact absurd h.labels (by decide)
  unfold validateDomain
  rw [h.trimSpace_eq, if_neg h.ne_nil, if_neg hat, h.trimSuffix_eq, if_neg h.ne_nil, if_neg (Nat.not_lt.mpr h.length_le),
    h.labels, h.toLower_eq]

theorem encodeDomainName_eq (u : Unicode) : encodeDomainName u name = wireName name := by
  unfold encodeDomainName
  rw [h.trimSpace_eq, h.toLower_eq, if_neg (not_or.mpr ⟨h.ne_nil, h.ne_root⟩), h.trimSuffix_eq,
    encodeLabels_of_segmented h.segmented, ← nameLabels_of_nonempty h.nonempty, wireName]

theorem wireName_length : (wireName name).length ≤ 255 := by
  have hdotted := dotted_nameLabels_length name
  have hlen := h.length_le
  have hmax : maxPresentationLen = 253 := rfl
  rw [wireName, length_append, length_singleton, encodeLabels_length]
  omega

theorem labels_eq : Radix.labels name = (name.splitOn dotByte).reverse := by
  have hlower : (name.splitOn dotByte).map Radix.lower = name.splitOn dotByte :=
    (splitOn_lower name).symm.trans (by rw [h.lower_eq])
  rw [labels_eq_nameLabels, nameLabels_of_nonempty h.nonempty, hlower]

end Canonical

theorem labels_accepted {u : Unicode} {text name : Bytes} (h : validateDomain u text = .ok name) :
    Radix.labels name = if name = [dotByte] then [] else (name.splitOn dotByte).reverse := by
  rcases canonical_of_ok h with rfl | hname
  · rfl
  · rw [if_neg hname.ne_root, hname.labels_eq]

theorem labels_injective {u : Unicode} {text text' name name' : Bytes} (h : validateDomain u text = .ok name)
    (h' : validateDomain u text' = .ok name') (hlabels : Radix.labels name = Radix.labels name') : name = name' := by
  have hjoin : ∀ s : Bytes, [dotByte].intercalate (s.splitOn dotByte) = s := fun s => intercalate_splitOn dotByte
  rw [labels_accepted h, labels_accepted h'] at hlabels
  split_ifs at hlabels with hroot hroot' hroot'
  · rw [hroot, hroot']
  · simp at hlabels
  · simp at hlabels
  · rw [← hjoin name, reverse_injective hlabels, hjoin]

/-- An accepted name is its own canonical text, its wire form gives it back, and its path in the tree says which one it is. -/
theorem validateDomain_canonical {u : Unicode} {text name : Bytes} (h : validateDomain u text = .ok name) :
    validateDomain u name = .ok name ∧
      (encodeDomainName u name).length ≤ 255 ∧
      unpackDomainName (encodeDomainName u name) 0 =
        .ok (if name = [dotByte] then [] else name, (encodeDomainName u name).length) ∧
      Radix.labels name = (if name = [dotByte] then [] else (name.splitOn dotByte).reverse) ∧
      ∀ text' name', validateDomain u text' = .ok name' → (Radix.labels name = Radix.labels name' ↔ name = name') := by
  have htree : ∀ text' name', validateDomain u text' = .ok name' → (Radix.labels name = Radix.labels name' ↔ name = name') :=
    fun text' name' h' => ⟨labels_injective h h', congrArg Radix.labels⟩
  rcases canonical_of_ok h with hroot | hname
  · subst hroot
    have hwire : encodeDomainName u [dotByte] = [0] := rfl
    rw [hwire]
    exact ⟨rfl, by decide, by decide +kernel, rfl, htree⟩
  · rw [hname.encodeDomainName_eq, if_neg hname.ne_root, if_neg hname.ne_root]
    refine ⟨hname.validateDomain_eq u, hname.wireName_length, ?_, hname.labels_eq, htree⟩
    rw [unpackDomainName_wireName hname.segmented (.inr hname.nonempty) (Nat.lt_of_le_of_lt hname.length_le (by decide))
      prefix_rfl, Nat.zero_add]

theorem validateDomain_canonical_wildcard :
    validateDomain .basic (ascii "*.example.com") = .ok (ascii "*.example.com") := by
  have htext : validateDomain .basic (ascii " *.Example.COM. ") = .ok (ascii "*.example.com") := by decide +kernel
  exact (validateDomain_canonical htext).1

end Kdns.Dns
