import Kdns.Lib.GoStrings
import Kdns.Radix.Node
import Kdns.Wire.Unpack

namespace Kdns.Dns

open ByteStream GoStrings Wire List

inductive DomainError where
  | emptyDomain
  | nameTooLong
  | emptyLabel
  | labelTooLong
  | invalidLabelChar (char : UInt8) (label : Bytes)
  deriving DecidableEq, Repr

def isLabelChar (char : UInt8) : Bool :=
  (0x61 ≤ char.toNat && char.toNat ≤ 0x7A) || (0x41 ≤ char.toNat && char.toNat ≤ 0x5A) ||
    (0x30 ≤ char.toNat && char.toNat ≤ 0x39) || char.toNat = 0x2D || char.toNat = 0x5F

def checkLabels : ℕ → List Bytes → Option DomainError
  | _, [] => none
  | labelIndex, label :: labels =>
    if label = [] then some .emptyLabel
    else if label.length > maxLabelLen then some .labelTooLong
    else if label = Radix.star ∧ labelIndex = 0 then checkLabels (labelIndex + 1) labels
    else
      match label.find? fun char => !isLabelChar char with
      | some char => some (.invalidLabelChar char label)
      | none => checkLabels (labelIndex + 1) labels

def maxPresentationLen : ℕ := 253

def validateDomain (u : Unicode) (name : Bytes) : Except DomainError Bytes :=
  let trimmedName := trimSpace name
  if trimmedName = [] then .error .emptyDomain
  else if trimmedName = ascii "@" then .ok [dotByte]
  else
    let trimmedName := trimSuffix trimmedName [dotByte]
    if trimmedName = [] then .ok [dotByte]
    else if trimmedName.length > maxPresentationLen then .error .nameTooLong
    else
      match checkLabels 0 (trimmedName.splitOn dotByte) with
      | some e => .error e
      | none => .ok (toLower u trimmedName)

example : validateDomain .basic (ascii " *.Example.COM. ") = .ok (ascii "*.example.com") := by decide +kernel

example : validateDomain .basic (ascii "a.*.b") = .error (.invalidLabelChar 0x2A [0x2A]) := by decide +kernel

def Accepted (u : Unicode) (name : Bytes) : Prop := ∃ text, validateDomain u text = .ok name

structure HostLabel (l : Bytes) : Prop where
  ne_nil : l ≠ []
  length_le : l.length ≤ maxLabelLen
  chars : l = Radix.star ∨ ∀ char ∈ l, isLabelChar char = true

theorem checkLabels_none {labelIndex : ℕ} {labels : List Bytes} (h : checkLabels labelIndex labels = none) :
    ∀ l ∈ labels, HostLabel l := by
  induction labels generalizing labelIndex with
  | nil => simp
  | cons label labels ih =>
    rw [checkLabels] at h
    split_ifs at h with hnil hlong hstar
    · exact forall_mem_cons.mpr ⟨⟨hnil, Nat.le_of_not_lt hlong, .inl hstar.1⟩, ih h⟩
    · cases hfind : label.find? fun char => !isLabelChar char with
      | some char => simp [hfind] at h
      | none =>
        rw [hfind] at h
        refine forall_mem_cons.mpr ⟨⟨hnil, Nat.le_of_not_lt hlong, .inr ?_⟩, ih h⟩
        simpa using hfind

theorem lowerASCII_eq (b : UInt8) : lowerASCII b = Radix.lowerByte b := rfl

variable {b : UInt8} {l name : Bytes} {u : Unicode}

theorem isLabelChar_bounds (h : isLabelChar b = true) : 0x2D ≤ b.toNat ∧ b.toNat < 0x80 ∧ b.toNat ≠ 0x2E := by
  simp only [isLabelChar, Bool.or_eq_true, Bool.and_eq_true, decide_eq_true_eq] at h
  omega

theorem isLabelChar_lowerByte (h : isLabelChar b = true) : isLabelChar (Radix.lowerByte b) = true := by
  unfold Radix.lowerByte
  split_ifs with hup
  · rw [UInt8.le_iff_toNat_le, UInt8.le_iff_toNat_le] at hup
    simp only [UInt8.reduceToNat] at hup
    have hadd : (b + 32).toNat = b.toNat + 32 := by
      simp only [UInt8.toNat_add, UInt8.reduceToNat]
      omega
    simp only [isLabelChar, hadd, Bool.or_eq_true, Bool.and_eq_true, decide_eq_true_eq]
    omega
  · exact h

section

variable (h : HostLabel l)
include h

theorem HostLabel.lower : HostLabel (Radix.lower l) where
  ne_nil := by simpa [Radix.lower] using h.ne_nil
  length_le := by simpa [Radix.lower] using h.length_le
  chars := by
    obtain rfl | hchars := h.chars
    · exact .inl (by decide)
    · refine .inr fun char hchar => ?_
      obtain ⟨b, hb, rfl⟩ := mem_map.mp hchar
      exact isLabelChar_lowerByte (hchars b hb)

theorem HostLabel.bytes : ∀ b ∈ l, b.toNat < 0x80 ∧ b ≠ dotByte := by
  obtain rfl | hchars := h.chars
  · intro b hb
    rw [mem_singleton.mp hb]
    exact ⟨by decide, by decide⟩
  · intro b hb
    obtain ⟨-, hlt, hdot⟩ := isLabelChar_bounds (hchars b hb)
    exact ⟨hlt, fun he => hdot (he ▸ rfl)⟩

theorem HostLabel.graphic : ∀ b ∈ l, 0x20 < b.toNat := by
  obtain rfl | hchars := h.chars
  · intro b hb
    rw [mem_singleton.mp hb]
    decide
  · intro b hb
    exact Nat.lt_of_lt_of_le (by decide) (isLabelChar_bounds (hchars b hb)).1

theorem HostLabel.isLabel_lower : Radix.IsLabel (Radix.lower l) :=
  Radix.isLabel_lower h.ne_nil fun hdot => (h.bytes _ hdot).2 rfl

end

theorem nameOf_reverse {ls : List Bytes} (h : ∀ l ∈ ls, Radix.IsLabel l) :
    Radix.nameOf ls.reverse = [dotByte].intercalate ls := by
  induction ls with
  | nil => rfl
  | cons l ls ih =>
    have hls : ∀ k ∈ ls.reverse, Radix.IsLabel k := by simpa using (forall_mem_cons.mp h).2
    rw [reverse_cons, Radix.nameOf_concat hls, Radix.childName]
    cases ls with
    | nil => rfl
    | cons k ls =>
      rw [if_neg (Radix.nameOf_ne_nil hls (by simp)), ih (forall_mem_cons.mp h).2, intercalate_cons_cons]
      simp
      rfl

theorem mem_intercalate {ls : List Bytes} (h : b ∈ [dotByte].intercalate ls) : b = dotByte ∨ ∃ l ∈ ls, b ∈ l := by
  induction ls with
  | nil => cases h
  | cons l ls ih =>
    cases ls with
    | nil => exact .inr ⟨l, mem_cons_self, by simpa using h⟩
    | cons k ls =>
      rw [intercalate_cons_cons, mem_append, mem_append, mem_singleton] at h
      obtain (hb | hb) | hb := h
      · exact .inr ⟨l, mem_cons_self, hb⟩
      · exact .inl hb
      · obtain hdot | ⟨k', hk, hb⟩ := ih hb
        · exact .inl hdot
        · exact .inr ⟨k', mem_cons_of_mem l hk, hb⟩

theorem lower_intercalate (ls : List Bytes) :
    Radix.lower ([dotByte].intercalate ls) = [dotByte].intercalate (ls.map Radix.lower) := by
  induction ls with
  | nil => rfl
  | cons l ls ih =>
    cases ls with
    | nil => simp
    | cons k ls =>
      rw [map_cons, map_cons, intercalate_cons_cons, intercalate_cons_cons, ← map_cons, ← ih]
      simp only [Radix.lower, map_append]
      rfl

theorem isASCII_of_checkLabels (h : checkLabels 0 (name.splitOn dotByte) = none) : isASCII name = true := by
  rw [isASCII, all_eq_true]
  intro b hb
  have hjoin : [dotByte].intercalate (name.splitOn dotByte) = name := intercalate_splitOn dotByte
  rw [← hjoin] at hb
  apply decide_eq_true
  obtain rfl | ⟨l, hl, hb⟩ := mem_intercalate hb
  · decide
  · exact UInt8.lt_iff_toNat_lt.mpr ((checkLabels_none h l hl).bytes b hb).1

theorem validateDomain_trimmed {text : Bytes} (h : validateDomain u text = .ok name) :
    name = [dotByte] ∨ ∃ trimmed, checkLabels 0 (trimmed.splitOn dotByte) = none ∧ name = Radix.lower trimmed ∧
      trimmed.length ≤ maxPresentationLen := by
  simp only [validateDomain] at h
  split_ifs at h with hempty hat hdot hlong
  · exact .inl (Except.ok.inj h).symm
  · exact .inl (Except.ok.inj h).symm
  · generalize trimSuffix (trimSpace text) [dotByte] = trimmed at h hdot hlong
    cases hcheck : checkLabels 0 (trimmed.splitOn dotByte) with
    | some e => simp [hcheck] at h
    | none =>
      rw [hcheck] at h
      refine .inr ⟨trimmed, hcheck, ?_, Nat.le_of_not_lt hlong⟩
      rw [← Except.ok.inj h, toLower, if_pos (isASCII_of_checkLabels hcheck)]
      rfl

theorem validateDomain_ok {text : Bytes} (h : validateDomain u text = .ok name) :
    name = [dotByte] ∨ ∃ ls, ls ≠ [] ∧ (∀ l ∈ ls, HostLabel l) ∧ name = Radix.lower ([dotByte].intercalate ls) ∧
      name.length ≤ maxPresentationLen := by
  obtain rfl | ⟨trimmed, hcheck, rfl, hlen⟩ := validateDomain_trimmed h
  · exact .inl rfl
  · refine .inr ⟨trimmed.splitOn dotByte, by simp, checkLabels_none hcheck, ?_, ?_⟩
    · rw [intercalate_splitOn]
    · rwa [Radix.lower, length_map]

theorem Accepted.labels (h : Accepted u name) : (∀ l ∈ Radix.labels name, HostLabel l) ∧
      Radix.nameOf (Radix.labels name) = (if name = [dotByte] then [] else name) ∧ name.length ≤ maxPresentationLen := by
  obtain ⟨text, h⟩ := h
  obtain rfl | ⟨ls, hne, hls, hname, hlen⟩ := validateDomain_ok h
  · exact ⟨by simp [show Radix.labels [dotByte] = [] from rfl], rfl, by decide⟩
  · have hlower : ∀ l ∈ ls.map Radix.lower, HostLabel l := by
      intro l hl
      obtain ⟨k, hk, rfl⟩ := mem_map.mp hl
      exact (hls k hk).lower
    have hlabel : ∀ l ∈ ls.map Radix.lower, Radix.IsLabel l := by
      intro l hl
      obtain ⟨k, hk, rfl⟩ := mem_map.mp hl
      exact (hls k hk).isLabel_lower
    have hpath : Radix.nameOf (ls.map Radix.lower).reverse = name := by
      rw [nameOf_reverse hlabel, hname, lower_intercalate]
    have hlabels : Radix.labels name = (ls.map Radix.lower).reverse := by
      rw [← hpath, Radix.labels_nameOf (by simpa using hlabel)]
    have hroot : name ≠ [dotByte] := by
      rintro rfl
      exact hne (by simpa [show Radix.labels [dotByte] = [] from rfl] using hlabels)
    rw [if_neg hroot, hlabels]
    exact ⟨fun l hl => hlower l (mem_reverse.mp hl), hpath, hlen⟩

end Kdns.Dns
