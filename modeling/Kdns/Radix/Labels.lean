import Kdns.Radix.Iterator

namespace Kdns.Radix

open ByteStream List

structure IsLabel (l : Bytes) : Prop where
  ne_nil : l ≠ []
  nodot : dot ∉ l
  lower_eq : lower l = l

theorem lowerByte_ne_dot (b : UInt8) (h : b ≠ dot) : lowerByte b ≠ dot := by
  unfold lowerByte
  split_ifs with hu
  · intro he
    have := congrArg UInt8.toNat he
    simp only [UInt8.le_iff_toNat_le, UInt8.toNat_add, dot, UInt8.reduceToNat] at hu this
    omega
  · exact h

theorem lowerByte_lowerByte (b : UInt8) : lowerByte (lowerByte b) = lowerByte b := by
  unfold lowerByte
  split_ifs with hu hv
  · grind
  · rfl
  · rfl

theorem isLabel_lower {b : Bytes} (h0 : b ≠ []) (hb : dot ∉ b) : IsLabel (lower b) := by
  refine ⟨by simpa [lower] using h0, ?_, ?_⟩
  · simp only [lower, mem_map, not_exists, not_and]
    intro x hx
    exact lowerByte_ne_dot x fun he => hb (he ▸ hx)
  · simp [lower, lowerByte_lowerByte]

theorem labels_isLabel (d : Bytes) : ∀ l ∈ labels d, IsLabel l := by
  have hone : ∀ {b : Bytes}, dot ∉ b → ∀ l ∈ (if b = [] then [] else [lower b]), IsLabel l := by
    intro b hb l hl
    split_ifs at hl with h0
    · simp at hl
    · rw [mem_singleton.mp hl]
      exact isLabel_lower h0 hb
  induction d using dot_induction with
  | base b hb => rw [labels_nodot hb]; exact hone hb
  | step a b hb ih =>
    rw [labels_dot a hb]
    exact forall_mem_append.mpr ⟨hone hb, ih⟩

def normalLabels (domain : Bytes) : List Bytes :=
  (((domain.splitOn dot).filter fun l => l ≠ []).map lower).reverse

theorem labels_eq_normalLabels (domain : Bytes) : labels domain = normalLabels domain := by
  induction domain using dot_induction with
  | base b hb =>
    rw [labels_nodot hb, normalLabels, splitOn_eq_singleton hb]
    split_ifs with h0 <;> simp [h0]
  | step a b hb ih =>
    rw [labels_dot a hb, ih, normalLabels, normalLabels, splitOn_append_cons_self, splitOn_eq_singleton hb]
    split_ifs with h0 <;> simp [h0]

def nameOf : List Bytes → Bytes
  | [] => []
  | [l] => l
  | l :: ls => nameOf ls ++ dot :: l

def childName (label path : Bytes) : Bytes := label ++ if path = [] then [] else dot :: path

theorem nameOf_cons {l : Bytes} {ls : List Bytes} (h : ls ≠ []) : nameOf (l :: ls) = nameOf ls ++ dot :: l := by
  cases ls with
  | nil => exact absurd rfl h
  | cons x xs => rfl

theorem labels_nameOf {p : List Bytes} (h : ∀ l ∈ p, IsLabel l) : labels (nameOf p) = p := by
  induction p with
  | nil => rfl
  | cons l ls ih =>
    obtain ⟨hl, hls⟩ := forall_mem_cons.mp h
    by_cases h0 : ls = []
    · subst h0
      rw [nameOf, labels_nodot hl.nodot, if_neg hl.ne_nil, hl.lower_eq]
    · rw [nameOf_cons h0, labels_dot _ hl.nodot, if_neg hl.ne_nil, hl.lower_eq, ih hls]
      rfl

theorem nameOf_ne_nil {p : List Bytes} (h : ∀ l ∈ p, IsLabel l) (h0 : p ≠ []) : nameOf p ≠ [] := by
  obtain ⟨l, ls, rfl⟩ := exists_cons_of_ne_nil h0
  by_cases hls : ls = []
  · subst hls
    exact (h l (by simp)).ne_nil
  · simp [nameOf_cons hls]

theorem nameOf_concat {p : List Bytes} (h : ∀ l ∈ p, IsLabel l) (l : Bytes) :
    nameOf (p ++ [l]) = childName l (nameOf p) := by
  induction p with
  | nil => simp [nameOf, childName]
  | cons x xs ih =>
    rw [cons_append, nameOf_cons (by simp), ih (forall_mem_cons.mp h).2, childName, childName,
      if_neg (nameOf_ne_nil h (by simp))]
    by_cases hx : xs = []
    · simp [hx, nameOf]
    · rw [nameOf_cons hx, if_neg (nameOf_ne_nil (forall_mem_cons.mp h).2 hx)]
      simp

theorem nameOf_labels_length (d : Bytes) : (nameOf (labels d)).length ≤ d.length := by
  have hlow (b : Bytes) : (lower b).length = b.length := length_map _
  induction d using dot_induction with
  | base b hb =>
    rw [labels_nodot hb]
    split_ifs with h0
    · simp [nameOf]
    · simp [nameOf, hlow]
  | step a b hb ih =>
    rw [labels_dot a hb]
    split_ifs with h0
    · simp only [nil_append, length_append, length_cons]
      omega
    · by_cases ha : labels a = []
      · simp [ha, nameOf, hlow]
        omega
      · rw [singleton_append, nameOf_cons ha]
        simp only [length_append, length_cons, hlow]
        omega

theorem nameOf_prefix_length (p q : List Bytes) : (nameOf p).length ≤ (nameOf (p ++ q)).length := by
  induction p with
  | nil => simp [nameOf]
  | cons l ls ih =>
    by_cases h0 : ls ++ q = []
    · obtain ⟨rfl, rfl⟩ := append_eq_nil_iff.mp h0
      simp
    · rw [cons_append, nameOf_cons h0]
      by_cases hls : ls = []
      · simp [hls, nameOf]
        omega
      · rw [nameOf_cons hls]
        simp only [length_append, length_cons]
        omega

end Kdns.Radix
