import Kdns.Radix.Resolve

namespace Kdns.Radix

open ByteStream List

def cursors (domain : Bytes) : List ℕ := domain.length :: (steps domain).map Prod.snd

theorem steps_length (domain : Bytes) : (steps domain).length = (labels domain).length := by
  rw [labels, length_map]

theorem cursor_lt {domain : Bytes} {x : Bytes × ℕ} (hx : x ∈ steps domain) : x.2 < domain.length := by
  induction domain using dot_induction with
  | base b hb =>
    rw [steps_nodot hb] at hx
    split_ifs at hx with h0
    · cases hx
    · rw [mem_singleton.mp hx]
      exact length_pos_of_ne_nil h0
  | step a b hb ih =>
    rw [steps_dot a hb] at hx
    simp only [length_append, length_cons]
    rcases mem_append.mp hx with hx | hx
    · grind
    · have := ih hx
      omega

theorem formatDomainName_dot {a : Bytes} (b : Bytes) {c : ℕ} (hc : c < a.length) :
    formatDomainName (a ++ dot :: b) c = formatDomainName a c ++ dot :: b := by
  have h₁ : c ≠ a.length := hc.ne
  have h₂ : c ≠ (a ++ dot :: b).length := by
    simp only [length_append, length_cons]
    omega
  simp only [formatDomainName, if_neg h₁, if_neg h₂]
  split_ifs
  · rw [drop_append_of_le_length hc]
  · rfl

theorem labels_formatDomainName_step (domain : Bytes) (i : ℕ) (x : Bytes × ℕ) (hx : (steps domain)[i]? = some x) :
    labels (formatDomainName domain x.2) = (labels domain).take (i + 1) := by
  induction domain using dot_induction generalizing i with
  | base b hb =>
    rw [steps_nodot hb] at hx
    split_ifs at hx with h0
    · cases hx
    · obtain ⟨rfl, rfl⟩ : i = 0 ∧ x = (lower b, 0) := by
        cases i with
        | zero => exact ⟨rfl, (Option.some.inj hx).symm⟩
        | succ i => cases hx
      have hpos := length_pos_of_ne_nil h0
      rw [formatDomainName, if_neg (by dsimp only; omega), if_neg (by simp), labels_nodot hb, if_neg h0]
      rfl
  | step a b hb ih =>
    rw [steps_dot a hb] at hx
    have hmem : ∀ j, (steps a)[j]? = some x → x.2 < a.length := fun j hj => cursor_lt (mem_of_getElem? hj)
    split_ifs at hx with h0
    · rw [formatDomainName_dot b (hmem i hx), labels_dot _ hb, labels_dot a hb, if_pos h0, ih i hx]
      rfl
    · cases i with
      | succ i =>
        rw [formatDomainName_dot b (hmem i hx), labels_dot _ hb, labels_dot a hb, if_neg h0, ih i hx]
        rfl
      | zero =>
        obtain rfl : (lower b, a.length) = x := Option.some.inj hx
        have hb' : labels b = [lower b] := by rw [labels_nodot hb, if_neg h0]
        have hname : labels (formatDomainName (a ++ dot :: b) a.length) = [lower b] := by
          unfold formatDomainName
          rw [if_neg (by simp)]
          split_ifs with hpos
          · rw [drop_append, drop_eq_nil_of_le (by omega)]
            simpa using hb'
          · obtain rfl : a = [] := length_eq_zero_iff.mp (by omega)
            rw [labels_dot [] hb, if_neg h0]
            rfl
        rw [hname, labels_dot a hb, if_neg h0]
        rfl

theorem labels_formatDomainName (domain : Bytes) (k c : ℕ) (hc : (cursors domain)[k]? = some c) :
    labels (formatDomainName domain c) = (labels domain).take k := by
  cases k with
  | zero =>
    obtain rfl : domain.length = c := Option.some.inj hc
    rw [formatDomainName, if_pos rfl]
    rfl
  | succ k =>
    rw [cursors, getElem?_cons_succ, getElem?_map] at hc
    obtain ⟨x, hx, rfl⟩ := Option.map_eq_some_iff.mp hc
    exact labels_formatDomainName_step domain k x hx

theorem cursor_pos {domain : Bytes} {i : ℕ} {x : Bytes × ℕ} (hx : (steps domain)[i]? = some x)
    (hi : i + 1 < (steps domain).length) : 0 < x.2 := by
  induction domain using dot_induction generalizing i with
  | base b hb =>
    rw [steps_nodot hb] at hi
    split_ifs at hi
    · simp at hi
    · simp at hi
  | step a b hb ih =>
    rw [steps_dot a hb] at hx hi
    split_ifs at hx hi with h0
    · exact ih hx hi
    · simp only [length_append, length_singleton] at hi
      cases i with
      | succ i => exact ih hx (by omega)
      | zero =>
        obtain rfl : (lower b, a.length) = x := Option.some.inj hx
        apply length_pos_of_ne_nil
        rintro rfl
        exact absurd hi (by decide)

theorem steps_ne_nil {domain : Bytes} (h0 : domain ≠ []) (hd : domain.head? ≠ some dot) : steps domain ≠ [] := by
  induction domain using dot_induction with
  | base b hb => simp [steps_nodot hb, h0]
  | step a b hb ih =>
    cases a with
    | nil => exact absurd rfl hd
    | cons y a =>
      rw [steps_dot _ hb]
      exact append_ne_nil_of_right_ne_nil _ (ih (cons_ne_nil _ _) hd)

theorem cursor_last {domain : Bytes} {i : ℕ} {x : Bytes × ℕ} (hd : domain.head? ≠ some dot)
    (hx : (steps domain)[i]? = some x) (hi : i + 1 = (steps domain).length) : x.2 = 0 := by
  induction domain using dot_induction generalizing i with
  | base b hb =>
    rw [steps_nodot hb] at hx
    split_ifs at hx
    · cases hx
    · rw [mem_singleton.mp (mem_of_getElem? hx)]
  | step a b hb ih =>
    cases a with
    | nil => exact absurd rfl hd
    | cons y a =>
      rw [steps_dot _ hb] at hx hi
      split_ifs at hx hi with h0
      · exact ih hd hx hi
      · simp only [length_append, length_singleton] at hi
        have hne := length_pos_of_ne_nil (steps_ne_nil (cons_ne_nil y a) hd)
        cases i with
        | succ i => exact ih hd hx (by omega)
        | zero => omega

def QueryName (q : Bytes) : Prop :=
  q = [] ∨ ∃ ls : List Bytes, ls ≠ [] ∧ (∀ l ∈ ls, l ≠ [] ∧ dot ∉ l) ∧
    (q = [dot].intercalate ls ∨ q = [dot].intercalate ls ++ [dot])

theorem QueryName.head {q : Bytes} (h : QueryName q) : q.head? ≠ some dot := by
  rcases h with rfl | ⟨ls, h0, hl, hq⟩
  · simp
  obtain ⟨l, ls, rfl⟩ := exists_cons_of_ne_nil h0
  obtain ⟨hne, hdot⟩ := hl l mem_cons_self
  obtain ⟨b, l, rfl⟩ := exists_cons_of_ne_nil hne
  have hb : b ≠ dot := fun he => hdot (he ▸ mem_cons_self)
  rcases hq with rfl | rfl <;> simpa using hb

theorem cursor_eq_zero_iff {q : Bytes} (h : QueryName q) {k c : ℕ} (hc : (cursors q)[k]? = some c) :
    c = 0 ↔ k = (labels q).length := by
  have hd := h.head
  have hlen := steps_length q
  cases k with
  | zero =>
    obtain rfl : q.length = c := Option.some.inj hc
    by_cases h0 : q = []
    · subst h0
      exact ⟨fun _ => rfl, fun _ => rfl⟩
    · have h₁ := length_pos_of_ne_nil h0
      have h₂ := length_pos_of_ne_nil (steps_ne_nil h0 hd)
      omega
  | succ k =>
    rw [cursors, List.getElem?_cons_succ, List.getElem?_map] at hc
    obtain ⟨x, hx, rfl⟩ := Option.map_eq_some_iff.mp hc
    have hk := (List.getElem?_eq_some_iff.mp hx).1
    constructor
    · intro h0
      by_contra hne
      have := cursor_pos hx (by omega)
      omega
    · intro he
      exact cursor_last hd hx (by omega)

end Kdns.Radix
