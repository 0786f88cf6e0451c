import Mathlib.Data.List.Infix

/-! The longest and the shortest initial segment of a list that has a property. -/

namespace Prefixes

open List

variable {α : Type} {P : List α → Prop} {p c d : List α}

structure Longest (P : List α → Prop) (p c : List α) : Prop where
  within : c <+: p
  holds : P c
  length_le : ∀ d, d <+: p → P d → d.length ≤ c.length

structure Shortest (P : List α → Prop) (p c : List α) : Prop where
  within : c <+: p
  holds : P c
  length_le : ∀ d, d <+: p → P d → c.length ≤ d.length

theorem eq_take (h : c <+: p) : c = p.take c.length := prefix_iff_eq_take.mp h

theorem eq_of_length (hc : c <+: p) (hd : d <+: p) (hl : c.length = d.length) : c = d := by
  rw [eq_take hc, eq_take hd, hl]

theorem Longest.unique (hc : Longest P p c) (hd : Longest P p d) : c = d := by
  apply eq_of_length hc.within hd.within
  have h₁ := hc.length_le d hd.within hd.holds
  have h₂ := hd.length_le c hc.within hc.holds
  omega

theorem longest_take {k : ℕ} (hk : k ≤ p.length) (h : P (p.take k))
    (hafter : ∀ j, k < j → j ≤ p.length → ¬ P (p.take j)) : Longest P p (p.take k) := by
  refine ⟨⟨p.drop k, take_append_drop k p⟩, h, fun d hd hP => ?_⟩
  rw [length_take, Nat.min_eq_left hk]
  by_contra hlt
  apply hafter d.length (by omega) hd.length_le
  rwa [← eq_take hd]

theorem Longest.after (h : Longest P p c) {j : ℕ} (hj : c.length < j) (hp : j ≤ p.length) : ¬ P (p.take j) := by
  intro hP
  have hpre := take_prefix j p
  have := h.length_le _ hpre hP
  rw [length_take] at this
  omega

theorem Shortest.before (h : Shortest P p c) {j : ℕ} (hj : j < c.length) : ¬ P (p.take j) := by
  intro hP
  have hpre := take_prefix j p
  have := h.length_le _ hpre hP
  rw [length_take] at this
  omega

theorem exists_longest (h : c <+: p) (hP : P c) : ∃ d, Longest P p d := by
  induction p generalizing P c with
  | nil =>
    obtain rfl : c = [] := prefix_nil.mp h
    exact ⟨[], prefix_rfl, hP, fun d hd _ => hd.length_le⟩
  | cons a p ih =>
    by_cases hdown : ∃ s, s <+: p ∧ P (a :: s)
    · obtain ⟨s, hs, hPs⟩ := hdown
      obtain ⟨d, hd⟩ := ih (P := fun s => P (a :: s)) hs hPs
      refine ⟨a :: d, cons_prefix_cons.mpr ⟨rfl, hd.within⟩, hd.holds, fun e he hPe => ?_⟩
      cases e with
      | nil => simp
      | cons b e =>
        obtain ⟨rfl, hs⟩ := cons_prefix_cons.mp he
        exact Nat.succ_le_succ (hd.length_le e hs hPe)
    · refine ⟨[], nil_prefix, ?_, fun e he hPe => ?_⟩
      · cases c with
        | nil => exact hP
        | cons b c =>
          obtain ⟨rfl, hc⟩ := cons_prefix_cons.mp h
          exact absurd ⟨c, hc, hP⟩ hdown
      · cases e with
        | nil => rfl
        | cons b e =>
          obtain ⟨rfl, hs⟩ := cons_prefix_cons.mp he
          exact absurd ⟨e, hs, hPe⟩ hdown

theorem exists_shortest (h : c <+: p) (hP : P c) : ∃ d, Shortest P p d := by
  induction c generalizing P p with
  | nil => exact ⟨[], nil_prefix, hP, fun d _ _ => Nat.zero_le _⟩
  | cons a c ih =>
    by_cases h0 : P []
    · exact ⟨[], nil_prefix, h0, fun d _ _ => Nat.zero_le _⟩
    cases p with
    | nil => exact absurd (prefix_nil.mp h) (cons_ne_nil a c)
    | cons b p =>
      obtain ⟨rfl, hc⟩ := cons_prefix_cons.mp h
      obtain ⟨d, hd⟩ := ih (P := fun s => P (a :: s)) hc hP
      refine ⟨a :: d, cons_prefix_cons.mpr ⟨rfl, hd.within⟩, hd.holds, fun e he hPe => ?_⟩
      cases e with
      | nil => exact absurd hPe h0
      | cons b e =>
        obtain ⟨rfl, hs⟩ := cons_prefix_cons.mp he
        exact Nat.succ_le_succ (hd.length_le e hs hPe)

end Prefixes
