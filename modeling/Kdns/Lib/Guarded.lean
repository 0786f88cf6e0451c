import Mathlib.Data.Nat.Notation
import Mathlib.Data.Option.Basic

/-! Runs of a machine given by a partial step function, and invariants of the runs whose steps meet a guard. -/

namespace Guarded

variable {S A : Type} (act : S → A → Option S)

def run (s : S) (actions : List A) : Option S := actions.foldlM act s

variable {s s' : S} {actions : List A}

theorem run_cons {a : A} (h : run act s (a :: actions) = some s') :
    ∃ m, act s a = some m ∧ run act m actions = some s' := by
  exact Option.bind_eq_some_iff.mp h

def Meets (guard : S → A → Prop) : S → List A → Prop
  | _, [] => True
  | s, a :: actions => guard s a ∧ (act s a).elim True fun s' => Meets guard s' actions

instance meetsDecidable (guard : S → A → Prop) [∀ s a, Decidable (guard s a)] :
    (s : S) → (actions : List A) → Decidable (Meets act guard s actions)
  | _, [] => isTrue trivial
  | s, a :: actions =>
    have : Decidable ((act s a).elim True fun s' => Meets act guard s' actions) :=
      match act s a with
      | none => isTrue trivial
      | some s' => meetsDecidable guard s' actions
    inferInstanceAs (Decidable (guard s a ∧ _))

theorem invariant_run {guard : S → A → Prop} {I : S → Prop}
    (hstep : ∀ s a s', I s → guard s a → act s a = some s' → I s') (h : I s) (hrun : run act s actions = some s')
    (hmeets : Meets act guard s actions) : I s' := by
  induction actions generalizing s with
  | nil =>
    cases hrun
    exact h
  | cons a actions ih =>
    obtain ⟨m, hm, hrest⟩ := run_cons act hrun
    obtain ⟨hg, hmeets⟩ := hmeets
    rw [hm] at hmeets
    exact ih (hstep s a m h hg hm) hrest hmeets

theorem meets_of_forall {p : A → Prop} (h : ∀ a ∈ actions, p a) (s : S) : Meets act (fun _ a => p a) s actions := by
  induction actions generalizing s with
  | nil => trivial
  | cons a actions ih =>
    refine ⟨h a List.mem_cons_self, ?_⟩
    cases act s a with
    | none => trivial
    | some s' => exact ih (fun b hb => h b (List.mem_cons_of_mem a hb)) s'

theorem invariant {I : S → Prop} (hstep : ∀ s a s', I s → act s a = some s' → I s') (h : I s)
    (hrun : run act s actions = some s') : I s' :=
  invariant_run act (fun s a s' hs _ => hstep s a s' hs) h hrun
    (meets_of_forall act (p := fun _ => True) (fun _ _ => trivial) s)

theorem meets_iff {guard : S → A → Prop} {I Bad : S → Prop} (hstep : ∀ s a s', I s → act s a = some s' → I s')
    (hbad : ∀ s a s', I s → act s a = some s' → (Bad s' ↔ Bad s ∨ ¬guard s a)) (h : I s)
    (hrun : run act s actions = some s') : ¬Bad s' ↔ ¬Bad s ∧ Meets act guard s actions := by
  induction actions generalizing s with
  | nil =>
    cases hrun
    simp [Meets]
  | cons a actions ih =>
    obtain ⟨m, hm, hrest⟩ := run_cons act hrun
    rw [ih (hstep s a m h hm) hrest, hbad s a m h hm, Meets, hm]
    simp only [not_or, not_not, Option.elim_some, and_assoc]

theorem eventually {I P : S → Prop} (measure : S → ℕ)
    (hstep : ∀ s, I s → P s ∨ ∃ a s', act s a = some s' ∧ I s' ∧ measure s' < measure s) (h : I s) :
    ∃ actions s', run act s actions = some s' ∧ P s' := by
  induction hn : measure s using Nat.strongRecOn generalizing s with
  | ind n ih =>
    subst hn
    obtain hP | ⟨a, m, hm, hI, hlt⟩ := hstep s h
    · exact ⟨[], s, rfl, hP⟩
    · obtain ⟨actions, s', hrun, hP⟩ := ih _ hlt hI rfl
      refine ⟨a :: actions, s', ?_, hP⟩
      rw [run, List.foldlM_cons, hm]
      exact hrun

theorem run_some {P : S → Prop} [DecidablePred P]
    (h : (run act s actions).any (fun s' => decide (P s')) = true) : ∃ s', run act s actions = some s' ∧ P s' := by
  obtain ⟨s', hs, hP⟩ := (Option.any_eq_true _ _).mp h
  exact ⟨s', hs, of_decide_eq_true hP⟩

end Guarded
