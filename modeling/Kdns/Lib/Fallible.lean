import Mathlib.Data.List.Basic
import Mathlib.Tactic.SplitIfs

/-!
Computations that may fail, and what their success says. In `Indexed`, index and slice expressions with their bounds
checks: `none` stands for the run-time panic of an expression that is out of range, so that a reader written with them
says which bytes it touches; `total` is a reader that never panics.
-/

namespace Fallible

variable {ε α β : Type}

theorem bind_ok {x : Except ε α} {f : α → Except ε β} {b : β} (h : x >>= f = .ok b) : ∃ a, x = .ok a ∧ f a = .ok b := by
  cases x with
  | error e => cases h
  | ok a => exact ⟨a, rfl, h⟩

theorem map_ok {x : Except ε α} {f : α → β} {b : β} (h : x.map f = .ok b) : ∃ a, x = .ok a ∧ f a = b := by
  cases x with
  | error e => cases h
  | ok a => exact ⟨a, rfl, Except.ok.inj h⟩

theorem exists_ok {x : Except ε α} {P : α → Prop} [DecidablePred P]
    (h : x.toOption.any (fun a => decide (P a)) = true) : ∃ a, x = .ok a ∧ P a := by
  cases x with
  | error e => cases h
  | ok a => exact ⟨a, rfl, of_decide_eq_true h⟩

theorem ok_bind (a : α) (f : α → Except ε β) : (Except.ok a >>= f) = f a := rfl

theorem of_guard {γ : Type} {c : Prop} [Decidable c] {e : ε} {x : γ → Except ε α} {y : Except ε α} {a : α}
    (h : (if c then (throw e : Except ε γ) >>= x else y) = .ok a) : ¬c ∧ y = .ok a := by
  split_ifs at h with hc
  · cases h
  · exact ⟨hc, h⟩

theorem of_ite {c : Prop} [Decidable c] {a b x : α} (h : (if c then a else b) = x) (hne : a ≠ x) : ¬c ∧ b = x := by
  split_ifs at h with hc
  · exact absurd h hne
  · exact ⟨hc, h⟩

section Several

variable (step : ℕ → Except ε (α × ℕ))

def several : ℕ → ℕ → Except ε (List α × ℕ)
  | 0, i => .ok ([], i)
  | n + 1, i => do
    let r ← step i
    let rs ← several n r.2
    return (r.1 :: rs.1, rs.2)

variable {step} {n k i j : ℕ} {as : List α}

theorem several_cons {a : α} (h : step i = .ok (a, j)) (hrest : several step n j = .ok (as, k)) :
    several step (n + 1) i = .ok (a :: as, k) := by
  simp only [several, h, hrest, bind, Except.bind, pure, Except.pure]

theorem several_cons_inv (h : several step (n + 1) i = .ok (as, k)) :
    ∃ a bs j, step i = .ok (a, j) ∧ several step n j = .ok (bs, k) ∧ as = a :: bs := by
  obtain ⟨⟨a, j⟩, hstep, h⟩ := bind_ok h
  obtain ⟨⟨bs, k'⟩, hrest, h⟩ := bind_ok h
  cases h
  exact ⟨a, bs, j, hstep, hrest, rfl⟩

theorem several_append {bs : List α} {m l : ℕ} (h : several step n i = .ok (as, j)) (h' : several step m j = .ok (bs, l)) :
    several step (n + m) i = .ok (as ++ bs, l) := by
  induction n generalizing i as with
  | zero =>
    cases h
    rw [Nat.zero_add]
    exact h'
  | succ n ih =>
    obtain ⟨a, cs, j', hstep, hrest, rfl⟩ := several_cons_inv h
    rw [Nat.succ_add]
    exact several_cons hstep (ih hrest)

theorem several_append_inv {m l : ℕ} (h : several step (n + m) i = .ok (as, l)) :
    ∃ bs cs j, several step n i = .ok (bs, j) ∧ several step m j = .ok (cs, l) ∧ as = bs ++ cs := by
  induction n generalizing i as with
  | zero =>
    rw [Nat.zero_add] at h
    exact ⟨[], as, i, rfl, h, rfl⟩
  | succ n ih =>
    rw [Nat.succ_add] at h
    obtain ⟨a, ds, j', hstep, hrest, rfl⟩ := several_cons_inv h
    obtain ⟨bs, cs, j, hbs, hcs, rfl⟩ := ih hrest
    exact ⟨a :: bs, cs, j, several_cons hstep hbs, hcs, rfl⟩

end Several

end Fallible

namespace Indexed

variable {ε α β : Type}

abbrev Checked (ε α : Type) := ExceptT ε Option α

def access (x : Option α) : Checked ε α := ExceptT.mk (x.map .ok)

def total (x : Except ε α) : Checked ε α := ExceptT.mk (some x)

def index (xs : List α) (i : ℕ) : Option α := xs[i]?

def bounds (size i j : ℕ) : Option Unit := if i ≤ j ∧ j ≤ size then some () else none

def slice (xs : List α) (i j : ℕ) : Option (List α) := (bounds xs.length i j).map fun _ => (xs.drop i).take (j - i)

theorem bounds_of_le {size i j : ℕ} (h : i ≤ j) (h' : j ≤ size) : bounds size i j = some () := if_pos ⟨h, h'⟩

theorem index_of_lt {xs : List α} {i : ℕ} (h : i < xs.length) (a : α) : index xs i = some (xs.getD i a) := by
  rw [index, List.getD_eq_getElem?_getD, List.getElem?_eq_getElem h]
  rfl

theorem slice_of_le {xs : List α} {i n : ℕ} (h : i + n ≤ xs.length) : slice xs i (i + n) = some ((xs.drop i).take n) := by
  rw [slice, bounds_of_le (Nat.le_add_right i n) h, Nat.add_sub_cancel_left]
  rfl

theorem slice_zero {xs : List α} {n : ℕ} (h : n ≤ xs.length) : slice xs 0 n = some (xs.take n) := by
  rw [slice, bounds_of_le (Nat.zero_le n) h]
  rfl

@[simp] theorem access_some (a : α) : (access (some a) : Checked ε α) = pure a := rfl

@[simp] theorem total_run (x : Except ε α) : (total x).run = some x := rfl

theorem bind_total {x : Except ε α} {f : α → Checked ε β} {g : α → Except ε β} (h : ∀ a, x = .ok a → f a = total (g a)) :
    total x >>= f = total (x >>= g) := by
  cases x with
  | error e => rfl
  | ok a => exact h a rfl

theorem ite_total {c : Prop} [Decidable c] {x y : Checked ε α} {x' y' : Except ε α} (hx : c → x = total x')
    (hy : ¬c → y = total y') : (if c then x else y) = total (if c then x' else y') := by
  rw [apply_ite total]
  exact ite_congr rfl hx hy

end Indexed
