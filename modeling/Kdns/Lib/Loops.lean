import Mathlib.Data.List.Basic

/-!
Loops over a sequence of inputs: machines that answer every input, loops whose body may leave them, and a client that
asks for page after page, each time from the cursor that the last page gave it.
-/

namespace Transducer

variable {S T A B : Type}

def outputs (step : S → A → B × S) : S → List A → List B
  | _, [] => []
  | s, a :: inputs => (step s a).1 :: outputs step (step s a).2 inputs

theorem outputs_eq {step : S → A → B × S} {step' : T → A → B × T} {R : S → T → Prop}
    (h : ∀ s t a, R s t → (step s a).1 = (step' t a).1 ∧ R (step s a).2 (step' t a).2) {s : S} {t : T} (hst : R s t)
    (inputs : List A) : outputs step s inputs = outputs step' t inputs := by
  induction inputs generalizing s t with
  | nil => rfl
  | cons a inputs ih =>
    obtain ⟨hout, hnext⟩ := h s t a hst
    rw [outputs, outputs, hout, ih hnext]

end Transducer

namespace Iteration

variable {α σ : Type}

def scan (body : σ → α → σ × Bool) : σ → List α → σ × Bool
  | s, [] => (s, true)
  | s, x :: xs =>
    match body s x with
    | (s', true) => scan body s' xs
    | (s', false) => (s', false)

def followed (r : σ × Bool) (next : σ → σ × Bool) : σ × Bool := if r.2 then next r.1 else r

@[simp] theorem scan_nil (body : σ → α → σ × Bool) (s : σ) : scan body s [] = (s, true) := rfl

theorem scan_cons (body : σ → α → σ × Bool) (s : σ) (x : α) (xs : List α) :
    scan body s (x :: xs) = followed (body s x) fun s' => scan body s' xs := by
  rw [scan]
  rcases body s x with ⟨s', _ | _⟩ <;> rfl

theorem scan_append (body : σ → α → σ × Bool) (s : σ) (xs ys : List α) :
    scan body s (xs ++ ys) = followed (scan body s xs) fun s' => scan body s' ys := by
  induction xs generalizing s with
  | nil => rfl
  | cons x xs ih =>
    rw [List.cons_append, scan_cons, scan_cons]
    rcases body s x with ⟨s', _ | _⟩
    · rfl
    · exact ih s'

def collect (kept : List α) (x : α) : List α × Bool := (kept ++ [x], true)

theorem scan_collect (kept xs : List α) : scan collect kept xs = (kept ++ xs, true) := by
  induction xs generalizing kept with
  | nil => simp
  | cons x xs ih =>
    change scan collect (kept ++ [x]) xs = _
    rw [ih, List.append_assoc]
    rfl

end Iteration

namespace Paging

structure Page (C D : Type) where
  rows : List D
  next : C
  more : Bool

variable {C D : Type} (fetch : C → Page C D)

def crawl : ℕ → C → Option (List D)
  | 0, _ => none
  | fuel + 1, cursor =>
    let page := fetch cursor
    if page.more then (crawl fuel page.next).map (page.rows ++ ·) else some page.rows

variable {fetch}

theorem crawl_all {Left : C → List D → Prop}
    (hpage : ∀ c rows, Left c rows → ((fetch c).more = false ∧ (fetch c).rows = rows) ∨
      ((fetch c).more = true ∧ (fetch c).rows ≠ [] ∧ ∃ rest, rows = (fetch c).rows ++ rest ∧ Left (fetch c).next rest))
    {c : C} {rows : List D} (h : Left c rows) : ∃ fuel, crawl fetch fuel c = some rows := by
  induction hn : rows.length using Nat.strongRecOn generalizing c rows with
  | _ n ih =>
    obtain ⟨hlast, hrows⟩ | ⟨hmore, hne, rest, hrows, hrest⟩ := hpage c rows h
    · exact ⟨1, by simp [crawl, hlast, hrows]⟩
    · have hlt : rest.length < n := by
        have := List.length_pos_iff.mpr hne
        rw [← hn, hrows, List.length_append]
        omega
      obtain ⟨fuel, hfuel⟩ := ih _ hlt hrest rfl
      exact ⟨fuel + 1, by simp [crawl, hmore, hfuel, ← hrows]⟩

theorem crawl_stuck {c : C} (hmore : (fetch c).more = true) (hnext : (fetch c).next = c) (fuel : ℕ) :
    crawl fetch fuel c = none := by
  induction fuel with
  | zero => rfl
  | succ fuel ih => simp [crawl, hmore, hnext, ih]

end Paging
