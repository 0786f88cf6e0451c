import Mathlib.Data.List.Chain
import Mathlib.Data.List.Nodup
import Mathlib.Logic.Function.Basic

/-! Doubly linked lists between two sentinels. -/

open List

namespace LinkedList

structure Links (α : Type) where
  prev : α → Option α
  next : α → Option α

namespace Links

variable {α : Type} {l : Links α} {a b e : α} {pre post path : List α}

section Operations

variable [DecidableEq α]

def setPrev (l : Links α) (a : α) (p : Option α) : Links α := { l with prev := Function.update l.prev a p }

def setNext (l : Links α) (a : α) (n : Option α) : Links α := { l with next := Function.update l.next a n }

def remove (l : Links α) (e : α) : Option (Links α) := do
  let p ← l.prev e
  let l := l.setNext p (l.next e)
  let n ← l.next e
  let l := l.setPrev n (l.prev e)
  return (l.setPrev e none).setNext e none

def insertAfter (l : Links α) (a e : α) : Option (Links α) := do
  let l := (l.setNext e (l.next a)).setPrev e (some a)
  let n ← l.next a
  let l := l.setPrev n (some e)
  return l.setNext a (some e)

end Operations

def Neighbours (l : Links α) (a b : α) : Prop := l.next a = some b ∧ l.prev b = some a

structure Path (l : Links α) (path : List α) : Prop where
  nodup : path.Nodup
  linked : path.IsChain l.Neighbours

theorem Neighbours.right_unique (h : l.Neighbours a b) (h' : l.Neighbours a e) : b = e :=
  Option.some.inj (h.1.symm.trans h'.1)

theorem Neighbours.left_unique (h : l.Neighbours a b) (h' : l.Neighbours e b) : a = e :=
  Option.some.inj (h.2.symm.trans h'.2)

namespace Path

theorem next_eq (h : Path l (a :: b :: post)) : l.next a = some b := (isChain_cons_cons.mp h.linked).1.1

theorem prev_eq (h : Path l (pre ++ [a, b])) : l.prev b = some a := (isChain_append_cons_cons.mp h.linked).2.1.2

variable [DecidableEq α]

theorem remove (h : Path l (pre ++ a :: e :: b :: post)) : ∃ l', l.remove e = some l' ∧ Path l' (pre ++ a :: b :: post) := by
  obtain ⟨hpre, hae, hrest⟩ := isChain_append_cons_cons.mp h.linked
  obtain ⟨heb, hpost⟩ := isChain_cons_cons.mp hrest
  have hmiddle : pre ++ a :: e :: b :: post = (pre ++ [a]) ++ e :: (b :: post) := by simp
  have hnodup := hmiddle ▸ h.nodup
  rw [nodup_middle, nodup_cons, mem_append, not_or] at hnodup
  obtain ⟨⟨hleft, hright⟩, hnodup⟩ := hnodup
  have ha : a ≠ e := fun heq => hleft (heq ▸ by simp)
  have hb : b ≠ e := fun heq => hright (heq ▸ by simp)
  let l' : Links α :=
    ⟨Function.update (Function.update l.prev b (some a)) e none, Function.update (Function.update l.next a (some b)) e none⟩
  -- Only the pointers between `a`, `e` and `b` change.
  have hkeep : ∀ x y, x ≠ e → y ≠ e → l.Neighbours x y → l'.Neighbours x y := by
    intro x y hx hy hxy
    have hxa : x ≠ a := by
      rintro rfl
      exact hy (hxy.right_unique hae)
    have hyb : y ≠ b := by
      rintro rfl
      exact hx (hxy.left_unique heb)
    simpa [l', Neighbours, hx, hy, hxa, hyb] using hxy
  refine ⟨l', ?_, by simpa using hnodup, isChain_append_cons_cons.mpr ⟨?_, ?_, ?_⟩⟩
  · simp [l', Links.remove, hae.2, heb.1, setPrev, setNext, Function.update_of_ne ha.symm]
  · exact hpre.imp_of_mem_imp fun x y hx hy => hkeep x y (ne_of_mem_of_not_mem hx hleft) (ne_of_mem_of_not_mem hy hleft)
  · simp [l', Neighbours, ha, hb]
  · exact hpost.imp_of_mem_imp fun x y hx hy => hkeep x y (ne_of_mem_of_not_mem hx hright) (ne_of_mem_of_not_mem hy hright)

theorem insertAfter (h : Path l (a :: b :: post)) (he : e ∉ a :: b :: post) :
    ∃ l', l.insertAfter a e = some l' ∧ Path l' (a :: e :: b :: post) := by
  obtain ⟨hab, hpost⟩ := isChain_cons_cons.mp h.linked
  obtain ⟨hfirst, hrest⟩ := nodup_cons.mp h.nodup
  rw [mem_cons, not_or] at he
  obtain ⟨hea, heb⟩ := he
  have hbe : b ≠ e := fun heq => heb (heq ▸ mem_cons_self)
  let l' : Links α :=
    ⟨Function.update (Function.update l.prev e (some a)) b (some e), Function.update (Function.update l.next e (some b)) a (some e)⟩
  have hkeep : ∀ x y, x ∈ b :: post → y ∈ b :: post → l.Neighbours x y → l'.Neighbours x y := by
    intro x y hx hy hxy
    have hxa := ne_of_mem_of_not_mem hx hfirst
    have hyb : y ≠ b := by
      rintro rfl
      exact hxa (hxy.left_unique hab)
    simpa [l', Neighbours, hxa, hyb, ne_of_mem_of_not_mem hx heb, ne_of_mem_of_not_mem hy heb] using hxy
  refine ⟨l', ?_, ?_, isChain_cons_cons.mpr ⟨?_, isChain_cons_cons.mpr ⟨?_, ?_⟩⟩⟩
  · simp [l', Links.insertAfter, hab.1, setPrev, setNext, Function.update_of_ne (Ne.symm hea)]
  · grind
  · simp [l', Neighbours, hbe.symm]
  · simp [l', Neighbours, hea]
  · exact hpost.imp_of_mem_imp hkeep

theorem reset (l : Links α) (hab : a ≠ b) : Path ((l.setNext a (some b)).setPrev b (some a)) [a, b] where
  nodup := by simpa using hab
  linked := by simp [Neighbours, setNext, setPrev]

end Path

end Links

end LinkedList
