import Mathlib.Data.List.Basic
import Mathlib.Data.List.Sort
import Mathlib.Order.Defs.LinearOrder

/-! Association lists kept sorted by key, searched by index. -/

namespace SortedEdges

open List

variable {K V : Type} [LinearOrder K]

def Sorted (es : List (K × V)) : Prop := es.Pairwise fun a b => a.1 < b.1

inductive Located (k : K) : List (K × V) → ℕ × Bool → Prop
  | hit (l : List (K × V)) (v : V) (r : List (K × V)) (hl : ∀ e ∈ l, e.1 < k) (hr : ∀ e ∈ r, k < e.1) :
      Located k (l ++ (k, v) :: r) (l.length, true)
  | miss (l r : List (K × V)) (hl : ∀ e ∈ l, e.1 < k) (hr : ∀ e ∈ r, k < e.1) : Located k (l ++ r) (l.length, false)

variable {l r es : List (K × V)} {k : K} {e : K × V} {v : V}

theorem sorted_insert (v : V) (h : Sorted (l ++ r)) (hl : ∀ e ∈ l, e.1 < k)
    (hr : ∀ e ∈ r, k < e.1) : Sorted (l ++ (k, v) :: r) := by
  obtain ⟨h₁, h₂, h₃⟩ := pairwise_append.mp h
  refine pairwise_append.mpr ⟨h₁, pairwise_cons.mpr ⟨hr, h₂⟩, fun a ha b hb => ?_⟩
  rcases mem_cons.mp hb with rfl | hb
  · exact hl a ha
  · exact h₃ a ha b hb

section

variable (h : Sorted (l ++ e :: r))
include h

theorem sorted_erase : Sorted (l ++ r) :=
  h.sublist (List.Sublist.append_left (sublist_cons_self e r) l)

theorem Sorted.before : ∀ a ∈ l, a.1 < e.1 :=
  fun a ha => (pairwise_append.mp h).2.2 a ha e mem_cons_self

theorem Sorted.after : ∀ a ∈ r, e.1 < a.1 :=
  (pairwise_cons.mp (pairwise_append.mp h).2.1).1

end

theorem located_hit {i : ℕ} (h : Sorted es) (hi : es[i]? = some (k, v)) : Located k es (i, true) := by
  obtain ⟨hlt, hget⟩ := List.getElem?_eq_some_iff.mp hi
  have hsplit : es = es.take i ++ (k, v) :: es.drop (i + 1) := by rw [← hget, getElem_cons_drop, take_append_drop]
  have hlen : i = (es.take i).length := by rw [length_take, Nat.min_eq_left hlt.le]
  rw [hsplit] at h
  have hit := Located.hit (es.take i) v (es.drop (i + 1)) h.before h.after
  rwa [← hsplit, ← hlen] at hit

theorem located_miss {i : ℕ} (hi : i ≤ es.length) (hl : ∀ e ∈ es.take i, e.1 < k)
    (hr : ∀ e ∈ es.drop i, k < e.1) : Located k es (i, false) := by
  have miss := Located.miss (es.take i) (es.drop i) hl hr
  rwa [take_append_drop, length_take, Nat.min_eq_left hi] at miss

omit [LinearOrder K] in
theorem insertIdx_length (l r : List (K × V)) (e : K × V) : (l ++ r).insertIdx l.length e = l ++ e :: r := by
  induction l with
  | nil => simp
  | cons a l ih => simpa using ih

section Located

variable {found : ℕ × Bool}

theorem Located.index_eq (h : Located k es found) : found.1 = es.countP fun e => e.1 < k := by
  have hall : ∀ {l : List (K × V)}, (∀ e ∈ l, e.1 < k) → l.countP (fun e => e.1 < k) = l.length := fun hl =>
    countP_eq_length.mpr fun e he => decide_eq_true (hl e he)
  have hnone : ∀ {r : List (K × V)}, (∀ e ∈ r, k < e.1) → r.countP (fun e => e.1 < k) = 0 := fun hr =>
    countP_eq_zero.mpr fun e he => by simpa using (hr e he).le
  cases h with
  | hit l v r hl hr => simp [countP_append, hall hl, hnone hr]
  | miss l r hl hr => simp [countP_append, hall hl, hnone hr]

theorem Located.found_iff (h : Located k es found) : found.2 = true ↔ ∃ e ∈ es, e.1 = k := by
  cases h with
  | hit l v r hl hr => exact iff_of_true rfl ⟨(k, v), by simp, rfl⟩
  | miss l r hl hr =>
    refine iff_of_false Bool.false_ne_true ?_
    rintro ⟨e, he, heq⟩
    rcases mem_append.mp he with he | he
    · exact (hl e he).ne heq
    · exact (hr e he).ne' heq

theorem Located.unique {found' : ℕ × Bool} (h : Located k es found) (h' : Located k es found') : found = found' := by
  apply Prod.ext
  · rw [h.index_eq, h'.index_eq]
  · rw [Bool.eq_iff_iff, h.found_iff, h'.found_iff]

theorem Located.get {i : ℕ} (h : Located k es (i, true)) : ∃ v, es[i]? = some (k, v) := by
  generalize hfound : (i, true) = found at h
  cases h with
  | hit l v r hl hr =>
    cases hfound
    exact ⟨v, by simp⟩
  | miss => cases hfound

theorem Located.insert {i : ℕ} (h : Located k es (i, false)) (hs : Sorted es) (v : V) : Sorted (es.insertIdx i (k, v)) := by
  generalize hfound : (i, false) = found at h
  cases h with
  | hit => cases hfound
  | miss l r hl hr =>
    cases hfound
    rw [insertIdx_length]
    exact sorted_insert v hs hl hr

end Located

def linearSearch (k : K) : List (K × V) → ℕ → ℕ × Bool
  | [], i => (i, false)
  | e :: es, i => if e.1 = k then (i, true) else if k < e.1 then (i, false) else linearSearch k es (i + 1)

theorem located_linearSearch (k : K) (l es : List (K × V)) (h : Sorted (l ++ es)) (hl : ∀ e ∈ l, e.1 < k) :
    Located k (l ++ es) (linearSearch k es l.length) := by
  induction es generalizing l with
  | nil => exact .miss l [] hl (by simp)
  | cons e es ih =>
    unfold linearSearch
    split_ifs with heq hlt
    · subst heq
      exact .hit l e.2 es hl h.after
    · refine .miss l (e :: es) hl (forall_mem_cons.mpr ⟨hlt, fun a ha => ?_⟩)
      exact hlt.trans (h.after a ha)
    · have hek : e.1 < k := lt_of_le_of_ne (not_lt.mp hlt) heq
      have := ih (l ++ [e]) (by simpa using h)
        (forall_mem_append.mpr ⟨hl, forall_mem_singleton.mpr hek⟩)
      simpa using this

def binarySearch (k : K) (es : List (K × V)) : ℕ → ℕ → ℕ → ℕ × Bool
  | 0, l, _ => (l, false)
  | fuel + 1, l, r =>
    if l < r then
      let m := (l + (r - 1)) / 2
      match es[m]? with
      | none => (l, false)
      | some e =>
        if e.1 = k then (m, true)
        else if e.1 < k then binarySearch k es fuel (m + 1) r
        else binarySearch k es fuel l m
    else (l, false)

theorem located_binarySearch (k : K) (es : List (K × V)) (h : Sorted es) (fuel l r : ℕ) (hlr : l ≤ r)
    (hr : r ≤ es.length) (hf : r - l ≤ fuel) (hlow : ∀ e ∈ es.take l, e.1 < k) (hhigh : ∀ e ∈ es.drop r, k < e.1) :
    Located k es (binarySearch k es fuel l r) := by
  induction fuel generalizing l r with
  | zero =>
    obtain rfl : l = r := by omega
    exact located_miss hr hlow hhigh
  | succ fuel ih =>
    unfold binarySearch
    split_ifs with hlt
    swap
    · obtain rfl : l = r := by omega
      exact located_miss hr hlow hhigh
    dsimp only
    generalize hm : (l + (r - 1)) / 2 = m
    have hml : m < es.length := by omega
    rw [getElem?_eq_getElem hml]
    have hsplit : es = es.take m ++ es[m] :: es.drop (m + 1) := by rw [getElem_cons_drop, take_append_drop]
    have h' := hsplit ▸ h
    dsimp only
    split_ifs with heq hek
    · exact located_hit (v := es[m].2) h (by rw [getElem?_eq_getElem hml, ← heq])
    · refine ih (m + 1) r (by omega) hr (by omega) (fun e he => ?_) hhigh
      rw [take_succ_eq_append_getElem hml, mem_append, mem_singleton] at he
      rcases he with he | rfl
      · exact (h'.before e he).trans hek
      · exact hek
    · apply ih l m (by omega) hml.le (by omega) hlow
      intro e he
      have hke : k < es[m].1 := lt_of_le_of_ne (not_lt.mp hek) (Ne.symm heq)
      rw [← getElem_cons_drop hml] at he
      rcases mem_cons.mp he with rfl | he
      · exact hke
      · exact hke.trans (h'.after e he)

section Lookup

def lookup (es : List (K × V)) (k : K) : Option V := List.lookup k es

@[simp] theorem lookup_nil (k : K) : lookup ([] : List (K × V)) k = none := rfl

theorem lookup_none (h : ∀ e ∈ es, e.1 ≠ k) : lookup es k = none := by
  rw [lookup, lookup_eq_none_iff]
  intro e he
  simpa using (h e he).symm

theorem lookup_miss (hl : ∀ e ∈ l, e.1 < k) (hr : ∀ e ∈ r, k < e.1) : lookup (l ++ r) k = none :=
  lookup_none (forall_mem_append.mpr ⟨fun e he => (hl e he).ne, fun e he => (hr e he).ne'⟩)

theorem lookup_hit (v : V) (r : List (K × V)) (hl : ∀ e ∈ l, e.1 < k) : lookup (l ++ (k, v) :: r) k = some v := by
  have hn : List.lookup k l = none := lookup_none fun e he => (hl e he).ne
  rw [lookup, lookup_append, hn, lookup_cons_self]
  rfl

theorem lookup_other {k' : K} (hk : k' ≠ k) (l : List (K × V)) (v : V) (r : List (K × V)) :
    lookup (l ++ (k, v) :: r) k' = lookup (l ++ r) k' := by
  rw [lookup, lookup, lookup_append, lookup_append, lookup_cons, beq_false_of_ne hk]

theorem mem_of_lookup (h : lookup es k = some v) : (k, v) ∈ es := by
  obtain ⟨l, r, rfl, -⟩ := lookup_eq_some_iff.mp h
  simp

theorem lookup_of_mem (hs : Sorted es) (h : e ∈ es) : lookup es e.1 = some e.2 := by
  obtain ⟨l, r, rfl⟩ := append_of_mem h
  exact lookup_hit e.2 r hs.before

theorem ext_lookup {es' : List (K × V)} (hs : Sorted es) (hs' : Sorted es')
    (h : ∀ k, lookup es k = lookup es' k) : es = es' := by
  have hsub : ∀ {xs ys : List (K × V)}, Sorted xs → (∀ k, lookup xs k = lookup ys k) → ∀ e ∈ xs, e ∈ ys :=
    fun hx hl e he => mem_of_lookup ((hl e.1).symm.trans (lookup_of_mem hx he))
  have hnd : ∀ {xs : List (K × V)}, Sorted xs → xs.Nodup := fun hx => hx.imp fun {a b} hab he => hab.ne (by rw [he])
  refine ((perm_ext_iff_of_nodup (hnd hs) (hnd hs')).mpr fun e => ⟨hsub hs h e, hsub hs' (fun k => (h k).symm) e⟩)
    |>.eq_of_pairwise (fun a b _ _ hab hba => absurd (hab.trans hba) (lt_irrefl _)) hs hs'

end Lookup

end SortedEdges
