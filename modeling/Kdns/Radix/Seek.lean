import Kdns.Radix.History
import Kdns.Radix.PathBuf

namespace Kdns.Radix

open ByteStream Dns Iteration List

section Visitor

variable {σ : Type} (afterDomain : Bytes) (yield : σ → Bytes × RRSets → σ × Bool)

def seekVisit : Bool × σ → Bytes × Node → (Bool × σ) × Bool
  | (true, s), (domainBytes, _) => ((decide (domainBytes ≠ afterDomain), s), true)
  | (false, s), (domainBytes, n) =>
    if n.rrsets = [] then ((false, s), true)
    else
      let r := yield s (domainBytes, n.rrsets)
      ((false, r.1), r.2)

def Tree.seek (t : Tree) (s : σ) : σ :=
  if afterDomain ≠ [] ∧ (findNode t.root (labels afterDomain)).isNone then s
  else (walkPathBuf (seekVisit afterDomain yield) t.root (decide (afterDomain ≠ []), s)).1.2

end Visitor

def Tree.walkSeq (t : Tree) : List (Bytes × RRSets) := t.seek [] collect []

def pastName {V : Type} (name : Bytes) (rows : List (Bytes × V)) : List (Bytes × V) :=
  (rows.dropWhile fun x => x.1 ≠ name).tail

theorem pastName_append {V : Type} {row : Bytes × V} {front : List (Bytes × V)} (h : ∀ x ∈ front, x.1 ≠ row.1)
    (rest : List (Bytes × V)) : pastName row.1 (front ++ row :: rest) = rest := by
  rw [pastName, dropWhile_append_of_pos fun x hx => decide_eq_true (h x hx), dropWhile_cons]
  simp

def Tree.rowsAfter (t : Tree) (afterDomain : Bytes) : List (Bytes × RRSets) :=
  if afterDomain = [] then t.walk
  else if (findNode t.root (labels afterDomain)).isNone then []
  else recorded (pastName afterDomain (walkTree extendName t.root []))

section Scan

variable {σ : Type} {afterDomain : Bytes} {yield : σ → Bytes × RRSets → σ × Bool}

theorem recorded_cons {P : Type} (x : P × Node) (xs : List (P × Node)) :
    recorded (x :: xs) = (if x.2.rrsets = [] then [] else [(x.1, x.2.rrsets)]) ++ recorded xs := by
  rw [recorded, filterMap_cons, records]
  split_ifs <;> rfl

theorem scan_seekVisit_found (s : σ) (xs : List (Bytes × Node)) : scan (seekVisit afterDomain yield) (false, s) xs =
      ((false, (scan yield s (recorded xs)).1), (scan yield s (recorded xs)).2) := by
  induction xs generalizing s with
  | nil => rfl
  | cons x xs ih =>
    rw [scan_cons, recorded_cons, seekVisit]
    split_ifs with h0
    · exact ih s
    · rw [singleton_append, scan_cons]
      rcases yield s (x.1, x.2.rrsets) with ⟨s', _ | _⟩
      · rfl
      · exact ih s'

theorem scan_seekVisit_skipping (s : σ) (xs : List (Bytes × Node)) :
    (scan (seekVisit afterDomain yield) (true, s) xs).1.2 = (scan yield s (recorded (pastName afterDomain xs))).1 := by
  induction xs with
  | nil => rfl
  | cons x xs ih =>
    rw [scan_cons, seekVisit, pastName, dropWhile_cons]
    by_cases hx : x.1 = afterDomain
    · simp only [hx, ne_eq, not_true_eq_false, decide_false, Bool.false_eq_true, if_false, tail_cons]
      exact congrArg (fun r => r.1.2) (scan_seekVisit_found s xs)
    · simp only [hx, ne_eq, not_false_eq_true, decide_true, if_true]
      exact ih

theorem Tree.seek_eq (t : Tree) (s : σ) : t.seek afterDomain yield s = (scan yield s (t.rowsAfter afterDomain)).1 := by
  rw [seek, rowsAfter, walkPathBuf_eq]
  by_cases hroot : afterDomain = []
  · subst hroot
    exact congrArg (fun r => r.1.2) (scan_seekVisit_found s _)
  · rw [if_neg hroot]
    simp only [hroot, ne_eq, not_false_eq_true, true_and, decide_true]
    split_ifs with hfound
    · rfl
    · exact scan_seekVisit_skipping s _

theorem Tree.walkSeq_eq (t : Tree) : t.walkSeq = t.walk := by
  rw [walkSeq, seek_eq, scan_collect]
  rfl

end Scan

theorem recorded_pastName {name : Bytes} {xs : List (Bytes × Node)} (h : ∀ x ∈ xs, x.1 = name → x.2.rrsets ≠ []) :
    recorded (pastName name xs) = pastName name (recorded xs) := by
  induction xs with
  | nil => rfl
  | cons x xs ih =>
    obtain ⟨hx, hxs⟩ := forall_mem_cons.mp h
    rw [recorded_cons, pastName, dropWhile_cons]
    by_cases hname : x.1 = name
    · simp [pastName, hname, hx hname]
    · simp only [hname, ne_eq, not_false_eq_true, decide_true, if_true]
      split_ifs with h0
      · exact ih hxs
      · rw [pastName, singleton_append, dropWhile_cons]
        simp only [hname, ne_eq, not_false_eq_true, decide_true, if_true]
        exact ih hxs

theorem visits_labels {n : Node} (h : WF n) {x : List Bytes × Node} (hx : x ∈ visits n) : ∀ l ∈ x.1, IsLabel l := by
  obtain ⟨hwf, hbare, hview⟩ := findNode_wf h ((mem_visits h x.1 x.2).mp hx)
  by_cases h0 : x.1 = []
  · simp [h0]
  · obtain ⟨q, r, hr⟩ := exists_view hwf (hbare h0)
    have hlabels := view_labels h ((hview q).trans hr)
    exact fun l hl => hlabels l (mem_append_left q hl)

theorem Tree.rowsAfter_walk {t : Tree} (h : t.Valid) (hn : NamesWithin pathBufSize t.root) {name : Bytes} {r : RRSets}
    (h0 : name ≠ []) (hmem : (name, r) ∈ t.walk) : t.rowsAfter name = pastName name t.walk := by
  obtain ⟨e, he, hrow⟩ := mem_map.mp ((walk_spec h hn).1 ▸ hmem)
  obtain ⟨hname, -⟩ := Prod.mk.inj hrow
  have hview := (mem_entries h.wf e.1 e.2).mp he
  have hlabels : labels name = e.1 := by rw [← hname, labels_nameOf (view_labels h.wf hview)]
  obtain ⟨m, hfind, -⟩ := Option.bind_eq_some_iff.mp hview
  have hvisited := walkTree_name h.wf (p := []) (by simp) (by simpa using visits_within h.wf hn)
  have hrecords : ∀ x ∈ walkTree extendName t.root [], x.1 = name → x.2.rrsets ≠ [] := by
    intro x hx heq hnone
    rw [show ([] : Bytes) = nameOf [] from rfl, hvisited] at hx
    obtain ⟨y, hy, rfl⟩ := mem_map.mp hx
    have hpath : y.1 = e.1 := by
      rw [← labels_nameOf (visits_labels h.wf hy), ← hlabels, ← heq]
      rfl
    have hnode := (mem_visits h.wf y.1 y.2).mp hy
    rw [view, ← hpath, hnode, Option.bind_some, records, if_pos hnone] at hview
    cases hview
  rw [rowsAfter, if_neg h0, hlabels, hfind, if_neg (by simp), recorded_pastName hrecords]
  rfl

end Kdns.Radix
