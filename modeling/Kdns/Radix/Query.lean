import Kdns.Radix.Mutate
import Mathlib.Data.List.Nodup

namespace Kdns.Radix

open ByteStream SortedEdges Dns List

section Walk

variable {P : Type} (extend : Bytes → P → Option P)

mutual

def walkTree : Node → P → List (P × Node)
  | .mk rrsets wildcard children, path =>
    (path, .mk rrsets wildcard children) :: (walkWildcard wildcard path ++ walkEdges children path)

def walkWildcard : Option Node → P → List (P × Node)
  | none, _ => []
  | some n, path =>
    match extend star path with
    | none => []
    | some path' => walkTree n path'

def walkEdges : List (Bytes × Node) → P → List (P × Node)
  | [], _ => []
  | (label, n) :: edges, path =>
    (match extend label path with
    | none => []
    | some path' => walkTree n path') ++ walkEdges edges path

end

def kids (n : Node) : List (Bytes × Node) := (n.wildcard.map (Prod.mk star)).toList ++ n.children

theorem walkEdges_eq (edges : List (Bytes × Node)) (path : P) :
    walkEdges extend edges path = edges.flatMap fun e => ((extend e.1 path).map (walkTree extend e.2)).getD [] := by
  induction edges with
  | nil => simp [walkEdges]
  | cons e edges ih =>
    rw [walkEdges, flatMap_cons, ih]
    cases extend e.1 path <;> rfl

theorem walkTree_eq (n : Node) (path : P) : walkTree extend n path =
      (path, n) :: (kids n).flatMap fun e => ((extend e.1 path).map (walkTree extend e.2)).getD [] := by
  obtain ⟨r, w, cs⟩ := n
  rw [walkTree, walkEdges_eq, kids, flatMap_append]
  cases w with
  | none => rfl
  | some w =>
    simp only [walkWildcard, Node.wildcard_mk, Option.map_some, Option.toList_some, flatMap_singleton]
    cases extend star path <;> rfl

end Walk

def pathBufSize : ℕ := 256

def extendName (label path : Bytes) : Option Bytes :=
  if (childName label path).length ≤ pathBufSize then some (childName label path) else none

def recorded {P : Type} (visited : List (P × Node)) : List (P × RRSets) :=
  visited.filterMap fun x => (records x.2).map (Prod.mk x.1)

def walk (root : Node) : List (Bytes × RRSets) := recorded (walkTree extendName root [])

def extendPath (label : Bytes) (path : List Bytes) : Option (List Bytes) := some (path ++ [label])

def visits (n : Node) : List (List Bytes × Node) := walkTree extendPath n []

variable {n : Node}

section

variable (h : WF n)
include h

theorem mem_kids (e : Bytes × Node) : e ∈ kids n ↔ child n e.1 = some e.2 := by
  obtain ⟨l, c⟩ := e
  rw [kids, child, mem_append]
  constructor
  · rintro (hw | hc)
    · obtain ⟨w, hw, he⟩ := Option.map_eq_some_iff.mp (Option.mem_toList.mp hw)
      cases he
      rw [if_pos rfl, hw]
    · rw [if_neg (h.label _ hc).2]
      exact lookup_of_mem h.sorted hc
  · intro hc
    dsimp only at hc
    split_ifs at hc with hs
    · exact .inl (by simp [hs, hc])
    · exact .inr (mem_of_lookup hc)

theorem kids_pairwise : (kids n).Pairwise fun a b => a.1 ≠ b.1 := by
  refine pairwise_append.mpr ⟨?_, h.sorted.imp fun hab => hab.ne, fun a ha b hb => ?_⟩
  · cases n.wildcard <;> simp
  · obtain ⟨w, -, rfl⟩ := Option.map_eq_some_iff.mp (Option.mem_toList.mp ha)
    exact (h.label b hb).2.symm

theorem walkTree_path (p : List Bytes) :
    walkTree extendPath n p = (visits n).map fun x => (p ++ x.1, x.2) := by
  induction h generalizing p with
  | intro n sorted label full wf ih =>
    have hkids := mem_kids (.intro n sorted label full wf)
    rw [visits, walkTree_eq, walkTree_eq, map_cons, append_nil, map_flatMap, cons.injEq]
    refine ⟨rfl, flatMap_congr fun e he => ?_⟩
    have he := ih _ _ ((hkids e).mp he)
    simp only [extendPath, Option.map_some, Option.getD_some, he (p ++ [e.1]), he ([] ++ [e.1]), map_map]
    simp

theorem visits_eq :
    visits n = ([], n) :: (kids n).flatMap fun e => (visits e.2).map fun x => (e.1 :: x.1, x.2) := by
  rw [visits, walkTree_eq, cons.injEq]
  refine ⟨rfl, flatMap_congr fun e he => ?_⟩
  simp only [extendPath, Option.map_some, Option.getD_some]
  rw [walkTree_path (h.child ((mem_kids h e).mp he))]
  simp

theorem mem_visits (p : List Bytes) (m : Node) : (p, m) ∈ visits n ↔ findNode n p = some m := by
  induction h generalizing p with
  | intro n sorted label full wf ih =>
    have hwf := WF.intro n sorted label full wf
    rw [visits_eq hwf, mem_cons, mem_flatMap]
    cases p with
    | nil => simp [findNode, eq_comm]
    | cons l ls =>
      rw [findNode_cons sorted]
      constructor
      · rintro (h0 | ⟨e, he, hx⟩)
        · cases h0
        · obtain ⟨x, hmem, he'⟩ := mem_map.mp hx
          have hc := (mem_kids hwf e).mp he
          cases he'
          rw [hc]
          exact (ih _ _ hc x.1).mp hmem
      · intro hf
        obtain ⟨c, hc, hf⟩ := Option.bind_eq_some_iff.mp hf
        refine .inr ⟨(l, c), (mem_kids hwf (l, c)).mpr hc, mem_map.mpr ⟨(ls, m), ?_, rfl⟩⟩
        exact (ih l c hc ls).mpr hf

theorem nodup_visits : ((visits n).map Prod.fst).Nodup := by
  induction h with
  | intro n sorted label full wf ih =>
    have hwf := WF.intro n sorted label full wf
    rw [visits_eq hwf, map_cons, map_flatMap]
    refine nodup_cons.mpr ⟨by simp, nodup_flatMap.mpr ⟨fun e he => ?_, ?_⟩⟩
    · have hn := ih _ _ ((mem_kids hwf e).mp he)
      rw [map_map]
      have hcomp : (Prod.fst ∘ fun x : List Bytes × Node => (e.1 :: x.1, x.2)) = cons e.1 ∘ Prod.fst := rfl
      rw [hcomp, ← map_map]
      exact hn.map cons_injective
    · refine (kids_pairwise hwf).imp fun {a b} hab => ?_
      intro p ha hb
      simp only [map_map, mem_map, Function.comp_apply] at ha hb
      obtain ⟨x, -, rfl⟩ := ha
      obtain ⟨y, -, hy⟩ := hb
      exact hab (cons.inj hy).1.symm

theorem findNode_wf {m : Node} {p : List Bytes} (hf : findNode n p = some m) :
    WF m ∧ (p ≠ [] → m.bare = false) ∧ ∀ q, view n (p ++ q) = view m q := by
  induction p generalizing n with
  | nil => cases hf; exact ⟨h, by simp, fun q => rfl⟩
  | cons l ls ih =>
    rw [findNode_cons h.sorted] at hf
    obtain ⟨c, hc, hf⟩ := Option.bind_eq_some_iff.mp hf
    obtain ⟨hwf, hb, hv⟩ := ih (h.child hc) hf
    refine ⟨hwf, fun _ => ?_, fun q => ?_⟩
    · by_cases h0 : ls = []
      · subst h0
        cases hf
        exact h.full hc
      · exact hb h0
    · rw [cons_append, view_cons h.sorted, hc, Option.bind_some, hv]

end

def NamesWithin (b : ℕ) (n : Node) : Prop := ∀ p, view n p ≠ none → (nameOf p).length ≤ b

theorem visits_within {b : ℕ} (h : WF n) (hn : NamesWithin b n) : ∀ x ∈ visits n, (nameOf x.1).length ≤ b := by
  intro x hx
  obtain ⟨hwf, hb, hv⟩ := findNode_wf h ((mem_visits h x.1 x.2).mp hx)
  by_cases h0 : x.1 = []
  · simp [h0, nameOf]
  · obtain ⟨q, r, hr⟩ := exists_view hwf (hb h0)
    exact (nameOf_prefix_length x.1 q).trans (hn _ (by rw [hv, hr]; simp))

theorem walkTree_name (h : WF n) {p : List Bytes} (hp : ∀ l ∈ p, IsLabel l)
    (hs : ∀ x ∈ visits n, (nameOf (p ++ x.1)).length ≤ pathBufSize) :
    walkTree extendName n (nameOf p) = (visits n).map fun x => (nameOf (p ++ x.1), x.2) := by
  induction h generalizing p with
  | intro n sorted label full wf ih =>
    have hwf := WF.intro n sorted label full wf
    rw [visits_eq hwf] at hs ⊢
    rw [walkTree_eq, map_cons, append_nil, map_flatMap, cons.injEq]
    refine ⟨rfl, flatMap_congr fun e he => ?_⟩
    have hc := (mem_kids hwf e).mp he
    have hp' : ∀ l ∈ p ++ [e.1], IsLabel l :=
      forall_mem_append.mpr ⟨hp, forall_mem_singleton.mpr (hwf.child_label hc)⟩
    have hs' : ∀ x ∈ visits e.2, (nameOf (p ++ [e.1] ++ x.1)).length ≤ pathBufSize := by
      intro x hx
      rw [append_assoc]
      exact hs (e.1 :: x.1, x.2) (mem_cons_of_mem _ (mem_flatMap.mpr ⟨e, he, mem_map_of_mem hx⟩))
    have hroom : extendName e.1 (nameOf p) = some (nameOf (p ++ [e.1])) := by
      have h0 := hs' ([], e.2) (by rw [visits_eq (wf _ _ hc)]; exact mem_cons_self)
      rw [append_nil, nameOf_concat hp] at h0
      rw [extendName, if_pos h0, nameOf_concat hp]
    rw [hroom, Option.map_some, Option.getD_some, ih _ _ hc hp' hs', map_map]
    simp

def entries (n : Node) : List (List Bytes × RRSets) := recorded (visits n)

theorem mem_entries (h : WF n) (p : List Bytes) (r : RRSets) : (p, r) ∈ entries n ↔ view n p = some r := by
  simp only [entries, recorded, mem_filterMap, Option.map_eq_some_iff, Prod.mk.injEq, view,
    Option.bind_eq_some_iff]
  constructor
  · rintro ⟨x, hx, r', hr, rfl, rfl⟩
    exact ⟨x.2, (mem_visits h x.1 x.2).mp hx, hr⟩
  · rintro ⟨m, hf, hr⟩
    exact ⟨(p, m), (mem_visits h p m).mpr hf, r, hr, rfl, rfl⟩

theorem nodup_entries (h : WF n) : ((entries n).map Prod.fst).Nodup := by
  have hsub : ∀ xs : List (List Bytes × Node), ((recorded xs).map Prod.fst).Sublist (xs.map Prod.fst) := by
    intro xs
    induction xs with
    | nil => exact List.Sublist.refl _
    | cons x xs ih =>
      rw [recorded, filterMap_cons, map_cons]
      cases records x.2 with
      | none => exact ih.cons _
      | some r => exact ih.cons_cons x.1
  exact (nodup_visits h).sublist (hsub _)

theorem walk_eq (h : WF n) (hn : NamesWithin pathBufSize n) : walk n = (entries n).map fun x => (nameOf x.1, x.2) := by
  have hw := walkTree_name h (p := []) (by simp) (by simpa using visits_within h hn)
  rw [walk, show ([] : Bytes) = nameOf [] from rfl, hw, entries, recorded, recorded, filterMap_map,
    map_filterMap]
  apply filterMap_congr
  intro x _
  simp only [Function.comp_apply, nil_append, Option.map_map]
  rfl

end Kdns.Radix
