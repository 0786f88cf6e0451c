import Kdns.Radix.Cursor

namespace Kdns.Radix

open ByteStream Dns SortedEdges List

def findType (rs : RRSets) (ty : RRType) : Option RRSet := rs.find? fun s => s.type = ty

def cutOf (rs : RRSets) : Option RRSet := if (findType rs typeSOA).isSome then none else findType rs typeNS

def Effective (qt : RRType) (rs : RRSets) (cursor : ℕ) : Prop := cutOf rs ≠ none ∧ (qt ≠ typeDS ∨ cursor ≠ 0)

def retrack (rs : RRSets) (name : Bytes) (soa : Enclosing) : Enclosing :=
  match findType rs typeSOA with
  | some s => ⟨s, name⟩
  | none => soa

theorem searchRRSet_eq (node : Node) (ty : RRType) : searchRRSet node ty = findType node.rrsets ty := rfl

theorem evaluateNode_cut {node : Node} {qt : RRType} {cursor : ℕ} {ns : RRSet} (domain : Bytes) (soa : Enclosing)
    (hc : cutOf node.rrsets = some ns) (hx : qt ≠ typeDS ∨ cursor ≠ 0) :
    evaluateNode node qt domain cursor soa = .error ⟨.success, .empty, ns, formatDomainName domain cursor⟩ := by
  have h0 : node.rrsets ≠ [] := by
    intro h0
    rw [h0] at hc
    cases hc
  unfold cutOf at hc
  split_ifs at hc with hs
  have hsoa := Option.not_isSome_iff_eq_none.mp hs
  simp only [evaluateNode, if_neg h0, searchRRSet_eq, hsoa, hc, if_pos hx]

theorem evaluateNode_pass {node : Node} {qt : RRType} {cursor : ℕ} (domain : Bytes) (soa : Enclosing)
    (hc : ¬ Effective qt node.rrsets cursor) :
    evaluateNode node qt domain cursor soa = .ok (retrack node.rrsets (formatDomainName domain cursor) soa) := by
  by_cases h0 : node.rrsets = []
  · rw [evaluateNode, if_pos h0, h0]
    rfl
  simp only [evaluateNode, if_neg h0, searchRRSet_eq, retrack]
  cases hs : findType node.rrsets typeSOA with
  | some s => rfl
  | none =>
    cases hn : findType node.rrsets typeNS with
    | none => rfl
    | some ns =>
      have hx : ¬ (qt ≠ typeDS ∨ cursor ≠ 0) := by
        intro hx
        apply hc
        refine ⟨?_, hx⟩
        simp [cutOf, hs, hn]
      simp only [if_neg hx]

def visit (qt : RRType) (domain : Bytes) (node : Node) (fallback : Option Node) (soa : Enclosing) (cursor : ℕ)
    (ss : List (Bytes × ℕ)) : Result :=
  match evaluateNode node qt domain cursor soa with
  | .error res => res
  | .ok soa => resolveFrom qt domain node fallback soa ss

variable {n c : Node} {l : Bytes}

theorem resolveFrom_cons (h : WF n) (qt : RRType) (domain : Bytes) (fallback : Option Node) (soa : Enclosing)
    (s : Bytes × ℕ) (ss : List (Bytes × ℕ)) : resolveFrom qt domain n fallback soa (s :: ss) =
      match child n s.1 with
      | none => wildcardResolve (n.wildcard.or fallback) qt soa
      | some next => visit qt domain next (n.wildcard.or fallback) soa s.2 ss := by
  rw [resolveFrom, followEdge_eq h.sorted]
  rfl

def recordsAt (M : List Bytes → Option RRSets) (p : List Bytes) : RRSets := (M p).getD []

theorem recordsAt_nil (n : Node) : recordsAt (view n) [] = n.rrsets := by
  rw [recordsAt, view_nil, records]
  split_ifs with h0
  · exact h0.symm
  · rfl

theorem recordsAt_missing (h : WF n) (hc : child n l = none) (p : List Bytes) : recordsAt (view n) (l :: p) = [] := by
  rw [recordsAt, view_cons h.sorted, hc]
  rfl

theorem recordsAt_child (h : WF n) (hc : child n l = some c) (p : List Bytes) :
    recordsAt (view n) (l :: p) = recordsAt (view c) p := by
  rw [recordsAt, view_cons h.sorted, hc]
  rfl

theorem recordsAt_take_child (h : WF n) {s : Bytes × ℕ} (hc : child n s.1 = some c) (ss : List (Bytes × ℕ)) (k : ℕ) :
    recordsAt (view n) (((s :: ss).map Prod.fst).take (k + 1)) = recordsAt (view c) ((ss.map Prod.fst).take k) := by
  rw [map_cons, take_succ_cons, recordsAt_child h hc]

section Loop

variable (qt : RRType) (domain : Bytes)

theorem visit_referral (h : WF n) (fb : Option Node) (soa : Enclosing) (cursor : ℕ) (ss : List (Bytes × ℕ)) {k c : ℕ}
    {ns : RRSet} (hc : (cursor :: ss.map Prod.snd)[k]? = some c)
    (hns : cutOf (recordsAt (view n) ((ss.map Prod.fst).take k)) = some ns) (hx : qt ≠ typeDS ∨ c ≠ 0)
    (hbefore : ∀ j d, j < k → (cursor :: ss.map Prod.snd)[j]? = some d →
      ¬ Effective qt (recordsAt (view n) ((ss.map Prod.fst).take j)) d) :
    visit qt domain n fb soa cursor ss = ⟨.success, .empty, ns, formatDomainName domain c⟩ := by
  induction k generalizing n fb soa cursor ss with
  | zero =>
    obtain rfl : cursor = c := Option.some.inj hc
    rw [take_zero, recordsAt_nil] at hns
    rw [visit, evaluateNode_cut domain soa hns hx]
  | succ k ih =>
    have hpass : ¬ Effective qt n.rrsets cursor := by
      rw [← recordsAt_nil]
      exact hbefore 0 cursor k.succ_pos rfl
    cases ss with
    | nil => cases hc
    | cons s ss =>
      rw [visit, evaluateNode_pass domain soa hpass]
      dsimp only
      rw [resolveFrom_cons h]
      rw [map_cons, take_succ_cons] at hns
      cases hm : child n s.1 with
      | none =>
        rw [recordsAt_missing h hm] at hns
        cases hns
      | some m =>
        rw [recordsAt_child h hm] at hns
        refine ih (h.child hm) _ _ _ _ hc hns fun j d hj hd => ?_
        have := hbefore (j + 1) d (Nat.succ_lt_succ hj) hd
        rwa [recordsAt_take_child h hm] at this

def settle (m fallback : Option Node) (soa : Enclosing) : Result :=
  match m with
  | some m => if m.bare then wildcardResolve fallback qt soa else resolveAtNode m qt soa
  | none => wildcardResolve fallback qt soa

def track : Node → Enclosing → ℕ → List (Bytes × ℕ) → Enclosing
  | n, soa, cursor, [] => retrack n.rrsets (formatDomainName domain cursor) soa
  | n, soa, cursor, s :: ss =>
    match child n s.1 with
    | none => retrack n.rrsets (formatDomainName domain cursor) soa
    | some next => track next (retrack n.rrsets (formatDomainName domain cursor) soa) s.2 ss

def lastWildcard : Node → Option Node → List Bytes → Option Node
  | _, fallback, [] => fallback
  | n, fallback, l :: ls =>
    match child n l with
    | none => n.wildcard.or fallback
    | some next => lastWildcard next (n.wildcard.or fallback) ls

theorem visit_through (h : WF n) (fb : Option Node) (soa : Enclosing) (cursor : ℕ) (ss : List (Bytes × ℕ))
    (hno : ∀ k c, (cursor :: ss.map Prod.snd)[k]? = some c →
      ¬ Effective qt (recordsAt (view n) ((ss.map Prod.fst).take k)) c) : visit qt domain n fb soa cursor ss =
      settle qt (findNode n (ss.map Prod.fst)) (lastWildcard n fb (ss.map Prod.fst)) (track domain n soa cursor ss) := by
  induction ss generalizing n fb soa cursor with
  | nil =>
    have hpass := hno 0 cursor rfl
    rw [take_zero, recordsAt_nil] at hpass
    rw [visit, evaluateNode_pass domain soa hpass]
    rfl
  | cons s ss ih =>
    have hpass := hno 0 cursor rfl
    rw [take_zero, recordsAt_nil] at hpass
    rw [visit, evaluateNode_pass domain soa hpass]
    dsimp only
    rw [resolveFrom_cons h, map_cons, findNode_cons h.sorted, lastWildcard, track]
    cases hm : child n s.1 with
    | none => rfl
    | some m =>
      refine ih (h.child hm) _ _ _ fun k c hc => ?_
      have := hno (k + 1) c hc
      rwa [recordsAt_take_child h hm] at this

theorem track_none (h : WF n) (soa : Enclosing) (cursor : ℕ) (ss : List (Bytes × ℕ))
    (hno : ∀ k ≤ ss.length, findType (recordsAt (view n) ((ss.map Prod.fst).take k)) typeSOA = none) :
    track domain n soa cursor ss = soa := by
  have h0 := hno 0 (Nat.zero_le _)
  rw [take_zero, recordsAt_nil] at h0
  induction ss generalizing n soa cursor with
  | nil => rw [track, retrack, h0]
  | cons s ss ih =>
    rw [track, retrack, h0]
    cases hm : child n s.1 with
    | none => rfl
    | some m =>
      have hdown : ∀ k ≤ ss.length, findType (recordsAt (view m) ((ss.map Prod.fst).take k)) typeSOA = none := by
        intro k hk
        have := hno (k + 1) (Nat.succ_le_succ hk)
        rwa [recordsAt_take_child h hm] at this
      apply ih (h.child hm) _ _ hdown
      have := hdown 0 (Nat.zero_le _)
      rwa [take_zero, recordsAt_nil] at this

theorem track_some (h : WF n) (soa : Enclosing) (cursor : ℕ) (ss : List (Bytes × ℕ)) {k c : ℕ} {rr : RRSet}
    (hc : (cursor :: ss.map Prod.snd)[k]? = some c)
    (hs : findType (recordsAt (view n) ((ss.map Prod.fst).take k)) typeSOA = some rr)
    (hafter : ∀ j, k < j → j ≤ ss.length →
      findType (recordsAt (view n) ((ss.map Prod.fst).take j)) typeSOA = none) :
    track domain n soa cursor ss = ⟨rr, formatDomainName domain c⟩ := by
  induction k generalizing n soa cursor ss with
  | zero =>
    obtain rfl : cursor = c := Option.some.inj hc
    rw [take_zero, recordsAt_nil] at hs
    cases ss with
    | nil => rw [track, retrack, hs]
    | cons s ss =>
      rw [track, retrack, hs]
      cases hm : child n s.1 with
      | none => rfl
      | some m =>
        apply track_none domain (h.child hm)
        intro j hj
        have := hafter (j + 1) j.succ_pos (Nat.succ_le_succ hj)
        rwa [recordsAt_take_child h hm] at this
  | succ k ih =>
    cases ss with
    | nil => cases hc
    | cons s ss =>
      rw [map_cons, take_succ_cons] at hs
      rw [track]
      cases hm : child n s.1 with
      | none =>
        rw [recordsAt_missing h hm] at hs
        cases hs
      | some m =>
        rw [recordsAt_child h hm] at hs
        refine ih (h.child hm) _ _ _ hc hs fun j hj hl => ?_
        have := hafter (j + 1) (Nat.succ_lt_succ hj) (Nat.succ_le_succ hl)
        rwa [recordsAt_take_child h hm] at this

theorem findNode_star (n : Node) : findNode n [star] = n.wildcard := by
  rw [findNode, if_pos rfl]
  cases n.wildcard <;> rfl

theorem findNode_take_child (h : WF n) (hc : child n l = some c) (ls q : List Bytes) (k : ℕ) :
    findNode n ((l :: ls).take (k + 1) ++ q) = findNode c (ls.take k ++ q) := by
  rw [take_succ_cons, cons_append, findNode_cons h.sorted, hc]
  rfl

theorem lastWildcard_none (h : WF n) (fb : Option Node) (ls : List Bytes)
    (hno : ∀ k < ls.length, findNode n (ls.take k ++ [star]) = none) : lastWildcard n fb ls = fb := by
  induction ls generalizing n fb with
  | nil => rfl
  | cons l ls ih =>
    have hw : n.wildcard = none := by
      rw [← findNode_star]
      exact hno 0 ls.length.succ_pos
    rw [lastWildcard, hw, Option.none_or]
    cases hm : child n l with
    | none => rfl
    | some m =>
      apply ih (h.child hm)
      intro k hk
      have := hno (k + 1) (Nat.succ_lt_succ hk)
      rwa [findNode_take_child h hm] at this

theorem lastWildcard_some {w : Node} (h : WF n) (fb : Option Node) (ls : List Bytes) {k : ℕ} (hk : k < ls.length)
    (hw : findNode n (ls.take k ++ [star]) = some w)
    (hafter : ∀ j, k < j → j < ls.length → findNode n (ls.take j ++ [star]) = none) :
    lastWildcard n fb ls = some w := by
  induction k generalizing n fb ls with
  | zero =>
    cases ls with
    | nil => cases hk
    | cons l ls =>
      rw [take_zero, nil_append, findNode_star] at hw
      rw [lastWildcard, hw, Option.some_or]
      cases hm : child n l with
      | none => rfl
      | some m =>
        apply lastWildcard_none (h.child hm)
        intro j hj
        have := hafter (j + 1) j.succ_pos (Nat.succ_lt_succ hj)
        rwa [findNode_take_child h hm] at this
  | succ k ih =>
    cases ls with
    | nil => cases hk
    | cons l ls =>
      rw [take_succ_cons, cons_append, findNode_cons h.sorted] at hw
      obtain ⟨m, hm, hw⟩ := Option.bind_eq_some_iff.mp hw
      rw [lastWildcard, hm]
      refine ih (h.child hm) _ _ (Nat.lt_of_succ_lt_succ hk) hw fun j hj hl => ?_
      have := hafter (j + 1) (Nat.succ_lt_succ hj) (Nat.succ_lt_succ hl)
      rwa [findNode_take_child h hm] at this

end Loop

end Kdns.Radix
