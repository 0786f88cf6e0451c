import Kdns.Radix.Labels
import Kdns.Radix.Resolve

namespace Kdns.Radix

open ByteStream Dns List

theorem lower_append (a b : Bytes) : lower (a ++ b) = lower a ++ lower b := map_append

theorem lower_length (d : Bytes) : (lower d).length = d.length := length_map _

theorem lower_eq_nil {b : Bytes} : lower b = [] ↔ b = [] := map_eq_nil_iff

theorem lower_lower (d : Bytes) : lower (lower d) = lower d := by simp [lower, lowerByte_lowerByte]

theorem dot_not_mem_lower {b : Bytes} (h : dot ∉ b) : dot ∉ lower b := by
  intro hd
  obtain ⟨x, hx, he⟩ := mem_map.mp hd
  exact lowerByte_ne_dot x (fun hxd => h (hxd ▸ hx)) he

theorem steps_lower (d : Bytes) : steps (lower d) = steps d := by
  induction d using dot_induction with
  | base b hb =>
    rw [steps_nodot hb, steps_nodot (dot_not_mem_lower hb), lower_lower]
    simp only [lower_eq_nil]
  | step a b hb ih =>
    have hsplit : lower (a ++ dot :: b) = lower a ++ dot :: lower b := lower_append a (dot :: b)
    rw [hsplit, steps_dot _ (dot_not_mem_lower hb), steps_dot _ hb, ih, lower_lower, lower_length]
    simp only [lower_eq_nil]

theorem formatDomainName_lower (d : Bytes) (cursor : ℕ) :
    formatDomainName (lower d) cursor = lower (formatDomainName d cursor) := by
  unfold formatDomainName
  rw [lower_length]
  split_ifs
  · rfl
  · exact (map_drop ..).symm
  · rfl

def Enclosing.lowered (soa : Enclosing) : Enclosing := ⟨soa.soaRR, lower soa.soaName⟩

def lowered (r : Result) : Result := { r with authorityName := lower r.authorityName }

theorem evaluateNode_lower (node : Node) (qt : RRType) (d : Bytes) (cursor : ℕ) (soa : Enclosing) :
    evaluateNode node qt (lower d) cursor soa.lowered =
      ((evaluateNode node qt d cursor soa).mapError lowered).map Enclosing.lowered := by
  unfold evaluateNode
  by_cases h0 : node.rrsets = []
  · rw [if_pos h0, if_pos h0]
    rfl
  rw [if_neg h0, if_neg h0, formatDomainName_lower]
  cases searchRRSet node typeSOA with
  | some s => rfl
  | none =>
    cases searchRRSet node typeNS with
    | none => rfl
    | some ns =>
      split_ifs <;> rfl

theorem resolveAtNode_lower (node : Node) (qt : RRType) (soa : Enclosing) :
    resolveAtNode node qt soa.lowered = lowered (resolveAtNode node qt soa) := by
  unfold resolveAtNode
  by_cases hany : qt = typeANY ∧ node.rrsets ≠ []
  · rw [dif_pos hany, dif_pos hany]
    rfl
  rw [dif_neg hany, dif_neg hany]
  cases searchRRSet node qt with
  | some rr => rfl
  | none =>
    cases (if qt ≠ typeCNAME then searchRRSet node typeCNAME else none) with
    | some cname => rfl
    | none => rfl

theorem wildcardResolve_lower (fallback : Option Node) (qt : RRType) (soa : Enclosing) :
    wildcardResolve fallback qt soa.lowered = lowered (wildcardResolve fallback qt soa) := by
  cases fallback with
  | none => rfl
  | some node =>
    unfold wildcardResolve
    by_cases h0 : node.rrsets = []
    · simp only [if_pos h0]
      rfl
    · simp only [if_neg h0]
      exact resolveAtNode_lower node qt soa

theorem resolveFrom_lower (qt : RRType) (d : Bytes) (ss : List (Bytes × ℕ)) (node : Node) (fallback : Option Node)
    (soa : Enclosing) :
    resolveFrom qt (lower d) node fallback soa.lowered ss = lowered (resolveFrom qt d node fallback soa ss) := by
  induction ss generalizing node fallback soa with
  | nil =>
    rw [resolveFrom, resolveFrom]
    split_ifs
    · exact wildcardResolve_lower fallback qt soa
    · exact resolveAtNode_lower node qt soa
  | cons s ss ih =>
    rw [resolveFrom, resolveFrom]
    cases (if s.1 = star then node.wildcard else followEdge node.children s.1) with
    | none => exact wildcardResolve_lower _ qt soa
    | some next =>
      simp only
      rw [evaluateNode_lower]
      cases evaluateNode next qt d s.2 soa with
      | error res => rfl
      | ok soa => exact ih next _ soa

theorem Tree.resolve_lower (t : Tree) (d : Bytes) (qt : RRType) : t.resolve (lower d) qt = lowered (t.resolve d qt) := by
  have hstart := evaluateNode_lower t.root qt d d.length ⟨.empty, [dot]⟩
  rw [resolve, resolve, lower_length, steps_lower]
  change evaluateNode t.root qt (lower d) d.length ⟨.empty, [dot]⟩ = _ at hstart
  rw [hstart]
  cases evaluateNode t.root qt d d.length ⟨.empty, [dot]⟩ with
  | error res => rfl
  | ok soa => exact resolveFrom_lower qt d _ _ _ soa

def IsRest (d name : Bytes) : Prop := name = [dot] ∨ ∃ n, name = d.drop n

theorem isRest_formatDomainName (d : Bytes) (cursor : ℕ) : IsRest d (formatDomainName d cursor) := by
  unfold formatDomainName
  split_ifs
  · exact .inl rfl
  · exact .inr ⟨cursor + 1, rfl⟩
  · exact .inr ⟨0, rfl⟩

structure Enclosing.Above (d : Bytes) (soa : Enclosing) : Prop where
  type_eq : soa.soaRR = .empty ∨ soa.soaRR.type = typeSOA
  name : IsRest d soa.soaName

inductive Shape (d : Bytes) : Result → Prop
  | answer (a : RRSet) : Shape d ⟨.success, a, .empty, []⟩
  | referral (ns : RRSet) (name : Bytes) (h : ns.type = typeNS) (hname : IsRest d name) : Shape d ⟨.success, .empty, ns, name⟩
  | negative (rc : RCode) (soa : Enclosing) (hrc : rc = .success ∨ rc = .nameError) (h : soa.Above d) :
      Shape d ⟨rc, .empty, soa.soaRR, soa.soaName⟩

theorem Shape.authorityName {d : Bytes} {r : Result} (h : Shape d r) : IsRest d r.authorityName := by
  cases h with
  | answer => exact .inr ⟨d.length, (drop_length).symm⟩
  | referral ns name h hname => exact hname
  | negative rc soa hrc h => exact h.name

section Shapes

variable {d : Bytes} {soa : Enclosing}

theorem evaluateNode_shape (node : Node) (qt : RRType) (cursor : ℕ) (hsoa : soa.Above d) :
    match evaluateNode node qt d cursor soa with | .error r => Shape d r | .ok soa' => soa'.Above d := by
  unfold evaluateNode
  by_cases h0 : node.rrsets = []
  · rw [if_pos h0]
    exact hsoa
  rw [if_neg h0]
  have hname := isRest_formatDomainName d cursor
  cases hs : searchRRSet node typeSOA with
  | some s => exact ⟨.inr (type_of_find hs), hname⟩
  | none =>
    cases hn : searchRRSet node typeNS with
    | none => exact hsoa
    | some ns =>
      by_cases hcut : qt ≠ typeDS ∨ cursor ≠ 0
      · simp only [if_pos hcut]
        exact .referral _ _ (type_of_find hn) hname
      · simp only [if_neg hcut]
        exact hsoa

theorem resolveAtNode_shape (node : Node) (qt : RRType) (hsoa : soa.Above d) : Shape d (resolveAtNode node qt soa) := by
  unfold resolveAtNode
  by_cases hany : qt = typeANY ∧ node.rrsets ≠ []
  · rw [dif_pos hany]
    exact .answer _
  rw [dif_neg hany]
  cases searchRRSet node qt with
  | some rr => exact .answer rr
  | none =>
    cases (if qt ≠ typeCNAME then searchRRSet node typeCNAME else none) with
    | some cname => exact .answer cname
    | none => exact .negative .success soa (.inl rfl) hsoa

theorem wildcardResolve_shape (fallback : Option Node) (qt : RRType) (hsoa : soa.Above d) :
    Shape d (wildcardResolve fallback qt soa) := by
  cases fallback with
  | none => exact .negative .nameError soa (.inr rfl) hsoa
  | some node =>
    rw [wildcardResolve]
    split_ifs
    · exact .negative .nameError soa (.inr rfl) hsoa
    · exact resolveAtNode_shape node qt hsoa

theorem resolveFrom_shape (qt : RRType) (ss : List (Bytes × ℕ)) (node : Node) (fallback : Option Node)
    (hsoa : soa.Above d) : Shape d (resolveFrom qt d node fallback soa ss) := by
  induction ss generalizing node fallback soa with
  | nil =>
    rw [resolveFrom]
    split_ifs
    · exact wildcardResolve_shape fallback qt hsoa
    · exact resolveAtNode_shape node qt hsoa
  | cons s ss ih =>
    rw [resolveFrom]
    cases (if s.1 = star then node.wildcard else followEdge node.children s.1) with
    | none => exact wildcardResolve_shape _ qt hsoa
    | some next =>
      have hnode := evaluateNode_shape next qt s.2 hsoa
      dsimp only
      cases he : evaluateNode next qt d s.2 soa with
      | error res =>
        rw [he] at hnode
        exact hnode
      | ok soa' =>
        rw [he] at hnode
        exact ih next _ hnode

end Shapes

theorem Tree.resolve_shape (t : Tree) (d : Bytes) (qt : RRType) : Shape d (t.resolve d qt) := by
  have hstart : Enclosing.Above d ⟨.empty, [dot]⟩ := ⟨.inl rfl, .inl rfl⟩
  have hroot := evaluateNode_shape t.root qt d.length hstart
  rw [resolve]
  cases he : evaluateNode t.root qt d d.length ⟨.empty, [dot]⟩ with
  | error res =>
    rw [he] at hroot
    exact hroot
  | ok soa =>
    rw [he] at hroot
    exact resolveFrom_shape qt _ _ _ hroot

def Positive (r : Result) : Prop := r.hasAnswer = true → r = ⟨.success, r.answer, .empty, []⟩

theorem Tree.resolve_positive (t : Tree) (d : Bytes) (qt : RRType) : Positive (t.resolve d qt) := by
  have hshape := t.resolve_shape d qt
  generalize t.resolve d qt = r at hshape
  intro ha
  cases hshape with
  | answer a => rfl
  | referral ns name h hname => cases ha
  | negative rc soa hrc h => cases ha

theorem Tree.resolve_respelled (t : Tree) {d d' : Bytes} (h : lower d = lower d') {qt : RRType}
    (ha : (t.resolve d qt).hasAnswer = true) : t.resolve d' qt = t.resolve d qt := by
  have hl : lowered (t.resolve d qt) = lowered (t.resolve d' qt) := by rw [← resolve_lower, ← resolve_lower, h]
  have hans : (t.resolve d qt).answer = (t.resolve d' qt).answer := by
    change (lowered (t.resolve d qt)).answer = (lowered (t.resolve d' qt)).answer
    rw [hl]
  have ha' : (t.resolve d' qt).hasAnswer = true := by rwa [Result.hasAnswer, ← hans]
  rw [t.resolve_positive d qt ha, t.resolve_positive d' qt ha', hans]

end Kdns.Radix
