import Kdns.Radix.Authority

namespace Kdns.Radix

open ByteStream Dns Prefixes

def AnswersFromEncloser (t : Tree) (q : Bytes) (qt : RRType) : Prop :=
  (t.resolve q qt).hasAnswer = true →
    (t.resolve q qt).answer ∈ recordsAt t.contents (labels q) ∨
      ¬ Occupied t.contents (labels q) ∧ ∃ ce, ClosestEncloser t.contents (labels q) ce ∧
        (t.resolve q qt).answer ∈ recordsAt t.contents (ce ++ [star])

def StrayWildcard (M : List Bytes → Option RRSets) (p : List Bytes) (qt : RRType) : Prop :=
  (∀ c, c <+: p → ¬ Delegates M p qt c) ∧ ¬ Occupied M p ∧
    ∃ ce f a, ClosestEncloser M p ce ∧ ¬ Occupied M (ce ++ [star]) ∧ Longest (Wildcard M p) p f ∧
      answerOf (recordsAt M (f ++ [star])) qt = some a ∧ a.hasRecords = true

variable {M : List Bytes → Option RRSets} {p : List Bytes}

theorem recordsAt_of_not_occupied (h : ¬ Occupied M p) : recordsAt M p = [] := by
  have hp : M p = none := by
    by_contra hne
    exact h ⟨[], by rwa [List.append_nil]⟩
  rw [recordsAt, hp]
  rfl

theorem occupied_of_append {s : List Bytes} (h : Occupied M (p ++ s)) : Occupied M p := by
  obtain ⟨r, hr⟩ := h
  exact ⟨s ++ r, by rwa [← List.append_assoc]⟩

theorem stray_of_wildcard {f : List Bytes} {qt : RRType} {a : RRSet} (hno : ∀ c, c <+: p → ¬ Delegates M p qt c)
    (ho : ¬ Occupied M p) (hf : Longest (Wildcard M p) p f) (ha : answerOf (recordsAt M (f ++ [star])) qt = some a)
    (hrec : a.hasRecords = true) : ClosestEncloser M p f ∨ StrayWildcard M p qt := by
  have hup : f ≠ p ∧ Occupied M f := ⟨hf.holds.1, occupied_of_append hf.holds.2⟩
  obtain ⟨ce, hce⟩ := exists_longest (P := fun c => c ≠ p ∧ Occupied M c) hf.within hup
  by_cases hwild : Occupied M (ce ++ [star])
  · left
    have h₁ := hf.length_le ce hce.within ⟨hce.holds.1, hwild⟩
    have h₂ := hce.length_le f hf.within hup
    rw [eq_of_length hf.within hce.within (by omega)]
    exact hce
  · exact .inr ⟨hno, ho, ce, f, a, hce, hwild, hf, ha, hrec⟩

section Lookup

variable {t : Tree} (h : t.Valid) {q : Bytes} (hq : QueryName q) (qt : RRType)

include h

theorem settled_occupied (ho : Occupied t.contents (labels q)) :
    ∃ m, settled (findNode t.root (labels q)) (lastWildcard t.root none (labels q)) = some m ∧
      recordsAt t.contents (labels q) = m.rrsets := by
  obtain ⟨m, hm, hb⟩ := (occupied_iff h.wf _).mp ho
  refine ⟨m, ?_, recordsAt_findNode hm⟩
  rw [hm, settled, hb]
  rfl

theorem settled_vacant (ho : ¬ Occupied t.contents (labels q)) :
    settled (findNode t.root (labels q)) (lastWildcard t.root none (labels q)) =
      lastWildcard t.root none (labels q) := by
  cases hm : findNode t.root (labels q) with
  | none => rfl
  | some m =>
    have hb : m.bare = true := by
      by_contra hb
      exact ho ((occupied_iff h.wf _).mpr ⟨m, hm, Bool.eq_false_iff.mpr hb⟩)
    rw [settled, if_pos hb]

include hq

theorem not_answers_of_stray (hs : StrayWildcard t.contents (labels q) qt) : ¬ AnswersFromEncloser t q qt := by
  obtain ⟨hno, ho, ce, f, a, hce, hvacant, hf, ha, hrec⟩ := hs
  obtain ⟨w, hw, hlast⟩ := lastWildcard_longest h hf
  rw [recordsAt_findNode hw] at ha
  have hset := (settled_vacant h ho).trans hlast
  have hr : t.resolve q qt = ⟨.success, a, .empty, []⟩ := by rw [resolve_through h (fun _ => hq) hno, settle_answer _ hset ha]
  intro hans
  rw [AnswersFromEncloser, hr] at hans
  rcases hans hrec with hmem | ⟨-, ce', hce', hmem⟩
  · rw [recordsAt_of_not_occupied ho] at hmem
    cases hmem
  · rw [hce'.unique hce, recordsAt_of_not_occupied hvacant] at hmem
    cases hmem

theorem answers_of_not_stray (hs : ¬ StrayWildcard t.contents (labels q) qt) : AnswersFromEncloser t q qt := by
  intro hans
  by_cases hcut : ∃ c, c <+: labels q ∧ Delegates t.contents (labels q) qt c
  · obtain ⟨c, hc, hP⟩ := hcut
    obtain ⟨d, hd⟩ := exists_shortest hc hP
    obtain ⟨ns, name, -, -, hr⟩ := resolve_referral h (fun _ => hq) hd
    rw [hr] at hans
    cases hans
  have hno : ∀ c, c <+: labels q → ¬ Delegates t.contents (labels q) qt c := fun c hc hP => hcut ⟨c, hc, hP⟩
  have hr := resolve_through h (fun _ => hq) hno
  rcases settle_cases qt (findNode _ _) (lastWildcard _ none (labels q)) (enclosing _ q) with
    ⟨rc, hneg⟩ | ⟨node, a, hnode, ha, hpos⟩
  · rw [hr, hneg] at hans
    cases hans
  rw [hpos] at hr
  rw [hr] at hans ⊢
  by_cases ho : Occupied t.contents (labels q)
  · obtain ⟨m, hm, hrec⟩ := settled_occupied h ho
    rw [hnode] at hm
    cases hm
    left
    rw [hrec]
    exact answerOf_mem ha
  · right
    refine ⟨ho, ?_⟩
    rw [settled_vacant h ho] at hnode
    by_cases hwild : ∃ f, f <+: labels q ∧ Wildcard t.contents (labels q) f
    · obtain ⟨g, hg, hP⟩ := hwild
      obtain ⟨f, hf⟩ := exists_longest hg hP
      obtain ⟨w, hw, hlast⟩ := lastWildcard_longest h hf
      obtain rfl : w = node := Option.some.inj (hlast.symm.trans hnode)
      rw [← recordsAt_findNode hw] at ha
      have hce := (stray_of_wildcard hno ho hf ha hans).resolve_right hs
      exact ⟨f, hce, answerOf_mem ha⟩
    · rw [lastWildcard_eq_none h fun f hf hP => hwild ⟨f, hf, hP⟩] at hnode
      cases hnode

end Lookup

theorem resolve_closest_encloser_iff (ms : List Mutation) (q : Bytes) (hq : QueryName q) (qt : RRType) :
    AnswersFromEncloser (Tree.new.mutateAll ms) q qt ↔
      ¬ StrayWildcard (Tree.new.mutateAll ms).contents (labels q) qt := by
  have h := Tree.valid_mutateAll ms
  constructor
  · intro hans hs
    exact not_answers_of_stray h hq qt hs hans
  · exact answers_of_not_stray h hq qt

theorem closestEncloser_parent {ce : List Bytes} {l : Bytes} (hp : Occupied M p)
    (h : ClosestEncloser M (p ++ [l]) ce) : ce = p := by
  have hin : p <+: p ++ [l] := List.prefix_append p [l]
  apply eq_of_length h.within hin
  have h₁ := h.length_le p hin ⟨by simp, hp⟩
  have h₂ := h.within.length_le
  have h₃ : ce.length ≠ (p ++ [l]).length := fun he => h.holds.1 (h.within.eq_of_length he)
  simp only [List.length_append, List.length_singleton] at h₂ h₃
  omega

def wildcardZone : List Mutation := [.upsert [0x2A, dot, 0x61] [⟨[[1, 2, 3, 4]], 300, 1, classIN⟩]]

theorem resolve_closest_encloser_child : AnswersFromEncloser (Tree.new.mutateAll wildcardZone) [0x62, dot, 0x61] 1 := by
  have hq : QueryName [0x62, dot, 0x61] := .inr ⟨[[0x62], [0x61]], by decide, by decide, .inl rfl⟩
  apply (resolve_closest_encloser_iff wildcardZone _ hq 1).mpr
  rintro ⟨-, -, ce, f, a, hce, hvacant, -⟩
  have hl : labels [0x62, dot, 0x61] = [[0x61]] ++ [[0x62]] := by decide
  rw [hl] at hce
  rw [closestEncloser_parent ⟨[star], by decide⟩ hce] at hvacant
  exact hvacant ⟨[], by decide⟩

def innerApex : List Mutation := wildcardZone ++ [.upsert [0x63, dot, 0x61] [⟨[[0, 0]], 300, typeSOA, classIN⟩]]

/-- The zone below the wildcard has its own apex, and still the wildcard above the apex answers. -/
theorem resolve_above_apex :
    ¬ AnswersFromEncloser (Tree.new.mutateAll innerApex) [0x62, dot, 0x63, dot, 0x61] 1 := by
  intro hans
  have hl : labels [0x62, dot, 0x63, dot, 0x61] = [[0x61], [0x63]] ++ [[0x62]] := by decide
  rcases hans (by decide) with hmem | ⟨-, ce, hce, hmem⟩
  · exact absurd hmem (by decide)
  · rw [hl] at hce
    rw [closestEncloser_parent ⟨[], by decide⟩ hce] at hmem
    exact absurd hmem (by decide)

end Kdns.Radix
