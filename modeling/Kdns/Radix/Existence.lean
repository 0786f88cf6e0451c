import Kdns.Radix.Wildcards

namespace Kdns.Radix

open ByteStream Dns Prefixes

section Zone

variable (M : List Bytes → Option RRSets) (p : List Bytes)

def NoCut : Prop := ∀ c, c <+: p → cutOf (recordsAt M c) = none

def NoWildcardRecords : Prop := ∀ a, a <+: p → a ≠ p → recordsAt M (a ++ [star]) = []

end Zone

theorem NoCut.not_delegates {M : List Bytes → Option RRSets} {p : List Bytes} (h : NoCut M p) (qt : RRType) :
    ∀ c, c <+: p → ¬ Delegates M p qt c := fun c hc hd => hd.1 (h c hc)

theorem resolveAtNode_rcode (node : Node) (qt : RRType) (soa : Enclosing) :
    (resolveAtNode node qt soa).rcode = .success := by
  rw [resolveAtNode_eq]
  cases answerOf node.rrsets qt with
  | none => rfl
  | some a => rfl

section Lookup

variable {t : Tree} (h : t.Valid) {q : Bytes} (qt : RRType)

include h

theorem settle_occupied (ho : Occupied t.contents (labels q)) (fallback : Option Node) (soa : Enclosing) :
    (settle qt (findNode t.root (labels q)) fallback soa).rcode = .success := by
  obtain ⟨m, hm, hb⟩ := (occupied_iff h.wf _).mp ho
  rw [hm, settle, hb]
  exact resolveAtNode_rcode m qt soa

theorem lastWildcard_no_records (hw : NoWildcardRecords t.contents (labels q)) :
    ∀ w, lastWildcard t.root none (labels q) = some w → w.rrsets = [] := by
  intro w hlast
  by_cases hwild : ∃ f, f <+: labels q ∧ Wildcard t.contents (labels q) f
  · obtain ⟨g, hg, hP⟩ := hwild
    obtain ⟨f, hf⟩ := exists_longest hg hP
    obtain ⟨w', hw', hlast'⟩ := lastWildcard_longest h hf
    obtain rfl : w' = w := Option.some.inj (hlast'.symm.trans hlast)
    rw [← recordsAt_findNode hw']
    exact hw f hf.within hf.holds.1
  · rw [lastWildcard_eq_none h fun f hf hP => hwild ⟨f, hf, hP⟩] at hlast
    cases hlast

theorem settle_vacant (ho : ¬ Occupied t.contents (labels q)) (hw : NoWildcardRecords t.contents (labels q))
    (soa : Enclosing) :
    (settle qt (findNode t.root (labels q)) (lastWildcard t.root none (labels q)) soa).rcode = .nameError := by
  have hfall : (wildcardResolve (lastWildcard t.root none (labels q)) qt soa).rcode = .nameError := by
    cases hlast : lastWildcard t.root none (labels q) with
    | none => rfl
    | some w => rw [wildcardResolve, if_pos (lastWildcard_no_records h hw w hlast)]
  cases hm : findNode t.root (labels q) with
  | none => exact hfall
  | some m =>
    have hb : m.bare = true := by
      by_contra hb
      exact ho ((occupied_iff h.wf _).mpr ⟨m, hm, Bool.eq_false_iff.mpr hb⟩)
    rw [settle, if_pos hb]
    exact hfall

end Lookup

theorem resolve_existence (ms : List Mutation) (q : Bytes) (hq : QueryName q) (qt : RRType)
    (hcut : NoCut (Tree.new.mutateAll ms).contents (labels q)) :
    (Occupied (Tree.new.mutateAll ms).contents (labels q) →
        ((Tree.new.mutateAll ms).resolve q qt).rcode = .success) ∧
      (¬ Occupied (Tree.new.mutateAll ms).contents (labels q) →
        NoWildcardRecords (Tree.new.mutateAll ms).contents (labels q) →
        ((Tree.new.mutateAll ms).resolve q qt).rcode = .nameError) := by
  have h := Tree.valid_mutateAll ms
  rw [resolve_through h (fun _ => hq) (hcut.not_delegates qt)]
  constructor
  · intro ho
    exact settle_occupied h qt ho _ _
  · intro ho hw
    exact settle_vacant h qt ho hw _

theorem noCut_of_inits {M : List Bytes → Option RRSets} {p : List Bytes}
    (h : ∀ c ∈ p.inits, cutOf (recordsAt M c) = none) : NoCut M p := fun c hc => h c ((List.mem_inits c p).mpr hc)

def belowWildcard : List Mutation := [.upsert [0x78, dot, 0x2A, dot, 0x61] [⟨[[1, 2, 3, 4]], 300, 1, classIN⟩]]

theorem resolve_existence_below_wildcard :
    ((Tree.new.mutateAll belowWildcard).resolve [0x61] 1).rcode = .success ∧
      ((Tree.new.mutateAll belowWildcard).resolve [0x62, dot, 0x61] 1).rcode = .nameError := by
  have hroot : QueryName [0x61] := .inr ⟨[[0x61]], by decide, by decide, .inl rfl⟩
  have hq : QueryName [0x62, dot, 0x61] := .inr ⟨[[0x62], [0x61]], by decide, by decide, .inl rfl⟩
  constructor
  · apply (resolve_existence belowWildcard _ hroot 1 (noCut_of_inits (by decide))).1
    exact ⟨[star, [0x78]], by decide⟩
  · apply (resolve_existence belowWildcard _ hq 1 (noCut_of_inits (by decide))).2
    · rw [Tree.contents, occupied_iff (Tree.valid_mutateAll belowWildcard).wf]
      rintro ⟨m, hm, -⟩
      exact absurd hm (by rw [show findNode _ _ = none by decide]; intro h; cases h)
    · intro a ha _
      have hall : ∀ c ∈ (labels [0x62, dot, 0x61]).inits,
          recordsAt (Tree.new.mutateAll belowWildcard).contents (c ++ [star]) = [] := by decide
      exact hall a ((List.mem_inits a _).mpr ha)

end Kdns.Radix
