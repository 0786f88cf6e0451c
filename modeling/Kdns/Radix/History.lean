import Kdns.Radix.Tree
import Mathlib.Data.Set.Card

namespace Kdns.Radix

open ByteStream Dns

inductive Mutation where
  | upsert (domain : Bytes) (records : RRSets)
  | deleteDomain (domain : Bytes)

namespace Mutation

def domain : Mutation → Bytes
  | .upsert domain _ => domain
  | .deleteDomain domain => domain

def records : Mutation → RRSets
  | .upsert _ records => records
  | .deleteDomain _ => []

def stored (m : Mutation) : Option RRSets := if m.records = [] then none else some m.records

def write (m : Mutation) : List Bytes × Option RRSets := (labels m.domain, m.stored)

end Mutation

namespace Tree

def mutate (t : Tree) : Mutation → Tree
  | .upsert domain records => t.upsert domain records
  | .deleteDomain domain => t.deleteDomain domain

def mutateAll (t : Tree) (ms : List Mutation) : Tree := ms.foldl mutate t

theorem mutate_spec {t : Tree} (h : t.Valid) (m : Mutation) :
    (t.mutate m).Valid ∧ (t.mutate m).contents = Overwrite.put t.contents m.write := by
  cases m with
  | upsert domain records => exact upsert_spec h domain records
  | deleteDomain domain => exact deleteDomain_spec h domain

theorem mutateAll_spec {t : Tree} (h : t.Valid) (ms : List Mutation) :
    (t.mutateAll ms).Valid ∧ (t.mutateAll ms).contents = Overwrite.replay t.contents (ms.map Mutation.write) := by
  induction ms generalizing t with
  | nil => exact ⟨h, rfl⟩
  | cons m ms ih =>
    obtain ⟨hv, hc⟩ := mutate_spec h m
    obtain ⟨hv', hc'⟩ := ih hv
    refine ⟨hv', hc'.trans ?_⟩
    rw [hc]
    rfl

theorem valid_mutateAll (ms : List Mutation) : (new.mutateAll ms).Valid := (mutateAll_spec valid_new ms).1

theorem get_mutate {t : Tree} (h : t.Valid) (m : Mutation) (domain : Bytes) :
    (t.mutate m).get domain = if labels domain = labels m.domain then m.stored else t.get domain := by
  change (t.mutate m).contents (labels domain) = _
  rw [(mutate_spec h m).2, Overwrite.put, Function.update_apply]
  rfl

end Tree

theorem exists_mutation {ms : List Mutation} {p : List Bytes} (h : (Tree.new.mutateAll ms).contents p ≠ none) :
    ∃ m ∈ ms, labels m.domain = p := by
  by_contra hnone
  have huntouched : p ∉ (ms.map Mutation.write).map Prod.fst := by simpa [Mutation.write] using hnone
  rw [(Tree.mutateAll_spec Tree.valid_new ms).2, Overwrite.replay_untouched _ _ _ huntouched, Tree.contents_new] at h
  exact h rfl

def lastRecords (ms : List Mutation) (domain : Bytes) : Option RRSets :=
  (ms.reverse.find? fun m => normalLabels m.domain = normalLabels domain).bind Mutation.stored

theorem get_mutateAll (ms : List Mutation) (domain : Bytes) :
    (Tree.new.mutateAll ms).get domain = lastRecords ms domain := by
  change (Tree.new.mutateAll ms).contents (labels domain) = _
  rw [(Tree.mutateAll_spec Tree.valid_new ms).2, Overwrite.replay_last, Tree.contents_new, lastRecords,
    ← List.map_reverse, List.find?_map, Option.map_map]
  simp only [← labels_eq_normalLabels]
  change ((ms.reverse.find? fun m => labels m.domain = labels domain).map Mutation.stored).getD none = _
  cases ms.reverse.find? fun m => labels m.domain = labels domain with
  | none => rfl
  | some m => rfl

theorem Tree.len_eq {t : Tree} (h : t.Valid) : t.len = (normalLabels '' {d | t.get d ≠ none}).ncard := by
  have hset : normalLabels '' {d | t.get d ≠ none} = ↑(names t.root) := by
    ext p
    rw [Finset.mem_coe, mem_names h.wf]
    constructor
    · rintro ⟨d, hd, rfl⟩
      rw [← labels_eq_normalLabels]
      exact hd
    · intro hp
      obtain ⟨r, hr⟩ := Option.ne_none_iff_exists'.mp hp
      have hl : labels (nameOf p) = p := labels_nameOf (view_labels h.wf hr)
      refine ⟨nameOf p, ?_, by rw [← labels_eq_normalLabels, hl]⟩
      change view t.root (labels (nameOf p)) ≠ none
      rwa [hl]
  rw [hset, Set.ncard_coe_finset]
  exact h.size_eq

theorem Tree.ext_get {t t' : Tree} (h : t.Valid) (h' : t'.Valid) (he : ∀ d, t.get d = t'.get d) : t = t' := by
  apply ext_contents h h'
  have hle : ∀ {x y : Tree}, x.Valid → (∀ d, x.get d = y.get d) →
      ∀ p r, x.contents p = some r → y.contents p = some r := by
    intro x y hx hxy p r hr
    have hget := hxy (nameOf p)
    change x.contents (labels (nameOf p)) = y.contents (labels (nameOf p)) at hget
    rwa [labels_nameOf (view_labels hx.wf hr), hr, eq_comm] at hget
  funext p
  apply Option.ext
  intro r
  exact ⟨hle h he p r, hle h' (fun d => (he d).symm) p r⟩

theorem mutateAll_finite_map (ms : List Mutation) :
    (∀ d, (Tree.new.mutateAll ms).get d = lastRecords ms d) ∧
      (∀ m d, ((Tree.new.mutateAll ms).mutate m).get d =
        if normalLabels d = normalLabels m.domain then m.stored else (Tree.new.mutateAll ms).get d) ∧
      (Tree.new.mutateAll ms).len = (normalLabels '' {d | (Tree.new.mutateAll ms).get d ≠ none}).ncard := by
  have hv := Tree.valid_mutateAll ms
  refine ⟨get_mutateAll ms, ?_, Tree.len_eq hv⟩
  intro m d
  rw [Tree.get_mutate hv, labels_eq_normalLabels, labels_eq_normalLabels]

end Kdns.Radix
