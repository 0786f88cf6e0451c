import Kdns.Store.Order
import Kdns.Update.Atomic

namespace Kdns.Update

open ByteStream BufferedFile Dns Wire GoStrings Radix Wal Storage List
open Serving (getter upsertDeleter)

theorem submit_none {s : Session Writer} {op : Op} {service : Service} (h : (submit s op service).2 = none) :
    (submit s op service).1.tree = mutate s.tree op := by
  cases service with
  | served =>
    have hlog : logAndApply append s (effects s.tree op) = ((logAndApply append s (effects s.tree op)).1, none) :=
      Prod.ext rfl (submit_served_none h)
    have htree := logAndApply_none hlog
    rw [submit, commitBatch_single]
    exact htree
  | queueFull => cases h
  | closed => cases h
  | abandoned => cases h

theorem callAll_mutateAll {calls : List StoreCall} {s : Serving} (h : (callAll upsertDeleter calls s).2.2 = none)
    (i : ℕ) : (callAll upsertDeleter (calls.take i) s).1.session.tree =
      mutateAll s.session.tree ((calls.map StoreCall.op).take i) := by
  induction calls generalizing s i with
  | nil =>
    rw [take_nil, map_nil, take_nil]
    rfl
  | cons call calls ih =>
    cases i with
    | zero => rfl
    | succ i =>
      rw [callAll, Serving.call_eq, Serving.submit] at h
      rw [take_succ_cons, map_cons, take_succ_cons, callAll, Serving.call_eq, Serving.submit]
      have hsubmit : (submit s.session call.op (s.services.headD .served)).2 = none → _ := submit_none
      rcases hcall : submit s.session call.op (s.services.headD .served) with ⟨s', _ | e⟩
      · rw [hcall] at h hsubmit
        have hrest := ih h i
        have htree : s'.tree = mutate s.session.tree call.op := hsubmit rfl
        rw [htree] at hrest
        exact hrest
      · rw [hcall] at h
        cases h

theorem callAll_final {calls : List StoreCall} {s : Serving} (h : (callAll upsertDeleter calls s).2.2 = none) :
    (callAll upsertDeleter calls s).1.session.tree = mutateAll s.session.tree (calls.map StoreCall.op) := by
  have htree := callAll_mutateAll h calls.length
  rwa [take_length, take_of_length_le (by rw [length_map])] at htree

def MapOrder.reversed : MapOrder := ⟨List.reverse, reverse_perm⟩

theorem updateOps_perm (mo mo' : MapOrder) (t : Tree) (updates : List RawRR) :
    (updateOps mo t updates).Perm (updateOps mo' t updates) :=
  (((mo.perm _).trans (mo'.perm _).symm).map _).map _

def SteadyUpdate (t : Tree) (ops : List Op) : Prop :=
  (ops.map fun op => labels op.domain).Nodup ∧ Guarded.Meets commit (Steady t ops) t ops

instance steadyUpdateDecidable (t : Tree) (ops : List Op) : Decidable (SteadyUpdate t ops) :=
  inferInstanceAs (Decidable (_ ∧ _))

theorem process_success {u : Unicode} {mo : MapOrder} {s : Serving} {p : Bytes}
    (h : (process u mo getter upsertDeleter s p).rcode = .success) :
    ∃ zone prereqs updates, admitted u Radix.Tree.get s.session.tree p = some (zone, prereqs, updates) ∧
      (callAll upsertDeleter (updateCalls mo Radix.Tree.get s.session.tree updates) s).2.2 = none ∧
      (process u mo getter upsertDeleter s p).store =
        (callAll upsertDeleter (updateCalls mo Radix.Tree.get s.session.tree updates) s).1 := by
  obtain ⟨zone, prereqs, updates, hm, herr, hstore, -⟩ := process_succeeds mo _ h
  rw [Serving.admitted_eq] at hm
  exact ⟨zone, prereqs, updates, hm, herr, hstore⟩

/-- Two orders of one update end in the same records, and no serial goes down on the way, in the runs that are steady. -/
theorem process_any_order (u : Unicode) (t : Tree) (ht : t.Valid)
    (hwf : ∀ z, HoldsSOA t.contents z → WellFormedSOA (recordsAt t.contents z)) (p : Bytes) (mo mo' : MapOrder)
    (w w' : Writer) (services services' : List Service)
    (hok : (process u mo getter upsertDeleter ⟨⟨t, w⟩, services⟩ p).rcode = .success)
    (hok' : (process u mo' getter upsertDeleter ⟨⟨t, w'⟩, services'⟩ p).rcode = .success)
    (hsteady : ∀ m, admitted u Radix.Tree.get t p = some m → SteadyUpdate t (updateOps mo t m.2.2))
    (hsteady' : ∀ m, admitted u Radix.Tree.get t p = some m → SteadyUpdate t (updateOps mo' t m.2.2)) :
    (∀ name, (process u mo getter upsertDeleter ⟨⟨t, w⟩, services⟩ p).store.session.tree.get name =
        (process u mo' getter upsertDeleter ⟨⟨t, w'⟩, services'⟩ p).store.session.tree.get name) ∧
      ∀ m, admitted u Radix.Tree.get t p = some m → ∀ z n, storedSerial t.contents z = some n →
        (∀ op ∈ updateOps mo t m.2.2, labels op.domain = z →
          findType op.records typeSOA = findType (recordsAt t.contents z) typeSOA) →
        n + (updateOps mo t m.2.2).length < 2 ^ 32 → ∀ i j, i ≤ j →
        ∃ a b, storedSerial (callAll upsertDeleter ((updateCalls mo Radix.Tree.get t m.2.2).take i)
            ⟨⟨t, w⟩, services⟩).1.session.tree.contents z = some a ∧
          storedSerial (callAll upsertDeleter ((updateCalls mo Radix.Tree.get t m.2.2).take j)
            ⟨⟨t, w⟩, services⟩).1.session.tree.contents z = some b ∧ a ≤ b := by
  obtain ⟨zone, prereqs, updates, hm, herr, hstore⟩ := process_success hok
  obtain ⟨zone', prereqs', updates', hm', herr', hstore'⟩ := process_success hok'
  dsimp only at hm hm' herr herr' hstore hstore'
  obtain ⟨rfl, rfl, rfl⟩ : zone = zone' ∧ prereqs = prereqs' ∧ updates = updates' := by
    rw [hm] at hm'
    simpa using hm'
  obtain ⟨hnodup, hmeets⟩ := hsteady _ hm
  obtain ⟨hnodup', hmeets'⟩ := hsteady' _ hm
  have hfinal : ∀ (mo : MapOrder) (w : Writer) (services : List Service), SteadyUpdate t (updateOps mo t updates) →
      (callAll upsertDeleter (updateCalls mo Radix.Tree.get t updates) ⟨⟨t, w⟩, services⟩).2.2 = none →
      (callAll upsertDeleter (updateCalls mo Radix.Tree.get t updates) ⟨⟨t, w⟩, services⟩).1.session.tree.contents =
        expected t (updateOps mo t updates) := by
    intro mo w services hs herr
    have hexpected := mutateAll_expected t ht hs.1 hs.2 (updateOps mo t updates).length
    rw [take_length] at hexpected
    rw [callAll_final herr]
    exact hexpected
  constructor
  · intro name
    rw [hstore, hstore']
    have hcontents := congrFun (hfinal mo w services ⟨hnodup, hmeets⟩ herr) (labels name)
    have hcontents' := congrFun (hfinal mo' w' services' ⟨hnodup', hmeets'⟩ herr') (labels name)
    rw [expected_perm t (updateOps_perm mo mo' t updates) hnodup, ← hcontents'] at hcontents
    exact hcontents
  · intro m hm'' z n hn hkeep hwrap i j hij
    rw [hm] at hm''
    cases hm''
    rw [callAll_mutateAll herr i, callAll_mutateAll herr j]
    exact serial_monotone ht hwf hnodup hmeets hkeep hn hwrap hij

def apexTree : Tree := Tree.new.upsertAll
  [([97], [⟨[[0, 0, 0, 0, 0, 7, 0, 0, 0, 0, 0, 0, 0, 0, 0, 0, 0, 0, 0, 0, 0, 0]], 300, typeSOA, classIN⟩])]

theorem apexTree_valid : apexTree.Valid := (Tree.upsertAll_spec Tree.valid_new _).1

theorem apexTree_wellFormed (z : List Bytes) (h : HoldsSOA apexTree.contents z) :
    WellFormedSOA (recordsAt apexTree.contents z) := by
  have hcontents := (Tree.upsertAll_spec Tree.valid_new
    [([97], [⟨[[0, 0, 0, 0, 0, 7, 0, 0, 0, 0, 0, 0, 0, 0, 0, 0, 0, 0, 0, 0, 0, 0]], 300, typeSOA, classIN⟩])]).2
  by_cases hz : z = [[97]]
  · subst hz
    exact ⟨_, _, _, rfl, rfl, by decide +kernel⟩
  · exfalso
    apply h
    rw [recordsAt, apexTree, hcontents, Tree.contents_new]
    rw [Overwrite.replay_untouched]
    · rfl
    · have hl : labels [97] = [[97]] := by decide
      simpa [Tree.upsertWrite, hl] using hz

def freshStore : Serving := ⟨⟨apexTree, BufWriter.new ⟨[], []⟩⟩, []⟩

def hostRecord (l : UInt8) : Bytes := [1, l, 1, 97, 0, 0, 1, 0, 1, 0, 0, 0, 60, 0, 4, 10, 0, 0, 1]

def addTwoHosts : Bytes := [0, 0, 0x28, 0, 0, 1, 0, 0, 0, 2, 0, 0, 1, 97, 0, 0, 6, 0, 1] ++ hostRecord 99 ++ hostRecord 100

theorem process_any_order_hosts :
    (process .basic .insertion getter upsertDeleter freshStore addTwoHosts).rcode = .success ∧
      ∀ name, (process .basic .insertion getter upsertDeleter freshStore addTwoHosts).store.session.tree.get
          name =
        (process .basic .reversed getter upsertDeleter freshStore addTwoHosts).store.session.tree.get name := by
  have hok : (process .basic .insertion getter upsertDeleter freshStore addTwoHosts).rcode = .success := by
    decide +kernel
  refine ⟨hok, (process_any_order .basic apexTree apexTree_valid apexTree_wellFormed addTwoHosts .insertion .reversed
    (BufWriter.new ⟨[], []⟩) (BufWriter.new ⟨[], []⟩) [] [] hok (by decide +kernel) ?_ ?_).1⟩
  · have hall : ∀ m ∈ (admitted .basic Radix.Tree.get apexTree addTwoHosts).toList,
        SteadyUpdate apexTree (updateOps .insertion apexTree m.2.2) := by decide +kernel
    exact fun m hm => hall m (Option.mem_toList.mpr hm)
  · have hall : ∀ m ∈ (admitted .basic Radix.Tree.get apexTree addTwoHosts).toList,
        SteadyUpdate apexTree (updateOps .reversed apexTree m.2.2) := by decide +kernel
    exact fun m hm => hall m (Option.mem_toList.mpr hm)

def addServerAndHosts : Bytes :=
  [0, 0, 0x28, 0, 0, 1, 0, 0, 0, 3, 0, 0, 1, 97, 0, 0, 6, 0, 1] ++ hostRecord 99 ++ hostRecord 100 ++
    [1, 97, 0, 0, 2, 0, 1, 0, 0, 0, 60, 0, 1, 0]

/-- The serial ends at 8 in one order, after it has been 9, and at 10 in the other. -/
theorem process_order_matters :
    (process .basic .insertion getter upsertDeleter freshStore addServerAndHosts).rcode = .success ∧
      (process .basic .reversed getter upsertDeleter freshStore addServerAndHosts).rcode = .success ∧
      storedSerial (process .basic .insertion getter upsertDeleter freshStore
        addServerAndHosts).store.session.tree.contents [[97]] = some 8 ∧
      storedSerial (process .basic .reversed getter upsertDeleter freshStore
        addServerAndHosts).store.session.tree.contents [[97]] = some 10 ∧
      ∃ m, admitted .basic Radix.Tree.get apexTree addServerAndHosts = some m ∧
        (∀ op ∈ updateOps .insertion apexTree m.2.2, labels op.domain = [[97]] →
          findType op.records typeSOA = findType (recordsAt apexTree.contents [[97]]) typeSOA) ∧
        storedSerial (callAll upsertDeleter ((updateCalls .insertion Radix.Tree.get apexTree m.2.2).take 2)
          freshStore).1.session.tree.contents [[97]] = some 9 := by
  refine ⟨by decide +kernel, by decide +kernel, by decide +kernel, by decide +kernel, ?_⟩
  have hm : ∃ m ∈ (admitted .basic Radix.Tree.get apexTree addServerAndHosts).toList,
      (∀ op ∈ updateOps .insertion apexTree m.2.2, labels op.domain = [[97]] →
        findType op.records typeSOA = findType (recordsAt apexTree.contents [[97]]) typeSOA) ∧
      storedSerial (callAll upsertDeleter ((updateCalls .insertion Radix.Tree.get apexTree m.2.2).take 2)
        freshStore).1.session.tree.contents [[97]] = some 9 := by decide +kernel
  obtain ⟨m, hm, h⟩ := hm
  exact ⟨m, Option.mem_toList.mp hm, h⟩

end Kdns.Update
