import Kdns.Store.Submit
import Kdns.Update.Zones

open List

namespace Kdns.Update

open ByteStream BufferedFile Dns Wire GoStrings Radix Wal Storage

section Congruence

variable {σ τ : Type} {getter : Getter σ} {getter' : Getter τ} {s : σ} {s' : τ} (h : getter s = getter' s')

include h

theorem checkPrerequisites_congr (prs : List RawRR) :
    checkPrerequisites getter s prs = checkPrerequisites getter' s' prs := by
  induction prs with
  | nil => rfl
  | cons pr prs ih => rw [checkPrerequisites, checkPrerequisites, h, ih]

theorem admitted_congr (u : Unicode) (p : Bytes) : admitted u getter s p = admitted u getter' s' p := by
  unfold admitted admits
  rw [h]
  simp only [checkPrerequisites_congr h]

end Congruence

def StoreCall.op : StoreCall → Op
  | .upsert domain records => .upsert domain records
  | .deleteDomain domain => .delete domain

structure Serving where
  session : Session Writer
  services : List Service

namespace Serving

def getter : Getter Serving := fun s => s.session.tree.get

def submit (s : Serving) (op : Op) : Serving × Option SubmitError :=
  let r := Storage.submit s.session op (s.services.headD .served)
  (⟨r.1, s.services.tail⟩, r.2)

def upsertDeleter : UpsertDeleter Serving SubmitError where
  upsert s domain records := s.submit (.upsert domain records)
  deleteDomain s domain := s.submit (.delete domain)

theorem admitted_eq (u : Unicode) (t : Tree) (w : Writer) (services : List Service) (p : Bytes) :
    admitted u getter ⟨⟨t, w⟩, services⟩ p = admitted u Radix.Tree.get t p := by
  apply admitted_congr
  rfl

theorem updateCalls_eq (mo : MapOrder) (t : Tree) (w : Writer) (services : List Service) (updates : List RawRR) :
    updateCalls mo getter ⟨⟨t, w⟩, services⟩ updates = updateCalls mo Radix.Tree.get t updates := by
  rfl

theorem call_eq (s : Serving) (call : StoreCall) : upsertDeleter.call s call = s.submit call.op := by
  cases call <;> rfl

end Serving

open Serving (getter upsertDeleter)

def updateOps (mo : MapOrder) (t : Tree) (updates : List RawRR) : List Op :=
  (updateCalls mo Radix.Tree.get t updates).map StoreCall.op

section Calls

variable {t : Tree} (ht : t.Valid)

include ht

theorem callAll_quiet {calls : List StoreCall} (h : Quiet t (calls.map StoreCall.op)) (w : Writer) (services : List Service) :
    (callAll upsertDeleter calls ⟨⟨t, w⟩, services⟩).1.session.tree = t := by
  induction calls generalizing w services with
  | nil => rfl
  | cons call calls ih =>
    obtain ⟨htree, hrest⟩ := submit_quiet ht h w (services.headD .served)
    rw [callAll, Serving.call_eq, Serving.submit]
    rcases hsubmit : submit ⟨t, w⟩ call.op (services.headD .served) with ⟨⟨t', w'⟩, _ | e⟩
    · rw [hsubmit] at htree hrest
      obtain rfl : t' = t := htree
      exact ih (hrest rfl) w' services.tail
    · rw [hsubmit] at htree
      exact htree

theorem callAll_disturbed {calls : List StoreCall} (h : ¬Quiet t (calls.map StoreCall.op)) {w : Writer} (hw : w.Healthy) :
    ∃ services, (callAll upsertDeleter calls ⟨⟨t, w⟩, services⟩).2.2 ≠ none ∧
      ∃ name, (callAll upsertDeleter calls ⟨⟨t, w⟩, services⟩).1.session.tree.get name ≠ t.get name := by
  induction calls generalizing w with
  | nil => exact absurd (by simp [Quiet]) h
  | cons call calls ih =>
    obtain ⟨htree, hhealthy, hnone⟩ := logAndApply_healthy t hw (effects t call.op)
    by_cases hidle : ∀ b ∈ ((effects t call.op).map Prod.snd).takeWhile withinLimits, Idle t b
    · -- Nothing changes here, so all entries were taken and a later call is to blame.
      have hall : ∀ b ∈ (effects t call.op).map Prod.snd, withinLimits b = true := by
        by_contra hall
        apply h
        rw [Quiet, map_cons, flatMap_cons, takeWhile_append, if_neg]
        · exact hidle
        · intro hlen
          have hself := takeWhile_prefix _ |>.eq_of_length hlen
          exact hall (takeWhile_eq_self_iff.mp hself)
      have hself := takeWhile_eq_self_iff.mpr hall
      have hrest : ¬Quiet t (calls.map StoreCall.op) := by
        intro hquiet
        apply h
        rw [Quiet, map_cons, flatMap_cons, takeWhile_append, if_pos (by rw [hself])]
        rw [hself] at hidle
        exact forall_mem_append.mpr ⟨hidle, hquiet⟩
      obtain ⟨hflush, hflushed⟩ := flush_healthy hhealthy
      have hserved : submit ⟨t, w⟩ call.op .served =
          (⟨t, (Wal.flush (logAndApply append ⟨t, w⟩ (effects t call.op)).1.writer).1⟩, none) := by
        rw [submit, commitBatch_single, (logAndApply_idle ht w _ hidle).1, hflush, hnone hall]
        rfl
      obtain ⟨services, herr, hchanged⟩ := ih hrest hflushed
      refine ⟨.served :: services, ?_⟩
      rw [callAll, Serving.call_eq, Serving.submit]
      dsimp only [headD_cons]
      rw [hserved]
      exact ⟨herr, hchanged⟩
    · simp only [not_forall] at hidle
      obtain ⟨b, hb, hchange⟩ := hidle
      have habandoned : (callAll upsertDeleter (call :: calls) ⟨⟨t, w⟩, [.abandoned]⟩).2.2 = some .closed ∧
          (callAll upsertDeleter (call :: calls) ⟨⟨t, w⟩, [.abandoned]⟩).1.session.tree =
            (logAndApply append ⟨t, w⟩ (effects t call.op)).1.tree := by
        rw [callAll, Serving.call_eq, Serving.submit]
        dsimp only [headD_cons]
        rw [submit, commitBatch_single]
        exact ⟨rfl, rfl⟩
      refine ⟨[.abandoned], ?_, b.domain, ?_⟩
      · rw [habandoned.1]
        exact Option.some_ne_none _
      · rw [habandoned.2, htree]
        exact applyOps_disturbed ht hb hchange

end Calls

/-- Updates are all or nothing, however their calls end, exactly when there is nothing to change. -/
theorem process_atomic_iff (u : Unicode) (mo : MapOrder) (t : Tree) (ht : t.Valid) (p : Bytes) :
    (∀ (w : Writer) (services : List Service),
        (process u mo getter upsertDeleter ⟨⟨t, w⟩, services⟩ p).rcode ≠ .success →
          ∀ name, (process u mo getter upsertDeleter ⟨⟨t, w⟩, services⟩ p).store.session.tree.get name =
            t.get name) ↔
      ∀ zone prereqs updates, admitted u Radix.Tree.get t p = some (zone, prereqs, updates) → Quiet t (updateOps mo t updates) := by
  constructor
  · intro hatomic zone prereqs updates hm
    by_contra hdisturbed
    have hhealthy : (BufWriter.new ⟨[], []⟩).Healthy := ⟨rfl, by simp [BufWriter.new]⟩
    obtain ⟨services, herr, name, hchanged⟩ := callAll_disturbed ht hdisturbed hhealthy
    have hunchanged := hatomic (BufWriter.new ⟨[], []⟩) services
    rw [← Serving.admitted_eq u t (BufWriter.new ⟨[], []⟩) services] at hm
    rw [process_admitted mo _ hm, Serving.updateCalls_eq] at hunchanged
    rcases hcalls : callAll upsertDeleter (updateCalls mo Radix.Tree.get t updates)
      ⟨⟨t, BufWriter.new ⟨[], []⟩⟩, services⟩ with ⟨s', calls, _ | e⟩
    · rw [hcalls] at herr
      exact herr rfl
    · rw [hcalls] at hunchanged hchanged
      exact hchanged (hunchanged RCode.noConfusion name)
  · intro hquiet w services _ name
    rw [← Serving.admitted_eq u t w services] at hquiet
    cases hm : admitted u getter ⟨⟨t, w⟩, services⟩ p with
    | none => rw [(process_rejected mo _ hm).1]
    | some m =>
      obtain ⟨zone, prereqs, updates⟩ := m
      have htree := callAll_quiet ht (hquiet zone prereqs updates hm) w services
      rw [process_admitted mo _ hm, Serving.updateCalls_eq]
      rcases hcalls : callAll upsertDeleter (updateCalls mo Radix.Tree.get t updates) ⟨⟨t, w⟩, services⟩ with
        ⟨s', calls, _ | e⟩ <;>
      · rw [hcalls] at htree
        exact congrArg (Radix.Tree.get · name) htree

def hostTree (address : Bytes) : Tree := Tree.new.upsertAll [([97], [⟨[address], 60, typeA, classIN⟩])]

theorem hostTree_valid (address : Bytes) : (hostTree address).Valid := (Tree.upsertAll_spec Tree.valid_new _).1

theorem process_atomic_again :
    (process .basic .insertion getter upsertDeleter
        ⟨⟨hostTree [10, 0, 0, 1], BufWriter.new ⟨[], []⟩⟩, [.abandoned]⟩ addToZone).rcode ≠ .success ∧
      ∀ name, (process .basic .insertion getter upsertDeleter
        ⟨⟨hostTree [10, 0, 0, 1], BufWriter.new ⟨[], []⟩⟩, [.abandoned]⟩ addToZone).store.session.tree.get name =
          (hostTree [10, 0, 0, 1]).get name := by
  have hfail : (process .basic .insertion getter upsertDeleter
      ⟨⟨hostTree [10, 0, 0, 1], BufWriter.new ⟨[], []⟩⟩, [.abandoned]⟩ addToZone).rcode ≠ .success := by decide +kernel
  refine ⟨hfail, (process_atomic_iff .basic .insertion (hostTree [10, 0, 0, 1]) (hostTree_valid _) addToZone).mpr ?_ _ _ hfail⟩
  intro zone prereqs updates hm
  have hadmitted : admitted .basic Radix.Tree.get (hostTree [10, 0, 0, 1]) addToZone =
      some ([97, dotByte], [], [⟨[97, dotByte], [10, 0, 0, 1], 60, typeA, classIN⟩]) := by decide +kernel
  rw [hadmitted] at hm
  cases hm
  have hops : (updateOps .insertion (hostTree [10, 0, 0, 1]) [⟨[97, dotByte], [10, 0, 0, 1], 60, typeA, classIN⟩]).flatMap
      (fun op => (effects (hostTree [10, 0, 0, 1]) op).map Prod.snd) =
        [.upsert [97, dotByte] [⟨[[10, 0, 0, 1]], 60, typeA, classIN⟩]] := by decide +kernel
  rw [Quiet, hops]
  intro op hop
  rw [mem_singleton.mp ((takeWhile_sublist _).subset hop), Idle]
  decide +kernel

def addToTwo : Bytes :=
  [0, 0, 0x28, 0, 0, 1, 0, 0, 0, 2, 0, 0, 1, 97, 0, 0, 6, 0, 1] ++
    [1, 97, 0, 0, 1, 0, 1, 0, 0, 0, 60, 0, 4, 10, 0, 0, 1] ++ [1, 98, 1, 97, 0, 0, 1, 0, 1, 0, 0, 0, 60, 0, 4, 10, 0, 0, 1]

/-- The second call finds the queue full: the update fails, and the first name has changed. -/
theorem process_applies_half :
    (process .basic .insertion getter upsertDeleter
        ⟨⟨hostTree [10, 0, 0, 2], BufWriter.new ⟨[], []⟩⟩, [.served, .queueFull]⟩ addToTwo).rcode = .serverFailure ∧
      (process .basic .insertion getter upsertDeleter
        ⟨⟨hostTree [10, 0, 0, 2], BufWriter.new ⟨[], []⟩⟩, [.served, .queueFull]⟩ addToTwo).store.session.tree.get [97] ≠
          (hostTree [10, 0, 0, 2]).get [97] := by
  decide +kernel

end Kdns.Update
