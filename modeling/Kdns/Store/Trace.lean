import Kdns.Snapshot
import Kdns.Store.Commit
import Mathlib.Data.List.TakeWhile

namespace Kdns.Storage

open ByteStream BufferedFile Dns Codec Radix Wal List

def writeOf : Op → List Bytes × Option RRSets
  | .upsert domain rs => Tree.upsertWrite (domain, rs)
  | .delete domain => (labels domain, none)

variable {t : Tree} {op : Op} {ops batch : List Op} {s : Session Writer}

theorem applyOp_spec (h : t.Valid) (op : Op) :
    (applyOp t op).Valid ∧ (applyOp t op).contents = Overwrite.put t.contents (writeOf op) := by
  cases op with
  | upsert domain rs => exact Tree.upsert_spec h domain rs
  | delete domain => exact Tree.deleteDomain_spec h domain

theorem applyOps_spec (h : t.Valid) (ops : List Op) :
    (applyOps t ops).Valid ∧ (applyOps t ops).contents = Overwrite.replay t.contents (ops.map writeOf) := by
  induction ops generalizing t with
  | nil => exact ⟨h, rfl⟩
  | cons op ops ih =>
    obtain ⟨hv, hc⟩ := applyOp_spec h op
    obtain ⟨hv', hc'⟩ := ih hv
    exact ⟨hv', by rw [applyOps, foldl_cons]; exact hc'.trans (by rw [hc]; rfl)⟩

theorem applyOps_append (t : Tree) (xs ys : List Op) : applyOps t (xs ++ ys) = applyOps (applyOps t xs) ys :=
  foldl_append

structure Sound (t : Tree) : Prop where
  valid : t.Valid
  storable : Overwrite.Holds (fun p rs => (nameOf p).length ≤ maxDomainLen ∧ ClassIN rs) t.contents

theorem Sound.namesWithin (h : Sound t) : NamesWithin pathBufSize t.root := by
  intro p hp
  obtain ⟨rs, hrs⟩ := Option.ne_none_iff_exists'.mp hp
  exact (h.storable p rs hrs).1.trans (by decide)

theorem sound_new : Sound Tree.new :=
  ⟨Tree.valid_new, fun p rs h => by rw [Tree.contents_new] at h; cases h⟩

theorem writeOf_storable (ho : Storable op) (rs : RRSets) (h : (writeOf op).2 = some rs) :
    (nameOf (writeOf op).1).length ≤ maxDomainLen ∧ ClassIN rs := by
  cases op with
  | upsert domain records =>
    simp only [writeOf, Tree.upsertWrite] at h ⊢
    split_ifs at h
    cases h
    exact ⟨(nameOf_labels_length domain).trans ho.1, ho.2⟩
  | delete domain => cases h

theorem sound_applyOps (h : Sound t) (ho : ∀ op ∈ ops, Storable op) : Sound (applyOps t ops) := by
  obtain ⟨hv, hc⟩ := applyOps_spec h.valid ops
  refine ⟨hv, ?_⟩
  rw [hc]
  apply Overwrite.holds_replay h.storable
  intro w hw
  obtain ⟨op, hop, rfl⟩ := mem_map.mp hw
  exact writeOf_storable (ho op hop)

theorem upsertAll_eq (t : Tree) (es : List (Bytes × RRSets)) :
    t.upsertAll es = applyOps t (es.map fun e => .upsert e.1 e.2) := by
  rw [Tree.upsertAll, applyOps, foldl_map]
  rfl

theorem sound_upsertAll {es : List (Bytes × RRSets)} (h : ∀ e ∈ es, e.1.length ≤ maxDomainLen ∧ ClassIN e.2) :
    Sound (Tree.new.upsertAll es) := by
  rw [upsertAll_eq]
  apply sound_applyOps sound_new
  intro op hop
  obtain ⟨e, he, rfl⟩ := mem_map.mp hop
  exact h e he

theorem bumpSOA_classIN {rs rs' : RRSets} (h : bumpSOA rs = some rs') (hc : ClassIN rs) : ClassIN rs' := by
  induction rs generalizing rs' with
  | nil => cases h
  | cons s rest ih =>
    obtain ⟨hs, hrest⟩ := forall_mem_cons.mp hc
    rw [bumpSOA] at h
    split at h
    · cases h
      exact forall_mem_cons.mpr ⟨hs, hrest⟩
    · obtain ⟨rest', hr, rfl⟩ := Option.map_eq_some_iff.mp h
      exact forall_mem_cons.mpr ⟨hs, ih hr hrest⟩

theorem zoneBump_wellFormed (h : Sound t) {domain : Bytes} {rs : RRSets}
    (hop : zoneBump t domain rs = some op) : WellFormed op := by
  unfold zoneBump at hop
  split at hop
  · cases hop
  · dsimp only at hop
    split_ifs at hop
    obtain ⟨updated, hu, rfl⟩ := Option.map_eq_some_iff.mp hop
    obtain ⟨records, hr, hb⟩ := Option.bind_eq_some_iff.mp hu
    exact bumpSOA_classIN hb (h.storable _ _ hr).2

theorem effects_wellFormed (h : Sound t) (hop : WellFormed op) : ∀ x ∈ effects t op, WellFormed x.2 := by
  have hbump : ∀ domain rs, ∀ x ∈ ((zoneBump t domain rs).map (Prod.mk Stage.soaIncrement)).toList, WellFormed x.2 := by
    intro domain rs x hx
    obtain ⟨op, hop, rfl⟩ := Option.map_eq_some_iff.mp (Option.mem_toList.mp hx)
    exact zoneBump_wellFormed h hop
  cases op with
  | upsert domain rs =>
    refine forall_mem_append.mpr ⟨hbump domain rs, forall_mem_singleton.mpr ?_⟩
    cases hb : bumpSOA rs with
    | none => exact hop
    | some rs' => exact bumpSOA_classIN hb hop
  | delete domain => exact forall_mem_append.mpr ⟨hbump domain [], forall_mem_singleton.mpr hop⟩

def mutate (t : Tree) (op : Op) : Tree := applyOps t ((effects t op).map Prod.snd)

def mutateAll (t : Tree) (ops : List Op) : Tree := ops.foldl mutate t

def trace (t : Tree) : List Op → List Op
  | [] => []
  | op :: ops => (effects t op).map Prod.snd ++ trace (mutate t op) ops

theorem applyOps_trace (t : Tree) (ops : List Op) : applyOps t (trace t ops) = mutateAll t ops := by
  induction ops generalizing t with
  | nil => rfl
  | cons op ops ih =>
    rw [trace, applyOps_append, mutateAll, foldl_cons]
    exact ih (mutate t op)

theorem mutateAll_append (t : Tree) (xs ys : List Op) : mutateAll t (xs ++ ys) = mutateAll (mutateAll t xs) ys :=
  foldl_append

section Ideal

def accepted (xs : List (Stage × Op)) : List Op := (xs.takeWhile fun x => withinLimits x.2).map Prod.snd

def rejected (xs : List (Stage × Op)) : Option (Stage × Op) := xs.find? fun x => !withinLimits x.2

def debris (xs : List (Stage × Op)) : Bytes := (rejected xs).elim [] fun x => (outcome x.2).1

theorem rejected_none {xs : List (Stage × Op)} : rejected xs = none ↔ ∀ op ∈ xs.map Prod.snd, withinLimits op = true := by
  simp only [rejected, List.find?_eq_none, Bool.not_eq_true', Bool.not_eq_false, forall_mem_map]

theorem accepted_all {xs : List (Stage × Op)} (h : rejected xs = none) : accepted xs = xs.map Prod.snd := by
  have hall : ∀ x ∈ xs, withinLimits x.2 = true := fun x hx => rejected_none.mp h x.2 (mem_map_of_mem hx)
  rw [accepted, takeWhile_eq_self_iff.mpr hall]

theorem logAndApply_ideal (t : Tree) (log : Bytes) (xs : List (Stage × Op)) : logAndApply idealAppend ⟨t, log⟩ xs =
      (⟨applyOps t (accepted xs), log ++ (encodeLog (accepted xs) ++ debris xs)⟩,
        (rejected xs).map fun x => .append x.1 .capacityExceeded) := by
  induction xs generalizing t log with
  | nil => simp [logAndApply, accepted, rejected, debris, encodeLog, applyOps]
  | cons x xs ih =>
    obtain ⟨stage, op⟩ := x
    rw [logAndApply, idealAppend]
    cases hl : withinLimits op with
    | true =>
      have ho : outcome op = (encodeOp op, none) := by simp [outcome, hl]
      have ha : accepted ((stage, op) :: xs) = op :: accepted xs := by simp [accepted, hl]
      have hr : rejected ((stage, op) :: xs) = rejected xs := by simp [rejected, hl]
      simp only [ho, ih, ha, debris, hr, encodeLog, flatMap_cons, append_assoc]
      rfl
    | false =>
      have ho : (outcome op).2 = some .capacityExceeded := by
        simp only [outcome, hl, Bool.false_eq_true, if_false]
        split_ifs <;> rfl
      have ha : accepted ((stage, op) :: xs) = [] := by simp [accepted, hl]
      have hr : rejected ((stage, op) :: xs) = some (stage, op) := by simp [rejected, hl]
      simp only [ho, ha, debris, hr, encodeLog, flatMap_nil, nil_append]
      rfl

def Accepts (t : Tree) (ops : List Op) : Prop := ∀ op ∈ trace t ops, withinLimits op = true

theorem accepts_cons : Accepts t (op :: ops) ↔ rejected (effects t op) = none ∧ Accepts (mutate t op) ops := by
  rw [Accepts, trace, forall_mem_append, rejected_none]
  rfl

theorem runBatch_append {W : Type} {app : W → Op → W × Option WalError} {s s' : Session W} {xs : List Op} {i : ℕ}
    (h : runBatch app s xs i = (s', none)) (ys : List Op) :
    runBatch app s (xs ++ ys) i = runBatch app s' ys (i + xs.length) := by
  induction xs generalizing s i with
  | nil => cases h; rfl
  | cons x xs ih =>
    rw [runBatch] at h
    rw [cons_append, runBatch]
    rcases hx : logAndApply app s (effects s.tree x) with ⟨s₁, _ | e⟩ <;> rw [hx] at h
    · rw [length_cons, Nat.add_comm xs.length, ← Nat.add_assoc]
      exact ih h
    · cases h

theorem runBatch_accepts (h : Accepts t ops) (log : Bytes) (i : ℕ) :
    runBatch idealAppend ⟨t, log⟩ ops i = (⟨mutateAll t ops, log ++ encodeLog (trace t ops)⟩, none) := by
  induction ops generalizing t log i with
  | nil => simp [runBatch, mutateAll, trace, encodeLog]
  | cons op ops ih =>
    obtain ⟨hr, ha⟩ := accepts_cons.mp h
    rw [runBatch, logAndApply_ideal, hr, accepted_all hr, debris, hr]
    simp only [Option.map_none, Option.elim_none, append_nil]
    rw [trace, encodeLog_append, ← append_assoc]
    apply ih ha

theorem runBatch_rejects {pre : List Op} (h : Accepts t pre) {x : Stage × Op}
    (hx : rejected (effects (mutateAll t pre) op) = some x) (post : List Op) (log : Bytes) (i : ℕ) :
    runBatch idealAppend ⟨t, log⟩ (pre ++ op :: post) i =
      (⟨applyOps (mutateAll t pre) (accepted (effects (mutateAll t pre) op)),
        log ++ encodeLog (trace t pre) ++ (encodeLog (accepted (effects (mutateAll t pre) op)) ++
          debris (effects (mutateAll t pre) op))⟩, some (i + pre.length, .append x.1 .capacityExceeded)) := by
  rw [runBatch_append (runBatch_accepts h log i), runBatch, logAndApply_ideal, hx]
  rfl

theorem accepts_or_rejects (t : Tree) (ops : List Op) :
    Accepts t ops ∨ ∃ pre op post x, ops = pre ++ op :: post ∧ Accepts t pre ∧
      rejected (effects (mutateAll t pre) op) = some x := by
  induction ops generalizing t with
  | nil => exact .inl (by simp [Accepts, trace])
  | cons op ops ih =>
    cases hr : rejected (effects t op) with
    | some x => exact .inr ⟨[], op, ops, x, rfl, by simp [Accepts, trace], hr⟩
    | none =>
      rcases ih (mutate t op) with ha | ⟨pre, op', post, x, rfl, ha, hx⟩
      · exact .inl (accepts_cons.mpr ⟨hr, ha⟩)
      · exact .inr ⟨op :: pre, op', post, x, rfl, accepts_cons.mpr ⟨hr, ha⟩, hx⟩

end Ideal

theorem trace_wellFormed (h : Sound t) (hops : ∀ op ∈ ops, WellFormed op)
    (ha : Accepts t ops) : (∀ op ∈ trace t ops, Replayable op) ∧ Sound (mutateAll t ops) := by
  induction ops generalizing t with
  | nil => exact ⟨by simp [trace], h⟩
  | cons op ops ih =>
    obtain ⟨hop, hops⟩ := forall_mem_cons.mp hops
    obtain ⟨hr, ha⟩ := accepts_cons.mp ha
    have heff : ∀ op' ∈ (effects t op).map Prod.snd, Replayable op' := by
      intro op' hop'
      obtain ⟨x, hx, rfl⟩ := mem_map.mp hop'
      exact replayable_of_withinLimits (rejected_none.mp hr _ hop') (effects_wellFormed h hop x hx)
    have hsound : Sound (mutate t op) := sound_applyOps h fun op' hop' => storable_of_replayable (heff op' hop')
    obtain ⟨htr, hs⟩ := ih hsound hops ha
    exact ⟨forall_mem_append.mpr ⟨heff, htr⟩, hs⟩

def Flushed (w : Writer) : Prop := w.buf = [] ∧ w.failed = false

theorem Flushed.log {w : Writer} (h : Flushed w) : w.log = w.file.content := by
  rw [BufWriter.log, h.1, append_nil]

theorem commitLoop_flushed (hw : Flushed s.writer) (h : (Wal.flush (commitLoop s batch 0).1.writer).2 = none) :
    runBatch idealAppend ⟨s.tree, s.writer.file.content⟩ batch 0 =
      (⟨(commitLoop s batch 0).1.tree, (Wal.flush (commitLoop s batch 0).1.writer).1.file.content⟩,
        (commitLoop s batch 0).2) ∧ Flushed (Wal.flush (commitLoop s batch 0).1.writer).1 := by
  obtain ⟨hfail, hcontent, hbuf, hok⟩ := flush_none h
  have hideal := commitLoop_ideal hfail
  rw [hw.log] at hideal
  rw [hcontent]
  exact ⟨hideal, hbuf, hok⟩

theorem commitBatch_eq (s : Session Writer) (h0 : batch ≠ []) : commitBatch s batch =
      (⟨(commitLoop s batch 0).1.tree, (Wal.flush (commitLoop s batch 0).1.writer).1⟩,
        (List.range batch.length).map
          (delivered ((Wal.flush (commitLoop s batch 0).1.writer).2.map .flush) (commitLoop s batch 0).2)) := by
  rw [commitBatch, if_neg h0]

def isFlushError : Option StoreError → Bool
  | some (.flush _) => true
  | _ => false

abbrev NoFlushError (results : List (Option StoreError)) : Prop := ∀ r ∈ results, isFlushError r = false

theorem flush_of_results (h0 : batch ≠ [])
    (hf : NoFlushError (commitBatch s batch).2) : (Wal.flush (commitLoop s batch 0).1.writer).2 = none := by
  rw [commitBatch_eq s h0] at hf
  cases he : (Wal.flush (commitLoop s batch 0).1.writer).2 with
  | none => rfl
  | some e =>
    have hmem : (0 : ℕ) ∈ List.range batch.length := mem_range.mpr (length_pos_of_ne_nil h0)
    have hzero := hf _ (mem_map.mpr ⟨0, hmem, rfl⟩)
    rw [he] at hzero
    cases hzero

theorem commitBatch_acked (hw : Flushed s.writer) (h : ∀ r ∈ (commitBatch s batch).2, r = none) :
    Accepts s.tree batch ∧ (commitBatch s batch).1.tree = mutateAll s.tree batch ∧
      Flushed (commitBatch s batch).1.writer ∧
      (commitBatch s batch).1.writer.file.content = s.writer.file.content ++ encodeLog (trace s.tree batch) := by
  by_cases h0 : batch = []
  · subst h0
    exact ⟨by simp [Accepts, trace], rfl, hw, by simp [commitBatch, trace, encodeLog]⟩
  have hflush := flush_of_results h0 fun r hr => by rw [h r hr]; rfl
  rw [commitBatch_eq s h0, hflush] at h
  rw [commitBatch_eq s h0]
  obtain ⟨hideal, hflushed⟩ := commitLoop_flushed hw hflush
  rcases accepts_or_rejects s.tree batch with ha | ⟨pre, op, post, x, rfl, ha, hx⟩
  · rw [runBatch_accepts ha] at hideal
    obtain ⟨hs, -⟩ := Prod.mk.inj hideal
    obtain ⟨ht, hlog⟩ := Session.mk.inj hs
    exact ⟨ha, ht.symm, hflushed, hlog.symm⟩
  · rw [runBatch_rejects ha hx, Nat.zero_add] at hideal
    obtain ⟨-, he⟩ := Prod.mk.inj hideal
    rw [← he, Option.map_none, length_append, map_delivered_some] at h
    have hlast := h (some (.append x.1 .capacityExceeded)) (by simp)
    cases hlast

end Kdns.Storage
