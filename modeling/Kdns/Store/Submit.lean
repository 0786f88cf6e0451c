import Kdns.Store.Serial

namespace Kdns.Storage

open ByteStream BufferedFile Dns Radix Wal List

inductive Service where
  | served
  | queueFull
  | closed
  | abandoned
  deriving DecidableEq, Repr

inductive SubmitError where
  | commit (e : StoreError)
  | mutationQueueFull
  | closed
  deriving DecidableEq, Repr

def submit (s : Session Writer) (op : Op) : Service → Session Writer × Option SubmitError
  | .served => ((commitBatch s [op]).1, (commitBatch s [op]).2.head?.join.map .commit)
  | .queueFull => (s, some .mutationQueueFull)
  | .closed => (s, some .closed)
  | .abandoned => ((commitBatch s [op]).1, some .closed)

theorem commitBatch_single (s : Session Writer) (op : Op) : commitBatch s [op] =
      (⟨(logAndApply append s (effects s.tree op)).1.tree,
          (Wal.flush (logAndApply append s (effects s.tree op)).1.writer).1⟩,
        [delivered ((Wal.flush (logAndApply append s (effects s.tree op)).1.writer).2.map .flush)
          ((logAndApply append s (effects s.tree op)).2.map (Prod.mk 0)) 0]) := by
  rw [commitBatch, if_neg (cons_ne_nil _ _), commitLoop_eq, runBatch]
  rcases logAndApply append s (effects s.tree op) with ⟨s', _ | e⟩ <;> rfl

theorem submit_served_none {s : Session Writer} {op : Op} (h : (submit s op .served).2 = none) :
    (logAndApply append s (effects s.tree op)).2 = none := by
  rw [submit, commitBatch_single] at h
  rcases hlog : logAndApply append s (effects s.tree op) with ⟨s', _ | e⟩
  · rfl
  · rw [hlog] at h
    cases hflush : (Wal.flush s'.writer).2 <;> simp [delivered, hflush] at h

section Idle

def Idle (t : Tree) (op : Op) : Prop := (writeOf op).2 = t.contents (writeOf op).1

def Quiet (t : Tree) (ops : List Op) : Prop :=
  ∀ op ∈ (ops.flatMap fun op => (effects t op).map Prod.snd).takeWhile withinLimits, Idle t op

variable {t : Tree} (ht : t.Valid)

theorem append_ok {w : Writer} {op : Op} (h : (append w op).2 = none) : withinLimits op = true := by
  have hc := append_cases w op
  generalize (append w op).1 = w' at hc
  rw [h] at hc
  cases hc
  assumption

include ht

theorem applyOp_idle {op : Op} (h : Idle t op) : applyOp t op = t := by
  obtain ⟨hv, hc⟩ := applyOp_spec ht op
  apply Tree.ext_contents hv ht
  rw [hc, Overwrite.put, h, Function.update_eq_self]

theorem logAndApply_idle (w : Writer) (xs : List (Stage × Op))
    (h : ∀ op ∈ (xs.map Prod.snd).takeWhile withinLimits, Idle t op) : (logAndApply append ⟨t, w⟩ xs).1.tree = t ∧
      ((logAndApply append ⟨t, w⟩ xs).2 = none → ∀ op ∈ xs.map Prod.snd, withinLimits op = true) := by
  induction xs generalizing w with
  | nil => exact ⟨rfl, fun _ => by simp⟩
  | cons x xs ih =>
    obtain ⟨stage, op⟩ := x
    rw [logAndApply]
    rcases happend : append w op with ⟨w', _ | e⟩
    · have hl := append_ok (w := w) (by rw [happend])
      rw [map_cons, takeWhile_cons_of_pos hl, forall_mem_cons] at h
      rw [map_cons, forall_mem_cons]
      rw [applyOp_idle ht h.1]
      obtain ⟨htree, hall⟩ := ih w' h.2
      exact ⟨htree, fun hnone => ⟨hl, hall hnone⟩⟩
    · exact ⟨rfl, fun hnone => by cases hnone⟩

theorem submit_quiet {op : Op} {ops : List Op} (h : Quiet t (op :: ops)) (w : Writer) (service : Service) :
    (submit ⟨t, w⟩ op service).1.tree = t ∧ ((submit ⟨t, w⟩ op service).2 = none → Quiet t ops) := by
  rw [Quiet, flatMap_cons, takeWhile_append] at h
  have hhead : ∀ op' ∈ ((effects t op).map Prod.snd).takeWhile withinLimits, Idle t op' := by
    intro op' hop'
    apply h op'
    split_ifs with hall
    · have hself := takeWhile_prefix _ |>.eq_of_length hall
      rw [hself] at hop'
      exact mem_append_left _ hop'
    · exact hop'
  obtain ⟨htree, hlimits⟩ := logAndApply_idle ht w (effects t op) hhead
  cases service with
  | served =>
    refine ⟨by rw [submit, commitBatch_single]; exact htree, fun hnone => ?_⟩
    have hall := hlimits (submit_served_none hnone)
    rw [if_pos (by rw [takeWhile_eq_self_iff.mpr hall])] at h
    exact fun op' hop' => h op' (mem_append_right _ hop')
  | queueFull => exact ⟨rfl, fun hnone => by cases hnone⟩
  | closed => exact ⟨rfl, fun hnone => by cases hnone⟩
  | abandoned => exact ⟨by rw [submit, commitBatch_single]; exact htree, fun hnone => by cases hnone⟩

end Idle

section Disturbed

theorem flush_healthy {w : Writer} (h : w.Healthy) : (Wal.flush w).2 = none ∧ (Wal.flush w).1.Healthy := by
  obtain ⟨hok, hfailed, hfaults⟩ := w.flush_healthy h
  unfold Wal.flush File.sync BufWriter.Healthy
  simp only [hok, if_true]
  cases hf : w.flush.1.file.faults with
  | nil => simpa [hf] using hfailed
  | cons x xs =>
    rw [hf, forall_mem_cons] at hfaults
    rw [hfaults.1]
    exact ⟨rfl, hfailed, hfaults.2⟩

theorem logAndApply_healthy (t : Tree) {w : Writer} (h : w.Healthy) (xs : List (Stage × Op)) :
    (logAndApply append ⟨t, w⟩ xs).1.tree = applyOps t ((xs.map Prod.snd).takeWhile withinLimits) ∧
      (logAndApply append ⟨t, w⟩ xs).1.writer.Healthy ∧
      ((∀ op ∈ xs.map Prod.snd, withinLimits op = true) → (logAndApply append ⟨t, w⟩ xs).2 = none) := by
  induction xs generalizing t w with
  | nil => exact ⟨rfl, h, fun _ => rfl⟩
  | cons x xs ih =>
    obtain ⟨stage, op⟩ := x
    rw [logAndApply, map_cons, forall_mem_cons]
    have hhealthy := append_healthy w op h
    rcases happend : append w op with ⟨w', _ | e⟩
    · have hl := append_ok (w := w) (by rw [happend])
      rw [happend] at hhealthy
      rw [takeWhile_cons_of_pos hl]
      obtain ⟨htree, hw, hnone⟩ := ih (applyOp t op) hhealthy
      exact ⟨htree, hw, fun hall => hnone hall.2⟩
    · have hl : withinLimits op = false := by
        by_contra hl
        have hnone := (append_within w op h (by simpa using hl)).1
        rw [happend] at hnone
        cases hnone
      rw [happend] at hhealthy
      rw [takeWhile_cons_of_neg (by simp [hl])]
      exact ⟨rfl, hhealthy, fun hall => by rw [hl] at hall; cases hall.1⟩

variable {t : Tree} (ht : t.Valid)

include ht

theorem effects_nodup (op : Op) : (((effects t op).map Prod.snd).map fun op => (writeOf op).1).Nodup := by
  rw [effects_ops, map_append]
  cases hz : zoneBump t op.domain op.records with
  | none => simp
  | some b =>
    obtain ⟨name, updated, rfl, -, hne, -⟩ := zoneBump_some ht hz
    have hpaths : (writeOf (.upsert name updated)).1 ≠ (writeOf (bumpOp op)).1 := by
      rw [writeOf_domain, writeOf_domain, bumpOp_domain]
      exact hne
    simpa using hpaths

theorem applyOps_disturbed {op b : Op} (hb : b ∈ ((effects t op).map Prod.snd).takeWhile withinLimits) (hidle : ¬Idle t b) :
    (applyOps t (((effects t op).map Prod.snd).takeWhile withinLimits)).get b.domain ≠ t.get b.domain := by
  have hnodup : ((((effects t op).map Prod.snd).takeWhile withinLimits).map writeOf |>.map Prod.fst).Nodup := by
    rw [map_map]
    exact (effects_nodup ht op).sublist ((takeWhile_sublist _).map _)
  have hvalue := Overwrite.replay_mem hnodup (mem_map.mpr ⟨b, hb, rfl⟩) t.contents
  rw [← (applyOps_spec ht _).2] at hvalue
  intro hsame
  apply hidle
  rw [Idle, ← hvalue, writeOf_domain]
  exact hsame

end Disturbed

end Kdns.Storage
