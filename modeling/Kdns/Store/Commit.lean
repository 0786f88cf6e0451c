import Kdns.Store.Apply

namespace Kdns.Storage

open ByteStream BufferedFile Dns Radix Wal List

def commitLoop (s : Session Writer) : List Op → ℕ → Session Writer × Option (ℕ × StoreError)
  | [], _ => (s, none)
  | op :: ops, i =>
    match applyOperation s op with
    | (s', some e) => (s', some (i, e))
    | (s', none) => commitLoop s' ops (i + 1)

def delivered (flushErr : Option StoreError) (walErr : Option (ℕ × StoreError)) (i : ℕ) : Option StoreError :=
  match flushErr, walErr with
  | some e, _ => some e
  | none, some (failedIndex, e) => if i ≥ failedIndex then some e else none
  | none, none => none

theorem map_delivered_flush (n : ℕ) (e : StoreError) (walErr : Option (ℕ × StoreError)) :
    (range n).map (delivered (some e) walErr) = replicate n (some e) := by
  refine eq_replicate_iff.mpr ⟨by simp, fun r hr => ?_⟩
  obtain ⟨i, -, rfl⟩ := mem_map.mp hr
  simp [delivered]

theorem map_delivered_none (n : ℕ) : (range n).map (delivered none none) = replicate n none := by
  refine eq_replicate_iff.mpr ⟨by simp, fun r hr => ?_⟩
  obtain ⟨i, -, rfl⟩ := mem_map.mp hr
  rfl

theorem map_delivered_some (m n : ℕ) (e : StoreError) :
    (range (m + n)).map (delivered none (some (m, e))) = replicate m none ++ replicate n (some e) := by
  rw [range_add, map_append]
  congr 1
  · refine eq_replicate_iff.mpr ⟨by simp, fun r hr => ?_⟩
    obtain ⟨i, hi, rfl⟩ := mem_map.mp hr
    simpa [delivered] using hi
  · refine eq_replicate_iff.mpr ⟨by simp, fun r hr => ?_⟩
    simp only [map_map, mem_map, Function.comp_apply] at hr
    obtain ⟨i, -, rfl⟩ := hr
    simp [delivered]

def commitBatch (s : Session Writer) (batch : List Op) : Session Writer × List (Option StoreError) :=
  if batch = [] then (s, [])
  else
    let r := commitLoop s batch 0
    let f := Wal.flush r.1.writer
    (⟨r.1.tree, f.1⟩, (range batch.length).map (delivered (f.2.map .flush) r.2))

theorem commitBatch_length (s : Session Writer) (batch : List Op) : (commitBatch s batch).2.length = batch.length := by
  by_cases h0 : batch = []
  · subst h0
    rfl
  · simp [commitBatch, h0]

def commitAll (s : Session Writer) : List (List Op) → Session Writer × List (Option StoreError)
  | [] => (s, [])
  | batch :: batches =>
    let r := commitBatch s batch
    let rs := commitAll r.1 batches
    (rs.1, r.2 ++ rs.2)

theorem commitAll_append (s : Session Writer) (xs ys : List (List Op)) : commitAll s (xs ++ ys) =
      ((commitAll (commitAll s xs).1 ys).1, (commitAll s xs).2 ++ (commitAll (commitAll s xs).1 ys).2) := by
  induction xs generalizing s with
  | nil => rfl
  | cons x xs ih =>
    rw [cons_append, commitAll, commitAll, ih]
    simp only [append_assoc]

theorem commitAll_length (s : Session Writer) (batches : List (List Op)) :
    (commitAll s batches).2.length = batches.flatten.length := by
  induction batches generalizing s with
  | nil => rfl
  | cons batch batches ih =>
    rw [commitAll, length_append, flatten_cons, length_append, ih, commitBatch_length]

section Log

variable {W W' : Type} (append : W → Op → W × Option WalError) (append' : W' → Op → W' × Option WalError)

def runBatch (s : Session W) : List Op → ℕ → Session W × Option (ℕ × StoreError)
  | [], _ => (s, none)
  | op :: ops, i =>
    match logAndApply append s (effects s.tree op) with
    | (s', some e) => (s', some (i, e))
    | (s', none) => runBatch s' ops (i + 1)

variable {append append'} {abs : W → W'} {P : W → Prop}
  (hstep : ∀ w op, P (append w op).1 → append' (abs w) op = (abs (append w op).1, (append w op).2))
  (hback : ∀ w op, P (append w op).1 → P w)

include hback

theorem logAndApply_back {s : Session W} {xs : List (Stage × Op)} (h : P (logAndApply append s xs).1.writer) :
    P s.writer := by
  induction xs generalizing s with
  | nil => exact h
  | cons x xs ih =>
    obtain ⟨stage, op⟩ := x
    rw [logAndApply] at h
    rcases hop : append s.writer op with ⟨w, _ | e⟩
    · rw [hop] at h
      exact hback _ op (by rw [hop]; exact ih h)
    · rw [hop] at h
      exact hback _ op (by rw [hop]; exact h)

include hstep

theorem logAndApply_sim {s : Session W} {xs : List (Stage × Op)} (h : P (logAndApply append s xs).1.writer) :
    logAndApply append' ⟨s.tree, abs s.writer⟩ xs =
      (⟨(logAndApply append s xs).1.tree, abs (logAndApply append s xs).1.writer⟩, (logAndApply append s xs).2) := by
  induction xs generalizing s with
  | nil => rfl
  | cons x xs ih =>
    obtain ⟨stage, op⟩ := x
    rw [logAndApply] at h ⊢
    rw [logAndApply]
    have hs := hstep s.writer op
    rcases hop : append s.writer op with ⟨w, _ | e⟩
    · rw [hop] at h hs
      rw [hs (logAndApply_back hback h)]
      exact ih h
    · rw [hop] at h hs
      rw [hs h]

theorem runBatch_sim {s : Session W} {ops : List Op} {i : ℕ} (h : P (runBatch append s ops i).1.writer) :
    runBatch append' ⟨s.tree, abs s.writer⟩ ops i =
      (⟨(runBatch append s ops i).1.tree, abs (runBatch append s ops i).1.writer⟩, (runBatch append s ops i).2) ∧
    P s.writer := by
  induction ops generalizing s i with
  | nil => exact ⟨rfl, h⟩
  | cons op ops ih =>
    have hsim : P (logAndApply append s (effects s.tree op)).1.writer → _ := logAndApply_sim hstep hback
    have hpast : P (logAndApply append s (effects s.tree op)).1.writer → _ := logAndApply_back hback
    rw [runBatch] at h ⊢
    rw [runBatch]
    rcases hop : logAndApply append s (effects s.tree op) with ⟨s', _ | e⟩
    · rw [hop] at h hsim hpast
      obtain ⟨he, hs'⟩ := ih h
      rw [hsim hs']
      exact ⟨he, hpast hs'⟩
    · grind

end Log

theorem commitLoop_eq (s : Session Writer) (ops : List Op) (i : ℕ) : commitLoop s ops i = runBatch append s ops i := by
  induction ops generalizing s i with
  | nil => rfl
  | cons op ops ih =>
    rw [commitLoop, runBatch, applyOperation_eq]
    rcases logAndApply append s (effects s.tree op) with ⟨s', _ | e⟩
    · exact ih s' (i + 1)
    · rfl

def outcome (op : Op) : Bytes × Option WalError :=
  if withinLimits op then (encodeOp op, none)
  else if tooLarge op then ([], some .capacityExceeded)
  else ([opUpsert], some .capacityExceeded)

def idealAppend (log : Bytes) (op : Op) : Bytes × Option WalError := (log ++ (outcome op).1, (outcome op).2)

theorem append_ideal (w : Writer) (op : Op) (h : (append w op).1.failed = false) :
    idealAppend w.log op = ((append w op).1.log, (append w op).2) := by
  have hc := append_cases w op
  generalize (append w op).1 = w' at h hc ⊢
  generalize (append w op).2 = r at hc ⊢
  unfold idealAppend outcome
  cases hc with
  | refused ht =>
    have hl : withinLimits op = false := by
      by_contra hl
      rw [not_tooLarge_of_withinLimits (by simpa using hl)] at ht
      cases ht
    simp [hl, ht]
  | stray _ ht hl hlog hf => simp [hl, ht, hlog]
  | logged _ hl hlog hf => simp [hl, hlog]
  | broken _ _ _ _ _ _ _ hf => rw [h] at hf; cases hf

theorem append_failed (w : Writer) (op : Op) (h : w.failed = true) : (append w op).1 = w := by
  cases op with
  | upsert domain rs =>
    simp only [append, appendUpsert, w.write_failed _ h, Bool.false_eq_true, if_false]
    split_ifs <;> rfl
  | delete domain =>
    simp only [append, appendDelete, w.write_failed _ h, reportWrite]
    split_ifs <;> rfl

theorem append_back (w : Writer) (op : Op) (h : (append w op).1.failed = false) : w.failed = false := by
  by_contra hf
  rw [append_failed w op (by simpa using hf)] at h
  exact hf h

theorem commitLoop_ideal {s : Session Writer} {ops : List Op} {i : ℕ}
    (h : (commitLoop s ops i).1.writer.failed = false) : runBatch idealAppend ⟨s.tree, s.writer.log⟩ ops i =
      (⟨(commitLoop s ops i).1.tree, (commitLoop s ops i).1.writer.log⟩, (commitLoop s ops i).2) := by
  rw [commitLoop_eq] at h ⊢
  exact (runBatch_sim (P := fun w : Writer => w.failed = false) append_ideal append_back h).1

theorem flush_none {w : Writer} (h : (Wal.flush w).2 = none) :
    w.failed = false ∧ (Wal.flush w).1.file.content = w.log ∧ (Wal.flush w).1.buf = [] ∧
      (Wal.flush w).1.failed = false := by
  unfold Wal.flush at h ⊢
  cases hr : w.flush.2 with
  | false => simp [hr] at h
  | true =>
    obtain ⟨hc, hb, hf⟩ := w.flush_ok hr
    simp only [hr, if_true, BufWriter.file_sync_content]
    exact ⟨w.flush_back hr, hc, hb, hf⟩

end Kdns.Storage
