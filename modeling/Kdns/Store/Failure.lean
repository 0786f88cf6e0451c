import Kdns.Store.Recovery

namespace Kdns.Storage

open ByteStream BufferedFile Dns Codec Radix Wal Snapshot List

def appendEach (w : Writer) : List Op → Writer × List Op × Option WalError
  | [] => (w, [], none)
  | op :: ops =>
    match append w op with
    | (w', some e) => (w', [], some e)
    | (w', none) =>
      let r := appendEach w' ops
      (r.1, op :: r.2.1, r.2.2)

theorem appendEach_done {w : Writer} {ops : List Op} (h : (appendEach w ops).2.2 = none) :
    (appendEach w ops).2.1 = ops := by
  induction ops generalizing w with
  | nil => rfl
  | cons op ops ih =>
    rw [appendEach] at h ⊢
    rcases ha : append w op with ⟨w', _ | e⟩ <;> rw [ha] at h
    · exact congrArg (cons op) (ih h)
    · cases h

theorem appendEach_append (w : Writer) (xs ys : List Op) : appendEach w (xs ++ ys) =
      if (appendEach w xs).2.2 = none then
        ((appendEach (appendEach w xs).1 ys).1, xs ++ (appendEach (appendEach w xs).1 ys).2.1,
          (appendEach (appendEach w xs).1 ys).2.2)
      else appendEach w xs := by
  induction xs generalizing w with
  | nil => rfl
  | cons x xs ih =>
    rw [cons_append, appendEach, appendEach]
    rcases append w x with ⟨w', _ | e⟩
    · dsimp only
      rw [ih w']
      split_ifs <;> rfl
    · rfl

theorem logAndApply_appendEach (s : Session Writer) (xs : List (Stage × Op)) :
    (logAndApply append s xs).1 = ⟨applyOps s.tree (appendEach s.writer (xs.map Prod.snd)).2.1,
      (appendEach s.writer (xs.map Prod.snd)).1⟩ ∧
    ((logAndApply append s xs).2 = none ↔ (appendEach s.writer (xs.map Prod.snd)).2.2 = none) := by
  induction xs generalizing s with
  | nil => simp [logAndApply, appendEach, applyOps]
  | cons x xs ih =>
    obtain ⟨stage, op⟩ := x
    rw [logAndApply, map_cons, appendEach]
    rcases append s.writer op with ⟨w, _ | e⟩
    · exact ih ⟨applyOp s.tree op, w⟩
    · exact ⟨rfl, by simp⟩

theorem commitLoop_appendEach (s : Session Writer) (ops : List Op) (i : ℕ) :
    (commitLoop s ops i).1 = ⟨applyOps s.tree (appendEach s.writer (trace s.tree ops)).2.1,
      (appendEach s.writer (trace s.tree ops)).1⟩ := by
  rw [commitLoop_eq]
  induction ops generalizing s i with
  | nil => rfl
  | cons op ops ih =>
    obtain ⟨hs, he⟩ := logAndApply_appendEach s (effects s.tree op)
    rw [runBatch, trace, appendEach_append]
    rcases hx : logAndApply append s (effects s.tree op) with ⟨s', _ | e⟩ <;> rw [hx] at hs he
    · have hnone := he.mp rfl
      rw [appendEach_done hnone] at hs
      rw [if_pos hnone, applyOps_append]
      subst hs
      exact ih _ (i + 1)
    · rw [if_neg (mt he.mpr (by simp))]
      exact hs

theorem torn_upsert : Torn [opUpsert] :=
  ⟨.upsert [] [], ⟨⟨by decide, by decide, by simp⟩, by decide⟩, by decide +kernel, by decide +kernel⟩

theorem torn_of_prefix_torn {q q' : Bytes} (hq : Torn q) (h : q' <+: q) : Torn q' := by
  obtain ⟨op, hop, hp, hne⟩ := hq
  refine ⟨op, hop, h.trans hp, ?_⟩
  rintro rfl
  exact hne (hp.eq_of_length_le h.length_le)

theorem append_torn (w : Writer) {op : Op} (hwf : WellFormed op) {e : WalError} (h : (append w op).2 = some e) :
    ∃ junk, Torn junk ∧ (append w op).1.log = w.log ++ junk := by
  have hc := append_cases w op
  rw [h] at hc
  generalize (append w op).1 = w' at hc ⊢
  cases hc with
  | refused ht => exact ⟨[], torn_nil, by simp⟩
  | stray _ ht hl hlog hf => exact ⟨_, torn_upsert, hlog⟩
  | broken _ stage q hl hq hne hlog hf =>
    rcases hl with hl | rfl
    · exact ⟨q, ⟨op, replayable_of_withinLimits hl hwf, hq, hne⟩, hlog⟩
    · exact ⟨[], torn_nil, hlog⟩

theorem append_extends (w : Writer) (op : Op) : w.file.content <+: (append w op).1.file.content := by
  cases op with
  | upsert domain rs =>
    simp only [append, appendUpsert]
    split_ifs
    · apply prefix_refl
    · split
      · apply w.write_extends
      · apply w.write_extends
      · split_ifs
        · exact ((w.write_extends _).trans (BufWriter.write_extends _ _)).trans (BufWriter.write_extends _ _)
        · exact (w.write_extends _).trans (BufWriter.write_extends _ _)
    · apply w.write_extends
  | delete domain =>
    simp only [append, appendDelete]
    split_ifs
    · apply prefix_refl
    · apply w.write_extends

structure Stopped (w w' : Writer) (logged : List Op) : Prop where
  replayable : ∀ op ∈ logged, Replayable op
  log_eq : ∃ junk, Torn junk ∧ w'.log = w.log ++ (encodeLog logged ++ junk)
  kept : w.file.content <+: w'.file.content

theorem Stopped.refl (w : Writer) : Stopped w w [] :=
  ⟨by simp, ⟨[], torn_nil, by simp [encodeLog]⟩, prefix_refl _⟩

theorem Stopped.append {w w' w'' : Writer} {xs ys : List Op} (hr : ∀ op ∈ xs, Replayable op)
    (hlog : w'.log = w.log ++ encodeLog xs) (hk : w.file.content <+: w'.file.content) (h : Stopped w' w'' ys) :
    Stopped w w'' (xs ++ ys) := by
  obtain ⟨junk, hj, hlog'⟩ := h.log_eq
  refine ⟨forall_mem_append.mpr ⟨hr, h.replayable⟩, ⟨junk, hj, ?_⟩, hk.trans h.kept⟩
  rw [hlog', hlog, encodeLog_append]
  simp

theorem appendEach_stopped (w : Writer) {ops : List Op} (hwf : ∀ op ∈ ops, WellFormed op) :
    Stopped w (appendEach w ops).1 (appendEach w ops).2.1 ∧
      ((appendEach w ops).2.2 = none → (appendEach w ops).1.log = w.log ++ encodeLog ops) := by
  induction ops generalizing w with
  | nil => exact ⟨.refl w, fun _ => by simp [appendEach, encodeLog]⟩
  | cons op ops ih =>
    obtain ⟨hop, hops⟩ := forall_mem_cons.mp hwf
    have hk := append_extends w op
    rw [appendEach]
    rcases ha : append w op with ⟨w', _ | e⟩ <;> rw [ha] at hk
    · obtain ⟨hl, hlog, -⟩ := append_none (show (append w op).2 = none by rw [ha])
      obtain ⟨hstop, hall⟩ := ih w' hops
      have hone : w'.log = w.log ++ encodeLog [op] := by simpa [ha, encodeLog] using hlog
      have hr : ∀ op' ∈ [op], Replayable op' := by simpa using replayable_of_withinLimits hl hop
      refine ⟨.append hr hone hk hstop, fun he => ?_⟩
      rw [hall he, hone, append_assoc, ← encodeLog_append]
      rfl
    · obtain ⟨junk, hj, hlog⟩ := append_torn w hop (by rw [ha])
      rw [ha] at hlog
      exact ⟨⟨by simp, ⟨junk, hj, by simpa [encodeLog] using hlog⟩, hk⟩, fun he => by cases he⟩

theorem trace_stopped {t : Tree} (h : Sound t) (w : Writer) {ops : List Op} (hwf : ∀ op ∈ ops, WellFormed op) :
    Stopped w (appendEach w (trace t ops)).1 (appendEach w (trace t ops)).2.1 := by
  induction ops generalizing t w with
  | nil => exact .refl w
  | cons op ops ih =>
    obtain ⟨hop, hops⟩ := forall_mem_cons.mp hwf
    have heff : ∀ op' ∈ (effects t op).map Prod.snd, WellFormed op' := by
      simpa only [forall_mem_map] using effects_wellFormed h hop
    obtain ⟨hstop, hall⟩ := appendEach_stopped w heff
    rw [trace, appendEach_append]
    split_ifs with he
    · have hr := hstop.replayable
      rw [appendEach_done he] at hr
      have hsound : Sound (mutate t op) := sound_applyOps h fun op' hop' => storable_of_replayable (hr op' hop')
      exact .append hr (hall he) hstop.kept (ih hsound _ hops)
    · exact hstop

theorem flush_between (w : Writer) :
    w.file.content <+: (Wal.flush w).1.file.content ∧ (Wal.flush w).1.file.content <+: w.log := by
  have hp := w.flush_extends
  have hl : w.flush.1.file.content <+: w.log := by
    rw [← w.flush_log, BufWriter.log]
    apply prefix_append
  unfold Wal.flush
  dsimp only
  split_ifs <;> simp only [BufWriter.file_sync_content] <;> exact ⟨hp, hl⟩

theorem replay_prefix_nil {logged : List Op} (hr : ∀ op ∈ logged, Replayable op) {junk z : Bytes} (hj : Torn junk)
    (hz : z <+: encodeLog logged ++ junk) :
    (replay z .eof).1 = [] ↔ ∀ op ∈ logged.head?, z.length < (encodeOp op).length := by
  have hnil : ∀ {q}, Torn q → (replay q .eof).1 = [] := by
    intro q hq
    exact congrArg Prod.fst (replay_encodeLog_torn [] (by simp) q hq)
  cases logged with
  | nil => simpa using hnil (torn_of_prefix_torn hj hz)
  | cons op ops =>
    have hop := hr op mem_cons_self
    rw [encodeLog, flatMap_cons, append_assoc] at hz
    simp only [head?_cons, Option.mem_def, Option.some.injEq, forall_eq']
    constructor
    · intro h0
      by_contra hlen
      obtain ⟨z', rfl⟩ := prefix_of_prefix_length_le (prefix_append _ _) hz (not_lt.mp hlen)
      have := replay_encodeLog_append [op] (by simpa using hop) z' .eof
      rw [show encodeLog [op] = encodeOp op by simp [encodeLog]] at this
      rw [this] at h0
      cases h0
    · intro hlen
      have hp := prefix_of_prefix_length_le hz (prefix_append _ _) hlen.le
      exact hnil ⟨op, hop, hp, fun he => by rw [he] at hlen; exact lt_irrefl _ hlen⟩

section Delivered

variable {ε : Type}

theorem succeeded_none (xs ys : List Op) (rs : List (Option ε)) :
    succeeded (xs ++ ys) (replicate xs.length none ++ rs) = xs ++ succeeded ys rs := by
  induction xs with
  | nil => rfl
  | cons x xs ih => simp only [cons_append, length_cons, replicate_succ, succeeded, ih]

theorem succeeded_all (xs : List Op) : succeeded xs (replicate xs.length (none : Option ε)) = xs := by
  simpa [succeeded] using succeeded_none xs [] ([] : List (Option ε))

theorem succeeded_some (xs : List Op) (e : ε) : succeeded xs (replicate xs.length (some e)) = [] := by
  induction xs with
  | nil => rfl
  | cons x xs ih => simp only [length_cons, replicate_succ, succeeded, ih]

end Delivered

def failedEntries (t : Tree) : List Op → List Op
  | [] => []
  | op :: ops => if (rejected (effects t op)).isNone then failedEntries (mutate t op) ops else accepted (effects t op)

theorem failedEntries_append {t : Tree} {pre : List Op} (h : Accepts t pre) (post : List Op) :
    failedEntries t (pre ++ post) = failedEntries (mutateAll t pre) post := by
  induction pre generalizing t with
  | nil => rfl
  | cons op pre ih =>
    obtain ⟨hr, ha⟩ := accepts_cons.mp h
    rw [cons_append, failedEntries, hr]
    exact ih ha

def Reported (s : Session Writer) (batch : List Op) : Prop :=
  let r := commitBatch s batch
  let acked := succeeded batch r.2
  r.1.tree.contents = (mutateAll s.tree acked).contents ∧
    (replay r.1.writer.file.content .eof).1 = (replay s.writer.file.content .eof).1 ++ trace s.tree acked

theorem debris_torn (xs : List (Stage × Op)) : Torn (debris xs) := by
  unfold debris
  cases hx : rejected xs with
  | none => exact torn_nil
  | some x =>
    have hl : withinLimits x.2 = false := by simpa [rejected] using find?_some hx
    simp only [Option.elim_some, outcome, hl, Bool.false_eq_true, if_false]
    split_ifs
    · exact torn_nil
    · exact torn_upsert

theorem accepted_replayable {t : Tree} (h : Sound t) {op : Op} (hop : WellFormed op) :
    ∀ op' ∈ accepted (effects t op), Replayable op' := by
  intro op' hop'
  obtain ⟨x, hx, rfl⟩ := mem_map.mp hop'
  have hl : withinLimits x.2 = true := by simpa using mem_takeWhile_imp hx
  exact replayable_of_withinLimits hl (effects_wellFormed h hop x ((takeWhile_sublist _).subset hx))

section Report

variable {s : Session Writer} {batch : List Op} (hsound : Sound s.tree) (hw : Flushed s.writer) {prior : List Op}
  (hlog : replay s.writer.file.content .eof = (prior, none)) (hwf : ∀ op ∈ batch, WellFormed op)

include hsound hw hlog hwf

theorem reported_flushed_iff (h0 : batch ≠ []) (hflush : (Wal.flush (commitLoop s batch 0).1.writer).2 = none) :
    Reported s batch ↔ failedEntries s.tree batch = [] := by
  obtain ⟨hideal, -⟩ := commitLoop_flushed hw hflush
  rw [Reported, commitBatch_eq s h0, hflush, hlog, Option.map_none]
  rcases accepts_or_rejects s.tree batch with ha | ⟨pre, op, post, x, rfl, ha, hx⟩
  · rw [runBatch_accepts ha] at hideal
    obtain ⟨hs, he⟩ := Prod.mk.inj hideal
    obtain ⟨ht, hc⟩ := Session.mk.inj hs
    have hfail : failedEntries s.tree batch = [] := by simpa [failedEntries] using failedEntries_append ha []
    rw [← he, ← ht, ← hc, map_delivered_none, succeeded_all, replay_append hlog (trace_wellFormed hsound hwf ha).1, hfail]
    simp
  · obtain ⟨hwf₁, hwf₂⟩ := forall_mem_append.mp hwf
    obtain ⟨htrace, hsound'⟩ := trace_wellFormed hsound hwf₁ ha
    have hacc := accepted_replayable hsound' (forall_mem_cons.mp hwf₂).1
    have hfail : failedEntries s.tree (pre ++ op :: post) = accepted (effects (mutateAll s.tree pre) op) := by
      rw [failedEntries_append ha, failedEntries, hx]
      rfl
    rw [runBatch_rejects ha hx, Nat.zero_add] at hideal
    obtain ⟨hs, he⟩ := Prod.mk.inj hideal
    obtain ⟨ht, hc⟩ := Session.mk.inj hs
    rw [← he, ← ht, ← hc, length_append, map_delivered_some, succeeded_none, succeeded_some,
      append_nil, hfail]
    rw [replay_append_torn (replay_append hlog htrace) hacc (debris_torn _), append_right_eq_self]
    refine ⟨And.right, fun hA => ⟨?_, hA⟩⟩
    rw [hA]
    rfl

theorem reported_broken_iff (h0 : batch ≠ []) {e : WalError}
    (hflush : (Wal.flush (commitLoop s batch 0).1.writer).2 = some e) :
    let r := appendEach s.writer (trace s.tree batch)
    Reported s batch ↔ (applyOps s.tree r.2.1).contents = s.tree.contents ∧
      ∀ op ∈ r.2.1.head?, (Wal.flush r.1).1.file.content.length < s.writer.file.content.length + (encodeOp op).length := by
  intro r
  have hstop : Stopped s.writer r.1 r.2.1 := trace_stopped hsound s.writer hwf
  obtain ⟨junk, hj, hl⟩ := hstop.log_eq
  obtain ⟨hlow, hhigh⟩ := flush_between r.1
  obtain ⟨z, hz⟩ := hstop.kept.trans hlow
  have hzp : z <+: encodeLog r.2.1 ++ junk := by
    rw [hl, hw.log, ← hz] at hhigh
    exact (prefix_append_right_inj _).mp hhigh
  have hread : (replay (s.writer.file.content ++ z) .eof).1 = prior ++ (replay z .eof).1 :=
    congrArg Prod.fst (FramedLog.readAll_append frames _ z .eof [] prior hlog)
  rw [Reported, commitBatch_eq s h0, hflush, hlog, Option.map_some, map_delivered_flush, succeeded_some,
    commitLoop_appendEach]
  rw [show appendEach s.writer (trace s.tree batch) = r from rfl, ← hz, hread, trace, append_nil,
    append_right_eq_self, replay_prefix_nil hstop.replayable hj hzp, length_append]
  simp only [Nat.add_lt_add_iff_left]
  rfl

end Report

theorem reported_iff (s : Session Writer) (batch : List Op) (hsound : Sound s.tree) (hw : Flushed s.writer)
    (prior : List Op) (hlog : replay s.writer.file.content .eof = (prior, none)) (hwf : ∀ op ∈ batch, WellFormed op) :
    let r := appendEach s.writer (trace s.tree batch)
    Reported s batch ↔
      if batch = [] ∨ (Wal.flush r.1).2 = none then failedEntries s.tree batch = []
      else (applyOps s.tree r.2.1).contents = s.tree.contents ∧
        ∀ op ∈ r.2.1.head?, (Wal.flush r.1).1.file.content.length < s.writer.file.content.length + (encodeOp op).length := by
  intro r
  by_cases h0 : batch = []
  · subst h0
    simp [Reported, commitBatch, succeeded, trace, mutateAll, failedEntries]
  have hw' : (commitLoop s batch 0).1.writer = r.1 := by rw [commitLoop_appendEach]
  cases hf : (Wal.flush r.1).2 with
  | none =>
    rw [if_pos (.inr rfl)]
    exact reported_flushed_iff hsound hw hlog hwf h0 (by rw [hw']; exact hf)
  | some e =>
    rw [if_neg (by simp [h0])]
    exact reported_broken_iff hsound hw hlog hwf h0 (by rw [hw']; exact hf)

theorem reported_iff_refused :
    let batch := [.upsert [0x61] [⟨[[1, 2, 3, 4]], 300, 1, classIN⟩],
      .upsert [0x62] [⟨replicate 4097 [1, 2, 3, 4], 300, 1, classIN⟩]]
    (commitBatch emptyStore.session batch).2 = [none, some (.append .appendUpsert .capacityExceeded)] ∧
      Reported emptyStore.session batch := by
  intro batch
  refine ⟨by decide +kernel, (reported_iff emptyStore.session batch sound_new ⟨rfl, rfl⟩ [] rfl (by decide)).mpr ?_⟩
  rw [if_pos (by decide +kernel)]
  decide +kernel

theorem rejected_upsert_bumps_zone :
    let soa (serial : UInt8) : RRSets := [⟨[[0, 0, 0, 0, 0, serial] ++ replicate 16 0], 300, typeSOA, classIN⟩]
    let z : Bytes := [0x7A]
    let s : Session Writer := ⟨Tree.new.upsert z (soa 7), BufWriter.new ⟨[], []⟩⟩
    let r := commitBatch s [.upsert [0x62, 0x2E, 0x7A] [⟨replicate 4097 [1, 2, 3, 4], 300, 1, classIN⟩]]
    r.2 = [some (.append .appendUpsert .capacityExceeded)] ∧ s.tree.get z = some (soa 7) ∧
      r.1.tree.get z = some (soa 8) ∧ (replay r.1.writer.file.content .eof).1 = [.upsert z (soa 8)] := by
  decide +kernel

end Kdns.Storage
