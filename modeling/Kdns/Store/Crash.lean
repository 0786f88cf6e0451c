import Kdns.Store.Files
import Kdns.Store.Recovery

namespace Kdns.Storage

open ByteStream BufferedFile Dns Codec Radix Wal Snapshot

inductive CrashPoint where
  | start
  | temporary (written : ℕ)
  | renamed
  | flushed
  | closed
  | truncated
  deriving DecidableEq, Repr

def crashDisk (s : Store) (bs : Bytes) : CrashPoint → Disk
  | .start => s.disk
  | .temporary written => { s.disk with tmp := some (bs.take written) }
  | .renamed => ⟨some bs, some s.session.writer.file.content, none⟩
  | .flushed => ⟨some bs, some (Wal.flush s.session.writer).1.file.content, none⟩
  | .closed => ⟨some bs, some (Wal.flush s.session.writer).1.file.content, none⟩
  | .truncated => ⟨some bs, some [], none⟩

def CrashPoint.script (bs pending : Bytes) : CrashPoint → List FileOp
  | .start => []
  | .temporary written => [.createTemp .store, .writeTemp .store (bs.take written)]
  | .renamed => saveScript bs
  | .flushed => saveScript bs ++ [.appendWAL pending]
  | .closed => saveScript bs ++ [.appendWAL pending]
  | .truncated => saveScript bs ++ [.appendWAL pending, .truncateWAL]

def reachedPoint (bs : Bytes) : ℕ → CrashPoint
  | 0 => .start
  | 1 => .temporary 0
  | 2 => .temporary bs.length
  | 3 => .renamed
  | 4 => .flushed
  | _ => .truncated

section Steps

variable {fl : Flate} {s : Store} {bs pending : Bytes} {d : Dir} {t : Tree}

theorem crashPoint_script (hd : d.disk = s.disk)
    (hpending : (Wal.flush s.session.writer).1.file.content = s.session.writer.file.content ++ pending)
    (p : CrashPoint) : (d.execAll (p.script bs pending)).disk = crashDisk s bs p := by
  rw [disk_eq_iff.mp hd]
  cases p <;> simp [CrashPoint.script, saveScript, Dir.execAll, Dir.exec, Dir.setTemp, Dir.temp, Dir.disk, crashDisk,
    Store.disk, hpending]

theorem checkpointScript_take (hs : saveSnapshotFromTree fl t = .ok bs) (hd : d.disk = s.disk)
    (hpending : (Wal.flush s.session.writer).1.file.content = s.session.writer.file.content ++ pending) (k : ℕ) :
    (d.execAll ((checkpointScript fl t pending).take k)).disk = crashDisk s bs (reachedPoint bs k) := by
  rw [checkpointScript, hs, disk_eq_iff.mp hd]
  rcases k with _ | _ | _ | _ | _ | k <;>
    simp [reachedPoint, saveScript, Dir.execAll, Dir.exec, Dir.setTemp, Dir.temp, Dir.disk, crashDisk, Store.disk,
      hpending]

theorem checkpoint_disk (s : Store) (t : Tree) (bs : Bytes) :
    (checkpoint s t bs).1.disk = crashDisk s bs .flushed ∨ (checkpoint s t bs).1.disk = crashDisk s bs .truncated := by
  unfold checkpoint crashDisk
  rcases hf : Wal.flush s.session.writer with ⟨w, _ | e⟩
  · exact .inr rfl
  · exact .inl rfl

theorem compact_disk (hs : saveSnapshotFromTree fl s.session.tree = .ok bs) :
    (compact fl s).1.disk = crashDisk s bs .flushed ∨ (compact fl s).1.disk = crashDisk s bs .truncated := by
  rw [compact, hs]
  exact checkpoint_disk s s.session.tree bs

theorem reloadFromZoneFile_disk {z : ZoneFile} (hs : saveSnapshotFromTree fl (Tree.new.upsertAll z.entries) = .ok bs) :
    (reloadFromZoneFile fl s z).1.disk = crashDisk s bs .flushed ∨
      (reloadFromZoneFile fl s z).1.disk = crashDisk s bs .truncated := by
  rw [reloadFromZoneFile, hs]
  exact checkpoint_disk s _ bs

end Steps

section Crash

variable {fl : Flate} {s : Store} {bs snap : Bytes} {base t : Tree} {ops : List Op} {e : Option WalError}

def recoveredTree (s : Store) (t : Tree) (ops : List Op) : CrashPoint → Tree
  | .start => s.session.tree
  | .temporary _ => s.session.tree
  | .renamed => applyOps t ops
  | .flushed => applyOps t ops
  | .closed => applyOps t ops
  | .truncated => t

theorem open_crashDisk (h : Recoverable fl s snap base ops e) (ht : Sound t) (hs : saveSnapshotFromTree fl t = .ok bs)
    (p : CrashPoint) (opts : Options) (faults : List (Option ℕ)) :
    ∃ s', openStore fl opts faults (crashDisk s bs p) = .ok s' ∧ s'.session.tree = recoveredTree s t ops p := by
  have hload := loadSnapshotIntoTree_save ht hs
  have hold := replayWALIntoTree_ok h.replay_eq h.tolerated
  have hnew := hold t
  have hflush := (flush_flushed h.flushed).2
  cases p with
  | start => exact ⟨_, h.open opts faults, rfl⟩
  | temporary written =>
    rw [crashDisk, Store.disk, h.snap_eq]
    exact ⟨_, openStore_some fl opts faults h.load_eq (hold base), h.tree_eq⟩
  | renamed => exact ⟨_, openStore_some fl opts faults hload hnew, rfl⟩
  | flushed =>
    rw [crashDisk, hflush]
    exact ⟨_, openStore_some fl opts faults hload hnew, rfl⟩
  | closed =>
    rw [crashDisk, hflush]
    exact ⟨_, openStore_some fl opts faults hload hnew, rfl⟩
  | truncated => exact ⟨_, openStore_some fl opts faults hload rfl, rfl⟩

end Crash

theorem compact_crash (fl : Flate) (opts : Options) (faults : List (Option ℕ)) (disk : Disk) (s₀ s : Store)
    (hrep : opts.isReplica = false) (hwhole : tailError disk = none)
    (hopen : openStore fl opts faults disk = .ok s₀) (hrun : Run fl s₀ s) (bs : Bytes)
    (hs : saveSnapshotFromTree fl s.session.tree = .ok bs) (p : CrashPoint) (opts' : Options)
    (faults' : List (Option ℕ)) :
    ∃ s', openStore fl opts' faults' (crashDisk s bs p) = .ok s' ∧ s'.session.tree = s.session.tree := by
  obtain ⟨_, base, ops, h⟩ := recoverable_of_run hrep hwhole hopen hrun
  obtain ⟨s', hs', ht⟩ := open_crashDisk h h.sound hs p opts' faults'
  refine ⟨s', hs', ht.trans ?_⟩
  have hidem : applyOps s.session.tree ops = s.session.tree := by
    rw [← h.tree_eq]
    exact applyOps_idem (loadSnapshotIntoTree_sound h.load_eq).valid ops
  cases p with
  | start => rfl
  | temporary _ => rfl
  | renamed => exact hidem
  | flushed => exact hidem
  | closed => exact hidem
  | truncated => rfl

theorem compact_crash_renamed :
    let batch := [Op.upsert [0x61] [⟨[[1, 2, 3, 4]], 300, 1, classIN⟩]]
    let s : Store := ⟨(commitBatch emptyStore.session batch).1, emptyStore.snap⟩
    let bs := (saveSnapshotFromTree .none s.session.tree).toOption.getD []
    ∃ s', openStore .none ⟨none, false⟩ [] (crashDisk s bs .renamed) = .ok s' ∧
      s'.session.tree = s.session.tree := by
  intro batch s bs
  have hs : saveSnapshotFromTree .none s.session.tree = .ok bs := by decide +kernel
  have hcommit : Step .none emptyStore s := .commit emptyStore batch (by decide) (by decide +kernel)
  exact compact_crash .none ⟨none, false⟩ [] ⟨none, none, none⟩ emptyStore s rfl rfl openStore_empty
    (.single hcommit) bs hs .renamed ⟨none, false⟩ []

def zoneTree (z : ZoneFile) : Tree := Tree.new.upsertAll z.entries

def writtenNames (s : Store) : List (List Bytes) :=
  ((replay s.session.writer.file.content .eof).1.map writeOf).map Prod.fst

section Mixed

variable {base t : Tree}

theorem replayed_over_iff (hb : base.Valid) (ht : t.Valid) (ops : List Op) :
    ((applyOps t ops).contents = (applyOps base ops).contents ∨ (applyOps t ops).contents = t.contents) ↔
      (∀ k ∈ (ops.map writeOf).map Prod.fst, t.contents k = (applyOps base ops).contents k) ∨
        ∀ k ∉ (ops.map writeOf).map Prod.fst, t.contents k = (applyOps base ops).contents k := by
  rw [(applyOps_spec ht ops).2, (applyOps_spec hb ops).2, Overwrite.replay_eq_replay_iff,
    Overwrite.replay_eq_base_iff base.contents, or_comm]

theorem mixed_iff {fl : Flate} {s : Store} {snap : Bytes} {ops : List Op} {e : Option WalError}
    (h : Recoverable fl s snap base ops e) (ht : Sound t) :
    ((applyOps t ops).contents = s.session.tree.contents ∨ (applyOps t ops).contents = t.contents) ↔
      (∀ k ∈ writtenNames s, t.contents k = s.session.tree.contents k) ∨
        ∀ k ∉ writtenNames s, t.contents k = s.session.tree.contents k := by
  rw [writtenNames, h.replay_eq, ← h.tree_eq]
  exact replayed_over_iff (loadSnapshotIntoTree_sound h.load_eq).valid ht.valid ops

end Mixed

theorem reload_crash_iff (fl : Flate) (opts : Options) (faults : List (Option ℕ)) (disk : Disk) (s₀ s : Store)
    (hrep : opts.isReplica = false) (hwhole : tailError disk = none)
    (hopen : openStore fl opts faults disk = .ok s₀) (hrun : Run fl s₀ s) (z : ZoneFile) (bs : Bytes)
    (hs : saveSnapshotFromTree fl (zoneTree z) = .ok bs) (opts' : Options) (faults' : List (Option ℕ)) :
    (∀ p, ∃ s', openStore fl opts' faults' (crashDisk s bs p) = .ok s' ∧
      (s'.session.tree.contents = s.session.tree.contents ∨ s'.session.tree.contents = (zoneTree z).contents)) ↔
    (∀ k ∈ writtenNames s, (zoneTree z).contents k = s.session.tree.contents k) ∨
      ∀ k ∉ writtenNames s, (zoneTree z).contents k = s.session.tree.contents k := by
  obtain ⟨_, base, ops, h⟩ := recoverable_of_run hrep hwhole hopen hrun
  have hz : Sound (zoneTree z) := sound_upsertAll z.storable
  have hrec := fun p => open_crashDisk h hz hs p opts' faults'
  rw [← mixed_iff h hz]
  constructor
  · intro hall
    obtain ⟨s', hs', hcase⟩ := hall .renamed
    obtain ⟨s'', hs'', ht⟩ := hrec .renamed
    obtain rfl : s' = s'' := Except.ok.inj (hs'.symm.trans hs'')
    rw [ht] at hcase
    exact hcase
  · intro hcase p
    obtain ⟨s', hs', ht⟩ := hrec p
    refine ⟨s', hs', ?_⟩
    rw [ht]
    cases p with
    | start => exact .inl rfl
    | temporary _ => exact .inl rfl
    | renamed => exact hcase
    | flushed => exact hcase
    | closed => exact hcase
    | truncated => exact .inr rfl

/-- The log writes `a`, which the zone file repeats; `b` is new. -/
theorem reload_crash_iff_repeated :
    let ra : RRSets := [⟨[[1, 2, 3, 4]], 300, 1, classIN⟩]
    let rb : RRSets := [⟨[[5, 6, 7, 8]], 300, 1, classIN⟩]
    let s : Store := ⟨(commitBatch emptyStore.session [.upsert [0x61] ra]).1, emptyStore.snap⟩
    let z : ZoneFile := ⟨[([0x61], ra), ([0x62], rb)], by decide⟩
    let bs := (saveSnapshotFromTree .none (zoneTree z)).toOption.getD []
    writtenNames s = [[[0x61]]] ∧
      ∀ p, ∃ s', openStore .none ⟨none, false⟩ [] (crashDisk s bs p) = .ok s' ∧
        (s'.session.tree.contents = s.session.tree.contents ∨
          s'.session.tree.contents = (zoneTree z).contents) := by
  intro ra rb s z bs
  have hs : saveSnapshotFromTree .none (zoneTree z) = .ok bs := by decide +kernel
  have hcommit : Step .none emptyStore s := .commit emptyStore _ (by decide) (by decide +kernel)
  have hnames : writtenNames s = [[[0x61]]] := by decide +kernel
  have hsame : (zoneTree z).contents [[0x61]] = s.session.tree.contents [[0x61]] := by decide +kernel
  refine ⟨hnames, ?_⟩
  exact (reload_crash_iff .none ⟨none, false⟩ [] ⟨none, none, none⟩ emptyStore s rfl rfl openStore_empty
    (.single hcommit) z bs hs ⟨none, false⟩ []).mpr (.inl (by simp [hnames, hsame]))

/-- The zone file has only `b`, the log only `a`: a crash before the truncation recovers both. -/
theorem reload_crash_mixture :
    let ra : RRSets := [⟨[[1, 2, 3, 4]], 300, 1, classIN⟩]
    let rb : RRSets := [⟨[[5, 6, 7, 8]], 300, 1, classIN⟩]
    let s : Store := ⟨(commitBatch emptyStore.session [.upsert [0x61] ra]).1, emptyStore.snap⟩
    let z : ZoneFile := ⟨[([0x62], rb)], by decide⟩
    let bs := (saveSnapshotFromTree .none (zoneTree z)).toOption.getD []
    (commitBatch emptyStore.session [.upsert [0x61] ra]).2 = [none] ∧
      saveSnapshotFromTree .none (zoneTree z) = .ok bs ∧
      ((openStore .none ⟨none, false⟩ [] (crashDisk s bs .renamed)).toOption.map fun s' =>
        (s'.session.tree.get [0x61], s'.session.tree.get [0x62])) = some (some ra, some rb) ∧
      s.session.tree.get [0x62] = none ∧ (zoneTree z).get [0x61] = none := by
  decide +kernel

end Kdns.Storage
