import Kdns.Store.Disk
import Mathlib.Logic.Relation

namespace Kdns.Storage

open ByteStream BufferedFile Dns Codec Radix Wal Snapshot

structure Recoverable (fl : Flate) (s : Store) (snap : Bytes) (base : Tree) (ops : List Op) (e : Option WalError) :
    Prop where
  sound : Sound s.session.tree
  flushed : Flushed s.session.writer
  snap_eq : s.snap = some snap
  load_eq : loadSnapshotIntoTree fl snap = .ok base
  replay_eq : replay s.session.writer.file.content .eof = (ops, e)
  tolerated : e = none ∨ e = some .truncated
  tree_eq : applyOps base ops = s.session.tree

variable {t : Tree} {w : Writer} {bs : Bytes} {s' s : Store} {fl : Flate} {opts : Options} {disk : Disk}

theorem applyOps_idem (h : t.Valid) (ops : List Op) : applyOps (applyOps t ops) ops = applyOps t ops := by
  obtain ⟨hv, hc⟩ := applyOps_spec h ops
  obtain ⟨hv', hc'⟩ := applyOps_spec hv ops
  apply Tree.ext_contents hv' hv
  rw [hc', hc, Overwrite.replay_replay]

theorem replay_append_torn {d : Bytes} {ops : List Op} (h : replay d .eof = (ops, none)) {new : List Op}
    (hnew : ∀ op ∈ new, Replayable op) {q : Bytes} (hq : Torn q) :
    replay (d ++ (encodeLog new ++ q)) .eof = (ops ++ new, if q = [] then none else some .truncated) := by
  have hr := FramedLog.readAll_append frames d (encodeLog new ++ q) .eof [] ops h
  rw [show FramedLog.readAll frames ⟨encodeLog new ++ q, .eof, []⟩ = _ from replay_encodeLog_torn new hnew q hq] at hr
  exact hr

theorem replay_append {d : Bytes} {ops : List Op} (h : replay d .eof = (ops, none)) {new : List Op}
    (hnew : ∀ op ∈ new, Replayable op) : replay (d ++ encodeLog new) .eof = (ops ++ new, none) := by
  have hr := replay_append_torn h hnew torn_nil
  rwa [List.append_nil, if_pos rfl] at hr

theorem flush_flushed (h : Flushed w) : Flushed (Wal.flush w).1 ∧ (Wal.flush w).1.file.content = w.file.content := by
  have hf : w.flush = (w, true) := by rw [BufWriter.flush, if_neg (by simp [h.2]), if_pos h.1]
  simp only [Wal.flush, hf, if_true]
  exact ⟨h, BufWriter.file_sync_content _⟩

inductive Step (fl : Flate) : Store → Store → Prop
  | commit (s : Store) (batch : List Op) (hwf : ∀ op ∈ batch, WellFormed op)
      (hok : ∀ r ∈ (commitBatch s.session batch).2, r = none) :
      Step fl s ⟨(commitBatch s.session batch).1, s.snap⟩
  | compact (s : Store) : Step fl s (compact fl s).1

def Run (fl : Flate) : Store → Store → Prop := Relation.ReflTransGen (Step fl)

section Invariant

variable {snap : Bytes} {base : Tree} {ops : List Op} {e : Option WalError}

theorem Recoverable.commit (h : Recoverable fl s snap base ops none) {batch : List Op}
    (hwf : ∀ op ∈ batch, WellFormed op) (hok : ∀ r ∈ (commitBatch s.session batch).2, r = none) :
    Recoverable fl ⟨(commitBatch s.session batch).1, s.snap⟩ snap base (ops ++ trace s.session.tree batch) none ∧
      (commitBatch s.session batch).1.tree = mutateAll s.session.tree batch := by
  obtain ⟨ha, htree, hflushed, hcontent⟩ := commitBatch_acked h.flushed hok
  obtain ⟨hrep, hsound⟩ := trace_wellFormed h.sound hwf ha
  refine ⟨⟨?_, hflushed, h.snap_eq, h.load_eq, ?_, .inl rfl, ?_⟩, htree⟩
  · rw [htree]
    exact hsound
  · rw [hcontent]
    exact replay_append h.replay_eq hrep
  · rw [applyOps_append, h.tree_eq, applyOps_trace, htree]

theorem Recoverable.saved (h : Recoverable fl s snap base ops e) (hs : saveSnapshotFromTree fl s.session.tree = .ok bs)
    (hw : Flushed w) (hc : w.file.content = s.session.writer.file.content) :
    Recoverable fl ⟨⟨s.session.tree, w⟩, some bs⟩ bs s.session.tree ops e := by
  refine ⟨h.sound, hw, rfl, loadSnapshotIntoTree_save h.sound hs, by rw [hc]; exact h.replay_eq, h.tolerated, ?_⟩
  rw [← h.tree_eq]
  exact applyOps_idem (loadSnapshotIntoTree_sound h.load_eq).valid ops

theorem Recoverable.compact (h : Recoverable fl s snap base ops none) :
    ∃ snap' base' ops', Recoverable fl (compact fl s).1 snap' base' ops' none := by
  unfold Storage.compact
  cases hs : saveSnapshotFromTree fl s.session.tree with
  | error e => exact ⟨snap, base, ops, h⟩
  | ok bs =>
    dsimp only
    obtain ⟨hw, hc⟩ := flush_flushed h.flushed
    rw [checkpoint]
    rcases hf : Wal.flush s.session.writer with ⟨w, _ | e⟩
    · exact ⟨bs, s.session.tree, [], h.sound, ⟨rfl, rfl⟩, rfl, loadSnapshotIntoTree_save h.sound hs, rfl, .inl rfl, rfl⟩
    · rw [hf] at hw hc
      exact ⟨bs, s.session.tree, ops, h.saved hs hw hc⟩

theorem Recoverable.run (h : Recoverable fl s snap base ops none) (hrun : Run fl s s') :
    ∃ snap' base' ops', Recoverable fl s' snap' base' ops' none := by
  induction hrun with
  | refl => exact ⟨_, _, _, h⟩
  | tail _ hstep ih =>
    obtain ⟨_, _, _, h'⟩ := ih
    cases hstep with
    | commit batch hwf hok => exact ⟨_, _, _, (h'.commit hwf hok).1⟩
    | compact => exact h'.compact

theorem Recoverable.open (h : Recoverable fl s snap base ops e) (opts : Options) (faults : List (Option ℕ)) :
    openStore fl opts faults s.disk =
      .ok ⟨⟨s.session.tree, openWAL (some s.session.writer.file.content) faults⟩, some snap⟩ := by
  rw [Store.disk, h.snap_eq]
  apply openStore_some fl opts faults h.load_eq
  rw [replayWALIntoTree_ok h.replay_eq h.tolerated, h.tree_eq]

end Invariant

theorem recoverable_fresh (h : Sound t) (hs : saveSnapshotFromTree fl t = .ok bs)
    (faults : List (Option ℕ)) : Recoverable fl ⟨⟨t, openWAL none faults⟩, some bs⟩ bs t [] none :=
  ⟨h, ⟨rfl, rfl⟩, rfl, loadSnapshotIntoTree_save h hs, rfl, .inl rfl, rfl⟩

theorem bootstrap_cases {r : Tree × Option Bytes} (h : bootstrap fl opts = .ok r) :
    (opts.isReplica = true ∧ r = (Tree.new, none)) ∨
      ∃ bs, r.2 = some bs ∧ Sound r.1 ∧ saveSnapshotFromTree fl r.1 = .ok bs := by
  have hsaved : ∀ t, Sound t → (saveSnapshotFromTree fl t).map (fun bs => (t, some bs)) = .ok r →
      ∃ bs, r.2 = some bs ∧ Sound r.1 ∧ saveSnapshotFromTree fl r.1 = .ok bs := by
    intro t ht hr
    cases hs : saveSnapshotFromTree fl t with
    | error e => rw [hs] at hr; cases hr
    | ok bs =>
      rw [hs] at hr
      cases hr
      exact ⟨bs, rfl, ht, hs⟩
  unfold bootstrap at h
  split at h
  · rename_i z _
    exact .inr (hsaved _ (sound_upsertAll z.storable) h)
  · split_ifs at h with hrep
    · cases h
      exact .inl ⟨hrep, rfl⟩
    · exact .inr (hsaved _ sound_new h)

theorem replayWALIntoTree_cases {data : Bytes} {t' : Tree} (h : replayWALIntoTree (some data) t = .ok t') :
    ∃ ops e, replay data .eof = (ops, e) ∧ (e = none ∨ e = some .truncated) ∧ t' = applyOps t ops := by
  simp only [replayWALIntoTree] at h
  split at h
  · rename_i ops heq
    cases h
    exact ⟨ops, none, heq, .inl rfl, rfl⟩
  · rename_i ops heq
    cases h
    exact ⟨ops, _, heq, .inr rfl, rfl⟩
  · cases h

def tailError (disk : Disk) : Option WalError := (replay (disk.wal.getD []) .eof).2

theorem openStore_cases {faults : List (Option ℕ)} (hopen : openStore fl opts faults disk = .ok s) :
    (opts.isReplica = true ∧ s = ⟨⟨Tree.new, openWAL none faults⟩, none⟩) ∨
      ∃ snap base ops, Recoverable fl s snap base ops (tailError disk) := by
  obtain ⟨snap, wal, tmp⟩ := disk
  rcases openStore_ok hopen with ⟨rfl, rfl, r, hb, rfl⟩ | ⟨bs, base, t, rfl, hload, hwal, rfl⟩
  · rcases bootstrap_cases hb with ⟨hrep, rfl⟩ | ⟨bs, hsnap, hsound, hs⟩
    · exact .inl ⟨hrep, rfl⟩
    · exact .inr ⟨bs, r.1, [], by rw [hsnap]; exact recoverable_fresh hsound hs faults⟩
  · have hbase := loadSnapshotIntoTree_sound hload
    cases wal with
    | none =>
      cases hwal
      exact .inr ⟨bs, base, [], hbase, ⟨rfl, rfl⟩, rfl, hload, rfl, .inl rfl, rfl⟩
    | some data =>
      obtain ⟨ops, e, hr, he, rfl⟩ := replayWALIntoTree_cases hwal
      have hops := replay_storable data .eof
      have htail : tailError ⟨some bs, some data, tmp⟩ = e := by rw [tailError, Option.getD_some, hr]
      rw [hr] at hops
      rw [htail]
      exact .inr ⟨bs, base, ops, sound_applyOps hbase hops, ⟨rfl, rfl⟩, rfl, hload, hr, he, rfl⟩

theorem recoverable_of_open {faults : List (Option ℕ)} (hrep : opts.isReplica = false)
    (hopen : openStore fl opts faults disk = .ok s) :
    ∃ snap base ops, Recoverable fl s snap base ops (tailError disk) :=
  (openStore_cases hopen).resolve_left fun h => by rw [hrep] at h; cases h.1

theorem recoverable_of_run {faults : List (Option ℕ)} (hrep : opts.isReplica = false) (hwhole : tailError disk = none)
    (hopen : openStore fl opts faults disk = .ok s)
    (hrun : Run fl s s') : ∃ snap base ops, Recoverable fl s' snap base ops none := by
  obtain ⟨_, _, _, h⟩ := recoverable_of_open hrep hopen
  rw [hwhole] at h
  exact h.run hrun

theorem open_recovers (fl : Flate) (opts : Options) (faults : List (Option ℕ)) (disk : Disk) (s s' : Store)
    (hrep : opts.isReplica = false) (hwhole : tailError disk = none) (hopen : openStore fl opts faults disk = .ok s)
    (hrun : Run fl s s') (opts' : Options) (faults' : List (Option ℕ)) :
    ∃ s'', openStore fl opts' faults' s'.disk = .ok s'' ∧ s''.session.tree = s'.session.tree := by
  obtain ⟨_, _, _, h⟩ := recoverable_of_run hrep hwhole hopen hrun
  exact ⟨_, h.open opts' faults', rfl⟩

theorem open_recovers_commit_compact :
    let batch := [Op.upsert [0x61] [⟨[[1, 2, 3, 4]], 300, 1, classIN⟩]]
    let s := (compact .none ⟨(commitBatch emptyStore.session batch).1, emptyStore.snap⟩).1
    ∃ s', openStore .none ⟨none, false⟩ [] s.disk = .ok s' ∧ s'.session.tree = s.session.tree := by
  intro batch s
  have hcommit : Step .none emptyStore ⟨(commitBatch emptyStore.session batch).1, emptyStore.snap⟩ :=
    .commit emptyStore batch (by decide) (by decide +kernel)
  exact open_recovers .none ⟨none, false⟩ [] ⟨none, none, none⟩ emptyStore s rfl rfl openStore_empty
    (.tail (.single hcommit) (.compact _)) ⟨none, false⟩ []

end Kdns.Storage
