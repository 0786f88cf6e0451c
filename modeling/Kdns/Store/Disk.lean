import Kdns.Lib.Fallible
import Kdns.Store.Trace

namespace Kdns.Storage

open ByteStream BufferedFile Dns Codec Radix Wal Snapshot

structure Disk where
  snap : Option Bytes
  wal : Option Bytes
  tmp : Option Bytes

structure ZoneFile where
  entries : List (Bytes × RRSets)
  storable : ∀ e ∈ entries, e.1.length ≤ maxDomainLen ∧ ClassIN e.2

structure Options where
  zoneFile : Option ZoneFile
  isReplica : Bool

inductive OpenError where
  | uncleanState
  | decodeSnapshot (e : SnapError)
  | saveSnapshot (e : SnapError)
  | replayWAL (e : WalError)
  deriving DecidableEq, Repr

structure Store where
  session : Session Writer
  snap : Option Bytes

def Store.disk (s : Store) : Disk := ⟨s.snap, some s.session.writer.file.content, none⟩

def loadSnapshotIntoTree (fl : Flate) (data : Bytes) : Except OpenError Tree :=
  match load fl data with
  | (_, some e) => .error (.decodeSnapshot e)
  | (es, none) => .ok (Tree.new.upsertAll es)

def replayWALIntoTree (wal : Option Bytes) (t : Tree) : Except OpenError Tree :=
  match wal with
  | none => .ok t
  | some data =>
    match replay data .eof with
    | (ops, none) => .ok (applyOps t ops)
    | (ops, some .truncated) => .ok (applyOps t ops)
    | (_, some e) => .error (.replayWAL e)

def saveSnapshotFromTree (fl : Flate) (t : Tree) : Except OpenError Bytes :=
  match save fl t with
  | .error e => .error (.saveSnapshot e)
  | .ok bs => .ok bs

def bootstrap (fl : Flate) (opts : Options) : Except OpenError (Tree × Option Bytes) :=
  match opts.zoneFile with
  | some z =>
    let t := Tree.new.upsertAll z.entries
    (saveSnapshotFromTree fl t).map fun bs => (t, some bs)
  | none =>
    if opts.isReplica then .ok (Tree.new, none)
    else (saveSnapshotFromTree fl Tree.new).map fun bs => (Tree.new, some bs)

def openWAL (wal : Option Bytes) (faults : List (Option ℕ)) : Writer := BufWriter.new ⟨wal.getD [], faults⟩

def openStore (fl : Flate) (opts : Options) (faults : List (Option ℕ)) (disk : Disk) : Except OpenError Store :=
  match disk.snap with
  | none =>
    if disk.wal.isSome then .error .uncleanState
    else (bootstrap fl opts).map fun r => ⟨⟨r.1, openWAL none faults⟩, r.2⟩
  | some snap => do
    let t ← loadSnapshotIntoTree fl snap
    let t ← replayWALIntoTree disk.wal t
    return ⟨⟨t, openWAL disk.wal faults⟩, some snap⟩

def emptyStore : Store := ⟨⟨Tree.new, openWAL none []⟩, (saveSnapshotFromTree .none Tree.new).toOption⟩

theorem openStore_empty : openStore .none ⟨none, false⟩ [] ⟨none, none, none⟩ = .ok emptyStore := rfl

inductive CompactError where
  | saveSnapshot (e : OpenError)
  | flushWAL (e : WalError)
  deriving DecidableEq, Repr

def checkpoint (s : Store) (t : Tree) (snap : Bytes) : Store × Option CompactError :=
  match Wal.flush s.session.writer with
  | (w, some e) => (⟨⟨s.session.tree, w⟩, some snap⟩, some (.flushWAL e))
  | (w, none) => (⟨⟨t, BufWriter.new ⟨[], w.file.faults⟩⟩, some snap⟩, none)

def compact (fl : Flate) (s : Store) : Store × Option CompactError :=
  match saveSnapshotFromTree fl s.session.tree with
  | .error e => (s, some (.saveSnapshot e))
  | .ok snap => checkpoint s s.session.tree snap

def reloadFromZoneFile (fl : Flate) (s : Store) (z : ZoneFile) : Store × Option CompactError :=
  let t := Tree.new.upsertAll z.entries
  match saveSnapshotFromTree fl t with
  | .error e => (s, some (.saveSnapshot e))
  | .ok snap => checkpoint s t snap

theorem openStore_some (fl : Flate) (opts : Options) (faults : List (Option ℕ)) {snap : Bytes} {wal tmp : Option Bytes}
    {base t : Tree} (hload : loadSnapshotIntoTree fl snap = .ok base) (hwal : replayWALIntoTree wal base = .ok t) :
    openStore fl opts faults ⟨some snap, wal, tmp⟩ = .ok ⟨⟨t, openWAL wal faults⟩, some snap⟩ := by
  simp only [openStore, hload, bind, Except.bind, hwal]
  rfl

theorem openStore_ok {fl : Flate} {opts : Options} {faults : List (Option ℕ)} {disk : Disk} {s : Store}
    (h : openStore fl opts faults disk = .ok s) :
    (disk.snap = none ∧ disk.wal = none ∧ ∃ r, bootstrap fl opts = .ok r ∧ s = ⟨⟨r.1, openWAL none faults⟩, r.2⟩) ∨
      ∃ snap base t, disk.snap = some snap ∧ loadSnapshotIntoTree fl snap = .ok base ∧
        replayWALIntoTree disk.wal base = .ok t ∧ s = ⟨⟨t, openWAL disk.wal faults⟩, some snap⟩ := by
  unfold openStore at h
  split at h
  · rename_i hsnap
    split_ifs at h with hwal
    obtain ⟨r, hr, rfl⟩ := Fallible.map_ok h
    exact .inl ⟨hsnap, by simpa using hwal, r, hr, rfl⟩
  · rename_i snap hsnap
    obtain ⟨base, hload, h⟩ := Fallible.bind_ok h
    obtain ⟨t, hwal, h⟩ := Fallible.bind_ok h
    cases h
    exact .inr ⟨snap, base, t, hsnap, hload, hwal, rfl⟩

theorem openStore_faults {fl : Flate} {opts : Options} {faults : List (Option ℕ)} {disk : Disk} {s : Store}
    (h : openStore fl opts faults disk = .ok s) (faults' : List (Option ℕ)) :
    ∃ s', openStore fl opts faults' disk = .ok s' ∧ s'.session.tree = s.session.tree := by
  obtain ⟨snap, wal, tmp⟩ := disk
  rcases openStore_ok h with ⟨rfl, rfl, r, hr, rfl⟩ | ⟨snap, base, t, rfl, hload, hwal, rfl⟩
  · refine ⟨⟨⟨r.1, openWAL none faults'⟩, r.2⟩, ?_, rfl⟩
    change (bootstrap fl opts).map _ = _
    rw [hr]
    rfl
  · exact ⟨_, openStore_some fl opts faults' hload hwal, rfl⟩

theorem replayWALIntoTree_ok {data : Bytes} {ops : List Op} {e : Option WalError} (h : replay data .eof = (ops, e))
    (he : e = none ∨ e = some .truncated) (t : Tree) : replayWALIntoTree (some data) t = .ok (applyOps t ops) := by
  rcases he with rfl | rfl <;> simp [replayWALIntoTree, h]

theorem loadSnapshotIntoTree_sound {fl : Flate} {data : Bytes} {t : Tree} (h : loadSnapshotIntoTree fl data = .ok t) :
    Sound t := by
  have hs : ∀ e ∈ (load fl data).1, e.1.length ≤ maxDomainLen ∧ ClassIN e.2 :=
    fun e he => ⟨(load_fits fl data e he).1.domain_le, (load_fits fl data e he).2⟩
  unfold loadSnapshotIntoTree at h
  split at h
  · cases h
  · rename_i es heq
    rw [heq] at hs
    cases h
    exact sound_upsertAll hs

theorem loadSnapshotIntoTree_save {fl : Flate} {t : Tree} (h : Sound t) {bs : Bytes}
    (hs : saveSnapshotFromTree fl t = .ok bs) : loadSnapshotIntoTree fl bs = .ok t := by
  have hsave : save fl t = .ok bs := by
    unfold saveSnapshotFromTree at hs
    split at hs
    · cases hs
    · rename_i bs' heq
      cases hs
      exact heq
  obtain ⟨hwalk, hlen⟩ := Tree.walk_spec h.valid h.namesWithin
  have hclass : ∀ e ∈ t.walk, ClassIN e.2 := by
    intro e he
    rw [hwalk] at he
    obtain ⟨x, hx, rfl⟩ := List.mem_map.mp he
    exact (h.storable x.1 x.2 ((mem_entries h.valid.wf x.1 x.2).mp hx)).2
  rw [loadSnapshotIntoTree, load_save hsave hlen hclass]
  exact congrArg Except.ok (Tree.upsertAll_walk h.valid h.namesWithin)

end Kdns.Storage
