import Kdns.Store.Disk

namespace Kdns.Storage

open ByteStream Radix Wal Snapshot

inductive Party where
  | store
  | client
  deriving DecidableEq, Repr

structure Dir where
  snap : Option Bytes
  wal : Option Bytes
  storeTemp : Option Bytes
  clientTemp : Option Bytes

def Dir.empty : Dir := ⟨none, none, none, none⟩

def Dir.disk (d : Dir) : Disk := ⟨d.snap, d.wal, d.storeTemp <|> d.clientTemp⟩

def Dir.temp (d : Dir) : Party → Option Bytes
  | .store => d.storeTemp
  | .client => d.clientTemp

def Dir.setTemp (d : Dir) (file : Option Bytes) : Party → Dir
  | .store => { d with storeTemp := file }
  | .client => { d with clientTemp := file }

inductive FileOp where
  | cleanStaleTemp
  | createTemp (p : Party)
  | writeTemp (p : Party) (bytes : Bytes)
  | removeTemp (p : Party)
  | renameTemp (p : Party) (data : Bytes)
  | openWAL
  | appendWAL (bytes : Bytes)
  | truncateWAL
  | removeWAL
  deriving DecidableEq, Repr

def Dir.exec (d : Dir) : FileOp → Dir
  | .cleanStaleTemp => { d with storeTemp := none, clientTemp := none }
  | .createTemp p => d.setTemp (some []) p
  | .writeTemp p bytes => d.setTemp ((d.temp p).map (· ++ bytes)) p
  | .removeTemp p => d.setTemp none p
  | .renameTemp p data => { d.setTemp none p with snap := some data }
  | .openWAL => { d with wal := some (d.wal.getD []) }
  | .appendWAL bytes => { d with wal := d.wal.map (· ++ bytes) }
  | .truncateWAL => { d with wal := some [] }
  | .removeWAL => { d with wal := none }

def FileOp.installs : FileOp → Bool
  | .renameTemp _ _ => true
  | _ => false

def FileOp.opensWAL : FileOp → Bool
  | .openWAL => true
  | .truncateWAL => true
  | _ => false

@[simp] theorem setTemp_snap (d : Dir) (t : Option Bytes) (p : Party) : (d.setTemp t p).snap = d.snap := by
  cases p <;> rfl

@[simp] theorem setTemp_wal (d : Dir) (t : Option Bytes) (p : Party) : (d.setTemp t p).wal = d.wal := by
  cases p <;> rfl

theorem exec_snap (d : Dir) (op : FileOp) : (d.exec op).snap.isSome = (d.snap.isSome || op.installs) := by
  cases op <;> simp [Dir.exec, FileOp.installs]

theorem exec_wal (d : Dir) {op : FileOp} (h : op ≠ .removeWAL) : (d.exec op).wal.isSome = (d.wal.isSome || op.opensWAL) := by
  cases op with
  | removeWAL => exact absurd rfl h
  | _ => simp [Dir.exec, FileOp.opensWAL]

def Dir.execAll (d : Dir) (ops : List FileOp) : Dir := ops.foldl Dir.exec d

def saveScript (data : Bytes) : List FileOp := [.createTemp .store, .writeTemp .store data, .renameTemp .store data]

def openScript (d : Dir) (s : Store) : List FileOp :=
  match d.snap, s.snap with
  | none, some data => .cleanStaleTemp :: saveScript data ++ [.openWAL]
  | _, _ => [.cleanStaleTemp, .openWAL]

def checkpointScript (fl : Flate) (t : Tree) (pending : Bytes) : List FileOp :=
  match saveSnapshotFromTree fl t with
  | .error _ => [.createTemp .store, .removeTemp .store]
  | .ok data => saveScript data ++ [.appendWAL pending, .truncateWAL]

def reloadScript (fl : Flate) (opts : Options) (pending : Bytes) : List FileOp :=
  match opts.zoneFile with
  | none => [.appendWAL pending]
  | some z => checkpointScript fl (Tree.new.upsertAll z.entries) pending

variable {fl : Flate} {opts : Options} {faults : List (Option ℕ)} {d : Dir} {s : Store}

theorem openScript_disk (h : openStore fl opts faults d.disk = .ok s) : (d.execAll (openScript d s)).disk = s.disk := by
  obtain ⟨snap, wal, storeTemp, clientTemp⟩ := d
  rcases openStore_ok h with ⟨rfl, rfl, ⟨t, _ | data⟩, -, rfl⟩ | ⟨snap, base, t, rfl, -, -, rfl⟩ <;> rfl

theorem disk_eq_iff : d.disk = s.disk ↔ d = ⟨s.snap, some s.session.writer.file.content, none, none⟩ := by
  obtain ⟨snap, wal, storeTemp, clientTemp⟩ := d
  cases storeTemp <;> cases clientTemp <;> simp [Dir.disk, Store.disk]

end Kdns.Storage
