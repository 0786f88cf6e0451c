import Kdns.Lib.GoFormat
import Kdns.Store.Recovery

namespace Kdns.Cluster

open ByteStream Dns Codec Radix Wal Snapshot Storage

def maxSnapshotDownloadBytes : ℕ := 512 * 1024 * 1024

def statusOK : ℕ := 200
def statusNotFound : ℕ := 404
def statusRequestedRangeNotSatisfiable : ℕ := 416
def statusTooManyRequests : ℕ := 429

def hex08 (n : ℕ) : Bytes := GoStrings.hexDigits 8 n

def checksumHeader (snap : Bytes) : Bytes := (readChecksum snap).elim [] hex08

structure Client where
  snap : Option Bytes
  wal : Option Bytes
  tree : Tree

def Client.log (c : Client) : Bytes := c.wal.getD []

structure Reply where
  status : ℕ
  checksum : Bytes
  body : Bytes
  tail : ReadError

inductive DownloadError where
  | request
  | rateLimited
  | snapshotNotFound
  | unexpectedStatus (code : ℕ)
  | copyBody (e : ReadError)
  | checksumMismatch
  | load (e : SnapError)
  deriving DecidableEq, Repr

def checksumDiffers (data header : Bytes) : Bool :=
  header ≠ [] && (readChecksum data).any fun n => hex08 n ≠ header

def verifySnapshot (fl : Flate) (data header : Bytes) : Except DownloadError Tree :=
  if checksumDiffers data header then .error .checksumMismatch
  else
    match load fl data with
    | (_, some e) => .error (.load e)
    | (es, none) => .ok (Tree.new.upsertAll es)

def fetchSnapshot (fl : Flate) : Option Reply → Except DownloadError (Bytes × Tree)
  | none => .error .request
  | some r =>
    if r.status = statusTooManyRequests then .error .rateLimited
    else if r.status = statusNotFound then .error .snapshotNotFound
    else if r.status ≠ statusOK then .error (.unexpectedStatus r.status)
    else if r.body.length < maxSnapshotDownloadBytes ∧ r.tail ≠ .eof then .error (.copyBody r.tail)
    else
      let data := r.body.take maxSnapshotDownloadBytes
      (verifySnapshot fl data r.checksum).map fun t => (data, t)

def downloadSnapshot (fl : Flate) (c : Client) (reply : Option Reply) : Client × Option DownloadError :=
  match fetchSnapshot fl reply with
  | .error e => (c, some e)
  | .ok (data, t) => (⟨some data, none, t⟩, none)

inductive SyncError where
  | downloadSnapshot (e : DownloadError)
  | streamRequest
  | resyncSnapshot (e : DownloadError)
  | rateLimited
  | streamStatus (code : ℕ)
  | resyncChecksum (e : DownloadError)
  | walReplay (e : WalError)
  deriving DecidableEq, Repr

def ingest (c : Client) (body : Bytes) (tail : ReadError) : Client × Option WalError :=
  let r := replay body tail
  (⟨c.snap, some (c.log ++ body), applyOps c.tree r.1⟩, r.2)

def replayFailed : Option WalError → Option SyncError
  | none => none
  | some .truncated => none
  | some (.io _ .unexpectedEof) => none
  | some (.codec _ (.read _ .unexpectedEof)) => none
  | some e => some (.walReplay e)

structure Replies where
  initial : Option Reply
  stream : Option Reply
  resync : Option Reply

def connect (fl : Flate) (c : Client) (rs : Replies) : Client × Option SyncError :=
  match rs.stream with
  | none => (c, some .streamRequest)
  | some r =>
    if r.status = statusRequestedRangeNotSatisfiable ∨ r.status = statusNotFound then
      let d := downloadSnapshot fl c rs.resync
      (d.1, d.2.map .resyncSnapshot)
    else if r.status = statusTooManyRequests then (c, some .rateLimited)
    else if r.status ≠ statusOK then (c, some (.streamStatus r.status))
    else if c.snap.any fun s => checksumDiffers s r.checksum then
      let d := downloadSnapshot fl c rs.resync
      (d.1, d.2.map .resyncChecksum)
    else
      let i := ingest c r.body r.tail
      (i.1, replayFailed i.2)

def sync (fl : Flate) (c : Client) (rs : Replies) : Client × Option SyncError :=
  if c.snap.isSome then connect fl c rs
  else
    match downloadSnapshot fl c rs.initial with
    | (c', some e) => (c', some (.downloadSnapshot e))
    | (c', none) => connect fl c' rs

def baseTree (fl : Flate) : Option Bytes → Except OpenError Tree
  | none => .ok Tree.new
  | some data => loadSnapshotIntoTree fl data

def Serves (fl : Flate) (c : Client) : Prop :=
  ∃ base, baseTree fl c.snap = .ok base ∧ c.tree = applyOps base (replay c.log .eof).1

variable {fl : Flate} {c : Client}

theorem verifySnapshot_load {data header : Bytes} {t : Tree} (h : verifySnapshot fl data header = .ok t) :
    loadSnapshotIntoTree fl data = .ok t := by
  unfold verifySnapshot at h
  unfold loadSnapshotIntoTree
  split_ifs at h
  rcases hl : load fl data with ⟨es, _ | e⟩ <;> rw [hl] at h <;> cases h
  rfl

theorem fetchSnapshot_load {reply : Option Reply} {data : Bytes} {t : Tree}
    (h : fetchSnapshot fl reply = .ok (data, t)) : loadSnapshotIntoTree fl data = .ok t := by
  cases reply with
  | none => cases h
  | some r =>
    simp only [fetchSnapshot] at h
    split_ifs at h
    cases hv : verifySnapshot fl (r.body.take maxSnapshotDownloadBytes) r.checksum with
    | error e => rw [hv] at h; cases h
    | ok t' =>
      rw [hv] at h
      cases h
      exact verifySnapshot_load hv

theorem downloadSnapshot_none {c' : Client} {reply : Option Reply}
    (h : downloadSnapshot fl c reply = (c', none)) : c'.wal = none := by
  unfold downloadSnapshot at h
  split at h <;> cases h
  rfl

theorem Serves.download (h : Serves fl c) (reply : Option Reply) : Serves fl (downloadSnapshot fl c reply).1 := by
  unfold downloadSnapshot
  split
  · exact h
  · rename_i data t hf
    exact ⟨t, fetchSnapshot_load hf, rfl⟩

def AtBoundary (c : Client) : Prop := (replay c.log .eof).2 = none

theorem Serves.ingest (h : Serves fl c) (hb : AtBoundary c) (body : Bytes)
    (tail : ReadError) : Serves fl (ingest c body tail).1 := by
  obtain ⟨base, hbase, htree⟩ := h
  refine ⟨base, hbase, ?_⟩
  have hlog : replay c.log .eof = ((replay c.log .eof).1, none) := Prod.ext rfl hb
  have happ := congrArg Prod.fst (FramedLog.readAll_append frames c.log body .eof [] _ hlog)
  have htail : (replay body tail).1 = (replay body .eof).1 := FramedLog.readAll_tail frames body tail .eof []
  simp only [Cluster.ingest, Client.log, Option.getD_some]
  rw [htree, htail, ← applyOps_append]
  exact congrArg (applyOps base) happ.symm

def resumes (c : Client) (rs : Replies) : Bool :=
  c.snap.any fun s => rs.stream.any fun r => r.status = statusOK && !checksumDiffers s r.checksum

theorem Serves.connect (h : Serves fl c) (rs : Replies)
    (hb : resumes c rs = true ∨ c.snap = none → AtBoundary c) : Serves fl (connect fl c rs).1 := by
  unfold Cluster.connect
  split
  · exact h
  · rename_i r hr
    split_ifs with h₁ h₂ h₃ h₄
    · apply h.download
    · exact h
    · exact h
    · apply h.download
    · refine h.ingest (hb ?_) _ _
      cases hs : c.snap with
      | none => exact .inr rfl
      | some s =>
        rw [hs] at h₄
        simp only [resumes, hs, hr]
        simpa using ⟨not_not.mp h₃, by simpa using h₄⟩

theorem Serves.sync (h : Serves fl c) (rs : Replies)
    (hb : resumes c rs = true → AtBoundary c) : Serves fl (sync fl c rs).1 := by
  unfold Cluster.sync
  split_ifs with hs
  · refine h.connect rs fun ho => hb (ho.resolve_right fun hn => ?_)
    rw [hn] at hs
    cases hs
  · have hd := h.download rs.initial
    rcases hc : downloadSnapshot fl c rs.initial with ⟨c', _ | e⟩ <;> rw [hc] at hd
    · apply hd.connect rs
      intro _
      rw [AtBoundary, Client.log, downloadSnapshot_none hc]
      rfl
    · exact hd

def Client.ofStore (s : Store) : Client := ⟨s.snap, some s.session.writer.file.content, s.session.tree⟩

theorem serves_ofStore {opts : Options} {faults : List (Option ℕ)} {disk : Disk} {s : Store}
    (h : openStore fl opts faults disk = .ok s) : Serves fl (.ofStore s) := by
  rcases openStore_cases h with ⟨-, rfl⟩ | ⟨snap, base, ops, hr⟩
  · exact ⟨Tree.new, rfl, rfl⟩
  · refine ⟨base, ?_, ?_⟩
    · rw [Client.ofStore, hr.snap_eq]
      exact hr.load_eq
    · rw [Client.ofStore, Client.log, Option.getD_some, hr.replay_eq]
      exact hr.tree_eq.symm

def CarefulSync (fl : Flate) (c c' : Client) : Prop :=
  ∃ rs, (resumes c rs = true → AtBoundary c) ∧ c' = (sync fl c rs).1

theorem careful_syncs_serve (fl : Flate) (opts : Options) (disk : Disk) (s : Store)
    (hopen : openStore fl opts [] disk = .ok s) (c : Client)
    (hrun : Relation.ReflTransGen (CarefulSync fl) (.ofStore s) c) : Serves fl c := by
  induction hrun with
  | refl => exact serves_ofStore hopen
  | tail _ hstep ih =>
    obtain ⟨rs, hb, rfl⟩ := hstep
    exact ih.sync rs hb

theorem careful_syncs_serve_twice :
    let frame := encodeOp (.delete [0x61])
    let snap := emptyStore.snap.getD []
    let cut (bs : Bytes) (tail : ReadError) : Option Reply := some ⟨200, checksumHeader snap, bs, tail⟩
    let c := Client.ofStore ⟨⟨Tree.new, openWAL none []⟩, none⟩
    let c₁ := (sync .none c ⟨cut snap .eof, cut frame .unexpectedEof, none⟩).1
    let c₂ := (sync .none c₁ ⟨none, cut (frame.take 3) .unexpectedEof, none⟩).1
    AtBoundary c₁ ∧ Serves .none c₂ := by
  intro frame snap cut c c₁ c₂
  have hb : AtBoundary c₁ := by
    unfold AtBoundary
    decide +kernel
  have hfirst : CarefulSync .none c c₁ := ⟨_, fun h => absurd h (by decide), rfl⟩
  have hsecond : CarefulSync .none c₁ c₂ := ⟨_, fun _ => hb, rfl⟩
  exact ⟨hb, careful_syncs_serve .none ⟨none, true⟩ ⟨none, none, none⟩ _ rfl c₂ (.tail (.single hfirst) hsecond)⟩

/-- The first frame arrives in two pieces: the local log has it, the tree does not. -/
theorem cut_frame_is_lost :
    let records : RRSets := [⟨[[1, 2, 3, 4]], 300, 1, classIN⟩]
    let frame := encodeOp (.upsert [0x61] records)
    let snap := emptyStore.snap.getD []
    let cut (bs : Bytes) (tail : ReadError) : Option Reply := some ⟨200, checksumHeader snap, bs, tail⟩
    let c := Client.ofStore ⟨⟨Tree.new, openWAL none []⟩, none⟩
    let r₁ := sync .none c ⟨cut snap .eof, cut (frame.take 1) .unexpectedEof, none⟩
    let r₂ := sync .none r₁.1 ⟨none, cut (frame.drop 1) .unexpectedEof, none⟩
    r₁.2 = none ∧ r₂.1.log = frame ∧ r₂.1.tree.get [0x61] = none ∧
      (openStore .none ⟨none, true⟩ [] ⟨r₂.1.snap, r₂.1.wal, none⟩).toOption.map (fun s => s.session.tree.get [0x61]) =
        some (some records) := by
  decide +kernel

end Kdns.Cluster
