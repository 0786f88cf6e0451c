import Kdns.Cluster.Replica

namespace Kdns.Cluster

open ByteStream BufferedFile Dns Codec Radix Wal Snapshot Storage

def streamBufSize : ℕ := 32 * 1024

inductive Phase where
  | idle
  | renamed
  | truncated
  deriving DecidableEq, Repr

structure Primary where
  store : Store
  phase : Phase
  gen : ℕ

def Primary.wal (p : Primary) : Bytes := p.store.session.writer.file.content

/-- The handler of a stream and the bytes on their way; `checked` is set between the check of the generation and
the read that follows it. -/
structure Stream where
  startGen : ℕ
  offset : ℕ
  checked : Bool
  pipe : Bytes

def Stream.check (s : Stream) (gen : ℕ) : Option Stream :=
  if gen = s.startGen then some { s with checked := true } else none

def Stream.read (s : Stream) (wal : Bytes) (n : ℕ) : Option Stream :=
  if s.checked ∧ n ≤ streamBufSize then
    let bs := (wal.drop s.offset).take n
    some ⟨s.startGen, s.offset + bs.length, false, s.pipe ++ bs⟩
  else none

inductive Conn where
  | idle
  | requested (offset : ℕ)
  | started (startGen offset : ℕ)
  | opened (startGen offset : ℕ)
  | refused
  | answered (s : Stream) (header : Bytes)
  | streaming (s : Stream) (start : Client) (got : Bytes)
  | fetching
  | fetched (data : Bytes)
  | delivered (header data : Bytes)

def Conn.mapStream (f : Stream → Option Stream) : Conn → Option Conn
  | .answered s header => (f s).map fun s' => .answered s' header
  | .streaming s start got => (f s).map fun s' => .streaming s' start got
  | _ => none

def Conn.pipe : Conn → Bytes
  | .answered s _ => s.pipe
  | .streaming s _ _ => s.pipe
  | _ => []

structure System where
  primary : Primary
  conn : Conn
  client : Client

def System.init (s : Store) : System := ⟨⟨s, .idle, 0⟩, .idle, .ofStore ⟨⟨Tree.new, openWAL none []⟩, none⟩⟩

inductive Action where
  | commit (batch : List Op)
  | renameSnapshot
  | truncateWAL
  | notifyCompaction
  | readGeneration
  | openWALReader
  | sendHeader
  | checkGeneration
  | readWAL (n : ℕ)
  | openSnapshotReader
  | sendSnapshot
  | startSync
  | readResponse
  | receive (n : ℕ)
  | installSnapshot
  | disconnect

def Primary.act (fl : Flate) (p : Primary) : Action → Option Primary
  | .commit batch =>
    let r := commitBatch p.store.session batch
    if p.phase = .idle ∧ (∀ op ∈ batch, WellFormed op) ∧ ∀ e ∈ r.2, e = none then
      some { p with store := ⟨r.1, p.store.snap⟩ }
    else none
  | .renameSnapshot =>
    if p.phase = .idle then
      (saveSnapshotFromTree fl p.store.session.tree).toOption.map fun bs => ⟨⟨p.store.session, some bs⟩, .renamed, p.gen⟩
    else none
  | .truncateWAL =>
    match p.phase, Wal.flush p.store.session.writer with
    | .renamed, (w, none) =>
      some ⟨⟨⟨p.store.session.tree, BufWriter.new ⟨[], w.file.faults⟩⟩, p.store.snap⟩, .truncated, p.gen⟩
    | _, _ => none
  | .notifyCompaction => if p.phase = .truncated then some ⟨p.store, .idle, p.gen + 1⟩ else none
  | _ => none

def hubAct (p : Primary) : Conn → Action → Option Conn
  | .requested offset, .readGeneration => some (.started p.gen offset)
  | .started startGen offset, .openWALReader =>
    some (if offset > p.wal.length then .refused else .opened startGen offset)
  | .opened startGen offset, .sendHeader =>
    some (.answered ⟨startGen, offset, false, []⟩ (p.store.snap.elim [] checksumHeader))
  | conn, .checkGeneration => conn.mapStream fun s => s.check p.gen
  | conn, .readWAL n => conn.mapStream fun s => s.read p.wal n
  | .fetching, .openSnapshotReader => p.store.snap.map .fetched
  | .fetched data, .sendSnapshot => some (.delivered (p.store.snap.elim [] checksumHeader) data)
  | _, _ => none

/-- The client may lose its connection at any time, but a stream only at the end of a frame. -/
def clientAct (fl : Flate) (c : Client) : Conn → Action → Option (Conn × Client)
  | .idle, .startSync => some (if c.snap.isSome then .requested c.log.length else .fetching, c)
  | .refused, .readResponse => some (.fetching, c)
  | .answered s header, .readResponse =>
    if c.snap.any fun data => checksumDiffers data header then some (.fetching, c)
    else some (.streaming s c [], (ingest c [] .eof).1)
  | .streaming s start got, .receive n =>
    let got' := got ++ s.pipe.take n
    some (.streaming { s with pipe := s.pipe.drop n } start got', (ingest start got' .eof).1)
  | .delivered header data, .installSnapshot =>
    some (.idle, (downloadSnapshot fl c (some ⟨statusOK, header, data, .eof⟩)).1)
  | .streaming _ _ got, .disconnect => if (replay got .eof).2 = none then some (.idle, c) else none
  | _, .disconnect => some (.idle, c)
  | _, _ => none

def System.act (fl : Flate) (σ : System) (a : Action) : Option System :=
  match σ.primary.act fl a, hubAct σ.primary σ.conn a, clientAct fl σ.client σ.conn a with
  | some p, _, _ => some { σ with primary := p }
  | none, some conn, _ => some { σ with conn := conn }
  | none, none, some (conn, c) => some ⟨σ.primary, conn, c⟩
  | none, none, none => none

theorem System.act_cases {fl : Flate} {σ σ' : System} {a : Action} (h : σ.act fl a = some σ') :
    (∃ p, σ.primary.act fl a = some p ∧ σ' = { σ with primary := p }) ∨
      (∃ conn, hubAct σ.primary σ.conn a = some conn ∧ σ' = { σ with conn := conn }) ∨
        ∃ conn c, clientAct fl σ.client σ.conn a = some (conn, c) ∧ σ' = ⟨σ.primary, conn, c⟩ := by
  unfold System.act at h
  split at h
  · rename_i p hp
    exact .inl ⟨p, hp, (Option.some.inj h).symm⟩
  · rename_i conn _ hc
    exact .inr (.inl ⟨conn, hc, (Option.some.inj h).symm⟩)
  · rename_i conn c _ _ hc
    exact .inr (.inr ⟨conn, c, hc, (Option.some.inj h).symm⟩)
  · cases h

end Kdns.Cluster
