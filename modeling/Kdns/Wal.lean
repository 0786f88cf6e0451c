import Kdns.Codec
import Kdns.Lib.FramedLog
import Kdns.Lib.BufferedFile

namespace Kdns.Wal

open ByteStream FramedLog BufferedFile Dns Codec

inductive Op where
  | upsert (domain : Bytes) (records : RRSets)
  | delete (domain : Bytes)
  deriving DecidableEq, Repr

def opUpsert : UInt8 := 0x01
def opDelete : UInt8 := 0x02

inductive Context where
  | opcode
  | upsertPayload
  | upsertChecksum
  | deleteLength
  | deleteName
  | deleteChecksum
  deriving DecidableEq, Repr

inductive WriteStage where
  | upsertOpcode
  | upsertPayload
  | checksum
  | deleteFrame
  | flushBuffer
  | syncFile
  deriving DecidableEq, Repr

inductive WalError where
  | capacityExceeded
  | corruptedData
  | invalidOpcode (op : UInt8)
  | truncated
  | io (ctx : Context) (e : ReadError)
  | codec (ctx : Context) (e : CodecError)
  | write (stage : WriteStage)
  deriving DecidableEq, Repr

abbrev Writer := BufWriter

def reportWrite (stage : WriteStage) (r : Writer × Bool) : Writer × Option WalError :=
  (r.1, if r.2 then none else some (.write stage))

def upsertPayload (domain : Bytes) (records : RRSets) : Bytes := opUpsert :: encodeRecord domain records

def deletePayload (domain : Bytes) : Bytes := opDelete :: (bigEndian 2 domain.length ++ domain)

def checksum (payload : Bytes) : Bytes := bigEndian 4 (crc32 payload).toNat

/-- The opcode is in the buffer before `writeRecord` checks the limits of the codec. -/
def appendUpsert (w : Writer) (domain : Bytes) (records : RRSets) : Writer × Option WalError :=
  if domain.length > maxDomainLen ∨ records.length > maxRecordsPerDomain then (w, some .capacityExceeded)
  else
    let r := w.write [opUpsert]
    if r.2 then
      match writeRecord domain records with
      | .error (.capacityExceeded _) => (r.1, some .capacityExceeded)
      | .error e => (r.1, some (.codec .upsertPayload e))
      | .ok bs =>
        let r' := r.1.write bs
        if r'.2 then reportWrite .checksum (r'.1.write (checksum (opUpsert :: bs)))
        else (r'.1, some (.write .upsertPayload))
    else (r.1, some (.write .upsertOpcode))

def appendDelete (w : Writer) (domain : Bytes) : Writer × Option WalError :=
  if domain.length > maxDomainLen then (w, some .capacityExceeded)
  else reportWrite .deleteFrame (w.write (deletePayload domain ++ checksum (deletePayload domain)))

def append (w : Writer) : Op → Writer × Option WalError
  | .upsert domain records => appendUpsert w domain records
  | .delete domain => appendDelete w domain

def flush (w : Writer) : Writer × Option WalError :=
  let r := w.flush
  if r.2 then
    let f := r.1.file.sync
    ({ r.1 with file := f.1 }, if f.2 then none else some (.write .syncFile))
  else (r.1, some (.write .flushBuffer))

def normalizeEOF (ctx : Context) : ReadError → WalError
  | .eof => .truncated
  | .unexpectedEof => .truncated
  | e => .io ctx e

def normalizeCodec (ctx : Context) : CodecError → WalError
  | .read _ .eof => .truncated
  | .read _ .unexpectedEof => .truncated
  | .corruptedData _ => .corruptedData
  | e => .codec ctx e

def sum32 {ε : Type} : Parser ε UInt32 := fun s => .ok (crc32 s.hashed, s)

def verifyChecksum (ctx : Context) : Parser WalError Unit := do
  let b ← wrapError (normalizeEOF ctx) (readFull 4)
  let sum ← sum32
  failIf (ofBigEndian b ≠ sum.toNat) .corruptedData

def replayUpsert : Parser WalError Op := do
  let r ← wrapError (normalizeCodec .upsertPayload) readRecord
  verifyChecksum .upsertChecksum
  return .upsert r.1 r.2

def readDeleteName : Parser WalError Bytes := do
  let b ← wrapError (normalizeEOF .deleteLength) (readFull 2)
  failIf (ofBigEndian b = 0 ∨ ofBigEndian b > maxDomainLen) .corruptedData
  feed b
  let domain ← wrapError (normalizeEOF .deleteName) (readFull (ofBigEndian b))
  feed domain
  return domain

def replayDelete : Parser WalError Op := do
  let domain ← readDeleteName
  verifyChecksum .deleteChecksum
  return .delete domain

def replayBody (op : UInt8) : Parser WalError Op :=
  if op = opUpsert then replayUpsert
  else if op = opDelete then replayDelete
  else throw (.invalidOpcode op)

def nextFrame (s : Source) : Option (Except WalError (Op × Source)) :=
  match readFull 1 { s with hashed := [] } with
  | .error .eof => none
  | .error e => some (.error (normalizeEOF .opcode e))
  | .ok (b, s') => some ((feed b >>= fun _ => replayBody (b.headD 0)) s')

def Cut : ReadError → WalError → Prop
  | .other c, e => (∃ ctx, e = .io ctx (.other c)) ∨ ∃ ctx f, e = .codec ctx (.read f (.other c))
  | _, e => e = .truncated

theorem cut_normalizeEOF (ctx : Context) (tail e : ReadError) (h : IsEnd tail e) : Cut tail (normalizeEOF ctx e) := by
  rcases h with rfl | ⟨rfl, rfl⟩
  · cases e with
    | eof => rfl
    | unexpectedEof => rfl
    | other c => exact .inl ⟨ctx, rfl⟩
  · rfl

theorem cut_normalizeCodec (ctx : Context) (tail : ReadError) (e : CodecError) (h : Codec.Cut tail e) :
    Cut tail (normalizeCodec ctx e) := by
  obtain ⟨f, r, rfl, hr⟩ := h
  rcases hr with rfl | ⟨rfl, rfl⟩
  · cases r with
    | eof => rfl
    | unexpectedEof => rfl
    | other c => exact .inr ⟨ctx, f, rfl⟩
  · rfl

theorem streaming_sum32 {ε : Type} : Streaming (sum32 (ε := ε)) := by
  intro s a s' h
  cases h
  exact ⟨[], rfl, rfl, fun rest tail => rfl⟩

theorem streaming_verifyChecksum (ctx : Context) : Streaming (verifyChecksum ctx) :=
  streaming_bind (streaming_wrapError _ (streaming_readFull 4)) fun _ =>
    streaming_bind streaming_sum32 fun _ => streaming_failIf _

theorem streaming_replayUpsert : Streaming replayUpsert :=
  streaming_bind (streaming_wrapError _ streaming_readRecord) fun _ =>
    streaming_bind (streaming_verifyChecksum _) fun _ => streaming_pure _

theorem streaming_readDeleteName : Streaming readDeleteName :=
  streaming_bind (streaming_wrapError _ (streaming_readFull 2)) fun _ =>
    streaming_bind (streaming_failIf _) fun _ => streaming_bind (streaming_feed _) fun _ =>
      streaming_bind (streaming_wrapError _ (streaming_readFull _)) fun _ =>
        streaming_bind (streaming_feed _) fun _ => streaming_pure _

theorem streaming_replayDelete : Streaming replayDelete :=
  streaming_bind streaming_readDeleteName fun _ =>
    streaming_bind (streaming_verifyChecksum _) fun _ => streaming_pure _

theorem streaming_replayBody (op : UInt8) : Streaming (replayBody op) := by
  unfold replayBody
  split_ifs
  · exact streaming_replayUpsert
  · exact streaming_replayDelete
  · apply streaming_throw

theorem nextFrame_cons (b : UInt8) (d : Bytes) (t : ReadError) (h : Bytes) :
    nextFrame ⟨b :: d, t, h⟩ = some ((feed [b] >>= fun _ => replayBody b) ⟨d, t, []⟩) := by
  simp [nextFrame, readFull]

theorem nextFrame_ok (s : Source) (a : Op) (s' : Source) (h : nextFrame s = some (.ok (a, s'))) :
    ∃ c, c ≠ [] ∧ s.data = c ++ s'.data ∧ s'.tail = s.tail ∧
      ∀ rest tail, nextFrame ⟨c ++ rest, tail, s.hashed⟩ = some (.ok (a, ⟨rest, tail, s'.hashed⟩)) := by
  obtain ⟨d, t, hh⟩ := s
  cases d with
  | nil => cases t <;> simp [nextFrame, readFull, shortError] at h
  | cons b d =>
    rw [nextFrame_cons, Option.some.injEq] at h
    obtain ⟨c, hc, ht, hx⟩ :=
      streaming_bind (streaming_feed [b]) (fun _ => streaming_replayBody b) ⟨d, t, []⟩ a s' h
    refine ⟨b :: c, by simp, by simpa using hc, ht, fun rest tail => ?_⟩
    exact congrArg some (hx rest tail)

def frames : FrameReader WalError Op where
  next := nextFrame
  cut := Cut
  next_hashed _ _ _ _ := rfl
  next_ok := nextFrame_ok
  next_nil _ := rfl
  next_cut t h ht := by
    cases t with
    | eof => exact absurd rfl ht
    | unexpectedEof => exact ⟨_, rfl, rfl⟩
    | other c => exact ⟨_, rfl, .inl ⟨_, rfl⟩⟩
  next_none s h := by
    obtain ⟨d, t, hh⟩ := s
    cases d with
    | nil => rfl
    | cons b d => rw [nextFrame_cons] at h; cases h

def replay (data : Bytes) (tail : ReadError) : List Op × Option WalError := readAll frames ⟨data, tail, []⟩

end Kdns.Wal
