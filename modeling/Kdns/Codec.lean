import Kdns.Dns

namespace Kdns.Codec

open ByteStream Dns List

def maxDomainLen : ℕ := 255
def maxRecordsPerDomain : ℕ := 4096
def maxRDataCount : ℕ := 4096
def maxRDataLen : ℕ := 65535
def maxFrameSize : ℕ := 10 * 1024 * 1024

inductive Limit where
  | domainLength (n : ℕ)
  | recordsCount (n : ℕ)
  | rdataCount (n : ℕ)
  | rdataLength (n : ℕ)
  | frameSize
  deriving DecidableEq, Repr

inductive Field where
  | domainLength
  | domainName
  | recordsCount
  | recordMetadata
  | rdataLength
  | rdataPayload
  deriving DecidableEq, Repr

inductive CodecError where
  | capacityExceeded (l : Limit)
  | corruptedData (l : Limit)
  | read (f : Field) (e : ReadError)
  deriving DecidableEq, Repr

def rdataFrameSize : List Bytes → ℕ → Except CodecError ℕ
  | [], size => .ok size
  | r :: rs, size =>
    if r.length > maxRDataLen then .error (.capacityExceeded (.rdataLength r.length))
    else if size + (2 + r.length) > maxFrameSize then .error (.capacityExceeded .frameSize)
    else rdataFrameSize rs (size + (2 + r.length))

def recordsFrameSize : RRSets → ℕ → Except CodecError ℕ
  | [], size => .ok size
  | s :: ss, size =>
    if s.rdata.length > maxRDataCount then .error (.capacityExceeded (.rdataCount s.rdata.length))
    else
      match rdataFrameSize s.rdata (size + 8) with
      | .error e => .error e
      | .ok size' => recordsFrameSize ss size'

def calculateFrameSize (domain : Bytes) (records : RRSets) : Except CodecError ℕ :=
  if domain.length > maxDomainLen then .error (.capacityExceeded (.domainLength domain.length))
  else if records.length > maxRecordsPerDomain then .error (.capacityExceeded (.recordsCount records.length))
  else recordsFrameSize records (2 + domain.length + 2)

def encodeRData (r : Bytes) : Bytes := bigEndian 2 r.length ++ r

def encodeRRSet (s : RRSet) : Bytes :=
  (bigEndian 2 s.type.toNat ++ bigEndian 4 s.ttl.toNat ++ bigEndian 2 s.rdata.length) ++ s.rdata.flatMap encodeRData

def encodeRecord (domain : Bytes) (records : RRSets) : Bytes :=
  bigEndian 2 domain.length ++ (domain ++ (bigEndian 2 records.length ++ records.flatMap encodeRRSet))

def writeRecord (domain : Bytes) (records : RRSets) : Except CodecError Bytes :=
  match calculateFrameSize domain records with
  | .error e => .error e
  | .ok _ => .ok (encodeRecord domain records)

def readBytes (n : ℕ) : Parser ReadError Bytes := do
  let p ← readFull n
  feed p
  return p

def readUint16 : Parser ReadError ℕ := do
  let p ← readBytes 2
  return ofBigEndian p

def readRData : Parser CodecError Bytes := do
  let payloadLen ← wrapError (.read .rdataLength) readUint16
  failIf (payloadLen > maxRDataLen) (.corruptedData (.rdataLength payloadLen))
  wrapError (.read .rdataPayload) (readBytes payloadLen)

def readMetadata : Parser ReadError (RRType × UInt32 × ℕ) := do
  let b ← readBytes 8
  return (UInt16.ofNat (ofBigEndian (b.take 2)), UInt32.ofNat (ofBigEndian ((b.drop 2).take 4)),
    ofBigEndian (b.drop 6))

def readRRSet : Parser CodecError RRSet := do
  let (qType, ttl, rDataCount) ← wrapError (.read .recordMetadata) readMetadata
  failIf (rDataCount > maxRDataCount) (.corruptedData (.rdataCount rDataCount))
  let rData ← readMany readRData rDataCount
  return { type := qType, rrClass := classIN, ttl := ttl, rdata := rData }

def readRecord : Parser CodecError (Bytes × RRSets) := do
  let domainLen ← wrapError (.read .domainLength) readUint16
  failIf (domainLen > maxDomainLen) (.corruptedData (.domainLength domainLen))
  let domain ← wrapError (.read .domainName) (readBytes domainLen)
  let recordsCount ← wrapError (.read .recordsCount) readUint16
  failIf (recordsCount > maxRecordsPerDomain) (.corruptedData (.recordsCount recordsCount))
  let records ← readMany readRRSet recordsCount
  return (domain, records)

def Cut (tail : ReadError) (e : CodecError) : Prop := ∃ f r, e = .read f r ∧ IsEnd tail r

structure Fits (domain : Bytes) (records : RRSets) : Prop where
  domain_le : domain.length ≤ maxDomainLen
  records_le : records.length ≤ maxRecordsPerDomain
  rdata_le : ∀ s ∈ records, s.rdata.length ≤ maxRDataCount ∧ ∀ r ∈ s.rdata, r.length ≤ maxRDataLen

theorem rdataFrameSize_ok {rs : List Bytes} {size n : ℕ} (h : rdataFrameSize rs size = .ok n) :
    n = size + (rs.flatMap encodeRData).length ∧ ∀ r ∈ rs, r.length ≤ maxRDataLen := by
  induction rs generalizing size with
  | nil => cases h; simp
  | cons r rs ih =>
    rw [rdataFrameSize] at h
    split_ifs at h with h₁ h₂
    obtain ⟨hn, hr⟩ := ih h
    refine ⟨?_, forall_mem_cons.mpr ⟨by omega, hr⟩⟩
    simp only [flatMap_cons, length_append, encodeRData, bigEndian_length] at hn ⊢
    omega

theorem recordsFrameSize_ok {ss : RRSets} {size n : ℕ} (h : recordsFrameSize ss size = .ok n) :
    n = size + (ss.flatMap encodeRRSet).length ∧
      ∀ s ∈ ss, s.rdata.length ≤ maxRDataCount ∧ ∀ r ∈ s.rdata, r.length ≤ maxRDataLen := by
  induction ss generalizing size with
  | nil => cases h; simp
  | cons s ss ih =>
    rw [recordsFrameSize] at h
    split_ifs at h with h₁
    split at h
    · cases h
    · rename_i size' hs
      obtain ⟨hn', hr'⟩ := rdataFrameSize_ok hs
      obtain ⟨hn, hr⟩ := ih h
      refine ⟨?_, forall_mem_cons.mpr ⟨⟨by omega, hr'⟩, hr⟩⟩
      simp only [flatMap_cons, length_append, encodeRRSet, bigEndian_length] at hn ⊢
      omega

variable {domain : Bytes} {records : RRSets} {e : CodecError}

theorem calculateFrameSize_ok {n : ℕ} (h : calculateFrameSize domain records = .ok n) :
    n = (encodeRecord domain records).length ∧ Fits domain records := by
  rw [calculateFrameSize] at h
  split_ifs at h with h₁ h₂
  obtain ⟨hn, hr⟩ := recordsFrameSize_ok h
  refine ⟨?_, by omega, by omega, hr⟩
  simp only [encodeRecord, length_append, bigEndian_length]
  omega

theorem rdataFrameSize_error {rs : List Bytes} {size : ℕ} (h : rdataFrameSize rs size = .error e) :
    ∃ l, e = .capacityExceeded l := by
  induction rs generalizing size with
  | nil => cases h
  | cons r rs ih =>
    rw [rdataFrameSize] at h
    split_ifs at h
    · cases h; exact ⟨_, rfl⟩
    · cases h; exact ⟨_, rfl⟩
    · exact ih h

theorem recordsFrameSize_error {ss : RRSets} {size : ℕ} (h : recordsFrameSize ss size = .error e) :
    ∃ l, e = .capacityExceeded l := by
  induction ss generalizing size with
  | nil => cases h
  | cons s ss ih =>
    rw [recordsFrameSize] at h
    split_ifs at h
    · cases h; exact ⟨_, rfl⟩
    · split at h
      · rename_i hs
        cases h
        exact rdataFrameSize_error hs
      · exact ih h

theorem writeRecord_ok {bs : Bytes} (h : writeRecord domain records = .ok bs) :
    bs = encodeRecord domain records ∧ Fits domain records := by
  rw [writeRecord] at h
  split at h
  · cases h
  · rename_i hn
    cases h
    exact ⟨rfl, (calculateFrameSize_ok hn).2⟩

theorem writeRecord_error (h : writeRecord domain records = .error e) : ∃ l, e = .capacityExceeded l := by
  rw [writeRecord] at h
  split at h
  · rename_i hn
    cases h
    rw [calculateFrameSize] at hn
    split_ifs at hn
    · cases hn; exact ⟨_, rfl⟩
    · cases hn; exact ⟨_, rfl⟩
    · exact recordsFrameSize_error hn
  · cases h

theorem reads_readBytes (bs : Bytes) : Reads IsEnd (readBytes bs.length) bs bs bs := by
  have h : Reads IsEnd (readBytes bs.length) (bs ++ []) ([] ++ (bs ++ [])) bs :=
    reads_bind (reads_readFull bs) (reads_feed (reads_pure bs))
  rwa [append_nil, nil_append] at h

theorem reads_readUint16 (n : ℕ) (hn : n < 256 ^ 2) : Reads IsEnd readUint16 (bigEndian 2 n) (bigEndian 2 n) n := by
  have h := reads_readBytes (bigEndian 2 n)
  have h' := reads_map h ofBigEndian
  rwa [ofBigEndian_bigEndian 2 n hn] at h'

theorem reads_read {α : Type} {p : Parser ReadError α} {bs hs : Bytes} {a : α} (f : Field)
    (h : Reads IsEnd p bs hs a) : Reads Cut (wrapError (.read f) p) bs hs a :=
  reads_wrapError h fun _ e he => ⟨f, e, rfl, he⟩

theorem reads_readRData (r : Bytes) (hr : r.length ≤ maxRDataLen) :
    Reads Cut readRData (encodeRData r) (encodeRData r) r := by
  have hn : r.length < 256 ^ 2 := by unfold maxRDataLen at hr; omega
  exact reads_bind (reads_read _ (reads_readUint16 r.length hn))
    (reads_failIf (by omega) (reads_read _ (reads_readBytes r)))

theorem reads_readMetadata (t : RRType) (ttl : UInt32) (n : ℕ) (hn : n < 256 ^ 2) :
    Reads IsEnd readMetadata (bigEndian 2 t.toNat ++ bigEndian 4 ttl.toNat ++ bigEndian 2 n)
      (bigEndian 2 t.toNat ++ bigEndian 4 ttl.toNat ++ bigEndian 2 n) (t, ttl, n) := by
  have h := reads_readBytes (bigEndian 2 t.toNat ++ bigEndian 4 ttl.toNat ++ bigEndian 2 n)
  have h' := reads_map h fun b => (UInt16.ofNat (ofBigEndian (b.take 2)),
    UInt32.ofNat (ofBigEndian ((b.drop 2).take 4)), ofBigEndian (b.drop 6))
  have hcount : (bigEndian 2 t.toNat ++ bigEndian 4 ttl.toNat ++ bigEndian 2 n).drop 6 = bigEndian 2 n :=
    drop_left' (by simp)
  simp only [hcount, ofBigEndian_bigEndian 2 n hn] at h'
  simp only [append_assoc, take_left' (bigEndian_length _ _), drop_left' (bigEndian_length _ _),
    ofBigEndian_bigEndian 2 _ t.toNat_lt, ofBigEndian_bigEndian 4 _ ttl.toNat_lt,
    UInt16.ofNat_toNat, UInt32.ofNat_toNat] at h' ⊢
  exact h'

theorem reads_readRRSet (s : RRSet) (hc : s.rrClass = classIN) (hn : s.rdata.length ≤ maxRDataCount)
    (hr : ∀ r ∈ s.rdata, r.length ≤ maxRDataLen) : Reads Cut readRRSet (encodeRRSet s) (encodeRRSet s) s := by
  have hl : s.rdata.length < 256 ^ 2 := by unfold maxRDataCount at hn; omega
  obtain ⟨rdata, ttl, t, c⟩ := s
  subst hc
  have hrs := reads_readMany rdata fun r h => reads_readRData r (hr r h)
  exact reads_bind (reads_read _ (reads_readMetadata t ttl rdata.length hl))
    (reads_failIf (by dsimp only at hn ⊢; omega)
      (reads_map hrs fun rs => ({ type := t, rrClass := classIN, ttl := ttl, rdata := rs } : RRSet)))

theorem reads_readRecord (domain : Bytes) (records : RRSets) (hf : Fits domain records) (hc : ClassIN records) :
    Reads Cut readRecord (encodeRecord domain records) (encodeRecord domain records)
      (domain, records) := by
  have hd : domain.length < 256 ^ 2 := by have := hf.domain_le; unfold maxDomainLen at this; omega
  have hn : records.length < 256 ^ 2 := by have := hf.records_le; unfold maxRecordsPerDomain at this; omega
  have hrs := reads_readMany records fun s h =>
    reads_readRRSet s (hc s h) (hf.rdata_le s h).1 (hf.rdata_le s h).2
  exact reads_bind (reads_read _ (reads_readUint16 domain.length hd))
    (reads_failIf (by have := hf.domain_le; omega)
      (reads_bind (reads_read _ (reads_readBytes domain))
        (reads_bind (reads_read _ (reads_readUint16 records.length hn))
          (reads_failIf (by have := hf.records_le; omega)
            (reads_map hrs fun rs => (domain, rs))))))

theorem streaming_readBytes (n : ℕ) : Streaming (readBytes n) :=
  streaming_bind (streaming_readFull n) fun p => streaming_bind (streaming_feed p) fun _ => streaming_pure p

theorem streaming_readUint16 : Streaming readUint16 :=
  streaming_bind (streaming_readBytes 2) fun _ => streaming_pure _

theorem streaming_readRData : Streaming readRData :=
  streaming_bind (streaming_wrapError _ streaming_readUint16) fun _ =>
    streaming_bind (streaming_failIf _) fun _ => streaming_wrapError _ (streaming_readBytes _)

theorem streaming_readRRSet : Streaming readRRSet :=
  streaming_bind (streaming_wrapError _ (streaming_bind (streaming_readBytes 8) fun _ => streaming_pure _)) fun _ =>
    streaming_bind (streaming_failIf _) fun _ =>
      streaming_bind (streaming_readMany streaming_readRData _) fun _ => streaming_pure _

theorem streaming_readRecord : Streaming readRecord :=
  streaming_bind (streaming_wrapError _ streaming_readUint16) fun _ =>
    streaming_bind (streaming_failIf _) fun _ =>
      streaming_bind (streaming_wrapError _ (streaming_readBytes _)) fun _ =>
        streaming_bind (streaming_wrapError _ streaming_readUint16) fun _ =>
          streaming_bind (streaming_failIf _) fun _ =>
            streaming_bind (streaming_readMany streaming_readRRSet _) fun _ => streaming_pure _

theorem yields_readBytes (n : ℕ) : Yields (readBytes n) fun bs => bs.length = n :=
  yields_bind (yields_readFull n) fun _ h => yields_bind (yields_true _) fun _ _ => yields_pure h

theorem yields_readRData : Yields readRData fun r => r.length ≤ maxRDataLen :=
  yields_bind (yields_true _) fun _ _ => yields_bind (yields_failIf _) fun _ hn =>
    yields_wrapError _ fun s r s' hr => by
      have hlen := yields_readBytes _ s r s' hr
      omega

theorem yields_readRRSet : Yields readRRSet fun s =>
    s.rrClass = classIN ∧ s.rdata.length ≤ maxRDataCount ∧ ∀ r ∈ s.rdata, r.length ≤ maxRDataLen :=
  yields_bind (yields_true _) fun _ _ => yields_bind (yields_failIf _) fun _ hn =>
    yields_bind (yields_readMany yields_readRData _) fun _ hr =>
      yields_pure ⟨rfl, hr.1.le.trans (not_lt.mp hn), hr.2⟩

theorem yields_readRecord : Yields readRecord fun r => Fits r.1 r.2 ∧ ClassIN r.2 :=
  yields_bind (yields_true _) fun _ _ => yields_bind (yields_failIf _) fun _ hd =>
    yields_bind (yields_wrapError _ (yields_readBytes _)) fun _ hlen => yields_bind (yields_true _) fun _ _ =>
      yields_bind (yields_failIf _) fun _ hn => yields_bind (yields_readMany yields_readRRSet _) fun _ hr =>
        yields_pure
          ⟨⟨hlen.le.trans (not_lt.mp hd), hr.1.le.trans (not_lt.mp hn), fun s hs => (hr.2 s hs).2⟩,
            fun s hs => (hr.2 s hs).1⟩

end Kdns.Codec
