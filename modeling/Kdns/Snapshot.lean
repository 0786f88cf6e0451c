import Kdns.Codec
import Kdns.Radix.History

namespace Kdns.Snapshot

open ByteStream Dns Codec Radix List

def snapMagic : Bytes := [0x4B, 0x44, 0x4E, 0x53]
def snapVersion : UInt8 := 0x01
def headerSize : ℕ := 13
def checksumSize : ℕ := 4
def maxUint32 : ℕ := 2 ^ 32 - 1

structure Flate where
  compress : Bytes → Bytes
  decompress : Bytes → Bytes × ReadError
  decompress_compress (d : Bytes) : decompress (compress d) = (d, .eof)

def Flate.none : Flate := ⟨id, fun d => (d, .eof), fun _ => rfl⟩

inductive SnapError where
  | domainCount
  | bodyLength
  | capacityExceeded
  | writeRecord (e : CodecError)
  | header (e : ReadError)
  | invalidMagic
  | unsupportedVer
  | corruptedData
  | readRecord (e : CodecError)
  | checksum (e : ReadError)
  | checksumFailed
  deriving DecidableEq, Repr

def encodeRecords : List (Bytes × RRSets) → Except SnapError Bytes
  | [] => .ok []
  | (domain, rs) :: rest =>
    match writeRecord domain rs with
    | .error (.capacityExceeded _) => .error .capacityExceeded
    | .error e => .error (.writeRecord e)
    | .ok bs =>
      match encodeRecords rest with
      | .error e => .error e
      | .ok body => .ok (bs ++ body)

def encodeHeader (totalDomains bodyLen : ℕ) : Bytes :=
  snapMagic ++ (snapVersion :: (bigEndian 4 totalDomains ++ bigEndian 4 bodyLen))

def frame (totalDomains : ℕ) (body : Bytes) : Bytes :=
  let head := encodeHeader totalDomains body.length
  head ++ (body ++ bigEndian 4 (crc32 (head ++ body)).toNat)

def save (fl : Flate) (tree : Tree) : Except SnapError Bytes :=
  if tree.len > maxUint32 then .error .domainCount
  else
    match encodeRecords tree.walk with
    | .error e => .error e
    | .ok records =>
      let body := fl.compress records
      if body.length > maxUint32 then .error .bodyLength else .ok (frame tree.len body)

theorem mutateAll_canonical (ms ms' : List Mutation)
    (h : ∀ d, (Tree.new.mutateAll ms).get d = (Tree.new.mutateAll ms').get d) :
    Tree.new.mutateAll ms = Tree.new.mutateAll ms' ∧ WF (Tree.new.mutateAll ms).root ∧
      (Tree.new.mutateAll ms).walk = (Tree.new.mutateAll ms').walk ∧
      encodeRecords (Tree.new.mutateAll ms).walk = encodeRecords (Tree.new.mutateAll ms').walk := by
  have hv := Tree.valid_mutateAll ms
  have he := Tree.ext_get hv (Tree.valid_mutateAll ms') h
  refine ⟨he, hv.wf, ?_, ?_⟩
  · rw [he]
  · rw [he]

theorem mutateAll_canonical_swap :
    Tree.new.mutateAll [.upsert [0x61] [⟨[[1]], 300, 1, classIN⟩], .upsert star [⟨[[2]], 300, 1, classIN⟩]] =
      Tree.new.mutateAll [.upsert star [⟨[[2]], 300, 1, classIN⟩], .upsert [0x62, dot, 0x61] [⟨[[3]], 300, 1, classIN⟩],
        .deleteDomain [0x62, dot, 0x61], .upsert [0x41] [⟨[[1]], 300, 1, classIN⟩]] := by
  refine (mutateAll_canonical _ _ fun d => ?_).1
  have hA : normalLabels [0x41] = [[0x61]] := by decide
  have ha : normalLabels [0x61] = [[0x61]] := by decide
  have hba : normalLabels [0x62, dot, 0x61] = [[0x61], [0x62]] := by decide
  have hs : normalLabels star = [star] := by decide
  simp only [get_mutateAll, lastRecords, reverse_cons, reverse_nil, nil_append, cons_append,
    find?_cons, find?_nil, Mutation.domain, hA, ha, hba, hs]
  by_cases h₁ : [[0x61]] = normalLabels d
  · simp [← h₁, Radix.star, Mutation.stored, Mutation.records]
  by_cases h₂ : [[0x61], [0x62]] = normalLabels d
  · simp [← h₂, Radix.star, Mutation.stored, Mutation.records]
  · simp [h₁, h₂]

structure Header where
  totalDomains : ℕ
  bodyLen : ℕ

def readHeader (data : Bytes) : Except SnapError Header :=
  if data.length < headerSize then .error (.header (if data = [] then .eof else .unexpectedEof))
  else if data.take 4 ≠ snapMagic then .error .invalidMagic
  else if data.getD 4 0 ≠ snapVersion then .error .unsupportedVer
  else .ok ⟨ofBigEndian ((data.drop 5).take 4), ofBigEndian ((data.drop 9).take 4)⟩

def readRecords : ℕ → Source → List (Bytes × RRSets) × Option CodecError
  | 0, _ => ([], none)
  | n + 1, s =>
    match readRecord s with
    | .error e => ([], some e)
    | .ok (r, s') =>
      let rest := readRecords n s'
      (r :: rest.1, rest.2)

def verifyTrailer (hashed trailer : Bytes) : Option SnapError :=
  if trailer.length < checksumSize then some (.checksum (if trailer = [] then .eof else .unexpectedEof))
  else if (crc32 hashed).toNat ≠ ofBigEndian (trailer.take checksumSize) then some .checksumFailed
  else none

def load (fl : Flate) (data : Bytes) : List (Bytes × RRSets) × Option SnapError :=
  match readHeader data with
  | .error e => ([], some e)
  | .ok h =>
    let body := (data.drop headerSize).take h.bodyLen
    let stream := fl.decompress body
    match readRecords h.totalDomains ⟨stream.1, stream.2, []⟩ with
    | (rs, some (.corruptedData _)) => (rs, some .corruptedData)
    | (rs, some e) => (rs, some (.readRecord e))
    | (rs, none) => (rs, verifyTrailer (data.take headerSize ++ body) (data.drop (headerSize + h.bodyLen)))

def readChecksum (data : Bytes) : Option ℕ :=
  if data.length < checksumSize then none else some (ofBigEndian (data.drop (data.length - checksumSize)))

def encodeEntries (es : List (Bytes × RRSets)) : Bytes := es.flatMap fun e => encodeRecord e.1 e.2

theorem encodeRecords_ok {es : List (Bytes × RRSets)} {body : Bytes} (h : encodeRecords es = .ok body) :
    body = encodeEntries es ∧ ∀ e ∈ es, Fits e.1 e.2 := by
  induction es generalizing body with
  | nil => cases h; simp [encodeEntries]
  | cons e es ih =>
    rw [encodeRecords] at h
    split at h
    · cases h
    · cases h
    · rename_i bs hbs
      split at h
      · cases h
      · rename_i rest hrest
        cases h
        obtain ⟨rfl, hf⟩ := writeRecord_ok hbs
        obtain ⟨rfl, hfs⟩ := ih hrest
        exact ⟨rfl, forall_mem_cons.mpr ⟨hf, hfs⟩⟩

theorem readRecords_encodeEntries {es : List (Bytes × RRSets)} (hf : ∀ e ∈ es, Fits e.1 e.2)
    (hc : ∀ e ∈ es, ClassIN e.2) (rest : Bytes) (tail : ReadError) (hashed : Bytes) :
    readRecords es.length ⟨encodeEntries es ++ rest, tail, hashed⟩ = (es, none) := by
  induction es generalizing hashed with
  | nil => rfl
  | cons e es ih =>
    obtain ⟨hf₁, hf₂⟩ := forall_mem_cons.mp hf
    obtain ⟨hc₁, hc₂⟩ := forall_mem_cons.mp hc
    have hr := (reads_readRecord e.1 e.2 hf₁ hc₁).1 (encodeEntries es ++ rest) tail hashed
    rw [length_cons, readRecords, encodeEntries, flatMap_cons, append_assoc]
    rw [encodeEntries] at hr
    rw [hr]
    exact congrArg (fun x => (e :: x.1, x.2)) (ih hf₂ hc₂ _)

theorem readRecords_yields (n : ℕ) (s : Source) : (∀ e ∈ (readRecords n s).1, Fits e.1 e.2 ∧ ClassIN e.2) ∧
      ((readRecords n s).2 = none → (readRecords n s).1.length = n) := by
  induction n generalizing s with
  | zero => simp [readRecords]
  | succ n ih =>
    rw [readRecords]
    split
    · simp
    · rename_i r s' hr
      refine ⟨forall_mem_cons.mpr ⟨yields_readRecord s r s' hr, (ih s').1⟩, fun h => ?_⟩
      exact congrArg Nat.succ ((ih s').2 h)

theorem load_fits (fl : Flate) (data : Bytes) : ∀ e ∈ (load fl data).1, Fits e.1 e.2 ∧ ClassIN e.2 := by
  unfold load
  split
  · simp
  · rename_i h _
    dsimp only
    generalize hs : fl.decompress (take h.bodyLen (drop headerSize data)) = stream
    have hr := (readRecords_yields h.totalDomains ⟨stream.1, stream.2, []⟩).1
    split <;> rename_i heq <;> rw [heq] at hr <;> exact hr

theorem encodeHeader_length (totalDomains bodyLen : ℕ) : (encodeHeader totalDomains bodyLen).length = headerSize := by
  simp [encodeHeader, snapMagic, headerSize]

theorem readHeader_encodeHeader {totalDomains bodyLen : ℕ} (ht : totalDomains ≤ maxUint32) (hb : bodyLen ≤ maxUint32)
    (rest : Bytes) : readHeader (encodeHeader totalDomains bodyLen ++ rest) = .ok ⟨totalDomains, bodyLen⟩ := by
  have h₁ := ofBigEndian_bigEndian 4 totalDomains (by unfold maxUint32 at ht; omega)
  have h₂ := ofBigEndian_bigEndian 4 bodyLen (by unfold maxUint32 at hb; omega)
  have hl := bigEndian_length 4 totalDomains
  have hl' := bigEndian_length 4 bodyLen
  rw [encodeHeader]
  generalize bigEndian 4 totalDomains = x at h₁ hl
  generalize bigEndian 4 bodyLen = y at h₂ hl'
  have hx : ((snapMagic ++ snapVersion :: (x ++ y) ++ rest).drop 5).take 4 = x := by
    have hd : (snapMagic ++ snapVersion :: (x ++ y) ++ rest).drop 5 = x ++ (y ++ rest) := by simp [snapMagic]
    rw [hd, ← hl, take_left]
  have hy : ((snapMagic ++ snapVersion :: (x ++ y) ++ rest).drop 9).take 4 = y := by
    have hd : (snapMagic ++ snapVersion :: (x ++ y) ++ rest).drop 9 = (x ++ (y ++ rest)).drop 4 := by simp [snapMagic]
    rw [hd, ← hl, drop_left, hl, ← hl', take_left]
  rw [readHeader, if_neg, if_neg, if_neg, hx, hy, h₁, h₂]
  · simp [snapMagic]
  · simp [snapMagic]
  · simp [snapMagic, headerSize, hl, hl']
    omega

theorem frame_eq (totalDomains : ℕ) (body : Bytes) : frame totalDomains body = encodeHeader totalDomains body.length ++
      (body ++ bigEndian 4 (crc32 (encodeHeader totalDomains body.length ++ body)).toNat) := rfl

theorem load_frame (fl : Flate) {es : List (Bytes × RRSets)} (hf : ∀ e ∈ es, Fits e.1 e.2) (hc : ∀ e ∈ es, ClassIN e.2)
    (hn : es.length ≤ maxUint32) {body : Bytes} (hb : body.length ≤ maxUint32)
    (hd : fl.decompress body = (encodeEntries es, .eof)) : load fl (frame es.length body) = (es, none) := by
  have hlen := encodeHeader_length es.length body.length
  have hread := readRecords_encodeEntries hf hc [] .eof []
  rw [append_nil] at hread
  rw [load, frame_eq, readHeader_encodeHeader hn hb]
  generalize hhead : encodeHeader es.length body.length = head at hlen
  have hsum := ofBigEndian_bigEndian 4 (crc32 (head ++ body)).toNat (crc32 (head ++ body)).toNat_lt
  have hsumlen := bigEndian_length 4 (crc32 (head ++ body)).toNat
  generalize bigEndian 4 (crc32 (head ++ body)).toNat = trailer at hsum hsumlen
  have hbody : ((head ++ (body ++ trailer)).drop headerSize).take body.length = body := by
    rw [← hlen, drop_left, take_left]
  have htake : (head ++ (body ++ trailer)).take headerSize = head := by rw [← hlen, take_left]
  have hdrop : (head ++ (body ++ trailer)).drop (headerSize + body.length) = trailer := by
    rw [← hlen, ← drop_drop, drop_left, drop_left]
  simp only [hbody, htake, hdrop, hd, hread, verifyTrailer]
  rw [checksumSize, ← hsumlen, take_length, hsum]
  simp

theorem load_save {fl : Flate} {t : Tree} {bs : Bytes} (h : save fl t = .ok bs) (hlen : t.walk.length = t.len)
    (hc : ∀ e ∈ t.walk, ClassIN e.2) : load fl bs = (t.walk, none) := by
  rw [save] at h
  split_ifs at h with hn
  split at h
  · cases h
  · rename_i records hrec
    dsimp only at h
    split_ifs at h with hb
    cases h
    obtain ⟨rfl, hf⟩ := encodeRecords_ok hrec
    rw [← hlen]
    exact load_frame fl hf hc (by omega) (by omega) (fl.decompress_compress _)

end Kdns.Snapshot
