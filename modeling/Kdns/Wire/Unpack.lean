import Kdns.Lib.Fallible
import Kdns.Dns

namespace Kdns.Wire

open ByteStream Dns List

def maxLabelLen : ℕ := 63
def maxNameLen : ℕ := 255
def headerSize : ℕ := 12
def maxJumps : ℕ := 10
def maxQuestions : ℕ := 10
def pointerMask : ℕ := 0xC0
def pointerOffsetMask : ℕ := 0x3FFF

inductive WireError where
  | packetTooSmall
  | invalidPointer
  | tooManyJumps
  | outOfBounds
  | tooManyQuestions
  | labelTooLong
  | nameTooLong
  | multipleOPT
  | misplacedOPT
  | bufferTooSmall
  deriving DecidableEq, Repr

def uint16At (p : Bytes) (i : ℕ) : UInt16 := UInt16.ofNat (ofBigEndian ((p.drop i).take 2))

def uint32At (p : Bytes) (i : ℕ) : UInt32 := UInt32.ofNat (ofBigEndian ((p.drop i).take 4))

structure Decompressor where
  offset : ℕ
  resume : ℕ
  jumped : Bool
  buffer : Bytes
  jumps : ℕ
  deriving DecidableEq, Repr

def dotByte : UInt8 := 0x2E

inductive DecodeStep where
  | done
  | more (d : Decompressor)
  | failed (e : WireError)
  deriving DecidableEq, Repr

def Decompressor.step (p : Bytes) (d : Decompressor) : DecodeStep :=
  if d.jumps > maxJumps then .failed .tooManyJumps
  else
    match p[d.offset]? with
    | none => .failed .outOfBounds
    | some octet =>
      if octet = 0 then .done
      else if octet.toNat &&& pointerMask = pointerMask then
        if d.offset + 1 ≥ p.length then .failed .outOfBounds
        else
          let pointer := (uint16At p d.offset).toNat &&& pointerOffsetMask
          if pointer ≥ p.length ∨ pointer ≥ d.offset then .failed .invalidPointer
          else .more ⟨pointer, if d.jumped then d.resume else d.resume + 2, true, d.buffer, d.jumps + 1⟩
      else if octet.toNat > maxLabelLen then .failed .labelTooLong
      else
        let next := d.offset + 1 + octet.toNat
        if next > p.length then .failed .outOfBounds
        else if d.buffer.length + octet.toNat + 1 > maxNameLen then .failed .nameTooLong
        else
          let label := (p.drop (d.offset + 1)).take octet.toNat
          .more ⟨next, if d.jumped then d.resume else next, d.jumped, d.buffer ++ label ++ [dotByte], d.jumps⟩

def Decompressor.result (d : Decompressor) : Bytes × ℕ :=
  (d.buffer.dropLast, if d.jumped then d.resume else d.resume + 1)

def decodeFrom (p : Bytes) : ℕ → Decompressor → Except WireError (Bytes × ℕ)
  | 0, _ => .error .tooManyJumps
  | fuel + 1, d =>
    match d.step p with
    | .done => .ok d.result
    | .failed e => .error e
    | .more d' => decodeFrom p fuel d'

def Decompressor.budget (d : Decompressor) : ℕ := (maxJumps + 1 - d.jumps) + (maxNameLen - d.buffer.length)

def decodeFuel : ℕ := maxJumps + maxNameLen + 2

def unpackDomainName (p : Bytes) (offset : ℕ) : Except WireError (Bytes × ℕ) :=
  decodeFrom p decodeFuel ⟨offset, offset, false, [], 0⟩

variable {p : Bytes} {d d' : Decompressor}

theorem Decompressor.step_more (h : d.step p = .more d') :
    (d'.buffer = d.buffer ∧ d'.jumps = d.jumps + 1 ∧ d.jumps ≤ maxJumps) ∨
      ∃ label : Bytes, d'.buffer = d.buffer ++ label ++ [dotByte] ∧ d'.jumps = d.jumps ∧
        label.length ≤ maxLabelLen ∧ 0 < label.length ∧ d.buffer.length + label.length + 1 ≤ maxNameLen := by
  unfold Decompressor.step at h
  obtain ⟨hj, h⟩ := Fallible.of_ite h nofun
  cases hoctet : p[d.offset]? with
  | none => rw [hoctet] at h; cases h
  | some octet =>
    simp only [hoctet] at h
    split_ifs at h with h0 <;> cases h
    · left
      exact ⟨rfl, rfl, Nat.le_of_not_lt hj⟩
    · left
      exact ⟨rfl, rfl, Nat.le_of_not_lt hj⟩
    all_goals
      right
      have hpos : octet.toNat ≠ 0 := fun hz => h0 (UInt8.toNat_inj.mp hz)
      have hlen : ((p.drop (d.offset + 1)).take octet.toNat).length = octet.toNat := by
        rw [length_take, length_drop]
        omega
      refine ⟨_, rfl, rfl, ?_, ?_, ?_⟩ <;> rw [hlen] <;> omega

theorem Decompressor.budget_step (h : d.step p = .more d') : d'.budget < d.budget := by
  rcases Decompressor.step_more h with ⟨hbuf, hjumps, hle⟩ | ⟨label, hbuf, hjumps, -, hpos, hle⟩
  · rw [budget, budget, hbuf, hjumps]
    omega
  · rw [budget, budget, hbuf, hjumps]
    simp only [length_append, length_singleton]
    omega

theorem decodeFrom_fuel (p : Bytes) {fuel fuel' : ℕ} (h : d.budget < fuel) (h' : d.budget < fuel') :
    decodeFrom p fuel d = decodeFrom p fuel' d := by
  induction fuel generalizing d fuel' with
  | zero => omega
  | succ fuel ih =>
    obtain ⟨k, rfl⟩ : ∃ k, fuel' = k + 1 := ⟨fuel' - 1, by omega⟩
    simp only [decodeFrom]
    cases hs : d.step p with
    | done => rfl
    | failed e => rfl
    | more d' =>
      have hb := Decompressor.budget_step hs
      apply ih <;> omega

theorem Decompressor.resume_step (h : d.step p = .more d') (hd : d.jumped = false → d.resume = d.offset) :
    d.resume ≤ d'.resume ∧ (d'.jumped = false → d'.resume = d'.offset) := by
  unfold Decompressor.step at h
  obtain ⟨hj, h⟩ := Fallible.of_ite h nofun
  cases hoctet : p[d.offset]? with
  | none => rw [hoctet] at h; cases h
  | some octet =>
    simp only [hoctet] at h
    split_ifs at h <;> cases h
    · exact ⟨le_rfl, nofun⟩
    · exact ⟨Nat.le_add_right _ 2, nofun⟩
    · rename_i hjumped
      refine ⟨le_rfl, fun hf => ?_⟩
      rw [hjumped] at hf
      cases hf
    · rename_i hjumped
      have := hd (Bool.eq_false_iff.mpr hjumped)
      dsimp only
      omega

theorem decodeFrom_next {fuel : ℕ} {name : Bytes} {next : ℕ} (hd : d.jumped = false → d.resume = d.offset)
    (h : decodeFrom p fuel d = .ok (name, next)) : d.resume ≤ next := by
  induction fuel generalizing d with
  | zero => cases h
  | succ fuel ih =>
    rw [decodeFrom] at h
    cases hs : d.step p with
    | failed e => rw [hs] at h; cases h
    | more d' =>
      rw [hs] at h
      obtain ⟨hle, hd'⟩ := Decompressor.resume_step hs hd
      exact hle.trans (ih hd' h)
    | done =>
      rw [hs] at h
      cases h
      split_ifs <;> omega

theorem unpackDomainName_next {offset next : ℕ} {name : Bytes}
    (h : unpackDomainName p offset = .ok (name, next)) : offset ≤ next :=
  decodeFrom_next (d := ⟨offset, offset, false, [], 0⟩) (fun _ => rfl) h

structure Header where
  id : UInt16
  flags : UInt16
  qdCount : UInt16
  anCount : UInt16
  nsCount : UInt16
  arCount : UInt16
  deriving DecidableEq, Repr

def opcodeQuery : UInt16 := 0
def opcodeUpdate : UInt16 := 5

def Header.opcode (h : Header) : UInt16 := (h.flags >>> 11) &&& 0x0F

def Header.rcode (h : Header) : UInt16 := h.flags &&& 0x0F

def Header.isResponse (h : Header) : Bool := h.flags &&& 0x8000 ≠ 0

def decodeHeader (p : Bytes) : Header :=
  ⟨uint16At p 0, uint16At p 2, uint16At p 4, uint16At p 6, uint16At p 8, uint16At p 10⟩

structure Question where
  name : Bytes
  type : RRType
  rrClass : UInt16
  deriving DecidableEq, Repr

structure Message where
  header : Header
  questions : List Question
  edns0Size : ℕ
  wantsDNSSEC : Bool
  extRCode : UInt8
  deriving DecidableEq, Repr

def decodeQuestion (p : Bytes) (offset : ℕ) : Except WireError (Question × ℕ) := do
  let (name, offset) ← unpackDomainName p offset
  if offset + 4 > p.length then throw .outOfBounds
  let qType := uint16At p offset
  if qType = typeOPT then throw .misplacedOPT
  return (⟨name, qType, uint16At p (offset + 2)⟩, offset + 4)

def decodeQuestions (p : Bytes) : ℕ → ℕ → List Question × Except WireError ℕ
  | 0, offset => ([], .ok offset)
  | n + 1, offset =>
    match decodeQuestion p offset with
    | .error e => ([], .error e)
    | .ok (q, offset) =>
      let r := decodeQuestions p n offset
      (q :: r.1, r.2)

def skipRecord (p : Bytes) (offset : ℕ) : Except WireError ℕ := do
  let (_, offset) ← unpackDomainName p offset
  if offset + 10 > p.length then throw .outOfBounds
  let offset' := offset + 10 + (uint16At p (offset + 8)).toNat
  if offset' > p.length then throw .outOfBounds
  return offset'

def skipRecords (p : Bytes) : ℕ → ℕ → Except WireError ℕ
  | 0, offset => .ok offset
  | n + 1, offset => do
    let offset ← skipRecord p offset
    skipRecords p n offset

structure EDNS0 where
  size : ℕ
  wantsDNSSEC : Bool
  extRCode : UInt8
  deriving DecidableEq, Repr

def EDNS0.none : EDNS0 := ⟨0, false, 0⟩

def decodeEDNS0 (p : Bytes) (found : Option EDNS0) : ℕ → ℕ → Except WireError EDNS0
  | 0, _ => .ok (found.getD .none)
  | n + 1, offset => do
    let (_, offset) ← unpackDomainName p offset
    if offset + 10 > p.length then throw .outOfBounds
    let isOPT := uint16At p offset = typeOPT
    if isOPT ∧ found.isSome then throw .multipleOPT
    let opt : EDNS0 := ⟨(uint16At p (offset + 2)).toNat, uint16At p (offset + 6) &&& 0x8000 ≠ 0, p.getD (offset + 4) 0⟩
    let offset' := offset + 10 + (uint16At p (offset + 8)).toNat
    if offset' > p.length then throw .outOfBounds
    decodeEDNS0 p (if isOPT then some opt else found) n offset'

def unpack (p : Bytes) : Message × Option WireError :=
  if p.length < headerSize then (⟨⟨0, 0, 0, 0, 0, 0⟩, [], 0, false, 0⟩, some .packetTooSmall)
  else
    let h := decodeHeader p
    if h.qdCount.toNat > maxQuestions then (⟨h, [], 0, false, 0⟩, some .tooManyQuestions)
    else
      match decodeQuestions p h.qdCount.toNat headerSize with
      | (qs, .error e) => (⟨h, qs, 0, false, 0⟩, some e)
      | (qs, .ok offset) =>
        match skipRecords p (h.anCount.toNat + h.nsCount.toNat) offset with
        | .error e => (⟨h, qs, 0, false, 0⟩, some e)
        | .ok offset =>
          match decodeEDNS0 p none h.arCount.toNat offset with
          | .error e => (⟨h, qs, 0, false, 0⟩, some e)
          | .ok opt => (⟨h, qs, opt.size, opt.wantsDNSSEC, opt.extRCode⟩, none)

theorem decodeQuestions_length {n offset offset' : ℕ} {qs : List Question}
    (h : decodeQuestions p n offset = (qs, .ok offset')) : qs.length = n := by
  induction n generalizing offset qs with
  | zero =>
    cases h
    rfl
  | succ n ih =>
    rw [decodeQuestions] at h
    cases hq : decodeQuestion p offset with
    | error e => rw [hq] at h; cases h
    | ok r =>
      rw [hq] at h
      obtain ⟨rfl, hr⟩ := Prod.mk.inj h
      rw [length_cons, ih (Prod.ext rfl hr)]

theorem decodeQuestions_length_le (p : Bytes) (n offset : ℕ) : (decodeQuestions p n offset).1.length ≤ n := by
  induction n generalizing offset with
  | zero => exact le_rfl
  | succ n ih =>
    rw [decodeQuestions]
    cases decodeQuestion p offset with
    | error e => exact Nat.zero_le _
    | ok r => exact Nat.succ_le_succ (ih r.2)

theorem unpack_decoded (p : Bytes) : (unpack p).1.questions = [] ∨ (decodeHeader p).qdCount.toNat ≤ maxQuestions ∧
      (unpack p).1.questions = (decodeQuestions p (decodeHeader p).qdCount.toNat headerSize).1 := by
  unfold unpack
  by_cases hlen : p.length < headerSize
  · rw [if_pos hlen]
    exact .inl rfl
  dsimp only
  split_ifs with hcount
  · exact .inl rfl
  refine .inr ⟨Nat.le_of_not_lt hcount, ?_⟩
  generalize decodeQuestions p (decodeHeader p).qdCount.toNat headerSize = r
  obtain ⟨qs, e | offset⟩ := r
  · rfl
  · dsimp only
    cases skipRecords p ((decodeHeader p).anCount.toNat + (decodeHeader p).nsCount.toNat) offset with
    | error e => rfl
    | ok offset =>
      dsimp only
      cases decodeEDNS0 p none (decodeHeader p).arCount.toNat offset with
      | error e => rfl
      | ok opt => rfl

theorem unpack_length_le (p : Bytes) : (unpack p).1.questions.length ≤ maxQuestions := by
  rcases unpack_decoded p with hnil | ⟨hcount, hqs⟩
  · rw [hnil]
    exact Nat.zero_le _
  · rw [hqs]
    exact (decodeQuestions_length_le p _ headerSize).trans hcount

theorem unpack_ok {m : Message} (h : unpack p = (m, none)) : headerSize ≤ p.length ∧ m.header = decodeHeader p ∧
      ∃ offset, decodeQuestions p m.header.qdCount.toNat headerSize = (m.questions, .ok offset) := by
  unfold unpack at h
  by_cases hlen : p.length < headerSize
  · rw [if_pos hlen] at h
    cases h
  simp only [if_neg hlen] at h
  refine ⟨Nat.le_of_not_lt hlen, ?_⟩
  split at h
  · cases h
  · split at h
    · cases h
    · rename_i qs offset hq
      split at h
      · cases h
      · split at h <;> cases h
        exact ⟨rfl, offset, hq⟩

theorem unpack_questions {m : Message} (h : unpack p = (m, none)) : m.questions.length = (uint16At p 4).toNat := by
  obtain ⟨-, hheader, offset, hq⟩ := unpack_ok h
  rw [decodeQuestions_length hq, hheader]
  rfl

end Kdns.Wire
