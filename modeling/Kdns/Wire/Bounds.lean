import Kdns.Lib.Fallible
import Kdns.Wire.NameAt

open List

namespace Kdns.Wire

open ByteStream Dns CompressedName Indexed Fallible

def uint16Checked (p : Bytes) (i : ℕ) : Option UInt16 := (slice p i (i + 2)).map fun b => UInt16.ofNat (ofBigEndian b)

def uint32Checked (p : Bytes) (i : ℕ) : Option UInt32 := (slice p i (i + 4)).map fun b => UInt32.ofNat (ofBigEndian b)

theorem uint16Checked_of_le {p : Bytes} {i : ℕ} (h : i + 2 ≤ p.length) : uint16Checked p i = some (uint16At p i) := by
  rw [uint16Checked, slice_of_le h]
  rfl

theorem uint32Checked_of_le {p : Bytes} {i : ℕ} (h : i + 4 ≤ p.length) : uint32Checked p i = some (uint32At p i) := by
  rw [uint32Checked, slice_of_le h]
  rfl

namespace Decompressor

def start (offset : ℕ) : Decompressor := ⟨offset, offset, false, [], 0⟩

def stepChecked (p : Bytes) (d : Decompressor) : Option DecodeStep :=
  if d.jumps > maxJumps then some (.failed .tooManyJumps)
  else if d.offset ≥ p.length then some (.failed .outOfBounds)
  else do
    let octet ← index p d.offset
    if octet = 0 then return .done
    else if octet.toNat &&& pointerMask = pointerMask then
      if d.offset + 1 ≥ p.length then return .failed .outOfBounds
      else
        let word ← uint16Checked p d.offset
        let pointer := word.toNat &&& pointerOffsetMask
        if pointer ≥ p.length ∨ pointer ≥ d.offset then return .failed .invalidPointer
        else return .more ⟨pointer, if d.jumped then d.resume else d.resume + 2, true, d.buffer, d.jumps + 1⟩
    else if octet.toNat > maxLabelLen then return .failed .labelTooLong
    else
      let next := d.offset + 1 + octet.toNat
      if next > p.length then return .failed .outOfBounds
      else if d.buffer.length + octet.toNat + 1 > maxNameLen then return .failed .nameTooLong
      else
        bounds maxNameLen d.buffer.length (d.buffer.length + octet.toNat)
        let label ← slice p (d.offset + 1) next
        bounds maxNameLen (d.buffer.length + octet.toNat) (d.buffer.length + octet.toNat + 1)
        return .more ⟨next, if d.jumped then d.resume else next, d.jumped, d.buffer ++ label ++ [dotByte], d.jumps⟩

theorem stepChecked_eq (p : Bytes) (d : Decompressor) : d.stepChecked p = some (d.step p) := by
  unfold stepChecked step
  rw [apply_ite some]
  refine ite_congr rfl (fun _ => rfl) fun _ => ?_
  by_cases hend : d.offset ≥ p.length
  · rw [if_pos hend, List.getElem?_eq_none hend]
  rw [if_neg hend, index]
  have hlt : d.offset < p.length := Nat.lt_of_not_le hend
  rw [List.getElem?_eq_getElem hlt]
  generalize p[d.offset] = octet
  simp only [Option.bind_eq_bind, Option.bind_some, apply_ite some]
  refine ite_congr rfl (fun _ => rfl) fun _ => ite_congr rfl (fun _ => ?_) fun _ => ?_
  · refine ite_congr rfl (fun _ => rfl) fun hword => ?_
    rw [uint16Checked_of_le (by omega), Option.bind_some]
    rfl
  · refine ite_congr rfl (fun _ => rfl) fun _ => ite_congr rfl (fun _ => rfl) fun hnext => ?_
    refine ite_congr rfl (fun _ => rfl) fun hroom => ?_
    rw [slice_of_le (by omega), bounds_of_le (by omega) (by omega), bounds_of_le (by omega) (by omega)]
    rfl

def octets (p : Bytes) : ℕ → Decompressor → List Decompressor
  | 0, _ => []
  | fuel + 1, d =>
    if d.jumps > maxJumps ∨ d.offset ≥ p.length then []
    else
      d :: match d.step p with
        | .more d' => octets p fuel d'
        | _ => []

def Follows (p : Bytes) (d d' : Decompressor) : Prop :=
  (∃ l, IsLabel l ∧ labelBytes l <+: p.drop d.offset ∧ d'.offset = d.offset + 1 + l.length ∧ d'.jumps = d.jumps) ∨
    ∃ t < d.offset, pointerBytes t <+: p.drop d.offset ∧ d'.offset = t ∧ d'.jumps = d.jumps + 1

theorem follows_of_step {p : Bytes} {d d' : Decompressor} (h : d.step p = .more d') : Follows p d d' := by
  obtain ⟨-, ⟨t, -, hback, hp, rfl⟩ | ⟨l, hl, hp, -, rfl⟩⟩ := step_more_inv h
  · exact .inr ⟨t, hback, hp, rfl, rfl⟩
  · exact .inl ⟨l, hl, hp, rfl, rfl⟩

theorem octets_length (p : Bytes) (fuel : ℕ) (d : Decompressor) :
    (octets p fuel d).length ≤ (maxJumps + 1 - d.jumps) + (maxNameLen - d.buffer.length) / 2 := by
  induction fuel generalizing d with
  | zero => exact Nat.zero_le _
  | succ fuel ih =>
    rw [octets]
    split_ifs with hstop
    · exact Nat.zero_le _
    · have hj : d.jumps ≤ maxJumps := by omega
      rw [length_cons]
      cases hstep : d.step p with
      | done => simp only [length_nil]; omega
      | failed e => simp only [length_nil]; omega
      | more d' =>
        have hrest := ih d'
        rcases step_more hstep with ⟨hbuf, hjumps, -⟩ | ⟨label, hbuf, hjumps, -, hpos, hroom⟩
        · rw [hbuf, hjumps] at hrest
          dsimp only
          omega
        · grind

theorem octets_inside (p : Bytes) (fuel : ℕ) (d : Decompressor) :
    ∀ x ∈ octets p fuel d, x.offset < p.length ∧ x.jumps ≤ maxJumps := by
  induction fuel generalizing d with
  | zero => simp [octets]
  | succ fuel ih =>
    rw [octets]
    split_ifs with hstop
    · simp
    · refine forall_mem_cons.mpr ⟨by omega, ?_⟩
      cases hstep : d.step p with
      | done => simp
      | failed e => simp
      | more d' => exact ih d'

theorem octets_head {p : Bytes} {fuel : ℕ} {d x : Decompressor} (h : (octets p fuel d).head? = some x) : x = d := by
  cases fuel with
  | zero => cases h
  | succ fuel =>
    rw [octets] at h
    split_ifs at h
    · cases h
    · exact (Option.some.inj h).symm

theorem octets_chain (p : Bytes) (fuel : ℕ) (d : Decompressor) : (octets p fuel d).IsChain (Follows p) := by
  induction fuel generalizing d with
  | zero => exact .nil
  | succ fuel ih =>
    rw [octets]
    split_ifs
    · exact .nil
    · cases hstep : d.step p with
      | done => exact .singleton d
      | failed e => exact .singleton d
      | more d' =>
        have hrest := ih d'
        dsimp only
        cases hoctets : octets p fuel d' with
        | nil => exact .singleton d
        | cons x xs =>
          rw [hoctets] at hrest
          have hx : x = d' := octets_head (by rw [hoctets, List.head?_cons])
          exact .cons_cons (hx ▸ follows_of_step hstep) hrest

end Decompressor

def decodeChecked (p : Bytes) : ℕ → Decompressor → Checked WireError (Bytes × ℕ)
  | 0, _ => throw .tooManyJumps
  | fuel + 1, d => do
    match ← access (d.stepChecked p) with
    | .done => do
      access (bounds maxNameLen 0 (d.buffer.length - 1))
      return d.result
    | .failed e => throw e
    | .more d' => decodeChecked p fuel d'

theorem decodeChecked_eq (p : Bytes) (fuel : ℕ) {d : Decompressor} (hd : d.buffer.length ≤ maxNameLen) :
    decodeChecked p fuel d = total (decodeFrom p fuel d) := by
  induction fuel generalizing d with
  | zero => rfl
  | succ fuel ih =>
    rw [decodeChecked, decodeFrom, Decompressor.stepChecked_eq]
    cases hstep : d.step p with
    | done =>
      rw [bounds_of_le (Nat.zero_le _) (by omega)]
      rfl
    | failed e => rfl
    | more d' =>
      apply ih
      obtain ⟨-, ⟨t, -, -, -, rfl⟩ | ⟨l, -, -, hroom, rfl⟩⟩ := Decompressor.step_more_inv hstep
      · exact hd
      · simp only [length_append, length_singleton]
        omega

def unpackDomainNameChecked (p : Bytes) (offset : ℕ) : Checked WireError (Bytes × ℕ) :=
  decodeChecked p decodeFuel (.start offset)

theorem unpackDomainNameChecked_eq (p : Bytes) (offset : ℕ) :
    unpackDomainNameChecked p offset = total (unpackDomainName p offset) :=
  decodeChecked_eq p decodeFuel (Nat.zero_le _)

structure DecodesSafely (p : Bytes) (i : ℕ) : Prop where
  octets : ∀ fuel, (Decompressor.octets p fuel (.start i)).length ≤ 138
  inside : ∀ fuel, ∀ d ∈ Decompressor.octets p fuel (.start i), d.offset < p.length ∧ d.jumps ≤ 10
  chain : ∀ fuel, (Decompressor.octets p fuel (.start i)).IsChain (Decompressor.Follows p)
  ends : ∀ fuel, decodeFuel ≤ fuel → decodeFrom p fuel (.start i) = unpackDomainName p i
  inRange : ∀ fuel, decodeChecked p fuel (.start i) = total (decodeFrom p fuel (.start i))
  labels : ∀ name next, unpackDomainName p i = .ok (name, next) →
    ∃ ls j, NameAt p 0 i ls j next ∧ j ≤ 10 ∧ name = (dotted ls).dropLast
  next : ∀ name next, unpackDomainName p i = .ok (name, next) → i < next ∧ next ≤ p.length

theorem unpackDomainName_bounds {p name : Bytes} {i next : ℕ} (h : unpackDomainName p i = .ok (name, next)) :
    i < next ∧ next ≤ p.length := by
  obtain ⟨ls, j, hat, -⟩ := unpackDomainName_nameAt h
  exact hat.bounds

theorem decodesSafely (p : Bytes) (i : ℕ) : DecodesSafely p i where
  octets fuel := (Decompressor.octets_length p fuel (.start i)).trans_eq
    (show maxJumps + 1 - 0 + (maxNameLen - 0) / 2 = 138 by decide)
  inside fuel := Decompressor.octets_inside p fuel (.start i)
  chain fuel := Decompressor.octets_chain p fuel (.start i)
  ends fuel hfuel := by
    have hbudget : (Decompressor.start i).budget < decodeFuel :=
      show maxJumps + 1 - 0 + (maxNameLen - 0) < decodeFuel by decide
    exact decodeFrom_fuel p (hbudget.trans_le hfuel) hbudget
  inRange fuel := decodeChecked_eq p fuel (Nat.zero_le _)
  labels name next h := by
    obtain ⟨ls, j, hat, hj, -, hname⟩ := unpackDomainName_nameAt h
    exact ⟨ls, j, hat, hj, hname⟩
  next name next h := unpackDomainName_bounds h

section Sections

variable (p : Bytes)

def decodeHeaderChecked : Option Header := do
  return ⟨← uint16Checked p 0, ← uint16Checked p 2, ← uint16Checked p 4, ← uint16Checked p 6, ← uint16Checked p 8,
    ← uint16Checked p 10⟩

def decodeQuestionChecked (offset : ℕ) : Checked WireError (Question × ℕ) := do
  let (name, offset) ← unpackDomainNameChecked p offset
  if offset + 4 > p.length then throw .outOfBounds
  let qType ← access (uint16Checked p offset)
  if qType = typeOPT then throw .misplacedOPT
  let qClass ← access (uint16Checked p (offset + 2))
  return (⟨name, qType, qClass⟩, offset + 4)

def decodeQuestionsChecked : ℕ → ℕ → Option (List Question × Except WireError ℕ)
  | 0, offset => some ([], .ok offset)
  | n + 1, offset => do
    match ← (decodeQuestionChecked p offset).run with
    | .error e => some ([], .error e)
    | .ok (q, offset) =>
      let r ← decodeQuestionsChecked n offset
      return (q :: r.1, r.2)

def skipRecordChecked (offset : ℕ) : Checked WireError ℕ := do
  let (_, offset) ← unpackDomainNameChecked p offset
  if offset + 10 > p.length then throw .outOfBounds
  let rdLen ← access (uint16Checked p (offset + 8))
  let offset' := offset + 10 + rdLen.toNat
  if offset' > p.length then throw .outOfBounds
  return offset'

def skipRecordsChecked : ℕ → ℕ → Checked WireError ℕ
  | 0, offset => pure offset
  | n + 1, offset => do
    let offset ← skipRecordChecked p offset
    skipRecordsChecked n offset

def decodeEDNS0Checked (found : Option EDNS0) : ℕ → ℕ → Checked WireError EDNS0
  | 0, _ => pure (found.getD .none)
  | n + 1, offset => do
    let (_, offset) ← unpackDomainNameChecked p offset
    if offset + 10 > p.length then throw .outOfBounds
    let qType ← access (uint16Checked p offset)
    let qClass ← access (uint16Checked p (offset + 2))
    let rdLen ← access (uint16Checked p (offset + 8))
    let found ←
      if qType = typeOPT then do
        if found.isSome then throw .multipleOPT
        let extRCode ← access (index p (offset + 4))
        let flags ← access (uint16Checked p (offset + 6))
        pure (some (⟨qClass.toNat, flags &&& 0x8000 ≠ 0, extRCode⟩ : EDNS0))
      else pure found
    let offset' := offset + 10 + rdLen.toNat
    if offset' > p.length then throw .outOfBounds
    decodeEDNS0Checked found n offset'

def unpackChecked : Option (Message × Option WireError) :=
  if p.length < headerSize then some (⟨⟨0, 0, 0, 0, 0, 0⟩, [], 0, false, 0⟩, some .packetTooSmall)
  else do
    let h ← decodeHeaderChecked p
    if h.qdCount.toNat > maxQuestions then return (⟨h, [], 0, false, 0⟩, some .tooManyQuestions)
    else
      match ← decodeQuestionsChecked p h.qdCount.toNat headerSize with
      | (qs, .error e) => return (⟨h, qs, 0, false, 0⟩, some e)
      | (qs, .ok offset) =>
        match ← (skipRecordsChecked p (h.anCount.toNat + h.nsCount.toNat) offset).run with
        | .error e => return (⟨h, qs, 0, false, 0⟩, some e)
        | .ok offset =>
          match ← (decodeEDNS0Checked p none h.arCount.toNat offset).run with
          | .error e => return (⟨h, qs, 0, false, 0⟩, some e)
          | .ok opt => return (⟨h, qs, opt.size, opt.wantsDNSSEC, opt.extRCode⟩, none)

variable {p}

theorem decodeHeaderChecked_eq (h : headerSize ≤ p.length) : decodeHeaderChecked p = some (decodeHeader p) := by
  have hlen : 12 ≤ p.length := h
  rw [decodeHeaderChecked, uint16Checked_of_le (by omega), uint16Checked_of_le (by omega), uint16Checked_of_le (by omega),
    uint16Checked_of_le (by omega), uint16Checked_of_le (by omega), uint16Checked_of_le (by omega)]
  rfl

theorem decodeQuestionChecked_eq (offset : ℕ) : decodeQuestionChecked p offset = total (decodeQuestion p offset) := by
  rw [decodeQuestionChecked, decodeQuestion, unpackDomainNameChecked_eq]
  refine bind_total fun r _ => ite_total (fun _ => rfl) fun hend => ?_
  rw [uint16Checked_of_le (by omega), uint16Checked_of_le (by omega), access_some, pure_bind]
  exact ite_total (fun _ => rfl) fun _ => rfl

theorem decodeQuestionsChecked_eq (n offset : ℕ) : decodeQuestionsChecked p n offset = some (decodeQuestions p n offset) := by
  induction n generalizing offset with
  | zero => rfl
  | succ n ih =>
    rw [decodeQuestionsChecked, decodeQuestions, decodeQuestionChecked_eq]
    cases decodeQuestion p offset with
    | error e => rfl
    | ok r =>
      change ((decodeQuestionsChecked p n r.2).bind fun x => some (r.1 :: x.1, x.2)) = _
      rw [ih]
      rfl

theorem skipRecordChecked_eq (offset : ℕ) : skipRecordChecked p offset = total (skipRecord p offset) := by
  rw [skipRecordChecked, skipRecord, unpackDomainNameChecked_eq]
  refine bind_total fun r _ => ite_total (fun _ => rfl) fun hend => ?_
  rw [uint16Checked_of_le (by omega), access_some, pure_bind]
  exact ite_total (fun _ => rfl) fun _ => rfl

theorem skipRecordsChecked_eq (n offset : ℕ) : skipRecordsChecked p n offset = total (skipRecords p n offset) := by
  induction n generalizing offset with
  | zero => rfl
  | succ n ih =>
    rw [skipRecordsChecked, skipRecords, skipRecordChecked_eq]
    exact bind_total fun next _ => ih next

theorem decodeEDNS0Checked_eq (found : Option EDNS0) (n offset : ℕ) :
    decodeEDNS0Checked p found n offset = total (decodeEDNS0 p found n offset) := by
  induction n generalizing found offset with
  | zero => rfl
  | succ n ih =>
    rw [decodeEDNS0Checked, decodeEDNS0, unpackDomainNameChecked_eq]
    refine bind_total fun r _ => ite_total (fun _ => rfl) fun hend => ?_
    rw [uint16Checked_of_le (by omega), uint16Checked_of_le (by omega), uint16Checked_of_le (by omega),
      uint16Checked_of_le (by omega), index_of_lt (by omega) 0]
    simp only [access_some, pure_bind, ih]
    by_cases hopt : uint16At p r.2 = typeOPT
    · by_cases hfound : found.isSome = true
      · rw [if_pos hopt, if_pos hfound, if_pos (And.intro hopt hfound)]
        rfl
      · have hfirst : ¬(uint16At p r.2 = typeOPT ∧ found.isSome = true) := fun h => hfound h.2
        rw [if_pos hopt, if_neg hfound, if_neg hfirst, if_pos hopt]
        exact ite_total (fun _ => rfl) fun _ => rfl
    · have hother : ¬(uint16At p r.2 = typeOPT ∧ found.isSome = true) := fun h => hopt h.1
      rw [if_neg hopt, if_neg hother, if_neg hopt]
      exact ite_total (fun _ => rfl) fun _ => rfl

theorem unpackChecked_eq (p : Bytes) : unpackChecked p = some (unpack p) := by
  unfold unpackChecked unpack
  by_cases hlen : p.length < headerSize
  · rw [if_pos hlen, if_pos hlen]
  rw [if_neg hlen, if_neg hlen, decodeHeaderChecked_eq (Nat.le_of_not_lt hlen)]
  simp only [decodeQuestionsChecked_eq, skipRecordsChecked_eq, decodeEDNS0Checked_eq, total_run, Option.bind_eq_bind,
    Option.bind_some]
  split_ifs
  · rfl
  rcases decodeQuestions p (decodeHeader p).qdCount.toNat headerSize with ⟨qs, e | offset⟩
  · rfl
  dsimp only
  cases skipRecords p ((decodeHeader p).anCount.toNat + (decodeHeader p).nsCount.toNat) offset with
  | error e => rfl
  | ok offset' =>
    dsimp only
    cases decodeEDNS0 p none (decodeHeader p).arCount.toNat offset' with
    | error e => rfl
    | ok opt => rfl

theorem decodeQuestion_bounds {offset : ℕ} {r : Question × ℕ} (h : decodeQuestion p offset = .ok r) :
    offset + 5 ≤ r.2 ∧ r.2 ≤ p.length := by
  obtain ⟨d, hname, h⟩ := bind_ok h
  have hnext := (unpackDomainName_bounds hname).1
  obtain ⟨hend, h⟩ := of_guard h
  obtain ⟨-, h⟩ := of_guard h
  cases h
  exact ⟨by dsimp only; omega, by dsimp only; omega⟩

theorem skipRecord_bounds {offset offset' : ℕ} (h : skipRecord p offset = .ok offset') :
    offset + 11 ≤ offset' ∧ offset' ≤ p.length := by
  obtain ⟨d, hname, h⟩ := bind_ok h
  have hnext := (unpackDomainName_bounds hname).1
  obtain ⟨hend, h⟩ := of_guard h
  obtain ⟨hdata, h⟩ := of_guard h
  cases h
  exact ⟨by omega, by omega⟩

theorem decodeQuestions_advance {n offset offset' : ℕ} {qs : List Question} (hin : offset ≤ p.length)
    (h : decodeQuestions p n offset = (qs, .ok offset')) : offset + 5 * n ≤ offset' ∧ offset' ≤ p.length := by
  induction n generalizing offset qs with
  | zero =>
    cases h
    exact ⟨le_rfl, hin⟩
  | succ n ih =>
    rw [decodeQuestions] at h
    cases hq : decodeQuestion p offset with
    | error e =>
      rw [hq] at h
      cases h
    | ok r =>
      rw [hq] at h
      obtain ⟨hfirst, hinside⟩ := decodeQuestion_bounds hq
      obtain ⟨-, hr⟩ := Prod.mk.inj h
      obtain ⟨hrest, hlast⟩ := ih hinside (Prod.ext rfl hr)
      exact ⟨by omega, hlast⟩

theorem skipRecords_advance {n offset offset' : ℕ} (hin : offset ≤ p.length) (h : skipRecords p n offset = .ok offset') :
    offset + 11 * n ≤ offset' ∧ offset' ≤ p.length := by
  induction n generalizing offset with
  | zero =>
    cases h
    exact ⟨le_rfl, hin⟩
  | succ n ih =>
    obtain ⟨next, hr, h⟩ := bind_ok h
    obtain ⟨hfirst, hinside⟩ := skipRecord_bounds hr
    obtain ⟨hrest, hlast⟩ := ih hinside h
    exact ⟨by omega, hlast⟩

theorem decodeEDNS0_skip {found : Option EDNS0} {n offset : ℕ} {opt : EDNS0} (h : decodeEDNS0 p found n offset = .ok opt) :
    ∃ offset', skipRecords p n offset = .ok offset' := by
  induction n generalizing found offset with
  | zero => exact ⟨offset, rfl⟩
  | succ n ih =>
    obtain ⟨d, hname, h⟩ := bind_ok h
    obtain ⟨hend, h⟩ := of_guard h
    obtain ⟨-, h⟩ := of_guard h
    obtain ⟨hdata, h⟩ := of_guard h
    obtain ⟨offset', hrest⟩ := ih h
    refine ⟨offset', ?_⟩
    rw [skipRecords, skipRecord, hname, ok_bind]
    dsimp only
    rw [if_neg hend, if_neg hdata]
    exact hrest

end Sections

end Kdns.Wire
