import Kdns.Server.Reflection

namespace Kdns

open ByteStream Dns Wire GoStrings Indexed Fallible List

namespace Tsig

def liftChecked {α : Type} (x : Checked WireError α) : Checked ExtractError α := ExceptT.mk (x.run.map liftWire)

theorem liftChecked_total {α : Type} (x : Except WireError α) : liftChecked (total x) = total (liftWire x) := rfl

section Extract

variable (u : Unicode) (p : Bytes)

def skipQuestionsChecked : ℕ → ℕ → Checked ExtractError ℕ
  | 0, offset => pure offset
  | n + 1, offset => do
    let (_, next) ← liftChecked (unpackDomainNameChecked p offset)
    if next + 4 > p.length then throw .malformedTSIG
    skipQuestionsChecked n (next + 4)

def skipRecordsChecked : ℕ → ℕ → Checked ExtractError ℕ
  | 0, offset => pure offset
  | n + 1, offset => do
    let (_, next) ← liftChecked (unpackDomainNameChecked p offset)
    if next + 10 > p.length then throw .malformedTSIG
    let rdLen ← access (uint16Checked p (next + 8))
    let offset' := next + 10 + rdLen.toNat
    if offset' > p.length then throw .malformedTSIG
    skipRecordsChecked n offset'

def skipMessageSectionsChecked (qd an ns ar : ℕ) : Checked ExtractError ℕ := do
  let offset ← skipQuestionsChecked p qd headerSize
  skipRecordsChecked p (an + ns + ar - 1) offset

def unpackTSIGRecordChecked (offset rdataEnd : ℕ) (keyName : Bytes) : Checked ExtractError Record := do
  let (algoName, offset) ← liftChecked (unpackDomainNameChecked p offset)
  if offset + 10 > rdataEnd then throw .malformedTSIG
  let timeHigh ← access (uint16Checked p offset)
  let timeLow ← access (uint32Checked p (offset + 2))
  let fudge ← access (uint16Checked p (offset + 6))
  let macSize ← access (uint16Checked p (offset + 8))
  let rest := offset + 10 + macSize.toNat
  if rest + 6 > rdataEnd then throw .malformedTSIG
  let mac ← access (Indexed.slice p (offset + 10) rest)
  let origID ← access (uint16Checked p rest)
  let tsigErr ← access (uint16Checked p (rest + 2))
  let otherLen ← access (uint16Checked p (rest + 4))
  if rest + 6 + otherLen.toNat > rdataEnd then throw .malformedTSIG
  let otherData ←
    if 0 < otherLen.toNat then access (Indexed.slice p (rest + 6) (rest + 6 + otherLen.toNat)) else pure []
  return {
    name := canonicalName u keyName
    algorithm := canonicalAlgorithm u algoName
    mac := mac
    otherData := otherData
    timeSigned := timeHigh.toNat <<< 32 ||| timeLow.toNat
    originalID := origID
    fudge := fudge
    error := tsigErr }

def extractChecked : Checked ExtractError (Option Record × Bytes) :=
  if p.length < headerSize then pure (none, p)
  else do
    let arCount ← access (uint16Checked p 10)
    if arCount = 0 then return (none, p)
    let qdCount ← access (uint16Checked p 4)
    let anCount ← access (uint16Checked p 6)
    let nsCount ← access (uint16Checked p 8)
    let start ← skipMessageSectionsChecked p qdCount.toNat anCount.toNat nsCount.toNat arCount.toNat
    let (keyName, offset) ← liftChecked (unpackDomainNameChecked p start)
    if offset + 10 > p.length then return (none, p)
    let qType ← access (uint16Checked p offset)
    let qClass ← access (uint16Checked p (offset + 2))
    let ttl ← access (uint32Checked p (offset + 4))
    let rdLen ← access (uint16Checked p (offset + 8))
    if qType ≠ typeTSIG ∨ qClass ≠ classANY ∨ ttl ≠ 0 then return (none, p)
    let rdataEnd := offset + 10 + rdLen.toNat
    if rdataEnd > p.length then throw .malformedTSIG
    let r ← unpackTSIGRecordChecked u p (offset + 10) rdataEnd keyName
    let front ← access (Indexed.slice p 0 start)
    access (bounds front.length 10 12)
    return (some r, putUint16 front 10 (arCount - 1))

variable {p}

theorem skipQuestionsChecked_eq (n offset : ℕ) : skipQuestionsChecked p n offset = total (skipQuestions p n offset) := by
  induction n generalizing offset with
  | zero => rfl
  | succ n ih =>
    rw [skipQuestionsChecked, skipQuestions, unpackDomainNameChecked_eq, liftChecked_total]
    exact bind_total fun r _ => ite_total (fun _ => rfl) fun _ => ih _

theorem skipRecordsChecked_eq (n offset : ℕ) : skipRecordsChecked p n offset = total (skipRecords p n offset) := by
  induction n generalizing offset with
  | zero => rfl
  | succ n ih =>
    rw [skipRecordsChecked, skipRecords, unpackDomainNameChecked_eq, liftChecked_total]
    refine bind_total fun r _ => ite_total (fun _ => rfl) fun hend => ?_
    rw [uint16Checked_of_le (by omega), access_some, pure_bind]
    exact ite_total (fun _ => rfl) fun _ => ih _

theorem skipMessageSectionsChecked_eq (qd an ns ar : ℕ) :
    skipMessageSectionsChecked p qd an ns ar = total (skipMessageSections p qd an ns ar) := by
  rw [skipMessageSectionsChecked, skipMessageSections, skipQuestionsChecked_eq]
  exact bind_total fun offset _ => skipRecordsChecked_eq _ offset

theorem timeSigned_eq (p : Bytes) (i : ℕ) (h : i + 6 ≤ p.length) :
    (uint16At p i).toNat <<< 32 ||| (uint32At p (i + 2)).toNat = ofBigEndian (slice p i 6) := by
  have hsplit : slice p i 6 = (p.drop i).take 2 ++ (p.drop (i + 2)).take 4 := by
    rw [slice, ← drop_drop, ← take_add]
  have hlen : ((p.drop (i + 2)).take 4).length = 4 := by
    rw [length_take, length_drop]
    omega
  have hlen' : ((p.drop i).take 2).length = 2 := by
    rw [length_take, length_drop]
    omega
  have hlow : ofBigEndian ((p.drop (i + 2)).take 4) < 2 ^ 32 := (ofBigEndian_lt _).trans_eq (by rw [hlen]; rfl)
  have hhigh : ofBigEndian ((p.drop i).take 2) < 2 ^ 16 := (ofBigEndian_lt _).trans_eq (by rw [hlen']; rfl)
  rw [hsplit, ofBigEndian_append, hlen, uint16At, uint32At, UInt16.toNat_ofNat', UInt32.toNat_ofNat',
    Nat.mod_eq_of_lt hhigh, Nat.mod_eq_of_lt hlow, ← Nat.shiftLeft_add_eq_or_of_lt hlow, Nat.shiftLeft_eq]
  norm_num

theorem unpackTSIGRecordChecked_eq {offset rdataEnd : ℕ} (hend : rdataEnd ≤ p.length) (keyName : Bytes) :
    unpackTSIGRecordChecked u p offset rdataEnd keyName = total (unpackTSIGRecord u p offset rdataEnd keyName) := by
  rw [unpackTSIGRecordChecked, unpackTSIGRecord, unpackDomainNameChecked_eq, liftChecked_total]
  refine bind_total fun ⟨algoName, next⟩ _ => ite_total (fun _ => rfl) fun hfixed => ?_
  rw [uint16Checked_of_le (by omega), uint32Checked_of_le (by omega), uint16Checked_of_le (by omega),
    uint16Checked_of_le (by omega)]
  simp only [access_some, pure_bind]
  generalize (uint16At p (next + 8)).toNat = macSize
  refine ite_total (fun _ => rfl) fun hmacs => ?_
  rw [slice_of_le (by omega), uint16Checked_of_le (by omega), uint16Checked_of_le (by omega), uint16Checked_of_le (by omega)]
  simp only [access_some, pure_bind]
  generalize (uint16At p (next + 10 + macSize + 4)).toNat = otherLen
  refine ite_total (fun _ => rfl) fun hothers => ?_
  rw [timeSigned_eq p next (by omega)]
  by_cases hnone : 0 < otherLen
  · rw [if_pos hnone, slice_of_le (by omega)]
    rfl
  · obtain rfl : otherLen = 0 := Nat.eq_zero_of_not_pos hnone
    rfl

theorem extractChecked_eq (p : Bytes) : extractChecked u p = total (extract u p) := by
  refine ite_total (fun _ => rfl) fun hlen => ?_
  have hheader : 12 ≤ p.length := Nat.le_of_not_lt hlen
  rw [uint16Checked_of_le (by omega), uint16Checked_of_le (by omega), uint16Checked_of_le (by omega),
    uint16Checked_of_le (by omega)]
  simp only [access_some, pure_bind]
  refine ite_total (fun _ => rfl) fun _ => ?_
  rw [skipMessageSectionsChecked_eq]
  refine bind_total fun start hstart => ?_
  have hle : 12 ≤ start := skipMessageSections_le hstart
  rw [unpackDomainNameChecked_eq, liftChecked_total]
  refine bind_total fun ⟨keyName, offset⟩ hname => ite_total (fun _ => rfl) fun hend => ?_
  have hbounds := unpackDomainName_bounds (liftWire_ok hname)
  rw [uint16Checked_of_le (by omega), uint16Checked_of_le (by omega), uint32Checked_of_le (by omega),
    uint16Checked_of_le (by omega)]
  simp only [access_some, pure_bind]
  refine ite_total (fun _ => rfl) fun _ => ite_total (fun _ => rfl) fun hdata => ?_
  rw [unpackTSIGRecordChecked_eq u (by omega)]
  refine bind_total fun record _ => ?_
  have hfront : (p.take start).length = start := by
    rw [length_take]
    omega
  rw [slice_zero (by omega), access_some, pure_bind, hfront, bounds_of_le (by decide) hle]
  rfl

end Extract

end Tsig

namespace Update

def unpackNameChecked (p : Bytes) (offset : ℕ) : Checked ParseError (Bytes × ℕ) :=
  ExceptT.mk ((unpackDomainNameChecked p offset).run.map fun
    | .ok r => .ok r
    | .error e => .error (.wire e))

theorem unpackNameChecked_eq (p : Bytes) (offset : ℕ) : unpackNameChecked p offset = total (unpackName p offset) := by
  rw [unpackNameChecked, unpackDomainNameChecked_eq]
  rfl

section Process

variable (u : Unicode) (p : Bytes)

def parseZoneSectionChecked (qdCount : UInt16) : Checked ParseError (Bytes × ℕ) := do
  if qdCount ≠ 1 then throw .invalidZoneSection
  let (zname, offset) ← unpackNameChecked p headerSize
  if offset + 4 > p.length then throw .invalidZoneSection
  let ztype ← access (uint16Checked p offset)
  let zclass ← access (uint16Checked p (offset + 2))
  if ztype ≠ typeSOA ∨ zclass ≠ classIN then throw .invalidZoneSection
  return (canonicalName u zname, offset + 4)

def parseRRHeaderChecked (offset : ℕ) : Checked ParseError (RRType × UInt16 × UInt32 × ℕ) := do
  if offset + rrHeaderSize > p.length then throw .malformedRecord
  let qType ← access (uint16Checked p offset)
  let qClass ← access (uint16Checked p (offset + 2))
  let ttl ← access (uint32Checked p (offset + 4))
  let rdLen ← access (uint16Checked p (offset + 8))
  return (qType, qClass, ttl, rdLen.toNat)

def parseRRChecked (offset : ℕ) : Checked ParseError (RawRR × ℕ) := do
  let (name, offset) ← unpackNameChecked p offset
  let (qType, qClass, ttl, rdLen) ← parseRRHeaderChecked p offset
  let start := offset + rrHeaderSize
  if start + rdLen > p.length then throw .malformedRecord
  let rData ← if 0 < rdLen then access (slice p start (start + rdLen)) else pure []
  return (⟨canonicalName u name, rData, ttl, qType, qClass⟩, start + rdLen)

def parseRecordsChecked : ℕ → ℕ → Checked ParseError (List RawRR × ℕ)
  | 0, offset => pure ([], offset)
  | n + 1, offset => do
    let (rr, offset) ← parseRRChecked u p offset
    let (rest, offset) ← parseRecordsChecked n offset
    return (rr :: rest, offset)

def processChecked {σ ε : Type} (mo : MapOrder) (getter : Getter σ) (ud : UpsertDeleter σ ε) (s : σ) :
    Option (Processed σ ε) :=
  if p.length < headerSize then some ⟨s, [], .formatError, some (.parse .packetTooSmall)⟩
  else do
    let qdCount ← uint16Checked p 4
    let anCount ← uint16Checked p 6
    let nsCount ← uint16Checked p 8
    match ← (parseZoneSectionChecked u p qdCount).run with
    | .error e => return ⟨s, [], .formatError, some (.parse e)⟩
    | .ok (zone, offset) =>
      if getter s zone = none ∧ zone ≠ [dotByte] then return ⟨s, [], .notAuth, none⟩
      else
        match ← (parseRecordsChecked u p anCount.toNat offset).run with
        | .error e => return ⟨s, [], .formatError, some (.parse e)⟩
        | .ok (prereqs, offset) =>
          match ← (parseRecordsChecked u p nsCount.toNat offset).run with
          | .error e => return ⟨s, [], .formatError, some (.parse e)⟩
          | .ok (updates, _) =>
            if !(prereqs.all fun pr => isInZone u pr.name zone) then return ⟨s, [], .notZone, none⟩
            else if !(updates.all fun up => isInZone u up.name zone) then return ⟨s, [], .notZone, none⟩
            else
              match checkPrerequisites getter s prereqs with
              | .success =>
                match applyUpdates mo getter ud s updates with
                | (s, calls, some e) => return ⟨s, calls, .serverFailure, some (.store e)⟩
                | (s, calls, none) => return ⟨s, calls, .success, none⟩
              | rcode => return ⟨s, [], rcode, none⟩

variable {p}

theorem parseZoneSectionChecked_eq (qdCount : UInt16) :
    parseZoneSectionChecked u p qdCount = total (parseZoneSection u p qdCount) := by
  refine ite_total (fun _ => rfl) fun _ => ?_
  rw [unpackNameChecked_eq]
  refine bind_total fun r _ => ite_total (fun _ => rfl) fun hend => ?_
  rw [uint16Checked_of_le (by omega), uint16Checked_of_le (by omega)]
  simp only [access_some, pure_bind]
  exact ite_total (fun _ => rfl) fun _ => rfl

theorem parseRRChecked_eq (offset : ℕ) : parseRRChecked u p offset = total (parseRR u p offset) := by
  unfold parseRRChecked parseRR
  rw [unpackNameChecked_eq]
  refine bind_total fun ⟨name, next⟩ _ => ?_
  dsimp only
  rw [parseRRHeaderChecked]
  have hsize : rrHeaderSize = 10 := rfl
  by_cases hend : next + rrHeaderSize > p.length
  · rw [if_pos hend, if_pos hend]
    rfl
  rw [if_neg hend, if_neg hend, uint16Checked_of_le (by omega), uint16Checked_of_le (by omega),
    uint32Checked_of_le (by omega), uint16Checked_of_le (by omega)]
  simp only [access_some, pure_bind]
  generalize (uint16At p (next + 8)).toNat = rdLen
  refine ite_total (fun _ => rfl) fun hdata => ?_
  by_cases hnone : 0 < rdLen
  · rw [if_pos hnone, slice_of_le (by omega)]
    rfl
  · obtain rfl : rdLen = 0 := Nat.eq_zero_of_not_pos hnone
    rfl

theorem parseRecordsChecked_eq (n offset : ℕ) :
    parseRecordsChecked u p n offset = total (parseRecords u p n offset) := by
  induction n generalizing offset with
  | zero => rfl
  | succ n ih =>
    rw [parseRecordsChecked, parseRecords, parseRRChecked_eq]
    refine bind_total fun r _ => ?_
    dsimp only
    rw [ih]
    exact bind_total fun _ _ => rfl

theorem processChecked_eq {σ ε : Type} (p : Bytes) (mo : MapOrder) (getter : Getter σ) (ud : UpsertDeleter σ ε) (s : σ) :
    processChecked u p mo getter ud s = some (process u mo getter ud s p) := by
  unfold processChecked process
  by_cases hlen : p.length < headerSize
  · rw [if_pos hlen, if_pos hlen]
  have hheader : 12 ≤ p.length := Nat.le_of_not_lt hlen
  rw [if_neg hlen, if_neg hlen, uint16Checked_of_le (by omega), uint16Checked_of_le (by omega),
    uint16Checked_of_le (by omega)]
  simp only [parseZoneSectionChecked_eq, parseRecordsChecked_eq, total_run, Option.bind_eq_bind, Option.bind_some]
  cases parseZoneSection u p (uint16At p 4) with
  | error e => rfl
  | ok zone =>
    dsimp only
    split_ifs
    · rfl
    cases parseRecords u p (uint16At p 6).toNat zone.2 with
    | error e => rfl
    | ok prereqs =>
      dsimp only
      cases parseRecords u p (uint16At p 8).toNat prereqs.2 with
      | error e => rfl
      | ok updates =>
        dsimp only
        split_ifs
        · rfl
        · rfl
        cases checkPrerequisites getter s prereqs.1 with
        | success =>
          obtain ⟨s', calls, _ | e⟩ := applyUpdates mo getter ud s updates.1
          · rfl
          · rfl
        | _ => rfl

theorem unpackName_ok {offset : ℕ} {r : Bytes × ℕ} (h : unpackName p offset = .ok r) :
    unpackDomainName p offset = .ok r := by
  rw [unpackName] at h
  split at h
  · next hname =>
    cases h
    exact hname
  · cases h

theorem parseRR_bounds {offset : ℕ} {r : RawRR × ℕ} (h : parseRR u p offset = .ok r) :
    offset + 11 ≤ r.2 ∧ r.2 ≤ p.length := by
  obtain ⟨⟨name, next⟩, hname, h⟩ := bind_ok h
  obtain ⟨hend, h⟩ := of_guard h
  obtain ⟨hdata, h⟩ := of_guard h
  have hsize : rrHeaderSize = 10 := rfl
  have hnext := (unpackDomainName_bounds (unpackName_ok hname)).1
  cases h
  exact ⟨by dsimp only; omega, Nat.le_of_not_lt hdata⟩

theorem parseRecords_advance {n offset : ℕ} {r : List RawRR × ℕ} (hin : offset ≤ p.length)
    (h : parseRecords u p n offset = .ok r) : offset + 11 * n ≤ r.2 ∧ r.2 ≤ p.length := by
  induction n generalizing offset r with
  | zero =>
    cases h
    exact ⟨le_rfl, hin⟩
  | succ n ih =>
    obtain ⟨rr, hrr, h⟩ := bind_ok h
    obtain ⟨rest, hrest, h⟩ := bind_ok h
    obtain ⟨hfirst, hinside⟩ := parseRR_bounds u hrr
    obtain ⟨hmore, hlast⟩ := ih hinside hrest
    cases h
    exact ⟨by dsimp only; omega, hlast⟩

end Process

end Update

def Advances (p : Bytes) (size : ℕ) (loop : ℕ → ℕ → ℕ → Prop) : Prop :=
  ∀ n offset offset', offset ≤ p.length → loop n offset offset' → offset + size * n ≤ offset' ∧ offset' ≤ p.length

structure LoopsAdvance (u : Unicode) (p : Bytes) : Prop where
  questions : Advances p 5 fun n offset offset' => ∃ qs, decodeQuestions p n offset = (qs, .ok offset')
  records : Advances p 11 fun n offset offset' => Wire.skipRecords p n offset = .ok offset'
  additional : ∀ n offset found opt, offset ≤ p.length → decodeEDNS0 p found n offset = .ok opt → offset + 11 * n ≤ p.length
  signedQuestions : Advances p 5 fun n offset offset' => Tsig.skipQuestions p n offset = .ok offset'
  signedRecords : Advances p 11 fun n offset offset' => Tsig.skipRecords p n offset = .ok offset'
  updates : Advances p 11 fun n offset offset' => ∃ rrs, Update.parseRecords u p n offset = .ok (rrs, offset')

theorem loopsAdvance (u : Unicode) (p : Bytes) : LoopsAdvance u p where
  questions := by
    rintro n offset offset' hin ⟨qs, h⟩
    exact decodeQuestions_advance hin h
  records _ _ _ hin h := Wire.skipRecords_advance hin h
  additional := by
    intro n offset found opt hin h
    obtain ⟨offset', hskip⟩ := decodeEDNS0_skip h
    have hlast := Wire.skipRecords_advance hin hskip
    exact hlast.1.trans hlast.2
  signedQuestions _ _ _ hin h := (Tsig.skipQuestions_advance h).imp_right (· hin)
  signedRecords _ _ _ hin h := (Tsig.skipRecords_advance h).imp_right (· hin)
  updates := by
    rintro n offset offset' hin ⟨rrs, h⟩
    exact Update.parseRecords_advance u hin h

/-- Whatever bytes arrive, names are read safely, no index of the three parsers is out of range and their loops move on. -/
theorem parsers_safe (u : Unicode) (p : Bytes) :
    (∀ i < p.length, DecodesSafely p i) ∧ unpackChecked p = some (unpack p) ∧
      Tsig.extractChecked u p = total (Tsig.extract u p) ∧
      (∀ (σ ε : Type) (mo : Update.MapOrder) (getter : Update.Getter σ) (ud : Update.UpsertDeleter σ ε) (s : σ),
        Update.processChecked u p mo getter ud s = some (Update.process u mo getter ud s p)) ∧
      LoopsAdvance u p :=
  ⟨fun i _ => decodesSafely p i, unpackChecked_eq p, Tsig.extractChecked_eq u p,
    fun _ _ mo getter ud s => Update.processChecked_eq u p mo getter ud s, loopsAdvance u p⟩

end Kdns
