import Kdns.Server.Tsig

namespace Kdns.Update

open ByteStream Dns Wire GoStrings

def rrHeaderSize : ℕ := 10

abbrev Getter (σ : Type) := σ → Bytes → Option RRSets

structure UpsertDeleter (σ ε : Type) where
  upsert : σ → Bytes → RRSets → σ × Option ε
  deleteDomain : σ → Bytes → σ × Option ε

inductive StoreCall where
  | upsert (domain : Bytes) (records : RRSets)
  | deleteDomain (domain : Bytes)
  deriving DecidableEq, Repr

inductive ParseError where
  | packetTooSmall
  | invalidZoneSection
  | malformedRecord
  | wire (e : WireError)
  deriving DecidableEq, Repr

inductive UpdateError (ε : Type) where
  | parse (e : ParseError)
  | store (e : ε)
  deriving DecidableEq, Repr

structure RawRR where
  name : Bytes
  rData : Bytes
  ttl : UInt32
  qType : RRType
  rrClass : UInt16
  deriving DecidableEq, Repr

def canonicalName (u : Unicode) (name : Bytes) : Bytes :=
  let lower := toLower u (trimSpace name)
  if lower = [] ∨ lower = [dotByte] then [dotByte] else Tsig.withDot lower

def isInZone (u : Unicode) (domain zone : Bytes) : Bool :=
  let d := canonicalName u domain
  let z := canonicalName u zone
  z = [dotByte] || d = z || hasSuffix d (dotByte :: z)

def unpackName (p : Bytes) (offset : ℕ) : Except ParseError (Bytes × ℕ) :=
  match unpackDomainName p offset with
  | .ok r => .ok r
  | .error e => .error (.wire e)

def parseZoneSection (u : Unicode) (p : Bytes) (qdCount : UInt16) : Except ParseError (Bytes × ℕ) := do
  if qdCount ≠ 1 then throw .invalidZoneSection
  let (zname, offset) ← unpackName p headerSize
  if offset + 4 > p.length then throw .invalidZoneSection
  if uint16At p offset ≠ typeSOA ∨ uint16At p (offset + 2) ≠ classIN then throw .invalidZoneSection
  return (canonicalName u zname, offset + 4)

def parseRR (u : Unicode) (p : Bytes) (offset : ℕ) : Except ParseError (RawRR × ℕ) := do
  let (name, offset) ← unpackName p offset
  if offset + rrHeaderSize > p.length then throw .malformedRecord
  let rdLen := (uint16At p (offset + 8)).toNat
  let start := offset + rrHeaderSize
  if start + rdLen > p.length then throw .malformedRecord
  return (⟨canonicalName u name, Tsig.slice p start rdLen, uint32At p (offset + 4), uint16At p offset,
    uint16At p (offset + 2)⟩, start + rdLen)

def parseRecords (u : Unicode) (p : Bytes) : ℕ → ℕ → Except ParseError (List RawRR × ℕ)
  | 0, offset => .ok ([], offset)
  | n + 1, offset => do
    let (rr, offset) ← parseRR u p offset
    let (rest, offset) ← parseRecords u p n offset
    return (rr :: rest, offset)

def sections (u : Unicode) (p : Bytes) : Option (Bytes × List RawRR × List RawRR) :=
  match parseZoneSection u p (uint16At p 4) with
  | .error _ => none
  | .ok (zone, offset) =>
    match parseRecords u p (uint16At p 6).toNat offset with
    | .error _ => none
    | .ok (prereqs, offset) =>
      match parseRecords u p (uint16At p 8).toNat offset with
      | .error _ => none
      | .ok (updates, _) => some (zone, prereqs, updates)

def containsRData (rDataList : List Bytes) (target : Bytes) : Bool := rDataList.any fun r => r = target

def getType (records : RRSets) (qType : RRType) : Option RRSet := records.find? fun s => s.type = qType

def evaluatePrerequisite (existing : Option RRSets) (pr : RawRR) : RCode :=
  let sameType := existing.bind fun records => getType records pr.qType
  if pr.rrClass = classANY ∧ pr.qType ≠ typeANY ∧ pr.rData = [] then
    if sameType.isSome then .success else .nxRRSet
  else if pr.rrClass = classIN ∧ pr.qType ≠ typeANY ∧ pr.rData ≠ [] then
    match sameType with
    | none => .nxRRSet
    | some record => if containsRData record.rdata pr.rData then .success else .nxRRSet
  else if pr.rrClass = classNONE ∧ pr.qType ≠ typeANY ∧ pr.rData = [] then
    if sameType.isSome then .yxRRSet else .success
  else if pr.rrClass = classANY ∧ pr.qType = typeANY ∧ pr.rData = [] then
    if existing.getD [] = [] then .nameError else .success
  else if pr.rrClass = classNONE ∧ pr.qType = typeANY ∧ pr.rData = [] then
    if existing.getD [] = [] then .success else .yxDomain
  else .formatError

theorem evaluatePrerequisite_ne_refused (existing : Option RRSets) (pr : RawRR) :
    evaluatePrerequisite existing pr ≠ .refused := by
  unfold evaluatePrerequisite
  dsimp only
  repeat' split
  all_goals decide

def checkPrerequisites {σ : Type} (getter : Getter σ) (s : σ) : List RawRR → RCode
  | [] => .success
  | pr :: rest =>
    match evaluatePrerequisite (getter s pr.name) pr with
    | .success => checkPrerequisites getter s rest
    | rcode => rcode

theorem checkPrerequisites_ne_refused {σ : Type} (getter : Getter σ) (s : σ) (prs : List RawRR) :
    checkPrerequisites getter s prs ≠ .refused := by
  induction prs with
  | nil => exact RCode.noConfusion
  | cons pr rest ih =>
    rw [checkPrerequisites]
    split
    · exact ih
    · apply evaluatePrerequisite_ne_refused

def addRecord (up : RawRR) : RRSets → RRSets
  | [] => [⟨[up.rData], up.ttl, up.qType, classIN⟩]
  | s :: rest =>
    if s.type = up.qType then
      ⟨if containsRData s.rdata up.rData then s.rdata else s.rdata ++ [up.rData], up.ttl, s.type, s.rrClass⟩ :: rest
    else s :: addRecord up rest

def removeRData (up : RawRR) (s : RRSet) : Option RRSet :=
  if s.type ≠ up.qType then some s
  else
    let remaining := s.rdata.filter fun r => r ≠ up.rData
    if remaining = [] then none else some { s with rdata := remaining }

def applyUpdateOp (records : RRSets) (up : RawRR) : RRSets :=
  if up.rrClass = classIN ∧ up.qType ≠ typeANY ∧ up.rData ≠ [] then addRecord up records
  else if up.rrClass = classANY ∧ up.qType ≠ typeANY ∧ up.ttl = 0 ∧ up.rData = [] then
    records.filter fun s => s.type ≠ up.qType
  else if up.rrClass = classANY ∧ up.qType = typeANY ∧ up.ttl = 0 ∧ up.rData = [] then []
  else if up.rrClass = classNONE ∧ up.qType ≠ typeANY ∧ up.ttl = 0 ∧ up.rData ≠ [] then
    records.filterMap (removeRData up)
  else records

structure MapOrder where
  order : List Bytes → List Bytes
  perm : ∀ keys, (order keys).Perm keys

def MapOrder.insertion : MapOrder := ⟨id, fun _ => List.Perm.refl _⟩

def domainStates {σ : Type} (getter : Getter σ) (s : σ) (updates : List RawRR) : List (Bytes × RRSets) :=
  updates.foldl (fun states up =>
    let current := (states.lookup up.name).getD ((getter s up.name).getD [])
    states.filter (fun e => e.1 ≠ up.name) ++ [(up.name, applyUpdateOp current up)]) []

def commitDomains {σ ε : Type} (ud : UpsertDeleter σ ε) (states : List (Bytes × RRSets)) :
    List Bytes → σ → σ × List StoreCall × Option ε
  | [], s => (s, [], none)
  | domain :: rest, s =>
    let final := (states.lookup domain).getD []
    let call := if final = [] then .deleteDomain domain else .upsert domain final
    match if final = [] then ud.deleteDomain s domain else ud.upsert s domain final with
    | (s, some e) => (s, [call], some e)
    | (s, none) =>
      let r := commitDomains ud states rest s
      (r.1, call :: r.2.1, r.2.2)

def applyUpdates {σ ε : Type} (mo : MapOrder) (getter : Getter σ) (ud : UpsertDeleter σ ε) (s : σ)
    (updates : List RawRR) : σ × List StoreCall × Option ε :=
  let states := domainStates getter s updates
  commitDomains ud states (mo.order (states.map Prod.fst)) s

structure Processed (σ ε : Type) where
  store : σ
  calls : List StoreCall
  rcode : RCode
  err : Option (UpdateError ε)

def process {σ ε : Type} (u : Unicode) (mo : MapOrder) (getter : Getter σ) (ud : UpsertDeleter σ ε) (s : σ)
    (p : Bytes) : Processed σ ε :=
  if p.length < headerSize then ⟨s, [], .formatError, some (.parse .packetTooSmall)⟩
  else
    match parseZoneSection u p (uint16At p 4) with
    | .error e => ⟨s, [], .formatError, some (.parse e)⟩
    | .ok (zone, offset) =>
      if getter s zone = none ∧ zone ≠ [dotByte] then ⟨s, [], .notAuth, none⟩
      else
        match parseRecords u p (uint16At p 6).toNat offset with
        | .error e => ⟨s, [], .formatError, some (.parse e)⟩
        | .ok (prereqs, offset) =>
          match parseRecords u p (uint16At p 8).toNat offset with
          | .error e => ⟨s, [], .formatError, some (.parse e)⟩
          | .ok (updates, _) =>
            if !(prereqs.all fun pr => isInZone u pr.name zone) then ⟨s, [], .notZone, none⟩
            else if !(updates.all fun up => isInZone u up.name zone) then ⟨s, [], .notZone, none⟩
            else
              match checkPrerequisites getter s prereqs with
              | .success =>
                match applyUpdates mo getter ud s updates with
                | (s, calls, some e) => ⟨s, calls, .serverFailure, some (.store e)⟩
                | (s, calls, none) => ⟨s, calls, .success, none⟩
              | rcode => ⟨s, [], rcode, none⟩

section Process

variable {σ ε : Type} (u : Unicode) (mo : MapOrder) (getter : Getter σ) (ud : UpsertDeleter σ ε) (s : σ) (p : Bytes)

theorem process_ne_refused : (process u mo getter ud s p).rcode ≠ .refused := by
  unfold process
  split
  · exact RCode.noConfusion
  split
  · exact RCode.noConfusion
  split
  · exact RCode.noConfusion
  split
  · exact RCode.noConfusion
  split
  · exact RCode.noConfusion
  split
  · exact RCode.noConfusion
  split
  · exact RCode.noConfusion
  split
  · split <;> exact RCode.noConfusion
  · apply checkPrerequisites_ne_refused

theorem process_calls (h : sections u p = none) : (process u mo getter ud s p).calls = [] := by
  unfold process
  split
  · rfl
  unfold sections at h
  split
  · rfl
  · rename_i zone offset hzone
    simp only [hzone] at h
    split
    · rfl
    split
    · rfl
    · rename_i prereqs offset' hprereqs
      simp only [hprereqs] at h
      split
      · rfl
      · rename_i updates last hupdates
        simp only [hupdates] at h
        cases h

end Process

end Kdns.Update
