import Kdns.Wire.Names

namespace Kdns.Tsig

open ByteStream Dns Wire GoStrings

inductive Hash where
  | sha256
  | sha512
  | sha1
  | md5
  deriving DecidableEq, Repr

abbrev HMAC := Hash → Bytes → Bytes → Bytes

def hmacSHA256 : Bytes := ascii "hmac-sha256."
def hmacSHA512 : Bytes := ascii "hmac-sha512."
def hmacSHA1 : Bytes := ascii "hmac-sha1."
def hmacMD5 : Bytes := ascii "hmac-md5.sig-alg.reg.int."

def defaultFudge : ℕ := 300

structure Key where
  name : Bytes
  algorithm : Bytes
  secret : Bytes
  deriving DecidableEq, Repr

def withDot (name : Bytes) : Bytes := if hasSuffix name [dotByte] then name else name ++ [dotByte]

def canonicalName (u : Unicode) (name : Bytes) : Bytes := withDot (toLower u (trimSpace name))

def canonicalAlgorithm (u : Unicode) (algo : Bytes) : Bytes :=
  let lower := toLower u (trimSpace algo)
  if lower = ascii "hmac-sha256" ∨ lower = hmacSHA256 then hmacSHA256
  else if lower = ascii "hmac-sha512" ∨ lower = hmacSHA512 then hmacSHA512
  else if lower = ascii "hmac-sha1" ∨ lower = hmacSHA1 then hmacSHA1
  else if lower = ascii "hmac-md5" ∨ lower = ascii "hmac-md5." ∨ lower = ascii "hmac-md5.sig-alg.reg.int" ∨
      lower = hmacMD5 then hmacMD5
  else withDot lower

structure KeyRing where
  keys : List Key
  deriving DecidableEq, Repr

def KeyRing.new : KeyRing := ⟨[]⟩

def KeyRing.add (u : Unicode) (kr : KeyRing) (key : Key) : KeyRing :=
  let name := canonicalName u key.name
  ⟨⟨name, canonicalAlgorithm u key.algorithm, key.secret⟩ :: kr.keys.filter fun k => k.name ≠ name⟩

def KeyRing.key (u : Unicode) (kr : KeyRing) (name : Bytes) : Option Key :=
  kr.keys.find? fun k => k.name = canonicalName u name

def newHasher (u : Unicode) (hmac : HMAC) (algo secret : Bytes) : Option (Bytes → Bytes) :=
  let canonical := canonicalAlgorithm u algo
  if canonical = hmacSHA256 then some (hmac .sha256 secret)
  else if canonical = hmacSHA512 then some (hmac .sha512 secret)
  else if canonical = hmacSHA1 then some (hmac .sha1 secret)
  else if canonical = hmacMD5 then some (hmac .md5 secret)
  else none

def tsigVariables (u : Unicode) (keyName algo : Bytes) (timeSigned : ℕ) (fudge tsigErr : UInt16) (otherData : Bytes) :
    Bytes :=
  encodeDomainName u keyName ++ bigEndian 2 classANY.toNat ++ bigEndian 4 0 ++ encodeDomainName u algo ++
    bigEndian 6 timeSigned ++ bigEndian 2 fudge.toNat ++ bigEndian 2 tsigErr.toNat ++
    bigEndian 2 (min otherData.length 65535) ++ otherData

structure Record where
  name : Bytes
  algorithm : Bytes
  mac : Bytes
  otherData : Bytes
  timeSigned : ℕ
  originalID : UInt16
  fudge : UInt16
  error : UInt16
  deriving DecidableEq, Repr

inductive ExtractError where
  | wire (e : WireError)
  | malformedTSIG
  deriving DecidableEq, Repr

def liftWire {α : Type} : Except WireError α → Except ExtractError α
  | .ok a => .ok a
  | .error e => .error (.wire e)

def skipQuestions (p : Bytes) : ℕ → ℕ → Except ExtractError ℕ
  | 0, offset => .ok offset
  | n + 1, offset => do
    let (_, next) ← liftWire (unpackDomainName p offset)
    if next + 4 > p.length then throw .malformedTSIG
    skipQuestions p n (next + 4)

def skipRecords (p : Bytes) : ℕ → ℕ → Except ExtractError ℕ
  | 0, offset => .ok offset
  | n + 1, offset => do
    let (_, next) ← liftWire (unpackDomainName p offset)
    if next + 10 > p.length then throw .malformedTSIG
    let offset' := next + 10 + (uint16At p (next + 8)).toNat
    if offset' > p.length then throw .malformedTSIG
    skipRecords p n offset'

def skipMessageSections (p : Bytes) (qd an ns ar : ℕ) : Except ExtractError ℕ := do
  let offset ← skipQuestions p qd headerSize
  skipRecords p (an + ns + ar - 1) offset

def slice (p : Bytes) (i n : ℕ) : Bytes := (p.drop i).take n

def unpackTSIGRecord (u : Unicode) (p : Bytes) (offset rdataEnd : ℕ) (keyName : Bytes) :
    Except ExtractError Record := do
  let (algoName, offset) ← liftWire (unpackDomainName p offset)
  if offset + 10 > rdataEnd then throw .malformedTSIG
  let macSize := (uint16At p (offset + 8)).toNat
  let rest := offset + 10 + macSize
  if rest + 6 > rdataEnd then throw .malformedTSIG
  let otherLen := (uint16At p (rest + 4)).toNat
  if rest + 6 + otherLen > rdataEnd then throw .malformedTSIG
  return {
    name := canonicalName u keyName
    algorithm := canonicalAlgorithm u algoName
    mac := slice p (offset + 10) macSize
    otherData := slice p (rest + 6) otherLen
    timeSigned := ofBigEndian (slice p offset 6)
    originalID := uint16At p rest
    fudge := uint16At p (offset + 6)
    error := uint16At p (rest + 2) }

def extract (u : Unicode) (p : Bytes) : Except ExtractError (Option Record × Bytes) :=
  if p.length < headerSize then .ok (none, p)
  else
    let h := decodeHeader p
    if h.arCount = 0 then .ok (none, p)
    else do
      let start ← skipMessageSections p h.qdCount.toNat h.anCount.toNat h.nsCount.toNat h.arCount.toNat
      let (keyName, offset) ← liftWire (unpackDomainName p start)
      if offset + 10 > p.length then return (none, p)
      if uint16At p offset ≠ typeTSIG ∨ uint16At p (offset + 2) ≠ classANY ∨ uint32At p (offset + 4) ≠ 0 then
        return (none, p)
      let rdataEnd := offset + 10 + (uint16At p (offset + 8)).toNat
      if rdataEnd > p.length then throw .malformedTSIG
      let r ← unpackTSIGRecord u p (offset + 10) rdataEnd keyName
      return (some r, putUint16 (p.take start) 10 (h.arCount - 1))

inductive VerifyError where
  | badKey
  | badAlgorithm
  | badTime
  | badSignature
  deriving DecidableEq, Repr

def VerifyError.code : VerifyError → UInt16
  | .badSignature => 16
  | .badKey => 17
  | .badTime => 18
  | .badAlgorithm => 21

theorem VerifyError.code_ne_zero (e : VerifyError) : e.code ≠ 0 := by cases e <;> decide

def clockSkew (now : ℤ) (timeSigned : ℕ) : ℕ :=
  if 0 ≤ now ∧ timeSigned ≤ now.toNat then now.toNat - timeSigned
  else if 0 ≤ now then timeSigned - now.toNat
  else timeSigned

def restoreID (payload : Bytes) (originalID : UInt16) : Bytes :=
  if originalID ≠ 0 then putUint16 payload 0 originalID else payload

def verify (u : Unicode) (hmac : HMAC) (payload : Bytes) (r : Record) (key : Key) (now : ℤ) :
    Except VerifyError Unit :=
  if canonicalName u key.name ≠ r.name then .error .badKey
  else if canonicalAlgorithm u key.algorithm ≠ r.algorithm then .error .badAlgorithm
  else if clockSkew now r.timeSigned > (if r.fudge = 0 then defaultFudge else r.fudge.toNat) then .error .badTime
  else
    match newHasher u hmac r.algorithm key.secret with
    | none => .error .badAlgorithm
    | some h =>
      let expected := h (restoreID payload r.originalID ++
        tsigVariables u r.name r.algorithm r.timeSigned r.fudge r.error r.otherData)
      if expected = r.mac then .ok () else .error .badSignature

def signatureRecord (u : Unicode) (resp keyName algo mac : Bytes) (timeSigned : ℕ) (fudge tsigErr : UInt16)
    (otherData : Bytes) : Bytes :=
  let rdata := encodeDomainName u algo ++ bigEndian 6 timeSigned ++ bigEndian 2 fudge.toNat ++
    bigEndian 2 (min mac.length 65535) ++ mac ++ resp.take 2 ++ bigEndian 2 tsigErr.toNat ++
    bigEndian 2 (min otherData.length 65535) ++ otherData
  encodeDomainName u keyName ++ bigEndian 2 typeTSIG.toNat ++ bigEndian 2 classANY.toNat ++ bigEndian 4 0 ++
    bigEndian 2 (min rdata.length 65535) ++ rdata

def otherData (tsigErr : UInt16) (timeSigned : ℕ) : Bytes :=
  if tsigErr = VerifyError.badTime.code then bigEndian 6 timeSigned else []

def responseMAC (u : Unicode) (hmac : HMAC) (resp reqMAC : Bytes) (key : Key) (tsigErr : UInt16) (now : ℤ) :
    Option Bytes :=
  let algo := canonicalAlgorithm u key.algorithm
  (newHasher u hmac algo key.secret).map fun h =>
    let request := if reqMAC = [] then [] else bigEndian 2 (min reqMAC.length 65535) ++ reqMAC
    h (request ++ resp ++ tsigVariables u (canonicalName u key.name) algo now.toNat (UInt16.ofNat defaultFudge) tsigErr
      (otherData tsigErr now.toNat))

def signature (u : Unicode) (hmac : HMAC) (resp reqMAC : Bytes) (key : Key) (tsigErr : UInt16) (now : ℤ) :
    Option Bytes :=
  (responseMAC u hmac resp reqMAC key tsigErr now).map fun mac =>
    signatureRecord u resp (canonicalName u key.name) (canonicalAlgorithm u key.algorithm) mac now.toNat
      (UInt16.ofNat defaultFudge) tsigErr (otherData tsigErr now.toNat)

def sign (u : Unicode) (hmac : HMAC) (resp : Bytes) (bufLen : ℕ) (reqMAC : Bytes) (key : Key) (tsigErr : UInt16)
    (now : ℤ) : Option Bytes :=
  (signature u hmac resp reqMAC key tsigErr now).bind fun rr =>
    if resp.length + rr.length > bufLen then none
    else some (putUint16 resp 10 (uint16At resp 10 + 1) ++ rr)

theorem sign_headerCode {u : Unicode} {hmac : HMAC} {resp signed reqMAC : Bytes} {bufLen : ℕ} {key : Key}
    {tsigErr code : UInt16} {now : ℤ} (h : HeaderCode resp code)
    (hs : sign u hmac resp bufLen reqMAC key tsigErr now = some signed) : HeaderCode signed code := by
  obtain ⟨rr, -, hs⟩ := Option.bind_eq_some_iff.mp hs
  simp only [Option.ite_none_left_eq_some, Option.some.injEq] at hs
  rw [← hs.2]
  apply HeaderCode.append
  apply h.putCount <;> decide

end Kdns.Tsig
