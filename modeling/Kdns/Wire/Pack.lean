import Kdns.Lib.GoStrings
import Kdns.Wire.Unpack

namespace Kdns.Wire

open ByteStream Dns

def maxUDPSize : ℕ := 512
def maxEDNS0Size : ℕ := 1232
def maxTCPSize : ℕ := 65535
def defaultEDNS0BufferSize : ℕ := 4096
def maxCompressionOffsets : ℕ := 16
def pointerMask16 : ℕ := 0xC000

structure Response extends Result where
  answerRRSIG : RRSet := RRSet.empty
  authorityRRSIG : RRSet := RRSet.empty
  additional : RRSet := RRSet.empty
  deriving DecidableEq, Repr

def Response.hasAnswerRRSIG (r : Response) : Bool := r.answerRRSIG.hasRecords

def Response.hasAuthorityRRSIG (r : Response) : Bool := r.authorityRRSIG.hasRecords

def Response.hasAdditional (r : Response) : Bool := r.additional.hasRecords

def Response.ofResult (r : Result) : Response := { r with }

def Response.ofRCode (c : RCode) : Response := .ofResult { rcode := c }

def equalFoldASCII (a b : Bytes) : Bool := a.map GoStrings.lowerASCII = b.map GoStrings.lowerASCII

def encodeDomainName (u : GoStrings.Unicode) (name : Bytes) : Bytes :=
  let canonical := GoStrings.toLower u (GoStrings.trimSpace name)
  if canonical = [] ∨ canonical = [dotByte] then [0]
  else
    ((GoStrings.trimSuffix canonical [dotByte]).splitOn dotByte).flatMap
      (fun label => UInt8.ofNat (min label.length maxLabelLen) :: label.take maxLabelLen) ++ [0]

/-- `out` is the buffer up to the writer's offset. The table keeps what it learned from a name that was taken back. -/
structure PacketWriter where
  limit : ℕ
  out : Bytes
  table : List (Bytes × ℕ)
  deriving DecidableEq, Repr

def PacketWriter.offset (w : PacketWriter) : ℕ := w.out.length

def PacketWriter.put (w : PacketWriter) (bytes : Bytes) : PacketWriter := { w with out := w.out ++ bytes }

def PacketWriter.lookup (w : PacketWriter) (domain : Bytes) : Option ℕ :=
  if domain = [] ∨ domain = [dotByte] then none
  else (w.table.find? fun e => equalFoldASCII e.1 domain).map Prod.snd

def PacketWriter.insert (w : PacketWriter) (domain : Bytes) : PacketWriter :=
  if w.table.length ≥ maxCompressionOffsets ∨ w.offset > pointerOffsetMask ∨ domain = [] ∨ domain = [dotByte] then w
  else if w.table.any fun e => equalFoldASCII e.1 domain then w
  else { w with table := w.table ++ [(domain, w.offset)] }

def PacketWriter.writeLabel (w : PacketWriter) (fullSuffix label closing : Bytes) (allowCompression : Bool) :
    PacketWriter × Option WireError :=
  if label.length > maxLabelLen then (w, some .labelTooLong)
  else if label = [] then (w, none)
  else if w.offset + 1 + label.length + closing.length > w.limit then (w, some .bufferTooSmall)
  else
    let w := if allowCompression then w.insert fullSuffix else w
    (w.put (UInt8.ofNat label.length :: label ++ closing), none)

def PacketWriter.writeFinalLabel (w : PacketWriter) (label : Bytes) (allowCompression : Bool) :
    PacketWriter × Option WireError :=
  w.writeLabel label label [0] allowCompression

def PacketWriter.writeIntermediateLabel (w : PacketWriter) (fullSuffix label : Bytes) (allowCompression : Bool) :
    PacketWriter × Option WireError :=
  w.writeLabel fullSuffix label [] allowCompression

def PacketWriter.writeRoot (w : PacketWriter) : PacketWriter × Option WireError :=
  if w.offset ≥ w.limit then (w, some .bufferTooSmall) else (w.put [0], none)

def writeSuffix (allowCompression : Bool) : ℕ → PacketWriter → Bytes → PacketWriter × Option WireError
  | 0, w, _ => (w, none)
  | fuel + 1, w, suffix =>
    match if allowCompression then w.lookup suffix else none with
    | some pointer =>
      if w.offset + 2 > w.limit then (w, some .bufferTooSmall)
      else (w.put (bigEndian 2 (pointerMask16 ||| pointer)), none)
    | none =>
      match suffix.idxOf? dotByte with
      | none => w.writeFinalLabel suffix allowCompression
      | some i =>
        match w.writeIntermediateLabel suffix (suffix.take i) allowCompression with
        | (w, some e) => (w, some e)
        | (w, none) =>
          if suffix.drop (i + 1) = [] then w.writeRoot
          else writeSuffix allowCompression fuel w (suffix.drop (i + 1))

def PacketWriter.writeDomainCompressed (w : PacketWriter) (name : Bytes) (allowCompression : Bool) :
    PacketWriter × Option WireError :=
  if name.length > maxNameLen then (w, some .nameTooLong)
  else if name = [] ∨ name = [dotByte] then w.writeRoot
  else writeSuffix allowCompression (name.length + 1) w name

def PacketWriter.writeDomain (w : PacketWriter) (name : Bytes) : PacketWriter × Option WireError :=
  w.writeDomainCompressed name true

def PacketWriter.writeQuestion (w : PacketWriter) (q : Question) : PacketWriter × Option WireError :=
  match w.writeDomain q.name with
  | (w, some e) => (w, some e)
  | (w, none) =>
    if w.offset + 4 > w.limit then (w, some .bufferTooSmall)
    else (w.put (bigEndian 2 q.type.toNat ++ bigEndian 2 q.rrClass.toNat), none)

def PacketWriter.writeQuestions : List Question → PacketWriter → PacketWriter × Option WireError
  | [], w => (w, none)
  | q :: qs, w =>
    match w.writeQuestion q with
    | (w, some e) => (w, some e)
    | (w, none) => writeQuestions qs w

def putUint16 (bytes : Bytes) (i : ℕ) (v : UInt16) : Bytes :=
  bytes.take i ++ bigEndian 2 v.toNat ++ bytes.drop (i + 2)

def PacketWriter.setTruncatedFlag (w : PacketWriter) : PacketWriter :=
  { w with out := putUint16 w.out 2 (uint16At w.out 2 ||| 0x0200) }

def recordBytes (set : RRSet) (rdata : Bytes) : Bytes :=
  bigEndian 2 set.type.toNat ++ bigEndian 2 set.rrClass.toNat ++ bigEndian 4 set.ttl.toNat ++
    bigEndian 2 rdata.length ++ rdata

def writeRecords (owner : Bytes) (set : RRSet) :
    List Bytes → PacketWriter → UInt16 → PacketWriter × Except WireError UInt16
  | [], w, count => (w, .ok count)
  | rdata :: rest, w, count =>
    match w.writeDomain owner with
    | (w', some e) =>
      if e = .bufferTooSmall then ({ w' with out := w.out }.setTruncatedFlag, .ok count) else (w', .error e)
    | (w', none) =>
      if w'.offset + 10 + rdata.length > w'.limit then ({ w' with out := w.out }.setTruncatedFlag, .ok count)
      else
        let w'' := w'.put (recordBytes set rdata)
        if count + 1 = 0xFFFF then (w'', .ok (count + 1)) else writeRecords owner set rest w'' (count + 1)

def PacketWriter.writeRRSet (w : PacketWriter) (owner : Bytes) (set : RRSet) : PacketWriter × Except WireError UInt16 :=
  writeRecords owner set set.rdata w 0

def PacketWriter.writeSigned (w : PacketWriter) (owner : Bytes) (set sigs : RRSet) (signed : Bool) :
    PacketWriter × Except WireError UInt16 :=
  match w.writeRRSet owner set with
  | (w, .error e) => (w, .error e)
  | (w, .ok count) =>
    if signed then
      match w.writeRRSet owner sigs with
      | (w, .error e) => (w, .error e)
      | (w, .ok sigCount) => (w, .ok (count + sigCount))
    else (w, .ok count)

def PacketWriter.writeEDNS0 (w : PacketWriter) (m : Message) (res : Response) : PacketWriter × UInt16 :=
  if m.edns0Size = 0 then (w, 0)
  else if w.offset + 11 > w.limit then (w, 0)
  else
    let flags := if m.wantsDNSSEC then 0x8000 else 0
    (w.put (0 :: bigEndian 2 typeOPT.toNat ++ bigEndian 2 defaultEDNS0BufferSize ++
      bigEndian 4 (res.rcode.code / 16 * 2 ^ 24 + flags) ++ bigEndian 2 0), 1)

def PacketWriter.updateCounts (w : PacketWriter) (answer authority additional : UInt16) : PacketWriter :=
  { w with out := putUint16 (putUint16 (putUint16 w.out 6 answer) 8 authority) 10 additional }

def responseFlags (m : Message) (res : Response) : UInt16 :=
  let flags := (m.header.flags &&& 0x7900) ||| 0x8400 ||| UInt16.ofNat res.rcode.code
  if res.rcode = .success ∧ res.hasAnswer = false ∧ res.hasAuthority ∧ res.authority.type = typeNS then
    flags &&& ~~~0x0400
  else flags

def headerBytes (id flags questionCount : UInt16) : Bytes :=
  bigEndian 2 id.toNat ++ bigEndian 2 flags.toNat ++ bigEndian 2 questionCount.toNat ++ List.replicate 6 0

def writeAnswerSection (m : Message) (res : Response) (w : PacketWriter) : PacketWriter × Except WireError UInt16 :=
  match m.questions with
  | q :: _ =>
    if res.rcode = .success ∧ res.hasAnswer then
      w.writeSigned q.name res.answer res.answerRRSIG (m.wantsDNSSEC && res.hasAnswerRRSIG)
    else (w, .ok 0)
  | [] => (w, .ok 0)

def writeAuthoritySection (m : Message) (res : Response) (w : PacketWriter) : PacketWriter × Except WireError UInt16 :=
  match m.questions with
  | q :: _ =>
    if res.hasAuthority then
      let owner := if res.authorityName = [] then q.name else res.authorityName
      w.writeSigned owner res.authority res.authorityRRSIG (m.wantsDNSSEC && res.hasAuthorityRRSIG)
    else (w, .ok 0)
  | [] => (w, .ok 0)

def writeAdditionalSection (m : Message) (res : Response) (w : PacketWriter) : PacketWriter × Except WireError UInt16 :=
  match m.questions with
  | q :: _ => if res.rcode = .success ∧ res.hasAdditional then w.writeRRSet q.name res.additional else (w, .ok 0)
  | [] => (w, .ok 0)

def writeSections (m : Message) (res : Response) (w : PacketWriter) : Except WireError Bytes :=
  match writeAnswerSection m res w with
  | (_, .error e) => .error e
  | (w, .ok answer) =>
    match writeAuthoritySection m res w with
    | (_, .error e) => .error e
    | (w, .ok authority) =>
      match writeAdditionalSection m res w with
      | (_, .error e) => .error e
      | (w, .ok additional) =>
        let r := w.writeEDNS0 m res
        .ok (r.1.updateCounts answer authority (additional + r.2)).out

def packResponse (m : Message) (bufLen : ℕ) (res : Response) (maxSize : ℕ) : Except WireError Bytes :=
  if m.questions.length > maxQuestions then .error .tooManyQuestions
  else
    let limit := min maxSize bufLen
    if limit < headerSize then .error .bufferTooSmall
    else
      let w : PacketWriter :=
        ⟨limit, headerBytes m.header.id (responseFlags m res) (UInt16.ofNat m.questions.length), []⟩
      match w.writeQuestions m.questions with
      | (_, some e) => .error e
      | (w, none) => writeSections m res w

def maxPayloadSize (transportSize edns0Size : ℕ) : ℕ :=
  if transportSize = maxUDPSize ∧ edns0Size > maxUDPSize then min edns0Size maxEDNS0Size else transportSize

end Kdns.Wire
