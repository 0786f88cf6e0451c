import Kdns.Domain
import Kdns.Wire.RData

namespace Kdns.Zone

open ByteStream Dns Wire
open GoStrings hiding Text

def maxLineBufferSize : ℕ := 1024 * 1024

inductive ZoneError where
  | unclosedQuote
  | unclosedParenthesis
  | unmatchedParenthesis
  | malformedTTL (detail : String)
  | missingOrigin
  | malformedOrigin (e : WireError)
  | insufficientTokens
  | missingRDataForType (type : RRType)
  | unknownQueryType
  | unexpectedToken (tok : Text)
  | malformedOwner (e : WireError)
  | omittedOwner
  | missingRData (type : RRType) (name : Text)
  | buildRData (type : RRType) (rdata name : Text) (e : RDataError)
  | scan
  deriving DecidableEq, Repr

def quote : UInt8 := 0x22
def openParen : UInt8 := 0x28
def closeParen : UInt8 := 0x29
def semicolon : UInt8 := 0x3B
def backslash : UInt8 := 0x5C
def blank : UInt8 := 0x20
def tab : UInt8 := 0x09
def newline : UInt8 := 0x0A
def carriageReturn : UInt8 := 0x0D

section Lines

def splitLines : Text → Text → List Text
  | current, [] => if current = [] then [] else [current]
  | current, b :: rest => if b = newline then current :: splitLines [] rest else splitLines (current ++ [b]) rest

def dropCR (line : Text) : Text := if hasSuffix line [carriageReturn] then line.dropLast else line

/-- The lines that the scanner delivers, and whether it stopped at one that does not fit into its buffer. -/
def scanLines (data : Text) : List Text × Bool :=
  let lines := splitLines [] data
  let fitting := lines.takeWhile fun line => line.length < maxLineBufferSize
  (fitting.map dropCR, fitting.length < lines.length)

end Lines

section Tokens

structure Context where
  parenCount : ℕ
  inQuote : Bool
  quoteBuf : Text
  deriving DecidableEq, Repr

def Context.closed (x : Context) : Bool := x.parenCount = 0 && !x.inQuote

def isBlank (ch : UInt8) : Bool := ch = blank || ch = tab || ch = carriageReturn || ch = newline

def flush (token : Text) (tokens : List Text) : List Text := if token = [] then tokens else tokens ++ [token]

/-- The loop over the bytes of a line. Quotations keep their quotes and escapes; a quotation or a parenthesis does not end
the token before it. -/
def tokenizeFrom (x : Context) (token : Text) (tokens : List Text) : Text → Except ZoneError (Context × List Text)
  | [] => .ok (x, flush token tokens)
  | ch :: rest =>
    if x.inQuote then
      match decide (ch = backslash), rest with
      | true, next :: rest => tokenizeFrom { x with quoteBuf := x.quoteBuf ++ [ch, next] } token tokens rest
      | _, rest =>
        if ch = quote then
          tokenizeFrom { x with inQuote := false, quoteBuf := [] } token (tokens ++ [x.quoteBuf ++ [ch]]) rest
        else tokenizeFrom { x with quoteBuf := x.quoteBuf ++ [ch] } token tokens rest
    else if ch = semicolon then .ok (x, flush token tokens)
    else if ch = openParen then tokenizeFrom { x with parenCount := x.parenCount + 1 } token tokens rest
    else if ch = closeParen then
      if x.parenCount = 0 then .error .unmatchedParenthesis
      else tokenizeFrom { x with parenCount := x.parenCount - 1 } token tokens rest
    else if ch = quote then tokenizeFrom { x with inQuote := true, quoteBuf := x.quoteBuf ++ [ch] } token tokens rest
    else if isBlank ch then tokenizeFrom x [] (flush token tokens) rest
    else
      match decide (ch = backslash), rest with
      | true, next :: rest => tokenizeFrom x (token ++ [ch, next]) tokens rest
      | _, rest => tokenizeFrom x (token ++ [ch]) tokens rest

def tokenizeComplexLine (x : Context) (line : Text) : Except ZoneError (Context × List Text) := tokenizeFrom x [] [] line

def isSpecial (ch : UInt8) : Bool := ch = quote || ch = openParen || ch = closeParen

def stripComment (line : Text) : Text := line.takeWhile (· ≠ semicolon)

def plainTokens (line : Text) : List Text := fields (trimSpace (stripComment line))

end Tokens

section Words

/-- `strings.EqualFold`, for words none of whose letters folds with one outside ASCII. -/
def equalFold (s word : Text) : Bool := s.map lowerASCII = word.map lowerASCII

def ttlUnit (last : UInt8) : Option ℕ :=
  let unit := lowerASCII last
  if unit = 0x73 then some 1
  else if unit = 0x6D then some 60
  else if unit = 0x68 then some 3600
  else if unit = 0x64 then some 86400
  else if unit = 0x77 then some 604800
  else none

def parseTTL (s : Text) : Option UInt32 :=
  match s.getLast? with
  | none => none
  | some last =>
    let r := match ttlUnit last with
      | some mult => (mult, s.dropLast)
      | none => (1, s)
    match parseUint r.2 32 with
    | none => none
    | some val => if val * r.1 > 0xFFFFFFFF then none else some (UInt32.ofNat (val * r.1))

def parseClass (s : Text) : Option UInt16 := if equalFold s (ascii "IN") then some classIN else none

variable (u : Unicode)

def normalizeName (name origin : Text) : Except WireError Text :=
  let name := if ¬hasSuffix name [dotByte] ∧ origin ≠ [] then name ++ dotByte :: origin else name
  let name := toLower u (trimSuffix name [dotByte])
  if name.length > maxNameLen then .error .nameTooLong
  else if name ≠ [] ∧ (name.splitOn dotByte).any (fun label => label.length > maxLabelLen) then .error .labelTooLong
  else .ok name

def resolveDomainName (rawName origin : Text) : Except WireError Text :=
  if rawName = ascii "@" then .ok origin
  else if rawName = [dotByte] then .ok []
  else
    let rawName := if ¬hasSuffix rawName [dotByte] ∧ origin ≠ [] then rawName ++ dotByte :: origin else rawName
    normalizeName u rawName []

end Words

section Records

variable (enc : Encoders)

def isTypeToken (s : Text) : Option RRType :=
  if s = [] then none
  else if (parseTTL s).isSome then none
  else if (parseClass s).isSome then none
  else parseType enc.capitals s

structure Roles where
  hasOwner : Bool
  hasTTL : Bool
  hasClass : Bool
  deriving DecidableEq, Repr

def rolesFrom (r : Roles) : List Text → Bool
  | [] => true
  | tok :: toks =>
    if (parseTTL tok).isSome ∧ r.hasTTL = false then rolesFrom { r with hasTTL := true } toks
    else if (parseClass tok).isSome ∧ r.hasClass = false then rolesFrom { r with hasClass := true } toks
    else if r.hasOwner = false then rolesFrom { r with hasOwner := true } toks
    else false

def isValidPrefix (toks : List Text) : Bool := toks.length ≤ 3 && rolesFrom ⟨false, false, false⟩ toks

def findTypeBelow (tokens : List Text) : ℕ → Except ZoneError (ℕ × RRType)
  | 0 => .error .unknownQueryType
  | i + 1 =>
    match (tokens[i]?).bind (isTypeToken enc) with
    | none => findTypeBelow tokens i
    | some qt =>
      if i + 1 ≥ tokens.length then .error (.missingRDataForType qt)
      else if isValidPrefix (tokens.take i) then .ok (i, qt)
      else findTypeBelow tokens i

def findRecordTypeIndex (tokens : List Text) : Except ZoneError (ℕ × RRType) :=
  if tokens.length < 2 then .error .insufficientTokens
  else findTypeBelow enc tokens (min (tokens.length - 1) 3 + 1)

structure ParsedHeader where
  rawName : Text
  ttl : UInt32
  rrClass : UInt16
  hasOwner : Bool
  deriving DecidableEq, Repr

/-- `defaultClass` is the one class there is, so that the assignment to it changes nothing. -/
def parseHeaderFrom (h : ParsedHeader) (hasExplicitTTL : Bool) : List Text → Except ZoneError ParsedHeader
  | [] => .ok h
  | tok :: toks =>
    match (if hasExplicitTTL then none else parseTTL tok), parseClass tok with
    | some ttl, _ => parseHeaderFrom { h with ttl := ttl } true toks
    | none, some rrClass => parseHeaderFrom { h with rrClass := rrClass } hasExplicitTTL toks
    | none, none =>
      if h.hasOwner then .error (.unexpectedToken tok)
      else parseHeaderFrom { h with rawName := tok, hasOwner := true } hasExplicitTTL toks

/-- A map from names to their sets: the entries in the order of their first insertion. -/
abbrev Records := List (Text × RRSets)

def Records.find (rs : Records) (name : Text) : RRSets := (rs.lookup name).getD []

def Records.put (name : Text) (sets : RRSets) : Records → Records
  | [] => [(name, sets)]
  | e :: rs => if e.1 = name then (name, sets) :: rs else e :: Records.put name sets rs

def appendOrUpdateRRSet (sets : RRSets) (qType : RRType) (rrClass : UInt16) (ttl : UInt32) (wire : Bytes) : RRSets :=
  match sets with
  | [] => [⟨[wire], ttl, qType, rrClass⟩]
  | s :: rest =>
    if s.type = qType then { s with rdata := s.rdata ++ [wire] } :: rest
    else s :: appendOrUpdateRRSet rest qType rrClass ttl wire

structure ZoneParser where
  records : Records
  complexTokens : List Text
  context : Context
  origin : Text
  lastDomain : Text
  defaultTTL : UInt32
  defaultClass : UInt16
  deriving DecidableEq, Repr

def newZoneParser : ZoneParser := ⟨[], [], ⟨0, false, []⟩, [], [], 3600, classIN⟩

variable (u : Unicode)

def processDirective (p : ZoneParser) : List Text → Except ZoneError (Option ZoneParser)
  | [] => .ok none
  | first :: rest =>
    if equalFold first (ascii "$TTL") then
      match rest with
      | [] => .error (.malformedTTL "missing value")
      | value :: _ =>
        match parseTTL value with
        | none => .error (.malformedTTL "invalid syntax")
        | some ttl => .ok (some { p with defaultTTL := ttl })
    else if equalFold first (ascii "$ORIGIN") then
      match rest with
      | [] => .error .missingOrigin
      | value :: _ =>
        if value = [] then .error .missingOrigin
        else
          match normalizeName u value [] with
          | .error e => .error (.malformedOrigin e)
          | .ok normalized => .ok (some { p with origin := normalized, lastDomain := normalized })
    else .ok none

def resolveOwnerName (p : ZoneParser) (rawName : Text) (hasOwner : Bool) : Except ZoneError (ZoneParser × Text) :=
  if hasOwner then
    match resolveDomainName u rawName p.origin with
    | .error e => .error (.malformedOwner e)
    | .ok resolved => .ok ({ p with lastDomain := resolved }, resolved)
  else if p.lastDomain ≠ [] then .ok (p, p.lastDomain)
  else if p.origin ≠ [] then .ok (p, p.origin)
  else .error .omittedOwner

def joinBlank (tokens : List Text) : Text := [blank].intercalate tokens

def processRecord (p : ZoneParser) (tokens : List Text) : Except ZoneError ZoneParser := do
  let (typeIdx, qType) ← findRecordTypeIndex enc tokens
  let header ← parseHeaderFrom ⟨[], p.defaultTTL, p.defaultClass, false⟩ false (tokens.take typeIdx)
  let (p, name) ← resolveOwnerName u p header.rawName header.hasOwner
  let rdata := joinBlank (tokens.drop (typeIdx + 1))
  if rdata = [] then throw (.missingRData qType name)
  match packRData enc qType rdata with
  | .error e => throw (.buildRData qType rdata name e)
  | .ok wire =>
    let sets := appendOrUpdateRRSet (p.records.find name) qType header.rrClass header.ttl wire
    return { p with records := p.records.put name sets }

def processRecordTokens (p : ZoneParser) (tokens : List Text) : Except ZoneError ZoneParser :=
  if tokens = [] then .ok p
  else
    match processDirective u p tokens with
    | .error e => .error e
    | .ok (some p) => .ok p
    | .ok none => processRecord enc u p tokens

def parseLine (p : ZoneParser) (rawLine : Text) : Except ZoneError ZoneParser :=
  if p.context.closed ∧ ¬rawLine.any isSpecial then processRecordTokens enc u p (plainTokens rawLine)
  else do
    let (context, lineTokens) ← tokenizeComplexLine p.context rawLine
    let p := { p with context := context, complexTokens := p.complexTokens ++ lineTokens }
    if p.context.closed ∧ p.complexTokens ≠ [] then do
      let p' ← processRecordTokens enc u p p.complexTokens
      return { p' with complexTokens := [] }
    else return p

def parseLines (p : ZoneParser) (lines : List Text) : Except ZoneError ZoneParser := lines.foldlM (parseLine enc u) p

def parseAll (data : Text) : Except ZoneError ZoneParser := do
  let (lines, tooLong) := scanLines data
  let p ← parseLines enc u newZoneParser lines
  if p.context.inQuote then throw .unclosedQuote
  if p.context.parenCount > 0 then throw .unclosedParenthesis
  if tooLong then throw .scan
  return p

def parse (data : Text) : Except ZoneError Records := (parseAll enc u data).map ZoneParser.records

end Records

end Kdns.Zone
