import Kdns.Lib.Base64
import Kdns.Wire.Sections

namespace Kdns.Doh

open ByteStream Dns Wire GoStrings

def maxWirePayloadSize : ℕ := 4096
def contentTypeDoH : Bytes := ascii "application/dns-message"

inductive Method where
  | get
  | post
  | other
  deriving DecidableEq, Repr

structure Request where
  method : Method
  dnsParam : Bytes
  contentType : Bytes
  body : Bytes
  deriving DecidableEq, Repr

inductive Status where
  | badRequest
  | methodNotAllowed
  | unsupportedMediaType
  | internalServerError
  | serviceUnavailable
  deriving DecidableEq, Repr

def Status.code : Status → ℕ
  | .badRequest => 400
  | .methodNotAllowed => 405
  | .unsupportedMediaType => 415
  | .internalServerError => 500
  | .serviceUnavailable => 503

inductive Reply where
  | error (status : Status) (text : String)
  | message (bytes : Bytes) (maxAge : Option UInt32)
  deriving DecidableEq, Repr

def Reply.bytes : Reply → Option Bytes
  | .error _ _ => none
  | .message bytes _ => some bytes

abbrev Resolver := Bytes → RRType → Result

def decodeGetPayload (r : Request) : Except Reply Bytes :=
  if r.dnsParam = [] then .error (.error .badRequest "missing 'dns' query parameter")
  else
    match (Base64.decodeRawURL r.dnsParam).or (Base64.decodeURL r.dnsParam) with
    | none => .error (.error .badRequest "invalid base64url encoding")
    | some decoded =>
      if decoded.length = 0 ∨ decoded.length > maxTCPSize then .error (.error .badRequest "invalid dns message length")
      else .ok decoded

def readPostPayload (u : Unicode) (r : Request) : Except Reply Bytes :=
  if !contentTypeDoH.isPrefixOf (toLower u r.contentType) then
    .error (.error .unsupportedMediaType "unsupported content type, expected application/dns-message")
  else if r.body.length > maxTCPSize then
    .error (.error .badRequest "failed to read request body: http: request body too large")
  else if r.body.length = 0 then .error (.error .badRequest "empty request body")
  else .ok r.body

def extractDoHPayload (u : Unicode) (r : Request) : Except Reply Bytes :=
  match r.method with
  | .get => decodeGetPayload r
  | .post => readPostPayload u r
  | .other => .error (.error .methodNotAllowed "method not allowed")

def resolveDoHQuery (resolver : Resolver) (msg : Message) (q : Question) : Result :=
  if msg.header.opcode = opcodeQuery then resolver q.name q.type
  else if msg.header.opcode = opcodeUpdate then { rcode := .refused }
  else { rcode := .notImplemented }

def calculateResponseTTL (res : Result) : UInt32 :=
  if res.hasAnswer ∧ res.answer.ttl ≠ 0 then res.answer.ttl
  else if res.hasAuthority ∧ res.authority.ttl ≠ 0 then res.authority.ttl
  else 0

def handleUnpackError (msg : Message) (err : WireError) : Reply :=
  if err = .multipleOPT then
    match packResponse msg maxWirePayloadSize (.ofRCode .formatError) maxTCPSize with
    | .ok bytes => if bytes.length > 0 then .message bytes none else .error .badRequest "malformed dns message"
    | .error _ => .error .badRequest "malformed dns message"
  else .error .badRequest "malformed dns message"

def answerPayload (resolver : Resolver) (reqData : Bytes) : Reply :=
  match unpack reqData with
  | (msg, some err) => handleUnpackError msg err
  | (msg, none) =>
    if msg.header.isResponse then .error .badRequest "invalid dns query"
    else
      match msg.questions with
      | [] => .error .badRequest "invalid dns query"
      | q :: _ =>
        let res := resolveDoHQuery resolver msg q
        match packResponse msg maxWirePayloadSize (.ofResult res) (maxPayloadSize maxTCPSize msg.edns0Size) with
        | .error _ => .error .internalServerError "internal server error"
        | .ok bytes =>
          if bytes.length = 0 then .error .internalServerError "internal server error"
          else .message bytes (some (calculateResponseTTL res))

def handleDoH (u : Unicode) (resolver : Option Resolver) (r : Request) : Reply :=
  match resolver with
  | none => .error .serviceUnavailable "DNS resolver unconfigured"
  | some resolver =>
    match extractDoHPayload u r with
    | .error reply => reply
    | .ok reqData => answerPayload resolver reqData

section Replies

variable {u : Unicode} {resolver : Resolver} {query : Bytes} {msg : Message}

theorem handleDoH_payload {r : Request} (h : extractDoHPayload u r = .ok query) :
    handleDoH u (some resolver) r = answerPayload resolver query := by
  rw [handleDoH, h]

theorem maxPayloadSize_stream (edns0Size : ℕ) : maxPayloadSize maxTCPSize edns0Size = maxTCPSize :=
  if_neg fun h => absurd h.1 (by decide)

theorem answerPayload_error {err : WireError} (h : unpack query = (msg, some err)) :
    (answerPayload resolver query).bytes =
      if err = .multipleOPT then (packResponse msg maxWirePayloadSize (.ofRCode .formatError) maxTCPSize).toOption
      else none := by
  rw [answerPayload, h]
  dsimp only
  rw [handleUnpackError]
  split_ifs
  · cases hpack : packResponse msg maxWirePayloadSize (.ofRCode .formatError) maxTCPSize with
    | error e => rfl
    | ok bytes =>
      dsimp only
      rw [if_pos (packResponse_pos hpack)]
      rfl
  · rfl

theorem answerPayload_query {q : Question} {qs : List Question} (h : unpack query = (msg, none))
    (hqr : msg.header.isResponse = false) (hqs : msg.questions = q :: qs) : (answerPayload resolver query).bytes =
      (packResponse msg maxWirePayloadSize (.ofResult (resolveDoHQuery resolver msg q)) maxTCPSize).toOption := by
  rw [answerPayload, h]
  dsimp only
  rw [hqr, if_neg Bool.false_ne_true, hqs]
  dsimp only
  rw [maxPayloadSize_stream]
  cases hpack : packResponse msg maxWirePayloadSize (.ofResult (resolveDoHQuery resolver msg q)) maxTCPSize with
  | error e => rfl
  | ok bytes =>
    dsimp only
    rw [if_neg (packResponse_pos hpack).ne']
    rfl

end Replies

end Kdns.Doh
