import Kdns.Server.Update

namespace Kdns.DnsServer

open ByteStream Dns Wire GoStrings Tsig Update

structure Runtime where
  unicode : Unicode
  hmac : HMAC

/-- The clock when a packet is checked and when its answer is signed, and the order of the maps in between. -/
structure Moment where
  now : ℤ
  later : ℤ
  mapOrder : MapOrder

inductive Transport where
  | udp
  | tcp
  deriving DecidableEq, Repr

def udpBufferSize : ℕ := 4096

def Transport.bufLen : Transport → ℕ
  | .udp => udpBufferSize
  | .tcp => maxTCPSize

def Transport.size : Transport → ℕ
  | .udp => maxUDPSize
  | .tcp => maxTCPSize

structure Server (σ ε : Type) where
  res : σ → Bytes → RRType → σ × Result
  getter : Option (Getter σ)
  upsertDeleter : Option (UpsertDeleter σ ε)
  tsigKeys : Option KeyRing
  dnssecMgr : Option (Bytes → RRType → Result → ℤ → Response)
  versionWire : List Bytes
  identityWire : List Bytes
  authorsWire : List Bytes

inductive QueryError (ε : Type) where
  | extract (e : ExtractError)
  | unpack (e : WireError)
  | zeroQuestions
  | update (e : UpdateError ε)
  deriving DecidableEq, Repr

inductive ServerError (ε : Type) where
  | malformedQuery (cause : QueryError ε)
  | responsePacket
  | serialization (e : Option WireError)
  deriving DecidableEq, Repr

structure TsigAuth where
  record : Option Record
  payload : Bytes
  key : Option Key
  errCode : UInt16
  deriving DecidableEq, Repr

def TsigAuth.present (a : TsigAuth) : Bool := a.record.isSome

structure Outcome (σ ε : Type) where
  store : σ
  calls : List StoreCall
  qName : Bytes
  rcode : RCode
  answer : Except (ServerError ε) Bytes

section Resolve

variable {σ ε : Type} (rt : Runtime) (srv : Server σ ε) (m : Moment)

def resolveCHAOS (name : Bytes) (qType : RRType) : Result :=
  let lower := toLower rt.unicode (trimSuffix name [dotByte])
  let text := fun rdata =>
    if qType = typeTXT ∨ qType = typeANY then { rcode := .success, answer := ⟨rdata, 0, typeTXT, classCH⟩ }
    else { rcode := .success }
  if lower = ascii "version.bind" ∨ lower = ascii "version.server" then text srv.versionWire
  else if lower = ascii "hostname.bind" ∨ lower = ascii "id.server" then text srv.identityWire
  else if lower = ascii "authors.bind" then text srv.authorsWire
  else { rcode := .nameError }

def handleQuery (s : σ) (q : Question) (wantsDNSSEC : Bool) : σ × Response :=
  if q.rrClass = classCH then (s, .ofResult (resolveCHAOS rt srv q.name q.type))
  else
    let r := srv.res s q.name q.type
    match srv.dnssecMgr with
    | some signResult => (r.1, if wantsDNSSEC then signResult q.name q.type r.2 m.now else .ofResult r.2)
    | none => (r.1, .ofResult r.2)

def authenticateTSIG (query : Bytes) : Except ExtractError TsigAuth :=
  match extract rt.unicode query with
  | .error e => .error e
  | .ok (none, payload) => .ok ⟨none, payload, none, 0⟩
  | .ok (some r, payload) =>
    match srv.tsigKeys.bind fun keys => keys.key rt.unicode r.name with
    | none => .ok ⟨some r, payload, none, VerifyError.badKey.code⟩
    | some key =>
      match verify rt.unicode rt.hmac payload r key m.now with
      | .error e => .ok ⟨some r, payload, some key, e.code⟩
      | .ok _ => .ok ⟨some r, payload, some key, 0⟩

abbrev Handled (σ ε : Type) := σ × List StoreCall × Except (UpdateError ε) Response

/-- Without a getter, a store to write to and a key ring every update is refused. -/
def handleUpdate (s : σ) (payload : Bytes) (hasTSIG : Bool) (tsigErr : UInt16) : Handled σ ε :=
  match srv.getter, srv.upsertDeleter, srv.tsigKeys with
  | some getter, some ud, some _ =>
    if !hasTSIG ∨ tsigErr ≠ 0 then (s, [], .ok (.ofRCode .notAuth))
    else
      let r := process rt.unicode m.mapOrder getter ud s payload
      match r.err with
      | some e => (r.store, r.calls, .error e)
      | none => (r.store, r.calls, .ok (.ofRCode r.rcode))
  | _, _, _ => (s, [], .ok (.ofRCode .refused))

def dispatch (s : σ) (msg : Message) (q : Question) (auth : TsigAuth) : Handled σ ε :=
  if auth.present ∧ auth.errCode ≠ 0 then (s, [], .ok (.ofRCode .notAuth))
  else if msg.header.opcode = opcodeQuery then
    let r := handleQuery rt srv m s q msg.wantsDNSSEC
    (r.1, [], .ok r.2)
  else if msg.header.opcode = opcodeUpdate then handleUpdate rt srv m s auth.payload auth.present auth.errCode
  else (s, [], .ok (.ofRCode .notImplemented))

def signAnswer (auth : TsigAuth) (bufLen : ℕ) (bytes : Bytes) : Bytes :=
  match auth.record, auth.key with
  | some r, some key => (sign rt.unicode rt.hmac bytes bufLen r.mac key auth.errCode m.later).getD bytes
  | _, _ => bytes

def respond (msg : Message) (auth : TsigAuth) (t : Transport) (res : Response) : Except (ServerError ε) Bytes :=
  match packResponse msg t.bufLen res (maxPayloadSize t.size msg.edns0Size) with
  | .error e => .error (.serialization (some e))
  | .ok bytes => if bytes.length = 0 then .error (.serialization none) else .ok (signAnswer rt m auth t.bufLen bytes)

def conclude (msg : Message) (q : Question) (auth : TsigAuth) (t : Transport) : Handled σ ε → Outcome σ ε
  | (s, calls, .error e) => ⟨s, calls, q.name, .formatError, .error (.malformedQuery (.update e))⟩
  | (s, calls, .ok res) => ⟨s, calls, q.name, res.rcode, respond rt m msg auth t res⟩

def handleMultipleOPT (msg : Message) (t : Transport) : Except (ServerError ε) Bytes :=
  match packResponse msg t.bufLen (.ofRCode .formatError) maxUDPSize with
  | .error e => .error (.serialization (some e))
  | .ok bytes => .ok bytes

def resolve (s : σ) (query : Bytes) (t : Transport) : Outcome σ ε :=
  match authenticateTSIG rt srv m query with
  | .error e => ⟨s, [], [], .formatError, .error (.malformedQuery (.extract e))⟩
  | .ok auth =>
    match unpack auth.payload with
    | (msg, some .multipleOPT) => ⟨s, [], [], .formatError, handleMultipleOPT msg t⟩
    | (_, some e) => ⟨s, [], [], .formatError, .error (.malformedQuery (.unpack e))⟩
    | (msg, none) =>
      if msg.header.isResponse then ⟨s, [], [], .success, .error .responsePacket⟩
      else
        match msg.questions with
        | [] => ⟨s, [], [], .formatError, .error (.malformedQuery .zeroQuestions)⟩
        | q :: _ => conclude rt m msg q auth t (dispatch rt srv m s msg q auth)

end Resolve

end Kdns.DnsServer
