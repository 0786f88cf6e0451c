import Kdns.Lib.Base64
import Kdns.Server.Serve
import Kdns.Store.Commit

namespace Kdns.Daemon

open ByteStream BufferedFile Dns Wire GoStrings Tsig Update DnsServer Storage Wal

def minAPITokenLength : ℕ := 16
def minCompactionThreshold : ℕ := 100
def minCompactionInterval : ℤ := 60000000000

inductive ClusterMode where
  | unspecified
  | standalone
  | primary
  | replica
  | unknown (name : Bytes)
  deriving DecidableEq, Repr

structure TLSConfig where
  certPath : Bytes
  keyPath : Bytes
  deriving DecidableEq, Repr

def TLSConfig.isConfigured (t : TLSConfig) : Bool := t.certPath ≠ [] || t.keyPath ≠ []

def TLSConfig.isComplete (t : TLSConfig) : Bool := t.certPath ≠ [] && t.keyPath ≠ []

structure HTTPConfig where
  addr : Bytes
  apiToken : Bytes
  corsOrigin : Bytes
  cors : Bool
  deriving DecidableEq, Repr

structure ClusterConfig where
  mode : ClusterMode
  primaryURL : Bytes
  token : Bytes
  tlsCert : Bytes
  tlsKey : Bytes
  caCert : Bytes
  deriving DecidableEq, Repr

structure StorageConfig where
  zoneFile : Bytes
  compactionInterval : ℤ
  compactionThreshold : ℕ
  deriving DecidableEq, Repr

structure Config where
  doTAddr : Bytes
  tls : TLSConfig
  http : HTTPConfig
  cluster : ClusterConfig
  storage : StorageConfig
  tsigKeys : List Key
  dnssecEnabled : Bool
  deriving DecidableEq, Repr

inductive ConfigError where
  | incompleteTLS
  | doTRequiresTLS (addr : Bytes)
  | apiTokenRequired
  | apiTokenTooShort (got : ℕ)
  | apiTokenInvalid
  | emptyCORSOrigin
  | replicaZoneFileForbidden
  | clusterTokenRequired
  | clusterPrimaryURLRequired
  | clusterStandaloneFlagsForbidden
  | clusterPrimaryFlagsForbidden
  | clusterReplicaFlagsForbidden
  | clusterTLSIncomplete
  | clusterUnknownMode (name : Bytes)
  | compactionThresholdTooLow (got : ℕ)
  | compactionIntervalTooLow (got : ℤ)
  deriving DecidableEq, Repr

def Config.validateHTTP (c : Config) : Except ConfigError Unit :=
  if c.http.addr = [] then .ok ()
  else if c.http.apiToken = [] then .error .apiTokenRequired
  else if c.http.apiToken.length < minAPITokenLength then .error (.apiTokenTooShort c.http.apiToken.length)
  else if c.http.apiToken.any fun b => b ∈ ascii " \t\r\n" then .error .apiTokenInvalid
  else if c.http.cors ∧ trimSpace c.http.corsOrigin = [] then .error .emptyCORSOrigin
  else .ok ()

def Config.validateCluster (c : Config) : Except ConfigError Unit :=
  let cl := c.cluster
  match cl.mode with
  | .standalone | .unspecified =>
    if cl.token ≠ [] ∨ cl.primaryURL ≠ [] ∨ cl.tlsCert ≠ [] ∨ cl.tlsKey ≠ [] ∨ cl.caCert ≠ [] then
      .error .clusterStandaloneFlagsForbidden
    else .ok ()
  | .primary =>
    if cl.token = [] then .error .clusterTokenRequired
    else if cl.primaryURL ≠ [] ∨ cl.caCert ≠ [] then .error .clusterPrimaryFlagsForbidden
    else if (cl.tlsCert ≠ [] ∧ cl.tlsKey = []) ∨ (cl.tlsCert = [] ∧ cl.tlsKey ≠ []) then .error .clusterTLSIncomplete
    else .ok ()
  | .replica =>
    if cl.primaryURL = [] then .error .clusterPrimaryURLRequired
    else if cl.token = [] then .error .clusterTokenRequired
    else if c.storage.zoneFile ≠ [] then .error .replicaZoneFileForbidden
    else if cl.tlsCert ≠ [] ∨ cl.tlsKey ≠ [] then .error .clusterReplicaFlagsForbidden
    else .ok ()
  | .unknown name => .error (.clusterUnknownMode name)

def Config.validateStorage (c : Config) : Except ConfigError Unit :=
  if c.storage.compactionThreshold > 0 ∧ c.storage.compactionThreshold < minCompactionThreshold then
    .error (.compactionThresholdTooLow c.storage.compactionThreshold)
  else if c.storage.compactionInterval > 0 ∧ c.storage.compactionInterval < minCompactionInterval then
    .error (.compactionIntervalTooLow c.storage.compactionInterval)
  else .ok ()

def Config.validate (c : Config) : Except ConfigError Unit := do
  if c.tls.isConfigured ∧ ¬c.tls.isComplete then throw .incompleteTLS
  if c.doTAddr ≠ [] ∧ ¬c.tls.isComplete then throw (.doTRequiresTLS c.doTAddr)
  c.validateHTTP
  c.validateCluster
  c.validateStorage

def secretBytes (secret : Bytes) : Bytes := (Base64.decodeString secret).getD secret

def Config.keyRing (u : Unicode) (c : Config) : Option KeyRing :=
  if c.tsigKeys = [] then none
  else some (c.tsigKeys.foldl (fun kr k => kr.add u { k with secret := secretBytes k.secret }) .new)

theorem Config.keyRing_eq_none (u : Unicode) (c : Config) : c.keyRing u = none ↔ c.tsigKeys = [] := by
  unfold Config.keyRing
  split_ifs with h <;> simp [h]

abbrev Signer := Bytes → RRType → Result → ℤ → Response

def Config.dnssecManager {δ : Type} (c : Config) (made : Except δ Signer) : Except δ (Option Signer) :=
  if c.dnssecEnabled then made.map some else .ok none

structure Backend (σ ε : Type) where
  resolve : σ → Bytes → RRType → σ × Result
  get : Getter σ
  store : UpsertDeleter σ ε

structure ChaosTexts where
  version : List Bytes
  identity : List Bytes
  authors : List Bytes

def buildDNSServer {σ ε δ : Type} (u : Unicode) (c : Config) (b : Backend σ ε) (made : Except δ Signer)
    (texts : ChaosTexts) : Except δ (Server σ ε) :=
  (c.dnssecManager made).map fun mgr =>
    ⟨b.resolve, some b.get, some b.store, c.keyRing u, mgr, texts.version, texts.identity, texts.authors⟩

structure Built {σ ε : Type} (u : Unicode) (c : Config) (srv : Server σ ε) : Prop where
  writable : TakesUpdates srv
  tsigKeys : srv.tsigKeys = c.keyRing u

theorem buildDNSServer_built {σ ε δ : Type} {u : Unicode} {c : Config} {b : Backend σ ε} {made : Except δ Signer}
    {texts : ChaosTexts} {srv : Server σ ε} (h : buildDNSServer u c b made texts = .ok srv) : Built u c srv := by
  unfold buildDNSServer at h
  cases hmgr : c.dnssecManager made with
  | error e =>
    rw [hmgr] at h
    cases h
  | ok mgr =>
    rw [hmgr] at h
    cases h
    exact ⟨⟨Option.some_ne_none _, Option.some_ne_none _⟩, rfl⟩

structure ReplicaConfig where
  config : Config
  accepted : config.validate = .ok ()
  replica : config.cluster.mode = .replica

theorem replica_readOnly_iff {σ ε δ : Type} (rt : Runtime) (r : ReplicaConfig) (b : Backend σ ε)
    (made : Except δ Signer) (texts : ChaosTexts) (srv : Server σ ε)
    (hbuild : buildDNSServer rt.unicode r.config b made texts = .ok srv) (events : List (Event σ)) (s : σ) :
    (∀ x ∈ serve rt srv events s, ReadOnly rt x.1.packet x.2) ↔
      ∀ a, .arrive a ∈ events → wellFormedUpdate rt.unicode a.packet = true →
        r.config.tsigKeys = [] ∧ carriesTSIG rt.unicode a.packet = false := by
  obtain ⟨hwritable, hkeys⟩ := buildDNSServer_built hbuild
  rw [serve_readOnly_iff hwritable]
  simp only [Keyless, hkeys, Config.keyRing_eq_none]

def sessionBackend : Backend (Session Writer) StoreError where
  resolve s domain qType := (s, s.tree.resolve domain qType)
  get s domain := s.tree.get domain
  store := {
    upsert := fun s domain records =>
      let r := commitBatch s [.upsert domain records]
      (r.1, r.2.head?.join)
    deleteDomain := fun s domain =>
      let r := commitBatch s [.delete domain]
      (r.1, r.2.head?.join) }

def checksumRuntime : Runtime := ⟨.basic, fun _ secret message => [(secret ++ message).foldl (· + ·) 0]⟩

def sampleReplica (keys : List Key) : ReplicaConfig where
  config := {
    doTAddr := []
    tls := ⟨[], []⟩
    http := ⟨[], [], [], false⟩
    cluster := ⟨.replica, ascii "http://primary:8081", ascii "token", [], [], []⟩
    storage := ⟨[], 0, 0⟩
    tsigKeys := keys
    dnssecEnabled := false }
  accepted := rfl
  replica := rfl

def sampleKey : Key := ⟨ascii "k", ascii "hmac-sha256", ascii "a2V5"⟩

def sampleUpdate (arCount : UInt8) : Bytes :=
  [0x12, 0x34, 0x28, 0, 0, 1, 0, 0, 0, 1, 0, arCount, 1, 0x7A, 0, 0, 6, 0, 1,
    1, 0x7A, 0, 0, 1, 0, 1, 0, 0, 0, 60, 0, 4, 10, 0, 0, 1]

def sampleSignature : Bytes :=
  [1, 0x6B, 0, 0, 250, 0, 255, 0, 0, 0, 0, 0, 30, 11] ++ ascii "hmac-sha256" ++
    [0, 0, 0, 0, 0, 3, 0xE8, 1, 0x2C, 0, 1, 48, 0x12, 0x34, 0, 0, 0, 0]

def sampleArrival (packet : Bytes) : Event (Session Writer) := .arrive ⟨packet, .udp, 1000, 1000, .insertion⟩

def sampleSOA : RRSet := ⟨[List.replicate 22 0], 300, typeSOA, classIN⟩

def sampleSession : Session Writer := ⟨Radix.Tree.new.upsert [0x7A] [sampleSOA], BufWriter.new ⟨[], []⟩⟩

def sampleBuild (keys : List Key) : Except Unit (Server (Session Writer) StoreError) :=
  buildDNSServer .basic (sampleReplica keys).config sessionBackend (.error ()) ⟨[], [], []⟩

theorem replica_readOnly_iff_keyless : wellFormedUpdate .basic (sampleUpdate 0) = true ∧
    ∃ srv, sampleBuild [] = .ok srv ∧
      ∀ x ∈ serve checksumRuntime srv [sampleArrival (sampleUpdate 0)] sampleSession,
        ReadOnly checksumRuntime x.1.packet x.2 := by
  refine ⟨by decide +kernel, _, rfl, ?_⟩
  apply (replica_readOnly_iff checksumRuntime (sampleReplica []) sessionBackend (.error ()) ⟨[], [], []⟩ _ rfl _ _).mpr
  intro a ha _
  cases List.mem_singleton.mp ha
  exact ⟨rfl, by decide +kernel⟩

theorem replica_applies_signed_update :
    wellFormedUpdate .basic (sampleUpdate 0) = true ∧
    wellFormedUpdate .basic (sampleUpdate 1 ++ sampleSignature) = true ∧
    ∃ srv, sampleBuild [sampleKey] = .ok srv ∧
      (serve checksumRuntime srv
        [sampleArrival (sampleUpdate 0), sampleArrival (sampleUpdate 1 ++ sampleSignature)] sampleSession).map
          (fun x => (x.2.calls, x.2.rcode, x.2.answer.isOk)) =
        [([], .notAuth, true),
          ([.upsert [0x7A, 0x2E] [sampleSOA, ⟨[[10, 0, 0, 1]], 60, 1, classIN⟩]], .success, true)] :=
  ⟨by decide +kernel, by decide +kernel, _, rfl, by decide +kernel⟩

end Kdns.Daemon
