import Kdns.Dnssec.Nsec
import Kdns.Server.Update

namespace Kdns.Dnssec

open ByteStream Dns Wire GoStrings

def ecdsaP256 : UInt8 := 13
def ed25519 : UInt8 := 15

abbrev Signature := { sig : Bytes // sig.length = 64 }

/-- What a private key makes of the bytes to be signed; the randomness of ECDSA is left to the function. -/
inductive PrivateKey where
  | ecdsa (sign : Bytes → Option Signature)
  | ed25519 (sign : Bytes → Signature)
  | other

/-- A key of a zone; its DNSKEY data is four bytes and a public key of 64 bytes at most. -/
structure Key where
  zone : Bytes
  privateKey : PrivateKey
  dnskeyWire : Bytes
  keyTag : UInt16
  algorithm : UInt8
  wire_length : dnskeyWire.length ≤ 68

def Key.sign (k : Key) (data : Bytes) : Option Signature :=
  if k.algorithm = ecdsaP256 then
    match k.privateKey with
    | .ecdsa sign => sign data
    | _ => none
  else if k.algorithm = ed25519 then
    match k.privateKey with
    | .ed25519 sign => some (sign data)
    | _ => none
  else none

def canonicalZone (u : Unicode) (name : Bytes) : Bytes := Update.canonicalName u name

def countLabels (u : Unicode) (name : Bytes) : ℕ :=
  let canonical := trimSuffix (canonicalZone u name) [dotByte]
  if canonical = [] then 0 else (canonical.splitOn dotByte).length

def buildSignBuffer (u : Unicode) (hdr owner : Bytes) (record : RRSet) : Bytes :=
  hdr ++ (record.rdata.insertionSort (· ≤ ·)).flatMap fun rdata =>
    encodeDomainName u owner ++ bigEndian 2 record.type.toNat ++ bigEndian 2 record.rrClass.toNat ++
      bigEndian 4 record.ttl.toNat ++ bigEndian 2 (min rdata.length 65535) ++ rdata

def sign (u : Unicode) (owner : Bytes) (record : RRSet) (k : Key) (inception expiration : ℤ) : Option RRSet :=
  if record.rdata = [] then none
  else
    let owner := canonicalZone u owner
    let hdr := bigEndian 2 record.type.toNat ++ [k.algorithm, UInt8.ofNat (min (countLabels u owner) 255)] ++
      bigEndian 4 record.ttl.toNat ++ bigEndian 4 (max 0 expiration).toNat ++ bigEndian 4 (max 0 inception).toNat ++
      bigEndian 2 k.keyTag.toNat ++ encodeDomainName u (canonicalZone u k.zone)
    (k.sign (buildSignBuffer u hdr owner record)).map fun sig => ⟨[hdr ++ sig.val], record.ttl, typeRRSIG, classIN⟩

theorem sign_type {u : Unicode} {owner : Bytes} {record rrsig : RRSet} {k : Key} {inception expiration : ℤ}
    (h : sign u owner record k inception expiration = some rrsig) : rrsig.type = typeRRSIG := by
  unfold sign at h
  split_ifs at h
  obtain ⟨sig, -, rfl⟩ := Option.map_eq_some_iff.mp h
  rfl

def defaultValidityPast : ℤ := 3600
def defaultValidityFuture : ℤ := 86400
def defaultNSECTTL : UInt32 := 300
def defaultDNSKEYTTL : UInt32 := 3600

def deny (u : Unicode) (canonicalQName : Bytes) (key : Key) (types : List RRType) (res : Result) (now : ℤ) : Response :=
  let nsecRecord := nsec u canonicalQName (canonicalZone u key.zone) types defaultNSECTTL
  match sign u canonicalQName nsecRecord key (now - defaultValidityPast) (now + defaultValidityFuture) with
  | some sig => { res with authority := nsecRecord, authorityRRSIG := sig, authorityName := canonicalQName }
  | none => .ofResult res

def signWith (u : Unicode) (canonicalQName : Bytes) (key : Key) (res : Result) (now : ℤ) : Response :=
  if res.rcode = .success ∧ res.hasAnswer then
    if res.answer.type ≠ typeRRSIG then
      match sign u canonicalQName res.answer key (now - defaultValidityPast) (now + defaultValidityFuture) with
      | some rrSig => { res with answerRRSIG := rrSig }
      | none => .ofResult res
    else .ofResult res
  else
    match res.rcode with
    | .nameError => deny u canonicalQName key [] res now
    | .success => deny u canonicalQName key [typeSOA, typeNS] res now
    | _ => .ofResult res

/-- The keys of each zone; `Add` files a key under the zone it is for. -/
structure Manager (u : Unicode) where
  keysOf : Bytes → List Key
  zone_eq : ∀ zone, ∀ k ∈ keysOf zone, canonicalZone u k.zone = zone

namespace Manager

variable {u : Unicode}

def new (u : Unicode) : Manager u := ⟨fun _ => [], by simp⟩

def add (m : Manager u) (k : Key) : Manager u where
  keysOf := Function.update m.keysOf (canonicalZone u k.zone) (m.keysOf (canonicalZone u k.zone) ++ [k])
  zone_eq zone k' hk' := by
    rw [Function.update_apply] at hk'
    split_ifs at hk' with hzone
    · subst hzone
      rcases List.mem_append.mp hk' with hk' | hk'
      · exact m.zone_eq _ k' hk'
      · rw [List.mem_singleton.mp hk']
    · exact m.zone_eq zone k' hk'

variable (m : Manager u)

def keys (zone : Bytes) : List Key := m.keysOf (canonicalZone u zone)

def dnskey (zone : Bytes) (ttl : UInt32) : Option RRSet :=
  let keys := m.keys zone
  if keys = [] then none else some ⟨keys.map Key.dnskeyWire, ttl, typeDNSKEY, classIN⟩

def findFrom : Bool → Bytes → List Key
  | true, [] => if m.keys [] ≠ [] then m.keys [] else m.keys [dotByte]
  | true, b :: rest =>
    if m.keys (b :: rest) ≠ [] then m.keys (b :: rest)
    else if b :: rest = [dotByte] then []
    else findFrom (b = dotByte) rest
  | false, [] => m.keys [dotByte]
  | false, b :: rest => findFrom (b = dotByte) rest

def findMatchingKeys (domain : Bytes) : List Key := m.findFrom true (canonicalZone u domain)

theorem findFrom_keys (b : Bool) (s : Bytes) : ∀ k ∈ m.findFrom b s, ∃ zone, zone.length ≤ s.length + 1 ∧ k ∈ m.keys zone := by
  induction s generalizing b with
  | nil =>
    cases b with
    | false => exact fun k hk => ⟨[dotByte], le_rfl, hk⟩
    | true =>
      rw [findFrom]
      split_ifs
      · exact fun k hk => ⟨[], Nat.zero_le _, hk⟩
      · exact fun k hk => ⟨[dotByte], le_rfl, hk⟩
  | cons c s ih =>
    have hrest : ∀ b, ∀ k ∈ m.findFrom b s, ∃ zone, zone.length ≤ (c :: s).length + 1 ∧ k ∈ m.keys zone := by
      intro b k hk
      obtain ⟨zone, hlen, hmem⟩ := ih b k hk
      exact ⟨zone, hlen.trans (Nat.le_succ _), hmem⟩
    cases b with
    | false => exact hrest _
    | true =>
      rw [findFrom]
      split_ifs
      · exact fun k hk => ⟨c :: s, Nat.le_succ _, hk⟩
      · simp
      · exact hrest _

def synthesizeDNSKEY (canonicalQName : Bytes) (res : Result) (now : ℤ) : Option Response :=
  (m.dnskey canonicalQName defaultDNSKEYTTL).map fun dnsKeySet =>
    let out : Response := { res with rcode := .success, answer := dnsKeySet }
    match m.keys canonicalQName with
    | [] => out
    | k :: _ =>
      match sign u canonicalQName dnsKeySet k (now - defaultValidityPast) (now + defaultValidityFuture) with
      | some rrsig => { out with answerRRSIG := rrsig }
      | none => out

def signResult (qName : Bytes) (qType : RRType) (res : Result) (now : ℤ) : Response :=
  let canonicalQName := canonicalZone u qName
  match if qType = typeDNSKEY ∧ (!res.hasAnswer ∨ res.answer.type ≠ typeDNSKEY) then
      m.synthesizeDNSKEY canonicalQName res now else none with
  | some out => out
  | none =>
    match m.findMatchingKeys canonicalQName with
    | [] => .ofResult res
    | key :: _ => signWith u canonicalQName key res now

section Outcomes

variable (qName : Bytes) (qType : RRType) (res : Result) (now : ℤ)

def denialTypes : RCode → List RRType
  | .nameError => []
  | _ => [typeSOA, typeNS]

def denialKey (rcode : RCode) : Option Key :=
  (m.findMatchingKeys (canonicalZone u qName)).head?.filter fun key =>
    (sign u (canonicalZone u qName) (nsec u (canonicalZone u qName) (canonicalZone u key.zone) (denialTypes rcode)
      defaultNSECTTL) key (now - defaultValidityPast) (now + defaultValidityFuture)).isSome

def synthesizes : Bool :=
  qType = typeDNSKEY ∧ (!res.hasAnswer ∨ res.answer.type ≠ typeDNSKEY) ∧ m.keys (canonicalZone u qName) ≠ []

variable {qName qType res}

variable (h : m.synthesizes qName qType res = false)
include h

theorem signResult_eq : m.signResult qName qType res now =
      match m.findMatchingKeys (canonicalZone u qName) with
      | [] => .ofResult res
      | key :: _ => signWith u (canonicalZone u qName) key res now := by
  have hnone : (if qType = typeDNSKEY ∧ (!res.hasAnswer ∨ res.answer.type ≠ typeDNSKEY) then
      m.synthesizeDNSKEY (canonicalZone u qName) res now else none) = none := by
    split_ifs with hq
    · have hkeys : m.keys (canonicalZone u qName) = [] := by
        by_contra hne
        rw [synthesizes, decide_eq_true ⟨hq.1, hq.2, hne⟩] at h
        cases h
      rw [synthesizeDNSKEY, dnskey, if_pos hkeys]
      rfl
    · rfl
  rw [signResult, hnone]

theorem signResult_positive (hrcode : res.rcode = .success) (hans : res.hasAnswer = true) :
    ∃ rrsig : RRSet, (rrsig = .empty ∨ rrsig.type = typeRRSIG) ∧
      m.signResult qName qType res now = { Response.ofResult res with answerRRSIG := rrsig } := by
  rw [m.signResult_eq now h]
  split
  · exact ⟨.empty, .inl rfl, rfl⟩
  · rw [signWith, if_pos ⟨hrcode, hans⟩]
    split_ifs
    · split
      · rename_i rrsig hsign
        exact ⟨rrsig, .inr (sign_type hsign), rfl⟩
      · exact ⟨.empty, .inl rfl, rfl⟩
    · exact ⟨.empty, .inl rfl, rfl⟩

theorem signResult_negative (hans : res.hasAnswer = false) (hrcode : res.rcode = .success ∨ res.rcode = .nameError) :
    match m.denialKey qName now res.rcode with
    | none => m.signResult qName qType res now = .ofResult res
    | some key => ∃ sig : RRSet, sig.type = typeRRSIG ∧ m.signResult qName qType res now =
        { res with
          authority := nsec u (canonicalZone u qName) (canonicalZone u key.zone) (denialTypes res.rcode) defaultNSECTTL
          authorityRRSIG := sig
          authorityName := canonicalZone u qName } := by
  rw [m.signResult_eq now h, denialKey]
  cases m.findMatchingKeys (canonicalZone u qName) with
  | nil => rfl
  | cons key keys =>
    have hdeny : signWith u (canonicalZone u qName) key res now =
        deny u (canonicalZone u qName) key (denialTypes res.rcode) res now := by
      rw [signWith, if_neg (by simp [hans])]
      rcases hrcode with hrcode | hrcode <;> rw [hrcode] <;> rfl
    dsimp only
    rw [hdeny, List.head?_cons, Option.filter_some, deny]
    cases hsign : sign u (canonicalZone u qName) (nsec u (canonicalZone u qName) (canonicalZone u key.zone)
      (denialTypes res.rcode) defaultNSECTTL) key (now - defaultValidityPast) (now + defaultValidityFuture) with
    | none => rfl
    | some sig => exact ⟨sig, sign_type hsign, rfl⟩

end Outcomes

end Manager

def zoneKey : Key := ⟨[97, 46], .ed25519 fun _ => ⟨List.replicate 64 7, List.length_replicate⟩, [], 0, ed25519, by decide⟩

def zoneKeys : Manager .basic := (Manager.new .basic).add zoneKey

end Kdns.Dnssec
