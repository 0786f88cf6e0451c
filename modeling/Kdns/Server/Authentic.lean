import Kdns.Lib.Fallible
import Kdns.Server.Refusal

namespace Kdns.Tsig

open ByteStream Dns Wire GoStrings

structure EndsWithTSIG (u : Unicode) (p : Bytes) (r : Record) (payload : Bytes) : Prop where
  additional : (decodeHeader p).arCount ≠ 0
  record : ∃ start keyName offset,
    skipMessageSections p (decodeHeader p).qdCount.toNat (decodeHeader p).anCount.toNat
        (decodeHeader p).nsCount.toNat (decodeHeader p).arCount.toNat = .ok start ∧
      unpackDomainName p start = .ok (keyName, offset) ∧
      uint16At p offset = typeTSIG ∧ uint16At p (offset + 2) = classANY ∧ uint32At p (offset + 4) = 0 ∧
      unpackTSIGRecord u p (offset + 10) (offset + 10 + (uint16At p (offset + 8)).toNat) keyName = .ok r ∧
      payload = putUint16 (p.take start) 10 ((decodeHeader p).arCount - 1)

theorem liftWire_ok {α : Type} {x : Except WireError α} {a : α} (h : liftWire x = .ok a) : x = .ok a := by
  cases x with
  | error e => cases h
  | ok b => exact congrArg Except.ok (Except.ok.inj h)

theorem extract_ok {u : Unicode} {p payload : Bytes} {r : Record} (h : extract u p = .ok (some r, payload)) :
    EndsWithTSIG u p r payload := by
  unfold extract at h
  obtain ⟨hlen, h⟩ := Fallible.of_ite h nofun
  by_cases har : (decodeHeader p).arCount = 0
  · simp only [if_pos har] at h
    cases h
  simp only [if_neg har] at h
  refine ⟨har, ?_⟩
  obtain ⟨start, hstart, h⟩ := Fallible.bind_ok h
  obtain ⟨⟨keyName, offset⟩, hname, h⟩ := Fallible.bind_ok h
  split_ifs at h with hshort hkind hend
  · cases h
  · cases h
  · cases h
  · obtain ⟨r', hr, h⟩ := Fallible.bind_ok h
    simp only [not_or, not_not] at hkind
    cases h
    exact ⟨start, keyName, offset, hstart, liftWire_ok hname, hkind.1, hkind.2.1, hkind.2.2, hr, rfl⟩

def Near (now : ℤ) (timeSigned window : ℕ) : Prop := (max now 0 - timeSigned).natAbs ≤ window

theorem clockSkew_eq (now : ℤ) (timeSigned : ℕ) : clockSkew now timeSigned = (max now 0 - timeSigned).natAbs := by
  unfold clockSkew
  split_ifs <;> omega

structure Verified (u : Unicode) (hmac : HMAC) (payload : Bytes) (r : Record) (key : Key) (now : ℤ) : Prop where
  name : canonicalName u key.name = r.name
  algorithm : canonicalAlgorithm u key.algorithm = r.algorithm
  time : Near now r.timeSigned (if r.fudge = 0 then defaultFudge else r.fudge.toNat)
  mac : ∃ hasher, newHasher u hmac r.algorithm key.secret = some hasher ∧
    r.mac = hasher (restoreID payload r.originalID ++
      tsigVariables u r.name r.algorithm r.timeSigned r.fudge r.error r.otherData)

theorem verify_ok {u : Unicode} {hmac : HMAC} {payload : Bytes} {r : Record} {key : Key} {now : ℤ}
    (h : verify u hmac payload r key now = .ok ()) : Verified u hmac payload r key now := by
  unfold verify at h
  by_cases hname : canonicalName u key.name = r.name
  swap
  · rw [if_pos hname] at h
    cases h
  by_cases halgo : canonicalAlgorithm u key.algorithm = r.algorithm
  swap
  · rw [if_neg (not_not.mpr hname), if_pos halgo] at h
    cases h
  by_cases htime : clockSkew now r.timeSigned > (if r.fudge = 0 then defaultFudge else r.fudge.toNat)
  · grind
  rw [if_neg (not_not.mpr hname), if_neg (not_not.mpr halgo), if_neg htime] at h
  rw [clockSkew_eq] at htime
  refine ⟨hname, halgo, Nat.le_of_not_lt htime, ?_⟩
  cases hh : newHasher u hmac r.algorithm key.secret with
  | none =>
    rw [hh] at h
    cases h
  | some hasher => grind

end Kdns.Tsig

namespace Kdns.DnsServer

open ByteStream Dns Wire GoStrings Tsig Update

variable {σ ε : Type} {rt : Runtime} {srv : Server σ ε} {m : Moment}

theorem authenticateTSIG_verified {packet : Bytes} {auth : TsigAuth} (h : authenticateTSIG rt srv m packet = .ok auth)
    (hpresent : auth.present = true) (herr : auth.errCode = 0) :
    ∃ r keys key, extract rt.unicode packet = .ok (some r, auth.payload) ∧ srv.tsigKeys = some keys ∧
      keys.key rt.unicode r.name = some key ∧ Verified rt.unicode rt.hmac auth.payload r key m.now := by
  unfold authenticateTSIG at h
  split at h
  · cases h
  · cases h
    cases hpresent
  · rename_i r payload hextract
    split at h
    · cases h
      exact absurd herr VerifyError.badKey.code_ne_zero
    · rename_i key hkey
      obtain ⟨keys, hkeys, hkey⟩ := Option.bind_eq_some_iff.mp hkey
      split at h
      · rename_i e _
        cases h
        exact absurd herr e.code_ne_zero
      · rename_i hverify
        cases h
        exact ⟨r, keys, key, hextract, hkeys, hkey, verify_ok hverify⟩

theorem handleUpdate_process {s : σ} {payload : Bytes} {present : Bool} {errCode : UInt16}
    (h : (handleUpdate rt srv m s payload present errCode).2.1 ≠ []) :
    present = true ∧ errCode = 0 ∧ ∃ getter ud, srv.getter = some getter ∧ srv.upsertDeleter = some ud ∧
      (handleUpdate rt srv m s payload present errCode).2.1 =
        (process rt.unicode m.mapOrder getter ud s payload).calls := by
  unfold handleUpdate at h ⊢
  split at h
  · rename_i getter ud keys hgetter hud hkeys
    split_ifs at h with hbad
    · exact absurd rfl h
    · grind
  · exact absurd rfl h

theorem dispatch_process {s : σ} {msg : Message} {q : Question} {auth : TsigAuth}
    (h : (dispatch rt srv m s msg q auth).2.1 ≠ []) :
    msg.header.opcode = opcodeUpdate ∧ auth.present = true ∧ auth.errCode = 0 ∧
      ∃ getter ud, srv.getter = some getter ∧ srv.upsertDeleter = some ud ∧
        (dispatch rt srv m s msg q auth).2.1 = (process rt.unicode m.mapOrder getter ud s auth.payload).calls := by
  have hupdate := (dispatch_calls h).1
  have hgood : ¬(auth.present ∧ auth.errCode ≠ 0) := by
    intro hbad
    rw [dispatch, if_pos hbad] at h
    exact h rfl
  rw [dispatch_update hupdate hgood] at h ⊢
  exact ⟨hupdate, handleUpdate_process h⟩

structure Authentic (rt : Runtime) (srv : Server σ ε) (m : Moment) (s : σ) (packet : Bytes) (calls : List StoreCall)
    (r : Record) (payload : Bytes) : Prop where
  signed : EndsWithTSIG rt.unicode packet r payload
  checked : ∃ keys key, srv.tsigKeys = some keys ∧ keys.key rt.unicode r.name = some key ∧
    Verified rt.unicode rt.hmac payload r key m.now
  executed : ∃ getter ud, srv.getter = some getter ∧ srv.upsertDeleter = some ud ∧
    calls = (process rt.unicode m.mapOrder getter ud s payload).calls
  update : (decodeHeader payload).opcode = opcodeUpdate
  request : (decodeHeader payload).isResponse = false

theorem resolve_authentic (rt : Runtime) (srv : Server σ ε) (m : Moment) (s : σ) (packet : Bytes) (t : Transport)
    (h : (resolve rt srv m s packet t).calls ≠ []) :
    ∃ r payload, Authentic rt srv m s packet (resolve rt srv m s packet t).calls r payload := by
  obtain ⟨auth, msg, q, hauth, hunpack, hrequest, hcalls⟩ := resolve_dispatched h
  rw [hcalls] at h ⊢
  obtain ⟨hupdate, hpresent, herr, hexecuted⟩ := dispatch_process h
  obtain ⟨r, keys, key, hextract, hkeys, hkey, hverified⟩ := authenticateTSIG_verified hauth hpresent herr
  obtain ⟨-, hheader, -⟩ := unpack_ok hunpack
  rw [hheader] at hupdate hrequest
  exact ⟨r, auth.payload, extract_ok hextract, ⟨keys, key, hkeys, hkey, hverified⟩, hexecuted, hupdate, hrequest⟩

def signedUpdate (timeSigned fudge : ℕ) (mac : Bytes := []) : Bytes :=
  [0x12, 0x34, 0x28, 0, 0, 1, 0, 0, 0, 1, 0, 1, 1, 0x7A, 0, 0, 6, 0, 1,
    1, 0x7A, 0, 0, 1, 0, 1, 0, 0, 0, 60, 0, 4, 10, 0, 0, 1,
    1, 0x6B, 0, 0, 250, 0, 255, 0, 0, 0, 0] ++ bigEndian 2 (29 + mac.length) ++ [11] ++
    ascii "hmac-sha256" ++ [0] ++ bigEndian 6 timeSigned ++ bigEndian 2 fudge ++ bigEndian 2 mac.length ++ mac ++
    [0x12, 0x34, 0, 0, 0, 0]

def emptyCodes : Runtime := ⟨.basic, fun _ _ _ => []⟩

def keyedServer : Server Unit Unit where
  res _ _ _ := ((), { rcode := .nameError })
  getter := some fun _ _ => some []
  upsertDeleter := some ⟨fun _ _ _ => ((), none), fun _ _ => ((), none)⟩
  tsigKeys := some ⟨[⟨ascii "k.", hmacSHA256, [7]⟩]⟩
  dnssecMgr := none
  versionWire := []
  identityWire := []
  authorsWire := []

def clockAt (now : ℤ) : Moment := ⟨now, now, .insertion⟩

/-- A keyed hash for examples: the sum of the key and the sum of the data. -/
def sumCodes : Runtime := ⟨.basic, fun _ key data => [key.foldl (· + ·) 0, data.foldl (· + ·) 0]⟩

theorem resolve_authentic_summed :
    let accepted := signedUpdate 1000 300 [7, 231]
    (∃ r payload, Authentic sumCodes keyedServer (clockAt 1000) () accepted
      (resolve sumCodes keyedServer (clockAt 1000) () accepted .udp).calls r payload) ∧
    ∀ mac ∈ [[], [7, 232], [8, 231]], (resolve sumCodes keyedServer (clockAt 1000) () (signedUpdate 1000 300 mac) .udp).calls = [] :=
  ⟨resolve_authentic sumCodes keyedServer (clockAt 1000) () _ .udp (by decide +kernel), by decide +kernel⟩

def WithinFudge (now : ℤ) (r : Record) : Prop := (now - r.timeSigned).natAbs ≤ r.fudge.toNat

instance withinFudgeDecidable (now : ℤ) (r : Record) : Decidable (WithinFudge now r) :=
  inferInstanceAs (Decidable (_ ≤ _))

def Outside (now : ℤ) (packet : Bytes) : Prop :=
  (resolve emptyCodes keyedServer (clockAt now) () packet .udp).calls ≠ [] ∧
    ∃ r payload, extract .basic packet = .ok (some r, payload) ∧ ¬ WithinFudge now r

theorem outside_of_extract {now : ℤ} {packet payload : Bytes} {r : Record}
    (hcalls : (resolve emptyCodes keyedServer (clockAt now) () packet .udp).calls ≠ [])
    (hextract : extract .basic packet = .ok (some r, payload)) (hr : ¬ WithinFudge now r) : Outside now packet :=
  ⟨hcalls, r, payload, hextract, hr⟩

/-- A fudge of 0 means 300 seconds, and a clock before the epoch counts as 0. -/
theorem resolve_accepts_outside_fudge : Outside 1100 (signedUpdate 1000 0) ∧ Outside (-1000000) (signedUpdate 0 300) :=
  ⟨outside_of_extract (by decide +kernel) (by rfl) (by decide +kernel), outside_of_extract (by decide +kernel) (by rfl) (by decide +kernel)⟩

end Kdns.DnsServer
