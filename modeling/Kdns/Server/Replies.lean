import Kdns.Server.Authentic
import Kdns.Update.Zones

namespace Kdns.Update

open ByteStream Dns Wire GoStrings

section Errors

variable {σ ε : Type} (u : Unicode) (mo : MapOrder) (getter : Getter σ) (ud : UpsertDeleter σ ε) (s : σ) (p : Bytes)

def Succeeding : List StoreCall → σ → Prop
  | [], _ => True
  | call :: calls, s => (ud.call s call).2 = none ∧ Succeeding calls (ud.call s call).1

def Parsable : Prop :=
  ∃ zone offset, parseZoneSection u p (uint16At p 4) = .ok (zone, offset) ∧
    ((getter s zone = none ∧ zone ≠ [dotByte]) ∨ (sections u p).isSome = true)

def Undisturbed : Prop :=
  ∀ zone prereqs updates, admitted u getter s p = some (zone, prereqs, updates) →
    Succeeding ud (updateCalls mo getter s updates) s

variable {u getter s p}

theorem callAll_none_iff (calls : List StoreCall) (s : σ) : (callAll ud calls s).2.2 = none ↔ Succeeding ud calls s := by
  induction calls generalizing s with
  | nil => exact iff_of_true rfl trivial
  | cons call calls ih =>
    rw [callAll, Succeeding]
    obtain ⟨s', _ | e⟩ := ud.call s call
    · refine (ih s').trans ⟨fun h => ⟨rfl, h⟩, fun h => h.2⟩
    · simp

theorem ofCalls_err (r : σ × List StoreCall × Option ε) : (Processed.ofCalls r).err = none ↔ r.2.2 = none := by
  obtain ⟨s', calls, _ | e⟩ := r
  · exact iff_of_true rfl rfl
  · exact iff_of_false (Option.some_ne_none _) (Option.some_ne_none _)

theorem process_err_rejected (hlen : headerSize ≤ p.length) (h : admitted u getter s p = none) :
    (process u mo getter ud s p).err = none ↔ Parsable u getter s p := by
  have hlen := Nat.not_lt.mpr hlen
  rw [admitted, if_neg hlen] at h
  rw [process, if_neg hlen]
  unfold Parsable
  unfold sections at h ⊢
  cases hzone : parseZoneSection u p (uint16At p 4) with
  | error e =>
    refine iff_of_false (Option.some_ne_none _) ?_
    rintro ⟨zone, offset, hno, -⟩
    cases hno
  | ok zone =>
    rw [hzone] at h
    dsimp only at h ⊢
    by_cases hknown : getter s zone.1 = none ∧ zone.1 ≠ [dotByte]
    · grind
    rw [if_neg hknown]
    cases hprereqs : parseRecords u p (uint16At p 6).toNat zone.2 with
    | error e =>
      refine iff_of_false (Option.some_ne_none _) ?_
      rintro ⟨z, offset, hz, hz' | hsome⟩
      · cases hz
        exact hknown hz'
      · cases hsome
    | ok prereqs =>
      rw [hprereqs] at h
      dsimp only at h ⊢
      cases hupdates : parseRecords u p (uint16At p 8).toNat prereqs.2 with
      | error e =>
        refine iff_of_false (Option.some_ne_none _) ?_
        rintro ⟨z, offset, hz, hz' | hsome⟩
        · cases hz
          exact hknown hz'
        · cases hsome
      | ok updates =>
        rw [hupdates] at h
        dsimp only at h ⊢
        refine iff_of_true ?_ ⟨zone.1, zone.2, rfl, .inr rfl⟩
        have hchecks := Option.filter_eq_none_iff.mp h _ rfl
        split_ifs with hin hin'
        · rfl
        · rfl
        · split
          · rename_i hsuccess
            refine absurd ?_ hchecks
            have hknown' : (decide (getter s zone.1 = none ∧ zone.1 ≠ [dotByte])) = false := decide_eq_false hknown
            rw [Bool.not_eq_true', Bool.not_eq_false] at hin hin'
            rw [admits, hknown', hin, hin', hsuccess]
            rfl
          · rfl

theorem sections_zone {zone : Bytes} {prereqs updates : List RawRR} (h : sections u p = some (zone, prereqs, updates)) :
    ∃ offset, parseZoneSection u p (uint16At p 4) = .ok (zone, offset) := by
  unfold sections at h
  cases hzone : parseZoneSection u p (uint16At p 4) with
  | error e =>
    rw [hzone] at h
    cases h
  | ok z => grind

theorem process_err_iff (hlen : headerSize ≤ p.length) :
    (process u mo getter ud s p).err = none ↔ Parsable u getter s p ∧ Undisturbed u mo getter ud s p := by
  cases hm : admitted u getter s p with
  | none =>
    rw [process_err_rejected mo ud hlen hm]
    refine (and_iff_left ?_).symm
    intro zone prereqs updates hsome
    rw [hm] at hsome
    cases hsome
  | some m =>
    obtain ⟨zone, prereqs, updates⟩ := m
    have hread : Parsable u getter s p := by
      obtain ⟨hsections, -⟩ := admitted_sections u hm
      obtain ⟨offset, hzone⟩ := sections_zone hsections
      exact ⟨zone, offset, hzone, .inr (Option.isSome_of_eq_some hsections)⟩
    rw [process_admitted mo ud hm, ofCalls_err, callAll_none_iff]
    constructor
    · intro hcalls
      refine ⟨hread, ?_⟩
      intro zone' prereqs' updates' hsome
      rw [hm] at hsome
      cases hsome
      exact hcalls
    · rintro ⟨-, hcalls⟩
      exact hcalls zone prereqs updates hm

end Errors

end Kdns.Update

namespace Kdns.DnsServer

open ByteStream Dns Wire GoStrings Tsig Update

variable {σ ε : Type} {rt : Runtime} {srv : Server σ ε} {m : Moment}

structure Answered (o : Outcome σ ε) (rcode : RCode) : Prop where
  response : ∃ bytes, o.answer = .ok bytes ∧ bytes ≠ [] ∧ (decodeHeader bytes).rcode = UInt16.ofNat rcode.code
  kept : ∀ cause, o.answer = .error (.malformedQuery cause) → o.calls = []

structure SignedUpdate (rt : Runtime) (srv : Server σ ε) (m : Moment) (packet : Bytes) (auth : TsigAuth) (msg : Message)
    (q : Question) (getter : Getter σ) (ud : UpsertDeleter σ ε) : Prop where
  authenticated : authenticateTSIG rt srv m packet = .ok auth
  present : auth.present = true
  valid : auth.errCode = 0
  unpacked : unpack auth.payload = (msg, none)
  single : msg.questions = [q]
  update : msg.header.opcode = opcodeUpdate
  getter : srv.getter = some getter
  upsertDeleter : srv.upsertDeleter = some ud

section Update

variable {packet : Bytes} {auth : TsigAuth} {msg : Message} {q : Question} {getter : Getter σ} {ud : UpsertDeleter σ ε}

theorem SignedUpdate.dispatched (h : SignedUpdate rt srv m packet auth msg q getter ud) (s : σ) :
    dispatch rt srv m s msg q auth =
      ((process rt.unicode m.mapOrder getter ud s auth.payload).store,
        (process rt.unicode m.mapOrder getter ud s auth.payload).calls,
        match (process rt.unicode m.mapOrder getter ud s auth.payload).err with
        | some e => .error e
        | none => .ok (.ofRCode (process rt.unicode m.mapOrder getter ud s auth.payload).rcode)) := by
  obtain ⟨r, keys, key, -, hkeys, -⟩ := authenticateTSIG_verified h.authenticated h.present h.valid
  rw [dispatch_update h.update fun hbad => hbad.2 h.valid, handleUpdate, h.getter, h.upsertDeleter, hkeys]
  dsimp only
  rw [if_neg (by simp [h.present, h.valid])]
  generalize process rt.unicode m.mapOrder getter ud s auth.payload = out
  obtain ⟨store, calls, rcode, _ | e⟩ := out <;> rfl

theorem respond_ofRCode (hm : unpack packet = (msg, none)) (hq : msg.questions = [q]) (auth : TsigAuth) (t : Transport) (c : RCode) :
    ∃ bytes, (respond rt m msg auth t (.ofRCode c) : Except (ServerError ε) Bytes) = .ok bytes := by
  have hnamed := unpack_named packet q (by rw [hm, hq]; exact List.mem_cons_self)
  obtain ⟨bytes, hpacked⟩ := packResponse_ofRCode hq hnamed c (maxUDPSize_le_bufLen t)
    (maxUDPSize_le_maxPayloadSize t msg.edns0Size)
  exact ⟨_, respond_packed hpacked⟩

theorem resolve_answered_iff (h : SignedUpdate rt srv m packet auth msg q getter ud) (s : σ) (t : Transport) :
    Answered (resolve rt srv m s packet t) (process rt.unicode m.mapOrder getter ud s auth.payload).rcode ↔
      msg.header.isResponse = false ∧ Parsable rt.unicode getter s auth.payload ∧
        Undisturbed rt.unicode m.mapOrder getter ud s auth.payload := by
  obtain ⟨hlen, -⟩ := unpack_ok h.unpacked
  rw [← process_err_iff m.mapOrder ud hlen]
  cases hrequest : msg.header.isResponse with
  | true =>
    have hresolve : (resolve rt srv m s packet t).answer = .error .responsePacket := by
      unfold resolve
      simp only [h.authenticated, h.unpacked, hrequest, if_true]
    refine iff_of_false ?_ fun hno => Bool.noConfusion hno.1
    rintro ⟨⟨bytes, hbytes, -⟩, -⟩
    rw [hresolve] at hbytes
    cases hbytes
  | false =>
    have hresolve : resolve rt srv m s packet t = conclude rt m msg q auth t (dispatch rt srv m s msg q auth) := by
      unfold resolve
      simp only [h.authenticated, h.unpacked, hrequest, h.single, Bool.false_eq_true, if_false]
    rw [hresolve, h.dispatched s]
    generalize process rt.unicode m.mapOrder getter ud s auth.payload = out
    obtain ⟨store, calls, rcode, _ | e⟩ := out
    · refine iff_of_true ?_ ⟨rfl, rfl⟩
      obtain ⟨bytes, hbytes⟩ : ∃ bytes, (respond rt m msg auth t (.ofRCode rcode) : Except (ServerError ε) Bytes) = .ok bytes :=
        respond_ofRCode h.unpacked h.single auth t rcode
      have hcode := respond_rcode hbytes
      refine ⟨⟨bytes, hbytes, ?_, hcode.rcode⟩, ?_⟩
      · rintro rfl
        exact absurd hcode.whole (by decide)
      · intro cause hcause
        cases hbytes.symm.trans hcause
    · refine iff_of_false ?_ fun hno => Option.some_ne_none e hno.2
      rintro ⟨⟨bytes, hbytes, -⟩, -⟩
      cases hbytes

end Update

section Runs

def addressPayload (names : List Bytes) : Bytes :=
  [0x12, 0x34, 0x28, 0, 0, 1, 0, 0, 0, UInt8.ofNat names.length, 0, 0, 1, 0x7A, 0, 0, 6, 0, 1] ++
    names.flatMap fun name => name ++ [0, 1, 0, 1, 0, 0, 0, 60, 0, 4, 10, 0, 0, 1]

def addressUpdate (names : List Bytes) : Bytes :=
  putUint16 (addressPayload names) 10 1 ++ [1, 0x6B, 0, 0, 250, 0, 255, 0, 0, 0, 0, 0, 29, 11] ++ ascii "hmac-sha256" ++ [0] ++
    bigEndian 6 1000 ++ bigEndian 2 300 ++ [0, 0, 0x12, 0x34, 0, 0, 0, 0]

def addressAuth (names : List Bytes) : TsigAuth :=
  ⟨some ⟨ascii "k.", hmacSHA256, [], [], 1000, 0x1234, 300, 0⟩, addressPayload names, some ⟨ascii "k.", hmacSHA256, [7]⟩, 0⟩

def addressMessage (names : List Bytes) : Message :=
  ⟨⟨0x1234, 0x2800, 1, 0, UInt16.ofNat names.length, 0⟩, [⟨[0x7A], typeSOA, classIN⟩], 0, false, 0⟩

theorem signedUpdate_apex :
    SignedUpdate emptyCodes keyedServer (clockAt 1000) (addressUpdate [[1, 0x7A, 0]]) (addressAuth [[1, 0x7A, 0]])
      (addressMessage [[1, 0x7A, 0]]) ⟨[0x7A], typeSOA, classIN⟩ (fun _ _ => some [])
      ⟨fun _ _ _ => ((), none), fun _ _ => ((), none)⟩ where
  authenticated := by rfl
  present := rfl
  valid := rfl
  unpacked := by decide +kernel
  single := rfl
  update := by decide
  getter := rfl
  upsertDeleter := rfl

theorem resolve_answered_apex :
    Answered (resolve emptyCodes keyedServer (clockAt 1000) () (addressUpdate [[1, 0x7A, 0]]) .udp) .success := by
  refine (resolve_answered_iff signedUpdate_apex () .udp).mpr ⟨by decide +kernel, ?_, ?_⟩
  · exact ⟨ascii "z.", 19, by rfl, .inr (by decide +kernel)⟩
  · intro zone prereqs updates _
    generalize updateCalls _ _ _ updates = calls
    induction calls with
    | nil => trivial
    | cons call calls ih =>
      refine ⟨?_, ih⟩
      cases call <;> rfl

def brokenServer : Server ℕ Unit where
  res s _ _ := (s, { rcode := .nameError })
  getter := some fun _ _ => some []
  upsertDeleter := some ⟨fun s _ _ => if s = 0 then (1, none) else (s, some ()), fun s _ => (s, some ())⟩
  tsigKeys := some ⟨[⟨ascii "k.", hmacSHA256, [7]⟩]⟩
  dnssecMgr := none
  versionWire := []
  identityWire := []
  authorsWire := []

/-- Of two addresses one is stored, and nothing is sent back. -/
theorem resolve_drops_update :
    ∃ getter ud, SignedUpdate emptyCodes brokenServer (clockAt 1000) (addressUpdate [[1, 0x7A, 0], [1, 0x61, 1, 0x7A, 0]])
        (addressAuth [[1, 0x7A, 0], [1, 0x61, 1, 0x7A, 0]]) (addressMessage [[1, 0x7A, 0], [1, 0x61, 1, 0x7A, 0]])
        ⟨[0x7A], typeSOA, classIN⟩ getter ud ∧
      (process .basic .insertion getter ud 0 (addressPayload [[1, 0x7A, 0], [1, 0x61, 1, 0x7A, 0]])).rcode = .serverFailure ∧
      (resolve emptyCodes brokenServer (clockAt 1000) 0 (addressUpdate [[1, 0x7A, 0], [1, 0x61, 1, 0x7A, 0]]) .udp).answer =
        .error (.malformedQuery (.update (.store ()))) ∧
      (resolve emptyCodes brokenServer (clockAt 1000) 0 (addressUpdate [[1, 0x7A, 0], [1, 0x61, 1, 0x7A, 0]]) .udp).store = 1 := by
  refine ⟨_, _, ⟨?_, rfl, rfl, by decide +kernel, rfl, by decide, rfl, rfl⟩, by decide +kernel, by rfl, by decide +kernel⟩
  rfl

end Runs

end Kdns.DnsServer
