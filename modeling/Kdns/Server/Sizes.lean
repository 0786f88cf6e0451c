import Kdns.Wire.Sections
import Kdns.Server.Authentic

namespace Kdns.Tsig

open ByteStream Wire GoStrings

def totalRRLen (u : Unicode) (key : Key) (tsigErr : UInt16) (mac : Bytes) : ℕ :=
  let other := if tsigErr = VerifyError.badTime.code then 6 else 0
  let rdataLen := (encodeDomainName u (canonicalAlgorithm u key.algorithm)).length + 10 + mac.length + 6 + other
  (encodeDomainName u (canonicalName u key.name)).length + 10 + rdataLen

theorem signatureRecord_length {resp : Bytes} (hresp : 2 ≤ resp.length) (u : Unicode) (key : Key) (mac : Bytes)
    (timeSigned : ℕ) (fudge tsigErr : UInt16) :
    (signatureRecord u resp (canonicalName u key.name) (canonicalAlgorithm u key.algorithm) mac timeSigned fudge tsigErr
      (otherData tsigErr timeSigned)).length = totalRRLen u key tsigErr mac := by
  have hid : (resp.take 2).length = 2 := List.length_take_of_le hresp
  have hother : (otherData tsigErr timeSigned).length = if tsigErr = VerifyError.badTime.code then 6 else 0 := by
    unfold otherData
    split_ifs
    · apply bigEndian_length
    · rfl
  simp only [signatureRecord, totalRRLen, List.length_append, bigEndian_length, hid, hother]

end Kdns.Tsig

namespace Kdns.DnsServer

open ByteStream Dns Wire GoStrings Tsig

variable {σ ε : Type}

def udpLimit (edns0Size : ℕ) : ℕ := if edns0Size > maxUDPSize then min edns0Size maxEDNS0Size else maxUDPSize

theorem maxPayloadSize_udp (edns0Size : ℕ) : maxPayloadSize Transport.udp.size edns0Size = udpLimit edns0Size := by
  unfold maxPayloadSize udpLimit
  simp only [Transport.size, true_and]

theorem maxUDPSize_le_udpLimit (edns0Size : ℕ) : maxUDPSize ≤ udpLimit edns0Size := by
  rw [← maxPayloadSize_udp]
  apply maxUDPSize_le_maxPayloadSize

def advertised (u : Unicode) (packet : Bytes) : ℕ :=
  match extract u packet with
  | .ok (_, payload) => (unpack payload).1.edns0Size
  | .error _ => 0

structure Packed (rt : Runtime) (srv : Server σ ε) (m : Moment) (s : σ) (packet : Bytes) (t : Transport) (auth : TsigAuth)
    (msg : Message) (packed : Bytes) : Prop where
  authenticated : authenticateTSIG rt srv m packet = .ok auth
  parsed : unpack auth.payload = (msg, none)
  request : msg.header.isResponse = false
  written : ∃ q qs res, msg.questions = q :: qs ∧ (dispatch rt srv m s msg q auth).2.2 = .ok res ∧
    packResponse msg t.bufLen res (maxPayloadSize t.size msg.edns0Size) = .ok packed

def SignatureFits (rt : Runtime) (m : Moment) (auth : TsigAuth) (bufLen limit : ℕ) (packed : Bytes) : Prop :=
  ∀ r ∈ auth.record, ∀ key ∈ auth.key, ∀ mac ∈ responseMAC rt.unicode rt.hmac packed r.mac key auth.errCode m.later,
    packed.length + totalRRLen rt.unicode key auth.errCode mac ≤ bufLen →
      packed.length + totalRRLen rt.unicode key auth.errCode mac ≤ limit

theorem signAnswer_length {rt : Runtime} {m : Moment} {auth : TsigAuth} {bufLen limit : ℕ} {packed : Bytes}
    (hheader : headerSize ≤ packed.length) (hlen : packed.length ≤ limit) :
    (signAnswer rt m auth bufLen packed).length ≤ limit ↔ SignatureFits rt m auth bufLen limit packed := by
  have hsize : headerSize = 12 := rfl
  unfold signAnswer SignatureFits
  cases auth.record with
  | none => exact iff_of_true hlen nofun
  | some r =>
    cases auth.key with
    | none => exact iff_of_true hlen fun _ _ => nofun
    | some key =>
      simp only [Option.mem_some_iff, forall_eq', sign, signature]
      cases responseMAC rt.unicode rt.hmac packed r.mac key auth.errCode m.later with
      | none => exact iff_of_true hlen nofun
      | some mac =>
        have hrecord := signatureRecord_length (by omega : 2 ≤ packed.length) rt.unicode key mac m.later.toNat
          (UInt16.ofNat defaultFudge) auth.errCode
        simp only [Option.mem_some_iff, forall_eq', Option.map_some, Option.bind_some, hrecord]
        by_cases hfit : packed.length + totalRRLen rt.unicode key auth.errCode mac > bufLen
        · rw [if_pos hfit]
          exact iff_of_true hlen fun hle => absurd hfit (Nat.not_lt.mpr hle)
        · rw [if_neg hfit, Option.getD_some, List.length_append, putUint16_length (by omega), hrecord]
          exact ⟨fun hle _ => hle, fun h => h (Nat.not_lt.mp hfit)⟩

section Resolve

variable {rt : Runtime} {srv : Server σ ε} {m : Moment} {s : σ} {packet : Bytes} {t : Transport} {auth : TsigAuth}
  {msg : Message} {packed bytes : Bytes}

theorem advertised_eq (h : authenticateTSIG rt srv m packet = .ok auth) :
    advertised rt.unicode packet = (unpack auth.payload).1.edns0Size := by
  unfold advertised
  rcases hextract : extract rt.unicode packet with e | ⟨r, payload⟩
  · rw [authenticateTSIG, hextract] at h
    cases h
  · obtain ⟨auth', hauth', hchecked⟩ := authenticateTSIG_checked srv m hextract
    obtain rfl : auth' = auth := Except.ok.inj (hauth'.symm.trans h)
    rw [hchecked.payload_eq]

section

variable (h : Packed rt srv m s packet t auth msg packed)
include h

theorem Packed.header : headerSize ≤ packed.length := by
  obtain ⟨q, qs, res, -, -, hpacked⟩ := h.written
  exact (packResponse_rcode hpacked).whole

theorem Packed.length_le :
    packed.length ≤ maxPayloadSize t.size msg.edns0Size := by
  obtain ⟨q, qs, res, -, -, hpacked⟩ := h.written
  exact (packResponse_length hpacked).trans (Nat.min_le_left _ _)

theorem Packed.answer :
    (resolve rt srv m s packet t).answer = .ok (signAnswer rt m auth t.bufLen packed) := by
  obtain ⟨q, qs, res, hq, hres, hpacked⟩ := h.written
  unfold resolve
  simp only [h.authenticated, h.parsed, h.request, hq, Bool.false_eq_true, if_false]
  generalize dispatch rt srv m s msg q auth = handled at hres
  obtain ⟨s', calls, r⟩ := handled
  obtain rfl : r = .ok res := hres
  exact respond_packed hpacked

end

theorem answer_cases (h : (resolve rt srv m s packet t).answer = .ok bytes) : bytes.length ≤ maxUDPSize ∨
      ∃ auth msg packed, Packed rt srv m s packet t auth msg packed ∧ bytes = signAnswer rt m auth t.bufLen packed := by
  unfold resolve at h
  rcases hauth : authenticateTSIG rt srv m packet with e | auth
  · rw [hauth] at h
    cases h
  rw [hauth] at h
  dsimp only at h
  rcases hunpack : unpack auth.payload with ⟨msg, _ | e⟩
  · rw [hunpack] at h
    dsimp only at h
    split_ifs at h with hrequest
    rcases hq : msg.questions with _ | ⟨q, qs⟩
    · rw [hq] at h
      cases h
    rw [hq] at h
    dsimp only at h
    rcases hhandled : dispatch rt srv m s msg q auth with ⟨s', calls, e | res⟩
    · rw [hhandled] at h
      cases h
    rw [hhandled] at h
    rcases hpacked : packResponse msg t.bufLen res (maxPayloadSize t.size msg.edns0Size) with e | packed
    · rw [conclude, respond, hpacked] at h
      cases h
    · have hresponds : (respond rt m msg auth t res : Except (ServerError ε) Bytes) = .ok bytes := h
      rw [respond_packed hpacked] at hresponds
      right
      refine ⟨auth, msg, packed, ⟨hauth, hunpack, Bool.eq_false_iff.mpr hrequest, q, qs, res, hq, ?_, hpacked⟩, ?_⟩
      · rw [hhandled]
      · exact (Except.ok.inj hresponds).symm
  · left
    rw [hunpack] at h
    by_cases hdouble : e = .multipleOPT
    · subst hdouble
      have hopt : (handleMultipleOPT msg t : Except (ServerError ε) Bytes) = .ok bytes := h
      unfold handleMultipleOPT at hopt
      rcases hpacked : packResponse msg t.bufLen (.ofRCode .formatError) maxUDPSize with e | packed
      · rw [hpacked] at hopt
        cases hopt
      · rw [hpacked] at hopt
        cases hopt
        exact (packResponse_length hpacked).trans (Nat.min_le_left _ _)
    · cases e <;> first | exact absurd rfl hdouble | cases h

end Resolve

/-- A datagram in answer to a packet is within the negotiated size exactly if the signature behind it is. -/
theorem resolve_udp_size_iff (rt : Runtime) (srv : Server σ ε) (m : Moment) (s : σ) (packet : Bytes) :
    (∀ bytes, (resolve rt srv m s packet .udp).answer = .ok bytes →
        bytes.length ≤ udpLimit (advertised rt.unicode packet)) ↔
      ∀ auth msg packed, Packed rt srv m s packet .udp auth msg packed →
        SignatureFits rt m auth udpBufferSize (udpLimit msg.edns0Size) packed := by
  have hadvertised : ∀ {auth msg packed}, Packed rt srv m s packet .udp auth msg packed →
      advertised rt.unicode packet = msg.edns0Size := by
    intro auth msg packed hp
    rw [advertised_eq hp.authenticated, hp.parsed]
  have hiff : ∀ {auth msg packed}, Packed rt srv m s packet .udp auth msg packed →
      ((signAnswer rt m auth udpBufferSize packed).length ≤ udpLimit msg.edns0Size ↔
        SignatureFits rt m auth udpBufferSize (udpLimit msg.edns0Size) packed) := by
    intro auth msg packed hp
    have hlen := hp.length_le
    rw [maxPayloadSize_udp] at hlen
    exact signAnswer_length hp.header hlen
  constructor
  · intro h auth msg packed hp
    rw [← hiff hp, ← hadvertised hp]
    exact h _ hp.answer
  · intro h bytes hbytes
    rcases answer_cases hbytes with hshort | ⟨auth, msg, packed, hp, rfl⟩
    · exact hshort.trans (maxUDPSize_le_udpLimit _)
    · rw [hadvertised hp]
      exact (hiff hp).mpr (h auth msg packed hp)

def signedQuery : Bytes :=
  [0x12, 0x34, 0, 0, 0, 1, 0, 0, 0, 0, 0, 1, 1, 0x7A, 0, 0, 16, 0, 1,
    1, 0x6B, 0, 0, 250, 0, 255, 0, 0, 0, 0, 0, 29, 11] ++ ascii "hmac-sha256" ++ [0] ++
    bigEndian 6 1000 ++ bigEndian 2 300 ++ [0, 0, 0x12, 0x34, 0, 0, 0, 0]

def textServer : Server Unit Unit :=
  { keyedServer with
    res := fun _ _ _ => ((), { rcode := .success, answer := ⟨[List.replicate 450 0x61], 300, typeTXT, classIN⟩ }) }

theorem resolve_signs_beyond_limit :
    advertised .basic signedQuery = 0 ∧
      ∃ bytes, (resolve emptyCodes textServer (clockAt 1000) () signedQuery .udp).answer = .ok bytes ∧ 512 < bytes.length := by
  exact ⟨by decide +kernel, Fallible.exists_ok (by decide +kernel)⟩

end Kdns.DnsServer
