import Kdns.Server.Resolve
import Kdns.Wire.Sections

namespace Kdns.DnsServer

open ByteStream Dns Wire GoStrings Tsig Update

def wellFormedUpdate (u : Unicode) (packet : Bytes) : Bool :=
  match extract u packet with
  | .error _ => false
  | .ok (_, payload) =>
    match unpack payload with
    | (_, some _) => false
    | (msg, none) => !msg.header.isResponse && msg.header.opcode = opcodeUpdate && (sections u payload).isSome

def carriesTSIG (u : Unicode) (packet : Bytes) : Bool :=
  match extract u packet with
  | .ok (some _, _) => true
  | _ => false

def Refused {σ ε : Type} (o : Outcome σ ε) : Prop :=
  ∃ bytes, o.answer = .ok bytes ∧ HeaderCode bytes (UInt16.ofNat RCode.refused.code)

theorem sections_count {u : Unicode} {p : Bytes} (h : (sections u p).isSome) : uint16At p 4 = 1 := by
  by_contra hcount
  unfold sections parseZoneSection at h
  simp only [if_pos hcount, bind, Except.bind, throw, throwThe, MonadExceptOf.throw] at h
  cases h

structure Read (u : Unicode) (packet : Bytes) (r : Option Record) (payload : Bytes) (msg : Message) (q : Question) :
    Prop where
  extracted : extract u packet = .ok (r, payload)
  unpacked : unpack payload = (msg, none)
  request : msg.header.isResponse = false
  update : msg.header.opcode = opcodeUpdate
  single : msg.questions = [q]
  named : q.name.length < maxNameLen ∧ Segmented q.name

variable {packet payload : Bytes} {r : Option Record} {msg : Message} {q : Question} {auth : TsigAuth} {t : Transport}

theorem wellFormedUpdate_read {u : Unicode} (h : wellFormedUpdate u packet = true) :
    ∃ r payload msg q, Read u packet r payload msg q := by
  unfold wellFormedUpdate at h
  split at h
  · cases h
  · rename_i r payload hextract
    split at h
    · cases h
    · rename_i msg hunpack
      simp only [Bool.and_eq_true, Bool.not_eq_true', decide_eq_true_eq] at h
      obtain ⟨⟨hrequest, hupdate⟩, hsections⟩ := h
      have hlen := unpack_questions hunpack
      rw [sections_count hsections] at hlen
      obtain ⟨q, hq⟩ := List.length_eq_one_iff.mp hlen
      have hnamed := unpack_named payload q (by simp [hunpack, hq])
      exact ⟨r, payload, msg, q, hextract, hunpack, hrequest, hupdate, hq, hnamed⟩

section Packet

variable {σ ε : Type} {rt : Runtime} {srv : Server σ ε} {m : Moment}

structure Checked (srv : Server σ ε) (r : Option Record) (payload : Bytes) (auth : TsigAuth) : Prop where
  record_eq : auth.record = r
  payload_eq : auth.payload = payload
  unsigned : r = none → auth.errCode = 0
  keyless : srv.tsigKeys = none → r ≠ none → auth.errCode ≠ 0

variable (srv m) in
theorem authenticateTSIG_checked (h : extract rt.unicode packet = .ok (r, payload)) :
    ∃ auth, authenticateTSIG rt srv m packet = .ok auth ∧ Checked srv r payload auth := by
  unfold authenticateTSIG
  rw [h]
  cases r with
  | none => exact ⟨_, rfl, rfl, rfl, fun _ => rfl, fun _ hr => absurd rfl hr⟩
  | some r =>
    dsimp only
    split
    · refine ⟨_, rfl, rfl, rfl, (fun hr => nomatch hr), fun _ _ => ?_⟩
      exact VerifyError.badKey.code_ne_zero
    · rename_i key hkey
      have hring : srv.tsigKeys ≠ none := by
        intro hnone
        rw [hnone] at hkey
        cases hkey
      split
      · exact ⟨_, rfl, rfl, rfl, (fun hr => nomatch hr), fun hnone => absurd hnone hring⟩
      · exact ⟨_, rfl, rfl, rfl, (fun hr => nomatch hr), fun hnone => absurd hnone hring⟩

theorem handleUpdate_calls {s : σ} {present : Bool} {errCode : UInt16}
    (h : (handleUpdate rt srv m s payload present errCode).2.1 ≠ []) :
    srv.tsigKeys ≠ none ∧ (sections rt.unicode payload).isSome := by
  unfold handleUpdate at h
  split at h
  · rename_i getter ud keys _ _ hkeys
    split at h
    · exact absurd rfl h
    · constructor
      · rw [hkeys]
        exact Option.some_ne_none _
      · rw [Option.isSome_iff_ne_none]
        intro hnone
        have hcalls := process_calls rt.unicode m.mapOrder getter ud s payload hnone
        dsimp only at h
        split at h <;> exact h hcalls
  · exact absurd rfl h

theorem dispatch_calls {s : σ} (h : (dispatch rt srv m s msg q auth).2.1 ≠ []) :
    msg.header.opcode = opcodeUpdate ∧ srv.tsigKeys ≠ none ∧ (sections rt.unicode auth.payload).isSome := by
  unfold dispatch at h
  split at h
  · exact absurd rfl h
  split at h
  · exact absurd rfl h
  split at h
  · rename_i hupdate
    exact ⟨hupdate, handleUpdate_calls h⟩
  · exact absurd rfl h

theorem conclude_calls (msg : Message) (q : Question) (auth : TsigAuth) (t : Transport) (handled : Handled σ ε) :
    (conclude rt m msg q auth t handled).calls = handled.2.1 := by
  rcases handled with ⟨s, calls, _ | _⟩ <;> rfl

theorem resolve_dispatched {s : σ} (h : (resolve rt srv m s packet t).calls ≠ []) :
    ∃ auth msg q, authenticateTSIG rt srv m packet = .ok auth ∧ unpack auth.payload = (msg, none) ∧
      msg.header.isResponse = false ∧
      (resolve rt srv m s packet t).calls = (dispatch rt srv m s msg q auth).2.1 := by
  unfold resolve at h ⊢
  cases hauth : authenticateTSIG rt srv m packet with
  | error e =>
    rw [hauth] at h
    exact absurd rfl h
  | ok auth =>
    rw [hauth] at h
    dsimp only at h ⊢
    split at h
    · exact absurd rfl h
    · exact absurd rfl h
    · rename_i msg hunpack
      by_cases hresponse : msg.header.isResponse = true
      · rw [if_pos hresponse] at h
        exact absurd rfl h
      rw [if_neg hresponse] at h
      cases hquestions : msg.questions with
      | nil =>
        rw [hquestions] at h
        exact absurd rfl h
      | cons q rest =>
        refine ⟨auth, msg, q, rfl, hunpack, Bool.eq_false_iff.mpr hresponse, ?_⟩
        rw [if_neg hresponse]
        exact conclude_calls ..

theorem resolve_calls {s : σ} (h : (resolve rt srv m s packet t).calls ≠ []) :
    wellFormedUpdate rt.unicode packet = true ∧ srv.tsigKeys ≠ none := by
  obtain ⟨auth, msg, q, hauth, hunpack, hrequest, hcalls⟩ := resolve_dispatched h
  rw [hcalls] at h
  obtain ⟨hupdate, hkeys, hsections⟩ := dispatch_calls h
  refine ⟨?_, hkeys⟩
  cases hextract : extract rt.unicode packet with
  | error e =>
    rw [authenticateTSIG, hextract] at hauth
    cases hauth
  | ok x =>
    obtain ⟨auth', hauth', hchecked⟩ := authenticateTSIG_checked srv m hextract
    obtain rfl : auth' = auth := Except.ok.inj (hauth'.symm.trans hauth)
    rw [hchecked.payload_eq] at hunpack hsections
    unfold wellFormedUpdate
    simp only [hextract, hunpack, hupdate, hsections, hrequest]
    rfl

theorem respond_packed {res : Response} {packed : Bytes}
    (h : packResponse msg t.bufLen res (maxPayloadSize t.size msg.edns0Size) = .ok packed) :
    (respond rt m msg auth t res : Except (ServerError ε) Bytes) = .ok (signAnswer rt m auth t.bufLen packed) := by
  rw [respond, h]
  exact if_neg (packResponse_pos h).ne'

theorem respond_rcode {res : Response} {bytes : Bytes}
    (h : (respond rt m msg auth t res : Except (ServerError ε) Bytes) = .ok bytes) :
    HeaderCode bytes (UInt16.ofNat res.rcode.code) := by
  unfold respond at h
  split at h
  · cases h
  · rename_i packed hpacked
    have hcode := packResponse_rcode hpacked
    split at h <;> cases h
    unfold signAnswer
    split
    · rename_i r key _ _
      cases hsign : sign rt.unicode rt.hmac packed t.bufLen r.mac key auth.errCode m.later with
      | none => exact hcode
      | some signed => exact sign_headerCode hcode hsign
    · exact hcode

theorem headerCode_inj {bytes : Bytes} {c c' : RCode} (h : HeaderCode bytes (UInt16.ofNat c.code))
    (h' : HeaderCode bytes (UInt16.ofNat c'.code)) : c = c' := by
  apply RCode.eq_of_code
  have heq : UInt16.ofNat c.code = UInt16.ofNat c'.code := h.rcode.symm.trans h'.rcode
  have hlt := c.code_lt
  have hlt' := c'.code_lt
  have hnat := congrArg UInt16.toNat heq
  rw [UInt16.toNat_ofNat', UInt16.toNat_ofNat'] at hnat
  omega

structure TakesUpdates (srv : Server σ ε) : Prop where
  getter : srv.getter ≠ none
  upsertDeleter : srv.upsertDeleter ≠ none

theorem dispatch_update {s : σ} (hupdate : msg.header.opcode = opcodeUpdate)
    (hgood : ¬(auth.present ∧ auth.errCode ≠ 0)) :
    dispatch rt srv m s msg q auth = handleUpdate rt srv m s auth.payload auth.present auth.errCode := by
  have hopcode : opcodeUpdate ≠ opcodeQuery := by decide
  unfold dispatch
  rw [if_neg hgood, if_neg (by rw [hupdate]; exact hopcode), if_pos hupdate]

theorem dispatch_refuses {s : σ} (hupdate : msg.header.opcode = opcodeUpdate) (hchecked : Checked srv none payload auth)
    (hkeys : srv.tsigKeys = none) : dispatch rt srv m s msg q auth = (s, [], .ok (.ofRCode .refused)) := by
  have herr := hchecked.unsigned rfl
  rw [dispatch_update hupdate (by simp [herr]), handleUpdate, hkeys]
  split
  · rename_i hnone
    cases hnone
  · rfl

theorem dispatch_allows (hw : TakesUpdates srv) {s : σ} (hupdate : msg.header.opcode = opcodeUpdate)
    (hchecked : Checked srv r payload auth) (hopen : ¬(srv.tsigKeys = none ∧ r = none)) {res : Response}
    (h : (dispatch rt srv m s msg q auth).2.2 = .ok res) : res.rcode ≠ .refused := by
  by_cases hbad : auth.present ∧ auth.errCode ≠ 0
  · rw [dispatch, if_pos hbad] at h
    cases h
    exact RCode.noConfusion
  rw [dispatch_update hupdate hbad] at h
  have hkeys : srv.tsigKeys ≠ none := by
    intro hnone
    have hr : r ≠ none := fun hr => hopen ⟨hnone, hr⟩
    apply hbad
    constructor
    · rw [TsigAuth.present, hchecked.record_eq]
      exact Option.isSome_iff_ne_none.mpr hr
    · exact hchecked.keyless hnone hr
  unfold handleUpdate at h
  split at h
  · rename_i getter ud keys _ _ _
    split at h
    · cases h
      exact RCode.noConfusion
    · dsimp only at h
      split at h <;> cases h
      apply process_ne_refused
  · rename_i hmissing
    obtain ⟨getter, hgetter⟩ := Option.ne_none_iff_exists'.mp hw.getter
    obtain ⟨ud, hud⟩ := Option.ne_none_iff_exists'.mp hw.upsertDeleter
    obtain ⟨keys, hring⟩ := Option.ne_none_iff_exists'.mp hkeys
    exact (hmissing getter ud keys hgetter hud hring).elim

theorem maxUDPSize_le_bufLen (t : Transport) : maxUDPSize ≤ t.bufLen := by cases t <;> decide

theorem maxUDPSize_le_maxPayloadSize (t : Transport) (edns0Size : ℕ) :
    maxUDPSize ≤ maxPayloadSize t.size edns0Size := by
  have hsize : maxUDPSize ≤ t.size := by cases t <;> decide
  have hedns : maxUDPSize ≤ maxEDNS0Size := by decide
  unfold maxPayloadSize
  split_ifs with h
  · exact Nat.le_min.mpr ⟨Nat.le_of_lt h.2, hedns⟩
  · exact hsize

theorem resolve_refused_iff (hw : TakesUpdates srv) (h : Read rt.unicode packet r payload msg q) (s : σ) (t : Transport) :
    Refused (resolve rt srv m s packet t) ↔ srv.tsigKeys = none ∧ r = none := by
  obtain ⟨auth, hauth, hchecked⟩ := authenticateTSIG_checked srv m h.extracted
  have hresolve : resolve rt srv m s packet t = conclude rt m msg q auth t (dispatch rt srv m s msg q auth) := by
    unfold resolve
    simp only [hauth, hchecked.payload_eq, h.unpacked, h.request, h.single, Bool.false_eq_true, if_false]
  rw [hresolve]
  constructor
  · intro hrefused
    by_contra hopen
    have hallows : ∀ res, (dispatch rt srv m s msg q auth).2.2 = .ok res → res.rcode ≠ .refused :=
      fun _ => dispatch_allows hw h.update hchecked hopen
    generalize dispatch rt srv m s msg q auth = handled at hrefused hallows
    obtain ⟨bytes, hanswer, hcode⟩ := hrefused
    rcases handled with ⟨s', calls, e | res⟩
    · cases hanswer
    · exact hallows res rfl (headerCode_inj (respond_rcode hanswer) hcode)
  · rintro ⟨hkeys, rfl⟩
    rw [dispatch_refuses h.update hchecked hkeys]
    obtain ⟨bytes, hpacked⟩ := packResponse_ofRCode h.single h.named .refused (maxUDPSize_le_bufLen t)
      (maxUDPSize_le_maxPayloadSize t msg.edns0Size)
    have hrespond : (respond rt m msg auth t (.ofRCode .refused) : Except (ServerError ε) Bytes) = .ok bytes := by
      rw [respond_packed hpacked, signAnswer, hchecked.record_eq]
    exact ⟨bytes, hrespond, respond_rcode hrespond⟩

end Packet

end Kdns.DnsServer
