import Kdns.Server.Authentic
import Kdns.Wire.Bounds

namespace Kdns.Tsig

open ByteStream Dns Wire GoStrings

theorem skipQuestions_advance {p : Bytes} {n offset offset' : ℕ} (h : skipQuestions p n offset = .ok offset') :
    offset + 5 * n ≤ offset' ∧ (offset ≤ p.length → offset' ≤ p.length) := by
  induction n generalizing offset with
  | zero =>
    cases h
    exact ⟨le_rfl, id⟩
  | succ n ih =>
    obtain ⟨⟨name, next⟩, hname, h⟩ := Fallible.bind_ok h
    obtain ⟨hend, h⟩ := Fallible.of_guard h
    have hnext := (unpackDomainName_bounds (liftWire_ok hname)).1
    obtain ⟨hrest, hlast⟩ := ih h
    exact ⟨by omega, fun _ => hlast (by omega)⟩

theorem skipRecords_advance {p : Bytes} {n offset offset' : ℕ} (h : skipRecords p n offset = .ok offset') :
    offset + 11 * n ≤ offset' ∧ (offset ≤ p.length → offset' ≤ p.length) := by
  induction n generalizing offset with
  | zero =>
    cases h
    exact ⟨le_rfl, id⟩
  | succ n ih =>
    obtain ⟨⟨name, next⟩, hname, h⟩ := Fallible.bind_ok h
    obtain ⟨hend, h⟩ := Fallible.of_guard h
    obtain ⟨hdata, h⟩ := Fallible.of_guard h
    have hnext := (unpackDomainName_bounds (liftWire_ok hname)).1
    obtain ⟨hrest, hlast⟩ := ih h
    exact ⟨by omega, fun _ => hlast (by omega)⟩

theorem skipMessageSections_le {p : Bytes} {qd an ns ar start : ℕ} (h : skipMessageSections p qd an ns ar = .ok start) :
    headerSize ≤ start := by
  obtain ⟨offset, hquestions, hrecords⟩ := Fallible.bind_ok h
  have hfirst := (skipQuestions_advance hquestions).1
  have hlast := (skipRecords_advance hrecords).1
  omega

theorem extract_none {u : Unicode} {p payload : Bytes} (h : extract u p = .ok (none, payload)) : payload = p := by
  unfold extract at h
  by_cases hlen : p.length < headerSize
  · rw [if_pos hlen] at h
    cases h
    rfl
  rw [if_neg hlen] at h
  by_cases har : (decodeHeader p).arCount = 0
  · simp only [if_pos har] at h
    cases h
    rfl
  simp only [if_neg har] at h
  obtain ⟨start, -, h⟩ := Fallible.bind_ok h
  obtain ⟨⟨keyName, offset⟩, -, h⟩ := Fallible.bind_ok h
  split_ifs at h
  · cases h
    rfl
  · cases h
    rfl
  · cases h
  · obtain ⟨r, -, h⟩ := Fallible.bind_ok h
    cases h

theorem extract_flags {u : Unicode} {p payload : Bytes} {r : Option Record} (hlen : headerSize ≤ p.length)
    (h : extract u p = .ok (r, payload)) : headerSize ≤ payload.length ∧ uint16At payload 2 = uint16At p 2 := by
  have hsize : headerSize = 12 := rfl
  cases r with
  | none =>
    rw [extract_none h]
    exact ⟨hlen, rfl⟩
  | some r =>
    obtain ⟨-, start, keyName, offset, hstart, -, -, -, -, -, rfl⟩ := extract_ok h
    have hle := skipMessageSections_le hstart
    have htake : headerSize ≤ (p.take start).length := by
      rw [List.length_take]
      omega
    rw [putUint16_length (by omega), uint16At_putUint16_before (by omega) (by omega)]
    refine ⟨htake, ?_⟩
    conv_rhs => rw [← List.take_append_drop start p]
    rw [uint16At_append (by omega)]

end Kdns.Tsig

namespace Kdns.DnsServer

open ByteStream Dns Wire GoStrings Tsig Update

variable {σ ε : Type}

structure Silent (s : σ) (o : Outcome σ ε) : Prop where
  unanswered : ∃ e, o.answer = .error e
  unchanged : o.store = s ∧ o.calls = []

def questionsFit (msg : Message) (size : ℕ) : Bool :=
  (PacketWriter.writeQuestions msg.questions
    ⟨size, headerBytes msg.header.id (responseFlags msg (.ofRCode .formatError)) (UInt16.ofNat msg.questions.length),
      []⟩).2 = none

def DoubleOPT (u : Unicode) (packet : Bytes) : Prop :=
  ∃ r payload msg, extract u packet = .ok (r, payload) ∧ unpack payload = (msg, some .multipleOPT) ∧
    questionsFit msg maxUDPSize = true

theorem handleMultipleOPT_isOk (msg : Message) (t : Transport) (hcount : msg.questions.length ≤ maxQuestions) :
    (∃ bytes, (handleMultipleOPT msg t : Except (ServerError ε) Bytes) = .ok bytes) ↔
      questionsFit msg maxUDPSize = true := by
  have hlimit : min maxUDPSize t.bufLen = maxUDPSize := Nat.min_eq_left (maxUDPSize_le_bufLen t)
  unfold handleMultipleOPT packResponse questionsFit
  rw [if_neg (Nat.not_lt.mpr hcount)]
  simp only [hlimit]
  rw [if_neg (by decide)]
  generalize PacketWriter.writeQuestions msg.questions _ = r
  obtain ⟨w, _ | e⟩ := r
  · obtain ⟨bytes, hbytes⟩ := writeSections_ofRCode msg .formatError w
    simp only [hbytes, decide_true, iff_true]
    exact ⟨bytes, rfl⟩
  · simp

theorem resolve_silent_iff (rt : Runtime) (srv : Server σ ε) (m : Moment) (s : σ) (packet : Bytes) (t : Transport)
    (hlen : headerSize ≤ packet.length) (hqr : (decodeHeader packet).isResponse = true) :
    Silent s (resolve rt srv m s packet t) ↔ ¬ DoubleOPT rt.unicode packet := by
  unfold resolve
  cases hextract : extract rt.unicode packet with
  | error e =>
    have hauth : authenticateTSIG rt srv m packet = .error e := by rw [authenticateTSIG, hextract]
    rw [hauth]
    refine iff_of_true ⟨⟨_, rfl⟩, rfl, rfl⟩ ?_
    rintro ⟨r, payload, msg, he, -⟩
    rw [hextract] at he
    cases he
  | ok x =>
    obtain ⟨r, payload⟩ := x
    obtain ⟨auth, hauth, hchecked⟩ := authenticateTSIG_checked srv m hextract
    obtain ⟨-, hflags⟩ := extract_flags hlen hextract
    have hdouble : DoubleOPT rt.unicode packet ↔
        (unpack payload).2 = some .multipleOPT ∧ questionsFit (unpack payload).1 maxUDPSize = true := by
      constructor
      · rintro ⟨r', payload', msg, he, hu, hfit⟩
        obtain ⟨-, rfl⟩ := Prod.mk.inj (Except.ok.inj (hextract.symm.trans he))
        rw [hu]
        exact ⟨rfl, hfit⟩
      · rintro ⟨hu, hfit⟩
        exact ⟨r, payload, (unpack payload).1, hextract, Prod.ext rfl hu, hfit⟩
    have hcount := unpack_length_le payload
    have hheader := fun msg => unpack_ok (p := payload) (m := msg)
    rw [hauth, hdouble]
    dsimp only
    rw [hchecked.payload_eq]
    generalize unpack payload = u at hcount hheader ⊢
    obtain ⟨msg, _ | e⟩ := u
    · -- a packet the parser accepts is recognised by its header
      obtain ⟨-, hmsg, -⟩ := hheader msg rfl
      have hresponse : msg.header.isResponse = true := by
        rw [hmsg, Header.isResponse, decodeHeader, hflags]
        exact hqr
      dsimp only
      rw [if_pos hresponse]
      apply iff_of_true ⟨⟨_, rfl⟩, rfl, rfl⟩
      rintro ⟨hnone, -⟩
      cases hnone
    · by_cases he : e = .multipleOPT
      · subst he
        have hok : (∃ bytes, (handleMultipleOPT msg t : Except (ServerError ε) Bytes) = .ok bytes) ↔
            questionsFit msg maxUDPSize = true := handleMultipleOPT_isOk msg t hcount
        constructor
        · rintro ⟨⟨e, he⟩, -⟩ ⟨-, hfit⟩
          obtain ⟨bytes, hbytes⟩ := hok.mpr hfit
          have hboth := he.symm.trans hbytes
          cases hboth
        · intro hnot
          refine ⟨?_, rfl, rfl⟩
          cases ha : (handleMultipleOPT msg t : Except (ServerError ε) Bytes) with
          | error e => exact ⟨e, ha⟩
          | ok bytes => exact absurd ⟨rfl, hok.mp ⟨bytes, ha⟩⟩ hnot
      · refine iff_of_true ?_ (fun h => he (Option.some.inj h.1))
        cases e <;> first | exact absurd rfl he | exact ⟨⟨_, rfl⟩, rfl, rfl⟩

def reflected : Bytes := [0x12, 0x34, 0x80, 0, 0, 1, 0, 0, 0, 0, 0, 0, 0, 0, 1, 0, 1]

theorem resolve_silent_reflected : Silent () (resolve emptyCodes keyedServer (clockAt 0) () reflected .udp) := by
  apply (resolve_silent_iff emptyCodes keyedServer (clockAt 0) () reflected .udp (by decide) (by decide)).mpr
  rintro ⟨r, payload, msg, he, hu, -⟩
  have hextract : extract .basic reflected = .ok (none, reflected) := by decide +kernel
  obtain ⟨-, rfl⟩ := Prod.mk.inj (Except.ok.inj (hextract.symm.trans he))
  have hopt : (unpack reflected).2 = some .multipleOPT := congrArg Prod.snd hu
  exact absurd hopt (by decide +kernel)

def reflectedOPT : Bytes :=
  [0x12, 0x34, 0x80, 0, 0, 0, 0, 0, 0, 0, 0, 2, 0, 0, 41, 16, 0, 0, 0, 0, 0, 0, 0, 0, 0, 41, 16, 0, 0, 0, 0, 0, 0, 0]

theorem resolve_answers_reflected : headerSize ≤ reflectedOPT.length ∧ (decodeHeader reflectedOPT).isResponse = true ∧
    (resolve emptyCodes keyedServer (clockAt 0) () reflectedOPT .udp).answer =
      .ok [0x12, 0x34, 0x84, 1, 0, 0, 0, 0, 0, 0, 0, 0] :=
  ⟨by decide, by decide, by decide +kernel⟩

end Kdns.DnsServer
