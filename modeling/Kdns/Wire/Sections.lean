import Kdns.Wire.Layout

namespace Kdns.Wire

open ByteStream Dns CompressedName List

theorem writeSigned_unsigned (w : PacketWriter) (owner : Bytes) (set sigs : RRSet) :
    w.writeSigned owner set sigs false = w.writeRRSet owner set := by
  unfold PacketWriter.writeSigned
  rcases w.writeRRSet owner set with ⟨v, _ | n⟩ <;> rfl

structure RecordInvariant (I : PacketWriter → Prop) : Prop where
  cut : ∀ {w v : PacketWriter}, I w → v.limit = w.limit → w.Learns v → I { v with out := w.out }.setTruncatedFlag
  record : ∀ {w v : PacketWriter} {owner rdata : Bytes} (set : RRSet), I w → w.writeDomain owner = (v, none) →
    v.offset + 10 + rdata.length ≤ v.limit → I (v.put (recordBytes set rdata))

namespace RecordInvariant

variable {I : PacketWriter → Prop} (hI : RecordInvariant I) {m : Message} {res : Response} {w w' : PacketWriter}
  {count : UInt16}

include hI

variable {owner : Bytes} {set : RRSet}

variable (h : I w)
include h

theorem records {rdatas : List Bytes} {count' : UInt16}
    (hw : writeRecords owner set rdatas w count = (w', .ok count')) : I w' := by
  induction rdatas generalizing w count with
  | nil =>
    cases hw
    exact h
  | cons rdata rest ih =>
    have hlearns := learns_writeDomain w owner
    have hlimit := (extends_writeDomain w owner).limit_eq
    rw [writeRecords] at hw
    rcases hname : w.writeDomain owner with ⟨v, _ | e⟩
    · rw [hname] at hw hlearns hlimit
      dsimp only at hw hlimit hlearns
      by_cases hfit : v.offset + 10 + rdata.length > v.limit
      · rw [if_pos hfit] at hw
        cases hw
        exact hI.cut h hlimit hlearns
      · rw [if_neg hfit] at hw
        have hrecord := hI.record set h hname (Nat.le_of_not_lt hfit)
        split_ifs at hw
        · cases hw
          exact hrecord
        · exact ih hrecord hw
    · rw [hname] at hw hlearns hlimit
      dsimp only at hw
      split_ifs at hw
      · cases hw
        exact hI.cut h hlimit hlearns
      · cases hw

theorem signed {sigs : RRSet} {signed : Bool}
    (hw : w.writeSigned owner set sigs signed = (w', .ok count)) : I w' := by
  unfold PacketWriter.writeSigned at hw
  rcases hset : w.writeRRSet owner set with ⟨v, _ | n⟩
  · rw [hset] at hw
    cases hw
  · rw [hset] at hw
    have hv := hI.records h hset
    dsimp only at hw
    split_ifs at hw
    · rcases hsigs : v.writeRRSet owner sigs with ⟨v', _ | n'⟩
      · rw [hsigs] at hw
        cases hw
      · rw [hsigs] at hw
        cases hw
        exact hI.records hv hsigs
    · cases hw
      exact hv

theorem answer (hw : writeAnswerSection m res w = (w', .ok count)) : I w' := by
  unfold writeAnswerSection at hw
  split at hw
  · split_ifs at hw
    · exact hI.signed h hw
    · cases hw
      exact h
  · cases hw
    exact h

theorem authority (hw : writeAuthoritySection m res w = (w', .ok count)) : I w' := by
  unfold writeAuthoritySection at hw
  split at hw
  · by_cases hany : res.hasAuthority = true
    · rw [if_pos hany] at hw
      exact hI.signed h hw
    · rw [if_neg hany] at hw
      cases hw
      exact h
  · cases hw
    exact h

theorem additional (hw : writeAdditionalSection m res w = (w', .ok count)) : I w' := by
  unfold writeAdditionalSection at hw
  split at hw
  · split_ifs at hw
    · exact hI.records h hw
    · cases hw
      exact h
  · cases hw
    exact h

end RecordInvariant

def Grows (w w' : PacketWriter) : Prop := ∃ more cut, Appended w w' more cut

variable {w w' : PacketWriter} {m : Message} {res : Response} {bytes : Bytes}

theorem Grows.refl (h : w.Sound) : Grows w w := ⟨[], False, .refl h⟩

theorem Grows.trans {w'' : PacketWriter} (h : Grows w w') (h' : Grows w' w'') : Grows w w'' := by
  obtain ⟨more, cut, h⟩ := h
  obtain ⟨more', cut', h'⟩ := h'
  exact ⟨_, _, h.trans h'⟩

theorem Grows.sound (h : Grows w w') : w'.Sound := by
  obtain ⟨more, cut, h⟩ := h
  exact h.sound

theorem Grows.limit_eq (h : Grows w w') : w'.limit = w.limit := by
  obtain ⟨more, cut, h⟩ := h
  exact h.limit_eq

theorem Grows.offset_le (h : Grows w w') (hs : w.Sound) : w.offset ≤ w'.offset := by
  obtain ⟨more, cut, h⟩ := h
  rw [h.offset_eq hs]
  exact Nat.le_add_right _ _

theorem grows_recordInvariant (w₀ : PacketWriter) : RecordInvariant (Grows w₀) where
  cut h hlimit hlearns := h.trans ⟨[], True, appended_cut h.sound hlimit hlearns⟩
  record set h hname hfit := by
    obtain ⟨o, -, happended⟩ := appended_name h.sound hname
    apply (h.trans ⟨_, _, happended⟩).trans
    refine ⟨_, _, appended_put happended.sound ?_⟩
    rw [recordBytes_length, ← Nat.add_assoc]
    exact hfit

def optSet (m : Message) : RRSet :=
  ⟨[[]], if m.wantsDNSSEC then 0x8000 else 0, typeOPT, UInt16.ofNat defaultEDNS0BufferSize⟩

theorem optBytes (m : Message) (code : RCode) : 0 :: bigEndian 2 typeOPT.toNat ++ bigEndian 2 defaultEDNS0BufferSize ++
      bigEndian 4 (code.code / 16 * 2 ^ 24 + if m.wantsDNSSEC then 0x8000 else 0) ++ bigEndian 2 0 =
    [0] ++ recordBytes (optSet m) [] := by
  rw [Nat.div_eq_of_lt code.code_lt, Nat.zero_mul, Nat.zero_add]
  cases hdo : m.wantsDNSSEC <;> simp only [optSet, hdo] <;> rfl

theorem writeEDNS0_cases (w : PacketWriter) (m : Message) (res : Response) : w.writeEDNS0 m res = (w, 0) ∨
      m.edns0Size ≠ 0 ∧ w.offset + 11 ≤ w.limit ∧ w.writeEDNS0 m res = (w.put ([0] ++ recordBytes (optSet m) []), 1) := by
  unfold PacketWriter.writeEDNS0
  by_cases hnone : m.edns0Size = 0
  · exact .inl (if_pos hnone)
  rw [if_neg hnone]
  by_cases hfit : w.offset + 11 > w.limit
  · exact .inl (if_pos hfit)
  rw [if_neg hfit]
  dsimp only
  rw [optBytes]
  exact .inr ⟨hnone, Nat.le_of_not_lt hfit, rfl⟩

theorem grows_writeEDNS0 (h : w.Sound) (m : Message) (res : Response) : Grows w (w.writeEDNS0 m res).1 := by
  rcases writeEDNS0_cases w m res with hnone | ⟨-, hfit, hopt⟩
  · rw [hnone]
    exact .refl h
  · rw [hopt]
    refine ⟨_, _, appended_put h ?_⟩
    exact hfit

theorem updateCounts_header (hs : w.Sound) (answer authority additional : UInt16) :
    decodeHeader (w.updateCounts answer authority additional).out =
      { decodeHeader w.out with anCount := answer, nsCount := authority, arCount := additional } := by
  have hlen : headerSize ≤ w.out.length := hs.header
  have hsize : headerSize = 12 := rfl
  have h₁ : (putUint16 w.out 6 answer).length = w.out.length := putUint16_length (by omega) _
  have h₂ : (putUint16 (putUint16 w.out 6 answer) 8 authority).length = w.out.length := by
    rw [putUint16_length (by omega), h₁]
  have hbefore : ∀ i, i + 2 ≤ 6 → uint16At (w.updateCounts answer authority additional).out i = uint16At w.out i := by
    intro i hi
    rw [PacketWriter.updateCounts, uint16At_putUint16_before (by omega) (by omega),
      uint16At_putUint16_before (by omega) (by omega), uint16At_putUint16_before (by omega) hi]
  simp only [decodeHeader, Header.mk.injEq]
  refine ⟨hbefore 0 (by omega), hbefore 2 (by omega), hbefore 4 (by omega), ?_, ?_, ?_⟩
  · rw [PacketWriter.updateCounts, uint16At_putUint16_before (by omega) (by omega),
      uint16At_putUint16_before (by omega) (by omega), uint16At_putUint16 (by omega)]
  · rw [PacketWriter.updateCounts, uint16At_putUint16_before (by omega) (by omega), uint16At_putUint16 (by omega)]
  · rw [PacketWriter.updateCounts, uint16At_putUint16 (by omega)]

theorem updateCounts_body (hs : w.Sound) (answer authority additional : UInt16) :
    (w.updateCounts answer authority additional).out.length = w.out.length ∧
      (w.updateCounts answer authority additional).out.drop headerSize = w.out.drop headerSize := by
  have hlen : headerSize ≤ w.out.length := hs.header
  have hsize : headerSize = 12 := rfl
  have h₁ : (putUint16 w.out 6 answer).length = w.out.length := putUint16_length (by omega) _
  have h₂ : (putUint16 (putUint16 w.out 6 answer) 8 authority).length = w.out.length := by
    rw [putUint16_length (by omega), h₁]
  constructor
  · rw [PacketWriter.updateCounts, putUint16_length (by omega), h₂]
  · rw [PacketWriter.updateCounts, putUint16_drop (by omega) (by omega), putUint16_drop (by omega) (by omega),
      putUint16_drop (by omega) hlen]

theorem appended_question {q : Question} (hs : w.Sound) (h : w.writeQuestion q = (w', none)) :
    ∃ o tail, IsNameForm o ∧ tail.length = 4 ∧ Appended w w' (o ++ tail) False := by
  obtain ⟨v, hname, hfit, rfl⟩ := writeQuestion_ok h
  obtain ⟨o, hform, happended⟩ := appended_name hs hname
  rw [← questionTail_length q] at hfit
  have hboth := happended.trans (appended_put happended.sound hfit)
  rw [or_self] at hboth
  exact ⟨o, _, hform, questionTail_length q, hboth⟩

theorem appended_questions {qs : List Question} (hs : w.Sound) (h : PacketWriter.writeQuestions qs w = (w', none)) :
    ∃ more, Appended w w' more False ∧ ∀ rest, readQuestions qs.length (more ++ rest) = some rest := by
  induction qs generalizing w with
  | nil =>
    cases h
    exact ⟨[], .refl hs, fun _ => rfl⟩
  | cons q qs ih =>
    obtain ⟨v, hq, h⟩ := writeQuestions_cons h
    obtain ⟨o, tail, hform, hlen, hfirst⟩ := appended_question hs hq
    obtain ⟨more, hrest, hread⟩ := ih hfirst.sound h
    have hboth := hfirst.trans hrest
    rw [or_self] at hboth
    refine ⟨_, hboth, ?_⟩
    intro rest
    have hlong : ¬ (tail ++ (more ++ rest)).length < 4 := by
      rw [length_append]
      omega
    rw [length_cons, readQuestions, append_assoc, append_assoc, skipName_append hform,
      Option.bind_some, if_neg hlong, drop_left' hlen]
    apply hread

structure Stages (m : Message) (bufLen : ℕ) (res : Response) (maxSize : ℕ) (bytes : Bytes) (w wa wb wc : PacketWriter)
    (a b c : UInt16) : Prop where
  few : m.questions.length ≤ maxQuestions
  start : (headerWriter m bufLen res maxSize).Sound
  questions : (headerWriter m bufLen res maxSize).writeQuestions m.questions = (w, none)
  answer : writeAnswerSection m res w = (wa, .ok a)
  authority : writeAuthoritySection m res wa = (wb, .ok b)
  additional : writeAdditionalSection m res wb = (wc, .ok c)
  grown : Grows w wc
  length_eq : bytes.length = (wc.writeEDNS0 m res).1.out.length
  body : bytes.drop headerSize = (wc.writeEDNS0 m res).1.out.drop headerSize
  header : decodeHeader bytes = { decodeHeader (wc.writeEDNS0 m res).1.out with
    anCount := a, nsCount := b, arCount := c + (wc.writeEDNS0 m res).2 }

theorem packResponse_stages {bufLen maxSize : ℕ} (h : packResponse m bufLen res maxSize = .ok bytes) :
    ∃ w wa wb wc a b c, Stages m bufLen res maxSize bytes w wa wb wc a b c := by
  obtain ⟨hfew, hheader, w, hw, hsections⟩ := packResponse_ok h
  obtain ⟨wa, wb, wc, a, b, c, ha, hb, hc, rfl⟩ := writeSections_ok hsections
  have hstart : (headerWriter m bufLen res maxSize).Sound := headerWriter_sound hheader
  obtain ⟨q, hq, -⟩ := appended_questions hstart hw
  have hI := grows_recordInvariant w
  have hgrows := hI.additional (hI.authority (hI.answer (.refl hq.sound) ha) hb) hc
  have hlast := (grows_writeEDNS0 hgrows.sound m res).sound
  obtain ⟨hlength, hbody⟩ := updateCounts_body hlast a b (c + (wc.writeEDNS0 m res).2)
  exact ⟨w, wa, wb, wc, a, b, c, hfew, hstart, hw, ha, hb, hc, hgrows, hlength, hbody, updateCounts_header hlast _ _ _⟩

theorem packResponse_grows {bufLen maxSize : ℕ} (h : packResponse m bufLen res maxSize = .ok bytes) :
    ∃ w w', (headerWriter m bufLen res maxSize).Sound ∧
      (headerWriter m bufLen res maxSize).writeQuestions m.questions = (w, none) ∧ Grows w w' ∧
      bytes.length = w'.out.length ∧ bytes.drop headerSize = w'.out.drop headerSize := by
  obtain ⟨w, wa, wb, wc, a, b, c, hst⟩ := packResponse_stages h
  exact ⟨w, _, hst.start, hst.questions, hst.grown.trans (grows_writeEDNS0 hst.grown.sound m res), hst.length_eq, hst.body⟩

theorem packResponse_length {bufLen maxSize : ℕ}
    (h : packResponse m bufLen res maxSize = .ok bytes) : bytes.length ≤ min maxSize bufLen := by
  obtain ⟨w, w', hstart, hw, ⟨more, cut, hgrows⟩, hlength, -⟩ := packResponse_grows h
  obtain ⟨q, hq, -⟩ := appended_questions hstart hw
  rw [hlength]
  exact hgrows.sound.fits.trans_eq (hgrows.limit_eq.trans hq.limit_eq)

theorem headerCode_recordInvariant (code : UInt16) : RecordInvariant fun w => HeaderCode w.out code where
  cut {w v} h _ _ := HeaderCode.setTruncatedFlag (w := { v with out := w.out }) h
  record {w v owner rdata} set h hname _ := by
    have hdomain := extends_writeDomain w owner
    rw [hname] at hdomain
    exact (h.extended hdomain).extended (extends_put v (recordBytes set rdata))

theorem HeaderCode.writeEDNS0 {code : UInt16} (h : HeaderCode w.out code) (m : Message) (res : Response) :
    HeaderCode (w.writeEDNS0 m res).1.out code := by
  rcases writeEDNS0_cases w m res with hnone | ⟨-, -, hopt⟩
  · rw [hnone]
    exact h
  · rw [hopt]
    exact h.extended (extends_put w _)

theorem packResponse_rcode {bufLen maxSize : ℕ}
    (h : packResponse m bufLen res maxSize = .ok bytes) : HeaderCode bytes (UInt16.ofNat res.rcode.code) := by
  obtain ⟨w, wa, wb, wc, a, b, c, hst⟩ := packResponse_stages h
  have hstart := headerCode_headerBytes m.header.id (responseFlags m res) (UInt16.ofNat m.questions.length)
  rw [responseFlags_rcode] at hstart
  have hextends := extends_writeQuestions (headerWriter m bufLen res maxSize) m.questions
  rw [hst.questions] at hextends
  have hI := headerCode_recordInvariant (UInt16.ofNat res.rcode.code)
  have hanswer := hI.answer (HeaderCode.extended hstart hextends) hst.answer
  have hlast := (hI.additional (hI.authority hanswer hst.authority) hst.additional).writeEDNS0 m res
  constructor
  · rw [hst.length_eq]
    exact hlast.whole
  · rw [hst.header]
    exact hlast.rcode

theorem packResponse_pos {bufLen maxSize : ℕ} (h : packResponse m bufLen res maxSize = .ok bytes) : 0 < bytes.length :=
  Nat.lt_of_lt_of_le (by decide) (packResponse_rcode h).whole

end Kdns.Wire
