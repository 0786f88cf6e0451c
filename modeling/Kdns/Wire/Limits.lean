import Kdns.Wire.Truncation

namespace Kdns.Wire

open ByteStream Dns CompressedName List

def PacketWriter.limited (w : PacketWriter) (limit : ℕ) : PacketWriter := { w with limit := limit }

variable {suffix : Bytes} {allow : Bool}

section Names

variable {w v : PacketWriter} {limit : ℕ}

theorem insert_limited (w : PacketWriter) (limit : ℕ) (domain : Bytes) :
    (w.limited limit).insert domain = (w.insert domain).limited limit := by
  unfold PacketWriter.insert
  rw [apply_ite (PacketWriter.limited · limit), apply_ite (PacketWriter.limited · limit)]
  rfl

theorem writeRoot_limited (h : w.writeRoot = (v, none)) (hv : v.offset ≤ limit) :
    (w.limited limit).writeRoot = (v.limited limit, none) := by
  obtain ⟨-, rfl⟩ := PacketWriter.writeRoot_ok h
  rw [put_offset, length_singleton] at hv
  exact if_neg (Nat.not_le.mpr hv)

theorem writeLabel_limited {label closing : Bytes} (h : w.writeLabel suffix label closing allow = (v, none))
    (hv : v.offset ≤ limit) : (w.limited limit).writeLabel suffix label closing allow = (v.limited limit, none) := by
  rcases writeLabel_ok h with ⟨rfl, rfl⟩ | ⟨hl, -, rfl⟩
  · rfl
  · rw [put_offset, labelled_offset, labelBytes_length] at hv
    have hshort : ¬ label.length > maxLabelLen := Nat.not_lt.mpr hl.length_le
    have hfit : ¬ (w.limited limit).offset + 1 + label.length + closing.length > (w.limited limit).limit := by
      change ¬ w.offset + 1 + label.length + closing.length > limit
      omega
    rw [PacketWriter.writeLabel, if_neg hshort, if_neg hl.nonempty, if_neg hfit, insert_limited,
      PacketWriter.labelled, put_put]
    cases allow <;> rfl

theorem writeSuffix_limited {fuel : ℕ} (h : writeSuffix allow fuel w suffix = (v, none))
    (hv : v.offset ≤ limit) : writeSuffix allow fuel (w.limited limit) suffix = (v.limited limit, none) := by
  induction fuel generalizing w suffix with
  | zero =>
    cases h
    rfl
  | succ fuel ih =>
    have hlookup : (w.limited limit).lookup suffix = w.lookup suffix := rfl
    rw [writeSuffix] at h ⊢
    rw [hlookup]
    cases hfound : (if allow then w.lookup suffix else none) with
    | some t =>
      rw [hfound] at h
      split_ifs at h
      · cases h
      · cases h
        rw [put_offset, bigEndian_length] at hv
        exact if_neg (Nat.not_lt.mpr hv)
    | none =>
      rw [hfound] at h
      cases hdot : suffix.idxOf? dotByte with
      | none =>
        rw [hdot] at h
        exact writeLabel_limited h hv
      | some i =>
        rw [hdot] at h
        dsimp only at h ⊢
        rcases hlabel : w.writeIntermediateLabel suffix (suffix.take i) allow with ⟨w₁, _ | e⟩
        · rw [hlabel] at h
          dsimp only at h
          -- what is left of the name only adds to the packet
          have hle : w₁.offset ≤ v.offset := by
            split_ifs at h
            · have hroot := (extends_nameStep.writeRoot w₁).offset_le
              rwa [h] at hroot
            · have hrest := (extends_nameStep.writeSuffix w₁ allow fuel (suffix.drop (i + 1))).offset_le
              rwa [h] at hrest
          rw [PacketWriter.writeIntermediateLabel, writeLabel_limited hlabel (hle.trans hv)]
          split_ifs at h ⊢
          · exact writeRoot_limited h hv
          · exact ih h
        · rw [hlabel] at h
          cases h

theorem writeDomain_limited {name : Bytes} (h : w.writeDomain name = (v, none)) (hv : v.offset ≤ limit) :
    (w.limited limit).writeDomain name = (v.limited limit, none) := by
  unfold PacketWriter.writeDomain PacketWriter.writeDomainCompressed at h ⊢
  split_ifs at h ⊢
  · cases h
  · exact writeRoot_limited h hv
  · exact writeSuffix_limited h hv

theorem writeQuestion_limited {q : Question} (h : w.writeQuestion q = (v, none)) (hv : v.offset ≤ limit) :
    (w.limited limit).writeQuestion q = (v.limited limit, none) := by
  obtain ⟨v', hname, -, rfl⟩ := writeQuestion_ok h
  rw [put_offset, questionTail_length] at hv
  rw [PacketWriter.writeQuestion, writeDomain_limited hname (by omega)]
  exact if_neg (Nat.not_lt.mpr hv)

theorem writeQuestions_limited {qs : List Question} (h : PacketWriter.writeQuestions qs w = (v, none))
    (hv : v.offset ≤ limit) : PacketWriter.writeQuestions qs (w.limited limit) = (v.limited limit, none) := by
  induction qs generalizing w with
  | nil =>
    cases h
    rfl
  | cons q qs ih =>
    obtain ⟨w₁, hq, h⟩ := writeQuestions_cons h
    have hle := (extends_writeQuestions w₁ qs).offset_le
    rw [h] at hle
    rw [PacketWriter.writeQuestions, writeQuestion_limited hq (hle.trans hv)]
    exact ih h

end Names

section Records

variable {w v : PacketWriter} {owner : Bytes} {set : RRSet} {rdatas : List Bytes} {count count' : UInt16} {limit : ℕ}

variable (ho : Writable owner)
include ho

theorem writeRecords_total (set : RRSet) (rdatas : List Bytes) (w : PacketWriter) (count : UInt16) :
    ∃ v count', writeRecords owner set rdatas w count = (v, .ok count') := by
  induction rdatas generalizing w count with
  | nil => exact ⟨w, count, rfl⟩
  | cons rdata rest ih =>
    rw [writeRecords]
    rcases hname : w.writeDomain owner with ⟨v, _ | e⟩
    · dsimp only
      split_ifs
      · exact ⟨_, _, rfl⟩
      · exact ⟨_, _, rfl⟩
      · apply ih
    · dsimp only
      rw [if_pos (writeDomain_error ho hname)]
      exact ⟨_, _, rfl⟩

theorem writeRecords_cut (set : RRSet) (rdata : Bytes) (rest : List Bytes) (count : UInt16)
    (hlimit : limit ≤ w.limit) (h : ∀ v, w.writeDomain owner = (v, none) → v.limit < v.offset + 10 + rdata.length) :
    ∃ v, writeRecords owner set (rdata :: rest) (w.limited limit) count = (v, .ok count) ∧
      v.out = w.setTruncatedFlag.out ∧ v.limit = limit := by
  have hsame := (extends_writeDomain (w.limited limit) owner).limit_eq
  rw [writeRecords]
  rcases hname : (w.limited limit).writeDomain owner with ⟨v, _ | e⟩
  · rw [hname] at hsame
    obtain ⟨front, back, closing, hwritten⟩ := writeDomainCompressed_written hname
    have hfits : v.offset ≤ limit := hwritten.fits.trans_eq hsame
    have hwide : w.writeDomain owner = (v.limited w.limit, none) :=
      writeDomain_limited (w := w.limited limit) hname (hfits.trans hlimit)
    have hlarge : w.limit < v.offset + 10 + rdata.length := h _ hwide
    dsimp only at hsame ⊢
    rw [if_pos (by rw [hsame]; exact hlimit.trans_lt hlarge)]
    exact ⟨_, rfl, rfl, hsame⟩
  · rw [hname] at hsame
    dsimp only at hsame ⊢
    rw [if_pos (writeDomain_error ho hname)]
    exact ⟨_, rfl, rfl, hsame⟩

theorem writeRecords_limited (hs : w.Sound) (hlimit : limit ≤ w.limit)
    (h : writeRecords owner set rdatas w count = (v, .ok count')) (hv : v.offset ≤ limit) :
    ∃ v', writeRecords owner set rdatas (w.limited limit) count = (v', .ok count') ∧ v'.out = v.out ∧ v'.limit = limit := by
  induction rdatas generalizing w count with
  | nil =>
    cases h
    exact ⟨_, rfl, rfl, rfl⟩
  | cons rdata rest ih =>
    have hcut := writeRecords_cut ho set rdata rest count hlimit
    rw [writeRecords] at h
    rcases hname : w.writeDomain owner with ⟨w₁, _ | e⟩
    · rw [hname] at h hcut
      dsimp only at h
      by_cases hfit : w₁.offset + 10 + rdata.length > w₁.limit
      · rw [if_pos hfit] at h
        cases h
        apply hcut
        rintro v hv'
        cases hv'
        exact hfit
      · rw [if_neg hfit] at h
        obtain ⟨o, -, happended⟩ := appended_name hs hname
        have hsound : Appended w₁ (w₁.put (recordBytes set rdata)) (recordBytes set rdata) False := by
          apply appended_put happended.sound
          rw [recordBytes_length]
          omega
        -- the records behind this one only add to the packet
        have hle : (w₁.put (recordBytes set rdata)).offset ≤ v.offset := by
          split_ifs at h
          · cases h
            exact le_rfl
          · have hgrows : Grows (w₁.put (recordBytes set rdata)) v :=
              (grows_recordInvariant _).records (.refl hsound.sound) h
            exact hgrows.offset_le hsound.sound
        have hroom := hle.trans hv
        rw [put_offset, recordBytes_length] at hroom
        rw [writeRecords, writeDomain_limited hname (by omega)]
        dsimp only
        rw [if_neg (by change ¬ w₁.offset + 10 + rdata.length > limit; omega)]
        split_ifs at h ⊢
        · cases h
          exact ⟨_, rfl, rfl, rfl⟩
        · exact ih hsound.sound (hlimit.trans_eq happended.limit_eq.symm) h
    · rw [hname] at h hcut
      dsimp only at h
      split_ifs at h
      · cases h
        apply hcut
        intro v hv'
        cases hv'
      · cases h

end Records

def SingleSet (f : PacketWriter → PacketWriter × Except WireError UInt16) : Prop :=
  (∀ w, f w = (w, .ok 0)) ∨ ∃ owner set, Writable owner ∧ ∀ w, f w = w.writeRRSet owner set

section SingleSets

variable {f : PacketWriter → PacketWriter × Except WireError UInt16} {w v : PacketWriter} {count : UInt16} {limit : ℕ}

theorem SingleSet.total (h : SingleSet f) (w : PacketWriter) : ∃ v count, f w = (v, .ok count) := by
  rcases h with h | ⟨owner, set, ho, h⟩
  · exact ⟨w, 0, h w⟩
  · rw [h]
    exact writeRecords_total ho set set.rdata w 0

theorem SingleSet.grows (h : SingleSet f) (hs : w.Sound) (hw : f w = (v, .ok count)) : Grows w v := by
  rcases h with h | ⟨owner, set, -, h⟩
  · rw [h] at hw
    cases hw
    exact .refl hs
  · rw [h] at hw
    exact (grows_recordInvariant w).records (.refl hs) hw

theorem SingleSet.limited (h : SingleSet f) (hs : w.Sound) (hlimit : limit ≤ w.limit) (hw : f w = (v, .ok count))
    (hv : v.offset ≤ limit) : ∃ v', f (w.limited limit) = (v', .ok count) ∧ v'.out = v.out ∧ v'.limit = limit := by
  rcases h with h | ⟨owner, set, ho, h⟩
  · rw [h] at hw
    cases hw
    exact ⟨_, h _, rfl, rfl⟩
  · rw [h] at hw ⊢
    exact writeRecords_limited ho hs hlimit hw hv

end SingleSets

structure Repeatable (m : Message) : Prop where
  few : m.questions.length ≤ maxQuestions
  named : ∀ q ∈ m.questions, q.name.length < maxNameLen ∧ Segmented q.name

structure Plain (r : Result) : Prop where
  single : r.hasAnswer = false ∨ r.hasAuthority = false
  answer : r.rcode = .success ∨ r.answer = .empty
  owner : Writable r.authorityName

section Results

variable {m : Message} {r : Result} {w v : PacketWriter} {bytes : Bytes} {limit : ℕ}

theorem Repeatable.writable (hm : Repeatable m) {q : Question} (hq : q ∈ m.questions) : Writable q.name :=
  ⟨(hm.named q hq).1.le, (hm.named q hq).2⟩

theorem answer_singleSet (hm : Repeatable m) (r : Result) : SingleSet (writeAnswerSection m (.ofResult r)) := by
  unfold writeAnswerSection
  cases hq : m.questions with
  | nil => exact .inl fun _ => rfl
  | cons q qs =>
    have hfirst : Writable q.name := hm.writable (hq ▸ mem_cons_self)
    by_cases hyes : (Response.ofResult r).rcode = .success ∧ (Response.ofResult r).hasAnswer = true
    · right
      refine ⟨q.name, r.answer, hfirst, fun w => ?_⟩
      simp only [if_pos hyes]
      rw [show (m.wantsDNSSEC && (Response.ofResult r).hasAnswerRRSIG) = false from Bool.and_false _]
      exact writeSigned_unsigned w q.name r.answer _
    · left
      intro w
      exact if_neg hyes

theorem authority_singleSet (hm : Repeatable m) (hr : Plain r) : SingleSet (writeAuthoritySection m (.ofResult r)) := by
  unfold writeAuthoritySection
  cases hq : m.questions with
  | nil => exact .inl fun _ => rfl
  | cons q qs =>
    have hfirst : Writable q.name := hm.writable (hq ▸ mem_cons_self)
    by_cases hyes : (Response.ofResult r).hasAuthority = true
    · right
      refine ⟨if r.authorityName = [] then q.name else r.authorityName, r.authority, ?_, fun w => ?_⟩
      · split_ifs
        · exact hfirst
        · exact hr.owner
      · simp only [if_pos hyes]
        rw [show (m.wantsDNSSEC && (Response.ofResult r).hasAuthorityRRSIG) = false from Bool.and_false _]
        exact writeSigned_unsigned w _ r.authority _
    · left
      intro w
      exact if_neg hyes

theorem writeAdditionalSection_ofResult (m : Message) (r : Result) (w : PacketWriter) :
    writeAdditionalSection m (.ofResult r) w = (w, .ok 0) := by
  unfold writeAdditionalSection
  split
  · exact if_neg fun h => by cases h.2
  · rfl

theorem writeSections_total (hm : Repeatable m) (hr : Plain r) (w : PacketWriter) :
    ∃ bytes, writeSections m (.ofResult r) w = .ok bytes := by
  obtain ⟨wa, a, ha⟩ := (answer_singleSet hm r).total w
  obtain ⟨wb, b, hb⟩ := (authority_singleSet hm hr).total wa
  unfold writeSections
  rw [ha]
  dsimp only
  rw [hb]
  dsimp only
  rw [writeAdditionalSection_ofResult]
  exact ⟨_, rfl⟩

theorem writeEDNS0_limited (m : Message) (res : Response) (hout : v.out = w.out) (hv : v.limit = limit)
    (hlimit : limit ≤ w.limit) (hfit : (w.writeEDNS0 m res).1.offset ≤ limit) :
    (v.writeEDNS0 m res).1.out = (w.writeEDNS0 m res).1.out ∧ (v.writeEDNS0 m res).2 = (w.writeEDNS0 m res).2 := by
  have hoffset : v.offset = w.offset := congrArg List.length hout
  unfold PacketWriter.writeEDNS0 at hfit ⊢
  rw [hoffset, hv]
  by_cases hnone : m.edns0Size = 0
  · rw [if_pos hnone, if_pos hnone]
    exact ⟨hout, rfl⟩
  rw [if_neg hnone] at hfit
  rw [if_neg hnone, if_neg hnone]
  by_cases hfull : w.offset + 11 > w.limit
  · grind
  · rw [if_neg hfull] at hfit ⊢
    rw [put_offset, length_append, length_append, length_append, length_cons, bigEndian_length,
      bigEndian_length, bigEndian_length, bigEndian_length] at hfit
    rw [if_neg (by omega)]
    simp only [PacketWriter.put, hout, and_self]

theorem writeSections_limited (hm : Repeatable m) (hr : Plain r) (hs : w.Sound) (hlimit : limit ≤ w.limit)
    (h : writeSections m (.ofResult r) w = .ok bytes) (hlen : bytes.length ≤ limit) :
    writeSections m (.ofResult r) (w.limited limit) = .ok bytes := by
  obtain ⟨wa, wb, wc, a, b, c, ha, hb, hc, rfl⟩ := writeSections_ok h
  have hanswer := answer_singleSet hm r
  have hauthority := authority_singleSet hm hr
  rw [writeAdditionalSection_ofResult] at hc
  cases hc
  have hga := hanswer.grows hs ha
  have hgb := hauthority.grows hga.sound hb
  have hgo := grows_writeEDNS0 hgb.sound m (.ofResult r)
  rw [(updateCounts_body hgo.sound _ _ _).1] at hlen
  have hbo := hgo.offset_le hgb.sound
  have hlimits := hga.limit_eq
  have hlimits' := hgb.limit_eq
  -- one of the two sections is empty, the other starts where the questions end
  obtain ⟨va, vb, hva, hvb, hout, hvlimit⟩ : ∃ va vb, writeAnswerSection m (.ofResult r) (w.limited limit) = (va, .ok a) ∧
      writeAuthoritySection m (.ofResult r) va = (vb, .ok b) ∧ vb.out = wb.out ∧ vb.limit = limit := by
    rcases hr.single with hnone | hnone
    · have hskip : ∀ w, writeAnswerSection m (.ofResult r) w = (w, .ok 0) := by
        intro w
        unfold writeAnswerSection
        split
        · exact if_neg fun h => by rw [show (Response.ofResult r).hasAnswer = false from hnone] at h; cases h.2
        · rfl
      rw [hskip] at ha
      cases ha
      obtain ⟨vb, hvb, hrest⟩ := hauthority.limited hs hlimit hb (hbo.trans hlen)
      exact ⟨_, vb, hskip _, hvb, hrest⟩
    · have hskip : ∀ w, writeAuthoritySection m (.ofResult r) w = (w, .ok 0) := by
        intro w
        unfold writeAuthoritySection
        split
        · exact if_neg fun h => by rw [show (Response.ofResult r).hasAuthority = false from hnone] at h; cases h
        · rfl
      rw [hskip] at hb
      cases hb
      obtain ⟨va, hva, hrest⟩ := hanswer.limited hs hlimit ha (hbo.trans hlen)
      exact ⟨va, va, hva, hskip _, hrest⟩
  obtain ⟨hopt, hcount⟩ := writeEDNS0_limited m (.ofResult r) hout hvlimit (by omega) hlen
  rw [writeSections, hva]
  dsimp only
  rw [hvb]
  dsimp only
  rw [writeAdditionalSection_ofResult]
  dsimp only
  rw [PacketWriter.updateCounts, PacketWriter.updateCounts, hopt, hcount]

theorem packResponse_of_ok {bufLen maxSize : ℕ} {res : Response} (hfew : m.questions.length ≤ maxQuestions)
    (hheader : headerSize ≤ min maxSize bufLen)
    (hw : (headerWriter m bufLen res maxSize).writeQuestions m.questions = (w, none)) :
    packResponse m bufLen res maxSize = writeSections m res w := by
  unfold headerWriter at hw
  unfold packResponse
  rw [if_neg (Nat.not_lt.mpr hfew)]
  dsimp only
  rw [if_neg (Nat.not_lt.mpr hheader), hw]

def questionRoom : ℕ := 260

theorem written_writeQuestions {qs : List Question} (hqs : ∀ q ∈ qs, q.name.length < maxNameLen ∧ Segmented q.name)
    (hfit : w.offset + questionRoom * qs.length ≤ w.limit) :
    Written w (questionRoom * qs.length) (PacketWriter.writeQuestions qs w) := by
  induction qs generalizing w with
  | nil => exact ⟨rfl, rfl, Nat.le_add_right _ _⟩
  | cons q qs ih =>
    obtain ⟨⟨hlen, hseg⟩, hrest⟩ := forall_mem_cons.mp hqs
    have hnames : maxNameLen = 255 := rfl
    have hroom : questionRoom = 260 := rfl
    rw [length_cons, Nat.mul_succ] at hfit ⊢
    have hquestion : Written w (q.name.length + 6) (w.writeQuestion q) := written_writeQuestion hlen.le hseg (by omega)
    rw [PacketWriter.writeQuestions]
    generalize w.writeQuestion q = x at hquestion ⊢
    rcases x with ⟨w₁, _ | e⟩
    · have hlimit : w₁.limit = w.limit := hquestion.2.1
      have hoffset : w₁.offset ≤ w.offset + (q.name.length + 6) := hquestion.2.2
      apply (hquestion.next (ih hrest (by omega))).mono
      omega
    · cases hquestion.1

theorem packResponse_total (hm : Repeatable m) (hr : Plain r) {bufLen maxSize : ℕ}
    (hroom : headerSize + questionRoom * maxQuestions ≤ min maxSize bufLen) :
    ∃ bytes, packResponse m bufLen (.ofResult r) maxSize = .ok bytes := by
  have hfew := hm.few
  have hquestions : questionRoom * m.questions.length ≤ questionRoom * maxQuestions := Nat.mul_le_mul_left _ hfew
  have hoffset : (headerWriter m bufLen (.ofResult r) maxSize).offset = headerSize := by rfl
  have hlimit : (headerWriter m bufLen (.ofResult r) maxSize).limit = min maxSize bufLen := rfl
  have hwritten := written_writeQuestions (w := headerWriter m bufLen (.ofResult r) maxSize) hm.named (by omega)
  rcases hw : (headerWriter m bufLen (.ofResult r) maxSize).writeQuestions m.questions with ⟨w, _ | e⟩
  · rw [packResponse_of_ok hfew (by omega) hw]
    exact writeSections_total hm hr w
  · rw [hw] at hwritten
    cases hwritten.1

theorem packResponse_limited (hm : Repeatable m) (hr : Plain r) {bufLen bufLen' maxSize maxSize' : ℕ}
    (hle : min maxSize bufLen ≤ min maxSize' bufLen') (h : packResponse m bufLen' (.ofResult r) maxSize' = .ok bytes)
    (hlen : bytes.length ≤ min maxSize bufLen) : packResponse m bufLen (.ofResult r) maxSize = .ok bytes := by
  obtain ⟨hfew, hheader, w, hw, hsections⟩ := packResponse_ok h
  obtain ⟨w', w'', hstart, hw', hgrown, hbytes, -⟩ := packResponse_grows h
  obtain rfl : w' = w := congrArg Prod.fst (hw'.symm.trans hw)
  obtain ⟨q, hq, -⟩ := appended_questions hstart hw
  have hsound := hq.sound
  have hoffset : w'.offset ≤ bytes.length := (hgrown.offset_le hsound).trans_eq hbytes.symm
  have hbehind := hsound.header
  have hlimit : min maxSize bufLen ≤ w'.limit := hle.trans_eq hq.limit_eq.symm
  have hquestions : (headerWriter m bufLen (.ofResult r) maxSize).writeQuestions m.questions =
      (w'.limited (min maxSize bufLen), none) :=
    writeQuestions_limited (w := headerWriter m bufLen' (.ofResult r) maxSize') hw (by omega)
  rw [packResponse_of_ok hfew (by omega) hquestions]
  exact writeSections_limited hm hr hsound hlimit hsections hlen

def packedSize (m : Message) (bufLen : ℕ) (res : Response) (maxSize : ℕ) : ℕ :=
  match packResponse m bufLen res maxSize with
  | .ok bytes => bytes.length
  | .error _ => 0

theorem packResponse_same_iff (hm : Repeatable m) (hr : Plain r) {bufLen bufLen' maxSize maxSize' : ℕ}
    (hle : min maxSize bufLen ≤ min maxSize' bufLen')
    (hroom : headerSize + questionRoom * maxQuestions ≤ min maxSize' bufLen') :
    (packResponse m bufLen (.ofResult r) maxSize).toOption = (packResponse m bufLen' (.ofResult r) maxSize').toOption ↔
      packedSize m bufLen' (.ofResult r) maxSize' ≤ min maxSize bufLen := by
  obtain ⟨bytes, hbytes⟩ := packResponse_total hm hr hroom
  rw [packedSize, hbytes]
  constructor
  · intro h
    cases hsmall : packResponse m bufLen (.ofResult r) maxSize with
    | error e =>
      rw [hsmall] at h
      cases h
    | ok bytes' =>
      rw [hsmall] at h
      cases h
      exact packResponse_length hsmall
  · intro h
    rw [packResponse_limited hm hr hle hbytes h]

end Results

theorem unpack_repeatable (p : Bytes) : Repeatable (unpack p).1 := ⟨unpack_length_le p, unpack_named p⟩

end Kdns.Wire
