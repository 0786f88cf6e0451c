import Kdns.Wire.Decoded
import Kdns.Wire.Served

namespace Kdns.Wire

open ByteStream Dns CompressedName List

section Truncating

/-- The loop of `TruncateToSlip` over the labels of the first name. Every round goes further, so that the length of the
payload is enough fuel. -/
def questionEnd (payload : Bytes) : ℕ → ℕ → ℕ
  | 0, offset => offset
  | fuel + 1, offset =>
    match payload[offset]? with
    | none => offset
    | some lenByte =>
      if lenByte = 0 then offset + 1
      else if lenByte.toNat ≥ pointerMask then offset + 2
      else questionEnd payload fuel (offset + 1 + lenByte.toNat)

def slipHeader (payload : Bytes) : Bytes :=
  putUint16 (putUint16 (putUint16 (putUint16 payload 2 (uint16At payload 2 ||| 0x0200)) 6 0) 8 0) 10 0

def truncateToSlip (buf : Bytes) (written : ℕ) : Bytes × ℕ :=
  if buf.length < headerSize ∨ written < headerSize ∨ written > buf.length then (buf, written)
  else
    let payload := slipHeader (buf.take written)
    let offset := questionEnd payload payload.length headerSize + 4
    (payload ++ buf.drop written, if offset ≤ payload.length then offset else headerSize)

def slipOf (buf : Bytes) (written : ℕ) : Bytes := (truncateToSlip buf written).1.take (truncateToSlip buf written).2

end Truncating

section Scan

variable {p : Bytes} {ls : List Bytes} {fuel i : ℕ}

theorem questionEnd_labels (hls : ∀ l ∈ ls, IsLabel l) (h : encodeLabels ls ++ [0] <+: p.drop i) (hfuel : ls.length < fuel) :
    questionEnd p fuel i = i + (encodeLabels ls).length + 1 := by
  induction ls generalizing fuel i with
  | nil =>
    obtain ⟨fuel, rfl⟩ := Nat.exists_eq_add_of_lt hfuel
    rw [length_nil, Nat.zero_add, questionEnd, getElem?_of_isPrefix h]
    rfl
  | cons l ls ih =>
    obtain ⟨fuel, rfl⟩ := Nat.exists_eq_add_of_lt hfuel
    obtain ⟨hl, hrest⟩ := forall_mem_cons.mp hls
    obtain ⟨hlength, hpos⟩ := hl.head
    have hle := hl.length_le
    rw [encodeLabels_cons, append_assoc] at h
    have hbehind : encodeLabels ls ++ [0] <+: p.drop (i + 1 + l.length) := by
      obtain ⟨post, hpost⟩ := h
      refine ⟨post, ?_⟩
      rw [Nat.add_assoc, ← drop_drop, ← hpost, append_assoc (labelBytes l), ← labelBytes_length, drop_left]
    have hzero : UInt8.ofNat l.length ≠ 0 := by
      intro hzero
      rw [hzero] at hlength
      exact hpos.ne hlength
    have hmask : ¬l.length ≥ pointerMask := by
      have hmask : pointerMask = 192 := rfl
      omega
    rw [questionEnd, getElem?_of_isPrefix h]
    dsimp only
    rw [if_neg hzero, hlength, if_neg hmask, ih hrest hbehind (by rw [length_cons]; omega), encodeLabels_cons,
      length_append, labelBytes_length]
    omega

end Scan

variable {name p : Bytes} {res : Response}

section Spelling

theorem dotted_dropLast (ls : List Bytes) : (dotted ls).dropLast = [dotByte].intercalate ls := by
  induction ls with
  | nil => rfl
  | cons l ls ih =>
    cases ls with
    | nil => simp [dotted]
    | cons l' ls => rw [dotted_dropLast_cons, ih, intercalate_cons_cons, append_assoc, singleton_append]

theorem nameLabels_of_nonempty (h : [] ∉ name.splitOn dotByte) : nameLabels name = name.splitOn dotByte := by
  apply filter_eq_self.mpr
  intro l hl
  exact decide_eq_true fun hnil => h (hnil ▸ hl)

theorem spelled_eq_iff (name : Bytes) : spelled name = name ↔ name = [] ∨ [] ∉ name.splitOn dotByte := by
  rw [spelled, dotted_dropLast]
  constructor
  · intro h
    by_cases hnil : nameLabels name = []
    · rw [hnil] at h
      exact .inl h.symm
    · right
      have hsplit := splitOn_intercalate dotByte (fun _ hl => nameLabels_no_dot hl) hnil
      rw [h] at hsplit
      rw [hsplit]
      intro hmem
      exact absurd rfl (of_decide_eq_true (mem_filter.mp hmem).2)
  · rintro (rfl | h)
    · rfl
    · rw [nameLabels_of_nonempty h, intercalate_splitOn]

theorem unpackDomainName_wireName {i : ℕ} (hseg : Segmented name) (hname : name = [] ∨ [] ∉ name.splitOn dotByte)
    (hlen : name.length < maxNameLen) (hp : wireName name <+: p.drop i) :
    unpackDomainName p i = .ok (name, i + (wireName name).length) := by
  have hlabels : ∀ l ∈ nameLabels name, IsLabel l := by
    intro l hl
    obtain ⟨hmem, hne⟩ := mem_filter.mp hl
    exact ⟨of_decide_eq_true hne, hseg l hmem⟩
  have hshort : (dotted (nameLabels name)).length ≤ maxNameLen := by
    have hle := dotted_nameLabels_length name
    omega
  rw [unpackDomainName_of_nameAt (nameAt_wireName hlabels hp) (Nat.zero_le _) hshort]
  congr 2
  exact (spelled_eq_iff name).mpr hname

theorem encodeLabels_of_segmented (h : Segmented name) :
    (name.splitOn dotByte).flatMap (fun label => UInt8.ofNat (min label.length maxLabelLen) :: label.take maxLabelLen) =
      encodeLabels (name.splitOn dotByte) := by
  apply flatMap_congr
  intro label hl
  have hle := h label hl
  rw [min_eq_left hle, take_of_length_le hle, labelBytes]

end Spelling

section Header

structure Stamped (bytes : Bytes) (id count : UInt16) : Prop where
  whole : headerSize ≤ bytes.length
  id : uint16At bytes 0 = id
  count : uint16At bytes 4 = count

variable {bytes : Bytes} {id count : UInt16}

theorem Stamped.append (h : Stamped bytes id count) (more : Bytes) : Stamped (bytes ++ more) id count := by
  have hlen := h.whole
  have hsize : headerSize = 12 := rfl
  refine ⟨?_, ?_, ?_⟩
  · rw [length_append]
    omega
  · rw [uint16At_append (by omega), h.id]
  · rw [uint16At_append (by omega), h.count]

theorem Stamped.put (h : Stamped bytes id count) {i : ℕ} (hi : i = 2 ∨ 6 ≤ i) (hlen : i + 2 ≤ headerSize) (v : UInt16) :
    Stamped (putUint16 bytes i v) id count := by
  have hwhole := h.whole
  refine ⟨?_, ?_, ?_⟩
  · rw [putUint16_length (by omega)]
    exact hwhole
  · rw [uint16At_putUint16_before (by omega) (by omega), h.id]
  · obtain rfl | hi := hi
    · rw [uint16At_putUint16_after (by omega) (by omega), h.count]
    · rw [uint16At_putUint16_before (by omega) (by omega), h.count]

theorem stamped_headerBytes (id flags count : UInt16) : Stamped (headerBytes id flags count) id count := by
  refine ⟨?_, ?_, headerBytes_questions id flags count⟩
  · simp [headerBytes, headerSize]
  · simp only [headerBytes, append_assoc]
    exact uint16At_bigEndian id _

theorem Stamped.extended {w w' : PacketWriter} (h : Stamped w.out id count) (hw : w.Extends w') : Stamped w'.out id count := by
  obtain ⟨more, hmore⟩ := hw.out_eq
  rw [hmore]
  exact h.append more

theorem stamped_recordInvariant (id count : UInt16) : RecordInvariant fun w => Stamped w.out id count where
  cut h _ _ := Stamped.put h (.inl rfl) (by decide) _
  record {w v owner rdata} set h hname _ := by
    have hdomain := extends_writeDomain w owner
    rw [hname] at hdomain
    exact (h.extended hdomain).extended (extends_put v (recordBytes set rdata))

theorem packResponse_stamped {m : Message} {bufLen maxSize : ℕ} (h : packResponse m bufLen res maxSize = .ok bytes) :
    Stamped bytes m.header.id (UInt16.ofNat m.questions.length) := by
  obtain ⟨w, wa, wb, wc, a, b, c, hst⟩ := packResponse_stages h
  have hextends := extends_writeQuestions (headerWriter m bufLen res maxSize) m.questions
  rw [hst.questions] at hextends
  have hI := stamped_recordInvariant m.header.id (UInt16.ofNat m.questions.length)
  have hquestions := Stamped.extended (w := headerWriter m bufLen res maxSize) (stamped_headerBytes _ _ _) hextends
  have hlast := hI.additional (hI.authority (hI.answer hquestions hst.answer) hst.authority) hst.additional
  have hopt : Stamped (wc.writeEDNS0 m res).1.out m.header.id (UInt16.ofNat m.questions.length) := by
    obtain hnone | ⟨-, -, hopt⟩ := writeEDNS0_cases wc m res
    · rw [hnone]
      exact hlast
    · rw [hopt]
      exact hlast.extended (extends_put wc _)
  refine ⟨?_, ?_, ?_⟩
  · rw [hst.length_eq]
    exact hopt.whole
  · exact (congrArg Header.id hst.header).trans hopt.id
  · exact (congrArg Header.qdCount hst.header).trans hopt.count

theorem slipHeader_eq (bytes : Bytes) :
    slipHeader bytes = ((PacketWriter.mk bytes.length bytes []).setTruncatedFlag.updateCounts 0 0 0).out := rfl

variable (hlen : headerSize ≤ bytes.length)
include hlen

theorem sound_setTruncatedFlag : (PacketWriter.mk bytes.length bytes []).setTruncatedFlag.Sound := by
  have hsize : headerSize = 12 := rfl
  have hlength : (putUint16 bytes 2 (uint16At bytes 2 ||| 0x0200)).length = bytes.length := putUint16_length (by omega) _
  exact ⟨hlen.trans_eq hlength.symm, hlength.le, forall_mem_nil _⟩

theorem slipHeader_header : decodeHeader (slipHeader bytes) = { decodeHeader bytes with
      flags := uint16At bytes 2 ||| 0x0200, anCount := 0, nsCount := 0, arCount := 0 } := by
  have hsize : headerSize = 12 := rfl
  rw [slipHeader_eq, updateCounts_header (sound_setTruncatedFlag hlen)]
  simp only [decodeHeader, PacketWriter.setTruncatedFlag]
  rw [uint16At_putUint16_before (by omega) (by omega), uint16At_putUint16 (by omega),
    uint16At_putUint16_after (by omega) (by omega)]

theorem slipHeader_body :
    (slipHeader bytes).length = bytes.length ∧ (slipHeader bytes).drop headerSize = bytes.drop headerSize := by
  have hsize : headerSize = 12 := rfl
  have htwo : 2 + 2 ≤ bytes.length := by omega
  obtain ⟨hlength, hbody⟩ := updateCounts_body (sound_setTruncatedFlag hlen) 0 0 0
  rw [slipHeader_eq, hlength, hbody]
  exact ⟨putUint16_length htwo _, putUint16_drop (by decide) hlen _⟩

end Header

section FirstQuestion

variable {m : Message} {q : Question} {qs : List Question} {bytes : Bytes}

theorem first_question (hq : m.questions = q :: qs) {bufLen maxSize : ℕ}
    (h : packResponse m bufLen res maxSize = .ok bytes) :
    (∀ l ∈ nameLabels q.name, IsLabel l) ∧ wireName q.name ++ questionTail q <+: bytes.drop headerSize := by
  obtain ⟨w, w', hstart, hw, ⟨more, cut, hgrows⟩, -, hbody⟩ := packResponse_grows h
  rw [hq] at hw
  obtain ⟨w₁, hfirst, hw⟩ := writeQuestions_cons hw
  obtain ⟨o, tail, -, -, hquestion⟩ := appended_question hstart hfirst
  obtain ⟨rest, hrest, -⟩ := appended_questions hquestion.sound hw
  have hall := (hrest.trans hgrows).body
  obtain ⟨v, hname, -, rfl⟩ := writeQuestion_ok hfirst
  obtain ⟨front, back, closing, hn⟩ := writeDomainCompressed_written hname
  obtain ⟨rfl, rfl⟩ | ⟨s, t, rest', hmem, -⟩ := hn.closed
  · have hlabels := hn.labels_eq
    rw [append_nil] at hlabels
    refine ⟨hlabels ▸ hn.front_labels, ?_⟩
    have hout : (v.put (questionTail q)).out.drop headerSize = wireName q.name ++ questionTail q := by
      have hheader : headerSize = (headerWriter m bufLen res maxSize).out.length := by
        simp [headerWriter, headerBytes, headerSize]
      rw [PacketWriter.put, hn.out_eq, hheader, append_assoc, drop_left, wireName, hlabels]
    rw [hbody, hall, ← hout]
    exact prefix_append _ _
  · exact absurd hmem not_mem_nil

theorem decodeQuestion_ok {i j : ℕ} (h : decodeQuestion p i = .ok (q, j)) :
    ∃ k, unpackDomainName p i = .ok (q.name, k) ∧ k + 4 ≤ p.length ∧ q.type = uint16At p k ∧ q.type ≠ typeOPT ∧
      q.rrClass = uint16At p (k + 2) ∧ j = k + 4 := by
  obtain ⟨⟨name, k⟩, hname, h⟩ := Fallible.bind_ok h
  obtain ⟨hfit, h⟩ := Fallible.of_guard h
  obtain ⟨hopt, h⟩ := Fallible.of_guard h
  cases h
  exact ⟨k, hname, Nat.le_of_not_lt hfit, rfl, hopt, rfl, rfl⟩

theorem decodeQuestions_types (p : Bytes) (n i : ℕ) : ∀ q ∈ (decodeQuestions p n i).1, q.type ≠ typeOPT := by
  induction n generalizing i with
  | zero => exact forall_mem_nil _
  | succ n ih =>
    rw [decodeQuestions]
    cases hq : decodeQuestion p i with
    | error e => exact forall_mem_nil _
    | ok r =>
      obtain ⟨k, -, -, -, hopt, -⟩ := decodeQuestion_ok hq
      exact forall_mem_cons.mpr ⟨hopt, ih r.2⟩

theorem decodeQuestion_of {i k : ℕ} (hname : unpackDomainName p i = .ok (name, k)) (hfit : k + 4 ≤ p.length)
    (hopt : uint16At p k ≠ typeOPT) : decodeQuestion p i = .ok (⟨name, uint16At p k, uint16At p (k + 2)⟩, k + 4) := by
  unfold decodeQuestion
  rw [hname]
  simp only [bind, Except.bind, pure, Except.pure, throw, throwThe, MonadExceptOf.throw]
  rw [if_neg (Nat.not_lt.mpr hfit), if_neg hopt]

theorem decodeQuestion_end (p : Bytes) : ∃ e, decodeQuestion p p.length = .error e := by
  cases hq : decodeQuestion p p.length with
  | error e => exact ⟨e, rfl⟩
  | ok r =>
    obtain ⟨k, hname, -⟩ := decodeQuestion_ok hq
    obtain ⟨ls, j, hat, -⟩ := unpackDomainName_nameAt hname
    exact absurd hat.bounds (by omega)

end FirstQuestion

section Slips

variable {packet : Bytes} {m : Message} {q : Question} {qs : List Question} {bytes : Bytes}

structure OneQuestion (p : Bytes) (q : Question) : Prop where
  labels : ∀ l ∈ nameLabels q.name, IsLabel l
  body : p.drop headerSize = wireName q.name ++ questionTail q
  short : q.name.length < maxNameLen
  type : q.type ≠ typeOPT

theorem OneQuestion.decode (h : OneQuestion p q) :
    decodeQuestion p headerSize = .ok (⟨spelled q.name, q.type, q.rrClass⟩, p.length) := by
  have hat := nameAt_wireName h.labels (show wireName q.name <+: p.drop headerSize from ⟨_, h.body.symm⟩)
  have hshort := dotted_nameLabels_length q.name
  have hlt := h.short
  have hname := unpackDomainName_of_nameAt hat (Nat.zero_le _) (by omega)
  have htail : p.drop (headerSize + (wireName q.name).length) = questionTail q := by
    rw [← drop_drop, h.body, drop_left]
  have hlength : p.length = headerSize + (wireName q.name).length + 4 := by
    have hlength := congrArg List.length htail
    rw [length_drop, questionTail_length] at hlength
    omega
  have htype : uint16At p (headerSize + (wireName q.name).length) = q.type :=
    uint16At_eq (by rw [htail]; exact prefix_append _ _)
  have hclass : uint16At p (headerSize + (wireName q.name).length + 2) = q.rrClass := by
    apply uint16At_eq
    exact ⟨[], by rw [append_nil, ← drop_drop, htail, questionTail, drop_left' (bigEndian_length 2 _)]⟩
  rw [decodeQuestion_of hname hlength.ge (htype ▸ h.type), htype, hclass, hlength]
  rfl

structure ValidSlip (m : Message) (n : ℕ) (slip : Bytes × ℕ) : Prop where
  size : headerSize < slip.2 ∧ slip.2 ≤ n
  accepted : ∃ m', unpack (slip.1.take slip.2) = (m', none) ∧ m'.header.id = m.header.id ∧ m'.questions = m.questions
  truncated : Truncated (slip.1.take slip.2)
  empty : (decodeHeader (slip.1.take slip.2)).anCount = 0 ∧ (decodeHeader (slip.1.take slip.2)).nsCount = 0 ∧
    (decodeHeader (slip.1.take slip.2)).arCount = 0
  whole : (decodeQuestions (slip.1.take slip.2) (decodeHeader (slip.1.take slip.2)).qdCount.toNat headerSize).2 = .ok slip.2

theorem truncateToSlip_response {bufLen maxSize : ℕ} (hm : unpack packet = (m, none)) (hq : m.questions = q :: qs)
    (h : packResponse m bufLen res maxSize = .ok bytes) (rest : Bytes) :
    ∃ p, truncateToSlip (bytes ++ rest) bytes.length = (slipHeader bytes ++ rest, p.length) ∧
      (slipHeader bytes ++ rest).take p.length = p ∧ OneQuestion p q ∧ headerSize < p.length ∧ p.length ≤ bytes.length ∧
      decodeHeader p = ⟨m.header.id, uint16At bytes 2 ||| 0x0200, UInt16.ofNat m.questions.length, 0, 0, 0⟩ := by
  obtain ⟨hwhole, hid, hcount⟩ := packResponse_stamped h
  obtain ⟨hlabels, hfirst⟩ := first_question hq h
  obtain ⟨hlength, hbody⟩ := slipHeader_body hwhole
  have hmem : q ∈ (unpack packet).1.questions := by
    rw [hm, hq]
    exact mem_cons_self
  have hend := length_le_of_isPrefix_drop hfirst (by simp [wireName])
  rw [length_append, questionTail_length] at hend
  have hcut : headerSize + (wireName q.name ++ questionTail q).length ≤ (slipHeader bytes).length := by
    rw [hlength, length_append, questionTail_length]
    exact hend
  have htaken := length_take_of_le hcut
  have hscan : questionEnd (slipHeader bytes) (slipHeader bytes).length headerSize + 4 =
      headerSize + (wireName q.name ++ questionTail q).length := by
    have hname : encodeLabels (nameLabels q.name) ++ [0] <+: (slipHeader bytes).drop headerSize := by
      rw [hbody]
      exact (prefix_append _ _).trans hfirst
    have hmany := encodeLabels_length_ge (nameLabels q.name)
    have hlen : (wireName q.name).length = (encodeLabels (nameLabels q.name)).length + 1 := length_append
    rw [length_append, questionTail_length] at hcut ⊢
    rw [questionEnd_labels hlabels hname (by omega), hlen]
    omega
  refine ⟨(slipHeader bytes).take (headerSize + (wireName q.name ++ questionTail q).length), ?_, ?_, ?_, ?_, ?_, ?_⟩
  · have hfits : ¬((bytes ++ rest).length < headerSize ∨ bytes.length < headerSize ∨ bytes.length > (bytes ++ rest).length) := by
      rw [length_append]
      omega
    rw [truncateToSlip, if_neg hfits]
    dsimp only
    rw [take_left, drop_left, hscan, if_pos hcut, htaken]
  · rw [htaken, take_append_of_le_length hcut]
  · refine ⟨hlabels, ?_, (unpack_named packet q hmem).1, ?_⟩
    · rw [drop_take, Nat.add_sub_cancel_left, hbody]
      exact (prefix_iff_eq_take.mp hfirst).symm
    · obtain ⟨-, hheader, offset, hdecoded⟩ := unpack_ok hm
      apply decodeQuestions_types packet m.header.qdCount.toNat headerSize
      rw [hdecoded, hq]
      exact mem_cons_self
  · rw [htaken, length_append, questionTail_length]
    omega
  · rw [htaken, ← hlength]
    exact hcut
  · have happend := decodeHeader_append (p := (slipHeader bytes).take (headerSize + (wireName q.name ++ questionTail q).length))
      (by rw [htaken]; omega) ((slipHeader bytes).drop (headerSize + (wireName q.name ++ questionTail q).length))
    rw [take_append_drop] at happend
    rw [← happend, slipHeader_header hwhole, ← hid, ← hcount]
    rfl

theorem slip_iff (hm : unpack packet = (m, none)) (hasked : m.questions ≠ []) {bufLen maxSize : ℕ} {res : Response}
    (h : packResponse m bufLen res maxSize = .ok bytes) (rest : Bytes) :
    ValidSlip m bytes.length (truncateToSlip (bytes ++ rest) bytes.length) ↔
      ∃ q, m.questions = [q] ∧ (q.name = [] ∨ [] ∉ q.name.splitOn dotByte) := by
  obtain ⟨q, qs, hq⟩ := exists_cons_of_ne_nil hasked
  obtain ⟨p, hslip, htake, hone, hsize, hle, hheader⟩ := truncateToSlip_response hm hq h rest
  have hfew : m.questions.length ≤ maxQuestions := by
    have hfew := unpack_length_le packet
    rwa [hm] at hfew
  have hcount : (decodeHeader p).qdCount.toNat = m.questions.length := by
    rw [hheader]
    change (UInt16.ofNat m.questions.length).toNat = _
    have hmax : maxQuestions = 10 := rfl
    rw [UInt16.toNat_ofNat', Nat.mod_eq_of_lt (by omega)]
  constructor
  · intro hvalid
    obtain ⟨m', hm', -, hsame⟩ := hvalid.accepted
    rw [hslip] at hm'
    dsimp only at hm'
    rw [htake] at hm'
    obtain ⟨-, hheader', offset, hdecoded⟩ := unpack_ok hm'
    rw [hheader', hcount, hq, length_cons, decodeQuestions, hone.decode] at hdecoded
    dsimp only at hdecoded
    cases qs with
    | nil =>
      refine ⟨q, hq, (spelled_eq_iff q.name).mp ?_⟩
      have hquestions := (Prod.mk.inj hdecoded).1
      rw [hsame, hq] at hquestions
      exact congrArg Question.name (List.cons.inj hquestions).1
    | cons q' qs =>
      obtain ⟨e, he⟩ := decodeQuestion_end p
      rw [length_cons, decodeQuestions, he] at hdecoded
      cases (Prod.mk.inj hdecoded).2
  · rintro ⟨q', hsingle, hname⟩
    obtain ⟨rfl, rfl⟩ := List.cons.inj (hq.symm.trans hsingle)
    have hname := (spelled_eq_iff q.name).mpr hname
    have hdecoded : decodeQuestions p (decodeHeader p).qdCount.toNat headerSize = ([q], .ok p.length) := by
      rw [hcount, hsingle, length_singleton, decodeQuestions, hone.decode, hname]
      rfl
    rw [hslip]
    refine ⟨⟨hsize, hle⟩, ?_, ?_, ?_, ?_⟩ <;> dsimp only <;> rw [htake]
    · rw [unpack, if_neg (by omega)]
      dsimp only
      rw [if_neg (by omega), hdecoded, hheader]
      exact ⟨_, rfl, rfl, hsingle.symm⟩
    · rw [Truncated]
      change (decodeHeader p).flags &&& 0x0200 ≠ 0
      rw [hheader]
      exact truncated_or _
    · rw [hheader]
      exact ⟨rfl, rfl, rfl⟩
    · rw [hdecoded]

theorem slip_oneLabel :
    ValidSlip (questionMessage [0x61]) 19
      (truncateToSlip [0x12, 0x34, 0x85, 3, 0, 1, 0, 0, 0, 0, 0, 0, 1, 0x61, 0, 0, 1, 0, 1, 0xFF] 19) := by
  have hbytes : packResponse (questionMessage [0x61]) 512 (.ofRCode .nameError) 512 =
      .ok [0x12, 0x34, 0x85, 3, 0, 1, 0, 0, 0, 0, 0, 0, 1, 0x61, 0, 0, 1, 0, 1] := by decide +kernel
  exact (slip_iff asks_oneLabel.accepted (cons_ne_nil _ _) hbytes [0xFF]).mpr ⟨_, rfl, .inr (by decide)⟩

/-- Of two questions one is left, and the header still counts two. -/
theorem slip_second_question :
    ∃ m bytes, unpack [0x12, 0x34, 1, 0, 0, 2, 0, 0, 0, 0, 0, 0, 1, 0x61, 0, 0, 1, 0, 1, 1, 0x62, 0, 0, 1, 0, 1] = (m, none) ∧
      packResponse m 512 (.ofRCode .nameError) 512 = .ok bytes ∧
      truncateToSlip bytes bytes.length =
        ([0x12, 0x34, 0x87, 3, 0, 2, 0, 0, 0, 0, 0, 0, 1, 0x61, 0, 0, 1, 0, 1, 1, 0x62, 0, 0, 1, 0, 1], 19) ∧
      (unpack (slipOf bytes bytes.length)).2 = some .outOfBounds ∧
      ¬ValidSlip m bytes.length (truncateToSlip bytes bytes.length) := by
  refine ⟨⟨⟨0x1234, 0x0100, 2, 0, 0, 0⟩, [⟨[0x61], 1, classIN⟩, ⟨[0x62], 1, classIN⟩], 0, false, 0⟩,
    [0x12, 0x34, 0x85, 3, 0, 2, 0, 0, 0, 0, 0, 0, 1, 0x61, 0, 0, 1, 0, 1, 1, 0x62, 0, 0, 1, 0, 1], by decide +kernel,
    by decide +kernel, by decide +kernel, by decide +kernel, ?_⟩
  intro hvalid
  obtain ⟨m', hm', -⟩ := hvalid.accepted
  have hno : (unpack (slipOf [0x12, 0x34, 0x85, 3, 0, 2, 0, 0, 0, 0, 0, 0, 1, 0x61, 0, 0, 1, 0, 1, 1, 0x62, 0, 0, 1, 0, 1]
    26)).2 = some .outOfBounds := by decide +kernel
  exact Option.some_ne_none _ (hno.symm.trans (congrArg Prod.snd hm'))

end Slips

end Kdns.Wire
