import Kdns.Wire.Walk
import Kdns.Wire.WriteName

namespace Kdns.Wire

open ByteStream Dns CompressedName List

def PacketWriter.Learns (w w' : PacketWriter) : Prop :=
  ∃ more, w'.table = w.table ++ more ∧ ∀ e ∈ more, w.offset ≤ e.2 ∧ e.2 ≤ pointerOffsetMask

variable {w' w : PacketWriter} {more bytes : Bytes} {m : Message} {res : Response}

section Learns

variable (w : PacketWriter)

theorem learns_of_table {w : PacketWriter} (h : w'.table = w.table) : w.Learns w' :=
  ⟨[], by rw [h, append_nil], nofun⟩

theorem PacketWriter.Learns.trans {w w'' : PacketWriter} (h : w.Learns w') (hle : w.offset ≤ w'.offset)
    (h' : w'.Learns w'') : w.Learns w'' := by
  obtain ⟨more, hmore, hplaced⟩ := h
  obtain ⟨more', hmore', hplaced'⟩ := h'
  refine ⟨more ++ more', by rw [hmore', hmore, append_assoc], ?_⟩
  intro e he
  rcases mem_append.mp he with he | he
  · exact hplaced e he
  · exact ⟨hle.trans (hplaced' e he).1, (hplaced' e he).2⟩

theorem learns_insert (domain : Bytes) : w.Learns (w.insert domain) := by
  unfold PacketWriter.insert
  split_ifs with hfull hknown
  · exact learns_of_table rfl
  · exact learns_of_table rfl
  · simp only [not_or] at hfull
    refine ⟨[(domain, w.offset)], rfl, ?_⟩
    intro e he
    rw [mem_singleton.mp he]
    exact ⟨le_rfl, Nat.le_of_not_lt hfull.2.1⟩

theorem PacketWriter.Extends.offset_le {w : PacketWriter} (h : w.Extends w') : w.offset ≤ w'.offset := by
  obtain ⟨more, hmore⟩ := h.out_eq
  rw [offset, offset, hmore, length_append]
  apply Nat.le_add_right

theorem learns_nameStep : NameStep fun w w' => w.Extends w' ∧ w.Learns w' where
  refl w := ⟨.refl w, learns_of_table rfl⟩
  trans h h' := ⟨h.1.trans h'.1, h.2.trans h.1.offset_le h'.2⟩
  put w bytes := ⟨extends_put w bytes, learns_of_table rfl⟩
  insert w domain := ⟨extends_insert w domain, learns_insert w domain⟩

theorem learns_writeDomain (name : Bytes) : w.Learns (w.writeDomain name).1 := (learns_nameStep.writeDomain w name).2

end Learns

/-- The writer has a header and is within its limit, and every place it remembers can be pointed to. -/
structure PacketWriter.Sound (w : PacketWriter) : Prop where
  header : headerSize ≤ w.offset
  fits : w.offset ≤ w.limit
  placed : ∀ e ∈ w.table, e.2 ≤ pointerOffsetMask

theorem PacketWriter.Sound.learned (h : w.Sound) (hl : w.Learns w') : ∀ e ∈ w'.table, e.2 ≤ pointerOffsetMask := by
  obtain ⟨more, hmore, hplaced⟩ := hl
  intro e he
  rw [hmore] at he
  rcases mem_append.mp he with he | he
  · exact h.placed e he
  · exact (hplaced e he).2

def Truncated (bytes : Bytes) : Prop := uint16At bytes 2 &&& 0x0200 ≠ 0

instance (bytes : Bytes) : Decidable (Truncated bytes) := inferInstanceAs (Decidable (_ ≠ _))

structure Appended (w w' : PacketWriter) (more : Bytes) (cut : Prop) : Prop where
  sound : w'.Sound
  limit_eq : w'.limit = w.limit
  body : w'.out.drop headerSize = w.out.drop headerSize ++ more
  questions : uint16At w'.out 4 = uint16At w.out 4
  truncated : Truncated w'.out ↔ Truncated w.out ∨ cut

theorem Appended.refl (h : w.Sound) : Appended w w [] False :=
  ⟨h, rfl, (append_nil _).symm, rfl, by rw [or_false]⟩

theorem Appended.trans {w'' : PacketWriter} {more' : Bytes} {cut cut' : Prop} (h : Appended w w' more cut)
    (h' : Appended w' w'' more' cut') : Appended w w'' (more ++ more') (cut ∨ cut') := by
  refine ⟨h'.sound, h'.limit_eq.trans h.limit_eq, ?_, h'.questions.trans h.questions, ?_⟩
  · rw [h'.body, h.body, append_assoc]
  · rw [h'.truncated, h.truncated, or_assoc]

theorem Appended.offset_eq {cut : Prop} (h : Appended w w' more cut) (hs : w.Sound) :
    w'.offset = w.offset + more.length := by
  have hlen : headerSize ≤ w.out.length := hs.header
  have hlen' : headerSize ≤ w'.out.length := h.sound.header
  have hbody := congrArg List.length h.body
  rw [length_append, length_drop, length_drop] at hbody
  unfold PacketWriter.offset
  omega

theorem appended_of_out (h : w.Sound) (hs : w'.Sound) (hlimit : w'.limit = w.limit)
    (hout : w'.out = w.out ++ more) : Appended w w' more False := by
  have hlen : headerSize ≤ w.out.length := h.header
  have hsize : headerSize = 12 := rfl
  refine ⟨hs, hlimit, ?_, ?_, ?_⟩
  · rw [hout, drop_append_of_le_length hlen]
  · rw [hout, uint16At_append (by omega)]
  · rw [hout, Truncated, Truncated, uint16At_append (by omega), or_false]

theorem appended_put (h : w.Sound) (hfit : w.offset + bytes.length ≤ w.limit) :
    Appended w (w.put bytes) bytes False := by
  have hs : (w.put bytes).Sound := by
    refine ⟨?_, ?_, h.placed⟩
    · rw [put_offset]
      exact h.header.trans (Nat.le_add_right _ _)
    · rw [put_offset]
      exact hfit
  exact appended_of_out h hs rfl rfl

theorem appended_name {name : Bytes} (h : w.Sound) (hw : w.writeDomain name = (w', none)) :
    ∃ o, IsNameForm o ∧ Appended w w' o False := by
  obtain ⟨front, back, closing, hn⟩ := writeDomainCompressed_written hw
  have hlearns := learns_writeDomain w name
  rw [hw] at hlearns
  have hle : headerSize ≤ w'.offset := by
    rw [PacketWriter.offset, hn.out_eq, length_append]
    exact h.header.trans (Nat.le_add_right _ _)
  have hclosing : closing = [0] ∨ ∃ t < 0x4000, closing = pointerBytes t := by
    rcases hn.closed with ⟨h0, -⟩ | ⟨s, t, rest, hmem, -, -, -, ht⟩
    · exact .inl h0
    · exact .inr ⟨t, Nat.lt_succ_of_le (h.placed _ hmem), ht⟩
  exact ⟨_, ⟨front, closing, hn.front_labels, hclosing, rfl⟩,
    appended_of_out h ⟨hle, hn.fits, h.learned hlearns⟩ hn.limit_eq hn.out_eq⟩

theorem putUint16_drop {i n : ℕ} (hi : i + 2 ≤ n) (hn : n ≤ bytes.length) (v : UInt16) :
    (putUint16 bytes i v).drop n = bytes.drop n := by
  have hlen : (bytes.take i ++ bigEndian 2 v.toNat).length = i + 2 := by
    rw [length_append, length_take, bigEndian_length]
    omega
  obtain ⟨k, rfl⟩ := Nat.exists_eq_add_of_le hi
  rw [putUint16, ← drop_drop, drop_left' hlen, drop_drop]

theorem uint16At_putUint16_after {i j : ℕ} (h : i + 2 ≤ bytes.length) (hj : i + 2 ≤ j) (v : UInt16) :
    uint16At (putUint16 bytes i v) j = uint16At bytes j := by
  have hlen : (bytes.take i ++ bigEndian 2 v.toNat).length = i + 2 := by
    rw [length_append, length_take, bigEndian_length]
    omega
  obtain ⟨k, rfl⟩ := Nat.exists_eq_add_of_le hj
  unfold uint16At
  rw [putUint16, ← drop_drop, drop_left' hlen, drop_drop]

theorem truncated_or (v : UInt16) : (v ||| 0x0200) &&& 0x0200 ≠ 0 := by
  have hbit : (0x0200 &&& 0x0200 : UInt16) = 0x0200 := by decide
  rw [or_and_distrib, hbit]
  intro h
  have h' := congrArg UInt16.toNat h
  rw [UInt16.toNat_or] at h'
  have hle : (0x0200 : UInt16).toNat ≤ (v &&& 0x0200).toNat ||| (0x0200 : UInt16).toNat := Nat.right_le_or
  rw [h'] at hle
  exact absurd hle (by decide)

theorem appended_cut (h : w.Sound) (hlimit : w'.limit = w.limit) (hlearns : w.Learns w') :
    Appended w { w' with out := w.out }.setTruncatedFlag [] True := by
  have hlen : headerSize ≤ w.out.length := h.header
  have hsize : headerSize = 12 := rfl
  have hout : (putUint16 w.out 2 (uint16At w.out 2 ||| 0x0200)).length = w.out.length := putUint16_length (by omega) _
  refine ⟨⟨?_, ?_, h.learned hlearns⟩, hlimit, ?_, ?_, ?_⟩
  · exact hlen.trans_eq hout.symm
  · exact (hout.trans_le h.fits).trans_eq hlimit.symm
  · rw [append_nil]
    exact putUint16_drop (by omega) hlen _
  · have hcounts : ∀ v, uint16At (putUint16 w.out 2 v) 4 = uint16At w.out 4 :=
      uint16At_putUint16_after (by omega) (by omega)
    apply hcounts
  · have hset : Truncated { w' with out := w.out }.setTruncatedFlag.out := by
      rw [Truncated, PacketWriter.setTruncatedFlag, uint16At_putUint16 (by dsimp only; omega)]
      apply truncated_or
    exact iff_of_true hset (.inr trivial)

def questionTail (q : Question) : Bytes := bigEndian 2 q.type.toNat ++ bigEndian 2 q.rrClass.toNat

theorem questionTail_length (q : Question) : (questionTail q).length = 4 := by
  rw [questionTail, length_append, bigEndian_length, bigEndian_length]

theorem writeQuestion_ok {q : Question} (h : w.writeQuestion q = (w', none)) :
    ∃ v, w.writeDomain q.name = (v, none) ∧ v.offset + 4 ≤ v.limit ∧ w' = v.put (questionTail q) := by
  unfold PacketWriter.writeQuestion at h
  rcases hname : w.writeDomain q.name with ⟨v, _ | e⟩
  · rw [hname] at h
    dsimp only at h
    split_ifs at h with hfit
    · cases h
    · exact ⟨v, rfl, Nat.le_of_not_lt hfit, (Prod.mk.inj h).1.symm⟩
  · rw [hname] at h
    cases h

theorem writeQuestions_cons {q : Question} {qs : List Question}
    (h : PacketWriter.writeQuestions (q :: qs) w = (w', none)) :
    ∃ v, w.writeQuestion q = (v, none) ∧ PacketWriter.writeQuestions qs v = (w', none) := by
  rw [PacketWriter.writeQuestions] at h
  rcases hq : w.writeQuestion q with ⟨v, _ | e⟩
  · rw [hq] at h
    exact ⟨v, rfl, h⟩
  · rw [hq] at h
    cases h

def headerWriter (m : Message) (bufLen : ℕ) (res : Response) (maxSize : ℕ) : PacketWriter :=
  ⟨min maxSize bufLen, headerBytes m.header.id (responseFlags m res) (UInt16.ofNat m.questions.length), []⟩

theorem packResponse_ok {bufLen maxSize : ℕ} (h : packResponse m bufLen res maxSize = .ok bytes) :
    m.questions.length ≤ maxQuestions ∧ headerSize ≤ min maxSize bufLen ∧
      ∃ w, (headerWriter m bufLen res maxSize).writeQuestions m.questions = (w, none) ∧ writeSections m res w = .ok bytes := by
  unfold packResponse at h
  obtain ⟨hcount, h⟩ := Fallible.of_ite h nofun
  dsimp only at h
  obtain ⟨hlimit, h⟩ := Fallible.of_ite h nofun
  refine ⟨Nat.le_of_not_lt hcount, Nat.le_of_not_lt hlimit, ?_⟩
  split at h
  · cases h
  · exact ⟨_, by assumption, h⟩

theorem writeSections_ok (h : writeSections m res w = .ok bytes) :
    ∃ wa wb wc answer authority additional, writeAnswerSection m res w = (wa, .ok answer) ∧
      writeAuthoritySection m res wa = (wb, .ok authority) ∧ writeAdditionalSection m res wb = (wc, .ok additional) ∧
      bytes = ((wc.writeEDNS0 m res).1.updateCounts answer authority (additional + (wc.writeEDNS0 m res).2)).out := by
  unfold writeSections at h
  rcases ha : writeAnswerSection m res w with ⟨wa, _ | answer⟩
  · rw [ha] at h
    cases h
  rw [ha] at h
  dsimp only at h
  rcases hb : writeAuthoritySection m res wa with ⟨wb, _ | authority⟩
  · rw [hb] at h
    cases h
  rw [hb] at h
  dsimp only at h
  rcases hc : writeAdditionalSection m res wb with ⟨wc, _ | additional⟩
  · rw [hc] at h
    cases h
  rw [hc] at h
  cases h
  exact ⟨wa, wb, wc, answer, authority, additional, rfl, hb, hc, rfl⟩

theorem headerWriter_sound {bufLen maxSize : ℕ} (h : headerSize ≤ min maxSize bufLen) :
    (headerWriter m bufLen res maxSize).Sound := by
  have hlen : (headerWriter m bufLen res maxSize).offset = headerSize := by rfl
  refine ⟨hlen.ge, hlen.trans_le h, ?_⟩
  intro e he
  cases he

theorem headerBytes_questions (id flags count : UInt16) : uint16At (headerBytes id flags count) 4 = count := by
  simp only [headerBytes, append_assoc]
  rw [uint16At_prepend _ (show 4 = (bigEndian 2 id.toNat).length + 2 by simp),
    uint16At_prepend _ (show 2 = (bigEndian 2 flags.toNat).length + 0 by simp), uint16At_bigEndian]

theorem headerBytes_flags (id flags count : UInt16) : uint16At (headerBytes id flags count) 2 = flags := by
  simp only [headerBytes, append_assoc]
  rw [uint16At_prepend _ (show 2 = (bigEndian 2 id.toNat).length + 0 by simp), uint16At_bigEndian]

theorem headerBytes_body (id flags count : UInt16) : (headerBytes id flags count).drop headerSize = [] := by
  simp [headerBytes, headerSize]

theorem responseFlags_not_truncated (m : Message) (res : Response) : responseFlags m res &&& 0x0200 = 0 := by
  rw [responseFlags_and m res (by decide) (by decide) (by decide)]
  cases res.rcode <;> rfl

end Kdns.Wire
