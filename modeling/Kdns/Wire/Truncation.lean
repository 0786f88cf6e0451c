import Kdns.Wire.Emitted

open List

namespace Kdns.Wire

open ByteStream Dns

def Response.asked (m : Message) (res : Response) : Response :=
  let answers := !m.questions.isEmpty && res.rcode = .success
  { res with
    answer := askedSet answers res.answer
    answerRRSIG := askedSet (answers && res.hasAnswer && (m.wantsDNSSEC && res.hasAnswerRRSIG)) res.answerRRSIG
    authority := askedSet (!m.questions.isEmpty) res.authority
    authorityRRSIG :=
      askedSet (!m.questions.isEmpty && res.hasAuthority && (m.wantsDNSSEC && res.hasAuthorityRRSIG)) res.authorityRRSIG
    additional := askedSet answers res.additional }

theorem rdata_of_hasRecords {set : RRSet} (h : set.hasRecords = false) : set.rdata = [] := by
  unfold RRSet.hasRecords at h
  rwa [Bool.not_eq_false', List.isEmpty_iff] at h

def firstName (m : Message) : Bytes := (m.questions.head?.map Question.name).getD []

def authorityOwner (m : Message) (res : Response) : Bytes :=
  if res.authorityName = [] then firstName m else res.authorityName

section Asked

variable {m : Message} {res : Response} {w w' : PacketWriter} {count : UInt16}

theorem askedSet_rdata {asked : Bool} {set : RRSet} (h : ¬(asked = true ∧ set.hasRecords = true)) :
    (askedSet asked set).rdata = [] := by
  cases asked with
  | false => rfl
  | true => exact rdata_of_hasRecords (Bool.eq_false_iff.mpr fun hany => h ⟨rfl, hany⟩)

theorem asked_nothing {asked signed : Bool} {set sigs : RRSet} (h : ¬(asked = true ∧ set.hasRecords = true)) (owner : Bytes) :
    SectionRun owner (askedSet asked set) (askedSet (asked && set.hasRecords && signed) sigs) w w 0 := by
  apply sectionRun_nothing owner w (askedSet_rdata h)
  rw [← Bool.and_eq_true, Bool.not_eq_true] at h
  rw [h]
  rfl

theorem answer_run (hs : w.Sound) (hmax : w.limit ≤ maxTCPSize) (h : writeAnswerSection m res w = (w', .ok count)) :
    SectionRun (firstName m) (res.asked m).answer (res.asked m).answerRRSIG w w' count := by
  unfold writeAnswerSection at h
  cases hq : m.questions with
  | nil =>
    rw [hq] at h
    cases h
    exact asked_nothing (by simp [hq]) _
  | cons q qs =>
    rw [hq] at h
    dsimp only at h
    by_cases hyes : res.rcode = .success ∧ res.hasAnswer = true
    · rw [if_pos hyes] at h
      have hsigned := sectionRun_signed hs hmax h
      simpa [Response.asked, hq, askedSet, hyes.1, hyes.2, firstName] using hsigned
    · rw [if_neg hyes] at h
      cases h
      exact asked_nothing (by simpa [hq, Result.hasAnswer] using hyes) _

theorem authority_run (hs : w.Sound) (hmax : w.limit ≤ maxTCPSize)
    (h : writeAuthoritySection m res w = (w', .ok count)) :
    SectionRun (authorityOwner m res) (res.asked m).authority (res.asked m).authorityRRSIG w w' count := by
  unfold writeAuthoritySection at h
  cases hq : m.questions with
  | nil =>
    rw [hq] at h
    cases h
    exact asked_nothing (by simp [hq]) _
  | cons q qs =>
    rw [hq] at h
    dsimp only at h
    cases hany : res.hasAuthority with
    | true =>
      rw [hany, if_pos rfl] at h
      have hsigned := sectionRun_signed hs hmax h
      simpa [Response.asked, hq, askedSet, hany, authorityOwner, firstName] using hsigned
    | false =>
      rw [hany, if_neg (by decide)] at h
      cases h
      exact asked_nothing (fun hyes => Bool.eq_false_iff.mp hany hyes.2) _

theorem additional_run (hs : w.Sound) (hmax : w.limit ≤ maxTCPSize)
    (h : writeAdditionalSection m res w = (w', .ok count)) :
    SectionRun (firstName m) (res.asked m).additional RRSet.empty w w' count := by
  unfold writeAdditionalSection at h
  cases hq : m.questions with
  | nil =>
    rw [hq] at h
    cases h
    exact sectionRun_nothing _ _ (askedSet_rdata (by simp [hq])) rfl
  | cons q qs =>
    rw [hq] at h
    dsimp only at h
    by_cases hyes : res.rcode = .success ∧ res.hasAdditional = true
    · rw [if_pos hyes] at h
      have hset := sectionRun_set hs hmax h
      simpa [Response.asked, hq, askedSet, hyes.1, firstName] using hset
    · rw [if_neg hyes] at h
      cases h
      exact sectionRun_nothing _ _ (askedSet_rdata (by simpa [hq, Response.hasAdditional] using hyes)) rfl

end Asked

structure Kept where
  answer : ℕ
  answerRRSIG : ℕ
  authority : ℕ
  authorityRRSIG : ℕ
  additional : ℕ
  deriving DecidableEq, Repr

namespace Kept

variable (kept : Kept) (res : Response)

def Within : Prop :=
  kept.answer ≤ res.answer.rdata.length ∧ kept.answerRRSIG ≤ res.answerRRSIG.rdata.length ∧
    kept.authority ≤ res.authority.rdata.length ∧ kept.authorityRRSIG ≤ res.authorityRRSIG.rdata.length ∧
    kept.additional ≤ res.additional.rdata.length

def LeavesOut : Prop :=
  kept.answer < res.answer.rdata.length ∨ kept.answerRRSIG < res.answerRRSIG.rdata.length ∨
    kept.authority < res.authority.rdata.length ∨ kept.authorityRRSIG < res.authorityRRSIG.rdata.length ∨
    kept.additional < res.additional.rdata.length

def sections (opt : List WireRecord) : Sections where
  answer := firstRecords res.answer kept.answer ++ firstRecords res.answerRRSIG kept.answerRRSIG
  authority := firstRecords res.authority kept.authority ++ firstRecords res.authorityRRSIG kept.authorityRRSIG
  additional := firstRecords res.additional kept.additional ++ opt

end Kept

structure Counted (bytes : Bytes) (s : Sections) : Prop where
  answer : (decodeHeader bytes).anCount.toNat = s.answer.length
  authority : (decodeHeader bytes).nsCount.toNat = s.authority.length
  additional : (decodeHeader bytes).arCount.toNat = s.additional.length

theorem readSections_of_parts {bytes q a b c : Bytes} {s : Sections} (hbody : bytes.drop headerSize = q ++ (a ++ (b ++ c)))
    (hq : ∀ rest, readQuestions (decodeHeader bytes).qdCount.toNat (q ++ rest) = some rest) (hcount : Counted bytes s)
    (ha : ReadsAs s.answer a) (hb : ReadsAs s.authority b) (hc : ReadsAs s.additional c) : readSections bytes = some s := by
  have hlast := hc.read []
  rw [append_nil] at hlast
  unfold readSections
  dsimp only
  rw [hbody, hq, hcount.answer, hcount.authority, hcount.additional, Option.bind_some, ha.read, Option.bind_some, hb.read,
    Option.bind_some, hlast, Option.bind_some, if_pos rfl]

theorem Stages.reads {m : Message} {bufLen maxSize : ℕ} {res : Response} {bytes : Bytes} {w wa wb wc : PacketWriter}
    {a b c : UInt16} (hst : Stages m bufLen res maxSize bytes w wa wb wc a b c) (hmax : min maxSize bufLen ≤ maxTCPSize)
    {ra rb rc : List WireRecord} {ca cb cc : Prop} (ha : Emitted w wa ra ca) (hna : a.toNat = ra.length)
    (hb : Emitted wa wb rb cb) (hnb : b.toNat = rb.length) (hc : Emitted wb wc rc cc) (hnc : c.toNat = rc.length) :
    ∃ opt, (opt = [] ∨ m.edns0Size ≠ 0 ∧ opt = firstRecords (optSet m) 1) ∧ readSections bytes = some ⟨ra, rb, rc ++ opt⟩ ∧
      Counted bytes ⟨ra, rb, rc ++ opt⟩ ∧ (Truncated bytes ↔ ca ∨ cb ∨ cc) := by
  obtain ⟨q, hq, hreadq⟩ := appended_questions hst.start hst.questions
  obtain ⟨ma, hma, hra⟩ := ha
  obtain ⟨mb, hmb, hrb⟩ := hb
  obtain ⟨mc, hmc, hrc⟩ := hc
  obtain ⟨opt, hopt, ⟨mo, hmo, hro⟩, hcounto⟩ := opt_emitted hmc.sound m res
  -- the whole of what stands behind the header
  have hall := hq.trans (hma.trans (hmb.trans (hmc.trans hmo)))
  have hrec := hrc.append hro
  have hdecoded := hst.header
  have hadditional : (c + (wc.writeEDNS0 m res).2).toNat = rc.length + opt.length := by
    have htcp : maxTCPSize = 65535 := rfl
    have hlimit : (headerWriter m bufLen res maxSize).limit ≤ maxTCPSize := hmax
    have hfits := hall.sound.fits
    have hlimits := hall.limit_eq
    have hlong := hrec.long
    have hoffset := (hmc.trans hmo).offset_eq hmb.sound
    rw [length_append] at hlong
    rw [UInt16.toNat_add, hnc, hcounto]
    exact Nat.mod_eq_of_lt (by change rc.length + opt.length < 65536; omega)
  have hcounted : Counted bytes ⟨ra, rb, rc ++ opt⟩ := by
    constructor
    · rw [hdecoded]
      exact hna
    · rw [hdecoded]
      exact hnb
    · rw [hdecoded, length_append]
      exact hadditional
  refine ⟨opt, hopt, ?_, hcounted, ?_⟩
  · refine readSections_of_parts (q := q) (c := mc ++ mo) ?_ ?_ hcounted hra hrb hrec
    · rw [hst.body, hall.body]
      simp only [headerWriter, headerBytes_body, nil_append]
    · intro rest
      have hcount : (decodeHeader (wc.writeEDNS0 m res).1.out).qdCount.toNat = m.questions.length := by
        simp only [decodeHeader, hall.questions, headerWriter, headerBytes_questions, UInt16.toNat_ofNat']
        have hten : maxQuestions = 10 := rfl
        have hfew := hst.few
        omega
      rw [hdecoded]
      rw [hcount]
      apply hreadq
  · have hflags := congrArg Header.flags hdecoded
    have hclear : ¬ Truncated (headerWriter m bufLen res maxSize).out := by
      rw [Truncated, headerWriter, headerBytes_flags, responseFlags_not_truncated]
      exact fun hne => hne rfl
    have hiff := hall.truncated
    rw [iff_false_intro hclear] at hiff
    simp only [false_or, or_false] at hiff
    rw [Truncated, show uint16At _ 2 = uint16At _ 2 from hflags]
    exact hiff

theorem packResponse_reads {m : Message} {bufLen maxSize : ℕ} {res : Response} {bytes : Bytes}
    (hlimit : min maxSize bufLen ≤ maxTCPSize) (h : packResponse m bufLen res maxSize = .ok bytes) :
    ∃ kept opt, Kept.Within kept (res.asked m) ∧ (opt = [] ∨ m.edns0Size ≠ 0 ∧ opt = firstRecords (optSet m) 1) ∧
      readSections bytes = some (kept.sections (res.asked m) opt) ∧ Counted bytes (kept.sections (res.asked m) opt) ∧
      (Truncated bytes ↔ kept.LeavesOut (res.asked m)) := by
  obtain ⟨w, wa, wb, wc, a, b, c, hst⟩ := packResponse_stages h
  obtain ⟨q, hq, -⟩ := appended_questions hst.start hst.questions
  have hlimitq : w.limit ≤ maxTCPSize := hq.limit_eq.trans_le hlimit
  obtain ⟨ka, hka, kas, hkas, hcounta, ha⟩ := (answer_run hq.sound hlimitq hst.answer).emitted hq.sound hlimitq
  have hlimita : wa.limit ≤ maxTCPSize := ha.limit_eq.trans_le hlimitq
  obtain ⟨kb, hkb, kbs, hkbs, hcountb, hb⟩ := (authority_run ha.sound hlimita hst.authority).emitted ha.sound hlimita
  have hlimitb : wb.limit ≤ maxTCPSize := hb.limit_eq.trans_le hlimita
  obtain ⟨kc, hkc, k0, hk0, hcountc, hc⟩ := (additional_run hb.sound hlimitb hst.additional).emitted hb.sound hlimitb
  obtain rfl : k0 = 0 := Nat.le_zero.mp hk0
  have hnone : ¬ 0 < RRSet.empty.rdata.length := Nat.not_lt_zero _
  rw [firstRecords_empty, append_nil, iff_false_intro hnone, or_false] at hc
  obtain ⟨opt, hopt, hread, hcounted, htruncated⟩ := hst.reads hlimit ha
    (by rw [length_append, firstRecords_length hka, firstRecords_length hkas, hcounta]) hb
    (by rw [length_append, firstRecords_length hkb, firstRecords_length hkbs, hcountb]) hc
    (by rw [firstRecords_length hkc, hcountc, Nat.add_zero])
  rw [or_assoc, or_assoc] at htruncated
  exact ⟨⟨ka, kas, kb, kbs, kc⟩, opt, ⟨hka, hkas, hkb, hkbs, hkc⟩, hopt, hread, hcounted, htruncated⟩

theorem packResponse_accounts {m : Message} {bufLen maxSize : ℕ} {res : Response} {bytes : Bytes}
    (hmax : maxSize ≤ maxTCPSize) (h : packResponse m bufLen res maxSize = .ok bytes) :
    bytes.length ≤ min maxSize bufLen ∧ ∃ kept opt, Kept.Within kept (res.asked m) ∧
      (opt = [] ∨ m.edns0Size ≠ 0 ∧ opt = firstRecords (optSet m) 1) ∧
      readSections bytes = some (kept.sections (res.asked m) opt) ∧ Counted bytes (kept.sections (res.asked m) opt) ∧
      (Truncated bytes ↔ kept.LeavesOut (res.asked m)) :=
  ⟨packResponse_length h, packResponse_reads ((Nat.min_le_left _ _).trans hmax) h⟩

def addressQuery : Message where
  header := ⟨7, 0x0100, 1, 0, 0, 0⟩
  questions := [⟨[0x61], 1, classIN⟩]
  edns0Size := 0
  wantsDNSSEC := false
  extRCode := 0

def twoAddresses : Response where
  rcode := .success
  answer := ⟨[[10, 0, 0, 1], [10, 0, 0, 2]], 300, 1, classIN⟩

theorem packResponse_accounts_cut :
    ∃ bytes, packResponse addressQuery 512 twoAddresses 40 = .ok bytes ∧ Truncated bytes ∧
      bytes.length ≤ min 40 512 ∧ ∃ kept opt, Kept.Within kept (twoAddresses.asked addressQuery) ∧
        (opt = [] ∨ addressQuery.edns0Size ≠ 0 ∧ opt = firstRecords (optSet addressQuery) 1) ∧
        readSections bytes = some (kept.sections (twoAddresses.asked addressQuery) opt) ∧
        Counted bytes (kept.sections (twoAddresses.asked addressQuery) opt) ∧
        (Truncated bytes ↔ kept.LeavesOut (twoAddresses.asked addressQuery)) :=
  ⟨_, rfl, by decide, packResponse_accounts (by decide) rfl⟩

end Kdns.Wire
