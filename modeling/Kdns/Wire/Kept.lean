import Kdns.Wire.Limits
import Kdns.Wire.Readback

namespace Kdns.Wire

open ByteStream Dns CompressedName List

def Room (size limit : ℕ) (owner : Bytes) (set : RRSet) : Prop :=
  ∃ rdata rest, set.rdata = rdata :: rest ∧ size + owner.length + 12 + rdata.length ≤ limit

section Runs

variable {owner : Bytes} {set sigs : RRSet} {w w' : PacketWriter} {count : UInt16}

theorem RecordRun.first {k : ℕ} (h : RecordRun owner set w set.rdata w' k)
    (hok : ∃ n, (w.writeRRSet owner set).2 = .ok n) (hroom : Room w.offset w.limit owner set) : 0 < k := by
  obtain ⟨rdata, rest, hset, hfit⟩ := hroom
  obtain ⟨n, hn⟩ := hok
  rw [PacketWriter.writeRRSet, hset, writeRecords] at hn
  rw [hset] at h
  cases h with
  | cut hcut =>
    have hname : Roomed w (owner.length + 2) (w.writeDomain owner) := roomed_writeDomain (by omega)
    rcases hdomain : w.writeDomain owner with ⟨v, _ | e⟩
    · rw [hdomain] at hname
      have hlimit : v.limit = w.limit := hname.limit_eq
      have hoffset : v.offset ≤ w.offset + (owner.length + 2) := hname.offset_le
      have hlarge := hcut v hdomain
      omega
    · rw [hdomain] at hname hn
      dsimp only at hn
      rw [if_neg fun he => hname.error (congrArg some he)] at hn
      cases hn
  | record => exact Nat.succ_pos _

theorem SectionRun.kept (h : SectionRun owner set sigs w w' count) (hs : w.Sound) (hmax : w.limit ≤ maxTCPSize) :
    ∃ k ≤ set.rdata.length, ∃ ks ≤ sigs.rdata.length, count.toNat = k + ks ∧
      Emitted w w' (firstRecords set k ++ firstRecords sigs ks) (k < set.rdata.length ∨ ks < sigs.rdata.length) ∧
      ((∃ n, (w.writeRRSet owner set).2 = .ok n) → Room w'.offset w'.limit owner set → 0 < k) ∧
      (Writable owner → Room w'.offset w'.limit owner sigs → 0 < ks) := by
  obtain ⟨v, k, ks, -, hrun, hruns, hcount⟩ := h
  obtain ⟨hk, hfirst⟩ := hrun.emitted hs hmax
  have hlimit := hfirst.limit_eq
  obtain ⟨hks, hsecond⟩ := hruns.emitted hfirst.sound (by omega)
  have hlimit' := hsecond.limit_eq
  have hle := hfirst.offset_ge hs
  have hle' := hsecond.offset_ge hfirst.sound
  refine ⟨k, hk, ks, hks, hcount, hfirst.trans hsecond, ?_, ?_⟩
  · rintro hok ⟨rdata, rest, hset, hfit⟩
    exact hrun.first hok ⟨rdata, rest, hset, by omega⟩
  · rintro ho ⟨rdata, rest, hset, hfit⟩
    obtain ⟨v', n, hn⟩ := writeRecords_total ho sigs sigs.rdata v 0
    exact hruns.first ⟨n, congrArg Prod.snd hn⟩ ⟨rdata, rest, hset, by omega⟩

end Runs

section Responses

variable {m : Message} {res : Response} {w w' : PacketWriter} {count : UInt16}

theorem writeSigned_first {owner : Bytes} {set sigs : RRSet} {signed : Bool}
    (h : w.writeSigned owner set sigs signed = (w', .ok count)) : ∃ n, (w.writeRRSet owner set).2 = .ok n := by
  unfold PacketWriter.writeSigned at h
  rcases hset : w.writeRRSet owner set with ⟨v, _ | n⟩
  · rw [hset] at h
    cases h
  · exact ⟨n, rfl⟩

theorem authority_first (h : writeAuthoritySection m res w = (w', .ok count)) :
    ∃ n, (w.writeRRSet (authorityOwner m res) (res.asked m).authority).2 = .ok n := by
  unfold writeAuthoritySection at h
  cases hq : m.questions with
  | nil =>
    simp [Response.asked, hq, askedSet, RRSet.empty, PacketWriter.writeRRSet, writeRecords]
  | cons q qs =>
    rw [hq] at h
    dsimp only at h
    cases hany : res.hasAuthority with
    | true =>
      rw [hany, if_pos rfl] at h
      have hfirst := writeSigned_first h
      simpa [Response.asked, hq, askedSet, authorityOwner, firstName] using hfirst
    | false =>
      simp [Response.asked, hq, askedSet, rdata_of_hasRecords hany, PacketWriter.writeRRSet, writeRecords]

theorem firstName_writable (hm : Repeatable m) : Writable (firstName m) := by
  unfold firstName
  cases hq : m.questions with
  | nil => exact ⟨Nat.zero_le _, segmented_of_length (Nat.zero_le _)⟩
  | cons q qs => exact hm.writable (hq ▸ mem_cons_self)

structure Carries (m : Message) (res : Response) (limit : ℕ) (bytes : Bytes) (kept : Kept) (opt : List WireRecord) : Prop where
  within : kept.Within (res.asked m)
  read : readSections bytes = some (kept.sections (res.asked m) opt)
  truncated : Truncated bytes ↔ kept.LeavesOut (res.asked m)
  answer : Room bytes.length limit (firstName m) (res.asked m).answer → 0 < kept.answer
  answerRRSIG : Room bytes.length limit (firstName m) (res.asked m).answerRRSIG → 0 < kept.answerRRSIG
  authority : Room bytes.length limit (authorityOwner m res) (res.asked m).authority → 0 < kept.authority

theorem Room.mono {size size' limit limit' : ℕ} {owner : Bytes} {set : RRSet} (h : Room size limit owner set)
    (hsize : size' ≤ size) (hlimit : limit = limit') : Room size' limit' owner set := by
  obtain ⟨rdata, rest, hset, hfit⟩ := h
  exact ⟨rdata, rest, hset, by omega⟩

theorem packResponse_carries {bufLen maxSize : ℕ} {bytes : Bytes} (hm : Repeatable m) (hmax : min maxSize bufLen ≤ maxTCPSize)
    (h : packResponse m bufLen res maxSize = .ok bytes) :
    ∃ kept opt, Carries m res (min maxSize bufLen) bytes kept opt := by
  obtain ⟨w, wa, wb, wc, a, b, c, hst⟩ := packResponse_stages h
  have hr := hst.runs hmax
  have hlimitw : w.limit = min maxSize bufLen := hr.questions.limit_eq
  have hlimita := hr.answered.limit_eq
  have hlimitb := hr.authorised.limit_eq
  have hsw := hr.questions.sound
  have hsa := hr.answered.sound
  have hsb := hr.authorised.sound
  obtain ⟨ka, hka, kas, hkas, hcounta, ha, hfirsta, hfirstas⟩ := hr.answer.kept hsw (by omega)
  obtain ⟨kb, hkb, kbs, hkbs, hcountb, hb, hfirstb, -⟩ := hr.authority.kept hsa (by omega)
  obtain ⟨kc, hkc, k0, hk0, hcountc, hc⟩ := hr.additional.emitted hsb (by omega)
  obtain rfl : k0 = 0 := Nat.le_zero.mp hk0
  have hnone : ¬ 0 < RRSet.empty.rdata.length := Nat.not_lt_zero _
  rw [firstRecords_empty, append_nil, iff_false_intro hnone, or_false] at hc
  obtain ⟨opt, -, hread, -, htruncated⟩ := hst.reads hmax ha
    (by rw [length_append, firstRecords_length hka, firstRecords_length hkas, hcounta]) hb
    (by rw [length_append, firstRecords_length hkb, firstRecords_length hkbs, hcountb]) hc
    (by rw [firstRecords_length hkc, hcountc, Nat.add_zero])
  rw [or_assoc, or_assoc] at htruncated
  -- no writer between the sections is behind the end of the response
  have hlast : wc.offset ≤ bytes.length :=
    ((grows_writeEDNS0 hr.added.sound m res).offset_le hr.added.sound).trans_eq hst.length_eq.symm
  have hbc := hr.added.offset_le hsb
  have hab := hr.authorised.offset_le hsa
  have hname := firstName_writable hm
  obtain ⟨v, n, hn⟩ := writeRecords_total hname (res.asked m).answer (res.asked m).answer.rdata w 0
  refine ⟨⟨ka, kas, kb, kbs, kc⟩, opt, ⟨hka, hkas, hkb, hkbs, hkc⟩, hread, htruncated, ?_, ?_, ?_⟩
  · intro hroom
    exact hfirsta ⟨n, congrArg Prod.snd hn⟩ (hroom.mono (by omega) (by omega))
  · intro hroom
    exact hfirstas hname (hroom.mono (by omega) (by omega))
  · intro hroom
    exact hfirstb (authority_first hst.authority) (hroom.mono (by omega) (by omega))

theorem Plain.asked {r : Result} (hr : Plain r) (hq : m.questions ≠ []) : (Response.ofResult r).asked m = .ofResult r := by
  have hasked : m.questions.isEmpty = false := by simpa using hq
  have hempty : ∀ b, askedSet b RRSet.empty = RRSet.empty := fun b => ite_self _
  rcases r with ⟨rcode, answer, authority, name⟩
  rcases hr.answer with rfl | rfl
  · simp only [Response.asked, Response.ofResult, hasked, hempty]
    rfl
  · simp only [Response.asked, Response.ofResult, hasked, hempty]
    rfl

theorem Kept.sections_plain (kept : Kept) (r : Result) (opt : List WireRecord) :
    kept.sections (.ofResult r) opt = ⟨firstRecords r.answer kept.answer, firstRecords r.authority kept.authority, opt⟩ := by
  simp only [Kept.sections, Response.ofResult, firstRecords_empty, append_nil, nil_append]

theorem packResponse_plain {r : Result} {bufLen maxSize : ℕ} {bytes : Bytes} (hm : Repeatable m) (hr : Plain r)
    (hq : m.questions ≠ []) (hmax : min maxSize bufLen ≤ maxTCPSize)
    (h : packResponse m bufLen (.ofResult r) maxSize = .ok bytes) :
    ∃ ka ≤ r.answer.rdata.length, ∃ kb ≤ r.authority.rdata.length, ∃ opt,
      readSections bytes = some ⟨firstRecords r.answer ka, firstRecords r.authority kb, opt⟩ ∧
      (Truncated bytes ↔ ka < r.answer.rdata.length ∨ kb < r.authority.rdata.length) ∧
      (Room bytes.length (min maxSize bufLen) (firstName m) r.answer → 0 < ka) := by
  obtain ⟨kept, opt, hc⟩ := packResponse_carries hm hmax h
  have hwithin := hc.within
  have hread := hc.read
  have htruncated := hc.truncated
  have hfirst := hc.answer
  rw [hr.asked hq] at hwithin hread htruncated hfirst
  rw [kept.sections_plain] at hread
  refine ⟨kept.answer, hwithin.1, kept.authority, hwithin.2.2.1, opt, hread, ?_, hfirst⟩
  rw [htruncated, Kept.LeavesOut]
  simp [Response.ofResult, RRSet.empty]

end Responses

end Kdns.Wire
