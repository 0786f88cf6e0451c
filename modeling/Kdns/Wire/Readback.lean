import Kdns.Wire.Accepted
import Kdns.Wire.Truncation

namespace Kdns.Wire

open ByteStream Dns CompressedName Fallible List

section Questions

variable {q : Question} {w w' : PacketWriter} {p : Bytes} {d : ℕ} {qs : List Question}

theorem question_walk (h : w.writeQuestion q = (w', none)) (hs : w.Sound) (hv : w.Valid d) (hd : d ≤ maxJumps)
    (hq : OwnerName q.name) (hp : Inside w' p) :
    w'.Valid (d + 1) ∧ ∃ x, walkQuestion p w.offset = .ok (x, w'.offset) ∧ Meant q.name q.type x := by
  obtain ⟨v, hname, hfit, rfl⟩ := writeQuestion_ok h
  obtain ⟨front, back, closing, hn⟩ := writeDomainCompressed_written hname
  obtain ⟨o, -, happended⟩ := appended_name hs hname
  obtain ⟨⟨j, hj, ls, hat, hls⟩, hvalid⟩ := hn.valid hs hv
  have hput : Appended v (v.put (questionTail q)) (questionTail q) False :=
    appended_put happended.sound (by rw [questionTail_length]; exact hfit)
  have hheader := happended.sound.header
  have hend : (v.put (questionTail q)).offset = v.offset + 4 := by rw [put_offset, questionTail_length]
  have hlen := hp.length_le (by omega)
  refine ⟨hvalid.mono happended.sound hput rfl, ?_⟩
  obtain ⟨read, hread, hfold⟩ :=
    NamedAt.unpack ⟨ls, hp.nameAt hput.sound (hat.append _), hls⟩ (hj.trans hd) hq.short
  have htype : uint16At p v.offset = q.type := by
    apply uint16At_eq
    apply hp.isPrefix hput.sound hheader
    rw [PacketWriter.put, PacketWriter.offset, drop_left]
    exact prefix_append _ _
  refine ⟨(read, q.type), ?_, hfold, rfl⟩
  simp only [walkQuestion, hread, bind, Except.bind, htype, pure, Except.pure]
  rw [if_neg (by omega), hend]

theorem questions_walk (h : PacketWriter.writeQuestions qs w = (w', none)) (hs : w.Sound) (hv : w.Valid d)
    (hd : d + qs.length ≤ maxJumps) (hq : ∀ q ∈ qs, OwnerName q.name) (hp : Inside w' p) : w'.Valid (d + qs.length) ∧
      ∃ xs, walkQuestions p qs.length w.offset = .ok (xs, w'.offset) ∧ List.Forall₂ (fun q => Meant q.name q.type) qs xs := by
  induction qs generalizing w d with
  | nil =>
    cases h
    exact ⟨hv, [], rfl, .nil⟩
  | cons q qs ih =>
    obtain ⟨v, hfirst, h⟩ := writeQuestions_cons h
    obtain ⟨hq, hqs⟩ := forall_mem_cons.mp hq
    obtain ⟨o, tail, -, -, happended⟩ := appended_question hs hfirst
    obtain ⟨more, hrest, -⟩ := appended_questions happended.sound h
    rw [length_cons] at hd ⊢
    obtain ⟨hv', x, hx, hmeant⟩ := question_walk hfirst hs hv (by omega) hq (hp.of_appended hrest)
    obtain ⟨hvalid, xs, hxs, hall⟩ := ih h happended.sound hv' (by omega) hqs
    rw [Nat.add_assoc, Nat.add_comm 1] at hvalid
    exact ⟨hvalid, x :: xs, several_cons hx hxs, .cons hmeant hall⟩

theorem writeQuestion_learns (h : w.writeQuestion q = (w', none)) : ∃ entries, w'.table = w.table ++ entries := by
  obtain ⟨v, hname, -, rfl⟩ := writeQuestion_ok h
  obtain ⟨more, hmore, -⟩ := learns_writeDomain w q.name
  rw [hname] at hmore
  exact ⟨more, hmore⟩

theorem writeQuestions_learns (h : PacketWriter.writeQuestions qs w = (w', none)) :
    ∃ entries, w'.table = w.table ++ entries := by
  induction qs generalizing w with
  | nil =>
    cases h
    exact ⟨[], (append_nil _).symm⟩
  | cons q qs ih =>
    obtain ⟨v, hfirst, h⟩ := writeQuestions_cons h
    obtain ⟨entries, hentries⟩ := writeQuestion_learns hfirst
    obtain ⟨more, hmore⟩ := ih h
    exact ⟨entries ++ more, by rw [hmore, hentries, append_assoc]⟩

theorem questions_settled (hw : w.table = []) (hoffset : w.offset = headerSize)
    (h : PacketWriter.writeQuestions (q :: qs) w = (w', none)) (hq : OwnerName q.name) (hv : w'.Valid maxJumps) :
    Settled w' q.name := by
  obtain ⟨v, hfirst, hrest⟩ := writeQuestions_cons h
  obtain ⟨u, hname, -, rfl⟩ := writeQuestion_ok hfirst
  obtain ⟨entries, hentries⟩ := writeQuestions_learns hrest
  by_cases hroot : q.name = [] ∨ q.name = [dotByte]
  · exact .inl hroot
  have hnone : w.lookup q.name = none := by
    rw [PacketWriter.lookup, if_neg hroot, hw]
    rfl
  have hlearned := writeDomain_learned (hq.head hroot) hroot hnone
  rw [hname] at hlearned
  rcases hlearned with ⟨-, hfull⟩ | hlookup
  · rcases hfull rfl with hfull | hfull
    · rw [hw] at hfull
      exact absurd hfull (by decide)
    · rw [hoffset] at hfull
      exact absurd hfull (by decide)
  · have hlast : w'.lookup q.name = some w.offset := lookup_append hentries hlookup
    obtain ⟨s, hmem, hfold⟩ := PacketWriter.mem_of_lookup hlast
    obtain ⟨hlt, j, hj, next, ls, hat, hls⟩ := hv _ hmem
    exact .inr ⟨w.offset, hlast, hlt, j, hj, next, ls, hat, hls.trans (lowered_of_equalFold hfold)⟩

end Questions

def SafeSection (owner : Bytes) (set sigs : RRSet) (w : PacketWriter) : Prop :=
  SafeRecords owner set set.rdata w ∧ SafeRecords owner sigs sigs.rdata (w.writeRRSet owner set).1

section Runs

variable {owner p : Bytes} {set sigs : RRSet} {w w' : PacketWriter} {count : UInt16}

variable (h : SectionRun owner set sigs w w' count)
include h

theorem SectionRun.walk (hr : Ready w owner) (hs : w.Sound) (hmax : w.limit ≤ maxTCPSize) (ho : OwnerName owner)
    (hp : Inside w' p) :
    (SafeSection owner set sigs w → ∃ xs, walkRecords p count.toNat w.offset = .ok (xs, w'.offset) ∧
        ∀ x ∈ xs, Meant owner set.type x ∨ Meant owner sigs.type x) ∧
      ((∃ r, walkRecords p count.toNat w.offset = .ok r) → SafeSection owner set sigs w) := by
  obtain ⟨v, k, ks, hv, hrun, hruns, hcount⟩ := h
  obtain ⟨-, more, hfirst, -⟩ := hrun.emitted hs hmax
  have hlimit := hfirst.limit_eq
  obtain ⟨-, more', hsecond, -⟩ := hruns.emitted hfirst.sound (by omega)
  obtain ⟨hforth, hback⟩ := hrun.walk hr hs hmax ho (hp.of_appended hsecond)
  unfold SafeSection
  rw [hcount, hv]
  constructor
  · rintro ⟨hset, hsigs⟩
    obtain ⟨hready, xs, hxs, hmeant⟩ := hforth hset
    obtain ⟨hforth', -⟩ := hruns.walk hready hfirst.sound (by omega) ho hp
    obtain ⟨-, ys, hys, hmeant'⟩ := hforth' hsigs
    refine ⟨xs ++ ys, several_append hxs hys, ?_⟩
    intro x hx
    rcases mem_append.mp hx with hx | hx
    · exact .inl (hmeant x hx)
    · exact .inr (hmeant' x hx)
  · rintro ⟨⟨zs, l⟩, hzs⟩
    obtain ⟨xs, ys, i, hxs, hys, -⟩ := several_append_inv hzs
    have hset := hback ⟨_, hxs⟩
    obtain ⟨hready, xs', hxs', -⟩ := hforth hset
    obtain ⟨-, rfl⟩ := Prod.mk.inj (Except.ok.inj (hxs'.symm.trans hxs))
    obtain ⟨-, hback'⟩ := hruns.walk hready hfirst.sound (by omega) ho hp
    exact ⟨hset, hback' ⟨_, hys⟩⟩

theorem SectionRun.grows (hs : w.Sound) (hmax : w.limit ≤ maxTCPSize) :
    Grows w w' ∧ w.offset + 11 * count.toNat ≤ w'.offset := by
  obtain ⟨k, hk, ks, hks, hcount, hemitted⟩ := h.emitted hs hmax
  have hge := hemitted.offset_ge hs
  rw [length_append, firstRecords_length hk, firstRecords_length hks, ← hcount] at hge
  obtain ⟨more, happended, -⟩ := hemitted
  exact ⟨⟨more, _, happended⟩, hge⟩

theorem SectionRun.table : ∃ entries, w'.table = w.table ++ entries := by
  obtain ⟨v, k, ks, -, hrun, hruns, -⟩ := h
  obtain ⟨entries, hentries⟩ := hrun.table
  obtain ⟨more, hmore⟩ := hruns.table
  exact ⟨entries ++ more, by rw [hmore, hentries, append_assoc]⟩

theorem SectionRun.settled (hw : Settled w owner) (hs : w.Sound) (hmax : w.limit ≤ maxTCPSize)
    (ho : OwnerName owner) : SafeSection owner set sigs w ∧ w'.table = w.table := by
  obtain ⟨v, k, ks, hv, hrun, hruns, -⟩ := h
  obtain ⟨-, more, hfirst, -⟩ := hrun.emitted hs hmax
  have hlimit := hfirst.limit_eq
  obtain ⟨hset, htable⟩ := hrun.settled hw hs hmax ho
  have hnext : Settled v owner := hw.mono hs hfirst ⟨[], by rw [htable, append_nil]⟩
  obtain ⟨hsigs, htable'⟩ := hruns.settled hnext hfirst.sound (by omega) ho
  unfold SafeSection
  rw [hv]
  exact ⟨⟨hset, hsigs⟩, htable'.trans htable⟩

end Runs

variable {w : PacketWriter} {m : Message} {res : Response}

theorem PacketWriter.Valid.weaken {d d' : ℕ} (h : w.Valid d) (hle : d ≤ d') : w.Valid d' := by
  intro e he
  obtain ⟨hlt, j, hj, hat⟩ := h e he
  exact ⟨hlt, j, by omega, hat⟩

theorem opt_walk {p : Bytes} (hs : w.Sound) (hmax : w.limit ≤ maxTCPSize) (hp : Inside (w.writeEDNS0 m res).1 p) :
    (w.writeEDNS0 m res).2.toNat ≤ 1 ∧
      ∃ opt, walkRecords p (w.writeEDNS0 m res).2.toNat w.offset = .ok (opt, (w.writeEDNS0 m res).1.offset) ∧
        (opt = [] ∨ opt = [([], typeOPT)]) := by
  rcases writeEDNS0_cases w m res with hnone | ⟨-, hfit, hopt⟩
  · rw [hnone]
    exact ⟨Nat.zero_le _, [], rfl, .inl rfl⟩
  · rw [hopt] at hp ⊢
    rw [← put_put] at hp ⊢
    have hroot : NameWritten w [] (w.put [0]) [] [] [0] := nameWritten_root nameLabels_nil (by omega)
    have hput : Appended w (w.put [0]) [0] False := appended_put hs (by rw [length_singleton]; omega)
    have hat : NamedAt (w.put [0]).out w.offset (nameLabels []) 0 (w.put [0]).offset :=
      ⟨[], hroot.nameAt_root hs.header, rfl⟩
    have howner : OwnerName [] := ⟨by decide, .inl rfl, by decide⟩
    have hroom : (w.put [0]).offset + 10 + ([] : Bytes).length ≤ (w.put [0]).limit := by
      rw [put_offset]
      exact hfit
    obtain ⟨⟨name, type⟩, ⟨hname, htype⟩, hwalk⟩ :=
      walkRecord_written hput.sound hat (Nat.zero_le _) howner hroom hmax hp
    have hlen := equalFoldASCII_length hname
    obtain rfl : name = [] := eq_nil_of_length_eq_zero hlen
    obtain rfl : type = typeOPT := htype
    exact ⟨le_rfl, [([], typeOPT)], several_cons hwalk rfl, .inr rfl⟩

structure Runs (m : Message) (bufLen : ℕ) (res : Response) (maxSize : ℕ) (w wa wb wc : PacketWriter) (a b c : UInt16) :
    Prop where
  limit_le : wc.limit ≤ maxTCPSize
  questions : Grows (headerWriter m bufLen res maxSize) w
  answer : SectionRun (firstName m) (res.asked m).answer (res.asked m).answerRRSIG w wa a
  answered : Grows w wa
  authority : SectionRun (authorityOwner m res) (res.asked m).authority (res.asked m).authorityRRSIG wa wb b
  authorised : Grows wa wb
  additional : SectionRun (firstName m) (res.asked m).additional RRSet.empty wb wc c
  added : Grows wb wc
  counted : 11 * c.toNat ≤ wc.offset

theorem Stages.runs {bufLen maxSize : ℕ} {bytes : Bytes} {wa wb wc : PacketWriter} {a b c : UInt16}
    (hst : Stages m bufLen res maxSize bytes w wa wb wc a b c) (hmax : min maxSize bufLen ≤ maxTCPSize) :
    Runs m bufLen res maxSize w wa wb wc a b c := by
  obtain ⟨q, hq, -⟩ := appended_questions hst.start hst.questions
  have hlimit : (headerWriter m bufLen res maxSize).limit ≤ maxTCPSize := hmax
  have hlimitq : w.limit ≤ maxTCPSize := hq.limit_eq.trans_le hlimit
  have ha := answer_run hq.sound hlimitq hst.answer
  obtain ⟨hga, -⟩ := ha.grows hq.sound hlimitq
  have hlimita : wa.limit ≤ maxTCPSize := hga.limit_eq.trans_le hlimitq
  have hb := authority_run hga.sound hlimita hst.authority
  obtain ⟨hgb, -⟩ := hb.grows hga.sound hlimita
  have hlimitb : wb.limit ≤ maxTCPSize := hgb.limit_eq.trans_le hlimita
  have hc := additional_run hgb.sound hlimitb hst.additional
  obtain ⟨hgc, hcount⟩ := hc.grows hgb.sound hlimitb
  exact ⟨hgc.limit_eq.trans_le hlimitb, ⟨_, _, hq⟩, ha, hga, hb, hgb, hc, hgc, by omega⟩

end Kdns.Wire
