import Kdns.Wire.Readback

namespace Kdns.Wire

open ByteStream Dns CompressedName Fallible List

structure Contents where
  questions : List (Bytes × RRType)
  answer : List (Bytes × RRType)
  authority : List (Bytes × RRType)
  additional : List (Bytes × RRType)
  deriving DecidableEq, Repr

def walk (p : Bytes) : Except WireError Contents := do
  let h := decodeHeader p
  let questions ← walkQuestions p h.qdCount.toNat headerSize
  let answer ← walkRecords p h.anCount.toNat questions.2
  let authority ← walkRecords p h.nsCount.toNat answer.2
  let additional ← walkRecords p h.arCount.toNat authority.2
  return ⟨questions.1, answer.1, authority.1, additional.1⟩

def IsName (name : Bytes) : Prop :=
  ∃ ls, (∀ l ∈ ls, IsLabel l) ∧ (∀ l ∈ ls, dotByte ∉ l) ∧ name = (dotted ls).dropLast ∧ name.length ≤ 253

def IsOwner (owner : Bytes) : Prop := IsName owner ∨ ∃ name, IsName name ∧ owner = name ++ [dotByte]

def SameName (owner : Bytes) (x : Bytes × RRType) : Prop :=
  equalFoldASCII x.1 (GoStrings.trimSuffix owner [dotByte]) = true

structure Decodes (m : Message) (res : Response) (bytes : Bytes) : Prop where
  read : ∃ x, walk bytes = .ok x ∧ List.Forall₂ (fun q => SameName q.name) m.questions x.questions ∧
    (∀ r ∈ x.answer, SameName (firstName m) r) ∧ (∀ r ∈ x.authority, SameName (authorityOwner m res) r) ∧
    ∃ own opt, x.additional = own ++ opt ∧ (∀ r ∈ own, SameName (firstName m) r) ∧ (opt = [] ∨ opt = [([], typeOPT)])
  accepted : (unpack bytes).2 = none

def beforeAuthority (m : Message) (bufLen : ℕ) (res : Response) (maxSize : ℕ) : PacketWriter :=
  (writeAnswerSection m res ((headerWriter m bufLen res maxSize).writeQuestions m.questions).1).1

def SafeAuthority (m : Message) (bufLen : ℕ) (res : Response) (maxSize : ℕ) : Prop :=
  SafeSection (authorityOwner m res) (res.asked m).authority (res.asked m).authorityRRSIG
    (beforeAuthority m bufLen res maxSize)

section Names

variable {name owner : Bytes}

section

variable (h : IsName name)
include h

theorem IsName.join : (dotted (nameLabels name)).dropLast = name := by
  obtain ⟨ls, hls, hdot, rfl, -⟩ := h
  rw [nameLabels_dotted hls hdot]

theorem IsName.length_le {other : Bytes} (hother : nameLabels other = nameLabels name) :
    name.length ≤ other.length := by
  have hlen := dotted_nameLabels_length other
  have hjoin := congrArg length h.join
  rw [hother] at hlen
  rw [length_dropLast] at hjoin
  omega

theorem IsName.head : name.head? ≠ some dotByte := by
  intro hhead
  obtain ⟨rest, rfl⟩ := head?_eq_some_iff.mp hhead
  have hle : (dotByte :: rest).length ≤ rest.length := h.length_le (nameLabels_dot [] rest).symm
  rw [length_cons] at hle
  omega

theorem IsName.trimSuffix : GoStrings.trimSuffix name [dotByte] = name := by
  unfold GoStrings.trimSuffix
  split_ifs with hsuffix
  · exfalso
    obtain ⟨rest, hrest⟩ := isSuffixOf_iff_suffix.mp hsuffix
    rw [← hrest] at h
    have hle := h.length_le (nameLabels_concat rest).symm
    rw [length_append, length_singleton] at hle
    omega
  · rfl

theorem IsName.ownerName : OwnerName name := by
  have hshort := dotted_nameLabels_length name
  have hhead := h.head
  obtain ⟨ls, -, -, -, hlen⟩ := h
  have hmax : maxNameLen = 255 := rfl
  exact ⟨by omega, .inr (.inr hhead), by omega⟩

end

theorem IsOwner.meaning (h : IsOwner owner) :
    OwnerName owner ∧ (dotted (nameLabels owner)).dropLast = GoStrings.trimSuffix owner [dotByte] := by
  rcases h with h | ⟨name, h, rfl⟩
  · exact ⟨h.ownerName, by rw [h.join, h.trimSuffix]⟩
  · have hshort := dotted_nameLabels_length name
    have hhead := h.head
    have hjoin := h.join
    obtain ⟨ls, -, -, -, hlen⟩ := h
    have hmax : maxNameLen = 255 := rfl
    refine ⟨⟨?_, ?_, ?_⟩, ?_⟩
    · rw [length_append, length_singleton]
      omega
    · right
      by_cases h0 : name = []
      · exact .inl (by rw [h0]; rfl)
      · right
        rw [head?_append_of_ne_nil _ h0]
        exact hhead
    · rw [nameLabels_concat]
      omega
    · have hsuffix : GoStrings.hasSuffix (name ++ [dotByte]) [dotByte] = true :=
        isSuffixOf_iff_suffix.mpr (suffix_append _ _)
      rw [nameLabels_concat, hjoin, GoStrings.trimSuffix, if_pos hsuffix, length_append, length_singleton,
        Nat.add_sub_cancel, take_left]

theorem Meant.sameName (h : IsOwner owner) {type : RRType} {x : Bytes × RRType} (hx : Meant owner type x) :
    SameName owner x := by
  rw [SameName, ← h.meaning.2]
  exact hx.1

end Names

structure Reading (m : Message) (res : Response) (bytes : Bytes) (wa : PacketWriter)
    (xs as own opt : List (Bytes × RRType)) (i j l : ℕ) : Prop where
  few : (decodeHeader bytes).qdCount.toNat ≤ maxQuestions
  questions : walkQuestions bytes (decodeHeader bytes).qdCount.toNat headerSize = .ok (xs, i)
  asked : List.Forall₂ (fun q => Meant q.name q.type) m.questions xs
  answer : walkRecords bytes (decodeHeader bytes).anCount.toNat i = .ok (as, wa.offset)
  answered : ∀ r ∈ as, ∃ type, Meant (firstName m) type r
  authority : SafeSection (authorityOwner m res) (res.asked m).authority (res.asked m).authorityRRSIG wa →
    ∃ ns, walkRecords bytes (decodeHeader bytes).nsCount.toNat wa.offset = .ok (ns, j) ∧
      ∀ r ∈ ns, ∃ type, Meant (authorityOwner m res) type r
  safe : (∃ r, walkRecords bytes (decodeHeader bytes).nsCount.toNat wa.offset = .ok r) →
    SafeSection (authorityOwner m res) (res.asked m).authority (res.asked m).authorityRRSIG wa
  additional : walkRecords bytes (decodeHeader bytes).arCount.toNat j = .ok (own ++ opt, l)
  added : ∀ r ∈ own, Meant (firstName m) (res.asked m).additional.type r ∨ Meant (firstName m) RRSet.empty.type r
  last : opt = [] ∨ opt = [([], typeOPT)]

section Read

variable {m : Message} {bufLen maxSize : ℕ} {res : Response} {bytes : Bytes} {w wa wb wc : PacketWriter} {a b c : UInt16}
  {q : Question} {qs : List Question}

variable (hst : Stages m bufLen res maxSize bytes w wa wb wc a b c)
include hst

theorem Stages.qdCount (hgrown : Grows w (wc.writeEDNS0 m res).1)
    (hq : Grows (headerWriter m bufLen res maxSize) w) : (decodeHeader bytes).qdCount.toNat = m.questions.length := by
  obtain ⟨more, cut, hall⟩ := hq.trans hgrown
  have hten : maxQuestions = 10 := rfl
  have hfew := hst.few
  rw [hst.header]
  simp only [decodeHeader, hall.questions, headerWriter, headerBytes_questions, UInt16.toNat_ofNat']
  omega

theorem Stages.reading (hmax : min maxSize bufLen ≤ maxTCPSize) (hfirst : m.questions = q :: qs)
    (hnames : ∀ q ∈ m.questions, OwnerName q.name) (howner : OwnerName (authorityOwner m res)) :
    ∃ xs as own opt i j l, Reading m res bytes wa xs as own opt i j l := by
  have hr := hst.runs hmax
  have hopt := grows_writeEDNS0 hr.added.sound m res
  have hname : firstName m = q.name := by rw [firstName, hfirst]; rfl
  have hown : OwnerName (firstName m) := by grind
  have hoffset : (headerWriter m bufLen res maxSize).offset = headerSize := by rfl
  have htcp : maxTCPSize = 65535 := rfl
  -- each writer is inside the finished packet
  have hinsideo : Inside (wc.writeEDNS0 m res).1 bytes := ⟨[], by rw [hst.body, append_nil]⟩
  have hinsidec := hinsideo.of_grows hopt
  have hinsideb := hinsidec.of_grows hr.added
  have hinsidea := hinsideb.of_grows hr.authorised
  have hinside := hinsidea.of_grows hr.answered
  have hlimitb : wb.limit ≤ maxTCPSize := hr.added.limit_eq.symm.trans_le hr.limit_le
  have hlimita : wa.limit ≤ maxTCPSize := hr.authorised.limit_eq.symm.trans_le hlimitb
  have hlimit : w.limit ≤ maxTCPSize := hr.answered.limit_eq.symm.trans_le hlimita
  -- questions
  have hqd := hst.qdCount (hst.grown.trans hopt) hr.questions
  have hten : maxQuestions = maxJumps := rfl
  have hfew := hst.few
  have hempty : (headerWriter m bufLen res maxSize).Valid 0 := by
    intro e he
    cases he
  obtain ⟨hvalid, xs, hxs, hasked⟩ := questions_walk hst.questions hst.start hempty (by omega) hnames hinside
  have hvalid' : w.Valid maxJumps := hvalid.weaken (by omega)
  have hsettled : Settled w (firstName m) := by
    rw [hname] at hown ⊢
    exact questions_settled rfl hoffset (hfirst ▸ hst.questions) hown hvalid'
  -- answer
  obtain ⟨hsafea, htable⟩ := hr.answer.settled hsettled hr.questions.sound hlimit hown
  obtain ⟨as, has, hanswered⟩ := (hr.answer.walk hsettled.ready hr.questions.sound hlimit hown hinsidea).1 hsafea
  have hvalida : wa.Valid maxJumps := by
    obtain ⟨_, _, hg⟩ := hr.answered
    exact hvalid'.mono hr.questions.sound hg htable
  -- authority
  obtain ⟨hforth, hback⟩ := hr.authority.walk (hvalida.ready _) hr.answered.sound hlimita howner hinsideb
  -- additional
  have hsettledb : Settled wb (firstName m) := by
    obtain ⟨_, _, hg⟩ := hr.answered.trans hr.authorised
    apply hsettled.mono hr.questions.sound hg
    obtain ⟨entries, hentries⟩ := hr.authority.table
    exact ⟨entries, by rw [hentries, htable]⟩
  obtain ⟨hsafec, -⟩ := hr.additional.settled hsettledb hr.authorised.sound hlimitb hown
  obtain ⟨own, hownwalk, hadded⟩ := (hr.additional.walk hsettledb.ready hr.authorised.sound hlimitb hown hinsidec).1 hsafec
  obtain ⟨hle, opt, hoptwalk, hlast⟩ := opt_walk hr.added.sound hr.limit_le hinsideo
  have har : (c + (wc.writeEDNS0 m res).2).toNat = c.toNat + (wc.writeEDNS0 m res).2.toNat := by
    have hcount := hr.counted
    have hfits := hr.added.sound.fits
    have hlimitc := hr.limit_le
    exact Nat.mod_eq_of_lt (by change c.toNat + (wc.writeEDNS0 m res).2.toNat < 65536; omega)
  refine ⟨xs, as, own, opt, w.offset, wb.offset, (wc.writeEDNS0 m res).1.offset, hqd.trans_le hfew, ?_, hasked, ?_, ?_, ?_, ?_, ?_, hadded, hlast⟩
  · rw [hqd, ← hoffset]
    exact hxs
  · rw [hst.header]
    exact has
  · intro r hr
    rcases hanswered r hr with h | h
    · exact ⟨_, h⟩
    · exact ⟨_, h⟩
  · intro hsafe
    obtain ⟨ns, hns, hmeant⟩ := hforth hsafe
    refine ⟨ns, ?_, ?_⟩
    · rw [hst.header]
      exact hns
    · intro r hr
      rcases hmeant r hr with h | h
      · exact ⟨_, h⟩
      · exact ⟨_, h⟩
  · rw [hst.header]
    exact hback
  · rw [hst.header]
    rw [har]
    exact several_append hownwalk hoptwalk

theorem Stages.beforeAuthority_eq : beforeAuthority m bufLen res maxSize = wa := by
  rw [beforeAuthority, hst.questions, hst.answer]

end Read

theorem walk_ok {p : Bytes} {xs as ns cs : List (Bytes × RRType)} {i j k l : ℕ}
    (hquestions : walkQuestions p (decodeHeader p).qdCount.toNat headerSize = .ok (xs, i))
    (hanswer : walkRecords p (decodeHeader p).anCount.toNat i = .ok (as, j))
    (hauthority : walkRecords p (decodeHeader p).nsCount.toNat j = .ok (ns, k))
    (hadditional : walkRecords p (decodeHeader p).arCount.toNat k = .ok (cs, l)) : walk p = .ok ⟨xs, as, ns, cs⟩ := by
  simp only [walk, hquestions, hanswer, hauthority, hadditional, bind, Except.bind, pure, Except.pure]

theorem walk_authority {p : Bytes} {x : Contents} (h : walk p = .ok x) {xs as : List (Bytes × RRType)} {i j : ℕ}
    (hquestions : walkQuestions p (decodeHeader p).qdCount.toNat headerSize = .ok (xs, i))
    (hanswer : walkRecords p (decodeHeader p).anCount.toNat i = .ok (as, j)) :
    ∃ r, walkRecords p (decodeHeader p).nsCount.toNat j = .ok r := by
  simp only [walk, hquestions, hanswer, bind, Except.bind] at h
  rcases hns : walkRecords p (decodeHeader p).nsCount.toNat j with e | r
  · rw [hns] at h
    cases h
  · exact ⟨r, rfl⟩

theorem asked_additional_type {m : Message} {res : Response} (h : res.additional.type ≠ typeOPT) :
    (res.asked m).additional.type ≠ typeOPT := by
  unfold Response.asked askedSet
  dsimp only
  split_ifs
  · exact h
  · decide

theorem filter_opt {own opt : List (Bytes × RRType)} (hown : ∀ r ∈ own, r.2 ≠ typeOPT)
    (hopt : opt = [] ∨ opt = [([], typeOPT)]) : ((own ++ opt).filter fun r => r.2 = typeOPT).length ≤ 1 := by
  have hnone : own.filter (fun r => decide (r.2 = typeOPT)) = [] := by
    apply filter_eq_nil_iff.mpr
    intro r hr
    simpa using hown r hr
  rw [filter_append, hnone, nil_append]
  rcases hopt with rfl | rfl
  · exact Nat.zero_le _
  · exact le_rfl

section Asked

variable {qs : List Question} {xs : List (Bytes × RRType)}

variable (h : List.Forall₂ (fun q => Meant q.name q.type) qs xs)
include h

theorem types_of_meant :
    (∀ q ∈ qs, q.type ≠ typeOPT) ↔ ∀ x ∈ xs, x.2 ≠ typeOPT := by
  induction h with
  | nil => exact iff_of_true nofun nofun
  | cons hx _ ih => rw [forall_mem_cons, forall_mem_cons, ih, hx.2]

theorem sameNames_of_meant (hnames : ∀ q ∈ qs, IsName q.name) :
    List.Forall₂ (fun q => SameName q.name) qs xs := by
  induction h with
  | nil => exact .nil
  | cons hx _ ih =>
    obtain ⟨hname, hnames⟩ := forall_mem_cons.mp hnames
    exact .cons (hx.sameName (.inl hname)) (ih hnames)

end Asked

/-- The names of a response are read as they were meant, and the response is accepted, exactly if no question asks for OPT
and no record of the authority section is written over a bad pointer. -/
theorem decodes_iff {m : Message} {bufLen maxSize : ℕ} {res : Response} {bytes : Bytes} (hmax : min maxSize bufLen ≤ maxTCPSize)
    (hq : m.questions ≠ []) (hnames : ∀ q ∈ m.questions, IsName q.name) (howner : IsOwner res.authorityName)
    (hopt : res.additional.type ≠ typeOPT) (h : packResponse m bufLen res maxSize = .ok bytes) :
    Decodes m res bytes ↔ (∀ q ∈ m.questions, q.type ≠ typeOPT) ∧ SafeAuthority m bufLen res maxSize := by
  obtain ⟨q, qs, hfirst⟩ := exists_cons_of_ne_nil hq
  have hname : IsOwner (firstName m) := by
    rw [firstName, hfirst]
    exact .inl (hnames q (by rw [hfirst]; exact mem_cons_self))
  have hauthority : IsOwner (authorityOwner m res) := by
    unfold authorityOwner
    split_ifs
    · exact hname
    · exact howner
  obtain ⟨w, wa, wb, wc, a, b, c, hst⟩ := packResponse_stages h
  obtain ⟨xs, as, own, opt, i, j, l, hread⟩ :=
    hst.reading hmax hfirst (fun q hq => (hnames q hq).ownerName) hauthority.meaning.1
  rw [SafeAuthority, hst.beforeAuthority_eq]
  have htypes := types_of_meant hread.asked
  constructor
  · rintro ⟨⟨x, hwalk, -⟩, haccepted⟩
    exact ⟨htypes.mpr (unpack_types haccepted hread.questions), hread.safe (walk_authority hwalk hread.questions hread.answer)⟩
  · rintro ⟨hquestions, hsafe⟩
    obtain ⟨ns, hns, hauthorised⟩ := hread.authority hsafe
    have hadded : ∀ r ∈ own, r.2 ≠ typeOPT := by
      intro r hr
      rcases hread.added r hr with hmeant | hmeant
      · rw [hmeant.2]
        exact asked_additional_type hopt
      · rw [hmeant.2]
        decide
    have hlen : headerSize ≤ bytes.length := (packResponse_rcode h).whole
    constructor
    · refine ⟨_, walk_ok hread.questions hread.answer hns hread.additional, ?_, ?_, ?_, own, opt, rfl, ?_, hread.last⟩
      · exact sameNames_of_meant hread.asked hnames
      · intro r hr
        obtain ⟨type, hmeant⟩ := hread.answered r hr
        exact hmeant.sameName hname
      · intro r hr
        obtain ⟨type, hmeant⟩ := hauthorised r hr
        exact hmeant.sameName hauthority
      · intro r hr
        rcases hread.added r hr with hmeant | hmeant
        · exact hmeant.sameName hname
        · exact hmeant.sameName hname
    · exact unpack_walk hlen hread.few hread.questions (htypes.mp hquestions) hread.answer hns hread.additional
        (filter_opt hadded hread.last)

def deniedName : Bytes := [0x62, dotByte, 0x7A]

/-- The owner ends in a dot, so it is not found among the suffixes of the question's name. -/
def signedDenial : Response where
  rcode := .nameError
  authority := ⟨[replicate 240 0], 300, typeSOA, classIN⟩
  authorityRRSIG := ⟨[replicate 100 0], 300, typeRRSIG, classIN⟩
  authorityName := [0x7A, dotByte]

def denialQuery (name : Bytes) (size : ℕ) : Message := ⟨⟨7, 0x0100, 1, 0, 0, 1⟩, [⟨name, 1, classIN⟩], size, true, 0⟩

theorem signedDenial_owner : IsOwner signedDenial.authorityName :=
  .inr ⟨[0x7A], ⟨[[0x7A]], by simp; exact ⟨nofun, by decide⟩, by decide, by decide, by decide⟩, rfl⟩

theorem decodes_iff_denial :
    ∃ bytes, packResponse (denialQuery deniedName 1232) 4096 signedDenial 1232 = .ok bytes ∧
      Decodes (denialQuery deniedName 1232) signedDenial bytes := by
  obtain ⟨bytes, hbytes, -⟩ : ∃ bytes, packResponse (denialQuery deniedName 1232) 4096 signedDenial 1232 = .ok bytes ∧
      bytes ≠ [] := exists_ok (by decide +kernel)
  refine ⟨bytes, hbytes, ?_⟩
  have hnames : ∀ q ∈ (denialQuery deniedName 1232).questions, IsName q.name := by
    intro q hq
    obtain rfl := mem_singleton.mp hq
    exact ⟨[[0x62], [0x7A]], by simp; exact ⟨⟨nofun, by decide⟩, nofun, by decide⟩, by decide, by decide, by decide⟩
  have hiff := decodes_iff (by decide : min 1232 4096 ≤ maxTCPSize) (cons_ne_nil _ _) hnames signedDenial_owner
    (show signedDenial.additional.type ≠ typeOPT by decide) hbytes
  refine hiff.mpr ⟨by decide, ⟨?_, fun _ _ _ => trivial⟩, ⟨Settled.safe (.inr ⟨21, ?_⟩), fun _ _ _ => trivial⟩⟩
  · rintro ⟨t, hlookup, -⟩
    have hfresh : (beforeAuthority (denialQuery deniedName 1232) 4096 signedDenial 1232).lookup [0x7A, dotByte] = none := by
      decide +kernel
    exact absurd (hfresh.symm.trans hlookup) nofun
  · refine ⟨by decide +kernel, by decide +kernel, 0, by decide, 24, [[0x7A]], ?_, rfl⟩
    exact .label (by decide) ⟨nofun, by decide⟩ (by decide +kernel) (.root (by decide) (by decide +kernel))

def longName : Bytes :=
  (dotted [replicate 63 0x61, replicate 63 0x61, replicate 63 0x61, replicate 56 0x61, [0x7A]]).dropLast

theorem signature_points_to_itself :
    (∀ q ∈ (denialQuery longName 512).questions, IsName q.name) ∧ IsOwner signedDenial.authorityName ∧
      ∃ bytes, packResponse (denialQuery longName 512) 4096 signedDenial 512 = .ok bytes ∧
        (unpack bytes).2 = some .invalidPointer := by
  refine ⟨?_, signedDenial_owner, ?_⟩
  · intro q hq
    obtain rfl := mem_singleton.mp hq
    refine ⟨_, ?_, ?_, rfl, by decide +kernel⟩
    · intro l hl
      simp only [mem_cons, not_mem_nil, or_false] at hl
      rcases hl with rfl | rfl | rfl | rfl | rfl <;> exact ⟨nofun, by decide⟩
    · decide +kernel
  · exact exists_ok (by decide +kernel)

end Kdns.Wire
