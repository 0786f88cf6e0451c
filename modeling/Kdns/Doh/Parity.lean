import Kdns.Dnssec.Denial
import Kdns.Dnssec.Sizes
import Kdns.Doh.Handler
import Kdns.Server.Reflection
import Kdns.Wire.Kept

namespace Kdns.Doh

open ByteStream Dns Wire GoStrings Radix Dnssec DnsServer List

section Plain

theorem writable_of_isRest {d name : Bytes} (hd : d.length < maxNameLen ∧ Segmented d) (h : IsRest d name) : Writable name := by
  rcases h with rfl | ⟨n, rfl⟩
  · exact ⟨by decide, segmented_of_length (by decide)⟩
  · refine ⟨?_, hd.2.drop n⟩
    rw [length_drop]
    exact (Nat.sub_le _ _).trans hd.1.le

theorem plain_of_shape {d : Bytes} {r : Result} (hd : d.length < maxNameLen ∧ Segmented d) (h : Shape d r) : Plain r where
  owner := writable_of_isRest hd h.authorityName
  single := by
    cases h with
    | answer a => exact .inr rfl
    | referral => exact .inl rfl
    | negative => exact .inl rfl
  answer := by
    cases h with
    | answer a => exact .inl rfl
    | referral => exact .inl rfl
    | negative => exact .inr rfl

end Plain

section Records

variable {set set' : RRSet} {k : ℕ}

theorem type_of_mem_firstRecords {x : WireRecord} (h : x ∈ firstRecords set k) : x.type = set.type := by
  obtain ⟨rdata, -, rfl⟩ := mem_map.mp h
  rfl

theorem type_of_subset {j : ℕ} (hk : k ≤ set.rdata.length) (hsub : firstRecords set k ⊆ firstRecords set' j) (h : 0 < k) :
    set.type = set'.type ∧ set'.hasRecords = true := by
  rw [← firstRecords_length hk] at h
  obtain ⟨x, hx⟩ := exists_mem_of_length_pos h
  refine ⟨(type_of_mem_firstRecords hx).symm.trans (type_of_mem_firstRecords (hsub hx)), ?_⟩
  by_contra hnone
  have hmem := hsub hx
  rw [firstRecords, rdata_of_hasRecords (Bool.eq_false_iff.mpr hnone), take_nil] at hmem
  cases hmem

def shown (set : RRSet) : Option RRSet := if set.hasRecords then some set else none

theorem shown_of_records (h : firstRecords set set.rdata.length = firstRecords set' set'.rdata.length) :
    shown set = shown set' := by
  rw [firstRecords, firstRecords, take_length, take_length] at h
  obtain ⟨rdata, ttl, type, rrClass⟩ := set
  obtain ⟨rdata', ttl', type', rrClass'⟩ := set'
  cases rdata with
  | nil =>
    obtain rfl : rdata' = [] := map_eq_nil_iff.mp h.symm
    rfl
  | cons x rest =>
    have hdata : x :: rest = rdata' := by
      have hmap := congrArg (List.map WireRecord.rdata) h
      simpa [wireRecord, map_map, Function.comp_def] using hmap
    subst hdata
    obtain ⟨hx, -⟩ := List.cons.inj h
    obtain ⟨rfl, rfl, rfl, -⟩ := hx
    rfl

end Records

theorem same_bytes {α : Type} {x y : Except WireError α} {a : α} (hx : x = .ok a) (h : x.toOption = y.toOption) :
    y = .ok a := by
  rw [hx] at h
  cases y with
  | error e => cases h
  | ok b =>
    cases h
    rfl

section Signed

variable {msg : Message} {q : Question} {qs : List Question} {r : Result} {res : Response}

theorem signed_differs (hm : Repeatable msg) (hq : msg.questions = q :: qs) (hdo : msg.wantsDNSSEC = true)
    (hshape : Shape q.name r) (h : SignedAs q.name r res) (hne : res ≠ .ofResult r) :
    (packResponse msg maxWirePayloadSize (.ofResult r) maxTCPSize).toOption ≠
      (packResponse msg maxTCPSize res maxTCPSize).toOption := by
  intro heq
  have hname := hm.named q (by rw [hq]; exact mem_cons_self)
  have hplain := plain_of_shape hname hshape
  have hlong : maxNameLen = 255 := rfl
  have hfirst : firstName msg = q.name := by simp [firstName, hq]
  obtain ⟨bytes, hd⟩ : ∃ bytes, packResponse msg maxWirePayloadSize (.ofResult r) maxTCPSize = .ok bytes :=
    packResponse_total hm hplain (by decide)
  have ht := same_bytes hd heq
  have hlen : bytes.length ≤ 4096 := packResponse_length hd
  obtain ⟨ka, hka, kb, hkb, opt, hread, -⟩ := packResponse_plain hm hplain (by simp [hq]) (by decide) hd
  obtain ⟨kept, opt', hc⟩ := packResponse_carries hm (by decide) ht
  have hlimit : min maxTCPSize maxTCPSize = 65535 := rfl
  have hsame := Option.some.inj (hread.symm.trans hc.read)
  have hanswer := congrArg Sections.answer hsame
  have hauthority := congrArg Sections.authority hsame
  dsimp only [Kept.sections] at hanswer hauthority
  -- the signed response carries the first record that it adds, which is none of the plain response
  have hset := type_of_subset hc.within.1 (hanswer ▸ subset_append_left _ _)
  have hsigs := type_of_subset hc.within.2.1 (hanswer ▸ subset_append_right _ _)
  have hdenied := type_of_subset hc.within.2.2.1 (hauthority ▸ subset_append_left _ _)
  cases h with
  | same => exact hne rfl
  | @answer rrsig rdata hrcode hans htype hsig hrdata hsmall =>
    have hasked : (Response.asked msg { Response.ofResult r with answerRRSIG := rrsig }).answerRRSIG = rrsig := by
      have hsigned : rrsig.hasRecords = true := by simp [RRSet.hasRecords, hrdata]
      have hany : r.hasAnswer = true := hans
      simp only [Response.asked, Response.hasAnswerRRSIG, Response.ofResult, hq, hrcode, hdo, hsigned, hany]
      rfl
    have hkept := hc.answerRRSIG
    rw [hasked] at hkept hsigs
    exact htype ((hsigs (hkept ⟨rdata, [], hrdata, by rw [hfirst]; omega⟩)).1.symm.trans hsig)
  | @denial record sig owner rdata htype howner hrdata hsmall =>
    have hasked : (Response.asked msg ({ r with authority := record, authorityRRSIG := sig, authorityName := owner } : Response)).authority =
        record := by
      simp only [Response.asked, hq]
      rfl
    have hkept := hc.authority
    rw [hasked] at hkept hdenied
    have howner' : (authorityOwner msg ({ r with authority := record, authorityRRSIG := sig, authorityName := owner } : Response)).length ≤
        4 * q.name.length + 1 := by
      unfold authorityOwner
      split_ifs
      · rw [hfirst]
        omega
      · exact howner
    exact authority_type hshape ((hdenied (hkept ⟨rdata, [], hrdata, by omega⟩)).1.symm.trans htype)
  | @keys set sig rdata rest hans htype hrdata hsmall =>
    have hasked : (Response.asked msg { Response.ofResult r with
        rcode := .success, answer := set, answerRRSIG := sig }).answer = set := by
      simp only [Response.asked, hq]
      rfl
    have hkept := hc.answer
    rw [hasked] at hkept hset
    obtain ⟨hsame, hany⟩ := hset (hkept ⟨rdata, rest, hrdata, by rw [hfirst]; omega⟩)
    rcases hans with hnone | hother
    · exact Bool.false_ne_true (hnone.symm.trans hany)
    · exact hother (hsame.symm.trans htype)

end Signed

section Chaos

variable {σ ε : Type} {msg : Message} {q : Question} {qs : List Question} {r c : Result}

def ShortTexts (srv : Server σ ε) : Prop :=
  ∀ wire ∈ [srv.versionWire, srv.identityWire, srv.authorsWire], ∃ text, wire = [text] ∧ text.length ≤ 4096

structure Brief (c : Result) : Prop where
  plain : Plain c
  authority : c.authority = .empty
  answer : c.answer.rdata = [] ∨ ∃ text, c.answer.rdata = [text] ∧ text.length ≤ 4096

theorem resolveCHAOS_brief (rt : Runtime) {srv : Server σ ε} (hsrv : ShortTexts srv) (name : Bytes) (type : RRType) :
    Brief (resolveCHAOS rt srv name type) := by
  have hroot : Writable [] := ⟨Nat.zero_le _, segmented_of_length (Nat.zero_le _)⟩
  have hnone : ∀ rcode, Brief { rcode := rcode } := fun rcode => ⟨⟨.inl rfl, .inr rfl, hroot⟩, rfl, .inl rfl⟩
  have htext : ∀ wire ∈ [srv.versionWire, srv.identityWire, srv.authorsWire],
      Brief { rcode := .success, answer := ⟨wire, 0, typeTXT, classCH⟩ } :=
    fun wire hwire => ⟨⟨.inr rfl, .inl rfl, hroot⟩, rfl, .inr (hsrv wire hwire)⟩
  unfold resolveCHAOS
  dsimp only
  split_ifs
  · exact htext _ (by simp)
  · exact hnone _
  · exact htext _ (by simp)
  · exact hnone _
  · exact htext _ (by simp)
  · exact hnone _
  · exact hnone _

structure Matches (c r : Result) : Prop where
  rcode : c.rcode = r.rcode
  answer : shown c.answer = shown r.answer
  authority : r.hasAuthority = false

theorem Matches.packResponse_eq (h : Matches c r) (hc : c.authority = .empty) (msg : Message) (bufLen maxSize : ℕ) :
    packResponse msg bufLen (.ofResult c) maxSize = packResponse msg bufLen (.ofResult r) maxSize := by
  have hnone : (Response.ofResult c).hasAuthority = false := by
    change c.authority.hasRecords = false
    rw [hc]
    rfl
  have hnone' : (Response.ofResult r).hasAuthority = false := h.authority
  have hrcode : (Response.ofResult c).rcode = (Response.ofResult r).rcode := h.rcode
  -- without records the answer is not looked at, and with records it is the same
  have hanswer : ∀ w, writeAnswerSection msg (.ofResult c) w = writeAnswerSection msg (.ofResult r) w := by
    intro w
    have hshown := h.answer
    unfold shown at hshown
    unfold writeAnswerSection
    rw [hrcode]
    cases hany : c.answer.hasRecords with
    | true =>
      cases hany' : r.answer.hasRecords with
      | true =>
        rw [hany, hany', if_pos rfl, if_pos rfl] at hshown
        have hsame : (Response.ofResult c).answer = (Response.ofResult r).answer := Option.some.inj hshown
        rw [show (Response.ofResult c).hasAnswer = true from hany, show (Response.ofResult r).hasAnswer = true from hany', hsame]
        rfl
      | false =>
        rw [hany, hany'] at hshown
        cases hshown
    | false =>
      cases hany' : r.answer.hasRecords with
      | true =>
        rw [hany, hany'] at hshown
        cases hshown
      | false =>
        rw [show (Response.ofResult c).hasAnswer = false from hany, show (Response.ofResult r).hasAnswer = false from hany']
        simp only [Bool.false_eq_true, and_false, if_false]
  have hflags : responseFlags msg (.ofResult c) = responseFlags msg (.ofResult r) := by
    simp only [responseFlags, hnone, hnone', hrcode, Bool.false_eq_true, false_and, and_false, if_false]
  have hauthority : ∀ w, writeAuthoritySection msg (.ofResult c) w = writeAuthoritySection msg (.ofResult r) w := by
    intro w
    simp only [writeAuthoritySection, hnone, hnone', Bool.false_eq_true, if_false]
  have hedns : ∀ w : PacketWriter, w.writeEDNS0 msg (.ofResult c) = w.writeEDNS0 msg (.ofResult r) := by
    intro w
    simp only [PacketWriter.writeEDNS0, hrcode]
  simp only [packResponse, writeSections, hflags, hanswer, hauthority, hedns, writeAdditionalSection_ofResult]

theorem matches_of_same (hm : Repeatable msg) (hq : msg.questions ≠ []) (hr : Plain r) (hc : Brief c) {bytes : Bytes}
    (hd : packResponse msg maxWirePayloadSize (.ofResult r) maxTCPSize = .ok bytes)
    (ht : packResponse msg maxTCPSize (.ofResult c) maxTCPSize = .ok bytes) : Matches c r := by
  have hlen : bytes.length ≤ 4096 := packResponse_length hd
  have hname := (firstName_writable hm).length_le
  have hlong : maxNameLen = 255 := rfl
  have hlimit : min maxTCPSize maxTCPSize = 65535 := rfl
  obtain ⟨ka, hka, kb, hkb, opt, hread, hcut, -⟩ := packResponse_plain hm hr hq (by decide) hd
  obtain ⟨ka', hka', kb', hkb', opt', hread', hcut', hfirst⟩ := packResponse_plain hm hc.plain hq (by decide) ht
  have hauthority : c.authority.rdata = [] := by rw [hc.authority]; rfl
  rw [hauthority, length_nil] at hkb' hcut'
  have hall : ka' = c.answer.rdata.length := by
    rcases hc.answer with hnil | ⟨text, htext, hsmall⟩
    · rw [hnil] at hka' ⊢
      exact Nat.le_zero.mp hka'
    · have hpos := hfirst ⟨text, [], htext, by omega⟩
      rw [htext, length_singleton] at hka' ⊢
      omega
  have hwhole : ¬ Truncated bytes := by
    rw [hcut']
    omega
  rw [hcut] at hwhole
  obtain rfl : ka = r.answer.rdata.length := by omega
  obtain rfl : kb = r.authority.rdata.length := by omega
  have hsame := Option.some.inj (hread.symm.trans hread')
  have hanswers := congrArg Sections.answer hsame
  have hauthorities := congrArg Sections.authority hsame
  dsimp only at hanswers hauthorities
  constructor
  · have hcode := (packResponse_rcode ht).rcode.symm.trans (packResponse_rcode hd).rcode
    apply RCode.eq_of_code
    have hlt := c.rcode.code_lt
    have hlt' := r.rcode.code_lt
    have hnat := congrArg UInt16.toNat hcode
    rw [UInt16.toNat_ofNat', UInt16.toNat_ofNat', Nat.mod_eq_of_lt, Nat.mod_eq_of_lt] at hnat
    · exact hnat
    · exact hlt'.trans (by decide)
    · exact hlt.trans (by decide)
  · rw [hall] at hanswers
    exact shown_of_records hanswers.symm
  · rw [hc.authority, firstRecords_empty] at hauthorities
    have hlast := firstRecords_length (le_refl r.authority.rdata.length)
    rw [hauthorities, length_nil] at hlast
    have hnil := eq_nil_of_length_eq_zero hlast.symm
    rw [Result.hasAuthority, RRSet.hasRecords, hnil]
    rfl

end Chaos

section Stream

variable {σ ε : Type} {rt : Runtime} {srv : Server σ ε} {m : Moment} {s : σ} {query : Bytes} {msg : Message}

theorem bufLen_tcp : Transport.tcp.bufLen = maxTCPSize := rfl

theorem size_tcp : Transport.tcp.size = maxTCPSize := rfl

theorem resolve_unread {e : Tsig.ExtractError} (h : Tsig.extract rt.unicode query = .error e) :
    (resolve rt srv m s query .tcp).answer.toOption = none := by
  rw [resolve, authenticateTSIG, h]
  rfl

variable (h : Tsig.extract rt.unicode query = .ok (none, query))
include h

theorem authenticateTSIG_unsigned : authenticateTSIG rt srv m query = .ok ⟨none, query, none, 0⟩ := by
  rw [authenticateTSIG, h]

theorem resolve_error {err : WireError} (herr : unpack query = (msg, some err)) :
    (resolve rt srv m s query .tcp).answer.toOption =
      if err = .multipleOPT then (packResponse msg maxTCPSize (.ofRCode .formatError) maxUDPSize).toOption else none := by
  rw [resolve, authenticateTSIG_unsigned h]
  dsimp only
  rw [herr]
  by_cases hopt : err = .multipleOPT
  · subst hopt
    dsimp only
    rw [handleMultipleOPT, bufLen_tcp]
    cases packResponse msg maxTCPSize (.ofRCode .formatError) maxUDPSize <;> rfl
  · rw [if_neg hopt]
    cases err <;> first | rfl | exact absurd rfl hopt

theorem resolve_query {q : Question} {qs : List Question} (hmsg : unpack query = (msg, none))
    (hqr : msg.header.isResponse = false) (hop : msg.header.opcode = opcodeQuery)
    (hqs : msg.questions = q :: qs) : (resolve rt srv m s query .tcp).answer.toOption =
      (packResponse msg maxTCPSize (handleQuery rt srv m s q msg.wantsDNSSEC).2 maxTCPSize).toOption := by
  have hdispatch : dispatch rt srv m s msg q ⟨none, query, none, 0⟩ =
      ((handleQuery rt srv m s q msg.wantsDNSSEC).1, [], .ok (handleQuery rt srv m s q msg.wantsDNSSEC).2) := by
    rw [dispatch, if_neg (by simp [TsigAuth.present]), if_pos hop]
  rw [resolve, authenticateTSIG_unsigned h]
  dsimp only
  rw [hmsg]
  dsimp only
  rw [hqr, if_neg Bool.false_ne_true, hqs]
  dsimp only
  rw [hdispatch, conclude, respond, bufLen_tcp, size_tcp, maxPayloadSize_stream]
  cases hpack : packResponse msg maxTCPSize (handleQuery rt srv m s q msg.wantsDNSSEC).2 maxTCPSize with
  | error e => rfl
  | ok bytes =>
    dsimp only
    rw [if_neg (packResponse_pos hpack).ne']
    rfl

end Stream

section Parity

variable {ε : Type} (rt : Runtime) (srv : Server Tree ε) (mgr : Option (Manager rt.unicode)) (m : Moment) (t : Tree)

def SameResult (q : Question) (wantsDNSSEC : Bool) : Prop :=
  if q.rrClass = classCH then Matches (resolveCHAOS rt srv q.name q.type) (t.resolve q.name q.type)
  else wantsDNSSEC = true → ∀ mg ∈ mgr,
    mg.signResult q.name q.type (t.resolve q.name q.type) m.now = .ofResult (t.resolve q.name q.type)

/-- Both transports answer, with a result and within a size that make no difference between them, or neither does. -/
def AnswersAlike (query : Bytes) : Prop :=
  match Tsig.extract rt.unicode query, unpack query with
  | .error _, (_, err) => err ≠ none ∧ err ≠ some .multipleOPT
  | .ok _, (msg, some err) =>
    err = .multipleOPT → packedSize msg maxWirePayloadSize (.ofRCode .formatError) maxTCPSize ≤ maxUDPSize
  | .ok _, (msg, none) => ∀ q ∈ msg.questions.head?, SameResult rt srv mgr m t q msg.wantsDNSSEC ∧
      packedSize msg maxTCPSize (.ofResult (t.resolve q.name q.type)) maxTCPSize ≤ maxWirePayloadSize

variable {rt srv} in
theorem packed_same_iff (hu : rt.unicode.Regular) (hsrv : ShortTexts srv) {msg : Message} {q : Question} {qs : List Question}
    (hm : Repeatable msg) (hqs : msg.questions = q :: qs) :
    (packResponse msg maxWirePayloadSize (.ofResult (t.resolve q.name q.type)) maxTCPSize).toOption =
        (packResponse msg maxTCPSize (handleQuery rt (signing rt srv mgr) m t q msg.wantsDNSSEC).2
          maxTCPSize).toOption ↔
      SameResult rt srv mgr m t q msg.wantsDNSSEC ∧
        packedSize msg maxTCPSize (.ofResult (t.resolve q.name q.type)) maxTCPSize ≤ maxWirePayloadSize := by
  have hshape := t.resolve_shape q.name q.type
  have hplain := plain_of_shape (hm.named q (by rw [hqs]; exact mem_cons_self)) hshape
  have hsize : (packResponse msg maxWirePayloadSize (.ofResult (t.resolve q.name q.type)) maxTCPSize).toOption =
      (packResponse msg maxTCPSize (.ofResult (t.resolve q.name q.type)) maxTCPSize).toOption ↔
      packedSize msg maxTCPSize (.ofResult (t.resolve q.name q.type)) maxTCPSize ≤ maxWirePayloadSize :=
    packResponse_same_iff hm hplain (by decide) (by decide)
  rw [← hsize]
  by_cases hclass : q.rrClass = classCH
  · have hbrief : Brief (resolveCHAOS rt srv q.name q.type) := resolveCHAOS_brief rt hsrv q.name q.type
    have hchaos : (handleQuery rt (signing rt srv mgr) m t q msg.wantsDNSSEC).2 =
        .ofResult (resolveCHAOS rt srv q.name q.type) := by
      rw [handleQuery, if_pos hclass]
      rfl
    rw [SameResult, if_pos hclass, hchaos]
    constructor
    · intro heq
      obtain ⟨bytes, hd⟩ : ∃ bytes, packResponse msg maxWirePayloadSize (.ofResult (t.resolve q.name q.type)) maxTCPSize =
        .ok bytes := packResponse_total hm hplain (by decide)
      have hmatch := matches_of_same hm (by simp [hqs]) hplain hbrief hd (same_bytes hd heq)
      rw [← hmatch.packResponse_eq hbrief.authority msg maxTCPSize maxTCPSize]
      exact ⟨hmatch, heq⟩
    · rintro ⟨hmatch, heq⟩
      rw [hmatch.packResponse_eq hbrief.authority]
      exact heq
  · rw [SameResult, if_neg hclass]
    cases mgr with
    | none =>
      have hres : (handleQuery rt (signing rt srv none) m t q msg.wantsDNSSEC).2 = .ofResult (t.resolve q.name q.type) := by
        rw [handleQuery, if_neg hclass]
        rfl
      rw [hres]
      simp
    | some mg =>
      cases hdo : msg.wantsDNSSEC with
      | false =>
        have hres : (handleQuery rt (signing rt srv (some mg)) m t q false).2 = .ofResult (t.resolve q.name q.type) := by
          rw [handleQuery, if_neg hclass]
          rfl
        rw [hres]
        simp
      | true =>
        rw [handleQuery_signed srv m t hclass mg]
        simp only [Option.mem_def, Option.some.injEq, forall_eq', forall_const]
        by_cases hsame : mg.signResult q.name q.type (t.resolve q.name q.type) m.now = .ofResult (t.resolve q.name q.type)
        · rw [hsame]
          exact (and_iff_right rfl).symm
        · refine iff_of_false ?_ fun h => hsame h.1
          exact signed_differs hm hqs hdo hshape (mg.signResult_signedAs hu q.name q.type _ m.now) hsame

/-- HTTPS and TCP give the same bytes for a message exactly when nothing that only the DNS server does makes a difference,
and the response keeps to the smaller buffer. -/
theorem handleDoH_parity_iff (hu : rt.unicode.Regular) (hsrv : ShortTexts srv) {r : Request} {query : Bytes}
    (hr : extractDoHPayload rt.unicode r = .ok query)
    (hunsigned : ∀ record payload, Tsig.extract rt.unicode query ≠ .ok (some record, payload))
    (hqr : (unpack query).1.header.isResponse = false) (hop : (unpack query).1.header.opcode = opcodeQuery)
    (hqs : (unpack query).1.questions ≠ []) :
    (handleDoH rt.unicode (some t.resolve) r).bytes = (resolve rt (signing rt srv mgr) m t query .tcp).answer.toOption ↔
      AnswersAlike rt srv mgr m t query := by
  have hm := unpack_repeatable query
  have hformat : Plain { rcode := .formatError } :=
    ⟨.inl rfl, .inr rfl, Nat.zero_le _, segmented_of_length (Nat.zero_le _)⟩
  obtain ⟨q, qs, hq⟩ := exists_cons_of_ne_nil hqs
  rw [handleDoH_payload hr, AnswersAlike]
  rcases hmsg : unpack query with ⟨msg, _ | err⟩
  · rw [hmsg] at hm hqr hop hq
    dsimp only at hm hqr hop hq
    have hplain := plain_of_shape (hm.named q (by rw [hq]; exact mem_cons_self)) (t.resolve_shape q.name q.type)
    have hres : resolveDoHQuery t.resolve msg q = t.resolve q.name q.type := if_pos hop
    rw [answerPayload_query hmsg hqr hq, hres]
    rcases hextract : Tsig.extract rt.unicode query with e | ⟨_ | record, payload⟩
    · rw [resolve_unread hextract]
      obtain ⟨bytes, hd⟩ : ∃ bytes, packResponse msg maxWirePayloadSize (.ofResult (t.resolve q.name q.type)) maxTCPSize =
        .ok bytes := packResponse_total hm hplain (by decide)
      rw [hd]
      exact iff_of_false (Option.some_ne_none bytes) fun h => h.1 rfl
    · obtain rfl := Tsig.extract_none hextract
      rw [resolve_query hextract hmsg hqr hop hq, packed_same_iff mgr m t hu hsrv hm hq]
      dsimp only
      rw [hq, List.head?_cons]
      simp only [Option.mem_def, Option.some.injEq, forall_eq']
    · exact absurd hextract (hunsigned record payload)
  · rw [hmsg] at hm
    dsimp only at hm
    rw [answerPayload_error hmsg]
    rcases hextract : Tsig.extract rt.unicode query with e | ⟨_ | record, payload⟩
    · rw [resolve_unread hextract]
      by_cases hopt : err = .multipleOPT
      · obtain ⟨bytes, hd⟩ : ∃ bytes, packResponse msg maxWirePayloadSize (.ofRCode .formatError) maxTCPSize = .ok bytes :=
          packResponse_total hm hformat (by decide)
        rw [if_pos hopt, hd]
        exact iff_of_false (Option.some_ne_none bytes) fun h => h.2 (congrArg some hopt)
      · rw [if_neg hopt]
        exact iff_of_true rfl ⟨Option.some_ne_none err, fun h => hopt (Option.some.inj h)⟩
    · obtain rfl := Tsig.extract_none hextract
      rw [resolve_error hextract hmsg]
      by_cases hopt : err = .multipleOPT
      · have hsize : (packResponse msg maxTCPSize (.ofRCode .formatError) maxUDPSize).toOption =
            (packResponse msg maxWirePayloadSize (.ofRCode .formatError) maxTCPSize).toOption ↔
            packedSize msg maxWirePayloadSize (.ofRCode .formatError) maxTCPSize ≤ maxUDPSize :=
          packResponse_same_iff hm hformat (by decide) (by decide)
        rw [if_pos hopt, if_pos hopt, eq_comm, hsize]
        dsimp only
        exact (imp_iff_right hopt).symm
      · rw [if_neg hopt, if_neg hopt]
        exact iff_of_true rfl fun h => absurd h hopt
    · exact absurd hextract (hunsigned record payload)

end Parity

def namedServer : Server Tree Unit :=
  { idleServer with versionWire := [[1, 118]], identityWire := [[1, 118]], authorsWire := [[1, 118]] }

theorem namedServer_built : ShortTexts namedServer := by
  intro wire hwire
  obtain rfl : wire = [[1, 118]] := by simpa [namedServer] using hwire
  exact ⟨_, rfl, by decide⟩

def ask (name : Bytes) (type rrClass : UInt8) : Bytes := [0, 7, 1, 0, 0, 1, 0, 0, 0, 0, 0, 0] ++ name ++ [0, type, 0, rrClass]

def post (query : Bytes) : Request := ⟨.post, [], ascii "application/dns-message", query⟩

def overHTTPS (query : Bytes) : Option Bytes := (handleDoH .basic (some hostZone.resolve) (post query)).bytes

def overTCP (query : Bytes) : Option Bytes :=
  (resolve emptyCodes (signing emptyCodes namedServer (some zoneKeys)) (clockAt 0) hostZone query .tcp).answer.toOption

theorem handleDoH_parity_host :
    overHTTPS (ask [1, 99, 1, 97, 0] 1 1) = overTCP (ask [1, 99, 1, 97, 0] 1 1) ∧
      (overTCP (ask [1, 99, 1, 97, 0] 1 1)).isSome = true := by
  have hextract : Tsig.extract emptyCodes.unicode (ask [1, 99, 1, 97, 0] 1 1) = .ok (none, ask [1, 99, 1, 97, 0] 1 1) := rfl
  have hunpack : unpack (ask [1, 99, 1, 97, 0] 1 1) =
      (⟨⟨7, 0x0100, 1, 0, 0, 0⟩, [⟨[99, 46, 97], typeA, classIN⟩], 0, false, 0⟩, none) := by decide +kernel
  refine ⟨(handleDoH_parity_iff emptyCodes namedServer (some zoneKeys) (clockAt 0) hostZone Unicode.basic_regular
    namedServer_built ?_ ?_ ?_ ?_ ?_).mpr ?_, by decide +kernel⟩
  · rfl
  · rw [hextract]
    rintro record payload ⟨⟩
  · rw [hunpack]
    decide
  · rw [hunpack]
    decide
  · rw [hunpack]
    simp
  · rw [AnswersAlike, hextract, hunpack]
    rintro q ⟨⟩
    refine ⟨?_, by decide +kernel⟩
    rw [SameResult, if_neg (by decide)]
    rintro ⟨⟩

/-- The question for the version, in class CH, is looked up in the tree. -/
theorem handleDoH_ignores_class :
    ∃ https tcp, overHTTPS (ask ([7] ++ ascii "version" ++ [4] ++ ascii "bind" ++ [0]) 16 3) = some https ∧
      overTCP (ask ([7] ++ ascii "version" ++ [4] ++ ascii "bind" ++ [0]) 16 3) = some tcp ∧
      (decodeHeader https).rcode = 3 ∧ (decodeHeader tcp).rcode = 0 ∧ https ≠ tcp := by
  refine ⟨_, _, rfl, rfl, ?_⟩
  decide +kernel

end Kdns.Doh
