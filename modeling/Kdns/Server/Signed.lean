import Kdns.Dnssec.Manager
import Kdns.Radix.Spelling
import Kdns.Server.Authentic

namespace Kdns.DnsServer

open ByteStream Dns Wire GoStrings Radix Dnssec

section Signed

variable {ε : Type} (rt : Runtime) (srv : Server Tree ε) (mgr : Option (Manager rt.unicode)) (m : Moment) (t : Tree)
  (q : Question)

def signing : Server Tree ε :=
  { srv with
    res := fun t name type => (t, t.resolve name type)
    dnssecMgr := mgr.map Manager.signResult }

variable {rt q} in
theorem handleQuery_signed (h : q.rrClass ≠ classCH) (mg : Manager rt.unicode) :
    (handleQuery rt (signing rt srv (some mg)) m t q true).2 = mg.signResult q.name q.type (t.resolve q.name q.type) m.now := by
  rw [handleQuery, if_neg h]
  rfl

def plainAuthority (r : Response) : Option (Bytes × RRSet) :=
  if r.hasAuthority ∧ r.authority.type ≠ typeNSEC ∧ r.authority.type ≠ typeRRSIG then some (r.authorityName, r.authority)
  else none

structure OnlyAdds (signed plain : Response) : Prop where
  rcode : signed.rcode = plain.rcode
  answer : signed.answer = plain.answer
  authority : plainAuthority signed = plainAuthority plain
  additional : signed.additional = plain.additional
  signatures : ∀ s ∈ [signed.answerRRSIG, signed.authorityRRSIG], s = .empty ∨ s.type = typeRRSIG

theorem onlyAdds_ofResult (res : Result) : OnlyAdds (.ofResult res) (.ofResult res) :=
  ⟨rfl, rfl, rfl, rfl, by simp [Response.ofResult]⟩

theorem plainAuthority_ofResult {name : Bytes} {res : Result} (h : Shape name res) :
    plainAuthority (.ofResult res) = if res.hasAuthority then some (res.authorityName, res.authority) else none := by
  have htype : res.hasAuthority → res.authority.type ≠ typeNSEC ∧ res.authority.type ≠ typeRRSIG := by
    intro hauth
    cases h with
    | answer => cases hauth
    | referral ns name hns =>
      rw [hns]
      decide
    | negative rc soa hrc hsoa =>
      rcases hsoa.type_eq with hempty | hsoa
      · rw [Result.hasAuthority, hempty] at hauth
        cases hauth
      · rw [hsoa]
        decide
  rw [plainAuthority]
  by_cases hauth : res.hasAuthority
  · rw [if_pos hauth, if_pos ⟨hauth, htype hauth⟩]
    rfl
  · rw [if_neg hauth, if_neg]
    exact fun hand => hauth hand.1

variable {rt} in
theorem signResult_onlyAdds_iff (mg : Manager rt.unicode) {qType : RRType} (hq : qType ≠ typeDNSKEY) (name : Bytes) (now : ℤ) :
    OnlyAdds (mg.signResult name qType (t.resolve name qType) now) (.ofResult (t.resolve name qType)) ↔
      (t.resolve name qType).hasAnswer = true ∨ (t.resolve name qType).hasAuthority = false ∨
        mg.denialKey name now (t.resolve name qType).rcode = none := by
  have hsynth : ∀ res, mg.synthesizes name qType res = false := fun res => decide_eq_false fun h => hq h.1
  have hshape := t.resolve_shape name qType
  generalize t.resolve name qType = res at hshape ⊢
  by_cases hans : res.hasAnswer = true
  · have hrcode : res.rcode = .success := by
      cases hshape with
      | answer => rfl
      | referral => rfl
      | negative => cases hans
    obtain ⟨rrsig, hrrsig, heq⟩ := mg.signResult_positive now (hsynth res) hrcode hans
    rw [heq]
    refine iff_of_true ⟨rfl, rfl, rfl, rfl, ?_⟩ (.inl hans)
    simpa [Response.ofResult] using hrrsig
  · have hrcode : res.rcode = .success ∨ res.rcode = .nameError := by
      cases hshape with
      | answer => exact .inl rfl
      | referral => exact .inl rfl
      | negative rc soa hrc => exact hrc
    have hnegative := mg.signResult_negative now (hsynth res) (Bool.eq_false_iff.mpr hans) hrcode
    cases hkey : mg.denialKey name now res.rcode with
    | none =>
      rw [hkey] at hnegative
      rw [hnegative]
      exact iff_of_true (onlyAdds_ofResult res) (.inr (.inr rfl))
    | some key =>
      rw [hkey] at hnegative
      obtain ⟨sig, hsig, heq⟩ := hnegative
      rw [heq]
      have hnone : plainAuthority { res with
          authority := nsec rt.unicode (canonicalZone rt.unicode name) (canonicalZone rt.unicode key.zone)
            (Manager.denialTypes res.rcode) defaultNSECTTL
          authorityRRSIG := sig
          authorityName := canonicalZone rt.unicode name } = none := if_neg fun hand => hand.2.1 rfl
      have hplain := plainAuthority_ofResult hshape
      simp only [hans, Bool.false_eq_true, false_or, reduceCtorEq, or_false]
      constructor
      · intro h
        have hauth := h.authority
        rw [hnone, hplain] at hauth
        by_contra hne
        rw [if_pos (Bool.not_eq_false _ ▸ hne)] at hauth
        cases hauth
      · intro hauth
        refine ⟨rfl, rfl, ?_, rfl, ?_⟩
        · rw [hnone, hplain, if_neg (by simp [hauth])]
        · simp [hsig]

/-- Signing only adds records exactly when there is nothing that the record of a denial would replace. -/
theorem handleQuery_only_adds_iff (hq : q.type ≠ typeDNSKEY) :
    OnlyAdds (handleQuery rt (signing rt srv mgr) m t q true).2 (handleQuery rt (signing rt srv mgr) m t q false).2 ↔
      q.rrClass = classCH ∨ (t.resolve q.name q.type).hasAnswer = true ∨ (t.resolve q.name q.type).hasAuthority = false ∨
        ∀ mg ∈ mgr, mg.denialKey q.name m.now (t.resolve q.name q.type).rcode = none := by
  by_cases hclass : q.rrClass = classCH
  · rw [handleQuery, handleQuery, if_pos hclass, if_pos hclass]
    exact iff_of_true (onlyAdds_ofResult _) (.inl hclass)
  rw [handleQuery, handleQuery, if_neg hclass, if_neg hclass]
  cases mgr with
  | none =>
    refine iff_of_true (onlyAdds_ofResult _) (.inr (.inr (.inr ?_)))
    intro mg hmg
    cases hmg
  | some mg =>
    have hsign := signResult_onlyAdds_iff t mg hq q.name m.now
    simp only [hclass, false_or, Option.mem_def, Option.some.injEq, forall_eq']
    exact hsign

def hostZone : Tree :=
  Tree.new.upsertAll [([97], [⟨[[0, 0]], 300, typeSOA, classIN⟩]), ([99, 46, 97], [⟨[[10, 0, 0, 1]], 60, typeA, classIN⟩])]

def idleServer : Server Tree Unit := ⟨fun t _ _ => (t, { rcode := .success }), none, none, none, none, [], [], []⟩

def askAddress (t : Tree) (name : Bytes) (wantsDNSSEC : Bool) : Response :=
  (handleQuery emptyCodes (signing emptyCodes idleServer (some zoneKeys)) (clockAt 0) t ⟨name, typeA, classIN⟩ wantsDNSSEC).2

theorem handleQuery_only_adds_host :
    OnlyAdds (askAddress hostZone [99, 46, 97, 46] true) (askAddress hostZone [99, 46, 97, 46] false) ∧
      (askAddress hostZone [99, 46, 97, 46] true).hasAnswerRRSIG = true := by
  refine ⟨(handleQuery_only_adds_iff emptyCodes idleServer (some zoneKeys) (clockAt 0) hostZone
    ⟨[99, 46, 97, 46], typeA, classIN⟩ (by decide)).mpr (.inr (.inl ?_)), ?_⟩
  · decide +kernel
  · decide +kernel

/-- The SOA of a negative answer makes room for the NSEC record. -/
theorem handleQuery_drops_soa :
    plainAuthority (askAddress hostZone [98, 46, 97, 46] false) = some ([97, 46], ⟨[[0, 0]], 300, typeSOA, classIN⟩) ∧
      plainAuthority (askAddress hostZone [98, 46, 97, 46] true) = none ∧
      ¬OnlyAdds (askAddress hostZone [98, 46, 97, 46] true) (askAddress hostZone [98, 46, 97, 46] false) := by
  have hplain : plainAuthority (askAddress hostZone [98, 46, 97, 46] false) =
      some ([97, 46], ⟨[[0, 0]], 300, typeSOA, classIN⟩) := by decide +kernel
  have hsigned : plainAuthority (askAddress hostZone [98, 46, 97, 46] true) = none := by decide +kernel
  refine ⟨hplain, hsigned, fun h => ?_⟩
  have hauth := h.authority
  rw [hplain, hsigned] at hauth
  cases hauth

end Signed

end Kdns.DnsServer
