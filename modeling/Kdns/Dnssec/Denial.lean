import Kdns.Radix.Answers
import Kdns.Server.Signed
import Kdns.Update.Zones

namespace Kdns.Dnssec

open ByteStream Dns Wire GoStrings Radix DnsServer List

namespace Manager

variable {u : Unicode} (mg : Manager u)

theorem denialKey_mem {name : Bytes} {now : ℤ} {rcode : RCode} {key : Key} (h : mg.denialKey name now rcode = some key) :
    (mg.findMatchingKeys (canonicalZone u name)).head? = some key := (Option.filter_eq_some_iff.mp h).1

theorem signResult_synthesized {name : Bytes} {type : RRType} {res : Result} (h : mg.synthesizes name type res = true)
    (now : ℤ) : (mg.signResult name type res now).authority = res.authority := by
  obtain ⟨htype, hans, hkeys⟩ := of_decide_eq_true h
  rw [signResult, if_pos ⟨htype, hans⟩, synthesizeDNSKEY, dnskey, if_neg hkeys, Option.map_some]
  dsimp only
  split
  · rfl
  · split <;> rfl

def apexOf (name : Bytes) : Option (List Bytes) :=
  (mg.findMatchingKeys (canonicalZone u name)).head?.map fun key => labels (canonicalZone u key.zone)

end Manager

section Denial

/-- What an NSEC record of a zone says, read by RFC 4034, denies nothing that is there: no name between its owner and the
next name, no type at the owner, and with `nx` the owner is there itself. -/
def SafeDenial (M : List Bytes → Option RRSets) (apex : List Bytes) (nx : Prop) (owner : List Bytes) (record : RRSet) : Prop :=
  ∃ rdata next blocks, record.rdata = [rdata] ∧ readNsec rdata = some (next, blocks) ∧
    (∀ name, apex <+: name → Occupied M name → ¬Covers owner next name) ∧
    (∀ s ∈ recordsAt M owner, Bitmap.Marks blocks s.type) ∧ (nx → Occupied M owner)

def LastName (M : List Bytes → Option RRSets) (apex : List Bytes) (rcode : RCode) (owner : List Bytes) : Prop :=
  (nameBefore owner apex = false → ∀ name, apex <+: name → Occupied M name → nameBefore owner name = false) ∧
    (∀ s ∈ recordsAt M owner, s.type ∈ allTypes (Manager.denialTypes rcode)) ∧ (rcode = .nameError → Occupied M owner)

theorem covers_apex {owner apex name : List Bytes} (h : apex <+: name) :
    Covers owner apex name ↔ nameBefore owner apex = false ∧ nameBefore owner name = true := by
  rw [Covers, nameBefore_of_prefix h]
  cases nameBefore owner apex <;> simp

theorem safeDenial_iff {u : Unicode} {zone : Bytes} (hname : DomainName zone) (hlower : toLower u (trimSpace zone) = zone)
    (M : List Bytes → Option RRSets) (rcode : RCode) (owner : List Bytes) (text : Bytes) (ttl : UInt32) :
    SafeDenial M (labels zone) (rcode = .nameError) owner (nsec u text zone (Manager.denialTypes rcode) ttl) ↔
      LastName M (labels zone) rcode owner := by
  obtain ⟨rdata, blocks, hrdata, hread, hmarks⟩ := readNsec_nsec hname hlower text (Manager.denialTypes rcode) ttl
  constructor
  · rintro ⟨rdata', next, blocks', hrdata', hread', hnames, htypes, hnx⟩
    obtain rfl : rdata = rdata' := by grind
    rw [hread] at hread'
    cases hread'
    refine ⟨fun howner name hname hocc => ?_, fun s hs => (hmarks s.type).mp (htypes s hs), hnx⟩
    have hcovers := hnames name hname hocc
    rw [covers_apex hname] at hcovers
    simpa [howner] using hcovers
  · rintro ⟨hnames, htypes, hnx⟩
    refine ⟨rdata, labels zone, blocks, hrdata, hread, fun name hname hocc => ?_, fun s hs => (hmarks s.type).mpr (htypes s hs),
      hnx⟩
    rw [covers_apex hname]
    rintro ⟨howner, hbefore⟩
    rw [hnames howner name hname hocc] at hbefore
    cases hbefore

def IsDenial (r : Result) : Prop :=
  r.rcode = .nameError ∨ (r.rcode = .success ∧ r.hasAnswer = false ∧ r.authority.type ≠ typeNS)

theorem IsDenial.negative {name : Bytes} {r : Result} (h : IsDenial r) (hshape : Shape name r) :
    r.hasAnswer = false ∧ (r.rcode = .success ∨ r.rcode = .nameError) := by
  rcases h with h | ⟨hrcode, hans, -⟩
  · cases hshape with
    | answer => cases h
    | referral => cases h
    | negative => exact ⟨rfl, .inr h⟩
  · exact ⟨hans, .inl hrcode⟩

theorem authority_type {name : Bytes} {r : Result} (h : Shape name r) : r.authority.type ≠ typeNSEC := by
  cases h with
  | answer a =>
    dsimp only
    decide
  | referral ns name hns =>
    rw [hns]
    decide
  | negative rc soa hrc hsoa =>
    dsimp only
    rcases hsoa.type_eq with hsoa | hsoa
    · rw [hsoa]
      decide
    · rw [hsoa]
      decide

theorem resolveCHAOS_authority {σ ε : Type} (rt : Runtime) (srv : Server σ ε) (name : Bytes) (type : RRType) :
    (resolveCHAOS rt srv name type).authority = .empty := by
  unfold resolveCHAOS
  dsimp only
  split_ifs <;> rfl

variable {ε : Type} (rt : Runtime) (srv : Server Tree ε) (mgr : Option (Manager rt.unicode)) (m : Moment) (t : Tree)
  (q : Question)

/-- A signed denial denies nothing that is there exactly when the name asked for is the last of its zone. -/
theorem signed_denial_safe_iff (hu : rt.unicode.Regular)
    (hzones : ∀ mg ∈ mgr, ∀ zone, mg.keysOf zone ≠ [] → DomainName zone) (hdenial : IsDenial (t.resolve q.name q.type)) :
    (∀ mg ∈ mgr, (handleQuery rt (signing rt srv mgr) m t q true).2.authority.type = typeNSEC →
        ∀ apex ∈ mg.apexOf q.name, SafeDenial t.contents apex
          ((handleQuery rt (signing rt srv mgr) m t q true).2.rcode = .nameError)
          (labels (handleQuery rt (signing rt srv mgr) m t q true).2.authorityName)
          (handleQuery rt (signing rt srv mgr) m t q true).2.authority) ↔
      q.rrClass = classCH ∨ ∀ mg ∈ mgr, mg.synthesizes q.name q.type (t.resolve q.name q.type) = true ∨
        ∀ key ∈ mg.denialKey q.name m.now (t.resolve q.name q.type).rcode,
          LastName t.contents (labels (canonicalZone rt.unicode key.zone)) (t.resolve q.name q.type).rcode
            (labels (canonicalZone rt.unicode q.name)) := by
  by_cases hclass : q.rrClass = classCH
  · refine iff_of_true (fun mg _ htype => ?_) (.inl hclass)
    rw [handleQuery, if_pos hclass] at htype
    change (resolveCHAOS rt (signing rt srv mgr) q.name q.type).authority.type = typeNSEC at htype
    rw [resolveCHAOS_authority] at htype
    cases htype
  cases mgr with
  | none =>
    refine iff_of_true (fun mg hmg => ?_) (.inr fun mg hmg => ?_)
    · cases hmg
    · cases hmg
  | some mg =>
    simp only [Option.mem_def, Option.some.injEq, forall_eq', hclass, false_or] at hzones ⊢
    rw [handleQuery_signed srv m t hclass mg]
    have hshape := t.resolve_shape q.name q.type
    generalize t.resolve q.name q.type = res at hshape hdenial ⊢
    obtain ⟨hans, hrcode⟩ := hdenial.negative hshape
    cases hsynth : mg.synthesizes q.name q.type res with
    | true =>
      refine iff_of_true (fun htype => ?_) (.inl rfl)
      rw [mg.signResult_synthesized hsynth] at htype
      exact absurd htype (authority_type hshape)
    | false =>
      have hnegative := mg.signResult_negative m.now hsynth hans hrcode
      cases hkey : mg.denialKey q.name m.now res.rcode with
      | none =>
        rw [hkey] at hnegative
        rw [hnegative]
        refine iff_of_true (fun htype => absurd htype (authority_type hshape)) (.inr fun key hk => ?_)
        cases hk
      | some key =>
        rw [hkey] at hnegative
        obtain ⟨sig, -, heq⟩ := hnegative
        have hhead := mg.denialKey_mem hkey
        have hapex : mg.apexOf q.name = some (labels (canonicalZone rt.unicode key.zone)) := by
          rw [Manager.apexOf, hhead, Option.map_some]
        obtain ⟨zone, -, hzone⟩ := mg.findFrom_keys true _ key (mem_of_mem_head? hhead)
        have hname : DomainName (canonicalZone rt.unicode key.zone) := by
          rw [mg.zone_eq _ key hzone]
          exact hzones _ (ne_nil_of_mem hzone)
        obtain ⟨rs, hcanonical⟩ := Update.canonicalName_canonical hu key.zone
        have hsafe := safeDenial_iff hname hcanonical.normal t.contents res.rcode
          (labels (canonicalZone rt.unicode q.name)) (canonicalZone rt.unicode q.name) defaultNSECTTL
        rw [heq, hapex]
        simp only [Option.some.injEq, forall_eq', Bool.false_eq_true, false_or]
        rw [← hsafe]
        exact ⟨fun h => h rfl, fun h _ => h⟩

theorem zoneKeys_domainName (zone : Bytes) (h : zoneKeys.keysOf zone ≠ []) : DomainName zone := by
  have hkeys : zoneKeys.keysOf zone = if zone = [97, 46] then [zoneKey] else [] := by
    have hzone : canonicalZone .basic zoneKey.zone = [97, 46] := by decide
    change Function.update (fun _ => []) (canonicalZone .basic zoneKey.zone) [zoneKey] zone = _
    rw [hzone, Function.update_apply]
  rw [hkeys] at h
  split_ifs at h with hzone
  · rw [hzone]
    exact .inr (by decide)
  · exact absurd rfl h

def nestedZone : Tree :=
  Tree.new.upsertAll [([97], [⟨[[0, 0]], 300, typeSOA, classIN⟩]), ([98, 46, 97], [⟨[[1, 2, 3, 4]], 300, typeA, classIN⟩]),
    ([99, 46, 97], [⟨[[0, 0]], 300, typeSOA, classIN⟩])]

theorem nestedZone_occupied {name : List Bytes} (h : [[97]] <+: name) (hocc : Occupied nestedZone.contents name) :
    name ∈ [[[97]], [[97], [98]], [[97], [99]]] := by
  obtain ⟨s, hs⟩ := hocc
  rw [nestedZone, (Tree.upsertAll_spec Tree.valid_new _).2, Tree.contents_new] at hs
  by_contra hne
  apply hs
  apply Overwrite.replay_untouched
  have hlabels : labels [97] = [[97]] ∧ labels [98, 46, 97] = [[97], [98]] ∧ labels [99, 46, 97] = [[97], [99]] := by decide
  simp only [map_cons, map_nil, Tree.upsertWrite, hlabels]
  obtain ⟨s', rfl⟩ := h
  cases s' <;> simp_all

theorem signed_denial_safe_last :
    let res := askAddress nestedZone [99, 46, 97, 46] true
    res.authority.type = typeNSEC ∧
      SafeDenial nestedZone.contents [[97]] (res.rcode = .nameError) (labels res.authorityName) res.authority := by
  intro res
  have htype : res.authority.type = typeNSEC := by decide +kernel
  have hapex : zoneKeys.apexOf [99, 46, 97, 46] = some [[97]] := by decide +kernel
  have howner : labels (canonicalZone emptyCodes.unicode [99, 46, 97, 46]) = [[97], [99]] := by decide
  have hkeys : ∀ mg ∈ some zoneKeys, ∀ zone, mg.keysOf zone ≠ [] → DomainName zone := by
    rintro mg ⟨⟩
    exact zoneKeys_domainName
  have hlast : ∀ mg ∈ some zoneKeys, ∀ key ∈ mg.denialKey [99, 46, 97, 46] 0 .success,
      LastName nestedZone.contents (labels (canonicalZone .basic key.zone)) .success [[97], [99]] := by
    rintro mg ⟨⟩ key hkey
    have hzone : labels (canonicalZone .basic key.zone) = [[97]] := by
      have hhead := zoneKeys.denialKey_mem hkey
      rw [Manager.apexOf, hhead] at hapex
      exact Option.some.inj hapex
    rw [hzone]
    refine ⟨fun _ name hname hocc => ?_, by decide +kernel, fun h => by cases h⟩
    have hmem := nestedZone_occupied hname hocc
    simp only [mem_cons, not_mem_nil, or_false] at hmem
    rcases hmem with rfl | rfl | rfl <;> rfl
  have hrcode : (nestedZone.resolve [99, 46, 97, 46] typeA).rcode = .success := by decide +kernel
  refine ⟨htype, (signed_denial_safe_iff emptyCodes idleServer (some zoneKeys) (clockAt 0) nestedZone
    ⟨[99, 46, 97, 46], typeA, classIN⟩ Unicode.basic_regular hkeys ?_).mpr (.inr ?_) zoneKeys rfl htype [[97]] hapex⟩
  · exact .inr (by decide +kernel)
  · intro mg hmg
    refine .inr ?_
    rw [hrcode, howner]
    exact hlast mg hmg

/-- The record for `b.a` says that `c.a` does not exist either. -/
theorem signed_denial_covers_host :
    IsDenial (hostZone.resolve [98, 46, 97, 46] typeA) ∧ (askAddress hostZone [98, 46, 97, 46] true).authority.type = typeNSEC ∧
      Occupied hostZone.contents [[97], [99]] ∧
      ¬SafeDenial hostZone.contents [[97]] ((askAddress hostZone [98, 46, 97, 46] true).rcode = .nameError)
        (labels (askAddress hostZone [98, 46, 97, 46] true).authorityName) (askAddress hostZone [98, 46, 97, 46] true).authority := by
  have hocc : Occupied hostZone.contents [[97], [99]] := ⟨[], by decide +kernel⟩
  refine ⟨.inl (by decide +kernel), by decide +kernel, hocc, ?_⟩
  rintro ⟨rdata, next, blocks, hrdata, hread, hnames, -, -⟩
  have hnext : ((askAddress hostZone [98, 46, 97, 46] true).authority.rdata.head?.bind readNsec).map Prod.fst = some [[97]] := by
    decide +kernel
  have howner : labels (askAddress hostZone [98, 46, 97, 46] true).authorityName = [[97], [98]] := by decide +kernel
  rw [hrdata, head?_cons, Option.bind_some, hread, Option.map_some, Option.some.injEq] at hnext
  apply hnames [[97], [99]] ⟨[[99]], rfl⟩ hocc
  rw [howner, show next = [[97]] from hnext, Covers]
  decide

end Denial

end Kdns.Dnssec
