import Kdns.Dnssec.Manager
import Kdns.Update.Zones
import Kdns.Wire.Names

namespace Kdns.Dnssec

open ByteStream Dns Wire GoStrings List

section Names

variable (u : Unicode) (name : Bytes)

theorem canonicalZone_length_le : (canonicalZone u name).length ≤ 4 * name.length + 1 := by
  have htrim := trimSpace_length_le name
  have hlower := toLower_length_le u (trimSpace name)
  unfold canonicalZone Update.canonicalName Tsig.withDot
  dsimp only
  split_ifs
  · rw [length_singleton]
    omega
  · omega
  · rw [length_append, length_singleton]
    omega

theorem wireLabels_length_le (text : Bytes) : ((text.splitOn dotByte).flatMap
      (fun label => UInt8.ofNat (min label.length maxLabelLen) :: label.take maxLabelLen)).length ≤ text.length + 1 := by
  induction text using first_dot_induction with
  | base a ha =>
    rw [splitOn_eq_singleton ha, flatMap_singleton, length_cons, length_take]
    omega
  | step a b ha ih =>
    rw [splitOn_append_cons_self, splitOn_eq_singleton ha, flatMap_append, flatMap_singleton,
      length_append, length_append, length_cons, length_cons, length_take]
    omega

theorem encodeDomainName_length_le : (encodeDomainName u name).length ≤ 4 * name.length + 2 := by
  have htrim := trimSpace_length_le name
  have hlower := toLower_length_le u (trimSpace name)
  unfold encodeDomainName
  dsimp only
  split_ifs
  · rw [length_singleton]
    omega
  · have hlabels := wireLabels_length_le (trimSuffix (toLower u (trimSpace name)) [dotByte])
    have hsuffix : (trimSuffix (toLower u (trimSpace name)) [dotByte]).length ≤ (toLower u (trimSpace name)).length := by
      unfold trimSuffix
      split_ifs
      · exact length_take_le' _ _
      · exact le_rfl
    rw [length_append, length_singleton]
    omega

end Names

section Records

variable {u : Unicode} {owner : Bytes} {record rrsig : RRSet} {k : Key} {inception expiration : ℤ}

theorem sign_length (h : sign u owner record k inception expiration = some rrsig) :
    ∃ rdata, rrsig.rdata = [rdata] ∧ rdata.length = 82 + (encodeDomainName u (canonicalZone u k.zone)).length := by
  unfold sign at h
  obtain ⟨hnone, h⟩ := Fallible.of_ite h nofun
  obtain ⟨⟨sig, hsig⟩, -, rfl⟩ := Option.map_eq_some_iff.mp h
  refine ⟨_, rfl, ?_⟩
  simp only [length_append, length_cons, length_nil, bigEndian_length, hsig]
  omega

theorem nsec_length (u : Unicode) (owner next : Bytes) (rcode : RCode) (ttl : UInt32) :
    ∃ rdata, (nsec u owner next (Manager.denialTypes rcode) ttl).rdata = [rdata] ∧
      rdata.length ≤ (encodeDomainName u next).length + 9 := by
  refine ⟨_, rfl, ?_⟩
  have hbitmap : ∀ types ∈ [[], [typeSOA, typeNS]], (encodeWindowedBitmaps (allTypes types)).length ≤ 9 := by decide
  have htypes : Manager.denialTypes rcode ∈ [[], [typeSOA, typeNS]] := by cases rcode <;> decide
  rw [length_append]
  exact Nat.add_le_add_left (hbitmap _ htypes) _

theorem Manager.zone_length_le (hu : u.Regular) (mg : Manager u) {name : Bytes}
    (hk : k ∈ mg.findMatchingKeys (canonicalZone u name)) :
    (encodeDomainName u (canonicalZone u k.zone)).length ≤ 64 * name.length + 38 := by
  have hidem : canonicalZone u (canonicalZone u name) = canonicalZone u name := Update.canonicalName_idem hu name
  rw [findMatchingKeys, hidem] at hk
  obtain ⟨zone, hzone, hmem⟩ := mg.findFrom_keys true _ k hk
  have hname := canonicalZone_length_le u name
  have hcanonical := canonicalZone_length_le u zone
  have hwire := encodeDomainName_length_le u (canonicalZone u zone)
  rw [mg.zone_eq _ k hmem]
  omega

end Records

/-- What signing makes of the result for a name: nothing new, a signature for the answer, an NSEC record for the authority,
or the keys of the zone for the answer. What is new is small. -/
inductive SignedAs (name : Bytes) (res : Result) : Response → Prop
  | same : SignedAs name res (.ofResult res)
  | answer {rrsig : RRSet} {rdata : Bytes} (hrcode : res.rcode = .success) (hans : res.hasAnswer = true)
      (htype : res.answer.type ≠ typeRRSIG) (hsig : rrsig.type = typeRRSIG) (hrdata : rrsig.rdata = [rdata])
      (hsmall : rdata.length ≤ 64 * name.length + 120) : SignedAs name res { Response.ofResult res with answerRRSIG := rrsig }
  | denial {record sig : RRSet} {owner rdata : Bytes} (htype : record.type = typeNSEC) (howner : owner.length ≤ 4 * name.length + 1)
      (hrdata : record.rdata = [rdata]) (hsmall : rdata.length ≤ 64 * name.length + 47) :
      SignedAs name res { res with authority := record, authorityRRSIG := sig, authorityName := owner }
  | keys {set sig : RRSet} {rdata : Bytes} {rest : List Bytes} (hans : res.hasAnswer = false ∨ res.answer.type ≠ typeDNSKEY)
      (htype : set.type = typeDNSKEY) (hrdata : set.rdata = rdata :: rest) (hsmall : rdata.length ≤ 68) :
      SignedAs name res { Response.ofResult res with rcode := .success, answer := set, answerRRSIG := sig }

section Outcomes

variable {u : Unicode} (hu : u.Regular) (mg : Manager u) {name : Bytes} (res : Result) (now : ℤ) {key : Key}
  (hkey : key ∈ mg.findMatchingKeys (canonicalZone u name))

include hu hkey

theorem deny_signedAs (rcode : RCode) :
    SignedAs name res (deny u (canonicalZone u name) key (Manager.denialTypes rcode) res now) := by
  obtain ⟨rdata, hrdata, hlen⟩ := nsec_length u (canonicalZone u name) (canonicalZone u key.zone) rcode defaultNSECTTL
  have hzone := mg.zone_length_le hu hkey
  rw [deny]
  split
  · exact .denial rfl (canonicalZone_length_le u name) hrdata (by omega)
  · exact .same

theorem signWith_signedAs : SignedAs name res (signWith u (canonicalZone u name) key res now) := by
  have hzone := mg.zone_length_le hu hkey
  have hdeny := deny_signedAs hu mg res now hkey
  unfold signWith
  by_cases hyes : res.rcode = .success ∧ res.hasAnswer = true
  · rw [if_pos hyes]
    by_cases htype : res.answer.type ≠ typeRRSIG
    · rw [if_pos htype]
      split
      · rename_i rrsig hsign
        obtain ⟨rdata, hrdata, hlen⟩ := sign_length hsign
        exact .answer hyes.1 hyes.2 htype (sign_type hsign) hrdata (by omega)
      · exact .same
    · rw [if_neg htype]
      exact .same
  · rw [if_neg hyes]
    split
    · exact hdeny .nameError
    · exact hdeny .success
    · exact .same

end Outcomes

theorem Manager.signResult_signedAs {u : Unicode} (hu : u.Regular) (mg : Manager u) (name : Bytes) (type : RRType)
    (res : Result) (now : ℤ) : SignedAs name res (mg.signResult name type res now) := by
  by_cases hsynth : mg.synthesizes name type res = true
  · obtain ⟨htype, hans, hkeys⟩ := of_decide_eq_true hsynth
    obtain ⟨k, keys, hk⟩ := exists_cons_of_ne_nil hkeys
    have hset : ∀ sig : RRSet, SignedAs name res { Response.ofResult res with
        rcode := .success
        answer := ⟨(k :: keys).map Key.dnskeyWire, defaultDNSKEYTTL, typeDNSKEY, classIN⟩
        answerRRSIG := sig } := by
      intro sig
      refine .keys ?_ rfl rfl k.wire_length
      simpa using hans
    rw [signResult, if_pos ⟨htype, hans⟩, synthesizeDNSKEY, dnskey, if_neg hkeys, hk, Option.map_some]
    dsimp only
    split
    · exact hset _
    · exact hset _
  · rw [mg.signResult_eq now (Bool.eq_false_iff.mpr hsynth)]
    split
    · exact .same
    · rename_i key keys hfound
      exact signWith_signedAs hu mg res now (by rw [hfound]; exact mem_cons_self)

end Kdns.Dnssec
