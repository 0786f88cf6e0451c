import Kdns.Dnssec.Manager
import Kdns.Wire.Validated

open List

namespace Kdns.Dnssec

open ByteStream Dns Wire GoStrings CompressedName

section Verification

inductive VerifyError where
  | malformedRRSIG
  | invalidSignature
  | unsupportedAlgorithm
  deriving DecidableEq, Repr

structure Verifier where
  isPoint : Bytes → Bool
  ecdsaVerify : Bytes → Bytes → Bytes → Bool
  ed25519Verify : Bytes → Bytes → Bytes → Bool

def rrsigHeaderFixedSize : ℕ := 18

def signerEnd (rrsigRData : Bytes) : ℕ → ℕ → Option ℕ
  | 0, _ => none
  | fuel + 1, signerWireEnd =>
    match rrsigRData[signerWireEnd]? with
    | none => none
    | some lenByte =>
      if lenByte = 0 then some (signerWireEnd + 1) else signerEnd rrsigRData fuel (signerWireEnd + 1 + lenByte.toNat)

def verify (v : Verifier) (u : Unicode) (owner : Bytes) (record : RRSet) (rrsigRData pubKey : Bytes) (algorithm : UInt8) :
    Except VerifyError Unit :=
  if rrsigRData.length < rrsigHeaderFixedSize then .error .malformedRRSIG
  else
    match signerEnd rrsigRData (rrsigRData.length + 1) rrsigHeaderFixedSize with
    | none => .error .malformedRRSIG
    | some signerWireEnd =>
      let sig := rrsigRData.drop signerWireEnd
      let verifyBuf := buildSignBuffer u (rrsigRData.take signerWireEnd) owner record
      if algorithm = ecdsaP256 then
        if pubKey.length ≠ 64 ∨ sig.length ≠ 64 then .error .invalidSignature
        else if !v.isPoint (0x04 :: pubKey) then .error .invalidSignature
        else if !v.ecdsaVerify pubKey verifyBuf sig then .error .invalidSignature
        else .ok ()
      else if algorithm = ed25519 then
        if pubKey.length ≠ 32 ∨ sig.length ≠ 64 then .error .invalidSignature
        else if !v.ed25519Verify pubKey verifyBuf sig then .error .invalidSignature
        else .ok ()
      else .error .unsupportedAlgorithm

inductive Verifier.Pairs (v : Verifier) (k : Key) (pub : Bytes) : Prop
  | ecdsa (sign : Bytes → Option Signature) (halgorithm : k.algorithm = ecdsaP256) (hprivate : k.privateKey = .ecdsa sign)
      (hlength : pub.length = 64) (hpoint : v.isPoint (0x04 :: pub) = true) (hsigns : ∀ data, (sign data).isSome)
      (haccepts : ∀ data sig, sign data = some sig → v.ecdsaVerify pub data sig.val = true)
  | ed25519 (sign : Bytes → Signature) (halgorithm : k.algorithm = ed25519) (hprivate : k.privateKey = .ed25519 sign)
      (hlength : pub.length = 32) (haccepts : ∀ data, v.ed25519Verify pub data (sign data).val = true)

variable {v : Verifier} {k : Key} {pub : Bytes}

theorem Verifier.Pairs.sign (h : v.Pairs k pub) (data : Bytes) : ∃ sig, k.sign data = some sig := by
  cases h with
  | ecdsa sign halgorithm hprivate _ _ hsigns _ =>
    obtain ⟨sig, hsig⟩ := Option.isSome_iff_exists.mp (hsigns data)
    refine ⟨sig, ?_⟩
    rw [Key.sign, if_pos halgorithm, hprivate]
    exact hsig
  | ed25519 sign halgorithm hprivate _ _ =>
    refine ⟨sign data, ?_⟩
    rw [Key.sign, halgorithm, if_neg (by decide), if_pos rfl, hprivate]

theorem Verifier.Pairs.accepts (h : v.Pairs k pub) {u : Unicode} {owner rrsigRData hdr : Bytes} {record : RRSet} {sig : Signature}
    (hsign : k.sign (buildSignBuffer u hdr owner record) = some sig) (hdata : rrsigRData = hdr ++ sig.val)
    (hlength : rrsigHeaderFixedSize ≤ rrsigRData.length)
    (hend : signerEnd rrsigRData (rrsigRData.length + 1) rrsigHeaderFixedSize = some hdr.length) :
    verify v u owner record rrsigRData pub k.algorithm = .ok () := by
  have htake : rrsigRData.take hdr.length = hdr := by rw [hdata, take_left]
  have hdrop : rrsigRData.drop hdr.length = sig.val := by rw [hdata, drop_left]
  unfold verify
  rw [if_neg (Nat.not_lt.mpr hlength), hend]
  dsimp only
  rw [htake, hdrop, sig.property]
  cases h with
  | ecdsa sign halgorithm hprivate hpub hpoint _ haccepts =>
    rw [Key.sign, if_pos halgorithm, hprivate] at hsign
    rw [if_pos halgorithm, hpub, hpoint, haccepts _ sig hsign]
    simp
  | ed25519 sign halgorithm hprivate hpub haccepts =>
    rw [Key.sign, halgorithm, if_neg (by decide), if_pos rfl, hprivate] at hsign
    rw [halgorithm, if_neg (by decide), if_pos rfl, hpub, ← Option.some.inj hsign, haccepts]
    simp

theorem signerEnd_labels {rdata : Bytes} {ls : List Bytes} (hls : ∀ l ∈ ls, IsLabel l) {i fuel : ℕ}
    (h : encodeLabels ls ++ [0] <+: rdata.drop i) (hfuel : ls.length < fuel) :
    signerEnd rdata fuel i = some (i + (encodeLabels ls ++ [0]).length) := by
  induction ls generalizing i fuel with
  | nil =>
    obtain ⟨fuel, rfl⟩ := Nat.exists_eq_add_of_lt hfuel
    rw [signerEnd, getElem?_of_isPrefix h]
    rfl
  | cons l ls ih =>
    obtain ⟨fuel, rfl⟩ := Nat.exists_eq_add_of_lt hfuel
    obtain ⟨hl, hrest⟩ := forall_mem_cons.mp hls
    obtain ⟨hlength, hpos⟩ := hl.head
    have hzero : UInt8.ofNat l.length ≠ 0 := by
      intro hzero
      rw [hzero] at hlength
      exact hpos.ne hlength
    rw [encodeLabels_cons, append_assoc] at h
    have hbehind := isPrefix_drop_right h
    have hsum : (encodeLabels (l :: ls) ++ [0]).length = 1 + l.length + (encodeLabels ls ++ [0]).length := by
      rw [encodeLabels_cons, append_assoc, length_append, labelBytes_length]
    rw [labelBytes_length, ← Nat.add_assoc] at hbehind
    rw [signerEnd, getElem?_of_isPrefix h]
    dsimp only
    rw [if_neg hzero, hlength, ih hrest hbehind (by rw [length_cons]; omega), hsum]
    congr 1
    omega

end Verification

variable {zone : List Bytes}

section Names

structure HostName (text : Bytes) (labels : List Bytes) : Prop where
  host : ∀ l ∈ labels, HostLabel l ∧ l.map lowerASCII = l
  text_eq : text.map lowerASCII = [dotByte].intercalate labels ∨ text.map lowerASCII = [dotByte].intercalate labels ++ [dotByte]

def zoneText (labels : List Bytes) : Bytes := if labels = [] then [dotByte] else dotted labels

namespace HostName

variable {u : Unicode} {text : Bytes} {labels : List Bytes} (h : HostName text labels)

include h

theorem bytes : ∀ b ∈ text.map lowerASCII, b.toNat < 0x80 ∧ 0x20 < b.toNat := by
  intro b hb
  have hmem : b = dotByte ∨ b ∈ [dotByte].intercalate labels := by
    rcases h.text_eq with heq | heq
    · rw [heq] at hb
      exact .inr hb
    · rw [heq, mem_append, mem_singleton] at hb
      exact hb.symm
  have hlabels : b = dotByte ∨ ∃ l ∈ labels, b ∈ l := hmem.elim .inl mem_intercalate
  rcases hlabels with rfl | ⟨l, hl, hb⟩
  · exact ⟨by decide, by decide⟩
  · exact ⟨((h.host l hl).1.bytes b hb).1, (h.host l hl).1.graphic b hb⟩

theorem lower_eq (u : Unicode) : toLower u (trimSpace text) = text.map lowerASCII := by
  have hbytes : ∀ b ∈ text, b.toNat < 0x80 ∧ 0x20 < b.toNat := by
    intro b hb
    have hlower := h.bytes (lowerASCII b) (mem_map_of_mem hb)
    rw [lowerASCII] at hlower
    split_ifs at hlower with hupper
    · simp only [UInt8.le_iff_toNat_le, UInt8.reduceToNat] at hupper
      omega
    · exact hlower
  have hascii : isASCII text = true := by
    rw [isASCII, all_eq_true]
    exact fun b hb => decide_eq_true (UInt8.lt_iff_toNat_lt.mpr (hbytes b hb).1)
  rw [trimSpace_of_graphic hascii fun b hb => (hbytes b hb).2, toLower, if_pos hascii]

theorem isLabel : ∀ l ∈ labels, IsLabel l := fun l hl => ⟨(h.host l hl).1.ne_nil, (h.host l hl).1.length_le⟩

theorem no_dot : ∀ l ∈ labels, dotByte ∉ l := fun l hl hmem => ((h.host l hl).1.bytes dotByte hmem).2 rfl

theorem splitOn_eq (hne : labels ≠ []) : ([dotByte].intercalate labels).splitOn dotByte = labels :=
  splitOn_intercalate dotByte h.no_dot hne

theorem no_suffix : hasSuffix ([dotByte].intercalate labels) [dotByte] = false := by
  rw [Bool.eq_false_iff]
  intro hdot
  obtain ⟨t, ht⟩ := (hasSuffix_singleton _).mp hdot
  by_cases hne : labels = []
  · rw [hne] at ht
    simp at ht
  · have hsplit := h.splitOn_eq hne
    rw [ht, splitOn_append_cons_self] at hsplit
    have hnil : [] ∈ labels := hsplit ▸ mem_append_right _ (by simp)
    exact (h.host [] hnil).1.ne_nil rfl

theorem intercalate_ne (hne : labels ≠ []) : [dotByte].intercalate labels ≠ [] := by
  intro hnil
  have hsplit := h.splitOn_eq hne
  rw [hnil] at hsplit
  have hmem : [] ∈ labels := hsplit ▸ by simp
  exact (h.host [] hmem).1.ne_nil rfl

theorem lowered_ne (hne : labels ≠ []) : ¬(text.map lowerASCII = [] ∨ text.map lowerASCII = [dotByte]) := by
  have htext := h.intercalate_ne hne
  rcases h.text_eq with heq | heq
  · rw [heq, not_or]
    refine ⟨htext, fun hroot => ?_⟩
    have hdot := h.no_suffix
    rw [hroot] at hdot
    exact absurd hdot (by decide)
  · rw [heq]
    simpa using htext

theorem canonicalZone_eq (u : Unicode) : canonicalZone u text = zoneText labels := by
  unfold canonicalZone Update.canonicalName zoneText
  rw [h.lower_eq u]
  by_cases hne : labels = []
  · rw [if_pos hne]
    rcases h.text_eq with heq | heq <;> rw [heq, hne] <;> rfl
  · have hdotted : dotted labels = [dotByte].intercalate labels ++ [dotByte] := by
      rw [← dotted_dropLast, ← dotted_concat hne]
    rw [if_neg hne, if_neg (h.lowered_ne hne), hdotted, Tsig.withDot]
    rcases h.text_eq with heq | heq
    · rw [heq, h.no_suffix]
      rfl
    · rw [heq, if_pos ((hasSuffix_singleton _).mpr ⟨_, rfl⟩)]

theorem encodeDomainName_eq (u : Unicode) : encodeDomainName u text = encodeLabels labels ++ [0] := by
  unfold encodeDomainName
  rw [h.lower_eq u]
  by_cases hne : labels = []
  · rw [hne]
    rcases h.text_eq with heq | heq <;> rw [heq, hne] <;> rfl
  · have htrim : trimSuffix (text.map lowerASCII) [dotByte] = [dotByte].intercalate labels := by
      rcases h.text_eq with heq | heq
      · rw [heq, trimSuffix, h.no_suffix]
        rfl
      · rw [heq, trimSuffix_concat]
    have hsegmented : Segmented ([dotByte].intercalate labels) := by
      intro l hl
      rw [h.splitOn_eq hne] at hl
      exact (h.host l hl).1.length_le
    rw [if_neg (h.lowered_ne hne), htrim, encodeLabels_of_segmented hsegmented, h.splitOn_eq hne]

end HostName

theorem hostName_zoneText (h : ∀ l ∈ zone, HostLabel l ∧ l.map lowerASCII = l) : HostName (zoneText zone) zone where
  host := h
  text_eq := by
    right
    have hlower : lowered zone = zone := by rw [lowered, map_congr_left fun l hl => (h l hl).2, map_id']
    by_cases hne : zone = []
    · rw [hne]
      decide
    · rw [zoneText, if_neg hne, dotted_lowered, hlower, ← dotted_dropLast, ← dotted_concat hne]

end Names

section Signing

variable {u : Unicode} {v : Verifier} {k : Key} {pub owner : Bytes} {record : RRSet} {labels : List Bytes}

theorem buildSignBuffer_eq {owner' hdr : Bytes} {rdatas : List Bytes} (h : HostName owner labels) (h' : HostName owner' labels)
    (hperm : rdatas.Perm record.rdata) :
    buildSignBuffer u hdr owner' { record with rdata := rdatas } = buildSignBuffer u hdr owner record := by
  have hsorted : rdatas.insertionSort (· ≤ ·) = record.rdata.insertionSort (· ≤ ·) := by
    apply List.Perm.eq_of_pairwise' (pairwise_insertionSort _ _) (pairwise_insertionSort _ _)
    exact (perm_insertionSort _ rdatas).trans (hperm.trans (perm_insertionSort _ record.rdata).symm)
  unfold buildSignBuffer
  rw [hsorted, h.encodeDomainName_eq, h'.encodeDomainName_eq]

theorem sign_verified (hpair : v.Pairs k pub) (hzone : ∀ l ∈ zone, HostLabel l ∧ l.map lowerASCII = l)
    (hsigner : canonicalZone u k.zone = zoneText zone) (howner : HostName owner labels) (hne : record.rdata ≠ [])
    (inception expiration : ℤ) :
    ∃ rdata, sign u owner record k inception expiration = some ⟨[rdata], record.ttl, typeRRSIG, classIN⟩ ∧
      encodeLabels zone ++ [0] <+: rdata.drop rrsigHeaderFixedSize ∧
      ∀ owner' rdatas, HostName owner' labels → rdatas.Perm record.rdata →
        verify v u owner' { record with rdata := rdatas } rdata pub k.algorithm = .ok () := by
  have hsignerWire := (hostName_zoneText hzone).encodeDomainName_eq u
  unfold sign
  rw [if_neg hne, hsigner, hsignerWire]
  dsimp only
  rw [howner.canonicalZone_eq]
  generalize hfixed : bigEndian 2 record.type.toNat ++ [k.algorithm, UInt8.ofNat (min (countLabels u (zoneText labels)) 255)] ++
    bigEndian 4 record.ttl.toNat ++ bigEndian 4 (max 0 expiration).toNat ++ bigEndian 4 (max 0 inception).toNat ++
    bigEndian 2 k.keyTag.toNat = fixed
  have hlength : fixed.length = rrsigHeaderFixedSize := by
    rw [← hfixed]
    rfl
  obtain ⟨sig, hsig⟩ := hpair.sign (buildSignBuffer u (fixed ++ (encodeLabels zone ++ [0])) (zoneText labels) record)
  have hdrop : encodeLabels zone ++ [0] <+: (fixed ++ (encodeLabels zone ++ [0]) ++ sig.val).drop rrsigHeaderFixedSize := by grind
  rw [hsig]
  refine ⟨_, rfl, hdrop, ?_⟩
  · intro owner' rdatas howner' hperm
    have hbuffer : buildSignBuffer u (fixed ++ (encodeLabels zone ++ [0])) owner' { record with rdata := rdatas } =
        buildSignBuffer u (fixed ++ (encodeLabels zone ++ [0])) (zoneText labels) record :=
      buildSignBuffer_eq (hostName_zoneText howner.host) howner' hperm
    rw [← hbuffer] at hsig
    apply hpair.accepts hsig rfl
    · rw [length_append, length_append, hlength]
      omega
    · have hfuel : zone.length < (fixed ++ (encodeLabels zone ++ [0]) ++ sig.val).length + 1 := by
        have := encodeLabels_length_ge zone
        simp only [length_append]
        omega
      rw [signerEnd_labels (hostName_zoneText hzone).isLabel hdrop hfuel, ← hlength, ← length_append]

end Signing

namespace Manager

variable {u : Unicode} (m : Manager u)

def innermost : List Bytes → List Key
  | [] => m.keysOf (zoneText [])
  | l :: labels => if m.keysOf (zoneText (l :: labels)) ≠ [] then m.keysOf (zoneText (l :: labels)) else innermost labels

variable {labels : List Bytes}

theorem innermost_none (h : ∀ zone, zone <:+ labels → m.keysOf (zoneText zone) = []) : m.innermost labels = [] := by
  induction labels with
  | nil => exact h [] suffix_rfl
  | cons l labels ih =>
    rw [innermost, if_neg (not_not.mpr (h _ suffix_rfl))]
    exact ih fun zone hzone => h zone (hzone.trans (suffix_cons l labels))

theorem innermost_eq (hzone : zone <:+ labels) (hkeys : m.keysOf (zoneText zone) ≠ [])
    (hlongest : ∀ zone', zone' <:+ labels → zone.length < zone'.length → m.keysOf (zoneText zone') = []) :
    m.innermost labels = m.keysOf (zoneText zone) := by
  induction labels with
  | nil =>
    rw [suffix_nil.mp hzone]
    rfl
  | cons l labels ih =>
    rcases suffix_cons_iff.mp hzone with rfl | hzone
    · rw [innermost, if_pos hkeys]
    · have hlonger : zone.length < (l :: labels).length := Nat.lt_succ_of_le hzone.length_le
      rw [innermost, if_neg (not_not.mpr (hlongest _ suffix_rfl hlonger))]
      exact ih hzone fun zone' hzone' => hlongest zone' (hzone'.trans (suffix_cons l labels))

theorem findFrom_skip {x : Bytes} (hx : dotByte ∉ x) (rest : Bytes) : m.findFrom false (x ++ dotByte :: rest) = m.findFrom true rest := by
  induction x with
  | nil => rfl
  | cons b x ih =>
    rw [mem_cons, not_or] at hx
    rw [cons_append, findFrom, decide_eq_false (Ne.symm hx.1)]
    exact ih hx.2

theorem keys_zoneText (h : ∀ l ∈ zone, HostLabel l ∧ l.map lowerASCII = l) :
    m.keys (zoneText zone) = m.keysOf (zoneText zone) := by
  rw [keys, (hostName_zoneText h).canonicalZone_eq]

theorem findFrom_dotted (h : ∀ l ∈ labels, HostLabel l ∧ l.map lowerASCII = l) :
    m.findFrom true (dotted labels) = m.innermost labels := by
  induction labels with
  | nil =>
    have hroot : m.keys [] = m.keysOf (zoneText []) := rfl
    have hdot : m.keys [dotByte] = m.keysOf (zoneText []) := rfl
    rw [innermost]
    change (if m.keys [] ≠ [] then m.keys [] else m.keys [dotByte]) = _
    rw [hroot, hdot, ite_self]
  | cons l labels ih =>
    obtain ⟨hl, hlabels⟩ := forall_mem_cons.mp h
    have htext : zoneText (l :: labels) = dotted (l :: labels) := if_neg (cons_ne_nil l labels)
    have hkeys := m.keys_zoneText h
    rw [htext] at hkeys
    have hdots : dotByte ∉ l := fun hmem => (hl.1.bytes dotByte hmem).2 rfl
    obtain ⟨b, rest, rfl⟩ := exists_cons_of_ne_nil hl.1.ne_nil
    rw [innermost, htext, ← hkeys, ← ih hlabels, dotted_cons, append_assoc, singleton_append, cons_append, findFrom]
    rw [mem_cons, not_or] at hdots
    rw [if_neg (show b :: (rest ++ dotByte :: dotted labels) ≠ [dotByte] by simp), decide_eq_false (Ne.symm hdots.1),
      m.findFrom_skip hdots.2]

theorem findMatchingKeys_eq {text : Bytes} (h : HostName text labels) :
    m.findMatchingKeys text = m.innermost labels := by
  rw [findMatchingKeys, h.canonicalZone_eq]
  by_cases hne : labels = []
  · have hdot : m.keys [dotByte] = m.keysOf (zoneText []) := rfl
    rw [hne, innermost]
    change (if m.keys [dotByte] ≠ [] then m.keys [dotByte] else if [dotByte] = [dotByte] then [] else _) = _
    rw [if_pos rfl, hdot, ite_not]
    split_ifs with hnil
    · exact hnil.symm
    · rfl
  · rw [zoneText, if_neg hne, m.findFrom_dotted h.host]

variable {m} {qName : Bytes} {qType : RRType} {res : Result}

theorem signResult_unsigned (h : HostName qName labels) (hqType : qType ≠ typeDNSKEY)
    (hnone : ∀ zone, zone <:+ labels → m.keysOf (zoneText zone) = []) (now : ℤ) :
    m.signResult qName qType res now = .ofResult res := by
  have hsynthesizes : m.synthesizes qName qType res = false := decide_eq_false fun hq => hqType hq.1
  rw [m.signResult_eq now hsynthesizes, h.canonicalZone_eq, m.findMatchingKeys_eq (hostName_zoneText h.host), m.innermost_none hnone]

theorem signResult_signed (h : HostName qName labels) (hqType : qType ≠ typeDNSKEY) (hrcode : res.rcode = .success)
    (hanswer : res.hasAnswer = true) (htype : res.answer.type ≠ typeRRSIG) {k : Key} {ks : List Key}
    (hkeys : m.innermost labels = k :: ks) {now : ℤ} {rrSig : RRSet}
    (hsign : sign u (zoneText labels) res.answer k (now - defaultValidityPast) (now + defaultValidityFuture) = some rrSig) :
    m.signResult qName qType res now = { Response.ofResult res with answerRRSIG := rrSig } := by
  have hsynthesizes : m.synthesizes qName qType res = false := decide_eq_false fun hq => hqType hq.1
  rw [m.signResult_eq now hsynthesizes, h.canonicalZone_eq, m.findMatchingKeys_eq (hostName_zoneText h.host), hkeys]
  dsimp only
  rw [signWith, if_pos ⟨hrcode, hanswer⟩, if_pos htype, hsign]
  rfl

structure InnermostZone (m : Manager u) (labels zone : List Bytes) : Prop where
  suffix : zone <:+ labels
  keys_ne : m.keysOf (zoneText zone) ≠ []
  longer : ∀ zone', zone' <:+ labels → zone.length < zone'.length → m.keysOf (zoneText zone') = []

theorem exists_innermostZone (h : ∃ zone, zone <:+ labels ∧ m.keysOf (zoneText zone) ≠ []) : ∃ zone, m.InnermostZone labels zone := by
  induction labels with
  | nil =>
    obtain ⟨zone, hzone, hkeys⟩ := h
    refine ⟨zone, hzone, hkeys, fun zone' hzone' hlength => ?_⟩
    rw [suffix_nil.mp hzone', suffix_nil.mp hzone] at hlength
    exact absurd hlength (lt_irrefl _)
  | cons l labels ih =>
    by_cases hkeys : m.keysOf (zoneText (l :: labels)) = []
    · have hrest : ∃ zone, zone <:+ labels ∧ m.keysOf (zoneText zone) ≠ [] := by
        obtain ⟨zone, hzone, hne⟩ := h
        rcases suffix_cons_iff.mp hzone with rfl | hzone
        · exact absurd hkeys hne
        · exact ⟨zone, hzone, hne⟩
      obtain ⟨zone, hsuffix, hne, hlonger⟩ := ih hrest
      refine ⟨zone, hsuffix.trans (suffix_cons l labels), hne, fun zone' hzone' hlength => ?_⟩
      rcases suffix_cons_iff.mp hzone' with rfl | hzone'
      · exact hkeys
      · exact hlonger zone' hzone' hlength
    · exact ⟨l :: labels, suffix_rfl, hkeys, fun zone' hzone' hlength => absurd hzone'.length_le (Nat.not_le.mpr hlength)⟩

/-- A positive answer is signed in the name of the longest zone with keys, and by its first key: the signature is accepted for
the name in any case and the RDATA in any order. -/
theorem signResult_verified {v : Verifier} {publicKey : Key → Bytes} (hpairs : ∀ zone, ∀ k ∈ m.keysOf zone, v.Pairs k (publicKey k))
    (h : HostName qName labels) (hqType : qType ≠ typeDNSKEY) (hrcode : res.rcode = .success) (hanswer : res.hasAnswer = true)
    (htype : res.answer.type ≠ typeRRSIG) (now : ℤ) :
    ((∃ zone, zone <:+ labels ∧ m.keysOf (zoneText zone) ≠ []) →
      ∃ zone k ks rdata, m.InnermostZone labels zone ∧ m.keysOf (zoneText zone) = k :: ks ∧
        m.signResult qName qType res now =
          { Response.ofResult res with answerRRSIG := ⟨[rdata], res.answer.ttl, typeRRSIG, classIN⟩ } ∧
        encodeLabels zone ++ [0] <+: rdata.drop rrsigHeaderFixedSize ∧
        ∀ owner rdatas, HostName owner labels → rdatas.Perm res.answer.rdata →
          verify v u owner { res.answer with rdata := rdatas } rdata (publicKey k) k.algorithm = .ok ()) ∧
    ((¬∃ zone, zone <:+ labels ∧ m.keysOf (zoneText zone) ≠ []) → m.signResult qName qType res now = .ofResult res) := by
  constructor
  · intro hexists
    obtain ⟨zone, hlongest⟩ := exists_innermostZone hexists
    obtain ⟨k, ks, hkeys⟩ := exists_cons_of_ne_nil hlongest.keys_ne
    have hk : k ∈ m.keysOf (zoneText zone) := by rw [hkeys]; exact mem_cons_self
    have hhost : ∀ l ∈ zone, HostLabel l ∧ l.map lowerASCII = l := fun l hl => h.host l (hlongest.suffix.subset hl)
    have hne : res.answer.rdata ≠ [] := by
      intro hnil
      rw [Result.hasAnswer, RRSet.hasRecords, hnil] at hanswer
      cases hanswer
    obtain ⟨rdata, hsign, hsigner, haccepts⟩ := sign_verified (hpairs _ k hk) hhost (m.zone_eq _ k hk) (hostName_zoneText h.host) hne
      (now - defaultValidityPast) (now + defaultValidityFuture)
    have hinnermost : m.innermost labels = k :: ks := by
      rw [m.innermost_eq hlongest.suffix hlongest.keys_ne hlongest.longer, hkeys]
    exact ⟨zone, k, ks, rdata, hlongest, hkeys, signResult_signed h hqType hrcode hanswer htype hinnermost hsign, hsigner, haccepts⟩
  · intro hnone
    apply signResult_unsigned h hqType
    intro zone hzone
    by_contra hne
    exact hnone ⟨zone, hzone, hne⟩

def constantVerifier : Verifier := ⟨fun _ => false, fun _ _ _ => false, fun _ _ sig => sig = replicate 64 7⟩

theorem zoneKeys_pairs (zone : Bytes) (k : Key) (hk : k ∈ zoneKeys.keysOf zone) :
    constantVerifier.Pairs k (replicate 32 1) := by
  have hkey : k = zoneKey := by
    unfold zoneKeys add at hk
    dsimp only at hk
    rw [Function.update_apply] at hk
    split_ifs at hk
    · exact mem_singleton.mp hk
    · cases hk
  rw [hkey]
  refine .ed25519 _ rfl rfl length_replicate fun _ => ?_
  exact decide_eq_true (Eq.refl (replicate 64 (7 : UInt8)))

def addressPair : Result := { rcode := .success, answer := ⟨[[10, 0, 0, 2], [10, 0, 0, 1]], 60, typeA, classIN⟩ }

theorem signResult_verified_host :
    ∃ k rdata, (zoneKeys.signResult [67, 46, 65, 46] typeA addressPair 0).answerRRSIG = ⟨[rdata], 60, typeRRSIG, classIN⟩ ∧
      verify constantVerifier .basic [99, 46, 97] ⟨[[10, 0, 0, 1], [10, 0, 0, 2]], 60, typeA, classIN⟩ rdata
        (replicate 32 1) k = .ok () := by
  have hhost : ∀ l ∈ [[99], [97]], HostLabel l ∧ l.map lowerASCII = l := by
    intro l hl
    simp only [mem_cons, not_mem_nil, or_false] at hl
    rcases hl with rfl | rfl <;> exact ⟨⟨by decide, by decide, .inr (by decide +kernel)⟩, by decide +kernel⟩
  have hname : HostName [67, 46, 65, 46] [[99], [97]] := ⟨hhost, .inr (by decide)⟩
  have hzone : ∃ zone, zone <:+ [[99], [97]] ∧ zoneKeys.keysOf (zoneText zone) ≠ [] :=
    ⟨[[97]], ⟨[[99]], rfl⟩, cons_ne_nil zoneKey []⟩
  obtain ⟨zone, k, ks, rdata, -, -, hresponse, -, haccepts⟩ :=
    (signResult_verified zoneKeys_pairs hname (show typeA ≠ typeDNSKEY by decide) (show addressPair.rcode = .success from rfl)
      (by decide) (by decide) 0).1 hzone
  exact ⟨k.algorithm, rdata, congrArg Response.answerRRSIG hresponse,
    haccepts [99, 46, 97] _ ⟨hhost, .inl (by decide)⟩ (List.Perm.swap _ _ _)⟩

end Manager

end Kdns.Dnssec
