import Kdns.Server.KeyNames
import Kdns.Server.Reflection
import Kdns.Server.Sizes

open List

namespace Kdns.Tsig

open ByteStream Dns Wire CompressedName GoStrings

section Fields

variable {p x : Bytes} {i : ℕ}

theorem take_of_isPrefix {n : ℕ} (h : x <+: p.drop i) (hn : x.length = n) : (p.drop i).take n = x := by
  rw [← hn]
  exact (prefix_iff_eq_take.mp h).symm

theorem uint32At_zero (h : bigEndian 4 0 <+: p.drop i) : uint32At p i = 0 := by
  rw [uint32At, take_of_isPrefix h (bigEndian_length 4 0)]
  rfl

theorem putUint16_putUint16 (h : i + 2 ≤ p.length) (v w : UInt16) : putUint16 (putUint16 p i v) i w = putUint16 p i w := by
  have hfront : (p.take i).length = i := length_take_of_le (by omega)
  have hboth : (p.take i ++ bigEndian 2 v.toNat).length = i + 2 := by rw [length_append, hfront, bigEndian_length]
  rw [putUint16, putUint16, drop_left' hboth, append_assoc (p.take i), take_left' hfront]
  rfl

theorem putUint16_self (h : i + 2 ≤ p.length) : putUint16 p i (uint16At p i) = p := by
  have hdrop : p.drop i = p[i] :: p[i + 1] :: p.drop (i + 2) := by rw [getElem_cons_drop, getElem_cons_drop]
  have hvalue := uint16At_cons (p := p) (i := i) ⟨[], by rw [append_nil, hdrop]⟩
  conv_rhs => rw [← take_append_drop i p, hdrop]
  rw [putUint16, hvalue, bigEndian_two, append_assoc]
  rfl

end Fields

section Algorithms

def algorithms : List Bytes := [hmacSHA256, hmacSHA512, hmacSHA1, hmacMD5]

variable {a : Bytes} (u : Unicode)

theorem algorithms_plain (ha : a ∈ algorithms) :
    KeyName a ∧ canonicalName u a = a ∧ keyText u a = trimSuffix a [dotByte] ∧ Dense (keyText u a) := by
  have hfacts : ∀ a ∈ algorithms, isASCII a = true ∧ a.length ≤ 253 ∧
      (∀ label ∈ (trimSuffix a [dotByte]).splitOn dotByte, 1 ≤ label.length ∧ label.length ≤ maxLabelLen) ∧
      trimSpace a = a ∧ withDot (a.map lowerASCII) = a ∧ [] ∉ (trimSuffix a [dotByte]).splitOn dotByte := by decide +kernel
  obtain ⟨hascii, hlen, hlabels, htrim, hlower, hdense⟩ := hfacts a ha
  have hname : canonicalName u a = a := by rw [canonicalName, htrim, toLower, if_pos hascii, hlower]
  have htext : keyText u a = trimSuffix a [dotByte] := by rw [keyText, hname]
  exact ⟨⟨hascii, hlen, .inr hlabels⟩, hname, htext, .inr (htext ▸ hdense)⟩

theorem canonicalAlgorithm_lower {s : Bytes} (hs : isASCII s = true) (htrim : trimSpace s = s) :
    canonicalAlgorithm u s = canonicalAlgorithm .basic s := by
  have hlower : toLower u (trimSpace s) = toLower .basic (trimSpace s) := by
    rw [htrim, toLower, toLower, if_pos hs, if_pos hs]
  rw [canonicalAlgorithm, canonicalAlgorithm, hlower]

theorem canonicalAlgorithm_algorithms (ha : a ∈ algorithms) :
    canonicalAlgorithm u a = a ∧ canonicalAlgorithm u (trimSuffix a [dotByte]) = a := by
  have hfacts : ∀ a ∈ algorithms, (isASCII a = true ∧ trimSpace a = a ∧ canonicalAlgorithm .basic a = a) ∧
      isASCII (trimSuffix a [dotByte]) = true ∧ trimSpace (trimSuffix a [dotByte]) = trimSuffix a [dotByte] ∧
      canonicalAlgorithm .basic (trimSuffix a [dotByte]) = a := by decide +kernel
  obtain ⟨⟨hascii, htrim, hsame⟩, hascii', htrim', hsame'⟩ := hfacts a ha
  rw [canonicalAlgorithm_lower u hascii htrim, canonicalAlgorithm_lower u hascii' htrim']
  exact ⟨hsame, hsame'⟩

theorem newHasher_algorithms (hmac : HMAC) (secret : Bytes) (ha : a ∈ algorithms) :
    ∃ hash, newHasher u hmac a secret = some (hmac hash secret) := by
  unfold newHasher
  simp only [(canonicalAlgorithm_algorithms u ha).1]
  split_ifs with h₁ h₂ h₃ h₄
  · exact ⟨_, rfl⟩
  · exact ⟨_, rfl⟩
  · exact ⟨_, rfl⟩
  · exact ⟨_, rfl⟩
  · exact absurd ha (by simp [algorithms, h₁, h₂, h₃, h₄])

end Algorithms

variable {r : Record} {p name : Bytes} {u : Unicode} {hmac : HMAC} {key : Key}

section Record

variable {algo mac other id keyName : Bytes} {i t : ℕ} {fudge err : UInt16}

def signatureData (algo : Bytes) (t : ℕ) (fudge : UInt16) (mac id : Bytes) (err : UInt16) (other : Bytes) : Bytes :=
  algo ++ (bigEndian 6 t ++ (bigEndian 2 fudge.toNat ++ (bigEndian 2 mac.length ++ (mac ++ (id ++ (bigEndian 2 err.toNat ++
    (bigEndian 2 other.length ++ other)))))))

theorem signatureData_length (algo : Bytes) (t : ℕ) (fudge : UInt16) (mac : Bytes) (err : UInt16) (other : Bytes)
    (hid : id.length = 2) :
    (signatureData algo t fudge mac id err other).length = algo.length + 10 + mac.length + 6 + other.length := by
  simp only [signatureData, length_append, bigEndian_length, hid]
  omega

theorem unpackTSIGRecord_data {algoName : Bytes} (keyName : Bytes) (hname : unpackDomainName p i = .ok (algoName, i + algo.length))
    (ht : t < 256 ^ 6) (hmac : mac.length < 65536) (hother : other.length < 65536) (hid : id.length = 2)
    (hp : signatureData algo t fudge mac id err other <+: p.drop i) :
    unpackTSIGRecord u p i (i + (signatureData algo t fudge mac id err other).length) keyName =
      .ok ⟨canonicalName u keyName, canonicalAlgorithm u algoName, mac, other, t, UInt16.ofNat (ofBigEndian id), fudge, err⟩ := by
  have hlength := signatureData_length algo t fudge mac err other hid
  have htime := isPrefix_drop_right hp
  have hfudge := isPrefix_drop_right htime
  have hsize := isPrefix_drop_right hfudge
  have hcode := isPrefix_drop_right hsize
  have hident := isPrefix_drop_right hcode
  have herror := isPrefix_drop_right hident
  have hlen := isPrefix_drop_right herror
  have hdata := isPrefix_drop_right hlen
  simp only [bigEndian_length, hid] at hfudge hsize hcode hident herror hlen hdata
  generalize ho : i + algo.length = o at *
  have hmacSize : (uint16At p (o + 8)).toNat = mac.length :=
    uint16At_of_isPrefix hmac ((prefix_append _ _).trans hsize)
  have hotherSize : (uint16At p (o + 10 + mac.length + 4)).toNat = other.length :=
    uint16At_of_isPrefix hother ((prefix_append _ _).trans hlen)
  have hid' : uint16At p (o + 10 + mac.length) = UInt16.ofNat (ofBigEndian id) := by
    rw [uint16At, take_of_isPrefix ((prefix_append _ _).trans hident) hid]
  have hfudge' : uint16At p (o + 6) = fudge := uint16At_eq ((prefix_append _ _).trans hfudge)
  have herror' : uint16At p (o + 10 + mac.length + 2) = err := uint16At_eq ((prefix_append _ _).trans herror)
  have htime' : ofBigEndian (slice p o 6) = t := by
    rw [slice, take_of_isPrefix ((prefix_append _ _).trans htime) (bigEndian_length 6 t), ofBigEndian_bigEndian 6 t ht]
  have hmac' : slice p (o + 10) mac.length = mac := take_of_isPrefix ((prefix_append _ _).trans hcode) rfl
  have hother' : slice p (o + 10 + mac.length + 6) other.length = other := take_of_isPrefix hdata rfl
  unfold unpackTSIGRecord
  rw [hname]
  dsimp only [liftWire]
  rw [Fallible.ok_bind]
  rw [if_neg (by omega), hmacSize, if_neg (by omega), hotherSize, if_neg (by omega), hid', hfudge', herror', htime', hmac', hother']
  rfl

theorem unpackTSIGRecord_name {rdataEnd : ℕ}
    (h : unpackTSIGRecord u p i rdataEnd keyName = .ok r) : r.name = canonicalName u keyName := by
  obtain ⟨⟨algoName, offset⟩, -, h⟩ := Fallible.bind_ok h
  obtain ⟨-, h⟩ := Fallible.of_guard h
  obtain ⟨-, h⟩ := Fallible.of_guard h
  obtain ⟨-, h⟩ := Fallible.of_guard h
  cases h
  rfl

theorem signatureRecord_eq {resp : Bytes} (hother : other.length < 65536)
    (hsize : (signatureData (encodeDomainName u algo) t fudge mac (resp.take 2) err other).length < 65536) :
    signatureRecord u resp keyName algo mac t fudge err other =
      encodeDomainName u keyName ++ (bigEndian 2 typeTSIG.toNat ++ (bigEndian 2 classANY.toNat ++ (bigEndian 4 0 ++
        (bigEndian 2 (signatureData (encodeDomainName u algo) t fudge mac (resp.take 2) err other).length ++
          signatureData (encodeDomainName u algo) t fudge mac (resp.take 2) err other)))) := by
  have hmac : mac.length < 65536 := by
    simp only [signatureData, length_append] at hsize
    omega
  have hdata : encodeDomainName u algo ++ bigEndian 6 t ++ bigEndian 2 fudge.toNat ++ bigEndian 2 (min mac.length 65535) ++
      mac ++ resp.take 2 ++ bigEndian 2 err.toNat ++ bigEndian 2 (min other.length 65535) ++ other =
      signatureData (encodeDomainName u algo) t fudge mac (resp.take 2) err other := by
    rw [min_eq_left (by omega), min_eq_left (by omega)]
    simp only [signatureData, append_assoc]
  unfold signatureRecord
  simp only [hdata]
  rw [min_eq_left (by omega)]
  simp only [append_assoc]

theorem extract_of {start o : ℕ} (hlen : headerSize ≤ p.length) (har : (decodeHeader p).arCount ≠ 0)
    (hstart : skipMessageSections p (decodeHeader p).qdCount.toNat (decodeHeader p).anCount.toNat
      (decodeHeader p).nsCount.toNat (decodeHeader p).arCount.toNat = .ok start)
    (hname : unpackDomainName p start = .ok (keyName, o)) (hfits : o + 10 + (uint16At p (o + 8)).toNat ≤ p.length)
    (htype : uint16At p o = typeTSIG) (hclass : uint16At p (o + 2) = classANY) (httl : uint32At p (o + 4) = 0)
    (hr : unpackTSIGRecord u p (o + 10) (o + 10 + (uint16At p (o + 8)).toNat) keyName = .ok r) :
    extract u p = .ok (some r, putUint16 (p.take start) 10 ((decodeHeader p).arCount - 1)) := by
  unfold extract
  rw [if_neg (Nat.not_lt.mpr hlen)]
  rw [if_neg har, hstart, Fallible.ok_bind, hname]
  dsimp only [liftWire]
  rw [Fallible.ok_bind]
  dsimp only
  rw [if_neg (by omega), if_neg (by simp [htype, hclass, httl]), if_neg (by omega), hr]
  rfl

end Record

section Signing

variable {m : Bytes} {t : ℕ} {hasher : Bytes → Bytes}

def digest (u : Unicode) (m : Bytes) (key : Key) (t : ℕ) : Bytes :=
  m ++ tsigVariables u (canonicalName u key.name) (canonicalAlgorithm u key.algorithm) t (UInt16.ofNat defaultFudge) 0 []

def signedRecord (u : Unicode) (m : Bytes) (key : Key) (t : ℕ) (mac : Bytes) : Record where
  name := canonicalName u key.name
  algorithm := canonicalAlgorithm u key.algorithm
  mac := mac
  otherData := []
  timeSigned := t
  originalID := uint16At m 0
  fudge := UInt16.ofNat defaultFudge
  error := 0

def raised (m : Bytes) : Bytes := putUint16 m 10 (uint16At m 10 + 1)

def sectionsEnd (p m : Bytes) : Except ExtractError ℕ :=
  skipMessageSections p (decodeHeader m).qdCount.toNat (decodeHeader m).anCount.toNat (decodeHeader m).nsCount.toNat
    ((decodeHeader m).arCount.toNat + 1)

theorem signature_plain (hh : newHasher u hmac (canonicalAlgorithm u key.algorithm) key.secret = some hasher) :
    signature u hmac m [] key 0 t = some (signatureRecord u m (canonicalName u key.name)
      (canonicalAlgorithm u key.algorithm) (hasher (digest u m key t)) t (UInt16.ofNat defaultFudge) 0 []) := by
  have herr : ¬(0 : UInt16) = VerifyError.badTime.code := by decide
  unfold signature responseMAC otherData
  simp only [hh, Option.map_some, if_neg herr, if_true, nil_append, Int.toNat_natCast, digest]

theorem sectionsEnd_length {i : ℕ} (h : sectionsEnd p m = .ok i) : headerSize ≤ i := skipMessageSections_le h

section

variable (hm : headerSize ≤ m.length)
include hm

theorem raised_header (rr : Bytes) :
    decodeHeader (raised m ++ rr) = { decodeHeader m with arCount := (decodeHeader m).arCount + 1 } := by
  have hsize : headerSize = 12 := rfl
  have hlength : (raised m).length = m.length := putUint16_length (by omega) _
  unfold decodeHeader
  rw [uint16At_append (by omega), uint16At_append (by omega), uint16At_append (by omega), uint16At_append (by omega),
    uint16At_append (by omega), uint16At_append (by omega), raised, uint16At_putUint16 (by omega),
    uint16At_putUint16_before (by omega) (by omega), uint16At_putUint16_before (by omega) (by omega),
    uint16At_putUint16_before (by omega) (by omega), uint16At_putUint16_before (by omega) (by omega),
    uint16At_putUint16_before (by omega) (by omega)]

theorem lowered_raised (rr : Bytes) :
    putUint16 ((raised m ++ rr).take m.length) 10 ((decodeHeader (raised m ++ rr)).arCount - 1) = m := by
  have hsize : headerSize = 12 := rfl
  have hlength : (raised m).length = m.length := putUint16_length (by omega) _
  rw [raised_header hm, take_left' hlength, raised, putUint16_putUint16 (by omega)]
  have hcount : (decodeHeader m).arCount + 1 - 1 = uint16At m 10 := by
    rw [UInt16.add_sub_cancel]
    rfl
  rw [hcount, putUint16_self (by omega)]

theorem restoreID_self : restoreID m (uint16At m 0) = m := by
  have hsize : headerSize = 12 := rfl
  unfold restoreID
  split_ifs
  · exact putUint16_self (by omega)
  · rfl

end

theorem verify_clock {now : ℤ} {window : ℕ} (hnow : 0 ≤ now) (hname : canonicalName u key.name = r.name)
    (halgo : canonicalAlgorithm u key.algorithm = r.algorithm)
    (hh : newHasher u hmac r.algorithm key.secret = some hasher) (hcode : hasher (restoreID m r.originalID ++
      tsigVariables u r.name r.algorithm r.timeSigned r.fudge r.error r.otherData) = r.mac)
    (hwindow : (if r.fudge = 0 then defaultFudge else r.fudge.toNat) = window) :
    verify u hmac m r key now = if (now - r.timeSigned).natAbs ≤ window then .ok () else .error .badTime := by
  unfold verify
  rw [if_neg (not_not.mpr hname), if_neg (not_not.mpr halgo), hwindow, hh, clockSkew_eq, max_eq_left hnow]
  dsimp only
  rw [if_pos hcode]
  by_cases hnear : (now - r.timeSigned).natAbs ≤ window
  · rw [if_neg (Nat.not_lt.mpr hnear), if_pos hnear]
  · rw [if_pos (Nat.lt_of_not_le hnear), if_neg hnear]

theorem verify_signedRecord (hm : headerSize ≤ m.length)
    (hh : newHasher u hmac (canonicalAlgorithm u key.algorithm) key.secret = some hasher) {now : ℤ} (hnow : 0 ≤ now) :
    verify u hmac m (signedRecord u m key t (hasher (digest u m key t))) key now =
      if (now - t).natAbs ≤ defaultFudge then .ok () else .error .badTime := by
  have hcode : hasher (restoreID m (uint16At m 0) ++ tsigVariables u (canonicalName u key.name)
      (canonicalAlgorithm u key.algorithm) t (UInt16.ofNat defaultFudge) 0 []) = hasher (digest u m key t) := by
    rw [restoreID_self hm, digest]
  have hfudge : (if UInt16.ofNat defaultFudge = 0 then defaultFudge else (UInt16.ofNat defaultFudge).toNat) = defaultFudge := by
    decide
  exact verify_clock hnow rfl rfl hh hcode hfudge

end Signing

structure Signable (u : Unicode) (hmac : HMAC) (m : Bytes) (bufLen : ℕ) (key : Key) (t : ℕ) : Prop where
  parses : sectionsEnd m m = .ok m.length
  additional : (decodeHeader m).arCount.toNat < 65535
  name : KeyName key.name
  algorithm : canonicalAlgorithm u key.algorithm ∈ algorithms
  time : t < 0x1000000000000
  room : ∀ rr, signature u hmac m [] key 0 t = some rr → m.length + rr.length ≤ bufLen

def CodesFit (hmac : HMAC) : Prop := ∀ hash secret message, (hmac hash secret message).length ≤ 65000

/-- The signed message is found as it was, with the fields that were signed, and accepted while the clock is near. -/
def RoundTrips (u : Unicode) (hmac : HMAC) (m : Bytes) (bufLen : ℕ) (key : Key) (t : ℕ) : Prop :=
  ∃ hasher signed, newHasher u hmac (canonicalAlgorithm u key.algorithm) key.secret = some hasher ∧
    sign u hmac m bufLen [] key 0 t = some signed ∧
    extract u signed = .ok (some (signedRecord u m key t (hasher (digest u m key t))), m) ∧
    ∀ now : ℤ, 0 ≤ now → verify u hmac m (signedRecord u m key t (hasher (digest u m key t))) key now =
      if (now - t).natAbs ≤ defaultFudge then .ok () else .error .badTime

def KeepsSections (u : Unicode) (hmac : HMAC) (m : Bytes) (key : Key) (t : ℕ) : Prop :=
  ∀ rr, signature u hmac m [] key 0 t = some rr → sectionsEnd (raised m ++ rr) m = .ok m.length

/-- What is left of the name without the white space around it and one dot at its end has no empty label and no more
white space to trim. -/
def LegibleName (u : Unicode) (name : Bytes) : Prop := Dense (keyText u name) ∧ trimSpace (keyText u name) = keyText u name

namespace Signable

variable {m : Bytes} {bufLen : ℕ} {t : ℕ}

variable (h : Signable u hmac m bufLen key t)
include h

theorem header : headerSize ≤ m.length := sectionsEnd_length h.parses

theorem id_length : (m.take 2).length = 2 := by
  have hlen := h.header
  have hsize : headerSize = 12 := rfl
  rw [length_take]
  omega

theorem signs (hcodes : CodesFit hmac) :
    ∃ hasher data rr, newHasher u hmac (canonicalAlgorithm u key.algorithm) key.secret = some hasher ∧
      data = signatureData (encodeDomainName u (canonicalAlgorithm u key.algorithm)) t (UInt16.ofNat defaultFudge)
        (hasher (digest u m key t)) (m.take 2) 0 [] ∧ data.length < 65536 ∧ (hasher (digest u m key t)).length < 65536 ∧
      rr = encodeDomainName u (canonicalName u key.name) ++ (bigEndian 2 typeTSIG.toNat ++ (bigEndian 2 classANY.toNat ++
        (bigEndian 4 0 ++ (bigEndian 2 data.length ++ data)))) ∧
      signature u hmac m [] key 0 t = some rr ∧ sign u hmac m bufLen [] key 0 t = some (raised m ++ rr) := by
  obtain ⟨hash, hh⟩ := newHasher_algorithms u hmac key.secret h.algorithm
  have hcode : (hmac hash key.secret (digest u m key t)).length ≤ 65000 := hcodes _ _ _
  have hwire : (encodeDomainName u (canonicalAlgorithm u key.algorithm)).length ≤ 64 := by
    obtain ⟨hname, hcanonical, htext, hdense⟩ := algorithms_plain u h.algorithm
    have hshort : ∀ a ∈ algorithms, (wireName (trimSuffix a [dotByte])).length ≤ 64 := by decide +kernel
    have heq := encodeDomainName_dense u hname hdense
    rw [hcanonical, htext] at heq
    rw [heq]
    exact hshort _ h.algorithm
  have hdata := signatureData_length (encodeDomainName u (canonicalAlgorithm u key.algorithm)) t (UInt16.ofNat defaultFudge)
    (hmac hash key.secret (digest u m key t)) 0 [] h.id_length
  rw [length_nil] at hdata
  have hsig := signature_plain (m := m) (t := t) hh
  rw [signatureRecord_eq (by decide) (by omega)] at hsig
  refine ⟨_, _, _, hh, rfl, by omega, by omega, rfl, hsig, ?_⟩
  rw [sign, hsig, Option.bind_some, if_neg (Nat.not_lt.mpr (h.room _ hsig))]
  rfl

theorem sectionsEnd_signed (rr : Bytes) :
    skipMessageSections (raised m ++ rr) (decodeHeader (raised m ++ rr)).qdCount.toNat
      (decodeHeader (raised m ++ rr)).anCount.toNat (decodeHeader (raised m ++ rr)).nsCount.toNat
      (decodeHeader (raised m ++ rr)).arCount.toNat = sectionsEnd (raised m ++ rr) m ∧
    (decodeHeader (raised m ++ rr)).arCount ≠ 0 := by
  have hcount : ((decodeHeader m).arCount + 1).toNat = (decodeHeader m).arCount.toNat + 1 := by
    have hlt := h.additional
    have hone : (1 : UInt16).toNat = 1 := rfl
    rw [UInt16.toNat_add, hone, Nat.mod_eq_of_lt (by omega)]
  rw [raised_header h.header]
  dsimp only
  rw [hcount]
  refine ⟨rfl, fun hzero => ?_⟩
  rw [hzero] at hcount
  exact absurd hcount (by simp)

theorem raised_length : (raised m).length = m.length := by
  have hlen := h.header
  have hsize : headerSize = 12 := rfl
  exact putUint16_length (by omega) _

theorem unpacks (hname : LegibleName u key.name) {mac : Bytes} {i : ℕ} (hmac : mac.length < 65536)
    (hp : signatureData (encodeDomainName u (canonicalAlgorithm u key.algorithm)) t (UInt16.ofNat defaultFudge) mac
      (m.take 2) 0 [] <+: p.drop i) :
    unpackTSIGRecord u p i (i + (signatureData (encodeDomainName u (canonicalAlgorithm u key.algorithm)) t
      (UInt16.ofNat defaultFudge) mac (m.take 2) 0 []).length) (keyText u key.name) = .ok (signedRecord u m key t mac) := by
  obtain ⟨halgo, hcanonical, htext, hdense⟩ := algorithms_plain u h.algorithm
  have hwire : encodeDomainName u (canonicalName u (canonicalAlgorithm u key.algorithm)) <+: p.drop i := by
    rw [hcanonical]
    exact (prefix_append _ _).trans hp
  have halgoName := unpack_dense u halgo hdense hwire
  rw [hcanonical] at halgoName
  have hother : ([] : Bytes).length < 65536 := by decide
  have hfields := unpackTSIGRecord_data (u := u) (keyText u key.name) halgoName h.time hmac hother h.id_length hp
  rw [(canonicalName_keyText u h.name.ascii hname.1).mpr hname.2, htext,
    (canonicalAlgorithm_algorithms u h.algorithm).2] at hfields
  exact hfields

theorem roundTrips (hcodes : CodesFit hmac) (hkeeps : KeepsSections u hmac m key t)
    (hname : LegibleName u key.name) : RoundTrips u hmac m bufLen key t := by
  obtain ⟨hasher, data, rr, hh, hdata, hsize, hmac, hrr, hsig, hsign⟩ := h.signs hcodes
  refine ⟨hasher, _, hh, hsign, ?_, fun now hnow => verify_signedRecord h.header hh hnow⟩
  obtain ⟨hsections, hadditional⟩ := h.sectionsEnd_signed rr
  have hrestored := lowered_raised h.header rr
  have hlength := h.raised_length
  have hpacket : headerSize ≤ (raised m ++ rr).length := by
    rw [length_append, hlength]
    exact h.header.trans (Nat.le_add_right _ _)
  rw [hkeeps rr hsig] at hsections
  have hp : rr <+: (raised m ++ rr).drop m.length := ⟨[], by rw [append_nil, drop_left' hlength]⟩
  have hend : (raised m ++ rr).length = m.length + (encodeDomainName u (canonicalName u key.name)).length + 10 + data.length := by
    rw [length_append, hlength, hrr]
    simp only [length_append, bigEndian_length]
    omega
  generalize raised m ++ rr = p at *
  rw [hrr] at hp
  have hread := unpack_dense u h.name hname.1 ((prefix_append _ _).trans hp)
  have htype := isPrefix_drop_right hp
  have hclass := isPrefix_drop_right htype
  have httl := isPrefix_drop_right hclass
  have hcount := isPrefix_drop_right httl
  have hbytes := isPrefix_drop_right hcount
  generalize m.length + (encodeDomainName u (canonicalName u key.name)).length = o at *
  have hrecord : (uint16At p (o + 8)).toNat = data.length := uint16At_of_isPrefix hsize ((prefix_append _ _).trans hcount)
  have hbody : unpackTSIGRecord u p (o + 10) (o + 10 + data.length) (keyText u key.name) =
      .ok (signedRecord u m key t (hasher (digest u m key t))) := by
    rw [hdata] at hbytes ⊢
    exact h.unpacks hname hmac hbytes
  have hextract := extract_of (u := u) (r := signedRecord u m key t (hasher (digest u m key t))) hpacket hadditional
    hsections hread (by rw [hrecord]; exact hend.ge) (uint16At_eq ((prefix_append _ _).trans htype))
    (uint16At_eq ((prefix_append _ _).trans hclass)) (uint32At_zero ((prefix_append _ _).trans httl))
    (by rw [hrecord]; exact hbody)
  rwa [hrestored] at hextract

theorem start_eq {rr : Bytes} (hrr : rr ≠ []) {start : ℕ} {count : UInt16} (hstart : headerSize ≤ start)
    (hpayload : m = putUint16 ((raised m ++ rr).take start) 10 count) : start = m.length := by
  have hsize : headerSize = 12 := rfl
  have hheader := h.header
  have hpos := length_pos_of_ne_nil hrr
  have htake : ((raised m ++ rr).take start).length = min start (m.length + rr.length) := by
    rw [length_take, length_append, h.raised_length]
  have hlength := congrArg List.length hpayload
  rw [putUint16_length (by rw [htake]; omega), htake] at hlength
  omega

theorem keeps (hcodes : CodesFit hmac) (hr : RoundTrips u hmac m bufLen key t) :
    KeepsSections u hmac m key t ∧ LegibleName u key.name := by
  obtain ⟨hasher, signed, -, hsigned, hextract, -⟩ := hr
  obtain ⟨hasher', data, rr, -, -, -, -, hrr, hsig, hsign⟩ := h.signs hcodes
  obtain rfl : raised m ++ rr = signed := Option.some.inj (hsign.symm.trans hsigned)
  obtain ⟨-, start, keyName, offset, hskip, hread, htype, -, -, hrecord, hpayload⟩ := extract_ok hextract
  rw [(h.sectionsEnd_signed rr).1] at hskip
  have hne : rr ≠ [] := by
    rw [hrr]
    simp [bigEndian]
  have hstart := h.start_eq hne (sectionsEnd_length hskip) hpayload
  subst hstart
  refine ⟨fun rr' hsig' => Option.some.inj (hsig.symm.trans hsig') ▸ hskip, ?_⟩
  have hp : rr <+: (raised m ++ rr).drop m.length := ⟨[], by rw [append_nil, drop_left' h.raised_length]⟩
  generalize raised m ++ rr = p at *
  rw [hrr] at hp
  by_cases hdense : Dense (keyText u key.name)
  · have hkey := unpack_dense u h.name hdense ((prefix_append _ _).trans hp)
    rw [hread] at hkey
    have hname := unpackTSIGRecord_name hrecord
    rw [(Prod.mk.inj (Except.ok.inj hkey)).1] at hname
    exact ⟨hdense, (canonicalName_keyText u h.name.ascii hdense).mp hname.symm⟩
  · rw [← append_assoc] at hp
    obtain ⟨read, next, hkey, hother⟩ := unpack_sparse u h.name hdense ((prefix_append _ _).trans hp)
    rw [hread] at hkey
    rw [(Prod.mk.inj (Except.ok.inj hkey)).2] at htype
    exact absurd htype hother

end Signable

section Body

variable {m : Bytes} {i n j : ℕ}

def InBody (m : Bytes) (i : ℕ) : Prop := ∃ ls j next, NameAt m headerSize i ls j next

def QuestionsInBody (m : Bytes) : ℕ → ℕ → Prop
  | 0, _ => True
  | n + 1, i => InBody m i ∧ ∀ name next, unpackDomainName m i = .ok (name, next) → QuestionsInBody m n (next + 4)

def RecordsInBody (m : Bytes) : ℕ → ℕ → Prop
  | 0, _ => True
  | n + 1, i => InBody m i ∧ ∀ name next, unpackDomainName m i = .ok (name, next) →
      RecordsInBody m n (next + 10 + (uint16At m (next + 8)).toNat)

def NamesInBody (m : Bytes) : Prop :=
  QuestionsInBody m (decodeHeader m).qdCount.toNat headerSize ∧
    ∀ i, skipQuestions m (decodeHeader m).qdCount.toNat headerSize = .ok i →
      RecordsInBody m ((decodeHeader m).anCount.toNat + (decodeHeader m).nsCount.toNat + (decodeHeader m).arCount.toNat) i

theorem InBody.unpack (h : InBody m i) (hm : headerSize ≤ m.length) (rr : Bytes) {next : ℕ}
    (hname : unpackDomainName m i = .ok (name, next)) : unpackDomainName (raised m ++ rr) i = .ok (name, next) := by
  obtain ⟨ls, jumps, next', hat⟩ := h
  obtain ⟨ls', jumps', hat', hjumps, hshort, rfl⟩ := unpackDomainName_nameAt hname
  obtain ⟨rfl, rfl, rfl⟩ := hat.unique hat'
  have hdrop : (m ++ rr).drop headerSize = (raised m ++ rr).drop headerSize := by
    have hlength : (raised m).length = m.length := putUint16_length (Nat.le_trans (by decide) hm) _
    rw [drop_append_of_le_length hm, drop_append_of_le_length (hlength ▸ hm), raised,
      putUint16_drop (by decide) hm]
  exact unpackDomainName_of_nameAt ((hat.append rr).congr hdrop) hjumps hshort

theorem skipQuestions_raised (hm : headerSize ≤ m.length) (rr : Bytes) (hnames : QuestionsInBody m n i)
    (h : skipQuestions m n i = .ok j) : skipQuestions (raised m ++ rr) n i = .ok j := by
  have hlength : (raised m).length = m.length := putUint16_length (Nat.le_trans (by decide) hm) _
  induction n generalizing i with
  | zero => exact h
  | succ n ih =>
    rw [skipQuestions] at h ⊢
    obtain ⟨⟨name, next⟩, hname, h⟩ := Fallible.bind_ok h
    obtain ⟨hend, h⟩ := Fallible.of_guard h
    have hread := liftWire_ok hname
    rw [hnames.1.unpack hm rr hread]
    dsimp only [liftWire]
    rw [Fallible.ok_bind]
    rw [if_neg (by rw [length_append]; omega)]
    exact ih (hnames.2 name next hread) h

theorem skipRecords_raised (hm : headerSize ≤ m.length) (rr : Bytes) (hi : headerSize ≤ i) (hnames : RecordsInBody m n i)
    (h : skipRecords m n i = .ok j) : skipRecords (raised m ++ rr) n i = .ok j := by
  have hlength : (raised m).length = m.length := putUint16_length (Nat.le_trans (by decide) hm) _
  induction n generalizing i with
  | zero => exact h
  | succ n ih =>
    rw [skipRecords] at h ⊢
    obtain ⟨⟨name, next⟩, hname, h⟩ := Fallible.bind_ok h
    obtain ⟨hfixed, h⟩ := Fallible.of_guard h
    obtain ⟨hend, h⟩ := Fallible.of_guard h
    have hread := liftWire_ok hname
    have hnext := unpackDomainName_next hread
    have hsize : headerSize = 12 := rfl
    rw [hnames.1.unpack hm rr hread]
    dsimp only [liftWire]
    rw [Fallible.ok_bind]
    have hcount : uint16At (raised m ++ rr) (next + 8) = uint16At m (next + 8) := by
      rw [uint16At_append (by omega), raised, uint16At_putUint16_after (by omega) (by omega)]
    rw [if_neg (by rw [length_append]; omega), hcount, if_neg (by rw [length_append]; omega)]
    exact ih (by omega) (hnames.2 name next hread) h

theorem keepsSections_of_body {t : ℕ} (hparses : sectionsEnd m m = .ok m.length)
    (hnames : NamesInBody m) : KeepsSections u hmac m key t := by
  intro rr _
  have hm := sectionsEnd_length hparses
  rw [sectionsEnd, skipMessageSections] at hparses ⊢
  obtain ⟨i, hquestions, hrecords⟩ := Fallible.bind_ok hparses
  rw [skipQuestions_raised hm rr hnames.1 hquestions, Fallible.ok_bind]
  exact skipRecords_raised hm rr (Nat.le_of_add_right_le (skipQuestions_advance hquestions).1) (hnames.2 i hquestions) hrecords

end Body

/-- Signing, extraction and verification are inverse exactly if the reader finds the end of the message again and reads
the name of the key as it was; the first always holds for messages whose names are read behind the header. -/
theorem roundTrips_iff {u : Unicode} {hmac : HMAC} {m : Bytes} {bufLen : ℕ} {key : Key} {t : ℕ} (hcodes : CodesFit hmac)
    (h : Signable u hmac m bufLen key t) :
    (RoundTrips u hmac m bufLen key t ↔ KeepsSections u hmac m key t ∧ LegibleName u key.name) ∧
      (NamesInBody m → KeepsSections u hmac m key t) := by
  refine ⟨⟨h.keeps hcodes, ?_⟩, keepsSections_of_body h.parses⟩
  rintro ⟨hkeeps, hname⟩
  exact h.roundTrips hcodes hkeeps hname

section Messages

def queryOf (name : Bytes) : Bytes := [0x12, 0x34, 1, 0, 0, 1, 0, 0, 0, 0, 0, 0] ++ name ++ [0, 1, 0, 1]

def shortCodes : HMAC := fun _ _ message => [0xC0, UInt8.ofNat message.length]

theorem shortCodes_fit : CodesFit shortCodes := fun _ _ _ => Nat.le_of_ble_eq_true rfl

def keyNamed (name : Bytes) : Key := ⟨name, ascii "hmac-sha256", [1]⟩

variable {m : Bytes}

theorem signable_query (hparses : sectionsEnd m m = .ok m.length) (hadditional : (decodeHeader m).arCount.toNat < 65535)
    (hname : KeyName name)
    (hroom : ((signature .basic shortCodes m [] (keyNamed name) 0 (1000 : ℕ)).all fun rr => m.length + rr.length ≤ 512) = true) :
    Signable .basic shortCodes m 512 (keyNamed name) 1000 where
  parses := hparses
  additional := hadditional
  name := hname
  algorithm := (by decide +kernel : canonicalAlgorithm .basic (ascii "hmac-sha256") ∈ algorithms)
  time := by decide
  room rr hrr := by
    rw [hrr] at hroom
    exact of_decide_eq_true hroom

theorem keyName_tsigKey : KeyName (ascii "tsig-key") := ⟨by decide, by decide, .inr (by decide)⟩

theorem roundTrips_query : RoundTrips .basic shortCodes (queryOf [1, 0x61, 0]) 512 (keyNamed (ascii "tsig-key")) 1000 := by
  have hsignable : Signable .basic shortCodes (queryOf [1, 0x61, 0]) 512 (keyNamed (ascii "tsig-key")) 1000 :=
    signable_query (by rfl) (by decide) keyName_tsigKey (by decide +kernel)
  have hbody : InBody (queryOf [1, 0x61, 0]) 12 := by
    have hlabel : IsLabel [0x61] := ⟨cons_ne_nil _ _, by decide⟩
    exact ⟨_, _, _, .label (by decide) hlabel ⟨[0, 0, 1, 0, 1], rfl⟩ (.root (by decide) ⟨[0, 1, 0, 1], rfl⟩)⟩
  have hnames : NamesInBody (queryOf [1, 0x61, 0]) := ⟨⟨hbody, fun _ _ _ => trivial⟩, fun _ _ => trivial⟩
  obtain ⟨hiff, hkeeps⟩ := roundTrips_iff shortCodes_fit hsignable
  exact hiff.mpr ⟨hkeeps hnames, .inr (by decide +kernel), by decide +kernel⟩

def found (u : Unicode) (hmac : HMAC) (m : Bytes) (bufLen : ℕ) (key : Key) (t : ℕ) : Option Record :=
  ((sign u hmac m bufLen [] key 0 t).bind fun signed => (extract u signed).toOption).bind Prod.fst

theorem RoundTrips.found {bufLen : ℕ} {t : ℕ}
    (h : RoundTrips u hmac m bufLen key t) : (found u hmac m bufLen key t).map Record.name = some (canonicalName u key.name) := by
  obtain ⟨hasher, signed, -, hsign, hextract, -⟩ := h
  rw [Tsig.found, hsign, Option.bind_some, hextract]
  rfl

/-- The name of the key loses the space in front of its dot; a name that is read out of the count of records changes with
it. -/
theorem roundTrips_lost :
    (Signable .basic shortCodes (queryOf [1, 0x61, 0]) 512 (keyNamed (ascii "a .")) 1000 ∧
      ¬RoundTrips .basic shortCodes (queryOf [1, 0x61, 0]) 512 (keyNamed (ascii "a .")) 1000) ∧
    Signable .basic shortCodes (queryOf [0xC0, 0x0B]) 512 (keyNamed (ascii "tsig-key")) 1000 ∧
      ¬RoundTrips .basic shortCodes (queryOf [0xC0, 0x0B]) 512 (keyNamed (ascii "tsig-key")) 1000 := by
  have hspace : KeyName (ascii "a .") := ⟨by decide, by decide, .inr (by decide)⟩
  refine ⟨⟨signable_query (by rfl) (by decide) hspace (by decide +kernel), fun h => ?_⟩,
    signable_query (by rfl) (by decide) keyName_tsigKey (by decide +kernel), fun h => ?_⟩
  · exact absurd h.found (by decide +kernel)
  · exact absurd h.found (by decide +kernel)

end Messages

end Kdns.Tsig
