import Kdns.Lib.Fallible
import Kdns.Wire.Encoders

namespace Kdns.Wire

open ByteStream Dns GoStrings List

inductive UnpackError where
  | invalidRData (detail : String)
  | failedToDecode (what : String) (e : WireError)
  deriving DecidableEq, Repr

def typeString (type : RRType) : Text :=
  match mnemonics.find? fun e => e.2 = type with
  | some e => ascii e.1
  | none => ascii "TYPE" ++ formatUint type.toNat

section Mnemonics

theorem toUpper_digits (c : Capitals) {front digits : Text} (hascii : isASCII front = true) (hupper : front.map upperASCII = front)
    (hdigits : digits.all isDigit = true) : toUpper c (front ++ digits) = front ++ digits := by
  have hdigit : ∀ b : UInt8, isDigit b = true → b < runeSelf ∧ upperASCII b = b := by
    intro b hb
    simp only [isDigit, Bool.and_eq_true, decide_eq_true_eq, UInt8.le_iff_toNat_le] at hb
    have hhigh : (0x39 : UInt8).toNat = 57 := rfl
    have hletter : (0x61 : UInt8).toNat = 97 := rfl
    have hself : runeSelf.toNat = 128 := rfl
    refine ⟨UInt8.lt_iff_toNat_lt.mpr (by omega), if_neg ?_⟩
    rintro ⟨hle, -⟩
    have := UInt8.le_iff_toNat_le.mp hle
    omega
  have hall : ∀ b ∈ digits, isDigit b = true := all_eq_true.mp hdigits
  have hascii' : isASCII (front ++ digits) = true := by
    rw [isASCII, all_append, Bool.and_eq_true]
    exact ⟨hascii, all_eq_true.mpr fun b hb => decide_eq_true (hdigit b (hall b hb)).1⟩
  rw [toUpper, if_pos hascii', map_append, hupper]
  congr 1
  exact map_congr_left (fun b hb => (hdigit b (hall b hb)).2) |>.trans (map_id digits)

theorem parseType_mnemonic (c : Capitals) {e : String × RRType} (he : e ∈ mnemonics) : parseType c (ascii e.1) = some e.2 := by
  have htable : ∀ e ∈ mnemonics, isASCII (ascii e.1) = true ∧ (ascii e.1).map upperASCII = ascii e.1 ∧
      (mnemonics.find? fun e' => ascii e'.1 = ascii e.1) = some e := by
    decide +kernel
  obtain ⟨hascii, hupper, hfind⟩ := htable e he
  rw [parseType, toUpper, if_pos hascii, hupper]
  rw [hfind]

theorem parseType_typeString (c : Capitals) (type : RRType) : parseType c (typeString type) = some type := by
  unfold typeString
  cases hfind : mnemonics.find? fun e => e.2 = type with
  | some e =>
    have htype : e.2 = type := by simpa using List.find?_some hfind
    rw [parseType_mnemonic c (mem_of_find?_eq_some hfind), htype]
  | none =>
    have hupper : toUpper c (ascii "TYPE" ++ formatUint type.toNat) = ascii "TYPE" ++ formatUint type.toNat :=
      toUpper_digits c (by decide) (by decide) (formatUint_digits type.toNat)
    have hgeneric : (ascii "TYPE").isPrefixOf (ascii "TYPE" ++ formatUint type.toNat) = true :=
      isPrefixOf_iff_prefix.mpr (prefix_append _ _)
    have hdrop : (ascii "TYPE" ++ formatUint type.toNat).drop 4 = formatUint type.toNat := rfl
    have hread : parseUint (formatUint type.toNat) 16 = some type.toNat := parseUint_formatUint type.toNat_lt
    rw [parseType, hupper]
    rw [if_pos hgeneric, hdrop, parseNumber, hread, Option.map_some, UInt16.ofNat_toNat]
    rfl

end Mnemonics

def spaced (parts : List Text) : Text := ([0x20] : Text).intercalate parts

def readWireDomain (what : String) (wire : Bytes) (offset : ℕ) : Except UnpackError (Text × ℕ) :=
  match unpackDomainName wire offset with
  | .error e => .error (.failedToDecode what e)
  | .ok (name, nextOffset) => .ok (name ++ [dotByte], nextOffset)

def uintAt (width : ℕ) (wire : Bytes) (offset : ℕ) : Text := formatUint (ofBigEndian ((wire.drop offset).take width))

def unpackChunks : ℕ → Text → Bytes → Except UnpackError Text
  | 0, builder, _ => .ok builder
  | _ + 1, builder, [] => .ok builder
  | fuel + 1, builder, chunkLen :: rest =>
    if rest.length < chunkLen.toNat then .error (.invalidRData "TXT chunk exceeds wire bounds")
    else
      unpackChunks fuel (builder ++ (if builder = [] then [] else [0x20]) ++ rest.take chunkLen.toNat) (rest.drop chunkLen.toNat)

def unpackMX (wire : Bytes) : Except UnpackError Text :=
  if wire.length < 3 then .error (.invalidRData "MX wire payload too short")
  else do
    let (exchange, _) ← readWireDomain "MX exchange" wire 2
    return spaced [uintAt 2 wire 0, exchange]

def unpackSRV (wire : Bytes) : Except UnpackError Text :=
  if wire.length < 7 then .error (.invalidRData "SRV wire payload too short")
  else do
    let (target, _) ← readWireDomain "SRV target" wire 6
    return spaced [uintAt 2 wire 0, uintAt 2 wire 2, uintAt 2 wire 4, target]

def unpackSOA (wire : Bytes) : Except UnpackError Text := do
  let (primaryMaster, nextOffset) ← readWireDomain "SOA primary master name" wire 0
  let (responsibleMailbox, nextOffset) ← readWireDomain "SOA responsible mailbox" wire nextOffset
  if nextOffset + 20 > wire.length then throw (.invalidRData "SOA numerical timers too short")
  return spaced [primaryMaster, responsibleMailbox, uintAt 4 wire nextOffset, uintAt 4 wire (nextOffset + 4),
    uintAt 4 wire (nextOffset + 8), uintAt 4 wire (nextOffset + 12), uintAt 4 wire (nextOffset + 16)]

variable (lib : Library)

def unpackCAA (wire : Bytes) : Except UnpackError Text :=
  match wire with
  | flags :: tagLen :: rest =>
    if rest = [] then .error (.invalidRData "CAA wire payload too short")
    else if rest.length < tagLen.toNat then .error (.invalidRData "CAA tag exceeds wire bounds")
    else .ok (spaced [formatUint flags.toNat, rest.take tagLen.toNat, quoteString lib.printing (rest.drop tagLen.toNat)])
  | _ => .error (.invalidRData "CAA wire payload too short")

def upperHex (bytes : Bytes) : Text := toUpper lib.capitals (encodeHex bytes)

def unpackDS (wire : Bytes) : Except UnpackError Text :=
  if wire.length < 4 then .error (.invalidRData "DS wire payload too short")
  else .ok (spaced [uintAt 2 wire 0, uintAt 1 wire 2, uintAt 1 wire 3, upperHex lib (wire.drop 4)])

def unpackDNSKEY (wire : Bytes) : Except UnpackError Text :=
  if wire.length < 4 then .error (.invalidRData "DNSKEY wire payload too short")
  else .ok (spaced [uintAt 2 wire 0, uintAt 1 wire 2, uintAt 1 wire 3, Base64.encodeToString (wire.drop 4)])

def unpackZONEMD (wire : Bytes) : Except UnpackError Text :=
  if wire.length < 6 then .error (.invalidRData "ZONEMD wire payload too short")
  else .ok (spaced [uintAt 4 wire 0, uintAt 1 wire 4, uintAt 1 wire 5, upperHex lib (wire.drop 6)])

def unpackRRSIG (wire : Bytes) : Except UnpackError Text :=
  if wire.length < 18 then .error (.invalidRData "RRSIG wire payload too short")
  else do
    let (signerName, nextOffset) ← readWireDomain "RRSIG signer" wire 18
    return spaced [typeString (uint16At wire 0), uintAt 1 wire 2, uintAt 1 wire 3, uintAt 4 wire 4, uintAt 4 wire 8,
      uintAt 4 wire 12, uintAt 2 wire 16, signerName, Base64.encodeToString (wire.drop nextOffset)]

def unpackAddress (what : String) (length : ℕ) (wire : Bytes) : Except UnpackError Text :=
  if wire.length ≠ length then
    .error (.invalidRData (what ++ " record requires " ++ toString length ++ " bytes, got " ++ toString wire.length))
  else .ok (lib.addresses.toText wire)

def unpackRData (type : RRType) (wire : Bytes) : Except UnpackError Text :=
  if type = typeA then unpackAddress lib "A" 4 wire
  else if type = typeAAAA then unpackAddress lib "AAAA" 16 wire
  else if type = typeCNAME ∨ type = typeNS ∨ type = typePTR then (readWireDomain "domain name" wire 0).map Prod.fst
  else if type = typeTXT then unpackChunks wire.length [] wire
  else if type = typeMX then unpackMX wire
  else if type = typeSRV then unpackSRV wire
  else if type = typeSOA then unpackSOA wire
  else if type = typeCAA then unpackCAA lib wire
  else if type = typeDS then unpackDS lib wire
  else if type = typeDNSKEY then unpackDNSKEY wire
  else if type = typeRRSIG then unpackRRSIG wire
  else if type = typeZONEMD then unpackZONEMD lib wire
  else .ok (encodeHex wire)

section Names

variable {what : String} {wire name : Bytes} {i next : ℕ}

theorem readWireDomain_ok (h : unpackDomainName wire i = .ok (name, next)) :
    readWireDomain what wire i = .ok (name ++ [dotByte], next) := by
  rw [readWireDomain, h]

theorem readWireDomain_inv {r : Text × ℕ} (h : readWireDomain what wire i = .ok r) :
    ∃ name next, unpackDomainName wire i = .ok (name, next) ∧ r = (name ++ [dotByte], next) := by
  unfold readWireDomain at h
  cases hread : unpackDomainName wire i with
  | error e =>
    rw [hread] at h
    cases h
  | ok r =>
    rw [hread] at h
    cases h
    exact ⟨r.1, r.2, rfl, rfl⟩

theorem unpackRData_soa {lib : Library} {text : Text} : unpackRData lib typeSOA wire = .ok text ↔
      ∃ a m b n, unpackDomainName wire 0 = .ok (a, m) ∧ unpackDomainName wire m = .ok (b, n) ∧ n + 20 ≤ wire.length ∧
        text = spaced [a ++ [dotByte], b ++ [dotByte], uintAt 4 wire n, uintAt 4 wire (n + 4), uintAt 4 wire (n + 8),
          uintAt 4 wire (n + 12), uintAt 4 wire (n + 16)] := by
  have hcase : unpackRData lib typeSOA wire = unpackSOA wire := rfl
  rw [hcase, unpackSOA]
  constructor
  · intro h
    obtain ⟨first, hfirst, h⟩ := Fallible.bind_ok h
    obtain ⟨a, m, ha, rfl⟩ := readWireDomain_inv hfirst
    obtain ⟨second, hsecond, h⟩ := Fallible.bind_ok h
    obtain ⟨b, n, hb, rfl⟩ := readWireDomain_inv hsecond
    obtain ⟨hroom, h⟩ := Fallible.of_guard h
    cases h
    exact ⟨a, m, b, n, ha, hb, Nat.le_of_not_lt hroom, rfl⟩
  · rintro ⟨a, m, b, n, ha, hb, hroom, rfl⟩
    rw [readWireDomain_ok ha, Fallible.ok_bind]
    dsimp only
    rw [readWireDomain_ok hb, Fallible.ok_bind]
    rw [if_neg (Nat.not_lt.mpr hroom)]
    rfl

end Names

end Kdns.Wire
