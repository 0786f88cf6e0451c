import Kdns.Lib.Base64
import Kdns.Lib.GoParse
import Kdns.Wire.Pack
import Mathlib.Data.List.Sort

namespace Kdns.Wire

open ByteStream Dns

abbrev Text := GoStrings.Text

inductive RDataError where
  | wire (e : WireError)
  | invalidRData (detail : String)
  | invalidNSECType (name : Text)
  | message (text : String)
  deriving DecidableEq, Repr

def mnemonics : List (String × RRType) :=
  [("A", typeA), ("AAAA", typeAAAA), ("CNAME", typeCNAME), ("TXT", typeTXT), ("MX", typeMX), ("NS", typeNS),
    ("SOA", typeSOA), ("PTR", typePTR), ("SRV", typeSRV), ("CAA", typeCAA), ("DNSKEY", typeDNSKEY), ("DS", typeDS),
    ("RRSIG", typeRRSIG), ("NSEC", typeNSEC), ("NSEC3", typeNSEC3), ("ZONEMD", typeZONEMD), ("TSIG", typeTSIG),
    ("OPT", typeOPT), ("ANY", typeANY)]

def parseNumber (s : Text) : Option RRType := (GoStrings.parseUint s 16).map UInt16.ofNat

def parseType (c : GoStrings.Capitals) (s : Text) : Option RRType :=
  let upper := GoStrings.toUpper c s
  match mnemonics.find? fun e => GoStrings.ascii e.1 = upper with
  | some e => some e.2
  | none =>
    let generic := if (GoStrings.ascii "TYPE").isPrefixOf upper then parseNumber (upper.drop 4) else none
    generic.orElse fun _ => parseNumber s

structure Window where
  block : ℕ
  octets : Bytes
  maxBit : ℕ

def Window.mark (x : Window) (bit : ℕ) : Window where
  block := x.block
  octets := x.octets.modify (bit / 8) fun b => b ||| UInt8.ofNat (2 ^ (7 - bit % 8))
  maxBit := max x.maxBit bit

def Window.bytes (x : Window) : Bytes :=
  UInt8.ofNat x.block :: UInt8.ofNat (x.maxBit / 8 + 1) :: x.octets.take (x.maxBit / 8 + 1)

def Window.open (type : ℕ) : Window := ⟨type / 256, List.replicate 32 0, type % 256⟩

def encodeWindows (limit offset : ℕ) : List ℕ → Bytes → Option Window → Except RDataError Bytes
  | [], done, current => .ok (done ++ (current.map Window.bytes).getD [])
  | type :: types, done, current =>
    match current.filter fun x => x.block = type / 256 with
    | some x => encodeWindows limit offset types done (some (x.mark (type % 256)))
    | none =>
      let done := done ++ (current.map Window.bytes).getD []
      if offset + done.length + 34 > limit then .error (.wire .bufferTooSmall)
      else encodeWindows limit offset types done (some ((Window.open type).mark (type % 256)))

def parseTypes (c : GoStrings.Capitals) : List Text → Except RDataError (List ℕ)
  | [] => .ok []
  | name :: names =>
    match parseType c name with
    | none => .error (.invalidNSECType name)
    | some type => do
      let types ← parseTypes c names
      return type.toNat :: types

def encodeTypeBitMaps (c : GoStrings.Capitals) (limit offset : ℕ) (names : List Text) : Except RDataError Bytes :=
  if names = [] then .error (.invalidRData "missing NSEC types in bitmap")
  else do
    let types ← parseTypes c names
    encodeWindows limit offset (types.insertionSort (· ≤ ·)) [] none

def parseRRSIGTimestamp (s : Text) : Option ℕ :=
  match if s.length = 14 then GoStrings.parseTimestamp s else none with
  | some seconds => if seconds < 0 ∨ 2 ^ 32 ≤ seconds then none else some seconds.toNat
  | none => GoStrings.parseUint s 32

def PacketWriter.fill (w : PacketWriter) (bytes : Bytes) : Except RDataError PacketWriter :=
  if w.offset + bytes.length > w.limit then .error (.wire .bufferTooSmall) else .ok (w.put bytes)

def written : PacketWriter × Option WireError → Except RDataError PacketWriter
  | (_, some e) => .error (.wire e)
  | (w, none) => .ok w

def PacketWriter.domain (w : PacketWriter) (name : Text) : Except RDataError PacketWriter := written (w.writeDomain name)

def PacketWriter.writeUncompressedDomain (w : PacketWriter) (name : Text) : Except RDataError PacketWriter :=
  written (w.writeDomainCompressed name false)

def numbers (parsed : List (ℕ × Option ℕ)) : Option Bytes :=
  (parsed.mapM fun (e : ℕ × Option ℕ) => e.2.map (bigEndian e.1)).map List.flatten

def decimals (width : ℕ) (texts : List Text) : List (ℕ × Option ℕ) :=
  texts.map fun s => (width, GoStrings.parseUint s (8 * width))

def writeRDataSOA (w : PacketWriter) (rdata : Text) : Except RDataError PacketWriter :=
  match GoStrings.fields rdata with
  | [primaryMaster, responsibleMailbox, serial, refresh, retry, expire, minimumTTL] =>
    match numbers (decimals 4 [serial, refresh, retry, expire, minimumTTL]) with
    | none => .error (.invalidRData "invalid SOA numeric timers")
    | some timers => do
      let w ← w.domain primaryMaster
      let w ← w.domain responsibleMailbox
      w.fill timers
  | _ => .error (.invalidRData "invalid SOA rdata fields count")

def writeRDataMX (w : PacketWriter) (rdata : Text) : Except RDataError PacketWriter :=
  match GoStrings.fields rdata with
  | preference :: exchange :: _ =>
    match numbers (decimals 2 [preference]) with
    | none => .error (.message "dns: invalid MX preference")
    | some bytes => do
      let w ← w.fill bytes
      w.domain exchange
  | _ => .error (.message "dns: invalid MX rdata")

def writeRDataSRV (w : PacketWriter) (rdata : Text) : Except RDataError PacketWriter :=
  match GoStrings.fields rdata with
  | priority :: weight :: port :: target :: _ =>
    match numbers (decimals 2 [priority, weight, port]) with
    | none => .error (.message "dns: invalid SRV numeric field")
    | some bytes => do
      let w ← w.fill bytes
      w.domain target
  | _ => .error (.message "dns: invalid SRV rdata")

def writeRDataRRSIG (c : GoStrings.Capitals) (w : PacketWriter) (rdata : Text) : Except RDataError PacketWriter :=
  match GoStrings.fields rdata with
  | typeCovered :: algorithm :: labels :: originalTTL :: expiration :: inception :: keyTag :: signerName :: part :: parts =>
    let front := (2, (parseType c typeCovered).map UInt16.toNat) :: decimals 1 [algorithm, labels] ++ decimals 4 [originalTTL] ++
      [(4, parseRRSIGTimestamp expiration), (4, parseRRSIGTimestamp inception)] ++ decimals 2 [keyTag]
    match numbers front with
    | none => .error (.invalidRData "invalid RRSIG numeric field")
    | some bytes =>
      match Base64.decodeString (part :: parts).flatten with
      | none => .error (.invalidRData "invalid RRSIG base64 signature")
      | some signature => do
        let w ← w.fill bytes
        let w ← w.writeUncompressedDomain signerName
        w.fill signature
  | _ => .error (.invalidRData "invalid RRSIG rdata fields count")

def writeRDataNSEC (c : GoStrings.Capitals) (w : PacketWriter) (rdata : Text) : Except RDataError PacketWriter :=
  match GoStrings.fields rdata with
  | nextOwnerName :: type :: types => do
    let w ← w.writeUncompressedDomain nextOwnerName
    let bitmap ← encodeTypeBitMaps c w.limit w.offset (type :: types)
    return w.put bitmap
  | _ => .error (.invalidRData "invalid NSEC rdata fields count")

structure Encoders where
  capitals : GoStrings.Capitals
  plain : RRType → PacketWriter → Text → Except RDataError PacketWriter

def writeRData (enc : Encoders) (w : PacketWriter) (type : RRType) (rdata : Text) : Except RDataError PacketWriter :=
  if type = typeCNAME ∨ type = typeNS ∨ type = typePTR then w.domain rdata
  else if type = typeSOA then writeRDataSOA w rdata
  else if type = typeMX then writeRDataMX w rdata
  else if type = typeSRV then writeRDataSRV w rdata
  else if type = typeRRSIG then writeRDataRRSIG enc.capitals w rdata
  else if type = typeNSEC then writeRDataNSEC enc.capitals w rdata
  else enc.plain type w rdata

def rdataBufferSize : ℕ := 4096

def packRData (enc : Encoders) (type : RRType) (text : Text) : Except RDataError Bytes := do
  let w ← writeRData enc ⟨rdataBufferSize, [], []⟩ type text
  return w.out

end Kdns.Wire
