import Kdns.Lib.GoFormat
import Kdns.Wire.RData

namespace Kdns.Wire

open ByteStream Dns GoStrings

/-- `net/netip`, for addresses without a zone: the bytes of a text that is parsed as one of version 4 or 6, and back. -/
structure Addresses where
  parse4 : Text → Option Bytes
  parse6 : Text → Option Bytes
  toText : Bytes → Text
  length4 : ∀ {s b}, parse4 s = some b → b.length = 4
  length6 : ∀ {s b}, parse6 s = some b → b.length = 16
  back4 : ∀ b : Bytes, b.length = 4 → parse4 (toText b) = some b
  back6 : ∀ b : Bytes, b.length = 16 → parse6 (toText b) = some b
  short : ∀ b, (toText b).length ≤ 45
  chars : ∀ b : Bytes, b.length = 4 ∨ b.length = 16 →
    toText b ≠ [] ∧ ∀ c ∈ toText b, (hexValue c).isSome = true ∨ c = 0x2E ∨ c = 0x3A

def Addresses.basic : Addresses where
  parse4 s := (decodeHex s).filter fun b => b.length = 4
  parse6 s := (decodeHex s).filter fun b => b.length = 16
  toText b := if b.length ≤ 16 then encodeHex b else []
  length4 h := of_decide_eq_true (Option.filter_eq_some_iff.mp h).2
  length6 h := of_decide_eq_true (Option.filter_eq_some_iff.mp h).2
  back4 b h := by simp [h, decodeHex_encodeHex]
  back6 b h := by simp [h, decodeHex_encodeHex]
  short b := by
    split_ifs with h
    · rw [encodeHex_length]
      omega
    · exact Nat.zero_le _
  chars b h := by
    rw [if_pos (by omega)]
    refine ⟨?_, fun c hc => .inl (hexValue_encodeHex hc)⟩
    apply List.ne_nil_of_length_pos
    rw [encodeHex_length]
    omega

/-- What the writers and readers of RDATA use of the standard library. -/
structure Library where
  capitals : Capitals
  printing : Printing
  addresses : Addresses
  base32 : Text → Option Bytes

def Library.basic : Library := ⟨.basic, .basic, .basic, fun _ => none⟩

variable (lib : Library)

def invalidIPAddress : RDataError := .message "dns: invalid IP address format"

def writeRDataA (w : PacketWriter) (rdata : Text) : Except RDataError PacketWriter :=
  match lib.addresses.parse4 rdata with
  | none => .error invalidIPAddress
  | some ip4 => w.fill ip4

def writeRDataAAAA (w : PacketWriter) (rdata : Text) : Except RDataError PacketWriter :=
  match lib.addresses.parse6 rdata with
  | none => .error invalidIPAddress
  | some ip6 => w.fill ip6

def chunkBytes (chunk : Bytes) : Bytes := UInt8.ofNat chunk.length :: chunk

def writeChunks : ℕ → PacketWriter → Text → Except RDataError PacketWriter
  | 0, w, _ => .ok w
  | fuel + 1, w, rdata =>
    if rdata = [] then .ok w
    else do
      let w ← w.fill (chunkBytes (rdata.take 255))
      writeChunks fuel w (rdata.drop 255)

def writeRDataTXT (w : PacketWriter) (rdata : Text) : Except RDataError PacketWriter :=
  if rdata = [] then w.fill [0] else writeChunks rdata.length w rdata

def writeNumbersAndPayload (w : PacketWriter) (numeric payload : String) (parsed : List (ℕ × Option ℕ))
    (decoded : Option Bytes) : Except RDataError PacketWriter :=
  match numbers parsed with
  | none => .error (.invalidRData numeric)
  | some front =>
    match decoded with
    | none => .error (.invalidRData payload)
    | some bytes => w.fill (front ++ bytes)

def writeRDataDNSKEY (w : PacketWriter) (rdata : Text) : Except RDataError PacketWriter :=
  match fields rdata with
  | flags :: protocol :: algorithm :: part :: parts =>
    writeNumbersAndPayload w "invalid DNSKEY numeric field" "invalid DNSKEY base64 public key"
      (decimals 2 [flags] ++ decimals 1 [protocol, algorithm]) (Base64.decodeString (part :: parts).flatten)
  | _ => .error (.invalidRData "invalid DNSKEY rdata")

def writeRDataDS (w : PacketWriter) (rdata : Text) : Except RDataError PacketWriter :=
  match fields rdata with
  | keyTag :: algorithm :: digestType :: part :: parts =>
    writeNumbersAndPayload w "invalid DS numeric field" "invalid DS hex digest"
      (decimals 2 [keyTag] ++ decimals 1 [algorithm, digestType]) (decodeHex (part :: parts).flatten)
  | _ => .error (.invalidRData "invalid DS rdata")

def writeRDataZONEMD (w : PacketWriter) (rdata : Text) : Except RDataError PacketWriter :=
  match fields rdata with
  | serial :: scheme :: hashAlgorithm :: part :: parts =>
    writeNumbersAndPayload w "invalid ZONEMD numeric field" "invalid ZONEMD hex digest"
      (decimals 4 [serial] ++ decimals 1 [scheme, hashAlgorithm]) (decodeHex (part :: parts).flatten)
  | _ => .error (.invalidRData "invalid ZONEMD rdata fields count")

def writeRDataNSEC3 (w : PacketWriter) (rdata : Text) : Except RDataError PacketWriter :=
  match fields rdata with
  | hashAlgorithm :: flags :: iterations :: salt :: nextOwner :: type :: types =>
    match numbers (decimals 1 [hashAlgorithm, flags] ++ decimals 2 [iterations]) with
    | none => .error (.invalidRData "invalid NSEC3 numeric field")
    | some front =>
      match if salt = ascii "-" then some [] else decodeHex salt with
      | none => .error (.invalidRData "invalid NSEC3 salt hex")
      | some saltBytes =>
        if saltBytes.length > 255 then .error (.invalidRData "NSEC3 salt length exceeds uint8")
        else
          match lib.base32 (toUpper lib.capitals nextOwner) with
          | none => .error (.invalidRData "invalid NSEC3 next hashed owner base32hex")
          | some nextOwnerBytes =>
            if nextOwnerBytes.length > 255 then .error (.invalidRData "NSEC3 hash length exceeds uint8")
            else do
              let w ← w.fill (front ++ chunkBytes saltBytes ++ chunkBytes nextOwnerBytes)
              let bitmap ← encodeTypeBitMaps lib.capitals w.limit w.offset (type :: types)
              return w.put bitmap
  | _ => .error (.invalidRData "invalid NSEC3 rdata fields count")

def cutBlank : Text → Text × Option Text
  | [] => ([], none)
  | b :: rest => if b = 0x20 then ([], some rest) else ((b :: (cutBlank rest).1), (cutBlank rest).2)

def trimQuotes (s : Text) : Text := ((s.dropWhile (· = quoteByte)).reverse.dropWhile (· = quoteByte)).reverse

def writeRDataCAA (w : PacketWriter) (rdata : Text) : Except RDataError PacketWriter :=
  match cutBlank rdata with
  | (_, none) => .error (.message "dns: invalid CAA rdata")
  | (flags, some rest) =>
    match cutBlank rest with
    | (_, none) => .error (.message "dns: invalid CAA rdata")
    | (tag, some value) =>
      match parseUint flags 8 with
      | none => .error (.message "dns: invalid CAA flags")
      | some flags =>
        if tag.length > 255 then .error (.message "dns: CAA tag too long")
        else w.fill (UInt8.ofNat flags :: chunkBytes tag ++ trimQuotes value)

def writePlain (type : RRType) (w : PacketWriter) (rdata : Text) : Except RDataError PacketWriter :=
  if type = typeA then writeRDataA lib w rdata
  else if type = typeAAAA then writeRDataAAAA lib w rdata
  else if type = typeTXT then writeRDataTXT w rdata
  else if type = typeDNSKEY then writeRDataDNSKEY w rdata
  else if type = typeDS then writeRDataDS w rdata
  else if type = typeNSEC3 then writeRDataNSEC3 lib w rdata
  else if type = typeZONEMD then writeRDataZONEMD w rdata
  else if type = typeCAA then writeRDataCAA w rdata
  else w.fill rdata

def encoders : Encoders := ⟨lib.capitals, writePlain lib⟩

end Kdns.Wire
