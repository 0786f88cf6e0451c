import Mathlib.Data.List.Basic

/-! Strings of bytes with the operations of Go's package `strings`. Only the table of lower-case letters outside ASCII
is left open. -/

namespace GoStrings

abbrev Text := List UInt8

def runeSelf : UInt8 := 0x80

def runeError : ℕ := 0xFFFD

def maxRune : ℕ := 0x10FFFF

structure Unicode where
  toLower : ℕ → ℕ
  ascii : ∀ r < 128, toLower r = if 65 ≤ r ∧ r ≤ 90 then r + 32 else r

def Unicode.basic : Unicode := ⟨fun r => if 65 ≤ r ∧ r ≤ 90 then r + 32 else r, fun _ _ => rfl⟩

def lead (b : UInt8) : Option (ℕ × UInt8 × UInt8) :=
  if b < 0xC2 then none
  else if b < 0xE0 then some (2, 0x80, 0xBF)
  else if b = 0xE0 then some (3, 0xA0, 0xBF)
  else if b = 0xED then some (3, 0x80, 0x9F)
  else if b < 0xF0 then some (3, 0x80, 0xBF)
  else if b = 0xF0 then some (4, 0x90, 0xBF)
  else if b < 0xF4 then some (4, 0x80, 0xBF)
  else if b = 0xF4 then some (4, 0x80, 0x8F)
  else none

def continues (lo hi : UInt8) : Text → Bool
  | [] => false
  | b :: bs => lo ≤ b && b ≤ hi && bs.all fun c => 0x80 ≤ c && c ≤ 0xBF

/-- The first rune of a non-empty text and its width; a byte that starts none counts as one. -/
def decodeRune (b : UInt8) (rest : Text) : ℕ × ℕ :=
  if b < runeSelf then (b.toNat, 1)
  else
    match lead b with
    | none => (runeError, 1)
    | some (width, lo, hi) =>
      let tail := rest.take (width - 1)
      if tail.length = width - 1 ∧ continues lo hi tail then
        (tail.foldl (fun r c => r * 64 + c.toNat % 64) (b.toNat % (1 <<< (7 - width))), width)
      else (runeError, 1)

def runesFrom : ℕ → Text → List ℕ
  | 0, _ => []
  | _ + 1, [] => []
  | fuel + 1, b :: rest =>
    let r := decodeRune b rest
    r.1 :: runesFrom fuel (rest.drop (r.2 - 1))

def runes (s : Text) : List ℕ := runesFrom s.length s

def encodeRune (r : ℕ) : Text :=
  if r < 0x80 then [UInt8.ofNat r]
  else if r < 0x800 then [UInt8.ofNat (0xC0 + r / 64), UInt8.ofNat (0x80 + r % 64)]
  else if (0xD800 ≤ r ∧ r ≤ 0xDFFF) ∨ maxRune < r then [0xEF, 0xBF, 0xBD]
  else if r < 0x10000 then
    [UInt8.ofNat (0xE0 + r / 4096), UInt8.ofNat (0x80 + r / 64 % 64), UInt8.ofNat (0x80 + r % 64)]
  else
    [UInt8.ofNat (0xF0 + r / 262144), UInt8.ofNat (0x80 + r / 4096 % 64), UInt8.ofNat (0x80 + r / 64 % 64),
      UInt8.ofNat (0x80 + r % 64)]

def lowerASCII (b : UInt8) : UInt8 := if 0x41 ≤ b ∧ b ≤ 0x5A then b + 32 else b

def isASCII (s : Text) : Bool := s.all (· < runeSelf)

/-- Texts of ASCII are lowered byte by byte; in others every byte that is no rune turns into the error rune. -/
def toLower (u : Unicode) (s : Text) : Text :=
  if isASCII s then s.map lowerASCII else (runes s).flatMap fun r => encodeRune (u.toLower r)

def spaces : List Text :=
  [[0x09], [0x0A], [0x0B], [0x0C], [0x0D], [0x20], [0xC2, 0x85], [0xC2, 0xA0], [0xE1, 0x9A, 0x80], [0xE2, 0x80, 0xA8],
    [0xE2, 0x80, 0xA9], [0xE2, 0x80, 0xAF], [0xE2, 0x81, 0x9F], [0xE3, 0x80, 0x80]] ++
    (List.range 11).map fun i => [0xE2, 0x80, UInt8.ofNat (0x80 + i)]

def trimLeftFrom : ℕ → Text → Text
  | 0, s => s
  | fuel + 1, s =>
    match spaces.find? fun w => w.isPrefixOf s with
    | none => s
    | some w => trimLeftFrom fuel (s.drop w.length)

def trimRightFrom : ℕ → Text → Text
  | 0, s => s
  | fuel + 1, s =>
    match spaces.find? fun w => w.isSuffixOf s with
    | none => s
    | some w => trimRightFrom fuel (s.take (s.length - w.length))

def trimSpace (s : Text) : Text :=
  let t := trimLeftFrom s.length s
  trimRightFrom t.length t

def hasSuffix (s suffix : Text) : Bool := suffix.isSuffixOf s

def trimSuffix (s suffix : Text) : Text := if hasSuffix s suffix then s.take (s.length - suffix.length) else s

def ascii (s : String) : Text := s.toList.map fun c => UInt8.ofNat c.toNat

example : toLower .basic (trimSpace [0x20, 0x41, 0xC2, 0xA0, 0x42, 0x0A]) = [0x61, 0xC2, 0xA0, 0x62] := by decide +kernel

example : toLower .basic [0x41, 0xFF] = [0x61, 0xEF, 0xBF, 0xBD] := by decide +kernel

end GoStrings
