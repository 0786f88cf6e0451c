import Kdns.Lib.GoStrings

/-! Readers of text from Go's standard library: fields, numbers and points in time. The table of upper-case letters
outside ASCII is left open. -/

namespace GoStrings

def fieldsFrom : ℕ → Text → Text → List Text
  | 0, _, _ => []
  | _ + 1, current, [] => if current = [] then [] else [current]
  | fuel + 1, current, b :: rest =>
    match spaces.find? fun w => w.isPrefixOf (b :: rest) with
    | none => fieldsFrom fuel (current ++ [b]) rest
    | some w => (if current = [] then [] else [current]) ++ fieldsFrom fuel [] ((b :: rest).drop w.length)

def fields (s : Text) : List Text := fieldsFrom (s.length + 1) [] s

structure Capitals where
  toUpper : ℕ → ℕ
  ascii : ∀ r < 128, toUpper r = if 97 ≤ r ∧ r ≤ 122 then r - 32 else r

def Capitals.basic : Capitals := ⟨fun r => if 97 ≤ r ∧ r ≤ 122 then r - 32 else r, fun _ _ => rfl⟩

def upperASCII (b : UInt8) : UInt8 := if 0x61 ≤ b ∧ b ≤ 0x7A then b - 32 else b

def toUpper (c : Capitals) (s : Text) : Text :=
  if isASCII s then s.map upperASCII else (runes s).flatMap fun r => encodeRune (c.toUpper r)

def isDigit (b : UInt8) : Bool := 0x30 ≤ b && b ≤ 0x39

def decimal (s : Text) : ℕ := s.foldl (fun n b => 10 * n + (b.toNat - 0x30)) 0

def parseUint (s : Text) (bits : ℕ) : Option ℕ :=
  if s = [] ∨ ¬ s.all isDigit then none
  else if decimal s < Nat.pow 2 bits then some (decimal s)
  else none

def atoi : Text → Option Int
  | 0x2B :: digits => (parseUint digits 63).map Int.ofNat
  | 0x2D :: digits =>
    match parseUint digits 64 with
    | none => none
    | some n => if n ≤ Nat.pow 2 63 then some (-(n : Int)) else none
  | digits => (parseUint digits 63).map Int.ofNat

def isLeap (year : ℕ) : Bool := year % 4 = 0 ∧ (year % 100 ≠ 0 ∨ year % 400 = 0)

def daysIn (year month : ℕ) : ℕ :=
  if month = 2 then (if isLeap year then 29 else 28)
  else if month ∈ [4, 6, 9, 11] then 30
  else 31

def daysBefore (year month day : ℕ) : ℕ :=
  365 * year + (year + 3) / 4 - (year + 99) / 100 + (year + 399) / 400 +
    ((List.range (month - 1)).map fun i => daysIn year (i + 1)).foldl Nat.add 0 + (day - 1)

def unixEpoch : ℕ := 719528

def parseTimestamp (s : Text) : Option Int :=
  if s.length ≠ 14 ∨ ¬ s.all isDigit then none
  else
    let part (i n : ℕ) := decimal ((s.drop i).take n)
    let year := part 0 4
    let month := part 4 2
    let day := part 6 2
    let hour := part 8 2
    let minute := part 10 2
    let second := part 12 2
    if month = 0 ∨ 12 < month ∨ 24 ≤ hour ∨ 60 ≤ minute ∨ 60 ≤ second ∨ day = 0 ∨ daysIn year month < day then none
    else
      let days := Int.subNatNat (daysBefore year month day) unixEpoch
      some (days * 86400 + Int.ofNat (hour * 3600 + minute * 60 + second))

example : fields (ascii " a  b\tc ") = [ascii "a", ascii "b", ascii "c"] := by decide +kernel

example : daysBefore 1970 1 1 = unixEpoch := by decide

example : parseTimestamp (ascii "20240229000000") = some 1709164800 := by decide +kernel

end GoStrings
