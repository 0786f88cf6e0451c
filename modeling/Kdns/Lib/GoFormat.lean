import Kdns.Lib.GoParse

/-! Writers of text from Go's standard library: numbers, hexadecimal digits and quotations. Which runes outside ASCII can be
printed is left open. -/

namespace GoStrings

open List

def quoteByte : UInt8 := 0x22
def backslashByte : UInt8 := 0x5C

section Numbers

def digitsFrom : ℕ → ℕ → Text → Text
  | 0, _, digits => digits
  | fuel + 1, n, digits =>
    if n < 10 then UInt8.ofNat (0x30 + n) :: digits else digitsFrom fuel (n / 10) (UInt8.ofNat (0x30 + n % 10) :: digits)

def formatUint (n : ℕ) : Text := digitsFrom (n + 1) n []

theorem foldl_decimal (s : Text) (n : ℕ) :
    s.foldl (fun n b => 10 * n + (b.toNat - 0x30)) n = n * Nat.pow 10 s.length + decimal s := by
  induction s generalizing n with
  | nil => exact (Nat.mul_one n).symm
  | cons b s ih =>
    have hpow : Nat.pow 10 (b :: s).length = 10 * Nat.pow 10 s.length := Nat.pow_succ'
    rw [decimal, foldl_cons, foldl_cons, ih, ih, hpow, Nat.mul_zero, Nat.zero_add, Nat.add_mul, Nat.mul_left_comm n,
      Nat.mul_assoc, Nat.add_assoc]

theorem decimal_cons (b : UInt8) (s : Text) : decimal (b :: s) = (b.toNat - 0x30) * Nat.pow 10 s.length + decimal s := by
  rw [decimal, foldl_cons, foldl_decimal, Nat.mul_zero, Nat.zero_add]

theorem digit_toNat {n : ℕ} (hn : n < 10) : (UInt8.ofNat (0x30 + n)).toNat - 0x30 = n := by
  rw [UInt8.toNat_ofNat']
  omega

theorem isDigit_ofNat {n : ℕ} (hn : n < 10) : isDigit (UInt8.ofNat (0x30 + n)) = true := by
  have h : ∀ n < 10, isDigit (UInt8.ofNat (0x30 + n)) = true := by decide
  exact h n hn

theorem decimal_digitsFrom {fuel n : ℕ} (hn : n < fuel) (digits : Text) :
    decimal (digitsFrom fuel n digits) = n * Nat.pow 10 digits.length + decimal digits := by
  induction fuel generalizing n digits with
  | zero => cases hn
  | succ fuel ih =>
    rw [digitsFrom]
    split_ifs with h
    · rw [decimal_cons, digit_toNat h]
    · have hpow : Nat.pow 10 (UInt8.ofNat (0x30 + n % 10) :: digits).length = 10 * Nat.pow 10 digits.length := Nat.pow_succ'
      have hdiv : 10 * (n / 10) + n % 10 = n := Nat.div_add_mod n 10
      rw [ih (by omega), decimal_cons, digit_toNat (Nat.mod_lt n (by decide)), hpow, ← Nat.add_assoc, Nat.mul_left_comm,
        ← Nat.mul_assoc, ← Nat.add_mul, hdiv]

theorem digitsFrom_digits {fuel n : ℕ} {digits : Text} (h : digits.all isDigit = true) :
    (digitsFrom fuel n digits).all isDigit = true := by
  induction fuel generalizing n digits with
  | zero => exact h
  | succ fuel ih =>
    rw [digitsFrom]
    split_ifs with hn
    · rw [all_cons, isDigit_ofNat hn, h]
      rfl
    · apply ih
      rw [all_cons, isDigit_ofNat (Nat.mod_lt n (by decide)), h]
      rfl

theorem formatUint_digits (n : ℕ) : (formatUint n).all isDigit = true := digitsFrom_digits rfl

theorem formatUint_ne_nil (n : ℕ) : formatUint n ≠ [] := by
  have h : ∀ fuel n (digits : Text), digits ≠ [] → digitsFrom fuel n digits ≠ [] := by
    intro fuel
    induction fuel with
    | zero => exact fun n digits h => h
    | succ fuel ih =>
      intro n digits h
      rw [digitsFrom]
      split_ifs
      · exact cons_ne_nil _ _
      · exact ih _ _ (cons_ne_nil _ _)
  rw [formatUint, digitsFrom]
  split_ifs
  · exact cons_ne_nil _ _
  · exact h _ _ _ (cons_ne_nil _ _)

theorem parseUint_lt {s : Text} {bits n : ℕ} (h : parseUint s bits = some n) : n < Nat.pow 2 bits := by
  unfold parseUint at h
  split_ifs at h with hdigits hlt
  cases h
  exact hlt

theorem parseUint_formatUint {n bits : ℕ} (hn : n < Nat.pow 2 bits) : parseUint (formatUint n) bits = some n := by
  have hvalue : decimal (formatUint n) = n := by
    rw [formatUint, decimal_digitsFrom (Nat.lt_succ_self n)]
    exact Nat.mul_one n
  have hread : ¬(formatUint n = [] ∨ ¬(formatUint n).all isDigit = true) := by
    rintro (hnil | hdigits)
    · exact formatUint_ne_nil n hnil
    · exact hdigits (formatUint_digits n)
  rw [parseUint, if_neg hread, hvalue, if_pos hn]

theorem digitsFrom_length (fuel : ℕ) {n k : ℕ} (hn : n < Nat.pow 10 (k + 1)) (digits : Text) :
    (digitsFrom fuel n digits).length ≤ digits.length + (k + 1) := by
  induction fuel generalizing n k digits with
  | zero => exact Nat.le_add_right _ _
  | succ fuel ih =>
    rw [digitsFrom]
    split_ifs with h
    · rw [length_cons]
      omega
    · cases k with
      | zero => exact absurd hn h
      | succ k =>
        have hpow : Nat.pow 10 (k + 1 + 1) = 10 * Nat.pow 10 (k + 1) := Nat.pow_succ'
        have hle := ih (n := n / 10) (k := k) (by omega) (UInt8.ofNat (0x30 + n % 10) :: digits)
        rw [length_cons] at hle
        omega

theorem formatUint_length {n k : ℕ} (hn : n < Nat.pow 10 (k + 1)) : (formatUint n).length ≤ k + 1 := by
  have hle := digitsFrom_length (n + 1) hn []
  rwa [length_nil, Nat.zero_add] at hle

end Numbers

section Hexadecimal

def hexDigit (n : ℕ) : UInt8 := if n < 10 then UInt8.ofNat (0x30 + n) else UInt8.ofNat (0x61 + (n - 10))

def hexValue (b : UInt8) : Option ℕ :=
  if 0x30 ≤ b.toNat ∧ b.toNat ≤ 0x39 then some (b.toNat - 0x30)
  else if 0x61 ≤ b.toNat ∧ b.toNat ≤ 0x66 then some (b.toNat - 0x61 + 10)
  else if 0x41 ≤ b.toNat ∧ b.toNat ≤ 0x46 then some (b.toNat - 0x41 + 10)
  else none

def encodeHex (bytes : List UInt8) : Text := bytes.flatMap fun b => [hexDigit (b.toNat / 16), hexDigit (b.toNat % 16)]

def decodeHex : Text → Option (List UInt8)
  | [] => some []
  | [_] => none
  | a :: b :: rest => do
    let x ← hexValue a
    let y ← hexValue b
    let bytes ← decodeHex rest
    return UInt8.ofNat (16 * x + y) :: bytes

theorem hexValue_hexDigit {n : ℕ} (hn : n < 16) : hexValue (hexDigit n) = some n := by
  have h : ∀ n < 16, hexValue (hexDigit n) = some n := by decide
  exact h n hn

theorem encodeHex_length (bytes : List UInt8) : (encodeHex bytes).length = 2 * bytes.length := by
  simp [encodeHex, length_flatMap, Nat.mul_comm]

theorem decodeHex_encodeHex (bytes : List UInt8) : decodeHex (encodeHex bytes) = some bytes := by
  induction bytes with
  | nil => rfl
  | cons b bytes ih =>
    have hb := b.toNat_lt
    have hvalue : 16 * (b.toNat / 16) + b.toNat % 16 = b.toNat := Nat.div_add_mod _ _
    have hcons : encodeHex (b :: bytes) = hexDigit (b.toNat / 16) :: hexDigit (b.toNat % 16) :: encodeHex bytes := rfl
    rw [hcons, decodeHex, hexValue_hexDigit (by omega), hexValue_hexDigit (by omega), ih]
    rw [Option.bind_eq_bind, Option.bind_some, Option.bind_eq_bind, Option.bind_some, hvalue, UInt8.ofNat_toNat]
    rfl

theorem hexValue_encodeHex {bytes : List UInt8} {c : UInt8} (h : c ∈ encodeHex bytes) : (hexValue c).isSome = true := by
  obtain ⟨b, -, hc⟩ := mem_flatMap.mp h
  have hb := b.toNat_lt
  simp only [mem_cons, not_mem_nil, or_false] at hc
  rcases hc with rfl | rfl
  · rw [hexValue_hexDigit (by omega)]
    rfl
  · rw [hexValue_hexDigit (by omega)]
    rfl

theorem upperASCII_toNat (b : UInt8) : (upperASCII b).toNat = if 0x61 ≤ b.toNat ∧ b.toNat ≤ 0x7A then b.toNat - 0x20 else b.toNat := by
  unfold upperASCII
  by_cases h : (0x61 : UInt8) ≤ b ∧ b ≤ 0x7A
  · have hle : 0x61 ≤ b.toNat ∧ b.toNat ≤ 0x7A := ⟨UInt8.le_iff_toNat_le.mp h.1, UInt8.le_iff_toNat_le.mp h.2⟩
    have hsmall : (0x20 : UInt8) ≤ b := UInt8.le_iff_toNat_le.mpr (Nat.le_trans (by decide) hle.1)
    rw [if_pos h, if_pos hle, UInt8.toNat_sub_of_le _ _ hsmall]
    rfl
  · have hle : ¬(0x61 ≤ b.toNat ∧ b.toNat ≤ 0x7A) := fun hle =>
      h ⟨UInt8.le_iff_toNat_le.mpr hle.1, UInt8.le_iff_toNat_le.mpr hle.2⟩
    rw [if_neg h, if_neg hle]

theorem hexValue_upperASCII (b : UInt8) : hexValue (upperASCII b) = hexValue b := by
  by_cases hsmall : 0x61 ≤ b.toNat ∧ b.toNat ≤ 0x7A
  · rw [hexValue, hexValue, upperASCII_toNat, if_pos hsmall, if_neg (by omega), if_neg (by omega)]
    by_cases hdigit : b.toNat ≤ 0x66
    · have hvalue : b.toNat - 0x20 - 0x41 = b.toNat - 0x61 := by omega
      rw [if_pos (by omega), if_neg (by omega), if_pos (by omega), hvalue]
    · grind
  · rw [hexValue, hexValue, upperASCII_toNat, if_neg hsmall]

theorem decodeHex_map {f : UInt8 → UInt8} (hf : ∀ b, hexValue (f b) = hexValue b) (s : Text) : decodeHex (s.map f) = decodeHex s := by
  fun_induction decodeHex s with
  | case1 => rfl
  | case2 => rfl
  | case3 a b rest ih => rw [map_cons, map_cons, decodeHex, hf, hf, ih]

theorem decodeHex_ne_nil {s : Text} {bytes : List UInt8} (h : decodeHex s = some bytes) (hs : s ≠ []) : bytes ≠ [] := by
  match s, hs, h with
  | a :: b :: rest, _, h =>
    obtain ⟨x, -, h⟩ := Option.bind_eq_some_iff.mp h
    obtain ⟨y, -, h⟩ := Option.bind_eq_some_iff.mp h
    obtain ⟨more, -, h⟩ := Option.bind_eq_some_iff.mp h
    cases h
    exact cons_ne_nil _ _

end Hexadecimal

section Quotations

structure Printing where
  isPrint : ℕ → Bool
  ascii : ∀ r < 0x80, isPrint r = (0x20 ≤ r && r ≤ 0x7E)

def Printing.basic : Printing := ⟨fun r => 0x20 ≤ r && r ≤ 0x7E, fun _ _ => rfl⟩

def hexDigits : ℕ → ℕ → Text
  | 0, _ => []
  | width + 1, r => hexDigit (r / Nat.pow 16 width % 16) :: hexDigits width r

def escapeLetter (r : ℕ) : Option UInt8 :=
  ([(7, 0x61), (8, 0x62), (12, 0x66), (10, 0x6E), (13, 0x72), (9, 0x74), (11, 0x76)] : List (ℕ × UInt8)).lookup r

def escapeRune (t : Printing) (r : ℕ) : Text :=
  if r = 0x22 ∨ r = 0x5C then [backslashByte, UInt8.ofNat r]
  else if t.isPrint r then encodeRune r
  else
    match escapeLetter r with
    | some letter => [backslashByte, letter]
    | none =>
      if r < 0x20 ∨ r = 0x7F then backslashByte :: 0x78 :: hexDigits 2 r
      else if r < 0x10000 then backslashByte :: 0x75 :: hexDigits 4 r
      else backslashByte :: 0x55 :: hexDigits 8 r

def quoteFrom (t : Printing) : ℕ → Text → Text
  | 0, _ => []
  | _ + 1, [] => []
  | fuel + 1, b :: rest =>
    let r := decodeRune b rest
    if r.2 = 1 ∧ r.1 = runeError then (backslashByte :: 0x78 :: hexDigits 2 b.toNat) ++ quoteFrom t fuel rest
    else escapeRune t r.1 ++ quoteFrom t fuel (rest.drop (r.2 - 1))

def quoteString (t : Printing) (s : Text) : Text := quoteByte :: quoteFrom t s.length s ++ [quoteByte]

example : quoteString .basic (ascii "a\"b\\\n") = ascii "\"a\\\"b\\\\\\n\"" := by decide +kernel

example : formatUint 4096 = ascii "4096" ∧ formatUint 0 = ascii "0" := by decide +kernel

end Quotations

end GoStrings
