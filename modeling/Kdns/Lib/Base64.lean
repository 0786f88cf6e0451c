import Mathlib.Data.List.Basic

/-! Base 64 as Go's package `base64` does it, with the standard alphabet and with the one for URLs. -/

namespace Base64

open List

def pad : UInt8 := 0x3D

def sextet (b : UInt8) : Option ℕ :=
  if 0x41 ≤ b ∧ b ≤ 0x5A then some (b.toNat - 0x41)
  else if 0x61 ≤ b ∧ b ≤ 0x7A then some (b.toNat - 0x61 + 26)
  else if 0x30 ≤ b ∧ b ≤ 0x39 then some (b.toNat - 0x30 + 52)
  else if b = 0x2B then some 62
  else if b = 0x2F then some 63
  else none

def quantum (x y z w : ℕ) : List UInt8 :=
  [UInt8.ofNat (x * 4 + y / 16), UInt8.ofNat (y % 16 * 16 + z / 4), UInt8.ofNat (z % 4 * 64 + w)]

/-- Padding ends the text, and is complete. The bits that a padded group leaves over are not looked at. -/
def decodeQuanta : List UInt8 → Option (List UInt8)
  | [] => some []
  | a :: b :: c :: d :: rest => do
    let x ← sextet a
    let y ← sextet b
    if c = pad then
      if d = pad ∧ rest = [] then some ((quantum x y 0 0).take 1) else none
    else
      let z ← sextet c
      if d = pad then
        if rest = [] then some ((quantum x y z 0).take 2) else none
      else
        let w ← sextet d
        let bytes ← decodeQuanta rest
        some (quantum x y z w ++ bytes)
  | _ => none

def decodeString (s : List UInt8) : Option (List UInt8) := decodeQuanta (s.filter fun b => b ≠ 0x0A ∧ b ≠ 0x0D)

example : decodeString [0x61, 0x32, 0x52, 0x75, 0x0A, 0x63, 0x77, 0x3D, 0x3D] = some [0x6B, 0x64, 0x6E, 0x73] := by
  decide +kernel

def letter (n : ℕ) : UInt8 :=
  if n < 26 then UInt8.ofNat (0x41 + n)
  else if n < 52 then UInt8.ofNat (0x61 + (n - 26))
  else if n < 62 then UInt8.ofNat (0x30 + (n - 52))
  else if n = 62 then 0x2B
  else 0x2F

def encodeToString : List UInt8 → List UInt8
  | [] => []
  | [a] => [letter (a.toNat / 4), letter (a.toNat % 4 * 16), pad, pad]
  | [a, b] => [letter (a.toNat / 4), letter (a.toNat % 4 * 16 + b.toNat / 16), letter (b.toNat % 16 * 4), pad]
  | a :: b :: c :: rest =>
    letter (a.toNat / 4) :: letter (a.toNat % 4 * 16 + b.toNat / 16) :: letter (b.toNat % 16 * 4 + c.toNat / 64) ::
      letter (c.toNat % 64) :: encodeToString rest

example : encodeToString [0x6B, 0x64, 0x6E, 0x73] = [0x61, 0x32, 0x52, 0x75, 0x63, 0x77, 0x3D, 0x3D] := by decide +kernel

section Inverse

theorem sextet_letter {n : ℕ} (hn : n < 64) : sextet (letter n) = some n := by
  have h : ∀ n < 64, sextet (letter n) = some n := by decide
  exact h n hn

theorem letter_graphic (n : ℕ) : 0x20 < (letter n).toNat ∧ (letter n).toNat < 0x7F := by
  by_cases hn : n < 64
  · have h : ∀ n < 64, 0x20 < (letter n).toNat ∧ (letter n).toNat < 0x7F := by decide
    exact h n hn
  · have hlast : letter n = 0x2F := by
      rw [letter, if_neg (by omega), if_neg (by omega), if_neg (by omega), if_neg (by omega)]
    rw [hlast]
    decide

theorem letter_ne_pad {n : ℕ} (hn : n < 64) : letter n ≠ pad := by
  have h : ∀ n < 64, letter n ≠ pad := by decide
  exact h n hn

section Groups

variable {x y z w : ℕ} (hx : x < 64) (hy : y < 64) (hz : z < 64) (hw : w < 64)
include hx hy

theorem decodeQuanta_two : decodeQuanta [letter x, letter y, pad, pad] = some ((quantum x y 0 0).take 1) := by
  simp [decodeQuanta, sextet_letter hx, sextet_letter hy]

include hz

theorem decodeQuanta_three : decodeQuanta [letter x, letter y, letter z, pad] = some ((quantum x y z 0).take 2) := by
  simp [decodeQuanta, sextet_letter hx, sextet_letter hy, sextet_letter hz, letter_ne_pad hz]

include hw

theorem decodeQuanta_four {rest bytes : List UInt8} (h : decodeQuanta rest = some bytes) :
    decodeQuanta (letter x :: letter y :: letter z :: letter w :: rest) = some (quantum x y z w ++ bytes) := by
  simp [decodeQuanta, sextet_letter hx, sextet_letter hy, sextet_letter hz, sextet_letter hw, letter_ne_pad hz,
    letter_ne_pad hw, h]

end Groups

theorem decodeQuanta_encodeToString (bytes : List UInt8) : decodeQuanta (encodeToString bytes) = some bytes := by
  fun_induction encodeToString bytes with
  | case1 => rfl
  | case2 a =>
    have ha := a.toNat_lt
    have hvalue : a.toNat / 4 * 4 + a.toNat % 4 * 16 / 16 = a.toNat := by omega
    rw [decodeQuanta_two (by omega) (by omega), quantum, hvalue, UInt8.ofNat_toNat]
    rfl
  | case3 a b =>
    have ha := a.toNat_lt
    have hb := b.toNat_lt
    have hfirst : a.toNat / 4 * 4 + (a.toNat % 4 * 16 + b.toNat / 16) / 16 = a.toNat := by omega
    have hsecond : (a.toNat % 4 * 16 + b.toNat / 16) % 16 * 16 + b.toNat % 16 * 4 / 4 = b.toNat := by omega
    rw [decodeQuanta_three (by omega) (by omega) (by omega), quantum, hfirst, hsecond, UInt8.ofNat_toNat, UInt8.ofNat_toNat]
    rfl
  | case4 a b c rest ih =>
    have ha := a.toNat_lt
    have hb := b.toNat_lt
    have hc := c.toNat_lt
    have hfirst : a.toNat / 4 * 4 + (a.toNat % 4 * 16 + b.toNat / 16) / 16 = a.toNat := by omega
    have hsecond : (a.toNat % 4 * 16 + b.toNat / 16) % 16 * 16 + (b.toNat % 16 * 4 + c.toNat / 64) / 4 = b.toNat := by omega
    have hthird : (b.toNat % 16 * 4 + c.toNat / 64) % 4 * 64 + c.toNat % 64 = c.toNat := by omega
    rw [decodeQuanta_four (by omega) (by omega) (by omega) (by omega) ih, quantum, hfirst, hsecond, hthird,
      UInt8.ofNat_toNat, UInt8.ofNat_toNat, UInt8.ofNat_toNat]
    rfl

theorem encodeToString_graphic {bytes : List UInt8} {b : UInt8} (h : b ∈ encodeToString bytes) :
    0x20 < b.toNat ∧ b.toNat < 0x7F := by
  have hpad : 0x20 < pad.toNat ∧ pad.toNat < 0x7F := by decide
  fun_induction encodeToString bytes with
  | case1 => cases h
  | case2 a =>
    simp only [mem_cons, not_mem_nil, or_false] at h
    rcases h with rfl | rfl | rfl | rfl
    · apply letter_graphic
    · apply letter_graphic
    · exact hpad
    · exact hpad
  | case3 a b =>
    simp only [mem_cons, not_mem_nil, or_false] at h
    rcases h with rfl | rfl | rfl | rfl
    · apply letter_graphic
    · apply letter_graphic
    · apply letter_graphic
    · exact hpad
  | case4 a b c rest ih =>
    simp only [mem_cons] at h
    rcases h with rfl | rfl | rfl | rfl | h
    · apply letter_graphic
    · apply letter_graphic
    · apply letter_graphic
    · apply letter_graphic
    · exact ih h

theorem decodeString_encodeToString (bytes : List UInt8) : decodeString (encodeToString bytes) = some bytes := by
  have hfilter : ((encodeToString bytes).filter fun b => b ≠ 0x0A ∧ b ≠ 0x0D) = encodeToString bytes := by
    apply filter_eq_self.mpr
    intro b hb
    have hgraphic := encodeToString_graphic hb
    apply decide_eq_true
    constructor
    · rintro rfl
      exact absurd hgraphic.1 (by decide)
    · rintro rfl
      exact absurd hgraphic.1 (by decide)
  rw [decodeString, hfilter, decodeQuanta_encodeToString]

theorem decodeQuanta_ne_nil {s bytes : List UInt8} (h : decodeQuanta s = some bytes) (hs : s ≠ []) : bytes ≠ [] := by
  match s, hs, h with
  | a :: b :: c :: d :: rest, _, h =>
    obtain ⟨x, -, h⟩ := Option.bind_eq_some_iff.mp h
    obtain ⟨y, -, h⟩ := Option.bind_eq_some_iff.mp h
    by_cases hc : c = pad
    · rw [if_pos hc] at h
      split_ifs at h
      cases h
      apply cons_ne_nil
    rw [if_neg hc] at h
    obtain ⟨z, -, h⟩ := Option.bind_eq_some_iff.mp h
    by_cases hd : d = pad
    · rw [if_pos hd] at h
      split_ifs at h
      cases h
      apply cons_ne_nil
    rw [if_neg hd] at h
    obtain ⟨w, -, h⟩ := Option.bind_eq_some_iff.mp h
    obtain ⟨more, -, h⟩ := Option.bind_eq_some_iff.mp h
    cases h
    apply cons_ne_nil

theorem decodeString_ne_nil {s bytes : List UInt8} (h : decodeString s = some bytes) (hs : s ≠ [])
    (hline : ∀ b ∈ s, b ≠ 0x0A ∧ b ≠ 0x0D) : bytes ≠ [] := by
  have hfilter : (s.filter fun b => b ≠ 0x0A ∧ b ≠ 0x0D) = s :=
    filter_eq_self.mpr fun b hb => decide_eq_true (hline b hb)
  rw [decodeString, hfilter] at h
  exact decodeQuanta_ne_nil h hs

end Inverse

def ofURL (b : UInt8) : Option UInt8 :=
  if b = 0x2D then some 0x2B
  else if b = 0x5F then some 0x2F
  else if b = 0x2B ∨ b = 0x2F then none
  else some b

def decodeURL (s : List UInt8) : Option (List UInt8) := (s.mapM ofURL).bind decodeString

def decodeRawURL (s : List UInt8) : Option (List UInt8) :=
  let text := s.filter fun b => b ≠ 0x0A ∧ b ≠ 0x0D
  if pad ∈ text then none else decodeURL (text ++ List.replicate ((4 - text.length % 4) % 4) pad)

example : decodeRawURL [0x2D, 0x5F, 0x38] = some [0xFB, 0xFF] ∧ decodeRawURL [0x2D, 0x5F, 0x38, 0x3D] = none ∧
    decodeURL [0x2D, 0x5F, 0x38, 0x3D] = some [0xFB, 0xFF] ∧ decodeRawURL [0x61] = none := by decide +kernel

end Base64
