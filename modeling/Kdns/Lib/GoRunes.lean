import Kdns.Lib.GoStrings

/-! UTF-8: what is encoded is decoded again, and lowering and trimming seen on the runes of a text. -/

namespace GoStrings

open List

def IsScalar (r : ℕ) : Prop := r < 0xD800 ∨ (0xDFFF < r ∧ r ≤ maxRune)

def encode (rs : List ℕ) : Text := rs.flatMap encodeRune

section Decode

theorem lead_eq (b : UInt8) : lead b =
      if b.toNat < 0xC2 then none
      else if b.toNat < 0xE0 then some (2, 0x80, 0xBF)
      else if b.toNat = 0xE0 then some (3, 0xA0, 0xBF)
      else if b.toNat = 0xED then some (3, 0x80, 0x9F)
      else if b.toNat < 0xF0 then some (3, 0x80, 0xBF)
      else if b.toNat = 0xF0 then some (4, 0x90, 0xBF)
      else if b.toNat < 0xF4 then some (4, 0x80, 0xBF)
      else if b.toNat = 0xF4 then some (4, 0x80, 0x8F)
      else none := by
  simp only [lead, UInt8.lt_iff_toNat_lt, ← UInt8.toNat_inj, UInt8.reduceToNat]

inductive Sequence : Text → ℕ → Prop
  | one (b : UInt8) (hb : b.toNat < 0x80) : Sequence [b] b.toNat
  | two (b c : UInt8) (hb : 0xC2 ≤ b.toNat) (hb' : b.toNat < 0xE0) (hc : 0x80 ≤ c.toNat) (hc' : c.toNat ≤ 0xBF) :
      Sequence [b, c] ((b.toNat - 0xC0) * 64 + (c.toNat - 0x80))
  | three (b c d : UInt8) (hb : 0xE0 ≤ b.toNat) (hb' : b.toNat < 0xF0) (hc : 0x80 ≤ c.toNat) (hc' : c.toNat ≤ 0xBF)
      (hlong : b.toNat = 0xE0 → 0xA0 ≤ c.toNat) (hscalar : b.toNat = 0xED → c.toNat ≤ 0x9F)
      (hd : 0x80 ≤ d.toNat) (hd' : d.toNat ≤ 0xBF) :
      Sequence [b, c, d] ((b.toNat - 0xE0) * 4096 + (c.toNat - 0x80) * 64 + (d.toNat - 0x80))
  | four (b c d e : UInt8) (hb : 0xF0 ≤ b.toNat) (hb' : b.toNat ≤ 0xF4) (hc : 0x80 ≤ c.toNat) (hc' : c.toNat ≤ 0xBF)
      (hlong : b.toNat = 0xF0 → 0x90 ≤ c.toNat) (hmax : b.toNat = 0xF4 → c.toNat ≤ 0x8F)
      (hd : 0x80 ≤ d.toNat) (hd' : d.toNat ≤ 0xBF) (he : 0x80 ≤ e.toNat) (he' : e.toNat ≤ 0xBF) :
      Sequence [b, c, d, e]
        ((b.toNat - 0xF0) * 262144 + (c.toNat - 0x80) * 4096 + (d.toNat - 0x80) * 64 + (e.toNat - 0x80))

variable {s : Text} {r : ℕ}

theorem Sequence.isScalar (h : Sequence s r) : IsScalar r := by
  unfold IsScalar maxRune
  cases h <;> omega

theorem Sequence.encodeRune_eq (h : Sequence s r) : encodeRune r = s := by
  unfold encodeRune maxRune
  cases h with
  | one b hb =>
    rw [if_pos hb, UInt8.ofNat_toNat]
  | two b c =>
    rw [if_neg (by omega), if_pos (by omega)]
    simp only [cons.injEq, and_true, ← UInt8.toNat_inj, UInt8.toNat_ofNat']
    omega
  | three b c d =>
    rw [if_neg (by omega), if_neg (by omega), if_neg (by omega), if_pos (by omega)]
    simp only [cons.injEq, and_true, ← UInt8.toNat_inj, UInt8.toNat_ofNat']
    omega
  | four b c d e =>
    rw [if_neg (by omega), if_neg (by omega), if_neg (by omega), if_neg (by omega)]
    simp only [cons.injEq, and_true, ← UInt8.toNat_inj, UInt8.toNat_ofNat']
    omega

theorem sequence_encodeRune (h : IsScalar r) : Sequence (encodeRune r) r := by
  unfold IsScalar maxRune at h
  unfold encodeRune maxRune
  have hbyte : ∀ n < 256, (UInt8.ofNat n).toNat = n := fun n hn => by rw [UInt8.toNat_ofNat', Nat.mod_eq_of_lt hn]
  split_ifs with h₁ h₂ h₃ h₄
  · have hs := Sequence.one (UInt8.ofNat r) (by rw [hbyte _ (by omega)]; omega)
    rwa [hbyte _ (by omega)] at hs
  · have hb := hbyte (0xC0 + r / 64) (by omega)
    have hc := hbyte (0x80 + r % 64) (by omega)
    have hs := Sequence.two (UInt8.ofNat (0xC0 + r / 64)) (UInt8.ofNat (0x80 + r % 64)) (by omega) (by omega)
      (by omega) (by omega)
    rwa [hb, hc, show (0xC0 + r / 64 - 0xC0) * 64 + (0x80 + r % 64 - 0x80) = r by omega] at hs
  · omega
  · have hb := hbyte (0xE0 + r / 4096) (by omega)
    have hc := hbyte (0x80 + r / 64 % 64) (by omega)
    have hd := hbyte (0x80 + r % 64) (by omega)
    have hs := Sequence.three (UInt8.ofNat (0xE0 + r / 4096)) (UInt8.ofNat (0x80 + r / 64 % 64))
      (UInt8.ofNat (0x80 + r % 64)) (by omega) (by omega) (by omega) (by omega) (by omega) (by omega) (by omega) (by omega)
    rwa [hb, hc, hd, show (0xE0 + r / 4096 - 0xE0) * 4096 + (0x80 + r / 64 % 64 - 0x80) * 64 + (0x80 + r % 64 - 0x80) = r
      by omega] at hs
  · have hb := hbyte (0xF0 + r / 262144) (by omega)
    have hc := hbyte (0x80 + r / 4096 % 64) (by omega)
    have hd := hbyte (0x80 + r / 64 % 64) (by omega)
    have he := hbyte (0x80 + r % 64) (by omega)
    have hs := Sequence.four (UInt8.ofNat (0xF0 + r / 262144)) (UInt8.ofNat (0x80 + r / 4096 % 64))
      (UInt8.ofNat (0x80 + r / 64 % 64)) (UInt8.ofNat (0x80 + r % 64)) (by omega) (by omega) (by omega) (by omega) (by omega)
      (by omega) (by omega) (by omega) (by omega) (by omega)
    rwa [hb, hc, hd, he, show (0xF0 + r / 262144 - 0xF0) * 262144 + (0x80 + r / 4096 % 64 - 0x80) * 4096 +
      (0x80 + r / 64 % 64 - 0x80) * 64 + (0x80 + r % 64 - 0x80) = r by omega] at hs

theorem runeSelf_iff (b : UInt8) : b < runeSelf ↔ b.toNat < 0x80 := UInt8.lt_iff_toNat_lt

theorem continues_iff (lo hi b : UInt8) (bs : Text) : continues lo hi (b :: bs) = true ↔
      (lo.toNat ≤ b.toNat ∧ b.toNat ≤ hi.toNat) ∧ ∀ c ∈ bs, 0x80 ≤ c.toNat ∧ c.toNat ≤ 0xBF := by
  simp [continues, UInt8.le_iff_toNat_le]

theorem Sequence.decodeRune_eq {b : UInt8} {tail : Text} (h : Sequence (b :: tail) r) (rest : Text) :
    decodeRune b (tail ++ rest) = (r, tail.length + 1) := by
  unfold decodeRune
  cases h with
  | one _ hb =>
    rw [if_pos ((runeSelf_iff b).mpr hb)]
    rfl
  | two _ c hb hb' hc hc' =>
    rw [if_neg (by rw [runeSelf_iff]; omega), lead_eq, if_neg (by omega), if_pos (by omega)]
    simp [continues_iff, hc, hc']
    omega
  | three _ c d hb hb' hc hc' hlong hscalar hd hd' =>
    rw [if_neg (by rw [runeSelf_iff]; omega), lead_eq, if_neg (by omega), if_neg (by omega)]
    split_ifs with h₁ h₂
    all_goals simp [continues_iff, *]; omega
  | four _ c d e hb hb' hc hc' hlong hmax hd hd' he he' =>
    rw [if_neg (by rw [runeSelf_iff]; omega), lead_eq, if_neg (by omega), if_neg (by omega), if_neg (by omega),
      if_neg (by omega), if_neg (by omega)]
    split_ifs with h₁ h₂
    all_goals simp [continues_iff, *]; omega

inductive Decodes (b : UInt8) (rest : Text) : ℕ × ℕ → Prop
  | sequence {s : Text} {r : ℕ} (hs : Sequence s r) (hbegins : s <+: b :: rest) : Decodes b rest (r, s.length)
  | error : Decodes b rest (runeError, 1)

section Widths

variable {b : UInt8} {rest : Text} {lo hi : UInt8}

theorem decodes_two (hb : 0xC2 ≤ b.toNat) (hb' : b.toNat < 0xE0)
    (h : (rest.take 1).length = 1 ∧ continues 0x80 0xBF (rest.take 1) = true) :
    Decodes b rest ((rest.take 1).foldl (fun r c => r * 64 + c.toNat % 64) (b.toNat % (1 <<< 5)), 2) := by
  match rest, h with
  | [], h => simp at h
  | c :: rest, h =>
    simp [continues_iff] at h
    have hs := Sequence.two b c hb hb' h.1 h.2
    have hvalue : (b.toNat - 0xC0) * 64 + (c.toNat - 0x80) = b.toNat % (1 <<< 5) * 64 + c.toNat % 64 := by
      simp
      omega
    rw [hvalue] at hs
    exact Decodes.sequence hs ⟨rest, rfl⟩

theorem decodes_three (hb : 0xE0 ≤ b.toNat) (hb' : b.toNat < 0xF0) (hlo : 0x80 ≤ lo.toNat) (hhi : hi.toNat ≤ 0xBF)
    (hlong : b.toNat = 0xE0 → 0xA0 ≤ lo.toNat) (hscalar : b.toNat = 0xED → hi.toNat ≤ 0x9F)
    (h : (rest.take 2).length = 2 ∧ continues lo hi (rest.take 2) = true) :
    Decodes b rest ((rest.take 2).foldl (fun r c => r * 64 + c.toNat % 64) (b.toNat % (1 <<< 4)), 3) := by
  match rest, h with
  | [], h => simp at h
  | [_], h => simp at h
  | c :: d :: rest, h =>
    simp [continues_iff] at h
    have hs := Sequence.three b c d hb hb' (by omega) (by omega) (by omega) (by omega) h.2.1 h.2.2
    have hvalue : (b.toNat - 0xE0) * 4096 + (c.toNat - 0x80) * 64 + (d.toNat - 0x80) =
        (b.toNat % (1 <<< 4) * 64 + c.toNat % 64) * 64 + d.toNat % 64 := by
      simp
      omega
    rw [hvalue] at hs
    exact Decodes.sequence hs ⟨rest, rfl⟩

theorem decodes_four (hb : 0xF0 ≤ b.toNat) (hb' : b.toNat ≤ 0xF4) (hlo : 0x80 ≤ lo.toNat) (hhi : hi.toNat ≤ 0xBF)
    (hlong : b.toNat = 0xF0 → 0x90 ≤ lo.toNat) (hmax : b.toNat = 0xF4 → hi.toNat ≤ 0x8F)
    (h : (rest.take 3).length = 3 ∧ continues lo hi (rest.take 3) = true) :
    Decodes b rest ((rest.take 3).foldl (fun r c => r * 64 + c.toNat % 64) (b.toNat % (1 <<< 3)), 4) := by
  match rest, h with
  | [], h => simp at h
  | [_], h => simp at h
  | [_, _], h => simp at h
  | c :: d :: e :: rest, h =>
    simp [continues_iff] at h
    have hs := Sequence.four b c d e hb hb' (by omega) (by omega) (by omega) (by omega) h.2.1.1 h.2.1.2 h.2.2.1 h.2.2.2
    have hvalue : (b.toNat - 0xF0) * 262144 + (c.toNat - 0x80) * 4096 + (d.toNat - 0x80) * 64 + (e.toNat - 0x80) =
        ((b.toNat % (1 <<< 3) * 64 + c.toNat % 64) * 64 + d.toNat % 64) * 64 + e.toNat % 64 := by
      simp
      omega
    rw [hvalue] at hs
    exact Decodes.sequence hs ⟨rest, rfl⟩

end Widths

theorem decodes_decodeRune (b : UInt8) (rest : Text) : Decodes b rest (decodeRune b rest) := by
  unfold decodeRune
  by_cases hself : b < runeSelf
  · rw [if_pos hself]
    exact Decodes.sequence (Sequence.one b ((runeSelf_iff b).mp hself)) ⟨rest, rfl⟩
  rw [if_neg hself, lead_eq]
  split_ifs with h₁ h₂ h₃ h₄ h₅ h₆ h₇ h₈
  · exact Decodes.error
  · dsimp only
    split_ifs with htail
    · exact decodes_two (by omega) h₂ htail
    · exact Decodes.error
  · dsimp only
    split_ifs with htail
    · exact decodes_three (by omega) (by omega) (by decide) (by decide) (by simp) (by omega) htail
    · exact Decodes.error
  · dsimp only
    split_ifs with htail
    · exact decodes_three (by omega) (by omega) (by decide) (by decide) (by omega) (by simp) htail
    · exact Decodes.error
  · dsimp only
    split_ifs with htail
    · exact decodes_three (by omega) (by omega) (by decide) (by decide) (by omega) (by omega) htail
    · exact Decodes.error
  · dsimp only
    split_ifs with htail
    · exact decodes_four (by omega) (by omega) (by decide) (by decide) (by simp) (by omega) htail
    · exact Decodes.error
  · dsimp only
    split_ifs with htail
    · exact decodes_four (by omega) (by omega) (by decide) (by decide) (by omega) (by omega) htail
    · exact Decodes.error
  · dsimp only
    split_ifs with htail
    · exact decodes_four (by omega) (by omega) (by decide) (by decide) (by omega) (by simp) htail
    · exact Decodes.error
  · exact Decodes.error

end Decode

section Runes

theorem runesFrom_fuel (fuel : ℕ) (s : Text) (h : s.length ≤ fuel) : runesFrom fuel s = runes s := by
  unfold runes
  induction fuel using Nat.strongRecOn generalizing s with
  | ind fuel ih =>
    cases s with
    | nil => cases fuel <;> rfl
    | cons b rest =>
      cases fuel with
      | zero => simp at h
      | succ fuel =>
        rw [length_cons] at h ⊢
        rw [runesFrom, runesFrom, ih fuel (by omega) _ (by simp; omega)]
        by_cases heq : rest.length = fuel
        · rw [heq, ih fuel (by omega) _ (by simp; omega)]
        · rw [ih rest.length (by omega) _ (by simp)]

theorem runes_cons (b : UInt8) (rest : Text) :
    runes (b :: rest) = (decodeRune b rest).1 :: runes (rest.drop ((decodeRune b rest).2 - 1)) := by
  rw [runes, length_cons, runesFrom, runesFrom_fuel _ _ (by simp)]

theorem encodeRune_ne_nil (r : ℕ) : encodeRune r ≠ [] := by
  unfold encodeRune
  split_ifs <;> simp

theorem runes_encodeRune_append {r : ℕ} (h : IsScalar r) (s : Text) : runes (encodeRune r ++ s) = r :: runes s := by
  have hs := sequence_encodeRune h
  cases hr : encodeRune r with
  | nil => exact absurd hr (encodeRune_ne_nil r)
  | cons b tail =>
    rw [hr] at hs
    rw [cons_append, runes_cons, hs.decodeRune_eq s, Nat.add_sub_cancel, drop_left]

theorem runes_encode {rs : List ℕ} (h : ∀ r ∈ rs, IsScalar r) : runes (encode rs) = rs := by
  induction rs with
  | nil => rfl
  | cons r rs ih =>
    rw [forall_mem_cons] at h
    rw [encode, flatMap_cons, runes_encodeRune_append h.1, ← encode, ih h.2]

theorem decodeRune_isScalar (b : UInt8) (rest : Text) : IsScalar (decodeRune b rest).1 := by
  have h := decodes_decodeRune b rest
  generalize decodeRune b rest = x at h
  cases h with
  | sequence hs => exact hs.isScalar
  | error =>
    unfold IsScalar runeError maxRune
    omega

theorem runes_isScalar (s : Text) : ∀ r ∈ runes s, IsScalar r := by
  induction hn : s.length using Nat.strongRecOn generalizing s with
  | ind n ih =>
    cases s with
    | nil => simp [runes, runesFrom]
    | cons b rest =>
      rw [runes_cons, forall_mem_cons]
      rw [length_cons] at hn
      exact ⟨decodeRune_isScalar b rest, ih _ (by simp; omega) _ rfl⟩

theorem encodeRune_isPrefix {s : Text} {r : ℕ} {rs : List ℕ} (h : runes s = r :: rs) (hr : r ≠ runeError) :
    encodeRune r <+: s := by
  cases s with
  | nil => simp [runes, runesFrom] at h
  | cons b rest =>
    rw [runes_cons, cons.injEq] at h
    have hd := decodes_decodeRune b rest
    generalize decodeRune b rest = x at h hd
    cases hd with
    | sequence hs hbegins =>
      rw [← h.1, hs.encodeRune_eq]
      exact hbegins
    | error => exact absurd h.1.symm hr

end Runes

def spaceRunes : List ℕ :=
  [0x09, 0x0A, 0x0B, 0x0C, 0x0D, 0x20, 0x85, 0xA0, 0x1680, 0x2028, 0x2029, 0x202F, 0x205F, 0x3000] ++
    (range 11).map fun i => 0x2000 + i

theorem spaces_eq : spaces = spaceRunes.map encodeRune := by decide

/-- What the table of lower-case letters is known for: lowering twice is lowering once, no rune becomes an invalid one,
and none becomes a space. -/
structure Unicode.Regular (u : Unicode) : Prop where
  idempotent : ∀ r, u.toLower (u.toLower r) = u.toLower r
  scalar : ∀ r, IsScalar r → IsScalar (u.toLower r)
  space : ∀ r, u.toLower r ∈ spaceRunes → r ∈ spaceRunes

theorem Unicode.basic_regular : Unicode.basic.Regular where
  idempotent r := by
    unfold Unicode.basic
    dsimp only
    split_ifs <;> omega
  scalar r h := by
    unfold Unicode.basic IsScalar at *
    dsimp only
    split_ifs <;> omega
  space r h := by
    have hsmall : ∀ r < 123, Unicode.basic.toLower r ∈ spaceRunes → r ∈ spaceRunes := by decide
    by_cases hr : r < 123
    · exact hsmall r hr h
    · have hsame : Unicode.basic.toLower r = r := if_neg (by omega)
      rwa [hsame] at h

section Lower

variable (u : Unicode)

theorem lowerASCII_lowerASCII (b : UInt8) : lowerASCII (lowerASCII b) = lowerASCII b := by
  unfold lowerASCII
  simp only [UInt8.le_iff_toNat_le, UInt8.reduceToNat]
  split_ifs with h h'
  · simp only [UInt8.toNat_add, UInt8.reduceToNat] at h'
    omega
  · rfl
  · rfl

theorem map_lowerASCII_idem (s : Text) : (s.map lowerASCII).map lowerASCII = s.map lowerASCII := by
  rw [map_map]
  exact map_congr_left fun b _ => lowerASCII_lowerASCII b

theorem isASCII_of_isInfix {s t : Text} (h : isASCII s = true) (ht : t <:+: s) : isASCII t = true :=
  all_eq_true.mpr fun b hb => all_eq_true.mp h b (ht.subset hb)

theorem isASCII_lower {s : Text} (h : isASCII s = true) : isASCII (s.map lowerASCII) = true := by
  rw [isASCII, all_map, all_eq_true]
  intro b hb
  have hlt := of_decide_eq_true (all_eq_true.mp h b hb)
  rw [Function.comp_apply, decide_eq_true_eq, lowerASCII]
  simp only [runeSelf, UInt8.lt_iff_toNat_lt, UInt8.le_iff_toNat_le, UInt8.reduceToNat] at hlt ⊢
  split_ifs with hupper
  · simp only [UInt8.toNat_add, UInt8.reduceToNat]
    omega
  · exact hlt

theorem decodeRune_ascii {b : UInt8} (h : b < runeSelf) (rest : Text) : decodeRune b rest = (b.toNat, 1) := if_pos h

theorem encodeRune_toLower {b : UInt8} (h : b < runeSelf) : encodeRune (u.toLower b.toNat) = [lowerASCII b] := by
  have hb := (runeSelf_iff b).mp h
  have hlower : u.toLower b.toNat = (lowerASCII b).toNat ∧ (lowerASCII b).toNat < 0x80 := by
    rw [u.ascii _ hb, lowerASCII]
    simp only [UInt8.le_iff_toNat_le, UInt8.reduceToNat]
    split_ifs with hu
    · simp only [UInt8.toNat_add, UInt8.reduceToNat]
      omega
    · exact ⟨rfl, hb⟩
  rw [hlower.1, encodeRune, if_pos hlower.2, UInt8.ofNat_toNat]

theorem toLower_eq (s : Text) : toLower u s = encode ((runes s).map u.toLower) := by
  unfold toLower encode
  rw [flatMap_map]
  split_ifs with h
  · induction s with
    | nil => rfl
    | cons b rest ih =>
      rw [isASCII, all_cons, Bool.and_eq_true] at h
      have hb := of_decide_eq_true h.1
      rw [runes_cons, decodeRune_ascii hb, Nat.sub_self, drop_zero, flatMap_cons, encodeRune_toLower u hb, ← ih h.2]
      rfl
  · rfl

theorem toLower_append_ascii {a : Text} (h : isASCII a = true) (s : Text) :
    toLower u (a ++ s) = a.map lowerASCII ++ toLower u s := by
  rw [toLower_eq, toLower_eq]
  induction a with
  | nil => rfl
  | cons b rest ih =>
    rw [isASCII, all_cons, Bool.and_eq_true] at h
    have hb := of_decide_eq_true h.1
    rw [cons_append, runes_cons, decodeRune_ascii hb, Nat.sub_self, drop_zero, map_cons, encode,
      flatMap_cons, encodeRune_toLower u hb]
    exact congrArg (lowerASCII b :: ·) (ih h.2)

theorem toLower_encode {rs : List ℕ} (h : ∀ r ∈ rs, IsScalar r ∧ u.toLower r = r) : toLower u (encode rs) = encode rs := by
  have hmap : rs.map u.toLower = rs.map id := map_congr_left fun r hr => (h r hr).2
  rw [toLower_eq, runes_encode fun r hr => (h r hr).1, hmap, map_id]

end Lower

section Trim

theorem trimLeftFrom_clear (fuel : ℕ) (s : Text) (h : s.length ≤ fuel) : ∀ w ∈ spaces, ¬w <+: trimLeftFrom fuel s := by
  induction fuel generalizing s with
  | zero =>
    intro w hw hbegins
    have hnonempty : ∀ w ∈ spaces, w ≠ [] := by decide
    rw [trimLeftFrom, eq_nil_of_length_eq_zero (Nat.le_zero.mp h), prefix_nil] at hbegins
    exact hnonempty w hw hbegins
  | succ fuel ih =>
    rw [trimLeftFrom]
    split
    · rename_i hnone
      intro w hw hbegins
      rw [find?_eq_none] at hnone
      have hfound := isPrefixOf_iff_prefix.mpr hbegins
      exact hnone w hw hfound
    · rename_i w hw
      have hlong : ∀ w ∈ spaces, 1 ≤ w.length := by decide
      have hlen := hlong w (mem_of_find?_eq_some hw)
      exact ih _ (by rw [length_drop]; omega)

theorem trimRightFrom_isPrefix (fuel : ℕ) (s : Text) : trimRightFrom fuel s <+: s := by
  induction fuel generalizing s with
  | zero => exact prefix_rfl
  | succ fuel ih =>
    rw [trimRightFrom]
    split
    · exact prefix_rfl
    · exact (ih _).trans ⟨_, take_append_drop _ _⟩

theorem trimLeftFrom_isSuffix (fuel : ℕ) (s : Text) : trimLeftFrom fuel s <:+ s := by
  induction fuel generalizing s with
  | zero => exact suffix_rfl
  | succ fuel ih =>
    rw [trimLeftFrom]
    split
    · exact suffix_rfl
    · exact (ih _).trans (drop_suffix _ _)

theorem trimSpace_isInfix (s : Text) : trimSpace s <:+: s :=
  (trimRightFrom_isPrefix _ _).isInfix.trans (trimLeftFrom_isSuffix _ _).isInfix

theorem trimSpace_clear (s : Text) : ∀ w ∈ spaces, ¬w <+: trimSpace s := by
  intro w hw hbegins
  exact trimLeftFrom_clear s.length s (Nat.le_refl _) w hw (hbegins.trans (trimRightFrom_isPrefix _ _))

theorem trimSpace_eq_self {s : Text} (hleft : ∀ w ∈ spaces, ¬w <+: s) (hright : ∀ w ∈ spaces, ¬w <:+ s) :
    trimSpace s = s := by
  have hl : spaces.find? (fun w => w.isPrefixOf s) = none := by
    rw [find?_eq_none]
    intro w hw hfound
    apply hleft w hw
    exact isPrefixOf_iff_prefix.mp hfound
  have hr : spaces.find? (fun w => w.isSuffixOf s) = none :=
    find?_eq_none.mpr fun w hw h => hright w hw (isSuffixOf_iff_suffix.mp h)
  have htrim : ∀ fuel, trimLeftFrom fuel s = s ∧ trimRightFrom fuel s = s := by
    intro fuel
    cases fuel with
    | zero => exact ⟨rfl, rfl⟩
    | succ fuel => rw [trimLeftFrom, trimRightFrom, hl, hr]; exact ⟨rfl, rfl⟩
  rw [trimSpace, (htrim _).1]
  exact (htrim _).2

theorem clear_iff (s : Text) : (∀ w ∈ spaces, ¬w <+: s) ↔ ∀ r ∈ (runes s).head?, r ∉ spaceRunes := by
  rw [spaces_eq, forall_mem_map]
  have hscalar : ∀ r ∈ spaceRunes, r < 0xD800 ∧ r ≠ runeError := by decide
  constructor
  · intro h r hr hspace
    obtain ⟨rs, hrs⟩ := head?_eq_some_iff.mp hr
    exact h r hspace (encodeRune_isPrefix hrs (hscalar r hspace).2)
  · rintro h r hspace ⟨t, rfl⟩
    rw [runes_encodeRune_append (.inl (hscalar r hspace).1)] at h
    exact h r rfl hspace

theorem space_of_ascii {w s : Text} (hw : w ∈ spaces) (hs : isASCII s = true) (h : w <:+: s) :
    ∃ b, w = [b] ∧ b.toNat ≤ 0x20 := by
  have hsmall : ∀ w ∈ spaces, isASCII w = true → ∃ b ∈ w.head?, w = [b] ∧ b.toNat ≤ 0x20 := by decide +kernel
  obtain ⟨b, -, heq, hle⟩ := hsmall w hw (isASCII_of_isInfix hs h)
  exact ⟨b, heq, hle⟩

theorem trimSpace_of_graphic {s : Text} (hs : isASCII s = true) (h : ∀ b ∈ s, 0x20 < b.toNat) : trimSpace s = s := by
  have hclear : ∀ w ∈ spaces, ¬w <:+: s := by
    intro w hw hinside
    obtain ⟨b, rfl, hle⟩ := space_of_ascii hw hs hinside
    exact Nat.not_lt.mpr hle (h b (hinside.subset mem_cons_self))
  apply trimSpace_eq_self
  · exact fun w hw hbegins => hclear w hw hbegins.isInfix
  · exact fun w hw hends => hclear w hw hends.isInfix

end Trim

section Suffix

variable {b : UInt8}

theorem hasSuffix_singleton (s : Text) : hasSuffix s [b] = true ↔ ∃ t, s = t ++ [b] := by
  rw [hasSuffix, isSuffixOf_iff_suffix]
  constructor
  · rintro ⟨t, rfl⟩
    exact ⟨t, rfl⟩
  · rintro ⟨t, rfl⟩
    exact ⟨t, rfl⟩

theorem trimSuffix_concat (s : Text) : trimSuffix (s ++ [b]) [b] = s := by
  rw [trimSuffix, if_pos ((hasSuffix_singleton _).mpr ⟨s, rfl⟩)]
  simp

end Suffix

section Lengths

theorem encodeRune_length_le (r : ℕ) : (encodeRune r).length ≤ 4 := by
  unfold encodeRune
  split_ifs <;> simp

theorem encode_length_le (rs : List ℕ) : (encode rs).length ≤ 4 * rs.length := by
  induction rs with
  | nil => exact Nat.zero_le _
  | cons r rs ih =>
    have hr := encodeRune_length_le r
    rw [encode, flatMap_cons, length_append, length_cons, Nat.mul_succ, ← encode]
    omega

theorem runesFrom_length_le (fuel : ℕ) (s : Text) : (runesFrom fuel s).length ≤ fuel := by
  induction fuel generalizing s with
  | zero => exact Nat.le_refl _
  | succ fuel ih =>
    cases s with
    | nil => exact Nat.zero_le _
    | cons b rest => exact Nat.succ_le_succ (ih _)

theorem toLower_length_le (u : Unicode) (s : Text) : (toLower u s).length ≤ 4 * s.length := by
  have hrunes : (runes s).length ≤ s.length := runesFrom_length_le _ s
  rw [toLower_eq]
  apply Nat.le_trans (encode_length_le _)
  rw [length_map]
  exact Nat.mul_le_mul_left _ hrunes

theorem trimSpace_length_le (s : Text) : (trimSpace s).length ≤ s.length := (trimSpace_isInfix s).length_le

end Lengths

end GoStrings
