import Kdns.Lib.GoFormat
import Kdns.Lib.GoRunes

/-! Where the quotes of a quotation are. -/

namespace GoStrings

open List

theorem quote_of_mem_encodeRune {r : ℕ} (hr : IsScalar r) (h : quoteByte ∈ encodeRune r) : r = 0x22 := by
  have hquote : quoteByte.toNat = 0x22 := rfl
  have hseq := sequence_encodeRune hr
  generalize encodeRune r = s at h hseq
  cases hseq with
  | one b hb =>
    rw [mem_singleton] at h
    rw [← h, hquote]
  | two b c => grind
  | three b c d => grind
  | four b c d e => grind

theorem hexDigit_ne_quote (n : ℕ) : hexDigit (n % 16) ≠ quoteByte := by
  have h : ∀ n < 16, hexDigit n ≠ quoteByte := by decide
  exact h _ (Nat.mod_lt n (by decide))

theorem quote_not_mem_hexDigits (width r : ℕ) : quoteByte ∉ hexDigits width r := by
  induction width with
  | zero => exact not_mem_nil
  | succ width ih =>
    rw [hexDigits, mem_cons, not_or]
    exact ⟨(hexDigit_ne_quote _).symm, ih⟩

theorem escapeRune_quote (t : Printing) {r : ℕ} (hr : IsScalar r) :
    escapeRune t r ≠ [] ∧ (escapeRune t r).head? ≠ some quoteByte ∧ (quoteByte ∈ escapeRune t r → r = 0x22) := by
  have hback : backslashByte ≠ quoteByte := by decide
  have hescape : ∀ s : Text, quoteByte ∉ s → (backslashByte :: s ≠ []) ∧ (backslashByte :: s).head? ≠ some quoteByte ∧
      (quoteByte ∈ backslashByte :: s → r = 0x22) := by
    intro s hs
    refine ⟨cons_ne_nil _ _, by simp [hback], fun hmem => ?_⟩
    rcases mem_cons.mp hmem with heq | hmem
    · exact absurd heq hback.symm
    · exact absurd hmem hs
  unfold escapeRune
  by_cases hspecial : r = 0x22 ∨ r = 0x5C
  · rw [if_pos hspecial]
    refine ⟨cons_ne_nil _ _, by simp [hback], fun hmem => ?_⟩
    rcases hspecial with heq | rfl
    · exact heq
    · exact absurd hmem (by decide)
  rw [if_neg hspecial]
  have hne : r ≠ 0x22 := fun h => hspecial (.inl h)
  by_cases hprint : t.isPrint r = true
  · rw [if_pos hprint]
    refine ⟨encodeRune_ne_nil r, fun hhead => ?_, quote_of_mem_encodeRune hr⟩
    exact hne (quote_of_mem_encodeRune hr (mem_of_head? hhead))
  rw [if_neg hprint]
  cases hletter : escapeLetter r with
  | some letter =>
    have hletters : ∀ e ∈ ([(7, 0x61), (8, 0x62), (12, 0x66), (10, 0x6E), (13, 0x72), (9, 0x74), (11, 0x76)] : List (ℕ × UInt8)),
        e.2 ≠ quoteByte := by decide
    obtain ⟨front, back, hsplit, -⟩ := lookup_eq_some_iff.mp hletter
    have hmem := hletters (r, letter) (hsplit ▸ mem_append_right front mem_cons_self)
    exact hescape [letter] (by simpa using hmem.symm)
  | none =>
    have hdigits : ∀ (b : UInt8) (width : ℕ), b ≠ quoteByte → quoteByte ∉ b :: hexDigits width r := by
      intro b width hb hmem
      rcases mem_cons.mp hmem with heq | hmem
      · exact hb heq.symm
      · exact quote_not_mem_hexDigits width r hmem
    split_ifs
    · exact hescape _ (hdigits _ _ (by decide))
    · exact hescape _ (hdigits _ _ (by decide))
    · exact hescape _ (hdigits _ _ (by decide))

section Quoted

variable (t : Printing)

theorem quoteFrom_cons (fuel : ℕ) (b : UInt8) (rest : Text) :
    ∃ piece front back, b :: rest = front ++ back ∧ front ≠ [] ∧ quoteFrom t (fuel + 1) (b :: rest) = piece ++ quoteFrom t fuel back ∧
      piece ≠ [] ∧ piece.head? ≠ some quoteByte ∧ (quoteByte ∈ piece → front = [quoteByte]) := by
  have hdecodes := decodes_decodeRune b rest
  rw [quoteFrom]
  generalize decodeRune b rest = x at hdecodes
  cases hdecodes with
  | error =>
    refine ⟨backslashByte :: 0x78 :: hexDigits 2 b.toNat, [b], rest, rfl, cons_ne_nil _ _, if_pos ⟨rfl, rfl⟩,
      cons_ne_nil _ _, by rw [head?_cons]; decide, fun hmem => ?_⟩
    rcases mem_cons.mp hmem with heq | hmem
    · exact absurd heq (by decide)
    · rcases mem_cons.mp hmem with heq | hmem
      · exact absurd heq (by decide)
      · exact absurd hmem (quote_not_mem_hexDigits 2 _)
  | @sequence s r hs hbegins =>
    obtain ⟨back, hback⟩ := hbegins
    have hne : s ≠ [] := by cases hs <;> exact cons_ne_nil _ _
    have hnot : ¬(s.length = 1 ∧ r = runeError) := by
      rintro ⟨hlen, hr⟩
      have herror : runeError = 0xFFFD := rfl
      cases hs with
      | one b hb => omega
      | two => cases hlen
      | three => cases hlen
      | four => cases hlen
    have hdrop : rest.drop (s.length - 1) = back := by
      cases s with
      | nil => exact absurd rfl hne
      | cons c s => grind
    obtain ⟨hpiece, hhead, hquote⟩ := escapeRune_quote t hs.isScalar
    refine ⟨escapeRune t r, s, back, hback.symm, hne, ?_, hpiece, hhead, fun hmem => ?_⟩
    · rw [if_neg hnot, hdrop]
    · rw [← hs.encodeRune_eq, hquote hmem]
      rfl

theorem quoteFrom_head (fuel : ℕ) (s : Text) : (quoteFrom t fuel s).head? ≠ some quoteByte := by
  cases fuel with
  | zero => exact nofun
  | succ fuel =>
    cases s with
    | nil => exact nofun
    | cons b rest =>
      obtain ⟨piece, front, back, -, -, heq, hne, hhead, -⟩ := quoteFrom_cons t fuel b rest
      rwa [heq, head?_append_of_ne_nil _ hne]

theorem quoteFrom_eq_nil {fuel : ℕ} {s : Text} (hfuel : s.length ≤ fuel) (h : quoteFrom t fuel s = []) : s = [] := by
  cases s with
  | nil => rfl
  | cons b rest =>
    obtain ⟨fuel, rfl⟩ : ∃ k, fuel = k + 1 := ⟨fuel - 1, by rw [length_cons] at hfuel; omega⟩
    obtain ⟨piece, front, back, -, -, heq, hne, -⟩ := quoteFrom_cons t fuel b rest
    rw [heq] at h
    exact absurd (append_eq_nil_iff.mp h).1 hne

theorem quoteFrom_last {fuel : ℕ} {s : Text} (hfuel : s.length ≤ fuel) (h : s.getLast? ≠ some quoteByte) :
    (quoteFrom t fuel s).getLast? ≠ some quoteByte := by
  induction fuel generalizing s with
  | zero => exact nofun
  | succ fuel ih =>
    cases s with
    | nil => exact nofun
    | cons b rest =>
      obtain ⟨piece, front, back, hsplit, hfront, heq, hne, -, hquote⟩ := quoteFrom_cons t fuel b rest
      have hback : back.length ≤ fuel := by
        have hlen := congrArg length hsplit
        have hpos := length_pos_of_ne_nil hfront
        rw [length_append] at hlen
        omega
      rw [heq, getLast?_append]
      rw [hsplit, getLast?_append] at h
      cases hlast : (quoteFrom t fuel back).getLast? with
      | some last =>
        apply hlast ▸ ih hback
        intro hend
        rw [hend, Option.some_or] at h
        exact h rfl
      | none =>
        rw [quoteFrom_eq_nil t hback (getLast?_eq_none_iff.mp hlast), getLast?_nil, Option.none_or] at h
        intro hpiece
        rw [hquote (mem_of_getLast? hpiece)] at h
        exact h rfl

end Quoted

end GoStrings
