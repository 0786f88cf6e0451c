import Kdns.Lib.GoFormat

/-! What `strings.Fields` finds: the parts of a text that have no white space in them. -/

namespace GoStrings

open List

def Unspaced (s : Text) : Prop := ∀ w ∈ spaces, ¬w <:+: s

def Breaks (s : Text) : Prop := s = [] ∨ ∃ b rest, s = b :: rest ∧ [b] ∈ spaces

def fieldsWith (current s : Text) : List Text := fieldsFrom (s.length + 1) current s

variable {w s current : Text} {b : UInt8}

section Equations

theorem space_length (h : w ∈ spaces) : 1 ≤ w.length := by
  have hpos : ∀ w ∈ spaces, 1 ≤ w.length := by decide
  exact hpos w h

theorem fieldsFrom_fuel (fuel : ℕ) (current s : Text) (h : s.length < fuel) :
    fieldsFrom fuel current s = fieldsWith current s := by
  induction fuel using Nat.strongRecOn generalizing current s with
  | _ fuel ih =>
    obtain ⟨fuel, rfl⟩ : ∃ k, fuel = k + 1 := ⟨fuel - 1, by omega⟩
    cases s with
    | nil => rfl
    | cons b rest =>
      rw [length_cons] at h
      rw [fieldsWith, length_cons, fieldsFrom, fieldsFrom]
      cases hfind : spaces.find? fun w => w.isPrefixOf (b :: rest) with
      | none =>
        rw [ih fuel (Nat.lt_succ_self _) _ rest (by omega), ← fieldsWith]
      | some w =>
        have hpos := space_length (mem_of_find?_eq_some hfind)
        have hlen : ((b :: rest).drop w.length).length ≤ rest.length := by
          rw [length_drop, length_cons]
          omega
        dsimp only
        rw [ih fuel (Nat.lt_succ_self _) [] _ (by omega), ih (rest.length + 1) (by omega) [] _ (by omega)]

theorem fieldsWith_nil (current : Text) : fieldsWith current [] = if current = [] then [] else [current] := rfl

theorem fieldsWith_byte {rest : Text} (h : ∀ w ∈ spaces, ¬w <+: b :: rest) (current : Text) :
    fieldsWith current (b :: rest) = fieldsWith (current ++ [b]) rest := by
  have hfind : (spaces.find? fun w => w.isPrefixOf (b :: rest)) = none := by
    rw [find?_eq_none]
    intro w hw hfound
    apply h w hw
    exact isPrefixOf_iff_prefix.mp hfound
  rw [fieldsWith, length_cons, fieldsFrom, hfind]
  rfl

theorem find_space (hw : w ∈ spaces) (rest : Text) : (spaces.find? fun w' => w'.isPrefixOf (w ++ rest)) = some w := by
  have hfree : ∀ w ∈ spaces, ∀ w' ∈ spaces, w <+: w' → w = w' := by decide +kernel
  cases hfind : spaces.find? fun w' => w'.isPrefixOf (w ++ rest) with
  | none =>
    have hnot := find?_eq_none.mp hfind w hw
    have hfound := isPrefixOf_iff_prefix.mpr (prefix_append w rest)
    exact absurd hfound hnot
  | some w' =>
    have hw' := mem_of_find?_eq_some hfind
    have hfound : w'.isPrefixOf (w ++ rest) = true := by simpa using find?_some hfind
    have hbegins := isPrefixOf_iff_prefix.mp hfound
    rcases prefix_or_prefix_of_prefix hbegins (prefix_append w rest) with h | h
    · rw [hfree w' hw' w hw h]
    · rw [hfree w hw w' hw' h]

theorem fieldsWith_spaces (hw : w ∈ spaces) (current rest : Text) :
    fieldsWith current (w ++ rest) = (if current = [] then [] else [current]) ++ fields rest := by
  have hfind := find_space hw rest
  obtain ⟨b, w', rfl⟩ := exists_cons_of_length_pos (space_length hw)
  rw [cons_append] at hfind
  rw [fieldsWith, cons_append, length_cons, fieldsFrom, hfind]
  dsimp only
  rw [← cons_append, drop_left, fieldsFrom_fuel _ _ _ (by rw [length_append]; omega)]
  rfl

theorem fieldsWith_space (hb : [b] ∈ spaces) (current rest : Text) :
    fieldsWith current (b :: rest) = (if current = [] then [] else [current]) ++ fields rest :=
  fieldsWith_spaces hb current rest

end Equations

section Words

variable {p tail : Text}

theorem Unspaced.of_isInfix (h : Unspaced s) (hp : p <:+: s) : Unspaced p :=
  fun w hw hin => h w hw (hin.trans hp)

theorem Unspaced.clear (h : Unspaced p) (htail : Breaks tail) (hp : p ≠ []) : ∀ w ∈ spaces, ¬w <+: p ++ tail := by
  rintro w hw ⟨t, ht⟩
  rcases append_eq_append_iff.mp ht with ⟨rest, hrest, -⟩ | ⟨rest, hrest, htail'⟩
  · exact h w hw ⟨[], rest, by rw [nil_append, hrest]⟩
  · -- A word that goes on behind `p` would be white space of several bytes with a blank among them.
    have hsingle : ∀ w ∈ spaces, ∀ b ∈ w, [b] ∈ spaces → w.length = 1 := by decide +kernel
    cases rest with
    | nil =>
      rw [append_nil] at hrest
      exact h w hw ⟨[], [], by rw [nil_append, append_nil, hrest]⟩
    | cons b rest =>
      have hb : [b] ∈ spaces := by
        rcases htail with hnil | ⟨c, tail', hcons, hc⟩
        · rw [hnil] at htail'
          cases htail'
        · rw [hcons] at htail'
          exact (cons.inj htail').1 ▸ hc
      have hlen := hsingle w hw b (hrest ▸ mem_append_right p mem_cons_self) hb
      have hpos := length_pos_of_ne_nil hp
      rw [hrest, length_append, length_cons] at hlen
      omega

theorem fieldsWith_word (h : Unspaced p) (htail : Breaks tail) (current : Text) :
    fieldsWith current (p ++ tail) = fieldsWith (current ++ p) tail := by
  induction p generalizing current with
  | nil => rw [nil_append, append_nil]
  | cons b p ih =>
    have hclear := h.clear htail (cons_ne_nil b p)
    rw [cons_append] at hclear ⊢
    rw [fieldsWith_byte hclear, ih (h.of_isInfix (suffix_cons b p).isInfix), append_assoc, singleton_append]

theorem fields_word (h : Unspaced p) (hp : p ≠ []) : fields p = [p] := by
  have heq := fieldsWith_word h (.inl rfl) []
  rwa [append_nil, nil_append, fieldsWith_nil, if_neg hp] at heq

theorem fields_cons (h : Unspaced p) (hp : p ≠ []) (hb : [b] ∈ spaces) (s : Text) :
    fields (p ++ b :: s) = p :: fields s := by
  have heq := fieldsWith_word h (.inr ⟨b, s, rfl, hb⟩) []
  rwa [nil_append, fieldsWith_space hb, if_neg hp] at heq

theorem fields_intercalate {words : List Text} (h : ∀ p ∈ words, p ≠ [] ∧ Unspaced p) :
    fields ([0x20].intercalate words) = words := by
  induction words with
  | nil => rfl
  | cons p words ih =>
    obtain ⟨hp, hclear⟩ := h p mem_cons_self
    cases words with
    | nil => rw [intercalate_singleton, fields_word hclear hp]
    | cons q words =>
      rw [intercalate_cons_cons, append_assoc, singleton_append, fields_cons hclear hp (by decide),
        ih fun p' hp' => h p' (mem_cons_of_mem p hp')]

end Words

section Found

def Open (current s : Text) : Prop := ∀ x, x <:+ current → x ≠ [] → ∀ w ∈ spaces, ¬w <+: x ++ s

theorem Open.unspaced (h : Open current s) : Unspaced current := by
  rintro w hw ⟨front, back, hsplit⟩
  apply h (w ++ back) ⟨front, by rw [← append_assoc, hsplit]⟩ _ w hw
  · rw [append_assoc]
    exact prefix_append w _
  · intro hnil
    have hlen := space_length hw
    rw [(append_eq_nil_iff.mp hnil).1] at hlen
    exact absurd hlen (by decide)

theorem Open.push {rest : Text} (h : Open current (b :: rest)) (hb : ∀ w ∈ spaces, ¬w <+: b :: rest) :
    Open (current ++ [b]) rest := by
  intro x hx hne w hw
  obtain ⟨front, last, rfl⟩ : ∃ front last, x = front ++ [last] := ⟨_, _, (dropLast_append_getLast hne).symm⟩
  obtain ⟨y, hy⟩ := hx
  rw [← append_assoc] at hy
  obtain ⟨hfront, hlast⟩ := append_inj' hy rfl
  obtain rfl := singleton_inj.mp hlast
  rw [append_assoc, singleton_append]
  by_cases hnil : front = []
  · rw [hnil, nil_append]
    exact hb w hw
  · exact h front ⟨y, hfront⟩ hnil w hw

theorem Open.emitted {p : Text} (h : Open current s) (hp : p ∈ if current = [] then [] else [current]) :
    p ≠ [] ∧ Unspaced p := by
  split_ifs at hp with hne
  · cases hp
  · rw [mem_singleton] at hp
    exact hp ▸ ⟨hne, h.unspaced⟩

theorem mem_fieldsFrom {fuel : ℕ} {p : Text} (h : Open current s) (hp : p ∈ fieldsFrom fuel current s) :
    p ≠ [] ∧ Unspaced p := by
  induction fuel generalizing current s with
  | zero => cases hp
  | succ fuel ih =>
    cases s with
    | nil => exact h.emitted hp
    | cons b rest =>
      rw [fieldsFrom] at hp
      cases hfind : spaces.find? fun w => w.isPrefixOf (b :: rest) with
      | none =>
        rw [hfind] at hp
        have hclear : ∀ w ∈ spaces, ¬w <+: b :: rest := by
          intro w hw hbegins
          have hfound := isPrefixOf_iff_prefix.mpr hbegins
          exact find?_eq_none.mp hfind w hw hfound
        exact ih (h.push hclear) hp
      | some w =>
        rw [hfind] at hp
        rcases mem_append.mp hp with hp | hp
        · exact h.emitted hp
        · refine ih (fun x hx hne => ?_) hp
          exact absurd (suffix_nil.mp hx) hne

theorem mem_fields {p : Text} (h : p ∈ fields s) : p ≠ [] ∧ Unspaced p :=
  mem_fieldsFrom (fun _ hx hne => absurd (suffix_nil.mp hx) hne) h

end Found

section Trimmed

theorem fieldsWith_append_space (hw : w ∈ spaces) (current t : Text) :
    fieldsWith current (t ++ w) = fieldsWith current t := by
  induction ht : t.length using Nat.strongRecOn generalizing current t with
  | _ n ih =>
    by_cases hbegins : ∃ w' ∈ spaces, w' <+: t
    · obtain ⟨w', hw', rest, rfl⟩ := hbegins
      have hpos := space_length hw'
      rw [length_append] at ht
      rw [append_assoc, fieldsWith_spaces hw', fieldsWith_spaces hw']
      congr 1
      exact ih rest.length (by omega) [] rest rfl
    · cases t with
      | nil =>
        have heq := fieldsWith_spaces hw current []
        rw [append_nil] at heq
        rw [nil_append, heq, fieldsWith_nil]
        exact append_nil _
      | cons b t =>
        have hclear : ∀ w' ∈ spaces, ¬w' <+: b :: (t ++ w) := by
          -- white space that reaches over the end of `t` would have the first byte of `w` inside
          have hinner : ∀ w' ∈ spaces, ∀ w ∈ spaces, ∀ b ∈ w.head?, b ∉ w'.tail := by decide +kernel
          intro w' hw' hin
          rw [← cons_append] at hin
          obtain ⟨y, hy⟩ := hin
          rcases append_eq_append_iff.mp hy with ⟨x, hx, -⟩ | ⟨x, hx, hx'⟩
          · exact hbegins ⟨w', hw', x, hx.symm⟩
          · cases x with
            | nil => grind
            | cons c x =>
              have hmem : c ∈ w'.tail := by grind
              exact hinner w' hw' w hw c (by rw [hx']; rfl) hmem
        rw [cons_append, fieldsWith_byte hclear, fieldsWith_byte fun w' hw' hin => hbegins ⟨w', hw', hin⟩]
        exact ih t.length (by rw [← ht, length_cons]; omega) _ t rfl

theorem fields_trimLeftFrom (fuel : ℕ) (s : Text) : fields (trimLeftFrom fuel s) = fields s := by
  induction fuel generalizing s with
  | zero => rfl
  | succ fuel ih =>
    rw [trimLeftFrom]
    split
    · rfl
    · next w hfind =>
      have hw := mem_of_find?_eq_some hfind
      have hbegins : w.isPrefixOf s = true := by simpa using find?_some hfind
      obtain ⟨rest, rfl⟩ := isPrefixOf_iff_prefix.mp hbegins
      rw [ih, drop_left]
      exact (fieldsWith_spaces hw [] rest).symm

theorem fields_trimRightFrom (fuel : ℕ) (s : Text) : fields (trimRightFrom fuel s) = fields s := by
  induction fuel generalizing s with
  | zero => rfl
  | succ fuel ih =>
    rw [trimRightFrom]
    split
    · rfl
    · next w hfind =>
      have hw := mem_of_find?_eq_some hfind
      have hends : w.isSuffixOf s = true := by simpa using find?_some hfind
      obtain ⟨t, rfl⟩ := isSuffixOf_iff_suffix.mp hends
      rw [ih, length_append, Nat.add_sub_cancel, take_left]
      exact (fieldsWith_append_space hw [] t).symm

theorem fields_trimSpace (s : Text) : fields (trimSpace s) = fields s := by
  rw [trimSpace, fields_trimRightFrom, fields_trimLeftFrom]

end Trimmed

section Bytes

theorem fieldsFrom_subset {fuel : ℕ} {p : Text} (hp : p ∈ fieldsFrom fuel current s) : ∀ b ∈ p, b ∈ current ∨ b ∈ s := by
  have hemitted : ∀ current : Text, p ∈ (if current = [] then [] else [current]) → p = current := by simp
  intro b hb
  induction fuel generalizing current s with
  | zero => cases hp
  | succ fuel ih =>
    cases s with
    | nil => exact .inl (hemitted current hp ▸ hb)
    | cons c rest =>
      rw [fieldsFrom] at hp
      split at hp
      · have := ih hp
        simp only [mem_append, mem_cons, not_mem_nil, or_false] at this ⊢
        tauto
      · rcases mem_append.mp hp with hp | hp
        · exact .inl (hemitted current hp ▸ hb)
        · exact .inr (mem_of_mem_drop ((ih hp).resolve_left not_mem_nil))

theorem fields_subset {p : Text} (hp : p ∈ fields s) : ∀ b ∈ p, b ∈ s :=
  fun b hb => (fieldsFrom_subset hp b hb).resolve_left not_mem_nil

theorem unspaced_of_graphic (h : ∀ b ∈ s, 0x20 < b.toNat ∧ b.toNat < 0x7F) : Unspaced s := by
  have hfirst : ∀ w ∈ spaces, ∀ b ∈ w.head?, b.toNat ≤ 0x20 ∨ 0x7F ≤ b.toNat := by decide +kernel
  intro w hw hin
  cases w with
  | nil => exact absurd (space_length hw) (by decide)
  | cons b w =>
    have hb := h b (hin.subset mem_cons_self)
    have hspace := hfirst _ hw b rfl
    omega

theorem hexValue_graphic (h : (hexValue b).isSome = true) : 0x20 < b.toNat ∧ b.toNat < 0x7F := by
  unfold hexValue at h
  split_ifs at h
  · omega
  · omega
  · omega
  · cases h

theorem formatUint_graphic {n : ℕ} (h : b ∈ formatUint n) : 0x20 < b.toNat ∧ b.toNat < 0x7F := by
  have hdigit := all_eq_true.mp (formatUint_digits n) b h
  simp only [isDigit, Bool.and_eq_true, decide_eq_true_eq, UInt8.le_iff_toNat_le] at hdigit
  have hlow : (0x30 : UInt8).toNat = 48 := rfl
  have hhigh : (0x39 : UInt8).toNat = 57 := rfl
  omega

theorem Unspaced.not_mem (h : Unspaced s) (hb : [b] ∈ spaces) : b ∉ s := by
  intro hmem
  obtain ⟨front, back, hsplit⟩ := append_of_mem hmem
  exact h [b] hb ⟨front, back, by rw [hsplit, append_assoc, singleton_append]⟩

theorem unspaced_append_cons {a b : Text} {d : UInt8} (ha : Unspaced a) (hb : Unspaced b) (hd : ∀ w ∈ spaces, d ∉ w) :
    Unspaced (a ++ d :: b) := by
  rintro w hw ⟨front, back, hsplit⟩
  rw [append_assoc] at hsplit
  rcases append_eq_append_iff.mp hsplit with ⟨rest, hrest, hback⟩ | ⟨rest, hrest, hback⟩
  · rcases append_eq_append_iff.mp hback with ⟨x, hx, -⟩ | ⟨x, hx, hd'⟩
    · exact ha w hw ⟨front, x, by rw [hrest, hx, append_assoc]⟩
    · cases x with
      | nil =>
        rw [append_nil] at hx
        exact ha w hw ⟨front, [], by rw [hrest, hx, append_nil]⟩
      | cons c x => grind
  · cases rest with
    | nil =>
      cases w with
      | nil => exact absurd (space_length hw) (by decide)
      | cons c w => grind
    | cons c rest =>
      exact hb w hw ⟨rest, back, by rw [append_assoc]; exact (cons.inj hback).2.symm⟩

end Bytes

end GoStrings
