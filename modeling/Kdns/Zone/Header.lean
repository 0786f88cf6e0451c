import Kdns.Lib.GoRunes
import Kdns.Zone.Parser

namespace Kdns.Zone

open ByteStream Dns Wire List
open GoStrings hiding Text

variable {s t : Text} {r : Roles}

section Spelling

theorem isDigit_iff (b : UInt8) : isDigit b = true ↔ 0x30 ≤ b.toNat ∧ b.toNat ≤ 0x39 := by
  simp [isDigit, UInt8.le_iff_toNat_le]

theorem lowerASCII_digit {b : UInt8} (h : isDigit b = true) : lowerASCII b = b := by
  rw [isDigit_iff] at h
  rw [lowerASCII, if_neg]
  simp only [UInt8.le_iff_toNat_le, UInt8.reduceToNat]
  omega

theorem isDigit_lowerASCII (b : UInt8) : isDigit (lowerASCII b) = isDigit b := by
  by_cases h : isDigit b = true
  · rw [lowerASCII_digit h]
  · rw [Bool.eq_iff_iff]
    refine iff_of_false ?_ h
    rw [isDigit_iff] at h ⊢
    unfold lowerASCII
    simp only [UInt8.le_iff_toNat_le, UInt8.reduceToNat]
    split_ifs with hu
    · simp only [UInt8.toNat_add, UInt8.reduceToNat]
      omega
    · exact h

theorem parseUint_lower (s : Text) (bits : ℕ) : parseUint (s.map lowerASCII) bits = parseUint s bits := by
  have hall : (s.map lowerASCII).all isDigit = s.all isDigit := by
    rw [all_map]
    congr 1
    funext b
    exact isDigit_lowerASCII b
  unfold parseUint
  simp only [hall, map_eq_nil_iff]
  by_cases hs : s = [] ∨ ¬s.all isDigit
  · rw [if_pos hs, if_pos hs]
  · rw [if_neg hs, if_neg hs]
    rw [not_or, not_not] at hs
    have hsame : s.map lowerASCII = s.map id :=
      map_congr_left fun b hb => lowerASCII_digit (all_eq_true.mp hs.2 b hb)
    rw [hsame, map_id]

theorem parseTTL_lower (s : Text) : parseTTL (s.map lowerASCII) = parseTTL s := by
  unfold parseTTL
  rw [List.getLast?_map]
  cases s.getLast? with
  | none => rfl
  | some last =>
    have hunit : ttlUnit (lowerASCII last) = ttlUnit last := by rw [ttlUnit, lowerASCII_lowerASCII, ttlUnit]
    simp only [Option.map_some, hunit]
    cases ttlUnit last with
    | none => simp only [parseUint_lower]
    | some mult => simp only [← map_dropLast, parseUint_lower]

theorem parseTTL_congr (h : s.map lowerASCII = t.map lowerASCII) : parseTTL s = parseTTL t := by
  rw [← parseTTL_lower s, h, parseTTL_lower]

theorem parseClass_congr (h : s.map lowerASCII = t.map lowerASCII) : parseClass s = parseClass t := by
  rw [parseClass, equalFold, h, parseClass, equalFold]

theorem parseClass_iff (s : Text) : (parseClass s).isSome = true ↔ s.map lowerASCII = ascii "in" := by
  have hword : (ascii "IN").map lowerASCII = ascii "in" := by decide
  rw [parseClass, equalFold, hword]
  split_ifs with h
  · exact iff_of_true rfl (of_decide_eq_true h)
  · refine iff_of_false (by simp) fun hs => h (decide_eq_true hs)

theorem parseClass_eq {c : UInt16} (h : parseClass s = some c) : c = classIN := by
  rw [parseClass] at h
  split_ifs at h
  exact (Option.some.inj h).symm

theorem parseTTL_of_class (h : (parseClass s).isSome = true) : parseTTL s = none := by
  rw [← parseTTL_lower, (parseClass_iff s).mp h]
  decide

theorem parseClass_of_ttl (h : (parseTTL s).isSome = true) : parseClass s = none := by
  by_contra hne
  rw [parseTTL_of_class (Option.isSome_iff_ne_none.mpr hne)] at h
  cases h

end Spelling

section TypeIndex

variable {enc : Encoders} {tokens : List Text}

/-- A token that the backward search takes for the type, or for a type without RDATA. -/
def Misread (enc : Encoders) (tokens : List Text) (i : ℕ) : Prop :=
  ∃ tok qt, tokens[i]? = some tok ∧ isTypeToken enc tok = some qt ∧
    (i + 1 ≥ tokens.length ∨ isValidPrefix (tokens.take i) = true)

theorem Misread.lt {i : ℕ} (h : Misread enc tokens i) : i < tokens.length := by
  obtain ⟨tok, qt, htok, -⟩ := h
  exact (List.getElem?_eq_some_iff.mp htok).1

inductive Elsewhere (tokens : List Text) (k : ℕ) : Except ZoneError (ℕ × RRType) → Prop
  | missing (qt : RRType) : Elsewhere tokens k (.error (.missingRDataForType qt))
  | later {i : ℕ} {qt : RRType} (hk : k < i) (hi : i < tokens.length) (hvalid : isValidPrefix (tokens.take i) = true) :
      Elsewhere tokens k (.ok (i, qt))

theorem findTypeBelow_skip {n : ℕ} (h : ¬Misread enc tokens n) :
    findTypeBelow enc tokens (n + 1) = findTypeBelow enc tokens n := by
  rw [findTypeBelow]
  split
  · rfl
  · next qt hbind =>
    obtain ⟨tok, htok, htype⟩ := Option.bind_eq_some_iff.mp hbind
    have hright : ¬(n + 1 ≥ tokens.length ∨ isValidPrefix (tokens.take n) = true) :=
      fun hwrong => h ⟨tok, qt, htok, htype, hwrong⟩
    rw [not_or] at hright
    rw [if_neg hright.1, if_neg hright.2]

theorem findTypeBelow_misread {k n : ℕ} (hk : k < n) (h : Misread enc tokens n) :
    Elsewhere tokens k (findTypeBelow enc tokens (n + 1)) := by
  obtain ⟨tok, qt, htok, htype, hwrong⟩ := h
  rw [findTypeBelow, htok, Option.bind_some, htype]
  split_ifs with hend hvalid
  · exact .missing qt
  · exact .later hk (Nat.lt_of_succ_lt (Nat.lt_of_not_le hend)) hvalid
  · exact absurd (hwrong.resolve_left hend) hvalid

theorem findTypeBelow_cases {k : ℕ} {typ : Text} {qt : RRType} (htok : tokens[k]? = some typ)
    (htype : isTypeToken enc typ = some qt) (hvalid : isValidPrefix (tokens.take k) = true)
    (hlen : k + 1 < tokens.length) {n : ℕ} (hn : k < n) :
    (∀ i, k < i → i < n → ¬Misread enc tokens i) ∧ findTypeBelow enc tokens n = .ok (k, qt) ∨
      (∃ i, k < i ∧ i < n ∧ Misread enc tokens i) ∧ Elsewhere tokens k (findTypeBelow enc tokens n) := by
  induction n with
  | zero => exact absurd hn (Nat.not_lt_zero k)
  | succ n ih =>
    rcases Nat.lt_succ_iff_lt_or_eq.mp hn with hlt | rfl
    · by_cases hmis : Misread enc tokens n
      · exact .inr ⟨⟨n, hlt, Nat.lt_succ_self n, hmis⟩, findTypeBelow_misread hlt hmis⟩
      · rw [findTypeBelow_skip hmis]
        refine (ih hlt).imp ?_ ?_
        · rintro ⟨hclean, hfound⟩
          refine ⟨fun i hki hin => ?_, hfound⟩
          rcases Nat.lt_succ_iff_lt_or_eq.mp hin with hi | rfl
          · exact hclean i hki hi
          · exact hmis
        · rintro ⟨⟨i, hki, hin, hi⟩, helse⟩
          exact ⟨⟨i, hki, Nat.lt_succ_of_lt hin, hi⟩, helse⟩
    · left
      refine ⟨fun i hki hin => absurd hin (by omega), ?_⟩
      rw [findTypeBelow, htok, Option.bind_some, htype]
      dsimp only
      rw [if_neg (by omega), if_pos hvalid]

end TypeIndex

section Headers

def Unread (tok : Text) : Prop := parseTTL tok = none ∧ parseClass tok = none

variable {typ owner : Text} {ttl : Option Text} {header : List Text}

theorem mem_of_read {tok : Text} {toks : List Text} (htyp : Unread typ) (hmem : typ ∈ tok :: toks) (htok : ¬Unread tok) :
    typ ∈ toks := (mem_cons.mp hmem).resolve_left fun heq => htok (heq ▸ htyp)

theorem rolesFrom_hasOwner (htyp : Unread typ) {toks : List Text} (hmem : typ ∈ toks) (h : rolesFrom r toks = true) :
    r.hasOwner = false := by
  induction toks generalizing r with
  | nil => cases hmem
  | cons tok toks ih =>
    rw [rolesFrom] at h
    split_ifs at h with httl hclass howner
    · exact ih (mem_of_read htyp hmem fun htok => by simp [htok.1] at httl) (r := { r with hasTTL := true }) h
    · exact ih (mem_of_read htyp hmem fun htok => by simp [htok.2] at hclass) (r := { r with hasClass := true }) h
    · exact howner

theorem parseHeaderFrom_owner (htyp : Unread typ) (hd : ParsedHeader) {toks : List Text} (h : rolesFrom r toks = true)
    (hhd : hd.hasOwner = r.hasOwner) (hmem : r.hasOwner = false → typ ∈ toks) :
    ∃ hd', parseHeaderFrom hd r.hasTTL toks = .ok hd' ∧ hd'.rawName = (if r.hasOwner then hd.rawName else typ) ∧
      hd'.hasOwner = true := by
  induction toks generalizing r hd with
  | nil =>
    have howner : r.hasOwner = true := Bool.not_eq_false _ ▸ fun hno => not_mem_nil (hmem hno)
    exact ⟨hd, rfl, (if_pos howner).symm, hhd.trans howner⟩
  | cons tok toks ih =>
    rw [rolesFrom] at h
    rw [parseHeaderFrom]
    split_ifs at h with httl hclass hno
    · obtain ⟨ttl, hsome⟩ := Option.isSome_iff_exists.mp httl.1
      rw [httl.2, hsome]
      exact ih { hd with ttl := ttl } (r := { r with hasTTL := true }) h hhd fun hno =>
        mem_of_read htyp (hmem hno) fun htok => by simp [htok.1] at httl
    · obtain ⟨rrClass, hsome⟩ := Option.isSome_iff_exists.mp hclass.1
      rw [parseTTL_of_class hclass.1, ite_self, hsome]
      exact ih { hd with rrClass := rrClass } (r := { r with hasClass := true }) h hhd fun hno =>
        mem_of_read htyp (hmem hno) fun htok => by simp [htok.2] at hclass
    · obtain rfl | hlater := mem_cons.mp (hmem hno)
      · rw [htyp.1, htyp.2, ite_self, hhd, hno]
        exact ih { hd with rawName := typ, hasOwner := true } (r := { r with hasOwner := true }) h rfl nofun
      · cases rolesFrom_hasOwner htyp hlater h

inductive HeaderOf : Option Text → List Text → Prop
  | bare : HeaderOf none []
  | withTTL (t : Text) : HeaderOf (some t) [t]
  | withClass {c : Text} (h : (parseClass c).isSome = true) : HeaderOf none [c]
  | ttlClass (t : Text) {c : Text} (h : (parseClass c).isSome = true) : HeaderOf (some t) [t, c]
  | classTTL (t : Text) {c : Text} (h : (parseClass c).isSome = true) : HeaderOf (some t) [c, t]

theorem HeaderOf.length_le {ttl : Option Text} {header : List Text} (h : HeaderOf ttl header) : header.length ≤ 2 := by
  cases h <;> simp

def readOwner (owner : Text) (ttl : Option Text) : Option Text :=
  if (parseTTL owner).isSome then ttl else if (parseClass owner).isSome then none else some owner

def readTTL (owner : Text) (ttl : Option Text) (default : UInt32) : UInt32 :=
  (parseTTL owner).getD ((ttl.bind parseTTL).getD default)

theorem spelled (tok : Text) :
    (∃ v, parseTTL tok = some v ∧ parseClass tok = none) ∨ parseTTL tok = none ∧ parseClass tok = some classIN ∨ Unread tok := by
  cases httl : parseTTL tok with
  | some v => exact .inl ⟨v, rfl, parseClass_of_ttl (by rw [httl]; rfl)⟩
  | none =>
    right
    cases hclass : parseClass tok with
    | some c => exact .inl ⟨rfl, congrArg some (parseClass_eq hclass)⟩
    | none => exact .inr ⟨httl, hclass⟩

theorem spelled_class {c : Text} (h : (parseClass c).isSome = true) : parseTTL c = none ∧ parseClass c = some classIN := by
  obtain ⟨rrClass, hclass⟩ := Option.isSome_iff_exists.mp h
  exact ⟨parseTTL_of_class h, by rw [hclass, parseClass_eq hclass]⟩

theorem spelled_ttl (h : (parseTTL t).isSome = true) : ∃ v, parseTTL t = some v ∧ parseClass t = none := by
  obtain ⟨v, hv⟩ := Option.isSome_iff_exists.mp h
  exact ⟨v, hv, parseClass_of_ttl h⟩

theorem parseHeaderFrom_header (owner : Text) (h : HeaderOf ttl header) (httl : ∀ t, ttl = some t → (parseTTL t).isSome = true)
    (default : UInt32) : isValidPrefix (owner :: header) = true ∧
      parseHeaderFrom ⟨[], default, classIN, false⟩ false (owner :: header) =
        .ok ⟨(readOwner owner ttl).getD [], readTTL owner ttl default, classIN, (readOwner owner ttl).isSome⟩ := by
  unfold isValidPrefix readOwner readTTL
  cases h with
  | bare => obtain ⟨v, ho⟩ | ho | ho := spelled owner <;> simp [rolesFrom, parseHeaderFrom, ho.1, ho.2]
  | withTTL t =>
    obtain ⟨w, ht⟩ := spelled_ttl (httl t rfl)
    obtain ⟨v, ho⟩ | ho | ho := spelled owner <;> simp [rolesFrom, parseHeaderFrom, ho.1, ho.2, ht.1, ht.2]
  | withClass h =>
    have hc := spelled_class h
    obtain ⟨v, ho⟩ | ho | ho := spelled owner <;> simp [rolesFrom, parseHeaderFrom, ho.1, ho.2, hc.1, hc.2]
  | ttlClass t h =>
    obtain ⟨w, ht⟩ := spelled_ttl (httl t rfl)
    have hc := spelled_class h
    obtain ⟨v, ho⟩ | ho | ho := spelled owner <;> simp [rolesFrom, parseHeaderFrom, ho.1, ho.2, ht.1, ht.2, hc.1, hc.2]
  | classTTL t h =>
    obtain ⟨w, ht⟩ := spelled_ttl (httl t rfl)
    have hc := spelled_class h
    obtain ⟨v, ho⟩ | ho | ho := spelled owner <;> simp [rolesFrom, parseHeaderFrom, ho.1, ho.2, ht.1, ht.2, hc.1, hc.2]

end Headers

end Kdns.Zone
