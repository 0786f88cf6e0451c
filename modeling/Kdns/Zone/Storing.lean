import Kdns.Lib.GoRunes
import Kdns.Radix.Descent
import Kdns.Zone.Header

namespace Kdns.Zone

open ByteStream Dns Wire List
open GoStrings hiding Text

variable {origin s : Text} {c : Capitals} {b : UInt8}

section Names

variable (u : Unicode)

def canonical (name : Text) : Text := toLower u (trimSuffix name [dotByte])

def complete (origin rawName : Text) : Text :=
  if ¬hasSuffix rawName [dotByte] ∧ origin ≠ [] then rawName ++ dotByte :: origin else rawName

def nameOf (origin rawName : Text) : Text := canonical u (complete origin rawName)

structure NameFits (name : Text) : Prop where
  name_le : name.length ≤ maxNameLen
  label_le : name ≠ [] → ∀ label ∈ name.splitOn dotByte, label.length ≤ maxLabelLen

variable {u}

theorem resolveDomainName_ok {rawName name : Text} (hat : rawName ≠ ascii "@") (hroot : rawName ≠ [dotByte]) :
    resolveDomainName u rawName origin = .ok name ↔ nameOf u origin rawName = name ∧ NameFits name := by
  have hcomplete : resolveDomainName u rawName origin = normalizeName u (complete origin rawName) [] := by
    rw [resolveDomainName, if_neg hat, if_neg hroot]
    rfl
  have hnormal : normalizeName u (complete origin rawName) [] =
      if (nameOf u origin rawName).length > maxNameLen then .error .nameTooLong
      else if nameOf u origin rawName ≠ [] ∧
          ((nameOf u origin rawName).splitOn dotByte).any (fun label => label.length > maxLabelLen) then .error .labelTooLong
      else .ok (nameOf u origin rawName) := by
    have hid : (if ¬hasSuffix (complete origin rawName) [dotByte] = true ∧ ([] : Text) ≠ [] then
        complete origin rawName ++ [dotByte] else complete origin rawName) = complete origin rawName :=
      if_neg (by simp)
    rw [normalizeName]
    simp only [hid]
    rfl
  rw [hcomplete, hnormal]
  split_ifs with hlen hlabel
  · refine iff_of_false (by simp) ?_
    rintro ⟨rfl, hfits⟩
    exact absurd hfits.name_le (Nat.not_le.mpr hlen)
  · refine iff_of_false (by simp) ?_
    rintro ⟨rfl, hfits⟩
    obtain ⟨label, hmem, hlong⟩ := any_eq_true.mp hlabel.2
    exact absurd (hfits.label_le hlabel.1 label hmem) (Nat.not_le.mpr (of_decide_eq_true hlong))
  · constructor
    · intro h
      obtain rfl := Except.ok.inj h
      refine ⟨rfl, Nat.le_of_not_lt hlen, fun hne label hmem => ?_⟩
      by_contra hlong
      exact hlabel ⟨hne, any_eq_true.mpr ⟨label, hmem, decide_eq_true (Nat.lt_of_not_le hlong)⟩⟩
    · rintro ⟨rfl, -⟩
      rfl

theorem parseUint_dot (s : Text) (bits : ℕ) : parseUint (s ++ [dotByte]) bits = none := by
  rw [parseUint, if_pos]
  right
  simp only [all_append, Bool.and_eq_true, not_and]
  intro _
  decide

theorem unread_dot (s : Text) : Unread (s ++ [dotByte]) := by
  constructor
  · have hunit : ttlUnit dotByte = none := by decide
    simp only [parseTTL, getLast?_append, getLast?_singleton, Option.some_or, hunit, parseUint_dot]
  · by_contra hne
    have hclass := (parseClass_iff _).mp (Option.isSome_iff_ne_none.mpr hne)
    have hlast := congrArg getLast? hclass
    have hword : (ascii "in").getLast? = some 0x6E := by decide
    have hdot : lowerASCII dotByte = dotByte := by decide
    rw [hword, map_append, map_singleton, hdot, getLast?_append, getLast?_singleton, Option.some_or] at hlast
    exact absurd (Option.some.inj hlast) (by decide)

theorem trimSuffix_dot_append (s : Text) {t : Text} (ht : t ≠ []) :
    trimSuffix (s ++ t) [dotByte] = s ++ trimSuffix t [dotByte] := by
  obtain ⟨front, last, rfl⟩ : ∃ front last, t = front ++ [last] := ⟨_, _, (dropLast_append_getLast ht).symm⟩
  by_cases hlast : last = dotByte
  · subst hlast
    rw [← append_assoc, trimSuffix_concat, trimSuffix_concat]
  · have hnot : ∀ x : Text, hasSuffix (x ++ [last]) [dotByte] = false := by
      intro x
      rw [Bool.eq_false_iff, Ne, hasSuffix_singleton]
      rintro ⟨y, hy⟩
      exact hlast (singleton_inj.mp (append_inj' hy rfl).2)
    rw [← append_assoc, trimSuffix, if_neg (Bool.eq_false_iff.mp (hnot _)), trimSuffix,
      if_neg (Bool.eq_false_iff.mp (hnot _)), append_assoc]

theorem nameOf_ascii (u : Unicode) (origin : Text) :
    ∃ rest, ∀ a, isASCII a = true → hasSuffix a [dotByte] = false → nameOf u origin a = a.map lowerASCII ++ rest := by
  by_cases horigin : origin = []
  · refine ⟨[], fun a ha hdot => ?_⟩
    rw [nameOf, complete, if_neg (by simp [horigin]), canonical, trimSuffix, if_neg (by simp [hdot]), append_nil,
      toLower, if_pos ha]
  · refine ⟨toLower u (trimSuffix (dotByte :: origin) [dotByte]), fun a ha hdot => ?_⟩
    rw [nameOf, complete, if_pos (by simp [hdot, horigin]), canonical, trimSuffix_dot_append a (cons_ne_nil _ _),
      toLower_append_ascii u ha]

theorem nameOf_ne {a b : Text} (ha : isASCII a = true) (hb : isASCII b = true) (hadot : hasSuffix a [dotByte] = false)
    (hbdot : hasSuffix b [dotByte] = false) (hne : a.map lowerASCII ≠ b.map lowerASCII) :
    nameOf u origin a ≠ nameOf u origin b := by
  obtain ⟨rest, hrest⟩ := nameOf_ascii u origin
  rw [hrest a ha hadot, hrest b hb hbdot]
  intro h
  exact hne (append_cancel_right h)

theorem toUpper_ascii (h : isASCII s = true) : toUpper c s = s.map upperASCII := if_pos h

theorem parseType_dot (h : isASCII (s ++ [dotByte]) = true) : parseType c (s ++ [dotByte]) = none := by
  have hupper : toUpper c (s ++ [dotByte]) = s.map upperASCII ++ [dotByte] := by
    rw [toUpper_ascii h, map_append]
    rfl
  have hfind : mnemonics.find? (fun e => ascii e.1 = s.map upperASCII ++ [dotByte]) = none := by
    rw [find?_eq_none]
    intro e he heq
    have hlast := congrArg getLast? (of_decide_eq_true heq)
    rw [getLast?_append, getLast?_singleton, Option.some_or] at hlast
    exact absurd hlast ((by decide : ∀ e ∈ mnemonics, (ascii e.1).getLast? ≠ some dotByte) e he)
  have hgeneric : (if (ascii "TYPE").isPrefixOf (s.map upperASCII ++ [dotByte]) then
      parseNumber ((s.map upperASCII ++ [dotByte]).drop 4) else none) = none := by
    split_ifs with hprefix
    · obtain ⟨rest, hrest⟩ := isPrefixOf_iff_prefix.mp hprefix
      have hdrop : (s.map upperASCII ++ [dotByte]).drop 4 = rest := by
        rw [← hrest]
        change (ascii "TYPE" ++ rest).drop (ascii "TYPE").length = rest
        exact drop_left
      have hlast := congrArg getLast? hrest
      rw [getLast?_append, getLast?_append, getLast?_singleton, Option.some_or] at hlast
      rw [hdrop]
      cases hr : rest.getLast? with
      | none =>
        rw [hr] at hlast
        exact absurd hlast (by decide)
      | some last =>
        rw [hr, Option.some_or] at hlast
        obtain ⟨front, rfl⟩ := getLast?_eq_some_iff.mp (hr.trans hlast)
        exact congrArg (Option.map UInt16.ofNat) (parseUint_dot front 16)
    · rfl
  rw [parseType, hupper]
  rw [hfind]
  rw [hgeneric]
  exact congrArg (Option.map UInt16.ofNat) (parseUint_dot s 16)

theorem lowerASCII_eq {x : UInt8} (h : lowerASCII b = x) : b = x ∨ b + 32 = x := by
  rw [lowerASCII] at h
  split_ifs at h
  · exact .inr h
  · exact .inl h

theorem parseType_class (h : (parseClass s).isSome = true) : parseType c s = none := by
  have hword := (parseClass_iff s).mp h
  have hlength : s.length = 2 := (length_map lowerASCII).symm.trans (congrArg length hword)
  obtain ⟨i, n, rfl⟩ := length_eq_two.mp hlength
  obtain ⟨hi, hn⟩ : lowerASCII i = 0x69 ∧ lowerASCII n = 0x6E := by simpa [ascii] using hword
  have hi' : i = 0x69 ∨ i = 0x49 := (lowerASCII_eq hi).imp_right fun h => (UInt8.add_left_inj 32).mp (h.trans rfl)
  have hn' : n = 0x6E ∨ n = 0x4E := (lowerASCII_eq hn).imp_right fun h => (UInt8.add_left_inj 32).mp (h.trans rfl)
  rcases hi' with rfl | rfl <;> rcases hn' with rfl | rfl <;> rfl

theorem parseType_nil (c : Capitals) : parseType c [] = none := rfl

theorem trimSuffix_cons (hb : b ≠ dotByte) (s : Text) :
    trimSuffix (b :: s) [dotByte] = b :: trimSuffix s [dotByte] := by
  cases s with
  | nil =>
    have hnot : hasSuffix [b] [dotByte] = false := by
      rw [Bool.eq_false_iff, Ne, hasSuffix_singleton]
      rintro ⟨t, ht⟩
      have hlast := congrArg getLast? ht
      rw [getLast?_append, getLast?_singleton, getLast?_singleton, Option.some_or] at hlast
      exact hb (Option.some.inj hlast)
    rw [trimSuffix, if_neg (Bool.eq_false_iff.mp hnot)]
    rfl
  | cons c s => exact trimSuffix_dot_append [b] (cons_ne_nil c s)

theorem nameOf_cons_ne_nil (hb : b < runeSelf) (hdot : b ≠ dotByte) : nameOf u origin (b :: s) ≠ [] := by
  have hcomplete : ∃ t, complete origin (b :: s) = b :: t := by
    rw [complete]
    split_ifs
    · exact ⟨_, rfl⟩
    · exact ⟨s, rfl⟩
  obtain ⟨t, ht⟩ := hcomplete
  rw [nameOf, ht, canonical, trimSuffix_cons hdot]
  have hone : isASCII [b] = true := by
    rw [isASCII, all_cons, all_nil, Bool.and_true]
    exact decide_eq_true hb
  exact toLower_append_ascii u hone _ ▸ cons_ne_nil _ _

end Names

section Records

open Radix (findType)

variable {rs : Records}

theorem find_cons (e : Text × RRSets) (rs : Records) (n : Text) :
    Records.find (e :: rs) n = if n = e.1 then e.2 else rs.find n := by
  rw [Records.find, lookup_cons]
  by_cases h : n = e.1
  · rw [if_pos h, beq_iff_eq.mpr h]
    rfl
  · rw [if_neg h, beq_eq_false_iff_ne.mpr h]
    rfl

theorem find_put (rs : Records) (name n : Text) (sets : RRSets) :
    (rs.put name sets).find n = if n = name then sets else rs.find n := by
  induction rs with
  | nil => rw [Records.put, find_cons]
  | cons e rs ih =>
    rw [Records.put]
    by_cases he : e.1 = name
    · rw [if_pos he, find_cons, find_cons, he]
      split_ifs <;> rfl
    · rw [if_neg he, find_cons, find_cons, ih]
      by_cases hn : n = name
      · have hne : n ≠ e.1 := fun h => he (h.symm.trans hn)
        rw [if_neg hne, if_pos hn, if_pos hn]
      · rw [if_neg hn, if_neg hn]

def addRData (wire : Bytes) (s : RRSet) : RRSet := { s with rdata := s.rdata ++ [wire] }

theorem findType_cons (s : RRSet) (sets : RRSets) (t : RRType) :
    findType (s :: sets) t = if s.type = t then some s else findType sets t := by
  rw [findType, find?_cons]
  by_cases h : s.type = t
  · rw [if_pos h, decide_eq_true h]
  · rw [if_neg h, decide_eq_false h]
    rfl

theorem findType_appendOrUpdateRRSet (sets : RRSets) (qt t : RRType) (rrClass : UInt16) (ttl : UInt32) (wire : Bytes) :
    findType (appendOrUpdateRRSet sets qt rrClass ttl wire) t =
      if t = qt then some (addRData wire ((findType sets qt).getD ⟨[], ttl, qt, rrClass⟩)) else findType sets t := by
  induction sets with
  | nil =>
    rw [appendOrUpdateRRSet, findType_cons]
    by_cases h : t = qt
    · rw [if_pos h, if_pos h.symm]
      rfl
    · rw [if_neg h, if_neg (Ne.symm h)]
  | cons s rest ih =>
    rw [appendOrUpdateRRSet]
    by_cases hs : s.type = qt
    · rw [if_pos hs, findType_cons, findType_cons, findType_cons, if_pos hs]
      by_cases h : t = qt
      · rw [if_pos h, if_pos (hs.trans h.symm)]
        rfl
      · have hne : s.type ≠ t := fun h' => h (h'.symm.trans hs)
        rw [if_neg h, if_neg hne, if_neg hne]
    · rw [if_neg hs, findType_cons, findType_cons, findType_cons, if_neg hs, ih]
      by_cases h : t = qt
      · have hne : s.type ≠ t := fun h' => hs (h'.trans h)
        rw [if_neg hne, if_pos h, if_pos h]
      · rw [if_neg h, if_neg h]

structure Stored (rs rs' : Records) (name : Text) (qt : RRType) (ttl : UInt32) (wire : Bytes) : Prop where
  here : findType (rs'.find name) qt = some ⟨((findType (rs.find name) qt).elim [] RRSet.rdata) ++ [wire], ttl, qt, classIN⟩
  elsewhere : ∀ n t, n ≠ name ∨ t ≠ qt → findType (rs'.find n) t = findType (rs.find n) t

theorem findType_put (rs : Records) (name n : Text) (qt t : RRType) (rrClass : UInt16) (ttl : UInt32) (wire : Bytes) :
    findType ((rs.put name (appendOrUpdateRRSet (rs.find name) qt rrClass ttl wire)).find n) t =
      if n = name ∧ t = qt then some (addRData wire ((findType (rs.find name) qt).getD ⟨[], ttl, qt, rrClass⟩))
      else findType (rs.find n) t := by
  rw [find_put]
  by_cases hn : n = name
  · rw [if_pos hn, findType_appendOrUpdateRRSet]
    simp [hn]
  · rw [if_neg hn, if_neg fun h => hn h.1]

def InClass (rs : Records) : Prop := ∀ n t s, findType (rs.find n) t = some s → s.rrClass = classIN

theorem InClass.put {name : Text} {qt : RRType} {ttl : UInt32} {wire : Bytes} (h : InClass rs) :
    InClass (rs.put name (appendOrUpdateRRSet (rs.find name) qt classIN ttl wire)) := by
  intro n t s hs
  rw [findType_put] at hs
  split_ifs at hs
  · obtain rfl := Option.some.inj hs
    cases hset : findType (rs.find name) qt with
    | none => rfl
    | some s => exact h name qt s hset
  · exact h n t s hs

theorem stored_iff {name name' : Text} {qt qt' : RRType} {ttl ttl' : UInt32} {wire wire' : Bytes} (hclass : InClass rs) :
    Stored rs (rs.put name' (appendOrUpdateRRSet (rs.find name') qt' classIN ttl' wire')) name qt ttl wire ↔
      name' = name ∧ qt' = qt ∧ wire' = wire ∧ (findType (rs.find name) qt).elim ttl' RRSet.ttl = ttl := by
  constructor
  · rintro ⟨hhere, -⟩
    rw [findType_put] at hhere
    by_cases hsame : name = name' ∧ qt = qt'
    · obtain ⟨rfl, rfl⟩ := hsame
      rw [if_pos ⟨rfl, rfl⟩] at hhere
      cases hset : findType (rs.find name) qt with
      | none =>
        rw [hset] at hhere
        cases hhere
        exact ⟨rfl, rfl, rfl, rfl⟩
      | some s =>
        rw [hset] at hhere
        have hwire := congrArg RRSet.rdata (Option.some.inj hhere)
        have httl := congrArg RRSet.ttl (Option.some.inj hhere)
        exact ⟨rfl, rfl, singleton_inj.mp (append_cancel_left hwire), httl⟩
    · rw [if_neg hsame] at hhere
      cases hset : findType (rs.find name) qt with
      | none =>
        rw [hset] at hhere
        cases hhere
      | some s =>
        rw [hset] at hhere
        have hlength := congrArg (fun s => s.rdata.length) (Option.some.inj hhere)
        simp at hlength
  · rintro ⟨rfl, rfl, rfl, httl⟩
    constructor
    · rw [findType_put, if_pos ⟨rfl, rfl⟩]
      cases hset : findType (rs.find name') qt' with
      | none =>
        rw [hset] at httl
        cases httl
        rfl
      | some s =>
        rw [hset] at httl
        have htype : s.type = qt' := by simpa using find?_some hset
        cases httl
        cases htype
        rw [← hclass name' s.type s hset]
        rfl
    · intro n t hne
      rw [findType_put, if_neg]
      rintro ⟨rfl, rfl⟩
      simp at hne

end Records

section Owners

variable {u : Unicode} {p p' : ZoneParser} {rawName name : Text} {hasOwner : Bool}

def fallback (p : ZoneParser) : Text := if p.lastDomain ≠ [] then p.lastDomain else p.origin

theorem resolveOwnerName_ok (h : resolveOwnerName u p rawName hasOwner = .ok (p', name)) :
    (∃ last, p' = { p with lastDomain := last }) ∧
      ((hasOwner = true ∧ resolveDomainName u rawName p.origin = .ok name) ∨ (hasOwner = false ∧ fallback p = name)) := by
  rw [resolveOwnerName] at h
  split_ifs at h with howner hlast horigin
  · split at h
    · cases h
    · next resolved hresolved =>
      cases h
      exact ⟨⟨name, rfl⟩, .inl ⟨howner, hresolved⟩⟩
  · cases h
    exact ⟨⟨p.lastDomain, rfl⟩, .inr ⟨by simpa using howner, if_pos hlast⟩⟩
  · cases h
    exact ⟨⟨p.lastDomain, rfl⟩, .inr ⟨by simpa using howner, if_neg hlast⟩⟩

theorem resolveOwnerName_owner (h : resolveDomainName u rawName p.origin = .ok name) :
    resolveOwnerName u p rawName true = .ok ({ p with lastDomain := name }, name) := by
  rw [resolveOwnerName, if_pos rfl, h]

theorem resolveOwnerName_fallback (h : fallback p = name) (hne : name ≠ []) :
    resolveOwnerName u p rawName false = .ok (p, name) := by
  rw [resolveOwnerName, if_neg (by simp)]
  rw [fallback] at h
  split_ifs with hlast horigin
  · rw [if_pos hlast] at h
    rw [h]
  · rw [if_neg hlast] at h
    rw [h]
  · rw [if_neg hlast] at h
    exact absurd (h.symm.trans (not_not.mp horigin)) hne

end Owners

end Kdns.Zone
