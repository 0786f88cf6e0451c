import Kdns.Wire.Presentation
import Kdns.Wire.Served

namespace Kdns.Wire

open ByteStream Dns CompressedName GoStrings List

theorem numbers_cons_inv {e : ℕ × Option ℕ} {parsed : List (ℕ × Option ℕ)} {bytes : Bytes} (h : numbers (e :: parsed) = some bytes) :
    ∃ v rest, e.2 = some v ∧ numbers parsed = some rest ∧ bytes = bigEndian e.1 v ++ rest := by
  obtain ⟨parts, hparts, rfl⟩ := Option.map_eq_some_iff.mp h
  rw [mapM_cons] at hparts
  obtain ⟨part, hpart, hparts⟩ := Option.bind_eq_some_iff.mp hparts
  obtain ⟨rest, hrest, hparts⟩ := Option.bind_eq_some_iff.mp hparts
  cases hparts
  obtain ⟨v, hv, rfl⟩ := Option.map_eq_some_iff.mp hpart
  refine ⟨v, rest.flatten, hv, ?_, rfl⟩
  rw [numbers, hrest]
  rfl

theorem numbers_decimals {width : ℕ} {texts : List Text} {bytes : Bytes} (h : numbers (decimals width texts) = some bytes) :
    ∃ values : List ℕ, texts.map (parseUint · (8 * width)) = values.map some ∧ bytes = values.flatMap (bigEndian width) := by
  induction texts generalizing bytes with
  | nil =>
    cases h
    exact ⟨[], rfl, rfl⟩
  | cons text texts ih =>
    obtain ⟨v, rest, hv, hrest, rfl⟩ := numbers_cons_inv h
    obtain ⟨values, hvalues, rfl⟩ := ih hrest
    refine ⟨v :: values, ?_, rfl⟩
    rw [map_cons, hvalues]
    exact congrArg (· :: values.map some) hv

theorem nameLabels_of_first {name label rest r : Bytes} (hfirst : FirstLabel name label rest) (hl : label ≠ [])
    (hrest : r ∈ labelSuffixes rest → ∃ front, nameLabels rest = front ++ nameLabels r) (h : r ∈ labelSuffixes name) :
    ∃ front, nameLabels name = front ++ nameLabels r := by
  rw [hfirst.suffixes hl] at h
  rcases mem_cons.mp h with rfl | h
  · exact ⟨[], rfl⟩
  · obtain ⟨front, hfront⟩ := hrest h
    exact ⟨label :: front, by rw [hfirst.nameLabels hl, hfront, cons_append]⟩

theorem nameLabels_of_suffix {name r : Bytes} (h : r ∈ labelSuffixes name) : ∃ front, nameLabels name = front ++ nameLabels r := by
  induction name using first_dot_induction with
  | base a ha =>
    by_cases hnil : a = []
    · rw [hnil] at h
      cases h
    · have hfirst : FirstLabel a a [] := ⟨ha, .inl ⟨rfl, rfl⟩⟩
      exact nameLabels_of_first hfirst hnil (fun h => by cases h) h
  | step a b ha ih =>
    by_cases hnil : a = []
    · subst hnil
      exact ih h
    · have hfirst : FirstLabel (a ++ dotByte :: b) a b := ⟨ha, .inr rfl⟩
      exact nameLabels_of_first hfirst hnil ih h

def readLabels (known : List Bytes) (name : Bytes) : List Bytes :=
  match sharedPart known name with
  | none => nameLabels name
  | some (r, s) => (nameLabels name).take ((nameLabels name).length - (nameLabels r).length) ++ nameLabels s

theorem readLabels_none {known : List Bytes} {name : Bytes} (h : sharedPart known name = none) :
    readLabels known name = nameLabels name := by
  rw [readLabels, h]

theorem readLabels_some {known front : List Bytes} {name r s : Bytes} (h : sharedPart known name = some (r, s))
    (hfront : nameLabels name = front ++ nameLabels r) : readLabels known name = front ++ nameLabels s := by
  rw [readLabels, h]
  dsimp only
  rw [hfront, length_append, Nat.add_sub_cancel, take_left]

theorem lowered_readLabels (known : List Bytes) (name : Bytes) : lowered (readLabels known name) = lowered (nameLabels name) := by
  cases h : sharedPart known name with
  | none => rw [readLabels_none h]
  | some e =>
    obtain ⟨hr, -, hfold⟩ := sharedPart_some h
    obtain ⟨front, hfront⟩ := nameLabels_of_suffix hr
    rw [readLabels_some h hfront, hfront, lowered_append, lowered_append, lowered_of_equalFold hfold]

theorem two_names {w v v' : PacketWriter} {first second : Text} (hfirst : SuffixRun true w first v)
    (hsecond : SuffixRun true v second v') (ht : w.table = []) (hw : w.out = []) (hlimit : w.limit ≤ pointerOffsetMask) :
    NameAt v'.out 0 0 (nameLabels first) 0 (wireName first).length ∧
      ∃ j, NameAt v'.out 0 (wireName first).length (readLabels (remembered first) second) j v'.out.length ∧ j ≤ 1 := by
  obtain ⟨hlabels, hout⟩ := hfirst.first ht
  rw [hw, nil_append] at hout
  have hknown := hfirst.remembered ht hlimit
  have hhead : ∀ s ∈ v.known, Headed s := by
    intro s hs
    rw [hknown] at hs
    exact headed_of_mem_suffixesFrom (mem_of_mem_take hs)
  have hcases := hsecond.full_or_known hhead
  rw [hknown, hout] at hcases
  constructor
  · have hprefix : wireName first <+: v'.out.drop 0 := by
      rcases hcases with ⟨-, -, hout'⟩ | ⟨-, front, s, t, r, -, -, -, -, hout'⟩
      · exact hout' ▸ prefix_append _ _
      · exact hout' ▸ prefix_append _ _
    have hname := nameAt_wireName hlabels hprefix
    rwa [Nat.zero_add] at hname
  rcases hcases with ⟨hnone, hlabels', hout'⟩ | ⟨-, front, s, t, r, hsome, hmem, hsplit, hfront, hout'⟩
  · have hname := nameAt_wireName (p := v'.out) (i := (wireName first).length) hlabels'
      ⟨[], by rw [append_nil, hout', drop_left]⟩
    refine ⟨0, ?_, Nat.zero_le _⟩
    rwa [← length_append, ← hout', ← readLabels_none (hnone rfl)] at hname
  · obtain ⟨front₁, back₁, closing₁, hwritten₁⟩ := hfirst.written
    rcases hwritten₁.learned _ hmem with hmem | ⟨hmask, -, k, hk, hplace₁, hlabels₁⟩
    · rw [ht] at hmem
      cases hmem
    -- The first name was written in full, and the pointer goes to one of its labels.
    have hback₁ : nameLabels first = front₁ := by
      rcases hwritten₁.closed with ⟨-, rfl⟩ | ⟨_, _, _, hnone, -⟩
      · rw [hwritten₁.labels_eq, append_nil]
      · rw [ht] at hnone
        cases hnone
    have hzero : w.offset = 0 := by rw [PacketWriter.offset, hw, length_nil]
    rw [← hwritten₁.labels_eq, hback₁] at hlabels₁
    dsimp only at hplace₁ hlabels₁
    rw [hzero, Nat.zero_add] at hplace₁
    have hwire : wireName first = encodeLabels (front₁.take k) ++ (encodeLabels (front₁.drop k) ++ [0]) := by
      rw [wireName, hback₁, encodeLabels_take_drop front₁ k, append_assoc]
    have hdrop : v'.out.drop t = encodeLabels (front₁.drop k) ++ ([0] ++ (encodeLabels front ++ pointerBytes t)) := by grind
    have htarget : NameAt v'.out 0 t (front₁.drop k ++ []) 0 (t + (encodeLabels (front₁.drop k)).length + 1) := by
      apply NameAt.encode (Nat.zero_le _) fun l hl => hwritten₁.front_labels l (mem_of_mem_drop hl)
      · rw [hdrop]
        exact prefix_append _ _
      · apply NameAt.root (Nat.zero_le _)
        rw [← drop_drop, hdrop, drop_left]
        exact prefix_append _ _
    have hlt : t < (wireName first).length := by grind
    have hplace : encodeLabels front ++ pointerBytes t <+: v'.out.drop (wireName first).length :=
      ⟨[], by rw [append_nil, hout', drop_left]⟩
    have hclosing : pointerBytes t <+: v'.out.drop ((wireName first).length + (encodeLabels front).length) :=
      ⟨[], by rw [append_nil, ← drop_drop, hout', drop_left, drop_left]⟩
    have hend : v'.out.length = (wireName first).length + (encodeLabels front).length + 2 := by
      rw [hout', length_append, length_append, pointerBytes_length, Nat.add_assoc]
    refine ⟨1, ?_, le_rfl⟩
    rw [hend, readLabels_some hsome hsplit, hlabels₁, ← append_nil (front₁.drop k)]
    apply NameAt.encode (Nat.zero_le _) hfront ((prefix_append _ _).trans hplace)
    exact .pointer (Nat.zero_le _) (Nat.lt_succ_of_le hmask) (by omega) hclosing htarget

structure SOAForm (text : Text) (wire names first second : Bytes) (ls : List Bytes) (m j : ℕ) (values : List ℕ) : Prop where
  fields : ∃ numbers, GoStrings.fields text = first :: second :: numbers ∧ numbers.map (parseUint · 32) = values.map some
  count : values.length = 5
  wire_eq : wire = names ++ values.flatMap (bigEndian 4)
  first_at : NameAt names 0 0 (nameLabels first) 0 m
  second_at : NameAt names 0 m ls j names.length
  jumps : j ≤ 1
  labels : lowered ls = lowered (nameLabels second)

theorem writeRDataSOA_form {w w' : PacketWriter} {text : Text} (h : writeRDataSOA w text = .ok w') (ht : w.table = [])
    (hw : w.out = []) (hlimit : w.limit ≤ pointerOffsetMask) :
    ∃ names first second j values, SOAForm text w'.out names first second (readLabels (remembered first) second)
      (wireName first).length j values := by
  unfold writeRDataSOA at h
  split at h
  · rename_i first second serial refresh retry expire minimumTTL hfields
    split at h
    · cases h
    · rename_i timers htimers
      obtain ⟨v, hfirst, h⟩ := Fallible.bind_ok h
      obtain ⟨v', hsecond, h⟩ := Fallible.bind_ok h
      obtain rfl := fill_ok h
      obtain ⟨hat, j, hat', hj⟩ := two_names (domain_ok hfirst).2 (domain_ok hsecond).2 ht hw hlimit
      obtain ⟨values, hvalues, rfl⟩ := numbers_decimals htimers
      refine ⟨v'.out, first, second, j, values, ⟨_, hfields, hvalues⟩, ?_, rfl, hat, hat', hj, lowered_readLabels _ _⟩
      have hlen := congrArg List.length hvalues
      rw [length_map, length_map] at hlen
      exact hlen.symm
  · cases h

def DecodesSOA (lib : Library) (wire a b : Bytes) (values : List ℕ) : Prop :=
  ∃ m n, unpackDomainName wire 0 = .ok (a, m) ∧ unpackDomainName wire m = .ok (b, n) ∧
    values = [n, n + 4, n + 8, n + 12, n + 16].map (fun i => ofBigEndian ((wire.drop i).take 4)) ∧
    unpackRData lib typeSOA wire = .ok (spaced ([a ++ [dotByte], b ++ [dotByte]] ++ values.map formatUint))

theorem take_drop_flatMap {values : List ℕ} (hvalues : ∀ v ∈ values, v < 2 ^ 32) (names : Bytes) {i : ℕ} (hi : i < values.length) :
    ofBigEndian (((names ++ values.flatMap (bigEndian 4)).drop (names.length + 4 * i)).take 4) = values[i] := by
  rw [← drop_drop, drop_left]
  induction values generalizing i with
  | nil => cases hi
  | cons v values ih =>
    rw [flatMap_cons]
    rw [forall_mem_cons] at hvalues
    cases i with
    | zero => rw [Nat.mul_zero, drop_zero, take_left' (bigEndian_length 4 v), ofBigEndian_bigEndian 4 v hvalues.1, getElem_cons_zero]
    | succ i =>
      exact ih hvalues.2 (Nat.lt_of_succ_lt_succ hi)

theorem flatMap_bigEndian_length (values : List ℕ) : (values.flatMap (bigEndian 4)).length = 4 * values.length := by
  simp [length_flatMap, Nat.mul_comm]

theorem five_values {values : List ℕ} (h : values.length = 5) : ∃ a b c d e, values = [a, b, c, d, e] := by
  match values, h with
  | [a, b, c, d, e], _ => exact ⟨a, b, c, d, e, rfl⟩

theorem SOAForm.decodes {text : Text} {wire names first second : Bytes} {ls : List Bytes} {m j : ℕ} {values : List ℕ}
    (h : SOAForm text wire names first second ls m j values) (lib : Library)
    (hfirst : (wireName first).length ≤ maxNameLen) (hsecond : (wireName second).length ≤ maxNameLen)
    {values' : List ℕ} (hcount : values'.length = 5) (hlt : ∀ v ∈ values', v < 2 ^ 32) :
    DecodesSOA lib (names ++ values'.flatMap (bigEndian 4)) (spelled first) (dotted ls).dropLast values' := by
  have hlen : (dotted (nameLabels first)).length ≤ maxNameLen := by
    rw [← encodeLabels_length]
    rw [wireName, length_append, length_singleton] at hfirst
    omega
  have hlen' : (dotted ls).length ≤ maxNameLen := by
    rw [lowered_lengths h.labels, ← encodeLabels_length]
    rw [wireName, length_append, length_singleton] at hsecond
    omega
  have hmax : maxJumps = 10 := rfl
  have hj := h.jumps
  have hread := unpackDomainName_of_nameAt (h.first_at.append (values'.flatMap (bigEndian 4))) (Nat.zero_le _) hlen
  have hread' := unpackDomainName_of_nameAt (h.second_at.append (values'.flatMap (bigEndian 4))) (by omega) hlen'
  have hvalues : values' = [names.length, names.length + 4, names.length + 8, names.length + 12, names.length + 16].map
      (fun i => ofBigEndian (((names ++ values'.flatMap (bigEndian 4)).drop i).take 4)) := by
    obtain ⟨a, b, c, d, e, rfl⟩ := five_values hcount
    have h₀ := take_drop_flatMap hlt names (i := 0) (by simp)
    have h₁ := take_drop_flatMap hlt names (i := 1) (by simp)
    have h₂ := take_drop_flatMap hlt names (i := 2) (by simp)
    have h₃ := take_drop_flatMap hlt names (i := 3) (by simp)
    have h₄ := take_drop_flatMap hlt names (i := 4) (by simp)
    simp only [map_cons, map_nil]
    rw [h₁, h₂, h₃, h₄]
    exact congrArg (· :: [b, c, d, e]) h₀.symm
  refine ⟨m, names.length, hread, hread', hvalues, unpackRData_soa.mpr ⟨_, m, _, names.length, hread, hread', ?_, ?_⟩⟩
  · rw [length_append, flatMap_bigEndian_length, hcount]
  · rw [congrArg (List.map formatUint) hvalues]
    rfl

end Kdns.Wire
