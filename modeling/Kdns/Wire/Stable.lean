import Kdns.Wire.Structured

namespace Kdns.Wire

open ByteStream Dns CompressedName GoStrings List

variable {first second : Bytes} {rest : List Text}

section Labels

def PlainLabels (ls : List Bytes) : Prop := ∀ l ∈ ls, IsLabel l ∧ dotByte ∉ l

variable {ls ls' la lb : List Bytes} {l s : Bytes}

theorem PlainLabels.drop (h : PlainLabels ls) (k : ℕ) : PlainLabels (ls.drop k) :=
  fun l hl => h l (mem_of_mem_drop hl)

theorem PlainLabels.absolute (h : PlainLabels ls) : nameLabels (absolute ls) = ls :=
  nameLabels_absolute (fun l hl => (h l hl).1) fun l hl => (h l hl).2

theorem PlainLabels.dotted (h : PlainLabels ls) : nameLabels (dotted ls) = ls := by
  cases ls with
  | nil => rfl
  | cons l ls =>
    have heq := absolute_eq (l :: ls)
    rw [if_neg (cons_ne_nil l ls)] at heq
    rw [← heq]
    exact h.absolute

theorem labelSuffixes_absolute (ls : List Bytes) : labelSuffixes (absolute ls) = labelSuffixes (dotted ls) := by
  rw [absolute_eq]
  split_ifs with hnil
  · rw [hnil]
    rfl
  · rfl

theorem labelSuffixes_dotted (h : PlainLabels (l :: ls)) :
    labelSuffixes (dotted (l :: ls)) = dotted (l :: ls) :: labelSuffixes (dotted ls) := by
  obtain ⟨hl, hdot⟩ := h l mem_cons_self
  have hfirst : FirstLabel (dotted (l :: ls)) l (dotted ls) := by
    refine ⟨hdot, .inr ?_⟩
    rw [dotted_cons, append_assoc, singleton_append]
  exact hfirst.suffixes hl.nonempty

theorem mem_remembered_absolute (h : PlainLabels ls) :
    s ∈ remembered (absolute ls) ↔ ∃ k, k < maxCompressionOffsets ∧ ls.drop k ≠ [] ∧ s = dotted (ls.drop k) := by
  have hall : ∀ n, s ∈ (labelSuffixes (dotted ls)).take n ↔ ∃ k, k < n ∧ ls.drop k ≠ [] ∧ s = dotted (ls.drop k) := by
    induction ls with
    | nil => simp [labelSuffixes, suffixesFrom, dotted]
    | cons l ls ih =>
      intro n
      cases n with
      | zero => simp
      | succ n =>
        rw [labelSuffixes_dotted h, take_succ_cons, mem_cons, ih (h.drop 1)]
        constructor
        · rintro (rfl | ⟨k, hk, hne, rfl⟩)
          · exact ⟨0, Nat.succ_pos n, cons_ne_nil l ls, rfl⟩
          · exact ⟨k + 1, Nat.succ_lt_succ hk, hne, rfl⟩
        · rintro ⟨k, hk, hne, rfl⟩
          cases k with
          | zero => exact .inl rfl
          | succ k => exact .inr ⟨k, Nat.lt_of_succ_lt_succ hk, hne, rfl⟩
  rw [remembered, labelSuffixes_absolute]
  exact hall maxCompressionOffsets

theorem equalFold_dotted (h : PlainLabels ls) (h' : PlainLabels ls') :
    equalFoldASCII (dotted ls) (dotted ls') = true ↔ lowered ls = lowered ls' := by
  constructor
  · intro hfold
    have hsame := lowered_of_equalFold hfold
    rwa [h.dotted, h'.dotted] at hsame
  · intro hsame
    apply decide_eq_true
    rw [dotted_lowered, dotted_lowered, hsame]

theorem sharedPart_cons (known : List Bytes) (h : PlainLabels (l :: ls)) : sharedPart known (absolute (l :: ls)) =
      match known.find? fun s => equalFoldASCII s (dotted (l :: ls)) with
      | some s => some (dotted (l :: ls), s)
      | none => sharedPart known (absolute ls) := by
  rw [sharedPart, sharedPart, labelSuffixes_absolute, labelSuffixes_absolute, labelSuffixes_dotted h, findSome?_cons]
  cases known.find? fun s => equalFoldASCII s (dotted (l :: ls)) <;> rfl

section Read

variable {known : List Bytes} (h : PlainLabels (l :: ls))
include h

theorem readLabels_cons_none (hnone : (known.find? fun s => equalFoldASCII s (dotted (l :: ls))) = none) :
    readLabels known (absolute (l :: ls)) = l :: readLabels known (absolute ls) := by
  have hcons := sharedPart_cons known h
  rw [hnone] at hcons
  have hlabels := h.absolute
  have hrest : nameLabels (absolute ls) = ls := (h.drop 1).absolute
  cases hshared : sharedPart known (absolute ls) with
  | none => rw [readLabels_none (hcons.trans hshared), readLabels_none hshared, hlabels, hrest]
  | some e =>
    obtain ⟨front, hfront⟩ := nameLabels_of_suffix (sharedPart_some hshared).1
    rw [readLabels_some hshared hfront, ← cons_append]
    apply readLabels_some (hcons.trans hshared)
    rw [hlabels, cons_append, ← hfront, hrest]

theorem readLabels_cons_some (hsome : (known.find? fun s => equalFoldASCII s (dotted (l :: ls))) = some s) :
    readLabels known (absolute (l :: ls)) = nameLabels s := by
  have hcons := sharedPart_cons known h
  rw [hsome] at hcons
  have hwhole : nameLabels (absolute (l :: ls)) = [] ++ nameLabels (dotted (l :: ls)) := by
    rw [h.absolute, h.dotted, nil_append]
  exact readLabels_some hcons hwhole

end Read

def Alike (la lb : List Bytes) : Prop :=
  ∀ i k, k < maxCompressionOffsets → la.drop k ≠ [] → lowered (lb.drop i) = lowered (la.drop k) → lb.drop i = la.drop k

theorem length_of_lowered (h : lowered ls = lowered ls') : ls.length = ls'.length := by
  simpa only [lowered, length_map] using congrArg length h

theorem alike_cons_iff : Alike la (l :: lb) ↔ Alike la lb ∧
      ∀ k, k < maxCompressionOffsets → la.drop k ≠ [] → lowered (l :: lb) = lowered (la.drop k) → l :: lb = la.drop k := by
  constructor
  · exact fun h => ⟨fun i => h (i + 1), h 0⟩
  · rintro ⟨hrest, hfirst⟩ i
    cases i with
    | zero => exact hfirst
    | succ i => exact hrest i

theorem alike_of_drop {k₀ : ℕ} (h : lb = la.drop k₀) : Alike la lb := by
  intro i k _ hne hsame
  have hlen := length_of_lowered hsame
  have hpos := length_pos_of_ne_nil hne
  rw [h, drop_drop, length_drop, length_drop] at hlen
  rw [length_drop] at hpos
  have hk : k₀ + i = k := by omega
  rw [h, drop_drop, hk]

theorem readLabels_absolute (hla : PlainLabels la) (hlb : PlainLabels lb) :
    readLabels (remembered (absolute la)) (absolute lb) = lb ↔ Alike la lb := by
  induction lb with
  | nil =>
    refine iff_of_true rfl ?_
    intro i k _ hne hsame
    rw [drop_nil] at hsame
    exact absurd (eq_nil_of_length_eq_zero (length_of_lowered hsame).symm) hne
  | cons l lb ih =>
    cases hfind : (remembered (absolute la)).find? fun s => equalFoldASCII s (dotted (l :: lb)) with
    | none =>
      rw [readLabels_cons_none hlb hfind, cons.injEq, and_iff_right rfl, ih (hlb.drop 1), alike_cons_iff]
      refine (and_iff_left ?_).symm
      intro k hk hne hsame
      have hmem := (mem_remembered_absolute hla).mpr ⟨k, hk, hne, rfl⟩
      exact absurd ((equalFold_dotted (hla.drop k) hlb).mpr hsame.symm) (find?_eq_none.mp hfind _ hmem)
    | some s =>
      obtain ⟨k, hk, hne, rfl⟩ := (mem_remembered_absolute hla).mp (mem_of_find?_eq_some hfind)
      have hfold : equalFoldASCII (dotted (la.drop k)) (dotted (l :: lb)) = true := by simpa using find?_some hfind
      have hsame := (equalFold_dotted (hla.drop k) hlb).mp hfold
      rw [readLabels_cons_some hlb hfind, (hla.drop k).dotted]
      constructor
      · exact fun heq => alike_of_drop heq.symm
      · exact fun halike => ((alike_cons_iff.mp halike).2 k hk hne hsame.symm).symm

def sharedLabels (first second : Text) : ℕ :=
  match sharedPart (remembered first) second with
  | none => 0
  | some e => (nameLabels e.1).length

def unshared (n : ℕ) (ls : List Bytes) : List Bytes := ls.take (ls.length - n)

/-- Where the second name ends, ignoring case, as the first one does from one of its first sixteen labels, both are spelled
alike up to the labels that the writer shares. -/
def SpelledAlike (first second : Text) : Prop :=
  ∀ i k, k < maxCompressionOffsets → (nameLabels first).drop k ≠ [] →
    lowered ((nameLabels second).drop i) = lowered ((nameLabels first).drop k) →
    unshared (sharedLabels first second) ((nameLabels second).drop i) =
      unshared (sharedLabels first second) ((nameLabels first).drop k)

theorem unshared_drop (front back : List Bytes) (i : ℕ) : unshared back.length ((front ++ back).drop i) = front.drop i := by
  rw [unshared, drop_append]
  by_cases hi : i ≤ front.length
  · rw [Nat.sub_eq_zero_of_le hi, drop_zero, length_append, Nat.add_sub_cancel, take_left]
  · rw [drop_eq_nil_of_le (Nat.le_of_not_le hi), nil_append, length_drop]
    have hzero : back.length - (i - front.length) - back.length = 0 := by omega
    rw [hzero, take_zero]

theorem drop_append_congr {fa fb s : List Bytes} {i k : ℕ} (hlen : ((fb ++ s).drop i).length = ((fa ++ s).drop k).length)
    (hne : (fa ++ s).drop k ≠ []) : (fb ++ s).drop i = (fa ++ s).drop k ↔ fb.drop i = fa.drop k := by
  have hpos := length_pos_of_ne_nil hne
  simp only [length_drop, length_append] at hlen hpos
  have hsame : i - fb.length = k - fa.length := by omega
  rw [drop_append, drop_append, hsame]
  exact append_left_inj _

theorem spelledAlike_iff (first second : Text) :
    SpelledAlike first second ↔ Alike (nameLabels first) (readLabels (remembered first) second) := by
  unfold SpelledAlike Alike sharedLabels
  cases hshared : sharedPart (remembered first) second with
  | none =>
    rw [readLabels_none hshared]
    simp only [unshared, Nat.sub_zero, take_length]
  | some e =>
    obtain ⟨r, s⟩ := e
    obtain ⟨hr, hs, hfold⟩ := sharedPart_some hshared
    obtain ⟨fb, hfb⟩ := nameLabels_of_suffix hr
    obtain ⟨fa, hfa⟩ := nameLabels_of_suffix (mem_of_mem_take hs)
    have hlower := lowered_of_equalFold hfold
    have hcount := length_of_lowered hlower
    rw [readLabels_some hshared hfb, hfb, hfa]
    dsimp only
    apply forall_congr'
    intro i
    apply forall_congr'
    intro k
    refine imp_congr_right fun _ => imp_congr_right fun hne => ?_
    have hread : lowered ((fb ++ nameLabels r).drop i) = lowered ((fb ++ nameLabels s).drop i) := by
      simp only [lowered, map_drop, map_append] at hlower ⊢
      rw [hlower]
    rw [hread]
    apply imp_congr_right
    intro hsame
    rw [drop_append_congr (length_of_lowered hsame) hne, unshared_drop, ← hcount, unshared_drop]

theorem mem_readLabels {known : List Bytes} {name : Bytes} (h : l ∈ readLabels known name) :
    l ∈ nameLabels name ∨ ∃ s ∈ known, l ∈ nameLabels s := by
  cases hshared : sharedPart known name with
  | none =>
    rw [readLabels_none hshared] at h
    exact .inl h
  | some e =>
    obtain ⟨hr, hs, -⟩ := sharedPart_some hshared
    obtain ⟨front, hfront⟩ := nameLabels_of_suffix hr
    rw [readLabels_some hshared hfront] at h
    rcases mem_append.mp h with h | h
    · rw [hfront]
      exact .inl (mem_append_left _ h)
    · exact .inr ⟨e.2, hs, h⟩

theorem readLabels_isInfix (h : l ∈ readLabels (remembered first) second) :
    dotByte ∉ l ∧ (l <:+: first ∨ l <:+: second) := by
  rcases mem_readLabels h with h | ⟨s, hs, h⟩
  · exact ⟨nameLabels_no_dot h, .inr (nameLabels_isInfix h)⟩
  · have hpart := isSuffix_of_mem_suffixesFrom (mem_of_mem_take hs)
    exact ⟨nameLabels_no_dot h, .inl ((nameLabels_isInfix h).trans hpart.isInfix)⟩

end Labels

section Authority

theorem numbers_formatUint {values : List ℕ} (h : ∀ v ∈ values, v < 2 ^ 32) :
    numbers (decimals 4 (values.map formatUint)) = some (values.flatMap (bigEndian 4)) := by
  induction values with
  | nil => rfl
  | cons v values ih =>
    rw [forall_mem_cons] at h
    have hvalue : parseUint (formatUint v) (8 * 4) = some v := parseUint_formatUint h.1
    rw [map_cons, decimals, map_cons, hvalue]
    exact numbers_cons (ih h.2)

variable {lib : Library} {la lb : List Bytes} {values : List ℕ} {text w : Bytes}

def shownSOA (la lb : List Bytes) (values : List ℕ) : Text := spaced ([absolute la, absolute lb] ++ values.map formatUint)

structure SOAShown (la lb : List Bytes) (values : List ℕ) : Prop where
  first : PlainLabels la ∧ (∀ l ∈ la, Unspaced l) ∧ (dotted la).length < maxNameLen
  second : PlainLabels lb ∧ (∀ l ∈ lb, Unspaced l) ∧ (dotted lb).length < maxNameLen
  count : values.length = 5
  bounds : ∀ v ∈ values, v < 2 ^ 32

section

variable (h : SOAShown la lb values)
include h

theorem SOAShown.fields_eq :
    fields (shownSOA la lb values) = [absolute la, absolute lb] ++ values.map formatUint := by
  apply fields_intercalate
  intro p hp
  simp only [mem_append, mem_cons, not_mem_nil, or_false, mem_map] at hp
  rcases hp with (rfl | rfl) | ⟨v, -, rfl⟩
  · exact absolute_word h.first.2.1
  · exact absolute_word h.second.2.1
  · exact ⟨formatUint_ne_nil v, unspaced_of_graphic fun b hb => formatUint_graphic hb⟩

theorem SOAShown.inj {la' lb' : List Bytes} {values' : List ℕ} (h' : SOAShown la' lb' values')
    (heq : shownSOA la lb values = shownSOA la' lb' values') : lb = lb' := by
  have hfields := congrArg fields heq
  rw [h.fields_eq, h'.fields_eq] at hfields
  have hsecond := congrArg nameLabels (cons.inj (cons.inj hfields).2).1
  rwa [h.second.1.absolute, h'.second.1.absolute] at hsecond

theorem SOAShown.packs :
    ∃ w, writeRDataSOA ⟨rdataBufferSize, [], []⟩ (shownSOA la lb values) = .ok w := by
  have hbuffer : rdataBufferSize = 4096 := rfl
  have hmax : maxNameLen = 255 := rfl
  have hlen := h.first.2.2
  have hlen' := h.second.2.2
  obtain ⟨x, hwrite, hrun⟩ := absolute_written (fun l hl => (h.first.1 l hl).1) hlen.le
    (x := ⟨rdataBufferSize, [], []⟩) (by decide) true
  obtain ⟨-, hout⟩ := hrun.first rfl
  have hlimit := hrun.within.1
  dsimp only at hlimit
  have hoffset : x.offset ≤ 255 := by
    rw [PacketWriter.offset, hout, nil_append, wireName, length_append, h.first.1.absolute, encodeLabels_length,
      length_singleton]
    omega
  obtain ⟨y, hwrite', hrun'⟩ := absolute_written (fun l hl => (h.second.1 l hl).1) hlen'.le (x := x) (by omega) true
  have hlimit' := hrun'.within.1
  have hshort := absolute_length hlen'.le
  have hroom : Written x ((absolute lb).length + 2) (x.writeDomain (absolute lb)) :=
    written_writeDomain hshort (segmented_absolute fun l hl => (h.second.1 l hl).1) (by omega)
  rw [PacketWriter.writeDomain, hwrite'] at hroom
  have hoffset' : y.offset ≤ x.offset + ((absolute lb).length + 2) := hroom.2.2
  have hfill : y.fill (values.flatMap (bigEndian 4)) = .ok (y.put (values.flatMap (bigEndian 4))) := by
    apply fill_of_le
    rw [flatMap_bigEndian_length, h.count]
    omega
  obtain ⟨a, b, c, d, e, hvalues⟩ := five_values h.count
  have hnumbers := numbers_formatUint h.bounds
  refine ⟨y.put (values.flatMap (bigEndian 4)), ?_⟩
  rw [writeRDataSOA, h.fields_eq]
  rw [hvalues] at hnumbers hfill ⊢
  simp only [map_cons, map_nil] at hnumbers
  simp only [map_cons, map_nil, cons_append, nil_append]
  rw [hnumbers]
  dsimp only
  rw [PacketWriter.domain, PacketWriter.writeDomain, hwrite, written, Fallible.ok_bind, PacketWriter.domain,
    PacketWriter.writeDomain, hwrite', written, Fallible.ok_bind]
  exact hfill

end

theorem unpackRData_packed (h : packRData (encoders lib) typeSOA text = .ok w)
    (hfields : fields text = first :: second :: rest) (hfirst : (wireName first).length ≤ maxNameLen)
    (hsecond : (wireName second).length ≤ maxNameLen) : ∃ values : List ℕ, rest.map (parseUint · 32) = values.map some ∧
      SOAShown (nameLabels first) (readLabels (remembered first) second) values ∧
      unpackRData lib typeSOA w = .ok (shownSOA (nameLabels first) (readLabels (remembered first) second) values) := by
  obtain ⟨v, hv, rfl⟩ := packRData_iff.mp h
  obtain ⟨names, first', second', j, values, hform⟩ := writeRDataSOA_form hv rfl rfl (by decide)
  obtain ⟨numbers, hfields', hvalues⟩ := hform.fields
  rw [hfields] at hfields'
  cases hfields'
  have hwords : Unspaced first ∧ Unspaced second := by
    constructor
    · exact (mem_fields (hfields ▸ mem_cons_self)).2
    · exact (mem_fields (hfields ▸ mem_cons_of_mem first mem_cons_self)).2
  have hbounds : ∀ v ∈ values, v < 2 ^ 32 := by
    intro v hv
    have hmem : some v ∈ rest.map (parseUint · 32) := hvalues ▸ mem_map_of_mem hv
    obtain ⟨s, -, hs⟩ := mem_map.mp hmem
    exact parseUint_lt hs
  have hlower := lowered_lengths hform.labels
  rw [wireName, length_append, encodeLabels_length, length_singleton] at hfirst hsecond
  refine ⟨values, hvalues, ⟨⟨?_, ?_, hfirst⟩, ⟨?_, ?_, by omega⟩, hform.count, hbounds⟩, ?_⟩
  · exact fun l hl => ⟨hform.first_at.labels l hl, nameLabels_no_dot hl⟩
  · exact fun l hl => hwords.1.of_isInfix (nameLabels_isInfix hl)
  · exact fun l hl => ⟨hform.second_at.labels l hl, (readLabels_isInfix hl).1⟩
  · intro l hl
    rcases (readLabels_isInfix hl).2 with hin | hin
    · exact hwords.1.of_isInfix hin
    · exact hwords.2.of_isInfix hin
  · rw [hform.wire_eq]
    have hlen : ∀ name : Text, (dotted (nameLabels name)).length < maxNameLen → (wireName name).length ≤ maxNameLen := by
      intro name hname
      rw [wireName, length_append, encodeLabels_length, length_singleton]
      exact hname
    obtain ⟨_, _, -, -, -, hread⟩ := hform.decodes lib (hlen first hfirst) (hlen second hsecond) hform.count hbounds
    exact hread

def Stable (lib : Library) (type : RRType) (w : Bytes) : Prop :=
  ∃ t w', unpackRData lib type w = .ok t ∧ packRData (encoders lib) type t = .ok w' ∧ unpackRData lib type w' = .ok t

theorem WritesBack.stable {type : RRType} (h : WritesBack lib type w) : Stable lib type w := by
  obtain ⟨t, hread, hwrite⟩ := h
  exact ⟨t, w, hread, hwrite, hread⟩

theorem stable_soa (h : packRData (encoders lib) typeSOA text = .ok w) (hfields : fields text = first :: second :: rest)
    (hfirst : (wireName first).length ≤ maxNameLen)
    (hsecond : (wireName second).length ≤ maxNameLen) : Stable lib typeSOA w ↔ SpelledAlike first second := by
  obtain ⟨values, -, hshown, hread⟩ := unpackRData_packed h hfields hfirst hsecond
  obtain ⟨v, hv⟩ := hshown.packs
  have hpack : packRData (encoders lib) typeSOA (shownSOA (nameLabels first) (readLabels (remembered first) second) values) =
      .ok v.out := packRData_iff.mpr ⟨v, hv, rfl⟩
  have hplain := hshown.first.1
  have hplain' := hshown.second.1
  have hlen : ∀ ls : List Bytes, PlainLabels ls → (dotted ls).length < maxNameLen → (wireName (absolute ls)).length ≤ maxNameLen := by
    intro ls hls hlt
    rw [wireName, hls.absolute, length_append, encodeLabels_length, length_singleton]
    exact hlt
  obtain ⟨values', hvalues', hshown', hread'⟩ := unpackRData_packed hpack hshown.fields_eq (hlen _ hplain hshown.first.2.2)
    (hlen _ hplain' hshown.second.2.2)
  have hsame : values' = values := by
    have hparse : (values.map formatUint).map (parseUint · 32) = values.map some := by
      rw [map_map]
      exact map_congr_left fun v hv => parseUint_formatUint (hshown.bounds v hv)
    exact (map_injective_iff.mpr (Option.some_injective ℕ) (hparse.symm.trans hvalues')).symm
  rw [hplain.absolute, hsame] at hshown' hread'
  rw [spelledAlike_iff, ← readLabels_absolute hplain hplain']
  constructor
  · rintro ⟨t, w', ht, hw', ht'⟩
    rw [hread] at ht
    cases ht
    rw [hpack] at hw'
    cases hw'
    rw [hread'] at ht'
    exact hshown'.inj hshown (Except.ok.inj ht')
  · intro heq
    rw [heq] at hread'
    exact ⟨_, _, hread, hpack, hread'⟩

end Authority

theorem getElem?_behind {texts : List Text} {name : Text} {n : ℕ} (h : texts.length = n) :
    (texts ++ name :: rest)[n]? = some name := by
  rw [getElem?_append_right h.le, h, Nat.sub_self]
  rfl

def structuredTypes : List RRType :=
  [typeA, typeAAAA, typeNS, typeCNAME, typePTR, typeMX, typeSRV, typeSOA, typeDS, typeDNSKEY, typeRRSIG, typeZONEMD]

theorem stable_iff {lib : Library} {type : RRType} {text w : Bytes} (htype : type ∈ structuredTypes)
    (h : packRData (encoders lib) type text = .ok w) (hshort : ∀ e ∈ embeddedNames type text, (wireName e.2).length ≤ 255) :
    Stable lib type w ↔
      (type = typeSOA → ∀ first second rest, fields text = first :: second :: rest → SpelledAlike first second) := by
  have hmax : maxNameLen = 255 := rfl
  rw [← hmax] at hshort
  have hother : type ≠ typeSOA → WritesBack lib type w → (Stable lib type w ↔
      (type = typeSOA → ∀ first second rest, fields text = first :: second :: rest → SpelledAlike first second)) :=
    fun hne hback => iff_of_true hback.stable fun heq => absurd heq hne
  have hfield : ∀ index offset name, embeddedNames type text = nameField text index offset → (fields text)[index]? = some name →
      (wireName name).length ≤ maxNameLen := by
    intro index offset name hnames hname
    apply hshort (offset, name)
    rw [hnames, nameField, hname]
    exact mem_singleton_self _
  simp only [structuredTypes, mem_cons, not_mem_nil, or_false] at htype
  rcases htype with rfl | rfl | rfl | rfl | rfl | rfl | rfl | rfl | rfl | rfl | rfl | rfl
  · exact hother (by decide) (writesBack_address (.inl rfl) h)
  · exact hother (by decide) (writesBack_address (.inr rfl) h)
  · exact hother (by decide) (writesBack_name (.inl rfl) h (hshort (0, text) mem_cons_self))
  · exact hother (by decide) (writesBack_name (.inr (.inl rfl)) h (hshort (0, text) mem_cons_self))
  · exact hother (by decide) (writesBack_name (.inr (.inr rfl)) h (hshort (0, text) mem_cons_self))
  · refine hother (by decide) ((numberedType_mx lib).writesBack (by decide) h fun texts name rest hfields htexts => ?_)
    exact hfield 1 2 name rfl (hfields ▸ getElem?_behind htexts)
  · refine hother (by decide) ((numberedType_srv lib).writesBack (by decide) h fun texts name rest hfields htexts => ?_)
    exact hfield 3 6 name rfl (hfields ▸ getElem?_behind htexts)
  · obtain ⟨v, hv, -⟩ := packRData_iff.mp h
    obtain ⟨first, second, rest, hfields, -⟩ := soa_cases hv rfl rfl (by decide)
    have hnames : embeddedNames typeSOA text = [(0, first), ((wireName first).length, second)] := by
      change soaNames text = _
      rw [soaNames, hfields]
    rw [hnames, forall_mem_cons, forall_mem_singleton] at hshort
    rw [stable_soa h hfields hshort.1 hshort.2]
    constructor
    · intro halike _ first' second' rest' hfields'
      rw [hfields] at hfields'
      cases hfields'
      exact halike
    · exact fun halike => halike rfl first second rest hfields
  · exact hother (by decide) ((payloadType_ds lib).writesBack (payload_hex lib) h)
  · exact hother (by decide) ((payloadType_dnskey lib).writesBack payload_base64 h)
  · exact hother (by decide) (writesBack_rrsig h fun name hname => hfield 7 18 name rfl hname)
  · exact hother (by decide) ((payloadType_zonemd lib).writesBack (payload_hex lib) h)

theorem stable_pointer : Stable .basic typeSOA ([1, 97, 0, 1, 98, 0xC0, 0] ++ [1, 2, 3, 4, 5].flatMap (bigEndian 4)) := by
  refine (stable_iff (by decide)
    (by decide +kernel : packRData (encoders .basic) typeSOA (ascii "a. b.A. 1 2 3 4 5") = .ok _) (by decide +kernel)).mpr ?_
  intro _ first second rest hfields
  have hwords : fields (ascii "a. b.A. 1 2 3 4 5") =
      ascii "a." :: ascii "b.A." :: [ascii "1", ascii "2", ascii "3", ascii "4", ascii "5"] := by decide +kernel
  rw [hwords] at hfields
  cases hfields
  apply (spelledAlike_iff _ _).mpr
  refine (readLabels_absolute ?_ ?_).mp (by decide +kernel)
  · intro l hl
    obtain rfl : l = ascii "a" := mem_singleton.mp hl
    exact ⟨⟨by decide, by decide⟩, by decide⟩
  · intro l hl
    have hread : readLabels (remembered (ascii "a.")) (ascii "b.A.") = [ascii "b", ascii "a"] := by decide +kernel
    rw [hread, mem_cons, mem_singleton] at hl
    rcases hl with rfl | rfl
    · exact ⟨⟨by decide, by decide⟩, by decide⟩
    · exact ⟨⟨by decide, by decide⟩, by decide⟩

/-- Without a dot at its end the second name shares nothing. It is shown with the dot, and with it the writer takes the end
from the first name, whose letters are capitals. -/
theorem stable_recased :
    ∃ w, packRData (encoders .basic) typeSOA (ascii "A.b. x.a.b 1 2 3 4 5") = .ok w ∧
      (∀ e ∈ embeddedNames typeSOA (ascii "A.b. x.a.b 1 2 3 4 5"), (wireName e.2).length ≤ 255) ∧
      unpackRData .basic typeSOA w = .ok (ascii "A.b. x.a.b. 1 2 3 4 5") ∧ ¬Stable .basic typeSOA w := by
  have hpack : packRData (encoders .basic) typeSOA (ascii "A.b. x.a.b 1 2 3 4 5") =
      .ok ([1, 65, 1, 98, 0, 1, 120, 1, 97, 1, 98, 0] ++ [1, 2, 3, 4, 5].flatMap (bigEndian 4)) := by decide +kernel
  have hread : unpackRData .basic typeSOA ([1, 65, 1, 98, 0, 1, 120, 1, 97, 1, 98, 0] ++ [1, 2, 3, 4, 5].flatMap (bigEndian 4)) =
      .ok (ascii "A.b. x.a.b. 1 2 3 4 5") := by decide +kernel
  have hagain : packRData (encoders .basic) typeSOA (ascii "A.b. x.a.b. 1 2 3 4 5") =
      .ok ([1, 65, 1, 98, 0, 1, 120, 0xC0, 0] ++ [1, 2, 3, 4, 5].flatMap (bigEndian 4)) := by decide +kernel
  have hread' : unpackRData .basic typeSOA ([1, 65, 1, 98, 0, 1, 120, 0xC0, 0] ++ [1, 2, 3, 4, 5].flatMap (bigEndian 4)) =
      .ok (ascii "A.b. x.A.b. 1 2 3 4 5") := by decide +kernel
  refine ⟨_, hpack, by decide +kernel, hread, ?_⟩
  rintro ⟨t, w, ht, hw, ht'⟩
  obtain rfl := Except.ok.inj (hread.symm.trans ht)
  obtain rfl := Except.ok.inj (hagain.symm.trans hw)
  exact absurd (Except.ok.inj (hread'.symm.trans ht')) (by decide +kernel)

end Kdns.Wire
