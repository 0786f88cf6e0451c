import Kdns.Wire.Echo

namespace Kdns.Wire

open ByteStream Dns CompressedName List

def lowered (ls : List Bytes) : List Bytes := ls.map fun l => l.map GoStrings.lowerASCII

theorem lowered_cons (l : Bytes) (ls : List Bytes) : lowered (l :: ls) = l.map GoStrings.lowerASCII :: lowered ls := rfl

theorem lowered_append (ls ls' : List Bytes) : lowered (ls ++ ls') = lowered ls ++ lowered ls' := map_append

theorem lowerASCII_eq_dot (b : UInt8) : GoStrings.lowerASCII b = dotByte ↔ b = dotByte := by
  constructor
  · intro h
    by_contra hne
    exact Radix.lowerByte_ne_dot b hne h
  · rintro rfl
    rfl

theorem splitOn_lower (name : Bytes) : (name.map GoStrings.lowerASCII).splitOn dotByte = lowered (name.splitOn dotByte) := by
  have hnodot : ∀ a : Bytes, dotByte ∉ a → dotByte ∉ a.map GoStrings.lowerASCII := by
    intro a ha hmem
    obtain ⟨b, hb, heq⟩ := mem_map.mp hmem
    exact ha ((lowerASCII_eq_dot b).mp heq ▸ hb)
  induction name using first_dot_induction with
  | base a ha =>
    rw [splitOn_eq_singleton ha, splitOn_eq_singleton (hnodot a ha)]
    rfl
  | step a b ha ih =>
    rw [map_append, map_cons, (lowerASCII_eq_dot dotByte).mpr rfl, splitOn_append_cons_self,
      splitOn_append_cons_self, lowered_append, ih, splitOn_eq_singleton ha, splitOn_eq_singleton (hnodot a ha)]
    rfl

variable {name more p closing : Bytes} {ls ls' labels front back : List Bytes} {w' w : PacketWriter}

theorem Segmented.lower (h : Segmented name) : Segmented (name.map GoStrings.lowerASCII) := by
  intro label hlabel
  rw [splitOn_lower] at hlabel
  obtain ⟨l, hl, rfl⟩ := mem_map.mp hlabel
  rw [length_map]
  exact h l hl

theorem nameLabels_lower (name : Bytes) : nameLabels (name.map GoStrings.lowerASCII) = lowered (nameLabels name) := by
  rw [nameLabels, nameLabels, splitOn_lower, lowered, lowered, filter_map]
  congr 2
  funext l
  simp

theorem lowered_of_equalFold {a b : Bytes} (h : equalFoldASCII a b = true) :
    lowered (nameLabels a) = lowered (nameLabels b) := by
  have heq : a.map GoStrings.lowerASCII = b.map GoStrings.lowerASCII := of_decide_eq_true h
  rw [← nameLabels_lower, ← nameLabels_lower, heq]

theorem dotted_lowered (ls : List Bytes) : (dotted ls).map GoStrings.lowerASCII = dotted (lowered ls) := by
  induction ls with
  | nil => rfl
  | cons l ls ih =>
    rw [dotted_cons, lowered, map_cons, dotted_cons, map_append, map_append, ih]
    rfl

theorem equalFold_of_lowered (h : lowered ls = lowered ls') :
    equalFoldASCII (dotted ls).dropLast (dotted ls').dropLast = true := by
  apply decide_eq_true
  rw [map_dropLast, map_dropLast, dotted_lowered, dotted_lowered, h]

theorem lowered_lengths (h : lowered ls = lowered ls') : (dotted ls).length = (dotted ls').length := by
  have hlen := congrArg (fun x => (dotted x).length) h
  simp only [← dotted_lowered, length_map] at hlen
  exact hlen

theorem dotted_append (ls ls' : List Bytes) : dotted (ls ++ ls') = dotted ls ++ dotted ls' := flatMap_append

theorem dotted_nameLabels_length (name : Bytes) : (dotted (nameLabels name)).length ≤ name.length + 1 := by
  induction name using first_dot_induction with
  | base a ha =>
    rw [nameLabels_nodot ha]
    split_ifs
    · exact Nat.zero_le _
    · simp [dotted]
  | step a b ha ih =>
    have hfirst : (dotted (nameLabels a)).length ≤ a.length + 1 := by
      rw [nameLabels_nodot ha]
      split_ifs
      · exact Nat.zero_le _
      · simp [dotted]
    rw [nameLabels_dot, dotted_append, length_append, length_append, length_cons]
    omega

def NamedAt (p : Bytes) (i : ℕ) (labels : List Bytes) (j next : ℕ) : Prop :=
  ∃ ls, NameAt p headerSize i ls j next ∧ lowered ls = lowered labels

def PacketWriter.Valid (w : PacketWriter) (d : ℕ) : Prop :=
  ∀ e ∈ w.table, e.2 < w.offset ∧ ∃ j < d, ∃ next, NamedAt w.out e.2 (nameLabels e.1) j next

theorem NamedAt.mono {cut : Prop} (h : Appended w w' more cut) (hs : w.Sound) {i j next : ℕ}
    (hat : NamedAt w.out i labels j next) : NamedAt w'.out i labels j next := by
  obtain ⟨ls, hat, hls⟩ := hat
  exact ⟨ls, h.nameAt hs hat, hls⟩

def Inside (w : PacketWriter) (p : Bytes) : Prop := ∃ more, p.drop headerSize = w.out.drop headerSize ++ more

theorem Inside.of_appended {cut : Prop} (h : Inside w' p) (ha : Appended w w' more cut) : Inside w p := by
  obtain ⟨rest, hrest⟩ := h
  exact ⟨more ++ rest, by rw [hrest, ha.body, append_assoc]⟩

theorem Inside.of_grows (h : Inside w' p) (hg : Grows w w') : Inside w p := by
  obtain ⟨more, cut, ha⟩ := hg
  exact h.of_appended ha

section Inside

variable (h : Inside w p)
include h

theorem Inside.congr (hs : w.Sound) : ∃ more, (w.out ++ more).drop headerSize = p.drop headerSize := by
  obtain ⟨more, hmore⟩ := h
  exact ⟨more, by rw [hmore, drop_append_of_le_length hs.header]⟩

theorem Inside.nameAt (hs : w.Sound) {i j next : ℕ}
    (hat : NameAt w.out headerSize i ls j next) : NameAt p headerSize i ls j next := by
  obtain ⟨more, hmore⟩ := h.congr hs
  exact (hat.append more).congr hmore

theorem Inside.isPrefix (hs : w.Sound) {x : Bytes} {i : ℕ} (hi : headerSize ≤ i) (hx : x <+: w.out.drop i) :
    x <+: p.drop i := by
  obtain ⟨more, hmore⟩ := h.congr hs
  rw [← drop_congr hmore hi]
  exact isPrefix_drop_append hx more

theorem Inside.length_le (hlt : headerSize < w.offset) : w.offset ≤ p.length := by
  obtain ⟨more, hmore⟩ := h
  have hlen := congrArg length hmore
  rw [length_append, length_drop, length_drop] at hlen
  unfold PacketWriter.offset at hlt ⊢
  omega

end Inside

theorem encodeLabels_take_drop (ls : List Bytes) (k : ℕ) :
    encodeLabels ls = encodeLabels (ls.take k) ++ encodeLabels (ls.drop k) := by
  rw [← encodeLabels_append, take_append_drop]

theorem NameWritten.namedAt {d : ℕ} (hs : w.Sound) (hv : w.Valid d) (h : NameWritten w name w' front back closing) :
    ∃ j ≤ d, ∀ k ≤ front.length,
      NamedAt w'.out (w.offset + (encodeLabels (front.take k)).length) ((front ++ back).drop k) j w'.offset := by
  have hsize : headerSize ≤ w.offset := hs.header
  have hfront := h.isPrefix
  have hoffset : w'.offset = w.offset + (encodeLabels front).length + closing.length := by
    rw [PacketWriter.offset, h.out_eq, length_append, length_append, ← Nat.add_assoc]
    rfl
  have hclosing : closing <+: w'.out.drop (w.offset + (encodeLabels front).length) := by
    obtain ⟨post, hpost⟩ := hfront
    rw [← drop_drop, ← hpost, append_assoc, drop_left]
    exact ⟨post, rfl⟩
  -- the labels in front of what closes the name
  have hwhole : ∀ {ls : List Bytes} {j : ℕ}, lowered ls = lowered back →
      NameAt w'.out headerSize (w.offset + (encodeLabels front).length) ls j w'.offset → ∀ k ≤ front.length,
      NamedAt w'.out (w.offset + (encodeLabels (front.take k)).length) ((front ++ back).drop k) j w'.offset := by
    intro ls j hls hat k hk
    refine ⟨front.drop k ++ ls, ?_, ?_⟩
    · apply NameAt.encode (by omega)
      · exact fun l hl => h.front_labels l (mem_of_mem_drop hl)
      · obtain ⟨post, hpost⟩ := hfront
        rw [encodeLabels_take_drop front k, append_assoc, append_assoc] at hpost
        rw [← drop_drop, ← hpost, drop_left]
        exact ⟨_, rfl⟩
      · rw [Nat.add_assoc, ← length_append, ← encodeLabels_take_drop]
        exact hat
    · rw [drop_append_of_le_length hk, lowered_append, lowered_append, hls]
  rcases h.closed with ⟨rfl, rfl⟩ | ⟨s, t, rest, hmem, hfold, -, rfl, rfl⟩
  · refine ⟨0, Nat.zero_le d, hwhole (j := 0) rfl ?_⟩
    rw [hoffset]
    exact .root (by omega) hclosing
  · obtain ⟨hback, j, hj, next, ls, hat, hls⟩ := hv _ hmem
    refine ⟨j + 1, hj, hwhole (hls.trans (lowered_of_equalFold hfold)) ?_⟩
    rw [hoffset, pointerBytes_length]
    have htarget : NameAt w'.out headerSize t ls j next := by
      rw [h.out_eq]
      exact hat.append _
    exact .pointer (by omega) (Nat.lt_succ_of_le (hs.placed _ hmem)) (by omega) hclosing htarget

theorem NamedAt.bounds {i j next : ℕ} (h : NamedAt p i labels j next) : i < next ∧ next ≤ p.length := by
  obtain ⟨ls, hat, -⟩ := h
  exact hat.bounds

theorem PacketWriter.Valid.mono {cut : Prop} {d : ℕ} (h : w.Valid d) (hs : w.Sound) (ha : Appended w w' more cut)
    (htable : w'.table = w.table) : w'.Valid d := by
  intro e he
  rw [htable] at he
  obtain ⟨hlt, j, hj, next, hat⟩ := h e he
  have hoffset := ha.offset_eq hs
  exact ⟨by omega, j, hj, next, hat.mono ha hs⟩

theorem NameWritten.valid {d : ℕ} (hs : w.Sound) (hv : w.Valid d) (h : NameWritten w name w' front back closing) :
    (∃ j ≤ d, NamedAt w'.out w.offset (nameLabels name) j w'.offset) ∧ w'.Valid (d + 1) := by
  obtain ⟨j, hj, hat⟩ := h.namedAt hs hv
  constructor
  · refine ⟨j, hj, ?_⟩
    have hwhole := hat 0 (Nat.zero_le _)
    rwa [drop_zero, ← h.labels_eq] at hwhole
  · intro e he
    rcases h.learned e he with he | ⟨-, -, k, hk, hplace, hlabels⟩
    · obtain ⟨hlt, j', hj', next, ls, hat', hls⟩ := hv e he
      have hle : w.offset ≤ w'.offset := by
        rw [PacketWriter.offset, PacketWriter.offset, h.out_eq, length_append]
        apply Nat.le_add_right
      refine ⟨by omega, j', by omega, next, ls, ?_, hls⟩
      rw [h.out_eq]
      exact hat'.append _
    · have hnamed := hat k hk.le
      rw [← hplace, ← hlabels] at hnamed
      exact ⟨hnamed.bounds.1, j, Nat.lt_succ_of_le hj, _, hnamed⟩

section Lookup

theorem lookup_append {more : List (Bytes × ℕ)} (h : w'.table = w.table ++ more) {t : ℕ}
    (ht : w.lookup name = some t) : w'.lookup name = some t := by
  unfold PacketWriter.lookup at ht ⊢
  split_ifs at ht ⊢ with hroot
  obtain ⟨e, he, rfl⟩ := Option.map_eq_some_iff.mp ht
  rw [h, find?_append, he]
  rfl

theorem lookup_last {t : ℕ} (h : w'.table = w.table ++ [(name, t)]) (hroot : ¬(name = [] ∨ name = [dotByte]))
    (hnone : w.lookup name = none) : w'.lookup name = some t := by
  unfold PacketWriter.lookup at hnone ⊢
  rw [if_neg hroot] at hnone ⊢
  have hfold : equalFoldASCII name name = true := decide_eq_true rfl
  rw [h, find?_append, Option.map_eq_none_iff.mp hnone, find?_singleton, if_pos hfold]
  rfl

theorem lookup_congr (h : w'.table = w.table) : w'.lookup name = w.lookup name := by
  rw [PacketWriter.lookup, PacketWriter.lookup, h]

def PacketWriter.Full (w : PacketWriter) : Prop := maxCompressionOffsets ≤ w.table.length ∨ pointerOffsetMask < w.offset

theorem insert_full (h : w.Full) (domain : Bytes) : w.insert domain = w := by
  unfold PacketWriter.insert
  rw [if_pos]
  rcases h with h | h
  · exact .inl h
  · exact .inr (.inl h)

theorem insert_cases (hroot : ¬(name = [] ∨ name = [dotByte])) (hnone : w.lookup name = none) :
    w.Full ∧ w.insert name = w ∨ (w.insert name).table = w.table ++ [(name, w.offset)] := by
  by_cases hfull : w.Full
  · exact .inl ⟨hfull, insert_full hfull name⟩
  right
  unfold PacketWriter.lookup at hnone
  rw [if_neg hroot, Option.map_eq_none_iff, find?_eq_none] at hnone
  simp only [PacketWriter.Full, not_or, not_le, not_lt] at hfull
  unfold PacketWriter.insert
  rw [if_neg (by simp only [not_or] at hroot ⊢; exact ⟨by omega, by omega, hroot.1, hroot.2⟩), if_neg]
  intro hany
  obtain ⟨e, he, hfold⟩ := any_eq_true.mp hany
  exact hnone e he hfold

theorem writeRoot_table (w : PacketWriter) : w.writeRoot.1.table = w.table := by
  unfold PacketWriter.writeRoot
  split_ifs <;> rfl

theorem full_nameStep : NameStep fun w w' => w.Full → w'.table = w.table ∧ w'.Full where
  refl _ h := ⟨rfl, h⟩
  trans h h' hw := by
    obtain ⟨htable, hfull⟩ := h hw
    obtain ⟨htable', hfull'⟩ := h' hfull
    exact ⟨htable'.trans htable, hfull'⟩
  put w bytes h := by
    refine ⟨rfl, ?_⟩
    rcases h with h | h
    · exact .inl h
    · right
      rw [put_offset]
      omega
  insert w domain h := by
    rw [insert_full h]
    exact ⟨rfl, h⟩

end Lookup

end Kdns.Wire
