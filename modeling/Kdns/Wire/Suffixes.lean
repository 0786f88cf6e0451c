import Kdns.Wire.Tables

namespace Kdns.Wire

open ByteStream Dns CompressedName List

def suffixesFrom : Bool → Bytes → List Bytes
  | _, [] => []
  | start, b :: rest =>
    if b = dotByte then suffixesFrom true rest
    else if start then (b :: rest) :: suffixesFrom false rest
    else suffixesFrom false rest

def labelSuffixes (name : Bytes) : List Bytes := suffixesFrom true name

variable {label s r : Bytes} {start : Bool}

theorem suffixesFrom_nodot (h : dotByte ∉ label) : suffixesFrom false label = [] := by
  induction label with
  | nil => rfl
  | cons b label ih =>
    simp only [mem_cons, not_or] at h
    rw [suffixesFrom, if_neg (Ne.symm h.1), if_neg Bool.false_ne_true]
    exact ih h.2

theorem suffixesFrom_dot (h : dotByte ∉ label) (rest : Bytes) :
    suffixesFrom false (label ++ dotByte :: rest) = labelSuffixes rest := by
  induction label with
  | nil => rw [nil_append, suffixesFrom, if_pos rfl, labelSuffixes]
  | cons b label ih =>
    simp only [mem_cons, not_or] at h
    rw [cons_append, suffixesFrom, if_neg (Ne.symm h.1), if_neg Bool.false_ne_true]
    exact ih h.2

def Headed (s : Bytes) : Prop := ∃ b x, s = b :: x ∧ b ≠ dotByte

theorem Headed.nameLabels_ne (h : Headed s) : nameLabels s ≠ [] := by
  obtain ⟨b, x, rfl, hb⟩ := h
  intro hnil
  cases hdot : (b :: x).idxOf? dotByte with
  | none =>
    rw [nameLabels_nodot (idxOf?_eq_none_iff.mp hdot), if_neg (cons_ne_nil b x)] at hnil
    cases hnil
  | some i =>
    rw [nameLabels_split hdot] at hnil
    cases i with
    | zero => exact hb (cons.inj (split_at_dot hdot).1).1
    | succ i => simp at hnil

section First

variable {suffix rest : Bytes}

theorem FirstLabel.headed (h : FirstLabel suffix label rest) (hl : label ≠ []) : Headed suffix := by
  obtain ⟨b, x, rfl⟩ := exists_cons_of_ne_nil hl
  obtain ⟨hdot, ⟨rfl, -⟩ | rfl⟩ := h
  · exact ⟨b, x, rfl, fun hb => hdot (hb ▸ mem_cons_self)⟩
  · exact ⟨b, _, rfl, fun hb => hdot (hb ▸ mem_cons_self)⟩

theorem FirstLabel.suffixes (h : FirstLabel suffix label rest) (hl : label ≠ []) :
    labelSuffixes suffix = suffix :: labelSuffixes rest := by
  obtain ⟨b, x, rfl⟩ := exists_cons_of_ne_nil hl
  obtain ⟨hdot, hcut⟩ := h
  simp only [mem_cons, not_or] at hdot
  rcases hcut with ⟨rfl, rfl⟩ | rfl
  · rw [labelSuffixes, suffixesFrom, if_neg (Ne.symm hdot.1), if_pos rfl, suffixesFrom_nodot hdot.2]
    rfl
  · rw [cons_append, labelSuffixes, suffixesFrom, if_neg (Ne.symm hdot.1), if_pos rfl, suffixesFrom_dot hdot.2]

end First

section

variable (h : r ∈ suffixesFrom start s)
include h

theorem isSuffix_of_mem_suffixesFrom : r <:+ s := by
  induction s generalizing start with
  | nil => cases h
  | cons b s ih =>
    rw [suffixesFrom] at h
    split_ifs at h
    · exact (ih h).trans (suffix_cons b s)
    · rcases mem_cons.mp h with rfl | h
      · exact suffix_rfl
      · exact (ih h).trans (suffix_cons b s)
    · exact (ih h).trans (suffix_cons b s)

theorem length_le_of_mem_suffixesFrom : r.length ≤ s.length :=
  (isSuffix_of_mem_suffixesFrom h).length_le

theorem headed_of_mem_suffixesFrom : Headed r := by
  induction s generalizing start with
  | nil => cases h
  | cons b s ih =>
    rw [suffixesFrom] at h
    split_ifs at h with hb
    · exact ih h
    · rcases mem_cons.mp h with rfl | h
      · exact ⟨b, s, rfl, hb⟩
      · exact ih h
    · exact ih h

end

theorem Headed.of_fold (h : Headed s) (hfold : equalFoldASCII s r = true) : Headed r := by
  obtain ⟨b, x, rfl, hb⟩ := h
  have heq : (b :: x).map GoStrings.lowerASCII = r.map GoStrings.lowerASCII := of_decide_eq_true hfold
  cases r with
  | nil => cases heq
  | cons c y =>
    refine ⟨c, y, rfl, ?_⟩
    rintro rfl
    exact hb ((lowerASCII_eq_dot b).mp (cons.inj heq).1)

def Apart (known : List Bytes) (name : Bytes) : Prop :=
  ∀ r ∈ labelSuffixes name, ∀ s ∈ known, equalFoldASCII s r = false

instance (known : List Bytes) (name : Bytes) : Decidable (Apart known name) :=
  inferInstanceAs (Decidable (∀ r ∈ labelSuffixes name, ∀ s ∈ known, equalFoldASCII s r = false))

def sharedPart (known : List Bytes) (name : Bytes) : Option (Bytes × Bytes) :=
  (labelSuffixes name).findSome? fun r => (known.find? fun s => equalFoldASCII s r).map fun s => (r, s)

section Shared

variable {known : List Bytes} {name : Bytes}

theorem sharedPart_some (h : sharedPart known name = some (r, s)) :
    r ∈ labelSuffixes name ∧ s ∈ known ∧ equalFoldASCII s r = true := by
  obtain ⟨front, r', back, hsplit, hfind, -⟩ := findSome?_eq_some_iff.mp h
  obtain ⟨s', hs', heq⟩ := Option.map_eq_some_iff.mp hfind
  cases heq
  have hfold : equalFoldASCII s r = true := by simpa using find?_some hs'
  exact ⟨hsplit ▸ mem_append_right front mem_cons_self, mem_of_find?_eq_some hs', hfold⟩

theorem sharedPart_eq_none : sharedPart known name = none ↔ Apart known name := by
  rw [sharedPart, findSome?_eq_none_iff]
  apply forall₂_congr
  intro r _
  rw [Option.map_eq_none_iff, find?_eq_none]
  simp only [Bool.not_eq_true]

theorem sharedPart_append {long : Bytes} (hlong : name.length < long.length) :
    sharedPart (known ++ [long]) name = sharedPart known name := by
  have hfind : ∀ r ∈ labelSuffixes name,
      (known ++ [long]).find? (fun s => equalFoldASCII s r) = known.find? fun s => equalFoldASCII s r := by
    intro r hr
    have hother : ¬equalFoldASCII long r = true := by
      intro hfold
      have hlen := equalFoldASCII_length hfold
      have hle := length_le_of_mem_suffixesFrom hr
      omega
    rw [find?_append, find?_singleton, if_neg hother, Option.or_none]
  rw [sharedPart, sharedPart]
  generalize labelSuffixes name = parts at hfind
  induction parts with
  | nil => rfl
  | cons r parts ih =>
    rw [forall_mem_cons] at hfind
    rw [findSome?_cons, findSome?_cons, hfind.1, ih hfind.2]

end Shared

def PacketWriter.known (w : PacketWriter) : List Bytes := w.table.map Prod.fst

def wireName (name : Bytes) : Bytes := encodeLabels (nameLabels name) ++ [0]

theorem take_take_append {α : Type} (n : ℕ) (xs ys : List α) : (xs.take n ++ ys).take n = (xs ++ ys).take n := by
  rw [take_append, take_append, take_take, Nat.min_self, length_take]
  congr 2
  omega

section Runs

variable {allow : Bool} {w w' : PacketWriter} {suffix : Bytes}

theorem fold_of_lookup_none (h : w.lookup suffix = none) (hs : Headed suffix) (hmem : s ∈ w.known) :
    equalFoldASCII s suffix = false := by
  obtain ⟨b, x, rfl, hb⟩ := hs
  have hroot : ¬(b :: x = [] ∨ b :: x = [dotByte]) := by
    rintro (hnil | hdot)
    · cases hnil
    · exact hb (cons.inj hdot).1
  obtain ⟨e, he, rfl⟩ := mem_map.mp hmem
  rw [PacketWriter.lookup, if_neg hroot, Option.map_eq_none_iff, find?_eq_none] at h
  exact Bool.eq_false_iff.mpr (h e he)

theorem known_labelled (allow : Bool) (w : PacketWriter) (suffix label : Bytes) :
    (w.labelled allow suffix label).known = w.known ∨ (w.labelled allow suffix label).known = w.known ++ [suffix] := by
  unfold PacketWriter.labelled PacketWriter.insert
  split_ifs
  · exact .inl rfl
  · exact .inl rfl
  · exact .inr map_append
  · exact .inl rfl

theorem sharedPart_labelled (label : Bytes) {rest : Bytes} (hrest : rest.length < suffix.length) :
    sharedPart (w.labelled allow suffix label).known rest = sharedPart w.known rest := by
  rcases known_labelled allow w suffix label with h | h
  · rw [h]
  · rw [h, sharedPart_append hrest]

theorem find_of_lookup {t : ℕ} (h : w.lookup suffix = some t) :
    ∃ s, (s, t) ∈ w.table ∧ (w.known.find? fun s => equalFoldASCII s suffix) = some s := by
  unfold PacketWriter.lookup at h
  split_ifs at h
  obtain ⟨e, he, rfl⟩ := Option.map_eq_some_iff.mp h
  refine ⟨e.1, mem_of_find?_eq_some he, ?_⟩
  rw [PacketWriter.known, find?_map, Function.comp_def, he]
  rfl

theorem SuffixRun.full_or_known (h : SuffixRun allow w suffix w') (hw : ∀ s ∈ w.known, Headed s) :
    ((allow = true → sharedPart w.known suffix = none) ∧ (∀ l ∈ nameLabels suffix, IsLabel l) ∧
        w'.out = w.out ++ wireName suffix) ∨
      allow = true ∧ ∃ front s t r, sharedPart w.known suffix = some (r, s) ∧ (s, t) ∈ w.table ∧
        nameLabels suffix = front ++ nameLabels r ∧ (∀ l ∈ front, IsLabel l) ∧
        w'.out = w.out ++ (encodeLabels front ++ pointerBytes t) := by
  induction h with
  | root _ => exact .inl ⟨fun _ => rfl, nofun, rfl⟩
  | @known w suffix t hallow hlookup _ =>
    obtain ⟨s, hmem, hfind⟩ := find_of_lookup hlookup
    have hfold : equalFoldASCII s suffix = true := by simpa using find?_some hfind
    obtain ⟨b, x, rfl, hb⟩ := (hw s (mem_map_of_mem hmem)).of_fold hfold
    refine .inr ⟨hallow, [], s, t, b :: x, ?_, hmem, rfl, nofun, rfl⟩
    rw [sharedPart, labelSuffixes, suffixesFrom, if_neg hb, if_pos rfl, findSome?_cons, hfind]
    rfl
  | @label w w' suffix label rest hnew hfirst hl _ ih =>
    have hhead := hfirst.headed hl.nonempty
    have hlabels := hfirst.nameLabels hl.nonempty
    have hshort := hfirst.length_lt hl.nonempty
    have hstep : ∀ s ∈ (w.labelled allow suffix label).known, Headed s := by
      intro s hs
      obtain ⟨e, he, rfl⟩ := mem_map.mp hs
      rcases labelled_table w allow suffix label he with he | ⟨rfl, -⟩
      · exact hw _ (mem_map_of_mem he)
      · exact hhead
    have hshared : allow = true → sharedPart w.known suffix = sharedPart w.known rest := by
      intro hallow
      have hnone : (w.known.find? fun s => equalFoldASCII s suffix) = none :=
        find?_eq_none.mpr fun s hs => Bool.eq_false_iff.mp (fold_of_lookup_none (hnew hallow) hhead hs)
      rw [sharedPart, hfirst.suffixes hl.nonempty, findSome?_cons, hnone]
      rfl
    rw [sharedPart_labelled label hshort] at ih
    rcases ih hstep with ⟨hnone, hrest, hout⟩ | ⟨hallow, front, s, t, r, hsome, hmem, hsplit, hfront, hout⟩
    · refine .inl ⟨fun hallow => (hshared hallow).trans (hnone hallow), ?_, ?_⟩
      · rw [hlabels]
        exact forall_mem_cons.mpr ⟨hl, hrest⟩
      · rw [hout, labelled_out, wireName, wireName, hlabels, encodeLabels_cons]
        simp only [append_assoc]
    · refine .inr ⟨hallow, label :: front, s, t, r, (hshared hallow).trans hsome, ?_, ?_,
        forall_mem_cons.mpr ⟨hl, hfront⟩, ?_⟩
      · rcases labelled_table w allow suffix label hmem with hmem | ⟨heq, -⟩
        · exact hmem
        · -- the part that was just entered is longer than what is found
          obtain ⟨rfl, -⟩ := Prod.mk.inj heq
          obtain ⟨hr, -, hfold⟩ := sharedPart_some hsome
          have hlen := equalFoldASCII_length hfold
          have hle := length_le_of_mem_suffixesFrom hr
          omega
      · rw [hlabels, hsplit, cons_append]
      · rw [hout, labelled_out, encodeLabels_cons]
        simp only [append_assoc]
  | @skip w w' rest _ _ ih =>
    exact ih hw

theorem SuffixRun.offset_le (h : SuffixRun allow w suffix w') : w.offset ≤ w'.offset := by
  obtain ⟨front, back, closing, hwritten⟩ := h.written
  rw [PacketWriter.offset, PacketWriter.offset, hwritten.out_eq, length_append]
  apply Nat.le_add_right

theorem known_labelled_eq (label : Bytes) (hnone : w.lookup suffix = none) (hs : Headed suffix)
    (hmask : w.offset ≤ pointerOffsetMask) (hcount : w.known.length ≤ maxCompressionOffsets) :
    (w.labelled true suffix label).known = (w.known ++ [suffix]).take maxCompressionOffsets := by
  have hroot : ¬(suffix = [] ∨ suffix = [dotByte]) := by
    obtain ⟨b, x, rfl, hb⟩ := hs
    rintro (hnil | hdot)
    · cases hnil
    · exact hb (cons.inj hdot).1
  have hlen : w.known.length = w.table.length := length_map _
  have hlabelled : (w.labelled true suffix label).known = (w.insert suffix).known := rfl
  by_cases hfull : maxCompressionOffsets ≤ w.table.length
  · rw [hlabelled, insert_full (.inl hfull), take_append_of_le_length (by omega), take_of_length_le hcount]
  · rcases insert_cases hroot hnone with ⟨hf, -⟩ | htable
    · rcases hf with hf | hf
      · exact absurd hf hfull
      · omega
    · rw [hlabelled, PacketWriter.known, htable, map_append, take_of_length_le]
      · rfl
      · rw [length_append, length_singleton]
        omega

theorem SuffixRun.known_eq (h : SuffixRun true w suffix w') (hlong : ∀ s ∈ w.known, suffix.length < s.length)
    (hmask : w'.offset ≤ pointerOffsetMask) (hcount : w.known.length ≤ maxCompressionOffsets) :
    w'.known = (w.known ++ labelSuffixes suffix).take maxCompressionOffsets := by
  induction h with
  | root _ =>
    rw [show labelSuffixes [] = [] from rfl, append_nil, take_of_length_le hcount]
    rfl
  | known _ hlookup _ =>
    obtain ⟨s, hmem, hfold⟩ := PacketWriter.mem_of_lookup hlookup
    have hlt := hlong s (mem_map_of_mem hmem)
    have hlen := equalFoldASCII_length hfold
    omega
  | @label w w' suffix label rest hnew hfirst hl run ih =>
    have hshort := hfirst.length_lt hl.nonempty
    have hle := run.offset_le
    rw [labelled_offset] at hle
    have hknown := known_labelled_eq label (hnew rfl) (hfirst.headed hl.nonempty) (by omega) hcount
    have hrest := ih ?_ hmask ?_
    · rw [hrest, hknown, hfirst.suffixes hl.nonempty, take_take_append, append_assoc, singleton_append]
    · intro s hs
      rw [hknown] at hs
      rcases mem_append.mp (mem_of_mem_take hs) with hs | hs
      · exact hshort.trans (hlong s hs)
      · obtain rfl := mem_singleton.mp hs
        exact hshort
    · rw [hknown, length_take]
      exact Nat.min_le_left _ _
  | @skip w w' rest _ run ih =>
    exact ih (fun s hs => (Nat.lt_succ_self _).trans (hlong s hs)) hmask hcount

end Runs

end Kdns.Wire
