import Kdns.Wire.NameAt
import Kdns.Wire.Names

open List

namespace Kdns.Wire

open ByteStream Dns CompressedName

def nameLabels (name : Bytes) : List Bytes := (name.splitOn dotByte).filter fun l => l ≠ []

theorem nameLabels_dot (a b : Bytes) : nameLabels (a ++ dotByte :: b) = nameLabels a ++ nameLabels b := by
  rw [nameLabels, splitOn_append_cons_self, filter_append]
  rfl

variable {a suffix closing rest name : Bytes} {w w' : PacketWriter} {allow : Bool} {front back : List Bytes}

theorem nameLabels_nodot (h : dotByte ∉ a) : nameLabels a = if a = [] then [] else [a] := by
  rw [nameLabels, splitOn_eq_singleton h]
  split_ifs with h0
  · simp [h0]
  · simp [h0]

theorem nameLabels_split {i : ℕ} (h : suffix.idxOf? dotByte = some i) :
    nameLabels suffix = (if suffix.take i = [] then [] else [suffix.take i]) ++ nameLabels (suffix.drop (i + 1)) := by
  obtain ⟨heq, -, hnodot⟩ := split_at_dot h
  conv_lhs => rw [heq]
  rw [nameLabels_dot, nameLabels_nodot hnodot]

theorem nameLabels_nil : nameLabels [] = [] := rfl

theorem nameLabels_concat (name : Bytes) : nameLabels (name ++ [dotByte]) = nameLabels name := by
  rw [nameLabels_dot, nameLabels_nil, append_nil]

namespace PacketWriter

theorem writeRoot_ok (h : w.writeRoot = (w', none)) : w.offset < w.limit ∧ w' = w.put [0] := by
  unfold writeRoot at h
  split_ifs at h with hfit
  · cases h
  · exact ⟨Nat.lt_of_not_le hfit, (Prod.mk.inj h).1.symm⟩

variable {domain : Bytes}

theorem mem_insert {e : Bytes × ℕ} (h : e ∈ (w.insert domain).table) :
    e ∈ w.table ∨ e = (domain, w.offset) ∧ w.offset ≤ pointerOffsetMask := by
  unfold insert at h
  split_ifs at h with hfull hknown
  · exact .inl h
  · exact .inl h
  · simp only [not_or] at hfull
    rcases mem_append.mp h with h | h
    · exact .inl h
    · exact .inr ⟨mem_singleton.mp h, Nat.le_of_not_lt hfull.2.1⟩

theorem mem_of_lookup {t : ℕ} (h : w.lookup domain = some t) :
    ∃ s, (s, t) ∈ w.table ∧ equalFoldASCII s domain = true := by
  unfold lookup at h
  split_ifs at h
  obtain ⟨e, he, rfl⟩ := Option.map_eq_some_iff.mp h
  have hfold := List.find?_some he
  exact ⟨e.1, mem_of_find?_eq_some he, hfold⟩

end PacketWriter

theorem put_put (w : PacketWriter) (a b : Bytes) : (w.put a).put b = w.put (a ++ b) := by
  simp only [PacketWriter.put, append_assoc]

theorem put_nil (w : PacketWriter) : w.put [] = w := by
  rw [PacketWriter.put, append_nil]

theorem put_isPrefix (w : PacketWriter) (bytes : Bytes) : bytes <+: (w.put bytes).out.drop w.offset := by
  refine ⟨[], ?_⟩
  rw [append_nil, PacketWriter.put, PacketWriter.offset, drop_left]

def PacketWriter.labelled (w : PacketWriter) (allow : Bool) (suffix label : Bytes) : PacketWriter :=
  (if allow then w.insert suffix else w).put (labelBytes label)

section Labelled

variable (w : PacketWriter) (allow : Bool) (suffix label : Bytes)

theorem labelled_limit : (w.labelled allow suffix label).limit = w.limit := by
  unfold PacketWriter.labelled
  split_ifs
  · exact (insert_out w suffix).1
  · rfl

theorem labelled_out : (w.labelled allow suffix label).out = w.out ++ labelBytes label := by
  unfold PacketWriter.labelled
  split_ifs
  · rw [PacketWriter.put, (insert_out w suffix).2]
  · rfl

theorem labelled_offset : (w.labelled allow suffix label).offset = w.offset + (labelBytes label).length := by
  rw [PacketWriter.offset, labelled_out, length_append]
  rfl

theorem labelled_table {e : Bytes × ℕ} (he : e ∈ (w.labelled allow suffix label).table) :
    e ∈ w.table ∨ e = (suffix, w.offset) ∧ w.offset ≤ pointerOffsetMask := by
  unfold PacketWriter.labelled at he
  split_ifs at he
  · exact PacketWriter.mem_insert he
  · exact .inl he

end Labelled

theorem writeLabel_ok {fullSuffix label : Bytes} (h : w.writeLabel fullSuffix label closing allow = (w', none)) :
    (label = [] ∧ w' = w) ∨
      (IsLabel label ∧ w.offset + 1 + label.length + closing.length ≤ w.limit ∧
        w' = (w.labelled allow fullSuffix label).put closing) := by
  unfold PacketWriter.writeLabel at h
  obtain ⟨hlen, h⟩ := Fallible.of_ite h nofun
  by_cases h0 : label = []
  · rw [if_pos h0] at h
    cases h
    exact .inl ⟨h0, rfl⟩
  rw [if_neg h0] at h
  obtain ⟨hfit, h⟩ := Fallible.of_ite h nofun
  refine .inr ⟨⟨h0, Nat.le_of_not_lt hlen⟩, Nat.le_of_not_lt hfit, ?_⟩
  rw [PacketWriter.labelled, put_put]
  exact (Prod.mk.inj h).1.symm

theorem equalFoldASCII_length {b : Bytes} (h : equalFoldASCII a b = true) : a.length = b.length := by
  have heq : a.map GoStrings.lowerASCII = b.map GoStrings.lowerASCII := of_decide_eq_true h
  simpa using congrArg List.length heq

/-- A name that was written: some labels, then the root or a pointer to a name with the rest of them. The table has
learned nothing but the places of these labels. -/
structure NameWritten (w : PacketWriter) (name : Bytes) (w' : PacketWriter) (front back : List Bytes) (closing : Bytes) :
    Prop where
  labels_eq : nameLabels name = front ++ back
  front_labels : ∀ l ∈ front, IsLabel l
  closed : closing = [0] ∧ back = [] ∨
    ∃ s t rest, (s, t) ∈ w.table ∧ equalFoldASCII s rest = true ∧ rest.length ≤ name.length ∧
      nameLabels rest = back ∧ closing = pointerBytes t
  out_eq : w'.out = w.out ++ (encodeLabels front ++ closing)
  limit_eq : w'.limit = w.limit
  fits : w'.offset ≤ w'.limit
  learned : ∀ e ∈ w'.table, e ∈ w.table ∨ e.2 ≤ pointerOffsetMask ∧ e.1.length ≤ name.length ∧ ∃ k < front.length,
    e.2 = w.offset + (encodeLabels (front.take k)).length ∧ nameLabels e.1 = (front ++ back).drop k

theorem NameWritten.label {label : Bytes} (hl : IsLabel label) (hlabels : nameLabels suffix = label :: nameLabels rest)
    (hrest : rest.length < suffix.length) (h : NameWritten (w.labelled allow suffix label) rest w' front back closing) :
    NameWritten w suffix w' (label :: front) back closing := by
  have htable := fun e => labelled_table w allow suffix label (e := e)
  refine ⟨?_, ?_, ?_, ?_, h.limit_eq.trans (labelled_limit ..), h.fits, ?_⟩
  · rw [hlabels, h.labels_eq, cons_append]
  · intro l' hl'
    rcases mem_cons.mp hl' with rfl | hl'
    · exact hl
    · exact h.front_labels l' hl'
  · rcases h.closed with hroot | ⟨s, t, rest', hmem, hfold, hle, hback, hclosing⟩
    · exact .inl hroot
    · right
      refine ⟨s, t, rest', ?_, hfold, by omega, hback, hclosing⟩
      rcases htable _ hmem with hmem | ⟨heq, -⟩
      · exact hmem
      · -- the suffix that was just entered is longer than what is looked up now
        obtain ⟨rfl, -⟩ := Prod.mk.inj heq
        have hlen := equalFoldASCII_length hfold
        omega
  · rw [h.out_eq, labelled_out, encodeLabels_cons, append_assoc, append_assoc]
  · intro e he
    rcases h.learned e he with he | ⟨hmask, hlen, k, hk, hplace, hnamed⟩
    · rcases htable e he with he | ⟨rfl, hmask⟩
      · exact .inl he
      · right
        refine ⟨hmask, le_rfl, 0, Nat.succ_pos _, rfl, ?_⟩
        rw [drop_zero, hlabels, h.labels_eq, cons_append]
    · right
      refine ⟨hmask, by omega, k + 1, Nat.succ_lt_succ hk, ?_, hnamed⟩
      rw [hplace, labelled_offset, take_succ_cons, encodeLabels_cons, length_append, Nat.add_assoc]

theorem NameWritten.skip (hlabels : nameLabels suffix = nameLabels rest) (hrest : rest.length < suffix.length)
    (h : NameWritten w rest w' front back closing) : NameWritten w suffix w' front back closing := by
  refine ⟨hlabels.trans h.labels_eq, h.front_labels, ?_, h.out_eq, h.limit_eq, h.fits, ?_⟩
  · rcases h.closed with hroot | ⟨s, t, rest', hmem, hfold, hle, hclosed⟩
    · exact .inl hroot
    · exact .inr ⟨s, t, rest', hmem, hfold, by omega, hclosed⟩
  · intro e he
    rcases h.learned e he with he | ⟨hmask, hlen, hk⟩
    · exact .inl he
    · exact .inr ⟨hmask, by omega, hk⟩

theorem nameWritten_root (hname : nameLabels name = []) (hfit : w.offset < w.limit) :
    NameWritten w name (w.put [0]) [] [] [0] where
  labels_eq := hname
  front_labels := nofun
  closed := .inl ⟨rfl, rfl⟩
  out_eq := rfl
  limit_eq := rfl
  fits := by
    rw [put_offset]
    exact hfit
  learned _ he := .inl he

def FirstLabel (suffix label rest : Bytes) : Prop :=
  dotByte ∉ label ∧ (suffix = label ∧ rest = [] ∨ suffix = label ++ dotByte :: rest)

theorem FirstLabel.nameLabels {label : Bytes} (h : FirstLabel suffix label rest) (hl : label ≠ []) :
    nameLabels suffix = label :: nameLabels rest := by
  obtain ⟨hdot, ⟨rfl, rfl⟩ | rfl⟩ := h
  · rw [nameLabels_nodot hdot, if_neg hl]
    rfl
  · rw [nameLabels_dot, nameLabels_nodot hdot, if_neg hl]
    rfl

theorem FirstLabel.length_lt {label : Bytes} (h : FirstLabel suffix label rest) (hl : label ≠ []) :
    rest.length < suffix.length := by
  obtain ⟨-, ⟨rfl, rfl⟩ | rfl⟩ := h
  · exact length_pos_of_ne_nil hl
  · rw [length_append, length_cons]
    omega

inductive SuffixRun (allow : Bool) : PacketWriter → Bytes → PacketWriter → Prop
  | root {w : PacketWriter} (hfit : w.offset < w.limit) : SuffixRun allow w [] (w.put [0])
  | known {w : PacketWriter} {suffix : Bytes} {t : ℕ} (hallow : allow = true) (hlookup : w.lookup suffix = some t)
      (hfit : w.offset + 2 ≤ w.limit) : SuffixRun allow w suffix (w.put (pointerBytes t))
  | label {w w' : PacketWriter} {suffix label rest : Bytes} (hnew : allow = true → w.lookup suffix = none)
      (hfirst : FirstLabel suffix label rest) (hl : IsLabel label)
      (run : SuffixRun allow (w.labelled allow suffix label) rest w') : SuffixRun allow w suffix w'
  | skip {w w' : PacketWriter} {rest : Bytes} (hnew : allow = true → w.lookup (dotByte :: rest) = none)
      (run : SuffixRun allow w rest w') : SuffixRun allow w (dotByte :: rest) w'

theorem writeSuffix_run (allow : Bool) {fuel : ℕ} (hfuel : suffix.length < fuel) (hne : suffix ≠ [])
    (h : writeSuffix allow fuel w suffix = (w', none)) : SuffixRun allow w suffix w' := by
  induction fuel generalizing w suffix with
  | zero => omega
  | succ fuel ih =>
    rw [writeSuffix] at h
    cases hfound : (if allow then w.lookup suffix else none) with
    | some t =>
      rw [hfound] at h
      split_ifs at h with hfit
      · cases h
      · cases h
        split_ifs at hfound with hallow
        exact .known hallow hfound (Nat.le_of_not_lt hfit)
    | none =>
      rw [hfound] at h
      have hnew : allow = true → w.lookup suffix = none := by
        intro hallow
        rwa [if_pos hallow] at hfound
      cases hdot : suffix.idxOf? dotByte with
      | none =>
        rw [hdot] at h
        rcases writeLabel_ok h with ⟨h0, -⟩ | ⟨hl, hfit, rfl⟩
        · exact absurd h0 hne
        · apply SuffixRun.label hnew ⟨List.idxOf?_eq_none_iff.mp hdot, .inl ⟨rfl, rfl⟩⟩ hl
          apply SuffixRun.root
          rw [labelled_offset, labelled_limit, labelBytes_length, ← Nat.add_assoc]
          exact hfit
      | some i =>
        rw [hdot] at h
        obtain ⟨hsuffix, hi, hnodot⟩ := split_at_dot hdot
        dsimp only at h
        rcases hlabel : w.writeIntermediateLabel suffix (suffix.take i) allow with ⟨w₁, _ | e⟩
        · rw [hlabel] at h
          -- the rest of the name, whichever way its first label was written
          have hrest : SuffixRun allow w₁ (suffix.drop (i + 1)) w' := by
            split_ifs at h with h0
            · obtain ⟨hfit, rfl⟩ := PacketWriter.writeRoot_ok h
              rw [h0]
              exact .root hfit
            · exact ih (by rw [length_drop]; omega) h0 h
          rcases writeLabel_ok hlabel with ⟨h0, rfl⟩ | ⟨hl, -, hw₁⟩
          · rw [h0, nil_append] at hsuffix
            rw [hsuffix] at hnew ⊢
            exact .skip hnew hrest
          · rw [hw₁, put_nil] at hrest
            exact .label hnew ⟨hnodot, .inr hsuffix⟩ hl hrest
        · rw [hlabel] at h
          cases h

theorem SuffixRun.written (h : SuffixRun allow w suffix w') :
    ∃ front back closing, NameWritten w suffix w' front back closing := by
  induction h with
  | root hfit => exact ⟨[], [], [0], nameWritten_root nameLabels_nil hfit⟩
  | @known w suffix t _ hlookup hfit =>
    obtain ⟨s, hmem, hfold⟩ := PacketWriter.mem_of_lookup hlookup
    refine ⟨[], nameLabels suffix, pointerBytes t, rfl, nofun, .inr ⟨s, t, suffix, hmem, hfold, le_rfl, rfl, rfl⟩,
      rfl, rfl, ?_, fun e he => .inl he⟩
    rw [put_offset, pointerBytes_length]
    exact hfit
  | label _ hfirst hl _ ih =>
    obtain ⟨front, back, closing, hrest⟩ := ih
    exact ⟨_ :: front, back, closing, hrest.label hl (hfirst.nameLabels hl.nonempty) (hfirst.length_lt hl.nonempty)⟩
  | skip _ _ ih =>
    obtain ⟨front, back, closing, hrest⟩ := ih
    exact ⟨front, back, closing, hrest.skip (nameLabels_dot [] _) (Nat.lt_succ_self _)⟩

variable (h : w.writeDomainCompressed name allow = (w', none))
include h

theorem writeDomainCompressed_run : name.length ≤ maxNameLen ∧ SuffixRun allow w name w' := by
  unfold PacketWriter.writeDomainCompressed at h
  obtain ⟨hlen, h⟩ := Fallible.of_ite h nofun
  refine ⟨Nat.le_of_not_lt hlen, ?_⟩
  by_cases hroot : name = [] ∨ name = [dotByte]
  · rw [if_pos hroot] at h
    obtain ⟨hfit, rfl⟩ := PacketWriter.writeRoot_ok h
    rcases hroot with rfl | rfl
    · exact .root hfit
    · exact .skip (fun _ => if_pos (.inr rfl)) (.root hfit)
  · rw [if_neg hroot] at h
    simp only [not_or] at hroot
    exact writeSuffix_run allow (Nat.lt_succ_self _) hroot.1 h

theorem writeDomainCompressed_written :
    ∃ front back closing, NameWritten w name w' front back closing :=
  (writeDomainCompressed_run h).2.written

end Kdns.Wire
