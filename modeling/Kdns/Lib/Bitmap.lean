import Kdns.Lib.ByteStream
import Mathlib.Data.List.Basic
import Mathlib.Data.List.Nodup
import Mathlib.Data.Nat.Bitwise

/-! Sets of 16-bit numbers as windows of bitmaps: the bits of one window, the blocks on the wire, and the strict reading
of them. -/

namespace Bitmap

open ByteStream List

section Window

def hasBit (bm : Bytes) (i : UInt8) : Bool := (bm.getD (i.toNat / 8) 0).toNat.testBit (7 - i.toNat % 8)

def setBit (bm : Bytes) (i : UInt8) : Bytes :=
  (bm ++ List.replicate (i.toNat / 8 + 1 - bm.length) 0).modify (i.toNat / 8) (· ||| 1 <<< UInt8.ofNat (7 - i.toNat % 8))

theorem setBit_length (bm : Bytes) (i : UInt8) : (setBit bm i).length = max bm.length (i.toNat / 8 + 1) := by
  rw [setBit, length_modify, length_append, length_replicate]
  omega

theorem testBit_single {a b : ℕ} (ha : a < 8) : (1 <<< UInt8.ofNat a : UInt8).toNat.testBit b = decide (a = b) := by
  have hpow : ∀ a < 8, (1 <<< UInt8.ofNat a : UInt8).toNat = 2 ^ a := by decide
  rw [hpow a ha, Nat.testBit_two_pow]

theorem setBit_getD (bm : Bytes) (i : UInt8) (k : ℕ) : (setBit bm i).getD k 0 =
      if i.toNat / 8 = k then bm.getD k 0 ||| 1 <<< UInt8.ofNat (7 - i.toNat % 8) else bm.getD k 0 := by
  have hpad : ∀ n, (bm ++ List.replicate n 0).getD k 0 = bm.getD k 0 := by
    intro n
    by_cases hk : k < bm.length
    · rw [getD_append _ _ _ _ hk]
    · grind
  rw [setBit, getD_eq_getElem?_getD, List.getElem?_modify, ← hpad (i.toNat / 8 + 1 - bm.length),
    getD_eq_getElem?_getD]
  split_ifs with hk
  · grind
  · simp

theorem hasBit_setBit (bm : Bytes) (i j : UInt8) : hasBit (setBit bm i) j = (decide (i = j) || hasBit bm j) := by
  rw [hasBit, setBit_getD, hasBit]
  split_ifs with hk
  · rw [UInt8.toNat_or, Nat.testBit_or, testBit_single (by omega), Bool.or_comm]
    congr 1
    apply decide_eq_decide.mpr
    rw [← UInt8.toNat_inj]
    omega
  · have hne : i ≠ j := by
      rintro rfl
      exact hk rfl
    rw [decide_eq_false hne, Bool.false_or]

structure Trimmed (bm : Bytes) : Prop where
  length_le : bm.length ≤ 32
  last : bm.getD (bm.length - 1) 0 ≠ 0

theorem Trimmed.length_pos {bm : Bytes} (h : Trimmed bm) : 1 ≤ bm.length := by
  apply length_pos_of_ne_nil
  rintro rfl
  exact h.last rfl

instance trimmedDecidable (bm : Bytes) : Decidable (Trimmed bm) :=
  decidable_of_iff (bm.length ≤ 32 ∧ bm.getD (bm.length - 1) 0 ≠ 0) ⟨fun h => ⟨h.1, h.2⟩, fun h => ⟨h.1, h.2⟩⟩

theorem setBit_trimmed {bm : Bytes} (h : bm = [] ∨ Trimmed bm) (i : UInt8) : Trimmed (setBit bm i) := by
  have hlen := setBit_length bm i
  have hi := i.toNat_lt
  have hle : bm.length ≤ 32 := by
    rcases h with rfl | h
    · exact Nat.zero_le 32
    · exact h.length_le
  refine ⟨by omega, ?_⟩
  by_cases hk : i.toNat / 8 = (setBit bm i).length - 1
  · -- The byte with the new bit.
    intro hzero
    have hbit := hasBit_setBit bm i i
    rw [hasBit, hk, hzero, decide_eq_true rfl] at hbit
    simp at hbit
  · rcases h with rfl | h
    · rw [length_nil] at hlen
      omega
    · rw [setBit_getD, if_neg hk, show (setBit bm i).length - 1 = bm.length - 1 by omega]
      exact h.last

end Window

section Blocks

def writeBlocks (blocks : List (UInt8 × Bytes)) : Bytes := blocks.flatMap fun b => b.1 :: UInt8.ofNat b.2.length :: b.2

def readFrom : ℕ → Bytes → Option (List (UInt8 × Bytes))
  | _, [] => some []
  | fuel + 1, w :: n :: rest =>
    if n.toNat ≤ rest.length ∧ Trimmed (rest.take n.toNat) then
      (readFrom fuel (rest.drop n.toNat)).map ((w, rest.take n.toNat) :: ·)
    else none
  | _, _ => none

def read (data : Bytes) : Option (List (UInt8 × Bytes)) :=
  (readFrom data.length data).filter fun blocks => (blocks.map Prod.fst).Pairwise fun a b => a.toNat < b.toNat

theorem readFrom_writeBlocks {blocks : List (UInt8 × Bytes)} (h : ∀ b ∈ blocks, Trimmed b.2) {fuel : ℕ}
    (hf : blocks.length ≤ fuel) : readFrom fuel (writeBlocks blocks) = some blocks := by
  induction blocks generalizing fuel with
  | nil => cases fuel <;> rfl
  | cons b blocks ih =>
    rw [forall_mem_cons] at h
    cases fuel with
    | zero => exact absurd hf (Nat.not_succ_le_zero _)
    | succ fuel =>
      have hlen : (UInt8.ofNat b.2.length).toNat = b.2.length := by
        have hle := h.1.length_le
        rw [UInt8.toNat_ofNat']
        omega
      have hcons : writeBlocks (b :: blocks) = b.1 :: UInt8.ofNat b.2.length :: (b.2 ++ writeBlocks blocks) := rfl
      rw [hcons, readFrom, hlen, take_left, drop_left, ih h.2 (Nat.le_of_succ_le_succ hf), if_pos]
      · rfl
      · grind

theorem length_le_writeBlocks (blocks : List (UInt8 × Bytes)) : blocks.length ≤ (writeBlocks blocks).length := by
  induction blocks with
  | nil => exact Nat.le_refl 0
  | cons b blocks ih =>
    have hcons : writeBlocks (b :: blocks) = b.1 :: UInt8.ofNat b.2.length :: (b.2 ++ writeBlocks blocks) := rfl
    rw [hcons]
    simp only [length_cons, length_append]
    omega

theorem read_writeBlocks {blocks : List (UInt8 × Bytes)} (h : ∀ b ∈ blocks, Trimmed b.2)
    (hsorted : (blocks.map Prod.fst).Pairwise fun a b => a.toNat < b.toNat) : read (writeBlocks blocks) = some blocks := by
  rw [read, readFrom_writeBlocks h (length_le_writeBlocks blocks), Option.filter_some, if_pos (decide_eq_true hsorted)]

def window (t : UInt16) : UInt8 := (t >>> 8).toUInt8

def low (t : UInt16) : UInt8 := (t &&& 0xFF).toUInt8

theorem window_toNat (t : UInt16) : (window t).toNat = t.toNat / 256 := by
  have ht := t.toNat_lt
  have hhigh : (t >>> 8).toNat = t.toNat / 256 := by
    exact Nat.shiftRight_eq_div_pow t.toNat 8
  rw [window, UInt16.toNat_toUInt8, hhigh]
  omega

theorem low_toNat (t : UInt16) : (low t).toNat = t.toNat % 256 := by
  have hlow : (t &&& 0xFF).toNat = t.toNat % 256 := by
    exact Nat.and_two_pow_sub_one_eq_mod t.toNat 8
  rw [low, UInt16.toNat_toUInt8, hlow, Nat.mod_mod]

theorem eq_of_window_low {t t' : UInt16} (hw : window t = window t') (hl : low t = low t') : t = t' := by
  have hw' := congrArg UInt8.toNat hw
  have hl' := congrArg UInt8.toNat hl
  rw [window_toNat, window_toNat] at hw'
  rw [low_toNat, low_toNat] at hl'
  apply UInt16.toNat_inj.mp
  omega

theorem exists_window_low (w i : UInt8) : ∃ t, window t = w ∧ low t = i := by
  have hw := w.toNat_lt
  have hi := i.toNat_lt
  have ht : (UInt16.ofNat (256 * w.toNat + i.toNat)).toNat = 256 * w.toNat + i.toNat := by
    rw [UInt16.toNat_ofNat']
    omega
  refine ⟨UInt16.ofNat (256 * w.toNat + i.toNat), ?_, ?_⟩
  · apply UInt8.toNat_inj.mp
    rw [window_toNat, ht]
    omega
  · apply UInt8.toNat_inj.mp
    rw [low_toNat, ht]
    omega

def Marks (blocks : List (UInt8 × Bytes)) (t : UInt16) : Prop :=
  ∃ b ∈ blocks, b.1 = window t ∧ hasBit b.2 (low t) = true

end Blocks

section Canonical

structure Canonical (blocks : List (UInt8 × Bytes)) : Prop where
  trimmed : ∀ b ∈ blocks, Trimmed b.2
  sorted : (blocks.map Prod.fst).Pairwise fun a b => a.toNat < b.toNat

theorem hasBit_ofNat (bm : Bytes) {k j : ℕ} (hk : k < 32) (hj : j < 8) :
    hasBit bm (UInt8.ofNat (8 * k + (7 - j))) = (bm.getD k 0).toNat.testBit j := by
  have hi : (UInt8.ofNat (8 * k + (7 - j))).toNat = 8 * k + (7 - j) := by
    rw [UInt8.toNat_ofNat']
    omega
  have hbyte : (8 * k + (7 - j)) / 8 = k := by omega
  have hbit : 7 - (8 * k + (7 - j)) % 8 = j := by omega
  rw [hasBit, hi, hbyte, hbit]

theorem byte_testBit (b : UInt8) {j : ℕ} (hj : 8 ≤ j) : b.toNat.testBit j = false := by
  apply Nat.testBit_lt_two_pow
  exact Nat.lt_of_lt_of_le b.toNat_lt (Nat.pow_le_pow_right (by decide) hj)

theorem Trimmed.exists_hasBit {bm : Bytes} (h : Trimmed bm) : ∃ i, hasBit bm i = true := by
  have hle := h.length_le
  by_contra hnone
  apply h.last
  apply UInt8.toNat_inj.mp
  apply Nat.eq_of_testBit_eq
  intro j
  rw [UInt8.toNat_zero, Nat.zero_testBit]
  by_cases hj : j < 8
  · rw [← hasBit_ofNat bm (by omega) hj]
    exact Bool.eq_false_iff.mpr fun hbit => hnone ⟨_, hbit⟩
  · exact byte_testBit _ (Nat.le_of_not_lt hj)

theorem Trimmed.ext {bm bm' : Bytes} (h : Trimmed bm) (h' : Trimmed bm') (heq : ∀ i, hasBit bm i = hasBit bm' i) :
    bm = bm' := by
  have hle := h.length_le
  have hle' := h'.length_le
  have hbytes : ∀ k, bm.getD k 0 = bm'.getD k 0 := by
    intro k
    by_cases hk : k < 32
    · apply UInt8.toNat_inj.mp
      apply Nat.eq_of_testBit_eq
      intro j
      by_cases hj : j < 8
      · rw [← hasBit_ofNat bm hk hj, ← hasBit_ofNat bm' hk hj, heq]
      · rw [byte_testBit _ (Nat.le_of_not_lt hj), byte_testBit _ (Nat.le_of_not_lt hj)]
    · grind
  have hlength : bm.length = bm'.length := by
    -- A longer one would end in a byte that the other does not have.
    by_contra hne
    rcases Nat.lt_or_gt_of_ne hne with hlt | hgt
    · apply h'.last
      rw [← hbytes, getD_eq_default bm _ (by omega)]
    · apply h.last
      rw [hbytes, getD_eq_default bm' _ (by omega)]
  apply ext_getElem hlength
  intro k hk hk'
  have hbyte := hbytes k
  rwa [getD_eq_getElem bm _ hk, getD_eq_getElem bm' _ hk'] at hbyte

section Unique

variable {blocks blocks' : List (UInt8 × Bytes)}

variable (h : Canonical blocks)
include h

theorem Canonical.eq_of_fst {b b' : UInt8 × Bytes} (hb : b ∈ blocks) (hb' : b' ∈ blocks)
    (hfst : b.1 = b'.1) : b = b' := by
  have hnodup : (blocks.map Prod.fst).Nodup := by
    refine h.sorted.imp ?_
    rintro a b hlt rfl
    exact Nat.lt_irrefl _ hlt
  exact inj_on_of_nodup_map hnodup hb hb' hfst

theorem Canonical.marks_iff {b : UInt8 × Bytes} (hb : b ∈ blocks) {t : UInt16} (ht : window t = b.1) :
    Marks blocks t ↔ hasBit b.2 (low t) = true := by
  constructor
  · rintro ⟨b', hb', hw, hbit⟩
    rwa [h.eq_of_fst hb hb' (ht.symm.trans hw.symm)]
  · exact fun hbit => ⟨b, hb, ht.symm, hbit⟩

theorem Canonical.subset (h' : Canonical blocks') (hmarks : ∀ t, Marks blocks t ↔ Marks blocks' t) {b : UInt8 × Bytes}
    (hb : b ∈ blocks) : b ∈ blocks' := by
  obtain ⟨i, hi⟩ := (h.trimmed b hb).exists_hasBit
  obtain ⟨t, hwindow, rfl⟩ := exists_window_low b.1 i
  obtain ⟨b', hb', hw, -⟩ := (hmarks t).mp ((h.marks_iff hb hwindow).mpr hi)
  have hbits : ∀ i, hasBit b.2 i = hasBit b'.2 i := by
    intro i
    obtain ⟨t', hwindow', rfl⟩ := exists_window_low b.1 i
    rw [Bool.eq_iff_iff, ← h.marks_iff hb hwindow', hmarks,
      h'.marks_iff hb' (hwindow'.trans (hwindow.symm.trans hw.symm))]
  have heq : b = b' := Prod.ext (hwindow.symm.trans hw.symm) ((h.trimmed b hb).ext (h'.trimmed b' hb') hbits)
  exact heq ▸ hb'

theorem Canonical.unique (h' : Canonical blocks') (hmarks : ∀ t, Marks blocks t ↔ Marks blocks' t) :
    blocks = blocks' := by
  have hsorted := pairwise_map.mp h.sorted
  have hsorted' := pairwise_map.mp h'.sorted
  have hirrefl : ∀ {a b : UInt8 × Bytes}, a.1.toNat < b.1.toNat → a ≠ b := by
    rintro a b hlt rfl
    exact Nat.lt_irrefl _ hlt
  apply List.Perm.eq_of_pairwise (fun a b _ _ hab hba => absurd hba (Nat.lt_asymm hab)) hsorted hsorted'
  apply (perm_ext_iff_of_nodup (hsorted.imp hirrefl) (hsorted'.imp hirrefl)).mpr
  intro b
  exact ⟨h.subset h' hmarks, h'.subset h fun t => (hmarks t).symm⟩

end Unique

end Canonical

end Bitmap
