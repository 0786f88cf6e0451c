import Kdns.Dnssec.Nsec
import Kdns.Wire.Presentation

open List

namespace Kdns.Wire

open ByteStream Dns GoStrings Bitmap

namespace Window

def bitmap (x : Window) : Bytes := x.octets.take (x.maxBit / 8 + 1)

def closed (x : Window) : UInt8 × Bytes := (UInt8.ofNat x.block, x.bitmap)

structure Valid (x : Window) : Prop where
  length : x.octets.length = 32
  block_lt : x.block < 256
  max_lt : x.maxBit < 256
  has_max : hasBit x.octets (UInt8.ofNat x.maxBit) = true
  le_max : ∀ i, hasBit x.octets i = true → i.toNat ≤ x.maxBit

variable {x : Window} {bit : ℕ}

theorem mark_octets (hlen : x.octets.length = 32) (hbit : bit < 256) :
    (x.mark bit).octets = setBit x.octets (UInt8.ofNat bit) := by
  have hnat : (UInt8.ofNat bit).toNat = bit := by
    rw [UInt8.toNat_ofNat']
    omega
  have hpow : ∀ a < 8, UInt8.ofNat (2 ^ a) = 1 <<< UInt8.ofNat a := by decide
  have hpad : bit / 8 + 1 - x.octets.length = 0 := by omega
  rw [setBit, hnat, hpad, replicate_zero, append_nil, ← hpow _ (by omega)]
  rfl

theorem hasBit_mark (hlen : x.octets.length = 32) (hbit : bit < 256) (i : UInt8) :
    hasBit (x.mark bit).octets i = true ↔ i.toNat = bit ∨ hasBit x.octets i = true := by
  rw [mark_octets hlen hbit, hasBit_setBit, Bool.or_eq_true, decide_eq_true_eq, ← UInt8.toNat_inj, UInt8.toNat_ofNat',
    Nat.mod_eq_of_lt hbit, eq_comm]

theorem Valid.mark (h : x.Valid) (hbit : bit < 256) : (x.mark bit).Valid where
  length := by
    rw [mark_octets h.length hbit, setBit_length, h.length, UInt8.toNat_ofNat']
    omega
  block_lt := h.block_lt
  max_lt := Nat.max_lt.mpr ⟨h.max_lt, hbit⟩
  has_max := by
    have hmax : (x.mark bit).maxBit = max x.maxBit bit := rfl
    rw [hasBit_mark h.length hbit, hmax]
    rcases Nat.le_total x.maxBit bit with hle | hle
    · left
      rw [Nat.max_eq_right hle, UInt8.toNat_ofNat', Nat.mod_eq_of_lt hbit]
    · right
      rw [Nat.max_eq_left hle]
      exact h.has_max
  le_max := by
    intro i hi
    rcases (hasBit_mark h.length hbit i).mp hi with hi | hi
    · exact hi.le.trans (Nat.le_max_right _ _)
    · exact (h.le_max i hi).trans (Nat.le_max_left _ _)

theorem hasBit_zeros (n : ℕ) (i : UInt8) : hasBit (replicate n 0) i = false := by
  rw [hasBit, getD_eq_getElem?_getD, getElem?_replicate]
  split_ifs <;> simp

theorem hasBit_open (type : ℕ) (i : UInt8) :
    hasBit ((Window.open type).mark (type % 256)).octets i = true ↔ i.toNat = type % 256 := by
  rw [hasBit_mark length_replicate (Nat.mod_lt _ (by decide)), Window.open, hasBit_zeros]
  simp

theorem valid_open {type : ℕ} (htype : type < 65536) : ((Window.open type).mark (type % 256)).Valid where
  length := by
    rw [mark_octets length_replicate (Nat.mod_lt _ (by decide)), setBit_length, UInt8.toNat_ofNat', Window.open,
      length_replicate]
    omega
  block_lt := by
    have hblock : ((Window.open type).mark (type % 256)).block = type / 256 := rfl
    omega
  max_lt := by
    have hmax : ((Window.open type).mark (type % 256)).maxBit = type % 256 := Nat.max_self _
    omega
  has_max := by
    have hmax : ((Window.open type).mark (type % 256)).maxBit = type % 256 := Nat.max_self _
    rw [hasBit_open, hmax, UInt8.toNat_ofNat']
    omega
  le_max i hi := by
    rw [(hasBit_open type i).mp hi]
    exact Nat.le_max_left _ _

theorem Valid.bitmap_length (h : x.Valid) : x.bitmap.length = x.maxBit / 8 + 1 := by
  have hmax := h.max_lt
  rw [bitmap, length_take, h.length]
  omega

theorem getD_bitmap {k : ℕ} (hk : k ≤ x.maxBit / 8) : x.bitmap.getD k 0 = x.octets.getD k 0 := by
  rw [bitmap, getD_eq_getElem?_getD, getD_eq_getElem?_getD, getElem?_take_of_lt (by omega)]

theorem Valid.hasBit_bitmap (h : x.Valid) (i : UInt8) : hasBit x.bitmap i = hasBit x.octets i := by
  by_cases hi : i.toNat / 8 ≤ x.maxBit / 8
  · rw [hasBit, getD_bitmap hi, hasBit]
  · have hnone : hasBit x.octets i = false := by
      apply Bool.eq_false_iff.mpr
      intro hbit
      have hle := h.le_max i hbit
      omega
    have hlen := h.bitmap_length
    rw [hnone, hasBit, getD_eq_default _ _ (by omega)]
    exact Nat.zero_testBit _

theorem Valid.trimmed (h : x.Valid) : Trimmed x.bitmap := by
  have hlen := h.bitmap_length
  have hmax := h.max_lt
  refine ⟨by omega, ?_⟩
  intro hzero
  have hbit := h.has_max
  have hnat : (UInt8.ofNat x.maxBit).toNat = x.maxBit := by
    rw [UInt8.toNat_ofNat']
    omega
  rw [hlen, Nat.add_sub_cancel] at hzero
  rw [← h.hasBit_bitmap, hasBit, hnat, hzero] at hbit
  simp at hbit

theorem Valid.bytes_eq (h : x.Valid) : x.bytes = writeBlocks [x.closed] := by
  rw [writeBlocks, flatMap_singleton, closed, h.bitmap_length]
  rfl

end Window

theorem writeBlocks_append (blocks blocks' : List (UInt8 × Bytes)) :
    writeBlocks (blocks ++ blocks') = writeBlocks blocks ++ writeBlocks blocks' := flatMap_append

theorem writeBlocks_length_le {blocks : List (UInt8 × Bytes)} (h : ∀ b ∈ blocks, Trimmed b.2) :
    (writeBlocks blocks).length ≤ 34 * blocks.length := by
  induction blocks with
  | nil => exact Nat.le_refl 0
  | cons b blocks ih =>
    rw [forall_mem_cons] at h
    have hb := h.1.length_le
    have hrest := ih h.2
    have hcons : writeBlocks (b :: blocks) = b.1 :: UInt8.ofNat b.2.length :: (b.2 ++ writeBlocks blocks) := rfl
    rw [hcons]
    simp only [length_cons, length_append]
    omega

structure Collected (front : List (UInt8 × Bytes)) (x : Window) (seen : List ℕ) : Prop where
  valid : x.Valid
  canonical : Canonical (front ++ [x.closed])
  marks : ∀ t, Marks (front ++ [x.closed]) t ↔ t.toNat ∈ seen

section Loop

variable {front : List (UInt8 × Bytes)} {x : Window} {seen : List ℕ} {type : ℕ}

theorem marks_append {blocks blocks' : List (UInt8 × Bytes)} {t : UInt16} :
    Marks (blocks ++ blocks') t ↔ Marks blocks t ∨ Marks blocks' t := by
  simp only [Marks, mem_append, or_and_right, exists_or]

theorem marks_closed (h : x.Valid) {t : UInt16} :
    Marks [x.closed] t ↔ x.block = t.toNat / 256 ∧ hasBit x.octets (low t) = true := by
  have hblock := h.block_lt
  have hwindow : x.closed.1 = window t ↔ x.block = t.toNat / 256 := by
    rw [← UInt8.toNat_inj, window_toNat, Window.closed, UInt8.toNat_ofNat', Nat.mod_eq_of_lt hblock]
  simp only [Marks, mem_singleton, exists_eq_left, hwindow]
  rw [Window.closed, h.hasBit_bitmap]

theorem collected_first (htype : type < 65536) : Collected [] ((Window.open type).mark (type % 256)) [type] := by
  have hvalid := Window.valid_open htype
  refine ⟨hvalid, ⟨?_, pairwise_singleton _ _⟩, ?_⟩
  · exact forall_mem_singleton.mpr hvalid.trimmed
  · intro t
    have hblock : ((Window.open type).mark (type % 256)).block = type / 256 := rfl
    rw [nil_append, marks_closed hvalid, Window.hasBit_open, low_toNat, hblock, mem_singleton]
    omega

variable (h : Collected front x seen)
include h

theorem Collected.mark (hblock : x.block = type / 256) :
    Collected front (x.mark (type % 256)) (type :: seen) := by
  have hbit : type % 256 < 256 := Nat.mod_lt _ (by decide)
  have hvalid := h.valid.mark hbit
  have hkeys : (front ++ [(x.mark (type % 256)).closed]).map Prod.fst = (front ++ [x.closed]).map Prod.fst := by
    rw [map_append, map_append]
    rfl
  refine ⟨hvalid, ⟨?_, ?_⟩, ?_⟩
  · have htrimmed := h.canonical.trimmed
    rw [forall_mem_append] at htrimmed ⊢
    exact ⟨htrimmed.1, forall_mem_singleton.mpr hvalid.trimmed⟩
  · rw [hkeys]
    exact h.canonical.sorted
  · intro t
    have hmarks := h.marks t
    have hsame : (x.mark (type % 256)).block = x.block := rfl
    rw [marks_append, marks_closed h.valid] at hmarks
    rw [marks_append, marks_closed hvalid, Window.hasBit_mark h.valid.length hbit, hsame, mem_cons, ← hmarks, low_toNat]
    have htype : t.toNat = type ↔ x.block = t.toNat / 256 ∧ t.toNat % 256 = type % 256 := by omega
    tauto

theorem Collected.next (htype : type < 65536) (hblock : x.block < type / 256) :
    Collected (front ++ [x.closed]) ((Window.open type).mark (type % 256)) (type :: seen) := by
  have hvalid := Window.valid_open htype
  have hopen : ((Window.open type).mark (type % 256)).block = type / 256 := rfl
  refine ⟨hvalid, ⟨?_, ?_⟩, ?_⟩
  · rw [forall_mem_append]
    exact ⟨h.canonical.trimmed, forall_mem_singleton.mpr hvalid.trimmed⟩
  · have hnew : ((Window.open type).mark (type % 256)).closed.1.toNat = type / 256 := by
      rw [Window.closed, UInt8.toNat_ofNat', hopen]
      omega
    have hlast : x.closed.1.toNat = x.block := by
      rw [Window.closed, UInt8.toNat_ofNat', Nat.mod_eq_of_lt h.valid.block_lt]
    have hsorted := h.canonical.sorted
    rw [map_append, pairwise_append] at hsorted ⊢
    refine ⟨h.canonical.sorted, pairwise_singleton _ _, ?_⟩
    intro a ha b hb
    rw [map_singleton, mem_singleton] at hb
    rw [hb, hnew]
    rw [map_append, mem_append] at ha
    rcases ha with ha | ha
    · have hlt := hsorted.2.2 a ha x.closed.1 (mem_singleton.mpr rfl)
      omega
    · grind
  · intro t
    rw [marks_append, h.marks, marks_closed hvalid, Window.hasBit_open, low_toNat, hopen, mem_cons]
    have htype' : type / 256 = t.toNat / 256 ∧ t.toNat % 256 = type % 256 ↔ t.toNat = type := by omega
    rw [htype', or_comm]

theorem encodeWindows_exact {limit offset : ℕ} {types : List ℕ} (hsorted : types.Pairwise (· ≤ ·))
    (htypes : ∀ t ∈ types, t < 65536 ∧ x.block ≤ t / 256) :
    ∃ blocks, Canonical blocks ∧ (∀ t, Marks blocks t ↔ t.toNat ∈ seen ∨ t.toNat ∈ types) ∧ front.length < blocks.length ∧
      (offset + 34 * blocks.length ≤ limit →
        encodeWindows limit offset types (writeBlocks front) (some x) = .ok (writeBlocks blocks)) := by
  induction types generalizing front x seen with
  | nil =>
    refine ⟨front ++ [x.closed], h.canonical, ?_, ?_, ?_⟩
    · intro t
      rw [h.marks]
      simp
    · rw [length_append, length_singleton]
      exact Nat.lt_succ_self _
    · intro _
      rw [encodeWindows, Option.map_some, Option.getD_some, h.valid.bytes_eq, writeBlocks_append]
  | cons type types ih =>
    rw [pairwise_cons] at hsorted
    rw [forall_mem_cons] at htypes
    obtain ⟨⟨hlt, hle⟩, hrest⟩ := htypes
    have hmem : ∀ blocks, (∀ t, Marks blocks t ↔ t.toNat ∈ type :: seen ∨ t.toNat ∈ types) →
        ∀ t, Marks blocks t ↔ t.toNat ∈ seen ∨ t.toNat ∈ type :: types := by
      intro blocks hmarks t
      rw [hmarks, mem_cons, mem_cons]
      tauto
    by_cases hblock : x.block = type / 256
    · obtain ⟨blocks, hcanonical, hmarks, hlen, hrun⟩ := ih (h.mark hblock) hsorted.2 hrest
      refine ⟨blocks, hcanonical, hmem blocks hmarks, hlen, ?_⟩
      intro hroom
      rw [encodeWindows, Option.filter_some, if_pos (decide_eq_true hblock)]
      exact hrun hroom
    · have hnext := h.next hlt (Nat.lt_of_le_of_ne hle hblock)
      have hlater : ∀ t ∈ types, t < 65536 ∧ ((Window.open type).mark (type % 256)).block ≤ t / 256 := by
        intro t ht
        exact ⟨(hrest t ht).1, Nat.div_le_div_right (hsorted.1 t ht)⟩
      obtain ⟨blocks, hcanonical, hmarks, hlen, hrun⟩ := ih hnext hsorted.2 hlater
      rw [length_append, length_singleton] at hlen
      refine ⟨blocks, hcanonical, hmem blocks hmarks, by omega, ?_⟩
      intro hroom
      have hdone : writeBlocks front ++ x.bytes = writeBlocks (front ++ [x.closed]) := by
        rw [h.valid.bytes_eq, writeBlocks_append]
      have hsize := writeBlocks_length_le h.canonical.trimmed
      rw [length_append, length_singleton] at hsize
      rw [encodeWindows, Option.filter_some, if_neg (by simpa using hblock)]
      rw [Option.map_some, Option.getD_some, hdone, if_neg (by omega)]
      exact hrun hroom

end Loop

theorem parseTypes_typeString (c : Capitals) (types : List RRType) :
    parseTypes c (types.map typeString) = .ok (types.map UInt16.toNat) := by
  induction types with
  | nil => rfl
  | cons type types ih =>
    rw [map_cons, parseTypes, parseType_typeString, ih]
    rfl

end Kdns.Wire

namespace Kdns.Dnssec

open ByteStream Dns Wire GoStrings Bitmap

theorem encodeTypeBitMaps_exact (c : Capitals) (limit offset : ℕ) {types : List RRType} (hne : types ≠ []) :
    ∃ blocks, Canonical blocks ∧ (∀ t, Marks blocks t ↔ t ∈ types) ∧
      (offset + 34 * blocks.length ≤ limit →
        encodeTypeBitMaps c limit offset (types.map typeString) = .ok (writeBlocks blocks)) := by
  have hperm := perm_insertionSort (· ≤ ·) (types.map UInt16.toNat)
  have hsorted := pairwise_insertionSort (· ≤ ·) (types.map UInt16.toNat)
  have hmem : ∀ t : RRType, t.toNat ∈ (types.map UInt16.toNat).insertionSort (· ≤ ·) ↔ t ∈ types := by
    intro t
    rw [hperm.mem_iff, mem_map]
    constructor
    · rintro ⟨t', ht', heq⟩
      rwa [← UInt16.toNat_inj.mp heq]
    · exact fun ht => ⟨t, ht, rfl⟩
  have hbound : ∀ n ∈ (types.map UInt16.toNat).insertionSort (· ≤ ·), n < 65536 := by
    intro n hn
    obtain ⟨t, -, rfl⟩ := mem_map.mp (hperm.mem_iff.mp hn)
    exact t.toNat_lt
  have hencode : encodeTypeBitMaps c limit offset (types.map typeString) =
      encodeWindows limit offset ((types.map UInt16.toNat).insertionSort (· ≤ ·)) [] none := by
    rw [encodeTypeBitMaps, if_neg (by simpa using hne), parseTypes_typeString]
    rfl
  rw [hencode]
  cases hlist : (types.map UInt16.toNat).insertionSort (· ≤ ·) with
  | nil =>
    obtain ⟨t, ht⟩ := exists_mem_of_ne_nil types hne
    have hnone := (hmem t).mpr ht
    rw [hlist] at hnone
    cases hnone
  | cons first rest =>
    rw [hlist] at hsorted hmem hbound
    rw [pairwise_cons] at hsorted
    rw [forall_mem_cons] at hbound
    have hrest : ∀ t ∈ rest, t < 65536 ∧ ((Window.open first).mark (first % 256)).block ≤ t / 256 :=
      fun t ht => ⟨hbound.2 t ht, Nat.div_le_div_right (hsorted.1 t ht)⟩
    obtain ⟨blocks, hcanonical, hmarks, hlen, hrun⟩ := encodeWindows_exact (collected_first hbound.1) hsorted.2 hrest
    refine ⟨blocks, hcanonical, ?_, ?_⟩
    · intro t
      rw [hmarks, ← hmem, mem_singleton, mem_cons]
    · intro hroom
      rw [encodeWindows, Option.filter_none]
      rw [Option.map_none, Option.getD_none, append_nil, if_neg (by omega)]
      exact hrun hroom

/-- Both encoders write the same bytes, and these are the windows of the types in order, each without a zero at its end,
with the bits of exactly these types. -/
theorem bitmaps_agree (c : Capitals) (limit offset : ℕ) (types : List RRType) (hne : types ≠ [])
    (hroom : offset + 34 * (types.map window).dedup.length ≤ limit) :
    encodeTypeBitMaps c limit offset (types.map typeString) = .ok (encodeWindowedBitmaps types) ∧
      ∃ blocks, encodeWindowedBitmaps types = writeBlocks blocks ∧
        (blocks.map Prod.fst).Pairwise (fun a b => a.toNat < b.toNat) ∧
        (∀ b ∈ blocks, 1 ≤ b.2.length ∧ b.2.length ≤ 32 ∧ b.2.getLast? ≠ some 0) ∧
        ∀ t, t ∈ types ↔ ∃ b ∈ blocks, b.1 = window t ∧ hasBit b.2 (low t) = true := by
  obtain ⟨blocks, hcanonical, hmarks, hencode⟩ := encodeTypeBitMaps_exact c limit offset hne
  have hcanonical' := windows_canonical types
  have hsame := hcanonical.unique hcanonical' fun t => (hmarks t).trans (marks_windows types t).symm
  have hcount : blocks.length = (types.map window).dedup.length := by
    rw [hsame, length_map, windowNums, length_insertionSort]
  constructor
  · rw [hencode (hcount ▸ hroom), hsame]
    rfl
  · refine ⟨_, rfl, hcanonical'.sorted, ?_, fun t => (marks_windows types t).symm⟩
    intro b hb
    have htrimmed := hcanonical'.trimmed b hb
    refine ⟨htrimmed.length_pos, htrimmed.length_le, ?_⟩
    intro hlast
    apply htrimmed.last
    rw [getLast?_eq_getElem?] at hlast
    rw [getD_eq_getElem?_getD, hlast]
    rfl

theorem bitmaps_agree_two_windows :
    encodeTypeBitMaps .basic 100 0 (([typeCAA, typeNS, typeA, typeNS] : List RRType).map typeString) =
      .ok (encodeWindowedBitmaps [typeCAA, typeNS, typeA, typeNS]) :=
  (bitmaps_agree .basic 100 0 [typeCAA, typeNS, typeA, typeNS] (by decide) (by decide)).1

end Kdns.Dnssec
