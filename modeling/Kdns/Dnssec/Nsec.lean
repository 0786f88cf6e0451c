import Kdns.Lib.Bitmap
import Kdns.Radix.Labels
import Kdns.Radix.Node
import Kdns.Wire.Pack
import Mathlib.Data.List.Dedup
import Mathlib.Data.List.Induction
import Mathlib.Data.List.Sort

namespace Kdns.Dnssec

open ByteStream Dns Wire GoStrings Bitmap List

section Bitmaps

def windows (types : List RRType) : UInt8 → Bytes :=
  types.foldl (fun ws t => Function.update ws (window t) (setBit (ws (window t)) (low t))) fun _ => []

def windowNums (types : List RRType) : List UInt8 := ((types.map window).dedup).insertionSort (· ≤ ·)

def encodeWindowedBitmaps (types : List RRType) : Bytes :=
  writeBlocks ((windowNums types).map fun w => (w, windows types w))

theorem windows_concat (types : List RRType) (t : RRType) (w : UInt8) :
    windows (types ++ [t]) w = if w = window t then setBit (windows types w) (low t) else windows types w := by
  rw [windows, foldl_append, foldl_cons, foldl_nil, Function.update_apply]
  split_ifs with h
  · rw [h]
    rfl
  · rfl

theorem hasBit_windows (types : List RRType) (w j : UInt8) :
    hasBit (windows types w) j = true ↔ ∃ t ∈ types, window t = w ∧ low t = j := by
  induction types using List.reverseRecOn with
  | nil =>
    have hnone : hasBit [] j = false := by simp [hasBit]
    simp [windows, hnone]
  | append_singleton types t ih =>
    rw [windows_concat]
    split_ifs with hw
    · rw [hasBit_setBit, Bool.or_eq_true, ih, decide_eq_true_eq, or_comm]
      simp [hw]
    · rw [ih]
      simp [Ne.symm hw]

theorem windows_trimmed (types : List RRType) (w : UInt8) : windows types w = [] ∨ Trimmed (windows types w) := by
  induction types using List.reverseRecOn with
  | nil => exact .inl rfl
  | append_singleton types t ih =>
    rw [windows_concat]
    split_ifs
    · exact .inr (setBit_trimmed ih _)
    · exact ih

theorem mem_windowNums {types : List RRType} {w : UInt8} : w ∈ windowNums types ↔ ∃ t ∈ types, window t = w := by
  rw [windowNums, (perm_insertionSort _ _).mem_iff, mem_dedup, mem_map]

variable (types : List RRType)

theorem windowNums_sorted : (windowNums types).Pairwise fun a b => a.toNat < b.toNat := by
  have hle := pairwise_insertionSort (· ≤ ·) ((types.map window).dedup)
  have hne : (windowNums types).Nodup := (perm_insertionSort _ _).nodup_iff.mpr (nodup_dedup _)
  refine (hle.and hne).imp ?_
  rintro a b ⟨hle, hne⟩
  exact UInt8.lt_iff_toNat_lt.mp (lt_of_le_of_ne hle hne)

theorem windows_canonical : Canonical ((windowNums types).map fun w => (w, windows types w)) := by
  constructor
  · intro b hb
    obtain ⟨w, hw, rfl⟩ := mem_map.mp hb
    obtain ⟨t, ht, rfl⟩ := mem_windowNums.mp hw
    refine (windows_trimmed types (window t)).resolve_left fun hnil => ?_
    have hbit := (hasBit_windows types (window t) (low t)).mpr ⟨t, ht, rfl, rfl⟩
    rw [hnil] at hbit
    simp [hasBit] at hbit
  · rw [map_map]
    have hid : (Prod.fst ∘ fun w => (w, windows types w)) = id := rfl
    rw [hid, map_id]
    exact windowNums_sorted types

theorem marks_windows (t : RRType) : Marks ((windowNums types).map fun w => (w, windows types w)) t ↔ t ∈ types := by
  constructor
  · rintro ⟨b, hb, hw, hbit⟩
    obtain ⟨w, -, rfl⟩ := mem_map.mp hb
    obtain ⟨t', ht', hwindow, hlow⟩ := (hasBit_windows types w (low t)).mp hbit
    rwa [← eq_of_window_low (hwindow.trans hw) hlow]
  · intro ht
    refine ⟨(window t, windows types (window t)), ?_, rfl, ?_⟩
    · exact mem_map.mpr ⟨window t, mem_windowNums.mpr ⟨t, ht, rfl⟩, rfl⟩
    · exact (hasBit_windows types (window t) (low t)).mpr ⟨t, ht, rfl, rfl⟩

theorem read_encodeWindowedBitmaps :
    ∃ blocks, read (encodeWindowedBitmaps types) = some blocks ∧ ∀ t, Marks blocks t ↔ t ∈ types := by
  have hcanonical := windows_canonical types
  exact ⟨_, read_writeBlocks hcanonical.trimmed hcanonical.sorted, marks_windows types⟩

end Bitmaps

def allTypes (types : List RRType) : List RRType :=
  let types := if typeRRSIG ∈ types then types else types ++ [typeRRSIG]
  if typeNSEC ∈ types then types else types ++ [typeNSEC]

def nsec (u : Unicode) (_owner nextOwner : Bytes) (types : List RRType) (ttl : UInt32) : RRSet :=
  ⟨[encodeDomainName u nextOwner ++ encodeWindowedBitmaps (allTypes types)], ttl, typeNSEC, classIN⟩

section Reading

def readName : ℕ → Bytes → Option (List Bytes × Bytes)
  | fuel + 1, n :: rest =>
    if n = 0 then some ([], rest)
    else if n.toNat ≤ maxLabelLen ∧ n.toNat ≤ rest.length then
      (readName fuel (rest.drop n.toNat)).map fun r => (rest.take n.toNat :: r.1, r.2)
    else none
  | _, _ => none

def readNsec (rdata : Bytes) : Option (List Bytes × List (UInt8 × Bytes)) :=
  (readName rdata.length rdata).bind fun r => (read r.2).map fun blocks => ((r.1.map Radix.lower).reverse, blocks)

def labelBefore (l l' : Bytes) : Bool := l.lex l' fun a b => a.toNat < b.toNat

def nameBefore (p p' : List Bytes) : Bool := p.lex p' labelBefore

/-- The names that an NSEC record says do not exist. Behind the last name of a zone the apex comes next. -/
def Covers (owner next name : List Bytes) : Prop :=
  if nameBefore owner next then nameBefore owner name ∧ nameBefore name next
  else nameBefore owner name ∨ nameBefore name next

theorem labelBefore_irrefl (l : Bytes) : labelBefore l l = false := by
  induction l with
  | nil => rfl
  | cons a l ih =>
    rw [labelBefore] at ih ⊢
    rw [cons_lex_cons, ih]
    simp

theorem nameBefore_of_prefix {p p' : List Bytes} (h : p <+: p') : nameBefore p' p = false := by
  obtain ⟨s, rfl⟩ := h
  induction p with
  | nil => cases s <;> rfl
  | cons l p ih =>
    rw [nameBefore] at ih ⊢
    rw [cons_append, cons_lex_cons, ih, labelBefore_irrefl]
    simp

def DomainName (name : Bytes) : Prop :=
  name = [dotByte] ∨ ∀ l ∈ (trimSuffix name [dotByte]).splitOn dotByte, 1 ≤ l.length ∧ l.length ≤ maxLabelLen

theorem readName_labels {ls : List Bytes} (h : ∀ l ∈ ls, 1 ≤ l.length ∧ l.length ≤ maxLabelLen) (rest : Bytes) {fuel : ℕ}
    (hf : ls.length < fuel) :
    readName fuel (ls.flatMap (fun l => UInt8.ofNat (min l.length maxLabelLen) :: l.take maxLabelLen) ++ 0 :: rest) =
      some (ls, rest) := by
  induction ls generalizing fuel with
  | nil =>
    cases fuel with
    | zero => exact absurd hf (Nat.not_lt_zero _)
    | succ fuel => rfl
  | cons l ls ih =>
    rw [forall_mem_cons] at h
    obtain ⟨⟨hpos, hle⟩, h⟩ := h
    cases fuel with
    | zero => exact absurd hf (Nat.not_lt_zero _)
    | succ fuel =>
      have hmax : maxLabelLen = 63 := rfl
      have hlen : (UInt8.ofNat l.length).toNat = l.length := by
        rw [UInt8.toNat_ofNat']
        omega
      have hne : UInt8.ofNat l.length ≠ 0 := by
        intro hzero
        rw [hzero] at hlen
        change 0 = l.length at hlen
        omega
      rw [flatMap_cons, min_eq_left hle, take_of_length_le hle, cons_append, cons_append, readName,
        if_neg hne, hlen, append_assoc, take_left, drop_left, ih h (Nat.lt_of_succ_lt_succ hf), if_pos]
      · rfl
      · rw [length_append]
        exact ⟨hle, Nat.le_add_right _ _⟩

theorem labels_of_trimmed {name : Bytes} (h : ∀ l ∈ (trimSuffix name [dotByte]).splitOn dotByte, l ≠ []) :
    Radix.labels name = (((trimSuffix name [dotByte]).splitOn dotByte).map Radix.lower).reverse := by
  have hfull : ((trimSuffix name [dotByte]).splitOn dotByte).filter (fun l => l ≠ []) =
      (trimSuffix name [dotByte]).splitOn dotByte := by
    apply filter_eq_self.mpr
    intro l hl
    exact decide_eq_true (h l hl)
  rw [Radix.labels_eq_normalLabels, Radix.normalLabels]
  by_cases hs : hasSuffix name [dotByte]
  · obtain ⟨name', rfl⟩ := isSuffixOf_iff_suffix.mp hs
    have htrim : trimSuffix (name' ++ [dotByte]) [dotByte] = name' := by
      rw [trimSuffix, if_pos hs, length_append, Nat.add_sub_cancel, take_left]
    rw [htrim] at hfull ⊢
    have hsplit : (name' ++ [dotByte]).splitOn Radix.dot = name'.splitOn dotByte ++ [[]] :=
      splitOn_append_cons_self name' []
    rw [hsplit, filter_append, hfull]
    simp
  · have htrim : trimSuffix name [dotByte] = name := if_neg hs
    rw [htrim] at hfull ⊢
    exact congrArg (fun ls => (ls.map Radix.lower).reverse) hfull

theorem length_le_encoded (ls : List Bytes) :
    ls.length ≤ (ls.flatMap fun l => UInt8.ofNat (min l.length maxLabelLen) :: l.take maxLabelLen).length := by
  induction ls with
  | nil => exact Nat.le_refl 0
  | cons l ls ih => grind

theorem readNsec_nsec {u : Unicode} {next : Bytes} (hname : DomainName next) (hlower : toLower u (trimSpace next) = next)
    (owner : Bytes) (types : List RRType) (ttl : UInt32) :
    ∃ rdata blocks, (nsec u owner next types ttl).rdata = [rdata] ∧ readNsec rdata = some (Radix.labels next, blocks) ∧
      ∀ t, Marks blocks t ↔ t ∈ allTypes types := by
  obtain ⟨blocks, hread, hmarks⟩ := read_encodeWindowedBitmaps (allTypes types)
  refine ⟨_, blocks, rfl, ?_, hmarks⟩
  rw [readNsec, encodeDomainName, hlower]
  by_cases hroot : next = [dotByte]
  · rw [if_pos (.inr hroot), hroot]
    have hzero : readName ([0] ++ encodeWindowedBitmaps (allTypes types)).length
        ([0] ++ encodeWindowedBitmaps (allTypes types)) = some ([], encodeWindowedBitmaps (allTypes types)) := rfl
    rw [hzero, Option.bind_some, hread]
    rfl
  · have hlabels := hname.resolve_left hroot
    have hne : next ≠ [] := by
      rintro rfl
      have hempty := (hlabels [] (by decide)).1
      cases hempty
    rw [if_neg (not_or.mpr ⟨hne, hroot⟩), append_assoc, singleton_append, readName_labels hlabels, Option.bind_some,
      hread, labels_of_trimmed]
    · rfl
    · intro l hl hnil
      have hpos := (hlabels l hl).1
      rw [hnil] at hpos
      cases hpos
    · rw [length_append, length_cons]
      exact Nat.lt_of_le_of_lt (length_le_encoded _) (Nat.lt_add_of_pos_right (Nat.succ_pos _))

end Reading

end Kdns.Dnssec
