import Kdns.Lib.Loops
import Kdns.Radix.Tree

open List

namespace Kdns.Radix

open ByteStream Dns Iteration

def copyAt (buf : Bytes) (offset : ℕ) (bytes : Bytes) : Bytes :=
  buf.take offset ++ bytes ++ buf.drop (offset + bytes.length)

def placeWildcard (buf : Bytes) (offset : ℕ) : Option (Bytes × ℕ) :=
  if offset = pathBufSize then some (buf.set 255 0x2A, 255)
  else if 2 ≤ offset then some ((buf.set (offset - 2) 0x2A).set (offset - 2 + 1) dot, offset - 2)
  else none

def placeLabel (label buf : Bytes) (offset : ℕ) : Option (Bytes × ℕ) :=
  let lblLen := label.length
  let needed := if offset < pathBufSize then lblLen + 1 else lblLen
  if offset < needed then none
  else
    let newOffset := offset - needed
    let dotted := if offset < pathBufSize then buf.set (newOffset + lblLen) dot else buf
    some (copyAt dotted newOffset label, newOffset)

section Walk

variable {σ : Type} (visit : σ → Bytes × Node → σ × Bool)

mutual

def walkNode : Node → ℕ → Bytes × σ → (Bytes × σ) × Bool
  | .mk rrsets wildcard children, offset, (buf, s) =>
    match visit s (buf.drop offset, .mk rrsets wildcard children) with
    | (s', false) => ((buf, s'), false)
    | (s', true) => followed (walkNodeWildcard wildcard offset (buf, s')) (walkNodeEdges children offset)

def walkNodeWildcard : Option Node → ℕ → Bytes × σ → (Bytes × σ) × Bool
  | none, _, w => (w, true)
  | some n, offset, (buf, s) =>
    match placeWildcard buf offset with
    | none => ((buf, s), true)
    | some (buf', newOffset) => walkNode n newOffset (buf', s)

def walkNodeEdges : List (Bytes × Node) → ℕ → Bytes × σ → (Bytes × σ) × Bool
  | [], _, w => (w, true)
  | (label, n) :: edges, offset, (buf, s) =>
    followed
      (match placeLabel label buf offset with
      | none => ((buf, s), true)
      | some (buf', newOffset) => walkNode n newOffset (buf', s))
      (walkNodeEdges edges offset)

end

def walkPathBuf (root : Node) (s : σ) : σ × Bool :=
  let r := walkNode visit root pathBufSize (List.replicate pathBufSize 0, s)
  (r.1.2, r.2)

end Walk

structure Holding (path buf : Bytes) (offset : ℕ) : Prop where
  length_eq : buf.length = pathBufSize
  offset_le : offset ≤ pathBufSize
  drop_eq : buf.drop offset = path

namespace Holding

variable {path buf : Bytes} {offset : ℕ}

variable (h : Holding path buf offset)
include h

theorem path_length : path.length + offset = pathBufSize := by
  have hlen := congrArg List.length h.drop_eq
  rw [length_drop, h.length_eq] at hlen
  have := h.offset_le
  omega

theorem path_nil : path = [] ↔ offset = pathBufSize := by
  rw [← length_eq_zero_iff]
  have := h.path_length
  omega

theorem shorten {front buf' : Bytes} {offset' : ℕ}
    (h' : Holding (front ++ path) buf' offset') : Holding path buf' offset where
  length_eq := h'.length_eq
  offset_le := h.offset_le
  drop_eq := by
    have hfront : offset = offset' + front.length := by
      have := h.path_length
      have := h'.path_length
      rw [length_append] at this
      omega
    rw [hfront, ← drop_drop, h'.drop_eq, drop_left]

end Holding

theorem copyAt_length {buf bytes : Bytes} {offset : ℕ} (h : offset + bytes.length ≤ buf.length) :
    (copyAt buf offset bytes).length = buf.length := by
  simp only [copyAt, length_append, length_take, length_drop]
  omega

theorem drop_copyAt {buf : Bytes} {offset : ℕ} (h : offset ≤ buf.length) (bytes : Bytes) :
    (copyAt buf offset bytes).drop offset = bytes ++ buf.drop (offset + bytes.length) := by
  have htake : (buf.take offset).length = offset := length_take_of_le h
  rw [copyAt, append_assoc]
  exact drop_left' htake

theorem drop_set_self {buf : Bytes} {i : ℕ} (h : i < buf.length) (b : UInt8) :
    (buf.set i b).drop i = b :: buf.drop (i + 1) := by
  rw [drop_set, if_neg (Nat.lt_irrefl i), Nat.sub_self, drop_eq_getElem_cons h, set_cons_zero]

theorem copyAt_singleton {buf : Bytes} {i : ℕ} (h : i < buf.length) (b : UInt8) : copyAt buf i [b] = buf.set i b := by
  rw [copyAt, set_eq_take_append_cons_drop, if_pos h]
  simp

theorem placeLabel_root (label buf : Bytes) : placeLabel label buf pathBufSize =
      if pathBufSize < label.length then none
      else some (copyAt buf (pathBufSize - label.length) label, pathBufSize - label.length) := by
  simp [placeLabel]

theorem placeLabel_below {offset : ℕ} (h : offset < pathBufSize) (label buf : Bytes) : placeLabel label buf offset =
      if offset < label.length + 1 then none
      else some (copyAt (buf.set (offset - 1) dot) (offset - (label.length + 1)) label, offset - (label.length + 1)) := by
  simp only [placeLabel, h, if_true]
  split_ifs with hroom
  · rfl
  · rw [show offset - (label.length + 1) + label.length = offset - 1 by omega]

section Place

variable {path buf : Bytes} {offset : ℕ} (h : Holding path buf offset)

include h

theorem placeLabel_spec (label : Bytes) : (placeLabel label buf offset = none ∧ extendName label path = none) ∨
      ∃ buf' offset' front, placeLabel label buf offset = some (buf', offset') ∧
        extendName label path = some (front ++ path) ∧ Holding (front ++ path) buf' offset' := by
  have hlen := h.path_length
  have hbuf := h.length_eq
  by_cases hroot : offset = pathBufSize
  · have hname : childName label path = label ++ path := by simp [childName, h.path_nil.mpr hroot]
    subst hroot
    rw [placeLabel_root, extendName, hname, length_append]
    by_cases hroom : pathBufSize < label.length
    · exact .inl ⟨if_pos hroom, if_neg (by omega)⟩
    · refine .inr ⟨_, _, label, if_neg hroom, if_pos (by omega), ?_, by omega, ?_⟩
      · rw [copyAt_length (by omega), hbuf]
      · rw [drop_copyAt (by omega), Nat.sub_add_cancel (by omega), h.drop_eq]
  · have hpath : path ≠ [] := fun h0 => hroot (h.path_nil.mp h0)
    have hname : childName label path = label ++ [dot] ++ path := by simp [childName, hpath]
    rw [placeLabel_below (by omega), extendName, hname]
    simp only [length_append, length_singleton]
    by_cases hroom : offset < label.length + 1
    · exact .inl ⟨if_pos hroom, if_neg (by omega)⟩
    · refine .inr ⟨_, _, label ++ [dot], if_neg hroom, if_pos (by omega), ?_, by omega, ?_⟩
      · rw [copyAt_length (by simp; omega), length_set, hbuf]
      · rw [drop_copyAt (by simp; omega), show offset - (label.length + 1) + label.length = offset - 1 by omega,
          drop_set_self (by omega), Nat.sub_add_cancel (by omega), h.drop_eq]
        simp

theorem placeWildcard_eq : placeWildcard buf offset = placeLabel star buf offset := by
  have hle := h.offset_le
  have hbuf := h.length_eq
  have hsize : pathBufSize = 256 := rfl
  have hstar : star.length = 1 := rfl
  by_cases hroot : offset = pathBufSize
  · subst hroot
    rw [placeWildcard, if_pos rfl, placeLabel_root, if_neg (by decide), hstar, star, copyAt_singleton (by omega)]
    rfl
  · rw [placeWildcard, if_neg hroot, placeLabel_below (by omega), hstar]
    by_cases hroom : 2 ≤ offset
    · have hdot : offset - 2 + 1 = offset - 1 := by omega
      rw [if_pos hroom, if_neg (by omega), star, copyAt_singleton (by simp; omega), hdot,
        set_comm _ _ (by omega : offset - 2 ≠ offset - 1)]
    · rw [if_neg hroom, if_pos (by omega)]

end Place

section Scan

variable {σ : Type} (visit : σ → Bytes × Node → σ × Bool)

def Visited (path : Bytes) (offset : ℕ) (s : σ) (nodes : List (Bytes × Node)) (r : (Bytes × σ) × Bool) : Prop :=
  (r.1.2, r.2) = scan visit s nodes ∧ Holding path r.1.1 offset

variable {visit} {path buf : Bytes} {offset : ℕ}

theorem Visited.followed {s : σ} {nodes nodes' : List (Bytes × Node)} {r : (Bytes × σ) × Bool}
    {next : Bytes × σ → (Bytes × σ) × Bool} (h : Visited visit path offset s nodes r)
    (hnext : ∀ buf s, Holding path buf offset → Visited visit path offset s nodes' (next (buf, s))) :
    Visited visit path offset s (nodes ++ nodes') (followed r next) := by
  obtain ⟨hscan, hbuf⟩ := h
  obtain ⟨⟨buf, s'⟩, _ | _⟩ := r
  · exact ⟨by rw [scan_append, ← hscan]; rfl, hbuf⟩
  · obtain ⟨hscan', hbuf'⟩ := hnext buf s' hbuf
    exact ⟨by rw [scan_append, ← hscan]; exact hscan', hbuf'⟩

theorem visited_nil (h : Holding path buf offset) (s : σ) : Visited visit path offset s [] ((buf, s), true) := ⟨rfl, h⟩

theorem Visited.shorten {front : Bytes} {offset' : ℕ} {s : σ} {nodes : List (Bytes × Node)} {r : (Bytes × σ) × Bool}
    (h : Visited visit (front ++ path) offset' s nodes r) (hbuf : Holding path buf offset) :
    Visited visit path offset s nodes r := ⟨h.1, hbuf.shorten h.2⟩

variable (visit)

mutual

theorem walkNode_visited : ∀ (n : Node) (path buf : Bytes) (offset : ℕ) (s : σ), Holding path buf offset →
    Visited visit path offset s (walkTree extendName n path) (walkNode visit n offset (buf, s))
  | .mk rrsets wildcard children, path, buf, offset, s, h => by
    rw [walkTree, walkNode, h.drop_eq]
    cases hv : visit s (path, .mk rrsets wildcard children) with
    | mk s' goesOn =>
      cases goesOn with
      | false => exact ⟨by rw [scan, hv], h⟩
      | true =>
        obtain ⟨hscan, hbuf⟩ := (walkNodeWildcard_visited wildcard path buf offset s' h).followed
          fun buf s h => walkNodeEdges_visited children path buf offset s h
        exact ⟨by rw [scan, hv]; exact hscan, hbuf⟩

theorem walkNodeWildcard_visited : ∀ (wildcard : Option Node) (path buf : Bytes) (offset : ℕ) (s : σ),
    Holding path buf offset →
      Visited visit path offset s (walkWildcard extendName wildcard path)
        (walkNodeWildcard visit wildcard offset (buf, s))
  | none, path, buf, offset, s, h => by
    rw [walkWildcard, walkNodeWildcard]
    exact visited_nil h s
  | some n, path, buf, offset, s, h => by
    rw [walkWildcard, walkNodeWildcard, placeWildcard_eq h]
    obtain ⟨hplace, hname⟩ | ⟨buf', offset', front, hplace, hname, hbuf⟩ := placeLabel_spec h star
    · rw [hplace, hname]
      exact visited_nil h s
    · rw [hplace, hname]
      exact (walkNode_visited n _ buf' offset' s hbuf).shorten h

theorem walkNodeEdges_visited : ∀ (edges : List (Bytes × Node)) (path buf : Bytes) (offset : ℕ) (s : σ),
    Holding path buf offset →
      Visited visit path offset s (walkEdges extendName edges path) (walkNodeEdges visit edges offset (buf, s))
  | [], path, buf, offset, s, h => by
    rw [walkEdges, walkNodeEdges]
    exact visited_nil h s
  | (label, n) :: edges, path, buf, offset, s, h => by
    rw [walkEdges, walkNodeEdges]
    refine Visited.followed ?_ fun buf s h => walkNodeEdges_visited edges path buf offset s h
    obtain ⟨hplace, hname⟩ | ⟨buf', offset', front, hplace, hname, hbuf⟩ := placeLabel_spec h label
    · rw [hplace, hname]
      exact visited_nil h s
    · rw [hplace, hname]
      exact (walkNode_visited n _ buf' offset' s hbuf).shorten h

end

theorem walkPathBuf_eq (root : Node) (s : σ) : walkPathBuf visit root s = scan visit s (walkTree extendName root []) :=
  (walkNode_visited visit root [] _ _ s ⟨length_replicate .., Nat.le_refl _, by simp⟩).1

end Scan

end Kdns.Radix
