import Kdns.Radix.Cursor

namespace Kdns.Radix

open ByteStream List

def hasUpper (label : Bytes) : Bool := label.any fun b => 0x41 ≤ b && b ≤ 0x5A

def writeLowered : Bytes → Bytes → Bytes
  | buf, [] => buf
  | [], _ :: _ => []
  | _ :: buf, b :: label => lowerByte b :: writeLowered buf label

def nextLowerInto (it : DomainIterator) (buf : Bytes) : Option (Bytes × DomainIterator) × Bytes :=
  match next it with
  | none => (none, buf)
  | some (label, it') =>
    if !hasUpper label then (some (label, it'), buf)
    else if label.length > buf.length then (some (lower label, it'), buf)
    else (some ((writeLowered buf label).take label.length, it'), writeLowered buf label)

section Lowering

theorem lower_of_hasUpper {label : Bytes} (h : hasUpper label = false) : lower label = label := by
  have hid : ∀ b ∈ label, lowerByte b = b := by
    intro b hb
    rw [lowerByte, if_neg]
    simpa using any_eq_false.mp h b hb
  exact (map_congr_left hid).trans label.map_id

theorem writeLowered_eq {buf label : Bytes} (h : label.length ≤ buf.length) :
    writeLowered buf label = lower label ++ buf.drop label.length := by
  induction label generalizing buf with
  | nil => rw [writeLowered, length_nil, drop_zero]; rfl
  | cons b label ih =>
    cases buf with
    | nil => cases h
    | cons c buf =>
      rw [writeLowered, ih (Nat.le_of_succ_le_succ h)]
      rfl

theorem nextLowerInto_fst (it : DomainIterator) (buf : Bytes) : (nextLowerInto it buf).1 = nextLower it := by
  unfold nextLowerInto nextLower
  cases next it with
  | none => rfl
  | some r =>
    obtain ⟨label, it'⟩ := r
    dsimp only [Option.map_some]
    split_ifs with hupper hlong
    · rw [lower_of_hasUpper (by simpa using hupper)]
    · rfl
    · have hlength : (lower label).length = label.length := length_map _
      rw [writeLowered_eq (Nat.le_of_not_lt hlong), take_left' hlength]

end Lowering

def segmentsFrom : ℕ → List Bytes → List (ℕ × Bytes)
  | _, [] => []
  | p, s :: parts => (if s = [] then [] else [(p, s)]) ++ segmentsFrom (p + s.length + 1) parts

def segments (domain : Bytes) : List (ℕ × Bytes) := segmentsFrom 0 (domain.splitOn dot)

section Segments

theorem segmentsFrom_append (p : ℕ) (xs ys : List Bytes) :
    segmentsFrom p (xs ++ ys) = segmentsFrom p xs ++ segmentsFrom (p + (xs.map fun s => s.length + 1).sum) ys := by
  induction xs generalizing p with
  | nil => rfl
  | cons s xs ih =>
    rw [cons_append, segmentsFrom, segmentsFrom, ih, append_assoc, map_cons, sum_cons]
    simp only [Nat.add_assoc]

theorem splitOn_sum (domain : Bytes) : ((domain.splitOn dot).map fun s => s.length + 1).sum = domain.length + 1 := by
  induction domain using dot_induction with
  | base b hb => simp [splitOn_eq_singleton hb]
  | step a b hb ih =>
    rw [splitOn_append_cons_self, splitOn_eq_singleton hb, map_append, sum_append, ih]
    simp
    omega

theorem segments_nodot {b : Bytes} (hb : dot ∉ b) : segments b = if b = [] then [] else [(0, b)] := by
  rw [segments, splitOn_eq_singleton hb, segmentsFrom, segmentsFrom, append_nil]

theorem segments_dot (a : Bytes) {b : Bytes} (hb : dot ∉ b) :
    segments (a ++ dot :: b) = segments a ++ if b = [] then [] else [(a.length + 1, b)] := by
  rw [segments, segments, splitOn_append_cons_self, splitOn_eq_singleton hb, segmentsFrom_append, splitOn_sum,
    segmentsFrom, segmentsFrom, append_nil, Nat.zero_add]

theorem steps_eq_segments (domain : Bytes) : steps domain = (segments domain).reverse.map fun e => (lower e.2, e.1 - 1) := by
  induction domain using dot_induction with
  | base b hb =>
    rw [steps_nodot hb, segments_nodot hb]
    split_ifs <;> rfl
  | step a b hb ih =>
    rw [steps_dot a hb, segments_dot a hb, ih, reverse_append, map_append]
    split_ifs <;> rfl

theorem segment_at {domain : Bytes} {e : ℕ × Bytes} (h : e ∈ segments domain) :
    e.1 < domain.length ∧ (e.1 = 0 ∨ domain[e.1 - 1]? = some dot) := by
  induction domain using dot_induction with
  | base b hb =>
    rw [segments_nodot hb] at h
    split_ifs at h with hnil
    · cases h
    · rw [mem_singleton.mp h]
      exact ⟨length_pos_of_ne_nil hnil, .inl rfl⟩
  | step a b hb ih =>
    rw [segments_dot a hb] at h
    rw [length_append, length_cons]
    rcases mem_append.mp h with h | h
    · obtain ⟨hlt, hdot⟩ := ih h
      refine ⟨by omega, hdot.imp_right fun hdot => ?_⟩
      rw [getElem?_append_left (by omega), hdot]
    · split_ifs at h with hnil
      · cases h
      · have hpos := length_pos_of_ne_nil hnil
        rw [mem_singleton.mp h]
        refine ⟨by omega, .inr ?_⟩
        rw [Nat.add_sub_cancel, getElem?_append_right (Nat.le_refl _), Nat.sub_self]
        rfl

end Segments

inductive Calls : DomainIterator → Bytes → List (Bytes × ℕ) → Prop
  | finished {it : DomainIterator} {buf : Bytes} (h : (nextLowerInto it buf).1 = none) : Calls it buf []
  | returned {it it' : DomainIterator} {buf label : Bytes} {rest : List (Bytes × ℕ)}
      (h : (nextLowerInto it buf).1 = some (label, it')) (more : Calls it' (nextLowerInto it buf).2 rest) :
      Calls it buf ((label, it'.cursor) :: rest)

theorem calls_stepsFrom {fuel : ℕ} {it : DomainIterator} (h : it.cursor ≤ fuel) (buf : Bytes) :
    Calls it buf (stepsFrom fuel it) := by
  induction fuel generalizing it buf with
  | zero =>
    apply Calls.finished
    rw [nextLowerInto_fst, nextLower, next, Nat.le_zero.mp h]
    rfl
  | succ fuel ih =>
    rw [stepsFrom]
    cases hnext : nextLower it with
    | none => exact .finished (by rw [nextLowerInto_fst, hnext])
    | some r =>
      obtain ⟨label, it'⟩ := r
      have hlt : it'.cursor < it.cursor := by
        rw [nextLower_eq] at hnext
        obtain ⟨r, hfrom, hr⟩ := Option.map_eq_some_iff.mp hnext
        cases hr
        exact nextFrom_lt hfrom
      apply Calls.returned
      · rw [nextLowerInto_fst, hnext]
      · exact ih (by omega) _

/-- Each call returns the next segment in lower case and leaves the cursor at the dot before it, whatever buffer it is given.
Behind that dot the segment starts in its own spelling, unless the dot is the first byte. -/
theorem nextLower_segments (domain buf : Bytes) :
    Calls (newDomainIterator domain) buf ((segments domain).reverse.map fun e => (lower e.2, e.1 - 1)) ∧
      (domain.head? ≠ some dot → ∀ e ∈ segments domain, formatDomainName domain (e.1 - 1) = domain.drop e.1) := by
  constructor
  · rw [← steps_eq_segments]
    exact calls_stepsFrom (Nat.le_refl _) buf
  · intro hhead e he
    obtain ⟨hlt, hdot⟩ := segment_at he
    have hfirst : e.1 ≠ 1 := by
      intro h1
      rw [h1] at hdot
      exact hhead (by simpa [head?_eq_getElem?] using hdot)
    rw [formatDomainName, if_neg (by omega)]
    split_ifs with hpos
    · rw [Nat.sub_add_cancel (by omega)]
    · rw [show e.1 = 0 by omega, drop_zero]

theorem nextLower_segments_www : formatDomainName [0x77, dot, 0x42, dot, 0x63] 1 = [0x42, dot, 0x63] := by
  apply (nextLower_segments [0x77, dot, 0x42, dot, 0x63] (replicate 64 0)).2 (by decide) (2, [0x42])
  decide

end Kdns.Radix
