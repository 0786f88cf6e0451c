import Kdns.Lib.ByteStream

namespace Kdns.Radix

open ByteStream List

def dot : UInt8 := 0x2E

structure DomainIterator where
  domain : Bytes
  cursor : ℕ

def newDomainIterator (domain : Bytes) : DomainIterator := ⟨domain, domain.length⟩

def lastIndexByte (c : UInt8) : Bytes → Option ℕ
  | [] => none
  | b :: s =>
    match lastIndexByte c s with
    | some i => some (i + 1)
    | none => if b = c then some 0 else none

theorem lastIndexByte_none {c : UInt8} {s : Bytes} (h : c ∉ s) : lastIndexByte c s = none := by
  induction s with
  | nil => rfl
  | cons b s ih =>
    rw [mem_cons, not_or] at h
    simp [lastIndexByte, ih h.2, Ne.symm h.1]

theorem lastIndexByte_append (c : UInt8) (a b : Bytes) (h : c ∉ b) : lastIndexByte c (a ++ c :: b) = some a.length := by
  induction a with
  | nil => simp [lastIndexByte, lastIndexByte_none h]
  | cons x a ih => simp [lastIndexByte, ih]

theorem split_last (c : UInt8) (s : Bytes) : c ∉ s ∨ ∃ a b, s = a ++ c :: b ∧ c ∉ b := by
  by_cases h : c ∈ s
  · obtain ⟨x, y, hs, hx⟩ := eq_append_cons_of_mem (mem_reverse.mpr h)
    refine .inr ⟨y.reverse, x.reverse, ?_, by simpa using hx⟩
    rw [← reverse_reverse s, hs]
    simp
  · exact .inl h

theorem dot_induction {P : Bytes → Prop} (base : ∀ b, dot ∉ b → P b) (step : ∀ a b, dot ∉ b → P a → P (a ++ dot :: b))
    (s : Bytes) : P s := by
  induction hn : s.length using Nat.strong_induction_on generalizing s with
  | _ n ih =>
    rcases split_last dot s with h | ⟨a, b, rfl, hb⟩
    · exact base s h
    · exact step a b hb (ih a.length (by simp at hn; omega) a rfl)

def nextFrom (domain : Bytes) : ℕ → ℕ → Option (Bytes × ℕ)
  | 0, _ => none
  | fuel + 1, cursor =>
    if cursor = 0 then none
    else
      match lastIndexByte dot (domain.take cursor) with
      | none => some (domain.take cursor, 0)
      | some dotIdx =>
        let label := (domain.take cursor).drop (dotIdx + 1)
        if label = [] then nextFrom domain fuel dotIdx else some (label, dotIdx)

def next (it : DomainIterator) : Option (Bytes × DomainIterator) :=
  (nextFrom it.domain it.cursor it.cursor).map fun r => (r.1, { it with cursor := r.2 })

def lowerByte (b : UInt8) : UInt8 := if 0x41 ≤ b ∧ b ≤ 0x5A then b + 32 else b

def lower (label : Bytes) : Bytes := label.map lowerByte

def nextLower (it : DomainIterator) : Option (Bytes × DomainIterator) := (next it).map fun r => (lower r.1, r.2)

def stepsFrom : ℕ → DomainIterator → List (Bytes × ℕ)
  | 0, _ => []
  | fuel + 1, it =>
    match nextLower it with
    | none => []
    | some (label, it') => (label, it'.cursor) :: stepsFrom fuel it'

def steps (domain : Bytes) : List (Bytes × ℕ) := stepsFrom domain.length (newDomainIterator domain)

def labels (domain : Bytes) : List Bytes := (steps domain).map Prod.fst

variable {d a b : Bytes}

theorem nextFrom_nodot {c : ℕ} (fuel : ℕ) (hc : 0 < c) (hf : c ≤ fuel) (h : dot ∉ d.take c) :
    nextFrom d fuel c = some (d.take c, 0) := by
  obtain ⟨fuel, rfl⟩ := Nat.exists_eq_succ_of_ne_zero (by omega : fuel ≠ 0)
  rw [nextFrom, if_neg (by omega), lastIndexByte_none h]

theorem nextFrom_dot {c : ℕ} (fuel : ℕ) (hd : d.take c = a ++ dot :: b) (hb : dot ∉ b) :
    nextFrom d (fuel + 1) c = if b = [] then nextFrom d fuel a.length else some (b, a.length) := by
  have hc : c ≠ 0 := by rintro rfl; simp at hd
  rw [nextFrom, if_neg hc, hd, lastIndexByte_append dot a b hb]
  simp

theorem length_of_take {c : ℕ} (hd : d.take c = a ++ dot :: b) : a.length < c := by
  have := congrArg List.length hd
  simp at this
  omega

theorem take_of_take {c : ℕ} (hd : d.take c = a ++ dot :: b) : d.take a.length = a := by
  have hlt := length_of_take hd
  rw [← Nat.min_eq_left hlt.le, ← take_take, hd, take_left]

theorem nextFrom_fuel (d : Bytes) (c fuel : ℕ) (hf : c ≤ fuel) : nextFrom d fuel c = nextFrom d c c := by
  induction c using Nat.strong_induction_on generalizing fuel with
  | _ c ih =>
    obtain rfl | hc := Nat.eq_zero_or_pos c
    · cases fuel <;> simp [nextFrom]
    rcases split_last dot (d.take c) with h | ⟨a, b, hd, hb⟩
    · rw [nextFrom_nodot fuel hc hf h, nextFrom_nodot c hc le_rfl h]
    · have hlt := length_of_take hd
      obtain ⟨fuel, rfl⟩ := Nat.exists_eq_succ_of_ne_zero (by omega : fuel ≠ 0)
      obtain ⟨c', hc'⟩ := Nat.exists_eq_succ_of_ne_zero hc.ne'
      have h₁ := nextFrom_dot fuel hd hb
      have h₂ := nextFrom_dot c' hd hb
      rw [← Nat.succ_eq_add_one, ← hc'] at h₂
      rw [h₁, h₂, ih _ hlt fuel (by omega), ih _ hlt c' (by omega)]

theorem nextFrom_congr {d' : Bytes} {c : ℕ} (fuel : ℕ) (h : d.take c = d'.take c) :
    nextFrom d fuel c = nextFrom d' fuel c := by
  induction fuel generalizing c with
  | zero => rfl
  | succ fuel ih =>
    rcases split_last dot (d.take c) with hb | ⟨a, b, hd, hb⟩
    · rw [nextFrom, nextFrom, ← h, lastIndexByte_none hb]
    · rw [nextFrom_dot fuel hd hb, nextFrom_dot fuel (h.symm.trans hd) hb,
        ih ((take_of_take hd).trans (take_of_take (h.symm.trans hd)).symm)]

theorem nextFrom_lt {l : Bytes} {fuel c c' : ℕ} (h : nextFrom d fuel c = some (l, c')) : c' < c := by
  induction fuel generalizing c with
  | zero => cases h
  | succ fuel ih =>
    rcases split_last dot (d.take c) with hb | ⟨a, b, hd, hb⟩
    · rw [nextFrom, lastIndexByte_none hb] at h
      split_ifs at h
      cases h
      omega
    · rw [nextFrom_dot fuel hd hb] at h
      have hlt := length_of_take hd
      split_ifs at h
      · exact (ih h).trans hlt
      · cases h
        exact hlt

theorem nextLower_eq (d : Bytes) (c : ℕ) : nextLower ⟨d, c⟩ = (nextFrom d c c).map fun r => (lower r.1, ⟨d, r.2⟩) := by
  rw [nextLower, next, Option.map_map]
  rfl

theorem stepsFrom_fuel (d : Bytes) (c fuel : ℕ) (hf : c ≤ fuel) : stepsFrom fuel ⟨d, c⟩ = stepsFrom c ⟨d, c⟩ := by
  induction c using Nat.strong_induction_on generalizing fuel with
  | _ c ih =>
    obtain rfl | hc := Nat.eq_zero_or_pos c
    · cases fuel <;> rfl
    obtain ⟨fuel, rfl⟩ := Nat.exists_eq_succ_of_ne_zero (by omega : fuel ≠ 0)
    obtain ⟨c₀, rfl⟩ := Nat.exists_eq_succ_of_ne_zero hc.ne'
    rw [stepsFrom, stepsFrom, nextLower_eq]
    cases hn : nextFrom d c₀.succ c₀.succ with
    | none => rfl
    | some r =>
      have hlt : r.2 < c₀.succ := nextFrom_lt hn
      simp only [Option.map_some, ih r.2 hlt fuel (by omega), ih r.2 hlt c₀ (by omega)]

theorem stepsFrom_congr {d' : Bytes} {c : ℕ} (fuel : ℕ) (h : d.take c = d'.take c) :
    stepsFrom fuel ⟨d, c⟩ = stepsFrom fuel ⟨d', c⟩ := by
  induction fuel generalizing c with
  | zero => rfl
  | succ fuel ih =>
    rw [stepsFrom, stepsFrom, nextLower_eq, nextLower_eq, nextFrom_congr c h]
    cases hn : nextFrom d' c c with
    | none => rfl
    | some r =>
      have hlt : r.2 < c := nextFrom_lt hn
      have ht : d.take r.2 = d'.take r.2 := by rw [← Nat.min_eq_left hlt.le, ← take_take, h, take_take]
      simp only [Option.map_some, ih ht]

theorem steps_nodot (hb : dot ∉ b) : steps b = if b = [] then [] else [(lower b, 0)] := by
  split_ifs with h0
  · rw [h0]
    rfl
  have hpos := length_pos_of_ne_nil h0
  obtain ⟨n, hn⟩ := Nat.exists_eq_succ_of_ne_zero hpos.ne'
  have hnext : nextFrom b b.length b.length = some (b, 0) := by
    rw [nextFrom_nodot _ hpos le_rfl (by rwa [take_length]), take_length]
  rw [steps, newDomainIterator, hn, stepsFrom, ← hn, nextLower_eq, hnext]
  simp only [Option.map_some]
  rw [stepsFrom_fuel b 0 n (Nat.zero_le n)]
  rfl

theorem steps_dot (a : Bytes) (hb : dot ∉ b) :
    steps (a ++ dot :: b) = (if b = [] then [] else [(lower b, a.length)]) ++ steps a := by
  have htake : (a ++ dot :: b).take (a ++ dot :: b).length = a ++ dot :: b := take_length
  have hlen : (a ++ dot :: b).length = a.length + b.length + 1 := by simp; omega
  have hnext := nextFrom_dot (a.length + b.length) htake hb
  rw [← hlen, nextFrom_fuel _ a.length _ (by omega)] at hnext
  have htail (fuel : ℕ) (hf : a.length ≤ fuel) : stepsFrom fuel ⟨a ++ dot :: b, a.length⟩ = steps a := by
    rw [stepsFrom_fuel _ _ _ hf, steps, newDomainIterator]
    exact stepsFrom_congr _ (by simp)
  rw [steps, newDomainIterator]
  generalize (a ++ dot :: b).length = n at *
  subst hlen
  rw [stepsFrom, nextLower_eq, hnext]
  split_ifs with h0
  · rw [nil_append, ← htail (a.length + b.length + 1) (by omega), stepsFrom, nextLower_eq]
  · grind

theorem labels_nodot (hb : dot ∉ b) : labels b = if b = [] then [] else [lower b] := by
  rw [labels, steps_nodot hb]
  split_ifs <;> rfl

theorem labels_dot (a : Bytes) (hb : dot ∉ b) :
    labels (a ++ dot :: b) = (if b = [] then [] else [lower b]) ++ labels a := by
  rw [labels, steps_dot a hb]
  split_ifs <;> rfl

end Kdns.Radix
