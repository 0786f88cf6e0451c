import Mathlib.Data.Set.Card
import Mathlib.Logic.Function.Basic

/-! Bounded maps with deadlines that forget what was used least recently. -/

open List

namespace Lru

variable {κ ν : Type}

structure Slot (ν : Type) where
  value : ν
  deadline : ℤ
  used : ℕ

def Table (κ ν : Type) : Type := κ → Option (Slot ν)

inductive Op (κ ν : Type) where
  | set (key : κ) (value : ν) (ttl : ℤ)
  | get (key : κ)
  | delete (key : κ)
  | clear

noncomputable def Table.count (t : Table κ ν) : ℕ := {k | (t k).isSome}.ncard

section Calls

variable [DecidableEq κ]

def Table.put (t : Table κ ν) (k : κ) (slot : Slot ν) : Table κ ν := Function.update t k (some slot)

def Table.drop (t : Table κ ν) (k : κ) : Table κ ν := Function.update t k none

section

variable (t : Table κ ν)

@[simp] theorem Table.put_self (k : κ) (slot : Slot ν) : t.put k slot k = some slot := Function.update_self ..

@[simp] theorem Table.put_of_ne {k k' : κ} (h : k' ≠ k) (slot : Slot ν) : t.put k slot k' = t k' :=
  Function.update_of_ne h ..

@[simp] theorem Table.drop_self (k : κ) : t.drop k k = none := Function.update_self ..

@[simp] theorem Table.drop_of_ne {k k' : κ} (h : k' ≠ k) : t.drop k k' = t k' := Function.update_of_ne h ..

theorem Table.put_drop (k : κ) (slot : Slot ν) : (t.drop k).put k slot = t.put k slot :=
  Function.update_idem ..

end

inductive Serves (capacity tick : ℕ) (now : ℤ) (t : Table κ ν) : Op κ ν → Option ν → Table κ ν → Prop
  | renewed {k : κ} {v : ν} {ttl : ℤ} (httl : 0 < ttl) (hk : (t k).isSome) :
      Serves capacity tick now t (.set k v ttl) none (t.put k ⟨v, now + ttl, tick⟩)
  | added {k : κ} {v : ν} {ttl : ℤ} (httl : 0 < ttl) (hk : t k = none) (hroom : t.count < capacity) :
      Serves capacity tick now t (.set k v ttl) none (t.put k ⟨v, now + ttl, tick⟩)
  | evicted {k old : κ} {v : ν} {ttl : ℤ} {slot : Slot ν} (httl : 0 < ttl) (hk : t k = none) (hfull : capacity ≤ t.count)
      (hold : t old = some slot) (hleast : ∀ k' slot', t k' = some slot' → slot.used ≤ slot'.used) :
      Serves capacity tick now t (.set k v ttl) none ((t.drop old).put k ⟨v, now + ttl, tick⟩)
  | lapsed {k : κ} {v : ν} {ttl : ℤ} (httl : ttl ≤ 0) : Serves capacity tick now t (.set k v ttl) none (t.drop k)
  | hit {k : κ} {slot : Slot ν} (hk : t k = some slot) (hlive : now < slot.deadline) :
      Serves capacity tick now t (.get k) (some slot.value) (t.put k { slot with used := tick })
  | expired {k : κ} {slot : Slot ν} (hk : t k = some slot) (hlate : slot.deadline ≤ now) :
      Serves capacity tick now t (.get k) none (t.drop k)
  | missing {k : κ} (hk : t k = none) : Serves capacity tick now t (.get k) none t
  | deleted {k : κ} : Serves capacity tick now t (.delete k) none (t.drop k)
  | cleared : Serves capacity tick now t .clear none fun _ => none

inductive Run (capacity : ℕ) : List (ℤ × Op κ ν) → List (Option ν) → Table κ ν → Prop
  | start : Run capacity [] [] fun _ => none
  | call {calls : List (ℤ × Op κ ν)} {results : List (Option ν)} {t t' : Table κ ν} {now : ℤ} {op : Op κ ν} {r : Option ν}
      (h : Run capacity calls results t) (hcall : Serves capacity calls.length now t op r t') :
      Run capacity (calls ++ [(now, op)]) (results ++ [r]) t'

variable {capacity tick : ℕ} {now ttl : ℤ} {t t' : Table κ ν} {k : κ} {v : ν} {r : Option ν}

theorem Run.last {calls : List (ℤ × Op κ ν)} {results : List (Option ν)} {op : Op κ ν}
    (h : Run capacity (calls ++ [(now, op)]) results t') :
    ∃ results' r t, results = results' ++ [r] ∧ Run capacity calls results' t ∧ Serves capacity calls.length now t op r t' := by
  generalize hall : calls ++ [(now, op)] = all at h
  cases h with
  | start => simp at hall
  | call hrun hcall =>
    obtain ⟨rfl, hlast⟩ := append_inj' hall rfl
    cases hlast
    exact ⟨_, _, _, rfl, hrun, hcall⟩

theorem Serves.set_slot (h : Serves capacity tick now t (.set k v ttl) r t') (httl : 0 < ttl) : t' k = some ⟨v, now + ttl, tick⟩ := by
  cases h with
  | renewed _ _ => exact t.put_self k _
  | added _ _ _ => exact t.put_self k _
  | evicted _ _ _ _ _ => exact (t.drop _).put_self k _
  | lapsed hzero => exact absurd httl (Int.not_lt.mpr hzero)

theorem Serves.get_live {slot : Slot ν} (h : Serves capacity tick now t (.get k) r t') (hk : t k = some slot)
    (hlive : now < slot.deadline) : r = some slot.value := by
  cases h with
  | hit hk' _ =>
    cases hk.symm.trans hk'
    rfl
  | expired hk' hlate =>
    cases hk.symm.trans hk'
    exact absurd hlive (Int.not_lt.mpr hlate)
  | missing hk' => cases hk.symm.trans hk'

end Calls

structure Ranked (t : Table κ ν) (tick : ℕ) (ranking : List (κ × Slot ν)) : Prop where
  mem_iff : ∀ {k slot}, (k, slot) ∈ ranking ↔ t k = some slot
  order : ranking.Pairwise fun x y => y.2.used < x.2.used
  used_lt : ∀ x ∈ ranking, x.2.used < tick

namespace Ranked

variable {t : Table κ ν} {tick : ℕ} {ranking front : List (κ × Slot ν)} {k : κ} {slot : Slot ν}

theorem start (tick : ℕ) : Ranked (fun _ => none : Table κ ν) tick [] := ⟨by simp, .nil, by simp⟩

section

variable (h : Ranked t tick ranking)
include h

theorem later : Ranked t (tick + 1) ranking :=
  ⟨h.mem_iff, h.order, fun x hx => Nat.lt_succ_of_lt (h.used_lt x hx)⟩

theorem eq_none_iff : t k = none ↔ k ∉ ranking.map Prod.fst := by
  constructor
  · intro hk hmem
    obtain ⟨⟨k', slot⟩, hx, rfl⟩ := mem_map.mp hmem
    rw [h.mem_iff.mp hx] at hk
    cases hk
  · intro hmem
    cases hk : t k with
    | none => rfl
    | some slot => exact absurd (mem_map_of_mem (h.mem_iff.mpr hk)) hmem

theorem nodup : (ranking.map Prod.fst).Nodup := by
  rw [nodup_iff_pairwise_ne, pairwise_map]
  apply h.order.imp_of_mem
  rintro ⟨k, slot⟩ ⟨k', slot'⟩ hx hy hused rfl
  have hsame : some slot = some slot' := (h.mem_iff.mp hx).symm.trans (h.mem_iff.mp hy)
  rw [Option.some.inj hsame] at hused
  exact Nat.lt_irrefl _ hused

theorem count_eq : t.count = ranking.length := by
  classical
  have hset : {k | (t k).isSome} = ((ranking.map Prod.fst).toFinset : Set κ) := by
    ext k
    rw [Set.mem_ofPred_eq, Finset.mem_coe, mem_toFinset, ← not_iff_not, ← h.eq_none_iff]
    simp
  rw [Table.count, hset, Set.ncard_coe_finset, toFinset_card_of_nodup h.nodup, length_map]

end

theorem least (h : Ranked t tick (front ++ [(k, slot)])) {k' : κ} {slot' : Slot ν} (hk : t k' = some slot') :
    slot.used ≤ slot'.used := by
  rcases mem_append.mp (h.mem_iff.mpr hk) with hmem | hmem
  · exact (pairwise_append.mp h.order).2.2 _ hmem _ mem_cons_self |>.le
  · cases mem_singleton.mp hmem
    exact Nat.le_refl _

variable [DecidableEq κ]

section

variable (h : Ranked t tick ranking)
include h

theorem drop (k : κ) : Ranked (t.drop k) tick (ranking.filter fun x => x.1 ≠ k) where
  mem_iff {k' slot} := by
    rw [mem_filter, h.mem_iff, decide_eq_true_eq]
    by_cases hk : k' = k
    · subst hk
      simp
    · simp [hk]
  order := h.order.filter _
  used_lt x hx := h.used_lt x (mem_filter.mp hx).1

theorem put (hk : t k = none) (hused : slot.used = tick) :
    Ranked (t.put k slot) (tick + 1) ((k, slot) :: ranking) where
  mem_iff {k' slot'} := by
    rw [mem_cons, h.mem_iff]
    by_cases hk' : k' = k
    · subst hk'
      simp [hk, eq_comm]
    · simp [hk']
  order := pairwise_cons.mpr ⟨fun x hx => hused ▸ h.used_lt x hx, h.order⟩
  used_lt := forall_mem_cons.mpr ⟨Nat.lt_succ_of_le hused.le, h.later.used_lt⟩

theorem touch (k : κ) (hused : slot.used = tick) :
    Ranked (t.put k slot) (tick + 1) ((k, slot) :: ranking.filter fun x => x.1 ≠ k) := by
  rw [← t.put_drop]
  exact (h.drop k).put (t.drop_self k) hused

end

theorem dropLast (h : Ranked t tick (front ++ [(k, slot)])) : Ranked (t.drop k) tick front := by
  have hkeep : (front ++ [(k, slot)]).filter (fun x => x.1 ≠ k) = front := by
    have hnodup := h.nodup
    rw [map_append, map_singleton, nodup_append] at hnodup
    rw [filter_append, filter_eq_self.mpr, filter_cons_of_neg (by simp), filter_nil, append_nil]
    intro x hx
    exact decide_eq_true (hnodup.2.2 x.1 (mem_map_of_mem hx) k mem_cons_self)
  exact hkeep ▸ h.drop k

end Ranked

section Admission

variable [DecidableEq κ] {β γ : Type}

def enter (key : β → κ) (capacity : ℕ) (x : β) (xs : List β) : List β :=
  x :: if key x ∈ xs.map key then xs.filter (fun y => key y ≠ key x) else if xs.length < capacity then xs else xs.dropLast

theorem map_filter_key {key : β → κ} {key' : γ → κ} {f : β → γ} (hkey : ∀ x, key' (f x) = key x) (k : κ) (xs : List β) :
    (xs.map f).filter (fun y => key' y ≠ k) = (xs.filter fun x => key x ≠ k).map f := by
  rw [filter_map]
  congr 2
  funext x
  rw [Function.comp_apply, hkey]

theorem map_enter {key : β → κ} {key' : γ → κ} {f : β → γ} (hkey : ∀ x, key' (f x) = key x) (capacity : ℕ) (x : β) (xs : List β) :
    enter key' capacity (f x) (xs.map f) = (enter key capacity x xs).map f := by
  have hkeys : (xs.map f).map key' = xs.map key := by
    rw [map_map]
    exact map_congr_left fun x _ => hkey x
  rw [enter, enter, hkeys, hkey, length_map, map_filter_key hkey, map_cons]
  congr 1
  split_ifs
  · rfl
  · rfl
  · exact map_dropLast.symm

variable {t : Table κ ν} {tick capacity : ℕ} {now ttl : ℤ} {ranking : List (κ × Slot ν)} {k : κ} {v : ν}

theorem Ranked.serves_set (h : Ranked t tick ranking) (hcapacity : 0 < capacity) (httl : 0 < ttl) :
    ∃ t', Serves capacity tick now t (.set k v ttl) none t' ∧
      Ranked t' (tick + 1) (enter Prod.fst capacity (k, ⟨v, now + ttl, tick⟩) ranking) := by
  unfold enter
  split_ifs with hk hroom
  · refine ⟨_, .renewed httl ?_, h.touch k rfl⟩
    rw [Option.isSome_iff_ne_none]
    exact fun hnone => h.eq_none_iff.mp hnone hk
  · have hnone := h.eq_none_iff.mpr hk
    exact ⟨_, .added httl hnone (h.count_eq ▸ hroom), h.put hnone rfl⟩
  · have hnone := h.eq_none_iff.mpr hk
    rcases eq_nil_or_concat ranking with rfl | ⟨front, ⟨old, slot⟩, rfl⟩
    · exact absurd hcapacity hroom
    · rw [concat_eq_append] at h hk hroom ⊢
      rw [dropLast_concat]
      refine ⟨_, .evicted httl hnone ?_ (h.mem_iff.mp (by simp)) fun k' slot' => h.least, h.dropLast.put ?_ rfl⟩
      · rw [h.count_eq]
        exact Nat.le_of_not_lt hroom
      · by_cases hold : k = old
        · rw [hold, t.drop_self]
        · rw [t.drop_of_ne hold, hnone]

end Admission

end Lru
