import Kdns.Update.States
import Mathlib.Data.Finset.Basic
import Mathlib.Data.Finset.Dedup

namespace Kdns.Update

open ByteStream Dns Wire GoStrings List

abbrev Rows := RRType → Option (UInt32 × Finset Bytes)

def rows (records : RRSets) : Rows := fun type => (getType records type).map fun s => (s.ttl, s.rdata.toFinset)

inductive Operation where
  | add
  | deleteRRSet
  | deleteName
  | deleteRecord
  | ignore
  deriving DecidableEq, Repr

def RawRR.operation (up : RawRR) : Operation :=
  if up.rrClass = classIN ∧ up.qType ≠ typeANY ∧ up.rData ≠ [] then .add
  else if up.rrClass = classANY ∧ up.qType ≠ typeANY ∧ up.ttl = 0 ∧ up.rData = [] then .deleteRRSet
  else if up.rrClass = classANY ∧ up.qType = typeANY ∧ up.ttl = 0 ∧ up.rData = [] then .deleteName
  else if up.rrClass = classNONE ∧ up.qType ≠ typeANY ∧ up.ttl = 0 ∧ up.rData ≠ [] then .deleteRecord
  else .ignore

def dataOf (row : Option (UInt32 × Finset Bytes)) : Finset Bytes := row.elim ∅ Prod.snd

def eraseRow (rData : Bytes) (row : UInt32 × Finset Bytes) : Option (UInt32 × Finset Bytes) :=
  if row.2.erase rData = ∅ then none else some (row.1, row.2.erase rData)

def Rows.apply (r : Rows) (up : RawRR) : Rows :=
  match up.operation with
  | .add => Function.update r up.qType (some (up.ttl, insert up.rData (dataOf (r up.qType))))
  | .deleteRRSet => Function.update r up.qType none
  | .deleteName => fun _ => none
  | .deleteRecord => Function.update r up.qType ((r up.qType).bind (eraseRow up.rData))
  | .ignore => r

structure Tidy (records : RRSets) : Prop where
  types : (records.map RRSet.type).Nodup
  full : ∀ s ∈ records, s.rdata ≠ []
  distinct : ∀ s ∈ records, s.rdata.Nodup

theorem applyUpdateOp_eq (records : RRSets) (up : RawRR) : applyUpdateOp records up =
      match up.operation with
      | .add => addRecord up records
      | .deleteRRSet => records.filter fun s => s.type ≠ up.qType
      | .deleteName => []
      | .deleteRecord => records.filterMap (removeRData up)
      | .ignore => records := by
  unfold applyUpdateOp RawRR.operation
  split_ifs <;> rfl

theorem tidy_nil : Tidy [] := ⟨nodup_nil, by simp, by simp⟩

theorem tidy_cons {s : RRSet} {records : RRSets} :
    Tidy (s :: records) ↔ (s.rdata ≠ [] ∧ s.rdata.Nodup ∧ s.type ∉ records.map RRSet.type) ∧ Tidy records := by
  constructor
  · rintro ⟨htypes, hfull, hdistinct⟩
    rw [map_cons, nodup_cons] at htypes
    rw [forall_mem_cons] at hfull hdistinct
    exact ⟨⟨hfull.1, hdistinct.1, htypes.1⟩, htypes.2, hfull.2, hdistinct.2⟩
  · rintro ⟨⟨hs, hnodup, htype⟩, htypes, hfull, hdistinct⟩
    refine ⟨?_, forall_mem_cons.mpr ⟨hs, hfull⟩, forall_mem_cons.mpr ⟨hnodup, hdistinct⟩⟩
    exact nodup_cons.mpr ⟨htype, htypes⟩

theorem getType_cons (s : RRSet) (records : RRSets) (type : RRType) :
    getType (s :: records) type = if s.type = type then some s else getType records type := by
  rw [getType, List.find?_cons]
  split_ifs with h
  · simp [h]
  · simp [h, getType]

theorem getType_none {records : RRSets} {type : RRType} (h : type ∉ records.map RRSet.type) :
    getType records type = none := by
  apply List.find?_eq_none.mpr
  intro s hs htype
  exact h (mem_map.mpr ⟨s, hs, of_decide_eq_true htype⟩)

theorem rows_cons (s : RRSet) (records : RRSets) (type : RRType) :
    rows (s :: records) type = if s.type = type then some (s.ttl, s.rdata.toFinset) else rows records type := by
  rw [rows, getType_cons]
  split_ifs <;> rfl

theorem rows_none {records : RRSets} {type : RRType} (h : type ∉ records.map RRSet.type) : rows records type = none := by
  rw [rows, getType_none h]
  rfl

theorem containsRData_iff (list : List Bytes) (target : Bytes) : containsRData list target = true ↔ target ∈ list := by
  rw [containsRData, any_eq_true]
  simp only [decide_eq_true_eq, exists_eq_right]

section Operations

variable {records : RRSets} (h : Tidy records) (up : RawRR)

theorem addRecord_types : ∀ type ∈ (addRecord up records).map RRSet.type, type = up.qType ∨ type ∈ records.map RRSet.type := by
  induction records with
  | nil => simp [addRecord]
  | cons s records ih =>
    intro type htype
    rw [addRecord] at htype
    by_cases hs : s.type = up.qType
    · rw [if_pos hs] at htype
      exact .inr htype
    · rw [if_neg hs] at htype
      rw [map_cons, mem_cons] at htype ⊢
      rcases htype with htype | htype
      · exact .inr (.inl htype)
      · exact (ih type htype).imp_right .inr

theorem removeRData_other {s : RRSet} (hs : s.type ≠ up.qType) : removeRData up s = some s := if_pos hs

theorem removeRData_same {s : RRSet} (hs : s.type = up.qType) : removeRData up s =
      if s.rdata.filter (fun r => r ≠ up.rData) = [] then none
      else some { s with rdata := s.rdata.filter fun r => r ≠ up.rData } := by
  rw [removeRData, if_neg (not_not.mpr hs)]

theorem removeRData_types : ∀ type ∈ (records.filterMap (removeRData up)).map RRSet.type, type ∈ records.map RRSet.type := by
  intro type htype
  obtain ⟨s', hs', rfl⟩ := mem_map.mp htype
  obtain ⟨s, hs, hr⟩ := mem_filterMap.mp hs'
  refine mem_map.mpr ⟨s, hs, ?_⟩
  by_cases hq : s.type = up.qType
  · rw [removeRData_same up hq] at hr
    split_ifs at hr
    rw [← Option.some.inj hr]
  · rw [removeRData_other up hq] at hr
    rw [Option.some.inj hr]

theorem eraseRow_eq (s : RRSet) : eraseRow up.rData (s.ttl, s.rdata.toFinset) =
    if s.rdata.filter (fun r => r ≠ up.rData) = [] then none
    else some (s.ttl, (s.rdata.filter fun r => r ≠ up.rData).toFinset) := by
  have herase : s.rdata.toFinset.erase up.rData = (s.rdata.filter fun r => r ≠ up.rData).toFinset := by
    ext r
    simp [and_comm]
  unfold eraseRow
  rw [herase]
  simp only [toFinset_eq_empty_iff]

include h

theorem addRecord_spec : Tidy (addRecord up records) ∧ rows (addRecord up records) =
    Function.update (rows records) up.qType (some (up.ttl, insert up.rData (dataOf (rows records up.qType)))) := by
  induction records with
  | nil =>
    refine ⟨tidy_cons.mpr ⟨⟨by simp, by simp, by simp⟩, tidy_nil⟩, funext fun type => ?_⟩
    rw [addRecord, rows_cons, Function.update_apply]
    simp only [eq_comm (a := type)]
    split_ifs
    · rfl
    · rfl
  | cons s records ih =>
    obtain ⟨⟨hs, hnodup, htype⟩, hrest⟩ := tidy_cons.mp h
    obtain ⟨htidy, hrows⟩ := ih hrest
    rw [addRecord]
    by_cases hq : s.type = up.qType
    · -- The first set of the type is the one that grows.
      have hdata : (if containsRData s.rdata up.rData then s.rdata else s.rdata ++ [up.rData]).toFinset =
          insert up.rData s.rdata.toFinset := by
        split_ifs with hc
        · rw [Finset.insert_eq_of_mem]
          exact mem_toFinset.mpr ((containsRData_iff _ _).mp hc)
        · ext r
          rw [Finset.mem_insert, mem_toFinset, mem_toFinset, mem_append, mem_singleton]
          exact or_comm
      rw [if_pos hq]
      refine ⟨tidy_cons.mpr ⟨⟨?_, ?_, htype⟩, hrest⟩, funext fun type => ?_⟩
      · split_ifs
        · exact hs
        · simp
      · split_ifs with hc
        · exact hnodup
        · apply nodup_append.mpr
          refine ⟨hnodup, by simp, ?_⟩
          intro a ha b hb heq
          rw [mem_singleton] at hb
          subst heq
          exact hc ((containsRData_iff _ _).mpr (hb ▸ ha))
      · rw [rows_cons, Function.update_apply, rows_cons, rows_cons, if_pos hq, hdata]
        by_cases ht : type = up.qType
        · rw [if_pos ht, if_pos (hq.trans ht.symm)]
          rfl
        · grind
    · rw [if_neg hq]
      refine ⟨tidy_cons.mpr ⟨⟨hs, hnodup, ?_⟩, htidy⟩, funext fun type => ?_⟩
      · intro hmem
        rcases addRecord_types up _ hmem with heq | hmem
        · exact hq heq
        · exact htype hmem
      · rw [rows_cons, hrows, Function.update_apply, Function.update_apply, rows_cons, rows_cons, if_neg hq]
        by_cases ht : type = up.qType
        · rw [if_pos ht, if_pos ht, if_neg fun he => hq (he.trans ht)]
        · rw [if_neg ht, if_neg ht]

theorem deleteRRSet_spec : Tidy (records.filter fun s => s.type ≠ up.qType) ∧
    rows (records.filter fun s => s.type ≠ up.qType) = Function.update (rows records) up.qType none := by
  have hsub : (records.filter fun s => s.type ≠ up.qType).Sublist records := filter_sublist
  refine ⟨⟨h.types.sublist (hsub.map _), fun s hs => h.full s (hsub.subset hs),
    fun s hs => h.distinct s (hsub.subset hs)⟩, funext fun type => ?_⟩
  rw [Function.update_apply]
  by_cases ht : type = up.qType
  · rw [if_pos ht, rows_none]
    simp [ht]
  · have hget : getType (records.filter fun s => s.type ≠ up.qType) type = getType records type := by
      rw [getType, getType, List.find?_filter]
      congr 1
      funext s
      by_cases hs : s.type = type
      · simp [hs, ht]
      · simp [hs]
    rw [if_neg ht, rows, hget]
    rfl

theorem deleteRecord_spec : Tidy (records.filterMap (removeRData up)) ∧ rows (records.filterMap (removeRData up)) =
      Function.update (rows records) up.qType ((rows records up.qType).bind (eraseRow up.rData)) := by
  induction records with
  | nil =>
    refine ⟨tidy_nil, funext fun type => ?_⟩
    rw [Function.update_apply]
    split_ifs <;> rfl
  | cons s records ih =>
    obtain ⟨⟨hs, hnodup, htype⟩, hrest⟩ := tidy_cons.mp h
    obtain ⟨htidy, hrows⟩ := ih hrest
    by_cases hq : s.type = up.qType
    · -- Nothing of the type is left behind this set.
      have hnone : rows (records.filterMap (removeRData up)) up.qType = none := by
        apply rows_none
        intro hmem
        exact htype (hq ▸ removeRData_types up _ hmem)
      have hsame : rows (records.filterMap (removeRData up)) = rows records := by
        rw [hrows, rows_none (hq ▸ htype), Option.bind_none, Function.update_eq_self_iff]
        exact (rows_none (hq ▸ htype)).symm
      rw [rows_cons, if_pos hq, Option.bind_some, eraseRow_eq]
      have hremove := removeRData_same up hq
      split_ifs at hremove ⊢ with hleft
      · rw [filterMap_cons_none hremove]
        refine ⟨htidy, funext fun type => ?_⟩
        rw [Function.update_apply]
        split_ifs with ht
        · rw [ht, hnone]
        · rw [rows_cons, if_neg fun he => ht (he.symm.trans hq), hsame]
      · rw [filterMap_cons_some hremove]
        refine ⟨tidy_cons.mpr ⟨⟨hleft, hnodup.filter _, fun hmem => htype (removeRData_types up _ hmem)⟩, htidy⟩,
          funext fun type => ?_⟩
        rw [Function.update_apply, rows_cons]
        split_ifs with h₁ h₂ h₂
        · rfl
        · exact absurd (h₁.symm.trans hq) h₂
        · exact absurd (hq.trans h₂.symm) h₁
        · rw [rows_cons, if_neg h₁, hsame]
    · rw [filterMap_cons_some (removeRData_other up hq)]
      refine ⟨tidy_cons.mpr ⟨⟨hs, hnodup, fun hmem => htype (removeRData_types up _ hmem)⟩, htidy⟩,
        funext fun type => ?_⟩
      rw [rows_cons, hrows, Function.update_apply, Function.update_apply, rows_cons, rows_cons, if_neg hq]
      by_cases ht : type = up.qType
      · rw [if_pos ht, if_pos ht, if_neg fun he => hq (he.trans ht)]
      · rw [if_neg ht, if_neg ht]

theorem applyUpdateOp_spec : Tidy (applyUpdateOp records up) ∧ rows (applyUpdateOp records up) = (rows records).apply up := by
  rw [applyUpdateOp_eq, Rows.apply]
  cases up.operation with
  | add => exact addRecord_spec h up
  | deleteRRSet => exact deleteRRSet_spec h up
  | deleteName => exact ⟨tidy_nil, rfl⟩
  | deleteRecord => exact deleteRecord_spec h up
  | ignore => exact ⟨h, rfl⟩

end Operations

theorem foldl_applyUpdateOp_spec {records : RRSets} (h : Tidy records) (ups : List RawRR) :
    Tidy (ups.foldl applyUpdateOp records) ∧ rows (ups.foldl applyUpdateOp records) = ups.foldl Rows.apply (rows records) := by
  induction ups generalizing records with
  | nil => exact ⟨h, rfl⟩
  | cons up ups ih =>
    obtain ⟨htidy, hrows⟩ := applyUpdateOp_spec h up
    rw [foldl_cons, foldl_cons, ← hrows]
    exact ih htidy

abbrev Plain := Bytes → Option RRSets

def Plain.getter : Getter Plain := id

def Plain.upsertDeleter : UpsertDeleter Plain Empty where
  upsert s domain records := (Function.update s domain (some records), none)
  deleteDomain s domain := (Function.update s domain none, none)

def Plain.records (s : Plain) (name : Bytes) : RRSets := (s name).getD []

section PlainStore

theorem call_plain (s : Plain) (domain : Bytes) (final : RRSets) : Plain.upsertDeleter.call s (callFor domain final) =
      (Function.update s domain (if final = [] then none else some final), none) := by
  unfold callFor
  split_ifs <;> rfl

theorem records_update (s : Plain) (domain name : Bytes) (final : RRSets) :
    Plain.records (Function.update s domain (if final = [] then none else some final)) name =
      if name = domain then final else s.records name := by
  rw [Plain.records, Function.update_apply]
  split_ifs with hname hfinal
  · exact hfinal.symm
  · rfl
  · rfl

theorem callAll_plain (final : Bytes → RRSets) (domains : List Bytes) (s : Plain) :
    (callAll Plain.upsertDeleter (domains.map fun domain => callFor domain (final domain)) s).2.2 = none ∧
      (∀ name ∈ domains, Plain.records
        (callAll Plain.upsertDeleter (domains.map fun domain => callFor domain (final domain)) s).1 name = final name) ∧
      ∀ name ∉ domains,
        (callAll Plain.upsertDeleter (domains.map fun domain => callFor domain (final domain)) s).1 name = s name := by
  induction domains generalizing s with
  | nil => exact ⟨rfl, by simp, fun name _ => rfl⟩
  | cons domain domains ih =>
    rw [map_cons, callAll, call_plain]
    obtain ⟨herr, hrecords, hkeep⟩ := ih (Function.update s domain (if final domain = [] then none else some (final domain)))
    refine ⟨herr, fun name hname => ?_, fun name hname => ?_⟩
    · -- A name met again later is written again, with the same records.
      by_cases hlater : name ∈ domains
      · exact hrecords name hlater
      · have hhead : name = domain := (mem_cons.mp hname).resolve_right hlater
        rw [Plain.records, hkeep name hlater, ← Plain.records, records_update, if_pos hhead, hhead]
    · grind

/-- The update section has the meaning of its operations on sets, whatever order the map is walked in. -/
theorem applyUpdates_rows (mo : MapOrder) (s : Plain) (updates : List RawRR) (h : ∀ name, Tidy (s.records name)) :
    (applyUpdates mo Plain.getter Plain.upsertDeleter s updates).2.2 = none ∧
      (∀ name, rows (Plain.records (applyUpdates mo Plain.getter Plain.upsertDeleter s updates).1 name) =
        (updates.filter fun up => up.name = name).foldl Rows.apply (rows (s.records name))) ∧
      (∀ name, Tidy (Plain.records (applyUpdates mo Plain.getter Plain.upsertDeleter s updates).1 name)) ∧
      ∀ name ∉ updates.map RawRR.name,
        (∀ call ∈ (applyUpdates mo Plain.getter Plain.upsertDeleter s updates).2.1, call.domain ≠ name) ∧
          (applyUpdates mo Plain.getter Plain.upsertDeleter s updates).1 name = s name := by
  rw [applyUpdates_eq]
  obtain ⟨herr, hrecords, hkeep⟩ := callAll_plain (settled Plain.getter s updates)
    (mo.order ((domainStates Plain.getter s updates).map Prod.fst)) s
  have hsettled : ∀ name, Plain.records (callAll Plain.upsertDeleter (updateCalls mo Plain.getter s updates) s).1 name =
      settled Plain.getter s updates name := by
    intro name
    by_cases hname : name ∈ mo.order ((domainStates Plain.getter s updates).map Prod.fst)
    · exact hrecords name hname
    · rw [Plain.records, updateCalls, hkeep name hname]
      exact (settled_unmentioned Plain.getter s (mt (mem_order Plain.getter s mo updates name).mpr hname)).symm
  refine ⟨herr, fun name => ?_, fun name => ?_, fun name hname => ⟨fun call hcall heq => ?_, ?_⟩⟩
  · rw [hsettled]
    exact (foldl_applyUpdateOp_spec (h name) _).2
  · rw [hsettled]
    exact (foldl_applyUpdateOp_spec (h name) _).1
  · exact hname (heq ▸ (mem_updateCalls ((callAll_calls _ _ s).subset hcall)).1)
  · exact hkeep name (mt (mem_order Plain.getter s mo updates name).mp hname)

theorem applyUpdates_rows_interleaved :
    rows (Plain.records (applyUpdates MapOrder.insertion Plain.getter Plain.upsertDeleter
        (fun name => if name = [97, dotByte] then some [⟨[[1]], 60, typeA, classIN⟩] else none)
        [⟨[97, dotByte], [2], 30, typeA, classIN⟩, ⟨[98, dotByte], [3], 30, typeA, classIN⟩,
          ⟨[97, dotByte], [1], 0, typeA, classNONE⟩]).1 [97, dotByte]) typeA = some (30, {[2]}) := by
  have h := (applyUpdates_rows MapOrder.insertion
    (fun name => if name = [97, dotByte] then some [⟨[[1]], 60, typeA, classIN⟩] else none)
    [⟨[97, dotByte], [2], 30, typeA, classIN⟩, ⟨[98, dotByte], [3], 30, typeA, classIN⟩,
      ⟨[97, dotByte], [1], 0, typeA, classNONE⟩] (by
        intro name
        rw [Plain.records]
        split_ifs
        · exact tidy_cons.mpr ⟨⟨by simp, by simp, by simp⟩, tidy_nil⟩
        · exact tidy_nil)).2.1 [97, dotByte]
  rw [h]
  decide

end PlainStore

end Kdns.Update
