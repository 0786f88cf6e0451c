import Kdns.Update.Concurrent

namespace Kdns.Update

open ByteStream Dns Wire GoStrings Storage List

section Shapes

def Alike (records records' : RRSets) : Prop :=
  records.map (fun s => (s.type, s.rdata.length)) = records'.map fun s => (s.type, s.rdata.length)

theorem Alike.types {records records' : RRSets} (h : Alike records records') :
    records.map RRSet.type = records'.map RRSet.type := by
  have htypes := congrArg (map Prod.fst) h
  rw [map_map, map_map] at htypes
  exact htypes

theorem alike_of_erased {records records' : RRSets} (h : eraseSerials records = eraseSerials records') :
    Alike records records' := by
  have hshape (r : RRSets) : r.map (fun s => (s.type, s.rdata.length)) =
      (eraseSerials r).map fun s => (s.type, s.rdata.length) := by
    rw [eraseSerials, map_map]
    simp [eraseSet]
  rw [Alike, hshape records, hshape records', h]

end Shapes

section OneSOA

def soaRecords (records : RRSets) : List Bytes := (records.filter fun s => s.type = typeSOA).flatMap RRSet.rdata

theorem soaRecords_cons (s : RRSet) (records : RRSets) :
    soaRecords (s :: records) = (if s.type = typeSOA then s.rdata else []) ++ soaRecords records := by
  rw [soaRecords, filter_cons]
  by_cases hs : s.type = typeSOA
  · rw [if_pos (decide_eq_true hs), if_pos hs]
    rfl
  · rw [if_neg (by simpa using hs), if_neg hs]
    rfl

theorem soaRecords_alike {records records' : RRSets} (h : Alike records records') :
    (soaRecords records).length = (soaRecords records').length := by
  induction records generalizing records' with
  | nil =>
    obtain rfl := map_eq_nil_iff.mp h.symm
    rfl
  | cons s records ih =>
    cases records' with
    | nil => cases h
    | cons s' records' =>
      obtain ⟨hs, hrest⟩ := cons.inj h
      obtain ⟨htype, hlength⟩ := Prod.mk.inj hs
      rw [soaRecords_cons, soaRecords_cons, length_append, length_append, ih hrest, htype]
      split_ifs
      · rw [hlength]
      · rfl

variable (records : RRSets) (up : RawRR)

def Holds (type : RRType) (data : Bytes) : Prop := ∃ s, getType records type = some s ∧ data ∈ s.rdata

def SafeSOA : Prop :=
  match up.operation with
  | .add => up.qType = typeSOA → Holds records typeSOA up.rData
  | .deleteRRSet => up.qType ≠ typeSOA
  | .deleteName => False
  | .deleteRecord => up.qType = typeSOA → up.rData ∉ soaRecords records
  | .ignore => True

variable {records up}

theorem holds_cons {s : RRSet} {type : RRType} {data : Bytes} :
    Holds (s :: records) type data ↔ if s.type = type then data ∈ s.rdata else Holds records type data := by
  rw [Holds, getType_cons]
  split_ifs with hs
  · constructor
    · rintro ⟨s', hs', hmem⟩
      rwa [Option.some.inj hs']
    · intro hmem
      exact ⟨s, rfl, hmem⟩
  · rfl

theorem soaRecords_addRecord_other (h : up.qType ≠ typeSOA) : soaRecords (addRecord up records) = soaRecords records := by
  induction records with
  | nil =>
    rw [addRecord, soaRecords_cons, if_neg h]
    rfl
  | cons s records ih =>
    rw [addRecord]
    by_cases hs : s.type = up.qType
    · have hother : s.type ≠ typeSOA := hs ▸ h
      rw [if_pos hs, soaRecords_cons, soaRecords_cons, if_neg hother, if_neg hother]
    · rw [if_neg hs, soaRecords_cons, soaRecords_cons, ih]

theorem soaRecords_addRecord (h : up.qType = typeSOA) :
    (soaRecords (addRecord up records)).length = (soaRecords records).length ↔ Holds records typeSOA up.rData := by
  induction records with
  | nil =>
    rw [addRecord, soaRecords_cons, if_pos h]
    refine iff_of_false (by simp [soaRecords]) ?_
    rintro ⟨s, hs, -⟩
    cases hs
  | cons s records ih =>
    rw [addRecord, h, holds_cons]
    by_cases hs : s.type = typeSOA
    · rw [if_pos hs, if_pos hs, soaRecords_cons, soaRecords_cons, if_pos hs, if_pos hs, length_append, length_append,
        Nat.add_right_cancel_iff, ← containsRData_iff]
      split_ifs with hmem
      · exact iff_of_true rfl hmem
      · refine iff_of_false ?_ hmem
        rw [length_append]
        exact (Nat.lt_succ_self _).ne'
    · rw [if_neg hs, if_neg hs, soaRecords_cons, soaRecords_cons, if_neg hs]
      exact ih

theorem soaRecords_deleteRRSet :
    soaRecords (records.filter fun s => s.type ≠ up.qType) = if up.qType = typeSOA then [] else soaRecords records := by
  rw [soaRecords, filter_filter]
  split_ifs with h
  · have hnone : (records.filter fun s => (decide (s.type = typeSOA)) && decide (s.type ≠ up.qType)) = [] := by
      simp [h]
    rw [hnone]
    rfl
  · rw [soaRecords]
    congr 1
    apply filter_congr
    intro s _
    by_cases hs : s.type = typeSOA
    · simp [hs, Ne.symm h]
    · simp [hs]

theorem soaRecords_deleteRecord : soaRecords (records.filterMap (removeRData up)) =
      if up.qType = typeSOA then (soaRecords records).filter fun r => r ≠ up.rData else soaRecords records := by
  induction records with
  | nil => split_ifs <;> rfl
  | cons s records ih =>
    by_cases hs : s.type = up.qType
    · by_cases hnil : (s.rdata.filter fun r => r ≠ up.rData) = []
      · have hnone : removeRData up s = none := by rw [removeRData_same up hs, if_pos hnil]
        rw [filterMap_cons_none hnone, ih, soaRecords_cons, hs]
        split_ifs
        · rw [filter_append, hnil, nil_append]
        · rfl
      · have hsome : removeRData up s = some { s with rdata := s.rdata.filter fun r => r ≠ up.rData } := by
          rw [removeRData_same up hs, if_neg hnil]
        rw [filterMap_cons_some hsome, soaRecords_cons, soaRecords_cons, ih]
        rw [hs]
        split_ifs
        · rw [filter_append]
        · rfl
    · rw [filterMap_cons_some (removeRData_other up hs), soaRecords_cons, soaRecords_cons, ih]
      split_ifs with hsoa htype htype
      · exact absurd (hsoa.trans htype.symm) hs
      · rfl
      · rfl
      · rfl

variable (records up)

theorem safeSOA_iff (h : (soaRecords records).length = 1) :
    (soaRecords (applyUpdateOp records up)).length = 1 ↔ SafeSOA records up := by
  rw [applyUpdateOp_eq, SafeSOA]
  cases up.operation with
  | add =>
    by_cases htype : up.qType = typeSOA
    · rw [← h, soaRecords_addRecord htype]
      exact ⟨fun hholds _ => hholds, fun hholds => hholds htype⟩
    · rw [soaRecords_addRecord_other htype]
      exact iff_of_true h fun hno => absurd hno htype
  | deleteRRSet =>
    rw [soaRecords_deleteRRSet]
    split_ifs with htype
    · exact iff_of_false (by simp) (not_not_intro htype)
    · exact iff_of_true h htype
  | deleteName => exact iff_of_false (by simp [soaRecords]) id
  | deleteRecord =>
    dsimp only
    rw [soaRecords_deleteRecord]
    split_ifs with htype
    · obtain ⟨x, hx⟩ := length_eq_one_iff.mp h
      rw [hx, mem_singleton, imp_iff_right htype]
      by_cases hmem : x = up.rData
      · refine iff_of_false ?_ fun hno => hno hmem.symm
        simp [hmem]
      · refine iff_of_true ?_ (Ne.symm hmem)
        simp [hmem]
    · exact iff_of_true h fun hno => absurd hno htype
  | ignore => exact iff_of_true h trivial

end OneSOA

section Exclusive

def Exclusive (records : RRSets) : Prop := typeCNAME ∈ records.map RRSet.type → records.length ≤ 1

theorem exclusive_alike {records records' : RRSets} (h : Alike records records') : Exclusive records ↔ Exclusive records' := by
  have hlength := congrArg length h
  rw [length_map, length_map] at hlength
  rw [Exclusive, Exclusive, h.types, hlength]

variable (records : RRSets) (up : RawRR)

def SafeCNAME : Prop :=
  match up.operation with
  | .add => ∀ s ∈ records, s.type = typeCNAME ↔ up.qType = typeCNAME
  | _ => True

variable {records}

theorem addRecord_types_old (h : up.qType ∈ records.map RRSet.type) :
    (addRecord up records).map RRSet.type = records.map RRSet.type := by
  induction records with
  | nil => cases h
  | cons s records ih =>
    rw [addRecord]
    by_cases hs : s.type = up.qType
    · rw [if_pos hs]
      rfl
    · rw [if_neg hs, map_cons, map_cons, ih ((mem_cons.mp h).resolve_left (Ne.symm hs))]

theorem addRecord_types_new (h : up.qType ∉ records.map RRSet.type) :
    (addRecord up records).map RRSet.type = records.map RRSet.type ++ [up.qType] := by
  induction records with
  | nil => rfl
  | cons s records ih =>
    rw [map_cons, mem_cons, not_or] at h
    obtain ⟨hs, hrest⟩ := h
    rw [addRecord, if_neg (Ne.symm hs), map_cons, map_cons, ih hrest]
    rfl

theorem exclusive_iff : Exclusive records ↔ (typeCNAME ∈ records.map RRSet.type → (records.map RRSet.type).length ≤ 1) := by
  rw [length_map]
  rfl

theorem exclusive_addRecord (h : Exclusive records) :
    Exclusive (addRecord up records) ↔ ∀ s ∈ records, s.type = typeCNAME ↔ up.qType = typeCNAME := by
  rw [exclusive_iff]
  by_cases hold : up.qType ∈ records.map RRSet.type
  · rw [addRecord_types_old up hold, ← exclusive_iff]
    refine iff_of_true h ?_
    -- With a CNAME among them there is one set only.
    obtain ⟨s', hs', htype'⟩ := mem_map.mp hold
    have hone (hcname : typeCNAME ∈ records.map RRSet.type) : ∀ s ∈ records, s = s' := by
      intro s hs
      obtain ⟨x, hx⟩ := length_eq_one_iff.mp ((h hcname).antisymm (length_pos_of_mem hs'))
      rw [hx, mem_singleton] at hs hs'
      rw [hs, hs']
    intro s hs
    constructor
    · grind
    · intro hcname
      rw [hone (hcname ▸ hold) s hs, htype', hcname]
  · rw [addRecord_types_new up hold, length_append, length_singleton, length_map, mem_append,
      mem_singleton]
    constructor
    · intro halone s hs
      have hpos := length_pos_of_mem hs
      have hnone : ¬(typeCNAME ∈ records.map RRSet.type ∨ typeCNAME = up.qType) := fun hno => absurd (halone hno) (by omega)
      obtain ⟨hstored, hadded⟩ := not_or.mp hnone
      exact iff_of_false (fun hcname => hstored (mem_map.mpr ⟨s, hs, hcname⟩)) (Ne.symm hadded)
    · intro hsame hcname
      have hempty : records = [] := by
        apply eq_nil_iff_forall_not_mem.mpr
        intro s hs
        have hnew : s.type ≠ up.qType := fun htype => hold (mem_map.mpr ⟨s, hs, htype⟩)
        obtain hstored | hadded := hcname
        · obtain ⟨s', hs', htype'⟩ := mem_map.mp hstored
          exact hold (mem_map.mpr ⟨s', hs', htype'.trans ((hsame s' hs').mp htype').symm⟩)
        · exact hnew (((hsame s hs).mpr hadded.symm).trans hadded)
      rw [hempty]
      exact le_rfl

theorem safeCNAME_iff (h : Exclusive records) : Exclusive (applyUpdateOp records up) ↔ SafeCNAME records up := by
  rw [applyUpdateOp_eq, SafeCNAME]
  cases up.operation with
  | add => exact exclusive_addRecord up h
  | deleteRRSet =>
    refine iff_of_true ?_ trivial
    intro hmem
    have hsub : (records.filter fun s => s.type ≠ up.qType).Sublist records := filter_sublist
    exact hsub.length_le.trans (h ((hsub.map _).mem hmem))
  | deleteName => exact iff_of_true (fun _ => Nat.zero_le _) trivial
  | deleteRecord =>
    refine iff_of_true ?_ trivial
    intro hmem
    exact (length_filterMap_le _ _).trans (h (removeRData_types up _ hmem))
  | ignore => exact iff_of_true h trivial

end Exclusive

section Stores

variable {σ ε κ : Type} [DecidableEq κ]

def lookupAt (getter : Getter σ) (s : σ) (name : Bytes) : RRSets := (getter s name).getD []

def StoreCall.records : StoreCall → RRSets
  | .upsert _ records => records
  | .deleteDomain _ => []

theorem callFor_records (domain : Bytes) (final : RRSets) : (callFor domain final).records = final := by
  unfold callFor
  split_ifs with hnil
  · exact hnil.symm
  · rfl

/-- A store that keeps what it is given, up to the data inside the records: names with the same key share their records,
and a call that succeeds replaces those of one key. -/
structure Faithful (key : Bytes → κ) (getter : Getter σ) (ud : UpsertDeleter σ ε) : Prop where
  same : ∀ s {name name' : Bytes}, key name = key name' → lookupAt getter s name = lookupAt getter s name'
  call : ∀ s call, (ud.call s call).2 = none → ∀ name, Alike (lookupAt getter (ud.call s call).1 name)
    (if key name = key call.domain then call.records else lookupAt getter s name)

structure OpInvariant (I : κ → RRSets → Prop) (Safe : κ → RRSets → RawRR → Prop) : Prop where
  alike : ∀ {k records records'}, Alike records records' → (I k records ↔ I k records')
  step : ∀ {k records} up, I k records → (I k (applyUpdateOp records up) ↔ Safe k records up)

variable {key : Bytes → κ} {getter : Getter σ} {ud : UpsertDeleter σ ε} {I : κ → RRSets → Prop}
  {Safe : κ → RRSets → RawRR → Prop}

def Held (key : Bytes → κ) (getter : Getter σ) (I : κ → RRSets → Prop) (s : σ) : Prop :=
  ∀ name, I (key name) (lookupAt getter s name)

section Calls

variable (hstore : Faithful key getter ud) (hI : OpInvariant I Safe) {s : σ}

include hstore hI

theorem call_held_iff (h : Held key getter I s) {call : StoreCall} (hok : (ud.call s call).2 = none) :
    Held key getter I (ud.call s call).1 ↔ I (key call.domain) call.records := by
  have hcall := hstore.call s call hok
  constructor
  · intro hheld
    have hdomain := hcall call.domain
    rw [if_pos rfl] at hdomain
    exact (hI.alike hdomain).mp (hheld call.domain)
  · intro hrecords name
    apply (hI.alike (hcall name)).mpr
    split_ifs with hname
    · rw [hname]
      exact hrecords
    · exact h name

theorem callAll_held {calls : List StoreCall} (h : Held key getter I s)
    (hcalls : ∀ call ∈ calls, I (key call.domain) call.records) (hok : (callAll ud calls s).2.2 = none) :
    Held key getter I (callAll ud calls s).1 := by
  induction calls generalizing s with
  | nil => exact h
  | cons call calls ih =>
    have hfirst (hok : (ud.call s call).2 = none) : Held key getter I (ud.call s call).1 :=
      (call_held_iff hstore hI h hok).mpr (hcalls call mem_cons_self)
    rw [callAll] at hok ⊢
    generalize ud.call s call = r at hfirst hok ⊢
    obtain ⟨s', _ | e⟩ := r
    · exact ih (hfirst rfl) (fun c hc => hcalls c (mem_cons_of_mem _ hc)) hok
    · exact absurd hok (Option.some_ne_none e)

end Calls

def SafeUpdates (key : Bytes → κ) (getter : Getter σ) (Safe : κ → RRSets → RawRR → Prop) (s : σ) (updates : List RawRR) : Prop :=
  ∀ before up rest, updates = before ++ up :: rest → Safe (key up.name) (settled getter s before up.name) up

omit [DecidableEq κ] in
theorem settled_held (hI : OpInvariant I Safe) {s : σ} (h : Held key getter I s) {updates : List RawRR}
    (hsafe : SafeUpdates key getter Safe s updates) (name : Bytes) : I (key name) (settled getter s updates name) := by
  induction updates using reverseRecOn with
  | nil => exact h name
  | append_singleton updates up ih =>
    have hbefore : SafeUpdates key getter Safe s updates := by
      intro before up' rest hsplit
      refine hsafe before up' (rest ++ [up]) ?_
      rw [hsplit, append_assoc]
      rfl
    rw [settled_concat]
    split_ifs with hname
    · have hsafe' := hsafe updates up [] rfl
      rw [hname] at hsafe'
      exact (hI.step up (ih hbefore)).mpr hsafe'
    · exact ih hbefore

theorem updateCalls_single (mo : MapOrder) (s : σ) (up : RawRR) :
    updateCalls mo getter s [up] = [callFor up.name (applyUpdateOp (lookupAt getter s up.name) up)] := by
  have horder : mo.order ((domainStates getter s [up]).map Prod.fst) = [up.name] := perm_singleton.mp (mo.perm _)
  have hsettled : settled getter s [up] up.name = applyUpdateOp (lookupAt getter s up.name) up := by
    rw [settled, filter_cons_of_pos (by simp)]
    rfl
  rw [updateCalls, horder, map_singleton, hsettled]

section Messages

variable (hstore : Faithful key getter ud) (hI : OpInvariant I Safe) {u : Unicode} {mo : MapOrder} {s : σ} {p zone : Bytes}
  {prereqs : List RawRR}

include hstore hI

theorem process_held (h : Held key getter I s) (hok : ∀ e, (process u mo getter ud s p).err ≠ some (.store e))
    (hsafe : ∀ zone prereqs updates, admitted u getter s p = some (zone, prereqs, updates) →
      SafeUpdates key getter Safe s updates) : Held key getter I (process u mo getter ud s p).store := by
  cases hm : admitted u getter s p with
  | none =>
    rw [(process_rejected mo ud hm).1]
    exact h
  | some m =>
    obtain ⟨zone, prereqs, updates⟩ := m
    have hsettled := settled_held hI h (hsafe zone prereqs updates hm)
    have hcalls : ∀ call ∈ updateCalls mo getter s updates, I (key call.domain) call.records := by
      intro call hcall
      obtain ⟨-, heq⟩ := mem_updateCalls hcall
      rw [heq, callFor_records, callFor_domain]
      exact hsettled call.domain
    have hheld := callAll_held hstore hI h hcalls
    rw [process_admitted mo ud hm] at hok ⊢
    generalize callAll ud (updateCalls mo getter s updates) s = r at hheld hok ⊢
    obtain ⟨s', calls, _ | e⟩ := r
    · exact hheld rfl
    · exact absurd rfl (hok e)

theorem process_held_single {up : RawRR} (h : Held key getter I s) (hm : admitted u getter s p = some (zone, prereqs, [up]))
    (hok : ∀ e, (process u mo getter ud s p).err ≠ some (.store e)) :
    Held key getter I (process u mo getter ud s p).store ↔ Safe (key up.name) (lookupAt getter s up.name) up := by
  rw [← hI.step up (h up.name)]
  have hcall : (ud.call s (callFor up.name (applyUpdateOp (lookupAt getter s up.name) up))).2 = none → _ :=
    call_held_iff hstore hI h
  rw [callFor_domain, callFor_records] at hcall
  rw [process_admitted mo ud hm, updateCalls_single, callAll] at hok ⊢
  generalize ud.call s (callFor up.name (applyUpdateOp (lookupAt getter s up.name) up)) = r at hcall hok ⊢
  obtain ⟨s', _ | e⟩ := r
  · exact hcall rfl
  · exact absurd rfl (hok e)

end Messages

def afterAll (u : Unicode) (getter : Getter σ) (ud : UpsertDeleter σ ε) (s : σ) (msgs : List (MapOrder × Bytes)) : σ :=
  msgs.foldl (fun s msg => (process u msg.1 getter ud s msg.2).store) s

def Along (u : Unicode) (getter : Getter σ) (ud : UpsertDeleter σ ε) (P : σ → MapOrder → Bytes → Prop) :
    σ → List (MapOrder × Bytes) → Prop
  | _, [] => True
  | s, msg :: msgs => P s msg.1 msg.2 ∧ Along u getter ud P (process u msg.1 getter ud s msg.2).store msgs

def Clean (u : Unicode) (getter : Getter σ) (ud : UpsertDeleter σ ε) (s : σ) (mo : MapOrder) (p : Bytes) : Prop :=
  ∀ e, (process u mo getter ud s p).err ≠ some (.store e)

def SafeMessage (u : Unicode) (key : Bytes → κ) (getter : Getter σ) (Safe : κ → RRSets → RawRR → Prop) (s : σ) (p : Bytes) : Prop :=
  ∀ zone prereqs updates, admitted u getter s p = some (zone, prereqs, updates) → SafeUpdates key getter Safe s updates

theorem afterAll_held (hstore : Faithful key getter ud) (hI : OpInvariant I Safe) {u : Unicode} {s : σ} (h : Held key getter I s)
    {msgs : List (MapOrder × Bytes)} (hclean : Along u getter ud (Clean u getter ud) s msgs)
    (hsafe : Along u getter ud (fun s _ p => SafeMessage u key getter Safe s p) s msgs) {front : List (MapOrder × Bytes)}
    (hfront : front <+: msgs) : Held key getter I (afterAll u getter ud s front) := by
  induction msgs generalizing s front with
  | nil =>
    rw [prefix_nil.mp hfront]
    exact h
  | cons msg msgs ih =>
    cases front with
    | nil => exact h
    | cons msg' front =>
      obtain ⟨rfl, hrest⟩ := cons_prefix_cons.mp hfront
      exact ih (process_held hstore hI h hclean.1 hsafe.1) hclean.2 hsafe.2 hrest

def OneSOA (getter : Getter σ) (zone : Bytes) (s : σ) : Prop := (soaRecords (lookupAt getter s zone)).length = 1

def NoMixed (getter : Getter σ) (s : σ) : Prop := ∀ name, Exclusive (lookupAt getter s name)

omit [DecidableEq κ] in
theorem soa_opInvariant (k : κ) : OpInvariant (fun k' records => k' = k → (soaRecords records).length = 1)
    (fun k' records up => k' = k → SafeSOA records up) where
  alike h := by rw [soaRecords_alike h]
  step up h := by
    constructor
    · intro hafter hk
      exact (safeSOA_iff _ up (h hk)).mp (hafter hk)
    · intro hsafe hk
      exact (safeSOA_iff _ up (h hk)).mpr (hsafe hk)

omit [DecidableEq κ] in
theorem cname_opInvariant : OpInvariant (fun _ : κ => Exclusive) (fun _ => SafeCNAME) where
  alike := exclusive_alike
  step up h := safeCNAME_iff up h

theorem held_soa_iff (hstore : Faithful key getter ud) (zone : Bytes) (s : σ) :
    Held key getter (fun k records => k = key zone → (soaRecords records).length = 1) s ↔ OneSOA getter zone s := by
  constructor
  · intro h
    exact h zone rfl
  · intro h name hname
    rw [hstore.same s hname]
    exact h

/-- A message with one update keeps the single SOA of a zone, and keeps CNAME sets alone, exactly when the update is safe;
runs of any messages keep both as long as every update is safe for what is there when its turn comes. -/
theorem singletons_kept (hstore : Faithful key getter ud) (u : Unicode) (zone : Bytes) :
    (∀ mo s p zone' prereqs up, admitted u getter s p = some (zone', prereqs, [up]) → Clean u getter ud s mo p →
      (OneSOA getter zone s → (OneSOA getter zone (process u mo getter ud s p).store ↔
        (key up.name = key zone → SafeSOA (lookupAt getter s up.name) up))) ∧
      (NoMixed getter s → (NoMixed getter (process u mo getter ud s p).store ↔
        SafeCNAME (lookupAt getter s up.name) up))) ∧
    ∀ s msgs, Along u getter ud (Clean u getter ud) s msgs →
      (OneSOA getter zone s → Along u getter ud (fun s _ p =>
          SafeMessage u key getter (fun k records up => k = key zone → SafeSOA records up) s p) s msgs →
        ∀ front, front <+: msgs → OneSOA getter zone (afterAll u getter ud s front)) ∧
      (NoMixed getter s → Along u getter ud (fun s _ p => SafeMessage u key getter (fun _ => SafeCNAME) s p) s msgs →
        ∀ front, front <+: msgs → NoMixed getter (afterAll u getter ud s front)) := by
  have hsoa := held_soa_iff hstore zone
  refine ⟨?_, ?_⟩
  · intro mo s p zone' prereqs up hm hclean
    refine ⟨?_, ?_⟩
    · intro h
      rw [← hsoa, process_held_single hstore (soa_opInvariant (key zone)) ((hsoa s).mpr h) hm hclean]
    · intro h
      exact process_held_single hstore cname_opInvariant h hm hclean
  · intro s msgs hclean
    refine ⟨?_, ?_⟩
    · intro h hsafe front hfront
      exact (hsoa _).mp (afterAll_held hstore (soa_opInvariant (key zone)) ((hsoa s).mpr h) hclean hsafe hfront)
    · intro h hsafe front hfront
      exact afterAll_held hstore cname_opInvariant h hclean hsafe hfront

end Stores

section Tree

def treeGetter : Getter { t : Radix.Tree // t.Valid } := fun t name => t.1.get name

def treeCommits : UpsertDeleter { t : Radix.Tree // t.Valid } SubmitError where
  upsert t domain records := (⟨(commits.upsert t.1 domain records).1, valid_mutate t.2 _⟩, none)
  deleteDomain t domain := (⟨(commits.deleteDomain t.1 domain).1, valid_mutate t.2 _⟩, none)

theorem faithful_tree : Faithful Radix.labels treeGetter treeCommits where
  same s name name' h := by
    change (s.1.contents (Radix.labels name)).getD [] = (s.1.contents (Radix.labels name')).getD []
    rw [h]
  call s call _ name := by
    have hstored : lookupAt treeGetter (treeCommits.call s call).1 name = recordsOf (mutate s.1 call.op) name := by
      cases call <;> rfl
    have hop : call.op.domain = call.domain ∧ call.op.records = call.records := by
      cases call <;> exact ⟨rfl, rfl⟩
    have hmutate := alike_of_erased (recordsOf_mutate s.2 call.op name)
    rw [hop.1, hop.2] at hmutate
    rw [hstored]
    by_cases hname : Radix.labels name = Radix.labels call.domain
    · rw [if_pos hname.symm] at hmutate
      rwa [if_pos hname]
    · rw [if_neg (Ne.symm hname)] at hmutate
      rwa [if_neg hname]

def apexStore : { t : Radix.Tree // t.Valid } := ⟨apexTree, apexTree_valid⟩

def updateApex (type rrClass : UInt8) (data : Bytes) : Bytes :=
  [0, 0, 0x28, 0, 0, 1, 0, 0, 0, 1, 0, 0, 1, 97, 0, 0, 6, 0, 1, 1, 97, 0, 0, type, 0, rrClass, 0, 0, 0, 0, 0,
    UInt8.ofNat data.length] ++ data

theorem singletons_kept_apex :
    let add := (MapOrder.insertion, updateApex 1 1 [1, 2, 3, 4])
    let delete := (MapOrder.insertion, updateApex 1 255 [])
    (lookupAt treeGetter (afterAll .basic treeGetter treeCommits apexStore [add]) [97]).map RRSet.type = [typeSOA, typeA] ∧
      OneSOA treeGetter [97] (afterAll .basic treeGetter treeCommits apexStore [add]) ∧
      OneSOA treeGetter [97] (afterAll .basic treeGetter treeCommits apexStore [add, delete]) := by
  intro add delete
  have hclean : Along .basic treeGetter treeCommits (Clean .basic treeGetter treeCommits) apexStore [add, delete] := by
    have hnone : ∀ s mo p, (process .basic mo treeGetter treeCommits s p).err = none → Clean .basic treeGetter treeCommits s mo p :=
      fun s mo p hnone e he => by cases hnone.symm.trans he
    exact ⟨hnone _ _ _ (by decide +kernel), hnone _ _ _ (by decide +kernel), trivial⟩
  have hsafe : Along .basic treeGetter treeCommits (fun s _ p => SafeMessage .basic Radix.labels treeGetter
      (fun k records up => k = Radix.labels [97] → SafeSOA records up) s p) apexStore [add, delete] := by
    have hother : ∀ s p, (∀ m ∈ (admitted .basic treeGetter s p).toList, ∀ up ∈ m.2.2,
          up.qType ≠ typeSOA ∧ up.operation ≠ .deleteName) → SafeMessage .basic Radix.labels treeGetter
        (fun k records up => k = Radix.labels [97] → SafeSOA records up) s p := by
      intro s p h zone prereqs updates hm before up rest hsplit _
      have hup := h _ (Option.mem_toList.mpr hm) up (by rw [hsplit]; exact mem_append_right _ mem_cons_self)
      unfold SafeSOA
      split <;> simp_all
    exact ⟨hother _ _ (by decide +kernel), hother _ _ (by decide +kernel), trivial⟩
  have hone : OneSOA treeGetter [97] apexStore := by
    unfold OneSOA
    decide +kernel
  have hkept := ((singletons_kept faithful_tree .basic [97]).2 apexStore _ hclean).1 hone hsafe
  exact ⟨by decide +kernel, hkept _ ⟨[delete], rfl⟩, hkept _ prefix_rfl⟩

theorem noMixed_apex : NoMixed treeGetter apexStore := by
  intro name
  have hcontents := (Radix.Tree.upsertAll_spec Radix.Tree.valid_new
    [([97], [⟨[[0, 0, 0, 0, 0, 7, 0, 0, 0, 0, 0, 0, 0, 0, 0, 0, 0, 0, 0, 0, 0, 0]], 300, typeSOA, classIN⟩])]).2
  have hstored : lookupAt treeGetter apexStore name = (apexTree.contents (Radix.labels name)).getD [] := rfl
  rw [hstored]
  by_cases hname : Radix.labels name = [[97]]
  · rw [hname]
    unfold Exclusive
    decide +kernel
  · have hnone : apexTree.contents (Radix.labels name) = none := by
      rw [apexTree, hcontents, Radix.Tree.contents_new, Overwrite.replay_untouched]
      have hl : Radix.labels [97] = [[97]] := by decide
      simpa [Radix.Tree.upsertWrite, hl] using hname
    rw [hnone]
    intro hmem
    cases hmem

/-- The SOA is deleted, a second one is added, and a CNAME is put beside it. -/
theorem singletons_lost :
    OneSOA treeGetter [97] apexStore ∧ NoMixed treeGetter apexStore ∧
      soaRecords (lookupAt treeGetter (process .basic .insertion treeGetter treeCommits apexStore (updateApex 6 255 [])).store
        [97]) = [] ∧
      (soaRecords (lookupAt treeGetter (process .basic .insertion treeGetter treeCommits apexStore
        (updateApex 6 1 (replicate 22 0))).store [97])).length = 2 ∧
      (lookupAt treeGetter (process .basic .insertion treeGetter treeCommits apexStore (updateApex 5 1 [0])).store
        [97]).map RRSet.type = [typeSOA, typeCNAME] := by
  refine ⟨?_, noMixed_apex, by decide +kernel, by decide +kernel, by decide +kernel⟩
  unfold OneSOA
  decide +kernel

end Tree

end Kdns.Update
