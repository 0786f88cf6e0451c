import Kdns.Store.Order
import Kdns.Update.Prerequisites
import Kdns.Update.Sets

open List

namespace Kdns.Storage

open ByteStream Dns Radix Wal

def eraseSerial (rdata : Bytes) : Bytes :=
  match serialOffset rdata with
  | none => rdata
  | some offset => rdata.take offset ++ (List.replicate 4 0 ++ rdata.drop (offset + 4))

def eraseIn (type : RRType) (rdata : Bytes) : Bytes := if type = typeSOA then eraseSerial rdata else rdata

def eraseSet (s : RRSet) : RRSet := { s with rdata := s.rdata.map (eraseIn s.type) }

def eraseSerials (records : RRSets) : RRSets := records.map eraseSet

theorem eraseSerial_increment (rdata : Bytes) : eraseSerial (incrementSOASerial rdata) = eraseSerial rdata := by
  cases h : serialOffset rdata with
  | some offset =>
    obtain ⟨offset', hoffset, hoffset', htake, hdrop, -⟩ := incrementSOASerial_raised h
    rw [eraseSerial, eraseSerial, hoffset, hoffset']
    dsimp only
    rw [htake, hdrop]
  | none =>
    have hsame : incrementSOASerial rdata = rdata := by
      rw [incrementSOASerial]
      split
      · rfl
      · rename_i offset hskip
        rw [serialOffset, hskip, Option.filter_some, ite_eq_right_iff] at h
        rw [if_pos]
        by_contra hle
        cases h (decide_eq_true (by omega))
    rw [hsame]

theorem eraseSet_other {s : RRSet} (h : s.type ≠ typeSOA) : eraseSet s = s := by
  have hid : eraseIn s.type = id := funext fun r => if_neg h
  rw [eraseSet, hid, map_id]

theorem eraseSerials_bumpSOA {records records' : RRSets} (h : bumpSOA records = some records') :
    eraseSerials records' = eraseSerials records := by
  induction records generalizing records' with
  | nil => cases h
  | cons s rest ih =>
    rw [bumpSOA] at h
    split at h
    · rename_i r rs hdata
      cases h
      by_cases htype : s.type = typeSOA
      · rw [if_pos htype] at hdata
        simp [eraseSerials, eraseSet, hdata, eraseIn, htype, eraseSerial_increment]
      · rw [if_neg htype] at hdata
        cases hdata
    · obtain ⟨rest', hrest, rfl⟩ := Option.map_eq_some_iff.mp h
      exact congrArg (eraseSet s :: ·) (ih hrest)

theorem eraseSerials_raised (records : RRSets) : eraseSerials ((bumpSOA records).getD records) = eraseSerials records := by
  cases h : bumpSOA records with
  | none => rfl
  | some records' => exact eraseSerials_bumpSOA h

theorem eraseSerials_eq_nil {records : RRSets} : eraseSerials records = [] ↔ records = [] := map_eq_nil_iff

def recordsOf (t : Tree) (name : Bytes) : RRSets := (t.get name).getD []

theorem get_eq_none_iff (t : Tree) (name : Bytes) : t.get name = none ↔ recordsOf t name = [] := by
  have hne : t.get name ≠ some [] := view_ne_nil
  rw [recordsOf]
  cases h : t.get name with
  | none => simp
  | some records =>
    rw [h] at hne
    simpa using hne

theorem recordsOf_mutate {t : Tree} (ht : t.Valid) (op : Op) (name : Bytes) :
    eraseSerials (recordsOf (mutate t op) name) =
      eraseSerials (if labels op.domain = labels name then op.records else recordsOf t name) := by
  have happly : recordsOf (mutate t op) name = _ := congrArg (Option.getD · []) (mutate_apply ht op (labels name))
  rw [happly]
  by_cases hname : labels op.domain = labels name
  · rw [if_pos hname, if_pos hname.symm]
    cases op with
    | upsert domain records =>
      rw [bumpOp, writeOf, Tree.upsertWrite, Op.records, ← eraseSerials_raised records]
      dsimp only
      split_ifs with hnil
      · rw [hnil]
        rfl
      · rfl
    | delete domain => rfl
  · have hstored : recordsOf t name = (t.contents (labels name)).getD [] := rfl
    rw [if_neg hname, if_neg (Ne.symm hname), hstored]
    split_ifs
    · rw [bumpStored]
      cases t.contents (labels name) with
      | none => rfl
      | some records => exact eraseSerials_raised records
    · rfl

end Kdns.Storage

namespace Kdns.Update

open ByteStream Dns Wire GoStrings Storage

section Erased

variable (records : RRSets)

theorem getType_erased (type : RRType) : getType (eraseSerials records) type = (getType records type).map eraseSet := by
  induction records with
  | nil => rfl
  | cons s records ih =>
    have hcons : eraseSerials (s :: records) = eraseSet s :: eraseSerials records := rfl
    rw [hcons, getType_cons, getType_cons, ih]
    have htype : (eraseSet s).type = s.type := rfl
    rw [htype]
    split_ifs <;> rfl

theorem test_rrSetEquals {rr : RawRR} (h : rr.test = some .rrSetEquals) : rr.rData ≠ [] := by
  unfold RawRR.test at h
  split_ifs at h <;> simp_all

def RawRR.Blind (rr : RawRR) : Prop := rr.qType = typeSOA → rr.rData = []

instance blindDecidable (rr : RawRR) : Decidable rr.Blind := inferInstanceAs (Decidable (_ → _))

variable {rr : RawRR} (h : rr.Blind)

include h

theorem evaluateTest_erased {t : Test} (ht : rr.test = some t) :
    evaluateTest (eraseSerials records) rr t = evaluateTest records rr t := by
  cases t with
  | rrSetExists => simp [evaluateTest, getType_erased]
  | rrSetEquals =>
    have htype : rr.qType ≠ typeSOA := fun hsoa => test_rrSetEquals ht (h hsoa)
    rw [evaluateTest, evaluateTest, getType_erased]
    cases hget : getType records rr.qType with
    | none => rfl
    | some s =>
      rw [Option.map_some, eraseSet_other]
      rw [(getType_mem hget).2]
      exact htype
  | rrSetAbsent => simp [evaluateTest, getType_erased]
  | nameInUse => simp [evaluateTest, eraseSerials_eq_nil]
  | nameNotInUse => simp [evaluateTest, eraseSerials_eq_nil]

theorem evaluatePrerequisite_erased :
    evaluatePrerequisite (some (eraseSerials records)) rr = evaluatePrerequisite (some records) rr := by
  rw [evaluatePrerequisite_eq, evaluatePrerequisite_eq]
  cases ht : rr.test with
  | none => rfl
  | some t => exact evaluateTest_erased records h ht

omit h in
theorem addRecord_erased (htype : rr.qType ≠ typeSOA) :
    addRecord rr (eraseSerials records) = eraseSerials (addRecord rr records) := by
  induction records with
  | nil => exact congrArg ([·]) (eraseSet_other (s := ⟨[rr.rData], rr.ttl, rr.qType, classIN⟩) htype).symm
  | cons s records ih =>
    have hcons : ∀ s records, eraseSerials (s :: records) = eraseSet s :: eraseSerials records := fun _ _ => rfl
    rw [hcons, addRecord, addRecord]
    have hsame : (eraseSet s).type = s.type := rfl
    rw [hsame]
    by_cases hs : s.type = rr.qType
    · rw [if_pos hs, if_pos hs, hcons, eraseSet_other (hs ▸ htype), eraseSet_other (hs ▸ htype)]
    · rw [if_neg hs, if_neg hs, hcons, ih]

theorem applyUpdateOp_erased : applyUpdateOp (eraseSerials records) rr = eraseSerials (applyUpdateOp records rr) := by
  have hdata : rr.rData ≠ [] → rr.qType ≠ typeSOA := fun hne hsoa => hne (h hsoa)
  rw [applyUpdateOp, applyUpdateOp]
  split_ifs with hadd hset hname hrecord
  · exact addRecord_erased records (hdata hadd.2.2)
  · rw [eraseSerials, filter_map, eraseSerials]
    rfl
  · rfl
  · rw [eraseSerials, filterMap_map, eraseSerials, map_filterMap]
    apply filterMap_congr
    intro s _
    rw [Function.comp_apply]
    by_cases hs : s.type = rr.qType
    · rw [eraseSet_other (hs ▸ hdata hrecord.2.2.2), removeRData_same rr hs]
      split_ifs
      · rfl
      · rw [Option.map_some, eraseSet_other]
        exact hs ▸ hdata hrecord.2.2.2
    · rw [removeRData_other rr hs, removeRData_other rr]
      · rfl
      · exact hs
  · rfl

omit h in
theorem foldl_applyUpdateOp_erased {rrs : List RawRR} (h : ∀ rr ∈ rrs, rr.Blind) (records : RRSets) :
    rrs.foldl applyUpdateOp (eraseSerials records) = eraseSerials (rrs.foldl applyUpdateOp records) := by
  induction rrs generalizing records with
  | nil => rfl
  | cons rr rrs ih =>
    rw [forall_mem_cons] at h
    rw [foldl_cons, foldl_cons, applyUpdateOp_erased records h.1, ih h.2]

end Erased

section Kept

def RawRR.deletes (up : RawRR) (type : RRType) (data : Bytes) : Prop :=
  match up.operation with
  | .deleteRRSet => up.qType = type
  | .deleteName => True
  | .deleteRecord => up.qType = type ∧ eraseIn type up.rData = eraseIn type data
  | _ => False

def Adds (updates : List RawRR) (name : Bytes) (type : RRType) (data : Bytes) : Prop :=
  ∃ before up after, updates = before ++ up :: after ∧ up.operation = .add ∧ up.name = name ∧ up.qType = type ∧
    up.rData = data ∧ ∀ up' ∈ after, up'.name = name → ¬up'.deletes type data

variable {records : RRSets} {type : RRType} {data : Bytes}

theorem mem_dataAt_erased : eraseIn type data ∈ dataAt (eraseSerials records) type ↔
    ∃ s ∈ records, s.type = type ∧ ∃ r ∈ s.rdata, eraseIn type r = eraseIn type data := by
  rw [mem_dataAt]
  constructor
  · rintro ⟨s', hs', rfl, hr⟩
    obtain ⟨s, hs, rfl⟩ := mem_map.mp hs'
    obtain ⟨r, hr, hdata⟩ := mem_map.mp hr
    exact ⟨s, hs, rfl, r, hr, hdata⟩
  · rintro ⟨s, hs, rfl, r, hr, hdata⟩
    exact ⟨eraseSet s, mem_map.mpr ⟨s, hs, rfl⟩, rfl, mem_map.mpr ⟨r, hr, hdata⟩⟩

theorem addRecord_adds (up : RawRR) (records : RRSets) :
    ∃ s ∈ addRecord up records, s.type = up.qType ∧ up.rData ∈ s.rdata := by
  induction records with
  | nil => exact ⟨_, mem_singleton.mpr rfl, rfl, mem_singleton.mpr rfl⟩
  | cons s records ih =>
    rw [addRecord]
    split_ifs with hs hdata
    · exact ⟨_, mem_cons_self, hs, (containsRData_iff _ _).mp hdata⟩
    · exact ⟨_, mem_cons_self, hs, mem_append_right _ (mem_singleton.mpr rfl)⟩
    · obtain ⟨s', hs', htype, hr⟩ := ih
      exact ⟨s', mem_cons_of_mem s hs', htype, hr⟩

theorem addRecord_keeps (up : RawRR) {s : RRSet} (hs : s ∈ records) :
    ∃ s' ∈ addRecord up records, s'.type = s.type ∧ ∀ r ∈ s.rdata, r ∈ s'.rdata := by
  induction records with
  | nil => cases hs
  | cons s₀ records ih =>
    rw [addRecord]
    rcases mem_cons.mp hs with rfl | hs
    · split_ifs with htype hdata
      · exact ⟨_, mem_cons_self, rfl, fun r hr => hr⟩
      · exact ⟨_, mem_cons_self, rfl, fun r hr => mem_append_left _ hr⟩
      · exact ⟨_, mem_cons_self, rfl, fun r hr => hr⟩
    · split_ifs
      · exact ⟨s, mem_cons_of_mem _ hs, rfl, fun r hr => hr⟩
      · exact ⟨s, mem_cons_of_mem _ hs, rfl, fun r hr => hr⟩
      · obtain ⟨s', hs', h⟩ := ih hs
        exact ⟨s', mem_cons_of_mem _ hs', h⟩

def RawRR.removes (up : RawRR) (type : RRType) (data : Bytes) : Prop :=
  match up.operation with
  | .deleteRRSet => up.qType = type
  | .deleteName => True
  | .deleteRecord => up.qType = type ∧ up.rData = data
  | _ => False

theorem applyUpdateOp_holds {up : RawRR} (hkept : ¬up.removes type data) (h : ∃ s ∈ records, s.type = type ∧ data ∈ s.rdata) :
    ∃ s ∈ applyUpdateOp records up, s.type = type ∧ data ∈ s.rdata := by
  obtain ⟨s, hs, htype, hdata⟩ := h
  rw [applyUpdateOp_eq]
  rw [RawRR.removes] at hkept
  cases hop : up.operation with
  | add =>
    obtain ⟨s', hs', htype', hall⟩ := addRecord_keeps up hs
    exact ⟨s', hs', htype'.trans htype, hall data hdata⟩
  | deleteRRSet => grind
  | deleteName =>
    rw [hop] at hkept
    exact absurd trivial hkept
  | deleteRecord =>
    rw [hop] at hkept
    by_cases hq : s.type = up.qType
    · have hmem : data ∈ s.rdata.filter fun r => r ≠ up.rData := by
        refine mem_filter.mpr ⟨hdata, decide_eq_true ?_⟩
        intro heq
        exact hkept ⟨hq.symm.trans htype, heq.symm⟩
      refine ⟨{ s with rdata := s.rdata.filter fun r => r ≠ up.rData }, ?_, htype, hmem⟩
      refine mem_filterMap.mpr ⟨s, hs, ?_⟩
      rw [removeRData_same up hq, if_neg (ne_nil_of_mem hmem)]
    · exact ⟨s, mem_filterMap.mpr ⟨s, hs, removeRData_other up hq⟩, htype, hdata⟩
  | ignore => exact ⟨s, hs, htype, hdata⟩

theorem deletes_of_removes {up : RawRR} {r : Bytes} (h : up.removes type r) (hr : eraseIn type r = eraseIn type data) :
    up.deletes type data := by
  unfold RawRR.removes at h
  unfold RawRR.deletes
  cases hop : up.operation with
  | deleteRecord =>
    rw [hop] at h
    exact ⟨h.1, by rw [h.2, hr]⟩
  | add | deleteRRSet | deleteName | ignore =>
    rw [hop] at h
    exact h

theorem applyUpdateOp_keeps {up : RawRR} (hkept : ¬up.deletes type data)
    (h : eraseIn type data ∈ dataAt (eraseSerials records) type) :
    eraseIn type data ∈ dataAt (eraseSerials (applyUpdateOp records up)) type := by
  rw [mem_dataAt_erased] at h ⊢
  obtain ⟨s, hs, htype, r, hr, hdata⟩ := h
  obtain ⟨s', hs', htype', hr'⟩ :=
    applyUpdateOp_holds (fun hremoves => hkept (deletes_of_removes hremoves hdata)) ⟨s, hs, htype, hr⟩
  exact ⟨s', hs', htype', r, hr', hdata⟩

theorem foldl_applyUpdateOp_keeps {updates : List RawRR} {name : Bytes}
    (hkept : ∀ up ∈ updates, up.name = name → ¬up.deletes type data)
    (h : eraseIn type data ∈ dataAt (eraseSerials records) type) : eraseIn type data ∈
      dataAt (eraseSerials ((updates.filter fun up => up.name = name).foldl applyUpdateOp records)) type := by
  induction updates generalizing records with
  | nil => exact h
  | cons up updates ih =>
    rw [forall_mem_cons] at hkept
    by_cases hname : up.name = name
    · rw [filter_cons_of_pos (by simpa using hname), foldl_cons]
      exact ih hkept.2 (applyUpdateOp_keeps (hkept.1 hname) h)
    · rw [filter_cons_of_neg (by simpa using hname)]
      exact ih hkept.2 h

theorem foldl_applyUpdateOp_adds {updates : List RawRR} {name : Bytes} (h : Adds updates name type data) (records : RRSets) :
    eraseIn type data ∈
      dataAt (eraseSerials ((updates.filter fun up => up.name = name).foldl applyUpdateOp records)) type := by
  obtain ⟨before, up, after, rfl, hop, hname, rfl, rfl, hkept⟩ := h
  rw [filter_append, foldl_append, filter_cons_of_pos (by simpa using hname), foldl_cons]
  apply foldl_applyUpdateOp_keeps hkept
  rw [mem_dataAt_erased, applyUpdateOp_eq, hop]
  obtain ⟨s, hs, htype, hr⟩ := addRecord_adds up ((before.filter fun up => up.name = name).foldl applyUpdateOp records)
  exact ⟨s, hs, htype, up.rData, hr, rfl⟩

end Kept

end Kdns.Update
