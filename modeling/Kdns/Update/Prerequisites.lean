import Kdns.Server.Update
import Mathlib.Data.Finset.Basic
import Mathlib.Data.Finset.Dedup

namespace Kdns.Update

open ByteStream Dns Wire GoStrings

inductive Test where
  | rrSetExists
  | rrSetEquals
  | rrSetAbsent
  | nameInUse
  | nameNotInUse
  deriving DecidableEq, Repr

def RawRR.test (pr : RawRR) : Option Test :=
  if pr.rrClass = classANY ∧ pr.qType ≠ typeANY ∧ pr.rData = [] then some .rrSetExists
  else if pr.rrClass = classIN ∧ pr.qType ≠ typeANY ∧ pr.rData ≠ [] then some .rrSetEquals
  else if pr.rrClass = classNONE ∧ pr.qType ≠ typeANY ∧ pr.rData = [] then some .rrSetAbsent
  else if pr.rrClass = classANY ∧ pr.qType = typeANY ∧ pr.rData = [] then some .nameInUse
  else if pr.rrClass = classNONE ∧ pr.qType = typeANY ∧ pr.rData = [] then some .nameNotInUse
  else none

def dataAt (records : RRSets) (type : RRType) : Finset Bytes :=
  ((records.filter fun s => s.type = type).flatMap RRSet.rdata).toFinset

def listed (prs : List RawRR) (name : Bytes) (type : RRType) : Finset Bytes :=
  ((prs.filter fun pr => pr.test = some .rrSetEquals ∧ pr.name = name ∧ pr.qType = type).map RawRR.rData).toFinset

def Documented (prs : List RawRR) (records : RRSets) (pr : RawRR) : Test → Prop
  | .rrSetExists => ∃ s ∈ records, s.type = pr.qType
  | .rrSetEquals => listed prs pr.name pr.qType = dataAt records pr.qType
  | .rrSetAbsent => ∀ s ∈ records, s.type ≠ pr.qType
  | .nameInUse => records ≠ []
  | .nameNotInUse => records = []

variable {records : RRSets} {type : RRType} {r : Bytes} {prs : List RawRR}

theorem mem_dataAt : r ∈ dataAt records type ↔ ∃ s ∈ records, s.type = type ∧ r ∈ s.rdata := by
  simp [dataAt, and_assoc]

theorem mem_listed {name : Bytes} : r ∈ listed prs name type ↔
      ∃ pr ∈ prs, (pr.test = some .rrSetEquals ∧ pr.name = name ∧ pr.qType = type) ∧ pr.rData = r := by
  simp [listed, and_assoc]

theorem getType_isSome_iff : (getType records type).isSome = true ↔ ∃ s ∈ records, s.type = type := by
  simp [getType]

theorem getType_mem {s : RRSet} (h : getType records type = some s) : s ∈ records ∧ s.type = type := by
  refine ⟨List.mem_of_find?_eq_some h, ?_⟩
  simpa using List.find?_some h

theorem dataAt_getType (hone : (records.map RRSet.type).Nodup) {s : RRSet}
    (h : getType records type = some s) : r ∈ dataAt records type ↔ r ∈ s.rdata := by
  have hs := getType_mem h
  rw [mem_dataAt]
  constructor
  · rintro ⟨s', hs', htype, hr⟩
    rwa [List.inj_on_of_nodup_map hone hs.1 hs' (hs.2.trans htype.symm)]
  · intro hr
    exact ⟨s, hs.1, hs.2, hr⟩

def evaluateTest (records : RRSets) (pr : RawRR) : Test → RCode
  | .rrSetExists => if (getType records pr.qType).isSome then .success else .nxRRSet
  | .rrSetEquals =>
    match getType records pr.qType with
    | none => .nxRRSet
    | some record => if containsRData record.rdata pr.rData then .success else .nxRRSet
  | .rrSetAbsent => if (getType records pr.qType).isSome then .yxRRSet else .success
  | .nameInUse => if records = [] then .nameError else .success
  | .nameNotInUse => if records = [] then .success else .yxDomain

section Evaluate

variable (existing : Option RRSets) (pr : RawRR)

theorem sameType_eq (type : RRType) :
    (existing.bind fun records => getType records type) = getType (existing.getD []) type := by
  cases existing with
  | none => rfl
  | some records => rfl

theorem evaluatePrerequisite_eq :
    evaluatePrerequisite existing pr = pr.test.elim .formatError (evaluateTest (existing.getD []) pr) := by
  unfold evaluatePrerequisite
  rw [sameType_eq]
  simp only [RawRR.test, apply_ite (Option.elim · RCode.formatError (evaluateTest (existing.getD []) pr))]
  rfl

theorem evaluatePrerequisite_rrSetEquals (h : pr.test = some .rrSetEquals)
    (hone : ((existing.getD []).map RRSet.type).Nodup) :
    evaluatePrerequisite existing pr = .success ↔ pr.rData ∈ dataAt (existing.getD []) pr.qType := by
  rw [evaluatePrerequisite_eq, h, Option.elim_some, evaluateTest]
  cases hget : getType (existing.getD []) pr.qType with
  | none =>
    have hnone : ¬(getType (existing.getD []) pr.qType).isSome = true := by simp [hget]
    rw [getType_isSome_iff] at hnone
    simp only [mem_dataAt, reduceCtorEq, false_iff]
    rintro ⟨s, hs, htype, -⟩
    exact hnone ⟨s, hs, htype⟩
  | some s =>
    rw [dataAt_getType hone hget]
    simp [containsRData]

theorem evaluatePrerequisite_other {t : Test} (h : pr.test = some t) (ht : t ≠ .rrSetEquals) (prs : List RawRR) :
    evaluatePrerequisite existing pr = .success ↔ Documented prs (existing.getD []) pr t := by
  rw [evaluatePrerequisite_eq, h, Option.elim_some]
  cases t with
  | rrSetExists => simp [Documented, evaluateTest, getType]
  | rrSetEquals => exact absurd rfl ht
  | rrSetAbsent => simp [Documented, evaluateTest, getType]
  | nameInUse => simp [Documented, evaluateTest]
  | nameNotInUse => simp [Documented, evaluateTest]

end Evaluate

section Check

variable {σ : Type} (getter : Getter σ) (s : σ)

theorem checkPrerequisites_success_iff (prs : List RawRR) : checkPrerequisites getter s prs = .success ↔
      ∀ pr ∈ prs, evaluatePrerequisite (getter s pr.name) pr = .success := by
  induction prs with
  | nil => simp [checkPrerequisites]
  | cons pr prs ih =>
    rw [checkPrerequisites, List.forall_mem_cons]
    split
    · rename_i hpr
      simp [hpr, ih]
    · rename_i hpr
      exact iff_of_false hpr fun h => hpr h.1

theorem checkPrerequisites_success (hforms : ∀ pr ∈ prs, pr.test.isSome)
    (hone : ∀ name, (((getter s name).getD []).map RRSet.type).Nodup) : checkPrerequisites getter s prs = .success ↔
      ∀ pr ∈ prs, ∀ t, pr.test = some t →
        (t = .rrSetEquals → pr.rData ∈ dataAt ((getter s pr.name).getD []) pr.qType) ∧
          (t ≠ .rrSetEquals → Documented prs ((getter s pr.name).getD []) pr t) := by
  rw [checkPrerequisites_success_iff]
  apply forall₂_congr
  intro pr hpr
  obtain ⟨t, ht⟩ := Option.isSome_iff_exists.mp (hforms pr hpr)
  constructor
  · intro hcode t' ht'
    refine ⟨?_, fun hne => (evaluatePrerequisite_other _ pr ht' hne prs).mp hcode⟩
    rintro rfl
    exact (evaluatePrerequisite_rrSetEquals _ pr ht' (hone pr.name)).mp hcode
  · intro hall
    by_cases heq : t = .rrSetEquals
    · rw [heq] at ht
      exact (evaluatePrerequisite_rrSetEquals _ pr ht (hone pr.name)).mpr ((hall _ ht).1 rfl)
    · exact (evaluatePrerequisite_other _ pr ht heq prs).mpr ((hall t ht).2 heq)

theorem listed_subset_iff (records : Bytes → RRSets) :
    (∀ pr ∈ prs, pr.test = some .rrSetEquals → pr.rData ∈ dataAt (records pr.name) pr.qType) ↔
      ∀ pr ∈ prs, pr.test = some .rrSetEquals → listed prs pr.name pr.qType ⊆ dataAt (records pr.name) pr.qType := by
  constructor
  · intro h pr hpr htest r hr
    obtain ⟨pr', hpr', ⟨htest', hname, htype⟩, rfl⟩ := mem_listed.mp hr
    rw [← hname, ← htype]
    exact h pr' hpr' htest'
  · intro h pr hpr htest
    exact h pr hpr htest (mem_listed.mpr ⟨pr, hpr, ⟨htest, rfl, rfl⟩, rfl⟩)

/-- Prerequisites are decided as documented exactly when no set that is tested by value has data beyond the listed,
unless another prerequisite fails anyway. -/
theorem checkPrerequisites_documented_iff (prs : List RawRR) (hforms : ∀ pr ∈ prs, pr.test.isSome)
    (hone : ∀ name, (((getter s name).getD []).map RRSet.type).Nodup) :
    (checkPrerequisites getter s prs = .success ↔
        ∀ pr ∈ prs, ∀ t, pr.test = some t → Documented prs ((getter s pr.name).getD []) pr t) ↔
      ((∀ pr ∈ prs, pr.test = some .rrSetEquals →
          listed prs pr.name pr.qType ⊆ dataAt ((getter s pr.name).getD []) pr.qType) →
        (∀ pr ∈ prs, ∀ t ≠ Test.rrSetEquals, pr.test = some t → Documented prs ((getter s pr.name).getD []) pr t) →
        ∀ pr ∈ prs, pr.test = some .rrSetEquals →
          dataAt ((getter s pr.name).getD []) pr.qType ⊆ listed prs pr.name pr.qType) := by
  rw [checkPrerequisites_success getter s hforms hone, ← listed_subset_iff fun name => (getter s name).getD []]
  constructor
  · intro hiff hlisted hothers pr hpr htest
    have hall := hiff.mp fun pr hpr t ht => ⟨fun heq => hlisted pr hpr (heq ▸ ht), fun hne => hothers pr hpr t hne ht⟩
    exact (hall pr hpr _ htest).symm.subset
  · intro hcond
    constructor
    · intro hcode pr hpr t ht
      by_cases heq : t = .rrSetEquals
      · subst heq
        have hlisted : ∀ pr ∈ prs, pr.test = some .rrSetEquals → pr.rData ∈ dataAt ((getter s pr.name).getD []) pr.qType :=
          fun pr hpr htest => (hcode pr hpr _ htest).1 rfl
        apply Finset.Subset.antisymm
        · exact (listed_subset_iff fun name => (getter s name).getD []).mp hlisted pr hpr ht
        · exact hcond hlisted (fun pr hpr t hne ht => (hcode pr hpr t ht).2 hne) pr hpr ht
      · exact (hcode pr hpr t ht).2 heq
    · intro hall pr hpr t ht
      refine ⟨?_, fun _ => hall pr hpr t ht⟩
      rintro rfl
      have hdoc : listed prs pr.name pr.qType = dataAt ((getter s pr.name).getD []) pr.qType := hall pr hpr _ ht
      rw [← hdoc]
      exact mem_listed.mpr ⟨pr, hpr, ⟨ht, rfl, rfl⟩, rfl⟩

end Check

/-- One of two stored addresses is listed: the section passes, though the stored set differs. -/
theorem checkPrerequisites_accepts_subset :
    checkPrerequisites (fun (_ : Unit) (_ : Bytes) => some [⟨[[10, 0, 0, 1], [10, 0, 0, 2]], 300, typeA, classIN⟩]) ()
        [⟨[97, dotByte], [10, 0, 0, 1], 0, typeA, classIN⟩] = .success ∧
      ¬Documented [⟨[97, dotByte], [10, 0, 0, 1], 0, typeA, classIN⟩]
        [⟨[[10, 0, 0, 1], [10, 0, 0, 2]], 300, typeA, classIN⟩] ⟨[97, dotByte], [10, 0, 0, 1], 0, typeA, classIN⟩
        .rrSetEquals := by
  refine ⟨by decide, fun h => ?_⟩
  rw [Documented] at h
  have hmem : [10, 0, 0, 2] ∈ dataAt [⟨[[10, 0, 0, 1], [10, 0, 0, 2]], 300, typeA, classIN⟩] typeA := by decide
  rw [← h] at hmem
  revert hmem
  decide

theorem checkPrerequisites_documented_pair :
    checkPrerequisites (fun (_ : Unit) (_ : Bytes) => some [⟨[[10, 0, 0, 1], [10, 0, 0, 2]], 300, typeA, classIN⟩]) ()
        [⟨[97, dotByte], [10, 0, 0, 2], 0, typeA, classIN⟩, ⟨[97, dotByte], [10, 0, 0, 1], 0, typeA, classIN⟩] = .success ↔
      ∀ pr ∈ ([⟨[97, dotByte], [10, 0, 0, 2], 0, typeA, classIN⟩, ⟨[97, dotByte], [10, 0, 0, 1], 0, typeA, classIN⟩] :
          List RawRR), ∀ t, pr.test = some t →
        Documented [⟨[97, dotByte], [10, 0, 0, 2], 0, typeA, classIN⟩, ⟨[97, dotByte], [10, 0, 0, 1], 0, typeA, classIN⟩]
          [⟨[[10, 0, 0, 1], [10, 0, 0, 2]], 300, typeA, classIN⟩] pr t :=
  (checkPrerequisites_documented_iff
    (fun (_ : Unit) (_ : Bytes) => some [⟨[[10, 0, 0, 1], [10, 0, 0, 2]], 300, typeA, classIN⟩]) ()
    [⟨[97, dotByte], [10, 0, 0, 2], 0, typeA, classIN⟩, ⟨[97, dotByte], [10, 0, 0, 1], 0, typeA, classIN⟩]
    (by decide) (fun _ => by decide)).mpr fun _ _ => by decide

end Kdns.Update
