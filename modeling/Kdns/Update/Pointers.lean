import Kdns.Lib.Fallible
import Kdns.Update.Erased
import Kdns.Update.Zones
import Kdns.Wire.Detached

namespace Kdns.Update

open ByteStream Dns Wire GoStrings CompressedName List

def StandsAt (u : Unicode) (p : Bytes) (before : List RawRR) (up : RawRR) (start : ℕ) : Prop :=
  ∃ zone prereqs i j k next, parseZoneSection u p (uint16At p 4) = .ok (zone, i) ∧
    parseRecords u p (uint16At p 6).toNat i = .ok (prereqs, j) ∧ parseRecords u p before.length j = .ok (before, k) ∧
    parseRR u p k = .ok (up, next) ∧ next = start + up.rData.length

section Position

variable {u : Unicode} {p : Bytes} {up : RawRR}

theorem parseRR_rData {i next : ℕ} (h : parseRR u p i = .ok (up, next)) :
    ∃ start, next = start + up.rData.length ∧ up.rData <+: p.drop start := by
  obtain ⟨⟨name, offset⟩, hname, h⟩ := Fallible.bind_ok h
  obtain ⟨-, h⟩ := Fallible.of_guard h
  obtain ⟨hroom, h⟩ := Fallible.of_guard h
  cases h
  refine ⟨offset + rrHeaderSize, ?_, take_prefix _ _⟩
  rw [Tsig.slice, length_take, length_drop, Nat.min_eq_left (by omega)]

theorem parseRecords_split {before after : List RawRR} {n i next : ℕ}
    (h : parseRecords u p n i = .ok (before ++ up :: after, next)) :
    ∃ k k', parseRecords u p before.length i = .ok (before, k) ∧ parseRR u p k = .ok (up, k') := by
  induction before generalizing n i with
  | nil =>
    cases n with
    | zero => cases h
    | succ n =>
      obtain ⟨rr, hrr, h⟩ := Fallible.bind_ok h
      obtain ⟨rest, -, h⟩ := Fallible.bind_ok h
      cases h
      exact ⟨i, rr.2, rfl, hrr⟩
  | cons rr before ih =>
    cases n with
    | zero => cases h
    | succ n =>
      obtain ⟨rr', hrr, h⟩ := Fallible.bind_ok h
      obtain ⟨⟨rest, k⟩, hrest, h⟩ := Fallible.bind_ok h
      cases h
      obtain ⟨k, k', hbefore, hup⟩ := ih hrest
      refine ⟨k, k', ?_, hup⟩
      rw [length_cons, parseRecords, hrr, Fallible.ok_bind]
      dsimp only
      rw [hbefore]
      rfl

theorem sections_standsAt {zone : Bytes} {prereqs before after : List RawRR}
    (h : sections u p = some (zone, prereqs, before ++ up :: after)) :
    ∃ start, StandsAt u p before up start ∧ up.rData <+: p.drop start := by
  unfold sections at h
  split at h
  · cases h
  · rename_i hzone
    split at h
    · cases h
    · rename_i hprereqs
      split at h
      · cases h
      · rename_i hupdates
        cases h
        obtain ⟨k, next, hbefore, hup⟩ := parseRecords_split hupdates
        obtain ⟨start, hnext, hrdata⟩ := parseRR_rData hup
        exact ⟨start, ⟨_, _, _, _, k, next, hzone, hprereqs, hbefore, hup, hnext⟩, hrdata⟩

end Position

section Passed

variable {σ : Type} {mo : MapOrder} {getter : Getter σ} {s : σ} {before after : List RawRR} {up : RawRR}

theorem added_passed (hadd : up.operation = .add)
    (hkept : ∀ up' ∈ after, up'.name = up.name → ¬up'.removes up.qType up.rData) :
    ∃ records, StoreCall.upsert up.name records ∈ updateCalls mo getter s (before ++ up :: after) ∧
      ∃ set ∈ records, set.type = up.qType ∧ up.rData ∈ set.rdata := by
  have hsettled : ∃ set ∈ settled getter s (before ++ up :: after) up.name, set.type = up.qType ∧ up.rData ∈ set.rdata := by
    rw [settled, filter_append, foldl_append, filter_cons_of_pos (by simp), foldl_cons]
    generalize (before.filter fun up' => up'.name = up.name).foldl applyUpdateOp ((getter s up.name).getD []) = records
    have hfirst : ∃ set ∈ applyUpdateOp records up, set.type = up.qType ∧ up.rData ∈ set.rdata := by
      rw [applyUpdateOp_eq, hadd]
      exact addRecord_adds up records
    generalize applyUpdateOp records up = records' at hfirst
    induction after generalizing records' with
    | nil => exact hfirst
    | cons up' after ih =>
      rw [forall_mem_cons] at hkept
      by_cases hname : up'.name = up.name
      · rw [filter_cons_of_pos (by simpa using hname), foldl_cons]
        exact ih hkept.2 _ (applyUpdateOp_holds (hkept.1 hname) hfirst)
      · rw [filter_cons_of_neg (by simpa using hname)]
        exact ih hkept.2 _ hfirst
  refine ⟨_, ?_, hsettled⟩
  have hne : settled getter s (before ++ up :: after) up.name ≠ [] := by
    obtain ⟨set, hset, -⟩ := hsettled
    exact ne_nil_of_mem hset
  refine mem_map.mpr ⟨up.name, (mem_order getter s mo _ _).mpr ?_, if_neg hne⟩
  exact mem_map.mpr ⟨up, mem_append_right _ mem_cons_self, rfl⟩

end Passed

/-- The RDATA of an added record is passed on as it stands in the message, and has the names that the message has there
exactly when none of them needs bytes outside of the RDATA. -/
theorem added_names_iff {σ ε : Type} (u : Unicode) (mo : MapOrder) (getter : Getter σ) (ud : UpsertDeleter σ ε) (s : σ)
    (p : Bytes) (lib : Library) (zone : Bytes) (prereqs before after : List RawRR) (up : RawRR)
    (hok : (process u mo getter ud s p).rcode = .success)
    (hsections : sections u p = some (zone, prereqs, before ++ up :: after)) (hadd : up.operation = .add)
    (hkept : ∀ up' ∈ after, up'.name = up.name → ¬up'.removes up.qType up.rData)
    (htype : up.qType ∈ [typeNS, typeCNAME, typePTR, typeMX, typeSOA]) :
    (∃ records, StoreCall.upsert up.name records ∈ (process u mo getter ud s p).calls ∧
        ∃ set ∈ records, set.type = up.qType ∧ up.rData ∈ set.rdata) ∧
      ∃ start, StandsAt u p before up start ∧
        ∀ names next, rdataNames up.qType p start = .ok (names, next) → next ≤ start + up.rData.length →
          (KeepsNames lib up.qType p start up.rData ↔ SelfContained up.qType p start up.rData) := by
  constructor
  · obtain ⟨zone', prereqs', updates, hm, -, -, hcalls⟩ := process_succeeds mo ud hok
    cases hsections.symm.trans (admitted_sections u hm).1
    rw [hcalls]
    exact added_passed hadd hkept
  · obtain ⟨start, hstands, hrdata⟩ := sections_standsAt hsections
    exact ⟨start, hstands, fun names next hnames hend => keepsNames_iff htype hrdata hnames hend⟩

def addNameServer (rdata : Bytes) : Bytes :=
  [0, 0, 0x28, 0, 0, 1, 0, 0, 0, 1, 0, 0, 1, 97, 0, 0, 6, 0, 1, 0xC0, 12, 0, 2, 0, 1, 0, 0, 0, 60] ++
    bigEndian 2 rdata.length ++ rdata

def nameServer (rdata : Bytes) : RawRR := ⟨[97, dotByte], rdata, 60, typeNS, classIN⟩

def apexOnly : Getter Unit := single [97, dotByte] [⟨[[0]], 60, typeSOA, classIN⟩]

/-- `ns` and a pointer to the zone's name: the message says `ns.a`, and the bytes that are stored cannot be read. -/
theorem stored_pointer_dangles :
    (process .basic .insertion apexOnly ignoring () (addNameServer [2, 110, 115, 0xC0, 12])).rcode = .success ∧
      StandsAt .basic (addNameServer [2, 110, 115, 0xC0, 12]) [] (nameServer [2, 110, 115, 0xC0, 12]) 31 ∧
      (process .basic .insertion apexOnly ignoring () (addNameServer [2, 110, 115, 0xC0, 12])).calls =
        [.upsert [97, dotByte] [⟨[[0]], 60, typeSOA, classIN⟩, ⟨[[2, 110, 115, 0xC0, 12]], 60, typeNS, classIN⟩]] ∧
      rdataNames typeNS (addNameServer [2, 110, 115, 0xC0, 12]) 31 = .ok ([[110, 115, dotByte, 97]], 36) ∧
      ∀ lib, unpackRData lib typeNS [2, 110, 115, 0xC0, 12] =
        .error (.failedToDecode "domain name" .invalidPointer) := by
  refine ⟨by decide +kernel, ?_, by decide +kernel, by decide +kernel, ?_⟩
  · exact ⟨[97, dotByte], [], 19, 19, 19, 36, by decide +kernel, by decide +kernel, rfl, by decide +kernel, rfl⟩
  · intro lib
    rfl

theorem stored_full_name :
    KeepsNames .basic typeNS (addNameServer [2, 110, 115, 1, 97, 0]) 31 [2, 110, 115, 1, 97, 0] := by
  obtain ⟨-, start, ⟨zone, prereqs, i, j, k, next, hzone, hprereqs, hbefore, hup, hnext⟩, hiff⟩ :=
    added_names_iff .basic .insertion apexOnly ignoring () (addNameServer [2, 110, 115, 1, 97, 0]) .basic [97, dotByte] [] [] []
      (nameServer [2, 110, 115, 1, 97, 0]) (by decide +kernel) (by decide +kernel) (by decide) (forall_mem_nil _) (by decide)
  have hzone' : parseZoneSection .basic (addNameServer [2, 110, 115, 1, 97, 0]) 1 = .ok ([97, dotByte], 19) := by decide +kernel
  have hup' : parseRR .basic (addNameServer [2, 110, 115, 1, 97, 0]) 19 = .ok (nameServer [2, 110, 115, 1, 97, 0], 37) := by
    decide +kernel
  cases hzone.symm.trans hzone'
  cases hprereqs
  cases hbefore
  cases hup.symm.trans hup'
  obtain rfl : start = 31 := Nat.add_right_cancel hnext.symm
  refine (hiff [[110, 115, dotByte, 97]] 37 (by decide +kernel) (by decide)).mpr ⟨?_, fun h => absurd h (by decide)⟩
  have hname : NameAt (addNameServer [2, 110, 115, 1, 97, 0]) 0 31 [[110, 115], [97]] 0 37 := by
    refine .label (Nat.zero_le _) ⟨by decide, by decide⟩ (by decide) ?_
    refine .label (Nat.zero_le _) ⟨by decide, by decide⟩ (by decide) ?_
    exact .root (Nat.zero_le _) (by decide)
  exact detaches_of_full hname

end Kdns.Update
