import Kdns.Server.Update
import Mathlib.Data.List.Induction

namespace Kdns.Update

open ByteStream Dns Wire GoStrings List

theorem lookup_filter_ne {V : Type} (states : List (Bytes × V)) (n name : Bytes) :
    (states.filter fun e => e.1 ≠ n).lookup name = if name = n then none else states.lookup name := by
  induction states with
  | nil => simp
  | cons e states ih =>
    by_cases hn : e.1 = n
    · rw [filter_cons_of_neg (by simpa using hn), ih, lookup_cons]
      by_cases hname : name = n
      · rw [if_pos hname, if_pos hname]
      · grind
    · rw [filter_cons_of_pos (by simpa using hn), lookup_cons, lookup_cons, ih]
      by_cases hname : name = n
      · grind
      · rw [if_neg hname, if_neg hname]

section States

variable {σ : Type} (getter : Getter σ) (s : σ)

def settled (updates : List RawRR) (name : Bytes) : RRSets :=
  (updates.filter fun up => up.name = name).foldl applyUpdateOp ((getter s name).getD [])

theorem domainStates_concat (updates : List RawRR) (up : RawRR) : domainStates getter s (updates ++ [up]) =
      (domainStates getter s updates).filter (fun e => e.1 ≠ up.name) ++ [(up.name, applyUpdateOp
        (((domainStates getter s updates).lookup up.name).getD ((getter s up.name).getD [])) up)] := by
  rw [domainStates, foldl_append]
  rfl

theorem settled_concat (updates : List RawRR) (up : RawRR) (name : Bytes) : settled getter s (updates ++ [up]) name =
      if up.name = name then applyUpdateOp (settled getter s updates name) up else settled getter s updates name := by
  rw [settled, filter_append, foldl_append]
  split_ifs with h
  · rw [filter_cons_of_pos (by simpa using h)]
    rfl
  · rw [filter_cons_of_neg (by simpa using h)]
    rfl

theorem settled_unmentioned {updates : List RawRR} {name : Bytes} (h : name ∉ updates.map RawRR.name) :
    settled getter s updates name = (getter s name).getD [] := by
  have hnone : (updates.filter fun up => up.name = name) = [] := by
    apply filter_eq_nil_iff.mpr
    intro up hup hname
    exact h (mem_map.mpr ⟨up, hup, of_decide_eq_true hname⟩)
  rw [settled, hnone]
  rfl

theorem domainStates_lookup (updates : List RawRR) (name : Bytes) :
    ((domainStates getter s updates).lookup name).getD ((getter s name).getD []) = settled getter s updates name := by
  induction updates using List.reverseRecOn generalizing name with
  | nil => rfl
  | append_singleton updates up ih =>
    rw [domainStates_concat, lookup_append, lookup_filter_ne, settled_concat, ih]
    by_cases hname : name = up.name
    · simp [hname]
    · rw [if_neg hname, if_neg (Ne.symm hname)]
      simp [lookup_cons, beq_false_of_ne hname, ih]

theorem mem_domainStates (updates : List RawRR) (name : Bytes) :
    name ∈ (domainStates getter s updates).map Prod.fst ↔ name ∈ updates.map RawRR.name := by
  induction updates using List.reverseRecOn with
  | nil => rfl
  | append_singleton updates up ih =>
    rw [domainStates_concat, map_append, map_append, mem_append, mem_append, ← ih]
    simp only [map_singleton, mem_singleton]
    by_cases hname : name = up.name
    · simp [hname]
    · simp only [hname, or_false, mem_map, mem_filter]
      constructor
      · rintro ⟨e, ⟨he, -⟩, rfl⟩
        exact ⟨e, he, rfl⟩
      · rintro ⟨e, he, rfl⟩
        exact ⟨e, ⟨he, by simpa using hname⟩, rfl⟩

theorem mem_order (mo : MapOrder) (updates : List RawRR) (name : Bytes) :
    name ∈ mo.order ((domainStates getter s updates).map Prod.fst) ↔ name ∈ updates.map RawRR.name := by
  rw [(mo.perm _).mem_iff, mem_domainStates]

end States

def StoreCall.domain : StoreCall → Bytes
  | .upsert domain _ => domain
  | .deleteDomain domain => domain

def callFor (domain : Bytes) (final : RRSets) : StoreCall :=
  if final = [] then .deleteDomain domain else .upsert domain final

theorem callFor_domain (domain : Bytes) (final : RRSets) : (callFor domain final).domain = domain := by
  unfold callFor
  split_ifs <;> rfl

def UpsertDeleter.call {σ ε : Type} (ud : UpsertDeleter σ ε) (s : σ) : StoreCall → σ × Option ε
  | .upsert domain records => ud.upsert s domain records
  | .deleteDomain domain => ud.deleteDomain s domain

def callAll {σ ε : Type} (ud : UpsertDeleter σ ε) : List StoreCall → σ → σ × List StoreCall × Option ε
  | [], s => (s, [], none)
  | call :: calls, s =>
    match ud.call s call with
    | (s, some e) => (s, [call], some e)
    | (s, none) =>
      let r := callAll ud calls s
      (r.1, call :: r.2.1, r.2.2)

section Calls

variable {σ ε : Type} (ud : UpsertDeleter σ ε)

theorem commitDomains_eq (states : List (Bytes × RRSets)) (domains : List Bytes) (s : σ) :
    commitDomains ud states domains s =
      callAll ud (domains.map fun domain => callFor domain ((states.lookup domain).getD [])) s := by
  induction domains generalizing s with
  | nil => rfl
  | cons domain domains ih =>
    rw [commitDomains, map_cons, callAll]
    have hcall : ud.call s (callFor domain ((states.lookup domain).getD [])) =
        if (states.lookup domain).getD [] = [] then ud.deleteDomain s domain
        else ud.upsert s domain ((states.lookup domain).getD []) := by
      unfold callFor
      split_ifs <;> rfl
    rw [hcall]
    rcases (if (states.lookup domain).getD [] = [] then ud.deleteDomain s domain
      else ud.upsert s domain ((states.lookup domain).getD [])) with ⟨s', _ | e⟩
    · simp only [ih]
      rfl
    · rfl

theorem callAll_calls (calls : List StoreCall) (s : σ) : (callAll ud calls s).2.1 <+: calls := by
  induction calls generalizing s with
  | nil => exact nil_prefix
  | cons call calls ih =>
    rw [callAll]
    rcases ud.call s call with ⟨s', _ | e⟩
    · exact cons_prefix_cons.mpr ⟨rfl, ih s'⟩
    · exact cons_prefix_cons.mpr ⟨rfl, nil_prefix⟩

theorem callAll_full {calls : List StoreCall} {s : σ} (h : (callAll ud calls s).2.2 = none) :
    (callAll ud calls s).2.1 = calls := by
  induction calls generalizing s with
  | nil => rfl
  | cons call calls ih =>
    rw [callAll] at h ⊢
    generalize ud.call s call = r at h ⊢
    obtain ⟨s', _ | e⟩ := r
    · exact congrArg (call :: ·) (ih h)
    · cases h

end Calls

def updateCalls {σ : Type} (mo : MapOrder) (getter : Getter σ) (s : σ) (updates : List RawRR) : List StoreCall :=
  (mo.order ((domainStates getter s updates).map Prod.fst)).map fun domain =>
    callFor domain (settled getter s updates domain)

theorem applyUpdates_eq {σ ε : Type} (mo : MapOrder) (getter : Getter σ) (ud : UpsertDeleter σ ε) (s : σ)
    (updates : List RawRR) : applyUpdates mo getter ud s updates = callAll ud (updateCalls mo getter s updates) s := by
  rw [applyUpdates, commitDomains_eq, updateCalls]
  congr 1
  apply map_congr_left
  intro domain hdomain
  -- Every name the map is walked over has a cached state, so that the default is not reached.
  have hmem : domain ∈ (domainStates getter s updates).map Prod.fst := (mo.perm _).mem_iff.mp hdomain
  have hcached : (domainStates getter s updates).lookup domain ≠ none := by
    rw [Ne, lookup_eq_none_iff]
    intro hnone
    obtain ⟨e, he, rfl⟩ := mem_map.mp hmem
    simpa using hnone e he
  obtain ⟨records, hrecords⟩ := Option.ne_none_iff_exists'.mp hcached
  rw [← domainStates_lookup, hrecords]
  rfl

theorem mem_updateCalls {σ : Type} {mo : MapOrder} {getter : Getter σ} {s : σ} {updates : List RawRR} {call : StoreCall}
    (h : call ∈ updateCalls mo getter s updates) :
    call.domain ∈ updates.map RawRR.name ∧ call = callFor call.domain (settled getter s updates call.domain) := by
  obtain ⟨domain, hdomain, rfl⟩ := mem_map.mp h
  rw [callFor_domain]
  exact ⟨(mem_order getter s mo updates domain).mp hdomain, rfl⟩

section Admitted

variable {σ ε : Type} (u : Unicode) (mo : MapOrder) (getter : Getter σ) (ud : UpsertDeleter σ ε) (s : σ) (p : Bytes)

def admits (zone : Bytes) (prereqs updates : List RawRR) : Bool :=
  !(getter s zone = none ∧ zone ≠ [dotByte]) && (prereqs.all fun pr => isInZone u pr.name zone) &&
    (updates.all fun up => isInZone u up.name zone) && checkPrerequisites getter s prereqs = .success

def admitted : Option (Bytes × List RawRR × List RawRR) :=
  if p.length < headerSize then none else (sections u p).filter fun m => admits u getter s m.1 m.2.1 m.2.2

def Processed.ofCalls : σ × List StoreCall × Option ε → Processed σ ε
  | (s, calls, some e) => ⟨s, calls, .serverFailure, some (.store e)⟩
  | (s, calls, none) => ⟨s, calls, .success, none⟩

inductive ProcessCase : Option (Bytes × List RawRR × List RawRR) → Processed σ ε → Prop
  | rejected (rcode : RCode) (err : Option (UpdateError ε)) (h : rcode ≠ .success) : ProcessCase none ⟨s, [], rcode, err⟩
  | applied (zone : Bytes) (prereqs updates : List RawRR) :
      ProcessCase (some (zone, prereqs, updates)) (.ofCalls (applyUpdates mo getter ud s updates))

theorem process_case : ProcessCase mo getter ud s (admitted u getter s p) (process u mo getter ud s p) := by
  unfold process admitted sections
  by_cases hlen : p.length < headerSize
  · rw [if_pos hlen, if_pos hlen]
    exact .rejected _ _ (by decide)
  rw [if_neg hlen, if_neg hlen]
  cases parseZoneSection u p (uint16At p 4) with
  | error e => exact .rejected _ _ (by decide)
  | ok zone =>
    dsimp only
    cases parseRecords u p (uint16At p 6).toNat zone.2 with
    | error e => split_ifs <;> exact .rejected _ _ (by decide)
    | ok prereqs =>
      dsimp only
      cases parseRecords u p (uint16At p 8).toNat prereqs.2 with
      | error e => split_ifs <;> exact .rejected _ _ (by decide)
      | ok updates =>
        rw [Option.filter_some]
        dsimp only
        -- The checks in the order in which they are made.
        by_cases hzone : getter s zone.1 = none ∧ zone.1 ≠ [dotByte]
        · rw [if_pos hzone, admits, decide_eq_true hzone]
          exact .rejected _ _ (by decide)
        rw [if_neg hzone, admits, decide_eq_false hzone]
        cases hprereqs : prereqs.1.all fun pr => isInZone u pr.name zone.1 with
        | false => exact .rejected _ _ (by decide)
        | true =>
          cases hupdates : updates.1.all fun up => isInZone u up.name zone.1 with
          | false => exact .rejected _ _ (by decide)
          | true =>
            by_cases hcheck : checkPrerequisites getter s prereqs.1 = .success
            · rw [hcheck]
              exact .applied _ _ _
            · rw [decide_eq_false hcheck, Bool.and_false, if_neg (by decide), if_neg (by decide), if_neg (by decide)]
              split
              · rename_i hsuccess
                exact absurd hsuccess hcheck
              · exact .rejected _ _ hcheck

variable {u getter s p}

theorem process_rejected (h : admitted u getter s p = none) :
    (process u mo getter ud s p).store = s ∧ (process u mo getter ud s p).calls = [] ∧
      (process u mo getter ud s p).rcode ≠ .success := by
  have hcase := process_case u mo getter ud s p
  rw [h] at hcase
  generalize process u mo getter ud s p = out at hcase ⊢
  cases hcase with
  | rejected rcode err hrcode => exact ⟨rfl, rfl, hrcode⟩

theorem process_admitted {zone : Bytes} {prereqs updates : List RawRR}
    (h : admitted u getter s p = some (zone, prereqs, updates)) :
    process u mo getter ud s p = .ofCalls (callAll ud (updateCalls mo getter s updates) s) := by
  have hcase := process_case u mo getter ud s p
  rw [h] at hcase
  generalize process u mo getter ud s p = out at hcase ⊢
  cases hcase with
  | applied => rw [applyUpdates_eq]

theorem process_succeeds (h : (process u mo getter ud s p).rcode = .success) :
    ∃ zone prereqs updates, admitted u getter s p = some (zone, prereqs, updates) ∧
      (callAll ud (updateCalls mo getter s updates) s).2.2 = none ∧
      (process u mo getter ud s p).store = (callAll ud (updateCalls mo getter s updates) s).1 ∧
      (process u mo getter ud s p).calls = updateCalls mo getter s updates := by
  cases hm : admitted u getter s p with
  | none => exact absurd h (process_rejected mo ud hm).2.2
  | some m =>
    obtain ⟨zone, prereqs, updates⟩ := m
    refine ⟨zone, prereqs, updates, rfl, ?_⟩
    rw [process_admitted mo ud hm] at h ⊢
    have hfull := @callAll_full σ ε ud (updateCalls mo getter s updates) s
    generalize callAll ud (updateCalls mo getter s updates) s = r at h hfull ⊢
    obtain ⟨s', calls, _ | e⟩ := r
    · exact ⟨rfl, rfl, hfull rfl⟩
    · cases h

end Admitted

end Kdns.Update
