import Kdns.Lib.Guarded
import Kdns.Store.Submit
import Mathlib.Logic.Function.Iterate

namespace Kdns.Storage

open ByteStream Dns Radix Prefixes Wal List

def raises (t : Tree) (op : Op) : Option (List Bytes) := (zoneBump t op.domain op.records).map fun b => labels b.domain

def bumpStored : Option RRSets → Option RRSets := Option.map fun rs => (bumpSOA rs).getD rs

theorem bumpSOA_ne_nil {rs rs' : RRSets} (h : bumpSOA rs = some rs') : rs' ≠ [] := by
  cases rs with
  | nil => cases h
  | cons s rest =>
    rw [bumpSOA] at h
    split at h
    · cases h
      exact cons_ne_nil _ _
    · obtain ⟨rest', -, rfl⟩ := Option.map_eq_some_iff.mp h
      exact cons_ne_nil _ _

variable {t : Tree} {done : List Op} {op : Op} {records : RRSets} {z : List Bytes}

theorem valid_mutate (ht : t.Valid) (op : Op) : (mutate t op).Valid := (applyOps_spec ht _).1

theorem mutate_apply (ht : t.Valid) (op : Op) (p : List Bytes) : (mutate t op).contents p =
      if p = labels op.domain then (writeOf (bumpOp op)).2
      else if raises t op = some p then bumpStored (t.contents p) else t.contents p := by
  rw [mutate_contents ht, Overwrite.put, writeOf_domain, bumpOp_domain, Function.update_apply]
  split_ifs with hp hr
  · rfl
  · obtain ⟨b, hb, hlabels⟩ := Option.map_eq_some_iff.mp hr
    obtain ⟨name, updated, rfl, -, -, hbump⟩ := zoneBump_some ht hb
    have hname : labels name = p := hlabels
    rw [hname, recordsAt] at hbump
    rw [hb, Option.toList_some, map_singleton, writeOf, Tree.upsertWrite, if_neg (bumpSOA_ne_nil hbump), hname]
    have hset : Overwrite.replay t.contents [(p, some updated)] p = some updated := Function.update_self p _ _
    rw [hset]
    cases hstored : t.contents p with
    | none =>
      rw [hstored] at hbump
      cases hbump
    | some rs =>
      rw [hstored] at hbump
      rw [bumpStored, Option.map_some]
      change bumpSOA rs = some updated at hbump
      rw [hbump]
      rfl
  · apply Overwrite.replay_untouched
    intro hmem
    apply hr
    cases hb : zoneBump t op.domain op.records with
    | none =>
      rw [hb] at hmem
      cases hmem
    | some b =>
      rw [hb, Option.toList_some, map_singleton, map_singleton, mem_singleton, writeOf_domain] at hmem
      rw [raises, hb, Option.map_some, hmem]

section Order

variable (t₀ : Tree)

/-- A mutation that raises the serial of the zone it would raise in the tree before the run, where no mutation of the
run is about that zone. -/
def Steady (ops : List Op) (t : Tree) (op : Op) : Prop :=
  raises t op = raises t₀ op ∧ ∀ op' ∈ ops, raises t₀ op ≠ some (labels op'.domain)

instance steadyDecidable (ops : List Op) (t : Tree) (op : Op) : Decidable (Steady t₀ ops t op) :=
  inferInstanceAs (Decidable (_ ∧ _))

def commit (t : Tree) (op : Op) : Option Tree := some (mutate t op)

def expected (done : List Op) (p : List Bytes) : Option RRSets :=
  match done.find? fun op => labels op.domain = p with
  | some op => (writeOf (bumpOp op)).2
  | none => bumpStored^[done.countP fun op => raises t₀ op = some p] (t₀.contents p)

theorem expected_step (ht : t.Valid) {ops : List Op} (hdone : ∀ op ∈ done, op ∈ ops)
    (hfresh : ∀ op' ∈ done, labels op'.domain ≠ labels op.domain) (hsteady : Steady t₀ ops t op)
    (h : t.contents = expected t₀ done) : (mutate t op).contents = expected t₀ (done ++ [op]) := by
  obtain ⟨hsame, hapart⟩ := hsteady
  funext p
  rw [mutate_apply ht, hsame, h, expected, expected, find?_append, countP_append]
  by_cases hp : p = labels op.domain
  · -- The name itself: nothing has been done to it before.
    have hnone : (done.find? fun op' => labels op'.domain = p) = none := by grind
    rw [if_pos hp, hnone, Option.none_or, find?_cons_of_pos (by simpa using hp.symm)]
  · rw [if_neg hp, find?_cons_of_neg (by simpa using Ne.symm hp), find?_nil, Option.or_none]
    by_cases hr : raises t₀ op = some p
    · -- The zone raised: no mutation is about it.
      have hnone : (done.find? fun op' => labels op'.domain = p) = none := by grind
      rw [if_pos hr, hnone, countP_cons_of_pos (by simpa using hr), countP_nil, Function.iterate_succ_apply']
    · grind

theorem mutateAll_expected (ht : t₀.Valid) {ops : List Op} (hnodup : (ops.map fun op => labels op.domain).Nodup)
    (hmeets : Guarded.Meets commit (Steady t₀ ops) t₀ ops) (i : ℕ) :
    (mutateAll t₀ (ops.take i)).contents = expected t₀ (ops.take i) := by
  have hrun : ∀ (rest done : List Op) (t : Tree), done ++ rest = ops → t.Valid → t.contents = expected t₀ done →
      Guarded.Meets commit (Steady t₀ ops) t rest → ∀ i,
      (mutateAll t (rest.take i)).contents = expected t₀ (done ++ rest.take i) := by
    intro rest
    induction rest with
    | nil =>
      intro done t _ _ h _ i
      rw [take_nil, append_nil]
      exact h
    | cons op rest ih =>
      intro done t hops hv h hm i
      cases i with
      | zero =>
        rw [take_zero, append_nil]
        exact h
      | succ i =>
        have hdone : ∀ op' ∈ done, op' ∈ ops := fun op' hop' => hops ▸ mem_append_left _ hop'
        have hfresh : ∀ op' ∈ done, labels op'.domain ≠ labels op.domain := by grind
        obtain ⟨hsteady, hm⟩ := hm
        have hstep := expected_step t₀ hv hdone hfresh hsteady h
        have hrest := ih (done ++ [op]) (mutate t op) (by rw [← hops, append_assoc]; rfl) (valid_mutate hv op) hstep hm i
        rw [append_assoc] at hrest
        exact hrest
  refine hrun ops [] t₀ rfl ht ?_ hmeets i
  rfl

theorem expected_perm {ops ops' : List Op} (hperm : ops.Perm ops') (hnodup : (ops.map fun op => labels op.domain).Nodup)
    (p : List Bytes) : expected t₀ ops p = expected t₀ ops' p := by
  have hfind : (ops.find? fun op => labels op.domain = p) = ops'.find? fun op => labels op.domain = p := by
    cases h : ops.find? fun op => labels op.domain = p with
    | none => grind
    | some op =>
      have hop := mem_of_find?_eq_some h
      have hlabels : labels op.domain = p := by simpa using find?_some h
      cases h' : ops'.find? fun op => labels op.domain = p with
      | none => grind
      | some op' =>
        have hop' := hperm.mem_iff.mpr (mem_of_find?_eq_some h')
        have hlabels' : labels op'.domain = p := by simpa using find?_some h'
        rw [inj_on_of_nodup_map hnodup hop hop' (hlabels.trans hlabels'.symm)]
  rw [expected, expected, hfind, hperm.countP_eq]

end Order

section Serials

def setSerial (set : RRSet) : Option ℕ := set.rdata.head?.bind fun r => (serialOffset r).map (serialAt r)

def serialOf (records : RRSets) : Option ℕ := (findType records typeSOA).bind setSerial

def storedSerial (M : List Bytes → Option RRSets) (z : List Bytes) : Option ℕ := (M z).bind serialOf

theorem findType_append_cons {before after : RRSets} {set : RRSet} (hbefore : ∀ s ∈ before, s.type ≠ typeSOA)
    (htype : set.type = typeSOA) : findType (before ++ set :: after) typeSOA = some set := by
  rw [findType, find?_append, find?_eq_none.mpr, Option.none_or, find?_cons_of_pos (by simpa using htype)]
  intro s hs
  simpa using hbefore s hs

theorem RaisedSOA.serialOf_eq {records' : RRSets} (h : RaisedSOA records records') :
    ∃ n, serialOf records = some n ∧ serialOf records' = some ((n + 1) % 2 ^ 32) := by
  cases h with
  | intro before after set r r' rest hbefore htype hr =>
    obtain ⟨offset, hoffset, hoffset', -, -, hserial⟩ := hr
    refine ⟨serialAt r offset, ?_, ?_⟩
    · rw [serialOf, findType_append_cons hbefore (by exact htype), Option.bind_some, setSerial, head?_cons,
        Option.bind_some, hoffset, Option.map_some]
    · rw [serialOf, findType_append_cons hbefore (by exact htype), Option.bind_some, setSerial, head?_cons,
        Option.bind_some, hoffset', Option.map_some, hserial]

theorem wellFormedSOA_iff : WellFormedSOA records ↔ ∃ n, serialOf records = some n := by
  constructor
  · intro h
    obtain ⟨records', -, hraised⟩ := bumpSOA_raised h
    obtain ⟨n, hn, -⟩ := hraised.serialOf_eq
    exact ⟨n, hn⟩
  · rintro ⟨n, hn⟩
    obtain ⟨set, hset, hn⟩ := Option.bind_eq_some_iff.mp hn
    obtain ⟨r, hr, hn⟩ := Option.bind_eq_some_iff.mp hn
    obtain ⟨rest, hrest⟩ := head?_eq_some_iff.mp hr
    obtain ⟨offset, hoffset, -⟩ := Option.map_eq_some_iff.mp hn
    exact ⟨set, r, rest, hset, hrest, by rw [hoffset]; rfl⟩

theorem bumpSOA_serial {n : ℕ} (h : serialOf records = some n) :
    ∃ records', bumpSOA records = some records' ∧ serialOf records' = some ((n + 1) % 2 ^ 32) := by
  obtain ⟨records', hbump, hraised⟩ := bumpSOA_raised (wellFormedSOA_iff.mpr ⟨n, h⟩)
  obtain ⟨m, hm, hm'⟩ := hraised.serialOf_eq
  rw [h] at hm
  cases hm
  exact ⟨records', hbump, hm'⟩

theorem iterate_bumpStored_serial {m : Option RRSets} {n : ℕ} (h : m.bind serialOf = some n) (hn : n < 2 ^ 32) (k : ℕ) :
    (bumpStored^[k] m).bind serialOf = some ((n + k) % 2 ^ 32) := by
  induction k with
  | zero => rw [Function.iterate_zero_apply, Nat.add_zero, Nat.mod_eq_of_lt hn, h]
  | succ k ih =>
    obtain ⟨rs, hrs, hserial⟩ := Option.bind_eq_some_iff.mp ih
    obtain ⟨rs', hbump, hserial'⟩ := bumpSOA_serial hserial
    rw [Function.iterate_succ_apply', hrs, bumpStored, Option.map_some, hbump, Option.getD_some, Option.bind_some, hserial',
      Nat.mod_add_mod, Nat.add_assoc]

variable {t₀ : Tree} {ops : List Op}

def lifts (t₀ : Tree) (done : List Op) (z : List Bytes) : ℕ :=
  if done.any fun op => labels op.domain = z then 1 else done.countP fun op => raises t₀ op = some z

theorem meets_apart (t : Tree) {rest : List Op} (h : Guarded.Meets commit (Steady t₀ ops) t rest) :
    ∀ op ∈ rest, ∀ op' ∈ ops, raises t₀ op ≠ some (labels op'.domain) := by
  induction rest generalizing t with
  | nil => simp
  | cons op rest ih => exact forall_mem_cons.mpr ⟨h.1.2, ih _ h.2⟩

theorem lifts_mono (hapart : ∀ op ∈ ops, ∀ op' ∈ ops, raises t₀ op ≠ some (labels op'.domain)) {done' : List Op}
    (hsub : done.Sublist done') (hdone : ∀ op ∈ done', op ∈ ops) (z : List Bytes) : lifts t₀ done z ≤ lifts t₀ done' z := by
  unfold lifts
  split_ifs with h h' h'
  · exact le_rfl
  · obtain ⟨op, hop, hz⟩ := any_eq_true.mp h
    exact absurd (any_eq_true.mpr ⟨op, hsub.subset hop, hz⟩) h'
  · -- Mutations about the zone exclude mutations that raise it.
    obtain ⟨op', hop', hz⟩ := any_eq_true.mp h'
    have hzero : (done.countP fun op => raises t₀ op = some z) = 0 := by grind
    rw [hzero]
    exact Nat.zero_le 1
  · exact hsub.countP_le

theorem lifts_le (t₀ : Tree) (done : List Op) (z : List Bytes) : lifts t₀ done z ≤ done.length := by
  unfold lifts
  split_ifs with h
  · obtain ⟨op, hop, -⟩ := any_eq_true.mp h
    exact length_pos_of_mem hop
  · exact countP_le_length

theorem storedSerial_lt {M : List Bytes → Option RRSets} {n : ℕ} (h : storedSerial M z = some n) : n < 2 ^ 32 := by
  obtain ⟨rs, -, h⟩ := Option.bind_eq_some_iff.mp h
  obtain ⟨set, -, h⟩ := Option.bind_eq_some_iff.mp h
  obtain ⟨r, -, h⟩ := Option.bind_eq_some_iff.mp h
  obtain ⟨offset, -, rfl⟩ := Option.map_eq_some_iff.mp h
  exact serialAt_lt r offset

theorem storedSerial_eq (M : List Bytes → Option RRSets) (z : List Bytes) :
    storedSerial M z = serialOf (recordsAt M z) := by
  rw [storedSerial, recordsAt]
  cases M z with
  | none => rfl
  | some rs => rfl

theorem written_serial {n : ℕ} (h : serialOf op.records = some n) :
    (writeOf (bumpOp op)).2.bind serialOf = some ((n + 1) % 2 ^ 32) := by
  cases op with
  | upsert domain records =>
    obtain ⟨records', hbump, hserial⟩ := bumpSOA_serial h
    rw [Op.records] at *
    rw [bumpOp, hbump, Option.getD_some, writeOf, Tree.upsertWrite, if_neg (bumpSOA_ne_nil hbump)]
    exact hserial
  | delete domain => cases h

theorem written_serial_none (h : findType op.records typeSOA = none) :
    (writeOf (bumpOp op)).2.bind serialOf = none := by
  cases op with
  | upsert domain records =>
    rw [Op.records] at h
    rw [bumpOp, bumpSOA_none (findType_none_iff.mp h), writeOf, Tree.upsertWrite]
    dsimp only [Option.getD_none]
    split_ifs
    · rfl
    · rw [Option.bind_some, serialOf, h]
      rfl
  | delete domain => rfl

theorem expected_serial (hwf : ∀ z, HoldsSOA t₀.contents z → WellFormedSOA (recordsAt t₀.contents z)) (ht : t₀.Valid)
    (hkeep : ∀ op ∈ done, labels op.domain = z → findType op.records typeSOA = findType (recordsAt t₀.contents z) typeSOA) :
    storedSerial (expected t₀ done) z =
      (storedSerial t₀.contents z).map fun n => (n + lifts t₀ done z) % 2 ^ 32 := by
  rw [storedSerial, expected, lifts]
  cases hfind : done.find? fun op => labels op.domain = z with
  | some op =>
    have hop := mem_of_find?_eq_some hfind
    have hz : labels op.domain = z := by simpa using find?_some hfind
    rw [if_pos (any_eq_true.mpr ⟨op, hop, decide_eq_true hz⟩), storedSerial_eq]
    cases hserial : serialOf (recordsAt t₀.contents z) with
    | some n =>
      apply written_serial
      rwa [serialOf, hkeep op hop hz]
    | none =>
      apply written_serial_none
      rw [hkeep op hop hz]
      by_contra hsoa
      obtain ⟨n, hn⟩ := wellFormedSOA_iff.mp (hwf z hsoa)
      rw [hserial] at hn
      cases hn
  | none =>
    rw [if_neg]
    · dsimp only
      cases hserial : storedSerial t₀.contents z with
      | some n => exact iterate_bumpStored_serial hserial (storedSerial_lt hserial) _
      | none =>
        have hzero : (done.countP fun op => raises t₀ op = some z) = 0 := by
          apply countP_eq_zero.mpr
          intro op hop heq
          obtain ⟨b, hb, hlabels⟩ := Option.map_eq_some_iff.mp (of_decide_eq_true heq)
          obtain ⟨name, updated, rfl, hlongest, -, -⟩ := zoneBump_some ht hb
          obtain ⟨n, hn⟩ := wellFormedSOA_iff.mp (hwf _ hlongest.holds)
          have hname : labels name = z := hlabels
          rw [hname, ← storedSerial_eq, hserial] at hn
          cases hn
        rw [hzero]
        exact hserial
    · intro hany
      obtain ⟨op, hop, hz⟩ := any_eq_true.mp hany
      rw [find?_eq_none] at hfind
      exact hfind op hop hz

theorem serial_monotone (ht : t₀.Valid) (hwf : ∀ z, HoldsSOA t₀.contents z → WellFormedSOA (recordsAt t₀.contents z))
    (hnodup : (ops.map fun op => labels op.domain).Nodup) (hmeets : Guarded.Meets commit (Steady t₀ ops) t₀ ops)
    (hkeep : ∀ op ∈ ops, labels op.domain = z → findType op.records typeSOA = findType (recordsAt t₀.contents z) typeSOA)
    {n : ℕ} (hn : storedSerial t₀.contents z = some n) (hwrap : n + ops.length < 2 ^ 32) {i j : ℕ} (hij : i ≤ j) :
    ∃ a b, storedSerial (mutateAll t₀ (ops.take i)).contents z = some a ∧
      storedSerial (mutateAll t₀ (ops.take j)).contents z = some b ∧ a ≤ b := by
  have hserial : ∀ i, storedSerial (mutateAll t₀ (ops.take i)).contents z = some (n + lifts t₀ (ops.take i) z) := by
    intro i
    have hle := (lifts_le t₀ (ops.take i) z).trans (length_take_le' i ops)
    rw [mutateAll_expected t₀ ht hnodup hmeets, expected_serial hwf ht fun op hop => hkeep op (take_subset i ops hop), hn,
      Option.map_some, Nat.mod_eq_of_lt (by omega)]
  refine ⟨_, _, hserial i, hserial j, Nat.add_le_add_left ?_ n⟩
  apply lifts_mono (meets_apart t₀ hmeets) _ (fun op hop => take_subset j ops hop)
  exact take_sublist_take_left hij

end Serials

end Kdns.Storage
