import Kdns.Store.Failure

namespace Kdns.Storage

open ByteStream BufferedFile Dns Codec Radix Wal Snapshot List

def idealRun (s : Session Bytes) : List Op → Session Bytes × List (Option StoreError)
  | [] => (s, [])
  | op :: ops =>
    let r := logAndApply idealAppend s (effects s.tree op)
    let rs := idealRun r.1 ops
    (rs.1, r.2 :: rs.2)

theorem idealRun_append (s : Session Bytes) (xs ys : List Op) : idealRun s (xs ++ ys) =
      ((idealRun (idealRun s xs).1 ys).1, (idealRun s xs).2 ++ (idealRun (idealRun s xs).1 ys).2) := by
  induction xs generalizing s with
  | nil => rfl
  | cons x xs ih => simp only [cons_append, idealRun, ih]

theorem idealRun_accepts {t : Tree} {ops : List Op} (h : Accepts t ops) (log : Bytes) :
    idealRun ⟨t, log⟩ ops = (⟨mutateAll t ops, log ++ encodeLog (trace t ops)⟩, replicate ops.length none) := by
  induction ops generalizing t log with
  | nil => simp [idealRun, mutateAll, trace, encodeLog]
  | cons op ops ih =>
    obtain ⟨hr, ha⟩ := accepts_cons.mp h
    have hone : logAndApply idealAppend ⟨t, log⟩ (effects t op) =
        (⟨mutate t op, log ++ encodeLog ((effects t op).map Prod.snd)⟩, none) := by
      rw [logAndApply_ideal, hr, accepted_all hr, debris, hr]
      simp [mutate]
    simp only [idealRun, hone, ih ha, trace, encodeLog_append, append_assoc, length_cons,
      replicate_succ]
    rfl

theorem commitBatch_firsts {s : Session Writer} {batch : List Op} (hw : Flushed s.writer) (h0 : batch ≠ [])
    (hf : NoFlushError (commitBatch s batch).2) : ∃ pre op rest x, batch = pre ++ op :: rest ∧ (rest ≠ [] → x ≠ none) ∧
      idealRun ⟨s.tree, s.writer.file.content⟩ (pre ++ [op]) =
        (⟨(commitBatch s batch).1.tree, (commitBatch s batch).1.writer.file.content⟩,
          replicate pre.length none ++ [x]) ∧
      (commitBatch s batch).2 = replicate pre.length none ++ replicate (rest.length + 1) x ∧
      Flushed (commitBatch s batch).1.writer := by
  have hflush := flush_of_results h0 hf
  obtain ⟨hideal, hflushed⟩ := commitLoop_flushed hw hflush
  rw [commitBatch_eq s h0, hflush, Option.map_none]
  rcases accepts_or_rejects s.tree batch with ha | ⟨pre, op, post, x, rfl, ha, hx⟩
  · rw [runBatch_accepts ha] at hideal
    obtain ⟨hs, he⟩ := Prod.mk.inj hideal
    obtain ⟨pre, op, rfl⟩ := (eq_nil_or_concat' batch).resolve_left h0
    refine ⟨pre, op, [], none, rfl, fun h => absurd rfl h, ?_, ?_, hflushed⟩
    · rw [idealRun_accepts ha, hs, length_append, length_singleton, replicate_succ']
    · rw [← he, map_delivered_none, length_append, length_singleton, replicate_succ']
      rfl
  · rw [runBatch_rejects ha hx, Nat.zero_add] at hideal
    obtain ⟨hs, he⟩ := Prod.mk.inj hideal
    refine ⟨pre, op, post, some (.append x.1 .capacityExceeded), rfl, fun _ => by simp, ?_, ?_, hflushed⟩
    · rw [idealRun_append, idealRun_accepts ha, ← hs]
      simp only [idealRun, logAndApply_ideal, hx, Option.map_some]
    · rw [← he, length_append, map_delivered_some, length_cons]

def RejectsLast (s : Session Writer) : List (List Op) → Prop
  | [] => True
  | batch :: batches => (∀ r ∈ (commitBatch s batch).2.dropLast, r = none) ∧ RejectsLast (commitBatch s batch).1 batches

theorem commitAll_ideal {s : Session Writer} {batches : List (List Op)} (hw : Flushed s.writer)
    (hf : NoFlushError (commitAll s batches).2) (hr : RejectsLast s batches) :
    idealRun ⟨s.tree, s.writer.file.content⟩ batches.flatten =
      (⟨(commitAll s batches).1.tree, (commitAll s batches).1.writer.file.content⟩, (commitAll s batches).2) := by
  induction batches generalizing s with
  | nil => rfl
  | cons batch batches ih =>
    rw [commitAll] at hf ⊢
    obtain ⟨hf₁, hf₂⟩ := forall_mem_append.mp hf
    obtain ⟨hlast, hr⟩ := hr
    have hbatch : idealRun ⟨s.tree, s.writer.file.content⟩ batch =
        (⟨(commitBatch s batch).1.tree, (commitBatch s batch).1.writer.file.content⟩, (commitBatch s batch).2) ∧
        Flushed (commitBatch s batch).1.writer := by
      by_cases h0 : batch = []
      · subst h0
        exact ⟨rfl, hw⟩
      obtain ⟨pre, op, rest, x, rfl, hx, hrun, hres, hflushed⟩ := commitBatch_firsts hw h0 hf₁
      have hrest : rest = [] := by
        by_contra hne
        refine hx hne (hlast x ?_)
        obtain ⟨n, hn⟩ := Nat.exists_eq_succ_of_ne_zero (mt length_eq_zero_iff.mp hne)
        simp [hres, hn, replicate_succ']
      subst hrest
      exact ⟨by rw [hrun, hres]; rfl, hflushed⟩
    obtain ⟨hrun, hflushed⟩ := hbatch
    rw [flatten_cons, idealRun_append, hrun, ih hflushed hf₂ hr]

theorem rejectsLast_singletons (s : Session Writer) (ops : List Op) : RejectsLast s (ops.map fun op => [op]) := by
  induction ops generalizing s with
  | nil => trivial
  | cons op ops ih =>
    refine ⟨fun r hr => ?_, ih _⟩
    cases hr

def SameOutcome (r r' : Session Writer × List (Option StoreError)) : Prop :=
  r.2 = r'.2 ∧ r.1.tree = r'.1.tree ∧ r.1.writer.file.content = r'.1.writer.file.content

theorem SameOutcome.of_ideal {r r' : Session Writer × List (Option StoreError)}
    (h : ((⟨r.1.tree, r.1.writer.file.content⟩, r.2) : Session Bytes × List (Option StoreError)) =
      (⟨r'.1.tree, r'.1.writer.file.content⟩, r'.2)) : SameOutcome r r' := by
  obtain ⟨hs, hr⟩ := Prod.mk.inj h
  obtain ⟨ht, hc⟩ := Session.mk.inj hs
  exact ⟨hr, ht, hc⟩

def firstRejected (results : List (Option StoreError)) : ℕ := (results.takeWhile Option.isNone).length

theorem firstRejected_some (m n : ℕ) (e : StoreError) :
    firstRejected (replicate m none ++ replicate (n + 1) (some e)) = m := by
  rw [firstRejected, takeWhile_append_of_pos (by simp), replicate_succ, takeWhile_cons_of_neg (by simp)]
  simp

theorem firstRejected_none (m : ℕ) : firstRejected (replicate m none) = m := by
  rw [firstRejected, takeWhile_eq_self_iff.mpr (by simp), length_replicate]

theorem commitBatch_singles {s : Session Writer} {batch : List Op} (hw : Flushed s.writer)
    (hf : NoFlushError (commitBatch s batch).2)
    (hf' : NoFlushError (commitAll s ((batch.take (firstRejected (commitBatch s batch).2 + 1)).map fun op => [op])).2) :
    SameOutcome ((commitBatch s batch).1, (commitBatch s batch).2.take (firstRejected (commitBatch s batch).2 + 1))
        (commitAll s ((batch.take (firstRejected (commitBatch s batch).2 + 1)).map fun op => [op])) ∧
      ∀ x ∈ (commitBatch s batch).2.drop (firstRejected (commitBatch s batch).2),
        some x = (commitBatch s batch).2[firstRejected (commitBatch s batch).2]? := by
  by_cases h0 : batch = []
  · subst h0
    exact ⟨⟨rfl, rfl, rfl⟩, by simp [commitBatch]⟩
  obtain ⟨pre, op, rest, x, rfl, hx, hrun, hres, -⟩ := commitBatch_firsts hw h0 hf
  have hsingles := commitAll_ideal hw hf' (rejectsLast_singletons s _)
  rw [← flatMap_def, flatMap_singleton'] at hsingles
  generalize commitAll s _ = singles at hsingles ⊢
  rw [hres] at hsingles ⊢
  cases x with
  | none =>
    obtain rfl : rest = [] := not_imp_not.mp hx (by simp)
    have hall : replicate pre.length (none : Option StoreError) ++ replicate 1 none =
        replicate (pre.length + 1) none := replicate_append_replicate
    rw [length_nil, Nat.zero_add, hall, firstRejected_none] at hsingles ⊢
    rw [take_of_length_le (by simp)] at hsingles
    refine ⟨.of_ideal ?_, by simp⟩
    rw [← hsingles, hrun, take_of_length_le (by simp), ← hall]
    rfl
  | some e =>
    rw [firstRejected_some] at hsingles ⊢
    rw [take_length_add_append] at hsingles
    refine ⟨.of_ideal ?_, by simp⟩
    rw [← hsingles]
    exact Eq.trans (by simp [take_append]) hrun.symm

theorem commitAll_partition (s : Session Writer) (hw : Flushed s.writer) :
    (∀ batches batches' : List (List Op), batches.flatten = batches'.flatten →
      NoFlushError (commitAll s batches).2 → NoFlushError (commitAll s batches').2 →
      RejectsLast s batches → RejectsLast s batches' → SameOutcome (commitAll s batches) (commitAll s batches')) ∧
    ∀ batch : List Op,
      let r := commitBatch s batch
      let k := firstRejected r.2
      let singles := commitAll s ((batch.take (k + 1)).map fun op => [op])
      NoFlushError r.2 → NoFlushError singles.2 →
        SameOutcome (r.1, r.2.take (k + 1)) singles ∧ ∀ x ∈ r.2.drop k, some x = r.2[k]? := by
  refine ⟨fun batches batches' hflat hf hf' hr hr' => .of_ideal ?_, fun batch hf hf' => commitBatch_singles hw hf hf'⟩
  rw [← commitAll_ideal hw hf hr, hflat, commitAll_ideal hw hf' hr']

theorem commitAll_partition_two :
    let up : Op := .upsert [0x61] [⟨[[1, 2, 3, 4]], 300, 1, classIN⟩]
    let long : Op := .delete (replicate 256 0x61)
    let s := emptyStore.session
    SameOutcome (commitAll s [[up, long], [up]]) (commitAll s [[up], [long], [up]]) ∧
      SameOutcome ((commitBatch s [up, long, up]).1, (commitBatch s [up, long, up]).2.take 2)
        (commitAll s [[up], [long]]) := by
  refine ⟨(commitAll_partition _ ⟨rfl, rfl⟩).1 _ _ rfl (by decide +kernel) (by decide +kernel) ?_ ?_, ?_⟩
  · exact ⟨by decide +kernel, by decide +kernel, trivial⟩
  · exact ⟨by decide +kernel, by decide +kernel, by decide +kernel, trivial⟩
  · have hk : firstRejected (commitBatch emptyStore.session [.upsert [0x61] [⟨[[1, 2, 3, 4]], 300, 1, classIN⟩],
        .delete (replicate 256 0x61), .upsert [0x61] [⟨[[1, 2, 3, 4]], 300, 1, classIN⟩]]).2 = 1 := by
      decide +kernel
    have h := ((commitAll_partition emptyStore.session ⟨rfl, rfl⟩).2 [.upsert [0x61] [⟨[[1, 2, 3, 4]], 300, 1, classIN⟩],
      .delete (replicate 256 0x61), .upsert [0x61] [⟨[[1, 2, 3, 4]], 300, 1, classIN⟩]]
      (by decide +kernel) (by decide +kernel)).1
    rw [hk] at h
    exact h

/-- The upsert that follows a delete of too long a name fails in its batch and succeeds in one of its own. -/
theorem batch_of_two_fails :
    let up : Op := .upsert [0x61] [⟨[[1, 2, 3, 4]], 300, 1, classIN⟩]
    let long : Op := .delete (replicate 256 0x61)
    let one := commitAll emptyStore.session [[long, up]]
    let two := commitAll emptyStore.session [[long], [up]]
    let refused : Option StoreError := some (.append .appendDelete .capacityExceeded)
    one.2 = [refused, refused] ∧ two.2 = [refused, none] ∧
      one.1.tree.get [0x61] = none ∧ two.1.tree.get [0x61] = some [⟨[[1, 2, 3, 4]], 300, 1, classIN⟩] ∧
      replay one.1.writer.file.content .eof = ([], none) ∧ replay two.1.writer.file.content .eof = ([up], none) := by
  decide +kernel

end Kdns.Storage
