import Kdns.Store.Recovery

namespace Kdns.Storage

open ByteStream BufferedFile Dns Codec Radix Wal Snapshot List

structure Round where
  faults : List (Option ℕ)
  batches : List (List Op)
  torn : Bytes

def Round.crash (r : Round) (s : Store) : Disk :=
  ⟨s.snap, some ((commitAll s.session r.batches).1.writer.file.content ++ r.torn), none⟩

structure Round.Acked (r : Round) (s : Store) : Prop where
  wellFormed : ∀ batch ∈ r.batches, ∀ op ∈ batch, WellFormed op
  acked : ∀ res ∈ (commitAll s.session r.batches).2, res = none
  torn : Torn r.torn

inductive Rounds (fl : Flate) (opts : Options) (C : Disk → Round → Prop) (disk₀ : Disk) : List Op → Disk → Prop
  | start : Rounds fl opts C disk₀ [] disk₀
  | next {acked : List Op} {disk : Disk} (h : Rounds fl opts C disk₀ acked disk) (r : Round) (s : Store)
      (hopen : openStore fl opts r.faults disk = .ok s) (hr : r.Acked s) (hC : C disk r) :
      Rounds fl opts C disk₀ (acked ++ r.batches.flatten) (r.crash s)

def Careful (disk : Disk) (r : Round) : Prop := tailError disk ≠ none → r.batches.flatten = [] ∧ r.torn = []

section Round

variable {fl : Flate} {s : Store} {snap : Bytes} {base : Tree} {ops : List Op} {e : Option WalError}

theorem Recoverable.commitAll (h : Recoverable fl s snap base ops none) {batches : List (List Op)}
    (hwf : ∀ batch ∈ batches, ∀ op ∈ batch, WellFormed op) (hok : ∀ res ∈ (commitAll s.session batches).2, res = none) :
    (∃ ops', Recoverable fl ⟨(commitAll s.session batches).1, s.snap⟩ snap base ops' none) ∧
      (Storage.commitAll s.session batches).1.tree = mutateAll s.session.tree batches.flatten := by
  induction batches generalizing s ops with
  | nil => exact ⟨⟨ops, h⟩, rfl⟩
  | cons batch batches ih =>
    obtain ⟨hwf₁, hwf₂⟩ := forall_mem_cons.mp hwf
    rw [Storage.commitAll, forall_mem_append] at hok
    obtain ⟨h', htree⟩ := h.commit hwf₁ hok.1
    obtain ⟨hrec, htree'⟩ := ih h' hwf₂ hok.2
    refine ⟨hrec, ?_⟩
    rw [Storage.commitAll, flatten_cons, mutateAll_append, ← htree]
    exact htree'

theorem commitAll_nil (s : Session Writer) {batches : List (List Op)} (h : batches.flatten = []) :
    (commitAll s batches).1 = s := by
  induction batches with
  | nil => rfl
  | cons batch batches ih =>
    obtain ⟨rfl, hrest⟩ := append_eq_nil_iff.mp (flatten_cons ▸ h)
    exact ih hrest

theorem Recoverable.torn (h : Recoverable fl s snap base ops none) {q : Bytes} (hq : Torn q) (opts : Options)
    (faults : List (Option ℕ)) :
    ∃ s', openStore fl opts faults ⟨s.snap, some (s.session.writer.file.content ++ q), none⟩ = .ok s' ∧
      s'.session.tree = s.session.tree := by
  have hr : replay (s.session.writer.file.content ++ q) .eof = (ops, if q = [] then none else some .truncated) := by
    have hread := replay_append_torn h.replay_eq (forall_mem_nil _) hq
    rwa [append_nil] at hread
  have he : (if q = [] then none else some WalError.truncated) = none ∨
      (if q = [] then none else some WalError.truncated) = some .truncated := by
    split_ifs <;> simp
  rw [h.snap_eq]
  exact ⟨_, openStore_some fl opts faults h.load_eq (replayWALIntoTree_ok hr he base), h.tree_eq⟩

theorem Round.open_crash (h : Recoverable fl s snap base ops e) {r : Round} (hr : r.Acked s)
    (hC : e ≠ none → r.batches.flatten = [] ∧ r.torn = []) (opts : Options) (faults : List (Option ℕ)) :
    ∃ s', openStore fl opts faults (r.crash s) = .ok s' ∧
      s'.session.tree = mutateAll s.session.tree r.batches.flatten := by
  by_cases he : e = none
  · subst he
    obtain ⟨⟨ops', h'⟩, htree⟩ := h.commitAll hr.wellFormed hr.acked
    obtain ⟨s', hs', ht⟩ := h'.torn hr.torn opts faults
    exact ⟨s', hs', ht.trans htree⟩
  · obtain ⟨hb, ht⟩ := hC he
    rw [Round.crash, commitAll_nil s.session hb, ht, hb, append_nil]
    exact ⟨_, h.open opts faults, rfl⟩

end Round

theorem careful_rounds_durable (fl : Flate) (opts : Options) (faults₀ : List (Option ℕ)) (disk₀ disk : Disk)
    (s₀ : Store) (acked : List Op) (hrep : opts.isReplica = false) (hopen : openStore fl opts faults₀ disk₀ = .ok s₀)
    (h : Rounds fl opts Careful disk₀ acked disk) (faults : List (Option ℕ)) :
    ∃ s, openStore fl opts faults disk = .ok s ∧ s.session.tree = mutateAll s₀.session.tree acked := by
  induction h generalizing faults with
  | start => exact openStore_faults hopen faults
  | next h r s hs hr hC ih =>
    obtain ⟨s', hs', ht⟩ := ih r.faults
    obtain rfl : s = s' := Except.ok.inj (hs.symm.trans hs')
    obtain ⟨_, _, _, hrec⟩ := recoverable_of_open hrep hs
    obtain ⟨s'', hs'', ht'⟩ := Round.open_crash hrec hr hC opts faults
    exact ⟨s'', hs'', by rw [ht', ht, mutateAll_append]⟩

theorem torn_opcode : Torn [opDelete] := ⟨.delete [0x61], ⟨by decide, by decide⟩, by decide +kernel, by decide +kernel⟩

/-- The third round finds a torn frame and appends nothing. -/
theorem careful_rounds_durable_torn :
    let a := Op.upsert [0x61] [⟨[[1, 2, 3, 4]], 300, 1, classIN⟩]
    let b := Op.upsert [0x62] [⟨[[1, 2, 3, 4]], 300, 1, classIN⟩]
    let r₁ : Round := ⟨[], [[a]], []⟩
    let r₂ : Round := ⟨[], [[b]], [opDelete]⟩
    let r₃ : Round := ⟨[], [], []⟩
    ∃ s₁ s₂ s₃, openStore .none ⟨none, false⟩ [] (r₁.crash emptyStore) = .ok s₁ ∧
      tailError (r₂.crash s₁) = some .truncated ∧ openStore .none ⟨none, false⟩ [] (r₂.crash s₁) = .ok s₂ ∧
      openStore .none ⟨none, false⟩ [] (r₃.crash s₂) = .ok s₃ ∧ s₃.session.tree = mutateAll emptyStore.session.tree [a, b] := by
  intro a b r₁ r₂ r₃
  have hdurable := fun disk acked =>
    careful_rounds_durable .none ⟨none, false⟩ [] ⟨none, none, none⟩ disk emptyStore acked rfl openStore_empty
  have hfirst := Rounds.next (C := Careful) .start r₁ emptyStore openStore_empty
    ⟨by decide, by decide +kernel, torn_nil⟩ fun h => absurd rfl h
  obtain ⟨s₁, h₁, hacked, htail⟩ : ∃ s, openStore .none ⟨none, false⟩ [] (r₁.crash emptyStore) = .ok s ∧
      (∀ res ∈ (commitAll s.session r₂.batches).2, res = none) ∧ tailError (r₂.crash s) = some .truncated :=
    Fallible.exists_ok (by decide +kernel)
  have hsecond := hfirst.next r₂ s₁ h₁ ⟨by decide, hacked, torn_opcode⟩ fun h => absurd (by decide +kernel) h
  obtain ⟨s₂, h₂, -⟩ := hdurable _ _ hsecond []
  have hthird := hsecond.next r₃ s₂ h₂ ⟨by decide, by simp [r₃, commitAll], torn_nil⟩ fun _ => ⟨rfl, rfl⟩
  obtain ⟨s₃, h₃, htree⟩ := hdurable _ _ hthird []
  exact ⟨s₁, s₂, s₃, h₁, htail, h₂, h₃, htree⟩

/-- A frame logged behind a torn one: both rounds are acknowledged, and the store does not open again. -/
theorem torn_tail_blocks_open :
    let ra : RRSets := [⟨[[1, 2, 3, 4]], 300, 1, classIN⟩]
    let r₁ : Round := ⟨[], [[.upsert [0x61] ra]], [opDelete]⟩
    let r₂ : Round := ⟨[], [[.upsert [0x62] ra]], []⟩
    let disk₁ := r₁.crash emptyStore
    (commitAll emptyStore.session r₁.batches).2 = [none] ∧
      (openStore .none ⟨none, false⟩ [] disk₁).toOption.map (fun s => (commitAll s.session r₂.batches).2) =
        some [none] ∧
      (openStore .none ⟨none, false⟩ [] disk₁).toOption.map (fun s =>
        (openStore .none ⟨none, false⟩ [] (r₂.crash s)).isOk) = some false := by
  decide +kernel

end Kdns.Storage
