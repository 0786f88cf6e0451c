import Kdns.Store.Disk
import Kdns.Store.Queue

open List

namespace Kdns.Storage

open BufferedFile Dns Radix Wal Guarded

theorem append_log (w : Writer) (op : Op) : w.log <+: (append w op).1.log := by
  have hc := append_cases w op
  generalize (append w op).1 = w' at hc ⊢
  generalize (append w op).2 = r at hc
  cases hc with
  | refused => exact prefix_rfl
  | stray _ _ _ hlog => exact ⟨_, hlog.symm⟩
  | logged _ _ hlog => exact ⟨_, hlog.symm⟩
  | broken _ _ _ _ _ _ hlog => exact ⟨_, hlog.symm⟩

theorem logAndApply_log (s : Session Writer) (xs : List (Stage × Op)) :
    s.writer.log <+: (logAndApply append s xs).1.writer.log := by
  induction xs generalizing s with
  | nil => exact prefix_rfl
  | cons x xs ih =>
    obtain ⟨stage, op⟩ := x
    have hop := append_log s.writer op
    rw [logAndApply]
    rcases happ : append s.writer op with ⟨w, _ | e⟩
    · rw [happ] at hop
      exact hop.trans (ih ⟨applyOp s.tree op, w⟩)
    · rw [happ] at hop
      exact hop

theorem commitLoop_log (s : Session Writer) (ops : List Op) (i : ℕ) :
    s.writer.log <+: (commitLoop s ops i).1.writer.log := by
  induction ops generalizing s i with
  | nil => exact prefix_rfl
  | cons op ops ih =>
    have hop := logAndApply_log s (effects s.tree op)
    rw [commitLoop, applyOperation_eq]
    rcases happ : logAndApply append s (effects s.tree op) with ⟨s', _ | e⟩
    · rw [happ] at hop
      exact hop.trans (ih _ _)
    · rw [happ] at hop
      exact hop

theorem commitLoop_take {s : Session Writer} {ops : List Op} {i j : ℕ}
    (h : ∀ k e, (commitLoop s ops i).2 = some (k, e) → i + j ≤ k) : (commitLoop s (ops.take j) i).2 = none ∧
      (commitLoop s (ops.take j) i).1.writer.log <+: (commitLoop s ops i).1.writer.log := by
  induction ops generalizing s i j with
  | nil =>
    rw [take_nil]
    exact ⟨rfl, prefix_rfl⟩
  | cons op ops ih =>
    cases j with
    | zero => exact ⟨rfl, commitLoop_log s (op :: ops) i⟩
    | succ j =>
      rw [take_succ_cons, commitLoop, commitLoop]
      rw [commitLoop] at h
      rcases happ : applyOperation s op with ⟨s', _ | e⟩
      · rw [happ] at h
        apply ih
        intro k e hk
        have hle := h k e hk
        omega
      · rw [happ] at h
        have hle := h i e rfl
        omega

structure Durable (s : Session Writer) (batch : List Op) (i : ℕ) : Prop where
  applied : (commitLoop s (batch.take (i + 1)) 0).2 = none
  flushed : (commitLoop s (batch.take (i + 1)) 0).1.writer.log <+: (commitBatch s batch).1.writer.file.content

theorem delivered_none {flushErr : Option StoreError} {walErr : Option (ℕ × StoreError)} {i : ℕ}
    (h : delivered flushErr walErr i = none) : flushErr = none ∧ ∀ k e, walErr = some (k, e) → i < k := by
  rcases flushErr with _ | e
  · refine ⟨rfl, ?_⟩
    rintro k e rfl
    rw [delivered] at h
    split_ifs at h with hk
    omega
  · cases h

theorem commitBatch_none {s : Session Writer} {batch : List Op} {i : ℕ} (h : (commitBatch s batch).2[i]? = some none) :
    Durable s batch i := by
  have hne : batch ≠ [] := by
    rintro rfl
    cases h
  rw [commitBatch, if_neg hne] at h
  rw [getElem?_map] at h
  obtain ⟨j, hj, hdelivered⟩ := Option.map_eq_some_iff.mp h
  obtain rfl : j = i := by grind
  obtain ⟨hflush, hwal⟩ := delivered_none hdelivered
  obtain ⟨-, hcontent, -⟩ := flush_none (Option.map_eq_none_iff.mp hflush)
  have hfirst : ∀ k e, (commitLoop s batch 0).2 = some (k, e) → 0 + (j + 1) ≤ k := by
    intro k e hk
    have hlt := hwal k e hk
    omega
  obtain ⟨happlied, hlog⟩ := commitLoop_take hfirst
  refine ⟨happlied, ?_⟩
  rw [commitBatch, if_neg hne]
  rw [hcontent]
  exact hlog

theorem zip_commitAll {ops : ℕ → Op} {s : Session Writer} {batches : List (List ℕ)} {c : ℕ} {r : Option StoreError}
    (h : (c, r) ∈ batches.flatten.zip (commitAll s (batches.map (map ops))).2) :
    ∃ pre batch post, batches = pre ++ batch :: post ∧
      (c, r) ∈ batch.zip (commitBatch (commitAll s (pre.map (map ops))).1 (batch.map ops)).2 := by
  induction batches generalizing s with
  | nil => cases h
  | cons batch batches ih =>
    have hlength : batch.length = (commitBatch s (batch.map ops)).2.length := by rw [commitBatch_length, length_map]
    rw [flatten_cons, map_cons, commitAll, zip_append hlength] at h
    obtain h | h := mem_append.mp h
    · exact ⟨[], batch, batches, rfl, h⟩
    · obtain ⟨pre, batch', post, rfl, hmem⟩ := ih h
      exact ⟨batch :: pre, batch', post, rfl, hmem⟩

namespace Mutations

variable {ops : ℕ → Op} {s₀ : Session Writer} {m m' : Mutations} {a : QueueAction} {c : ℕ}

theorem entered_step (hact : act ops m a = some m') (hc : c ∈ m.entered) : c ∈ m'.entered := by
  cases act_step hact with
  | sent => exact mem_append_left _ hc
  | _ => exact hc

theorem stranded_step (h : m.Sound ops s₀) (hact : act ops m a = some m') (hc : c ∈ m.entered) :
    m'.Stranded c ↔ m.Stranded c := by
  have hno : m.worker.finished = false → ¬m.Stranded c := by
    rintro hrun ⟨-, hfinished⟩
    rw [hrun] at hfinished
    cases hfinished
  cases act_step hact with
  | @sent c' hc' =>
    have hne : c ≠ c' := by
      rintro rfl
      exact h.outside c (.inr (.inl hc')) hc
    simp [Stranded, setCall, hne]
  | took _ hw =>
    obtain ⟨hrun, hrun'⟩ := (Worker.take_taken hw).running
    refine iff_of_false ?_ (hno hrun)
    rintro ⟨-, hfinished⟩
    rw [hrun'] at hfinished
    cases hfinished
  | moved hw _ =>
    have hmoved := h.moved hw
    refine iff_of_false ?_ (hno hmoved.running)
    rintro ⟨hmem, hfinished⟩
    rw [setWorker, hmoved.drained hfinished] at hmem
    cases hmem
  | @committed batch resume hw =>
    rw [Stranded, Stranded, hw]
    cases resume <;> rfl
  | @delivered _ _ _ resume hw =>
    rw [Stranded, Stranded, hw]
    cases resume <;> rfl
  | @resumed resume hw =>
    rw [Stranded, Stranded, hw]
    cases resume <;> rfl
  | _ => exact Iff.rfl

section

variable (hact : act ops m a = some m')
include hact

theorem returned_step {e : Option SubmitError} (hc : m.calls c = .returned e) :
    m'.calls c = .returned e := by
  have hset : ∀ c' x, m.calls c' = .idle ∨ m.calls c' = .enqueueing ∨ m.calls c' = .waiting →
      (m.setCall c' x).calls c = .returned e := by
    intro c' x hc'
    have hne : c ≠ c' := by
      rintro rfl
      rw [hc] at hc'
      simp at hc'
    rw [setCall_of_ne m x hne]
    exact hc
  cases act_step hact with
  | called hc' => exact hset _ _ (.inl hc')
  | sent hc' => exact hset _ _ (.inr (.inl hc'))
  | refused hc' _ _ => exact hset _ _ (.inr (.inl hc'))
  | gaveUp hc' => exact hset _ _ (.inr (.inr hc'))
  | received hc' _ => exact hset _ _ (.inr (.inr hc'))
  | _ => exact hc

theorem closed_step (hc : m'.calls c = .returned (some .closed)) :
    m.calls c = .returned (some .closed) ∨ a = .awaitClosed c ∧ m.calls c = .waiting ∨
      m.calls c = .enqueueing ∧ m'.entered = m.entered := by
  cases act_step hact with
  | called =>
    obtain ⟨-, hx⟩ | hc := setCall_eq hc
    · cases hx
    · exact .inl hc
  | sent =>
    obtain ⟨-, hx⟩ | hc := setCall_eq hc
    · cases hx
    · exact .inl hc
  | refused hc' =>
    obtain ⟨rfl, -⟩ | hc := setCall_eq hc
    · exact .inr (.inr ⟨hc', rfl⟩)
    · exact .inl hc
  | gaveUp hc' =>
    obtain ⟨rfl, -⟩ | hc := setCall_eq hc
    · exact .inr (.inl ⟨rfl, hc'⟩)
    · exact .inl hc
  | @received _ r =>
    obtain ⟨-, hx⟩ | hc := setCall_eq hc
    · cases r <;> simp at hx
    · exact .inl hc
  | _ => exact .inl hc

theorem entered_back (hc : c ∈ m'.entered) : c ∈ m.entered ∨ m'.calls c = .waiting := by
  cases act_step hact with
  | @sent c' =>
    obtain hc | hc := mem_append.mp hc
    · exact .inl hc
    · rw [mem_singleton.mp hc]
      exact .inr (setCall_self m c' .waiting)
  | _ => exact .inl hc

end

/-- A caller has `ErrClosed` while its operation has been committed or can still be. -/
def Exposed (m : Mutations) : Prop := ∃ c, m.calls c = .returned (some .closed) ∧ c ∈ m.entered ∧ ¬m.Stranded c

theorem exposed_step (h : m.Sound ops s₀) (hact : act ops m a = some m') :
    m'.Exposed ↔ m.Exposed ∨ ¬m.GivesUpStranded a := by
  constructor
  · rintro ⟨c, hclosed, hentered, hstranded⟩
    obtain hc | ⟨rfl, hc⟩ | ⟨hc, heq⟩ := closed_step hact hclosed
    · left
      obtain hentered | hwaiting := entered_back hact hentered
      · exact ⟨c, hc, hentered, fun hs => hstranded ((stranded_step h hact hentered).mpr hs)⟩
      · rw [hclosed] at hwaiting
        cases hwaiting
    · right
      intro hgives
      exact hstranded ((stranded_step h hact (h.inside c hc)).mpr hgives)
    · rw [heq] at hentered
      exact absurd hentered (h.outside c (.inr (.inl hc)))
  · rintro (⟨c, hclosed, hentered, hstranded⟩ | hgives)
    · refine ⟨c, returned_step hact hclosed, entered_step hact hentered, ?_⟩
      rwa [stranded_step h hact hentered]
    · cases a with
      | awaitClosed c =>
        have hgave := hact
        rw [act] at hgave
        split_ifs at hgave with hc
        cases hgave
        refine ⟨c, setCall_self .., h.inside c hc.1, fun hs => hgives ?_⟩
        exact (stranded_step h hact (h.inside c hc.1)).mp hs
      | _ => exact absurd trivial hgives

def weight : Worker → ℕ
  | .selecting _ => 0
  | .collecting batch => batch.length + 4
  | .draining batch => if batch = [] then 0 else batch.length + 4
  | .committing batch _ => batch.length + 3
  | .delivering results _ => results.length + 1
  | .exited => 0

section

variable (h : m.Sound ops s₀)
include h

theorem mem_entered : c ∈ m.entered ↔ c ∈ m.committed ∨ c ∈ m.worker.batch ∨ c ∈ m.channel := by
  rw [← h.order, mem_append, mem_append, or_assoc]

theorem sent_committed : (m.sent ++ m.worker.unsent).map Prod.fst = m.committed := by
  rw [h.results]
  apply map_fst_zip
  rw [commitAll_length, ← map_flatten, length_map]
  exact le_rfl

theorem nodup_committed : m.committed.Nodup := by
  have hnodup := h.nodup
  rw [← h.order, append_assoc] at hnodup
  exact hnodup.of_append_left

theorem done_empty {x : ℕ × Option StoreError} {rest : List (ℕ × Option StoreError)}
    (hx : m.worker.unsent = x :: rest) : m.done x.1 = [] := by
  by_contra hne
  obtain ⟨r, hr⟩ := exists_mem_of_ne_nil _ hne
  have hsent := mem_map_of_mem (f := Prod.fst) (h.delivered x.1 r hr)
  have hnodup := nodup_committed h
  rw [← sent_committed h, hx, map_append, map_cons] at hnodup
  exact disjoint_of_nodup_append hnodup hsent mem_cons_self

end

section Progress

def Advances (ops : ℕ → Op) (m : Mutations) : Prop :=
  ∃ a m', act ops m a = some m' ∧ 6 * m'.channel.length + weight m'.worker < 6 * m.channel.length + weight m.worker

theorem advances_take {x : ℕ} {rest : List ℕ} {w : Worker} (hchannel : m.channel = x :: rest)
    (hw : m.worker.take x = some w) (hweight : weight w ≤ weight m.worker + 5) : m.Advances ops := by
  refine ⟨.take, { m with worker := w, channel := rest }, ?_, ?_⟩
  · simp [act, hchannel, hw]
  · rw [hchannel, length_cons]
    dsimp only
    omega

theorem advances_turn {w : Worker} (hw : m.worker.turn m.channel = some w) (hweight : weight w < weight m.worker) :
    m.Advances ops := by
  refine ⟨.turn, m.setWorker w, ?_, Nat.add_lt_add_left hweight _⟩
  simp [act, hw]

theorem advances_commit {batch : List ℕ} {resume : Resume} (hw : m.worker = .committing batch resume) :
    m.Advances ops := by
  refine ⟨.commit, _, by rw [act, hw], ?_⟩
  rw [hw, weight, weight, length_zip]
  dsimp only
  omega

variable (h : m.Sound ops s₀)
include h

theorem advances_deliver {x : ℕ × Option StoreError} {rest : List (ℕ × Option StoreError)}
    {resume : Resume} (hw : m.worker = .delivering (x :: rest) resume) : m.Advances ops := by
  have hdone : m.done x.1 = [] := done_empty h (by rw [hw, Worker.unsent])
  refine ⟨.deliver, _, by rw [act, hw]; exact if_pos (by simp [hdone]), ?_⟩
  rw [hw, weight, weight, length_cons]
  dsimp only
  omega

theorem committed_or_advances (hc : c ∈ m.entered) (hs : ¬m.Stranded c) :
    c ∈ m.committed ∨ m.Advances ops := by
  by_cases hcommitted : c ∈ m.committed
  · exact .inl hcommitted
  right
  have hmem : c ∈ m.worker.batch ∨ c ∈ m.channel := ((mem_entered h).mp hc).resolve_left hcommitted
  cases hw : m.worker with
  | selecting batch =>
    obtain rfl := h.rested batch hw
    rw [hw] at hmem
    have hchannel : c ∈ m.channel := hmem.resolve_left not_mem_nil
    obtain ⟨x, rest, hx⟩ := exists_cons_of_ne_nil (ne_nil_of_mem hchannel)
    exact advances_take hx (by rw [hw]; rfl) (by rw [hw]; exact le_rfl)
  | collecting batch =>
    by_cases hmore : batch.length < maxBatchSize ∧ m.channel ≠ []
    · obtain ⟨x, rest, hx⟩ := exists_cons_of_ne_nil hmore.2
      apply advances_take hx (w := .collecting (batch ++ [x]))
      · rw [hw]
        exact if_pos hmore.1
      · rw [hw, weight, weight, length_append, length_singleton]
        omega
    · apply advances_turn (w := .committing batch .selecting)
      · rw [hw]
        exact if_neg hmore
      · rw [hw]
        exact Nat.lt_succ_self _
  | draining batch =>
    have hweight : batch ≠ [] → weight (.draining batch) = batch.length + 4 := fun hne => if_neg hne
    by_cases hfull : maxBatchSize ≤ batch.length
    · apply advances_turn (w := .committing batch .draining)
      · rw [hw]
        exact if_pos hfull
      · have hne : batch ≠ [] := ne_nil_of_length_pos (Nat.lt_of_lt_of_le (by decide) hfull)
        rw [hw, hweight hne]
        exact Nat.lt_succ_self _
    by_cases hchannel : m.channel = []
    · -- the last batch: what is not in it has been committed
      rw [hw, hchannel] at hmem
      have hne : batch ≠ [] := ne_nil_of_mem (hmem.resolve_right not_mem_nil)
      apply advances_turn (w := .committing batch .exited)
      · rw [hw, Worker.turn, if_neg hfull, if_neg (not_not.mpr hchannel), if_neg hne]
      · rw [hw, hweight hne]
        exact Nat.lt_succ_self _
    · obtain ⟨x, rest, hx⟩ := exists_cons_of_ne_nil hchannel
      apply advances_take hx (w := .draining (batch ++ [x]))
      · rw [hw]
        exact if_pos (Nat.lt_of_not_le hfull)
      · rw [hw, weight, weight, if_neg (by simp), length_append, length_singleton]
        split_ifs with hempty
        · simp [hempty]
        · omega
  | committing batch resume => exact advances_commit hw
  | delivering results resume =>
    cases results with
    | cons x rest => exact advances_deliver h hw
    | nil =>
      rw [hw] at hmem
      have hchannel : c ∈ m.channel := hmem.resolve_left not_mem_nil
      refine ⟨.resume, m.setWorker (.resumed resume), by rw [act, hw], ?_⟩
      rw [hw]
      cases resume with
      | selecting => exact Nat.lt_succ_self _
      | draining => exact Nat.lt_succ_self _
      | exited => exact absurd ⟨hchannel, by rw [hw]; rfl⟩ hs
  | exited =>
    rw [hw] at hmem
    exact absurd ⟨hmem.resolve_left not_mem_nil, by rw [hw]; rfl⟩ hs

theorem committed_eventually (hc : c ∈ m.entered) (hs : ¬m.Stranded c) :
    ∃ actions m', run (act ops) m actions = some m' ∧ c ∈ m'.committed := by
  apply eventually (act ops) (I := fun m => m.Sound ops s₀ ∧ c ∈ m.entered ∧ ¬m.Stranded c)
  · rintro m ⟨h, hc, hs⟩
    refine (committed_or_advances h hc hs).imp_right ?_
    rintro ⟨a, m', hact, hlt⟩
    refine ⟨a, m', hact, ⟨sound_step h hact, entered_step hact hc, ?_⟩, hlt⟩
    rwa [stranded_step h hact hc]
  · exact ⟨h, hc, hs⟩

end Progress

theorem stranded_uncommitted (h : m.Sound ops s₀) (hs : m.Stranded c) : c ∉ m.committed := by
  have hnodup := h.nodup
  rw [← h.order, append_assoc] at hnodup
  intro hc
  exact disjoint_of_nodup_append hnodup hc (mem_append_right _ hs.1)

theorem uncommitted_run (h : m.Sound ops s₀) {e : Option SubmitError} (hc : m.calls c = .returned e)
    (hs : c ∉ m.entered ∨ m.Stranded c) {actions : List QueueAction} (hrun : run (act ops) m actions = some m') :
    c ∉ m'.committed := by
  have hkept : m'.Sound ops s₀ ∧ m'.calls c = .returned e ∧ (c ∉ m'.entered ∨ m'.Stranded c) := by
    refine invariant (act ops) (I := fun m => m.Sound ops s₀ ∧ m.calls c = .returned e ∧ (c ∉ m.entered ∨ m.Stranded c))
      ?_ ⟨h, hc, hs⟩ hrun
    rintro m a m' ⟨h, hc, hs⟩ hact
    have hc' := returned_step hact hc
    refine ⟨sound_step h hact, hc', ?_⟩
    by_cases hentered : c ∈ m.entered
    · exact .inr ((stranded_step h hact hentered).mpr (hs.resolve_left (not_not.mpr hentered)))
    · left
      intro hentered'
      obtain hin | hwaiting := entered_back hact hentered'
      · exact hentered hin
      · rw [hc'] at hwaiting
        cases hwaiting
  obtain ⟨h', -, hout | hs'⟩ := hkept
  · intro hcommitted
    exact hout ((mem_entered h').mpr (.inl hcommitted))
  · exact stranded_uncommitted h' hs'

theorem closed_uncommitted_iff (h : m.Sound ops s₀) : (∀ c, m.calls c = .returned (some .closed) →
      ∀ actions m', run (act ops) m actions = some m' → c ∉ m'.committed) ↔ ¬m.Exposed := by
  constructor
  · rintro hnever ⟨c, hclosed, hentered, hs⟩
    obtain ⟨actions, m', hrun, hcommitted⟩ := committed_eventually h hentered hs
    exact hnever c hclosed actions m' hrun hcommitted
  · intro hsafe c hclosed actions m' hrun
    refine uncommitted_run h hclosed ?_ hrun
    by_contra hnot
    rw [not_or, not_not] at hnot
    exact hsafe ⟨c, hclosed, hnot⟩

structure Protocol (ops : ℕ → Op) (s₀ : Session Writer) (m : Mutations) : Prop where
  once : m.committed.Nodup
  order : m.committed <+: m.entered
  results : (m.sent ++ m.worker.unsent).map Prod.fst = m.committed
  unblocked : ∀ x rest, m.worker.unsent = x :: rest → m.done x.1 = []
  acknowledged : ∀ c, m.calls c = .returned none → ∃ pre batch post i, m.batches = pre ++ batch :: post ∧
    batch[i]? = some c ∧ Durable (commitAll s₀ (pre.map (map ops))).1 (batch.map ops) i
  refused : ∀ c, m.calls c = .returned (some .mutationQueueFull) →
    ∀ actions m', run (act ops) m actions = some m' → c ∉ m'.committed

theorem Sound.acknowledged (h : m.Sound ops s₀) (hc : m.calls c = .returned none) :
    ∃ pre batch post i, m.batches = pre ++ batch :: post ∧ batch[i]? = some c ∧
      Durable (commitAll s₀ (pre.map (map ops))).1 (batch.map ops) i := by
  have hsent : (c, none) ∈ m.sent ++ m.worker.unsent := mem_append_left _ (h.answered c none hc)
  rw [h.results] at hsent
  obtain ⟨pre, batch, post, hbatches, hmem⟩ := zip_commitAll hsent
  obtain ⟨i, hi⟩ := mem_iff_getElem?.mp hmem
  obtain ⟨hcall, hresult⟩ := getElem?_zip_eq_some.mp hi
  exact ⟨pre, batch, post, i, hbatches, hcall, commitBatch_none hresult⟩

theorem Sound.protocol (h : m.Sound ops s₀) : m.Protocol ops s₀ where
  once := nodup_committed h
  order := by
    rw [← h.order, append_assoc]
    exact prefix_append _ _
  results := sent_committed h
  unblocked _ _ := done_empty h
  acknowledged _ := h.acknowledged
  refused c hc _ _ := uncommitted_run h hc (.inl (h.outside c (.inr (.inr hc))))

/-- A caller that is told that the store is closed may rely on it exactly if it gives up late enough. -/
theorem mutation_queue_iff {ops : ℕ → Op} {s₀ : Session Writer} {actions : List QueueAction} {m : Mutations}
    (hrun : run (act ops) (start s₀) actions = some m) :
    m.Protocol ops s₀ ∧
      ((∀ c, m.calls c = .returned (some .closed) →
          ∀ actions' m', run (act ops) m actions' = some m' → c ∉ m'.committed) ↔
        Meets (act ops) GivesUpStranded (start s₀) actions) := by
  have hstart : (start s₀).Sound ops s₀ := sound_start
  have hsound : m.Sound ops s₀ := invariant (act ops) (fun _ _ _ h hact => sound_step h hact) hstart hrun
  have hclean : ¬(start s₀).Exposed := by
    rintro ⟨c, hclosed, -⟩
    cases hclosed
  refine ⟨hsound.protocol, ?_⟩
  rw [closed_uncommitted_iff hsound, meets_iff (act ops) (fun _ _ _ h hact => sound_step h hact)
    (fun _ _ _ h hact => exposed_step h hact) hstart hrun]
  exact and_iff_right hclean

instance (m : Mutations) : (a : QueueAction) → Decidable (m.GivesUpStranded a)
  | .awaitClosed c => inferInstanceAs (Decidable (c ∈ m.channel ∧ m.worker.finished = true))
  | .call _ | .send _ | .queueFull _ | .enqueueClosed _ | .receive _ | .take | .turn | .tick | .notice | .commit | .deliver
  | .resume | .cancel | .shutdown => isTrue trivial

def hostOps (_ : ℕ) : Op := .upsert [0x61] [⟨[[1, 2, 3, 4]], 300, 1, classIN⟩]

def lateActions : List QueueAction := [.call 0, .cancel, .notice, .turn, .send 0, .awaitClosed 0, .shutdown]

theorem mutation_queue_late : ∃ m, run (act hostOps) (start emptyStore.session) lateActions = some m ∧
    m.calls 0 = .returned (some .closed) ∧ ∀ actions m', run (act hostOps) m actions = some m' → 0 ∉ m'.committed := by
  have hsome : (run (act hostOps) (start emptyStore.session) lateActions).any
      (fun m => decide (m.calls 0 = .returned (some .closed))) = true := by decide +kernel
  have hmeets : Meets (act hostOps) GivesUpStranded (start emptyStore.session) lateActions := by decide +kernel
  obtain ⟨m, hrun, hclosed⟩ := run_some (act hostOps) hsome
  exact ⟨m, hrun, hclosed, (mutation_queue_iff hrun).2.mpr hmeets 0 hclosed⟩

/-- The caller has `ErrClosed`, then the worker drains the channel: the record is stored and in the log. -/
theorem closed_then_committed :
    (run (act hostOps) (start emptyStore.session) [.call 0, .send 0, .cancel, .awaitClosed 0]).any
        (fun m => decide (m.calls 0 = .returned (some .closed) ∧ m.committed = [])) = true ∧
      (run (act hostOps) (start emptyStore.session)
          [.call 0, .send 0, .cancel, .awaitClosed 0, .notice, .take, .turn, .commit, .deliver, .resume, .shutdown]).any
        (fun m => decide (m.calls 0 = .returned (some .closed) ∧ m.committed = [0] ∧ m.sent = [(0, none)] ∧
          m.session.tree.get [0x61] = some [⟨[[1, 2, 3, 4]], 300, 1, classIN⟩] ∧
          replay m.session.writer.file.content .eof = ([hostOps 0], none))) = true := by
  decide +kernel

end Mutations

end Kdns.Storage
