import Mathlib.Logic.Function.Basic
import Kdns.Lib.Guarded
import Kdns.Store.Submit

open List

namespace Kdns.Storage

open BufferedFile Wal

def defaultMutationQueueCap : ℕ := 10000

def maxBatchSize : ℕ := 512

/-- Places in `Upsert` and `DeleteDomain`: before the call, in the first `select`, in the second, and behind the return. -/
inductive Call where
  | idle
  | enqueueing
  | waiting
  | returned (err : Option SubmitError)
  deriving DecidableEq, Repr

inductive Resume where
  | selecting
  | draining
  | exited
  deriving DecidableEq, Repr

/-- Places in `batchWorker`: its `select`, the loop that fills the batch, `drainMutations`, and the two halves of
`commitBatch`. Operations are named by their calls. -/
inductive Worker where
  | selecting (batch : List ℕ)
  | collecting (batch : List ℕ)
  | draining (batch : List ℕ)
  | committing (batch : List ℕ) (resume : Resume)
  | delivering (results : List (ℕ × Option StoreError)) (resume : Resume)
  | exited
  deriving DecidableEq, Repr

variable {w w' : Worker}

namespace Worker

def resumed : Resume → Worker
  | .selecting => .selecting []
  | .draining => .draining []
  | .exited => .exited

def take (c : ℕ) : Worker → Option Worker
  | selecting batch => some (collecting (batch ++ [c]))
  | collecting batch => if batch.length < maxBatchSize then some (collecting (batch ++ [c])) else none
  | draining batch => if batch.length < maxBatchSize then some (draining (batch ++ [c])) else none
  | _ => none

def turn (channel : List ℕ) : Worker → Option Worker
  | collecting batch =>
    if batch.length < maxBatchSize ∧ channel ≠ [] then none else some (committing batch .selecting)
  | draining batch =>
    if maxBatchSize ≤ batch.length then some (committing batch .draining)
    else if channel ≠ [] then none
    else if batch = [] then some exited
    else some (committing batch .exited)
  | _ => none

def tick : Worker → Option Worker
  | selecting batch => some (if batch = [] then selecting [] else committing batch .selecting)
  | _ => none

def notice : Worker → Option Worker
  | selecting _ => some (draining [])
  | _ => none

def batch : Worker → List ℕ
  | selecting batch => batch
  | collecting batch => batch
  | draining batch => batch
  | committing batch _ => batch
  | _ => []

def unsent : Worker → List (ℕ × Option StoreError)
  | delivering results _ => results
  | _ => []

def finished : Worker → Bool
  | committing _ .exited => true
  | delivering _ .exited => true
  | exited => true
  | _ => false

/-- The batch is empty whenever the worker is at its `select`, so that `ticker.C` has nothing to do. -/
def Rested (w : Worker) : Prop := ∀ batch, w = selecting batch → batch = []

theorem rested_resumed (r : Resume) : (resumed r).Rested := by
  cases r with
  | selecting =>
    intro batch h
    cases h
    rfl
  | draining =>
    intro batch h
    cases h
  | exited =>
    intro batch h
    cases h

theorem batch_resumed (r : Resume) : (resumed r).batch = [] := by
  cases r <;> rfl

theorem unsent_resumed (r : Resume) : (resumed r).unsent = [] := by
  cases r <;> rfl

structure Taken (w : Worker) (c : ℕ) (w' : Worker) : Prop where
  batch : w'.batch = w.batch ++ [c]
  unsent : w.unsent = [] ∧ w'.unsent = []
  running : w.finished = false ∧ w'.finished = false
  rested : w'.Rested

theorem take_taken {c : ℕ} (h : w.take c = some w') : w.Taken c w' := by
  cases w with
  | selecting batch =>
    cases h
    exact ⟨rfl, ⟨rfl, rfl⟩, ⟨rfl, rfl⟩, fun _ h => by cases h⟩
  | collecting batch =>
    rw [take] at h
    split_ifs at h
    cases h
    exact ⟨rfl, ⟨rfl, rfl⟩, ⟨rfl, rfl⟩, fun _ h => by cases h⟩
  | draining batch =>
    rw [take] at h
    split_ifs at h
    cases h
    exact ⟨rfl, ⟨rfl, rfl⟩, ⟨rfl, rfl⟩, fun _ h => by cases h⟩
  | committing batch resume => cases h
  | delivering results resume => cases h
  | exited => cases h

structure Moved (channel : List ℕ) (w w' : Worker) : Prop where
  batch : w'.batch = w.batch
  unsent : w.unsent = [] ∧ w'.unsent = []
  running : w.finished = false
  drained : w'.finished = true → channel = []
  rested : w'.Rested

theorem turn_moved {channel : List ℕ} (h : w.turn channel = some w') : w.Moved channel w' := by
  cases w with
  | selecting batch => cases h
  | collecting batch =>
    rw [turn] at h
    split_ifs at h
    cases h
    exact ⟨rfl, ⟨rfl, rfl⟩, rfl, (fun h => by cases h), fun _ h => by cases h⟩
  | draining batch =>
    rw [turn] at h
    split_ifs at h with hfull hchannel hbatch
    · cases h
      exact ⟨rfl, ⟨rfl, rfl⟩, rfl, (fun h => by cases h), fun _ h => by cases h⟩
    · cases h
      exact ⟨hbatch.symm, ⟨rfl, rfl⟩, rfl, fun _ => not_not.mp hchannel, fun _ h => by cases h⟩
    · cases h
      exact ⟨rfl, ⟨rfl, rfl⟩, rfl, fun _ => not_not.mp hchannel, fun _ h => by cases h⟩
  | committing batch resume => cases h
  | delivering results resume => cases h
  | exited => cases h

theorem selecting_moved {channel : List ℕ} (hw : w.Rested) (h : w.tick = some w' ∨ w.notice = some w') :
    w.Moved channel w' := by
  cases w with
  | selecting batch =>
    obtain rfl := hw batch rfl
    rcases h with h | h
    · cases h
      exact ⟨rfl, ⟨rfl, rfl⟩, rfl, (fun h => by cases h), rested_resumed .selecting⟩
    · cases h
      exact ⟨rfl, ⟨rfl, rfl⟩, rfl, (fun h => by cases h), rested_resumed .draining⟩
  | _ => rcases h with h | h <;> cases h

end Worker

/-- Every call has its own `done` channel. The last three fields are history: no step reads them. -/
structure Mutations where
  calls : ℕ → Call
  channel : List ℕ
  done : ℕ → List (Option StoreError)
  worker : Worker
  cancelled : Bool
  closed : Bool
  session : Session Writer
  entered : List ℕ
  batches : List (List ℕ)
  sent : List (ℕ × Option StoreError)

inductive QueueAction where
  | call (c : ℕ)
  | send (c : ℕ)
  | queueFull (c : ℕ)
  | enqueueClosed (c : ℕ)
  | awaitClosed (c : ℕ)
  | receive (c : ℕ)
  | take
  | turn
  | tick
  | notice
  | commit
  | deliver
  | resume
  | cancel
  | shutdown
  deriving DecidableEq, Repr

namespace Mutations

def start (session : Session Writer) : Mutations :=
  ⟨fun _ => .idle, [], fun _ => [], .selecting [], false, false, session, [], [], []⟩

def setCall (m : Mutations) (c : ℕ) (x : Call) : Mutations := { m with calls := Function.update m.calls c x }

@[simp] theorem setCall_self (m : Mutations) (c : ℕ) (x : Call) : (m.setCall c x).calls c = x := Function.update_self ..

theorem setCall_of_ne (m : Mutations) {c c' : ℕ} (x : Call) (h : c ≠ c') : (m.setCall c' x).calls c = m.calls c :=
  Function.update_of_ne h ..

theorem setCall_eq {m : Mutations} {c c' : ℕ} {x y : Call} (h : (m.setCall c' x).calls c = y) :
    c = c' ∧ x = y ∨ m.calls c = y := by
  by_cases heq : c = c'
  · subst heq
    rw [setCall_self] at h
    exact .inl ⟨rfl, h⟩
  · rw [setCall_of_ne m x heq] at h
    exact .inr h

def setWorker (m : Mutations) (w : Worker) : Mutations := { m with worker := w }

/-- A step. A `select` may take each of its cases that is ready; the timer may run out at any time; results go into
channels of capacity one. -/
def act (ops : ℕ → Op) (m : Mutations) : QueueAction → Option Mutations
  | .call c => if m.calls c = .idle then some (m.setCall c .enqueueing) else none
  | .send c =>
    if m.calls c = .enqueueing ∧ m.channel.length < defaultMutationQueueCap then
      some { m.setCall c .waiting with channel := m.channel ++ [c], entered := m.entered ++ [c] }
    else none
  | .queueFull c => if m.calls c = .enqueueing then some (m.setCall c (.returned (some .mutationQueueFull))) else none
  | .enqueueClosed c =>
    if m.calls c = .enqueueing ∧ m.cancelled then some (m.setCall c (.returned (some .closed))) else none
  | .awaitClosed c => if m.calls c = .waiting ∧ m.cancelled then some (m.setCall c (.returned (some .closed))) else none
  | .receive c =>
    match m.calls c, m.done c with
    | .waiting, r :: rest =>
      some { m.setCall c (.returned (r.map .commit)) with done := Function.update m.done c rest }
    | _, _ => none
  | .take =>
    match m.channel with
    | [] => none
    | c :: rest => (m.worker.take c).map fun w => { m with worker := w, channel := rest }
  | .turn => (m.worker.turn m.channel).map m.setWorker
  | .tick => m.worker.tick.map m.setWorker
  | .notice => if m.cancelled then m.worker.notice.map m.setWorker else none
  | .commit =>
    match m.worker with
    | .committing batch resume =>
      let r := commitBatch m.session (batch.map ops)
      some { m with worker := .delivering (batch.zip r.2) resume, session := r.1, batches := m.batches ++ [batch] }
    | _ => none
  | .deliver =>
    match m.worker with
    | .delivering ((c, r) :: rest) resume =>
      if (m.done c).length < 1 then
        some { m with
          worker := .delivering rest resume, done := Function.update m.done c (m.done c ++ [r]), sent := m.sent ++ [(c, r)] }
      else none
    | _ => none
  | .resume =>
    match m.worker with
    | .delivering [] resume => some (m.setWorker (.resumed resume))
    | _ => none
  | .cancel => some { m with cancelled := true }
  | .shutdown =>
    if m.cancelled ∧ m.worker = .exited ∧ m.closed = false then
      some { m with closed := true, session := ⟨m.session.tree, (Wal.flush m.session.writer).1⟩ }
    else none

def committed (m : Mutations) : List ℕ := m.batches.flatten

def Stranded (m : Mutations) (c : ℕ) : Prop := c ∈ m.channel ∧ m.worker.finished = true

def GivesUpStranded (m : Mutations) : QueueAction → Prop
  | .awaitClosed c => m.Stranded c
  | _ => True

inductive Step (ops : ℕ → Op) (m : Mutations) : QueueAction → Mutations → Prop
  | called {c : ℕ} (h : m.calls c = .idle) : Step ops m (.call c) (m.setCall c .enqueueing)
  | sent {c : ℕ} (h : m.calls c = .enqueueing) :
      Step ops m (.send c) { m.setCall c .waiting with channel := m.channel ++ [c], entered := m.entered ++ [c] }
  | refused {a : QueueAction} {c : ℕ} {e : SubmitError} (h : m.calls c = .enqueueing)
      (he : e = .mutationQueueFull ∨ e = .closed) (ha : ∀ c, a ≠ .awaitClosed c) :
      Step ops m a (m.setCall c (.returned (some e)))
  | gaveUp {c : ℕ} (h : m.calls c = .waiting) : Step ops m (.awaitClosed c) (m.setCall c (.returned (some .closed)))
  | received {c : ℕ} {r : Option StoreError} {rest : List (Option StoreError)} (h : m.calls c = .waiting)
      (hdone : m.done c = r :: rest) :
      Step ops m (.receive c) { m.setCall c (.returned (r.map .commit)) with done := Function.update m.done c rest }
  | took {c : ℕ} {rest : List ℕ} {w : Worker} (hchannel : m.channel = c :: rest) (hw : m.worker.take c = some w) :
      Step ops m .take { m with worker := w, channel := rest }
  | moved {a : QueueAction} {w : Worker} (hw : m.worker.turn m.channel = some w ∨ m.worker.tick = some w ∨
      m.worker.notice = some w) (ha : ∀ c, a ≠ .awaitClosed c) : Step ops m a (m.setWorker w)
  | committed {batch : List ℕ} {resume : Resume} (hw : m.worker = .committing batch resume) :
      Step ops m .commit { m with
        worker := .delivering (batch.zip (commitBatch m.session (batch.map ops)).2) resume,
        session := (commitBatch m.session (batch.map ops)).1, batches := m.batches ++ [batch] }
  | delivered {c : ℕ} {r : Option StoreError} {rest : List (ℕ × Option StoreError)} {resume : Resume}
      (hw : m.worker = .delivering ((c, r) :: rest) resume) :
      Step ops m .deliver { m with
        worker := .delivering rest resume, done := Function.update m.done c (m.done c ++ [r]), sent := m.sent ++ [(c, r)] }
  | resumed {resume : Resume} (hw : m.worker = .delivering [] resume) : Step ops m .resume (m.setWorker (.resumed resume))
  | cancelled : Step ops m .cancel { m with cancelled := true }
  | shut (hw : m.worker = .exited) :
      Step ops m .shutdown { m with closed := true, session := ⟨m.session.tree, (Wal.flush m.session.writer).1⟩ }

variable {ops : ℕ → Op} {m m' : Mutations} {a : QueueAction} {s₀ : Session Writer}

theorem act_step (h : act ops m a = some m') : Step ops m a m' := by
  cases a with
  | call c =>
    rw [act] at h
    split_ifs at h with hc
    cases h
    exact .called hc
  | send c =>
    rw [act] at h
    split_ifs at h with hc
    cases h
    exact .sent hc.1
  | queueFull c =>
    rw [act] at h
    split_ifs at h with hc
    cases h
    exact .refused hc (.inl rfl) (by simp)
  | enqueueClosed c =>
    rw [act] at h
    split_ifs at h with hc
    cases h
    exact .refused hc.1 (.inr rfl) (by simp)
  | awaitClosed c =>
    rw [act] at h
    split_ifs at h with hc
    cases h
    exact .gaveUp hc.1
  | receive c =>
    rw [act] at h
    split at h
    · next r rest hc hdone =>
      cases h
      exact .received hc hdone
    · cases h
  | take =>
    rw [act] at h
    split at h
    · cases h
    · next c rest hchannel =>
      obtain ⟨w, hw, rfl⟩ := Option.map_eq_some_iff.mp h
      exact .took hchannel hw
  | turn =>
    obtain ⟨w, hw, rfl⟩ := Option.map_eq_some_iff.mp h
    exact .moved (.inl hw) (by simp)
  | tick =>
    obtain ⟨w, hw, rfl⟩ := Option.map_eq_some_iff.mp h
    exact .moved (.inr (.inl hw)) (by simp)
  | notice =>
    rw [act] at h
    split_ifs at h
    obtain ⟨w, hw, rfl⟩ := Option.map_eq_some_iff.mp h
    exact .moved (.inr (.inr hw)) (by simp)
  | commit =>
    rw [act] at h
    split at h
    · next batch resume hw =>
      cases h
      exact .committed hw
    · cases h
  | deliver =>
    rw [act] at h
    split at h
    · next c r rest resume hw =>
      split_ifs at h
      cases h
      exact .delivered hw
    · cases h
  | resume =>
    rw [act] at h
    split at h
    · next resume hw =>
      cases h
      exact .resumed hw
    · cases h
  | cancel =>
    cases h
    exact .cancelled
  | shutdown =>
    rw [act] at h
    split_ifs at h with hc
    cases h
    exact .shut hc.2.1

def outcomes (ops : ℕ → Op) (s₀ : Session Writer) (m : Mutations) : List (ℕ × Option StoreError) :=
  m.committed.zip (commitAll s₀ (m.batches.map (map ops))).2

structure Sound (ops : ℕ → Op) (s₀ : Session Writer) (m : Mutations) : Prop where
  order : m.committed ++ m.worker.batch ++ m.channel = m.entered
  nodup : m.entered.Nodup
  outside : ∀ c, m.calls c = .idle ∨ m.calls c = .enqueueing ∨ m.calls c = .returned (some .mutationQueueFull) →
    c ∉ m.entered
  inside : ∀ c, m.calls c = .waiting → c ∈ m.entered
  results : m.sent ++ m.worker.unsent = outcomes ops s₀ m
  session : m.closed = false → m.session = (commitAll s₀ (m.batches.map (map ops))).1
  exited : m.closed = true → m.worker = .exited
  rested : m.worker.Rested
  delivered : ∀ c, ∀ r ∈ m.done c, (c, r) ∈ m.sent
  answered : ∀ c r, m.calls c = .returned (Option.map .commit r) → (c, r) ∈ m.sent

theorem sound_start : (start s₀).Sound ops s₀ where
  order := rfl
  nodup := nodup_nil
  outside _ _ := not_mem_nil
  inside _ h := by cases h
  results := rfl
  session _ := rfl
  exited h := by cases h
  rested := Worker.rested_resumed .selecting
  delivered _ _ h := by cases h
  answered _ _ h := by cases h

section

variable (h : m.Sound ops s₀)
include h

theorem Sound.setCall {c : ℕ} {x : Call}
    (hout : x = .idle ∨ x = .enqueueing ∨ x = .returned (some .mutationQueueFull) → c ∉ m.entered)
    (hin : x = .waiting → c ∈ m.entered) (hans : ∀ r, x = .returned (Option.map .commit r) → (c, r) ∈ m.sent) :
    (m.setCall c x).Sound ops s₀ where
  order := h.order
  nodup := h.nodup
  outside := (Function.forall_update_iff m.calls fun c x =>
    x = .idle ∨ x = .enqueueing ∨ x = .returned (some .mutationQueueFull) → c ∉ m.entered).mpr ⟨hout, fun c' _ => h.outside c'⟩
  inside := (Function.forall_update_iff m.calls fun c x => x = .waiting → c ∈ m.entered).mpr ⟨hin, fun c' _ => h.inside c'⟩
  results := h.results
  session := h.session
  exited := h.exited
  rested := h.rested
  delivered := h.delivered
  answered := (Function.forall_update_iff m.calls fun c x =>
    ∀ r, x = .returned (Option.map .commit r) → (c, r) ∈ m.sent).mpr ⟨hans, fun c' _ => h.answered c'⟩

theorem Sound.send {c : ℕ} (hc : m.calls c = .enqueueing) :
    Sound ops s₀ { m.setCall c .waiting with channel := m.channel ++ [c], entered := m.entered ++ [c] } where
  order := by
    change m.committed ++ m.worker.batch ++ (m.channel ++ [c]) = m.entered ++ [c]
    rw [← append_assoc, h.order]
  nodup := by
    apply List.Nodup.append h.nodup (nodup_singleton c)
    rw [disjoint_singleton]
    exact h.outside c (.inr (.inl hc))
  outside := by
    apply (Function.forall_update_iff m.calls fun c' x =>
      x = .idle ∨ x = .enqueueing ∨ x = .returned (some .mutationQueueFull) → c' ∉ m.entered ++ [c]).mpr
    refine ⟨by simp, fun c' hne hc' => ?_⟩
    simpa [hne] using h.outside c' hc'
  inside := by
    apply (Function.forall_update_iff m.calls fun c' x => x = .waiting → c' ∈ m.entered ++ [c]).mpr
    exact ⟨fun _ => by simp, fun c' _ hc' => mem_append_left _ (h.inside c' hc')⟩
  results := h.results
  session := h.session
  exited := h.exited
  rested := h.rested
  delivered := h.delivered
  answered := (Function.forall_update_iff m.calls fun c x =>
    ∀ r, x = .returned (Option.map .commit r) → (c, r) ∈ m.sent).mpr ⟨by simp, fun c' _ => h.answered c'⟩

theorem Sound.receive {c : ℕ} {r : Option StoreError} {rest : List (Option StoreError)} (hdone : m.done c = r :: rest) :
    Sound ops s₀ { m.setCall c (.returned (r.map .commit)) with done := Function.update m.done c rest } := by
  have hsent : (c, r) ∈ m.sent := h.delivered c r (by simp [hdone])
  have hcall : (m.setCall c (.returned (r.map .commit))).Sound ops s₀ := by
    apply h.setCall
    · intro hout
      cases r <;> simp at hout
    · simp
    · intro r' hr'
      obtain rfl : r' = r := by
        apply Option.map_injective (f := SubmitError.commit)
        · intro e e' he
          exact SubmitError.commit.inj he
        · exact (Call.returned.inj hr').symm
      exact hsent
  refine ⟨hcall.order, hcall.nodup, hcall.outside, hcall.inside, hcall.results, hcall.session, hcall.exited, hcall.rested,
    ?_, hcall.answered⟩
  apply (Function.forall_update_iff m.done fun c' rs => ∀ r' ∈ rs, (c', r') ∈ m.sent).mpr
  refine ⟨fun r' hr' => ?_, fun c' _ => h.delivered c'⟩
  exact h.delivered c r' (by rw [hdone]; exact mem_cons_of_mem r hr')

theorem Sound.take {c : ℕ} {rest : List ℕ} (hchannel : m.channel = c :: rest)
    (hw : m.worker.Taken c w) : Sound ops s₀ { m with worker := w, channel := rest } where
  order := by
    change m.committed ++ w.batch ++ rest = m.entered
    rw [hw.batch, ← h.order, hchannel]
    simp
  nodup := h.nodup
  outside := h.outside
  inside := h.inside
  results := by
    have hresults := h.results
    rw [hw.unsent.1] at hresults
    rw [hw.unsent.2]
    exact hresults
  session := h.session
  exited hclosed := by
    have hrunning := hw.running.1
    rw [h.exited hclosed] at hrunning
    cases hrunning
  rested := hw.rested
  delivered := h.delivered
  answered := h.answered

theorem Sound.commit {batch : List ℕ} {resume : Resume} (hw : m.worker = .committing batch resume) :
    Sound ops s₀ { m with
      worker := .delivering (batch.zip (commitBatch m.session (batch.map ops)).2) resume,
      session := (commitBatch m.session (batch.map ops)).1, batches := m.batches ++ [batch] } := by
  have hopen : m.closed = false := by
    by_contra hclosed
    have hexit := h.exited (by simpa using hclosed)
    rw [hw] at hexit
    cases hexit
  have hsession := h.session hopen
  have horder : m.committed ++ batch ++ m.channel = m.entered := by
    have horder := h.order
    rw [hw] at horder
    exact horder
  have hresults : m.sent = outcomes ops s₀ m := by
    have hresults := h.results
    rw [hw] at hresults
    exact (append_nil _).symm.trans hresults
  have hrun : commitAll s₀ ((m.batches ++ [batch]).map (map ops)) =
      ((commitBatch m.session (batch.map ops)).1,
        (commitAll s₀ (m.batches.map (map ops))).2 ++ (commitBatch m.session (batch.map ops)).2) := by
    rw [map_append, commitAll_append, ← hsession]
    simp [commitAll]
  have hlength : m.committed.length = (commitAll s₀ (m.batches.map (map ops))).2.length := by
    rw [commitAll_length, committed, ← map_flatten, length_map]
  have hcommitted : (m.batches ++ [batch]).flatten = m.committed ++ batch := by simp [committed]
  exact {
    order := by
      change (m.batches ++ [batch]).flatten ++ [] ++ m.channel = m.entered
      rw [hcommitted, append_nil]
      exact horder
    nodup := h.nodup
    outside := h.outside
    inside := h.inside
    results := by
      change m.sent ++ batch.zip _ = (m.batches ++ [batch]).flatten.zip _
      rw [hrun, hcommitted, zip_append hlength, hresults]
      rfl
    session := fun _ => by rw [hrun]
    exited := fun hclosed => absurd hclosed (by simp [hopen])
    rested := fun _ hd => by cases hd
    delivered := h.delivered
    answered := h.answered }

theorem Sound.deliver {c : ℕ} {r : Option StoreError} {rest : List (ℕ × Option StoreError)} {resume : Resume}
    (hw : m.worker = .delivering ((c, r) :: rest) resume) : Sound ops s₀ { m with
      worker := .delivering rest resume, done := Function.update m.done c (m.done c ++ [r]), sent := m.sent ++ [(c, r)] } where
  order := by
    have horder := h.order
    rw [hw] at horder
    exact horder
  nodup := h.nodup
  outside := h.outside
  inside := h.inside
  results := by
    have hresults := h.results
    rw [hw] at hresults
    rw [append_assoc]
    exact hresults
  session := h.session
  exited hclosed := by
    have hexit := h.exited hclosed
    rw [hw] at hexit
    cases hexit
  rested _ hd := by cases hd
  delivered := by
    apply (Function.forall_update_iff m.done fun c' rs => ∀ r' ∈ rs, (c', r') ∈ m.sent ++ [(c, r)]).mpr
    constructor
    · rw [forall_mem_append]
      exact ⟨fun r' hr' => mem_append_left _ (h.delivered c r' hr'), by simp⟩
    · intro c' _ r' hr'
      exact mem_append_left _ (h.delivered c' r' hr')
  answered c' r' hc := mem_append_left _ (h.answered c' r' hc)

theorem Sound.setWorker (hbatch : w.batch = m.worker.batch) (hunsent : w.unsent = m.worker.unsent)
    (hrun : m.worker ≠ .exited) (hrested : w.Rested) : (m.setWorker w).Sound ops s₀ where
  order := by
    change m.committed ++ w.batch ++ m.channel = m.entered
    rw [hbatch]
    exact h.order
  nodup := h.nodup
  outside := h.outside
  inside := h.inside
  results := by
    change m.sent ++ w.unsent = outcomes ops s₀ m
    rw [hunsent]
    exact h.results
  session := h.session
  exited hclosed := absurd (h.exited hclosed) hrun
  rested := hrested
  delivered := h.delivered
  answered := h.answered

end

theorem ne_exited (h : w.finished = false) : w ≠ .exited := by
  rintro rfl
  cases h

theorem Sound.moved (h : m.Sound ops s₀)
    (hw : m.worker.turn m.channel = some w ∨ m.worker.tick = some w ∨ m.worker.notice = some w) :
    m.worker.Moved m.channel w := by
  rcases hw with hw | hw
  · exact Worker.turn_moved hw
  · exact Worker.selecting_moved h.rested hw

theorem sound_step (h : m.Sound ops s₀) (hact : act ops m a = some m') : m'.Sound ops s₀ := by
  cases act_step hact with
  | called hc =>
    apply h.setCall
    · intro _
      exact h.outside _ (.inl hc)
    · simp
    · simp
  | sent hc => exact h.send hc
  | refused hc he _ =>
    apply h.setCall
    · intro _
      exact h.outside _ (.inr (.inl hc))
    · simp
    · intro r hr
      rcases he with rfl | rfl <;> cases r <;> simp at hr
  | gaveUp hc =>
    apply h.setCall
    · simp
    · simp
    · intro r hr
      cases r <;> simp at hr
  | received _ hdone => exact h.receive hdone
  | took hchannel hw => exact h.take hchannel (Worker.take_taken hw)
  | moved hw _ =>
    have hmoved := h.moved hw
    exact h.setWorker hmoved.batch (hmoved.unsent.2.trans hmoved.unsent.1.symm) (ne_exited hmoved.running) hmoved.rested
  | committed hw => exact h.commit hw
  | delivered hw => exact h.deliver hw
  | resumed hw =>
    apply h.setWorker
    · rw [hw, Worker.batch_resumed]
      rfl
    · rw [hw, Worker.unsent_resumed]
      rfl
    · rw [hw]
      simp
    · exact Worker.rested_resumed _
  | cancelled => exact ⟨h.order, h.nodup, h.outside, h.inside, h.results, h.session, h.exited, h.rested, h.delivered, h.answered⟩
  | shut hw =>
    exact ⟨h.order, h.nodup, h.outside, h.inside, h.results, (fun hopen => by cases hopen), fun _ => hw, h.rested, h.delivered,
      h.answered⟩

end Mutations

end Kdns.Storage
