import Kdns.Cluster.Hub
import Kdns.Lib.Guarded

namespace Kdns.Cluster

inductive Place where
  | started
  | top
  | reading
  | locking
  | holding
  | sizing
  | checked
  | parked
  | waking
  | gone
  deriving DecidableEq, Repr

structure StreamLoop where
  startGen : ℕ
  offset : ℕ
  place : Place
  deriving DecidableEq, Repr

inductive Owed where
  | nothing
  | flush
  | generation
  | compaction
  deriving DecidableEq, Repr

structure Monitor where
  size : ℕ
  gen : ℕ
  stopped : Bool
  holder : Option ℕ
  owed : Owed
  streams : List StreamLoop
  deriving DecidableEq, Repr

def Monitor.start (size : ℕ) : Monitor := ⟨size, 0, false, none, .nothing, []⟩

inductive StreamStep where
  | checkOffset
  | checkGeneration
  | read (n : ℕ)
  | lock
  | recheck
  | stat
  | wait
  | wake
  | leave
  deriving DecidableEq, Repr

inductive MonitorAction where
  | connect (offset : ℕ)
  | stream (i : ℕ) (step : StreamStep)
  | flush (n : ℕ)
  | notifyFlush
  | truncate
  | nextGeneration
  | notifyCompaction
  | stop
  | broadcastStop
  deriving DecidableEq, Repr

/-- One step of the `i`th handler: where it is afterwards, and who has the lock. `Wait` adds it to the waiting list and
releases the lock at once. -/
def streamAct (m : Monitor) (i : ℕ) (s : StreamLoop) (step : StreamStep) : Option (StreamLoop × Option ℕ) :=
  match s.place, step with
  | .started, .checkOffset => some ({ s with place := if s.offset > m.size then .gone else .top }, m.holder)
  | .top, .checkGeneration =>
    if m.holder = none then
      some ({ s with place := if m.stopped ∨ m.gen ≠ s.startGen then .gone else .reading }, none)
    else none
  | .reading, .read n =>
    if m.size ≤ s.offset then some ({ s with place := .locking }, m.holder)
    else if 0 < n ∧ n ≤ streamBufSize ∧ s.offset + n ≤ m.size then
      some ({ s with offset := s.offset + n, place := .top }, m.holder)
    else none
  | .locking, .lock => if m.holder = none then some ({ s with place := .holding }, some i) else none
  | .holding, .recheck =>
    if m.stopped ∨ m.gen ≠ s.startGen then some ({ s with place := .gone }, none)
    else some ({ s with place := .sizing }, some i)
  | .sizing, .stat =>
    if m.size > s.offset then some ({ s with place := .top }, none)
    else some ({ s with place := .checked }, some i)
  | .checked, .wait => some ({ s with place := .parked }, none)
  | .waking, .wake =>
    if m.holder = none then some ({ s with place := if m.stopped then .gone else .top }, none) else none
  | .top, .leave => some ({ s with place := .gone }, m.holder)
  | .reading, .leave => some ({ s with place := .gone }, m.holder)
  | _, _ => none

def StreamLoop.notified (s : StreamLoop) : StreamLoop := if s.place = .parked then { s with place := .waking } else s

def Monitor.broadcast (m : Monitor) : Monitor := { m with streams := m.streams.map StreamLoop.notified }

/-- `NotifyFlush` broadcasts without the lock; `NotifyCompaction` has it only to count the generation. -/
def Monitor.act (m : Monitor) : MonitorAction → Option Monitor
  | .connect offset =>
    if m.holder = none then some { m with streams := m.streams ++ [⟨m.gen, offset, .started⟩] } else none
  | .stream i step =>
    match m.streams[i]? with
    | none => none
    | some s => (streamAct m i s step).map fun r => { m with streams := m.streams.set i r.1, holder := r.2 }
  | .flush n =>
    if m.owed = .nothing ∨ m.owed = .flush then some { m with size := m.size + n, owed := .flush } else none
  | .notifyFlush => if m.owed = .flush then some { m.broadcast with owed := .nothing } else none
  | .truncate => if m.owed = .nothing then some { m with size := 0, owed := .generation } else none
  | .nextGeneration =>
    if m.owed = .generation ∧ m.holder = none then some { m with gen := m.gen + 1, owed := .compaction } else none
  | .notifyCompaction => if m.owed = .compaction then some { m.broadcast with owed := .nothing } else none
  | .stop => if m.holder = none then some { m with stopped := true } else none
  | .broadcastStop => if m.stopped then some m.broadcast else none

def StreamLoop.Asleep (s : StreamLoop) : Prop := s.place = .checked ∨ s.place = .parked

theorem streamAct_asleep {m : Monitor} {i : ℕ} {s s' : StreamLoop} {step : StreamStep} {holder : Option ℕ}
    (h : streamAct m i s step = some (s', holder)) (ha : s'.Asleep) :
    m.size ≤ s'.offset ∨ s.Asleep ∧ s'.offset = s.offset := by
  unfold streamAct at h
  split at h <;> try split_ifs at h
  all_goals cases h
  -- only the comparison of the sizes and the wait itself end in such a place
  all_goals try (rcases ha with ha | ha <;> cases ha; done)
  · rename_i hsize
    left
    exact Nat.le_of_not_lt hsize
  · rename_i hchecked
    right
    exact ⟨.inl hchecked, rfl⟩

theorem notified_awake (s : StreamLoop) : s.notified.place ≠ .parked := by
  unfold StreamLoop.notified
  split_ifs with h
  · simp
  · exact h

theorem notified_checked {s : StreamLoop} (h : s.notified.place = .checked) : s.notified = s := by
  unfold StreamLoop.notified at h ⊢
  split_ifs at h ⊢ with hp
  rfl

/-- A stream that has compared the sizes has seen all there is, or the writer's `NotifyFlush` is still to come. -/
structure Monitor.Awaited (m : Monitor) : Prop where
  seen : ∀ s ∈ m.streams, s.Asleep → m.owed = .flush ∨ m.size ≤ s.offset
  empty : m.owed = .generation ∨ m.owed = .compaction → m.size = 0

def CarefulMonitor (m : Monitor) (a : MonitorAction) : Prop :=
  a = .notifyFlush → ∀ s ∈ m.streams, s.place = .checked → m.size ≤ s.offset

instance carefulMonitorDecidable (m : Monitor) (a : MonitorAction) : Decidable (CarefulMonitor m a) :=
  inferInstanceAs (Decidable (_ → _))

theorem awaited_start (size : ℕ) : (Monitor.start size).Awaited := by
  constructor
  · intro s hs
    cases hs
  · rintro (h | h) <;> cases h

theorem broadcast_asleep {m : Monitor} {P : ℕ → Prop} (h : ∀ s ∈ m.streams, s.place = .checked → P s.offset) :
    ∀ s ∈ m.broadcast.streams, s.Asleep → P s.offset := by
  intro s hs ha
  obtain ⟨t, ht, rfl⟩ := List.mem_map.mp hs
  rcases ha with ha | ha
  · have hsame := notified_checked ha
    rw [hsame] at ha ⊢
    exact h t ht ha
  · exact absurd ha (notified_awake t)

theorem Monitor.Awaited.stream {m : Monitor} (h : m.Awaited) {i : ℕ} {s s' : StreamLoop} {step : StreamStep}
    {holder : Option ℕ} (hs : m.streams[i]? = some s) (hact : streamAct m i s step = some (s', holder)) :
    Monitor.Awaited { m with streams := m.streams.set i s', holder := holder } := by
  refine ⟨?_, h.empty⟩
  intro t ht ha
  rcases List.mem_or_eq_of_mem_set ht with ht | rfl
  · exact h.seen t ht ha
  · rcases streamAct_asleep hact ha with hsize | ⟨hasleep, hoffset⟩
    · exact .inr hsize
    · rw [hoffset]
      exact h.seen s (List.mem_of_getElem? hs) hasleep

theorem Monitor.Awaited.step {m m' : Monitor} {a : MonitorAction} (h : m.Awaited) (hcareful : CarefulMonitor m a)
    (hact : m.act a = some m') : m'.Awaited := by
  cases a with
  | connect offset =>
    simp only [Monitor.act] at hact
    split_ifs at hact
    cases hact
    refine ⟨?_, h.empty⟩
    intro s hs ha
    rw [List.mem_append, List.mem_singleton] at hs
    rcases hs with hs | rfl
    · exact h.seen s hs ha
    · rcases ha with ha | ha <;> cases ha
  | stream i step =>
    simp only [Monitor.act] at hact
    split at hact
    · cases hact
    · rename_i s hs
      obtain ⟨⟨s', holder⟩, hr, rfl⟩ := Option.map_eq_some_iff.mp hact
      exact h.stream hs hr
  | flush n =>
    simp only [Monitor.act] at hact
    split_ifs at hact
    cases hact
    constructor
    · intro _ _ _
      exact .inl rfl
    · rintro (ho | ho) <;> cases ho
  | notifyFlush =>
    simp only [Monitor.act] at hact
    split_ifs at hact
    cases hact
    constructor
    · intro s hs ha
      right
      exact broadcast_asleep (hcareful rfl) s hs ha
    · rintro (ho | ho) <;> cases ho
  | truncate =>
    simp only [Monitor.act] at hact
    split_ifs at hact
    cases hact
    constructor
    · intro s _ _
      exact .inr (Nat.zero_le s.offset)
    · intro _
      rfl
  | nextGeneration =>
    simp only [Monitor.act] at hact
    split_ifs at hact with ho
    cases hact
    have hsize : m.size = 0 := h.empty (.inl ho.1)
    constructor
    · intro s _ _
      right
      simp only [hsize, Nat.zero_le]
    · intro _
      exact hsize
  | notifyCompaction =>
    simp only [Monitor.act] at hact
    split_ifs at hact with ho
    cases hact
    have hsize : m.size = 0 := h.empty (.inr ho)
    constructor
    · intro s hs ha
      right
      apply broadcast_asleep (P := (m.size ≤ ·)) _ s hs ha
      omega
    · rintro (ho | ho) <;> cases ho
  | stop =>
    simp only [Monitor.act] at hact
    split_ifs at hact
    cases hact
    exact ⟨h.seen, h.empty⟩
  | broadcastStop =>
    simp only [Monitor.act] at hact
    split_ifs at hact
    cases hact
    refine ⟨broadcast_asleep (P := fun offset => m.owed = .flush ∨ m.size ≤ offset) ?_, h.empty⟩
    intro s hs hchecked
    exact h.seen s hs (.inl hchecked)

theorem careful_wakeups (size : ℕ) (actions : List MonitorAction) (m : Monitor)
    (hrun : Guarded.run Monitor.act (.start size) actions = some m)
    (hcareful : Guarded.Meets Monitor.act CarefulMonitor (.start size) actions) (howed : m.owed = .nothing) :
    ∀ s ∈ m.streams, s.place = .parked → m.size ≤ s.offset := by
  have h : m.Awaited :=
    Guarded.invariant_run Monitor.act (fun _ _ _ => Monitor.Awaited.step) (awaited_start size) hrun hcareful
  intro s hs hparked
  apply (h.seen s hs (.inr hparked)).resolve_left
  intro ho
  rw [howed] at ho
  cases ho

theorem careful_wakeups_once :
    let park : List MonitorAction := [.stream 0 .checkGeneration, .stream 0 (.read 1), .stream 0 .lock,
      .stream 0 .recheck, .stream 0 .stat, .stream 0 .wait]
    let actions : List MonitorAction := [.connect 0, .stream 0 .checkOffset] ++ park ++
      [.flush 5, .notifyFlush, .stream 0 .wake, .stream 0 .checkGeneration, .stream 0 (.read 5)] ++ park
    ∃ m, Guarded.run Monitor.act (.start 0) actions = some m ∧ m.size = 5 ∧ m.streams = [⟨0, 5, .parked⟩] ∧
      ∀ s ∈ m.streams, s.place = .parked → m.size ≤ s.offset := by
  intro park actions
  have hrun : ∃ m, Guarded.run Monitor.act (.start 0) actions = some m ∧
      m.owed = .nothing ∧ m.size = 5 ∧ m.streams = [⟨0, 5, .parked⟩] :=
    Guarded.run_some Monitor.act (by decide +kernel)
  obtain ⟨m, hm, howed, hsize, hstreams⟩ := hrun
  exact ⟨m, hm, hsize, hstreams, careful_wakeups 0 actions m hm (by decide +kernel) howed⟩

/-- The bytes and their `NotifyFlush` fall between the comparison and the wait. -/
theorem lost_wakeup :
    let actions : List MonitorAction := [.connect 0, .stream 0 .checkOffset, .stream 0 .checkGeneration, .stream 0 (.read 1),
      .stream 0 .lock, .stream 0 .recheck, .stream 0 .stat, .flush 5, .notifyFlush, .stream 0 .wait]
    ∃ m, Guarded.run Monitor.act (.start 0) actions = some m ∧ m.owed = .nothing ∧ m.size = 5 ∧
      m.streams = [⟨0, 0, .parked⟩] := by
  intro actions
  exact Guarded.run_some Monitor.act (by decide +kernel)

end Kdns.Cluster
