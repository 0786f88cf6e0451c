import Kdns.Cluster.Resync
import Kdns.Lib.Guarded

namespace Kdns.Cluster

open ByteStream Dns Codec Radix Wal Snapshot Storage

inductive Reload where
  | idle
  | loaded (base : Tree)
  | replayed (tree : Tree)

def Reload.running : Reload → Bool
  | .idle => false
  | _ => true

def Reload.swapping : Reload → Bool
  | .replayed _ => true
  | _ => false

inductive Task where
  | streaming (pending : List Op)
  | renamed (tree : Tree)
  | removed (tree : Tree)

structure Hot where
  client : Client
  reload : Reload
  task : Task

def Hot.finished (s : Hot) : Bool :=
  match s.reload, s.task with
  | .idle, .streaming [] => true
  | _, _ => false

def Hot.start (c : Client) : Hot := ⟨c, .idle, .streaming []⟩

inductive HotAction where
  | loadSnapshot
  | replayWAL
  | swapReloaded
  | appendFrames (body : Bytes)
  | update
  | rename (reply : Option Reply)
  | removeWAL
  | swapDownloaded

/-- One step of either side. The bytes of a read reach the log before the first of its frames reaches the tree. -/
def hotAct (fl : Flate) (s : Hot) : HotAction → Option Hot
  | .loadSnapshot =>
    match s.reload with
    | .idle =>
      match baseTree fl s.client.snap with
      | .error _ => some s
      | .ok base => some { s with reload := .loaded base }
    | _ => none
  | .replayWAL =>
    match s.reload with
    | .loaded base =>
      match replayWALIntoTree s.client.wal base with
      | .error _ => some { s with reload := .idle }
      | .ok tree => some { s with reload := .replayed tree }
    | _ => none
  | .swapReloaded =>
    match s.reload with
    | .replayed tree => some { s with client := { s.client with tree := tree }, reload := .idle }
    | _ => none
  | .appendFrames body =>
    match s.task, replay body .eof with
    | .streaming [], (ops, none) =>
      some { s with client := { s.client with wal := some (s.client.log ++ body) }, task := .streaming ops }
    | _, _ => none
  | .update =>
    match s.task with
    | .streaming (op :: ops) =>
      some { s with client := { s.client with tree := applyOps s.client.tree [op] }, task := .streaming ops }
    | _ => none
  | .rename reply =>
    match s.task with
    | .streaming [] =>
      match fetchSnapshot fl reply with
      | .error _ => some s
      | .ok (data, tree) => some { s with client := { s.client with snap := some data }, task := .renamed tree }
    | _ => none
  | .removeWAL =>
    match s.task with
    | .renamed tree => some { s with client := { s.client with wal := none }, task := .removed tree }
    | _ => none
  | .swapDownloaded =>
    match s.task with
    | .removed tree => some { s with client := { s.client with tree := tree }, task := .streaming [] }
    | _ => none

def Reload.Fresh (base full : Tree) : Reload → Prop
  | .idle => True
  | .loaded b => b = base
  | .replayed t => t = full

theorem Reload.Fresh.of_not_swapping {base full : Tree} {r : Reload} (h : r.Fresh base full) (hr : r.swapping = false)
    (full' : Tree) : r.Fresh base full' := by
  cases r with
  | idle => trivial
  | loaded b => exact h
  | replayed t => cases hr

theorem Reload.eq_idle {r : Reload} (h : r.running = false) : r = .idle := by
  cases r with
  | idle => rfl
  | loaded b => cases h
  | replayed t => cases h

def Hot.Ahead (s : Hot) (base full : Tree) : Prop :=
  match s.task with
  | .streaming pending =>
    s.reload.Fresh base full ∧ applyOps s.client.tree pending = full ∧ ∃ t, t.Valid ∧ applyOps t pending = full
  | .renamed tree => tree = base
  | .removed tree => tree = base ∧ s.client.wal = none

structure Coherent (fl : Flate) (s : Hot) (base : Tree) : Prop where
  base_eq : baseTree fl s.client.snap = .ok base
  valid : base.Valid
  replays : ∀ t, replayWALIntoTree s.client.wal t = .ok (applyOps t (walOps s.client.wal))
  ahead : s.Ahead base (applyOps base (walOps s.client.wal))

theorem coherent_start {fl : Flate} {c : Client} (h : localTree fl c.snap c.wal = .ok c.tree) :
    ∃ base, Coherent fl (.start c) base := by
  obtain ⟨base, hbase, hvalid, htree, hwal⟩ := localTree_cases h
  exact ⟨base, hbase, hvalid, hwal, trivial, htree, c.tree, by rw [htree]; exact (applyOps_spec hvalid _).1, htree⟩

theorem Coherent.serves {fl : Flate} {s : Hot} {base : Tree} (h : Coherent fl s base) (hs : s.finished = true) :
    localTree fl s.client.snap s.client.wal = .ok s.client.tree := by
  obtain ⟨c, reload, task⟩ := s
  cases reload <;> cases task <;> try cases hs
  rename_i pending
  cases pending with
  | cons op ops => cases hs
  | nil =>
    have htree : c.tree = applyOps base (walOps c.wal) := h.ahead.2.1
    rw [localTree, h.base_eq, htree]
    apply h.replays

/-- The client leaves the log alone between the replay and the swap of a reload, appends only at a frame boundary, and
swaps in a downloaded tree only when no reload is under way. -/
def CarefulHot (s : Hot) : HotAction → Prop
  | .appendFrames _ => s.reload.swapping = false ∧ AtBoundary s.client
  | .swapDownloaded => s.reload.running = false
  | _ => True

instance carefulHotDecidable (s : Hot) : (a : HotAction) → Decidable (CarefulHot s a)
  | .appendFrames _ => inferInstanceAs (Decidable (_ ∧ (replay s.client.log .eof).2 = none))
  | .swapDownloaded => inferInstanceAs (Decidable (s.reload.running = false))
  | .loadSnapshot | .replayWAL | .swapReloaded | .update | .rename _ | .removeWAL => isTrue trivial

section Steps

variable {fl : Flate} {c : Client} {reload : Reload} {task : Task} {base : Tree}

theorem Coherent.loadSnapshot (h : Coherent fl ⟨c, .idle, task⟩ base) : Coherent fl ⟨c, .loaded base, task⟩ base := by
  refine ⟨h.base_eq, h.valid, h.replays, ?_⟩
  cases task with
  | streaming pending => exact ⟨rfl, h.ahead.2⟩
  | renamed tree => exact h.ahead
  | removed tree => exact h.ahead

theorem Coherent.replayWAL {b : Tree} (h : Coherent fl ⟨c, .loaded b, task⟩ base) :
    Coherent fl ⟨c, .replayed (applyOps b (walOps c.wal)), task⟩ base := by
  refine ⟨h.base_eq, h.valid, h.replays, ?_⟩
  cases task with
  | streaming pending =>
    obtain ⟨rfl, hrest⟩ := h.ahead
    exact ⟨rfl, hrest⟩
  | renamed tree => exact h.ahead
  | removed tree => exact h.ahead

theorem Coherent.swapReloaded {t : Tree} (h : Coherent fl ⟨c, .replayed t, task⟩ base) :
    Coherent fl ⟨{ c with tree := t }, .idle, task⟩ base := by
  refine ⟨h.base_eq, h.valid, h.replays, ?_⟩
  cases task with
  | streaming pending =>
    obtain ⟨hfresh, -, u, hu, hfull⟩ := h.ahead
    refine ⟨trivial, ?_, u, hu, hfull⟩
    -- the pending frames are in the log already: applying them again changes nothing
    have hagain := applyOps_idem hu pending
    rw [hfull, ← show t = _ from hfresh] at hagain
    exact hagain.trans hfresh
  | renamed tree => exact h.ahead
  | removed tree => exact h.ahead

theorem Coherent.appendFrames (h : Coherent fl ⟨c, reload, .streaming []⟩ base) {body : Bytes} {ops : List Op}
    (hbody : replay body .eof = (ops, none)) (hb : AtBoundary c) (hr : reload.swapping = false) :
    Coherent fl ⟨{ c with wal := some (c.log ++ body) }, reload, .streaming ops⟩ base := by
  have hlog : replay c.log .eof = (walOps c.wal, none) := Prod.ext rfl hb
  have happ := FramedLog.readAll_append frames c.log body .eof [] _ hlog
  have hnew : replay (c.log ++ body) .eof = (walOps c.wal ++ ops, none) := by
    rw [show FramedLog.readAll frames ⟨body, .eof, []⟩ = (ops, none) from hbody] at happ
    exact happ
  have hops : walOps (some (c.log ++ body)) = walOps c.wal ++ ops := congrArg Prod.fst hnew
  obtain ⟨hfresh, htree, -⟩ := h.ahead
  have htree : c.tree = applyOps base (walOps c.wal) := htree
  have hfull : applyOps c.tree ops = applyOps base (walOps (some (c.log ++ body))) := by
    rw [hops, applyOps_append, htree]
  refine ⟨h.base_eq, h.valid, ?_, hfresh.of_not_swapping hr _, hfull, c.tree, ?_, hfull⟩
  · intro t
    rw [hops]
    exact replayWALIntoTree_ok hnew (.inl rfl) t
  · rw [htree]
    exact (applyOps_spec h.valid _).1

theorem Coherent.update {op : Op} {ops : List Op} (h : Coherent fl ⟨c, reload, .streaming (op :: ops)⟩ base) :
    Coherent fl ⟨{ c with tree := applyOps c.tree [op] }, reload, .streaming ops⟩ base := by
  obtain ⟨hfresh, htree, t, ht, hfull⟩ := h.ahead
  exact ⟨h.base_eq, h.valid, h.replays, hfresh, htree, applyOps t [op], (applyOps_spec ht [op]).1, hfull⟩

theorem Coherent.rename (h : Coherent fl ⟨c, reload, task⟩ base) {reply : Option Reply} {data : Bytes} {t : Tree}
    (hf : fetchSnapshot fl reply = .ok (data, t)) : Coherent fl ⟨{ c with snap := some data }, reload, .renamed t⟩ t :=
  ⟨fetchSnapshot_load hf, (loadSnapshotIntoTree_sound (fetchSnapshot_load hf)).valid, h.replays, rfl⟩

theorem Coherent.removeWAL {t : Tree} (h : Coherent fl ⟨c, reload, .renamed t⟩ base) :
    Coherent fl ⟨{ c with wal := none }, reload, .removed t⟩ base :=
  ⟨h.base_eq, h.valid, fun _ => rfl, h.ahead, rfl⟩

theorem Coherent.swapDownloaded {t : Tree} (h : Coherent fl ⟨c, .idle, .removed t⟩ base) :
    Coherent fl ⟨{ c with tree := t }, .idle, .streaming []⟩ base := by
  obtain ⟨rfl, hwal⟩ := h.ahead
  have hfull : applyOps t (walOps c.wal) = t := by
    rw [show c.wal = none from hwal]
    rfl
  exact ⟨h.base_eq, h.valid, h.replays, trivial, hfull.symm, t, h.valid, hfull.symm⟩

end Steps

theorem Coherent.step {fl : Flate} {s s' : Hot} {a : HotAction} (h : ∃ base, Coherent fl s base)
    (hcareful : CarefulHot s a) (hact : hotAct fl s a = some s') : ∃ base, Coherent fl s' base := by
  obtain ⟨base, h⟩ := h
  obtain ⟨c, reload, task⟩ := s
  cases a with
  | loadSnapshot =>
    cases reload <;> try cases hact
    simp only [hotAct, h.base_eq] at hact
    cases hact
    exact ⟨base, h.loadSnapshot⟩
  | replayWAL =>
    cases reload <;> try cases hact
    simp only [hotAct, h.replays] at hact
    cases hact
    exact ⟨base, h.replayWAL⟩
  | swapReloaded =>
    cases reload <;> cases hact
    exact ⟨base, h.swapReloaded⟩
  | appendFrames body =>
    simp only [hotAct] at hact
    split at hact <;> cases hact
    rename_i ops hbody
    exact ⟨base, h.appendFrames hbody hcareful.2 hcareful.1⟩
  | update =>
    simp only [hotAct] at hact
    split at hact <;> cases hact
    exact ⟨base, h.update⟩
  | rename reply =>
    simp only [hotAct] at hact
    split at hact
    · split at hact <;> cases hact
      · exact ⟨base, h⟩
      · rename_i data t hfetch
        exact ⟨t, h.rename hfetch⟩
    · cases hact
  | removeWAL =>
    cases task <;> cases hact
    exact ⟨base, h.removeWAL⟩
  | swapDownloaded =>
    obtain rfl := Reload.eq_idle hcareful
    cases task <;> cases hact
    exact ⟨base, h.swapDownloaded⟩

theorem careful_reload_serves (fl : Flate) (c : Client) (hstart : localTree fl c.snap c.wal = .ok c.tree)
    (actions : List HotAction) (s : Hot) (hrun : Guarded.run (hotAct fl) (.start c) actions = some s)
    (hcareful : Guarded.Meets (hotAct fl) CarefulHot (.start c) actions) (hdone : s.finished = true) :
    localTree fl s.client.snap s.client.wal = .ok s.client.tree := by
  have hinv : ∃ base, Coherent fl s base :=
    Guarded.invariant_run (hotAct fl) (fun _ _ _ => Coherent.step) (coherent_start hstart) hrun hcareful
  obtain ⟨base, h⟩ := hinv
  exact h.serves hdone

theorem careful_reload_serves_frame :
    let records : RRSets := [⟨[[1, 2, 3, 4]], 300, 1, classIN⟩]
    let actions : List HotAction :=
      [.loadSnapshot, .appendFrames (encodeOp (.upsert [0x61] records)), .replayWAL, .swapReloaded, .update]
    ∃ s, Guarded.run (hotAct .none) (.start emptyReplica) actions = some s ∧
      s.client.tree.get [0x61] = some records ∧ localTree .none s.client.snap s.client.wal = .ok s.client.tree := by
  intro records actions
  have hrun : ∃ s, Guarded.run (hotAct .none) (.start emptyReplica) actions = some s ∧
      s.finished = true ∧ s.client.tree.get [0x61] = some records :=
    Guarded.run_some (hotAct .none) (by decide +kernel)
  obtain ⟨s, hs, hdone, hget⟩ := hrun
  have hmeets : Guarded.Meets (hotAct .none) CarefulHot (.start emptyReplica) actions := by decide +kernel
  exact ⟨s, hs, hget, careful_reload_serves .none emptyReplica emptyReplica_serves actions s hs hmeets hdone⟩

theorem reload_loses_frame :
    let records : RRSets := [⟨[[1, 2, 3, 4]], 300, 1, classIN⟩]
    let actions : List HotAction :=
      [.loadSnapshot, .replayWAL, .appendFrames (encodeOp (.upsert [0x61] records)), .update, .swapReloaded]
    localTree .none emptyReplica.snap emptyReplica.wal = .ok emptyReplica.tree ∧
      ∃ s, Guarded.run (hotAct .none) (.start emptyReplica) actions = some s ∧ s.finished = true ∧
        s.client.tree.get [0x61] = none ∧
        (localTree .none s.client.snap s.client.wal).toOption.map (fun t => t.get [0x61]) = some (some records) := by
  intro records actions
  refine ⟨emptyReplica_serves, ?_⟩
  exact Guarded.run_some (hotAct .none) (by decide +kernel)

end Kdns.Cluster
