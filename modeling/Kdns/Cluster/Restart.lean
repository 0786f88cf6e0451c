import Kdns.Cluster.Resync
import Kdns.Lib.Guarded

namespace Kdns.Cluster

open ByteStream Dns Codec Radix Wal Snapshot Storage

def downloadScript (fl : Flate) (reply : Option Reply) : List FileOp :=
  match fetchSnapshot fl reply with
  | .ok (data, _) => [.createTemp .client, .writeTemp .client data, .renameTemp .client data, .removeWAL]
  | .error (.copyBody _) => [.createTemp .client, .removeTemp .client]
  | .error .checksumMismatch => [.createTemp .client, .removeTemp .client]
  | .error (.load _) => [.createTemp .client, .removeTemp .client]
  | .error _ => []

def reachedResync : ℕ → ResyncPoint
  | 0 => .start
  | 1 => .temporary 0
  | 2 => .synced
  | 3 => .renamed
  | _ => .removed

theorem downloadScript_take {fl : Flate} {reply : Option Reply} {data : Bytes} {t : Tree}
    (h : fetchSnapshot fl reply = .ok (data, t)) (c : Client) (k : ℕ) :
    (Dir.execAll ⟨c.snap, c.wal, none, none⟩ ((downloadScript fl reply).take k)).disk =
      resyncDisk c data (reachedResync k) := by
  rw [downloadScript, h]
  rcases k with _ | _ | _ | _ | k <;>
    simp [reachedResync, Dir.execAll, Dir.exec, Dir.setTemp, Dir.temp, Dir.disk, resyncDisk]

def streamScript (reads : List Bytes) : List FileOp := .openWAL :: reads.map .appendWAL

inductive Process where
  | stopped
  | opening (ops : List FileOp)
  | running (store client : List FileOp)

structure Site where
  dir : Dir
  history : List FileOp
  process : Process

def Site.empty : Site := ⟨.empty, [], .stopped⟩

def Site.exec (s : Site) (op : FileOp) (p : Process) : Site := ⟨s.dir.exec op, s.history ++ [op], p⟩

inductive SiteAction where
  | openStore
  | openStep
  | serve
  | storeStep
  | clientStep
  | commit (writes : List Bytes)
  | compact (tree : Tree) (pending : Bytes)
  | reloadState (pending : Bytes)
  | downloadSnapshot (reply : Option Reply)
  | stream (reads : List Bytes)
  | close (pending : Bytes)
  | stop

/-- The tree a compaction saves and the bytes that reach the log are left open: only which files exist is traced. -/
def siteAct (fl : Flate) (opts : Options) (s : Site) (a : SiteAction) : Option Site :=
  match a, s.process with
  | .openStore, .stopped =>
    match openStore fl opts [] s.dir.disk with
    | .error _ => some (s.exec .cleanStaleTemp .stopped)
    | .ok st => some { s with process := .opening (openScript s.dir st) }
  | .openStep, .opening (op :: ops) => some (s.exec op (.opening ops))
  | .serve, .opening [] => some { s with process := .running [] [] }
  | .storeStep, .running (op :: ops) client => some (s.exec op (.running ops client))
  | .clientStep, .running store (op :: ops) => some (s.exec op (.running store ops))
  | .commit writes, .running [] client => some { s with process := .running (writes.map .appendWAL) client }
  | .compact tree pending, .running [] client =>
    some { s with process := .running (checkpointScript fl tree pending) client }
  | .reloadState pending, .running [] client =>
    some { s with process := .running (reloadScript fl opts pending) client }
  | .downloadSnapshot reply, .running store [] =>
    if opts.isReplica then some { s with process := .running store (downloadScript fl reply) } else none
  | .stream reads, .running store [] =>
    if opts.isReplica ∧ s.dir.snap.isSome then some { s with process := .running store (streamScript reads) } else none
  | .close pending, .running [] _ => some (s.exec (.appendWAL pending) .stopped)
  | .stop, _ => some { s with process := .stopped }
  | _, _ => none

def waits (opts : Options) : Bool := opts.isReplica && opts.zoneFile.isNone

def Safe (waits : Bool) : Bool → List FileOp → Prop
  | _, [] => True
  | snap, op :: ops =>
    ((op.opensWAL = true ∧ waits = false) ∨ op = .removeWAL → snap = true) ∧ Safe waits (snap || op.installs) ops

section Safe

variable {fl : Flate} {opts : Options} {d : Dir} {t : Tree} {w : Bool} {ops : List FileOp}

theorem safe_append {snap : Bool} {xs ys : List FileOp} (hx : Safe w snap xs)
    (hy : Safe w (snap || xs.any FileOp.installs) ys) : Safe w snap (xs ++ ys) := by
  induction xs generalizing snap with
  | nil => simpa using hy
  | cons op ops ih =>
    refine ⟨hx.1, ih hx.2 ?_⟩
    rw [List.any_cons, ← Bool.or_assoc] at hy
    exact hy

theorem safe_mono {snap snap' : Bool} (h : Safe w snap ops) (hle : snap = true → snap' = true) : Safe w snap' ops := by
  induction ops generalizing snap snap' with
  | nil => trivial
  | cons op ops ih =>
    refine ⟨fun hop => hle (h.1 hop), ih h.2 ?_⟩
    intro hor
    rw [Bool.or_eq_true] at hor ⊢
    exact hor.imp_left hle

theorem safe_quiet (h : ∀ op ∈ ops, op.opensWAL = false ∧ op ≠ .removeWAL) (w snap : Bool) : Safe w snap ops := by
  induction ops generalizing snap with
  | nil => trivial
  | cons op ops ih =>
    obtain ⟨hopen, hremove⟩ := h op List.mem_cons_self
    refine ⟨?_, ih (fun x hx => h x (List.mem_cons_of_mem _ hx)) _⟩
    rintro (⟨hop, -⟩ | hop)
    · rw [hopen] at hop
      cases hop
    · exact absurd hop hremove

theorem safe_appends (w snap : Bool) (writes : List Bytes) : Safe w snap (writes.map .appendWAL) := by
  apply safe_quiet
  intro op hop
  obtain ⟨b, -, rfl⟩ := List.mem_map.mp hop
  simp [FileOp.opensWAL]

theorem safe_saveScript (w snap : Bool) (data : Bytes) (h : Safe w true ops) :
    Safe w snap (saveScript data ++ ops) := by
  apply safe_append
  · apply safe_quiet
    simp [saveScript, FileOp.opensWAL]
  · simpa [saveScript, FileOp.installs] using h

theorem safe_checkpointScript (fl : Flate) (w snap : Bool) (t : Tree) (pending : Bytes) :
    Safe w snap (checkpointScript fl t pending) := by
  unfold checkpointScript
  split
  · apply safe_quiet
    simp [FileOp.opensWAL]
  · apply safe_saveScript
    simp [Safe]

theorem safe_reloadScript (fl : Flate) (w snap : Bool) (opts : Options) (pending : Bytes) :
    Safe w snap (reloadScript fl opts pending) := by
  unfold reloadScript
  split
  · exact safe_appends w snap [pending]
  · apply safe_checkpointScript

theorem safe_downloadScript (fl : Flate) (w snap : Bool) (reply : Option Reply) :
    Safe w snap (downloadScript fl reply) := by
  unfold downloadScript
  split
  · simp [Safe, FileOp.opensWAL, FileOp.installs]
  · exact safe_quiet (by simp [FileOp.opensWAL]) w snap
  · exact safe_quiet (by simp [FileOp.opensWAL]) w snap
  · exact safe_quiet (by simp [FileOp.opensWAL]) w snap
  · trivial

theorem bootstrap_waits (h : bootstrap fl opts = .ok (t, none)) : waits opts = true := by
  have hsaved : ∀ u, (saveSnapshotFromTree fl u).map (fun bs => (u, some bs)) ≠ .ok (t, none) := by
    intro u hu
    cases hs : saveSnapshotFromTree fl u <;> rw [hs] at hu <;> cases hu
  unfold bootstrap at h
  unfold waits
  split at h
  · exact absurd h (hsaved _)
  · rename_i hzone
    split_ifs at h with hrep
    · rw [hrep, hzone]
      rfl
    · exact absurd h (hsaved _)

theorem safe_openScript {faults : List (Option ℕ)} {s : Store}
    (h : openStore fl opts faults d.disk = .ok s) : Safe (waits opts) d.snap.isSome (openScript d s) := by
  obtain ⟨snap, wal, storeTemp, clientTemp⟩ := d
  rcases openStore_ok h with ⟨rfl, rfl, ⟨t, _ | data⟩, hb, rfl⟩ | ⟨snap, base, t, rfl, -, -, rfl⟩
  · simp [openScript, Safe, FileOp.opensWAL, bootstrap_waits hb]
  · refine ⟨by simp [FileOp.opensWAL], safe_saveScript _ _ data ?_⟩
    simp [Safe]
  · simp [openScript, Safe, FileOp.opensWAL]

end Safe

structure Traced (w : Bool) (d : Dir) (history : List FileOp) : Prop where
  snap_eq : d.snap.isSome = history.any FileOp.installs
  wal_eq : d.snap.isSome = false → d.wal.isSome = history.any FileOp.opensWAL
  paired : w = false → d.wal.isSome = true → d.snap.isSome = true

theorem Traced.exec {w : Bool} {d : Dir} {op : FileOp} {history : List FileOp} (h : Traced w d history)
    (hop : (op.opensWAL = true ∧ w = false) ∨ op = .removeWAL → d.snap.isSome = true) :
    Traced w (d.exec op) (history ++ [op]) := by
  have hsnap := exec_snap d op
  constructor
  · rw [hsnap, h.snap_eq]
    simp
  · intro hnone
    rw [hsnap, Bool.or_eq_false_iff] at hnone
    have hkeep : op ≠ .removeWAL := by
      intro he
      rw [hop (.inr he)] at hnone
      cases hnone.1
    rw [exec_wal d hkeep, h.wal_eq hnone.1]
    simp
  · intro hw hwal
    rw [hsnap, Bool.or_eq_true]
    left
    by_cases hremove : op = .removeWAL
    · exact hop (.inr hremove)
    · rw [exec_wal d hremove, Bool.or_eq_true] at hwal
      rcases hwal with hwal | hopen
      · exact h.paired hw hwal
      · exact hop (.inl ⟨hopen, hw⟩)

def Process.Safe (w snap : Bool) : Process → Prop
  | .stopped => True
  | .opening ops => Cluster.Safe w snap ops
  | .running store client => Cluster.Safe w snap store ∧ Cluster.Safe w snap client

structure Site.Sound (w : Bool) (s : Site) : Prop where
  traced : Traced w s.dir s.history
  safe : s.process.Safe w s.dir.snap.isSome

section Site

variable {fl : Flate} {opts : Options} {s : Site}

theorem Site.Sound.exec {w : Bool} {op : FileOp} {ops : List FileOp} (h : Traced w s.dir s.history)
    (hop : Cluster.Safe w s.dir.snap.isSome (op :: ops)) (p : Process)
    (hp : ∀ snap, Cluster.Safe w snap ops → (s.dir.snap.isSome = true → snap = true) → p.Safe w snap) :
    (s.exec op p).Sound w := by
  have hsnap := exec_snap s.dir op
  refine ⟨h.exec hop.1, hp _ ?_ ?_⟩
  · simp only [Site.exec]
    rw [hsnap]
    exact hop.2
  · intro hs
    simp only [Site.exec]
    rw [hsnap, hs, Bool.true_or]

theorem Site.Sound.step {s' : Site} {a : SiteAction} (h : s.Sound (waits opts))
    (hact : siteAct fl opts s a = some s') : s'.Sound (waits opts) := by
  obtain ⟨ht, hp⟩ := h
  obtain ⟨d, history, process⟩ := s
  cases a with
  | openStore =>
    cases process <;> try cases hact
    simp only [siteAct] at hact
    split at hact <;> cases hact
    · have hclean : Cluster.Safe (waits opts) d.snap.isSome [.cleanStaleTemp] :=
        safe_quiet (by simp [FileOp.opensWAL]) _ _
      exact .exec ht hclean _ fun _ _ _ => trivial
    · rename_i st hst
      exact ⟨ht, safe_openScript hst⟩
  | openStep =>
    rcases process with _ | (_ | ⟨op, ops⟩) | _ <;> cases hact
    exact .exec ht hp _ fun _ hops _ => hops
  | serve =>
    rcases process with _ | (_ | ⟨op, ops⟩) | _ <;> cases hact
    exact ⟨ht, trivial, trivial⟩
  | storeStep =>
    rcases process with _ | _ | ⟨_ | ⟨op, ops⟩, client⟩ <;> cases hact
    exact .exec ht hp.1 _ fun _ hops hle => ⟨hops, safe_mono hp.2 hle⟩
  | clientStep =>
    rcases process with _ | _ | ⟨store, _ | ⟨op, ops⟩⟩ <;> cases hact
    exact .exec ht hp.2 _ fun _ hops hle => ⟨safe_mono hp.1 hle, hops⟩
  | commit writes =>
    rcases process with _ | _ | ⟨_ | ⟨op, ops⟩, client⟩ <;> cases hact
    exact ⟨ht, safe_appends _ _ writes, hp.2⟩
  | compact tree pending =>
    rcases process with _ | _ | ⟨_ | ⟨op, ops⟩, client⟩ <;> cases hact
    exact ⟨ht, safe_checkpointScript fl _ _ tree pending, hp.2⟩
  | reloadState pending =>
    rcases process with _ | _ | ⟨_ | ⟨op, ops⟩, client⟩ <;> cases hact
    exact ⟨ht, safe_reloadScript fl _ _ opts pending, hp.2⟩
  | downloadSnapshot reply =>
    rcases process with _ | _ | ⟨store, _ | ⟨op, ops⟩⟩ <;> try cases hact
    simp only [siteAct] at hact
    split_ifs at hact
    cases hact
    exact ⟨ht, hp.1, safe_downloadScript fl _ _ reply⟩
  | stream reads =>
    rcases process with _ | _ | ⟨store, _ | ⟨op, ops⟩⟩ <;> try cases hact
    simp only [siteAct] at hact
    split_ifs at hact with hsnap
    cases hact
    exact ⟨ht, hp.1, fun _ => hsnap.2, safe_appends _ _ reads⟩
  | close pending =>
    rcases process with _ | _ | ⟨_ | ⟨op, ops⟩, client⟩ <;> cases hact
    exact .exec ht (safe_appends _ _ [pending]) _ fun _ _ _ => trivial
  | stop =>
    cases process <;> cases hact <;> exact ⟨ht, trivial⟩

theorem Site.Sound.run {actions : List SiteAction}
    (hrun : Guarded.run (siteAct fl opts) .empty actions = some s) : s.Sound (waits opts) := by
  apply Guarded.invariant (siteAct fl opts) (fun _ _ _ => Site.Sound.step) _ hrun
  exact ⟨⟨rfl, fun _ => rfl, fun _ h => by cases h⟩, trivial⟩

end Site

theorem bootstrap_not_unclean (fl : Flate) (opts : Options) : bootstrap fl opts ≠ .error .uncleanState := by
  have hsaved : ∀ t, (saveSnapshotFromTree fl t).map (fun bs => (t, some bs)) ≠ .error .uncleanState := by
    intro t ht
    unfold saveSnapshotFromTree at ht
    cases hs : save fl t <;> rw [hs] at ht <;> cases ht
  unfold bootstrap
  split
  · apply hsaved
  · split_ifs
    · intro h
      cases h
    · apply hsaved

theorem recovery_not_unclean (fl : Flate) (data : Bytes) (wal : Option Bytes) (t : Tree) :
    loadSnapshotIntoTree fl data ≠ .error .uncleanState ∧ replayWALIntoTree wal t ≠ .error .uncleanState := by
  constructor <;> intro h
  · unfold loadSnapshotIntoTree at h
    split at h <;> cases h
  · unfold replayWALIntoTree at h
    split at h
    · cases h
    · split at h <;> cases h

theorem openStore_unclean_iff (fl : Flate) (opts : Options) (faults : List (Option ℕ)) (disk : Disk) :
    openStore fl opts faults disk = .error .uncleanState ↔ disk.snap.isSome = false ∧ disk.wal.isSome = true := by
  obtain ⟨snap, wal, tmp⟩ := disk
  cases snap with
  | none =>
    cases wal with
    | some data => exact iff_of_true rfl ⟨rfl, rfl⟩
    | none =>
      apply iff_of_false _ (fun h => by cases h.2)
      intro h
      simp only [openStore, Option.isSome_none, Bool.false_eq_true, if_false] at h
      cases hb : bootstrap fl opts with
      | ok r => rw [hb] at h; cases h
      | error e =>
        rw [hb] at h
        cases h
        exact bootstrap_not_unclean fl opts hb
  | some data =>
    apply iff_of_false _ (fun h => by cases h.1)
    intro h
    simp only [openStore, bind, Except.bind] at h
    split at h
    · rename_i e hload
      cases h
      exact (recovery_not_unclean fl data wal .new).1 hload
    · rename_i t hload
      split at h
      · rename_i e hreplay
        cases h
        exact (recovery_not_unclean fl data wal t).2 hreplay
      · cases h

theorem restart_iff (fl : Flate) (opts : Options) (actions : List SiteAction) (s : Site)
    (hrun : Guarded.run (siteAct fl opts) .empty actions = some s) (faults : List (Option ℕ)) :
    openStore fl opts faults s.dir.disk ≠ .error .uncleanState ↔
      (waits opts = true → s.history.any FileOp.opensWAL = true → s.history.any FileOp.installs = true) := by
  have h := (Site.Sound.run hrun).traced
  rw [ne_eq, openStore_unclean_iff, Dir.disk, not_and, ← h.snap_eq]
  constructor
  · intro hclean _ hopened
    by_contra hnone
    rw [Bool.not_eq_true] at hnone
    exact hclean hnone ((h.wal_eq hnone).trans hopened)
  · intro himp hnone hwal
    cases hw : waits opts with
    | false =>
      rw [h.paired hw hwal] at hnone
      cases hnone
    | true =>
      rw [himp hw ((h.wal_eq hnone).symm.trans hwal)] at hnone
      cases hnone

theorem restart_iff_downloaded :
    let snap := emptyStore.snap.getD []
    let reply : Reply := ⟨statusOK, checksumHeader snap, snap, .eof⟩
    let actions : List SiteAction := [.openStore, .openStep, .openStep, .serve, .downloadSnapshot (some reply),
      .clientStep, .clientStep, .clientStep, .stop]
    ∃ s, Guarded.run (siteAct .none ⟨none, true⟩) .empty actions = some s ∧ s.dir.wal.isSome = true ∧
      openStore .none ⟨none, true⟩ [] s.dir.disk ≠ .error .uncleanState := by
  intro snap reply actions
  have hrun : ∃ s, Guarded.run (siteAct .none ⟨none, true⟩) .empty actions = some s ∧
      s.dir.wal.isSome = true ∧ s.history.any FileOp.installs = true :=
    Guarded.run_some (siteAct .none ⟨none, true⟩) (by decide +kernel)
  obtain ⟨s, hs, hwal, hinstalled⟩ := hrun
  refine ⟨s, hs, hwal, ?_⟩
  apply (restart_iff .none ⟨none, true⟩ actions s hs []).mpr
  intro _ _
  exact hinstalled

/-- A replica that is closed before its first download cannot be opened again. -/
theorem replica_restart_unclean :
    let actions : List SiteAction := [.openStore, .openStep, .openStep, .serve, .close []]
    ∃ s, Guarded.run (siteAct .none ⟨none, true⟩) .empty actions = some s ∧
      openStore .none ⟨none, true⟩ [] s.dir.disk = .error .uncleanState := by
  intro actions
  have hrun : ∃ s, Guarded.run (siteAct .none ⟨none, true⟩) .empty actions = some s ∧
      s.dir.snap.isSome = false ∧ s.dir.wal.isSome = true :=
    Guarded.run_some (siteAct .none ⟨none, true⟩) (by decide +kernel)
  obtain ⟨s, hs, hfiles⟩ := hrun
  refine ⟨s, hs, ?_⟩
  exact (openStore_unclean_iff .none ⟨none, true⟩ [] s.dir.disk).mpr hfiles

end Kdns.Cluster
