import Kdns.Cluster.Replica
import Kdns.Store.Crash

namespace Kdns.Cluster

open ByteStream Dns Codec Radix Wal Snapshot Storage

inductive ResyncPoint where
  | start
  | temporary (written : ℕ)
  | synced
  | renamed
  | removed
  | swapped
  deriving DecidableEq, Repr

def resyncDisk (c : Client) (data : Bytes) : ResyncPoint → Disk
  | .start => ⟨c.snap, c.wal, none⟩
  | .temporary written => ⟨c.snap, c.wal, some (data.take written)⟩
  | .synced => ⟨c.snap, c.wal, some data⟩
  | .renamed => ⟨some data, c.wal, none⟩
  | .removed => ⟨some data, none, none⟩
  | .swapped => ⟨some data, none, none⟩

def localTree (fl : Flate) (snap wal : Option Bytes) : Except OpenError Tree :=
  match baseTree fl snap with
  | .error e => .error e
  | .ok base => replayWALIntoTree wal base

def walOps (wal : Option Bytes) : List Op := (replay (wal.getD []) .eof).1

def walNames (wal : Option Bytes) : List (List Bytes) := ((walOps wal).map writeOf).map Prod.fst

variable {fl : Flate} {snap wal : Option Bytes} {old t : Tree}

theorem downloadSnapshot_disk (c : Client) {reply : Option Reply} {data : Bytes}
    (h : fetchSnapshot fl reply = .ok (data, t)) :
    resyncDisk (downloadSnapshot fl c reply).1 data .start = resyncDisk c data .swapped := by
  rw [downloadSnapshot, h]
  rfl

theorem replayWALIntoTree_over {base : Tree} (h : replayWALIntoTree wal base = .ok old) :
    old = applyOps base (walOps wal) ∧ ∀ t, replayWALIntoTree wal t = .ok (applyOps t (walOps wal)) := by
  cases wal with
  | none =>
    cases h
    exact ⟨rfl, fun t => rfl⟩
  | some data =>
    obtain ⟨ops, e, hr, he, rfl⟩ := replayWALIntoTree_cases h
    have hops : walOps (some data) = ops := congrArg Prod.fst hr
    rw [hops]
    exact ⟨rfl, replayWALIntoTree_ok hr he⟩

theorem localTree_cases (h : localTree fl snap wal = .ok old) :
    ∃ base, baseTree fl snap = .ok base ∧ base.Valid ∧ old = applyOps base (walOps wal) ∧
      ∀ t, replayWALIntoTree wal t = .ok (applyOps t (walOps wal)) := by
  unfold localTree at h
  split at h
  · cases h
  · rename_i base hbase
    refine ⟨base, hbase, ?_, replayWALIntoTree_over h⟩
    cases snap with
    | none =>
      cases hbase
      exact Tree.valid_new
    | some bs => exact (loadSnapshotIntoTree_sound hbase).valid

theorem open_local (h : localTree fl snap wal = .ok old)
    (hclean : snap = none → wal = none) (tmp : Option Bytes) (faults : List (Option ℕ)) :
    ∃ s, openStore fl ⟨none, true⟩ faults ⟨snap, wal, tmp⟩ = .ok s ∧ s.session.tree = old := by
  obtain ⟨base, hbase, -, rfl, hwal⟩ := localTree_cases h
  cases snap with
  | none =>
    obtain rfl := hclean rfl
    cases hbase
    exact ⟨_, rfl, rfl⟩
  | some bs => exact ⟨_, openStore_some fl ⟨none, true⟩ faults hbase (hwal base), rfl⟩

theorem open_unclean (fl : Flate) (opts : Options) (faults : List (Option ℕ)) (wal : Bytes) (tmp : Option Bytes) :
    openStore fl opts faults ⟨none, some wal, tmp⟩ = .error .uncleanState := rfl

theorem resync_crash_iff (fl : Flate) (c : Client) (old : Tree) (hold : localTree fl c.snap c.wal = .ok old)
    (reply : Option Reply) (data : Bytes) (t : Tree) (hfetch : fetchSnapshot fl reply = .ok (data, t))
    (faults : List (Option ℕ)) :
    (∀ p, ∃ s, openStore fl ⟨none, true⟩ faults (resyncDisk c data p) = .ok s ∧
      (s.session.tree.contents = old.contents ∨ s.session.tree.contents = t.contents)) ↔
    (c.snap = none → c.wal = none) ∧
      ((∀ k ∈ walNames c.wal, t.contents k = old.contents k) ∨
        ∀ k ∉ walNames c.wal, t.contents k = old.contents k) := by
  have hload := fetchSnapshot_load hfetch
  obtain ⟨base, -, hbase, rfl, hwal⟩ := localTree_cases hold
  have hrenamed : openStore fl ⟨none, true⟩ faults (resyncDisk c data .renamed) = _ :=
    openStore_some fl ⟨none, true⟩ faults hload (hwal t)
  have hremoved : openStore fl ⟨none, true⟩ faults (resyncDisk c data .removed) = _ :=
    openStore_some fl ⟨none, true⟩ faults hload rfl
  rw [walNames, ← replayed_over_iff hbase (loadSnapshotIntoTree_sound hload).valid]
  constructor
  · intro hall
    constructor
    · intro hsnap
      obtain ⟨s, hs, -⟩ := hall .start
      rw [resyncDisk, hsnap] at hs
      cases hw : c.wal with
      | none => rfl
      | some wal =>
        rw [hw, open_unclean] at hs
        cases hs
    · obtain ⟨s, hs, hcase⟩ := hall .renamed
      obtain rfl := Except.ok.inj (hrenamed.symm.trans hs)
      exact hcase
  · rintro ⟨hclean, hcase⟩ p
    have hbefore : ∀ tmp, ∃ s, openStore fl ⟨none, true⟩ faults ⟨c.snap, c.wal, tmp⟩ = .ok s ∧
        (s.session.tree.contents = (applyOps base (walOps c.wal)).contents ∨ s.session.tree.contents = t.contents) := by
      intro tmp
      obtain ⟨s, hs, ht⟩ := open_local hold hclean tmp faults
      exact ⟨s, hs, .inl (by rw [ht])⟩
    cases p with
    | start => apply hbefore
    | temporary written => apply hbefore
    | synced => apply hbefore
    | renamed => exact ⟨_, hrenamed, hcase⟩
    | removed => exact ⟨_, hremoved, .inr rfl⟩
    | swapped => exact ⟨_, hremoved, .inr rfl⟩

theorem checksumDiffers_own (data : Bytes) : checksumDiffers data (checksumHeader data) = false := by
  unfold checksumDiffers checksumHeader
  cases readChecksum data with
  | none => rfl
  | some n => simp

theorem fetchSnapshot_saved (ht : Sound t) {bs : Bytes}
    (hs : saveSnapshotFromTree fl t = .ok bs) (hlen : bs.length ≤ maxSnapshotDownloadBytes) :
    fetchSnapshot fl (some ⟨statusOK, checksumHeader bs, bs, .eof⟩) = .ok (bs, t) := by
  have hverify : verifySnapshot fl bs (checksumHeader bs) = .ok t := by
    have hload := loadSnapshotIntoTree_save ht hs
    unfold loadSnapshotIntoTree at hload
    unfold verifySnapshot
    rw [checksumDiffers_own, if_neg Bool.false_ne_true]
    rcases hl : load fl bs with ⟨es, _ | e⟩ <;> rw [hl] at hload <;> cases hload
    rfl
  have h₁ : statusOK ≠ statusTooManyRequests := by decide
  have h₂ : statusOK ≠ statusNotFound := by decide
  simp only [fetchSnapshot, if_neg h₁, if_neg h₂, ne_eq, not_true_eq_false, if_false, and_false,
    List.take_of_length_le hlen, hverify]
  rfl

def emptyReplica : Client := ⟨emptyStore.snap, some [], Tree.new⟩

theorem emptyStore_base : baseTree .none emptyStore.snap = .ok Tree.new := by
  have hsnap : emptyStore.snap = some (emptyStore.snap.getD []) := by decide +kernel
  have hempty : saveSnapshotFromTree .none Tree.new = .ok (emptyStore.snap.getD []) := by decide +kernel
  rw [hsnap, baseTree, loadSnapshotIntoTree_save sound_new hempty]

theorem emptyReplica_serves : localTree .none emptyReplica.snap emptyReplica.wal = .ok emptyReplica.tree := by
  rw [localTree, emptyReplica, emptyStore_base]
  rfl

/-- The local log writes `a`, which the downloaded snapshot repeats; `b` is new. -/
theorem resync_crash_iff_repeated :
    let ra : RRSets := [⟨[[1, 2, 3, 4]], 300, 1, classIN⟩]
    let old := Tree.new.upsert [0x61] ra
    let c : Client := ⟨emptyStore.snap, some (encodeOp (.upsert [0x61] ra)), old⟩
    let t := Tree.new.upsertAll [([0x61], ra), ([0x62], [⟨[[5, 6, 7, 8]], 300, 1, classIN⟩])]
    let data := (saveSnapshotFromTree .none t).toOption.getD []
    walNames c.wal = [[[0x61]]] ∧
      ∀ p, ∃ s, openStore .none ⟨none, true⟩ [] (resyncDisk c data p) = .ok s ∧
        (s.session.tree.contents = old.contents ∨ s.session.tree.contents = t.contents) := by
  intro ra old c t data
  have hreplay : replay (encodeOp (.upsert [0x61] ra)) .eof = ([.upsert [0x61] ra], none) := by decide +kernel
  have hold : localTree .none c.snap c.wal = .ok old := by
    rw [localTree, emptyStore_base]
    exact replayWALIntoTree_ok hreplay (.inl rfl) Tree.new
  have hs : saveSnapshotFromTree .none t = .ok data := by decide +kernel
  have hfetch := fetchSnapshot_saved (sound_upsertAll (by decide)) hs (by decide +kernel)
  have hnames : walNames c.wal = [[[0x61]]] := by decide +kernel
  have hsame : t.contents [[0x61]] = old.contents [[0x61]] := by decide +kernel
  have hsnap : c.snap ≠ none := by decide +kernel
  refine ⟨hnames, (resync_crash_iff .none c old hold _ data t hfetch []).mpr ⟨fun h => absurd h hsnap, .inl ?_⟩⟩
  simp [hnames, hsame]

/-- The local log has only `a`, the downloaded snapshot only `b`: a stop after the rename recovers both. -/
theorem resync_crash_mixture :
    let ra : RRSets := [⟨[[1, 2, 3, 4]], 300, 1, classIN⟩]
    let rb : RRSets := [⟨[[5, 6, 7, 8]], 300, 1, classIN⟩]
    let c : Client := ⟨emptyStore.snap, some (encodeOp (.upsert [0x61] ra)), Tree.new.upsert [0x61] ra⟩
    let data := (saveSnapshotFromTree .none (Tree.new.upsert [0x62] rb)).toOption.getD []
    ((fetchSnapshot .none (some ⟨200, checksumHeader data, data, .eof⟩)).toOption.map fun r =>
        (r.1, r.2.get [0x61])) = some (data, none) ∧
      ((localTree .none c.snap c.wal).toOption.map fun old => old.get [0x62]) = some none ∧
      ((openStore .none ⟨none, true⟩ [] (resyncDisk c data .renamed)).toOption.map fun s =>
        (s.session.tree.get [0x61], s.session.tree.get [0x62])) = some (some ra, some rb) := by
  decide +kernel

end Kdns.Cluster
