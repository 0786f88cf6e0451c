import Kdns.Cluster.Hub
import Kdns.Lib.Guarded

namespace Kdns.Cluster

open ByteStream BufferedFile Dns Codec Radix Wal Snapshot Storage List

variable {fl : Flate} {p : Primary} {c : Client} {conn conn' : Conn} {s s' : Stream} {wal : Bytes} {a : Action}
  {σ σ' : System}

theorem ingest_log (c : Client) (body : Bytes) (tail : ReadError) : (ingest c body tail).1.log = c.log ++ body := rfl

def Conn.origin (c : Client) : Conn → Client
  | .streaming _ start _ => start
  | _ => c

def Conn.Aligned (c : Client) : Conn → Prop
  | .requested offset => offset = c.log.length
  | .started _ offset => offset = c.log.length
  | .opened _ offset => offset = c.log.length
  | .answered s _ => s.offset = c.log.length + s.pipe.length
  | .streaming s start got => s.offset = c.log.length + s.pipe.length ∧ c = (ingest start got .eof).1
  | _ => True

theorem Conn.Aligned.origin_snap (h : conn.Aligned c) : (conn.origin c).snap = c.snap := by
  cases conn with
  | streaming s start got =>
    rw [h.2]
    rfl
  | _ => rfl

theorem Conn.Aligned.origin_log (h : conn.Aligned c) (h0 : c.log = []) : (conn.origin c).log = [] := by
  cases conn with
  | streaming s start got =>
    rw [h.2, ingest_log] at h0
    exact (append_eq_nil_iff.mp h0).1
  | _ => exact h0

structure Following (fl : Flate) (σ : System) : Prop where
  before : σ.client.log ++ σ.conn.pipe <+: σ.primary.wal
  serves : Serves fl (σ.conn.origin σ.client)
  boundary : AtBoundary (σ.conn.origin σ.client)

structure Inv (fl : Flate) (σ : System) : Prop where
  recovers : ∃ snap base ops, Recoverable fl σ.primary.store snap base ops none ∧
    (σ.primary.phase = .renamed → base = σ.primary.store.session.tree)
  aligned : σ.conn.Aligned σ.client
  fresh : ∀ data, (σ.conn.origin σ.client).snap = some data → (σ.conn.origin σ.client).log = [] →
    loadSnapshotIntoTree fl data = .ok (σ.conn.origin σ.client).tree
  following : σ.primary.phase ≠ .renamed → σ.client.snap = σ.primary.store.snap → Following fl σ

def Unstreamed (σ : System) : Prop :=
  σ.client.snap = σ.primary.store.snap → σ.client.log = [] ∧ σ.conn.pipe = []

theorem inv_init {s : Store} {snap : Bytes} {base : Tree} {ops : List Op}
    (h : Recoverable fl s snap base ops none) : Inv fl (.init s) := by
  refine ⟨⟨snap, base, ops, h, fun hp => by cases hp⟩, trivial, fun data hd => (by cases hd), fun _ hs => ?_⟩
  rw [show (System.init s).primary.store.snap = some snap from h.snap_eq] at hs
  cases hs

section Steps

variable (h : Inv fl σ)

include h

theorem Inv.commit {batch : List Op} (hidle : σ.primary.phase = .idle) (hwf : ∀ op ∈ batch, WellFormed op)
    (hok : ∀ e ∈ (commitBatch σ.primary.store.session batch).2, e = none) : Inv fl { σ with primary := { σ.primary with
      store := ⟨(commitBatch σ.primary.store.session batch).1, σ.primary.store.snap⟩ } } := by
  obtain ⟨snap, base, ops, hr, -⟩ := h.recovers
  obtain ⟨-, -, -, hcontent⟩ := commitBatch_acked hr.flushed hok
  refine ⟨⟨snap, base, _, (hr.commit hwf hok).1, fun hp => ?_⟩, h.aligned, h.fresh, fun hp hs => ?_⟩
  · rw [show σ.primary.phase = .renamed from hp] at hidle
    cases hidle
  · obtain ⟨hb, hserves, hbound⟩ := h.following hp hs
    refine ⟨hb.trans ?_, hserves, hbound⟩
    rw [Primary.wal, Primary.wal, hcontent]
    apply prefix_append

theorem Inv.truncate (hphase : σ.primary.phase = .renamed) (hu : Unstreamed σ) (faults : List (Option ℕ)) :
    Inv fl { σ with primary := ⟨⟨⟨σ.primary.store.session.tree, BufWriter.new ⟨[], faults⟩⟩, σ.primary.store.snap⟩,
      .truncated, σ.primary.gen⟩ } := by
  obtain ⟨snap, base, ops, hr, hbase⟩ := h.recovers
  obtain rfl := hbase hphase
  have hnew : Recoverable fl ⟨⟨σ.primary.store.session.tree, BufWriter.new ⟨[], faults⟩⟩, σ.primary.store.snap⟩ snap
      σ.primary.store.session.tree [] none :=
    ⟨hr.sound, ⟨rfl, rfl⟩, hr.snap_eq, hr.load_eq, rfl, .inl rfl, rfl⟩
  refine ⟨⟨snap, _, _, hnew, fun hp => by cases hp⟩, h.aligned, h.fresh, fun _ hs => ?_⟩
  obtain ⟨hlog, hpipe⟩ := hu hs
  have hlog' := h.aligned.origin_log hlog
  have hsnap : (σ.conn.origin σ.client).snap = some snap := by
    rw [h.aligned.origin_snap]
    exact hs.trans hr.snap_eq
  refine ⟨by simp [hlog, hpipe], ⟨(σ.conn.origin σ.client).tree, ?_, ?_⟩, ?_⟩
  · dsimp only
    rw [hsnap]
    exact h.fresh snap hsnap hlog'
  · dsimp only
    rw [hlog']
    rfl
  · dsimp only
    rw [AtBoundary, hlog']
    rfl

theorem Inv.primary (ha : σ.primary.act fl a = some p) (hu : a = .truncateWAL → Unstreamed σ) :
    Inv fl { σ with primary := p } := by
  cases a with
  | commit batch =>
    simp only [Primary.act] at ha
    split_ifs at ha with hc
    cases ha
    exact h.commit hc.1 hc.2.1 hc.2.2
  | renameSnapshot =>
    obtain ⟨snap, base, ops, hr, -⟩ := h.recovers
    simp only [Primary.act] at ha
    split_ifs at ha with hc
    cases hs : saveSnapshotFromTree fl σ.primary.store.session.tree with
    | error e => rw [hs] at ha; cases ha
    | ok bs =>
      rw [hs] at ha
      cases ha
      exact ⟨⟨bs, _, ops, hr.saved hs hr.flushed rfl, fun _ => rfl⟩, h.aligned, h.fresh, fun hp => absurd rfl hp⟩
  | truncateWAL =>
    simp only [Primary.act] at ha
    split at ha
    · rename_i hphase _
      cases ha
      exact h.truncate hphase (hu rfl) _
    · cases ha
  | notifyCompaction =>
    obtain ⟨snap, base, ops, hr, -⟩ := h.recovers
    simp only [Primary.act] at ha
    split_ifs at ha with hc
    cases ha
    refine ⟨⟨snap, base, ops, hr, fun hp => by cases hp⟩, h.aligned, h.fresh, fun _ hs => ?_⟩
    obtain ⟨hb, hserves, hbound⟩ := h.following (by rw [hc]; simp) hs
    exact ⟨hb, hserves, hbound⟩
  | _ => cases ha

end Steps

theorem prefix_read {l w : Bytes} (h : l <+: w) (n : ℕ) : l ++ (w.drop l.length).take n <+: w := by
  obtain ⟨r, rfl⟩ := h
  rw [drop_left, prefix_append_right_inj]
  exact take_prefix n r

def Sends (wal : Bytes) (s s' : Stream) : Prop :=
  ∃ n, s'.offset = s.offset + ((wal.drop s.offset).take n).length ∧ s'.pipe = s.pipe ++ (wal.drop s.offset).take n

theorem check_sends {gen : ℕ} (wal : Bytes) (h : s.check gen = some s') : Sends wal s s' := by
  unfold Stream.check at h
  split_ifs at h
  cases h
  exact ⟨0, by simp, by simp⟩

theorem read_sends {n : ℕ} (h : s.read wal n = some s') : Sends wal s s' := by
  unfold Stream.read at h
  split_ifs at h
  cases h
  exact ⟨n, rfl, rfl⟩

structure Moved (wal : Bytes) (c : Client) (conn conn' : Conn) : Prop where
  aligned : conn'.Aligned c
  origin_eq : conn'.origin c = conn.origin c
  before : c.log ++ conn.pipe <+: wal → c.log ++ conn'.pipe <+: wal

theorem moved_dropped (hc : conn.origin c = c) (ha : conn'.Aligned c) (hc' : conn'.origin c = c)
    (hp : conn'.pipe = []) : Moved wal c conn conn' := by
  refine ⟨ha, hc'.trans hc.symm, fun hb => ?_⟩
  rw [hp, append_nil]
  exact (prefix_append _ _).trans hb

theorem sends_before {log : Bytes} (h : Sends wal s s') (ho : s.offset = log.length + s.pipe.length) :
    s'.offset = log.length + s'.pipe.length ∧ (log ++ s.pipe <+: wal → log ++ s'.pipe <+: wal) := by
  obtain ⟨n, ho', hp'⟩ := h
  refine ⟨by rw [ho', hp', ho, length_append]; omega, fun hb => ?_⟩
  rw [hp', ho, ← length_append, ← append_assoc]
  exact prefix_read hb n

theorem mapStream_moved {f : Stream → Option Stream} (hf : ∀ {s s'}, f s = some s' → Sends wal s s')
    (h : conn.mapStream f = some conn') (ha : conn.Aligned c) : Moved wal c conn conn' := by
  cases conn with
  | answered s header =>
    obtain ⟨s', hs, rfl⟩ := Option.map_eq_some_iff.mp h
    obtain ⟨ho, hb⟩ := sends_before (hf hs) ha
    exact ⟨ho, rfl, hb⟩
  | streaming s start got =>
    obtain ⟨s', hs, rfl⟩ := Option.map_eq_some_iff.mp h
    obtain ⟨ho, hb⟩ := sends_before (hf hs) ha.1
    exact ⟨⟨ho, ha.2⟩, rfl, hb⟩
  | _ => cases h

theorem hubAct_moved (h : hubAct p conn a = some conn') (ha : conn.Aligned c) : Moved p.wal c conn conn' := by
  unfold hubAct at h
  split at h
  · cases h
    exact ⟨ha, rfl, id⟩
  · cases h
    split_ifs
    · exact ⟨trivial, rfl, id⟩
    · exact ⟨ha, rfl, id⟩
  · cases h
    exact ⟨ha, rfl, id⟩
  · exact mapStream_moved (check_sends p.wal) h ha
  · exact mapStream_moved read_sends h ha
  · obtain ⟨data, -, rfl⟩ := Option.map_eq_some_iff.mp h
    exact ⟨trivial, rfl, id⟩
  · cases h
    exact ⟨trivial, rfl, id⟩
  · cases h

theorem Inv.moved (h : Inv fl ⟨p, conn, c⟩) (hm : Moved p.wal c conn conn') : Inv fl ⟨p, conn', c⟩ := by
  refine ⟨h.recovers, hm.aligned, ?_, fun hp hs => ?_⟩
  · simpa only [hm.origin_eq] using h.fresh
  · obtain ⟨hb, hserves, hbound⟩ := h.following hp hs
    refine ⟨hm.before hb, ?_, ?_⟩
    · simpa only [hm.origin_eq] using hserves
    · simpa only [hm.origin_eq] using hbound

theorem Inv.install (h : Inv fl ⟨p, conn, c⟩) {data : Bytes} {t : Tree}
    (hl : loadSnapshotIntoTree fl data = .ok t) : Inv fl ⟨p, .idle, ⟨some data, none, t⟩⟩ := by
  refine ⟨h.recovers, trivial, fun data' hd _ => ?_, fun _ _ => ⟨⟨p.wal, rfl⟩, ⟨t, hl, rfl⟩, rfl⟩⟩
  cases hd
  exact hl

theorem AtBoundary.ingest (h : AtBoundary c) {got : Bytes} (hg : (replay got .eof).2 = none) :
    AtBoundary (ingest c got .eof).1 := by
  have hlog : replay c.log .eof = ((replay c.log .eof).1, none) := Prod.ext rfl h
  have happ := congrArg Prod.snd (FramedLog.readAll_append frames c.log got .eof [] _ hlog)
  exact happ.trans hg

section Stream

variable {start : Client} {got header : Bytes}

theorem Inv.accept (h : Inv fl ⟨p, .answered s header, c⟩) : Inv fl ⟨p, .streaming s c [], (ingest c [] .eof).1⟩ := by
  have hlog : (Cluster.ingest c [] .eof).1.log = c.log := by rw [ingest_log, append_nil]
  refine ⟨h.recovers, ⟨?_, rfl⟩, h.fresh, fun hp hs => ?_⟩
  · rw [hlog]
    exact h.aligned
  · obtain ⟨hb, hserves, hbound⟩ := h.following hp hs
    refine ⟨?_, hserves, hbound⟩
    rw [hlog]
    exact hb

variable (h : Inv fl ⟨p, .streaming s start got, c⟩)
include h

theorem Inv.receive (n : ℕ) :
    Inv fl ⟨p, .streaming { s with pipe := s.pipe.drop n } start (got ++ s.pipe.take n),
      (ingest start (got ++ s.pipe.take n) .eof).1⟩ := by
  obtain ⟨ho, hc⟩ := h.aligned
  obtain rfl : c = (Cluster.ingest start got .eof).1 := hc
  have hall : start.log ++ (got ++ s.pipe.take n) ++ s.pipe.drop n = start.log ++ got ++ s.pipe := by
    simp only [append_assoc, take_append_drop]
  refine ⟨h.recovers, ⟨?_, rfl⟩, h.fresh, fun hp hs => ?_⟩
  · rw [ingest_log, ← length_append, hall, length_append]
    exact ho
  · obtain ⟨hb, hserves, hbound⟩ := h.following hp hs
    refine ⟨?_, hserves, hbound⟩
    exact hall ▸ hb

theorem Inv.disconnect (hg : (replay got .eof).2 = none) :
    Inv fl ⟨p, .idle, c⟩ := by
  obtain rfl : c = (Cluster.ingest start got .eof).1 := h.aligned.2
  refine ⟨h.recovers, trivial, fun data hd h0 => ?_, fun hp hs => ?_⟩
  · obtain ⟨hl, rfl⟩ := append_eq_nil_iff.mp h0
    exact h.fresh data hd hl
  · obtain ⟨hb, hserves, hbound⟩ := h.following hp hs
    refine ⟨?_, hserves.ingest hbound got .eof, hbound.ingest hg⟩
    exact (append_nil _).symm ▸ (prefix_append _ _).trans hb

end Stream

theorem Inv.client {c' : Client} (h : Inv fl ⟨p, conn, c⟩)
    (ha : clientAct fl c conn a = some (conn', c')) : Inv fl ⟨p, conn', c'⟩ := by
  unfold clientAct at ha
  split at ha
  · cases ha
    apply h.moved
    split_ifs
    · exact ⟨rfl, rfl, id⟩
    · exact ⟨trivial, rfl, id⟩
  · cases ha
    exact h.moved ⟨trivial, rfl, id⟩
  · split_ifs at ha <;> cases ha
    · exact h.moved (moved_dropped rfl trivial rfl rfl)
    · exact h.accept
  · cases ha
    apply h.receive
  · cases ha
    unfold downloadSnapshot
    split
    · exact h.moved ⟨trivial, rfl, id⟩
    · rename_i hf
      exact h.install (fetchSnapshot_load hf)
  · split_ifs at ha with hg
    cases ha
    exact h.disconnect hg
  · rename_i hns
    cases ha
    refine h.moved (moved_dropped ?_ trivial rfl rfl)
    cases conn with
    | streaming s start got => exact (hns s start got rfl).elim
    | _ => rfl
  · cases ha

def CarefulStep (fl : Flate) (σ σ' : System) : Prop :=
  ∃ a, σ.act fl a = some σ' ∧ (a = .truncateWAL → Unstreamed σ)

theorem Inv.step (h : Inv fl σ) (hs : CarefulStep fl σ σ') : Inv fl σ' := by
  obtain ⟨a, ha, hu⟩ := hs
  rcases System.act_cases ha with ⟨p, hp, rfl⟩ | ⟨conn, hc, rfl⟩ | ⟨conn, c, hc, rfl⟩
  · exact h.primary hp hu
  · exact h.moved (hubAct_moved hc h.aligned)
  · exact h.client hc

theorem Inv.run (h : Inv fl σ) (hrun : Relation.ReflTransGen (CarefulStep fl) σ σ') : Inv fl σ' := by
  induction hrun with
  | refl => exact h
  | tail _ hs ih => exact ih.step hs

theorem Following.serves_client (h : Following fl σ) (ha : σ.conn.Aligned σ.client) : Serves fl σ.client := by
  obtain ⟨-, hserves, hbound⟩ := h
  obtain ⟨p, conn, c⟩ := σ
  cases conn with
  | streaming s start got =>
    obtain rfl : c = (Cluster.ingest start got .eof).1 := ha.2
    exact hserves.ingest hbound got .eof
  | _ => exact hserves

theorem careful_replica_converges (fl : Flate) (opts : Options) (faults : List (Option ℕ)) (disk : Disk) (s : Store)
    (hrep : opts.isReplica = false) (hwhole : tailError disk = none) (hopen : openStore fl opts faults disk = .ok s)
    (σ : System) (hrun : Relation.ReflTransGen (CarefulStep fl) (.init s) σ) (hidle : σ.primary.phase = .idle)
    (snap snap' : Bytes) (hsnap : σ.client.snap = some snap) (hsnap' : σ.primary.store.snap = some snap')
    (hcrc : readChecksum snap = readChecksum snap' → snap = snap') (hsum : readChecksum snap = readChecksum snap')
    (hsize : σ.client.log.length = σ.primary.wal.length) :
    σ.client.tree = σ.primary.store.session.tree := by
  obtain ⟨_, _, _, hr⟩ := recoverable_of_open hrep hopen
  rw [hwhole] at hr
  have hinv := (inv_init hr).run hrun
  have hf := hinv.following (by rw [hidle]; simp) (by rw [hsnap, hsnap', hcrc hsum])
  have hlog : σ.client.log = σ.primary.wal :=
    ((prefix_append _ _).trans hf.before).eq_of_length hsize
  obtain ⟨base, hbase, htree⟩ := hf.serves_client hinv.aligned
  obtain ⟨psnap, pbase, ops, hp, -⟩ := hinv.recovers
  have hload : baseTree fl σ.client.snap = .ok pbase := by
    rw [hsnap, hcrc hsum, ← hsnap', hp.snap_eq]
    exact hp.load_eq
  obtain rfl : base = pbase := Except.ok.inj (hbase.symm.trans hload)
  rw [htree, hlog, Primary.wal, hp.replay_eq, hp.tree_eq]

def CarefulAct (σ : System) : Action → Prop
  | .truncateWAL => Unstreamed σ
  | _ => True

instance carefulActDecidable (σ : System) (a : Action) : Decidable (CarefulAct σ a) := by
  cases a with
  | truncateWAL =>
    exact inferInstanceAs (Decidable (σ.client.snap = σ.primary.store.snap → σ.client.log = [] ∧ σ.conn.pipe = []))
  | _ => exact isTrue trivial

theorem careful_of_run {actions : List Action} (h : Guarded.run (System.act fl) σ actions = some σ')
    (ha : Guarded.Meets (System.act fl) CarefulAct σ actions) : Relation.ReflTransGen (CarefulStep fl) σ σ' := by
  refine Guarded.invariant_run (System.act fl) (fun τ a τ' hτ hcareful hact => hτ.tail ⟨a, hact, ?_⟩) .refl h ha
  rintro rfl
  exact hcareful

def fetchActions : List Action := [.startSync, .openSnapshotReader, .sendSnapshot, .installSnapshot]

def followActions : List Action := [.startSync, .readGeneration, .openWALReader, .sendHeader, .readResponse]

def streamActions : List Action := [.checkGeneration, .readWAL 4096, .receive 4096]

def compactActions : List Action := [.renameSnapshot, .truncateWAL, .notifyCompaction]

def refetchActions : List Action :=
  [.startSync, .readGeneration, .openWALReader, .readResponse, .openSnapshotReader, .sendSnapshot, .installSnapshot]

def sampleRecords : RRSets := [⟨[[1, 2, 3, 4]], 300, 1, classIN⟩]

/-- At the first truncation the client has an older snapshot; at the second it has the published one and no log. -/
theorem careful_replica_converges_compacted :
    let actions := fetchActions ++ followActions ++ .commit [.upsert [0x61] sampleRecords] :: streamActions ++
      .disconnect :: compactActions ++ refetchActions ++ compactActions ++ followActions ++
      .commit [.upsert [0x62] sampleRecords] :: streamActions
    ∃ σ, Guarded.run (System.act .none) (.init emptyStore) actions = some σ ∧ σ.primary.gen = 2 ∧
      σ.client.log ≠ [] ∧ σ.client.tree = σ.primary.store.session.tree := by
  intro actions
  obtain ⟨σ, hσ, hgen, hlog, hidle, hsome, hsame, hsize⟩ :
      ∃ σ, Guarded.run (System.act .none) (.init emptyStore) actions = some σ ∧ σ.primary.gen = 2 ∧
        σ.client.log ≠ [] ∧ σ.primary.phase = .idle ∧ σ.client.snap.isSome = true ∧
        σ.client.snap = σ.primary.store.snap ∧ σ.client.log.length = σ.primary.wal.length :=
    Guarded.run_some (System.act .none) (by decide +kernel)
  have hcareful : Guarded.Meets (System.act .none) CarefulAct (.init emptyStore) actions := by decide +kernel
  obtain ⟨snap, hsnap⟩ := Option.isSome_iff_exists.mp hsome
  exact ⟨σ, hσ, hgen, hlog, careful_replica_converges .none ⟨none, false⟩ [] ⟨none, none, none⟩ emptyStore rfl rfl
    openStore_empty σ (careful_of_run hσ hcareful) hidle snap snap hsnap (hsame.symm.trans hsnap) (fun _ => rfl) rfl
    hsize⟩

/-- The log is compacted to the snapshot the client has, and grows to the size of the log the client had read. -/
theorem same_snapshot_other_log :
    ∃ σ, Guarded.run (System.act .none) (.init emptyStore) (fetchActions ++ .commit [.upsert [0x61] sampleRecords] ::
        followActions ++ streamActions ++ [.disconnect, .commit [.delete [0x61]]] ++ compactActions ++
          [.commit [.upsert [0x62] sampleRecords]]) = some σ ∧
      σ.primary.phase = .idle ∧ σ.conn.pipe = [] ∧ σ.client.snap = σ.primary.store.snap ∧
      σ.client.log.length = σ.primary.wal.length ∧ σ.client.tree.get [0x61] = some sampleRecords ∧
      σ.primary.store.session.tree.get [0x61] = none :=
  Guarded.run_some (System.act .none) (by decide +kernel)

end Kdns.Cluster
