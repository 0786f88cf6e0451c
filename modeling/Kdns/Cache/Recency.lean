import Kdns.Cache.Linked

open List

namespace Kdns.Cache

open ByteStream Dns LinkedList Lru

inductive Request where
  | set (key : Key) (value : RRSet) (ttl : Int64)
  | get (key : Key)
  | delete (key : Key)
  | clear

structure Call where
  now : Int64
  request : Request

def Request.op : Request → Op Key RRSet
  | .set key value ttl => .set key value ttl.toInt
  | .get key => .get key
  | .delete key => .delete key
  | .clear => .clear

def Call.timed (c : Call) : ℤ × Op Key RRSet := (c.now.toInt, c.request.op)

namespace LinkedShard

def serve (s : LinkedShard) (c : Call) : Option (Option RRSet × LinkedShard) :=
  match c.request with
  | .set key value ttl => do
    let s ← if ttl ≤ 0 then s.delete key else s.set ⟨key, value, unixNano (c.now.toInt + ttl.toInt)⟩
    return (none, s)
  | .get key => s.get key (unixNano c.now.toInt)
  | .delete key => do
    let s ← s.delete key
    return (none, s)
  | .clear => some (none, s.clear)

def step (r : List (Option RRSet) × LinkedShard) (c : Call) : Option (List (Option RRSet) × LinkedShard) := do
  let (result, s) ← r.2.serve c
  return (r.1 ++ [result], s)

def run (s : LinkedShard) (calls : List Call) : Option (List (Option RRSet) × LinkedShard) := calls.foldlM step ([], s)

theorem run_concat {s s' s'' : LinkedShard} {calls : List Call} {results : List (Option RRSet)} {c : Call} {result : Option RRSet}
    (h : s.run calls = some (results, s')) (hc : s'.serve c = some (result, s'')) :
    s.run (calls ++ [c]) = some (results ++ [result], s'') := by
  rw [run] at h
  rw [run, foldlM_append, h, Option.bind_eq_bind, Option.bind_some, foldlM_cons, step, hc]
  rfl

structure Consistent (s : LinkedShard) (refs : List Ref) : Prop where
  path : s.links.Path (.head :: (refs ++ [.tail]))
  lookup : ∀ k e, s.items.lookup k = some e ↔ e ∈ refs ∧ (s.heap e).key = k
  keys : (refs.map fun e => (s.heap e).key).Nodup
  count : s.items.entries.length = refs.length
  bounded : refs.length ≤ s.capacity

end LinkedShard

def entryOf (x : Key × Slot RRSet) : Entry := ⟨x.1, x.2.value, x.2.deadline⟩

theorem entryOf_key (x : Key × Slot RRSet) : (entryOf x).key = x.1 := rfl

namespace Shard

def serve (s : Shard) (c : Call) : Option RRSet × Shard :=
  match c.request with
  | .set key value ttl => (none, if ttl ≤ 0 then s.delete key else s.set ⟨key, value, unixNano (c.now.toInt + ttl.toInt)⟩)
  | .get key => s.get key (unixNano c.now.toInt)
  | .delete key => (none, s.delete key)
  | .clear => (none, s.clear)

variable {s : Shard} {l : LinkedShard} {c : Call}

theorem Tidy.serve (h : s.Tidy) (hcapacity : 0 < s.capacity) (c : Call) : (s.serve c).2.Tidy := by
  unfold Shard.serve
  cases c.request with
  | set key value ttl =>
    dsimp only
    split_ifs
    · exact h.delete key
    · exact h.set hcapacity _
  | get key => exact h.get key _
  | delete key => exact h.delete key
  | clear => exact tidy_clear s

theorem Linked.serve (h : s.Linked l) (hs : s.Tidy) (hcapacity : 0 < s.capacity) (c : Call) :
    ∃ l', l.serve c = some ((s.serve c).1, l') ∧ (s.serve c).2.Linked l' := by
  unfold LinkedShard.serve Shard.serve
  cases c.request with
  | set key value ttl =>
    dsimp only
    split_ifs
    · obtain ⟨l', hdelete, h'⟩ := h.delete hs key
      exact ⟨l', by rw [hdelete]; rfl, h'⟩
    · obtain ⟨l', hset, h'⟩ := h.set hs hcapacity ⟨key, value, unixNano (c.now.toInt + ttl.toInt)⟩
      exact ⟨l', by rw [hset]; rfl, h'⟩
  | get key => exact h.get hs key _
  | delete key =>
    obtain ⟨l', hdelete, h'⟩ := h.delete hs key
    exact ⟨l', by dsimp only; rw [hdelete]; rfl, h'⟩
  | clear => exact ⟨_, rfl, h.clear⟩

theorem promote_capacity (s : Shard) (e : ℕ) : (s.promote e).capacity = s.capacity := by
  unfold promote
  split_ifs <;> rfl

theorem serve_capacity (h : s.Tidy) (hcapacity : 0 < s.capacity) (c : Call) : (s.serve c).2.capacity = s.capacity := by
  have hdelete : ∀ key, (s.delete key).capacity = s.capacity := by
    intro key
    rcases delete_cases h key with ⟨-, heq⟩ | ⟨e, -, -, heq⟩ <;> rw [heq]
    rfl
  unfold Shard.serve
  cases c.request with
  | set key value ttl =>
    dsimp only
    split_ifs
    · exact hdelete key
    · rcases set_cases h hcapacity ⟨key, value, unixNano (c.now.toInt + ttl.toInt)⟩ with
        ⟨e, -, -, heq⟩ | ⟨-, -, heq⟩ | ⟨e, -, -, -, heq⟩
      · rw [heq, promote_capacity]
        rfl
      · rw [heq]
        rfl
      · rw [heq]
        rfl
  | get key =>
    dsimp only
    rcases get_cases h key (unixNano c.now.toInt) with ⟨-, heq⟩ | ⟨e, -, -, heq⟩
    · rw [heq]
    · rw [heq]
      split_ifs
      · rfl
      · exact promote_capacity s e
  | delete key => exact hdelete key
  | clear => rfl

theorem Linked.consistent (h : s.Linked l) (hs : s.Tidy) : l.Consistent (s.list.map .entry) where
  path := h.path
  lookup k e := by
    rw [h.lookup, Option.map_eq_some_iff, mem_map]
    constructor
    · rintro ⟨e, hk, rfl⟩
      obtain ⟨he, hkey⟩ := hs.lookup_iff.mp hk
      exact ⟨⟨e, he, rfl⟩, by rw [h.heap, hkey]⟩
    · rintro ⟨⟨e, he, rfl⟩, hkey⟩
      rw [h.heap] at hkey
      exact ⟨e, hs.lookup_iff.mpr ⟨he, hkey⟩, rfl⟩
  keys := by
    have hkeys : (s.list.map Ref.entry).map (fun e => (l.heap e).key) = s.contents.map Entry.key := by
      rw [contents, map_map, map_map]
      exact map_congr_left fun e _ => congrArg Entry.key (h.heap e)
    rw [hkeys]
    exact hs.keys_nodup
  count := by rw [h.length_eq, hs.length_eq, length_map]
  bounded := by
    rw [length_map, h.capacity]
    exact hs.bounded

theorem linked_new (capacity : ℕ) : (new capacity).Linked (.new capacity) where
  path := Links.Path.reset _ (by decide)
  heap _ := rfl
  fresh := rfl
  keys := rfl
  lookup _ := rfl
  capacity := rfl

end Shard

def Call.Timely (c : Call) : Prop :=
  ∀ key value ttl, c.request = .set key value ttl → 0 < ttl → c.now.toInt + ttl.toInt < 9223372036854775808

theorem unixNano_eq {t : ℤ} (hlow : -9223372036854775808 ≤ t) (hhigh : t < 9223372036854775808) : unixNano t = t := by
  exact Int.bmod_eq_of_le (by omega) (by omega)

theorem unixNano_reading (now : Int64) : unixNano now.toInt = now.toInt :=
  unixNano_eq now.le_toInt now.toInt_lt

theorem unixNano_late {t : ℤ} (hlow : 9223372036854775808 ≤ t) (hhigh : t < 18446744073709551616) :
    unixNano t = t - 18446744073709551616 := by
  rw [unixNano, Int.bmod_def, Int.emod_eq_of_lt (by omega) (by omega), if_neg (by omega)]
  rfl

namespace Shard

section Following

variable {s : Shard} {c : Call} {t : Table Key RRSet} {tick : ℕ} {ranking : List (Key × Slot RRSet)}

theorem keys_ranking (h : s.contents = ranking.map entryOf) : s.contents.map Entry.key = ranking.map Prod.fst := by
  rw [h, map_map]
  rfl

theorem filter_ranking (h : s.contents = ranking.map entryOf) (k : Key) :
    (s.contents.filter fun x => x.key ≠ k) = (ranking.filter fun x => x.1 ≠ k).map entryOf := by
  rw [h]
  exact map_filter_key entryOf_key k ranking

theorem serve_follows (hs : s.Tidy) (hcapacity : 0 < s.capacity) (hr : Ranked t tick ranking) (h : s.contents = ranking.map entryOf)
    (hc : c.Timely) :
    ∃ t' ranking', Serves s.capacity tick c.now.toInt t c.request.op (s.serve c).1 t' ∧ Ranked t' (tick + 1) ranking' ∧
      (s.serve c).2.contents = ranking'.map entryOf := by
  have hdelete : ∀ key, Ranked (t.drop key) (tick + 1) (ranking.filter fun x => x.1 ≠ key) ∧
      (s.delete key).contents = (ranking.filter fun x => x.1 ≠ key).map entryOf := by
    intro key
    refine ⟨(hr.drop key).later, ?_⟩
    rw [contents_delete hs, filter_ranking h]
  unfold Shard.serve Request.op
  cases hreq : c.request with
  | set key value ttl =>
    dsimp only
    split_ifs with hzero
    · exact ⟨_, _, .lapsed (Int64.le_iff_toInt_le.mp hzero), hdelete key⟩
    · have hpos : 0 < ttl.toInt := by
        rw [Int64.le_iff_toInt_le] at hzero
        simpa using hzero
      obtain ⟨t', hserves, hr'⟩ : ∃ t', Serves s.capacity tick c.now.toInt t (.set key value ttl.toInt) none t' ∧
          Ranked t' (tick + 1) (enter Prod.fst s.capacity (key, ⟨value, c.now.toInt + ttl.toInt, tick⟩) ranking) :=
        hr.serves_set hcapacity hpos
      have hdeadline : unixNano (c.now.toInt + ttl.toInt) = c.now.toInt + ttl.toInt := by
        have hlow := c.now.le_toInt
        exact unixNano_eq (by omega) (hc key value ttl hreq (Int64.lt_iff_toInt_lt.mpr hpos))
      refine ⟨t', _, hserves, hr', ?_⟩
      rw [contents_set hs hcapacity, hdeadline, h]
      exact map_enter entryOf_key s.capacity (key, ⟨value, c.now.toInt + ttl.toInt, tick⟩) ranking
  | get key =>
    dsimp only
    rw [unixNano_reading]
    rcases get_cases hs key c.now.toInt with ⟨hk, heq⟩ | ⟨e, he, rfl, heq⟩
    · rw [heq]
      exact ⟨t, ranking, .missing (hr.eq_none_iff.mpr (keys_ranking h ▸ hk)), hr.later, h⟩
    · have hmem : s.heap e ∈ ranking.map entryOf := h ▸ mem_map_of_mem he
      obtain ⟨⟨k, slot⟩, hx, hentry⟩ := mem_map.mp hmem
      have hkey : (s.heap e).key = k := by rw [← hentry]; rfl
      have hslot := hr.mem_iff.mp hx
      rw [heq, hkey]
      split_ifs with hlate
      · refine ⟨_, _, .expired hslot ?_, (hr.drop k).later, ?_⟩
        · rw [← hentry] at hlate
          exact hlate
        · rw [← hkey, contents_unlink hs he, filter_ranking h]
      · rw [← hentry] at hlate
        have hcontents := contents_promote hs he
        rw [filter_ranking h, hkey, ← hentry] at hcontents
        rw [← hentry]
        exact ⟨_, _, .hit hslot (Int.not_le.mp hlate), hr.touch k rfl, hcontents⟩
  | delete key => exact ⟨_, _, .deleted, hdelete key⟩
  | clear => exact ⟨_, _, .cleared, Ranked.start _, rfl⟩

theorem get_set_expired (hs : s.Tidy) (hcapacity : 0 < s.capacity) {entry : Entry} {now : ℤ} (hexpired : entry.expiresAt ≤ now) :
    ((s.set entry).get entry.key now).1 = none := by
  have hs' := hs.set hcapacity entry
  obtain ⟨rest, hcontents⟩ : ∃ rest, (s.set entry).contents = entry :: rest := ⟨_, contents_set hs hcapacity _⟩
  generalize s.set entry = s' at hs' hcontents
  rcases get_cases hs' entry.key now with ⟨-, heq⟩ | ⟨e, he, hkey, heq⟩
  · rw [heq]
  · -- The key leads to the first entry, the one that has just been set.
    have hfirst : s'.heap e = entry := by
      have hmem : s'.heap e ∈ s'.contents := mem_map_of_mem he
      have hnodup := hs'.keys_nodup
      rw [hcontents] at hmem hnodup
      rcases mem_cons.mp hmem with heq | hrest
      · exact heq
      · have hin : (s'.heap e).key ∈ rest.map Entry.key := mem_map_of_mem hrest
        rw [hkey] at hin
        exact absurd hin (nodup_cons.mp hnodup).1
    rw [heq, hfirst, if_pos hexpired]

theorem get_late (hs : s.Tidy) (hcapacity : 0 < s.capacity) {now ttl : Int64} (key : Key) (value : RRSet) (httl : 0 < ttl)
    (hlate : 9223372036854775808 ≤ now.toInt + ttl.toInt) :
    ((s.serve ⟨now, .set key value ttl⟩).2.serve ⟨now, .get key⟩).1 = none := by
  have hset : (s.serve ⟨now, .set key value ttl⟩).2 = s.set ⟨key, value, unixNano (now.toInt + ttl.toInt)⟩ :=
    if_neg (Int64.not_le.mpr httl)
  have hnow := now.toInt_lt
  have httl' := ttl.toInt_lt
  rw [hset]
  apply get_set_expired hs hcapacity
  rw [unixNano_reading, unixNano_late hlate (by omega)]
  dsimp only
  omega

end Following

end Shard

namespace LinkedShard

theorem run_linked {capacity : ℕ} (hcapacity : 0 < capacity) (calls : List Call) :
    ∃ results l, ∃ s : Shard, (new capacity).run calls = some (results, l) ∧ s.Linked l ∧ s.Tidy ∧ s.capacity = capacity := by
  induction calls using List.reverseRecOn with
  | nil => exact ⟨[], _, _, rfl, Shard.linked_new capacity, Shard.tidy_clear (.new capacity), rfl⟩
  | append_singleton calls c ih =>
    obtain ⟨results, l, s, hrun, hl, hs, hcap⟩ := ih
    have hpos : 0 < s.capacity := hcap ▸ hcapacity
    obtain ⟨l', hserve, hl'⟩ := hl.serve hs hpos c
    exact ⟨_, l', _, run_concat hrun hserve, hl', hs.serve hpos c, (Shard.serve_capacity hs hpos c).trans hcap⟩

def Behaves (capacity : ℕ) (calls : List Call) : Prop :=
  ∃ results l refs t ranking, (new capacity).run calls = some (results, l) ∧ l.Consistent refs ∧
    Run capacity (calls.map Call.timed) results t ∧ Ranked t calls.length ranking ∧ refs.map l.heap = ranking.map entryOf

theorem run_follows {capacity : ℕ} (hcapacity : 0 < capacity) {calls : List Call} (h : ∀ c ∈ calls, c.Timely) :
    ∃ results l, ∃ s : Shard, ∃ t ranking, (new capacity).run calls = some (results, l) ∧ s.Linked l ∧ s.Tidy ∧
      s.capacity = capacity ∧ Run capacity (calls.map Call.timed) results t ∧ Ranked t calls.length ranking ∧
      s.contents = ranking.map entryOf := by
  induction calls using List.reverseRecOn with
  | nil =>
    exact ⟨[], _, _, _, [], rfl, Shard.linked_new capacity, Shard.tidy_clear (.new capacity), rfl, .start, .start _, rfl⟩
  | append_singleton calls c ih =>
    obtain ⟨hcalls, hc⟩ := forall_mem_append.mp h
    obtain ⟨results, l, s, t, ranking, hrun, hl, hs, hcap, ht, hr, hcontents⟩ := ih hcalls
    have hpos : 0 < s.capacity := hcap ▸ hcapacity
    obtain ⟨l', hserve, hl'⟩ := hl.serve hs hpos c
    obtain ⟨t', ranking', hserves, hr', hcontents'⟩ := Shard.serve_follows hs hpos hr hcontents (hc c mem_cons_self)
    refine ⟨_, l', _, t', ranking', run_concat hrun hserve, hl', hs.serve hpos c, (Shard.serve_capacity hs hpos c).trans hcap,
      ?_, ?_, hcontents'⟩
    · rw [hcap] at hserves
      rw [map_append, map_singleton]
      refine ht.call ?_
      rwa [length_map]
    · rwa [length_append, length_singleton]

theorem behaves_of_timely {capacity : ℕ} (hcapacity : 0 < capacity) {calls : List Call} (h : ∀ c ∈ calls, c.Timely) :
    Behaves capacity calls := by
  obtain ⟨results, l, s, t, ranking, hrun, hl, hs, -, ht, hr, hcontents⟩ := run_follows hcapacity h
  refine ⟨results, l, s.list.map .entry, t, ranking, hrun, hl.consistent hs, ht, hr, ?_⟩
  rw [← hcontents, Shard.contents, map_map]
  exact map_congr_left fun e _ => hl.heap e

theorem not_behaves_of_late {capacity : ℕ} (hcapacity : 0 < capacity) (past : List Call) {now ttl : Int64} (key : Key)
    (value : RRSet) (httl : 0 < ttl) (hlate : 9223372036854775808 ≤ now.toInt + ttl.toInt) :
    ¬Behaves capacity (past ++ [⟨now, .set key value ttl⟩] ++ [⟨now, .get key⟩]) := by
  rintro ⟨results, l, -, t, -, hrun, -, ht, -, -⟩
  have hpos : 0 < ttl.toInt := Int64.lt_iff_toInt_lt.mp httl
  -- The table has a deadline that is not reached.
  rw [map_append, map_append] at ht
  obtain ⟨front, r, t₁, rfl, ht₁, hget⟩ := ht.last
  obtain ⟨_, _, t₀, _, _, hset⟩ := ht₁.last
  have hlive := hget.get_live (hset.set_slot hpos) (Int.lt_add_of_pos_right _ hpos)
  -- The shard has a deadline that has long passed.
  obtain ⟨results₀, l₀, s₀, hrun₀, hl₀, hs₀, hcap⟩ := run_linked hcapacity past
  have hcap₀ : 0 < s₀.capacity := hcap ▸ hcapacity
  obtain ⟨l₁, hserve₁, hl₁⟩ := hl₀.serve hs₀ hcap₀ ⟨now, .set key value ttl⟩
  have hs₁ := hs₀.serve hcap₀ ⟨now, .set key value ttl⟩
  obtain ⟨l₂, hserve₂, -⟩ := hl₁.serve hs₁ ((Shard.serve_capacity hs₀ hcap₀ _).symm ▸ hcap₀) ⟨now, .get key⟩
  have hrun₂ := run_concat (run_concat hrun₀ hserve₁) hserve₂
  rw [hrun₂] at hrun
  have hresult := congrArg Prod.fst (Option.some.inj hrun)
  have hlast := singleton_inj.mp (append_inj' hresult rfl).2
  have hnone := Shard.get_late hs₀ hcap₀ key value httl hlate
  rw [← hlast, hnone] at hlive
  cases hlive

end LinkedShard

/-- Every shard stays in order, without a step through a nil pointer. It is a bounded map that gives up what was used least
recently exactly if no deadline lies behind the last nanosecond that can be told. -/
theorem shard_lru (totalCapacity : ℤ) (calls : List Call) (hclock : calls.Pairwise fun c c' => c.now ≤ c'.now) :
    (∀ past, past <+: calls → ∃ results s refs,
        (LinkedShard.new (max (totalCapacity.tdiv 256) 1).toNat).run past = some (results, s) ∧ s.Consistent refs ∧
          s.capacity = (max (totalCapacity.tdiv 256) 1).toNat) ∧
      ((∀ past key now, past <+: calls → (∀ c ∈ past, c.now ≤ now) →
          LinkedShard.Behaves (max (totalCapacity.tdiv 256) 1).toNat (past ++ [⟨now, .get key⟩])) ↔
        ∀ c ∈ calls, c.Timely) := by
  have hcapacity : 0 < (max (totalCapacity.tdiv 256) 1).toNat := by omega
  refine ⟨?_, ?_, ?_⟩
  · intro past hpast
    obtain ⟨results, l, s, hrun, hl, hs, hcap⟩ := LinkedShard.run_linked hcapacity past
    exact ⟨results, l, _, hrun, hl.consistent hs, hl.capacity.trans hcap⟩
  · rintro h ⟨now, request⟩ hc key value ttl rfl httl
    by_contra hlate
    obtain ⟨front, back, rfl⟩ := append_of_mem hc
    have hpast : front ++ [⟨now, .set key value ttl⟩] <+: front ++ ⟨now, .set key value ttl⟩ :: back := ⟨back, by simp⟩
    apply LinkedShard.not_behaves_of_late hcapacity front key value httl (Int.not_lt.mp hlate)
    apply h _ key now hpast
    rw [forall_mem_append]
    refine ⟨fun c hc => (pairwise_append.mp hclock).2.2 c hc _ mem_cons_self, ?_⟩
    intro c hc
    rw [mem_singleton.mp hc]
    exact Int64.le_refl _
  · intro h past key now hpast hnow
    apply LinkedShard.behaves_of_timely hcapacity
    rw [forall_mem_append]
    refine ⟨fun c hc => h c (hpast.subset hc), ?_⟩
    rintro c hc key value ttl hreq
    rw [mem_singleton.mp hc] at hreq
    cases hreq

theorem shard_lru_evicts :
    let key (b : UInt8) : Key := ⟨[b], 1⟩
    let calls := [⟨0, .set (key 0x61) .empty 9⟩, ⟨0, .set (key 0x62) .empty 9⟩, ⟨1, .get (key 0x61)⟩,
      ⟨2, .set (key 0x63) .empty 9⟩, ⟨3, .get (key 0x61)⟩]
    LinkedShard.Behaves 2 (calls ++ [⟨4, .get (key 0x62)⟩]) ∧
      ((LinkedShard.new 2).run (calls ++ [⟨4, .get (key 0x62)⟩])).map Prod.fst =
        some [none, none, some .empty, none, some .empty, none] := by
  intro key calls
  refine ⟨(shard_lru 512 calls (by decide)).2.mpr ?_ _ (key 0x62) 4 prefix_rfl (by decide), by decide +kernel⟩
  rintro c hc key value ttl hreq -
  simp only [calls, mem_cons, not_mem_nil, or_false] at hc
  rcases hc with rfl | rfl | rfl | rfl | rfl <;> cases hreq <;> decide

/-- In 2026 a duration of 292 years ends after 2262, and the entry is taken for one that has expired. -/
theorem shard_lru_never :
    ¬LinkedShard.Behaves 1 [⟨1790000000000000000, .set ⟨[0x61], 1⟩ .empty 9223372036854775807⟩,
      ⟨1790000000000000000, .get ⟨[0x61], 1⟩⟩] :=
  LinkedShard.not_behaves_of_late (by decide) [] _ _ (by decide) (by decide)

end Kdns.Cache
