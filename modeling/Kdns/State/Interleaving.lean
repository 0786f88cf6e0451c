import Kdns.Lib.Guarded
import Kdns.State

namespace Kdns.State

open ByteStream Dns Radix

inductive Resolver where
  | idle
  | missed (domain : Bytes) (qType : RRType)
  | resolved (domain : Bytes) (qType : RRType) (res : Result)
  | returned (domain : Bytes) (qType : RRType) (res : Result)
  deriving DecidableEq

structure Shared extends State where
  resolvers : ℕ → Resolver
  /-- The shard the writer that holds the mutex clears next. -/
  clearing : Option ℕ

inductive Action where
  | lookup (i : ℕ) (domain : Bytes) (qType : RRType) (now : ℤ)
  | walk (i : ℕ)
  | insert (i : ℕ) (now : ℤ)
  /-- An update, or a swap when `fn` is constant. -/
  | write (fn : Tree → Tree)
  | clearShard
  | unlock

namespace Shared

def start (s : State) : Shared := ⟨s, fun _ => .idle, none⟩

def enter (s : Shared) (i : ℕ) (r : Resolver) : Shared := { s with resolvers := Function.update s.resolvers i r }

def lookup (s : Shared) (i : ℕ) (domain : Bytes) (qType : RRType) (now : ℤ) : Shared :=
  match s.cache.get (cacheKey domain qType) now with
  | (some record, cache) => { s with cache := cache }.enter i (.returned domain qType (cached record))
  | (none, cache) => { s with cache := cache }.enter i (.missed domain qType)

def walked (domain : Bytes) (qType : RRType) (res : Result) : Resolver :=
  if cacheable res then .resolved domain qType res else .returned domain qType res

def act (s : Shared) : Action → Option Shared
  | .lookup i domain qType now =>
    match s.resolvers i with
    | .idle => some (s.lookup i domain qType now)
    | .returned _ _ _ => some (s.lookup i domain qType now)
    | _ => none
  | .walk i =>
    match s.resolvers i with
    | .missed domain qType => some (s.enter i (walked domain qType (s.tree.resolve domain qType)))
    | _ => none
  | .insert i now =>
    match s.resolvers i with
    | .resolved domain qType res =>
      some ({ s with cache := remember s.cache (cacheKey domain qType) res now }.enter i (.returned domain qType res))
    | _ => none
  | .write fn => if s.clearing = none then some { s with tree := fn s.tree, clearing := some 0 } else none
  | .clearShard =>
    match s.clearing with
    | some j => if h : j < 256 then some { s with cache := s.cache.clearShard ⟨j, h⟩, clearing := some (j + 1) } else none
    | none => none
  | .unlock => if s.clearing = some 256 then some { s with clearing := none } else none

def pending (s : Shared) (k : Fin 256) : Bool := s.clearing.any (· ≤ k.val)

def Due (s : Shared) : Resolver → Prop
  | .resolved domain qType res =>
    s.tree.resolve domain qType = res ∨ s.pending (s.cache.shardIndex (cacheKey domain qType)) = true
  | _ => True

instance dueDecidable (s : Shared) : (r : Resolver) → Decidable (s.Due r)
  | .resolved _ _ _ => inferInstanceAs (Decidable (_ ∨ _))
  | .idle => isTrue trivial
  | .missed _ _ => isTrue trivial
  | .returned _ _ _ => isTrue trivial

def Timely (s : Shared) : Action → Prop
  | .insert i _ => s.Due (s.resolvers i)
  | _ => True

instance timelyDecidable (s : Shared) : (a : Action) → Decidable (Timely s a)
  | .insert i _ => inferInstanceAs (Decidable (s.Due (s.resolvers i)))
  | .lookup _ _ _ _ => isTrue trivial
  | .walk _ => isTrue trivial
  | .write _ => isTrue trivial
  | .clearShard => isTrue trivial
  | .unlock => isTrue trivial

structure Settled (s : Shared) : Prop where
  shards : ∀ k, s.pending k = true ∨ (s.cache.shards k).Holds (Current s.tree)
  resolved : ∀ {i domain qType res}, s.resolvers i = .resolved domain qType res → cacheable res = true

theorem settled_start (hash : Cache.Key → UInt64) (cacheCapacity : ℤ) : Settled (start (State.new hash cacheCapacity)) where
  shards k := .inr (Cache.holds_new _ _ k)
  resolved h := by cases h

variable {s : Shared}

section

variable (h : Settled s)
include h

theorem Settled.enter (i : ℕ) {r : Resolver}
    (hr : ∀ domain qType res, r = .resolved domain qType res → cacheable res = true) : Settled (s.enter i r) where
  shards := h.shards
  resolved {i' domain qType res} hres := by
    change Function.update s.resolvers i r i' = _ at hres
    by_cases hi : i' = i
    · grind
    · rw [Function.update_of_ne hi] at hres
      exact h.resolved hres

theorem Settled.putShard {k : Fin 256} {sh : Cache.Shard}
    (hs : s.pending k = true ∨ sh.Holds (Current s.tree)) : Settled { s with cache := s.cache.putShard k sh } where
  shards := Cache.forall_putShard (Q := fun k sh => s.pending k = true ∨ sh.Holds (Current s.tree)) hs
    fun j _ => h.shards j
  resolved := h.resolved

theorem Settled.lookup (i : ℕ) (domain : Bytes) (qType : RRType) (now : ℤ) :
    Settled (s.lookup i domain qType now) := by
  have hget : Settled { s with cache := (s.cache.get (cacheKey domain qType) now).2 } :=
    h.putShard ((h.shards _).imp_right fun hk => hk.get _ _)
  unfold Shared.lookup
  generalize s.cache.get (cacheKey domain qType) now = r at hget ⊢
  obtain ⟨_ | record, cache⟩ := r
  · exact hget.enter i nofun
  · exact hget.enter i nofun

theorem Settled.walk (i : ℕ) (domain : Bytes) (qType : RRType) (res : Result) :
    Settled (s.enter i (walked domain qType res)) := by
  apply h.enter
  intro domain' qType' res' hw
  unfold walked at hw
  split_ifs at hw with hc
  cases hw
  exact hc

theorem Settled.remember {i : ℕ} {domain : Bytes} {qType : RRType} {res : Result}
    (hr : s.resolvers i = .resolved domain qType res) (hd : s.Due (.resolved domain qType res)) (now : ℤ) :
    Settled { s with cache := remember s.cache (cacheKey domain qType) res now } := by
  unfold State.remember Cache.set
  split_ifs
  · exact h.putShard ((h.shards _).imp_right fun hk => hk.delete _)
  · apply h.putShard
    rcases hd with rfl | hp
    · exact (h.shards _).imp_right fun hk => hk.set (current_of_cacheable (h.resolved hr))
    · exact .inl hp

end

theorem pending_of_clearing {j : ℕ} (hj : s.clearing = some j) (k : Fin 256) : s.pending k = true ↔ j ≤ k.val := by
  rw [pending, hj]
  exact decide_eq_true_iff

theorem Settled.clearShard (h : Settled s) {j : ℕ} (hj : s.clearing = some j) (hlt : j < 256) :
    Settled { s with cache := s.cache.clearShard ⟨j, hlt⟩, clearing := some (j + 1) } := by
  refine ⟨?_, h.resolved⟩
  apply Cache.forall_putShard
    (Q := fun k sh => (some (j + 1)).any (· ≤ k.val) = true ∨ sh.Holds (Current s.tree))
  · exact .inr (Cache.Shard.holds_clear _)
  · intro k hk
    apply (h.shards k).imp_left
    intro hp
    have hle := (pending_of_clearing hj k).mp hp
    have hne : k.val ≠ j := fun he => hk (Fin.ext he)
    exact decide_eq_true (by omega : j + 1 ≤ k.val)

theorem Settled.unlock (h : Settled s) (hj : s.clearing = some 256) : Settled { s with clearing := none } where
  shards k := by
    right
    refine (h.shards k).resolve_left fun hp => ?_
    have hle := (pending_of_clearing hj k).mp hp
    omega
  resolved := h.resolved

theorem act_settled (s : Shared) (a : Action) (s' : Shared) (h : Settled s) (ht : Timely s a)
    (ha : act s a = some s') : Settled s' := by
  cases a with
  | lookup i domain qType now =>
    rw [act] at ha
    cases hr : s.resolvers i <;> rw [hr] at ha <;> cases ha
    · exact h.lookup i domain qType now
    · exact h.lookup i domain qType now
  | walk i =>
    rw [act] at ha
    cases hr : s.resolvers i <;> rw [hr] at ha <;> cases ha
    exact h.walk i _ _ _
  | insert i now =>
    rw [act] at ha
    rw [Timely] at ht
    cases hr : s.resolvers i <;> rw [hr] at ha <;> cases ha
    rw [hr] at ht
    exact (h.remember hr ht now).enter i nofun
  | write fn =>
    rw [act] at ha
    split_ifs at ha
    cases ha
    exact ⟨fun k => .inl (decide_eq_true (Nat.zero_le k.val)), h.resolved⟩
  | clearShard =>
    rw [act] at ha
    cases hc : s.clearing with
    | none =>
      rw [hc] at ha
      cases ha
    | some j =>
      rw [hc] at ha
      simp only at ha
      split_ifs at ha with hlt
      cases ha
      exact h.clearShard hc hlt
  | unlock =>
    rw [act] at ha
    split_ifs at ha with hc
    cases ha
    exact h.unlock hc

def Beside (i : ℕ) : Action → Prop
  | .lookup j _ _ _ => j ≠ i
  | .write _ => False
  | _ => True

def Fresh (s : Shared) : Prop :=
  s.clearing = none → ∀ i domain qType now rest, (∀ a ∈ rest, Beside i a) → ∀ s',
    Guarded.run act s (.lookup i domain qType now :: rest) = some s' →
    ∀ res, s'.resolvers i = .returned domain qType res → res = s.tree.resolve domain qType

def Answering (t : Tree) (domain : Bytes) (qType : RRType) (r : Resolver) : Prop :=
  r = .missed domain qType ∨ r = .resolved domain qType (t.resolve domain qType) ∨
    r = .returned domain qType (t.resolve domain qType)

theorem enter_self (s : Shared) (i : ℕ) (r : Resolver) : (s.enter i r).resolvers i = r := Function.update_self ..

theorem enter_of_ne (s : Shared) {i j : ℕ} (h : i ≠ j) (r : Resolver) : (s.enter j r).resolvers i = s.resolvers i :=
  Function.update_of_ne h ..

section Call

variable {t : Tree} {i : ℕ} {domain : Bytes} {qType : RRType}

theorem lookup_tree (s : Shared) (i : ℕ) (domain : Bytes) (qType : RRType) (now : ℤ) :
    (s.lookup i domain qType now).tree = s.tree := by
  unfold lookup
  generalize s.cache.get (cacheKey domain qType) now = r
  obtain ⟨_ | record, cache⟩ := r <;> rfl

theorem lookup_of_ne (s : Shared) {i j : ℕ} (h : i ≠ j) (domain : Bytes) (qType : RRType) (now : ℤ) :
    (s.lookup j domain qType now).resolvers i = s.resolvers i := by
  unfold lookup
  generalize s.cache.get (cacheKey domain qType) now = r
  obtain ⟨_ | record, cache⟩ := r
  · exact enter_of_ne _ h _
  · exact enter_of_ne _ h _

theorem lookup_answering (h : Settled s) (hc : s.clearing = none) (i : ℕ) (domain : Bytes) (qType : RRType) (now : ℤ) :
    Answering s.tree domain qType ((s.lookup i domain qType now).resolvers i) := by
  have hshard := (h.shards (s.cache.shardIndex (cacheKey domain qType))).resolve_left (by rw [pending, hc]; exact nofun)
  have hright : ∀ v, (s.cache.get (cacheKey domain qType) now).1 = some v →
      s.tree.resolve domain qType = cached v := fun v hv => hshard.get_right hv domain rfl
  unfold lookup
  generalize s.cache.get (cacheKey domain qType) now = r at hright ⊢
  obtain ⟨_ | record, cache⟩ := r
  · exact .inl (enter_self _ i _)
  · right
    right
    rw [hright record rfl]
    exact enter_self _ i _

theorem walked_answering (t : Tree) (domain : Bytes) (qType : RRType) :
    Answering t domain qType (walked domain qType (t.resolve domain qType)) := by
  unfold walked
  split_ifs
  · exact .inr (.inl rfl)
  · exact .inr (.inr rfl)

theorem act_walk {j : ℕ} {s' : Shared} (ha : act s (.walk j) = some s') :
    ∃ d q, s.resolvers j = .missed d q ∧ s' = s.enter j (walked d q (s.tree.resolve d q)) := by
  rw [act] at ha
  cases hr : s.resolvers j with
  | missed d q => grind
  | _ =>
    rw [hr] at ha
    cases ha

theorem act_insert {j : ℕ} {now : ℤ} {s' : Shared} (ha : act s (.insert j now) = some s') :
    ∃ d q res, s.resolvers j = .resolved d q res ∧
      ∃ cache, s' = { s with cache := cache }.enter j (.returned d q res) := by
  rw [act] at ha
  cases hr : s.resolvers j with
  | resolved d q res => grind
  | _ =>
    rw [hr] at ha
    cases ha

theorem act_resolver {a : Action} {s' : Shared} (hb : Beside i a) (ha : act s a = some s') :
    s'.tree = s.tree ∧ (s'.resolvers i = s.resolvers i ∨
      (∃ d q, s.resolvers i = .missed d q ∧ s'.resolvers i = walked d q (s.tree.resolve d q)) ∨
      ∃ d q res, s.resolvers i = .resolved d q res ∧ s'.resolvers i = .returned d q res) := by
  cases a with
  | lookup j d q now =>
    have hs : s' = s.lookup j d q now := by
      rw [act] at ha
      cases hr : s.resolvers j <;> rw [hr] at ha <;> cases ha <;> rfl
    rw [hs, lookup_tree, lookup_of_ne s (Ne.symm hb)]
    exact ⟨rfl, .inl rfl⟩
  | walk j =>
    obtain ⟨d, q, hr, hs⟩ := act_walk ha
    refine ⟨by rw [hs]; rfl, ?_⟩
    by_cases hij : i = j
    · subst hij
      exact .inr (.inl ⟨d, q, hr, by rw [hs, enter_self]⟩)
    · exact .inl (by rw [hs, enter_of_ne s hij])
  | insert j now =>
    obtain ⟨d, q, res, hr, cache, hs⟩ := act_insert ha
    refine ⟨by rw [hs]; rfl, ?_⟩
    by_cases hij : i = j
    · subst hij
      exact .inr (.inr ⟨d, q, res, hr, by rw [hs, enter_self]⟩)
    · exact .inl (by rw [hs, enter_of_ne _ hij])
  | write fn => exact hb.elim
  | clearShard =>
    rw [act] at ha
    cases hc : s.clearing with
    | none =>
      rw [hc] at ha
      cases ha
    | some j => grind
  | unlock =>
    rw [act] at ha
    split_ifs at ha
    cases ha
    exact ⟨rfl, .inl rfl⟩

theorem act_answering (s : Shared) (a : Action) (s' : Shared)
    (h : s.tree = t ∧ Answering t domain qType (s.resolvers i)) (hb : Beside i a) (ha : act s a = some s') :
    s'.tree = t ∧ Answering t domain qType (s'.resolvers i) := by
  obtain ⟨rfl, h⟩ := h
  obtain ⟨htree, hr | ⟨d, q, hr, hr'⟩ | ⟨d, q, res, hr, hr'⟩⟩ := act_resolver hb ha
  · rw [hr]
    exact ⟨htree, h⟩
  · rw [hr']
    rcases h with h | h | h <;> rw [hr] at h <;> cases h
    exact ⟨htree, walked_answering s.tree domain qType⟩
  · rw [hr']
    rcases h with h | h | h <;> rw [hr] at h <;> cases h
    exact ⟨htree, .inr (.inr rfl)⟩

end Call

theorem Settled.fresh (h : Settled s) : Fresh s := by
  intro hc i domain qType now rest hrest s' hrun res hres
  obtain ⟨m, hm, hrun⟩ := Guarded.run_cons act hrun
  have hlookup : m = s.lookup i domain qType now := by
    rw [act] at hm
    cases hr : s.resolvers i <;> rw [hr] at hm <;> cases hm <;> rfl
  have hm : m.tree = s.tree ∧ Answering s.tree domain qType (m.resolvers i) := by
    rw [hlookup, lookup_tree]
    exact ⟨rfl, lookup_answering h hc i domain qType now⟩
  obtain ⟨-, hans⟩ := Guarded.invariant_run act (act_answering (i := i)) hm hrun (Guarded.meets_of_forall act hrest m)
  rcases hans with he | he | he <;> rw [hres] at he <;> cases he
  rfl

theorem fresh_of_timely (hash : Cache.Key → UInt64) (cacheCapacity : ℤ) (actions : List Action) (s : Shared)
    (hrun : Guarded.run act (start (State.new hash cacheCapacity)) actions = some s)
    (ht : Guarded.Meets act Timely (start (State.new hash cacheCapacity)) actions) : Fresh s :=
  (Guarded.invariant_run act act_settled (settled_start hash cacheCapacity) hrun ht).fresh

def oneAddress : Tree → Tree := fun t => t.upsert [0x61] [⟨[[1, 2, 3, 4]], 300, 1, classIN⟩]

def writing (fn : Tree → Tree) : List Action := .write fn :: List.replicate 256 .clearShard ++ [.unlock]

def lateInsertion : List Action :=
  writing oneAddress ++ [.lookup 0 [0x61] 1 0, .walk 0] ++ writing (·.deleteDomain [0x61]) ++ [.insert 0 0]

def shared : Shared := start (State.new (fun _ => 0) 10000)

theorem fresh_timely_insertion :
    ∃ s, Guarded.run act shared (writing oneAddress ++ [.lookup 0 [0x61] 1 0, .walk 0, .insert 0 0]) = some s ∧ Fresh s := by
  have hrun : ∃ s, Guarded.run act shared (writing oneAddress ++ [.lookup 0 [0x61] 1 0, .walk 0, .insert 0 0]) = some s ∧
      s.clearing = none := Guarded.run_some act (by decide +kernel)
  obtain ⟨s, hs, -⟩ := hrun
  exact ⟨s, hs, fresh_of_timely _ _ _ s hs (by decide +kernel)⟩

/-- The resolver that walked the old tree inserts its answer after the writer has cleared the cache and returned. -/
theorem stale_after_late_insertion : ∃ s, Guarded.run act shared lateInsertion = some s ∧ ¬ Fresh s := by
  have hrun : ∃ s, Guarded.run act shared lateInsertion = some s ∧ s.clearing = none ∧
      (s.tree.resolve [0x61] 1).rcode = .nameError ∧
      (Guarded.run act s [.lookup 1 [0x61] 1 1]).any (fun s' => decide (s'.resolvers 1 =
        .returned [0x61] 1 (cached ⟨[[1, 2, 3, 4]], 300, 1, classIN⟩))) = true := Guarded.run_some act (by decide +kernel)
  obtain ⟨s, hs, hc, hgone, hlookup⟩ := hrun
  obtain ⟨s', hs', hret⟩ := Guarded.run_some act hlookup
  refine ⟨s, hs, ?_⟩
  intro hf
  have he := hf hc 1 [0x61] 1 1 [] nofun s' hs' _ hret
  rw [← he] at hgone
  cases hgone

end Shared

end Kdns.State
