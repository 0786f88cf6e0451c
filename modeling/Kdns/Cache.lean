import Mathlib.Data.List.AList
import Mathlib.Logic.Function.Basic
import Kdns.Dns

open List

namespace Kdns

open ByteStream Dns

variable {k : Key} {v : RRSet}

namespace Cache

structure Key where
  name : Bytes
  type : RRType
  deriving DecidableEq, Repr

structure Entry where
  key : Key
  value : RRSet
  expiresAt : ℤ

/-- Entries live at addresses: the map and the list share them, and an evicted one is written over in place. -/
structure Shard where
  heap : ℕ → Entry
  fresh : ℕ
  items : AList fun _ : Key => ℕ
  list : List ℕ
  capacity : ℕ

def unixNano (t : ℤ) : ℤ := t.bmod 18446744073709551616

namespace Shard

def new (capacity : ℕ) : Shard := ⟨fun _ => ⟨⟨[], 0⟩, .empty, 0⟩, 0, ∅, [], capacity⟩

def remove (s : Shard) (e : ℕ) : Shard := { s with list := s.list.erase e }

def pushFront (s : Shard) (e : ℕ) : Shard := { s with list := e :: s.list }

def promote (s : Shard) (e : ℕ) : Shard := if s.list.head? ≠ some e then (s.remove e).pushFront e else s

def unlink (s : Shard) (e : ℕ) : Shard := { s.remove e with items := s.items.erase (s.heap e).key }

def write (s : Shard) (e : ℕ) (entry : Entry) : Shard := { s with heap := Function.update s.heap e entry }

def link (s : Shard) (e : ℕ) (entry : Entry) : Shard :=
  ({ s.write e entry with items := s.items.insert entry.key e }).pushFront e

def set (s : Shard) (entry : Entry) : Shard :=
  match s.items.lookup entry.key with
  | some e => (s.write e { s.heap e with value := entry.value, expiresAt := entry.expiresAt }).promote e
  | none =>
    if s.items.entries.length ≥ s.capacity then
      match s.list.getLast? with
      | some e => (s.unlink e).link e entry
      -- the sentinel would be unlinked here: a full shard has a last entry
      | none => s
    else { s.link s.fresh entry with fresh := s.fresh + 1 }

def get (s : Shard) (key : Key) (now : ℤ) : Option RRSet × Shard :=
  match s.items.lookup key with
  | none => (none, s)
  | some e =>
    if now ≥ (s.heap e).expiresAt then (none, s.unlink e)
    else (some (s.heap e).value, s.promote e)

def delete (s : Shard) (key : Key) : Shard :=
  match s.items.lookup key with
  | none => s
  | some e => s.unlink e

def clear (s : Shard) : Shard := { s with items := ∅, list := [] }

structure Holds (P : Key → RRSet → Prop) (s : Shard) : Prop where
  keyed : ∀ {k e}, s.items.lookup k = some e → (s.heap e).key = k
  allocated : ∀ {k e}, s.items.lookup k = some e → e < s.fresh
  listed : ∀ e ∈ s.list, e < s.fresh
  right : ∀ {k e}, s.items.lookup k = some e → P k (s.heap e).value

variable {P : Key → RRSet → Prop} {s : Shard} {entry : Entry}

theorem holds_empty (heap : ℕ → Entry) (fresh capacity : ℕ) : Holds P ⟨heap, fresh, ∅, [], capacity⟩ where
  keyed h := by cases h
  allocated h := by cases h
  listed _ h := by cases h
  right h := by cases h

theorem holds_new (capacity : ℕ) : Holds P (new capacity) := holds_empty _ _ _

theorem holds_clear (s : Shard) : Holds P s.clear := holds_empty _ _ _

theorem Holds.promote (h : Holds P s) {e : ℕ} (he : e < s.fresh) : Holds P (s.promote e) := by
  unfold Shard.promote
  split_ifs
  · refine ⟨h.keyed, h.allocated, ?_, h.right⟩
    intro e' he'
    rcases mem_cons.mp he' with rfl | he'
    · exact he
    · exact h.listed e' (mem_of_mem_erase he')
  · exact h

theorem lookup_unlink {e e' : ℕ} (h : (s.unlink e).items.lookup k = some e') :
    s.items.lookup k = some e' ∧ k ≠ (s.heap e).key := by
  change (s.items.erase (s.heap e).key).lookup k = some e' at h
  by_cases hk : k = (s.heap e).key
  · rw [hk, AList.lookup_erase] at h
    cases h
  · exact ⟨(AList.lookup_erase_ne hk).symm.trans h, hk⟩

theorem Holds.unlink (h : Holds P s) (e : ℕ) : Holds P (s.unlink e) where
  keyed hk := h.keyed (lookup_unlink hk).1
  allocated hk := h.allocated (lookup_unlink hk).1
  listed e' he' := h.listed e' (mem_of_mem_erase he')
  right hk := h.right (lookup_unlink hk).1

theorem link_heap (s : Shard) (e : ℕ) (entry : Entry) : (s.link e entry).heap = Function.update s.heap e entry := rfl

variable (h : Holds P s)
include h

theorem Holds.link {e : ℕ} (he : e < s.fresh) (hfree : ∀ k, s.items.lookup k ≠ some e)
    (hv : P entry.key entry.value) : Holds P (s.link e entry) := by
  have hcases : ∀ {k e'}, (s.link e entry).items.lookup k = some e' →
      k = entry.key ∧ e' = e ∨ s.items.lookup k = some e' ∧ e' ≠ e := by
    intro k e' hk
    change (s.items.insert entry.key e).lookup k = some e' at hk
    by_cases hkey : k = entry.key
    · rw [hkey, AList.lookup_insert] at hk
      exact .inl ⟨hkey, (Option.some.inj hk).symm⟩
    · rw [AList.lookup_insert_ne hkey] at hk
      right
      refine ⟨hk, ?_⟩
      rintro rfl
      exact hfree k hk
  have hnew : (s.link e entry).heap e = entry := by rw [link_heap, Function.update_self]
  have hold : ∀ {e'}, e' ≠ e → (s.link e entry).heap e' = s.heap e' := by
    intro e' hne
    rw [link_heap, Function.update_of_ne hne]
  refine ⟨?_, ?_, ?_, ?_⟩
  · intro k e' hk
    rcases hcases hk with ⟨rfl, rfl⟩ | ⟨hk, hne⟩
    · rw [hnew]
    · rw [hold hne]
      exact h.keyed hk
  · intro k e' hk
    rcases hcases hk with ⟨rfl, rfl⟩ | ⟨hk, -⟩
    · exact he
    · exact h.allocated hk
  · intro e' he'
    rcases mem_cons.mp he' with rfl | he'
    · exact he
    · exact h.listed e' he'
  · intro k e' hk
    rcases hcases hk with ⟨rfl, rfl⟩ | ⟨hk, hne⟩
    · rw [hnew]
      exact hv
    · rw [hold hne]
      exact h.right hk

theorem Holds.grow : Holds P { s with fresh := s.fresh + 1 } where
  keyed hk := h.keyed hk
  allocated hk := Nat.lt_succ_of_lt (h.allocated hk)
  listed e he := Nat.lt_succ_of_lt (h.listed e he)
  right hk := h.right hk

theorem Holds.overwrite {e : ℕ} (hk : s.items.lookup k = some e) {value : RRSet} (expiresAt : ℤ) (hv : P k value) :
    Holds P (s.write e { s.heap e with value := value, expiresAt := expiresAt }) where
  keyed {k' e'} hk' := by
    change ((Function.update s.heap e _) e').key = k'
    by_cases he : e' = e
    · subst he
      rw [Function.update_self]
      exact h.keyed hk'
    · rw [Function.update_of_ne he]
      exact h.keyed hk'
  allocated hk' := h.allocated hk'
  listed := h.listed
  right {k' e'} hk' := by
    change P k' ((Function.update s.heap e _) e').value
    by_cases he : e' = e
    · subst he
      obtain rfl : k' = k := (h.keyed hk').symm.trans (h.keyed hk)
      rw [Function.update_self]
      exact hv
    · rw [Function.update_of_ne he]
      exact h.right hk'

theorem Holds.set (hv : P entry.key entry.value) : Holds P (s.set entry) := by
  unfold Shard.set
  cases hk : s.items.lookup entry.key with
  | some e => exact (h.overwrite hk entry.expiresAt hv).promote (h.allocated hk)
  | none =>
    split_ifs with hfull
    · cases hl : s.list.getLast? with
      | none => exact h
      | some e =>
        -- unlinking the evicted entry takes away the only key that leads to it
        have hfree : ∀ k, (s.unlink e).items.lookup k ≠ some e := by
          intro k hk
          obtain ⟨hk, hne⟩ := lookup_unlink hk
          exact hne (h.keyed hk).symm
        exact (h.unlink e).link (h.listed e (mem_of_getLast? hl)) hfree hv
    · have hfree : ∀ k, s.items.lookup k ≠ some s.fresh := fun k hk => absurd (h.allocated hk) (Nat.lt_irrefl _)
      exact h.grow.link (Nat.lt_succ_self _) hfree hv

theorem Holds.delete (k : Key) : Holds P (s.delete k) := by
  unfold Shard.delete
  cases s.items.lookup k with
  | none => exact h
  | some e => exact h.unlink e

theorem Holds.get (k : Key) (now : ℤ) : Holds P (s.get k now).2 := by
  unfold Shard.get
  cases hk : s.items.lookup k with
  | none => exact h
  | some e =>
    simp only
    split_ifs
    · exact h.unlink e
    · exact h.promote (h.allocated hk)

theorem Holds.get_right {now : ℤ} (hv : (s.get k now).1 = some v) : P k v := by
  unfold Shard.get at hv
  cases hk : s.items.lookup k with
  | none =>
    rw [hk] at hv
    cases hv
  | some e =>
    rw [hk] at hv
    simp only at hv
    split_ifs at hv
    obtain rfl := Option.some.inj hv
    exact h.right hk

end Shard

end Cache

structure Cache where
  hash : Cache.Key → UInt64
  shards : Fin 256 → Cache.Shard

namespace Cache

def new (hash : Key → UInt64) (totalCapacity : ℤ) : Cache :=
  ⟨hash, fun _ => .new (max (totalCapacity.tdiv 256) 1).toNat⟩

def shardIndex (c : Cache) (key : Key) : Fin 256 := Fin.ofNat 256 (c.hash key &&& 255).toNat

def getShard (c : Cache) (key : Key) : Shard := c.shards (c.shardIndex key)

def putShard (c : Cache) (i : Fin 256) (s : Shard) : Cache := { c with shards := Function.update c.shards i s }

def delete (c : Cache) (key : Key) : Cache := c.putShard (c.shardIndex key) ((c.getShard key).delete key)

def set (c : Cache) (key : Key) (value : RRSet) (ttl now : ℤ) : Cache :=
  if ttl ≤ 0 then c.delete key
  else c.putShard (c.shardIndex key) ((c.getShard key).set ⟨key, value, unixNano (now + ttl)⟩)

def get (c : Cache) (key : Key) (now : ℤ) : Option RRSet × Cache :=
  let r := (c.getShard key).get key (unixNano now)
  (r.1, c.putShard (c.shardIndex key) r.2)

def clearShard (c : Cache) (i : Fin 256) : Cache := c.putShard i (c.shards i).clear

def clear (c : Cache) : Cache := (List.finRange 256).foldl clearShard c

theorem forall_putShard {c : Cache} {i : Fin 256} {s : Shard} {Q : Fin 256 → Shard → Prop} (hs : Q i s)
    (h : ∀ j, j ≠ i → Q j (c.shards j)) : ∀ j, Q j ((c.putShard i s).shards j) :=
  (Function.forall_update_iff c.shards Q).mpr ⟨hs, h⟩

theorem putShard_shards (c : Cache) (i : Fin 256) (s : Shard) :
    (c.putShard i s).shards = Function.update c.shards i s := rfl

def Holds (P : Key → RRSet → Prop) (c : Cache) : Prop := ∀ i, (c.shards i).Holds P

variable {P : Key → RRSet → Prop} {c : Cache}

theorem holds_new (hash : Key → UInt64) (totalCapacity : ℤ) : Holds P (new hash totalCapacity) :=
  fun _ => Shard.holds_new _

theorem Holds.get (h : Holds P c) (k : Key) (now : ℤ) : Holds P (c.get k now).2 :=
  forall_putShard (Q := fun _ => Shard.Holds P) ((h _).get k _) fun j _ => h j

theorem Holds.get_right (h : Holds P c) {now : ℤ} (hv : (c.get k now).1 = some v) : P k v :=
  (h _).get_right hv

theorem Holds.set (h : Holds P c) (hv : P k v) (ttl now : ℤ) : Holds P (c.set k v ttl now) := by
  unfold Cache.set
  split_ifs
  · exact forall_putShard (Q := fun _ => Shard.Holds P) ((h _).delete k) fun j _ => h j
  · exact forall_putShard (Q := fun _ => Shard.Holds P) ((h _).set hv) fun j _ => h j

theorem holds_foldl_clearShard (is : List (Fin 256)) (c : Cache) {i : Fin 256}
    (h : i ∈ is ∨ (c.shards i).Holds P) : ((is.foldl clearShard c).shards i).Holds P := by
  induction is generalizing c with
  | nil => exact h.resolve_left not_mem_nil
  | cons j is ih =>
    apply ih
    by_cases hij : i = j
    · right
      subst hij
      rw [clearShard, putShard_shards, Function.update_self]
      exact Shard.holds_clear _
    · rw [clearShard, putShard_shards, Function.update_of_ne hij]
      exact h.imp_left fun hm => (mem_cons.mp hm).resolve_left hij

theorem holds_clear (c : Cache) : Holds P c.clear :=
  fun i => holds_foldl_clearShard _ c (.inl (mem_finRange i))

end Cache

end Kdns
