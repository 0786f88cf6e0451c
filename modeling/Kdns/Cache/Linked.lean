import Kdns.Cache.Contents
import Kdns.Lib.LinkedList

open List

namespace Kdns.Cache

open ByteStream Dns LinkedList

/-- The address of an entry: a sentinel of the list, or a cell that `Set` has allocated. -/
inductive Ref where
  | head
  | tail
  | entry (e : ℕ)
  deriving DecidableEq

structure LinkedShard where
  links : Links Ref
  heap : Ref → Entry
  fresh : ℕ
  items : AList fun _ : Key => Ref
  capacity : ℕ

namespace LinkedShard

def new (capacity : ℕ) : LinkedShard :=
  ⟨((⟨fun _ => none, fun _ => none⟩ : Links Ref).setNext .head (some .tail)).setPrev .tail (some .head),
    fun _ => ⟨⟨[], 0⟩, .empty, 0⟩, 0, ∅, capacity⟩

def remove (s : LinkedShard) (e : Ref) : Option LinkedShard := do
  let links ← s.links.remove e
  return { s with links := links }

def pushFront (s : LinkedShard) (e : Ref) : Option LinkedShard := do
  let links ← s.links.insertAfter .head e
  return { s with links := links }

def promote (s : LinkedShard) (e : Ref) : Option LinkedShard :=
  if s.links.next .head ≠ some e then do
    let s ← s.remove e
    s.pushFront e
  else some s

def unlink (s : LinkedShard) (e : Ref) : Option LinkedShard := do
  let s ← s.remove e
  return { s with items := s.items.erase (s.heap e).key }

def write (s : LinkedShard) (e : Ref) (entry : Entry) : LinkedShard := { s with heap := Function.update s.heap e entry }

def link (s : LinkedShard) (e : Ref) (entry : Entry) : Option LinkedShard :=
  ({ s.write e entry with items := s.items.insert entry.key e }).pushFront e

def set (s : LinkedShard) (entry : Entry) : Option LinkedShard :=
  match s.items.lookup entry.key with
  | some e => (s.write e { s.heap e with value := entry.value, expiresAt := entry.expiresAt }).promote e
  | none =>
    if s.items.entries.length ≥ s.capacity then do
      let e ← s.links.prev .tail
      let s ← s.unlink e
      s.link e entry
    else ({ s with fresh := s.fresh + 1 } : LinkedShard).link (.entry s.fresh) entry

def get (s : LinkedShard) (key : Key) (now : ℤ) : Option (Option RRSet × LinkedShard) :=
  match s.items.lookup key with
  | none => some (none, s)
  | some e =>
    if now ≥ (s.heap e).expiresAt then do
      let s ← s.unlink e
      return (none, s)
    else do
      let s ← s.promote e
      return (some (s.heap e).value, s)

def delete (s : LinkedShard) (key : Key) : Option LinkedShard :=
  match s.items.lookup key with
  | none => some s
  | some e => s.unlink e

def clear (s : LinkedShard) : LinkedShard :=
  { s with items := ∅, links := (s.links.setNext .head (some .tail)).setPrev .tail (some .head) }

end LinkedShard

structure Shard.Linked (s : Shard) (l : LinkedShard) : Prop where
  path : l.links.Path (.head :: (s.list.map .entry ++ [.tail]))
  heap : ∀ e, l.heap (.entry e) = s.heap e
  fresh : l.fresh = s.fresh
  keys : l.items.keys = s.items.keys
  lookup : ∀ k, l.items.lookup k = (s.items.lookup k).map Ref.entry
  capacity : l.capacity = s.capacity

namespace Shard.Linked

variable {s : Shard} {l : LinkedShard} {e : ℕ} {entry : Entry} {k : Key}

variable (h : s.Linked l)
include h

theorem remove (he : e ∈ s.list) : ∃ l', l.remove (.entry e) = some l' ∧ (s.remove e).Linked l' := by
  obtain ⟨xs, ys, hlist, hxs⟩ := eq_append_cons_of_mem he
  have hpath := h.path
  obtain ⟨pre, a, hpre⟩ : ∃ pre a, .head :: xs.map Ref.entry = pre ++ [a] :=
    ⟨_, _, (dropLast_append_getLast (cons_ne_nil _ _)).symm⟩
  obtain ⟨b, post, hpost⟩ : ∃ b post, ys.map Ref.entry ++ [.tail] = b :: post :=
    exists_cons_of_ne_nil (by simp)
  have hsplit : .head :: (s.list.map Ref.entry ++ [.tail]) = pre ++ a :: .entry e :: b :: post := by
    rw [hlist, ← hpost, map_append, map_cons]
    have hcut := congrArg (· ++ .entry e :: (ys.map Ref.entry ++ [.tail])) hpre
    simpa using hcut
  rw [hsplit] at hpath
  obtain ⟨links, hremove, hlinks⟩ := hpath.remove
  refine ⟨{ l with links := links }, by rw [LinkedShard.remove, hremove]; rfl, ⟨?_, h.heap, h.fresh, h.keys, h.lookup, h.capacity⟩⟩
  have hjoin : .head :: ((s.remove e).list.map Ref.entry ++ [.tail]) = pre ++ a :: b :: post := by
    change .head :: ((s.list.erase e).map Ref.entry ++ [.tail]) = _
    rw [hlist, erase_append_right _ hxs, erase_cons_head, ← hpost, map_append]
    have hcut := congrArg (· ++ (ys.map Ref.entry ++ [.tail])) hpre
    simpa using hcut
  rw [hjoin]
  exact hlinks

theorem pushFront (he : e ∉ s.list) : ∃ l', l.pushFront (.entry e) = some l' ∧ (s.pushFront e).Linked l' := by
  have hpath := h.path
  obtain ⟨b, post, hpost⟩ : ∃ b post, s.list.map Ref.entry ++ [.tail] = b :: post :=
    exists_cons_of_ne_nil (by simp)
  have hfree : Ref.entry e ∉ .head :: (b :: post) := by
    rw [← hpost]
    simpa using he
  rw [hpost] at hpath
  obtain ⟨links, hinsert, hlinks⟩ := hpath.insertAfter hfree
  refine ⟨{ l with links := links }, by rw [LinkedShard.pushFront, hinsert]; rfl, ⟨?_, h.heap, h.fresh, h.keys, h.lookup, h.capacity⟩⟩
  rw [← hpost] at hlinks
  exact hlinks

theorem next_head : l.links.next .head = some (.entry e) ↔ s.list.head? = some e := by
  have hpath := h.path
  cases hlist : s.list with
  | nil =>
    rw [hlist] at hpath
    simp [hpath.next_eq]
  | cons e' rest =>
    rw [hlist] at hpath
    simp [hpath.next_eq]

theorem prev_tail (he : s.list.getLast? = some e) : l.links.prev .tail = some (.entry e) := by
  have hpath := h.path
  obtain ⟨front, hlist⟩ := List.getLast?_eq_some_iff.mp he
  have hsplit : .head :: (s.list.map Ref.entry ++ [.tail]) = (.head :: front.map Ref.entry) ++ [.entry e, .tail] := by
    simp [hlist]
  rw [hsplit] at hpath
  exact hpath.prev_eq

theorem promote (hs : s.Tidy) (he : e ∈ s.list) : ∃ l', l.promote (.entry e) = some l' ∧ (s.promote e).Linked l' := by
  unfold LinkedShard.promote Shard.promote
  by_cases hhead : s.list.head? = some e
  · rw [if_neg (not_not.mpr (h.next_head.mpr hhead)), if_neg (not_not.mpr hhead)]
    exact ⟨l, rfl, h⟩
  · rw [if_pos (mt h.next_head.mp hhead), if_pos hhead]
    obtain ⟨l₁, hremove, h₁⟩ := h.remove he
    obtain ⟨l₂, hpush, h₂⟩ := h₁.pushFront hs.nodup.not_mem_erase
    refine ⟨l₂, ?_, h₂⟩
    rw [hremove]
    exact hpush

theorem unlink (he : e ∈ s.list) : ∃ l', l.unlink (.entry e) = some l' ∧ (s.unlink e).Linked l' := by
  obtain ⟨l₁, hremove, h₁⟩ := h.remove he
  have hkey : (l₁.heap (.entry e)).key = (s.heap e).key := congrArg Entry.key (h₁.heap e)
  refine ⟨{ l₁ with items := l₁.items.erase (s.heap e).key }, ?_, h₁.path, h₁.heap, h₁.fresh, ?_, ?_, h₁.capacity⟩
  · rw [LinkedShard.unlink, hremove, ← hkey]
    rfl
  · rw [AList.keys_erase, h₁.keys, Shard.unlink_items, AList.keys_erase]
    rfl
  · intro k
    change (l₁.items.erase _).lookup k = ((s.items.erase _).lookup k).map _
    by_cases hk : k = (s.heap e).key
    · rw [hk, AList.lookup_erase, AList.lookup_erase]
      rfl
    · rw [AList.lookup_erase_ne hk, AList.lookup_erase_ne hk, h₁.lookup]
      rfl

theorem write (e : ℕ) (entry : Entry) : (s.write e entry).Linked (l.write (.entry e) entry) where
  path := h.path
  heap e' := by
    change Function.update l.heap (.entry e) entry (.entry e') = Function.update s.heap e entry e'
    by_cases heq : e' = e
    · rw [heq, Function.update_self, Function.update_self]
    · rw [Function.update_of_ne heq, Function.update_of_ne (by simpa using heq), h.heap]
  fresh := h.fresh
  keys := h.keys
  lookup := h.lookup
  capacity := h.capacity

theorem link (he : e ∉ s.list) (entry : Entry) :
    ∃ l', l.link (.entry e) entry = some l' ∧ (s.link e entry).Linked l' := by
  have hwrite := h.write e entry
  have hitems : ({ s.write e entry with items := s.items.insert entry.key e } : Shard).Linked
      { l.write (.entry e) entry with items := l.items.insert entry.key (.entry e) } := by
    refine ⟨hwrite.path, hwrite.heap, hwrite.fresh, ?_, ?_, hwrite.capacity⟩
    · rw [AList.keys_insert, AList.keys_insert, h.keys]
    · intro k
      by_cases hk : k = entry.key
      · rw [hk, AList.lookup_insert, AList.lookup_insert]
        rfl
      · rw [AList.lookup_insert_ne hk, AList.lookup_insert_ne hk, h.lookup]
  exact hitems.pushFront he

theorem length_eq : l.items.entries.length = s.items.entries.length := by
  have hlength := congrArg List.length h.keys
  rwa [AList.keys, AList.keys, List.keys, List.keys, length_map, length_map] at hlength

theorem set (hs : s.Tidy) (hcapacity : 0 < s.capacity) (entry : Entry) :
    ∃ l', l.set entry = some l' ∧ (s.set entry).Linked l' := by
  have hfull_iff : l.items.entries.length ≥ l.capacity ↔ s.capacity ≤ s.list.length := by
    rw [h.length_eq, hs.length_eq, h.capacity]
  unfold LinkedShard.set
  rw [h.lookup]
  rcases Shard.set_cases hs hcapacity entry with ⟨e, he, hkey, heq⟩ | ⟨hk, hroom, heq⟩ | ⟨e, hk, hfull, hlast, heq⟩
  · have hlookup := hs.lookup_iff.mpr ⟨he, hkey.symm⟩
    rw [heq, hlookup, Option.map_some]
    dsimp only
    rw [h.heap, ← hkey]
    exact (h.write e entry).promote (hs.write hkey) he
  · have hgrow : ({ s with fresh := s.fresh + 1 } : Shard).Linked { l with fresh := s.fresh + 1 } :=
      ⟨h.path, h.heap, rfl, h.keys, h.lookup, h.capacity⟩
    rw [heq, hk, Option.map_none]
    rw [if_neg (mt hfull_iff.mp (Nat.not_le.mpr hroom)), h.fresh]
    exact hgrow.link (fun hin => Nat.lt_irrefl _ (hs.allocated _ hin)) entry
  · obtain ⟨-, hfree, -⟩ := Shard.recycle hs hlast hk
    obtain ⟨l₁, hunlink, h₁⟩ := h.unlink (mem_of_getLast? hlast)
    rw [heq, hk, Option.map_none]
    rw [if_pos (hfull_iff.mpr hfull), h.prev_tail hlast, Option.bind_eq_bind, Option.bind_some, hunlink]
    exact h₁.link hfree entry

theorem get (hs : s.Tidy) (k : Key) (now : ℤ) :
    ∃ l', l.get k now = some ((s.get k now).1, l') ∧ (s.get k now).2.Linked l' := by
  unfold LinkedShard.get Shard.get
  rw [h.lookup]
  cases hk : s.items.lookup k with
  | none => exact ⟨l, rfl, h⟩
  | some e =>
    have he := (hs.lookup_iff.mp hk).1
    rw [Option.map_some]
    dsimp only
    rw [h.heap]
    split_ifs
    · obtain ⟨l', hunlink, h'⟩ := h.unlink he
      exact ⟨l', by rw [hunlink]; rfl, h'⟩
    · obtain ⟨l', hpromote, h'⟩ := h.promote hs he
      have hvalue : (l'.heap (.entry e)).value = (s.heap e).value := by rw [h'.heap, Shard.promote_heap]
      refine ⟨l', ?_, h'⟩
      rw [hpromote, ← hvalue]
      rfl

theorem delete (hs : s.Tidy) (k : Key) : ∃ l', l.delete k = some l' ∧ (s.delete k).Linked l' := by
  unfold LinkedShard.delete Shard.delete
  rw [h.lookup]
  cases hk : s.items.lookup k with
  | none => exact ⟨l, rfl, h⟩
  | some e => exact h.unlink (hs.lookup_iff.mp hk).1

theorem clear : s.clear.Linked l.clear where
  path := Links.Path.reset _ (by decide)
  heap := h.heap
  fresh := h.fresh
  keys := rfl
  lookup _ := rfl
  capacity := h.capacity

end Shard.Linked

end Kdns.Cache
