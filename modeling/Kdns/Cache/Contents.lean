import Kdns.Cache
import Kdns.Lib.Lru

namespace Kdns.Cache.Shard

open ByteStream Dns Lru

def contents (s : Shard) : List Entry := s.list.map s.heap

structure Tidy (s : Shard) : Prop where
  keys : s.items.keys.Perm (s.contents.map Entry.key)
  lookup : ∀ e ∈ s.list, s.items.lookup (s.heap e).key = some e
  allocated : ∀ e ∈ s.list, e < s.fresh
  bounded : s.list.length ≤ s.capacity

variable {s : Shard} {e : ℕ} {k : Key} {entry : Entry}

namespace Tidy

variable (h : Tidy s)
include h

theorem keys_nodup : (s.contents.map Entry.key).Nodup := h.keys.nodup_iff.mp s.items.nodupKeys

theorem nodup : s.list.Nodup := by
  have hnodup := h.keys_nodup
  rw [contents, List.map_map] at hnodup
  exact hnodup.of_map _

theorem lookup_iff : s.items.lookup k = some e ↔ e ∈ s.list ∧ (s.heap e).key = k := by
  constructor
  · intro hk
    have hmem : k ∈ s.items := AList.lookup_isSome.mp (by rw [hk]; rfl)
    obtain ⟨entry, hentry, rfl⟩ := List.mem_map.mp (h.keys.mem_iff.mp hmem)
    obtain ⟨e', he', rfl⟩ := List.mem_map.mp hentry
    have hsame := (h.lookup e' he').symm.trans hk
    cases hsame
    exact ⟨he', rfl⟩
  · rintro ⟨he, rfl⟩
    exact h.lookup e he

theorem lookup_none_iff : s.items.lookup k = none ↔ k ∉ s.contents.map Entry.key := by
  rw [AList.lookup_eq_none, ← h.keys.mem_iff]
  rfl

theorem key_ne {e' : ℕ} (he : e ∈ s.list) (he' : e' ∈ s.list) (hne : e' ≠ e) : (s.heap e').key ≠ (s.heap e).key := by
  intro hkey
  have hsame := (h.lookup e' he').symm.trans (hkey ▸ h.lookup e he)
  exact hne (Option.some.inj hsame)

theorem length_eq : s.items.entries.length = s.list.length := by
  have hlen := h.keys.length_eq
  rwa [contents, List.length_map, List.length_map, AList.keys, List.keys, List.length_map] at hlen

end Tidy

theorem tidy_clear (s : Shard) : Tidy s.clear where
  keys := .nil
  lookup e he := by cases he
  allocated e he := by cases he
  bounded := Nat.zero_le _

theorem contents_unlink (h : Tidy s) (he : e ∈ s.list) :
    (s.unlink e).contents = s.contents.filter fun x => x.key ≠ (s.heap e).key := by
  change (s.list.erase e).map s.heap = (s.list.map s.heap).filter _
  rw [h.nodup.erase_eq_filter, List.filter_map]
  congr 1
  apply List.filter_congr
  intro e' he'
  by_cases heq : e' = e
  · simp [heq]
  · simp [heq, h.key_ne he he' heq]

theorem unlink_items (s : Shard) (e : ℕ) : (s.unlink e).items = s.items.erase (s.heap e).key := rfl

theorem unlink_heap (s : Shard) (e : ℕ) : (s.unlink e).heap = s.heap := rfl

theorem Tidy.unlink (h : Tidy s) (he : e ∈ s.list) : Tidy (s.unlink e) where
  keys := by
    have hfilter : (s.contents.map Entry.key).erase (s.heap e).key = (s.contents.filter fun x => x.key ≠ (s.heap e).key).map Entry.key := by
      rw [h.keys_nodup.erase_eq_filter, List.filter_map]
      congr 2
      funext x
      rw [Function.comp_apply, bne, beq_eq_decide, decide_not]
    rw [contents_unlink h he, ← hfilter, unlink_items, AList.keys_erase]
    exact h.keys.erase _
  lookup e' he' := by
    have hmem := h.nodup.mem_erase_iff.mp he'
    rw [unlink_items, unlink_heap, AList.lookup_erase_ne (h.key_ne he hmem.2 hmem.1)]
    exact h.lookup e' hmem.2
  allocated e' he' := h.allocated e' (List.mem_of_mem_erase he')
  bounded := List.erase_sublist.length_le.trans h.bounded

theorem promote_heap (s : Shard) (e : ℕ) : (s.promote e).heap = s.heap := by
  unfold promote
  split_ifs <;> rfl

theorem contents_promote (h : Tidy s) (he : e ∈ s.list) :
    (s.promote e).contents = s.heap e :: s.contents.filter fun x => x.key ≠ (s.heap e).key := by
  rw [← contents_unlink h he]
  unfold promote
  split_ifs with hhead
  · rfl
  · obtain ⟨rest, hrest⟩ := List.head?_eq_some_iff.mp (not_not.mp hhead)
    change s.list.map s.heap = s.heap e :: (s.list.erase e).map s.heap
    rw [hrest, List.erase_cons_head, List.map_cons]

theorem Tidy.promote (h : Tidy s) (he : e ∈ s.list) : Tidy (s.promote e) := by
  unfold Shard.promote
  split_ifs with hhead
  · have hperm : (e :: s.list.erase e).Perm s.list := (List.perm_cons_erase he).symm
    refine ⟨h.keys.trans ((hperm.symm.map s.heap).map Entry.key), ?_, ?_, ?_⟩
    · exact fun e' he' => h.lookup e' (hperm.mem_iff.mp he')
    · exact fun e' he' => h.allocated e' (hperm.mem_iff.mp he')
    · exact hperm.length_eq.le.trans h.bounded
  · exact h

theorem contents_link (hfree : e ∉ s.list) : (s.link e entry).contents = entry :: s.contents := by
  change (e :: s.list).map (Function.update s.heap e entry) = entry :: s.list.map s.heap
  rw [List.map_cons, Function.update_self]
  congr 1
  apply List.map_congr_left
  intro e' he'
  exact Function.update_of_ne (ne_of_mem_of_not_mem he' hfree) _ _

theorem Tidy.link (h : Tidy s) (he : e < s.fresh) (hfree : e ∉ s.list) (hkey : s.items.lookup entry.key = none)
    (hroom : s.list.length < s.capacity) : Tidy (s.link e entry) where
  keys := by
    have hnew : entry.key ∉ s.items.keys := AList.lookup_eq_none.mp hkey
    rw [contents_link hfree, List.map_cons]
    change (s.items.insert entry.key e).keys.Perm _
    rw [AList.keys_insert, List.erase_of_not_mem hnew]
    exact h.keys.cons _
  lookup e' he' := by
    change (s.items.insert entry.key e).lookup _ = _
    rw [link_heap]
    rcases List.mem_cons.mp he' with rfl | he'
    · rw [Function.update_self, AList.lookup_insert]
    · rw [Function.update_of_ne (ne_of_mem_of_not_mem he' hfree), AList.lookup_insert_ne, h.lookup e' he']
      intro heq
      rw [← heq, h.lookup e' he'] at hkey
      cases hkey
  allocated := List.forall_mem_cons.mpr ⟨he, h.allocated⟩
  bounded := hroom

theorem Tidy.grow (h : Tidy s) : Tidy { s with fresh := s.fresh + 1 } :=
  ⟨h.keys, h.lookup, fun e he => Nat.lt_succ_of_lt (h.allocated e he), h.bounded⟩

theorem Tidy.write (h : Tidy s) (hkey : entry.key = (s.heap e).key) : Tidy (s.write e entry) := by
  have hkeys : ∀ e', ((s.write e entry).heap e').key = (s.heap e').key := by
    intro e'
    change (Function.update s.heap e entry e').key = _
    by_cases heq : e' = e
    · rw [heq, Function.update_self, hkey]
    · rw [Function.update_of_ne heq]
  refine ⟨?_, ?_, h.allocated, h.bounded⟩
  · have hsame : (s.write e entry).contents.map Entry.key = s.contents.map Entry.key := by
      rw [contents, contents, List.map_map, List.map_map]
      exact List.map_congr_left fun e' _ => hkeys e'
    rw [hsame]
    exact h.keys
  · intro e' he'
    rw [hkeys]
    exact h.lookup e' he'

theorem contents_overwrite (h : Tidy s) (he : e ∈ s.list) (hkey : entry.key = (s.heap e).key) :
    ((s.write e entry).promote e).contents = entry :: s.contents.filter fun x => x.key ≠ entry.key := by
  have hentry : (s.write e entry).heap e = entry := Function.update_self ..
  have hothers : ((s.write e entry).unlink e).contents = (s.unlink e).contents := by
    apply List.map_congr_left
    intro e' he'
    exact Function.update_of_ne (h.nodup.mem_erase_iff.mp he').1 _ _
  rw [contents_unlink (h.write hkey) he, contents_unlink h he, hentry, ← hkey] at hothers
  rw [contents_promote (h.write hkey) he, hentry, hothers]

theorem recycle (h : Tidy s) (he : s.list.getLast? = some e) (hkey : s.items.lookup entry.key = none) :
    (s.unlink e).contents = s.contents.dropLast ∧ e ∉ (s.unlink e).list ∧ (s.unlink e).items.lookup entry.key = none ∧
      (s.unlink e).list.length < (s.unlink e).capacity := by
  obtain ⟨front, hlist⟩ := List.getLast?_eq_some_iff.mp he
  have hnodup := h.nodup
  have hbounded := h.bounded
  rw [hlist] at hnodup hbounded
  have hfront : e ∉ front := fun hin => List.disjoint_of_nodup_append hnodup hin List.mem_cons_self
  have herase : (s.unlink e).list = front := by
    change s.list.erase e = front
    rw [hlist, List.erase_append_right _ hfront, List.erase_cons_head, List.append_nil]
  refine ⟨?_, herase ▸ hfront, ?_, ?_⟩
  · rw [contents, contents, herase, hlist, List.map_append, List.map_singleton, List.dropLast_concat, unlink_heap]
  · rw [unlink_items, AList.lookup_eq_none]
    exact fun hin => AList.lookup_eq_none.mp hkey (AList.mem_erase.mp hin).2
  · rw [herase]
    rwa [List.length_append, List.length_singleton] at hbounded

section Set

theorem set_cases (h : Tidy s) (hcapacity : 0 < s.capacity) (entry : Entry) :
    (∃ e ∈ s.list, entry.key = (s.heap e).key ∧ s.set entry = (s.write e entry).promote e) ∨
      (s.items.lookup entry.key = none ∧ s.list.length < s.capacity ∧
        s.set entry = ({ s with fresh := s.fresh + 1 } : Shard).link s.fresh entry) ∨
      ∃ e, s.items.lookup entry.key = none ∧ s.capacity ≤ s.list.length ∧ s.list.getLast? = some e ∧
        s.set entry = (s.unlink e).link e entry := by
  unfold Shard.set
  rw [h.length_eq]
  cases hk : s.items.lookup entry.key with
  | some e =>
    obtain ⟨he, hkey⟩ := h.lookup_iff.mp hk
    refine .inl ⟨e, he, hkey.symm, ?_⟩
    dsimp only
    rw [hkey]
  | none =>
    split_ifs with hfull
    · cases hlast : s.list.getLast? with
      | some e => exact .inr (.inr ⟨e, rfl, hfull, rfl, rfl⟩)
      | none => grind
    · exact .inr (.inl ⟨rfl, Nat.lt_of_not_le hfull, rfl⟩)

variable (h : Tidy s) (hcapacity : 0 < s.capacity) (entry : Entry)

include h hcapacity

theorem contents_set : (s.set entry).contents = enter Entry.key s.capacity entry s.contents := by
  have hlength : s.contents.length = s.list.length := List.length_map _
  rw [enter, hlength]
  rcases set_cases h hcapacity entry with ⟨e, he, hkey, heq⟩ | ⟨hk, hroom, heq⟩ | ⟨e, hk, hfull, hlast, heq⟩
  · have hmem : entry.key ∈ s.contents.map Entry.key := hkey ▸ List.mem_map_of_mem (List.mem_map_of_mem he)
    rw [heq, contents_overwrite h he hkey, if_pos hmem]
  · have hfree : s.fresh ∉ s.list := fun hin => Nat.lt_irrefl _ (h.allocated _ hin)
    rw [heq, if_neg (h.lookup_none_iff.mp hk), if_pos hroom]
    exact contents_link hfree
  · obtain ⟨hcontents, hfree, -⟩ := recycle h hlast hk
    rw [heq, contents_link hfree, hcontents, if_neg (h.lookup_none_iff.mp hk), if_neg (Nat.not_lt.mpr hfull)]

theorem Tidy.set : Tidy (s.set entry) := by
  rcases set_cases h hcapacity entry with ⟨e, he, hkey, heq⟩ | ⟨hk, hroom, heq⟩ | ⟨e, hk, hfull, hlast, heq⟩
  · rw [heq]
    exact (h.write hkey).promote he
  · rw [heq]
    exact h.grow.link (Nat.lt_succ_self _) (fun hin => Nat.lt_irrefl _ (h.allocated _ hin)) hk hroom
  · obtain ⟨-, hfree, hkey, hroom⟩ := recycle h hlast hk
    have hmem := List.mem_of_getLast? hlast
    rw [heq]
    exact (h.unlink hmem).link (h.allocated e hmem) hfree hkey hroom

end Set

section Get

variable (h : Tidy s)
include h

theorem get_cases (k : Key) (now : ℤ) : (k ∉ s.contents.map Entry.key ∧ s.get k now = (none, s)) ∨
      ∃ e ∈ s.list, (s.heap e).key = k ∧
        s.get k now = if now ≥ (s.heap e).expiresAt then (none, s.unlink e) else (some (s.heap e).value, s.promote e) := by
  unfold Shard.get
  cases hk : s.items.lookup k with
  | none => exact .inl ⟨h.lookup_none_iff.mp hk, rfl⟩
  | some e =>
    obtain ⟨he, hkey⟩ := h.lookup_iff.mp hk
    exact .inr ⟨e, he, hkey, rfl⟩

theorem Tidy.get (k : Key) (now : ℤ) : Tidy (s.get k now).2 := by
  rcases get_cases h k now with ⟨-, heq⟩ | ⟨e, he, -, heq⟩
  · rw [heq]
    exact h
  · rw [heq]
    split_ifs
    · exact h.unlink he
    · exact h.promote he

theorem delete_cases (k : Key) :
    (k ∉ s.contents.map Entry.key ∧ s.delete k = s) ∨ ∃ e ∈ s.list, (s.heap e).key = k ∧ s.delete k = s.unlink e := by
  unfold Shard.delete
  cases hk : s.items.lookup k with
  | none => exact .inl ⟨h.lookup_none_iff.mp hk, rfl⟩
  | some e =>
    obtain ⟨he, hkey⟩ := h.lookup_iff.mp hk
    exact .inr ⟨e, he, hkey, rfl⟩

theorem Tidy.delete (k : Key) : Tidy (s.delete k) := by
  rcases delete_cases h k with ⟨-, heq⟩ | ⟨e, he, -, heq⟩
  · rw [heq]
    exact h
  · rw [heq]
    exact h.unlink he

theorem contents_delete (k : Key) : (s.delete k).contents = s.contents.filter fun x => x.key ≠ k := by
  rcases delete_cases h k with ⟨hk, heq⟩ | ⟨e, he, rfl, heq⟩
  · rw [heq, List.filter_eq_self.mpr]
    intro x hx
    exact decide_eq_true fun hkey => hk (hkey ▸ List.mem_map_of_mem hx)
  · rw [heq, contents_unlink h he]

end Get

end Kdns.Cache.Shard
