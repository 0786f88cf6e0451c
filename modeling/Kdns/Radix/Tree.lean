import Kdns.Lib.Overwrite
import Kdns.Radix.Query
import Mathlib.Data.Finset.Card

open List

namespace Kdns.Radix

open ByteStream Dns

structure Tree where
  root : Node
  size : ℕ

namespace Tree

def new : Tree := ⟨.empty, 0⟩

def deleteDomain (t : Tree) (domain : Bytes) : Tree :=
  match findNode t.root (labels domain) with
  | none => t
  | some target =>
    if target.rrsets = [] then t
    else
      match deletePath t.root (labels domain) with
      | (_, false) => t
      | (newRoot, true) => ⟨newRoot.getD .empty, t.size - 1⟩

def upsert (t : Tree) (domain : Bytes) (rs : RRSets) : Tree :=
  if rs = [] then t.deleteDomain domain
  else
    let r := upsertPath t.root (labels domain) rs
    ⟨r.1, if r.2 then t.size + 1 else t.size⟩

def get (t : Tree) (domain : Bytes) : Option RRSets := (findNode t.root (labels domain)).bind records

def len (t : Tree) : ℕ := t.size

def walk (t : Tree) : List (Bytes × RRSets) := Radix.walk t.root

def contents (t : Tree) : List Bytes → Option RRSets := view t.root

end Tree

def names (n : Node) : Finset (List Bytes) := ((entries n).map Prod.fst).toFinset

theorem mem_names {n : Node} (h : WF n) (p : List Bytes) : p ∈ names n ↔ view n p ≠ none := by
  rw [names, mem_toFinset, mem_map, Option.ne_none_iff_exists']
  constructor
  · rintro ⟨x, hx, rfl⟩
    exact ⟨x.2, (mem_entries h x.1 x.2).mp hx⟩
  · rintro ⟨r, hr⟩
    exact ⟨(p, r), (mem_entries h p r).mpr hr, rfl⟩

theorem card_names {n : Node} (h : WF n) : (names n).card = (entries n).length := by
  rw [names, toFinset_card_of_nodup (nodup_entries h), length_map]

structure Tree.Valid (t : Tree) : Prop where
  wf : WF t.root
  size_eq : t.size = (names t.root).card

namespace Tree

theorem valid_new : new.Valid := ⟨wf_empty, rfl⟩

theorem contents_new : new.contents = fun _ => none := funext view_empty

theorem ext_contents {t t' : Tree} (h : t.Valid) (h' : t'.Valid) (he : t.contents = t'.contents) : t = t' := by
  have hroot : t.root = t'.root := eq_of_view h.wf h'.wf (congrFun he)
  obtain ⟨root, size⟩ := t
  obtain ⟨root', size'⟩ := t'
  obtain rfl : root = root' := hroot
  obtain rfl : size = size' := h.size_eq.trans h'.size_eq.symm
  rfl

theorem deleteDomain_spec {t : Tree} (h : t.Valid) (domain : Bytes) : (t.deleteDomain domain).Valid ∧
      (t.deleteDomain domain).contents = Overwrite.put t.contents (labels domain, none) := by
  by_cases hv : view t.root (labels domain) = none
  · have hsame : t.deleteDomain domain = t := by
      unfold deleteDomain
      cases hf : findNode t.root (labels domain) with
      | none => rfl
      | some m =>
        have : m.rrsets = [] := by
          by_contra h0
          simp [view, hf, records, h0] at hv
        simp [this]
    rw [hsame]
    refine ⟨h, ?_⟩
    rw [Overwrite.put, eq_comm, Function.update_eq_self_iff]
    exact hv.symm
  · obtain ⟨hd, hwf, hview⟩ := deletePath_spec h.wf hv
    obtain ⟨m, hf, hr⟩ : ∃ m, findNode t.root (labels domain) = some m ∧ m.rrsets ≠ [] := by
      cases hf : findNode t.root (labels domain) with
      | none => simp [view, hf] at hv
      | some m => exact ⟨m, rfl, by rintro h0; simp [view, hf, records, h0] at hv⟩
    have heq : t.deleteDomain domain = ⟨(deletePath t.root (labels domain)).1.getD .empty, t.size - 1⟩ := by
      unfold deleteDomain
      rw [hf]
      simp only [hr, if_false]
      rcases hdel : deletePath t.root (labels domain) with ⟨r, b⟩
      rw [hdel] at hd
      cases hd
      rfl
    have hroot : WF ((deletePath t.root (labels domain)).1.getD .empty) := by
      cases hr : (deletePath t.root (labels domain)).1 with
      | none => exact wf_empty
      | some m => exact (hwf m hr).1
    have hview' : ∀ q, view ((deletePath t.root (labels domain)).1.getD .empty) q =
        if q = labels domain then none else view t.root q := by
      intro q
      rw [← hview q]
      cases (deletePath t.root (labels domain)).1 with
      | none => exact view_empty q
      | some m => rfl
    have hnames : names ((deletePath t.root (labels domain)).1.getD .empty) =
        (names t.root).erase (labels domain) := by
      ext q
      rw [mem_names hroot, hview', Finset.mem_erase, mem_names h.wf]
      split_ifs with hq <;> simp [hq]
    rw [heq]
    refine ⟨⟨hroot, ?_⟩, funext fun q => ?_⟩
    · rw [hnames, Finset.card_erase_of_mem ((mem_names h.wf _).mpr hv), h.size_eq]
    · rw [contents, hview', Overwrite.put, Function.update_apply]
      rfl

theorem upsert_spec {t : Tree} (h : t.Valid) (domain : Bytes) (rs : RRSets) : (t.upsert domain rs).Valid ∧
      (t.upsert domain rs).contents =
        Overwrite.put t.contents (labels domain, if rs = [] then none else some rs) := by
  unfold upsert
  split_ifs with h0
  · exact deleteDomain_spec h domain
  have hl := labels_isLabel domain
  have hwf := wf_upsertPath h0 h.wf hl
  have hview := view_upsertPath h0 h.wf hl
  have hnames : names (upsertPath t.root (labels domain) rs).1 = insert (labels domain) (names t.root) := by
    ext q
    rw [mem_names hwf, hview, Finset.mem_insert, mem_names h.wf]
    split_ifs with hq <;> simp [hq]
  refine ⟨⟨hwf, ?_⟩, funext fun q => ?_⟩
  · dsimp only
    rw [hnames, upsertPath_wasEmpty h.wf, h.size_eq]
    cases hv : view t.root (labels domain) with
    | none => rw [Finset.card_insert_of_notMem (by rw [mem_names h.wf, hv]; simp)]; rfl
    | some r => rw [Finset.insert_eq_of_mem (by rw [mem_names h.wf, hv]; simp)]; rfl
  · rw [contents, hview, Overwrite.put, Function.update_apply]
    rfl

theorem walk_spec {t : Tree} (h : t.Valid) (hn : NamesWithin pathBufSize t.root) :
    t.walk = (entries t.root).map (fun x => (nameOf x.1, x.2)) ∧ t.walk.length = t.len := by
  have hw : t.walk = (entries t.root).map fun x => (nameOf x.1, x.2) := walk_eq h.wf hn
  refine ⟨hw, ?_⟩
  rw [hw, length_map, len, h.size_eq, card_names h.wf]

def upsertAll (t : Tree) (es : List (Bytes × RRSets)) : Tree := es.foldl (fun t e => t.upsert e.1 e.2) t

def upsertWrite (e : Bytes × RRSets) : List Bytes × Option RRSets := (labels e.1, if e.2 = [] then none else some e.2)

theorem upsertAll_spec {t : Tree} (h : t.Valid) (es : List (Bytes × RRSets)) :
    (t.upsertAll es).Valid ∧ (t.upsertAll es).contents = Overwrite.replay t.contents (es.map upsertWrite) := by
  induction es generalizing t with
  | nil => exact ⟨h, rfl⟩
  | cons e es ih =>
    obtain ⟨hv, hc⟩ := upsert_spec h e.1 e.2
    obtain ⟨hv', hc'⟩ := ih hv
    exact ⟨hv', by rw [upsertAll, foldl_cons]; exact hc'.trans (by rw [hc]; rfl)⟩

theorem upsertAll_walk {t : Tree} (h : t.Valid) (hn : NamesWithin pathBufSize t.root) : new.upsertAll t.walk = t := by
  obtain ⟨hv, hc⟩ := upsertAll_spec valid_new t.walk
  apply ext_contents hv h
  rw [hc, contents_new, (walk_spec h hn).1, map_map]
  have hwrite : ∀ x ∈ entries t.root,
      (upsertWrite ∘ fun x => (nameOf x.1, x.2)) x = (x.1, some x.2) ∧ view t.root x.1 = some x.2 := by
    intro x hx
    have hx' := (mem_entries h.wf x.1 x.2).mp hx
    have h0 : x.2 ≠ [] := fun h0 => view_ne_nil (h0 ▸ hx')
    refine ⟨?_, hx'⟩
    simp only [Function.comp_apply, upsertWrite, labels_nameOf (view_labels h.wf hx'), if_neg h0]
  refine Overwrite.replay_listing _ _ (fun w hw => ?_) fun p hp => ?_
  · obtain ⟨x, hx, rfl⟩ := mem_map.mp hw
    rw [(hwrite x hx).1]
    exact (hwrite x hx).2.symm
  · obtain ⟨r, hr⟩ := Option.ne_none_iff_exists'.mp hp
    have hx := (mem_entries h.wf p r).mpr hr
    rw [map_map]
    exact mem_map.mpr ⟨(p, r), hx, by rw [Function.comp_apply, (hwrite _ hx).1]⟩

end Tree

end Kdns.Radix
