import Kdns.Radix.History
import Kdns.Radix.Resolve

open List

namespace Kdns.Radix

open ByteStream SortedEdges Dns

def insertPath : Node → List Bytes → RRSets → Node × Bool
  | n, [], records => (.mk records n.wildcard n.children, n.rrsets.isEmpty && !records.isEmpty)
  | n, l :: ls, records =>
    if l = star then
      let r := insertPath (n.wildcard.getD .empty) ls records
      (.mk n.rrsets (some r.1) n.children, r.2)
    else
      let r := insertPath ((followEdge n.children l).getD .empty) ls records
      (.mk n.rrsets n.wildcard (setEdge n.children l r.1), r.2)

namespace Tree

def addRecord (t : Tree) (e : Bytes × RRSets) : Tree :=
  let r := insertPath t.root (labels e.1) e.2
  ⟨r.1, if r.2 then t.size + 1 else t.size⟩

structure Loader (ε : Type) where
  delivered : List (Bytes × RRSets)
  error : Option ε

def reloadZone {ε : Type} (t : Tree) (loader : Loader ε) : Tree × Option ε :=
  match loader.error with
  | some e => (t, some e)
  | none => (loader.delivered.foldl addRecord new, none)

end Tree

def rawView (n : Node) (p : List Bytes) : Option RRSets := (findNode n p).map Node.rrsets

theorem rawView_nil (n : Node) : rawView n [] = some n.rrsets := rfl

variable {n : Node} {p : List Bytes}

theorem rawView_cons (h : Sorted n.children) (l : Bytes) (ls : List Bytes) :
    rawView n (l :: ls) = (child n l).bind (rawView · ls) := by
  rw [rawView, findNode_cons h, Option.map_bind]
  rfl

theorem view_eq_rawView (n : Node) (p : List Bytes) :
    view n p = (rawView n p).bind fun records => if records = [] then none else some records := by
  rw [rawView, Option.bind_map]
  rfl

theorem rawView_of_ne_none (h : rawView n p ≠ none) : rawView n p = some ((view n p).getD []) := by
  obtain ⟨records, hrecords⟩ := Option.ne_none_iff_exists'.mp h
  rw [view_eq_rawView, hrecords, Option.bind_some]
  split_ifs with h0
  · rw [h0]
    rfl
  · rfl

inductive Shaped : Node → Prop
  | intro (n : Node) (sorted : Sorted n.children) (label : ∀ e ∈ n.children, IsLabel e.1 ∧ e.1 ≠ star)
      (shaped : ∀ l c, child n l = some c → Shaped c) : Shaped n

theorem Shaped.sorted : Shaped n → Sorted n.children
  | .intro _ h _ _ => h

theorem Shaped.label : Shaped n → ∀ e ∈ n.children, IsLabel e.1 ∧ e.1 ≠ star
  | .intro _ _ h _ => h

theorem Shaped.child {c : Node} {l : Bytes} : Shaped n → Radix.child n l = some c → Shaped c
  | .intro _ _ _ h => h l c

theorem WF.shaped (h : WF n) : Shaped n := by
  induction h with
  | intro n sorted label full wf ih => exact .intro n sorted label ih

theorem Shaped.getD (h : Shaped n) (l : Bytes) : Shaped ((Radix.child n l).getD .empty) := by
  cases hc : Radix.child n l with
  | none => exact wf_empty.shaped
  | some c => exact h.child hc

theorem eq_of_rawView {m : Node} (hn : Shaped n) (hm : Shaped m) (h : ∀ p, rawView n p = rawView m p) : n = m := by
  induction hn generalizing m with
  | intro n sorted label shaped ih =>
    have hchild : ∀ l, Radix.child n l = Radix.child m l := by
      intro l
      have hv : ∀ p, (Radix.child n l).bind (rawView · p) = (Radix.child m l).bind (rawView · p) := by
        intro p
        rw [← rawView_cons sorted, ← rawView_cons hm.sorted, h]
      have hnil := hv []
      cases hc : Radix.child n l with
      | none =>
        cases hd : Radix.child m l with
        | none => rfl
        | some d => simp [hc, hd, rawView_nil] at hnil
      | some c =>
        cases hd : Radix.child m l with
        | none => simp [hc, hd, rawView_nil] at hnil
        | some d =>
          simp only [hc, hd, Option.bind_some] at hv
          rw [ih l c hc (hm.child hd) hv]
    exact ext_child sorted label hm.sorted hm.label (Option.some.inj (h [])) hchild

section Insert

variable {records : RRSets}

theorem insertPath_cons (h : Sorted n.children) (l : Bytes) (ls : List Bytes) (records : RRSets) :
    insertPath n (l :: ls) records =
      (setChild n l (insertPath ((child n l).getD .empty) ls records).1,
        (insertPath ((child n l).getD .empty) ls records).2) := by
  rw [insertPath, followEdge_eq h, setChild, child]
  split_ifs <;> rfl

theorem shaped_insertPath (h : Shaped n) (hp : ∀ l ∈ p, IsLabel l) : Shaped (insertPath n p records).1 := by
  induction p generalizing n with
  | nil => exact .intro _ h.sorted h.label fun l c hc => h.child hc
  | cons l ls ih =>
    obtain ⟨hl, hls⟩ := forall_mem_cons.mp hp
    rw [insertPath_cons h.sorted]
    obtain ⟨hsorted, hlabel⟩ := setChild_edges h.sorted h.label hl (insertPath ((child n l).getD .empty) ls records).1
    refine .intro _ hsorted hlabel fun k c hc => ?_
    rw [child_setChild h.sorted] at hc
    split_ifs at hc
    · cases hc
      exact ih (h.getD l) hls
    · exact h.child hc

theorem rawView_empty_cons (l : Bytes) (ls : List Bytes) : rawView .empty (l :: ls) = none := by
  rw [rawView_cons wf_empty.sorted, child]
  split_ifs <;> rfl

theorem rawView_getD (n : Node) (l : Bytes) (p : List Bytes) :
    (rawView ((child n l).getD .empty) p).getD [] = ((child n l).bind (rawView · p)).getD [] ∧
      (p ≠ [] → rawView ((child n l).getD .empty) p = (child n l).bind (rawView · p)) := by
  cases child n l with
  | some c => exact ⟨rfl, fun _ => rfl⟩
  | none =>
    cases p with
    | nil => exact ⟨rfl, fun h0 => absurd rfl h0⟩
    | cons k ks =>
      rw [Option.getD_none, rawView_empty_cons]
      exact ⟨rfl, fun _ => rfl⟩

theorem rawView_insertPath (h : Shaped n) (hp : ∀ l ∈ p, IsLabel l) (q : List Bytes) :
    rawView (insertPath n p records).1 q =
      if q = p then some records else if q <+: p then some ((rawView n q).getD []) else rawView n q := by
  induction p generalizing n q with
  | nil =>
    cases q with
    | nil => rw [if_pos rfl, insertPath, rawView_nil, Node.rrsets_mk]
    | cons k ks =>
      rfl
  | cons l ls ih =>
    obtain ⟨hl, hls⟩ := forall_mem_cons.mp hp
    have hset := setChild_edges h.sorted h.label hl (insertPath ((child n l).getD .empty) ls records).1
    rw [insertPath_cons h.sorted]
    cases q with
    | nil => simp [rawView_nil, setChild_rrsets]
    | cons k ks =>
      rw [rawView_cons hset.1, rawView_cons h.sorted, child_setChild h.sorted]
      by_cases hk : k = l
      · subst hk
        obtain ⟨hrecords, hpath⟩ := rawView_getD n k ks
        rw [if_pos rfl, Option.bind_some, ih (h.getD k) hls, hrecords]
        simp only [List.cons.injEq, true_and, cons_prefix_cons]
        split_ifs with heq hprefixed
        · rfl
        · rfl
        · exact hpath fun h0 => hprefixed (h0 ▸ nil_prefix)
      · rw [if_neg hk, if_neg (by simp [hk]), if_neg (by simp [hk])]

theorem insertPath_counts (h : Shaped n) (p : List Bytes) :
    (insertPath n p records).2 = ((view n p).isNone && !records.isEmpty) := by
  induction p generalizing n with
  | nil =>
    rw [insertPath, view_nil, Radix.records]
    cases n.rrsets <;> rfl
  | cons l ls ih => rw [insertPath_cons h.sorted, ih (h.getD l), view_getD, view_cons h.sorted]

end Insert

theorem size_put {t t' : Tree} (h : t.Valid) (h' : t'.Valid) {v : Option RRSets}
    (hput : t'.contents = Overwrite.put t.contents (p, v)) :
    t'.size + (if v = none ∧ t.contents p ≠ none then 1 else 0) =
      t.size + (if v ≠ none ∧ t.contents p = none then 1 else 0) := by
  have hview : ∀ q, view t'.root q = if q = p then v else view t.root q := by
    intro q
    have hq := congrFun hput q
    rwa [Overwrite.put, Function.update_apply] at hq
  have hmem : p ∈ names t.root ↔ t.contents p ≠ none := mem_names h.wf p
  rw [h.size_eq, h'.size_eq]
  by_cases hv : v = none
  · have hnames : names t'.root = (names t.root).erase p := by
      ext q
      rw [mem_names h'.wf, hview, Finset.mem_erase, mem_names h.wf]
      split_ifs with hq <;> simp [hq, hv]
    rw [hnames]
    by_cases hp : t.contents p = none
    · simp [hv, hp, Finset.erase_eq_of_notMem (fun hin => hmem.mp hin hp)]
    · simp [hv, hp, Finset.card_erase_add_one (hmem.mpr hp)]
  · have hnames : names t'.root = insert p (names t.root) := by
      ext q
      rw [mem_names h'.wf, hview, Finset.mem_insert, mem_names h.wf]
      split_ifs with hq <;> simp [hq, hv]
    rw [hnames]
    by_cases hp : t.contents p = none
    · grind
    · simp [hv, hp, Finset.insert_eq_of_mem (hmem.mpr hp)]

def lastDelivered (es : List (Bytes × RRSets)) (domain : Bytes) : Option RRSets :=
  lastRecords (es.map fun e => .upsert e.1 e.2) domain

theorem upsertAll_get (es : List (Bytes × RRSets)) (domain : Bytes) :
    (Tree.new.upsertAll es).get domain = lastDelivered es domain := by
  rw [lastDelivered, ← get_mutateAll, Tree.mutateAll, foldl_map]
  rfl

def NeverEmptied (es : List (Bytes × RRSets)) : Prop :=
  ∀ front domain rest, es = front ++ (domain, []) :: rest → lastDelivered front domain = none

theorem neverEmptied_concat (es : List (Bytes × RRSets)) (e : Bytes × RRSets) :
    NeverEmptied (es ++ [e]) ↔ NeverEmptied es ∧ (e.2 = [] → lastDelivered es e.1 = none) := by
  constructor
  · intro h
    refine ⟨fun front domain rest hes => h front domain (rest ++ [e]) (by simp [hes]), fun he => ?_⟩
    exact h es e.1 [] (by rw [← he])
  · rintro ⟨h, he⟩ front domain rest hes
    obtain rfl | ⟨rest', x, rfl⟩ := rest.eq_nil_or_concat
    · obtain ⟨rfl, hlast⟩ := append_inj' hes rfl
      obtain rfl := singleton_inj.mp hlast
      exact he rfl
    · rw [concat_eq_append, ← cons_append, ← append_assoc] at hes
      exact h front domain rest' (append_inj' hes rfl).1

structure Loaded (es : List (Bytes × RRSets)) (b t : Tree) : Prop where
  shaped : Shaped b.root
  exist : ∀ q, rawView b.root q ≠ none ↔ q = [] ∨ ∃ e ∈ es, q <+: labels e.1
  view : ∀ q, Radix.view b.root q = t.contents q
  size_le : t.size ≤ b.size
  size_eq : b.size = t.size ↔ NeverEmptied es

theorem loaded_new : Loaded [] Tree.new (Tree.new.upsertAll []) where
  shaped := wf_empty.shaped
  exist q := by
    cases q with
    | nil => simp [Tree.new, rawView_nil]
    | cons l ls => simp [Tree.new, rawView_empty_cons]
  view _ := rfl
  size_le := Nat.le_refl _
  size_eq := by simp [NeverEmptied, Tree.upsertAll]

section Step

variable {es : List (Bytes × RRSets)} {b t : Tree} (h : Loaded es b t) (e : Bytes × RRSets)

include h

theorem Loaded.exist_addRecord (q : List Bytes) :
    rawView (b.addRecord e).root q ≠ none ↔ q = [] ∨ ∃ e' ∈ es ++ [e], q <+: labels e'.1 := by
  have hpath : (q = [] ∨ ∃ e' ∈ es ++ [e], q <+: labels e'.1) ↔
      (q = [] ∨ ∃ e' ∈ es, q <+: labels e'.1) ∨ q <+: labels e.1 := by
    simp only [mem_append, mem_singleton, or_and_right, exists_or, exists_eq_left, or_assoc]
  rw [hpath, ← h.exist, Tree.addRecord, rawView_insertPath h.shaped (labels_isLabel e.1)]
  split_ifs with heq hbelow
  · simp [heq]
  · simp [hbelow]
  · simp [hbelow]

theorem Loaded.view_addRecord (q : List Bytes) :
    Radix.view (b.addRecord e).root q = if q = labels e.1 then (if e.2 = [] then none else some e.2) else t.contents q := by
  rw [← h.view, view_eq_rawView, view_eq_rawView, Tree.addRecord, rawView_insertPath h.shaped (labels_isLabel e.1)]
  split_ifs with heq hnil hbelow
  · simp [hnil]
  · simp [hnil]
  · -- A node on the way that was not there before has no records.
    cases rawView b.root q <;> simp
  · rfl

end Step

theorem loaded_concat {es : List (Bytes × RRSets)} {b : Tree} (h : Loaded es b (Tree.new.upsertAll es))
    (e : Bytes × RRSets) : Loaded (es ++ [e]) (b.addRecord e) (Tree.new.upsertAll (es ++ [e])) := by
  have hv := (Tree.upsertAll_spec Tree.valid_new es).1
  have hlast : Tree.new.upsertAll (es ++ [e]) = (Tree.new.upsertAll es).upsert e.1 e.2 := by
    rw [Tree.upsertAll, foldl_append]
    rfl
  obtain ⟨hv', hput⟩ := Tree.upsert_spec hv e.1 e.2
  have hsize := size_put hv hv' hput
  have hcount : (insertPath b.root (labels e.1) e.2).2 = _ := insertPath_counts h.shaped (labels e.1)
  have hget : (Tree.new.upsertAll es).contents (labels e.1) = lastDelivered es e.1 := upsertAll_get es e.1
  rw [h.view, hget] at hcount
  rw [hget] at hsize
  have hbuilt : (b.addRecord e).size = b.size + if lastDelivered es e.1 = none ∧ e.2 ≠ [] then 1 else 0 := by
    rw [Tree.addRecord, hcount]
    cases lastDelivered es e.1 <;> cases e.2 <;> rfl
  have hdiff : (b.addRecord e).size + (Tree.new.upsertAll es).size =
      b.size + ((Tree.new.upsertAll es).upsert e.1 e.2).size +
        if e.2 = [] ∧ lastDelivered es e.1 ≠ none then 1 else 0 := by
    by_cases hnil : e.2 = [] <;> by_cases hnone : lastDelivered es e.1 = none <;>
      simp [hnil, hnone] at hsize hbuilt ⊢ <;> omega
  have hle := h.size_le
  rw [hlast]
  refine ⟨shaped_insertPath h.shaped (labels_isLabel e.1), h.exist_addRecord e, fun q => ?_, by omega, ?_⟩
  · rw [h.view_addRecord, hput, Overwrite.put, Function.update_apply]
  · rw [neverEmptied_concat, ← h.size_eq]
    split_ifs at hdiff with hemptied
    · refine iff_of_false (by omega) fun hnever => hemptied.2 (hnever.2 hemptied.1)
    · rw [and_iff_left fun hnil => not_not.mp fun hsome => hemptied ⟨hnil, hsome⟩]
      omega

theorem loaded (es : List (Bytes × RRSets)) : Loaded es (es.foldl Tree.addRecord Tree.new) (Tree.new.upsertAll es) := by
  induction es using List.reverseRecOn with
  | nil => exact loaded_new
  | append_singleton es e ih =>
    rw [foldl_append]
    exact loaded_concat ih e

theorem rawView_wf (h : WF n) (q : List Bytes) : rawView n q ≠ none ↔ q = [] ∨ ∃ p, q <+: p ∧ view n p ≠ none := by
  constructor
  · intro hq
    by_cases h0 : q = []
    · exact .inl h0
    · obtain ⟨records, hq⟩ := Option.ne_none_iff_exists'.mp hq
      obtain ⟨m, hm, -⟩ := Option.map_eq_some_iff.mp hq
      obtain ⟨hwf, hbare, hview⟩ := findNode_wf h hm
      obtain ⟨p, r, hr⟩ := exists_view hwf (hbare h0)
      exact .inr ⟨q ++ p, prefix_append q p, by rw [hview, hr]; simp⟩
  · rintro (rfl | ⟨p, ⟨rest, rfl⟩, hp⟩) hnone
    · cases hnone
    · rw [rawView, Option.map_eq_none_iff] at hnone
      rw [view, findNode_append, hnone] at hp
      exact hp rfl

section Reload

variable (es : List (Bytes × RRSets))

theorem contents_ne_none :
    (Tree.new.upsertAll es).contents p ≠ none ↔ ∃ e ∈ es, labels e.1 = p ∧ lastDelivered es e.1 ≠ none := by
  constructor
  · intro hp
    have hall : Tree.new.upsertAll es = Tree.new.mutateAll (es.map fun e => .upsert e.1 e.2) := by
      rw [Tree.mutateAll, foldl_map]
      rfl
    rw [hall] at hp
    obtain ⟨m, hm, rfl⟩ := exists_mutation hp
    obtain ⟨e, he, rfl⟩ := mem_map.mp hm
    refine ⟨e, he, rfl, ?_⟩
    rw [← upsertAll_get, hall]
    exact hp
  · rintro ⟨e, -, rfl, hlast⟩
    rw [← upsertAll_get] at hlast
    exact hlast

theorem root_eq_iff : (es.foldl Tree.addRecord Tree.new).root = (Tree.new.upsertAll es).root ↔
    ∀ e ∈ es, labels e.1 = [] ∨ ∃ e' ∈ es, labels e.1 <+: labels e'.1 ∧ lastDelivered es e'.1 ≠ none := by
  have h := loaded es
  have hv := (Tree.upsertAll_spec Tree.valid_new es).1
  have hnodes := rawView_wf hv.wf
  constructor
  · intro heq e he
    have hnode := (h.exist (labels e.1)).mpr (.inr ⟨e, he, prefix_refl _⟩)
    rw [heq] at hnode
    obtain h0 | ⟨p, hbelow, hp⟩ := (hnodes _).mp hnode
    · exact .inl h0
    · obtain ⟨e', he', rfl, hlast⟩ := (contents_ne_none es).mp hp
      exact .inr ⟨e', he', hbelow, hlast⟩
  · intro hcond
    refine eq_of_rawView h.shaped hv.wf.shaped fun q => ?_
    have hsame : rawView (es.foldl Tree.addRecord Tree.new).root q ≠ none ↔
        rawView (Tree.new.upsertAll es).root q ≠ none := by
      rw [h.exist, hnodes]
      constructor
      · rintro (rfl | ⟨e, he, hq⟩)
        · exact .inl rfl
        · obtain h0 | ⟨e', he', hbelow, hlast⟩ := hcond e he
          · rw [h0] at hq
            exact .inl (prefix_nil.mp hq)
          · exact .inr ⟨labels e'.1, hq.trans hbelow, (contents_ne_none es).mpr ⟨e', he', rfl, hlast⟩⟩
      · rintro (rfl | ⟨p, hq, hp⟩)
        · exact .inl rfl
        · obtain ⟨e, he, rfl, -⟩ := (contents_ne_none es).mp hp
          exact .inr ⟨e, he, hq⟩
    by_cases hq : rawView (Tree.new.upsertAll es).root q = none
    · rw [hq, ← not_ne_iff, hsame, not_ne_iff]
      exact hq
    · rw [rawView_of_ne_none hq, rawView_of_ne_none (hsame.mpr hq), h.view]
      rfl

end Reload

theorem reloadZone_upserts_iff {ε : Type} (t : Tree) (es : List (Bytes × RRSets)) :
    (t.reloadZone (⟨es, none⟩ : Tree.Loader ε) = (Tree.new.upsertAll es, none) ∧
        ∀ e : ε, t.reloadZone ⟨es, some e⟩ = (t, some e)) ↔
      NeverEmptied es ∧
        ∀ e ∈ es, labels e.1 = [] ∨ ∃ e' ∈ es, labels e.1 <+: labels e'.1 ∧ lastDelivered es e'.1 ≠ none := by
  have hreload : t.reloadZone (⟨es, none⟩ : Tree.Loader ε) = (es.foldl Tree.addRecord Tree.new, none) := rfl
  rw [← root_eq_iff, ← (loaded es).size_eq, hreload]
  constructor
  · rintro ⟨heq, -⟩
    rw [(Prod.mk.inj heq).1]
    exact ⟨rfl, rfl⟩
  · rintro ⟨hsize, hroot⟩
    refine ⟨Prod.ext ?_ rfl, fun e => rfl⟩
    cases hbuilt : es.foldl Tree.addRecord Tree.new
    cases hupserted : Tree.new.upsertAll es
    simp only [hbuilt, hupserted] at hsize hroot ⊢
    rw [hsize, hroot]

/-- A name handed over with records and then with none: it still counts, and its parent still seems to exist. -/
theorem reloadZone_keeps_emptied :
    (Tree.new.reloadZone (⟨[([0x62, dot, 0x61], [⟨[[1]], 300, typeA, classIN⟩]), ([0x62, dot, 0x61], [])], none⟩ :
        Tree.Loader Unit)).1.len = 1 ∧
      (Tree.new.upsertAll [([0x62, dot, 0x61], [⟨[[1]], 300, typeA, classIN⟩]), ([0x62, dot, 0x61], [])]).len = 0 ∧
      ((Tree.new.reloadZone (⟨[([0x62, dot, 0x61], [⟨[[1]], 300, typeA, classIN⟩]), ([0x62, dot, 0x61], [])], none⟩ :
        Tree.Loader Unit)).1.resolve [0x61] typeA).rcode = .success ∧
      ((Tree.new.upsertAll [([0x62, dot, 0x61], [⟨[[1]], 300, typeA, classIN⟩]), ([0x62, dot, 0x61], [])]).resolve
        [0x61] typeA).rcode = .nameError := by
  decide +kernel

end Kdns.Radix
