import Kdns.Radix.Node

namespace Kdns.Radix

open ByteStream SortedEdges Dns List

def setEdge (edges : List (Bytes × Node)) (label : Bytes) (node : Node) : List (Bytes × Node) :=
  match findEdge edges label with
  | (idx, true) => edges.set idx (label, node)
  | (idx, false) => edges.insertIdx idx (label, node)

def dropEdge (edges : List (Bytes × Node)) (label : Bytes) : List (Bytes × Node) :=
  match findEdge edges label with
  | (idx, true) => edges.eraseIdx idx
  | (_, false) => edges

def upsertPath : Node → List Bytes → RRSets → Node × Bool
  | n, [], records => (.mk records n.wildcard n.children, n.rrsets.isEmpty)
  | n, l :: ls, records =>
    if l = star then
      let r := upsertPath (n.wildcard.getD .empty) ls records
      (.mk n.rrsets (some r.1) n.children, r.2)
    else
      let r := upsertPath ((followEdge n.children l).getD .empty) ls records
      (.mk n.rrsets n.wildcard (setEdge n.children l r.1), r.2)

def prune (n : Node) : Option Node := if n.bare then none else some n

def deletePath : Node → List Bytes → Option Node × Bool
  | n, [] => if n.rrsets = [] then (some n, false) else (prune (.mk [] n.wildcard n.children), true)
  | n, l :: ls =>
    if l = star then
      match n.wildcard with
      | none => (some n, false)
      | some w =>
        match deletePath w ls with
        | (_, false) => (some n, false)
        | (w', true) => (prune (.mk n.rrsets w' n.children), true)
    else
      match followEdge n.children l with
      | none => (some n, false)
      | some c =>
        match deletePath c ls with
        | (_, false) => (some n, false)
        | (none, true) => (prune (.mk n.rrsets n.wildcard (dropEdge n.children l)), true)
        | (some c', true) => (some (.mk n.rrsets n.wildcard (setEdge n.children l c')), true)

section Edges

variable {edges : List (Bytes × Node)} (h : Sorted edges) (label : Bytes) (node : Node)

include h

theorem setEdge_split : ∃ l r, setEdge edges label node = l ++ (label, node) :: r ∧ Sorted (l ++ r) ∧
    (∀ e ∈ l, e.1 < label) ∧ (∀ e ∈ r, label < e.1) ∧ (∀ e ∈ l ++ r, e ∈ edges) ∧
    ∀ k ≠ label, lookup (l ++ r) k = lookup edges k := by
  have hl := located_findEdge h label
  unfold setEdge
  generalize findEdge edges label = found at hl ⊢
  cases hl with
  | hit l v r hlt hgt =>
    refine ⟨l, r, by simp, sorted_erase h, hlt, hgt, fun e he => ?_, fun k hk => (lookup_other hk l v r).symm⟩
    simp only [mem_append, mem_cons] at he ⊢
    tauto
  | miss l r hlt hgt => exact ⟨l, r, insertIdx_length l r _, h, hlt, hgt, fun e he => he, fun k _ => rfl⟩

theorem sorted_setEdge : Sorted (setEdge edges label node) := by
  obtain ⟨l, r, he, hs, hl, hr, -, -⟩ := setEdge_split h label node
  rw [he]
  exact sorted_insert node hs hl hr

theorem mem_setEdge {e : Bytes × Node} (he : e ∈ setEdge edges label node) : e = (label, node) ∨ e ∈ edges := by
  obtain ⟨l, r, hset, -, -, -, hsub, -⟩ := setEdge_split h label node
  rw [hset, mem_append, mem_cons] at he
  rcases he with he | rfl | he
  · exact .inr (hsub e (mem_append_left r he))
  · exact .inl rfl
  · exact .inr (hsub e (mem_append_right l he))

theorem lookup_setEdge (k : Bytes) :
    lookup (setEdge edges label node) k = if k = label then some node else lookup edges k := by
  obtain ⟨l, r, he, -, hl, -, -, hk⟩ := setEdge_split h label node
  rw [he]
  split_ifs with heq
  · rw [heq, lookup_hit node r hl]
  · rw [lookup_other heq, hk k heq]

omit h in
theorem dropEdge_sublist : (dropEdge edges label).Sublist edges := by
  unfold dropEdge
  split
  · exact eraseIdx_sublist ..
  · apply List.Sublist.refl

theorem lookup_dropEdge (k : Bytes) : lookup (dropEdge edges label) k = if k = label then none else lookup edges k := by
  have hl := located_findEdge h label
  unfold dropEdge
  generalize findEdge edges label = found at hl ⊢
  cases hl with
  | hit l v r hlt hgt =>
    simp only [eraseIdx_append_of_length_le le_rfl, Nat.sub_self, eraseIdx_cons_zero]
    split_ifs with heq
    · rw [heq, lookup_miss hlt hgt]
    · rw [lookup_other heq]
  | miss l r hlt hgt =>
    split_ifs with heq
    · rw [heq, lookup_miss hlt hgt]
    · rfl

end Edges

def setChild (n : Node) (l : Bytes) (c : Node) : Node :=
  if l = star then .mk n.rrsets (some c) n.children else .mk n.rrsets n.wildcard (setEdge n.children l c)

def dropChild (n : Node) (l : Bytes) : Node :=
  if l = star then .mk n.rrsets none n.children else .mk n.rrsets n.wildcard (dropEdge n.children l)

theorem setChild_rrsets (n : Node) (l : Bytes) (c : Node) : (setChild n l c).rrsets = n.rrsets := by
  unfold setChild
  split_ifs <;> rfl

theorem dropChild_rrsets (n : Node) (l : Bytes) : (dropChild n l).rrsets = n.rrsets := by
  unfold dropChild
  split_ifs <;> rfl

variable {n : Node} {l : Bytes} {p : List Bytes}

theorem child_setChild (h : Sorted n.children) (l : Bytes) (c : Node) (k : Bytes) :
    child (setChild n l c) k = if k = l then some c else child n k := by
  unfold child setChild
  by_cases hl : l = star <;> by_cases hk : k = star
  · simp [hl, hk]
  · simp [hl, hk]
  · simp [hl, hk, Ne.symm hl]
  · simp [hl, hk, lookup_setEdge h]

theorem child_dropChild (h : Sorted n.children) (l : Bytes) (k : Bytes) :
    child (dropChild n l) k = if k = l then none else child n k := by
  unfold child dropChild
  by_cases hl : l = star <;> by_cases hk : k = star
  · simp [hl, hk]
  · simp [hl, hk]
  · simp [hl, hk, Ne.symm hl]
  · simp [hl, hk, lookup_dropEdge h]

theorem setChild_edges (hsorted : Sorted n.children) (hlabel : ∀ e ∈ n.children, IsLabel e.1 ∧ e.1 ≠ star)
    (hl : IsLabel l) (c : Node) :
    Sorted (setChild n l c).children ∧ ∀ e ∈ (setChild n l c).children, IsLabel e.1 ∧ e.1 ≠ star := by
  unfold setChild
  split_ifs with hs
  · exact ⟨hsorted, hlabel⟩
  · refine ⟨sorted_setEdge hsorted l c, fun e he => ?_⟩
    rcases mem_setEdge hsorted l c he with rfl | he
    · exact ⟨hl, hs⟩
    · exact hlabel e he

theorem wf_setChild {c : Node} (h : WF n) (hl : IsLabel l) (hb : c.bare = false) (hc : WF c) : WF (setChild n l c) := by
  have hedges := setChild_edges h.sorted h.label hl c
  refine .intro _ hedges.1 hedges.2 (fun k d hd => ?_) fun k d hd => ?_
  all_goals
    rw [child_setChild h.sorted] at hd
    split_ifs at hd
  · cases hd; exact hb
  · exact h.full hd
  · cases hd; exact hc
  · exact h.child hd

theorem wf_dropChild (h : WF n) (l : Bytes) : WF (dropChild n l) := by
  have hedges : (dropChild n l).children.Sublist n.children := by
    unfold dropChild
    split_ifs
    · apply List.Sublist.refl
    · exact dropEdge_sublist l
  refine .intro _ (h.sorted.sublist hedges) (fun e he => h.label e (hedges.subset he)) (fun k d hd => ?_) fun k d hd => ?_
  all_goals
    rw [child_dropChild h.sorted] at hd
    split_ifs at hd
  · exact h.full hd
  · exact h.child hd

theorem wf_setRecords (h : WF n) (records : RRSets) : WF (.mk records n.wildcard n.children) :=
  .intro _ h.sorted h.label (fun _ _ hc => h.full hc) fun _ _ hc => h.child hc

theorem bare_of_child {c : Node} (hc : child n l = some c) : n.bare = false := by
  unfold child at hc
  split_ifs at hc with hs
  · simp [Node.bare, hc]
  · have : n.children ≠ [] := by
      intro h0
      simp [h0] at hc
    simp [Node.bare, this]

theorem view_bare (h : WF n) (hb : n.bare = true) (p : List Bytes) : view n p = none := by
  cases p with
  | nil => simp_all [Node.bare, view_nil, records]
  | cons l ls =>
    rw [view_cons h.sorted]
    cases hc : child n l with
    | none => rfl
    | some c => rw [bare_of_child hc] at hb; cases hb

section Upsert

variable {records : RRSets}

theorem upsertPath_cons (h : Sorted n.children) (l : Bytes) (ls : List Bytes) (records : RRSets) :
    upsertPath n (l :: ls) records =
      (setChild n l (upsertPath ((child n l).getD .empty) ls records).1,
        (upsertPath ((child n l).getD .empty) ls records).2) := by
  rw [upsertPath, followEdge_eq h, setChild, child]
  split_ifs <;> rfl

theorem wf_getD (h : WF n) (l : Bytes) : WF ((child n l).getD .empty) := by
  cases hc : child n l with
  | none => exact wf_empty
  | some c => exact h.child hc

theorem view_getD (n : Node) (l : Bytes) (p : List Bytes) :
    view ((child n l).getD .empty) p = (child n l).bind (view · p) := by
  cases child n l with
  | none => exact view_empty p
  | some c => rfl

theorem upsertPath_bare (h0 : records ≠ []) (h : WF n) (p : List Bytes) : (upsertPath n p records).1.bare = false := by
  cases p with
  | nil => simp [upsertPath, Node.bare, h0]
  | cons l ls =>
    rw [upsertPath_cons h.sorted]
    exact bare_of_child (l := l) (by rw [child_setChild h.sorted, if_pos rfl])

theorem wf_upsertPath (h0 : records ≠ []) (h : WF n) (hp : ∀ l ∈ p, IsLabel l) : WF (upsertPath n p records).1 := by
  induction p generalizing n with
  | nil => exact wf_setRecords h records
  | cons l ls ih =>
    obtain ⟨hl, hls⟩ := forall_mem_cons.mp hp
    rw [upsertPath_cons h.sorted]
    exact wf_setChild h hl (upsertPath_bare h0 (wf_getD h l) ls) (ih (wf_getD h l) hls)

theorem view_setRecords (n : Node) (records : RRSets) (l : Bytes) (ls : List Bytes) (h : Sorted n.children) :
    view (.mk records n.wildcard n.children) (l :: ls) = view n (l :: ls) := by
  rw [view_cons h, view_cons (n := .mk records n.wildcard n.children) h]
  rfl

theorem view_upsertPath (h0 : records ≠ []) (h : WF n) (hp : ∀ l ∈ p, IsLabel l)
    (q : List Bytes) : view (upsertPath n p records).1 q = if q = p then some records else view n q := by
  induction p generalizing n q with
  | nil =>
    cases q with
    | nil => rw [if_pos rfl, view_nil, upsertPath, Radix.records, Node.rrsets_mk, if_neg h0]
    | cons k ks => rw [if_neg (by simp), upsertPath, view_setRecords _ _ _ _ h.sorted]
  | cons l ls ih =>
    obtain ⟨hl, hls⟩ := forall_mem_cons.mp hp
    have hset := wf_setChild h hl (upsertPath_bare h0 (wf_getD h l) ls) (wf_upsertPath h0 (wf_getD h l) hls)
    rw [upsertPath_cons h.sorted]
    cases q with
    | nil => rw [if_neg (by simp), view_nil, view_nil, Radix.records, setChild_rrsets, Radix.records]
    | cons k ks =>
      rw [view_cons hset.sorted, view_cons h.sorted, child_setChild h.sorted]
      by_cases hk : k = l
      · subst hk
        rw [if_pos rfl, Option.bind_some, ih (wf_getD h k) hls, view_getD]
        simp
      · rw [if_neg hk, if_neg (by simp [hk])]

theorem upsertPath_wasEmpty (h : WF n) (p : List Bytes) : (upsertPath n p records).2 = (view n p).isNone := by
  induction p generalizing n with
  | nil =>
    rw [upsertPath, view_nil, Radix.records]
    cases n.rrsets <;> rfl
  | cons l ls ih => rw [upsertPath_cons h.sorted, ih (wf_getD h l), view_getD, view_cons h.sorted]

end Upsert

section Delete

theorem deletePath_cons (h : Sorted n.children) (l : Bytes) (ls : List Bytes) : deletePath n (l :: ls) =
      match child n l with
      | none => (some n, false)
      | some c =>
        match deletePath c ls with
        | (_, false) => (some n, false)
        | (none, true) => (prune (dropChild n l), true)
        | (some c', true) => (some (setChild n l c'), true) := by
  rw [deletePath, followEdge_eq h, child]
  split_ifs with hs
  · cases n.wildcard with
    | none => rfl
    | some w =>
      simp only
      rcases deletePath w ls with ⟨_ | w', _ | _⟩
      · rfl
      · simp [dropChild, hs]
      · rfl
      · simp [setChild, hs, prune, Node.bare]
  · cases lookup n.children l with
    | none => rfl
    | some c =>
      simp only
      rcases deletePath c ls with ⟨_ | c', _ | _⟩
      · rfl
      · simp [dropChild, hs]
      · rfl
      · simp [setChild, hs]

theorem prune_spec (h : WF n) : (∀ m ∈ prune n, WF m ∧ m.bare = false) ∧ ∀ p, (prune n).bind (view · p) = view n p := by
  unfold prune
  split_ifs with hb
  · exact ⟨by simp, fun p => (view_bare h hb p).symm⟩
  · grind

theorem deletePath_spec (h : WF n) (hp : view n p ≠ none) :
    (deletePath n p).2 = true ∧ (∀ m ∈ (deletePath n p).1, WF m ∧ m.bare = false) ∧
      ∀ q, (deletePath n p).1.bind (view · q) = if q = p then none else view n q := by
  induction p generalizing n with
  | nil =>
    have h0 : n.rrsets ≠ [] := by
      intro h0
      simp [view_nil, records, h0] at hp
    rw [deletePath, if_neg h0]
    obtain ⟨hwf, hview⟩ := prune_spec (wf_setRecords h [])
    refine ⟨rfl, hwf, fun q => (hview q).trans ?_⟩
    cases q with
    | nil => simp [view_nil, records]
    | cons l ls => rw [if_neg (by simp), view_setRecords _ _ _ _ h.sorted]
  | cons l ls ih =>
    rw [view_cons h.sorted] at hp
    cases hc : child n l with
    | none => simp [hc] at hp
    | some c =>
      have hwfc := h.child hc
      obtain ⟨hd, hwf, hview⟩ := ih hwfc (by simpa [hc] using hp)
      rw [deletePath_cons h.sorted, hc]
      dsimp only
      rcases hdel : deletePath c ls with ⟨m, b⟩
      rw [hdel] at hd hwf hview
      cases hd
      cases m with
      | none =>
        obtain ⟨hwf', hview'⟩ := prune_spec (wf_dropChild h l)
        refine ⟨rfl, hwf', fun q => (hview' q).trans ?_⟩
        cases q with
        | nil => rw [if_neg (by simp), view_nil, view_nil, records, dropChild_rrsets, records]
        | cons k ks =>
          rw [view_cons (wf_dropChild h l).sorted, view_cons h.sorted, child_dropChild h.sorted]
          by_cases hk : k = l
          · grind
          · rw [if_neg hk, if_neg (by simp [hk])]
      | some c' =>
        have hlabel := h.child_label hc
        have hset := wf_setChild h hlabel (hwf c' rfl).2 (hwf c' rfl).1
        refine ⟨rfl, fun m hm => ?_, fun q => ?_⟩
        · cases hm
          exact ⟨hset, bare_of_child (l := l) (by rw [child_setChild h.sorted, if_pos rfl])⟩
        · simp only [Option.bind_some]
          cases q with
          | nil => rw [if_neg (by simp), view_nil, view_nil, records, setChild_rrsets, records]
          | cons k ks =>
            rw [view_cons hset.sorted, view_cons h.sorted, child_setChild h.sorted]
            by_cases hk : k = l
            · grind
            · rw [if_neg hk, if_neg (by simp [hk])]

end Delete

end Kdns.Radix
