import Kdns.Dns
import Kdns.Lib.SortedEdges
import Kdns.Radix.Labels
import Mathlib.Data.List.Lex

namespace Kdns.Radix

open ByteStream SortedEdges Dns

instance byteLinearOrder : LinearOrder UInt8 where
  le_refl := UInt8.le_refl
  le_trans _ _ _ := UInt8.le_trans
  le_antisymm _ _ := UInt8.le_antisymm
  le_total := UInt8.le_total
  lt_iff_le_not_ge a b := by
    simp only [UInt8.lt_iff_toNat_lt, UInt8.le_iff_toNat_le]
    omega
  toDecidableLE := inferInstance
  toDecidableEq := inferInstance
  toDecidableLT := inferInstance

def star : Bytes := [0x2A]

inductive Node where
  | mk (rrsets : RRSets) (wildcard : Option Node) (children : List (Bytes × Node))

namespace Node

def rrsets : Node → RRSets
  | .mk rrsets _ _ => rrsets

def wildcard : Node → Option Node
  | .mk _ wildcard _ => wildcard

def children : Node → List (Bytes × Node)
  | .mk _ _ children => children

@[simp] theorem rrsets_mk (r : RRSets) (w : Option Node) (c : List (Bytes × Node)) : (mk r w c).rrsets = r := rfl

@[simp] theorem wildcard_mk (r : RRSets) (w : Option Node) (c : List (Bytes × Node)) : (mk r w c).wildcard = w := rfl

@[simp] theorem children_mk (r : RRSets) (w : Option Node) (c : List (Bytes × Node)) : (mk r w c).children = c := rfl

def empty : Node := .mk [] none []

def bare (n : Node) : Bool := n.rrsets.isEmpty && n.wildcard.isNone && n.children.isEmpty

end Node

def findEdge (edges : List (Bytes × Node)) (label : Bytes) : ℕ × Bool :=
  if edges.length ≤ 16 then linearSearch label edges 0 else binarySearch label edges edges.length 0 edges.length

section Edges

variable {edges : List (Bytes × Node)} (h : Sorted edges) (label : Bytes)
include h

theorem located_linear : Located label edges (linearSearch label edges 0) :=
  located_linearSearch label [] edges h (by simp)

theorem located_binary : Located label edges (binarySearch label edges edges.length 0 edges.length) :=
  located_binarySearch label edges h _ 0 _ (Nat.zero_le _) le_rfl (by omega) (by simp) (by simp)

theorem located_findEdge : Located label edges (findEdge edges label) := by
  unfold findEdge
  split_ifs
  · exact located_linear h label
  · exact located_binary h label

theorem findEdge_index : (findEdge edges label).1 = edges.countP fun e => e.1 < label := by
  rw [(located_findEdge h label).index_eq]
  congr 1
  funext e
  congr

end Edges

/-- Both searches find the place of the label among sorted edges, whatever their number. -/
theorem findEdge_lowerBound {edges : List (Bytes × Node)} (h : Sorted edges) (label : Bytes) :
    (∀ i, findEdge edges label = (i, true) ↔ ∃ node, edges[i]? = some (label, node)) ∧
      (∀ i, findEdge edges label = (i, false) ↔
        (∀ e ∈ edges, e.1 ≠ label) ∧ i = edges.countP fun e => e.1 < label) ∧
      linearSearch label edges 0 = binarySearch label edges edges.length 0 edges.length ∧
      ∀ i, findEdge edges label = (i, false) → ∀ node, Sorted (edges.insertIdx i (label, node)) := by
  have hfound := located_findEdge h label
  have hindex := findEdge_index h label
  refine ⟨fun i => ⟨?_, ?_⟩, fun i => ⟨?_, ?_⟩, ?_, ?_⟩
  · intro hi
    rw [hi] at hfound
    exact hfound.get
  · rintro ⟨node, hnode⟩
    exact hfound.unique (located_hit h hnode)
  · intro hi
    rw [hi] at hfound hindex
    refine ⟨fun e he heq => ?_, hindex⟩
    exact Bool.false_ne_true (hfound.found_iff.mpr ⟨e, he, heq⟩)
  · rintro ⟨hnone, rfl⟩
    apply Prod.ext hindex
    rw [Bool.eq_false_iff, Ne, hfound.found_iff]
    rintro ⟨e, he, heq⟩
    exact hnone e he heq
  · exact (located_linear h label).unique (located_binary h label)
  · intro i hi node
    rw [hi] at hfound
    exact hfound.insert h node

theorem findEdge_lowerBound_two :
    findEdge [([0x61], .empty), ([0x63], .empty)] [0x63] = (1, true) ∧
      findEdge [([0x61], .empty), ([0x63], .empty)] [0x62] = (1, false) := by
  have hsorted : Sorted [(([0x61] : Bytes), Node.empty), ([0x63], .empty)] := by
    simp only [Sorted, List.pairwise_cons, List.mem_singleton, List.not_mem_nil, false_imp_iff, implies_true, and_true,
      List.Pairwise.nil, forall_eq]
    decide
  have hhit := findEdge_lowerBound hsorted [0x63]
  have hmiss := findEdge_lowerBound hsorted [0x62]
  exact ⟨(hhit.1 1).mpr ⟨.empty, rfl⟩, (hmiss.2.1 1).mpr ⟨by simp, by decide⟩⟩

def followEdge (edges : List (Bytes × Node)) (label : Bytes) : Option Node :=
  match findEdge edges label with
  | (i, true) => edges[i]?.map Prod.snd
  | (_, false) => none

def findNode : Node → List Bytes → Option Node
  | n, [] => some n
  | n, l :: ls => if l = star then n.wildcard.bind (findNode · ls) else (followEdge n.children l).bind (findNode · ls)

theorem findNode_append (n : Node) (p s : List Bytes) : findNode n (p ++ s) = (findNode n p).bind (findNode · s) := by
  induction p generalizing n with
  | nil => rfl
  | cons l p ih =>
    rw [List.cons_append, findNode, findNode]
    split_ifs
    · rw [Option.bind_assoc]
      simp only [ih]
    · rw [Option.bind_assoc]
      simp only [ih]

def child (n : Node) (l : Bytes) : Option Node := if l = star then n.wildcard else lookup n.children l

inductive WF : Node → Prop
  | intro (n : Node) (sorted : Sorted n.children) (label : ∀ e ∈ n.children, IsLabel e.1 ∧ e.1 ≠ star)
      (full : ∀ l c, child n l = some c → c.bare = false) (wf : ∀ l c, child n l = some c → WF c) : WF n

variable {n c : Node} {l : Bytes}

theorem WF.sorted : WF n → Sorted n.children
  | .intro _ h _ _ _ => h

theorem WF.child : WF n → Radix.child n l = some c → WF c
  | .intro _ _ _ _ h => h l c

theorem WF.full : WF n → Radix.child n l = some c → c.bare = false
  | .intro _ _ _ h _ => h l c

theorem WF.label : WF n → ∀ e ∈ n.children, IsLabel e.1 ∧ e.1 ≠ star
  | .intro _ _ h _ _ => h

theorem star_isLabel : IsLabel star := ⟨by decide, by decide, by decide⟩

theorem WF.child_label (h : WF n) (hc : Radix.child n l = some c) : IsLabel l := by
  unfold Radix.child at hc
  split_ifs at hc with hs
  · exact hs ▸ star_isLabel
  · exact (h.label _ (mem_of_lookup hc)).1

theorem wf_empty : WF Node.empty := by
  have hc : ∀ l c, child .empty l ≠ some c := by
    intro l c
    unfold child
    split_ifs <;> simp [Node.empty]
  exact .intro _ List.Pairwise.nil (by simp [Node.empty]) (fun l c h => absurd h (hc l c))
    fun l c h => absurd h (hc l c)

theorem followEdge_eq {edges : List (Bytes × Node)} (h : Sorted edges) (label : Bytes) :
    followEdge edges label = lookup edges label := by
  have hl := located_findEdge h label
  unfold followEdge
  generalize findEdge edges label = found at hl ⊢
  cases hl with
  | hit l v r hlt hgt => simp [lookup_hit v r hlt]
  | miss l r hlt hgt => simp [lookup_miss hlt hgt]

theorem findNode_cons (h : Sorted n.children) (l : Bytes) (ls : List Bytes) :
    findNode n (l :: ls) = (child n l).bind (findNode · ls) := by
  rw [findNode, followEdge_eq h, child]
  split_ifs <;> rfl

def records (n : Node) : Option RRSets := if n.rrsets = [] then none else some n.rrsets

def view (n : Node) (p : List Bytes) : Option RRSets := (findNode n p).bind records

theorem view_nil (n : Node) : view n [] = records n := rfl

theorem view_cons (h : Sorted n.children) (l : Bytes) (ls : List Bytes) :
    view n (l :: ls) = (child n l).bind (view · ls) := by
  rw [view, findNode_cons h, Option.bind_assoc]
  rfl

theorem view_ne_nil {p : List Bytes} : view n p ≠ some [] := by
  unfold view records
  cases findNode n p with
  | none => simp
  | some m => simp

theorem view_empty (p : List Bytes) : view .empty p = none := by
  cases p with
  | nil => rfl
  | cons l ls =>
    rw [view_cons wf_empty.sorted, child]
    split_ifs <;> rfl

theorem view_labels (h : WF n) {p : List Bytes} {records : RRSets} (hv : view n p = some records) :
    ∀ l ∈ p, IsLabel l := by
  induction h generalizing p with
  | intro n sorted label full wf ih =>
    cases p with
    | nil => simp
    | cons l ls =>
      rw [view_cons sorted] at hv
      obtain ⟨c, hc, hv⟩ := Option.bind_eq_some_iff.mp hv
      exact List.forall_mem_cons.mpr ⟨(WF.intro n sorted label full wf).child_label hc, ih l c hc hv⟩

theorem exists_view (h : WF n) (hb : n.bare = false) : ∃ p records, view n p = some records := by
  induction h with
  | intro n sorted label full wf ih =>
    have hdown : ∀ l c, child n l = some c → ∃ p records, view n p = some records := by
      intro l c hc
      obtain ⟨p, records, hv⟩ := ih l c hc (full l c hc)
      exact ⟨l :: p, records, by rw [view_cons sorted, hc]; exact hv⟩
    by_cases h0 : n.rrsets = []
    · cases hw : n.wildcard with
      | some c => exact hdown star c (by rw [child, if_pos rfl, hw])
      | none =>
        cases hcs : n.children with
        | nil => simp [Node.bare, h0, hw, hcs] at hb
        | cons e es =>
          have he : e ∈ n.children := by rw [hcs]; exact List.mem_cons_self
          exact hdown e.1 e.2 (by rw [child, if_neg (label e he).2, lookup_of_mem sorted he])
    · exact ⟨[], n.rrsets, by rw [view_nil, records, if_neg h0]⟩

theorem ext_child {m : Node} (hn : Sorted n.children) (hn' : ∀ e ∈ n.children, IsLabel e.1 ∧ e.1 ≠ star)
    (hm : Sorted m.children) (hm' : ∀ e ∈ m.children, IsLabel e.1 ∧ e.1 ≠ star) (hrec : n.rrsets = m.rrsets)
    (hchild : ∀ l, child n l = child m l) : n = m := by
  have hwild : n.wildcard = m.wildcard := by simpa [child] using hchild star
  have hedges : n.children = m.children := by
    apply ext_lookup hn hm
    intro l
    by_cases hl : l = star
    · have hne : ∀ {x : Node}, (∀ e ∈ x.children, IsLabel e.1 ∧ e.1 ≠ star) → lookup x.children l = none :=
        fun hx => lookup_none fun e he => hl ▸ (hx e he).2
      rw [hne hn', hne hm']
    · simpa [child, hl] using hchild l
  obtain ⟨nr, nw, nc⟩ := n
  obtain ⟨mr, mw, mc⟩ := m
  simp only [Node.rrsets_mk, Node.wildcard_mk, Node.children_mk] at hrec hwild hedges
  rw [hrec, hwild, hedges]

theorem eq_of_view {m : Node} (hn : WF n) (hm : WF m) (h : ∀ p, view n p = view m p) : n = m := by
  induction hn generalizing m with
  | intro n sorted label full wf ih =>
    have hchild : ∀ l, child n l = child m l := by
      intro l
      have hv : ∀ p, (child n l).bind (view · p) = (child m l).bind (view · p) := by
        intro p
        rw [← view_cons sorted, ← view_cons hm.sorted, h]
      cases hc : child n l with
      | none =>
        cases hd : child m l with
        | none => rfl
        | some d =>
          obtain ⟨p, r, hr⟩ := exists_view (hm.child hd) (hm.full hd)
          have := hv p
          simp [hc, hd, hr] at this
      | some c =>
        cases hd : child m l with
        | none =>
          obtain ⟨p, r, hr⟩ := exists_view (wf l c hc) (full l c hc)
          have := hv p
          simp [hc, hd, hr] at this
        | some d =>
          simp only [hc, hd, Option.bind_some] at hv
          rw [ih l c hc (hm.child hd) hv]
    have hrec : n.rrsets = m.rrsets := by
      have := h []
      simp only [view_nil, records] at this
      split_ifs at this with h₁ h₂ h₂
      · rw [h₁, h₂]
      · exact Option.some.inj this
    exact ext_child sorted label hm.sorted hm.label hrec hchild

end Kdns.Radix
