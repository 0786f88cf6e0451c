import Kdns.Domain
import Kdns.Radix.Seek

namespace Kdns.Radix

open ByteStream Dns SortedEdges GoStrings Wire List

def bytewise : Bytes → Bytes → Prop := List.Lex fun a b : UInt8 => a.toNat < b.toNat

def CanonicalLt : List Bytes → List Bytes → Prop := List.Lex bytewise

theorem bytewise_iff (a b : Bytes) : bytewise a b ↔ a < b := by
  rfl

def FromStar (l : Bytes) : Prop := l = star ∨ bytewise star l

theorem fromStar_of_host {l : Bytes} (h : HostLabel l) : FromStar l := by
  obtain rfl | hchars := h.chars
  · exact .inl rfl
  · obtain ⟨b, rest, rfl⟩ := exists_cons_of_ne_nil h.ne_nil
    have hb := (isLabelChar_bounds (hchars b mem_cons_self)).1
    refine .inr (List.Lex.rel ?_)
    simp only [UInt8.reduceToNat]
    omega

theorem kids_sorted {n : Node} (h : WF n) (hstar : ∀ e ∈ kids n, FromStar e.1) :
    (kids n).Pairwise fun a b => bytewise a.1 b.1 := by
  refine pairwise_append.mpr ⟨?_, h.sorted.imp fun hab => (bytewise_iff _ _).mpr hab, fun a ha b hb => ?_⟩
  · cases n.wildcard <;> simp
  · obtain ⟨w, -, rfl⟩ := Option.map_eq_some_iff.mp (Option.mem_toList.mp ha)
    exact (hstar b (mem_append_right _ hb)).resolve_left (h.label b hb).2

theorem visits_sorted {n : Node} (h : WF n) (hstar : ∀ x ∈ visits n, ∀ l ∈ x.1, FromStar l) :
    (visits n).Pairwise fun a b => CanonicalLt a.1 b.1 := by
  induction h with
  | intro n sorted label full wf ih =>
    have hwf := WF.intro n sorted label full wf
    rw [visits_eq hwf] at hstar ⊢
    have hbelow : ∀ e ∈ kids n, ∀ x ∈ visits e.2, ∀ l ∈ e.1 :: x.1, FromStar l := by
      intro e he x hx
      exact hstar (e.1 :: x.1, x.2) (mem_cons_of_mem _ (mem_flatMap.mpr ⟨e, he, mem_map_of_mem hx⟩))
    have hkids : ∀ e ∈ kids n, FromStar e.1 := by
      intro e he
      have hself : ([], e.2) ∈ visits e.2 := (mem_visits (wf _ _ ((mem_kids hwf e).mp he)) [] e.2).mpr rfl
      exact hbelow e he _ hself e.1 mem_cons_self
    refine pairwise_cons.mpr ⟨fun x hx => ?_, pairwise_flatMap.mpr ⟨fun e he => ?_, ?_⟩⟩
    · obtain ⟨e, -, hx⟩ := mem_flatMap.mp hx
      obtain ⟨y, -, rfl⟩ := mem_map.mp hx
      exact List.Lex.nil
    · have hc := (mem_kids hwf e).mp he
      refine pairwise_map.mpr ((ih _ _ hc ?_).imp List.Lex.cons)
      exact fun x hx l hl => hbelow e he x hx l (mem_cons_of_mem _ hl)
    · refine (kids_sorted hwf hkids).imp fun {a b} hab x hx y hy => ?_
      obtain ⟨x, -, rfl⟩ := mem_map.mp hx
      obtain ⟨y, -, rfl⟩ := mem_map.mp hy
      exact List.Lex.rel hab

theorem entries_sorted {n : Node} (h : WF n) (hstar : ∀ x ∈ visits n, ∀ l ∈ x.1, FromStar l) :
    (entries n).Pairwise fun a b => CanonicalLt a.1 b.1 := by
  refine List.Pairwise.filterMap _ (fun x y hxy a ha b hb => ?_) (visits_sorted h hstar)
  obtain ⟨r, -, rfl⟩ := Option.map_eq_some_iff.mp ha
  obtain ⟨r', -, rfl⟩ := Option.map_eq_some_iff.mp hb
  exact hxy

section Rows

variable {t : Tree} (h : t.Valid) (hn : NamesWithin pathBufSize t.root)

include h hn

theorem Tree.mem_walk (name : Bytes) (r : RRSets) :
    (name, r) ∈ t.walk ↔ nameOf (labels name) = name ∧ t.get name = some r := by
  rw [(walk_spec h hn).1, mem_map]
  constructor
  · rintro ⟨x, hx, hrow⟩
    obtain ⟨rfl, rfl⟩ := Prod.mk.inj hrow
    have hview := (mem_entries h.wf x.1 x.2).mp hx
    have hlabels : labels (nameOf x.1) = x.1 := labels_nameOf (view_labels h.wf hview)
    refine ⟨by rw [hlabels], ?_⟩
    rw [get, hlabels]
    exact hview
  · rintro ⟨hname, hget⟩
    exact ⟨(labels name, r), (mem_entries h.wf _ _).mpr hget, by rw [hname]⟩

theorem Tree.walk_sorted (hstar : ∀ x ∈ visits t.root, ∀ l ∈ x.1, FromStar l) :
    t.walk.Pairwise fun a b => CanonicalLt (labels a.1) (labels b.1) := by
  rw [(walk_spec h hn).1, pairwise_map]
  refine (entries_sorted h.wf hstar).imp_of_mem fun {a b} ha hb hab => ?_
  rw [labels_nameOf (view_labels h.wf ((mem_entries h.wf a.1 a.2).mp ha)),
    labels_nameOf (view_labels h.wf ((mem_entries h.wf b.1 b.2).mp hb))]
  exact hab

end Rows

theorem canonicalLt_irrefl (p : List Bytes) : ¬CanonicalLt p p := by
  have hbytes : ∀ b : Bytes, ¬bytewise b b := fun b hb => lt_irrefl b ((bytewise_iff b b).mp hb)
  exact lex_irrefl hbytes p

theorem nodup_of_sorted {rows : List (Bytes × RRSets)}
    (h : rows.Pairwise fun a b => CanonicalLt (labels a.1) (labels b.1)) : (rows.map Prod.fst).Nodup := by
  rw [List.Nodup, pairwise_map]
  refine h.imp fun {a b} hab heq => ?_
  rw [heq] at hab
  exact canonicalLt_irrefl _ hab

section Histories

variable {u : Unicode} {ms : List Mutation} (h : ∀ m ∈ ms, Accepted u m.domain)

include h

theorem accepted_of_contents {p : List Bytes} (hp : (Tree.new.mutateAll ms).contents p ≠ none) :
    ∃ name, Accepted u name ∧ labels name = p := by
  obtain ⟨m, hm, hlabels⟩ := exists_mutation hp
  exact ⟨m.domain, h m hm, hlabels⟩

theorem namesWithin_accepted : NamesWithin pathBufSize (Tree.new.mutateAll ms).root := by
  intro p hp
  obtain ⟨name, hname, rfl⟩ := accepted_of_contents h hp
  have hlen := hname.labels.2.2
  exact (nameOf_labels_length name).trans (hlen.trans (by decide))

theorem fromStar_accepted : ∀ x ∈ visits (Tree.new.mutateAll ms).root, ∀ l ∈ x.1, FromStar l := by
  have hv := Tree.valid_mutateAll ms
  intro x hx
  obtain ⟨hwf, hbare, hview⟩ := findNode_wf hv.wf ((mem_visits hv.wf x.1 x.2).mp hx)
  by_cases h0 : x.1 = []
  · simp [h0]
  · obtain ⟨q, r, hr⟩ := exists_view hwf (hbare h0)
    have hcontents : (Tree.new.mutateAll ms).contents (x.1 ++ q) ≠ none := by
      rw [Tree.contents, hview, hr]
      simp
    obtain ⟨name, hname, hlabels⟩ := accepted_of_contents h hcontents
    intro l hl
    exact fromStar_of_host (hname.labels.1 l (hlabels ▸ mem_append_left q hl))

end Histories

/-- The root is yielded as the empty text, every other name as it was accepted. -/
theorem mutateAll_walkSeq (u : Unicode) (ms : List Mutation) (h : ∀ m ∈ ms, Accepted u m.domain) :
    (∀ name records, Accepted u name → ((Tree.new.mutateAll ms).get name = some records ↔
        ((if name = [dotByte] then [] else name), records) ∈ (Tree.new.mutateAll ms).walkSeq)) ∧
      (∀ row ∈ (Tree.new.mutateAll ms).walkSeq, (Tree.new.mutateAll ms).get row.1 = some row.2 ∧
        ∃ name, Accepted u name ∧ row.1 = if name = [dotByte] then [] else name) ∧
      ((Tree.new.mutateAll ms).walkSeq.map Prod.fst).Nodup ∧
      (Tree.new.mutateAll ms).walkSeq.length = (Tree.new.mutateAll ms).len ∧
      (Tree.new.mutateAll ms).walkSeq.Pairwise fun a b => CanonicalLt (labels a.1) (labels b.1) := by
  have hv := Tree.valid_mutateAll ms
  have hnames := namesWithin_accepted h
  have hsorted := Tree.walk_sorted hv hnames (fromStar_accepted h)
  rw [Tree.walkSeq_eq]
  refine ⟨fun name records hname => ?_, fun row hrow => ?_, nodup_of_sorted hsorted, (Tree.walk_spec hv hnames).2, hsorted⟩
  · have htext := hname.labels.2.1
    have hlabels : labels (if name = [dotByte] then [] else name) = labels name := by
      split_ifs with hroot
      · rw [hroot]
        rfl
      · rfl
    rw [Tree.mem_walk hv hnames, hlabels, Tree.get, Tree.get, hlabels]
    exact (and_iff_right htext).symm
  · obtain ⟨hname, hget⟩ := (Tree.mem_walk hv hnames row.1 row.2).mp hrow
    have hcontents : (Tree.new.mutateAll ms).contents (labels row.1) ≠ none := by
      rw [Tree.get] at hget
      rw [Tree.contents, view, hget]
      simp
    obtain ⟨name, hacc, hlabels⟩ := accepted_of_contents h hcontents
    exact ⟨hget, name, hacc, by rw [← hname, ← hlabels, hacc.labels.2.1]⟩

theorem mutateAll_walkSeq_wildcard :
    (Tree.new.mutateAll [.upsert (ascii "b.a") [⟨[[1]], 300, typeA, classIN⟩],
        .upsert (ascii "-.a") [⟨[[2]], 300, typeA, classIN⟩], .upsert [dotByte] [⟨[[3]], 300, typeA, classIN⟩],
        .upsert (ascii "*.a") [⟨[[4]], 300, typeA, classIN⟩], .deleteDomain (ascii "b.a")]).walkSeq.map Prod.fst =
      [[], ascii "*.a", ascii "-.a"] ∧
    (Tree.new.mutateAll [.upsert (ascii "b.a") [⟨[[1]], 300, typeA, classIN⟩],
        .upsert (ascii "-.a") [⟨[[2]], 300, typeA, classIN⟩], .upsert [dotByte] [⟨[[3]], 300, typeA, classIN⟩],
        .upsert (ascii "*.a") [⟨[[4]], 300, typeA, classIN⟩], .deleteDomain (ascii "b.a")]).walkSeq.length = 3 := by
  refine ⟨by decide +kernel, (mutateAll_walkSeq .basic _ fun m hm => ?_).2.2.2.1.trans (by decide +kernel)⟩
  simp only [mem_cons, not_mem_nil, or_false] at hm
  obtain rfl | rfl | rfl | rfl | rfl := hm
  · exact ⟨ascii "B.a", by decide +kernel⟩
  · exact ⟨ascii "-.a.", by decide +kernel⟩
  · exact ⟨ascii "@", by decide +kernel⟩
  · exact ⟨ascii " *.a", by decide +kernel⟩
  · exact ⟨ascii "b.a", by decide +kernel⟩

end Kdns.Radix
