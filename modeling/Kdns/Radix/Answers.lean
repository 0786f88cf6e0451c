import Kdns.Lib.Prefixes
import Kdns.Radix.Descent
import Kdns.Radix.History

namespace Kdns.Radix

open ByteStream Dns Prefixes List

section Zone

variable (M : List Bytes → Option RRSets)

def Occupied (p : List Bytes) : Prop := ∃ s, M (p ++ s) ≠ none

def Delegates (p : List Bytes) (qt : RRType) (c : List Bytes) : Prop :=
  cutOf (recordsAt M c) ≠ none ∧ (c = p → qt ≠ typeDS)

instance delegatesDecidable (p : List Bytes) (qt : RRType) (c : List Bytes) : Decidable (Delegates M p qt c) :=
  inferInstanceAs (Decidable (_ ∧ _))

def HoldsSOA (c : List Bytes) : Prop := findType (recordsAt M c) typeSOA ≠ none

instance holdsSOADecidable (c : List Bytes) : Decidable (HoldsSOA M c) := inferInstanceAs (Decidable (_ ≠ _))

def Wildcard (p f : List Bytes) : Prop := f ≠ p ∧ Occupied M (f ++ [star])

def ClosestEncloser (p ce : List Bytes) : Prop := Longest (fun c => c ≠ p ∧ Occupied M c) p ce

end Zone

def answerOf (rs : RRSets) (qt : RRType) : Option RRSet :=
  if qt = typeANY then rs.head? else (findType rs qt).or (findType rs typeCNAME)

variable {qt : RRType} {n m : Node} {p c : List Bytes} {t : Tree} {q : Bytes}

theorem answerOf_mem {rs : RRSets} {a : RRSet} (h : answerOf rs qt = some a) : a ∈ rs := by
  unfold answerOf at h
  split_ifs at h
  · exact mem_of_head? h
  · rcases Option.or_eq_some_iff.mp h with h | ⟨_, h⟩
    · exact mem_of_find?_eq_some h
    · exact mem_of_find?_eq_some h

theorem resolveAtNode_eq (node : Node) (qt : RRType) (soa : Enclosing) : resolveAtNode node qt soa =
      match answerOf node.rrsets qt with
      | some a => ⟨.success, a, .empty, []⟩
      | none => ⟨.success, .empty, soa.soaRR, soa.soaName⟩ := by
  by_cases hany : qt = typeANY
  · by_cases h0 : node.rrsets = []
    · rw [resolveAtNode, dif_neg fun h => h.2 h0]
      simp [answerOf, searchRRSet_eq, h0, hany, findType]
    · rw [resolveAtNode, dif_pos ⟨hany, h0⟩]
      simp [answerOf, hany, head?_eq_some_head h0]
  · rw [resolveAtNode, dif_neg fun h => hany h.1]
    simp only [searchRRSet_eq, answerOf, if_neg hany]
    cases hq : findType node.rrsets qt with
    | some rr => rfl
    | none =>
      by_cases hcn : qt = typeCNAME
      · rw [hcn] at hq
        simp [hcn, hq]
      · cases findType node.rrsets typeCNAME <;> simp [hcn]

theorem occupied_iff (h : WF n) (p : List Bytes) :
    Occupied (view n) p ↔ ∃ m, findNode n p = some m ∧ m.bare = false := by
  constructor
  · rintro ⟨s, hs⟩
    cases hm : findNode n p with
    | none =>
      apply absurd _ hs
      rw [view, findNode_append, hm]
      rfl
    | some m =>
      obtain ⟨hwf, -, hv⟩ := findNode_wf h hm
      rw [hv] at hs
      exact ⟨m, rfl, Bool.eq_false_iff.mpr fun hb => hs (view_bare hwf hb s)⟩
  · rintro ⟨m, hm, hb⟩
    obtain ⟨hwf, -, hv⟩ := findNode_wf h hm
    obtain ⟨s, r, hr⟩ := exists_view hwf hb
    refine ⟨s, ?_⟩
    rw [hv, hr]
    simp

theorem occupied_of_findNode (h : WF n) (hp : p ≠ []) (hm : findNode n p = some m) :
    Occupied (view n) p := (occupied_iff h p).mpr ⟨m, hm, (findNode_wf h hm).2.1 hp⟩

theorem recordsAt_findNode (hm : findNode t.root p = some m) : recordsAt t.contents p = m.rrsets := by
  rw [← recordsAt_nil, recordsAt, recordsAt, Tree.contents, view, hm]
  rfl

theorem cursors_of_le {k : ℕ} (hk : k ≤ (labels q).length) : ∃ c, (cursors q)[k]? = some c := by
  have hlt : k < (cursors q).length := by
    rw [cursors, length_cons, length_map, steps_length]
    omega
  exact ⟨_, getElem?_eq_getElem hlt⟩

theorem le_of_cursors {k c : ℕ} (hc : (cursors q)[k]? = some c) : k ≤ (labels q).length := by
  obtain ⟨hlt, -⟩ := List.getElem?_eq_some_iff.mp hc
  rw [cursors, length_cons, length_map, steps_length] at hlt
  omega

theorem effective_iff (M : List Bytes → Option RRSets) (hq : qt = typeDS → QueryName q) {k c : ℕ}
    (hc : (cursors q)[k]? = some c) :
    Effective qt (recordsAt M ((labels q).take k)) c ↔ Delegates M (labels q) qt ((labels q).take k) := by
  by_cases hds : qt = typeDS
  swap
  · simp [Effective, Delegates, hds]
  have hq := hq hds
  have hk := le_of_cursors hc
  have hexact : (labels q).take k = labels q ↔ c = 0 := by
    rw [cursor_eq_zero_iff hq hc, take_eq_self_iff]
    omega
  unfold Effective Delegates
  tauto

def enclosing (t : Tree) (q : Bytes) : Enclosing := track q t.root ⟨.empty, [dot]⟩ q.length (steps q)

theorem enclosing_none (h : t.Valid) (hno : ∀ c, c <+: labels q → ¬ HoldsSOA t.contents c) :
    enclosing t q = ⟨.empty, [dot]⟩ := by
  apply track_none q h.wf
  intro k _
  exact not_not.mp (hno _ ⟨_, take_append_drop k (labels q)⟩)

theorem formatDomainName_ne_nil {k c : ℕ} (hc : (cursors q)[k]? = some c) : formatDomainName q c ≠ [] := by
  intro hnil
  have hk : k = 0 := by
    have hlabels := labels_formatDomainName q k c hc
    rw [hnil] at hlabels
    rcases take_eq_nil_iff.mp hlabels.symm with h0 | h0
    · exact h0
    · have hle := le_of_cursors hc
      rwa [h0, length_nil, Nat.le_zero] at hle
  subst hk
  have hcur : q.length = c := Option.some.inj hc
  rw [formatDomainName, if_pos hcur.symm] at hnil
  cases hnil

theorem enclosing_longest (h : t.Valid) (hc : Longest (HoldsSOA t.contents) (labels q) c) :
    ∃ rr name, findType (recordsAt t.contents c) typeSOA = some rr ∧ labels name = c ∧ name ≠ [] ∧
      enclosing t q = ⟨rr, name⟩ := by
  obtain ⟨rr, hrr⟩ := Option.ne_none_iff_exists'.mp hc.holds
  have hct := eq_take hc.within
  obtain ⟨cur, hcur⟩ := cursors_of_le hc.within.length_le
  refine ⟨rr, formatDomainName q cur, hrr, (labels_formatDomainName q _ cur hcur).trans hct.symm,
    formatDomainName_ne_nil hcur, ?_⟩
  apply track_some q h.wf _ _ _ hcur
  · change findType (recordsAt t.contents ((labels q).take c.length)) typeSOA = some rr
    rwa [← hct]
  · intro j hj hl
    rw [steps_length] at hl
    exact not_not.mp (hc.after hj hl)

theorem wildcard_of_findNode (h : t.Valid) {j : ℕ} (hj : j < p.length) {w : Node}
    (hw : findNode t.root (p.take j ++ [star]) = some w) : Wildcard t.contents p (p.take j) := by
  constructor
  · intro he
    rw [take_eq_self_iff] at he
    omega
  · exact occupied_of_findNode h.wf (by simp) hw

theorem lastWildcard_eq_none (h : t.Valid)
    (hno : ∀ f, f <+: p → ¬ Wildcard t.contents p f) : lastWildcard t.root none p = none := by
  apply lastWildcard_none h.wf
  intro k hk
  cases hw : findNode t.root (p.take k ++ [star]) with
  | none => rfl
  | some w => exact absurd (wildcard_of_findNode h hk hw) (hno _ ⟨_, take_append_drop k p⟩)

theorem lastWildcard_longest (h : t.Valid) {f : List Bytes} (hf : Longest (Wildcard t.contents p) p f) :
    ∃ w, findNode t.root (f ++ [star]) = some w ∧ lastWildcard t.root none p = some w := by
  obtain ⟨w, hw, -⟩ := (occupied_iff h.wf _).mp hf.holds.2
  have hft := eq_take hf.within
  have hlt : f.length < p.length := by
    apply lt_of_le_of_ne hf.within.length_le
    intro he
    apply hf.holds.1
    rw [hft, he, take_length]
  refine ⟨w, hw, lastWildcard_some h.wf none p hlt (by rwa [← hft]) fun j hj hl => ?_⟩
  cases hw' : findNode t.root (p.take j ++ [star]) with
  | none => rfl
  | some w' => exact absurd (wildcard_of_findNode h hl hw') (hf.after hj hl.le)

section Lookup

variable (h : t.Valid) (hq : qt = typeDS → QueryName q)

include h hq

theorem resolve_referral (hc : Shortest (Delegates t.contents (labels q) qt) (labels q) c) :
    ∃ ns name, cutOf (recordsAt t.contents c) = some ns ∧ labels name = c ∧
      t.resolve q qt = ⟨.success, .empty, ns, name⟩ := by
  obtain ⟨ns, hns⟩ := Option.ne_none_iff_exists'.mp hc.holds.1
  have hct := eq_take hc.within
  obtain ⟨cur, hcur⟩ := cursors_of_le hc.within.length_le
  have heff := (effective_iff t.contents hq hcur).mpr (hct ▸ hc.holds)
  refine ⟨ns, formatDomainName q cur, hns, (labels_formatDomainName q _ cur hcur).trans hct.symm, ?_⟩
  apply visit_referral qt q h.wf _ _ _ _ hcur _ heff.2
  · intro j d hj hd
    exact (effective_iff t.contents hq hd).not.mpr (hc.before hj)
  · change cutOf (recordsAt t.contents ((labels q).take c.length)) = _
    rw [← hct, hns]

theorem resolve_through (hno : ∀ c, c <+: labels q → ¬ Delegates t.contents (labels q) qt c) :
    t.resolve q qt = settle qt (findNode t.root (labels q)) (lastWildcard t.root none (labels q))
      (enclosing t q) := by
  apply visit_through qt q h.wf
  intro k c hc
  exact (effective_iff t.contents hq hc).not.mpr (hno _ ⟨_, take_append_drop _ _⟩)

end Lookup

end Kdns.Radix
