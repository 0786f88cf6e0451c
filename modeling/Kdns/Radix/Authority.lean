import Kdns.Radix.Answers

namespace Kdns.Radix

open ByteStream Dns Prefixes List

def settled (m fallback : Option Node) : Option Node :=
  match m with
  | some node => if node.bare then fallback else some node
  | none => fallback

theorem settle_cases (qt : RRType) (m fallback : Option Node) (soa : Enclosing) :
    (∃ rc, settle qt m fallback soa = ⟨rc, .empty, soa.soaRR, soa.soaName⟩) ∨
      ∃ node a, settled m fallback = some node ∧ answerOf node.rrsets qt = some a ∧
        settle qt m fallback soa = ⟨.success, a, .empty, []⟩ := by
  have hnode : ∀ node, (∃ rc, resolveAtNode node qt soa = ⟨rc, .empty, soa.soaRR, soa.soaName⟩) ∨
      ∃ a, answerOf node.rrsets qt = some a ∧ resolveAtNode node qt soa = ⟨.success, a, .empty, []⟩ := by
    intro node
    rw [resolveAtNode_eq]
    cases answerOf node.rrsets qt with
    | none => exact .inl ⟨.success, rfl⟩
    | some a => exact .inr ⟨a, rfl, rfl⟩
  have hwild : (∃ rc, wildcardResolve fallback qt soa = ⟨rc, .empty, soa.soaRR, soa.soaName⟩) ∨
      ∃ node a, fallback = some node ∧ answerOf node.rrsets qt = some a ∧
        wildcardResolve fallback qt soa = ⟨.success, a, .empty, []⟩ := by
    cases fallback with
    | none => exact .inl ⟨.nameError, rfl⟩
    | some node =>
      rw [wildcardResolve]
      split_ifs
      · exact .inl ⟨.nameError, rfl⟩
      · rcases hnode node with hn | ⟨a, ha, hr⟩
        · exact .inl hn
        · exact .inr ⟨node, a, rfl, ha, hr⟩
  cases m with
  | none => exact hwild
  | some node =>
    rw [settle, settled]
    split_ifs
    · exact hwild
    · rcases hnode node with hn | ⟨a, ha, hr⟩
      · exact .inl hn
      · exact .inr ⟨node, a, rfl, ha, hr⟩

variable {qt : RRType} {node : Node} {t : Tree} {ms : List Mutation}

theorem settle_answer {m fallback : Option Node} {a : RRSet} (soa : Enclosing) (hs : settled m fallback = some node)
    (ha : answerOf node.rrsets qt = some a) : settle qt m fallback soa = ⟨.success, a, .empty, []⟩ := by
  have hnode : resolveAtNode node qt soa = ⟨.success, a, .empty, []⟩ := by rw [resolveAtNode_eq, ha]
  have hwild : fallback = some node → wildcardResolve fallback qt soa = ⟨.success, a, .empty, []⟩ := by
    rintro rfl
    rw [wildcardResolve, if_neg, hnode]
    intro h0
    rw [h0] at ha
    simp [answerOf, findType] at ha
  cases m with
  | none => exact hwild hs
  | some m =>
    rw [settled] at hs
    rw [settle]
    split_ifs at hs ⊢
    · exact hwild hs
    · rw [Option.some.inj hs, hnode]

theorem enclosing_cases (h : t.Valid) (q : Bytes) :
    ((∀ c, c <+: labels q → ¬ HoldsSOA t.contents c) ∧ enclosing t q = ⟨.empty, [dot]⟩) ∨
      ∃ c rr name, Longest (HoldsSOA t.contents) (labels q) c ∧ findType (recordsAt t.contents c) typeSOA = some rr ∧
        labels name = c ∧ enclosing t q = ⟨rr, name⟩ := by
  by_cases hsome : ∃ c, c <+: labels q ∧ HoldsSOA t.contents c
  · obtain ⟨d, hd, hP⟩ := hsome
    obtain ⟨c, hc⟩ := exists_longest hd hP
    obtain ⟨rr, name, hrr, hname, -, he⟩ := enclosing_longest h hc
    exact .inr ⟨c, rr, name, hc, hrr, hname, he⟩
  · have hno : ∀ c, c <+: labels q → ¬ HoldsSOA t.contents c := fun c hc hP => hsome ⟨c, hc, hP⟩
    exact .inl ⟨hno, enclosing_none h hno⟩

theorem enclosing_type (h : t.Valid) (q : Bytes) : (enclosing t q).soaRR.type ≠ typeNS := by
  rcases enclosing_cases h q with ⟨-, he⟩ | ⟨c, rr, name, -, hrr, -, he⟩
  · rw [he]
    decide
  · rw [he]
    rw [type_of_find hrr]
    decide

theorem findType_of_cutOf {rs : RRSets} {ns : RRSet} (h : cutOf rs = some ns) : findType rs typeNS = some ns := by
  unfold cutOf at h
  split_ifs at h
  exact h

theorem resolve_cases (h : t.Valid) (q : Bytes) (qt : RRType) :
    (∃ ns name, ns.type = typeNS ∧ t.resolve q qt = ⟨.success, .empty, ns, name⟩) ∨
      t.resolve q qt = settle qt (findNode t.root (labels q)) (lastWildcard t.root none (labels q)) (enclosing t q) := by
  by_cases hcut : ∃ k c, (cursors q)[k]? = some c ∧ Effective qt (recordsAt t.contents ((labels q).take k)) c
  · classical
    obtain ⟨c, hc, hns, hx⟩ := Nat.find_spec hcut
    obtain ⟨ns, hns⟩ := Option.ne_none_iff_exists'.mp hns
    refine .inl ⟨ns, formatDomainName q c, type_of_find (findType_of_cutOf hns), ?_⟩
    apply visit_referral qt q h.wf _ _ _ _ hc hns hx
    intro j d hj hd heff
    exact Nat.find_min hcut hj ⟨d, hd, heff⟩
  · apply Or.inr
    apply visit_through qt q h.wf
    intro k c hc heff
    exact hcut ⟨k, c, hc, heff⟩

theorem resolve_authority_soa (h : t.Valid) {q : Bytes} (hne : (t.resolve q qt).authority.rdata ≠ [])
    (hsoa : (t.resolve q qt).authority.type = typeSOA) : ∃ s, Longest (HoldsSOA t.contents) (labels q) s ∧
      findType (recordsAt t.contents s) typeSOA = some (t.resolve q qt).authority := by
  rcases resolve_cases h q qt with ⟨ns, name, hns, hr⟩ | hr
  · rw [hr] at hsoa
    exact absurd (hns.symm.trans hsoa) (by decide)
  · rw [hr] at hne ⊢
    rcases settle_cases qt (findNode _ _) (lastWildcard _ none (labels q)) (enclosing t q) with
      ⟨rc, hs⟩ | ⟨node, a, -, -, hs⟩
    · rw [hs] at hne ⊢
      rcases enclosing_cases h q with ⟨-, he⟩ | ⟨c, rr, name, hc, hrr, -, he⟩
      · rw [he] at hne
        exact absurd rfl hne
      · rw [he]
        exact ⟨c, hc, hrr⟩
    · rw [hs] at hne
      exact absurd rfl hne

theorem resolve_zone_cut (ms : List Mutation) (q : Bytes) (hq : QueryName q) (qt : RRType) :
    (∀ c, Shortest (Delegates (Tree.new.mutateAll ms).contents (labels q) qt) (labels q) c →
      ∃ ns name, findType (recordsAt (Tree.new.mutateAll ms).contents c) typeNS = some ns ∧ labels name = c ∧
        (Tree.new.mutateAll ms).resolve q qt = ⟨.success, .empty, ns, name⟩) ∧
      ((∀ c, c <+: labels q → ¬ Delegates (Tree.new.mutateAll ms).contents (labels q) qt c) →
        ((Tree.new.mutateAll ms).resolve q qt).authority.type ≠ typeNS) := by
  have h := Tree.valid_mutateAll ms
  constructor
  · intro c hc
    obtain ⟨ns, name, hns, hname, hr⟩ := resolve_referral h (fun _ => hq) hc
    exact ⟨ns, name, findType_of_cutOf hns, hname, hr⟩
  · intro hno
    rw [resolve_through h (fun _ => hq) hno]
    rcases settle_cases qt (findNode _ _) (lastWildcard _ none (labels q)) (enclosing _ q) with
      ⟨rc, hs⟩ | ⟨node, a, -, -, hs⟩
    · rw [hs]
      exact enclosing_type h q
    · rw [hs]
      change RRSet.empty.type ≠ typeNS
      decide

def delegation : List Mutation := [.upsert [0x62, dot, 0x61] [⟨[[1, 0x6E, 0]], 300, typeNS, classIN⟩]]

theorem resolve_zone_cut_delegation :
    ∃ ns name, findType (recordsAt (Tree.new.mutateAll delegation).contents [[0x61], [0x62]]) typeNS = some ns ∧
      labels name = [[0x61], [0x62]] ∧
      (Tree.new.mutateAll delegation).resolve [0x63, dot, 0x42, dot, 0x61, dot] 1 = ⟨.success, .empty, ns, name⟩ := by
  have hq : QueryName [0x63, dot, 0x42, dot, 0x61, dot] :=
    .inr ⟨[[0x63], [0x42], [0x61]], by decide, by decide, .inr rfl⟩
  apply (resolve_zone_cut delegation _ hq 1).1
  have hl : labels [0x63, dot, 0x42, dot, 0x61, dot] = [[0x61], [0x62], [0x63]] := by decide
  rw [hl]
  refine ⟨by decide, ⟨by decide, by decide⟩, fun d hd hP => ?_⟩
  by_contra hlt
  rw [eq_take hd] at hP
  have hlen : d.length = 0 ∨ d.length = 1 := by
    simp only [length_cons, length_nil] at hlt
    omega
  apply hP.1
  rcases hlen with h0 | h1
  · rw [h0]
    decide
  · rw [h1]
    decide

section

variable (hrec : ∀ m ∈ ms, ∀ s ∈ m.records, s.hasRecords = true)
include hrec

theorem stored_records :
    Overwrite.Holds (fun _ rs => ∀ s ∈ rs, s.hasRecords = true) (Tree.new.mutateAll ms).contents := by
  rw [(Tree.mutateAll_spec Tree.valid_new ms).2]
  apply Overwrite.holds_replay
  · rw [Tree.contents_new]
    intro p rs h
    cases h
  · intro w hw rs hrs
    obtain ⟨m, hm, rfl⟩ := mem_map.mp hw
    have hstored : m.stored = some rs := hrs
    unfold Mutation.stored at hstored
    split_ifs at hstored
    cases hstored
    exact hrec m hm

theorem stored_recordsAt (p : List Bytes) :
    ∀ s ∈ recordsAt (Tree.new.mutateAll ms).contents p, s.hasRecords = true := by
  rw [recordsAt]
  cases hp : (Tree.new.mutateAll ms).contents p with
  | none => simp
  | some rs => exact stored_records hrec p rs hp

end

theorem settled_found (h : t.Valid) {p : List Bytes}
    (hs : settled (findNode t.root p) (lastWildcard t.root none p) = some node) : ∃ q, findNode t.root q = some node := by
  have hfall : lastWildcard t.root none p = some node → ∃ q, findNode t.root q = some node := by
    intro hw
    by_cases hsome : ∃ f, f <+: p ∧ Wildcard t.contents p f
    · obtain ⟨f, hf, hP⟩ := hsome
      obtain ⟨g, hg⟩ := exists_longest hf hP
      obtain ⟨w, hfind, hlast⟩ := lastWildcard_longest h hg
      exact ⟨g ++ [star], by rw [hfind, ← hlast, hw]⟩
    · rw [lastWildcard_eq_none h fun f hf hP => hsome ⟨f, hf, hP⟩] at hw
      cases hw
  cases hm : findNode t.root p with
  | none =>
    rw [hm] at hs
    exact hfall hs
  | some m =>
    rw [hm, settled] at hs
    split_ifs at hs
    · exact hfall hs
    · exact ⟨p, by rw [hm, hs]⟩

theorem resolve_negative_soa (ms : List Mutation) (hrec : ∀ m ∈ ms, ∀ s ∈ m.records, s.hasRecords = true) (q : Bytes)
    (hq : QueryName q) (qt : RRType) (hans : ((Tree.new.mutateAll ms).resolve q qt).hasAnswer = false)
    (href : ((Tree.new.mutateAll ms).resolve q qt).authority.type ≠ typeNS) :
    (∀ s, Longest (HoldsSOA (Tree.new.mutateAll ms).contents) (labels q) s →
      findType (recordsAt (Tree.new.mutateAll ms).contents s) typeSOA =
          some ((Tree.new.mutateAll ms).resolve q qt).authority ∧
        labels ((Tree.new.mutateAll ms).resolve q qt).authorityName = s) ∧
      ((∀ s, s <+: labels q → ¬ HoldsSOA (Tree.new.mutateAll ms).contents s) →
        ((Tree.new.mutateAll ms).resolve q qt).authority = .empty) := by
  have h := Tree.valid_mutateAll ms
  have hno : ∀ c, c <+: labels q → ¬ Delegates (Tree.new.mutateAll ms).contents (labels q) qt c := by
    intro c hc hP
    obtain ⟨d, hd⟩ := exists_shortest hc hP
    obtain ⟨ns, name, hns, -, hr⟩ := resolve_referral h (fun _ => hq) hd
    rw [hr] at href
    exact href (type_of_find (findType_of_cutOf hns))
  have hneg : ∃ rc, (Tree.new.mutateAll ms).resolve q qt =
      ⟨rc, .empty, (enclosing (Tree.new.mutateAll ms) q).soaRR, (enclosing (Tree.new.mutateAll ms) q).soaName⟩ := by
    rw [resolve_through h (fun _ => hq) hno] at hans ⊢
    rcases settle_cases qt (findNode _ _) (lastWildcard _ none (labels q)) (enclosing _ q) with
      hs | ⟨node, a, hnode, ha, hs⟩
    · exact hs
    · obtain ⟨p, hp⟩ := settled_found h hnode
      have hmem := answerOf_mem ha
      rw [← recordsAt_findNode hp] at hmem
      rw [hs] at hans
      have hyes : a.hasRecords = true := stored_recordsAt hrec p a hmem
      exact absurd (hyes.symm.trans hans) (by decide)
  obtain ⟨rc, hr⟩ := hneg
  rw [hr]
  constructor
  · intro s hs
    obtain ⟨rr, name, hrr, hname, -, he⟩ := enclosing_longest h hs
    rw [he]
    exact ⟨hrr, hname⟩
  · intro hnone
    rw [enclosing_none h hnone]

def apex : List Mutation := [.upsert [0x61] [⟨[[0, 0]], 300, typeSOA, classIN⟩]]

theorem resolve_negative_soa_apex :
    findType (recordsAt (Tree.new.mutateAll apex).contents [[0x61]]) typeSOA =
        some ((Tree.new.mutateAll apex).resolve [0x62, dot, 0x41] 1).authority ∧
      labels ((Tree.new.mutateAll apex).resolve [0x62, dot, 0x41] 1).authorityName = [[0x61]] := by
  have hq : QueryName [0x62, dot, 0x41] := .inr ⟨[[0x62], [0x41]], by decide, by decide, .inl rfl⟩
  apply (resolve_negative_soa apex (by decide) _ hq 1 (by decide) (by decide)).1
  have hl : labels [0x62, dot, 0x41] = [[0x61], [0x62]] := by decide
  rw [hl]
  exact longest_take (p := [[0x61], [0x62]]) (k := 1) (by decide) (by decide) fun j hj hle => by
    obtain rfl : j = 2 := by
      simp only [length_cons, length_nil] at hle
      omega
    decide

def emptySet : List Mutation :=
  [.upsert [0x61] [⟨[[0, 0]], 300, typeSOA, classIN⟩, ⟨[], 300, 1, classIN⟩]]

/-- An address set without RDATA at the name of the SOA settles the query, and the SOA is not returned. -/
theorem resolve_negative_emptySet :
    ((Tree.new.mutateAll emptySet).resolve [0x61] 1).hasAnswer = false ∧
      ((Tree.new.mutateAll emptySet).resolve [0x61] 1).authority.type ≠ typeNS ∧
      Longest (HoldsSOA (Tree.new.mutateAll emptySet).contents) (labels [0x61]) [[0x61]] ∧
      ((Tree.new.mutateAll emptySet).resolve [0x61] 1).authority = .empty := by
  have hsoa : HoldsSOA (Tree.new.mutateAll emptySet).contents [[0x61]] := by decide
  have hl : labels [0x61] = [[0x61]] := by decide
  refine ⟨by decide, by decide, ?_, by decide⟩
  rw [hl]
  exact ⟨prefix_rfl, hsoa, fun d hd _ => hd.length_le⟩

end Kdns.Radix
