import Kdns.Lib.GoParse
import Kdns.Lib.Loops
import Kdns.Radix.Ordered

namespace Kdns.Api

open ByteStream Dns GoStrings Iteration Radix Wire List

def defaultPageLimit : ℕ := 50
def maxPageLimit : ℕ := 1000

def parseLimit (val : Bytes) : ℕ :=
  if val = [] then defaultPageLimit
  else
    match atoi val with
    | none => defaultPageLimit
    | some n => if n ≤ 0 then defaultPageLimit else if n > maxPageLimit then maxPageLimit else n.toNat

structure ListQuery where
  limit : Bytes
  cursor : Bytes
  after : Bytes

structure ListResponse (D : Type) where
  nextCursor : Bytes
  domains : List D
  hasMore : Bool
  deriving DecidableEq

structure Listing (D : Type) where
  domains : List D
  nextCursor : Bytes
  hasMore : Bool
  count : ℕ

variable {D : Type} (formatDomain : Bytes × RRSets → D)

def listRow (limit : ℕ) (s : Listing D) (row : Bytes × RRSets) : Listing D × Bool :=
  if s.count = limit then ({ s with hasMore := true }, false)
  else ({ s with domains := s.domains ++ [formatDomain row], nextCursor := row.1, count := s.count + 1 }, true)

def listRecords (t : Tree) (q : ListQuery) : ListResponse D :=
  let limit := parseLimit q.limit
  let after := if q.cursor = [] then q.after else q.cursor
  let s := (if after = [] then t.seek [] else t.seek after) (listRow formatDomain limit) ⟨[], [], false, 0⟩
  ⟨if s.hasMore then s.nextCursor else [], s.domains, s.hasMore⟩

def nextPage (t : Tree) (limit cursor : Bytes) : Paging.Page Bytes D :=
  let r := listRecords formatDomain t ⟨limit, cursor, []⟩
  ⟨r.domains, r.nextCursor, r.hasMore⟩

theorem parseLimit_range (val : Bytes) : 1 ≤ parseLimit val ∧ parseLimit val ≤ maxPageLimit := by
  unfold parseLimit
  split_ifs with h0
  · decide
  · cases atoi val with
    | none => decide
    | some n =>
      dsimp only
      split_ifs with hpos hmax
      · decide
      · decide
      · have hsize : maxPageLimit = 1000 := rfl
        omega

section Page

variable {formatDomain}

theorem scan_listRow (limit : ℕ) (s : Listing D) (rows : List (Bytes × RRSets)) (hmore : s.hasMore = false)
    (hcount : s.count ≤ limit) : (scan (listRow formatDomain limit) s rows).1 =
      ⟨s.domains ++ (rows.take (limit - s.count)).map formatDomain,
        (((rows.take (limit - s.count)).getLast?).map Prod.fst).getD s.nextCursor,
        decide (limit - s.count < rows.length), s.count + (rows.take (limit - s.count)).length⟩ := by
  induction rows generalizing s with
  | nil =>
    obtain ⟨domains, nextCursor, hasMore, count⟩ := s
    subst hmore
    simp
  | cons row rows ih =>
    rw [scan_cons, listRow]
    by_cases hfull : s.count = limit
    · rw [if_pos hfull]
      simp [followed, hfull]
    · rw [if_neg hfull]
      obtain ⟨n, hn⟩ : ∃ n, limit - s.count = n + 1 := ⟨limit - s.count - 1, by omega⟩
      have hrest : limit - (s.count + 1) = n := by omega
      have hnext := ih ⟨s.domains ++ [formatDomain row], row.1, s.hasMore, s.count + 1⟩ hmore (by simp only; omega)
      simp only [hrest] at hnext
      simp only [followed, if_true, hn, take_succ_cons]
      rw [hnext, List.getLast?_cons]
      have hcursor : (((rows.take n).getLast?).map Prod.fst).getD row.1 = (((rows.take n).getLast?).getD row).1 := by
        cases (rows.take n).getLast? <;> rfl
      simp only [hcursor, Option.map_some, Option.getD_some, map_cons, length_cons, append_assoc,
        singleton_append, Nat.add_lt_add_iff_right, Listing.mk.injEq, true_and]
      omega

theorem nextPage_eq (t : Tree) (limit cursor : Bytes) : nextPage formatDomain t limit cursor =
      ⟨((t.rowsAfter cursor).take (parseLimit limit)).map formatDomain,
        if parseLimit limit < (t.rowsAfter cursor).length then
          ((((t.rowsAfter cursor).take (parseLimit limit)).getLast?).map Prod.fst).getD []
        else [],
        decide (parseLimit limit < (t.rowsAfter cursor).length)⟩ := by
  have hafter : (if cursor = [] then ([] : Bytes) else cursor) = cursor := by
    split_ifs with h0
    · exact h0.symm
    · rfl
  have hseek : ∀ after : Bytes, (if after = [] then t.seek [] else t.seek after) =
      (t.seek after : (Listing D → Bytes × RRSets → Listing D × Bool) → Listing D → Listing D) := by
    intro after
    split_ifs with h0
    · rw [h0]
    · rfl
  simp only [nextPage, listRecords, hafter, hseek]
  rw [Tree.seek_eq, scan_listRow (parseLimit limit) ⟨[], [], false, 0⟩ _ rfl (Nat.zero_le _)]
  simp

end Page

section Chain

variable {t : Tree} (h : t.Valid) (hn : NamesWithin pathBufSize t.root)
  (hsorted : t.walk.Pairwise fun a b => CanonicalLt (labels a.1) (labels b.1))

include hsorted in
theorem root_first {front rest : List (Bytes × RRSets)} {row : Bytes × RRSets} (hwalk : t.walk = front ++ row :: rest)
    (hroot : row.1 = []) : front = [] := by
  rw [hwalk, pairwise_append] at hsorted
  rw [eq_nil_iff_forall_not_mem]
  intro x hx
  have hlt := hsorted.2.2 x hx row mem_cons_self
  rw [hroot] at hlt
  exact not_lex_nil hlt

include h hn hsorted in
theorem rowsAfter_page {front rows : List (Bytes × RRSets)} {limit : ℕ} (hwalk : t.walk = front ++ rows)
    (hpos : 1 ≤ limit) (hmore : limit < rows.length) (hgood : ¬(limit = 1 ∧ t.get [dotByte] ≠ none ∧ 2 ≤ t.len)) :
    t.rowsAfter ((((rows.take limit).getLast?).map Prod.fst).getD []) = rows.drop limit := by
  obtain ⟨init, row, htake⟩ : ∃ init row, rows.take limit = init ++ [row] := by
    have hne : rows.take limit ≠ [] := by
      rw [← length_pos_iff, length_take]
      omega
    exact ⟨_, _, (dropLast_append_getLast hne).symm⟩
  have hsplit : t.walk = (front ++ init) ++ row :: rows.drop limit := by
    have hrows := take_append_drop limit rows
    rw [htake, append_assoc] at hrows
    rw [hwalk, append_assoc]
    exact congrArg (front ++ ·) hrows.symm
  have hmem : (row.1, row.2) ∈ t.walk := by
    rw [hsplit]
    simp
  have hnotroot : row.1 ≠ [] := by
    intro hroot
    have hempty := root_first hsorted hsplit hroot
    obtain ⟨rfl, rfl⟩ := append_eq_nil_iff.mp hempty
    have hone : limit = 1 := by
      have hlen := congrArg List.length htake
      rw [length_take_of_le hmore.le] at hlen
      simpa using hlen
    have hget : t.get [dotByte] = some row.2 := by
      have hrow := ((Tree.mem_walk h hn row.1 row.2).mp hmem).2
      rw [hroot] at hrow
      exact hrow
    refine hgood ⟨hone, by simp [hget], ?_⟩
    rw [← (Tree.walk_spec h hn).2, hwalk, nil_append]
    omega
  have hbefore : ∀ x ∈ front ++ init, x.1 ≠ row.1 := by
    intro x hx heq
    have hlt := (pairwise_append.mp (hsplit ▸ hsorted)).2.2 x hx row mem_cons_self
    rw [heq] at hlt
    exact canonicalLt_irrefl _ hlt
  rw [htake, List.getLast?_concat, Option.map_some, Option.getD_some, Tree.rowsAfter_walk h hn hnotroot hmem, hsplit]
  exact pastName_append hbefore _

def Remaining (formatDomain : Bytes × RRSets → D) (t : Tree) (cursor : Bytes) (rows : List D) : Prop :=
  (∃ front, t.walk = front ++ t.rowsAfter cursor) ∧ rows = (t.rowsAfter cursor).map formatDomain

include h hn hsorted in
theorem remaining_page {limit cursor : Bytes} {rows : List D}
    (hgood : ¬(parseLimit limit = 1 ∧ t.get [dotByte] ≠ none ∧ 2 ≤ t.len))
    (hrows : Remaining formatDomain t cursor rows) :
    ((nextPage formatDomain t limit cursor).more = false ∧ (nextPage formatDomain t limit cursor).rows = rows) ∨
      ((nextPage formatDomain t limit cursor).more = true ∧ (nextPage formatDomain t limit cursor).rows ≠ [] ∧
        ∃ rest, rows = (nextPage formatDomain t limit cursor).rows ++ rest ∧
          Remaining formatDomain t (nextPage formatDomain t limit cursor).next rest) := by
  obtain ⟨⟨front, hwalk⟩, rfl⟩ := hrows
  obtain ⟨hpos, -⟩ := parseLimit_range limit
  rw [nextPage_eq]
  by_cases hmore : parseLimit limit < (t.rowsAfter cursor).length
  · have hsome : (t.rowsAfter cursor).take (parseLimit limit) ≠ [] := by
      rw [← length_pos_iff, length_take]
      omega
    have hafter := rowsAfter_page h hn hsorted hwalk hpos hmore hgood
    refine .inr ⟨decide_eq_true hmore, by simpa using hsome,
      ((t.rowsAfter cursor).drop (parseLimit limit)).map formatDomain, ?_, ?_⟩
    · rw [← map_append, take_append_drop]
    · rw [if_pos hmore, Remaining, hafter]
      refine ⟨⟨front ++ (t.rowsAfter cursor).take (parseLimit limit), ?_⟩, rfl⟩
      rw [append_assoc, take_append_drop]
      exact hwalk
  · refine .inl ⟨decide_eq_false hmore, ?_⟩
    rw [take_of_length_le (Nat.le_of_not_lt hmore)]

include h hn hsorted in
theorem crawl_root {limit : Bytes} (hone : parseLimit limit = 1) (hroot : t.get [dotByte] ≠ none) (hlen : 2 ≤ t.len)
    (fuel : ℕ) : Paging.crawl (nextPage formatDomain t limit) fuel [] = none := by
  obtain ⟨r, hr⟩ := Option.ne_none_iff_exists'.mp hroot
  have hmem : (([] : Bytes), r) ∈ t.walk := (Tree.mem_walk h hn _ _).mpr ⟨rfl, hr⟩
  obtain ⟨front, rest, hwalk⟩ := append_of_mem hmem
  obtain rfl := root_first hsorted hwalk rfl
  have hrows : t.rowsAfter [] = ([], r) :: rest := hwalk
  have hmore : 1 < (t.rowsAfter []).length := by
    rw [← (Tree.walk_spec h hn).2] at hlen
    exact hlen
  apply Paging.crawl_stuck
  · rw [nextPage_eq, hone]
    exact decide_eq_true hmore
  · rw [nextPage_eq, hone, if_pos hmore, hrows]
    rfl

end Chain

theorem listRecords_pages_iff (u : Unicode) (ms : List Mutation) (h : ∀ m ∈ ms, Accepted u m.domain) (limit : Bytes) :
    (∃ fuel, Paging.crawl (nextPage formatDomain (Tree.new.mutateAll ms) limit) fuel [] =
        some ((Tree.new.mutateAll ms).walkSeq.map formatDomain)) ↔
      ¬(parseLimit limit = 1 ∧ (Tree.new.mutateAll ms).get [dotByte] ≠ none ∧ 2 ≤ (Tree.new.mutateAll ms).len) := by
  have hv := Tree.valid_mutateAll ms
  have hn := namesWithin_accepted h
  have hsorted := Tree.walk_sorted hv hn (fromStar_accepted h)
  rw [Tree.walkSeq_eq]
  constructor
  · rintro ⟨fuel, hall⟩ ⟨hone, hroot, hlen⟩
    rw [crawl_root formatDomain hv hn hsorted hone hroot hlen] at hall
    cases hall
  · intro hgood
    exact Paging.crawl_all (fun c rows => remaining_page formatDomain hv hn hsorted hgood) ⟨⟨[], rfl⟩, rfl⟩

theorem listRecords_pages_host : ∃ fuel, Paging.crawl (nextPage Prod.fst (Tree.new.mutateAll
      [.upsert (ascii "a") [⟨[[1]], 300, typeA, classIN⟩], .upsert (ascii "*.a") [⟨[[2]], 300, typeA, classIN⟩],
        .upsert (ascii "b") [⟨[[3]], 300, typeA, classIN⟩]]) (ascii "1")) fuel [] =
    some [ascii "a", ascii "*.a", ascii "b"] := by
  have hpages := listRecords_pages_iff Prod.fst .basic
    [.upsert (ascii "a") [⟨[[1]], 300, typeA, classIN⟩], .upsert (ascii "*.a") [⟨[[2]], 300, typeA, classIN⟩],
      .upsert (ascii "b") [⟨[[3]], 300, typeA, classIN⟩]] (fun m hm => ?_) (ascii "1")
  · obtain ⟨fuel, hfuel⟩ := hpages.mpr (by decide +kernel)
    exact ⟨fuel, hfuel.trans (by decide +kernel)⟩
  · simp only [mem_cons, not_mem_nil, or_false] at hm
    obtain rfl | rfl | rfl := hm
    · exact ⟨ascii "a", by decide +kernel⟩
    · exact ⟨ascii "*.a", by decide +kernel⟩
    · exact ⟨ascii "b", by decide +kernel⟩

/-- Pages of one row over a tree with records at the root: every request shows the root again. -/
theorem listRecords_root_loops : ¬∃ fuel, Paging.crawl (nextPage Prod.fst (Tree.new.mutateAll
      [.upsert [dotByte] [⟨[[1]], 300, typeA, classIN⟩], .upsert (ascii "a") [⟨[[2]], 300, typeA, classIN⟩]])
      (ascii "1")) fuel [] = some [[], ascii "a"] := by
  rintro ⟨fuel, hall⟩
  rw [Paging.crawl_stuck (by decide +kernel) (by decide +kernel)] at hall
  cases hall

end Kdns.Api
