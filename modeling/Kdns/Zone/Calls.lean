import Kdns.Lib.GoFields
import Kdns.Zone.Lines

namespace Kdns.Zone

open ByteStream Dns Wire
open GoStrings hiding Text

variable {lines : List Text} {s : Text}

section Calls

structure Reading where
  calls : List (List Text)
  context : Context
  pending : List Text
  deriving DecidableEq, Repr

def Reading.call (tokens : List Text) (r : Reading) : Reading := if tokens = [] then r else { r with calls := tokens :: r.calls }

def reading (x : Context) (pending : List Text) : List Text → Except ZoneError Reading
  | [] => .ok ⟨[], x, pending⟩
  | line :: lines =>
    if x.closed ∧ ¬line.any isSpecial then (reading x pending lines).map (Reading.call (plainTokens line))
    else
      match tokenizeComplexLine x line with
      | .error e => .error e
      | .ok (x', lineTokens) =>
        if x'.closed then (reading x' [] lines).map (Reading.call (pending ++ lineTokens))
        else reading x' (pending ++ lineTokens) lines

def ZoneParser.within (p : ZoneParser) (x : Context) (pending : List Text) : ZoneParser :=
  { p with context := x, complexTokens := pending }

open Fallible

variable {enc : Encoders} {u : Unicode} {r : Reading}

section

variable (p : ZoneParser)

section

variable (x : Context)
include x

theorem processDirective_within (pending tokens : List Text) :
    processDirective u (p.within x pending) tokens =
      (processDirective u p tokens).map (Option.map fun p' => p'.within x pending) := by
  cases tokens with
  | nil => rfl
  | cons first rest =>
    rw [processDirective.eq_def, processDirective.eq_def]
    dsimp only
    split_ifs
    · cases rest with
      | nil => rfl
      | cons value rest => dsimp only; cases parseTTL value <;> rfl
    · cases rest with
      | nil => rfl
      | cons value rest =>
        dsimp only
        split_ifs
        · rfl
        · cases normalizeName u value [] <;> rfl
    · rfl

theorem resolveOwnerName_within (pending : List Text) (rawName : Text) (hasOwner : Bool) :
    resolveOwnerName u (p.within x pending) rawName hasOwner =
      (fun r => (r.1.within x pending, r.2)) <$> resolveOwnerName u p rawName hasOwner := by
  unfold resolveOwnerName
  rw [show (p.within x pending).origin = p.origin from rfl, show (p.within x pending).lastDomain = p.lastDomain from rfl]
  split_ifs
  · cases resolveDomainName u rawName p.origin <;> rfl
  · rfl
  · rfl
  · rfl

theorem processRecord_within (pending tokens : List Text) :
    processRecord enc u (p.within x pending) tokens = (fun p' => p'.within x pending) <$> processRecord enc u p tokens := by
  rw [processRecord, processRecord, map_bind]
  apply bind_congr
  rintro ⟨typeIdx, qType⟩
  rw [map_bind]
  apply bind_congr
  intro header
  rw [resolveOwnerName_within, bind_map_left, map_bind]
  apply bind_congr
  rintro ⟨p', name⟩
  dsimp only
  split_ifs
  · rfl
  · cases packRData enc qType (joinBlank (tokens.drop (typeIdx + 1))) <;> rfl

theorem processRecordTokens_within (pending tokens : List Text) :
    processRecordTokens enc u (p.within x pending) tokens =
      (fun p' => p'.within x pending) <$> processRecordTokens enc u p tokens := by
  rw [processRecordTokens, processRecordTokens]
  split_ifs
  · rfl
  · rw [processDirective_within]
    cases processDirective u p tokens with
    | error e => rfl
    | ok next =>
      cases next with
      | none => exact processRecord_within p x pending tokens
      | some p' => rfl

theorem foldlM_within (pending : List Text) (calls : List (List Text)) :
    calls.foldlM (processRecordTokens enc u) (p.within x pending) =
      (fun p' => p'.within x pending) <$> calls.foldlM (processRecordTokens enc u) p := by
  induction calls generalizing p with
  | nil => rfl
  | cons tokens calls ih =>
    rw [List.foldlM_cons, List.foldlM_cons, processRecordTokens_within, bind_map_left, map_bind]
    apply bind_congr
    exact fun p' => ih p'

end

theorem foldlM_call (tokens : List Text) (r : Reading) : (r.call tokens).calls.foldlM (processRecordTokens enc u) p =
      processRecordTokens enc u p tokens >>= fun p' => r.calls.foldlM (processRecordTokens enc u) p' := by
  unfold Reading.call
  split_ifs with hnil
  · rw [hnil]
    rfl
  · rfl

end

theorem reading_cons {p : ZoneParser} {line : Text} (h : reading p.context p.complexTokens (line :: lines) = .ok r) :
    ∃ x pending tokens r', reading x pending lines = .ok r' ∧ r = r'.call tokens ∧
      parseLine enc u p line = (fun p' => p'.within x pending) <$> processRecordTokens enc u p tokens := by
  rw [reading] at h
  split_ifs at h with hplain
  · obtain ⟨r', hr', rfl⟩ := map_ok h
    refine ⟨p.context, p.complexTokens, plainTokens line, r', hr', rfl, ?_⟩
    rw [parseLine, if_pos hplain]
    exact processRecordTokens_within p p.context p.complexTokens (plainTokens line)
  · split at h
    · cases h
    · next x' lineTokens hlex =>
      split_ifs at h with hclosed
      · obtain ⟨r', hr', rfl⟩ := map_ok h
        refine ⟨x', [], p.complexTokens ++ lineTokens, r', hr', rfl, ?_⟩
        rw [parseLine, if_neg hplain, hlex, ok_bind]
        dsimp only
        by_cases hnil : p.complexTokens ++ lineTokens = []
        · rw [if_neg fun hflush => hflush.2 hnil, hnil]
          rfl
        · rw [if_pos ⟨hclosed, hnil⟩]
          change (processRecordTokens enc u (p.within x' (p.complexTokens ++ lineTokens)) _ >>= _) = _
          rw [processRecordTokens_within, bind_map_left]
          cases processRecordTokens enc u p (p.complexTokens ++ lineTokens) <;> rfl
      · refine ⟨x', p.complexTokens ++ lineTokens, [], r, h, rfl, ?_⟩
        rw [parseLine, if_neg hplain, hlex, ok_bind]
        dsimp only
        rw [if_neg fun hflush => hclosed hflush.1]
        rfl

theorem parseLines_reading {p : ZoneParser} (h : reading p.context p.complexTokens lines = .ok r) :
    parseLines enc u p lines = (fun p' => p'.within r.context r.pending) <$> r.calls.foldlM (processRecordTokens enc u) p := by
  induction lines generalizing p r with
  | nil =>
    cases h
    rfl
  | cons line lines ih =>
    obtain ⟨x, pending, tokens, r', hr', rfl, hline⟩ :
        ∃ x pending tokens r', reading x pending lines = .ok r' ∧ r = r'.call tokens ∧
          parseLine enc u p line = (fun p' => p'.within x pending) <$> processRecordTokens enc u p tokens := reading_cons h
    have hkept : (r'.call tokens).context = r'.context ∧ (r'.call tokens).pending = r'.pending := by
      unfold Reading.call
      split_ifs <;> exact ⟨rfl, rfl⟩
    rw [parseLines, List.foldlM_cons, hline, bind_map_left, foldlM_call, map_bind, hkept.1, hkept.2]
    apply bind_congr
    intro p'
    have hlines := ih (p := p'.within x pending) hr'
    rw [foldlM_within, ← comp_map] at hlines
    exact hlines

end Calls

section Scanning

variable {x x' : Context} {token : Text} {tokens tokens' : List Text}

theorem flush_append (front : List Text) (token : Text) (tokens : List Text) :
    flush token (front ++ tokens) = front ++ flush token tokens := by
  unfold flush
  split_ifs
  · rfl
  · rw [List.append_assoc]

theorem tokenizeFrom_append (front : List Text) (x : Context) (token : Text) (tokens : List Text) (s : Text) :
    tokenizeFrom x token (front ++ tokens) s = (fun r => (r.1, front ++ r.2)) <$> tokenizeFrom x token tokens s := by
  -- the tokens that are there are only ever appended to
  fun_induction tokenizeFrom x token tokens s
  all_goals rw [tokenizeFrom.eq_def]
  all_goals simp_all [flush_append]

theorem tokenizeFrom_isPrefix (h : tokenizeFrom x token tokens s = .ok (x', tokens')) : tokens <+: tokens' := by
  have happend := tokenizeFrom_append tokens x token [] s
  rw [List.append_nil, h] at happend
  obtain ⟨r, -, hr⟩ := Fallible.map_ok happend.symm
  exact ⟨r.2, (Prod.mk.inj hr).2⟩

theorem tokenizeFrom_grown {t : Text} (hquote : quote ∉ t) (hgrown : t <+: token ∧ t.length < token.length)
    (h : tokenizeFrom x token tokens s = .ok (x', tokens')) : ∃ first, first ≠ t ∧ tokens ++ [first] <+: tokens' := by
  have hemitted : ∀ {token tokens}, t <+: token ∧ t.length < token.length → flush token tokens <+: tokens' →
      ∃ first, first ≠ t ∧ tokens ++ [first] <+: tokens' := by
    intro token tokens hgrown hkept
    rw [flush, if_neg (List.ne_nil_of_length_pos (Nat.zero_lt_of_lt hgrown.2))] at hkept
    exact ⟨token, fun heq => hgrown.2.ne (congrArg List.length heq.symm), hkept⟩
  have hgrows : ∀ {token : Text} (more : Text), t <+: token ∧ t.length < token.length →
      t <+: token ++ more ∧ t.length < (token ++ more).length := by
    intro token more hgrown
    refine ⟨hgrown.1.trans (List.prefix_append token more), ?_⟩
    rw [List.length_append]
    omega
  fun_induction tokenizeFrom x token tokens s
  case case1 | case5 => exact hemitted hgrown ((Prod.mk.inj (Except.ok.inj h)).2 ▸ List.prefix_rfl)
  case case2 ih | case4 ih | case6 ih | case8 ih | case9 ih => exact ih hgrown h
  case case3 =>
    -- the quotation that ends here is the next token
    refine ⟨_, fun heq => hquote ?_, tokenizeFrom_isPrefix h⟩
    rw [← heq]
    exact List.mem_append_right _ List.mem_cons_self
  case case7 => cases h
  case case10 => exact hemitted hgrown (tokenizeFrom_isPrefix h)
  case case11 ih | case12 ih => exact ih (hgrows _ hgrown) h

theorem tokenizeFrom_notMem {b : UInt8} (hs : b ∉ s) (hbuf : b ∉ x.quoteBuf) (htoken : b ∉ token)
    (htokens : ∀ t ∈ tokens, b ∉ t) (h : tokenizeFrom x token tokens s = .ok (x', tokens')) :
    b ∉ x'.quoteBuf ∧ ∀ t ∈ tokens', b ∉ t := by
  fun_induction tokenizeFrom x token tokens s <;> grind [flush]

end Scanning

section Running

variable {x x' : Context} {token : Text} {tokens : List Text} {r : Reading}

def resume (lines : List Text) : Except ZoneError (Context × List Text) → Except ZoneError Reading
  | .error e => .error e
  | .ok (x, tokens) => if x.closed then (reading x [] lines).map (Reading.call tokens) else reading x tokens lines

theorem reading_slow {line : Text} (h : ¬(x.closed ∧ ¬line.any isSpecial)) (pending lines : List Text) :
    reading x pending (line :: lines) = resume lines (tokenizeFrom x [] pending line) := by
  have happend := tokenizeFrom_append pending x [] [] line
  rw [List.append_nil] at happend
  rw [reading, if_neg h, tokenizeComplexLine, happend]
  cases tokenizeFrom x [] [] line <;> rfl

theorem call_isPrefix (tokens : List Text) (r : Reading) : tokens <+: (r.call tokens).calls.flatten ++ (r.call tokens).pending := by
  unfold Reading.call
  split_ifs with hnil
  · rw [hnil]
    exact List.nil_prefix
  · rw [List.flatten_cons, List.append_assoc]
    exact List.prefix_append _ _

theorem reading_isPrefix {pending : List Text} (hopen : x.closed = false) (h : reading x pending lines = .ok r) :
    pending <+: r.calls.flatten ++ r.pending := by
  induction lines generalizing x pending with
  | nil =>
    cases h
    exact List.prefix_rfl
  | cons line lines ih =>
    rw [reading_slow fun hno => Bool.false_ne_true (hopen.symm.trans hno.1)] at h
    cases hlex : tokenizeFrom x [] pending line with
    | error e =>
      rw [hlex] at h
      cases h
    | ok out =>
      obtain ⟨x', tokens⟩ := out
      rw [hlex, resume] at h
      apply (tokenizeFrom_isPrefix hlex).trans
      split_ifs at h with hclosed
      · obtain ⟨r', -, rfl⟩ := Fallible.map_ok h
        exact call_isPrefix tokens r'
      · exact ih (Bool.eq_false_iff.mpr hclosed) h

theorem resume_isPrefix (h : resume lines (.ok (x, tokens)) = .ok r) : tokens <+: r.calls.flatten ++ r.pending := by
  rw [resume] at h
  split_ifs at h with hclosed
  · obtain ⟨r', -, rfl⟩ := Fallible.map_ok h
    exact call_isPrefix tokens r'
  · exact reading_isPrefix (Bool.eq_false_iff.mpr hclosed) h

theorem reading_notMem {b : UInt8} {pending : List Text} (hlines : ∀ line ∈ lines, b ∉ line) (hbuf : b ∉ x.quoteBuf)
    (hpending : ∀ t ∈ pending, b ∉ t) (h : reading x pending lines = .ok r) : ∀ call ∈ r.calls, ∀ t ∈ call, b ∉ t := by
  have hcall : ∀ {call : List Text} {r : Reading}, (∀ t ∈ call, b ∉ t) → (∀ call ∈ r.calls, ∀ t ∈ call, b ∉ t) →
      ∀ call' ∈ (r.call call).calls, ∀ t ∈ call', b ∉ t := by
    intro call r hfirst hothers
    unfold Reading.call
    split_ifs
    · exact hothers
    · exact List.forall_mem_cons.mpr ⟨hfirst, hothers⟩
  induction lines generalizing x pending r with
  | nil =>
    cases h
    simp
  | cons line lines ih =>
    obtain ⟨hline, hrest⟩ := List.forall_mem_cons.mp hlines
    by_cases hplain : x.closed ∧ ¬line.any isSpecial
    · rw [reading, if_pos hplain] at h
      obtain ⟨r', hr', rfl⟩ := Fallible.map_ok h
      refine hcall (fun t ht hmem => hline ?_) (ih hrest hbuf hpending hr')
      exact (List.takeWhile_sublist _).subset ((trimSpace_isInfix _).subset (fields_subset ht b hmem))
    · rw [reading_slow hplain] at h
      cases hlex : tokenizeFrom x [] pending line with
      | error e =>
        rw [hlex] at h
        cases h
      | ok out =>
        obtain ⟨hbuf', htokens⟩ := tokenizeFrom_notMem hline hbuf List.not_mem_nil hpending hlex
        rw [hlex, resume] at h
        split_ifs at h
        · obtain ⟨r', hr', rfl⟩ := Fallible.map_ok h
          exact hcall htokens (ih hrest hbuf' (fun t ht => absurd ht List.not_mem_nil) hr')
        · exact ih hrest hbuf' htokens h

end Running

end Kdns.Zone
