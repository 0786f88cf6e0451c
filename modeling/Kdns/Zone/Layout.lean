import Kdns.Zone.Calls
import Mathlib.Data.List.Chain

open List

namespace Kdns.Zone

open ByteStream Dns Wire
open GoStrings hiding Text

section Pieces

/-- The bytes that no backslash escapes. A backslash is among them only if it is the last byte and escapes nothing. -/
def unescaped : Text → Text
  | [] => []
  | ch :: rest =>
    match decide (ch = backslash), rest with
    | true, _ :: rest => unescaped rest
    | _, rest => ch :: unescaped rest

def dangling (t : Text) : Bool := (unescaped t).contains backslash

structure Bare (t : Text) : Prop where
  ne_nil : t ≠ []
  plain : ∀ b ∈ t, isBlank b = false ∧ isSpecial b = false
  semicolons : semicolon ∉ unescaped t

theorem bare_iff {t : Text} : (t.isEmpty = false ∧ t.all (fun b => !isBlank b && !isSpecial b) = true ∧
    (unescaped t).contains semicolon = false) ↔ Bare t := by
  rw [isEmpty_eq_false_iff, all_eq_true, ← Bool.not_eq_true, contains_iff_mem]
  simp only [Bool.and_eq_true, Bool.not_eq_true']
  exact ⟨fun h => ⟨h.1, h.2.1, h.2.2⟩, fun h => ⟨h.ne_nil, h.plain, h.semicolons⟩⟩

instance decidableBare (t : Text) : Decidable (Bare t) := decidable_of_iff _ bare_iff

def Quoted (t : Text) : Prop :=
  ∃ content, t = quote :: (content ++ [quote]) ∧ quote ∉ unescaped content ∧ backslash ∉ unescaped content

def commentText : Option Text → Text
  | none => []
  | some c => semicolon :: c

inductive Piece where
  | bare (t : Text)
  | quoted (t : Text)
  | blank (b : UInt8)
  | openParen
  | closeParen
  | lineBreak (comment : Option Text)
  deriving DecidableEq, Repr

namespace Piece

def text : Piece → Text
  | bare t => t
  | quoted t => t
  | blank b => [b]
  | openParen => [Zone.openParen]
  | closeParen => [Zone.closeParen]
  | lineBreak comment => commentText comment ++ [newline]

def token : Piece → Option Text
  | bare t => some t
  | quoted t => some t
  | _ => none

def isBare : Piece → Bool
  | bare _ => true
  | _ => false

def WellFormed : Piece → Prop
  | bare t => Bare t
  | quoted t => Quoted t
  | blank b => isBlank b = true ∧ b ≠ newline
  | lineBreak comment => newline ∉ commentText comment
  | _ => True

end Piece

def balanced : ℕ → List Piece → Bool
  | depth, [] => depth = 0
  | depth, .openParen :: ps => balanced (depth + 1) ps
  | depth, .closeParen :: ps => 0 < depth && balanced (depth - 1) ps
  | depth, .lineBreak _ :: ps => 0 < depth && balanced depth ps
  | depth, _ :: ps => balanced depth ps

def texts (ps : List Piece) : Text := ps.flatMap Piece.text

def tokensOf (ps : List Piece) : List Text := ps.filterMap Piece.token

structure Layout where
  pieces : List Piece
  comment : Option Text
  wellFormed : ∀ piece ∈ pieces, piece.WellFormed
  comment_line : newline ∉ commentText comment
  apart : pieces.IsChain fun a b => ¬(a.isBare = true ∧ b.isBare = true)
  balanced : balanced 0 pieces = true
  tokens_ne : tokensOf pieces ≠ []

namespace Layout

def tokens (l : Layout) : List Text := tokensOf l.pieces

def text (l : Layout) : Text := texts l.pieces ++ commentText l.comment

def lines (l : Layout) : List Text := (scanLines l.text).1

end Layout

def lineBroken (comment : Option Text) : List Piece → Bool
  | [] => comment.isNone
  | .lineBreak comment :: _ => comment.isNone
  | _ => false

/-- The scanner drops one carriage return at the end of a line. -/
def lineEnds (comment : Option Text) : List Piece → Bool
  | .blank b :: ps => b = carriageReturn && lineBroken comment ps
  | ps => lineBroken comment ps

/-- Behind a bare token a blank or the end of a line comes before the next token; a backslash that escapes nothing is the last
byte of its line. -/
def separated (comment : Option Text) : Bool → List Piece → Bool
  | _, [] => true
  | pending, .bare t :: ps => !pending && (!dangling t || lineEnds comment ps) && separated comment true ps
  | pending, .quoted _ :: ps => !pending && separated comment false ps
  | _, .blank _ :: ps => separated comment false ps
  | _, .lineBreak _ :: ps => separated comment false ps
  | pending, _ :: ps => separated comment pending ps

/-- No line is too long for the scanner, and the pieces stand far enough apart. -/
def Layout.WellSpaced (l : Layout) : Prop :=
  (scanLines l.text).2 = false ∧
    if l.text.any isSpecial then
      (∀ t, .quoted t ∈ l.pieces → newline ∉ t) ∧ separated l.comment false l.pieces = true
    else ∀ t, .bare t ∈ l.pieces → semicolon ∉ t ∧ Unspaced t

end Pieces

variable {b : UInt8} {s t a : Text} {all : List Text} {comment : Option Text} {ps : List Piece}

section Scanning

variable {x x' : Context} {token : Text} {tokens : List Text}

section

variable (hx : x.inQuote = false)
include hx

theorem tokenizeFrom_comment (c : Option Text) :
    tokenizeFrom x token tokens (commentText c) = .ok (x, flush token tokens) := by
  cases c with
  | none => rfl
  | some c =>
    rw [commentText, tokenizeFrom.eq_def]
    simp [hx]

theorem tokenizeFrom_open (s : Text) :
    tokenizeFrom x token tokens (openParen :: s) = tokenizeFrom { x with parenCount := x.parenCount + 1 } token tokens s := by
  rw [tokenizeFrom.eq_def]
  simp [hx, show openParen ≠ semicolon by decide]

theorem tokenizeFrom_close (hpos : 0 < x.parenCount) (s : Text) :
    tokenizeFrom x token tokens (closeParen :: s) = tokenizeFrom { x with parenCount := x.parenCount - 1 } token tokens s := by
  rw [tokenizeFrom.eq_def]
  simp [hx, hpos.ne', show closeParen ≠ semicolon by decide, show closeParen ≠ openParen by decide]

theorem tokenizeFrom_quote (s : Text) : tokenizeFrom x token tokens (quote :: s) =
      tokenizeFrom { x with inQuote := true, quoteBuf := x.quoteBuf ++ [quote] } token tokens s := by
  rw [tokenizeFrom.eq_def]
  simp [hx, show quote ≠ semicolon by decide, show quote ≠ openParen by decide, show quote ≠ closeParen by decide]

theorem tokenizeFrom_blank (hb : isBlank b = true) (s : Text) :
    tokenizeFrom x token tokens (b :: s) = tokenizeFrom x [] (flush token tokens) s := by
  have hne : b ≠ semicolon ∧ b ≠ openParen ∧ b ≠ closeParen ∧ b ≠ quote := by
    refine ⟨?_, ?_, ?_, ?_⟩ <;> rintro rfl <;> cases hb
  rw [tokenizeFrom.eq_def]
  simp [hx, hne, hb]

end

theorem special_ne (hb : isSpecial b = false) : b ≠ quote ∧ b ≠ openParen ∧ b ≠ closeParen := by
  refine ⟨?_, ?_, ?_⟩ <;> rintro rfl <;> cases hb

theorem tokenizeFrom_escape (hx : x.inQuote = false) (next : UInt8) (s : Text) :
    tokenizeFrom x token tokens (backslash :: next :: s) = tokenizeFrom x (token ++ [backslash, next]) tokens s := by
  have hne := special_ne (show isSpecial backslash = false by decide)
  rw [tokenizeFrom.eq_def]
  simp [hx, hne, show backslash ≠ semicolon by decide, show isBlank backslash = false by decide]

theorem tokenizeFrom_byte (hx : x.inQuote = false) (hb : isBlank b = false ∧ isSpecial b = false) (hsemicolon : b ≠ semicolon)
    (hlast : b = backslash → s = []) : tokenizeFrom x token tokens (b :: s) = tokenizeFrom x (token ++ [b]) tokens s := by
  have hne := special_ne hb.2
  rw [tokenizeFrom.eq_def]
  by_cases hbackslash : b = backslash
  · rw [hlast hbackslash]
    simp [hx, hne, hb, hsemicolon]
  · simp [hx, hne, hb, hsemicolon, hbackslash]

/-- A backslash that escapes nothing in the token takes the byte behind it. -/
theorem tokenizeFrom_bare (h : ∀ b ∈ t, isBlank b = false ∧ isSpecial b = false) (hsemicolons : semicolon ∉ unescaped t)
    (hx : x.inQuote = false) (s : Text) : tokenizeFrom x token tokens (t ++ s) =
      tokenizeFrom x (token ++ t ++ s.take (dangling t).toNat) tokens (s.drop (dangling t).toNat) := by
  unfold dangling
  fun_induction unescaped t generalizing token with
  | case1 => simp
  | case2 ch next rest hch ih =>
    obtain rfl := of_decide_eq_true hch
    rw [cons_append, cons_append, tokenizeFrom_escape hx, ih (fun b hb => h b (by simp [hb])) hsemicolons]
    simp
  | case3 ch rest hch ih =>
    rw [mem_cons, not_or] at hsemicolons
    have hbyte : ∀ {s}, (ch = backslash → s = []) →
        tokenizeFrom x token tokens (ch :: s) = tokenizeFrom x (token ++ [ch]) tokens s :=
      tokenizeFrom_byte hx (h ch mem_cons_self) (Ne.symm hsemicolons.1)
    by_cases hlast : ch = backslash
    · cases rest with
      | nil =>
        cases s with
        | nil =>
          rw [append_nil, hbyte fun _ => rfl]
          simp
        | cons next s =>
          rw [hlast, singleton_append, tokenizeFrom_escape hx]
          simp [unescaped]
      | cons c rest => exact (hch c rest (decide_eq_true hlast) rfl).elim
    · rw [cons_append, hbyte fun heq => absurd heq hlast, ih (fun b hb => h b (mem_cons_of_mem ch hb)) hsemicolons.2,
        contains_cons, beq_false_of_ne (Ne.symm hlast)]
      simp

theorem tokenizeFrom_content {content : Text} (hquotes : quote ∉ unescaped content) (hescapes : backslash ∉ unescaped content)
    (hx : x.inQuote = true) (s : Text) : tokenizeFrom x token tokens (content ++ quote :: s) =
      tokenizeFrom { x with inQuote := false, quoteBuf := [] } token (tokens ++ [x.quoteBuf ++ content ++ [quote]]) s := by
  fun_induction unescaped content generalizing x with
  | case1 =>
    rw [nil_append, tokenizeFrom.eq_def]
    simp [hx, show quote ≠ backslash by decide]
  | case2 ch next rest hch ih =>
    rw [cons_append, cons_append, tokenizeFrom.eq_def]
    simp only [hx, hch, if_true]
    rw [ih hquotes hescapes rfl]
    simp
  | case3 ch rest hch ih =>
    rw [mem_cons, not_or] at hquotes hescapes
    rw [cons_append, tokenizeFrom.eq_def]
    simp only [hx, decide_eq_false (Ne.symm hescapes.1), if_true, if_neg (Ne.symm hquotes.1)]
    rw [ih hquotes.2 hescapes.2 rfl]
    simp

theorem tokenizeFrom_quoted (h : Quoted t) (depth : ℕ) (s : Text) :
    tokenizeFrom ⟨depth, false, []⟩ token tokens (t ++ s) = tokenizeFrom ⟨depth, false, []⟩ token (tokens ++ [t]) s := by
  obtain ⟨content, rfl, hquotes, hescapes⟩ := h
  rw [cons_append, append_assoc, tokenizeFrom_quote rfl, singleton_append, tokenizeFrom_content hquotes hescapes rfl]
  rfl

end Scanning

section Running

variable {x x' : Context} {token : Text} {tokens : List Text}

def firstLine (s : Text) : Text := s.takeWhile (· ≠ newline)

def nextLines (s : Text) : List Text := splitLines [] (s.dropWhile (· ≠ newline)).tail

theorem firstLine_append (ha : newline ∉ a) (s : Text) : firstLine (a ++ s) = a ++ firstLine s :=
  takeWhile_append_of_pos fun _ hb => decide_eq_true (ne_of_mem_of_not_mem hb ha)

theorem nextLines_append (ha : newline ∉ a) (s : Text) : nextLines (a ++ s) = nextLines s := by
  rw [nextLines, dropWhile_append_of_pos fun _ hb => decide_eq_true (ne_of_mem_of_not_mem hb ha), nextLines]

theorem firstLine_newline (s : Text) : firstLine (newline :: s) = [] ∧ nextLines (newline :: s) = splitLines [] s :=
  ⟨rfl, rfl⟩

theorem splitLines_eq {current s : Text} (h : current ++ s ≠ []) :
    splitLines current s = (current ++ firstLine s) :: nextLines s := by
  induction s generalizing current with
  | nil =>
    rw [append_nil] at h
    rw [splitLines, if_neg h, firstLine, takeWhile_nil, append_nil]
    rfl
  | cons b s ih =>
    rw [splitLines]
    split_ifs with hb
    · rw [hb, (firstLine_newline s).1, (firstLine_newline s).2, append_nil]
    · have hne : newline ∉ [b] := fun hmem => hb (mem_singleton.mp hmem).symm
      have hnext : nextLines (b :: s) = nextLines s := nextLines_append hne s
      have hfirst : firstLine (b :: s) = b :: firstLine s := firstLine_append hne s
      rw [ih (by simp), hnext, hfirst, append_assoc]
      rfl

theorem splitLines_nil (hs : s ≠ []) : splitLines [] s = firstLine s :: nextLines s := splitLines_eq hs

theorem splitLines_notMem {current s : Text} (h : newline ∉ current) : ∀ line ∈ splitLines current s, newline ∉ line := by
  induction s generalizing current with
  | nil =>
    rw [splitLines]
    split_ifs
    · simp
    · simpa using h
  | cons b s ih =>
    rw [splitLines]
    split_ifs with hb
    · exact forall_mem_cons.mpr ⟨h, ih not_mem_nil⟩
    · refine ih fun hmem => ?_
      rcases mem_append.mp hmem with hmem | hmem
      · exact h hmem
      · exact hb (mem_singleton.mp hmem).symm

theorem dropCR_concat (s : Text) (b : UInt8) : dropCR (s ++ [b]) = if b = carriageReturn then s else s ++ [b] := by
  have hlast : hasSuffix (s ++ [b]) [carriageReturn] = (carriageReturn == b) := by
    simp only [hasSuffix, isSuffixOf, reverse_append, reverse_singleton, singleton_append, isPrefixOf_cons_cons,
      isPrefixOf_nil_left, Bool.and_true]
  rw [dropCR, hlast, dropLast_concat]
  simp only [beq_iff_eq, eq_comm (a := carriageReturn)]

theorem dropCR_append (ha : carriageReturn ∉ a.getLast?) (s : Text) : dropCR (a ++ s) = a ++ dropCR s := by
  rcases eq_nil_or_concat' s with rfl | ⟨s, b, rfl⟩
  · rw [append_nil]
    rcases eq_nil_or_concat' a with rfl | ⟨a, b, rfl⟩
    · rfl
    · rw [getLast?_concat, Option.mem_some_iff] at ha
      rw [dropCR_concat, if_neg ha]
      exact (append_nil _).symm
  · rw [← append_assoc, dropCR_concat, dropCR_concat]
    split_ifs
    · rfl
    · rw [append_assoc]

theorem dropCR_commentText (c : Option Text) : dropCR (commentText c) = commentText (c.map dropCR) := by
  cases c with
  | none => rfl
  | some c => exact dropCR_append (a := [semicolon]) (by decide) c

theorem any_dropCR (s : Text) : (dropCR s).any isSpecial = s.any isSpecial := by
  rcases eq_nil_or_concat' s with rfl | ⟨s, b, rfl⟩
  · rfl
  · rw [dropCR_concat]
    split_ifs with hb
    · rw [any_append, hb]
      exact (Bool.or_false _).symm
    · rfl

theorem mem_of_mem_dropCR (h : b ∈ dropCR s) : b ∈ s := by
  rw [dropCR] at h
  split_ifs at h
  · exact mem_of_mem_dropLast h
  · exact h

def lineRest (s : Text) : Text := dropCR (firstLine s)

theorem lineRest_append (ha : newline ∉ a) (hlast : carriageReturn ∉ a.getLast?) (s : Text) :
    lineRest (a ++ s) = a ++ lineRest s := by
  rw [lineRest, firstLine_append ha, dropCR_append hlast, lineRest]

theorem lineRest_blank (hb : b ≠ newline) (s : Text) :
    lineRest (b :: s) = if b = carriageReturn ∧ firstLine s = [] then [] else b :: lineRest s := by
  have hfirst : firstLine (b :: s) = [b] ++ firstLine s := firstLine_append (fun hmem => hb (mem_singleton.mp hmem).symm) s
  rw [lineRest, hfirst]
  split_ifs with hend
  · rw [hend.2]
    exact (dropCR_concat [] b).trans (if_pos hend.1)
  · by_cases hs : firstLine s = []
    · rw [lineRest, hs]
      exact (dropCR_concat [] b).trans (if_neg fun heq => hend ⟨heq, hs⟩)
    · obtain ⟨front, last, hlast⟩ := (eq_nil_or_concat' (firstLine s)).resolve_left hs
      rw [lineRest, hlast, ← append_assoc, dropCR_concat, dropCR_concat]
      split_ifs <;> rfl

/-- The scanner delivers the first line and `n` lines behind it, and stops at one that is too long if there are more. -/
theorem scanLines_cases (hs : s ≠ []) : scanLines s = ([], true) ∨
    ∃ n, (scanLines s).1 = lineRest s :: ((nextLines s).take n).map dropCR ∧
      ((scanLines s).2 = false ↔ (nextLines s).length ≤ n) := by
  simp only [scanLines, splitLines_nil hs]
  generalize (fun line : Text => decide (line.length < maxLineBufferSize)) = fits
  cases hfit : fits (firstLine s) with
  | true =>
    have hpre := takeWhile_prefix fits (l := nextLines s)
    refine .inr ⟨((nextLines s).takeWhile fits).length, ?_, ?_⟩
    · rw [takeWhile_cons_of_pos hfit, ← prefix_iff_eq_take.mp hpre]
      rfl
    · rw [takeWhile_cons_of_pos hfit]
      simp
  | false =>
    left
    rw [takeWhile_cons_of_neg (Bool.eq_false_iff.mp hfit)]
    simp

variable {n : ℕ}

def readText (n : ℕ) (x : Context) (token : Text) (tokens : List Text) (s : Text) : Except ZoneError Reading :=
  resume (((nextLines s).take n).map dropCR) (tokenizeFrom x token tokens (lineRest s))

theorem readText_append {token' : Text} {tokens' : List Text} (ha : newline ∉ a) (hlast : carriageReturn ∉ a.getLast?)
    (h : tokenizeFrom x token tokens (a ++ lineRest s) = tokenizeFrom x' token' tokens' (lineRest s)) :
    readText n x token tokens (a ++ s) = readText n x' token' tokens' s := by
  rw [readText, lineRest_append ha hlast, nextLines_append ha, h, readText]

theorem readText_blank (hb : isBlank b = true) (hne : b ≠ newline) (hx : x.inQuote = false) (s : Text) :
    readText n x token tokens (b :: s) = readText n x [] (flush token tokens) s := by
  have hnext : nextLines (b :: s) = nextLines s := nextLines_append (fun hmem => hne (mem_singleton.mp hmem).symm) s
  rw [readText, readText, hnext, lineRest_blank hne]
  split_ifs with hend
  · rw [lineRest, hend.2]
    rfl
  · rw [tokenizeFrom_blank hx hb]

section LineBreaks

variable {c : Option Text} (hc : newline ∉ commentText c) (hx : x.inQuote = false) (hopen : x.closed = false)
include hc hx hopen

theorem readText_broken (n : ℕ) (s : Text) : readText n x token tokens (commentText c ++ newline :: s) =
    reading x (flush token tokens) (((splitLines [] s).take n).map dropCR) := by
  rw [readText, lineRest, firstLine_append hc, nextLines_append hc, (firstLine_newline s).1, (firstLine_newline s).2,
    append_nil, dropCR_commentText, tokenizeFrom_comment hx, resume, if_neg (Bool.eq_false_iff.mp hopen)]

theorem readText_lineBreak (hs : s ≠ []) :
    readText (n + 1) x token tokens (commentText c ++ newline :: s) = readText n x [] (flush token tokens) s := by
  rw [readText_broken hc hx hopen, splitLines_nil hs, take_succ_cons, map_cons,
    reading_slow fun hno => Bool.false_ne_true (hopen.symm.trans hno.1)]
  rfl

end LineBreaks

structure Hands (all : List Text) (out : Except ZoneError Reading) (good : Prop) : Prop where
  clean : good → out = .ok ⟨[all], ⟨0, false, []⟩, []⟩
  other : ¬good → ∀ r, out = .ok r → r.calls ≠ [all]

theorem Hands.calls_iff {out : Except ZoneError Reading} {good : Prop} (h : Hands all out good) :
    out.map Reading.calls = .ok [all] ↔ good := by
  constructor
  · intro hcalls
    obtain ⟨r, hout, hr⟩ := Fallible.map_ok hcalls
    exact not_not.mp fun hbad => h.other hbad r hout hr
  · intro hgood
    rw [h.clean hgood]
    rfl

theorem Hands.and {out : Except ZoneError Reading} {cond good : Prop} (hyes : cond → Hands all out good)
    (hno : ¬cond → ∀ r, out = .ok r → r.calls ≠ [all]) : Hands all out (cond ∧ good) where
  clean h := (hyes h.1).clean h.2
  other h := by
    by_cases hc : cond
    · exact (hyes hc).other fun hgood => h ⟨hc, hgood⟩
    · exact hno hc

theorem readText_ne (hall : tokens ++ [t] <+: all)
    (h : ∀ x' tokens', tokenizeFrom x token tokens (lineRest s) = .ok (x', tokens') → ∃ first, first ≠ t ∧ tokens ++ [first] <+: tokens')
    {r : Reading} (hread : readText n x token tokens s = .ok r) : r.calls ≠ [all] := by
  intro hcalls
  rw [readText] at hread
  cases hlex : tokenizeFrom x token tokens (lineRest s) with
  | error e =>
    rw [hlex] at hread
    cases hread
  | ok out =>
    obtain ⟨x', tokens'⟩ := out
    rw [hlex] at hread
    obtain ⟨first, hne, hfirst⟩ := h x' tokens' hlex
    have hkept := resume_isPrefix hread
    rw [hcalls, flatten_singleton] at hkept
    have hshort := prefix_of_prefix_length_le (hfirst.trans hkept) (hall.trans (prefix_append all r.pending)) (by simp)
    have heq := hshort.eq_of_length (by simp)
    exact hne (singleton_inj.mp (append_cancel_left heq))

theorem nextLines_eq_nil (hs : newline ∉ s) : nextLines s = [] := by
  have hnext := nextLines_append hs []
  rwa [append_nil] at hnext

theorem firstLine_eq_self (hs : newline ∉ s) : firstLine s = s := by
  have hfirst : firstLine (s ++ []) = s ++ [] := firstLine_append hs []
  rwa [append_nil] at hfirst

theorem Bare.no_newline (h : Bare t) : newline ∉ t := fun hmem => absurd (h.plain newline hmem).1 (by decide)

theorem Bare.no_quote (h : Bare t) : quote ∉ t := fun hmem => absurd (h.plain quote hmem).2 (by decide)

theorem Bare.last (h : Bare t) : carriageReturn ∉ t.getLast? :=
  fun hlast => absurd (h.plain carriageReturn (mem_of_getLast? hlast)).1 (by decide)

theorem tokenizeFrom_whole (ht : Bare t) (hx : x.inQuote = false) (hlast : dangling t = true → s = []) :
    tokenizeFrom x token tokens (t ++ s) = tokenizeFrom x (token ++ t) tokens s := by
  rw [tokenizeFrom_bare ht.plain ht.semicolons hx]
  cases hescapes : dangling t with
  | false => simp
  | true => simp [hlast hescapes]

theorem readText_bare {good : Prop} (ht : Bare t) (hx : x.inQuote = false) (hquote : quote ∉ token)
    (hall : tokens ++ [if token = [] then t else token] <+: all) (hbehind : token = [] → Hands all (readText n x t tokens s) good) :
    Hands all (readText n x token tokens (t ++ s)) ((token = [] ∧ (dangling t = true → lineRest s = [])) ∧ good) := by
  refine .and ?_ fun hbad r => readText_ne hall fun x' tokens' hlex => ?_
  · rintro ⟨rfl, hlast⟩
    rw [readText_append ht.no_newline ht.last (tokenizeFrom_whole ht hx hlast)]
    exact hbehind rfl
  · rw [lineRest_append ht.no_newline ht.last, tokenizeFrom_bare ht.plain ht.semicolons hx] at hlex
    have hfirst : quote ∉ if token = [] then t else token := by
      split_ifs
      · exact ht.no_quote
      · exact hquote
    refine tokenizeFrom_grown hfirst ?_ hlex
    split_ifs with htoken
    · rw [not_and, Classical.not_imp] at hbad
      obtain ⟨hescapes, hrest⟩ := hbad htoken
      obtain ⟨next, rest, hnext⟩ := exists_cons_of_ne_nil hrest
      rw [htoken, nil_append, hescapes, hnext]
      exact ⟨prefix_append t [next], by simp⟩
    · have hlength := length_pos_of_ne_nil ht.ne_nil
      rw [append_assoc]
      exact ⟨prefix_append _ _, by rw [length_append, length_append]; omega⟩

theorem Quoted.cons (h : Quoted t) : ∃ rest, t = quote :: rest := by
  obtain ⟨content, rfl, -⟩ := h
  exact ⟨_, rfl⟩

theorem Quoted.last (h : Quoted t) : carriageReturn ∉ t.getLast? := by
  obtain ⟨content, rfl, -⟩ := h
  rw [← cons_append, getLast?_concat]
  decide

theorem readText_quoted {good : Prop} {depth : ℕ} (ht : Quoted t) (hline : newline ∉ t) (hquote : quote ∉ token)
    (hall : token ≠ [] → tokens ++ [token] <+: all)
    (hbehind : token = [] → Hands all (readText n ⟨depth, false, []⟩ [] (tokens ++ [t]) s) good) :
    Hands all (readText n ⟨depth, false, []⟩ token tokens (t ++ s)) (token = [] ∧ good) := by
  refine .and ?_ fun htoken r => readText_ne (hall htoken) fun x' tokens' hlex => ?_
  · rintro rfl
    rw [readText_append hline ht.last (tokenizeFrom_quoted ht depth _)]
    exact hbehind rfl
  · rw [lineRest_append hline ht.last, tokenizeFrom_quoted ht] at hlex
    refine ⟨t, fun heq => hquote ?_, tokenizeFrom_isPrefix hlex⟩
    obtain ⟨rest, rfl⟩ := ht.cons
    rw [← heq]
    exact mem_cons_self

theorem Piece.WellFormed.text_ne {piece : Piece} (h : piece.WellFormed) : piece.text ≠ [] := by
  cases piece with
  | bare t => exact h.ne_nil
  | quoted t =>
    obtain ⟨rest, rfl⟩ := h.cons
    exact cons_ne_nil _ _
  | lineBreak c => exact append_ne_nil_of_right_ne_nil _ (cons_ne_nil _ _)
  | _ => exact cons_ne_nil _ _

theorem texts_cons (piece : Piece) (ps : List Piece) (comment : Option Text) :
    texts (piece :: ps) ++ commentText comment = piece.text ++ (texts ps ++ commentText comment) := by
  rw [texts, flatMap_cons, append_assoc]
  rfl

theorem texts_ne_nil (h : ∀ piece ∈ ps, piece.WellFormed) (hne : ps ≠ []) : texts ps ++ commentText comment ≠ [] := by
  obtain ⟨piece, ps, rfl⟩ := exists_cons_of_ne_nil hne
  rw [texts_cons]
  exact append_ne_nil_of_left_ne_nil (h piece mem_cons_self).text_ne _

theorem firstLine_cons (hb : b ≠ newline) (s : Text) : firstLine (b :: s) ≠ [] := by
  have happend := firstLine_append (a := [b]) (fun hmem => hb (mem_singleton.mp hmem).symm) s
  rw [singleton_append] at happend
  rw [happend]
  exact cons_ne_nil _ _

theorem firstLine_word (hb : isBlank b = false) (s : Text) :
    (firstLine (b :: s) = [] ↔ false = true) ∧ (lineRest (b :: s) = [] ↔ false = true) := by
  have hline : b ≠ newline ∧ b ≠ carriageReturn := by
    constructor <;> rintro rfl <;> cases hb
  rw [lineRest_blank hline.1, if_neg fun hend => hline.2 hend.1]
  exact ⟨iff_of_false (firstLine_cons hline.1 s) Bool.false_ne_true, iff_of_false (cons_ne_nil _ _) Bool.false_ne_true⟩

theorem lineEnds_iff (hps : ∀ piece ∈ ps, piece.WellFormed) :
    (firstLine (texts ps ++ commentText comment) = [] ↔ lineBroken comment ps = true) ∧
      (lineRest (texts ps ++ commentText comment) = [] ↔ lineEnds comment ps = true) := by
  induction ps with
  | nil =>
    cases comment with
    | none => exact ⟨iff_of_true rfl rfl, iff_of_true rfl rfl⟩
    | some c => exact firstLine_word rfl _
  | cons piece ps ih =>
    obtain ⟨hpiece, hrest⟩ := forall_mem_cons.mp hps
    rw [texts_cons]
    cases piece with
    | bare t =>
      obtain ⟨b, rest, rfl⟩ := exists_cons_of_ne_nil hpiece.ne_nil
      exact firstLine_word (hpiece.plain b mem_cons_self).1 _
    | quoted t =>
      obtain ⟨rest, rfl⟩ := hpiece.cons
      exact firstLine_word rfl _
    | blank b =>
      refine ⟨iff_of_false (firstLine_cons hpiece.2 _) Bool.false_ne_true, ?_⟩
      rw [Piece.text, singleton_append, lineRest_blank hpiece.2, lineEnds, Bool.and_eq_true, decide_eq_true_eq,
        ← (ih hrest).1]
      split_ifs with hend
      · exact iff_of_true rfl hend
      · exact iff_of_false id hend
    | openParen => exact firstLine_word rfl _
    | closeParen => exact firstLine_word rfl _
    | lineBreak c =>
      cases c with
      | none => exact ⟨iff_of_true rfl rfl, iff_of_true rfl rfl⟩
      | some c => exact firstLine_word rfl _

theorem readText_hands (hcomment : newline ∉ commentText comment) (hps : ∀ piece ∈ ps, piece.WellFormed)
    (hlines : ∀ t, .quoted t ∈ ps → newline ∉ t) {depth : ℕ} (hbalanced : balanced depth ps = true)
    (hquote : quote ∉ token) (hall : all = flush token tokens ++ tokensOf ps)
    (hne : all ≠ []) : Hands all (readText n ⟨depth, false, []⟩ token tokens (texts ps ++ commentText comment))
      (separated comment (token ≠ []) ps = true ∧ (nextLines (texts ps ++ commentText comment)).length ≤ n) := by
  induction ps generalizing n depth token tokens with
  | nil =>
    obtain rfl : depth = 0 := of_decide_eq_true hbalanced
    have hlast : flush token tokens = all := by rw [hall, tokensOf, filterMap_nil, append_nil]
    have hnext : nextLines (commentText comment) = [] := nextLines_eq_nil hcomment
    rw [texts, flatMap_nil, nil_append, readText, lineRest, firstLine_eq_self hcomment, hnext, dropCR_commentText,
      tokenizeFrom_comment rfl, hlast, take_nil, map_nil]
    refine ⟨fun _ => ?_, fun hbad => absurd ⟨rfl, Nat.zero_le n⟩ hbad⟩
    change Except.ok (Reading.call all ⟨[], ⟨0, false, []⟩, []⟩) = _
    rw [Reading.call, if_neg hne]
  | cons piece ps ih =>
    obtain ⟨hpiece, hrest⟩ := forall_mem_cons.mp hps
    have hlines' : ∀ t, .quoted t ∈ ps → newline ∉ t := fun t ht => hlines t (mem_cons_of_mem piece ht)
    rw [texts_cons]
    cases piece with
    | bare t =>
      have hgood : separated comment (token ≠ []) (.bare t :: ps) = true ↔
          (token = [] ∧ (dangling t = true → lineRest (texts ps ++ commentText comment) = [])) ∧
            separated comment true ps = true := by
        rw [(lineEnds_iff hrest).2]
        simp only [separated]
        grind
      rw [Piece.text, nextLines_append hpiece.no_newline, hgood, and_assoc]
      refine readText_bare hpiece rfl hquote ?_ fun htoken => ?_
      · rw [hall, flush]
        split_ifs
        · exact ⟨tokensOf ps, (append_cons tokens t (tokensOf ps)).symm⟩
        · exact prefix_append _ _
      · have hall' : all = flush t tokens ++ tokensOf ps := by
          rw [hall, htoken, flush, flush, if_pos rfl, if_neg hpiece.ne_nil]
          exact append_cons tokens t (tokensOf ps)
        have hbehind := ih (n := n) hrest hlines' hbalanced hpiece.no_quote hall'
        rwa [decide_eq_true hpiece.ne_nil] at hbehind
    | quoted t =>
      have hline := hlines t mem_cons_self
      have hgood : separated comment (token ≠ []) (.quoted t :: ps) = true ↔ token = [] ∧ separated comment false ps = true := by
        simp only [separated]
        grind
      rw [Piece.text, nextLines_append hline, hgood, and_assoc]
      refine readText_quoted hpiece hline hquote (fun htoken => ?_) fun htoken => ?_
      · rw [hall, flush, if_neg htoken]
        exact prefix_append _ _
      · have hall' : all = flush [] (tokens ++ [t]) ++ tokensOf ps := by
          rw [hall, htoken]
          exact append_cons tokens t (tokensOf ps)
        exact ih hrest hlines' hbalanced not_mem_nil hall'
    | blank b =>
      have hline : newline ∉ [b] := fun hmem => hpiece.2 (mem_singleton.mp hmem).symm
      have hall' : all = flush [] (flush token tokens) ++ tokensOf ps := hall
      rw [Piece.text, nextLines_append hline, singleton_append, readText_blank hpiece.1 hpiece.2 rfl]
      exact ih hrest hlines' hbalanced not_mem_nil hall'
    | openParen =>
      rw [Piece.text, nextLines_append (by decide), readText_append (by decide) (by decide) (tokenizeFrom_open rfl _)]
      exact ih hrest hlines' hbalanced hquote hall
    | closeParen =>
      rw [balanced, Bool.and_eq_true, decide_eq_true_eq] at hbalanced
      rw [Piece.text, nextLines_append (by decide),
        readText_append (by decide) (by decide) (tokenizeFrom_close rfl hbalanced.1 _)]
      exact ih hrest hlines' hbalanced.2 hquote hall
    | lineBreak c =>
      rw [balanced, Bool.and_eq_true, decide_eq_true_eq] at hbalanced
      have hopen : Context.closed ⟨depth, false, []⟩ = false := by
        rw [Context.closed, decide_eq_false hbalanced.1.ne']
        rfl
      have hmore : ps ≠ [] := by
        rintro rfl
        exact hbalanced.1.ne' (of_decide_eq_true hbalanced.2)
      have hall' : all = flush [] (flush token tokens) ++ tokensOf ps := hall
      rw [Piece.text, append_assoc, singleton_append, nextLines_append hpiece, (firstLine_newline _).2,
        splitLines_nil (texts_ne_nil hrest hmore), length_cons]
      cases n with
      | zero =>
        rw [readText_broken hpiece rfl hopen]
        exact ⟨fun hgood => absurd hgood.2 (Nat.not_succ_le_zero _), fun _ r hr hcalls => by cases hr; cases hcalls⟩
      | succ n =>
        rw [readText_lineBreak hpiece rfl hopen (texts_ne_nil hrest hmore), Nat.add_le_add_iff_right]
        exact ih hrest hlines' hbalanced.2 not_mem_nil hall'

end Running

namespace Layout

variable (l : Layout)

theorem text_ne : l.text ≠ [] := by
  apply texts_ne_nil l.wellFormed
  intro hnil
  have hne := l.tokens_ne
  rw [hnil] at hne
  exact hne rfl

theorem reading_newline (ht : .quoted t ∈ l.pieces) (hmem : newline ∈ t) {r : Reading}
    (h : reading ⟨0, false, []⟩ [] l.lines = .ok r) : r.calls ≠ [l.tokens] := by
  intro hcalls
  have hlines : ∀ line ∈ l.lines, newline ∉ line := by
    intro line hline hbreak
    obtain ⟨line', hline', rfl⟩ := mem_map.mp hline
    exact splitLines_notMem not_mem_nil line' ((takeWhile_sublist _).subset hline') (mem_of_mem_dropCR hbreak)
  have hclean := reading_notMem hlines not_mem_nil (by simp) h
  rw [hcalls] at hclean
  exact hclean l.tokens mem_cons_self t (mem_filterMap.mpr ⟨_, ht, rfl⟩) hmem

theorem blank_cases (h : isBlank b = true) : isSpecial b = false ∧ b ≠ semicolon ∧ [b] ∈ spaces := by
  have hcases : b = blank ∨ b = tab ∨ b = carriageReturn ∨ b = newline := by simpa [isBlank, or_assoc] using h
  rcases hcases with rfl | rfl | rfl | rfl <;> exact ⟨by decide, by decide, by decide⟩

theorem firstLine_special (hcomment : newline ∉ commentText comment) (hps : ∀ piece ∈ ps, piece.WellFormed)
    (hlines : ∀ t, .quoted t ∈ ps → newline ∉ t) (hbalanced : Zone.balanced 0 ps = true)
    (h : (texts ps ++ commentText comment).any isSpecial = true) :
    (firstLine (texts ps ++ commentText comment)).any isSpecial = true := by
  induction ps with
  | nil =>
    rw [texts, flatMap_nil, nil_append] at h ⊢
    rwa [firstLine_eq_self hcomment]
  | cons piece ps ih =>
    obtain ⟨hpiece, hrest⟩ := forall_mem_cons.mp hps
    have hlines' : ∀ t, .quoted t ∈ ps → newline ∉ t := fun t ht => hlines t (mem_cons_of_mem piece ht)
    have hplain : newline ∉ piece.text → piece.text.any isSpecial = false → Zone.balanced 0 ps = true →
        (firstLine (texts (piece :: ps) ++ commentText comment)).any isSpecial = true := by
      intro hline hclear hbalanced'
      rw [texts, flatMap_cons, append_assoc, any_append, hclear, Bool.false_or] at h
      rw [texts, flatMap_cons, append_assoc, firstLine_append hline, any_append, hclear, Bool.false_or]
      exact ih hrest hlines' hbalanced' h
    have hfound : newline ∉ piece.text → piece.text.any isSpecial = true →
        (firstLine (texts (piece :: ps) ++ commentText comment)).any isSpecial = true := by
      intro hline hspecial
      rw [texts, flatMap_cons, append_assoc, firstLine_append hline, any_append, hspecial, Bool.true_or]
    cases piece with
    | bare t => exact hplain hpiece.no_newline (any_eq_false.mpr fun b hb => by simp [(hpiece.plain b hb).2]) hbalanced
    | quoted t =>
      obtain ⟨rest, rfl⟩ := hpiece.cons
      exact hfound (hlines _ mem_cons_self) rfl
    | blank b =>
      refine hplain (fun hmem => hpiece.2 (mem_singleton.mp hmem).symm) ?_ hbalanced
      rw [Piece.text, any_cons, (blank_cases hpiece.1).1]
      rfl
    | openParen => exact hfound (by decide) rfl
    | closeParen => cases hbalanced
    | lineBreak c => cases hbalanced

theorem reading_special (hlines : ∀ t, .quoted t ∈ l.pieces → newline ∉ t) (h : l.text.any isSpecial = true) {n : ℕ}
    (hdelivered : l.lines = lineRest l.text :: ((nextLines l.text).take n).map dropCR) :
    Hands l.tokens (reading ⟨0, false, []⟩ [] l.lines)
      (separated l.comment false l.pieces = true ∧ (nextLines l.text).length ≤ n) := by
  have hfirst : (lineRest l.text).any isSpecial = true := by
    rw [lineRest, any_dropCR]
    exact firstLine_special l.comment_line l.wellFormed hlines l.balanced h
  have hread : reading ⟨0, false, []⟩ [] l.lines = readText n ⟨0, false, []⟩ [] [] l.text := by
    rw [hdelivered, reading_slow fun hno => hno.2 hfirst, readText]
  rw [hread]
  exact readText_hands l.comment_line l.wellFormed hlines l.balanced not_mem_nil rfl l.tokens_ne

def Simple : Piece → Prop
  | .bare _ => True
  | .blank _ => True
  | _ => False

theorem simple_of_plain (hps : ∀ piece ∈ ps, piece.WellFormed) (hbalanced : Zone.balanced 0 ps = true)
    (h : (texts ps).any isSpecial = false) : ∀ piece ∈ ps, Simple piece := by
  induction ps with
  | nil => simp
  | cons piece ps ih =>
    obtain ⟨hpiece, hrest⟩ := forall_mem_cons.mp hps
    rw [texts, flatMap_cons, any_append, Bool.or_eq_false_iff] at h
    rw [forall_mem_cons]
    cases piece with
    | bare t => exact ⟨trivial, ih hrest hbalanced h.2⟩
    | quoted t =>
      obtain ⟨rest, rfl⟩ := hpiece.cons
      cases h.1
    | blank b => exact ⟨trivial, ih hrest hbalanced h.2⟩
    | openParen => cases h.1
    | closeParen => cases h.1
    | lineBreak c => cases hbalanced

theorem fieldsWith_texts (hsimple : ∀ piece ∈ ps, Simple piece) (hps : ∀ piece ∈ ps, piece.WellFormed)
    (hchain : ps.IsChain fun a b => ¬(a.isBare = true ∧ b.isBare = true)) (hclear : ∀ t, .bare t ∈ ps → Unspaced t)
    {current : Text} (hcurrent : current ≠ [] → ∀ t, ps.head? ≠ some (.bare t)) :
    fieldsWith current (texts ps) = (if current = [] then [] else [current]) ++ tokensOf ps := by
  induction ps generalizing current with
  | nil =>
    rw [tokensOf, filterMap_nil, append_nil]
    rfl
  | cons piece ps ih =>
    obtain ⟨hpiece, hrest⟩ := forall_mem_cons.mp hps
    have hsimple' := (forall_mem_cons.mp hsimple).2
    have hclear' : ∀ t, .bare t ∈ ps → Unspaced t := fun t ht => hclear t (mem_cons_of_mem piece ht)
    have htexts : texts (piece :: ps) = piece.text ++ texts ps := flatMap_cons
    rw [htexts]
    cases piece with
    | bare t =>
      have hnil : current = [] := by
        by_contra hne
        exact hcurrent hne t rfl
      have hnext : ∀ t', ps.head? ≠ some (.bare t') := fun t' hhead => hchain.rel_head? hhead ⟨rfl, rfl⟩
      have hbreaks : Breaks (texts ps) := by
        cases ps with
        | nil => exact .inl rfl
        | cons next ps =>
          have hnext' := hsimple' next mem_cons_self
          cases next with
          | bare t' => exact absurd rfl (hnext t')
          | blank b => exact .inr ⟨b, texts ps, rfl, (blank_cases (hrest _ mem_cons_self).1).2.2⟩
          | _ => cases hnext'
      rw [Piece.text, hnil, fieldsWith_word (hclear t mem_cons_self) hbreaks, nil_append,
        ih hsimple' hrest hchain.of_cons hclear' fun _ => hnext, if_neg hpiece.ne_nil, if_pos rfl]
      rfl
    | blank b =>
      rw [Piece.text, singleton_append, fieldsWith_space (blank_cases hpiece.1).2.2]
      have hfields : fields (texts ps) = tokensOf ps := ih hsimple' hrest hchain.of_cons hclear' fun hne => absurd rfl hne
      rw [hfields]
      rfl
    | quoted t => cases (hsimple _ mem_cons_self)
    | openParen => cases (hsimple _ mem_cons_self)
    | closeParen => cases (hsimple _ mem_cons_self)
    | lineBreak c => cases (hsimple _ mem_cons_self)

theorem simple_clear (hsimple : ∀ piece ∈ ps, Simple piece) (hps : ∀ piece ∈ ps, piece.WellFormed) :
    newline ∉ texts ps := by
  intro hmem
  obtain ⟨piece, hpiece, hmem⟩ := mem_flatMap.mp hmem
  have hwf := hps piece hpiece
  have hkind := hsimple piece hpiece
  cases piece with
  | bare t => exact hwf.no_newline hmem
  | blank b => exact hwf.2 (mem_singleton.mp hmem).symm
  | _ => cases hkind

theorem plainTokens_iff (hsimple : ∀ piece ∈ l.pieces, Simple piece) :
    plainTokens l.text = l.tokens ↔ ∀ t, .bare t ∈ l.pieces → semicolon ∉ t ∧ Unspaced t := by
  constructor
  · intro h t ht
    have hmem : t ∈ plainTokens l.text := h ▸ mem_filterMap.mpr ⟨_, ht, rfl⟩
    refine ⟨fun hsemicolon => ?_, (mem_fields hmem).2⟩
    have hkept := (trimSpace_isInfix _).subset (fields_subset hmem semicolon hsemicolon)
    have hall : (stripComment l.text).all (· ≠ semicolon) = true := all_takeWhile
    exact absurd (all_eq_true.mp hall semicolon hkept) (by decide)
  · intro h
    have hno : semicolon ∉ texts l.pieces := by
      intro hmem
      obtain ⟨piece, hpiece, hmem⟩ := mem_flatMap.mp hmem
      have hwf := l.wellFormed piece hpiece
      have hkind := hsimple piece hpiece
      cases piece with
      | bare t => exact (h t hpiece).1 hmem
      | blank b => exact (blank_cases hwf.1).2.1 (mem_singleton.mp hmem).symm
      | _ => cases hkind
    have hstrip : stripComment l.text = texts l.pieces := by
      have hkept : ∀ b ∈ texts l.pieces, decide (b ≠ semicolon) = true := fun b hb => decide_eq_true (ne_of_mem_of_not_mem hb hno)
      rw [stripComment, text, takeWhile_append_of_pos hkept]
      cases l.comment with
      | none => exact append_nil _
      | some c => exact append_nil _
    rw [plainTokens, fields_trimSpace, hstrip]
    exact fieldsWith_texts hsimple l.wellFormed l.apart (fun t ht => (h t ht).2) fun hne => absurd rfl hne

theorem plainTokens_dropCR (s : Text) : plainTokens (dropCR s) = plainTokens s := by
  rcases eq_nil_or_concat' s with rfl | ⟨s, b, rfl⟩
  · rfl
  · rw [dropCR_concat]
    split_ifs with hb
    · rw [plainTokens, plainTokens, fields_trimSpace, fields_trimSpace, stripComment, stripComment, takeWhile_append]
      split_ifs with hall
      · have hself := takeWhile_prefix _ |>.eq_of_length hall
        have hspace : [carriageReturn] ∈ spaces := by decide
        rw [hself, hb]
        exact (fieldsWith_append_space hspace [] s).symm
      · rfl
    · rfl

theorem reading_plain (h : ¬l.text.any isSpecial = true) {n : ℕ}
    (hdelivered : l.lines = lineRest l.text :: ((nextLines l.text).take n).map dropCR) :
    Hands l.tokens (reading ⟨0, false, []⟩ [] l.lines)
      ((nextLines l.text).length ≤ n ∧ ∀ t, .bare t ∈ l.pieces → semicolon ∉ t ∧ Unspaced t) := by
  have hclear : (texts l.pieces).any isSpecial = false := by
    rw [text, any_append, Bool.not_eq_true, Bool.or_eq_false_iff] at h
    exact h.1
  have hsimple := simple_of_plain l.wellFormed l.balanced hclear
  have hline : newline ∉ l.text := fun hmem =>
    (mem_append.mp hmem).elim (simple_clear hsimple l.wellFormed) l.comment_line
  have hnext : nextLines l.text = [] := nextLines_eq_nil hline
  have hread : reading ⟨0, false, []⟩ [] l.lines = .ok (Reading.call (plainTokens l.text) ⟨[], ⟨0, false, []⟩, []⟩) := by
    rw [hdelivered, hnext, take_nil, map_nil, lineRest, firstLine_eq_self hline, reading,
      if_pos ⟨rfl, by rwa [any_dropCR]⟩, plainTokens_dropCR]
    rfl
  rw [hread, ← l.plainTokens_iff hsimple, Reading.call, hnext, length_nil, and_iff_right (Nat.zero_le n)]
  constructor
  · intro heq
    rw [heq, if_neg (show l.tokens ≠ [] from l.tokens_ne)]
  · intro hne r hr hcalls
    rw [← Except.ok.inj hr] at hcalls
    split_ifs at hcalls
    exact hne (singleton_inj.mp hcalls)

theorem hands : Hands l.tokens (reading ⟨0, false, []⟩ [] l.lines) l.WellSpaced := by
  unfold WellSpaced
  rcases scanLines_cases l.text_ne with hstop | ⟨n, hdelivered, hwhole⟩
  · rw [lines, hstop]
    exact ⟨fun h => Bool.noConfusion h.1, fun _ r hr hcalls => by cases hr; cases hcalls⟩
  rw [hwhole]
  split_ifs with hspecial
  · by_cases hlines : ∀ t, .quoted t ∈ l.pieces → newline ∉ t
    · rw [and_iff_right hlines, and_comm]
      exact l.reading_special hlines hspecial hdelivered
    · refine ⟨fun h => absurd h.2.1 hlines, fun _ r hr => ?_⟩
      push Not at hlines
      obtain ⟨t, ht, hmem⟩ := hlines
      exact l.reading_newline ht hmem hr
  · exact l.reading_plain hspecial hdelivered

/-- The one call for a record has the tokens that are written exactly if the layout is well spaced; the parser then processes them. -/
theorem tokens_iff :
    ((reading ⟨0, false, []⟩ [] l.lines).map Reading.calls = .ok [l.tokens] ↔ l.WellSpaced) ∧
      (l.WellSpaced → ∀ enc u p, AtRest p → p.context.closed = true →
        parseLines enc u p l.lines = processRecordTokens enc u p l.tokens) := by
  refine ⟨l.hands.calls_iff, fun hspaced enc u p hp hclosed => ?_⟩
  have hread := l.hands.clean hspaced
  rw [← hp.context_eq hclosed, ← hp.waiting hclosed] at hread
  rw [parseLines_reading hread, foldlM_cons]
  dsimp only [foldlM_nil]
  rw [bind_pure, ← processRecordTokens_within]
  rfl

end Layout

section Samples

theorem quoted_ascii : Quoted (ascii "\"b\"") := ⟨ascii "b", by decide, by decide, by decide⟩

/-- A backslash that escapes nothing, in front of a carriage return and a line break. -/
def spreadLayout : Layout where
  pieces := [.bare (ascii "x"), .blank 0x20, .bare (ascii "TXT"), .blank 0x20, .openParen, .bare (ascii "a\\"),
    .blank carriageReturn, .lineBreak none, .quoted (ascii "\"b\""), .closeParen]
  comment := some (ascii "c")
  wellFormed := by
    simp only [forall_mem_cons, Piece.WellFormed]
    exact ⟨by decide +kernel, by decide +kernel, by decide +kernel, by decide +kernel, trivial, by decide +kernel,
      by decide +kernel, by decide +kernel, quoted_ascii, trivial, by simp⟩
  comment_line := by decide
  apart := by decide
  balanced := by decide
  tokens_ne := by decide

theorem tokens_iff_spread :
    spreadLayout.lines = [ascii "x TXT (a\\", ascii "\"b\");c"] ∧
      parseLines sampleEncoders .basic sampleParser spreadLayout.lines =
        processRecordTokens sampleEncoders .basic sampleParser [ascii "x", ascii "TXT", ascii "a\\", ascii "\"b\""] := by
  have hspaced : spreadLayout.WellSpaced := by
    rw [Layout.WellSpaced, if_pos (by decide)]
    refine ⟨by decide +kernel, fun t ht => ?_, by decide⟩
    simp only [spreadLayout, mem_cons, reduceCtorEq, Piece.quoted.injEq, false_or, not_mem_nil, or_false] at ht
    rw [ht]
    decide
  have hrest : AtRest sampleParser := ⟨rfl, fun n t s h => (by cases h), fun _ => rfl, fun _ => rfl⟩
  exact ⟨by decide +kernel, spreadLayout.tokens_iff.2 hspaced _ _ _ hrest rfl⟩

def gluedLayout : Layout where
  pieces := [.bare (ascii "x"), .blank 0x20, .bare (ascii "TXT"), .quoted (ascii "\"b\"")]
  comment := none
  wellFormed := by
    simp only [forall_mem_cons, Piece.WellFormed]
    exact ⟨by decide +kernel, by decide +kernel, by decide +kernel, quoted_ascii, by simp⟩
  comment_line := by decide
  apart := by decide
  balanced := by decide
  tokens_ne := by decide

def escapedLayout : Layout where
  pieces := [.bare (ascii "x"), .blank 0x20, .bare (ascii "TXT"), .blank 0x20, .bare (ascii "a\\;b")]
  comment := none
  wellFormed := by
    simp only [forall_mem_cons, Piece.WellFormed]
    exact ⟨by decide +kernel, by decide +kernel, by decide +kernel, by decide +kernel, by decide +kernel, by simp⟩
  comment_line := by decide
  apart := by decide
  balanced := by decide
  tokens_ne := by decide

/-- The quotation comes before the word that it follows, and the record is not one any more. The escaped semicolon starts a comment. -/
theorem tokens_reordered :
    gluedLayout.lines = [ascii "x TXT\"b\""] ∧ gluedLayout.tokens = [ascii "x", ascii "TXT", ascii "\"b\""] ∧
      (reading ⟨0, false, []⟩ [] gluedLayout.lines).map Reading.calls = .ok [[ascii "x", ascii "\"b\"", ascii "TXT"]] ∧
      parseLines sampleEncoders .basic sampleParser gluedLayout.lines = .error (.missingRDataForType typeTXT) ∧
      (parseLines sampleEncoders .basic sampleParser [ascii "x TXT \"b\""]).isOk = true ∧
      escapedLayout.lines = [ascii "x TXT a\\;b"] ∧ escapedLayout.tokens = [ascii "x", ascii "TXT", ascii "a\\;b"] ∧
      (reading ⟨0, false, []⟩ [] escapedLayout.lines).map Reading.calls = .ok [[ascii "x", ascii "TXT", ascii "a\\"]] ∧
      (reading ⟨0, false, []⟩ [] [ascii "(x TXT a\\;b)"]).map Reading.calls = .ok [[ascii "x", ascii "TXT", ascii "a\\;b"]] := by
  refine ⟨?_, ?_, ?_, ?_, ?_, ?_, ?_, ?_, ?_⟩ <;> decide +kernel

end Samples

end Kdns.Zone
