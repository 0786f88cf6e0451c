import Kdns.Lib.Fallible
import Kdns.Zone.Storing

open List

namespace Kdns.Zone

open ByteStream Dns Wire
open GoStrings hiding Text

section Processing

open Fallible Radix

variable {enc : Encoders} {u : Unicode} {p p' : ZoneParser}

theorem parseHeaderFrom_class {hd hd' : ParsedHeader} {hasTTL : Bool} {toks : List Text} (h : hd.rrClass = classIN)
    (hparse : parseHeaderFrom hd hasTTL toks = .ok hd') : hd'.rrClass = classIN := by
  induction toks generalizing hd hasTTL with
  | nil =>
    cases hparse
    exact h
  | cons tok toks ih =>
    rw [parseHeaderFrom] at hparse
    split at hparse
    · refine ih ?_ hparse
      exact h
    · next hclass => exact ih (parseClass_eq hclass) hparse
    · split_ifs at hparse
      refine ih ?_ hparse
      exact h

structure Accepted (enc : Encoders) (u : Unicode) (p p' : ZoneParser) (tokens : List Text) (typeIdx : ℕ) (qType : RRType)
    (hd : ParsedHeader) (name : Text) (wire : Bytes) (last : Text) : Prop where
  type : findRecordTypeIndex enc tokens = .ok (typeIdx, qType)
  header : parseHeaderFrom ⟨[], p.defaultTTL, p.defaultClass, false⟩ false (tokens.take typeIdx) = .ok hd
  owner : resolveOwnerName u p hd.rawName hd.hasOwner = .ok ({ p with lastDomain := last }, name)
  rdata : packRData enc qType (joinBlank (tokens.drop (typeIdx + 1))) = .ok wire
  result : p' = { p with
    lastDomain := last
    records := p.records.put name (appendOrUpdateRRSet (p.records.find name) qType hd.rrClass hd.ttl wire) }

theorem processRecord_ok {tokens : List Text} (h : processRecord enc u p tokens = .ok p') :
    ∃ typeIdx qType header name wire last, Accepted enc u p p' tokens typeIdx qType header name wire last := by
  obtain ⟨⟨typeIdx, qType⟩, htype, h⟩ := bind_ok h
  obtain ⟨header, hheader, h⟩ := bind_ok h
  obtain ⟨⟨p₁, name⟩, howner, h⟩ := bind_ok h
  obtain ⟨-, h⟩ := of_guard h
  split at h
  · cases h
  · next wire hwire =>
    cases h
    obtain ⟨last, rfl⟩ := (resolveOwnerName_ok howner).1
    exact ⟨typeIdx, qType, header, name, wire, last, htype, hheader, howner, hwire, rfl⟩

theorem processRecord_of {tokens : List Text} {typeIdx : ℕ} {qType : RRType} {hd : ParsedHeader} {p₁ : ZoneParser} {name : Text}
    {wire : Bytes} (htype : findRecordTypeIndex enc tokens = .ok (typeIdx, qType))
    (hheader : parseHeaderFrom ⟨[], p.defaultTTL, p.defaultClass, false⟩ false (tokens.take typeIdx) = .ok hd)
    (howner : resolveOwnerName u p hd.rawName hd.hasOwner = .ok (p₁, name))
    (hne : joinBlank (tokens.drop (typeIdx + 1)) ≠ [])
    (hwire : packRData enc qType (joinBlank (tokens.drop (typeIdx + 1))) = .ok wire) :
    processRecord enc u p tokens = .ok { p₁ with
      records := p₁.records.put name (appendOrUpdateRRSet (p₁.records.find name) qType hd.rrClass hd.ttl wire) } := by
  rw [processRecord, htype, ok_bind]
  dsimp only
  rw [hheader, ok_bind, howner, ok_bind]
  rw [if_neg hne, hwire]
  rfl

structure RecordLine (enc : Encoders) where
  labels : List Text
  absolute : Bool
  ttl : Option Text
  header : List Text
  type : Text
  rdata : List Text
  qType : RRType
  wire : Bytes
  labels_ne : labels ≠ []
  host : ∀ l ∈ labels, HostLabel l
  ttl_some : ∀ t, ttl = some t → (parseTTL t).isSome = true
  header_of : HeaderOf ttl header
  type_ascii : isASCII type = true
  type_word : parseTTL type = none
  type_some : parseType enc.capitals type = some qType
  rdata_ne : joinBlank rdata ≠ []
  packed : packRData enc qType (joinBlank rdata) = .ok wire

namespace RecordLine

variable (r : RecordLine enc)

def owner : Text := [dotByte].intercalate r.labels ++ if r.absolute then [dotByte] else []

def tokens : List Text := r.owner :: r.header ++ r.type :: r.rdata

def typeIdx : ℕ := r.header.length + 1

def name (u : Unicode) (p : ZoneParser) : Text := nameOf u p.origin r.owner

def ttlOf (p : ZoneParser) : UInt32 := (r.ttl.bind parseTTL).getD p.defaultTTL

structure Readable (u : Unicode) (p : ZoneParser) : Prop where
  owner : (readOwner r.owner r.ttl).elim (fallback p = r.name u p)
    fun rawName => nameOf u p.origin rawName = r.name u p ∧ NameFits (r.name u p)
  type : ∀ i, r.typeIdx < i → i ≤ 3 → ¬Misread enc r.tokens i
  ttl : (findType (p.records.find (r.name u p)) r.qType).elim (readTTL r.owner r.ttl p.defaultTTL) RRSet.ttl = r.ttlOf p

theorem owner_cons : ∃ b rest, r.owner = b :: rest ∧ (isLabelChar b = true ∨ b = 0x2A) := by
  obtain ⟨l, ls, hlabels⟩ := exists_cons_of_ne_nil r.labels_ne
  have hl : HostLabel l := r.host l (by simp [hlabels])
  obtain ⟨b, rest, rfl⟩ := exists_cons_of_ne_nil hl.ne_nil
  have hfirst : isLabelChar b = true ∨ b = 0x2A := by
    rcases hl.chars with hstar | hchars
    · exact .inr (head_eq_of_cons_eq hstar)
    · exact .inl (hchars b mem_cons_self)
  rw [owner, hlabels]
  cases ls with
  | nil => exact ⟨b, _, rfl, hfirst⟩
  | cons l' ls => exact ⟨b, _, rfl, hfirst⟩

theorem owner_ascii : isASCII r.owner = true := by
  rw [isASCII, all_eq_true]
  intro b hb
  apply decide_eq_true
  obtain hb | hb := mem_append.mp hb
  · obtain rfl | ⟨l, hl, hmem⟩ := mem_intercalate hb
    · decide
    · exact ((r.host l hl).bytes b hmem).1
  · split_ifs at hb
    · rw [mem_singleton.mp hb]
      decide
    · cases hb

theorem unread_type : Unread r.type := by
  refine ⟨r.type_word, ?_⟩
  by_contra hne
  have hnone := parseType_class (c := enc.capitals) (Option.isSome_iff_ne_none.mpr hne)
  rw [r.type_some] at hnone
  cases hnone

theorem isTypeToken_type : isTypeToken enc r.type = some r.qType := by
  have hne : r.type ≠ [] := by
    intro hnil
    have hsome := r.type_some
    rw [hnil, parseType_nil] at hsome
    cases hsome
  rw [isTypeToken, if_neg hne, r.unread_type.1, if_neg (by simp), r.unread_type.2, if_neg (by simp), r.type_some]

theorem type_dot : hasSuffix r.type [dotByte] = false := by
  rw [Bool.eq_false_iff, Ne, hasSuffix_singleton]
  rintro ⟨s, hs⟩
  have hascii := r.type_ascii
  have hsome := r.type_some
  rw [hs] at hascii hsome
  rw [parseType_dot hascii] at hsome
  cases hsome

theorem type_ne : r.type ≠ ascii "@" ∧ r.type ≠ [dotByte] := by
  have hsome := r.type_some
  constructor
  · intro heq
    rw [heq] at hsome
    cases hsome
  · intro heq
    rw [heq] at hsome
    cases hsome

theorem tokens_ne : r.tokens ≠ [] := cons_ne_nil _ _

theorem tokens_take {i : ℕ} (hi : r.typeIdx < i) :
    r.tokens.take i = r.owner :: r.header ++ r.type :: r.rdata.take (i - r.typeIdx - 1) := by
  obtain ⟨n, rfl⟩ := Nat.exists_eq_add_of_lt hi
  have hfront : (r.owner :: r.header).length = r.typeIdx := length_cons
  rw [tokens, take_append, hfront, take_of_length_le (by omega)]
  rw [show r.typeIdx + n + 1 - r.typeIdx = n + 1 by omega, take_succ_cons, Nat.add_sub_cancel]

theorem tokens_split : r.tokens.take r.typeIdx = r.owner :: r.header ∧ r.tokens[r.typeIdx]? = some r.type ∧
    r.tokens.drop (r.typeIdx + 1) = r.rdata := by
  have hfront : (r.owner :: r.header).length = r.typeIdx := length_cons
  refine ⟨?_, ?_, ?_⟩
  · rw [tokens, ← hfront, take_left]
  · rw [tokens, ← hfront, List.getElem?_append_right le_rfl, Nat.sub_self]
    rfl
  · rw [tokens, ← hfront, ← drop_drop, drop_left]
    rfl

theorem typeIdx_le : r.typeIdx ≤ 3 := Nat.succ_le_succ r.header_of.length_le

theorem typeIdx_lt : r.typeIdx + 1 < r.tokens.length := by
  have hne : r.rdata ≠ [] := by
    intro hnil
    apply r.rdata_ne
    rw [hnil]
    rfl
  have hpos := length_pos_of_ne_nil hne
  rw [tokens, typeIdx]
  simp only [length_append, length_cons]
  omega

theorem later_owner {i : ℕ} (hi : r.typeIdx < i) (hvalid : isValidPrefix (r.tokens.take i) = true) {hd : ParsedHeader}
    {default : UInt32} {rrClass : UInt16}
    (hparse : parseHeaderFrom ⟨[], default, rrClass, false⟩ false (r.tokens.take i) = .ok hd) :
    hd.rawName = r.type ∧ hd.hasOwner = true ∧ ¬Unread r.owner := by
  rw [isValidPrefix, Bool.and_eq_true, r.tokens_take hi] at hvalid
  rw [r.tokens_take hi] at hparse
  obtain ⟨hd', hparse', hname, howner⟩ :=
    parseHeaderFrom_owner r.unread_type ⟨[], default, rrClass, false⟩ hvalid.2 rfl fun _ => mem_append_right _ mem_cons_self
  obtain rfl := Except.ok.inj (hparse'.symm.trans hparse)
  refine ⟨hname, howner, fun hunread => ?_⟩
  have hroles := hvalid.2
  rw [cons_append, rolesFrom] at hroles
  simp only [hunread.1, hunread.2, Option.isSome_none, Bool.false_eq_true, false_and, if_false, if_true] at hroles
  cases rolesFrom_hasOwner r.unread_type (mem_append_right r.header mem_cons_self) hroles

theorem nameOf_type_ne (h : ¬Unread r.owner) (origin : Text) : nameOf u origin r.type ≠ nameOf u origin r.owner := by
  apply nameOf_ne r.type_ascii r.owner_ascii r.type_dot
  · rw [Bool.eq_false_iff, Ne, hasSuffix_singleton]
    rintro ⟨s, hs⟩
    exact h (hs ▸ unread_dot s)
  · intro heq
    apply h
    have hunread := r.unread_type
    rwa [Unread, parseTTL_congr heq, parseClass_congr heq] at hunread

theorem readOwner_ne {rawName : Text} (h : readOwner r.owner r.ttl = some rawName) :
    rawName ≠ ascii "@" ∧ rawName ≠ [dotByte] := by
  rw [readOwner] at h
  split_ifs at h with httl
  · -- the explicit TTL is the owner
    have hsome := r.ttl_some rawName h
    constructor
    · rintro rfl
      exact absurd hsome (by decide)
    · rintro rfl
      exact absurd hsome (by decide)
  · obtain rfl := Option.some.inj h
    obtain ⟨b, rest, howner, hb⟩ := r.owner_cons
    rw [howner]
    constructor
    · intro heq
      obtain rfl : b = 0x40 := head_eq_of_cons_eq heq
      exact absurd hb (by decide)
    · intro heq
      obtain rfl : b = dotByte := head_eq_of_cons_eq heq
      exact absurd hb (by decide)

theorem name_ne : r.name u p ≠ [] := by
  obtain ⟨b, rest, howner, hb⟩ := r.owner_cons
  have hbounds : b.toNat < 0x80 ∧ b ≠ dotByte := by
    obtain hb | rfl := hb
    · obtain ⟨-, hlt, hdot⟩ := isLabelChar_bounds hb
      exact ⟨hlt, fun he => hdot (he ▸ rfl)⟩
    · exact ⟨by decide, by decide⟩
  rw [name, howner]
  exact nameOf_cons_ne_nil ((runeSelf_iff b).mpr hbounds.1) hbounds.2

theorem resolveOwnerName_iff :
    (∃ p₁, resolveOwnerName u p ((readOwner r.owner r.ttl).getD []) (readOwner r.owner r.ttl).isSome = .ok (p₁, r.name u p) ∧
      p₁.records = p.records) ↔
      (readOwner r.owner r.ttl).elim (fallback p = r.name u p)
        fun rawName => nameOf u p.origin rawName = r.name u p ∧ NameFits (r.name u p) := by
  cases hread : readOwner r.owner r.ttl with
  | none =>
    constructor
    · rintro ⟨p₁, howner, -⟩
      obtain ⟨-, ⟨hsome, -⟩ | ⟨-, hfallback⟩⟩ := resolveOwnerName_ok howner
      · cases hsome
      · exact hfallback
    · intro hfallback
      exact ⟨p, resolveOwnerName_fallback hfallback r.name_ne, rfl⟩
  | some rawName =>
    have hresolve : resolveDomainName u rawName p.origin = .ok (r.name u p) ↔ _ :=
      resolveDomainName_ok (r.readOwner_ne hread).1 (r.readOwner_ne hread).2
    constructor
    · rintro ⟨p₁, howner, -⟩
      obtain ⟨-, ⟨-, hresolved⟩ | ⟨hnone, -⟩⟩ := resolveOwnerName_ok howner
      · exact hresolve.mp hresolved
      · cases hnone
    · intro hname
      exact ⟨_, resolveOwnerName_owner (hresolve.mpr hname), rfl⟩

theorem processRecord_iff (hdefault : p.defaultClass = classIN) (hclass : InClass p.records) :
    (∃ p', processRecord enc u p r.tokens = .ok p' ∧
      Stored p.records p'.records (r.name u p) r.qType (r.ttlOf p) r.wire) ↔ r.Readable u p := by
  obtain ⟨htake, htok, hdrop⟩ := r.tokens_split
  have hlen := r.typeIdx_lt
  have hle := r.typeIdx_le
  have hread := parseHeaderFrom_header r.owner r.header_of r.ttl_some p.defaultTTL
  rw [← htake] at hread
  have hvalid := hread.1
  have hsearch : findRecordTypeIndex enc r.tokens = findTypeBelow enc r.tokens (min (r.tokens.length - 1) 3 + 1) :=
    if_neg (by omega)
  obtain ⟨hclean, hfound⟩ | ⟨⟨i, hki, hin, hmis⟩, helse⟩ :=
    findTypeBelow_cases htok r.isTypeToken_type hvalid hlen (n := min (r.tokens.length - 1) 3 + 1) (by omega)
  · have hheader : parseHeaderFrom ⟨[], p.defaultTTL, p.defaultClass, false⟩ false (r.tokens.take r.typeIdx) =
        .ok ⟨(readOwner r.owner r.ttl).getD [], readTTL r.owner r.ttl p.defaultTTL, classIN,
          (readOwner r.owner r.ttl).isSome⟩ := by
      rw [hdefault]
      exact hread.2
    constructor
    · rintro ⟨p', hrec, hstored⟩
      obtain ⟨typeIdx, qType, hd, name, wire, last, hacc⟩ := processRecord_ok hrec
      have htype := hacc.type
      rw [hsearch, hfound] at htype
      cases htype
      obtain rfl := Except.ok.inj (hheader.symm.trans hacc.header)
      rw [hacc.result] at hstored
      obtain ⟨rfl, -, -, httl⟩ := (stored_iff hclass).mp hstored
      refine ⟨r.resolveOwnerName_iff.mp ⟨_, hacc.owner, rfl⟩, fun i hi hle hmis => ?_, httl⟩
      have hlt := hmis.lt
      exact hclean i hi (by omega) hmis
    · intro hread
      obtain ⟨p₁, howner, hkept⟩ := r.resolveOwnerName_iff.mpr hread.owner
      refine ⟨_, processRecord_of (hsearch.trans hfound) hheader howner (hdrop ▸ r.rdata_ne) (hdrop ▸ r.packed), ?_⟩
      rw [hkept]
      exact (stored_iff hclass).mpr ⟨rfl, rfl, rfl, hread.ttl⟩
  · refine iff_of_false ?_ fun hread => hread.type i hki (by omega) hmis
    rintro ⟨p', hrec, hstored⟩
    obtain ⟨typeIdx, qType, hd, name, wire, last, hacc⟩ := processRecord_ok hrec
    have hrrClass := parseHeaderFrom_class hdefault hacc.header
    rw [← hsearch, hacc.type] at helse
    rw [hacc.result, hrrClass] at hstored
    obtain ⟨rfl, -⟩ := (stored_iff hclass).mp hstored
    cases helse with
    | later hk _ hvalid' =>
      obtain ⟨hraw, howner, hspelled⟩ := r.later_owner hk hvalid' hacc.header
      obtain ⟨-, ⟨-, hresolved⟩ | ⟨hno, -⟩⟩ := resolveOwnerName_ok hacc.owner
      · rw [hraw] at hresolved
        exact r.nameOf_type_ne hspelled p.origin ((resolveDomainName_ok r.type_ne.1 r.type_ne.2).mp hresolved).1
      · rw [howner] at hno
        cases hno

theorem equalFold_directive (word : String) : equalFold r.owner (0x24 :: ascii word) = false := by
  obtain ⟨b, rest, howner, hb⟩ := r.owner_cons
  rw [equalFold, howner, map_cons, map_cons]
  apply decide_eq_false
  intro heq
  have hdollar : lowerASCII b = 0x24 := head_eq_of_cons_eq heq
  obtain rfl | hb' := lowerASCII_eq hdollar
  · exact absurd hb (by decide)
  · obtain rfl : b = 0x04 := (UInt8.add_left_inj 32).mp (hb'.trans rfl)
    exact absurd hb (by decide)

theorem processRecordTokens_eq : processRecordTokens enc u p r.tokens = processRecord enc u p r.tokens := by
  have hnone : processDirective u p r.tokens = .ok none :=
    (if_neg (Bool.eq_false_iff.mp (r.equalFold_directive "TTL"))).trans
      (if_neg (Bool.eq_false_iff.mp (r.equalFold_directive "ORIGIN")))
  rw [processRecordTokens, if_neg r.tokens_ne, hnone]

end RecordLine

end Processing

section Reading

open Fallible

variable {enc : Encoders} {u : Unicode} {p p' : ZoneParser}

theorem tokenizeFrom_quoteBuf {x x' : Context} {token line : Text} {tokens tokens' : List Text}
    (hx : x.inQuote = false → x.quoteBuf = []) (h : tokenizeFrom x token tokens line = .ok (x', tokens')) :
    x'.inQuote = false → x'.quoteBuf = [] := by
  -- inside a quotation nothing is claimed, and its end empties the buffer
  fun_induction tokenizeFrom x token tokens line <;> grind

theorem processDirective_some {tokens : List Text} (h : processDirective u p tokens = .ok (some p')) :
    ∃ ttl origin last, p' = { p with defaultTTL := ttl, origin := origin, lastDomain := last } := by
  cases tokens with
  | nil => cases h
  | cons first rest =>
    rw [processDirective.eq_def] at h
    dsimp only at h
    split_ifs at h with httl horigin
    · split at h
      · cases h
      · split at h
        · cases h
        · next ttl _ =>
          cases h
          exact ⟨ttl, p.origin, p.lastDomain, rfl⟩
    · split at h
      · cases h
      · split_ifs at h with hempty
        split at h
        · cases h
        · next normalized _ =>
          cases h
          exact ⟨p.defaultTTL, normalized, normalized, rfl⟩
    · cases h

theorem processRecordTokens_kept {tokens : List Text} (h : processRecordTokens enc u p tokens = .ok p')
    (hdefault : p.defaultClass = classIN) (hclass : InClass p.records) :
    p'.context = p.context ∧ p'.complexTokens = p.complexTokens ∧ p'.defaultClass = classIN ∧ InClass p'.records := by
  rw [processRecordTokens] at h
  split_ifs at h with hnil
  · cases h
    exact ⟨rfl, rfl, hdefault, hclass⟩
  · split at h
    · cases h
    · next p₁ hdirective =>
      cases h
      obtain ⟨ttl, origin, last, rfl⟩ := processDirective_some hdirective
      exact ⟨rfl, rfl, hdefault, hclass⟩
    · obtain ⟨typeIdx, qType, hd, name, wire, last, hacc⟩ := processRecord_ok h
      rw [hacc.result, parseHeaderFrom_class hdefault hacc.header]
      exact ⟨rfl, rfl, hdefault, hclass.put⟩

structure AtRest (p : ZoneParser) : Prop where
  defaultClass : p.defaultClass = classIN
  inClass : InClass p.records
  quotation : p.context.inQuote = false → p.context.quoteBuf = []
  waiting : p.context.closed = true → p.complexTokens = []

theorem atRest_newZoneParser : AtRest newZoneParser := by
  refine ⟨rfl, fun n t s h => ?_, fun _ => rfl, fun _ => rfl⟩
  cases h

theorem AtRest.parseLine (h : AtRest p) {line : Text} (hline : parseLine enc u p line = .ok p') : AtRest p' := by
  rw [Zone.parseLine] at hline
  split_ifs at hline with hplain
  · obtain ⟨hcontext, htokens, hdefault, hclass⟩ := processRecordTokens_kept hline h.defaultClass h.inClass
    refine ⟨hdefault, hclass, ?_, ?_⟩
    · rw [hcontext]
      exact h.quotation
    · rw [hcontext, htokens]
      exact h.waiting
  · obtain ⟨⟨context, lineTokens⟩, hlex, hline⟩ := bind_ok hline
    have hquote := tokenizeFrom_quoteBuf h.quotation hlex
    dsimp only at hline
    split_ifs at hline with hflush
    · obtain ⟨p₁, hprocess, hline⟩ := bind_ok hline
      cases hline
      obtain ⟨hcontext, -, hdefault, hclass⟩ := processRecordTokens_kept hprocess h.defaultClass h.inClass
      refine ⟨hdefault, hclass, ?_, fun _ => rfl⟩
      rw [hcontext]
      exact hquote
    · cases hline
      refine ⟨h.defaultClass, h.inClass, hquote, fun hclosed => ?_⟩
      by_contra hne
      exact hflush ⟨hclosed, hne⟩

theorem AtRest.parseLines (h : AtRest p) {lines : List Text} (hlines : parseLines enc u p lines = .ok p') : AtRest p' := by
  induction lines generalizing p with
  | nil =>
    cases hlines
    exact h
  | cons line lines ih =>
    obtain ⟨p₁, hline, hlines⟩ := bind_ok hlines
    exact ih (h.parseLine hline) hlines

def entryFrom (x : Context) : List Text → Option (List Text)
  | [] => none
  | line :: lines =>
    match tokenizeComplexLine x line with
    | .error _ => none
    | .ok (x', tokens) => if x'.closed then (if lines = [] then some tokens else none) else (entryFrom x' lines).map (tokens ++ ·)

def entryTokens : List Text → Option (List Text)
  | [] => none
  | line :: lines =>
    if line.any isSpecial then entryFrom ⟨0, false, []⟩ (line :: lines) else if lines = [] then some (plainTokens line) else none

def flushed (p : ZoneParser) : ZoneParser := { p with complexTokens := [] }

theorem parseLines_open {line : Text} {lines : List Text} {tokens : List Text}
    (hopen : ¬(p.context.closed ∧ ¬line.any isSpecial)) (h : entryFrom p.context (line :: lines) = some tokens)
    (hne : p.complexTokens ++ tokens ≠ []) : ∃ x, parseLines enc u p (line :: lines) =
      (processRecordTokens enc u { p with context := x, complexTokens := p.complexTokens ++ tokens }
        (p.complexTokens ++ tokens)).map flushed := by
  induction lines generalizing p line tokens with
  | nil =>
    rw [entryFrom] at h
    split at h
    · cases h
    · next x lineTokens hlex =>
      split_ifs at h with hclosed
      · obtain rfl := Option.some.inj h
        refine ⟨x, ?_⟩
        rw [parseLines, foldlM_cons, parseLine, if_neg hopen, hlex, ok_bind]
        dsimp only
        rw [if_pos ⟨hclosed, hne⟩]
        cases processRecordTokens enc u { p with context := x, complexTokens := p.complexTokens ++ lineTokens }
          (p.complexTokens ++ lineTokens) <;> rfl
      · cases h
  | cons next lines ih =>
    rw [entryFrom] at h
    split at h
    · cases h
    · next x lineTokens hlex =>
      split_ifs at h with hclosed hnil
      · cases hnil
      · obtain ⟨rest, hrest, rfl⟩ := Option.map_eq_some_iff.mp h
        rw [← append_assoc] at hne ⊢
        obtain ⟨x', hlines⟩ := ih (p := { p with context := x, complexTokens := p.complexTokens ++ lineTokens })
          (fun hno => hclosed hno.1) hrest hne
        refine ⟨x', ?_⟩
        rw [parseLines, foldlM_cons, parseLine, if_neg hopen, hlex, ok_bind]
        dsimp only
        rw [if_neg fun hflush => hclosed hflush.1]
        exact hlines

theorem AtRest.context_eq (h : AtRest p) (hclosed : p.context.closed = true) : p.context = ⟨0, false, []⟩ := by
  have hquotation := h.quotation
  revert hclosed hquotation
  rcases p.context with ⟨parenCount, inQuote, quoteBuf⟩
  simp only [Context.closed, Bool.and_eq_true, decide_eq_true_eq, Bool.not_eq_true']
  rintro ⟨rfl, rfl⟩ hquote
  rw [hquote rfl]

theorem entry_iff (h : AtRest p) (hclosed : p.context.closed = true) (r : RecordLine enc) {lines : List Text}
    (hlines : entryTokens lines = some r.tokens) : (∃ p', parseLines enc u p lines = .ok p' ∧
      Stored p.records p'.records (r.name u p) r.qType (r.ttlOf p) r.wire) ↔ r.Readable u p := by
  cases lines with
  | nil => cases hlines
  | cons line lines =>
    rw [entryTokens] at hlines
    split_ifs at hlines with hspecial hone
    · rw [← h.context_eq hclosed] at hlines
      have hempty := h.waiting hclosed
      obtain ⟨x, hrun⟩ := parseLines_open (u := u) (fun hno => hno.2 hspecial) hlines (by rw [hempty]; exact r.tokens_ne)
      rw [hempty, nil_append, r.processRecordTokens_eq] at hrun
      have hiff := r.processRecord_iff (u := u) (p := { p with context := x, complexTokens := r.tokens }) h.defaultClass h.inClass
      rw [hrun]
      constructor
      · rintro ⟨p', hok, hstored⟩
        obtain ⟨p₁, hrecord, rfl⟩ := map_ok hok
        obtain ⟨howner, htype, httl⟩ := hiff.mp ⟨p₁, hrecord, hstored⟩
        exact ⟨howner, htype, httl⟩
      · rintro ⟨howner, htype, httl⟩
        obtain ⟨p₁, hok, hstored⟩ := hiff.mpr ⟨howner, htype, httl⟩
        exact ⟨flushed p₁, by rw [hok]; rfl, hstored⟩
    · obtain rfl := hone
      have hplain := Option.some.inj hlines
      have hrun : parseLines enc u p [line] = processRecord enc u p r.tokens := by
        rw [parseLines, foldlM_cons, parseLine, if_pos ⟨hclosed, hspecial⟩, hplain, r.processRecordTokens_eq]
        cases processRecord enc u p r.tokens <;> rfl
      rw [hrun]
      exact r.processRecord_iff h.defaultClass h.inClass

/-- A record of the grammar in a file gets its place exactly if nothing in it is taken for something else. -/
theorem record_line_iff {before : List Text} (h : parseLines enc u newZoneParser before = .ok p)
    (hclosed : p.context.closed = true) (r : RecordLine enc) {lines : List Text} (hlines : entryTokens lines = some r.tokens) :
    (∃ p', parseLines enc u p lines = .ok p' ∧
      Stored p.records p'.records (r.name u p) r.qType (r.ttlOf p) r.wire) ↔ r.Readable u p :=
  entry_iff (atRest_newZoneParser.parseLines h) hclosed r hlines

end Reading

section Samples

def sampleEncoders : Encoders := ⟨Capitals.basic, fun _ w _ => .ok w⟩

def sampleParser : ZoneParser := { newZoneParser with origin := ascii "a", lastDomain := ascii "a" }

def nameserverLine : RecordLine sampleEncoders where
  labels := [ascii "www"]
  absolute := false
  ttl := none
  header := [ascii "IN"]
  type := ascii "NS"
  rdata := [ascii "ns1"]
  qType := typeNS
  wire := [3, 0x6E, 0x73, 0x31, 0]
  labels_ne := cons_ne_nil _ _
  host := by
    intro l hl
    obtain rfl := mem_singleton.mp hl
    exact ⟨by decide, by decide, .inr (all_eq_true.mp (by decide))⟩
  ttl_some := fun _ h => by cases h
  header_of := .withClass (by decide)
  type_ascii := by decide
  type_word := by decide
  type_some := by decide +kernel
  rdata_ne := by decide
  packed := by decide +kernel

theorem record_line_nameserver :
    ∃ p', parseLines sampleEncoders .basic sampleParser [ascii "www IN NS ns1"] = .ok p' ∧
      Stored [] p'.records (ascii "www.a") typeNS 3600 [3, 0x6E, 0x73, 0x31, 0] := by
  have hbefore : parseLines sampleEncoders .basic newZoneParser [ascii "$ORIGIN a."] = .ok sampleParser := by decide +kernel
  refine (record_line_iff hbefore rfl nameserverLine (by decide +kernel)).mpr ⟨?_, ?_, rfl⟩
  · exact ⟨by decide +kernel, by decide +kernel, fun _ => by decide +kernel⟩
  · intro i hi hle
    obtain rfl : i = 3 := Nat.le_antisymm hle hi
    rintro ⟨tok, qt, htok, htype, -⟩
    obtain rfl := Option.some.inj htok
    have hnone : isTypeToken sampleEncoders (ascii "ns1") = none := by decide +kernel
    cases hnone.symm.trans htype

def pointerLine : RecordLine sampleEncoders where
  labels := [ascii "1"]
  absolute := false
  ttl := none
  header := []
  type := ascii "PTR"
  rdata := [ascii "b."]
  qType := typePTR
  wire := [1, 0x62, 0]
  labels_ne := cons_ne_nil _ _
  host := by
    intro l hl
    obtain rfl := mem_singleton.mp hl
    exact ⟨by decide, by decide, .inr (all_eq_true.mp (by decide))⟩
  ttl_some := fun _ h => by cases h
  header_of := .bare
  type_ascii := by decide
  type_word := by decide
  type_some := by decide +kernel
  rdata_ne := by decide
  packed := by decide +kernel

/-- The owner `1` is taken for the TTL, and the pointer goes to the origin. The nameserver `a` is taken for a type. -/
theorem pointer_misplaced :
    entryTokens [ascii "1 PTR b."] = some pointerLine.tokens ∧
      parseLines sampleEncoders .basic sampleParser [ascii "1 PTR b."] =
        .ok { sampleParser with records := [(ascii "a", [⟨[[1, 0x62, 0]], 1, typePTR, classIN⟩])] } ∧
      (¬∃ p', parseLines sampleEncoders .basic sampleParser [ascii "1 PTR b."] = .ok p' ∧
        Stored sampleParser.records p'.records (pointerLine.name .basic sampleParser) pointerLine.qType
          (pointerLine.ttlOf sampleParser) pointerLine.wire) ∧
      parseLines sampleEncoders .basic sampleParser [ascii "www NS a"] = .error (.missingRDataForType typeA) := by
  have hrun : parseLines sampleEncoders .basic sampleParser [ascii "1 PTR b."] =
      .ok { sampleParser with records := [(ascii "a", [⟨[[1, 0x62, 0]], 1, typePTR, classIN⟩])] } := by
    decide +kernel
  refine ⟨by decide +kernel, hrun, ?_, by decide +kernel⟩
  rintro ⟨p', hok, hstored⟩
  obtain rfl := Except.ok.inj (hrun.symm.trans hok)
  have hnone : Radix.findType (Records.find [(ascii "a", [⟨[[1, 0x62, 0]], 1, typePTR, classIN⟩])] (ascii "1.a")) typePTR =
      none := by
    decide +kernel
  cases hnone.symm.trans hstored.here

end Samples

end Kdns.Zone
