import Kdns.Radix.Wildcards
import Kdns.Store.Trace

open List

namespace Kdns.Wal

open ByteStream Dns

def Op.domain : Op → Bytes
  | .upsert domain _ => domain
  | .delete domain => domain

def Op.records : Op → RRSets
  | .upsert _ records => records
  | .delete _ => []

end Kdns.Wal

namespace Kdns.Storage

open ByteStream Dns Radix Prefixes Wal

variable {data rdata : Bytes} {records : RRSets} {op : Op}

section Serial

def serialOffset (rdata : Bytes) : Option ℕ :=
  ((skipDomainName rdata 0).bind (skipDomainName rdata)).filter fun offset => offset + 20 ≤ rdata.length

def serialAt (rdata : Bytes) (offset : ℕ) : ℕ := ofBigEndian ((rdata.drop offset).take 4)

def Raised (rdata rdata' : Bytes) : Prop :=
  ∃ offset, serialOffset rdata = some offset ∧ serialOffset rdata' = some offset ∧
    rdata'.take offset = rdata.take offset ∧ rdata'.drop (offset + 4) = rdata.drop (offset + 4) ∧
    serialAt rdata' offset = (serialAt rdata offset + 1) % 2 ^ 32

theorem skipFrom_bound {fuel curr offset : ℕ} (h : skipFrom data fuel curr = some offset) : curr < offset := by
  induction fuel generalizing curr with
  | zero => cases h
  | succ fuel ih =>
    rw [skipFrom] at h
    split at h
    · cases h
    · split_ifs at h
      · cases h
        omega
      · cases h
        omega
      · have := ih h
        omega

theorem skipFrom_congr {data' : Bytes} {fuel curr offset n : ℕ} (h : skipFrom data fuel curr = some offset)
    (hn : offset ≤ n) (heq : data'.take n = data.take n) : skipFrom data' fuel curr = some offset := by
  induction fuel generalizing curr with
  | zero => cases h
  | succ fuel ih =>
    have hcurr := skipFrom_bound h
    have hget : data'[curr]? = data[curr]? := by
      rw [← getElem?_take_of_lt (by omega : curr < n), heq, getElem?_take_of_lt (by omega)]
    rw [skipFrom] at h ⊢
    rw [hget]
    split at h
    · cases h
    · split_ifs at h ⊢
      · exact h
      · exact h
      · exact ih h

theorem skipDomainName_congr {data' : Bytes} {start offset n : ℕ} (h : skipDomainName data start = some offset)
    (hn : offset ≤ n) (heq : data'.take n = data.take n) (hlen : data'.length = data.length) :
    skipDomainName data' start = some offset := by
  rw [skipDomainName, hlen]
  exact skipFrom_congr h hn heq

theorem serialOffset_some {offset : ℕ} (h : serialOffset rdata = some offset) :
    (skipDomainName rdata 0).bind (skipDomainName rdata) = some offset ∧ offset + 20 ≤ rdata.length := by
  obtain ⟨h₁, h₂⟩ := Option.filter_eq_some_iff.mp h
  exact ⟨h₁, of_decide_eq_true h₂⟩

theorem serialOffset_congr {rdata' : Bytes} {offset : ℕ} (h : serialOffset rdata = some offset)
    (heq : rdata'.take offset = rdata.take offset) (hlen : rdata'.length = rdata.length) :
    serialOffset rdata' = some offset := by
  obtain ⟨hskip, hle⟩ := serialOffset_some h
  obtain ⟨middle, hmiddle, hlast⟩ := Option.bind_eq_some_iff.mp hskip
  have hlt := skipFrom_bound hlast
  apply Option.filter_eq_some_iff.mpr
  refine ⟨Option.bind_eq_some_iff.mpr ⟨middle, ?_, ?_⟩, ?_⟩
  · exact skipDomainName_congr hmiddle hlt.le heq hlen
  · exact skipDomainName_congr hlast le_rfl heq hlen
  · rw [hlen]
    exact decide_eq_true hle

theorem serialAt_lt (rdata : Bytes) (offset : ℕ) : serialAt rdata offset < 2 ^ 32 := by
  refine (ofBigEndian_lt _).trans_le ?_
  exact (Nat.pow_le_pow_right (by decide) (length_take_le _ _)).trans (by decide)

theorem incrementSOASerial_raised {offset : ℕ} (h : serialOffset rdata = some offset) :
    Raised rdata (incrementSOASerial rdata) := by
  obtain ⟨hskip, hle⟩ := serialOffset_some h
  have hinc : incrementSOASerial rdata = rdata.take offset ++
      (bigEndian 4 ((serialAt rdata offset + 1) % 2 ^ 32) ++ rdata.drop (offset + 4)) := by
    rw [incrementSOASerial, hskip]
    dsimp only
    rw [if_neg (by omega)]
    rfl
  have hlen : (rdata.take offset).length = offset := by
    rw [length_take]
    omega
  have htake : (incrementSOASerial rdata).take offset = rdata.take offset := by
    rw [hinc, take_append_of_le_length hlen.ge, take_take, min_self]
  have hdrop : (incrementSOASerial rdata).drop offset =
      bigEndian 4 ((serialAt rdata offset + 1) % 2 ^ 32) ++ rdata.drop (offset + 4) := by
    rw [hinc, drop_left' hlen]
  refine ⟨offset, h, ?_, htake, ?_, ?_⟩
  · apply serialOffset_congr h htake
    rw [hinc]
    simp
    omega
  · rw [← drop_drop, hdrop, drop_left' (by simp)]
  · rw [serialAt, hdrop, take_left' (by simp), ofBigEndian_bigEndian]
    exact Nat.mod_lt _ (by decide)

end Serial

section Bump

def WellFormedSOA (records : RRSets) : Prop :=
  ∃ set r rest, findType records typeSOA = some set ∧ set.rdata = r :: rest ∧ (serialOffset r).isSome = true

inductive RaisedSOA : RRSets → RRSets → Prop
  | intro (before after : RRSets) (set : RRSet) (r r' : Bytes) (rest : List Bytes)
      (hbefore : ∀ s ∈ before, s.type ≠ typeSOA) (htype : set.type = typeSOA) (hr : Raised r r') :
      RaisedSOA (before ++ { set with rdata := r :: rest } :: after) (before ++ { set with rdata := r' :: rest } :: after)

theorem findType_cons (s : RRSet) (records : RRSets) (ty : RRType) :
    findType (s :: records) ty = if s.type = ty then some s else findType records ty := by
  rw [findType, find?_cons]
  split_ifs with h
  · simp [h]
  · simp [h, findType]

theorem bumpSOA_raised (h : WellFormedSOA records) :
    ∃ records', bumpSOA records = some records' ∧ RaisedSOA records records' := by
  obtain ⟨set, r, rest, hfind, hdata, hoffset⟩ := h
  obtain ⟨offset, hoffset⟩ := Option.isSome_iff_exists.mp hoffset
  induction records with
  | nil => cases hfind
  | cons s records ih =>
    rw [findType_cons] at hfind
    rw [bumpSOA]
    by_cases hs : s.type = typeSOA
    · rw [if_pos hs] at hfind
      cases hfind
      rw [if_pos hs, hdata]
      refine ⟨_, rfl, ?_⟩
      have hset : set = { set with rdata := r :: rest } := by rw [← hdata]
      have hraised := RaisedSOA.intro [] records set r _ rest (by simp) hs (incrementSOASerial_raised hoffset)
      rwa [nil_append, ← hset] at hraised
    · rw [if_neg hs] at hfind ⊢
      obtain ⟨records', hbump, hraised⟩ := ih hfind
      refine ⟨s :: records', by rw [hbump]; rfl, ?_⟩
      cases hraised with
      | intro before after set r r' rest hbefore htype hr =>
        exact RaisedSOA.intro (s :: before) after set r r' rest (forall_mem_cons.mpr ⟨hs, hbefore⟩) htype hr

theorem bumpSOA_none (h : ∀ s ∈ records, s.type ≠ typeSOA) : bumpSOA records = none := by
  induction records with
  | nil => rfl
  | cons s records ih =>
    rw [forall_mem_cons] at h
    rw [bumpSOA, if_neg h.1, ih h.2]
    rfl

theorem findType_none_iff {ty : RRType} : findType records ty = none ↔ ∀ s ∈ records, s.type ≠ ty := by
  simp [findType]

theorem Raised.ne {r : Bytes} (h : Raised r r) : False := by
  obtain ⟨offset, -, -, -, -, hserial⟩ := h
  omega

theorem RaisedSOA.ne {records' : RRSets} (h : RaisedSOA records records') : records' ≠ records := by
  cases h with
  | intro before after set r r' rest hbefore htype hr =>
    intro hsame
    simp only [append_cancel_left_eq, cons.injEq, RRSet.mk.injEq, and_true] at hsame
    rw [hsame] at hr
    exact hr.ne

theorem RaisedSOA.ne_nil {records' : RRSets} (h : RaisedSOA records records') : records' ≠ [] := by
  cases h
  simp

end Bump

def bumpOp : Op → Op
  | .upsert domain records => .upsert domain ((bumpSOA records).getD records)
  | .delete domain => .delete domain

theorem findApexDomain_negative (rc : RCode) (a : RRSet) (name domain : Bytes) :
    findApexDomain ⟨rc, .empty, a, name⟩ domain = if a.hasRecords then name else [] := by
  rw [findApexDomain, if_neg]
  · rfl
  · rintro ⟨hans, -⟩
    cases hans

section Apex

structure SerialVisible (M : List Bytes → Option RRSets) (p : List Bytes) : Prop where
  uncut : ∀ c, c <+: p → cutOf (recordsAt M c) = none
  own : Occupied M p → answerOf (recordsAt M p) typeSOA = none
  wild : ¬Occupied M p → ∀ f, Longest (Wildcard M p) p f → answerOf (recordsAt M (f ++ [star])) typeSOA = none

variable {t : Tree} (h : t.Valid) {domain : Bytes}

include h

theorem resolve_visible (hv : SerialVisible t.contents (labels domain)) :
    ∃ rc, t.resolve domain typeSOA = ⟨rc, .empty, (enclosing t domain).soaRR, (enclosing t domain).soaName⟩ := by
  rw [resolve_through h (fun hds => absurd hds (by decide)) fun c hc hd => hd.1 (hv.uncut c hc)]
  rcases settle_cases typeSOA (findNode t.root (labels domain)) (lastWildcard t.root none (labels domain))
    (enclosing t domain) with hneg | ⟨node, a, hnode, ha, -⟩
  · exact hneg
  · exfalso
    by_cases ho : Occupied t.contents (labels domain)
    · obtain ⟨m, hm, hrec⟩ := settled_occupied h ho
      rw [hnode] at hm
      cases hm
      rw [← hrec, hv.own ho] at ha
      cases ha
    · rw [settled_vacant h ho] at hnode
      by_cases hwild : ∃ f, f <+: labels domain ∧ Wildcard t.contents (labels domain) f
      · obtain ⟨g, hg, hP⟩ := hwild
        obtain ⟨f, hf⟩ := exists_longest hg hP
        obtain ⟨w, hw, hlast⟩ := lastWildcard_longest h hf
        rw [hlast] at hnode
        cases hnode
        rw [← recordsAt_findNode hw, hv.wild ho f hf] at ha
        cases ha
      · rw [lastWildcard_eq_none h fun f hf hP => hwild ⟨f, hf, hP⟩] at hnode
        cases hnode

theorem resolve_hidden (hv : ¬SerialVisible t.contents (labels domain)) :
    (∃ ns name, cutOf (recordsAt t.contents (labels name)) = some ns ∧
      t.resolve domain typeSOA = ⟨.success, .empty, ns, name⟩) ∨
      ∃ a, t.resolve domain typeSOA = ⟨.success, a, .empty, []⟩ := by
  by_cases hcut : ∃ c, c <+: labels domain ∧ Delegates t.contents (labels domain) typeSOA c
  · obtain ⟨c, hc, hP⟩ := hcut
    obtain ⟨d, hd⟩ := exists_shortest hc hP
    obtain ⟨ns, name, hns, rfl, hr⟩ := resolve_referral h (fun hds => absurd hds (by decide)) hd
    exact .inl ⟨ns, name, hns, hr⟩
  · have hno : ∀ c, c <+: labels domain → ¬Delegates t.contents (labels domain) typeSOA c :=
      fun c hc hP => hcut ⟨c, hc, hP⟩
    have huncut : ∀ c, c <+: labels domain → cutOf (recordsAt t.contents c) = none := by
      intro c hc
      by_contra hne
      exact hno c hc ⟨hne, fun _ => by decide⟩
    right
    rw [resolve_through h (fun hds => absurd hds (by decide)) hno]
    -- What hides the serial is then an answer, of the name itself or of the wildcard.
    by_cases ho : Occupied t.contents (labels domain)
    · obtain ⟨m, hm, hrec⟩ := settled_occupied h ho
      obtain ⟨a, ha⟩ := Option.ne_none_iff_exists'.mp fun hnone => hv ⟨huncut, fun _ => hnone, fun hn => absurd ho hn⟩
      rw [hrec] at ha
      exact ⟨a, settle_answer _ hm ha⟩
    · obtain ⟨f, hf, hne⟩ : ∃ f, Longest (Wildcard t.contents (labels domain)) (labels domain) f ∧
          answerOf (recordsAt t.contents (f ++ [star])) typeSOA ≠ none := by
        by_contra hall
        refine hv ⟨huncut, fun hn => absurd hn ho, fun _ f hf => ?_⟩
        by_contra hne
        exact hall ⟨f, hf, hne⟩
      obtain ⟨a, ha⟩ := Option.ne_none_iff_exists'.mp hne
      obtain ⟨w, hw, hlast⟩ := lastWildcard_longest h hf
      rw [recordsAt_findNode hw] at ha
      exact ⟨a, settle_answer _ ((settled_vacant h ho).trans hlast) ha⟩

theorem zoneBump_hidden (hv : ¬SerialVisible t.contents (labels domain)) (rs : RRSets) : zoneBump t domain rs = none := by
  unfold zoneBump
  split
  · rfl
  dsimp only
  split_ifs with hapex
  · rfl
  rcases resolve_hidden h hv with ⟨ns, name, hns, hr⟩ | ⟨a, hr⟩
  · have hname : findApexDomain (t.resolve domain typeSOA) domain = name := by
      rw [hr, findApexDomain_negative] at hapex ⊢
      split_ifs at hapex ⊢
      · rfl
      · exact absurd (.inl rfl) hapex
    have hnone : bumpSOA (recordsAt t.contents (labels name)) = none := by
      apply bumpSOA_none
      rw [← findType_none_iff]
      by_contra hsoa
      rw [cutOf, if_pos (Option.isSome_iff_ne_none.mpr hsoa)] at hns
      cases hns
    rw [hname, Option.map_eq_none_iff, Option.bind_eq_none_iff]
    intro records hrecords
    rwa [recordsAt, Tree.contents, show view t.root (labels name) = some records from hrecords] at hnone
  · exfalso
    apply hapex
    rw [hr, findApexDomain]
    split_ifs with hyes hauth
    · exact .inr rfl
    · cases hauth
    · exact .inl rfl

theorem zoneBump_visible (hv : SerialVisible t.contents (labels domain)) {z : List Bytes}
    (hz : Longest (HoldsSOA t.contents) (labels domain) z) (hne : z ≠ labels domain)
    (hwf : WellFormedSOA (recordsAt t.contents z)) {rs : RRSets} (hrs : bumpSOA rs = none) :
    ∃ name updated, labels name = z ∧ RaisedSOA (recordsAt t.contents z) updated ∧
      zoneBump t domain rs = some (.upsert name updated) := by
  obtain ⟨updated, hbump, hraised⟩ := bumpSOA_raised hwf
  obtain ⟨set, r, rest, hset, hdata, -⟩ := hwf
  obtain ⟨rr, name, hrr, hname, hnonempty, he⟩ := enclosing_longest h hz
  obtain ⟨rc, hr⟩ := resolve_visible h hv
  rw [hset] at hrr
  cases hrr
  have happ : findApexDomain (t.resolve domain typeSOA) domain = name := by
    rw [hr, he, findApexDomain_negative, if_pos]
    simp [RRSet.hasRecords, hdata]
  have hget : t.get name = some (recordsAt t.contents z) := by
    rw [recordsAt, ← hname]
    cases hstored : t.contents (labels name) with
    | none =>
      rw [recordsAt, ← hname, hstored] at hset
      cases hset
    | some records => exact hstored
  refine ⟨name, updated, hname, hraised, ?_⟩
  unfold zoneBump
  rw [hrs]
  rw [happ, if_neg, hget, Option.bind_some, hbump]
  · rfl
  · rintro (h0 | rfl)
    · exact hnonempty h0
    · exact hne hname.symm

theorem zoneBump_some {rs : RRSets} (hop : zoneBump t domain rs = some op) :
    ∃ name updated, op = .upsert name updated ∧ Longest (HoldsSOA t.contents) (labels domain) (labels name) ∧
      labels name ≠ labels domain ∧ bumpSOA (recordsAt t.contents (labels name)) = some updated := by
  have hv : SerialVisible t.contents (labels domain) := by
    by_contra hv
    rw [zoneBump_hidden h hv] at hop
    cases hop
  obtain ⟨rc, hr⟩ := resolve_visible h hv
  unfold zoneBump at hop
  split at hop
  · cases hop
  rw [hr, findApexDomain_negative] at hop
  rcases enclosing_cases h domain with ⟨-, he⟩ | ⟨c, rr, name, hc, hrr, rfl, he⟩
  · rw [he] at hop
    simp [RRSet.empty, RRSet.hasRecords] at hop
  · have hne : labels name ≠ labels domain := by
      intro heq
      have hown := hv.own ⟨[], by
        intro hnone
        rw [heq, recordsAt, ← append_nil (labels domain), hnone] at hrr
        cases hrr⟩
      rw [answerOf, if_neg (by decide), ← heq, hrr] at hown
      cases hown
    rw [he] at hop
    cases hauth : rr.hasRecords with
    | false => simp [hauth] at hop
    | true =>
      simp only [hauth, if_true] at hop
      split_ifs at hop
      obtain ⟨updated, hu, rfl⟩ := Option.map_eq_some_iff.mp hop
      obtain ⟨records, hrecords, hbump⟩ := Option.bind_eq_some_iff.mp hu
      refine ⟨name, updated, rfl, hc, hne, ?_⟩
      have hstored : t.contents (labels name) = some records := hrecords
      rw [recordsAt, hstored]
      exact hbump

end Apex

section Committed

theorem logAndApply_none {W : Type} {append : W → Op → W × Option WalError} {s s' : Session W} {xs : List (Stage × Op)}
    (h : logAndApply append s xs = (s', none)) : s'.tree = applyOps s.tree (xs.map Prod.snd) := by
  induction xs generalizing s with
  | nil =>
    cases h
    rfl
  | cons x xs ih =>
    obtain ⟨stage, op⟩ := x
    rw [logAndApply] at h
    rcases hop : append s.writer op with ⟨w, _ | e⟩
    · rw [hop] at h
      exact ih h
    · rw [hop] at h
      cases h

theorem applyOperation_none {s s' : Session Writer} (h : applyOperation s op = (s', none)) :
    s'.tree = mutate s.tree op := by
  rw [applyOperation_eq] at h
  exact logAndApply_none h

theorem effects_ops (t : Tree) (op : Op) :
    (effects t op).map Prod.snd = (zoneBump t op.domain op.records).toList ++ [bumpOp op] := by
  cases op with
  | upsert domain records =>
    simp only [effects, Op.domain, Op.records, bumpOp]
    cases zoneBump t domain records <;> rfl
  | delete domain =>
    simp only [effects, Op.domain, Op.records, bumpOp]
    cases zoneBump t domain [] <;> rfl

theorem writeOf_domain (op : Op) : (writeOf op).1 = labels op.domain := by
  cases op <;> rfl

theorem bumpOp_domain (op : Op) : (bumpOp op).domain = op.domain := by
  cases op <;> rfl

theorem bumpOp_plain (h : bumpSOA op.records = none) : bumpOp op = op := by
  cases op with
  | upsert domain records =>
    rw [Op.records] at h
    rw [bumpOp, h]
    rfl
  | delete domain => rfl

theorem mutate_contents {t : Tree} (ht : t.Valid) (op : Op) : (mutate t op).contents =
      Overwrite.put (Overwrite.replay t.contents ((zoneBump t op.domain op.records).toList.map writeOf))
        (writeOf (bumpOp op)) := by
  rw [mutate, (applyOps_spec ht _).2, effects_ops, map_append, Overwrite.replay_append]
  rfl

/-- A committed change of a name below an apex raises the serial there exactly when the lookup of the SOA from the name
meets no delegation and no answer. -/
theorem serial_raised_iff (s s' : Session Writer) (hs : s.tree.Valid) (op : Op) (hcommit : applyOperation s op = (s', none))
    (hplain : ∀ set ∈ op.records, set.type ≠ typeSOA) (z : List Bytes)
    (hz : Longest (HoldsSOA s.tree.contents) (labels op.domain) z) (hn : ¬HoldsSOA s.tree.contents (labels op.domain))
    (hwf : WellFormedSOA (recordsAt s.tree.contents z)) :
    ((∃ before after, s.tree.contents z = some before ∧ s'.tree.contents z = some after ∧ RaisedSOA before after) ∧
        ∀ p, p ≠ z → p ≠ labels op.domain → s'.tree.contents p = s.tree.contents p) ↔
      SerialVisible s.tree.contents (labels op.domain) := by
  have hne : z ≠ labels op.domain := fun heq => hn (heq ▸ hz.holds)
  have hrs := bumpSOA_none hplain
  rw [applyOperation_none hcommit, mutate_contents hs, bumpOp_plain hrs]
  have hput : ∀ M : List Bytes → Option RRSets, ∀ p, p ≠ labels op.domain → Overwrite.put M (writeOf op) p = M p := by
    intro M p hp
    rw [Overwrite.put, writeOf_domain, Function.update_of_ne hp]
  constructor
  · rintro ⟨⟨before, after, hbefore, hafter, hraised⟩, -⟩
    by_contra hv
    rw [zoneBump_hidden hs hv, hput _ z hne] at hafter
    exact hraised.ne (Option.some.inj (hafter.symm.trans hbefore))
  · intro hv
    obtain ⟨name, updated, hname, hraised, hbump⟩ := zoneBump_visible hs hv hz hne hwf hrs
    have hwrite : writeOf (.upsert name updated) = (z, some updated) := by
      rw [writeOf, Tree.upsertWrite, if_neg hraised.ne_nil, hname]
    rw [hbump, Option.toList_some, map_singleton, hwrite]
    refine ⟨⟨recordsAt s.tree.contents z, updated, ?_, ?_, hraised⟩, fun p hpz hp => ?_⟩
    · rw [recordsAt]
      cases hstored : s.tree.contents z with
      | none =>
        obtain ⟨set, r, rest, hset, -⟩ := hwf
        rw [recordsAt, hstored] at hset
        cases hset
      | some records => rfl
    · rw [hput _ z hne]
      exact Function.update_self z _ _
    · rw [hput _ p hp]
      exact Function.update_of_ne hpz _ _

end Committed

def servedZone : List (Bytes × RRSets) :=
  [([0x61], [⟨[[0, 0, 0, 0, 0, 7, 0, 0, 0, 0, 0, 0, 0, 0, 0, 0, 0, 0, 0, 0, 0, 0]], 300, typeSOA, classIN⟩]),
    ([0x63, dot, 0x61], [⟨[[10, 0, 0, 1]], 300, typeA, classIN⟩]), ([0x62, dot, 0x61], [⟨[[0]], 300, typeNS, classIN⟩])]

def served : Session Writer := ⟨Tree.new.upsertAll servedZone, BufferedFile.BufWriter.new ⟨[], []⟩⟩

theorem served_valid : served.tree.Valid := (Tree.upsertAll_spec Tree.valid_new servedZone).1

theorem served_longest (l : Bytes) (h : ¬HoldsSOA served.tree.contents [[0x61], l]) :
    Longest (HoldsSOA served.tree.contents) [[0x61], l] [[0x61]] := by
  apply longest_take (p := [[0x61], l]) (k := 1) (by simp) (show HoldsSOA served.tree.contents [[0x61]] by decide +kernel)
  intro j hj hle
  obtain rfl : j = 2 := by
    simp only [length_cons, length_nil] at hle
    omega
  exact h

theorem served_wellFormed : WellFormedSOA (recordsAt served.tree.contents [[0x61]]) :=
  ⟨_, _, _, rfl, rfl, by decide +kernel⟩

theorem serial_raised_host :
    ∃ before after, served.tree.contents [[0x61]] = some before ∧
      (applyOperation served (.upsert [0x63, dot, 0x61] [⟨[[10, 0, 0, 2]], 300, typeA, classIN⟩])).1.tree.contents [[0x61]] =
        some after ∧ RaisedSOA before after := by
  have hl : labels [0x63, dot, 0x61] = [[0x61], [0x63]] := by decide
  have hn : ¬HoldsSOA served.tree.contents [[0x61], [0x63]] := by decide +kernel
  refine ((serial_raised_iff served _ served_valid (.upsert [0x63, dot, 0x61] [⟨[[10, 0, 0, 2]], 300, typeA, classIN⟩])
    (Prod.ext rfl (by decide +kernel)) (by decide) [[0x61]] ?_ ?_ served_wellFormed).mpr ?_).1
  · rw [Op.domain, hl]
    exact served_longest _ hn
  · rwa [Op.domain, hl]
  · rw [Op.domain, hl]
    refine ⟨fun c hc => ?_, fun _ => by decide +kernel, fun hvacant => absurd ⟨[], by decide +kernel⟩ hvacant⟩
    have hall : ∀ c ∈ [[0x61], [0x63]].inits, cutOf (recordsAt served.tree.contents c) = none := by decide +kernel
    exact hall c ((mem_inits c _).mpr hc)

/-- A change of the servers of the delegation is committed, and the serial stays. -/
theorem serial_kept_delegation :
    (applyOperation served (.upsert [0x62, dot, 0x61] [⟨[[1, 0x6E, 0]], 300, typeNS, classIN⟩])).2 = none ∧
      Longest (HoldsSOA served.tree.contents) (labels [0x62, dot, 0x61]) [[0x61]] ∧
      ¬HoldsSOA served.tree.contents (labels [0x62, dot, 0x61]) ∧
      ¬∃ before after, served.tree.contents [[0x61]] = some before ∧
        (applyOperation served (.upsert [0x62, dot, 0x61] [⟨[[1, 0x6E, 0]], 300, typeNS, classIN⟩])).1.tree.contents
          [[0x61]] = some after ∧ RaisedSOA before after := by
  have hl : labels [0x62, dot, 0x61] = [[0x61], [0x62]] := by decide
  have hn : ¬HoldsSOA served.tree.contents [[0x61], [0x62]] := by decide +kernel
  rw [hl]
  refine ⟨by decide +kernel, served_longest _ hn, hn, ?_⟩
  rintro ⟨before, after, hbefore, hafter, hraised⟩
  have hsame : (applyOperation served (.upsert [0x62, dot, 0x61] [⟨[[1, 0x6E, 0]], 300, typeNS, classIN⟩])).1.tree.contents
      [[0x61]] = served.tree.contents [[0x61]] := by decide +kernel
  rw [hsame, hbefore] at hafter
  exact hraised.ne (Option.some.inj hafter).symm

end Kdns.Storage
