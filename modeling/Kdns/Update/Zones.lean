import Kdns.Update.States
import Kdns.Lib.GoRunes
import Kdns.Radix.Labels

namespace Kdns.Update

open ByteStream Dns Wire GoStrings List

section Canonical

variable {u : Unicode} {name : Bytes}

structure Canonical (u : Unicode) (name : Bytes) (rs : List ℕ) : Prop where
  eq_encode : name = encode rs
  fixed : ∀ r ∈ rs, IsScalar r ∧ u.toLower r = r
  clear : ∀ r ∈ rs.head?, r ∉ spaceRunes
  dotted : [dotByte] <:+ name

theorem withDot_suffix (name : Bytes) : [dotByte] <:+ Tsig.withDot name := by
  unfold Tsig.withDot
  split_ifs with h
  · exact isSuffixOf_iff_suffix.mp h
  · exact suffix_append _ _

theorem lowered_fixed (hu : u.Regular) (name : Bytes) :
    ∀ r ∈ (runes (trimSpace name)).map u.toLower, IsScalar r ∧ u.toLower r = r := by
  intro r hr
  obtain ⟨r', hr', rfl⟩ := mem_map.mp hr
  exact ⟨hu.scalar r' (runes_isScalar _ r' hr'), hu.idempotent r'⟩

theorem lowered_clear (hu : u.Regular) (name : Bytes) :
    ∀ r ∈ ((runes (trimSpace name)).map u.toLower).head?, r ∉ spaceRunes := by
  have hclear := (clear_iff (trimSpace name)).mp (trimSpace_clear name)
  intro r hr hspace
  rw [head?_map] at hr
  obtain ⟨r', hr', rfl⟩ := Option.map_eq_some_iff.mp hr
  exact hclear r' hr' (hu.space r' hspace)

theorem canonical_dot (u : Unicode) : Canonical u [dotByte] [0x2E] where
  eq_encode := by decide
  fixed r hr := by
    rw [mem_singleton.mp hr]
    exact ⟨.inl (by decide), u.ascii _ (by decide)⟩
  clear := by decide
  dotted := suffix_rfl

theorem canonicalName_canonical (hu : u.Regular) (name : Bytes) : ∃ rs, Canonical u (canonicalName u name) rs := by
  have hlower := toLower_eq u (trimSpace name)
  unfold canonicalName
  dsimp only
  split_ifs with h
  · exact ⟨_, canonical_dot u⟩
  · have hne : (runes (trimSpace name)).map u.toLower ≠ [] := by
      intro hnil
      rw [hnil] at hlower
      exact h (.inl hlower)
    have hdot := withDot_suffix (toLower u (trimSpace name))
    by_cases hs : hasSuffix (toLower u (trimSpace name)) [dotByte]
    · refine ⟨_, ?_, lowered_fixed hu name, lowered_clear hu name, hdot⟩
      rw [Tsig.withDot, if_pos hs, hlower]
    · refine ⟨(runes (trimSpace name)).map u.toLower ++ [0x2E], ?_, ?_, ?_, hdot⟩
      · rw [Tsig.withDot, if_neg hs, hlower]
        simp [encode, encodeRune, dotByte]
      · intro r hr
        rcases mem_append.mp hr with hr | hr
        · exact lowered_fixed hu name r hr
        · exact (canonical_dot u).fixed r hr
      · rw [head?_append_of_ne_nil _ hne]
        exact lowered_clear hu name

theorem Canonical.normal {rs : List ℕ} (h : Canonical u name rs) : toLower u (trimSpace name) = name := by
  have htrim : trimSpace name = name := by
    apply trimSpace_eq_self
    · rw [clear_iff, h.eq_encode, runes_encode fun r hr => (h.fixed r hr).1]
      exact h.clear
    · intro w hw hsuffix
      -- No space ends in the byte of the dot.
      have hlast : ∀ w ∈ spaces, w.getLast? ≠ some dotByte ∧ w ≠ [] := by decide
      obtain ⟨t, ht⟩ := hsuffix
      obtain ⟨t', ht'⟩ := h.dotted
      have hget : name.getLast? = w.getLast? := by rw [← ht, getLast?_append_of_ne_nil _ (hlast w hw).2]
      rw [← ht', getLast?_concat] at hget
      exact (hlast w hw).1 hget.symm
  rw [htrim, h.eq_encode]
  exact toLower_encode u h.fixed

theorem canonicalName_eq_self {rs : List ℕ} (h : Canonical u name rs) : canonicalName u name = name := by
  unfold canonicalName
  rw [h.normal]
  dsimp only
  split_ifs with h'
  · rcases h' with rfl | rfl
    · exact absurd (suffix_nil.mp h.dotted) (cons_ne_nil _ _)
    · rfl
  · exact if_pos (isSuffixOf_iff_suffix.mpr h.dotted)

theorem canonicalName_idem (hu : u.Regular) (name : Bytes) :
    canonicalName u (canonicalName u name) = canonicalName u name := by
  obtain ⟨rs, h⟩ := canonicalName_canonical hu name
  exact canonicalName_eq_self h

end Canonical

theorem labels_append_dot (x z : Bytes) : Radix.labels (x ++ dotByte :: z) = Radix.labels z ++ Radix.labels x := by
  induction z using Radix.dot_induction with
  | base b hb => rw [Radix.labels_nodot hb]; exact Radix.labels_dot x hb
  | step a b hb ih =>
    rw [← cons_append, ← append_assoc, Radix.labels_dot _ hb, ih, Radix.labels_dot _ hb, append_assoc]

variable {zone : Bytes}

theorem labels_of_isInZone {u : Unicode} {domain : Bytes} (hd : canonicalName u domain = domain)
    (hz : canonicalName u zone = zone) (h : isInZone u domain zone = true) : Radix.labels zone <+: Radix.labels domain := by
  unfold isInZone at h
  rw [hd, hz] at h
  simp only [Bool.or_eq_true, decide_eq_true_eq] at h
  rcases h with (rfl | rfl) | h
  · exact nil_prefix
  · exact prefix_rfl
  · obtain ⟨x, rfl⟩ := isSuffixOf_iff_suffix.mp h
    rw [labels_append_dot]
    exact prefix_append _ _

section Sections

variable (u : Unicode)

variable {p : Bytes} {prereqs updates : List RawRR}

theorem parseRR_name {offset : ℕ} {r : RawRR × ℕ} (h : parseRR u p offset = .ok r) :
    ∃ name, r.1.name = canonicalName u name := by
  unfold parseRR at h
  cases hname : unpackName p offset with
  | error e =>
    rw [hname] at h
    cases h
  | ok n =>
    rw [hname] at h
    simp only [bind, Except.bind, pure, Except.pure, throw, throwThe, MonadExceptOf.throw] at h
    split_ifs at h
    cases h
    exact ⟨n.1, rfl⟩

theorem parseRecords_names {n offset : ℕ} {r : List RawRR × ℕ} (h : parseRecords u p n offset = .ok r) :
    ∀ rr ∈ r.1, ∃ name, rr.name = canonicalName u name := by
  induction n generalizing offset r with
  | zero =>
    cases h
    simp
  | succ n ih =>
    rw [parseRecords] at h
    cases hrr : parseRR u p offset with
    | error e =>
      rw [hrr] at h
      cases h
    | ok rr =>
      rw [hrr] at h
      cases hrest : parseRecords u p n rr.2 with
      | error e =>
        simp only [bind, Except.bind, hrest] at h
        cases h
      | ok rest =>
        simp only [bind, Except.bind, hrest, pure, Except.pure] at h
        cases h
        exact forall_mem_cons.mpr ⟨parseRR_name u hrr, ih hrest⟩

theorem parseZoneSection_name {qdCount : UInt16} {r : Bytes × ℕ} (h : parseZoneSection u p qdCount = .ok r) :
    ∃ name, r.1 = canonicalName u name := by
  unfold parseZoneSection at h
  simp only [bind, Except.bind, pure, Except.pure, throw, throwThe, MonadExceptOf.throw] at h
  split_ifs at h
  cases hname : unpackName p headerSize with
  | error e =>
    rw [hname] at h
    cases h
  | ok n => grind

theorem sections_names (h : sections u p = some (zone, prereqs, updates)) :
    (∃ name, zone = canonicalName u name) ∧ ∀ rr ∈ prereqs ++ updates, ∃ name, rr.name = canonicalName u name := by
  unfold sections at h
  split at h
  · cases h
  · rename_i hzone
    split at h
    · cases h
    · rename_i hprereqs
      split at h
      · cases h
      · rename_i hupdates
        cases h
        exact ⟨parseZoneSection_name u hzone,
          forall_mem_append.mpr ⟨parseRecords_names u hprereqs, parseRecords_names u hupdates⟩⟩

theorem admitted_sections {σ : Type} {getter : Getter σ} {s : σ}
    (h : admitted u getter s p = some (zone, prereqs, updates)) :
    sections u p = some (zone, prereqs, updates) ∧ ∀ rr ∈ prereqs ++ updates, isInZone u rr.name zone = true := by
  unfold admitted at h
  split_ifs at h
  obtain ⟨hsections, hadmits⟩ := Option.filter_eq_some_iff.mp h
  refine ⟨hsections, forall_mem_append.mpr ?_⟩
  simp only [admits, Bool.and_eq_true, all_eq_true] at hadmits
  exact ⟨hadmits.1.1.2, hadmits.1.2⟩

theorem admitted_labels {σ : Type} {getter : Getter σ} {s : σ}
    (hu : u.Regular) (h : admitted u getter s p = some (zone, prereqs, updates)) :
    ∀ rr ∈ prereqs ++ updates, Radix.labels zone <+: Radix.labels rr.name := by
  obtain ⟨hsections, hin⟩ := admitted_sections u h
  obtain ⟨⟨z, rfl⟩, hnames⟩ := sections_names u hsections
  intro rr hrr
  obtain ⟨name, hname⟩ := hnames rr hrr
  apply labels_of_isInZone ?_ (canonicalName_idem hu z) (hin rr hrr)
  rw [hname]
  exact canonicalName_idem hu name

end Sections

theorem callAll_err {σ ε : Type} (ud : UpsertDeleter σ ε) (calls : List StoreCall) (s : σ)
    (h : (callAll ud calls s).2.2 ≠ none) : (callAll ud calls s).2.1 ≠ [] := by
  cases calls with
  | nil => exact absurd rfl h
  | cons call calls =>
    rw [callAll]
    rcases ud.call s call with ⟨s', _ | e⟩ <;> exact cons_ne_nil _ _

def storesSOA (stored : Option RRSets) : Bool := stored.any fun records => records.any fun set => set.type = typeSOA

def InnerZone (stored : Bytes → Option RRSets) (zone name : Bytes) : Prop :=
  ∃ owner, storesSOA (stored owner) = true ∧ Radix.labels zone <+: Radix.labels owner ∧
    Radix.labels owner ≠ Radix.labels zone ∧ Radix.labels owner <+: Radix.labels name

section Authority

variable {σ ε : Type} (u : Unicode) (mo : MapOrder) (getter : Getter σ) (ud : UpsertDeleter σ ε) (s : σ) (p : Bytes)

theorem process_effective_iff :
    ((process u mo getter ud s p).rcode = .success ∨ (process u mo getter ud s p).calls ≠ []) ↔
      (admitted u getter s p).isSome = true := by
  cases hm : admitted u getter s p with
  | none =>
    obtain ⟨-, hcalls, hrcode⟩ := process_rejected mo ud hm
    simpa [hcalls] using hrcode
  | some m =>
    simp only [Option.isSome_some, iff_true]
    rw [process_admitted mo ud hm]
    have herr := callAll_err ud (updateCalls mo getter s m.2.2) s
    rcases hcalls : callAll ud (updateCalls mo getter s m.2.2) s with ⟨s', calls, _ | e⟩
    · exact .inl rfl
    · rw [hcalls] at herr
      exact .inr (herr (Option.some_ne_none e))

/-- Updates stay inside the zones the server has exactly when the messages that pass the checks name an apex and no
name of a zone below it. -/
theorem process_authoritative_iff (hu : u.Regular) :
    ((process u mo getter ud s p).rcode = .success ∨ (process u mo getter ud s p).calls ≠ [] →
        ∃ zone prereqs updates, sections u p = some (zone, prereqs, updates) ∧ storesSOA (getter s zone) = true ∧
          (∀ rr ∈ prereqs ++ updates, Radix.labels zone <+: Radix.labels rr.name) ∧
          ∀ up ∈ updates, ¬InnerZone (getter s) zone up.name) ↔
      ∀ zone prereqs updates, admitted u getter s p = some (zone, prereqs, updates) →
        storesSOA (getter s zone) = true ∧ ∀ up ∈ updates, ¬InnerZone (getter s) zone up.name := by
  rw [process_effective_iff]
  constructor
  · intro h zone prereqs updates hm
    obtain ⟨zone', prereqs', updates', hsections, hsoa, -, hinner⟩ := h (by rw [hm]; rfl)
    rw [(admitted_sections u hm).1] at hsections
    cases hsections
    exact ⟨hsoa, hinner⟩
  · intro h hsome
    obtain ⟨⟨zone, prereqs, updates⟩, hm⟩ := Option.isSome_iff_exists.mp hsome
    obtain ⟨hsoa, hinner⟩ := h zone prereqs updates hm
    exact ⟨zone, prereqs, updates, (admitted_sections u hm).1, hsoa, admitted_labels u hu hm, hinner⟩

end Authority

def single (name : Bytes) (records : RRSets) : Getter Unit := fun _ n => if n = name then some records else none

def ignoring : UpsertDeleter Unit Empty := ⟨fun _ _ _ => ((), none), fun _ _ => ((), none)⟩

def addToZone : Bytes :=
  [0, 0, 0x28, 0, 0, 1, 0, 0, 0, 1, 0, 0, 1, 97, 0, 0, 6, 0, 1, 1, 97, 0, 0, 1, 0, 1, 0, 0, 0, 60, 0, 4, 10, 0, 0, 1]

/-- The zone has an address and no SOA, and the update is applied. -/
theorem process_accepts_host :
    (process .basic .insertion (single [97, dotByte] [⟨[[10, 0, 0, 2]], 60, typeA, classIN⟩]) ignoring () addToZone).rcode =
        .success ∧
      ¬∃ zone prereqs updates, sections .basic addToZone = some (zone, prereqs, updates) ∧
        storesSOA (single [97, dotByte] [⟨[[10, 0, 0, 2]], 60, typeA, classIN⟩] () zone) = true := by
  refine ⟨by decide +kernel, ?_⟩
  rintro ⟨zone, prereqs, updates, hsections, hsoa⟩
  have hzone : (sections .basic addToZone).map Prod.fst = some [97, dotByte] := by decide +kernel
  rw [hsections] at hzone
  cases hzone
  revert hsoa
  decide

theorem process_authoritative_apex :
    ∃ zone prereqs updates, sections .basic addToZone = some (zone, prereqs, updates) ∧
      storesSOA (single [97, dotByte] [⟨[[0]], 60, typeSOA, classIN⟩] () zone) = true ∧
      (∀ rr ∈ prereqs ++ updates, Radix.labels zone <+: Radix.labels rr.name) ∧
      ∀ up ∈ updates, ¬InnerZone (single [97, dotByte] [⟨[[0]], 60, typeSOA, classIN⟩] ()) zone up.name := by
  refine (process_authoritative_iff .basic .insertion (single [97, dotByte] [⟨[[0]], 60, typeSOA, classIN⟩]) ignoring ()
    addToZone Unicode.basic_regular).mpr ?_ (.inl (by decide +kernel))
  intro zone prereqs updates hm
  have hzone : (sections .basic addToZone).map Prod.fst = some [97, dotByte] := by decide +kernel
  rw [(admitted_sections _ hm).1] at hzone
  cases hzone
  refine ⟨by decide, ?_⟩
  rintro up - ⟨owner, hsoa, -, hne, -⟩
  rw [single] at hsoa
  split_ifs at hsoa with howner
  · exact hne (by rw [howner])
  · cases hsoa

end Kdns.Update
