import Kdns.Lib.Guarded
import Mathlib.Data.List.Basic
import Mathlib.Data.List.Induction
import Mathlib.Logic.Function.Basic

/-! Two clients of a store, each of which reads first and writes then. Where one of them keeps in front in all that they
have in common, the run is as good as that one before the other. -/

open List

namespace Transaction

/-- Values under keys; keys with the same path are the same. A write may disturb other keys, but only within `rel`. -/
structure Store (S K P V : Type) [DecidableEq P] where
  get : S → K → V
  put : S → K → V → S
  path : K → P
  rel : V → V → Prop
  refl : ∀ v, rel v v
  symm : ∀ {v v'}, rel v v' → rel v' v
  trans : ∀ {v v' v''}, rel v v' → rel v' v'' → rel v v''
  get_put : ∀ s k v k', rel (get (put s k v) k') (if path k = path k' then v else get s k')

/-- What a client reads, under tags, and what it writes then if all that it reads passes. A tag is exact if the client
looks at more of the value than `rel` keeps. -/
structure Client (ρ K V : Type) where
  reads : List ρ
  key : ρ → K
  exact : ρ → Bool
  passes : ρ → V → Bool
  writes : List K
  value : (ρ → V) → K → V

structure Progress (ρ K V : Type) where
  seen : ρ → V
  toRead : List ρ
  toWrite : List K

structure Run (S ρ K V : Type) where
  store : S
  progress : Bool → Progress ρ K V

variable {S K P V ρ : Type} [DecidableEq P] (st : Store S K P V)

section Overlay

def overlay (m : K → V) (ws : List (K × V)) : K → V :=
  ws.foldl (fun m w k => if st.path w.1 = st.path k then w.2 else m k) m

theorem overlay_append (m : K → V) (ws vs : List (K × V)) : overlay st m (ws ++ vs) = overlay st (overlay st m ws) vs :=
  foldl_append

theorem overlay_concat (m : K → V) (ws : List (K × V)) (w : K × V) (k : K) :
    overlay st m (ws ++ [w]) k = if st.path w.1 = st.path k then w.2 else overlay st m ws k := by
  rw [overlay_append]
  rfl

theorem overlay_rel {R : V → V → Prop} (hrefl : ∀ v, R v v) {m m' : K → V} {k : K} (h : R (m k) (m' k))
    (ws : List (K × V)) : R (overlay st m ws k) (overlay st m' ws k) := by
  induction ws generalizing m m' with
  | nil => exact h
  | cons w ws ih =>
    rw [overlay, overlay, foldl_cons, foldl_cons]
    apply ih
    split_ifs
    · exact hrefl w.2
    · exact h

theorem overlay_untouched (m : K → V) {ws : List (K × V)} {k : K} (h : ∀ w ∈ ws, st.path w.1 ≠ st.path k) :
    overlay st m ws k = m k := by
  induction ws generalizing m with
  | nil => rfl
  | cons w ws ih =>
    rw [forall_mem_cons] at h
    exact (ih _ h.2).trans (if_neg h.1)

theorem overlay_insert (m : K → V) (ws vs : List (K × V)) (w : K × V) (h : ∀ v ∈ vs, st.path w.1 ≠ st.path v.1) (k : K) :
    overlay st m (ws ++ [w] ++ vs) k = if st.path w.1 = st.path k then w.2 else overlay st m (ws ++ vs) k := by
  rw [overlay_append, overlay_append st m ws vs]
  split_ifs with hk
  · rw [overlay_untouched, overlay_concat, if_pos hk]
    intro v hv heq
    exact h v hv (hk.trans heq.symm)
  · apply overlay_rel st (fun _ => rfl)
    rw [overlay_concat, if_neg hk]

end Overlay

section Alone

def writeAll (f : K → V) (ks : List K) (s : S) : S := ks.foldl (fun s k => st.put s k (f k)) s

theorem writeAll_concat (f : K → V) (ks : List K) (k : K) (s : S) :
    writeAll st f (ks ++ [k]) s = st.put (writeAll st f ks s) k (f k) := by
  rw [writeAll, foldl_append]
  rfl

def planned (c : Client ρ K V) (s : S) (k : K) : V := c.value (fun r => st.get s (c.key r)) k

def alone (c : Client ρ K V) (s : S) : S := writeAll st (planned st c s) c.writes s

def entries (f : K → V) (ks : List K) : List (K × V) := ks.map fun k => (k, f k)

theorem entries_nil (f : K → V) : entries f [] = [] := rfl

theorem entries_append (f : K → V) (ks ks' : List K) : entries f (ks ++ ks') = entries f ks ++ entries f ks' :=
  map_append

theorem entries_concat (f : K → V) (ks : List K) (k : K) : entries f (ks ++ [k]) = entries f ks ++ [(k, f k)] :=
  entries_append f ks [k]

theorem mem_entries {f : K → V} {ks : List K} {w : K × V} (h : w ∈ entries f ks) : w.1 ∈ ks := by
  obtain ⟨k, hk, rfl⟩ := mem_map.mp h
  exact hk

variable {st} in
theorem put_rel {s : S} {k k' : K} {v v' : V} {m : K → V} (hv : st.rel v v') (hm : st.rel (st.get s k') (m k')) :
    st.rel (st.get (st.put s k v) k') (if st.path k = st.path k' then v' else m k') := by
  refine st.trans (st.get_put s k v k') ?_
  split_ifs
  · exact hv
  · exact hm

theorem writeAll_get (f : K → V) (ks : List K) (s : S) (k : K) :
    st.rel (st.get (writeAll st f ks s) k) (overlay st (st.get s) (entries f ks) k) := by
  induction ks using List.reverseRecOn generalizing k with
  | nil => exact st.refl _
  | append_singleton ks k' ih =>
    rw [writeAll_concat, entries_concat, overlay_concat]
    exact put_rel (st.refl _) (ih k)

theorem alone_written (c : Client ρ K V) (s : S) {k k' : K} (hmem : k' ∈ c.writes) (hpath : st.path k' = st.path k)
    (honce : ∀ j ∈ c.writes, st.path j = st.path k → j = k') : st.rel (st.get (alone st c s) k) (planned st c s k') := by
  have hoverlay : ∀ ks : List K, k' ∈ ks → (∀ j ∈ ks, st.path j = st.path k → j = k') →
      overlay st (st.get s) (entries (planned st c s) ks) k = planned st c s k' := by
    intro ks
    induction ks using List.reverseRecOn with
    | nil =>
      intro h
      cases h
    | append_singleton ks j ih =>
      intro hmem honce
      rw [entries_concat, overlay_concat]
      split_ifs with hj
      · rw [honce j (mem_append_right _ mem_cons_self) hj]
      · rcases mem_append.mp hmem with hmem | hmem
        · exact ih hmem fun j hj => honce j (mem_append_left _ hj)
        · exact absurd (mem_singleton.mp hmem ▸ hpath) hj
  rw [← hoverlay c.writes hmem honce]
  exact writeAll_get st _ _ s k

theorem alone_untouched (c : Client ρ K V) (s : S) {k : K} (h : ∀ j ∈ c.writes, st.path j ≠ st.path k) :
    st.rel (st.get (alone st c s) k) (st.get s k) := by
  have hget := writeAll_get st (planned st c s) c.writes s k
  rwa [overlay_untouched] at hget
  intro w hw
  exact h w.1 (mem_entries hw)

end Alone

section Runs

variable [DecidableEq ρ] (c : Bool → Client ρ K V)

def Client.start (c : Client ρ K V) (v : V) : Progress ρ K V := ⟨fun _ => v, c.reads, c.writes⟩

namespace Run

def start (s : S) (v : V) : Run S ρ K V := ⟨s, fun b => (c b).start v⟩

def afterRead (x : Run S ρ K V) (b : Bool) (r : ρ) (rs : List ρ) (v : V) : Run S ρ K V :=
  ⟨x.store, Function.update x.progress b ⟨Function.update (x.progress b).seen r v, rs, (x.progress b).toWrite⟩⟩

def afterWrite (x : Run S ρ K V) (b : Bool) (s : S) (ks : List K) : Run S ρ K V :=
  ⟨s, Function.update x.progress b ⟨(x.progress b).seen, [], ks⟩⟩

def Finished (x : Run S ρ K V) : Prop := ∀ b, (x.progress b).toRead = [] ∧ (x.progress b).toWrite = []

end Run

def step (x : Run S ρ K V) (b : Bool) : Option (Run S ρ K V) :=
  match (x.progress b).toRead, (x.progress b).toWrite with
  | r :: rs, _ =>
    if (c b).passes r (st.get x.store ((c b).key r)) then some (x.afterRead b r rs (st.get x.store ((c b).key r))) else none
  | [], k :: ks => some (x.afterWrite b (st.put x.store k ((c b).value (x.progress b).seen k)) ks)
  | [], [] => none

def Yields (first : Bool) (x : Run S ρ K V) (b : Bool) : Prop :=
  b ≠ first →
    (∀ r ∈ (x.progress b).toRead.head?, (∀ k ∈ (x.progress first).toWrite, st.path k ≠ st.path ((c b).key r)) ∧
      ((c b).exact r = true → (x.progress first).toWrite = [])) ∧
    ((x.progress b).toRead = [] → ∀ k ∈ (x.progress b).toWrite.head?,
      (∀ r ∈ (x.progress first).toRead, st.path ((c first).key r) ≠ st.path k ∧ (c first).exact r = false) ∧
        ∀ k' ∈ (x.progress first).toWrite, st.path k' ≠ st.path k)

instance yieldsDecidable (first : Bool) (x : Run S ρ K V) (b : Bool) : Decidable (Yields st c first x b) :=
  inferInstanceAs (Decidable (_ → _))

def Agree (c : Client ρ K V) (r : ρ) (v v' : V) : Prop := st.rel v v' ∧ (c.exact r = true → v = v')

/-- What a client does depends on what it reads, and only within `rel` where it is not exact. -/
structure Client.Sound (c : Client ρ K V) : Prop where
  passes_agree : ∀ r v v', Agree st c r v v' → c.passes r v = true → c.passes r v' = true
  value_eq : ∀ seen seen' : ρ → V, (∀ r ∈ c.reads, seen r = seen' r) → ∀ k ∈ c.writes, c.value seen k = c.value seen' k
  value_rel : ∀ seen seen' : ρ → V, (∀ r ∈ c.reads, Agree st c r (seen r) (seen' r)) →
    ∀ k ∈ c.writes, st.rel (c.value seen k) (c.value seen' k)

def Read (c : Client ρ K V) (s : S) (seen : ρ → V) (r : ρ) : Prop :=
  Agree st c r (seen r) (st.get s (c.key r)) ∧ c.passes r (st.get s (c.key r)) = true

variable (first : Bool) (s₀ : S)

/-- Where the two clients are: what they have read and written so far, and that this is what they would have read and
written one after the other. -/
structure Ahead (x : Run S ρ K V) (readA readB : List ρ) (wroteA wroteB : List K) : Prop where
  reads_first : (c first).reads = readA ++ (x.progress first).toRead
  reads_second : (c !first).reads = readB ++ (x.progress !first).toRead
  writes_first : (c first).writes = wroteA ++ (x.progress first).toWrite
  writes_second : (c !first).writes = wroteB ++ (x.progress !first).toWrite
  phase_first : wroteA ≠ [] → (x.progress first).toRead = []
  phase_second : wroteB ≠ [] → (x.progress !first).toRead = []
  seen_first : ∀ r ∈ readA, Read st (c first) s₀ (x.progress first).seen r
  seen_second : ∀ r ∈ readB, Read st (c !first) (alone st (c first) s₀) (x.progress !first).seen r
  content : ∀ k, st.rel (st.get x.store k) (overlay st (st.get s₀)
    (entries (planned st (c first) s₀) wroteA ++ entries (planned st (c !first) (alone st (c first) s₀)) wroteB) k)
  apart_reads : ∀ r ∈ (x.progress first).toRead, ∀ w ∈ wroteB,
    st.path ((c first).key r) ≠ st.path w ∧ (c first).exact r = false
  apart_writes : ∀ k ∈ (x.progress first).toWrite, ∀ w ∈ wroteB, st.path k ≠ st.path w
  pristine : wroteB = [] → (∀ r ∈ readA, (x.progress first).seen r = st.get s₀ ((c first).key r)) ∧
    x.store = writeAll st (planned st (c first) s₀) wroteA s₀

section Steps

variable {st c first s₀} {x : Run S ρ K V} {readA readB : List ρ} {wroteA wroteB : List K}

theorem other_ne (first : Bool) : (!first) ≠ first := by cases first <;> decide

theorem forall_update {Q : V → ρ → Prop} {rs : List ρ} {seen : ρ → V} (h : ∀ r ∈ rs, Q (seen r) r) {r : ρ} {v : V}
    (hv : Q v r) : ∀ r' ∈ rs ++ [r], Q (Function.update seen r v r') r' := by
  intro r' hr'
  by_cases heq : r' = r
  · subst heq
    rw [Function.update_self]
    exact hv
  · rw [Function.update_of_ne heq]
    rcases mem_append.mp hr' with hr' | hr'
    · exact h r' hr'
    · exact absurd (mem_singleton.mp hr') heq

theorem Ahead.read_first (h : Ahead st c first s₀ x readA readB wroteA wroteB) (hc : (c first).Sound st) {r : ρ}
    {rs : List ρ} (hr : (x.progress first).toRead = r :: rs)
    (hpass : (c first).passes r (st.get x.store ((c first).key r)) = true) :
    Ahead st c first s₀ (x.afterRead first r rs (st.get x.store ((c first).key r))) (readA ++ [r]) readB wroteA wroteB := by
  have hnone : wroteA = [] := by
    by_contra hne
    rw [h.phase_first hne] at hr
    cases hr
  have hread : r ∈ (x.progress first).toRead := hr ▸ mem_cons_self
  have hpristine : wroteB = [] → st.get x.store ((c first).key r) = st.get s₀ ((c first).key r) := by
    intro hwb
    rw [(h.pristine hwb).2, hnone]
    rfl
  have hagree : Agree st (c first) r (st.get x.store ((c first).key r)) (st.get s₀ ((c first).key r)) := by
    constructor
    · -- The other client has written nothing that is read here.
      have hcontent := h.content ((c first).key r)
      rwa [hnone, entries_nil, nil_append, overlay_untouched] at hcontent
      intro w hw
      exact (h.apart_reads r hread w.1 (mem_entries hw)).1.symm
    · intro hexact
      apply hpristine
      apply eq_nil_iff_forall_not_mem.mpr
      intro w hw
      rw [(h.apart_reads r hread w hw).2] at hexact
      cases hexact
  constructor
  all_goals simp only [Run.afterRead, Function.update_self, Function.update_of_ne (other_ne first)]
  · rw [h.reads_first, hr, append_assoc]
    rfl
  · exact h.reads_second
  · exact h.writes_first
  · exact h.writes_second
  · exact fun hne => absurd hnone hne
  · exact h.phase_second
  · apply forall_update (Q := fun v r => Agree st (c first) r v (st.get s₀ ((c first).key r)) ∧
      (c first).passes r (st.get s₀ ((c first).key r)) = true) h.seen_first
    exact ⟨hagree, hc.passes_agree r _ _ hagree hpass⟩
  · exact h.seen_second
  · exact h.content
  · exact fun r' hr' => h.apart_reads r' (hr ▸ mem_cons_of_mem r hr')
  · exact h.apart_writes
  · intro hwb
    refine ⟨?_, (h.pristine hwb).2⟩
    apply forall_update (Q := fun v r => v = st.get s₀ ((c first).key r)) (h.pristine hwb).1
    exact hpristine hwb

omit [DecidableEq ρ] in
theorem Ahead.write_first (h : Ahead st c first s₀ x readA readB wroteA wroteB) (hc : (c first).Sound st) {k : K} {ks : List K}
    (hr : (x.progress first).toRead = []) (hk : (x.progress first).toWrite = k :: ks) :
    Ahead st c first s₀ (x.afterWrite first (st.put x.store k ((c first).value (x.progress first).seen k)) ks)
      readA readB (wroteA ++ [k]) wroteB := by
  have hreads : (c first).reads = readA := by rw [h.reads_first, hr, append_nil]
  have hwrite : k ∈ (c first).writes := by
    rw [h.writes_first, hk]
    exact mem_append_right _ mem_cons_self
  have hvalue : st.rel ((c first).value (x.progress first).seen k) (planned st (c first) s₀ k) := by
    apply hc.value_rel _ _ _ k hwrite
    rw [hreads]
    exact fun r hr => (h.seen_first r hr).1
  constructor
  all_goals simp only [Run.afterWrite, Function.update_self, Function.update_of_ne (other_ne first)]
  · rw [h.reads_first, hr]
  · exact h.reads_second
  · rw [h.writes_first, hk, append_assoc]
    rfl
  · exact h.writes_second
  · exact fun _ => trivial
  · exact h.phase_second
  · exact h.seen_first
  · exact h.seen_second
  · intro k'
    rw [entries_concat, overlay_insert]
    · exact put_rel hvalue (h.content k')
    · intro w hw
      exact h.apart_writes k (hk ▸ mem_cons_self) w.1 (mem_entries hw)
  · intro r' hr'
    cases hr'
  · exact fun k' hk' => h.apart_writes k' (hk ▸ mem_cons_of_mem k hk')
  · intro hwb
    refine ⟨(h.pristine hwb).1, ?_⟩
    have heq : (c first).value (x.progress first).seen k = planned st (c first) s₀ k := by
      apply hc.value_eq _ _ _ k hwrite
      rw [hreads]
      exact (h.pristine hwb).1
    rw [writeAll_concat, ← (h.pristine hwb).2, heq]

theorem Ahead.read_second (h : Ahead st c first s₀ x readA readB wroteA wroteB) (hc : (c !first).Sound st) {r : ρ}
    {rs : List ρ} (hr : (x.progress !first).toRead = r :: rs)
    (hpass : (c !first).passes r (st.get x.store ((c !first).key r)) = true)
    (hapart : ∀ k ∈ (x.progress first).toWrite, st.path k ≠ st.path ((c !first).key r))
    (hexact : (c !first).exact r = true → (x.progress first).toWrite = []) :
    Ahead st c first s₀ (x.afterRead (!first) r rs (st.get x.store ((c !first).key r)))
      readA (readB ++ [r]) wroteA wroteB := by
  have hnone : wroteB = [] := by
    by_contra hne
    rw [h.phase_second hne] at hr
    cases hr
  have hagree : Agree st (c !first) r (st.get x.store ((c !first).key r))
      (st.get (alone st (c first) s₀) ((c !first).key r)) := by
    constructor
    · -- What the first client has yet to write is not read here.
      have halone := writeAll_get st (planned st (c first) s₀) (c first).writes s₀ ((c !first).key r)
      rw [h.writes_first, entries_append, overlay_append, overlay_untouched] at halone
      · have hcontent := h.content ((c !first).key r)
        rw [hnone, entries_nil, append_nil] at hcontent
        rw [alone, h.writes_first]
        exact st.trans hcontent (st.symm halone)
      · intro w hw
        exact hapart w.1 (mem_entries hw)
    · intro he
      rw [(h.pristine hnone).2, alone, h.writes_first, hexact he, append_nil]
  constructor
  all_goals simp only [Run.afterRead, Function.update_self, Function.update_of_ne (other_ne first).symm]
  · exact h.reads_first
  · rw [h.reads_second, hr, append_assoc]
    rfl
  · exact h.writes_first
  · exact h.writes_second
  · exact h.phase_first
  · exact fun hne => absurd hnone hne
  · exact h.seen_first
  · apply forall_update (Q := fun v r => Agree st (c !first) r v (st.get (alone st (c first) s₀) ((c !first).key r)) ∧
      (c !first).passes r (st.get (alone st (c first) s₀) ((c !first).key r)) = true) h.seen_second
    exact ⟨hagree, hc.passes_agree r _ _ hagree hpass⟩
  · exact h.content
  · exact h.apart_reads
  · exact h.apart_writes
  · exact h.pristine

omit [DecidableEq ρ] in
theorem Ahead.write_second (h : Ahead st c first s₀ x readA readB wroteA wroteB) (hc : (c !first).Sound st) {k : K}
    {ks : List K} (hr : (x.progress !first).toRead = []) (hk : (x.progress !first).toWrite = k :: ks)
    (hreads : ∀ r ∈ (x.progress first).toRead, st.path ((c first).key r) ≠ st.path k ∧ (c first).exact r = false)
    (hwrites : ∀ k' ∈ (x.progress first).toWrite, st.path k' ≠ st.path k) :
    Ahead st c first s₀ (x.afterWrite (!first) (st.put x.store k ((c !first).value (x.progress !first).seen k)) ks)
      readA readB wroteA (wroteB ++ [k]) := by
  have hwrite : k ∈ (c !first).writes := by
    rw [h.writes_second, hk]
    exact mem_append_right _ mem_cons_self
  have hvalue : st.rel ((c !first).value (x.progress !first).seen k)
      (planned st (c !first) (alone st (c first) s₀) k) := by
    apply hc.value_rel _ _ _ k hwrite
    rw [h.reads_second, hr, append_nil]
    exact fun r hr => (h.seen_second r hr).1
  constructor
  all_goals simp only [Run.afterWrite, Function.update_self, Function.update_of_ne (other_ne first).symm]
  · exact h.reads_first
  · rw [h.reads_second, hr]
  · exact h.writes_first
  · rw [h.writes_second, hk, append_assoc]
    rfl
  · exact h.phase_first
  · exact fun _ => trivial
  · exact h.seen_first
  · exact h.seen_second
  · intro k'
    rw [entries_concat, ← append_assoc, overlay_concat]
    exact put_rel hvalue (h.content k')
  · intro r hr w hw
    rcases mem_append.mp hw with hw | hw
    · exact h.apart_reads r hr w hw
    · rw [mem_singleton.mp hw]
      exact hreads r hr
  · intro k' hk' w hw
    rcases mem_append.mp hw with hw | hw
    · exact h.apart_writes k' hk' w hw
    · rw [mem_singleton.mp hw]
      exact hwrites k' hk'
  · simp

omit [DecidableEq ρ] in
theorem Ahead.start (v : V) : Ahead st c first s₀ (Run.start c s₀ v) [] [] [] [] := by
  constructor
  all_goals simp [Run.start, Client.start, writeAll, st.refl, overlay, entries]

theorem Ahead.step (hc : ∀ b, (c b).Sound st) {b : Bool} {x' : Run S ρ K V}
    (h : ∃ readA readB wroteA wroteB, Ahead st c first s₀ x readA readB wroteA wroteB) (hy : Yields st c first x b)
    (hs : Transaction.step st c x b = some x') :
    ∃ readA readB wroteA wroteB, Ahead st c first s₀ x' readA readB wroteA wroteB := by
  obtain ⟨readA, readB, wroteA, wroteB, h⟩ := h
  unfold Transaction.step at hs
  by_cases hb : b = first
  · subst hb
    split at hs
    · rename_i r rs hr
      obtain ⟨hpass, hs⟩ := Option.ite_none_right_eq_some.mp hs
      cases hs
      exact ⟨_, _, _, _, h.read_first (hc b) hr hpass⟩
    · rename_i k ks hr hk
      cases hs
      exact ⟨_, _, _, _, h.write_first (hc b) hr hk⟩
    · cases hs
  · obtain rfl : b = !first := Bool.eq_not_of_ne hb
    have hy := hy hb
    split at hs
    · rename_i r rs hr
      obtain ⟨hpass, hs⟩ := Option.ite_none_right_eq_some.mp hs
      cases hs
      obtain ⟨hapart, hexact⟩ := hy.1 r (by rw [hr]; rfl)
      exact ⟨_, _, _, _, h.read_second (hc _) hr hpass hapart hexact⟩
    · rename_i k ks hr hk
      cases hs
      obtain ⟨hreads, hwrites⟩ := hy.2 hr k (by rw [hk]; rfl)
      exact ⟨_, _, _, _, h.write_second (hc _) hr hk hreads hwrites⟩
    · cases hs

end Steps

def Passes (c : Client ρ K V) (s : S) : Prop := ∀ r ∈ c.reads, c.passes r (st.get s (c.key r)) = true

theorem serial_of_yields (hc : ∀ b, (c b).Sound st) (v : V) {schedule : List Bool} {x : Run S ρ K V}
    (hrun : Guarded.run (step st c) (Run.start c s₀ v) schedule = some x) (hdone : x.Finished)
    (hmeets : Guarded.Meets (step st c) (Yields st c first) (Run.start c s₀ v) schedule) :
    Passes st (c first) s₀ ∧ Passes st (c !first) (alone st (c first) s₀) ∧
      ∀ k, st.rel (st.get x.store k) (st.get (alone st (c !first) (alone st (c first) s₀)) k) := by
  obtain ⟨readA, readB, wroteA, wroteB, h⟩ := Guarded.invariant_run (step st c)
    (fun _ _ _ h hy hs => Ahead.step hc h hy hs) ⟨[], [], [], [], Ahead.start v⟩ hrun hmeets
  have hreadA := h.reads_first
  have hreadB := h.reads_second
  have hwroteA := h.writes_first
  have hwroteB := h.writes_second
  rw [(hdone _).1, append_nil] at hreadA hreadB
  rw [(hdone _).2, append_nil] at hwroteA hwroteB
  refine ⟨?_, ?_, fun k => ?_⟩
  · intro r hr
    exact (h.seen_first r (hreadA ▸ hr)).2
  · intro r hr
    exact (h.seen_second r (hreadB ▸ hr)).2
  · refine st.trans (h.content k) (st.symm ?_)
    rw [overlay_append, ← hwroteA, ← hwroteB]
    refine st.trans (writeAll_get st _ _ _ k) ?_
    exact overlay_rel st st.refl (writeAll_get st _ _ _ k) _

end Runs

end Transaction
