import Kdns.Lib.ByteStream

/-! Logs of self-delimiting frames, read frame by frame until the stream ends or a frame fails. -/

namespace FramedLog

open ByteStream List

structure FrameReader (ε α : Type) where
  next : Source → Option (Except ε (α × Source))
  cut : ReadError → ε → Prop
  next_hashed : ∀ d t h h', next ⟨d, t, h⟩ = next ⟨d, t, h'⟩
  next_ok : ∀ s a s', next s = some (.ok (a, s')) → ∃ c, c ≠ [] ∧ s.data = c ++ s'.data ∧
    s'.tail = s.tail ∧ ∀ rest tail, next ⟨c ++ rest, tail, s.hashed⟩ = some (.ok (a, ⟨rest, tail, s'.hashed⟩))
  next_nil : ∀ h, next ⟨[], .eof, h⟩ = none
  next_cut : ∀ t h, t ≠ .eof → ∃ e, next ⟨[], t, h⟩ = some (.error e) ∧ cut t e
  next_none : ∀ s, next s = none → s.data = []

variable {ε α : Type} (R : FrameReader ε α)

def drain : ℕ → Source → List α × Option ε
  | 0, _ => ([], none)
  | n + 1, s =>
    match R.next s with
    | none => ([], none)
    | some (.error e) => ([], some e)
    | some (.ok (a, s')) => ((drain n s').1.cons a, (drain n s').2)

/-- The fuel is never used up: every frame is at least one byte long (`drain_fuel`). -/
def readAll (s : Source) : List α × Option ε := drain R (s.data.length + 1) s

theorem drain_hashed (n : ℕ) (d : Bytes) (t : ReadError) (h h' : Bytes) :
    drain R n ⟨d, t, h⟩ = drain R n ⟨d, t, h'⟩ := by
  cases n with
  | zero => rfl
  | succ n => simp only [drain, R.next_hashed d t h h']

theorem drain_fuel (n m : ℕ) (s : Source) (hn : s.data.length < n) (hm : s.data.length < m) :
    drain R n s = drain R m s := by
  induction n generalizing m s with
  | zero => omega
  | succ n ih =>
    obtain ⟨m, rfl⟩ : ∃ k, m = k + 1 := ⟨m - 1, by omega⟩
    simp only [drain]
    cases hx : R.next s with
    | none => rfl
    | some r =>
      cases r with
      | error e => rfl
      | ok r =>
        obtain ⟨a, s'⟩ := r
        obtain ⟨c, hc, hd, -, -⟩ := R.next_ok s a s' hx
        have hl : s.data.length = c.length + s'.data.length := by rw [hd, length_append]
        have hp : 0 < c.length := length_pos_of_ne_nil hc
        simp only [ih m s' (by omega) (by omega)]

theorem readAll_nil (h : Bytes) : readAll R ⟨[], .eof, h⟩ = ([], none) := by
  simp [readAll, drain, R.next_nil]

theorem readAll_hashed (d : Bytes) (t : ReadError) (h h' : Bytes) :
    readAll R ⟨d, t, h⟩ = readAll R ⟨d, t, h'⟩ := drain_hashed R _ d t h h'

theorem readAll_step {s s' : Source} {a : α} (hs : R.next s = some (.ok (a, s'))) :
    readAll R s = ((readAll R s').1.cons a, (readAll R s').2) := by
  obtain ⟨c, hc, hd, -, -⟩ := R.next_ok s a s' hs
  have hl : s.data.length = c.length + s'.data.length := by rw [hd, length_append]
  have hp : 0 < c.length := length_pos_of_ne_nil hc
  have hf := drain_fuel R s.data.length (s'.data.length + 1) s' (by omega) (by omega)
  simp only [readAll, drain, hs, hf]

theorem readAll_error {s : Source} {e : ε} (hs : R.next s = some (.error e)) : readAll R s = ([], some e) := by
  simp [readAll, drain, hs]

theorem readAll_append (d x : Bytes) (t : ReadError) (h : Bytes) (as : List α)
    (hd : readAll R ⟨d, .eof, h⟩ = (as, none)) :
    readAll R ⟨d ++ x, t, h⟩ = (as ++ (readAll R ⟨x, t, []⟩).1, (readAll R ⟨x, t, []⟩).2) := by
  induction hl : d.length using Nat.strong_induction_on generalizing d h as with
  | _ l ih =>
    cases hx : R.next ⟨d, .eof, h⟩ with
    | none =>
      have hd0 : d = [] := R.next_none _ hx
      subst hd0
      rw [readAll_nil] at hd
      cases hd
      simp [readAll_hashed R x t h []]
    | some r =>
      cases r with
      | error e => rw [readAll_error R hx] at hd; cases hd
      | ok r =>
        obtain ⟨a, s'⟩ := r
        obtain ⟨c, hc, hdc, ht, hrest⟩ := R.next_ok _ a s' hx
        obtain ⟨d', t', h'⟩ := s'
        simp only at hdc ht hrest
        subst hdc ht
        have hp : 0 < c.length := length_pos_of_ne_nil hc
        rw [readAll_step R hx] at hd
        obtain ⟨has, hn⟩ := Prod.mk.inj hd
        have hd' : readAll R ⟨d', .eof, h'⟩ = ((readAll R ⟨d', .eof, h'⟩).1, none) :=
          Prod.ext rfl hn
        have hi := ih d'.length (by rw [← hl, length_append]; omega) d' h' _ hd' rfl
        rw [append_assoc, readAll_step R (hrest (d' ++ x) t), hi, ← has]
        rfl

theorem next_tail {d d' h h' : Bytes} {t t₁ : ReadError} {a : α} (hx : R.next ⟨d, t, h⟩ = some (.ok (a, ⟨d', t₁, h'⟩)))
    (t' : ReadError) : d'.length < d.length ∧ R.next ⟨d, t', h⟩ = some (.ok (a, ⟨d', t', h'⟩)) := by
  obtain ⟨c, hc, hd, -, hrest⟩ := R.next_ok _ _ _ hx
  simp only at hd hrest
  subst hd
  have hp : 0 < c.length := length_pos_of_ne_nil hc
  exact ⟨by rw [length_append]; omega, hrest d' t'⟩

theorem readAll_stop {s : Source} (hx : ∀ a s', R.next s ≠ some (.ok (a, s'))) : (readAll R s).1 = [] := by
  rcases hn : R.next s with _ | e | ⟨a, s'⟩
  · simp [readAll, drain, hn]
  · rw [readAll_error R hn]
  · exact absurd hn (hx a s')

theorem readAll_tail (d : Bytes) (t t' : ReadError) (h : Bytes) :
    (readAll R ⟨d, t, h⟩).1 = (readAll R ⟨d, t', h⟩).1 := by
  induction hl : d.length using Nat.strong_induction_on generalizing d h with
  | _ l ih =>
    by_cases hx : ∃ a d' t₁ h', R.next ⟨d, t, h⟩ = some (.ok (a, ⟨d', t₁, h'⟩))
    · obtain ⟨a, d', t₁, h', hx⟩ := hx
      obtain ⟨hlt, hself⟩ := next_tail R hx t
      obtain ⟨-, hother⟩ := next_tail R hx t'
      rw [readAll_step R hself, readAll_step R hother, ih d'.length (hl ▸ hlt) d' h' rfl]
    · rw [readAll_stop R fun a s' h₁ => hx ⟨a, _, _, _, h₁⟩,
        readAll_stop R fun a s' h₁ => hx ⟨a, _, _, _, (next_tail R h₁ t).2⟩]

theorem readAll_forall {Q : α → Prop} (hnext : ∀ s a s', R.next s = some (.ok (a, s')) → Q a) (s : Source) :
    ∀ a ∈ (readAll R s).1, Q a := by
  have hdrain : ∀ n s, ∀ a ∈ (drain R n s).1, Q a := by
    intro n
    induction n with
    | zero => simp [drain]
    | succ n ih =>
      intro s
      unfold drain
      split
      · simp
      · simp
      · rename_i a s' hx
        exact forall_mem_cons.mpr ⟨hnext s a s' hx, ih s'⟩
  exact hdrain _ s

structure IsFrame (bs : Bytes) (a : α) : Prop where
  nonempty : bs ≠ []
  whole : ∀ rest tail h, ∃ h', R.next ⟨bs ++ rest, tail, h⟩ = some (.ok (a, ⟨rest, tail, h'⟩))
  torn : ∀ q tail h, q <+: bs → q ≠ bs → q ≠ [] → ∃ e, R.next ⟨q, tail, h⟩ = some (.error e) ∧ R.cut tail e

variable {R}

theorem readAll_frames (enc : α → Bytes) (as : List α) (has : ∀ a ∈ as, IsFrame R (enc a) a) (rest : Bytes)
    (tail : ReadError) (h : Bytes) : readAll R ⟨as.flatMap enc ++ rest, tail, h⟩ =
      (as ++ (readAll R ⟨rest, tail, []⟩).1, (readAll R ⟨rest, tail, []⟩).2) := by
  induction as generalizing h with
  | nil => simp [readAll_hashed R rest tail h []]
  | cons a as ih =>
    obtain ⟨h', hw⟩ := (has a mem_cons_self).whole (as.flatMap enc ++ rest) tail h
    rw [flatMap_cons, append_assoc, readAll_step R hw,
      ih (fun b hb => has b (mem_cons_of_mem _ hb)) h']
    rfl

theorem readAll_whole (enc : α → Bytes) (as : List α) (has : ∀ a ∈ as, IsFrame R (enc a) a) (h : Bytes) :
    readAll R ⟨as.flatMap enc, .eof, h⟩ = (as, none) := by
  have hr := readAll_frames enc as has [] .eof h
  simpa only [append_nil, readAll_nil] using hr

theorem readAll_torn {bs q : Bytes} {a : α} (hf : IsFrame R bs a) (hq : q <+: bs) (hne : q ≠ bs) (h0 : q ≠ [])
    (tail : ReadError) (h : Bytes) : ∃ e, readAll R ⟨q, tail, h⟩ = ([], some e) ∧ R.cut tail e := by
  obtain ⟨e, he, hc⟩ := hf.torn q tail h hq hne h0
  exact ⟨e, readAll_error R he, hc⟩

theorem take_flatMap (enc : α → Bytes) (as : List α) (henc : ∀ a ∈ as, enc a ≠ []) (n : ℕ)
    (hn : n ≤ (as.flatMap enc).length) : ∃ k ≤ as.length, ∃ q, (as.flatMap enc).take n = (as.take k).flatMap enc ++ q ∧
      (q = [] ∨ ∃ a ∈ as, q <+: enc a ∧ q ≠ enc a) ∧
      ∀ j, k < j → j ≤ as.length → n < ((as.take j).flatMap enc).length := by
  induction as generalizing n with
  | nil => exact ⟨0, le_refl _, [], by simp, .inl rfl, fun j hj hl => by simp at hl; omega⟩
  | cons a as ih =>
    simp only [flatMap_cons, length_append] at hn
    by_cases hl : (enc a).length ≤ n
    · obtain ⟨k, hk, q, hq, hq', hmax⟩ :=
        ih (fun b hb => henc b (mem_cons_of_mem _ hb)) (n - (enc a).length) (by omega)
      refine ⟨k + 1, by simpa using hk, q, ?_, ?_, ?_⟩
      · rw [flatMap_cons, take_append, take_of_length_le hl, hq]
        simp
      · rcases hq' with rfl | ⟨b, hb, hp⟩
        · exact .inl rfl
        · exact .inr ⟨b, mem_cons_of_mem _ hb, hp⟩
      · intro j hj hjl
        obtain ⟨i, rfl⟩ : ∃ i, j = i + 1 := ⟨j - 1, by omega⟩
        have := hmax i (by omega) (by simpa using hjl)
        simp only [take_succ_cons, flatMap_cons, length_append]
        omega
    · refine ⟨0, Nat.zero_le _, (enc a).take n, ?_, .inr ⟨a, mem_cons_self, take_prefix _ _, ?_⟩, ?_⟩
      · rw [flatMap_cons, take_append_of_le_length (by omega)]
        simp
      · intro he
        have hlen := congrArg List.length he
        rw [length_take] at hlen
        omega
      · intro j hj hjl
        obtain ⟨i, rfl⟩ : ∃ i, j = i + 1 := ⟨j - 1, by omega⟩
        simp only [take_succ_cons, flatMap_cons, length_append]
        omega

end FramedLog
