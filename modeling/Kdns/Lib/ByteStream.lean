import Mathlib.Data.List.Basic
import Mathlib.Tactic.Ring

/-!
Byte streams that end with an error, and parsers over them. `Reads p bs hs a` says that `p` decodes
`bs` as `a` whatever follows, and that on every proper prefix of `bs` it reports the end of the stream.
-/

namespace ByteStream

open List

abbrev Bytes := List UInt8

def bigEndian : ℕ → ℕ → Bytes
  | 0, _ => []
  | k + 1, n => UInt8.ofNat (n / 256 ^ k) :: bigEndian k n

def ofBigEndian (bs : Bytes) : ℕ := bs.foldl (fun n b => n * 256 + b.toNat) 0

@[simp] theorem bigEndian_length (k n : ℕ) : (bigEndian k n).length = k := by
  induction k with
  | zero => rfl
  | succ k ih => simp [bigEndian, ih]

theorem foldl_bigEndian (k n acc : ℕ) :
    (bigEndian k n).foldl (fun n b => n * 256 + b.toNat) acc = acc * 256 ^ k + n % 256 ^ k := by
  induction k generalizing acc with
  | zero => simp [bigEndian, Nat.mod_one]
  | succ k ih =>
    simp only [bigEndian, foldl_cons, ih, UInt8.toNat_ofNat', Nat.reducePow]
    rw [pow_succ 256 k, Nat.mod_mul]
    ring

theorem ofBigEndian_bigEndian (k n : ℕ) (h : n < 256 ^ k) : ofBigEndian (bigEndian k n) = n := by
  simp [ofBigEndian, foldl_bigEndian, Nat.mod_eq_of_lt h]

theorem foldl_ofBigEndian (bs : Bytes) (acc : ℕ) :
    bs.foldl (fun n b => n * 256 + b.toNat) acc = acc * 256 ^ bs.length + ofBigEndian bs := by
  induction bs generalizing acc with
  | nil => simp [ofBigEndian]
  | cons b bs ih =>
    rw [ofBigEndian, foldl_cons, foldl_cons, ih, ih (0 * 256 + b.toNat), length_cons, pow_succ]
    ring

theorem ofBigEndian_append (bs cs : Bytes) :
    ofBigEndian (bs ++ cs) = ofBigEndian bs * 256 ^ cs.length + ofBigEndian cs := by
  rw [ofBigEndian, foldl_append, foldl_ofBigEndian]
  rfl

theorem ofBigEndian_lt (bs : Bytes) : ofBigEndian bs < 256 ^ bs.length := by
  induction bs with
  | nil => decide
  | cons b bs ih =>
    have hcons : ofBigEndian (b :: bs) = b.toNat * 256 ^ bs.length + ofBigEndian bs := by
      rw [ofBigEndian, foldl_cons, foldl_ofBigEndian, Nat.zero_mul, Nat.zero_add]
    calc ofBigEndian (b :: bs) < (b.toNat + 1) * 256 ^ bs.length := by rw [hcons, Nat.add_mul, Nat.one_mul]; omega
      _ ≤ 256 * 256 ^ bs.length := Nat.mul_le_mul_right _ b.toNat_lt
      _ = 256 ^ (b :: bs).length := by rw [length_cons, pow_succ, Nat.mul_comm]

theorem bigEndian_ofBigEndian_add (bs : Bytes) (a : ℕ) : bigEndian bs.length (a * 256 ^ bs.length + ofBigEndian bs) = bs := by
  induction bs generalizing a with
  | nil => rfl
  | cons b bs ih =>
    have hlt := ofBigEndian_lt bs
    have hvalue : a * 256 ^ (b :: bs).length + ofBigEndian (b :: bs) = (a * 256 + b.toNat) * 256 ^ bs.length + ofBigEndian bs := by
      rw [ofBigEndian, foldl_cons, foldl_ofBigEndian, length_cons, pow_succ]
      ring
    have hdiv : ((a * 256 + b.toNat) * 256 ^ bs.length + ofBigEndian bs) / 256 ^ bs.length = a * 256 + b.toNat := by
      rw [Nat.mul_comm, Nat.mul_add_div (Nat.pow_pos (by decide)), Nat.div_eq_of_lt hlt, Nat.add_zero]
    have hbyte : UInt8.ofNat (a * 256 + b.toNat) = b := by
      apply UInt8.toNat_inj.mp
      have hb := b.toNat_lt
      rw [UInt8.toNat_ofNat']
      omega
    rw [hvalue, length_cons, bigEndian, hdiv, hbyte, ih]

theorem bigEndian_ofBigEndian (bs : Bytes) : bigEndian bs.length (ofBigEndian bs) = bs := by
  have heq := bigEndian_ofBigEndian_add bs 0
  rwa [Nat.zero_mul, Nat.zero_add] at heq

def crcBit (c : UInt32) : UInt32 :=
  if c &&& 1 = 1 then (c >>> 1) ^^^ 0xEDB88320 else c >>> 1

def crcByte (c : UInt32) (b : UInt8) : UInt32 := crcBit^[8] (c ^^^ b.toUInt32)

def crc32 (bs : Bytes) : UInt32 := bs.foldl crcByte 0xFFFFFFFF ^^^ 0xFFFFFFFF

example : crc32 [0x31, 0x32, 0x33, 0x34, 0x35, 0x36, 0x37, 0x38, 0x39] = 0xCBF43926 := by decide +kernel

inductive ReadError where
  | eof
  | unexpectedEof
  | other (code : ℕ)
  deriving DecidableEq, Repr

structure Source where
  data : Bytes
  tail : ReadError
  hashed : Bytes
  deriving DecidableEq, Repr

abbrev Parser (ε α : Type) := StateT Source (Except ε) α

def shortError (s : Source) : ReadError :=
  if s.tail = .eof ∧ s.data ≠ [] then .unexpectedEof else s.tail

def readFull (n : ℕ) : Parser ReadError Bytes := fun s =>
  if n ≤ s.data.length then .ok (s.data.take n, { s with data := s.data.drop n })
  else .error (shortError s)

def feed {ε : Type} (bs : Bytes) : Parser ε Unit := fun s => .ok ((), { s with hashed := s.hashed ++ bs })

def failIf {ε : Type} (c : Prop) [Decidable c] (e : ε) : Parser ε Unit := if c then throw e else pure ()

def wrapError {ε ε' α : Type} (f : ε → ε') (p : Parser ε α) : Parser ε' α := fun s =>
  match p s with
  | .ok r => .ok r
  | .error e => .error (f e)

def readMany {ε α : Type} (p : Parser ε α) : ℕ → Parser ε (List α)
  | 0 => pure []
  | n + 1 => do
    let a ← p
    let as ← readMany p n
    return a :: as

def IsEnd (tail e : ReadError) : Prop := e = tail ∨ tail = .eof ∧ e = .unexpectedEof

theorem shortError_isEnd (s : Source) : IsEnd s.tail (shortError s) := by
  unfold shortError IsEnd
  split_ifs with h
  · exact .inr ⟨h.1, rfl⟩
  · exact .inl rfl

def Reads {ε α : Type} (cut : ReadError → ε → Prop) (p : Parser ε α) (bs hs : Bytes) (a : α) : Prop :=
  (∀ rest tail h, p ⟨bs ++ rest, tail, h⟩ = .ok (a, ⟨rest, tail, h ++ hs⟩)) ∧
  ∀ q tail h, q <+: bs → q ≠ bs → ∃ e, p ⟨q, tail, h⟩ = .error e ∧ cut tail e

variable {ε ε' α β : Type} {cut : ReadError → ε → Prop} {q bs cs hs : Bytes}

theorem bind_ok (p : Parser ε α) (f : α → Parser ε β) (s s' : Source) (a : α)
    (h : p s = .ok (a, s')) : (p >>= f) s = f a s' := by
  change (p s).bind _ = _
  rw [h]; rfl

theorem bind_error (p : Parser ε α) (f : α → Parser ε β) (s : Source) (e : ε)
    (h : p s = .error e) : (p >>= f) s = .error e := by
  change (p s).bind _ = _
  rw [h]; rfl

theorem proper_prefix_append (h : q <+: bs ++ cs) (hne : q ≠ bs ++ cs) :
    (q <+: bs ∧ q ≠ bs) ∨ ∃ q', q = bs ++ q' ∧ q' <+: cs ∧ q' ≠ cs := by
  rcases prefix_or_prefix_of_prefix h (prefix_append bs cs) with hq | hb
  · by_cases he : q = bs
    · subst he
      exact .inr ⟨[], by simp, nil_prefix, fun hc => hne (by simp [← hc])⟩
    · exact .inl ⟨hq, he⟩
  · obtain ⟨q', rfl⟩ := hb
    refine .inr ⟨q', rfl, ?_, fun hc => hne (by rw [hc])⟩
    exact (prefix_append_right_inj bs).mp h

theorem proper_prefix_mid (pre post : Bytes) (hq : q <+: bs) (hne : q ≠ bs) :
    pre ++ q <+: pre ++ (bs ++ post) ∧ pre ++ q ≠ pre ++ (bs ++ post) := by
  have hlt : q.length < bs.length := lt_of_le_of_ne hq.length_le fun h => hne (hq.eq_of_length h)
  refine ⟨(prefix_append_right_inj pre).mpr (hq.trans (prefix_append bs post)), fun h => ?_⟩
  have := congrArg List.length h
  simp only [length_append] at this
  omega

theorem reads_pure (a : α) : Reads cut (pure a) [] [] a := by
  refine ⟨fun rest tail h => ?_, fun q tail h hq hne => ?_⟩
  · change Except.ok _ = _
    simp
  · exact absurd (prefix_nil.mp hq) hne

theorem reads_bind {p : Parser ε α} {f : α → Parser ε β} {gs : Bytes} {a : α} {b : β} (hp : Reads cut p bs hs a)
    (hf : Reads cut (f a) cs gs b) : Reads cut (p >>= f) (bs ++ cs) (hs ++ gs) b := by
  refine ⟨fun rest tail h => ?_, fun q tail h hq hne => ?_⟩
  · rw [append_assoc, bind_ok p f _ _ a (hp.1 _ _ _), hf.1, append_assoc]
  · rcases proper_prefix_append hq hne with ⟨hb, hb'⟩ | ⟨q', rfl, hc, hc'⟩
    · obtain ⟨e, he, hc⟩ := hp.2 q tail h hb hb'
      exact ⟨e, bind_error p f _ e he, hc⟩
    · rw [bind_ok p f _ _ a (hp.1 _ _ _)]
      exact hf.2 q' tail _ hc hc'

theorem reads_map {p : Parser ε α} {a : α} (hp : Reads cut p bs hs a) (f : α → β) :
    Reads cut (p >>= fun x => pure (f x)) bs hs (f a) := by
  have h : Reads cut (p >>= fun x => pure (f x)) (bs ++ []) (hs ++ []) (f a) := reads_bind hp (reads_pure (f a))
  rwa [append_nil, append_nil] at h

theorem reads_failIf {c : Prop} [Decidable c] {e : ε} {f : Unit → Parser ε α} {a : α} (hc : ¬ c)
    (hf : Reads cut (f ()) bs hs a) : Reads cut (failIf c e >>= f) bs hs a := by
  rw [failIf, if_neg hc]
  exact reads_bind (reads_pure ()) hf

theorem reads_feed {f : Unit → Parser ε α} {a : α}
    (hf : Reads cut (f ()) cs hs a) : Reads cut (feed bs >>= f) cs (bs ++ hs) a := by
  refine reads_bind (show Reads cut (feed bs) [] bs () from ⟨fun rest tail h => rfl, fun q tail h hq hne => ?_⟩) hf
  exact absurd (prefix_nil.mp hq) hne

theorem reads_wrapError {p : Parser ε α} {f : ε → ε'} {cut' : ReadError → ε' → Prop} {a : α} (hp : Reads cut p bs hs a)
    (hw : ∀ tail e, cut tail e → cut' tail (f e)) : Reads cut' (wrapError f p) bs hs a := by
  refine ⟨fun rest tail h => by simp [wrapError, hp.1], fun q tail h hq hne => ?_⟩
  obtain ⟨e, he, hc⟩ := hp.2 q tail h hq hne
  exact ⟨f e, by simp [wrapError, he], hw tail e hc⟩

theorem reads_readFull (bs : Bytes) : Reads IsEnd (readFull bs.length) bs [] bs := by
  refine ⟨fun rest tail h => by simp [readFull], fun q tail h hq hne => ?_⟩
  have hl : q.length < bs.length := by
    refine lt_of_le_of_ne hq.length_le fun he => hne (hq.eq_of_length he)
  exact ⟨shortError ⟨q, tail, h⟩, by simp [readFull, hl], shortError_isEnd _⟩

theorem reads_readMany {p : Parser ε α} {enc : α → Bytes} (as : List α) (hp : ∀ a ∈ as, Reads cut p (enc a) (enc a) a) :
    Reads cut (readMany p as.length) (as.flatMap enc) (as.flatMap enc) as := by
  induction as with
  | nil => exact reads_pure []
  | cons a as ih =>
    have ht := ih fun b hb => hp b (mem_cons_of_mem _ hb)
    exact reads_bind (hp a mem_cons_self) (reads_map ht (List.cons a))

def Streaming (p : Parser ε α) : Prop := ∀ s a s', p s = .ok (a, s') →
  ∃ c, s.data = c ++ s'.data ∧ s'.tail = s.tail ∧
    ∀ rest tail, p ⟨c ++ rest, tail, s.hashed⟩ = .ok (a, ⟨rest, tail, s'.hashed⟩)

theorem streaming_pure (a : α) : Streaming (pure a : Parser ε α) := by
  intro s b s' h
  cases h
  exact ⟨[], rfl, rfl, fun rest tail => rfl⟩

theorem streaming_throw (e : ε) : Streaming (throw e : Parser ε α) := by
  intro s a s' h
  cases h

theorem streaming_feed (bs : Bytes) : Streaming (feed bs : Parser ε Unit) := by
  intro s a s' h
  cases h
  exact ⟨[], rfl, rfl, fun rest tail => rfl⟩

theorem streaming_readFull (n : ℕ) : Streaming (readFull n) := by
  intro s a s' h
  unfold readFull at h
  split_ifs at h with hn
  cases h
  refine ⟨s.data.take n, (take_append_drop n s.data).symm, rfl, fun rest tail => ?_⟩
  have hl : (s.data.take n).length = n := length_take_of_le hn
  simp only [readFull, length_append, hl]
  rw [if_pos (by omega), take_left' hl, drop_left' hl]

theorem streaming_wrapError {p : Parser ε α} (f : ε → ε') (hp : Streaming p) : Streaming (wrapError f p) := by
  intro s a s' h
  unfold wrapError at h
  split at h
  · rename_i r hr
    cases h
    obtain ⟨c, hc, ht, hx⟩ := hp s a s' hr
    exact ⟨c, hc, ht, fun rest tail => by simp [wrapError, hx]⟩
  · cases h

theorem streaming_bind {p : Parser ε α} {f : α → Parser ε β} (hp : Streaming p)
    (hf : ∀ a, Streaming (f a)) : Streaming (p >>= f) := by
  intro s b s' h
  cases hs : p s with
  | error e => rw [bind_error p f s e hs] at h; cases h
  | ok r =>
    obtain ⟨a, s₁⟩ := r
    rw [bind_ok p f s s₁ a hs] at h
    obtain ⟨c, hc, ht, hx⟩ := hp s a s₁ hs
    obtain ⟨c', hc', ht', hx'⟩ := hf a s₁ b s' h
    refine ⟨c ++ c', by rw [hc, hc', append_assoc], ht'.trans ht, fun rest tail => ?_⟩
    rw [append_assoc, bind_ok p f _ _ a (hx _ tail)]
    exact hx' rest tail

theorem streaming_failIf {c : Prop} [Decidable c] (e : ε) : Streaming (failIf c e) := by
  unfold failIf
  split_ifs
  · exact streaming_throw e
  · exact streaming_pure ()

theorem streaming_readMany {p : Parser ε α} (hp : Streaming p) (n : ℕ) : Streaming (readMany p n) := by
  induction n with
  | zero => exact streaming_pure _
  | succ n ih => exact streaming_bind hp fun a => streaming_bind ih fun as => streaming_pure _

def Yields (p : Parser ε α) (Q : α → Prop) : Prop := ∀ s a s', p s = .ok (a, s') → Q a

theorem yields_pure {a : α} {Q : α → Prop} (h : Q a) : Yields (pure a : Parser ε α) Q := by
  intro s b s' hb
  cases hb
  exact h

theorem yields_true (p : Parser ε α) : Yields p fun _ => True := fun _ _ _ _ => trivial

theorem yields_bind {p : Parser ε α} {f : α → Parser ε β} {R : α → Prop} {Q : β → Prop} (hp : Yields p R)
    (hf : ∀ a, R a → Yields (f a) Q) : Yields (p >>= f) Q := by
  intro s b s' hb
  cases hr : p s with
  | error e => rw [bind_error p f s e hr] at hb; cases hb
  | ok r =>
    rw [bind_ok p f s r.2 r.1 hr] at hb
    exact hf r.1 (hp s r.1 r.2 hr) _ _ _ hb

theorem yields_failIf {c : Prop} [Decidable c] (e : ε) : Yields (failIf c e) fun _ => ¬ c := by
  intro s a s' h
  unfold failIf at h
  split_ifs at h with hc
  · cases h
  · exact hc

theorem yields_wrapError {ε' : Type} {p : Parser ε α} {Q : α → Prop} (f : ε → ε') (hp : Yields p Q) :
    Yields (wrapError f p) Q := by
  intro s a s' h
  unfold wrapError at h
  split at h
  · rename_i r hr
    cases h
    exact hp s a s' hr
  · cases h

theorem yields_readFull (n : ℕ) : Yields (readFull n) fun bs => bs.length = n := by
  intro s a s' h
  unfold readFull at h
  split_ifs at h with hn
  cases h
  simpa using hn

theorem yields_readMany {p : Parser ε α} {Q : α → Prop} (hp : Yields p Q) (n : ℕ) :
    Yields (readMany p n) fun as => as.length = n ∧ ∀ a ∈ as, Q a := by
  induction n with
  | zero => exact yields_pure (by simp)
  | succ n ih =>
    refine yields_bind hp fun a ha => yields_bind ih fun as has => yields_pure ⟨?_, ?_⟩
    · rw [length_cons, has.1]
    · exact forall_mem_cons.mpr ⟨ha, has.2⟩

end ByteStream
