import Kdns.Lib.ByteStream

/-!
Compressed domain names in a packet. `NameAt p lo i ls j next` says that at offset `i` of the packet stand the labels
`ls`, reached over `j` pointers, that the name ends before `next`, and that nothing before offset `lo` was read.
-/

namespace CompressedName

open ByteStream List

structure IsLabel (l : Bytes) : Prop where
  nonempty : l ≠ []
  length_le : l.length ≤ 63

def labelBytes (l : Bytes) : Bytes := UInt8.ofNat l.length :: l

def encodeLabels (ls : List Bytes) : Bytes := ls.flatMap labelBytes

def pointerBytes (t : ℕ) : Bytes := bigEndian 2 (0xC000 ||| t)

inductive NameAt (p : Bytes) (lo : ℕ) : ℕ → List Bytes → ℕ → ℕ → Prop
  | root {i : ℕ} (hlo : lo ≤ i) (h : [0] <+: p.drop i) : NameAt p lo i [] 0 (i + 1)
  | label {i : ℕ} {l : Bytes} {ls : List Bytes} {j next : ℕ} (hlo : lo ≤ i) (hl : IsLabel l)
      (h : labelBytes l <+: p.drop i) (rest : NameAt p lo (i + 1 + l.length) ls j next) : NameAt p lo i (l :: ls) j next
  | pointer {i t : ℕ} {ls : List Bytes} {j next : ℕ} (hlo : lo ≤ i) (ht : t < 0x4000) (hback : t < i)
      (h : pointerBytes t <+: p.drop i) (target : NameAt p lo t ls j next) : NameAt p lo i ls (j + 1) (i + 2)

theorem labelBytes_length (l : Bytes) : (labelBytes l).length = 1 + l.length := by
  rw [labelBytes, length_cons, Nat.add_comm]

theorem pointerBytes_length (t : ℕ) : (pointerBytes t).length = 2 := bigEndian_length 2 _

theorem encodeLabels_cons (l : Bytes) (ls : List Bytes) : encodeLabels (l :: ls) = labelBytes l ++ encodeLabels ls :=
  flatMap_cons

theorem encodeLabels_append (ls ls' : List Bytes) : encodeLabels (ls ++ ls') = encodeLabels ls ++ encodeLabels ls' :=
  flatMap_append

theorem isPrefix_drop_append {x p : Bytes} {i : ℕ} (h : x <+: p.drop i) (q : Bytes) : x <+: (p ++ q).drop i := by
  rw [drop_append]
  exact h.trans (prefix_append _ _)

theorem isPrefix_drop_right {x y p : Bytes} {i : ℕ} (h : x ++ y <+: p.drop i) : y <+: p.drop (i + x.length) := by
  obtain ⟨post, hpost⟩ := h
  rw [append_assoc] at hpost
  refine ⟨post, ?_⟩
  rw [← drop_drop, ← hpost, drop_left]

theorem length_le_of_isPrefix_drop {x p : Bytes} {i : ℕ} (h : x <+: p.drop i) (hx : x ≠ []) :
    i + x.length ≤ p.length := by
  have hle := h.length_le
  have hpos := length_pos_of_ne_nil hx
  rw [length_drop] at hle
  omega

variable {p : Bytes} {lo i j next : ℕ} {ls : List Bytes}

theorem NameAt.append (h : NameAt p lo i ls j next) (q : Bytes) : NameAt (p ++ q) lo i ls j next := by
  induction h with
  | root hlo h => exact .root hlo (isPrefix_drop_append h q)
  | label hlo hl h _ ih => exact .label hlo hl (isPrefix_drop_append h q) ih
  | pointer hlo ht hback h _ ih => exact .pointer hlo ht hback (isPrefix_drop_append h q) ih

theorem NameAt.mono (h : NameAt p lo i ls j next) {lo' : ℕ} (hle : lo' ≤ lo) : NameAt p lo' i ls j next := by
  induction h with
  | root hlo h => exact .root (hle.trans hlo) h
  | label hlo hl h _ ih => exact .label (hle.trans hlo) hl h ih
  | pointer hlo ht hback h _ ih => exact .pointer (hle.trans hlo) ht hback h ih

theorem drop_congr {p p' : Bytes} {lo i : ℕ} (h : p.drop lo = p'.drop lo) (hi : lo ≤ i) : p.drop i = p'.drop i := by
  obtain ⟨k, rfl⟩ := Nat.exists_eq_add_of_le hi
  rw [← drop_drop, ← drop_drop, h]

section

variable (h : NameAt p lo i ls j next)
include h

theorem NameAt.congr {p' : Bytes} (hp : p.drop lo = p'.drop lo) :
    NameAt p' lo i ls j next := by
  induction h with
  | root hlo h => exact .root hlo (drop_congr hp hlo ▸ h)
  | label hlo hl h _ ih => exact .label hlo hl (drop_congr hp hlo ▸ h) ih
  | pointer hlo ht hback h _ ih => exact .pointer hlo ht hback (drop_congr hp hlo ▸ h) ih

theorem NameAt.bounds : i < next ∧ next ≤ p.length := by
  induction h with
  | root hlo h => exact ⟨Nat.lt_succ_self _, length_le_of_isPrefix_drop h (cons_ne_nil _ _)⟩
  | label hlo hl h _ ih => exact ⟨by omega, ih.2⟩
  | pointer hlo ht hback h _ ih =>
    have hle := length_le_of_isPrefix_drop h (cons_ne_nil _ _)
    exact ⟨by omega, hle⟩

theorem NameAt.labels : ∀ l ∈ ls, IsLabel l := by
  induction h with
  | root => exact nofun
  | label _ hl _ _ ih => exact forall_mem_cons.mpr ⟨hl, ih⟩
  | pointer _ _ _ _ _ ih => exact ih

end

theorem NameAt.encode {front : List Bytes} (hlo : lo ≤ i) (hfront : ∀ l ∈ front, IsLabel l)
    (h : encodeLabels front <+: p.drop i) (rest : NameAt p lo (i + (encodeLabels front).length) ls j next) :
    NameAt p lo i (front ++ ls) j next := by
  induction front generalizing i with
  | nil => exact rest
  | cons l front ih =>
    rw [encodeLabels_cons] at h rest
    obtain ⟨post, hpost⟩ := h
    rw [append_assoc] at hpost
    refine .label hlo (hfront l mem_cons_self) ⟨_, hpost⟩ ?_
    apply ih (by omega) fun l' hl' => hfront l' (mem_cons_of_mem l hl')
    · refine ⟨post, ?_⟩
      rw [Nat.add_assoc, ← drop_drop, ← hpost, ← labelBytes_length, drop_left]
    · rw [length_append, labelBytes_length] at rest
      rwa [Nat.add_assoc i, Nat.add_assoc]

theorem pointer_or {t : ℕ} (ht : t < 0x4000) : 0xC000 ||| t = 0xC000 + t :=
  (Nat.two_pow_add_eq_or_of_lt (i := 14) ht 3).symm

theorem pointerBytes_inj {t t' : ℕ} (ht : t < 0x4000) (ht' : t' < 0x4000) (h : pointerBytes t = pointerBytes t') :
    t = t' := by
  have hv := congrArg ofBigEndian h
  rw [pointerBytes, pointerBytes, pointer_or ht, pointer_or ht', ofBigEndian_bigEndian _ _ (by omega),
    ofBigEndian_bigEndian _ _ (by omega)] at hv
  omega

theorem IsLabel.head {l : Bytes} (h : IsLabel l) : (UInt8.ofNat l.length).toNat = l.length ∧ 0 < l.length := by
  have hle := h.length_le
  refine ⟨?_, length_pos_of_ne_nil h.nonempty⟩
  rw [UInt8.toNat_ofNat']
  omega

theorem pointerBytes_cons {t : ℕ} (ht : t < 0x4000) : ∃ b x, pointerBytes t = b :: x ∧ 192 ≤ b.toNat := by
  refine ⟨_, _, rfl, ?_⟩
  rw [pointer_or ht, UInt8.toNat_ofNat', Nat.pow_one]
  omega

theorem first_of_isPrefix {b b' : UInt8} {x x' p : Bytes} {i : ℕ} (h : b :: x <+: p.drop i) (h' : b' :: x' <+: p.drop i) :
    b = b' := by
  obtain ⟨s, hs⟩ := h
  obtain ⟨s', hs'⟩ := h'
  exact (List.cons.inj (hs.trans hs'.symm)).1

theorem eq_of_isPrefix {x y p : Bytes} {i : ℕ} (hx : x <+: p.drop i) (hy : y <+: p.drop i)
    (h : x.length = y.length) : x = y :=
  (prefix_of_prefix_length_le hx hy h.le).eq_of_length h

theorem label_unique {l l' : Bytes} (hl : IsLabel l) (hl' : IsLabel l') (h : labelBytes l <+: p.drop i)
    (h' : labelBytes l' <+: p.drop i) : l = l' := by
  have hfirst := congrArg UInt8.toNat (first_of_isPrefix h h')
  rw [hl.head.1, hl'.head.1] at hfirst
  have heq := eq_of_isPrefix h h' (by rw [labelBytes_length, labelBytes_length, hfirst])
  exact (List.cons.inj heq).2

theorem label_not_root {l : Bytes} (hl : IsLabel l) (h : labelBytes l <+: p.drop i) : ¬ [0] <+: p.drop i := by
  intro h'
  have hfirst := congrArg UInt8.toNat (first_of_isPrefix h h')
  rw [hl.head.1] at hfirst
  exact absurd hfirst (Nat.ne_of_gt hl.head.2)

theorem label_not_pointer {l : Bytes} {t : ℕ} (hl : IsLabel l) (ht : t < 0x4000) (h : labelBytes l <+: p.drop i) :
    ¬ pointerBytes t <+: p.drop i := by
  intro h'
  obtain ⟨b, x, heq, hb⟩ := pointerBytes_cons ht
  rw [heq] at h'
  have hfirst := congrArg UInt8.toNat (first_of_isPrefix h h')
  rw [hl.head.1] at hfirst
  have hle := hl.length_le
  omega

theorem pointer_not_root {t : ℕ} (ht : t < 0x4000) (h : pointerBytes t <+: p.drop i) : ¬ [0] <+: p.drop i := by
  intro h'
  obtain ⟨b, x, heq, hb⟩ := pointerBytes_cons ht
  rw [heq] at h
  rw [first_of_isPrefix h h'] at hb
  exact absurd hb (by decide)

theorem NameAt.unique (h : NameAt p lo i ls j next) {lo' j' next' : ℕ} {ls' : List Bytes}
    (h' : NameAt p lo' i ls' j' next') : ls = ls' ∧ j = j' ∧ next = next' := by
  induction h generalizing lo' j' next' ls' with
  | root _ h =>
    cases h' with
    | root => exact ⟨rfl, rfl, rfl⟩
    | label _ hl h' _ => exact absurd h (label_not_root hl h')
    | pointer _ ht _ h' _ => exact absurd h (pointer_not_root ht h')
  | label _ hl h _ ih =>
    cases h' with
    | root _ h' => exact absurd h' (label_not_root hl h)
    | label _ hl' h' rest =>
      obtain rfl := label_unique hl hl' h h'
      obtain ⟨rfl, rfl, rfl⟩ := ih rest
      exact ⟨rfl, rfl, rfl⟩
    | pointer _ ht _ h' _ => exact absurd h' (label_not_pointer hl ht h)
  | pointer _ ht _ h _ ih =>
    cases h' with
    | root _ h' => exact absurd h' (pointer_not_root ht h)
    | label _ hl h' _ => exact absurd h (label_not_pointer hl ht h')
    | pointer _ ht' _ h' target =>
      have heq := eq_of_isPrefix h h' (by rw [pointerBytes_length, pointerBytes_length])
      obtain rfl := pointerBytes_inj ht ht' heq
      obtain ⟨rfl, rfl, -⟩ := ih target
      exact ⟨rfl, rfl, rfl⟩

theorem NameAt.encode_inv {front : List Bytes} (hfront : ∀ l ∈ front, IsLabel l) (hp : encodeLabels front <+: p.drop i)
    (h : NameAt p lo i ls j next) :
    ∃ back, ls = front ++ back ∧ NameAt p lo (i + (encodeLabels front).length) back j next := by
  induction front generalizing i ls with
  | nil => exact ⟨ls, rfl, h⟩
  | cons l front ih =>
    have hl := hfront l mem_cons_self
    rw [encodeLabels_cons] at hp ⊢
    obtain ⟨post, hpost⟩ := hp
    rw [append_assoc] at hpost
    have hlabel : labelBytes l <+: p.drop i := ⟨_, hpost⟩
    cases h with
    | root _ h => exact absurd h (label_not_root hl hlabel)
    | pointer _ ht _ h _ => exact absurd h (label_not_pointer hl ht hlabel)
    | label _ hl' h rest =>
      obtain rfl := label_unique hl hl' hlabel h
      have hnext : encodeLabels front <+: p.drop (i + 1 + l.length) := by
        refine ⟨post, ?_⟩
        rw [Nat.add_assoc, ← drop_drop, ← hpost, ← labelBytes_length, drop_left]
      obtain ⟨back, rfl, hback⟩ := ih (fun l' hl' => hfront l' (mem_cons_of_mem l hl')) hnext rest
      refine ⟨back, rfl, ?_⟩
      rwa [length_append, labelBytes_length, ← Nat.add_assoc, ← Nat.add_assoc]

theorem NameAt.pointer_inv {t : ℕ} (ht : t < 0x4000) (hp : pointerBytes t <+: p.drop i) (h : NameAt p lo i ls j next) :
    ∃ j' next', j = j' + 1 ∧ next = i + 2 ∧ t < i ∧ NameAt p lo t ls j' next' := by
  cases h with
  | root _ h => exact absurd h (pointer_not_root ht hp)
  | label _ hl h _ => exact absurd hp (label_not_pointer hl ht h)
  | pointer _ ht' hback h target =>
    have heq := eq_of_isPrefix hp h (by rw [pointerBytes_length, pointerBytes_length])
    obtain rfl := pointerBytes_inj ht ht' heq
    exact ⟨_, _, rfl, rfl, hback, target⟩

theorem NameAt.front (h : NameAt p lo i ls j next) : ∃ front back, ls = front ++ back ∧ (∀ l ∈ front, IsLabel l) ∧
      (encodeLabels front ++ [0] <+: p.drop i ∧ back = [] ∧ next = i + (encodeLabels front).length + 1 ∨
        ∃ t j' next', encodeLabels front ++ pointerBytes t <+: p.drop i ∧ t < 0x4000 ∧
          next = i + (encodeLabels front).length + 2 ∧ NameAt p lo t back j' next') := by
  induction h with
  | root _ h => exact ⟨[], [], rfl, forall_mem_nil _, .inl ⟨h, rfl, rfl⟩⟩
  | pointer _ ht _ h target => exact ⟨[], _, rfl, forall_mem_nil _, .inr ⟨_, _, _, h, ht, rfl, target⟩⟩
  | @label i l ls j next _ hl h _ ih =>
    obtain ⟨front, back, rfl, hfront, hclosed⟩ := ih
    have hlonger : ∀ x, encodeLabels front ++ x <+: p.drop (i + 1 + l.length) → encodeLabels (l :: front) ++ x <+: p.drop i := by
      rintro x ⟨post, hpost⟩
      obtain ⟨s, hs⟩ := h
      have hafter : p.drop (i + 1 + l.length) = s := by
        rw [Nat.add_assoc, ← drop_drop, ← hs, ← labelBytes_length, drop_left]
      refine ⟨post, ?_⟩
      rw [encodeLabels_cons, append_assoc, append_assoc, ← append_assoc (encodeLabels front), hpost, hafter, hs]
    have hlength : i + (encodeLabels (l :: front)).length = i + 1 + l.length + (encodeLabels front).length := by
      rw [encodeLabels_cons, length_append, labelBytes_length]
      omega
    refine ⟨l :: front, back, rfl, forall_mem_cons.mpr ⟨hl, hfront⟩, ?_⟩
    rw [hlength]
    rcases hclosed with ⟨hroot, hback, hnext⟩ | ⟨t, j', next', hp, ht, hnext, htarget⟩
    · exact .inl ⟨hlonger _ hroot, hback, hnext⟩
    · exact .inr ⟨t, j', next', hlonger _ hp, ht, hnext, htarget⟩

end CompressedName
