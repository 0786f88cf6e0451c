import Kdns.Lib.CompressedName
import Kdns.Wire.PackHeader

open List

namespace Kdns.Wire

open ByteStream Dns CompressedName

def dotted (ls : List Bytes) : Bytes := ls.flatMap (· ++ [dotByte])

theorem dotted_cons (l : Bytes) (ls : List Bytes) : dotted (l :: ls) = l ++ [dotByte] ++ dotted ls := flatMap_cons

theorem getElem?_of_isPrefix {p x : Bytes} {i : ℕ} {b : UInt8} (h : b :: x <+: p.drop i) : p[i]? = some b := by
  obtain ⟨s, hs⟩ := h
  have hget : (p.drop i)[0]? = some b := by rw [← hs, cons_append, getElem?_cons_zero]
  rwa [getElem?_drop, Nat.add_zero] at hget

theorem uint16At_of_isPrefix {p : Bytes} {i v : ℕ} (hv : v < 65536) (h : bigEndian 2 v <+: p.drop i) :
    (uint16At p i).toNat = v := by
  have htake : (p.drop i).take 2 = bigEndian 2 v := by
    have := prefix_iff_eq_take.mp h
    exact this.symm
  rw [uint16At, htake, ofBigEndian_bigEndian 2 v hv, UInt16.toNat_ofNat', Nat.mod_eq_of_lt hv]

theorem pointerMask_iff {n : ℕ} (hn : n < 256) : n &&& pointerMask = pointerMask ↔ 192 ≤ n := by
  have h : ∀ n < 256, n &&& pointerMask = pointerMask ↔ 192 ≤ n := by decide +kernel
  exact h n hn

theorem pointerMask_of_le {b : UInt8} (hb : 192 ≤ b.toNat) : b.toNat &&& pointerMask = pointerMask :=
  (pointerMask_iff b.toNat_lt).mpr hb

theorem bigEndian_two (b c : UInt8) : bigEndian 2 (b.toNat * 256 + c.toNat) = [b, c] := by
  have hb := b.toNat_lt
  have hc := c.toNat_lt
  have h₁ : UInt8.ofNat ((b.toNat * 256 + c.toNat) / 256 ^ 1) = b := by
    apply UInt8.toNat_inj.mp
    rw [UInt8.toNat_ofNat', Nat.pow_one]
    omega
  have h₂ : UInt8.ofNat ((b.toNat * 256 + c.toNat) / 256 ^ 0) = c := by simp
  rw [bigEndian, bigEndian, bigEndian, h₁, h₂]

theorem pointerBytes_uint16At {p : Bytes} {i : ℕ} {b : UInt8} (hi : i + 1 < p.length) (hb : p[i]? = some b)
    (hmask : 192 ≤ b.toNat) : pointerBytes ((uint16At p i).toNat &&& pointerOffsetMask) <+: p.drop i := by
  obtain ⟨hlt, heq⟩ := List.getElem?_eq_some_iff.mp hb
  have hdrop : p.drop i = b :: p[i + 1] :: p.drop (i + 2) := by rw [← heq, getElem_cons_drop, getElem_cons_drop]
  have hb' := b.toNat_lt
  have hc := p[i + 1].toNat_lt
  generalize p[i + 1] = c at hdrop hc
  have hword : (uint16At p i).toNat = b.toNat * 256 + c.toNat := by
    rw [uint16At, hdrop, UInt16.toNat_ofNat']
    simp only [take_succ_cons, take_zero, ofBigEndian, foldl_cons, foldl_nil]
    omega
  have htarget : (uint16At p i).toNat &&& pointerOffsetMask = (b.toNat * 256 + c.toNat) % 0x4000 := by
    rw [hword]
    exact Nat.and_two_pow_sub_one_eq_mod _ 14
  have hsum : 0xC000 + (b.toNat * 256 + c.toNat) % 0x4000 = b.toNat * 256 + c.toNat := by omega
  rw [htarget, pointerBytes, pointer_or (Nat.mod_lt _ (by decide)), hsum, hdrop, bigEndian_two]
  exact prefix_append [b, c] _

namespace Decompressor

variable {p : Bytes} {d : Decompressor}

theorem step_root (hj : d.jumps ≤ maxJumps) (h : [0] <+: p.drop d.offset) : d.step p = .done := by
  unfold step
  rw [if_neg (Nat.not_lt.mpr hj), getElem?_of_isPrefix h]
  rfl

theorem step_label {l : Bytes} (hj : d.jumps ≤ maxJumps) (hl : IsLabel l) (h : labelBytes l <+: p.drop d.offset)
    (hroom : d.buffer.length + l.length + 1 ≤ maxNameLen) :
    d.step p = .more ⟨d.offset + 1 + l.length, if d.jumped then d.resume else d.offset + 1 + l.length, d.jumped,
      d.buffer ++ l ++ [dotByte], d.jumps⟩ := by
  obtain ⟨hhead, hpos⟩ := hl.head
  have hle := hl.length_le
  have hmax : maxLabelLen = 63 := rfl
  have hbound := length_le_of_isPrefix_drop h (cons_ne_nil _ _)
  rw [labelBytes_length] at hbound
  have h0 : UInt8.ofNat l.length ≠ 0 := fun he => by
    rw [he] at hhead
    exact absurd hhead.symm (Nat.ne_of_gt hpos)
  have hmask : ¬ l.length &&& pointerMask = pointerMask := by
    rw [pointerMask_iff (by omega)]
    omega
  have htake : (p.drop (d.offset + 1)).take l.length = l := by
    obtain ⟨s, hs⟩ := h
    rw [← drop_drop, ← hs, labelBytes, cons_append, drop_succ_cons, drop_zero, take_left]
  unfold step
  rw [if_neg (Nat.not_lt.mpr hj), getElem?_of_isPrefix h]
  dsimp only
  rw [if_neg h0, hhead, if_neg hmask, if_neg (by omega), if_neg (by omega), if_neg (by omega), htake]

theorem step_pointer {t : ℕ} (hj : d.jumps ≤ maxJumps) (ht : t < 0x4000) (hback : t < d.offset)
    (h : pointerBytes t <+: p.drop d.offset) :
    d.step p = .more ⟨t, if d.jumped then d.resume else d.resume + 2, true, d.buffer, d.jumps + 1⟩ := by
  have hbound := length_le_of_isPrefix_drop h (cons_ne_nil _ _)
  rw [pointerBytes_length] at hbound
  have hword : (uint16At p d.offset).toNat = 0xC000 + t := by
    apply uint16At_of_isPrefix (by omega)
    rwa [← pointer_or ht]
  have htarget : (0xC000 + t) &&& pointerOffsetMask = t := by
    rw [show pointerOffsetMask = 2 ^ 14 - 1 from rfl, Nat.and_two_pow_sub_one_eq_mod]
    omega
  obtain ⟨b, x, heq, hb⟩ := pointerBytes_cons ht
  have hget : p[d.offset]? = some b := getElem?_of_isPrefix (heq ▸ h)
  have h0 : b ≠ 0 := fun he => by
    rw [he] at hb
    exact absurd hb (by decide)
  unfold step
  rw [if_neg (Nat.not_lt.mpr hj), hget]
  dsimp only
  rw [if_neg h0, if_pos (pointerMask_of_le hb), if_neg (by omega), hword, htarget, if_neg (by omega)]

theorem step_done_inv (h : d.step p = .done) : d.jumps ≤ maxJumps ∧ [0] <+: p.drop d.offset := by
  unfold step at h
  obtain ⟨hj, h⟩ := Fallible.of_ite h nofun
  refine ⟨Nat.le_of_not_lt hj, ?_⟩
  cases hoctet : p[d.offset]? with
  | none =>
    rw [hoctet] at h
    cases h
  | some octet =>
    rw [hoctet] at h
    by_cases h0 : octet = 0
    · subst h0
      obtain ⟨hlt, heq⟩ := List.getElem?_eq_some_iff.mp hoctet
      rw [← getElem_cons_drop hlt, heq]
      exact prefix_append [0] _
    · simp only [if_neg h0] at h
      split_ifs at h

theorem step_more_inv {d' : Decompressor} (h : d.step p = .more d') : d.jumps ≤ maxJumps ∧
      ((∃ t, t < 0x4000 ∧ t < d.offset ∧ pointerBytes t <+: p.drop d.offset ∧
          d' = ⟨t, if d.jumped then d.resume else d.resume + 2, true, d.buffer, d.jumps + 1⟩) ∨
        ∃ l, IsLabel l ∧ labelBytes l <+: p.drop d.offset ∧ d.buffer.length + l.length + 1 ≤ maxNameLen ∧
          d' = ⟨d.offset + 1 + l.length, if d.jumped then d.resume else d.offset + 1 + l.length, d.jumped,
            d.buffer ++ l ++ [dotByte], d.jumps⟩) := by
  unfold step at h
  obtain ⟨hj, h⟩ := Fallible.of_ite h nofun
  refine ⟨Nat.le_of_not_lt hj, ?_⟩
  cases hoctet : p[d.offset]? with
  | none =>
    rw [hoctet] at h
    cases h
  | some octet =>
    obtain ⟨hlt, heq⟩ := List.getElem?_eq_some_iff.mp hoctet
    have hdrop : p.drop d.offset = octet :: p.drop (d.offset + 1) := by rw [← heq, getElem_cons_drop]
    rw [hoctet] at h
    obtain ⟨h0, h⟩ := Fallible.of_ite h nofun
    by_cases hmask : octet.toNat &&& pointerMask = pointerMask
    · left
      rw [if_pos hmask] at h
      obtain ⟨hend, h⟩ := Fallible.of_ite h nofun
      have hword : pointerBytes ((uint16At p d.offset).toNat &&& pointerOffsetMask) <+: p.drop d.offset :=
        pointerBytes_uint16At (by omega) hoctet ((pointerMask_iff octet.toNat_lt).mp hmask)
      have hlt : (uint16At p d.offset).toNat &&& pointerOffsetMask < 0x4000 :=
        Nat.lt_of_le_of_lt Nat.and_le_right (by decide)
      generalize (uint16At p d.offset).toNat &&& pointerOffsetMask = t at h hword hlt
      obtain ⟨hback, h⟩ := Fallible.of_ite h nofun
      exact ⟨t, hlt, by omega, hword, (DecodeStep.more.inj h).symm⟩
    · right
      rw [if_neg hmask] at h
      obtain ⟨hmax, h⟩ := Fallible.of_ite h nofun
      obtain ⟨hend, h⟩ := Fallible.of_ite h nofun
      obtain ⟨hroom, h⟩ := Fallible.of_ite h nofun
      have hlen : ((p.drop (d.offset + 1)).take octet.toNat).length = octet.toNat := by
        rw [length_take, length_drop]
        omega
      have hpos : octet.toNat ≠ 0 := fun hz => h0 (UInt8.toNat_inj.mp hz)
      refine ⟨(p.drop (d.offset + 1)).take octet.toNat, ⟨?_, ?_⟩, ?_, ?_, ?_⟩
      · exact ne_nil_of_length_pos (by omega)
      · rw [hlen]
        exact Nat.le_of_not_lt hmax
      · rw [labelBytes, hlen, UInt8.ofNat_toNat, hdrop]
        exact (prefix_cons_inj octet).mpr ⟨_, take_append_drop _ _⟩
      · rw [hlen]
        omega
      · rw [hlen]
        exact (DecodeStep.more.inj h).symm

end Decompressor

section Decode

variable {p : Bytes} {lo i j next : ℕ} {ls : List Bytes}

theorem decodeFrom_of_nameAt (h : NameAt p lo i ls j next) {d : Decompressor} {fuel : ℕ} (hoffset : d.offset = i)
    (hresume : d.jumped = false → d.resume = d.offset) (hj : d.jumps + j ≤ maxJumps)
    (hlen : d.buffer.length + (dotted ls).length ≤ maxNameLen) (hfuel : d.budget < fuel) :
    decodeFrom p fuel d = .ok ((d.buffer ++ dotted ls).dropLast, if d.jumped then d.resume else next) := by
  obtain ⟨fuel, rfl⟩ : ∃ k, fuel = k + 1 := ⟨fuel - 1, by omega⟩
  induction h generalizing d fuel with
  | root hlo h =>
    subst hoffset
    rw [decodeFrom, Decompressor.step_root (by omega) h]
    cases hjumped : d.jumped with
    | true => simp [Decompressor.result, hjumped, dotted]
    | false => simp [Decompressor.result, hjumped, hresume hjumped, dotted]
  | @label i l ls j next hlo hl h rest ih =>
    subst hoffset
    rw [dotted_cons, length_append, length_append, length_singleton] at hlen
    obtain ⟨d', hd', hstep⟩ : ∃ d', d' = _ ∧ d.step p = .more d' :=
      ⟨_, rfl, Decompressor.step_label (by omega) hl h (by omega)⟩
    have hbudget := Decompressor.budget_step hstep
    obtain ⟨fuel, rfl⟩ : ∃ k, fuel = k + 1 := ⟨fuel - 1, by omega⟩
    have hbuffer : d'.buffer.length + (dotted ls).length ≤ maxNameLen := by grind
    have hresume' : d'.jumped = false → d'.resume = d'.offset := by grind
    have hrest := ih (d := d') (by rw [hd']) hresume' (by rw [hd']; exact hj) hbuffer fuel (by omega)
    rw [decodeFrom, hstep]
    refine hrest.trans ?_
    rw [hd', dotted_cons]
    simp only [append_assoc]
    cases d.jumped <;> rfl
  | @pointer i t ls j next hlo ht hback h target ih =>
    subst hoffset
    obtain ⟨d', hd', hstep⟩ : ∃ d', d' = _ ∧ d.step p = .more d' :=
      ⟨_, rfl, Decompressor.step_pointer (by omega) ht hback h⟩
    have hbudget := Decompressor.budget_step hstep
    obtain ⟨fuel, rfl⟩ : ∃ k, fuel = k + 1 := ⟨fuel - 1, by omega⟩
    have hjumps : d'.jumps + j ≤ maxJumps := by
      rw [hd']
      dsimp only
      omega
    have hrest := ih (d := d') (by rw [hd']) (by rw [hd']; intro hj; cases hj) hjumps (by rw [hd']; exact hlen) fuel (by omega)
    rw [decodeFrom, hstep]
    refine hrest.trans ?_
    rw [hd']
    cases hjumped : d.jumped with
    | true => rfl
    | false => simp [hresume hjumped]

theorem unpackDomainName_of_nameAt (h : NameAt p lo i ls j next) (hj : j ≤ maxJumps)
    (hlen : (dotted ls).length ≤ maxNameLen) : unpackDomainName p i = .ok ((dotted ls).dropLast, next) :=
  decodeFrom_of_nameAt h rfl (fun _ => rfl) (by simpa using hj) (by simpa using hlen)
    (show maxJumps + 1 - 0 + (maxNameLen - 0) < decodeFuel by decide)

theorem decodeFrom_nameAt {d : Decompressor} {fuel next : ℕ} {name : Bytes}
    (hresume : d.jumped = false → d.resume = d.offset) (hlen : d.buffer.length ≤ maxNameLen)
    (h : decodeFrom p fuel d = .ok (name, next)) : ∃ ls j end_, NameAt p 0 d.offset ls j end_ ∧ d.jumps + j ≤ maxJumps ∧
      d.buffer.length + (dotted ls).length ≤ maxNameLen ∧ name = (d.buffer ++ dotted ls).dropLast ∧
      next = if d.jumped then d.resume else end_ := by
  induction fuel generalizing d with
  | zero => cases h
  | succ fuel ih =>
    rw [decodeFrom] at h
    cases hs : d.step p with
    | failed e =>
      rw [hs] at h
      cases h
    | done =>
      rw [hs] at h
      cases h
      obtain ⟨hj, h0⟩ := Decompressor.step_done_inv hs
      refine ⟨[], 0, _, .root (Nat.zero_le _) h0, hj, hlen, by simp [dotted], ?_⟩
      cases hjumped : d.jumped with
      | true => rfl
      | false => simp [hresume hjumped]
    | more d' =>
      rw [hs] at h
      obtain ⟨hj, ⟨t, ht, hback, hp, rfl⟩ | ⟨l, hl, hp, hroom, rfl⟩⟩ := Decompressor.step_more_inv hs
      · obtain ⟨ls, j, end_, hname, hjumps, hbuf, rfl, hnext⟩ := ih (by intro hj; cases hj) (by exact hlen) h
        refine ⟨ls, j + 1, _, .pointer (Nat.zero_le _) ht hback hp hname, by dsimp only at hjumps; omega, hbuf, rfl, ?_⟩
        rw [hnext]
        cases hjumped : d.jumped with
        | true => rfl
        | false => simp [hresume hjumped]
      · have hbuffer : (d.buffer ++ l ++ [dotByte]).length ≤ maxNameLen := by
          simp only [length_append, length_singleton]
          omega
        obtain ⟨ls, j, end_, hname, hjumps, hbuf, rfl, hnext⟩ :=
          ih (fun hf => if_neg (Bool.eq_false_iff.mp hf)) hbuffer h
        refine ⟨l :: ls, j, end_, .label (Nat.zero_le _) hl hp hname, hjumps, ?_, ?_, ?_⟩
        · simp only [dotted_cons, length_append, length_singleton] at hbuf ⊢
          omega
        · simp only [dotted_cons, append_assoc]
        · rw [hnext]
          cases d.jumped <;> rfl

theorem unpackDomainName_nameAt {name : Bytes} (h : unpackDomainName p i = .ok (name, next)) :
    ∃ ls j, NameAt p 0 i ls j next ∧ j ≤ maxJumps ∧ (dotted ls).length ≤ maxNameLen ∧
      name = (dotted ls).dropLast := by
  obtain ⟨ls, j, end_, hname, hj, hlen, rfl, rfl⟩ :=
    decodeFrom_nameAt (d := ⟨i, i, false, [], 0⟩) (fun _ => rfl) (Nat.zero_le _) h
  exact ⟨ls, j, hname, by simpa using hj, by simpa using hlen, rfl⟩

end Decode

end Kdns.Wire
