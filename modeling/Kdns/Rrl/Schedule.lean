import Kdns.Rrl.Limiter
import Mathlib.Data.List.Chain
import Mathlib.Data.List.Count
import Mathlib.Data.Set.Defs
import Mathlib.Tactic.SplitIfs

namespace Kdns.Rrl

open ByteStream Dns List

section Keys

inductive Subnet where
  | v4 (network : UInt32)
  | v6 (hi lo : UInt64)
  deriving DecidableEq, Repr

def Subnet.hash : Subnet → UInt64
  | .v4 network => network.toUInt64
  | .v6 hi lo => hi ^^^ lo

structure Key where
  subnet : Subnet
  rclass : ResponseClass
  name : Bytes
  deriving DecidableEq, Repr

def Key.hash (κ : Key) : UInt64 :=
  let h := ((0x517cc1b727220a95 ^^^ κ.subnet.hash) ^^^ κ.rclass.code) * 0xbf58476d1ce4e5b9
  let h := κ.name.foldl (fun h c => (h ^^^ c.toUInt64) * 0x94d049bb133111eb) h
  h ^^^ (h >>> 32)

variable (cfg : Settings)

def subnetOf (ip : Address) : Option Subnet :=
  match ip.unmap with
  | .invalid => none
  | .v4 octets => some (.v4 (octets &&& mask32 cfg.ipv4Prefix))
  | .v6 hi lo =>
    if cfg.ipv6Prefix ≤ 64 then some (.v6 (hi &&& mask64 (64 - cfg.ipv6Prefix)) 0)
    else some (.v6 hi (lo &&& mask64 (128 - cfg.ipv6Prefix)))

def keyOf (c : Check) : Option Key :=
  (subnetOf cfg c.clientIP).map fun subnet =>
    ⟨subnet, classifyRCode c.rCode, if classifyRCode c.rCode = .positive then c.domain.map GoStrings.lowerASCII else []⟩

variable {cfg} {c : Check} {κ : Key}

theorem hashSubnet_eq {ip : Address} {subnet : Subnet} (h : subnetOf cfg ip = some subnet) : hashSubnet cfg ip = subnet.hash := by
  rw [subnetOf] at h
  rw [hashSubnet]
  cases hip : ip.unmap with
  | invalid =>
    rw [hip] at h
    cases h
  | v4 octets =>
    rw [hip] at h
    cases h
    rfl
  | v6 hi lo =>
    rw [hip] at h
    split_ifs at h ⊢
    · obtain rfl := Option.some.inj h
      exact UInt64.xor_zero.symm
    · obtain rfl := Option.some.inj h
      rfl

theorem hashKey_eq (h : keyOf cfg c = some κ) :
    hashKey cfg c.clientIP (classifyRCode c.rCode) c.domain = κ.hash ∧ classifyRCode c.rCode = κ.rclass := by
  obtain ⟨subnet, hsubnet, rfl⟩ := Option.map_eq_some_iff.mp h
  refine ⟨?_, rfl⟩
  rw [hashKey, hashSubnet_eq hsubnet, Key.hash]
  split_ifs
  · rw [foldl_map]
    rfl
  · rfl

theorem valid_of_key (h : keyOf cfg c = some κ) : c.clientIP ≠ .invalid := by
  intro hip
  rw [keyOf, hip] at h
  cases h

theorem unmap_ne_invalid {ip : Address} (h : ip ≠ .invalid) : ip.unmap ≠ .invalid := by
  cases ip with
  | invalid => exact absurd rfl h
  | v4 octets => exact h
  | v6 hi lo =>
    rw [Address.unmap]
    split_ifs
    · intro hno
      cases hno
    · exact h

theorem exists_key (cfg : Settings) (h : c.clientIP ≠ .invalid) : ∃ κ, keyOf cfg c = some κ := by
  have hsubnet : (subnetOf cfg c.clientIP).isSome = true := by
    rw [subnetOf]
    cases hip : c.clientIP.unmap with
    | invalid => exact absurd hip (unmap_ne_invalid h)
    | v4 octets => rfl
    | v6 hi lo =>
      split_ifs <;> rfl
  obtain ⟨subnet, hsubnet⟩ := Option.isSome_iff_exists.mp hsubnet
  exact ⟨_, Option.map_eq_some_iff.mpr ⟨subnet, hsubnet, rfl⟩⟩

end Keys

section Cells

variable (limit slipRate : ℕ) (hash : UInt64)

def Slot.checkAll : Slot → List UInt32 → List Action
  | _, [] => []
  | sl, now :: rest => (sl.check limit slipRate hash now).2 :: Slot.checkAll (sl.check limit slipRate hash now).1 rest

def Slot.after (sl : Slot) (times : List UInt32) : Slot := times.foldl (fun sl now => (sl.check limit slipRate hash now).1) sl

variable {limit slipRate hash}

theorem checkAll_append (sl : Slot) (times more : List UInt32) : sl.checkAll limit slipRate hash (times ++ more) =
      sl.checkAll limit slipRate hash times ++ (sl.after limit slipRate hash times).checkAll limit slipRate hash more := by
  induction times generalizing sl with
  | nil => rfl
  | cons now times ih => exact congrArg _ (ih _)

theorem checkAll_length (sl : Slot) (times : List UInt32) : (sl.checkAll limit slipRate hash times).length = times.length := by
  induction times generalizing sl with
  | nil => rfl
  | cons now times ih => exact congrArg (· + 1) (ih _)

def expected (limit slipRate k : ℕ) : Action :=
  if k ≤ limit then .allow else if 0 < slipRate ∧ slipRate ∣ k - limit then .slip else .drop

def schedule (limit slipRate : ℕ) : List UInt32 → List UInt32 → List Action
  | _, [] => []
  | before, now :: rest => expected limit slipRate (before.count now + 1) :: schedule limit slipRate (now :: before) rest

def Spaced (gaps : Set ℕ) (times : List UInt32) : Prop :=
  times.IsChain fun t t' => t = t' ∨ t.toNat < t'.toNat ∧ t'.toNat - t.toNat ∈ gaps

structure Bounded16 (limit slipRate : ℕ) : Prop where
  pos : 0 < limit
  limit_le : limit ≤ 65535
  slipRate_le : slipRate ≤ 65535

structure At (limit slipRate : ℕ) (hash : UInt64) (m : ℕ) (t : UInt32) (sl : Slot) : Prop where
  keyHash : sl.keyHash = hash
  timestamp : sl.timestamp = t
  tokens : sl.tokens.toNat = min m limit
  slipCount : sl.slipCount.toNat = if m ≤ limit ∨ slipRate = 0 then 0 else (m - limit) % slipRate

variable {sl : Slot} {m : ℕ} {t now : UInt32}

theorem mod_succ_eq {a n : ℕ} (hn : 0 < n) : (a + 1) % n = if n ≤ a % n + 1 then 0 else a % n + 1 := by
  have hlt := Nat.mod_lt a hn
  rw [← Nat.mod_add_mod]
  split_ifs with h
  · have hfull : a % n + 1 = n := by omega
    rw [hfull, Nat.mod_self]
  · exact Nat.mod_eq_of_lt (by omega)

theorem take_at (hf : Bounded16 limit slipRate)
    (h : At limit slipRate hash m t sl) : (sl.take limit slipRate).2 = expected limit slipRate (m + 1) ∧
      At limit slipRate hash (m + 1) t (sl.take limit slipRate).1 := by
  obtain ⟨hpos, hlimit, hslip⟩ := hf
  obtain ⟨hhash, htime, htokens, hcount⟩ := h
  rw [Slot.take, expected]
  by_cases hm : m < limit
  · have hlt : sl.tokens.toNat < limit := by omega
    rw [if_pos hlt, if_pos (Nat.succ_le_of_lt hm)]
    refine ⟨rfl, hhash, htime, ?_, ?_⟩
    · rw [UInt16.toNat_add]
      change (sl.tokens.toNat + 1) % 65536 = _
      omega
    · grind
  · have htokens' : (UInt16.ofNat limit).toNat = min (m + 1) limit := by
      rw [UInt16.toNat_ofNat', Nat.mod_eq_of_lt (by omega)]
      omega
    have hspent : ¬sl.tokens.toNat < limit := by omega
    have hover : ¬m + 1 ≤ limit := by omega
    rw [if_neg hspent, if_neg hover]
    dsimp only
    by_cases hslip0 : slipRate = 0
    · have hnever : ¬0 < slipRate := by omega
      rw [if_neg hnever, if_neg fun hslips => hnever hslips.1]
      exact ⟨rfl, hhash, htime, htokens', by rw [hcount, if_pos (.inr hslip0), if_pos (.inr hslip0)]⟩
    · have hpos' : 0 < slipRate := Nat.pos_of_ne_zero hslip0
      have hlt := Nat.mod_lt (m - limit) hpos'
      have hcount' : (sl.slipCount + 1).toNat = (m - limit) % slipRate + 1 := by
        have hbefore : sl.slipCount.toNat = (m - limit) % slipRate := by
          rw [hcount]
          split_ifs with hle
          · have hm : m - limit = 0 := by omega
            rw [hm, Nat.zero_mod]
          · rfl
        change (sl.slipCount.toNat + 1) % 65536 = _
        omega
      have hnext : (m + 1 - limit) % slipRate = if slipRate ≤ (m - limit) % slipRate + 1 then 0 else
          (m - limit) % slipRate + 1 := by
        rw [← mod_succ_eq hpos', Nat.sub_add_comm (by omega)]
      rw [if_pos hpos', hcount']
      have hlater : ¬(m + 1 ≤ limit ∨ slipRate = 0) := by omega
      by_cases hfull : slipRate ≤ (m - limit) % slipRate + 1
      · rw [if_pos hfull] at hnext
        rw [if_pos hfull, if_pos ⟨hpos', Nat.dvd_of_mod_eq_zero hnext⟩]
        exact ⟨rfl, hhash, htime, htokens', by rw [if_neg hlater, hnext]; rfl⟩
      · rw [if_neg hfull] at hnext
        have hno : ¬(0 < slipRate ∧ slipRate ∣ m + 1 - limit) := by omega
        rw [if_neg hfull, if_neg hno]
        exact ⟨rfl, hhash, htime, htokens', by rw [if_neg hlater, hnext, hcount']⟩

theorem advance_later (hlimit : limit ≤ 65535) (h : At limit slipRate hash m t sl) (hlater : t.toNat < now.toNat) :
    At limit slipRate hash (min m limit - (now.toNat - t.toNat) * limit % 4294967296) now (sl.advance limit now) := by
  obtain ⟨hhash, htime, htokens, -⟩ := h
  have helapsed : (now - t).toNat = now.toNat - t.toNat := UInt32.toNat_sub_of_le _ _ (UInt32.le_iff_toNat_le.mpr hlater.le)
  have hdecay : ((now - t) * UInt32.ofNat limit).toNat = (now.toNat - t.toNat) * limit % 4294967296 := by
    rw [UInt32.toNat_mul, helapsed, UInt32.toNat_ofNat', Nat.mod_eq_of_lt (a := limit) (by omega)]
  have htokens' : sl.tokens.toUInt32.toNat = min m limit := by rw [UInt16.toNat_toUInt32, htokens]
  have hahead : ¬now.toNat < t.toNat := by omega
  have hpassed : (now - t).toNat > 0 := by omega
  rw [Slot.advance, htime, if_neg hahead]
  rw [if_pos hpassed]
  refine ⟨hhash, rfl, ?_, ?_⟩
  · dsimp only
    split_ifs with hless
    · rw [UInt32.toNat_toUInt16, UInt32.toNat_sub_of_le _ _ (UInt32.le_iff_toNat_le.mpr (by omega)), htokens', hdecay]
      omega
    · rw [UInt16.toNat_zero]
      omega
  · rw [if_pos (.inl (by omega))]
    rfl

theorem advance_same (h : At limit slipRate hash m t sl) : sl.advance limit t = sl := by
  rw [Slot.advance, h.timestamp, if_neg (lt_irrefl _)]
  rw [UInt32.sub_self, if_neg (by decide), ← h.timestamp]

theorem check_same (hf : Bounded16 limit slipRate)
    (h : At limit slipRate hash m t sl) : (sl.check limit slipRate hash t).2 = expected limit slipRate (m + 1) ∧
      At limit slipRate hash (m + 1) t (sl.check limit slipRate hash t).1 := by
  rw [Slot.check, if_neg (not_not_intro h.keyHash), advance_same h]
  exact take_at hf h

theorem check_later (hf : Bounded16 limit slipRate)
    (h : At limit slipRate hash m t sl) (hlater : t.toNat < now.toNat)
    (hempty : min m limit ≤ (now.toNat - t.toNat) * limit % 4294967296) :
    (sl.check limit slipRate hash now).2 = expected limit slipRate 1 ∧
      At limit slipRate hash 1 now (sl.check limit slipRate hash now).1 := by
  have hadvance := advance_later hf.limit_le h hlater
  rw [Nat.sub_eq_zero_of_le hempty] at hadvance
  rw [Slot.check, if_neg (not_not_intro h.keyHash)]
  exact take_at hf hadvance

theorem check_first (hash : UInt64) (hf : Bounded16 limit slipRate) (now : UInt32) :
    ((Slot.mk 0 0 0 0).check limit slipRate hash now).2 = expected limit slipRate 1 ∧
      At limit slipRate hash 1 now ((Slot.mk 0 0 0 0).check limit slipRate hash now).1 := by
  by_cases hhash : hash = 0
  · have hat : At limit slipRate hash 0 0 (Slot.mk 0 0 0 0) := ⟨hhash.symm, rfl, (Nat.zero_min _).symm, by simp⟩
    by_cases hnow : now = 0
    · rw [hnow]
      exact check_same hf hat
    · have hlater : (0 : UInt32).toNat < now.toNat := by
        apply Nat.pos_of_ne_zero
        intro hzero
        exact hnow (UInt32.toNat_inj.mp hzero)
      exact check_later hf hat hlater (by simp)
  · have hone : 1 ≤ limit := hf.pos
    rw [Slot.check, if_pos (Ne.symm hhash), expected, if_pos hone]
    refine ⟨rfl, rfl, rfl, (Nat.min_eq_left hone).symm, ?_⟩
    rw [if_pos (.inl hone)]
    rfl

theorem checkAll_schedule (hf : Bounded16 limit slipRate) {gaps : Set ℕ}
    (hgaps : ∀ e ∈ gaps, 0 < e → e < 4294967296 → limit ≤ e * limit % 4294967296) {before times : List UInt32}
    (h : At limit slipRate hash (before.count t) t sl) (hbefore : ∀ x ∈ before, x.toNat ≤ t.toNat)
    (hspaced : Spaced gaps (t :: times)) :
    sl.checkAll limit slipRate hash times = schedule limit slipRate before times := by
  induction times generalizing sl t before with
  | nil => rfl
  | cons now times ih =>
    obtain ⟨hnow, hrest⟩ := isChain_cons_cons.mp hspaced
    obtain rfl | ⟨hlater, hgap⟩ := hnow
    · obtain ⟨haction, hat⟩ := check_same hf h
      rw [← count_cons_self] at hat
      rw [Slot.checkAll, schedule, haction, ih hat ?_ hrest]
      intro x hx
      obtain rfl | hx := mem_cons.mp hx
      · exact le_rfl
      · exact hbefore x hx
    · have hcount : before.count now = 0 := by
        apply count_eq_zero.mpr
        intro hmem
        exact absurd (hbefore now hmem) (by omega)
      have hdecay := hgaps _ hgap (by omega) (by have := now.toNat_lt; omega)
      obtain ⟨haction, hat⟩ := check_later hf h hlater (by omega)
      rw [Slot.checkAll, schedule, haction, hcount, ih ?_ ?_ hrest]
      · rw [count_cons_self, hcount]
        exact hat
      · intro x hx
        obtain rfl | hx := mem_cons.mp hx
        · exact le_rfl
        · exact (hbefore x hx).trans hlater.le

theorem checkAll_first (hf : Bounded16 limit slipRate) {gaps : Set ℕ}
    (hgaps : ∀ e ∈ gaps, 0 < e → e < 4294967296 → limit ≤ e * limit % 4294967296) {times : List UInt32}
    (hspaced : Spaced gaps times) :
    (Slot.mk 0 0 0 0).checkAll limit slipRate hash times = schedule limit slipRate [] times := by
  cases times with
  | nil => rfl
  | cons now times =>
    obtain ⟨haction, hat⟩ := check_first hash hf now
    rw [← count_singleton_self (a := now)] at hat
    have hbefore : ∀ x ∈ [now], x.toNat ≤ now.toNat := by
      intro x hx
      rw [mem_singleton.mp hx]
    rw [Slot.checkAll, schedule, haction, checkAll_schedule hf hgaps hat hbefore hspaced]
    rfl

def burst (limit slipRate m n : ℕ) : List Action := (range n).map fun i => expected limit slipRate (m + i + 1)

theorem burst_succ (limit slipRate m n : ℕ) :
    burst limit slipRate m (n + 1) = expected limit slipRate (m + 1) :: burst limit slipRate (m + 1) n := by
  rw [burst, burst, range_succ_eq_map, map_cons, map_map]
  congr 1
  apply map_congr_left
  intro i _
  change expected limit slipRate (m + (i + 1) + 1) = _
  rw [Nat.add_comm i 1, ← Nat.add_assoc]

theorem expected_mem_burst {k n : ℕ} (h : k < n) : expected limit slipRate (m + k + 1) ∈ burst limit slipRate m n :=
  mem_map.mpr ⟨k, mem_range.mpr h, rfl⟩

theorem schedule_replicate (before : List UInt32) (t : UInt32) (n : ℕ) :
    schedule limit slipRate before (replicate n t) = burst limit slipRate (before.count t) n := by
  induction n generalizing before with
  | zero => rfl
  | succ n ih => rw [replicate_succ, schedule, ih, count_cons_self, burst_succ]

theorem schedule_append (before times more : List UInt32) : schedule limit slipRate before (times ++ more) =
      schedule limit slipRate before times ++ schedule limit slipRate (times.reverse ++ before) more := by
  induction times generalizing before with
  | nil => rfl
  | cons now times ih =>
    rw [cons_append, schedule, ih, schedule, reverse_cons, append_assoc]
    rfl

theorem schedule_length (before times : List UInt32) : (schedule limit slipRate before times).length = times.length := by
  induction times generalizing before with
  | nil => rfl
  | cons now times ih => exact congrArg (· + 1) (ih _)

theorem checkAll_replicate (hf : Bounded16 limit slipRate)
    (h : At limit slipRate hash m t sl) (n : ℕ) :
    sl.checkAll limit slipRate hash (replicate n t) = burst limit slipRate m n ∧
      At limit slipRate hash (m + n) t (sl.after limit slipRate hash (replicate n t)) := by
  induction n generalizing sl m with
  | zero => exact ⟨rfl, h⟩
  | succ n ih =>
    obtain ⟨haction, hat⟩ := check_same hf h
    obtain ⟨hactions, hafter⟩ := ih hat
    rw [replicate_succ, Slot.checkAll, haction, hactions, burst_succ]
    rw [Nat.add_assoc, Nat.add_comm 1 n] at hafter
    exact ⟨rfl, hafter⟩

theorem expected_over {k : ℕ} (h : limit < k) : expected limit slipRate k ≠ .allow := by
  rw [expected, if_neg (by omega)]
  split_ifs <;> decide

theorem forall_mem_checkAll (P : Action → Prop) (h : ∀ (sl : Slot) now, P (sl.check limit slipRate hash now).2)
    (sl : Slot) (times : List UInt32) : ∀ action ∈ sl.checkAll limit slipRate hash times, P action := by
  induction times generalizing sl with
  | nil => exact forall_mem_nil _
  | cons now times ih => exact forall_mem_cons.mpr ⟨h sl now, ih _⟩

theorem checkAll_allow (hlimit : 65535 < limit) (sl : Slot) (times : List UInt32) :
    ∀ action ∈ sl.checkAll limit slipRate hash times, action = .allow := by
  apply forall_mem_checkAll
  intro sl now
  have hlt := (sl.advance limit now).tokens.toNat_lt
  rw [Slot.check]
  split_ifs
  · rfl
  · rw [Slot.take, if_pos (by omega)]

theorem checkAll_ne_slip (hslip : 65535 < slipRate) (sl : Slot) (times : List UInt32) :
    ∀ action ∈ sl.checkAll limit slipRate hash times, action ≠ .slip := by
  apply forall_mem_checkAll
  intro sl now
  have hlt := ((sl.advance limit now).slipCount + 1).toNat_lt
  rw [Slot.check, Slot.take]
  dsimp only
  split_ifs
  all_goals first | omega | exact Action.noConfusion

theorem spaced_replicate (gaps : Set ℕ) (n : ℕ) (t : UInt32) : Spaced gaps (replicate n t) :=
  isChain_replicate_of_rel n (.inl rfl)

theorem after_first (hash : UInt64) (hf : Bounded16 limit slipRate) (t : UInt32) {n : ℕ}
    (hn : 0 < n) : At limit slipRate hash n t ((Slot.mk 0 0 0 0).after limit slipRate hash (replicate n t)) := by
  obtain ⟨n, rfl⟩ := Nat.exists_eq_add_of_lt hn
  have hafter := (checkAll_replicate hf (check_first hash hf t).2 (0 + n)).2
  rw [Nat.add_comm] at hafter
  exact hafter

theorem checkAll_carry (hf : Bounded16 limit slipRate)
    (h : At limit slipRate hash limit t sl) (hlater : t.toNat < now.toNat)
    (hless : (now.toNat - t.toNat) * limit % 4294967296 < limit) :
    sl.checkAll limit slipRate hash (replicate limit now) ≠ burst limit slipRate 0 limit := by
  have hadvance := advance_later hf.limit_le h hlater
  set decay := (now.toNat - t.toNat) * limit % 4294967296 with hdecay
  have hsame : sl.checkAll limit slipRate hash (replicate limit now) =
      (sl.advance limit now).checkAll limit slipRate hash (replicate limit now) := by
    obtain ⟨n, hn⟩ := Nat.exists_eq_add_of_lt hf.pos
    have hcheck : sl.check limit slipRate hash now = (sl.advance limit now).check limit slipRate hash now := by
      rw [Slot.check, Slot.check, if_neg (not_not_intro h.keyHash), if_neg (not_not_intro hadvance.keyHash),
        advance_same hadvance]
    rw [hn, replicate_succ, Slot.checkAll, Slot.checkAll, ← hn, hcheck]
  rw [hsame, (checkAll_replicate hf hadvance limit).1]
  intro heq
  have hat := map_inj_left.mp heq decay (mem_range.mpr hless)
  have hallow : expected limit slipRate (0 + decay + 1) = .allow := if_pos (by omega)
  exact expected_over (by omega) (hat.trans hallow)

theorem exact_of_schedule (hash : UInt64) (hpos : 0 < limit) {gaps : Set ℕ}
    (h : ∀ times, Spaced gaps times → (Slot.mk 0 0 0 0).checkAll limit slipRate hash times = schedule limit slipRate [] times) :
    limit ≤ 65535 ∧ slipRate ≤ 65535 ∧ ∀ e ∈ gaps, 0 < e → e < 4294967296 → limit ≤ e * limit % 4294967296 := by
  have hburst (n : ℕ) : (Slot.mk 0 0 0 0).checkAll limit slipRate hash (replicate n 0) = burst limit slipRate 0 n := by
    rw [h _ (spaced_replicate gaps n 0), schedule_replicate, count_nil]
  have hlimit : limit ≤ 65535 := by
    by_contra hlarge
    have hmem : expected limit slipRate (0 + limit + 1) ∈ burst limit slipRate 0 (limit + 1) :=
      expected_mem_burst (Nat.lt_succ_self limit)
    rw [← hburst] at hmem
    exact expected_over (by omega) (checkAll_allow (by omega) _ _ _ hmem)
  have hslip : slipRate ≤ 65535 := by
    by_contra hlarge
    have hmem : expected limit slipRate (0 + (limit + slipRate - 1) + 1) ∈ burst limit slipRate 0 (limit + slipRate) :=
      expected_mem_burst (by omega)
    rw [← hburst] at hmem
    apply checkAll_ne_slip (by omega) _ _ _ hmem
    have hlast : 0 + (limit + slipRate - 1) + 1 = limit + slipRate := by omega
    rw [hlast, expected, if_neg (by omega), if_pos]
    rw [Nat.add_sub_cancel_left]
    exact ⟨by omega, dvd_rfl⟩
  refine ⟨hlimit, hslip, ?_⟩
  intro e he hpositive hsmall
  by_contra hless
  have hnow : (UInt32.ofNat e).toNat = e := by rw [UInt32.toNat_ofNat', Nat.mod_eq_of_lt hsmall]
  have hlater : (0 : UInt32).toNat < (UInt32.ofNat e).toNat := by
    rw [hnow]
    exact hpositive
  have hspaced : Spaced gaps (replicate limit 0 ++ replicate limit (UInt32.ofNat e)) := by
    apply isChain_append.mpr
    refine ⟨spaced_replicate gaps limit 0, spaced_replicate gaps limit _, ?_⟩
    intro x hx y hy
    rw [eq_of_mem_replicate (mem_of_mem_getLast? hx), eq_of_mem_replicate (mem_of_mem_head? hy)]
    refine .inr ⟨hlater, ?_⟩
    rw [hnow]
    exact he
  have hruns := h _ hspaced
  rw [checkAll_append, schedule_append] at hruns
  have hsecond := append_inj_right hruns (by rw [checkAll_length, schedule_length])
  have hcount : ((replicate limit (0 : UInt32)).reverse ++ []).count (UInt32.ofNat e) = 0 := by
    rw [append_nil, reverse_replicate]
    apply count_eq_zero.mpr
    intro hmem
    rw [eq_of_mem_replicate hmem] at hlater
    exact lt_irrefl _ hlater
  rw [schedule_replicate, hcount] at hsecond
  have hf : Bounded16 limit slipRate := ⟨hpos, hlimit, hslip⟩
  refine checkAll_carry hf (after_first hash hf 0 hpos) hlater ?_ hsecond
  rw [hnow]
  exact not_le.mp hless

end Cells

section Projection

variable (cfg : Settings) (κ : Key)

def Alone (checks : List Check) : Prop :=
  ∀ c ∈ checks, ∀ κ', keyOf cfg c = some κ' → placeOf cfg κ'.hash = placeOf cfg κ.hash → κ' = κ

def keyTimes (checks : List Check) : List UInt32 := (checks.filter fun c => keyOf cfg c = some κ).map Check.now

def keyActions (l : Limiter) (checks : List Check) : List Action :=
  ((checks.zip (l.checkAll checks)).filter fun e => keyOf l.settings e.1 = some κ).map Prod.snd

variable {cfg κ} {l : Limiter} {c : Check}

theorem checkAt_settings (l : Limiter) (c : Check) : (l.checkAt c).1.settings = l.settings := by
  rw [Limiter.checkAt]
  split_ifs <;> rfl

theorem checkAt_key (h : keyOf l.settings c = some κ) {sl : Slot} {action : Action}
    (hcheck : (l.slots (placeOf l.settings κ.hash)).check (limitOf l.settings κ.rclass) l.settings.slipRate κ.hash c.now =
      (sl, action)) : l.checkAt c = (⟨l.settings, Function.update l.slots (placeOf l.settings κ.hash) sl⟩, action) := by
  obtain ⟨hhash, hclass⟩ := hashKey_eq h
  rw [Limiter.checkAt, if_neg (valid_of_key h)]
  dsimp only
  rw [hhash, hclass, hcheck]

theorem checkAt_other (h : keyOf l.settings c ≠ some κ)
    (halone : ∀ κ', keyOf l.settings c = some κ' → placeOf l.settings κ'.hash = placeOf l.settings κ.hash → κ' = κ) :
    (l.checkAt c).1.slots (placeOf l.settings κ.hash) = l.slots (placeOf l.settings κ.hash) := by
  by_cases hip : c.clientIP = .invalid
  · rw [Limiter.checkAt, if_pos hip]
  · obtain ⟨κ', hκ'⟩ := exists_key l.settings hip
    rw [checkAt_key hκ' Prod.mk.eta.symm]
    have hplace : placeOf l.settings κ.hash ≠ placeOf l.settings κ'.hash := by grind
    dsimp only
    rw [Function.update_of_ne hplace]

theorem keyActions_eq (l : Limiter) {checks : List Check} (h : Alone l.settings κ checks) :
    keyActions κ l checks = (l.slots (placeOf l.settings κ.hash)).checkAll (limitOf l.settings κ.rclass) l.settings.slipRate
      κ.hash (keyTimes l.settings κ checks) := by
  induction checks generalizing l with
  | nil => rfl
  | cons c checks ih =>
    have hsettings := checkAt_settings l c
    have hrest : Alone (l.checkAt c).1.settings κ checks := by
      rw [hsettings]
      exact fun c' hc' => h c' (mem_cons_of_mem _ hc')
    have hih := ih (l.checkAt c).1 hrest
    rw [keyActions, hsettings] at hih
    rw [keyActions, Limiter.checkAll, zip_cons_cons, keyTimes, filter_cons, filter_cons]
    by_cases hkey : keyOf l.settings c = some κ
    · rw [if_pos (decide_eq_true hkey), if_pos (decide_eq_true hkey), map_cons, map_cons, hih, Slot.checkAll,
        checkAt_key hkey Prod.mk.eta.symm]
      dsimp only
      rw [Function.update_self]
      rfl
    · rw [if_neg (by simpa using hkey), if_neg (by simpa using hkey), hih,
        checkAt_other hkey (h c mem_cons_self)]
      rfl

section Exactness

variable (cfg : Config)

def checksOf (c : Check) (times : List UInt32) : List Check := times.map fun now => { c with now := now }

variable {cfg}

theorem keyOf_mem_checksOf {cfg : Settings} (h : keyOf cfg c = some κ) {times : List UInt32} {c' : Check}
    (hc' : c' ∈ checksOf c times) : keyOf cfg c' = some κ := by
  obtain ⟨now, -, rfl⟩ := mem_map.mp hc'
  exact h

theorem alone_checksOf {cfg : Settings} (h : keyOf cfg c = some κ) (times : List UInt32) : Alone cfg κ (checksOf c times) := by
  intro c' hc' κ' hκ' _
  rw [keyOf_mem_checksOf h hc'] at hκ'
  exact (Option.some.inj hκ').symm

theorem keyTimes_checksOf {cfg : Settings} (h : keyOf cfg c = some κ) (times : List UInt32) :
    keyTimes cfg κ (checksOf c times) = times := by
  rw [keyTimes, filter_eq_self.mpr fun c' hc' => decide_eq_true (keyOf_mem_checksOf h hc'), checksOf, map_map]
  exact map_id times

theorem limitOf_pos (cfg : Settings) (rclass : ResponseClass) : 0 < limitOf cfg rclass := by
  rw [limitOf]
  split_ifs
  · exact cfg.responses_pos
  · exact cfg.errors_pos

/-- The schedule is exact for the runs with gaps from a set if and only if limit and slip rate fit into their counters and
no gap of the set decays to less than the limit in 32 bits. -/
theorem exact_rate_iff (cfg : Config) {κ : Key} {c : Check} (h : keyOf cfg.settled c = some κ) (gaps : Set ℕ) :
    (∀ checks, Alone cfg.settled κ checks → Spaced gaps (keyTimes cfg.settled κ checks) →
        keyActions κ (new cfg) checks =
          schedule (limitOf cfg.settled κ.rclass) cfg.settled.slipRate [] (keyTimes cfg.settled κ checks)) ↔
      limitOf cfg.settled κ.rclass ≤ 65535 ∧ cfg.settled.slipRate ≤ 65535 ∧
        ∀ e ∈ gaps, 0 < e → e < 4294967296 →
          limitOf cfg.settled κ.rclass ≤ e * limitOf cfg.settled κ.rclass % 4294967296 := by
  have hpos := limitOf_pos cfg.settled κ.rclass
  constructor
  · intro hexact
    apply exact_of_schedule κ.hash hpos
    intro times hspaced
    have hrun := hexact (checksOf c times) (alone_checksOf h times) (by rwa [keyTimes_checksOf h])
    rw [keyActions_eq (new cfg) (alone_checksOf h times)] at hrun
    change (Slot.mk 0 0 0 0).checkAll _ _ _ (keyTimes cfg.settled κ _) = _ at hrun
    rw [keyTimes_checksOf h] at hrun
    exact hrun
  · rintro ⟨hlimit, hslip, hgaps⟩ checks halone hspaced
    rw [keyActions_eq (new cfg) halone]
    exact checkAll_first ⟨hpos, hlimit, hslip⟩ hgaps hspaced

theorem exact_rate_defaults :
    ∃ κ, keyOf (Config.mk 0 0 (-1) 0 0 0).settled ⟨.v4 0xC0000201, [], .nameError, 0⟩ = some κ ∧
      ∀ checks, Alone (Config.mk 0 0 (-1) 0 0 0).settled κ checks →
        Spaced { e | e ≤ 86400 } (keyTimes (Config.mk 0 0 (-1) 0 0 0).settled κ checks) →
          keyActions κ (new (Config.mk 0 0 (-1) 0 0 0)) checks =
            schedule 10 2 [] (keyTimes (Config.mk 0 0 (-1) 0 0 0).settled κ checks) := by
  refine ⟨_, rfl, ?_⟩
  refine (exact_rate_iff (Config.mk 0 0 (-1) 0 0 0) (c := ⟨.v4 0xC0000201, [], .nameError, 0⟩) rfl { e | e ≤ 86400 }).mpr ?_
  refine ⟨by decide, by decide, ?_⟩
  intro e he hpositive _
  have hlimit : limitOf (Config.mk 0 0 (-1) 0 0 0).settled .nxDomain = 10 := rfl
  have hday : e ≤ 86400 := he
  change limitOf (Config.mk 0 0 (-1) 0 0 0).settled .nxDomain ≤ _ * limitOf (Config.mk 0 0 (-1) 0 0 0).settled .nxDomain % _
  rw [hlimit, Nat.mod_eq_of_lt (by omega)]
  omega

/-- Two errors a second, and a third one half of the seconds of 32 bits later. -/
theorem decay_wraps :
    ∃ (cfg : Config) (κ : Key) (checks : List Check), Alone cfg.settled κ checks ∧
      Spaced Set.univ (keyTimes cfg.settled κ checks) ∧ keyTimes cfg.settled κ checks = [0, 0, 2147483648] ∧
      limitOf cfg.settled κ.rclass = 2 ∧ keyActions κ (new cfg) checks = [.allow, .allow, .drop] ∧
      schedule (limitOf cfg.settled κ.rclass) cfg.settled.slipRate [] (keyTimes cfg.settled κ checks) =
        [.allow, .allow, .allow] := by
  refine ⟨Config.mk 0 2 0 0 0 0, ⟨.v4 0xC0000200, .nxDomain, []⟩,
    checksOf ⟨.v4 0xC0000201, [], .nameError, 0⟩ [0, 0, 2147483648], alone_checksOf rfl _, ?_, ?_⟩
  · rw [keyTimes_checksOf rfl]
    refine List.IsChain.cons_cons (.inl rfl) (List.IsChain.cons_cons (.inr ⟨?_, trivial⟩) (List.IsChain.singleton _))
    decide
  · decide +kernel

end Exactness

end Projection

end Kdns.Rrl
