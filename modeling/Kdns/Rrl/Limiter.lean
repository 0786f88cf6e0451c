import Kdns.Dns
import Kdns.Lib.GoStrings

namespace Kdns.Rrl

open ByteStream Dns

def numShards : ℕ := 64

inductive ResponseClass where
  | positive
  | nxDomain
  | error
  deriving DecidableEq, Repr

def ResponseClass.code : ResponseClass → UInt64
  | .positive => 0
  | .nxDomain => 1
  | .error => 2

def classifyRCode : RCode → ResponseClass
  | .success => .positive
  | .nameError => .nxDomain
  | _ => .error

inductive Action where
  | allow
  | drop
  | slip
  deriving DecidableEq, Repr

inductive Address where
  | invalid
  | v4 (octets : UInt32)
  | v6 (hi lo : UInt64)
  deriving DecidableEq, Repr

def Address.unmap : Address → Address
  | .v6 hi lo => if hi = 0 ∧ lo >>> 32 = 0xFFFF then .v4 lo.toUInt32 else .v6 hi lo
  | ip => ip

structure Config where
  responsesPerSecond : ℤ
  errorsPerSecond : ℤ
  slipRate : ℤ
  tableSize : ℤ
  ipv4Prefix : ℤ
  ipv6Prefix : ℤ
  deriving DecidableEq, Repr

structure Settings where
  responsesPerSecond : ℕ
  errorsPerSecond : ℕ
  slipRate : ℕ
  slotsPerShard : ℕ
  ipv4Prefix : ℕ
  ipv6Prefix : ℕ
  responses_pos : 0 < responsesPerSecond
  errors_pos : 0 < errorsPerSecond
  ipv4_le : ipv4Prefix ≤ 32
  ipv6_le : ipv6Prefix ≤ 128

/-- For integers of 64 bits: the power that does not fit into one is the least of them. -/
def roundUpPowerOfTwo (v : ℤ) : ℤ :=
  if v ≤ 1 then 1
  else
    let n := Nat.pow 2 (Nat.log2 (v - 1).toNat + 1)
    if n < Nat.pow 2 63 then Int.ofNat n else -Int.ofNat (Nat.pow 2 63)

def slotsPerShardOf (tableSize : ℤ) : ℕ :=
  let tableSize := roundUpPowerOfTwo (if tableSize ≤ 0 then 65536 else tableSize)
  (roundUpPowerOfTwo (max 1 (tableSize.tdiv 64))).toNat

def withDefault (v default : ℤ) : ℕ := (if v ≤ 0 then default else v).toNat

def prefixWithin (v default : ℤ) (most : ℕ) : ℕ := if v ≤ 0 ∨ v > most then default.toNat else v.toNat

theorem withDefault_pos {v default : ℤ} (h : 0 < default) : 0 < withDefault v default := by
  unfold withDefault
  split_ifs <;> omega

theorem prefixWithin_le {v default : ℤ} {most : ℕ} (h : default ≤ most) : prefixWithin v default most ≤ most := by
  unfold prefixWithin
  split_ifs <;> omega

def Config.settled (c : Config) : Settings where
  responsesPerSecond := withDefault c.responsesPerSecond 50
  errorsPerSecond := withDefault c.errorsPerSecond 10
  slipRate := (if c.slipRate < 0 then 2 else c.slipRate).toNat
  slotsPerShard := slotsPerShardOf c.tableSize
  ipv4Prefix := prefixWithin c.ipv4Prefix 24 32
  ipv6Prefix := prefixWithin c.ipv6Prefix 56 128
  responses_pos := withDefault_pos (by decide)
  errors_pos := withDefault_pos (by decide)
  ipv4_le := prefixWithin_le (by decide)
  ipv6_le := prefixWithin_le (by decide)

structure Slot where
  keyHash : UInt64
  timestamp : UInt32
  tokens : UInt16
  slipCount : UInt16
  deriving DecidableEq, Repr

structure Limiter where
  settings : Settings
  slots : ℕ × ℕ → Slot

def new (cfg : Config) : Limiter := ⟨cfg.settled, fun _ => ⟨0, 0, 0, 0⟩⟩

section Hashing

variable (cfg : Settings)

def mask32 (bits : ℕ) : UInt32 := 0xFFFFFFFF <<< UInt32.ofNat (32 - bits)

/-- The shift counts of Go are not reduced: a shift by the width or more leaves nothing. -/
def mask64 (shift : ℕ) : UInt64 := if shift < 64 then 0xFFFFFFFFFFFFFFFF <<< UInt64.ofNat shift else 0

def hashSubnet (ip : Address) : UInt64 :=
  match ip.unmap with
  | .invalid => 0
  | .v4 octets => (octets &&& mask32 cfg.ipv4Prefix).toUInt64
  | .v6 hi lo =>
    if cfg.ipv6Prefix ≤ 64 then hi &&& mask64 (64 - cfg.ipv6Prefix) else hi ^^^ (lo &&& mask64 (128 - cfg.ipv6Prefix))

def hashByte (h : UInt64) (c : UInt8) : UInt64 := (h ^^^ (GoStrings.lowerASCII c).toUInt64) * 0x94d049bb133111eb

def hashKey (ip : Address) (rclass : ResponseClass) (domain : Bytes) : UInt64 :=
  let h : UInt64 := 0x517cc1b727220a95 ^^^ hashSubnet cfg ip
  let h := (h ^^^ rclass.code) * 0xbf58476d1ce4e5b9
  let h := if rclass = .positive then domain.foldl hashByte h else h
  h ^^^ (h >>> 32)

def placeOf (hash : UInt64) : ℕ × ℕ :=
  (((hash >>> 58) &&& UInt64.ofNat (numShards - 1)).toNat, (hash &&& UInt64.ofNat (cfg.slotsPerShard - 1)).toNat)

def limitOf (rclass : ResponseClass) : ℕ := if rclass = .positive then cfg.responsesPerSecond else cfg.errorsPerSecond

end Hashing

section Checking

def Slot.advance (sl : Slot) (limit : ℕ) (now : UInt32) : Slot :=
  let timestamp := if now.toNat < sl.timestamp.toNat then now else sl.timestamp
  let elapsed := now - timestamp
  if elapsed.toNat > 0 then
    let decay := elapsed * UInt32.ofNat limit
    let current := sl.tokens.toUInt32
    ⟨sl.keyHash, now, if decay.toNat < current.toNat then (current - decay).toUInt16 else 0, 0⟩
  else { sl with timestamp := timestamp }

def Slot.take (sl : Slot) (limit slipRate : ℕ) : Slot × Action :=
  if sl.tokens.toNat < limit then ({ sl with tokens := sl.tokens + 1 }, .allow)
  else
    let sl := { sl with tokens := UInt16.ofNat limit }
    if slipRate > 0 then
      let slipCount := sl.slipCount + 1
      if slipCount.toNat ≥ slipRate then ({ sl with slipCount := 0 }, .slip) else ({ sl with slipCount := slipCount }, .drop)
    else (sl, .drop)

def Slot.check (limit slipRate : ℕ) (hash : UInt64) (sl : Slot) (now : UInt32) : Slot × Action :=
  if sl.keyHash ≠ hash then (⟨hash, now, 1, 0⟩, .allow) else (sl.advance limit now).take limit slipRate

structure Check where
  clientIP : Address
  domain : Bytes
  rCode : RCode
  now : UInt32
  deriving DecidableEq, Repr

def Limiter.checkAt (l : Limiter) (c : Check) : Limiter × Action :=
  if c.clientIP = .invalid then (l, .allow)
  else
    let rclass := classifyRCode c.rCode
    let hash := hashKey l.settings c.clientIP rclass c.domain
    let place := placeOf l.settings hash
    let r := (l.slots place).check (limitOf l.settings rclass) l.settings.slipRate hash c.now
    ({ l with slots := Function.update l.slots place r.1 }, r.2)

def Limiter.checkAll (l : Limiter) : List Check → List Action
  | [] => []
  | c :: cs => (l.checkAt c).2 :: (l.checkAt c).1.checkAll cs

end Checking

end Kdns.Rrl
