import Kdns.Radix.Resolve
import Kdns.WalReject

namespace Kdns.Storage

open ByteStream Dns Radix Wal

def compressionPointerMask : ℕ := 0xC0

def skipFrom (data : Bytes) : ℕ → ℕ → Option ℕ
  | 0, _ => none
  | fuel + 1, curr =>
    match data[curr]? with
    | none => none
    | some l =>
      if l.toNat = 0 then some (curr + 1)
      else if l.toNat ≥ compressionPointerMask then some (curr + 2)
      else skipFrom data fuel (curr + (1 + l.toNat))

def skipDomainName (data : Bytes) (start : ℕ) : Option ℕ := skipFrom data data.length start

def incrementSOASerial (rdata : Bytes) : Bytes :=
  match (skipDomainName rdata 0).bind (skipDomainName rdata) with
  | none => rdata
  | some offset =>
    if offset + 20 > rdata.length then rdata
    else
      let serial := ofBigEndian ((rdata.drop offset).take 4)
      rdata.take offset ++ (bigEndian 4 ((serial + 1) % 2 ^ 32) ++ rdata.drop (offset + 4))

def bumpSOA : RRSets → Option RRSets
  | [] => none
  | s :: rest =>
    match if s.type = typeSOA then s.rdata else [] with
    | r :: rs => some ({ s with rdata := incrementSOASerial r :: rs } :: rest)
    | [] => (bumpSOA rest).map (s :: ·)

def findApexDomain (res : Result) (domain : Bytes) : Bytes :=
  if res.hasAnswer ∧ res.answer.type = typeSOA then domain
  else if res.hasAuthority then res.authorityName
  else []

inductive Stage where
  | soaIncrement
  | appendUpsert
  | appendDelete
  deriving DecidableEq, Repr

inductive StoreError where
  | append (stage : Stage) (e : WalError)
  | flush (e : WalError)
  deriving DecidableEq, Repr

structure Session (W : Type) where
  tree : Tree
  writer : W

def autoIncrementSOA (s : Session Writer) (domain : Bytes) (rs : RRSets) : Session Writer × RRSets × Option StoreError :=
  match bumpSOA rs with
  | some bumped => (s, bumped, none)
  | none =>
    let apex := findApexDomain (s.tree.resolve domain typeSOA) domain
    if apex = [] ∨ apex = domain then (s, rs, none)
    else
      match (s.tree.get apex).bind bumpSOA with
      | none => (s, rs, none)
      | some updated =>
        match appendUpsert s.writer apex updated with
        | (w, some e) => (⟨s.tree, w⟩, rs, some (.append .soaIncrement e))
        | (w, none) => (⟨s.tree.upsert apex updated, w⟩, rs, none)

def applyUpsert (s : Session Writer) (domain : Bytes) (rs : RRSets) : Session Writer × Option StoreError :=
  match autoIncrementSOA s domain rs with
  | (s', _, some e) => (s', some e)
  | (s', rs', none) =>
    match appendUpsert s'.writer domain rs' with
    | (w, some e) => (⟨s'.tree, w⟩, some (.append .appendUpsert e))
    | (w, none) => (⟨s'.tree.upsert domain rs', w⟩, none)

def applyDelete (s : Session Writer) (domain : Bytes) : Session Writer × Option StoreError :=
  match autoIncrementSOA s domain [] with
  | (s', _, some e) => (s', some e)
  | (s', _, none) =>
    match appendDelete s'.writer domain with
    | (w, some e) => (⟨s'.tree, w⟩, some (.append .appendDelete e))
    | (w, none) => (⟨s'.tree.deleteDomain domain, w⟩, none)

def applyOperation (s : Session Writer) : Op → Session Writer × Option StoreError
  | .upsert domain rs => applyUpsert s domain rs
  | .delete domain => applyDelete s domain

def applyOp (t : Tree) : Op → Tree
  | .upsert domain rs => t.upsert domain rs
  | .delete domain => t.deleteDomain domain

def applyOps (t : Tree) (ops : List Op) : Tree := ops.foldl applyOp t

def zoneBump (t : Tree) (domain : Bytes) (rs : RRSets) : Option Op :=
  match bumpSOA rs with
  | some _ => none
  | none =>
    let apex := findApexDomain (t.resolve domain typeSOA) domain
    if apex = [] ∨ apex = domain then none
    else ((t.get apex).bind bumpSOA).map (Op.upsert apex)

def effects (t : Tree) : Op → List (Stage × Op)
  | .upsert domain rs =>
    ((zoneBump t domain rs).map (Prod.mk .soaIncrement)).toList ++
      [(.appendUpsert, .upsert domain ((bumpSOA rs).getD rs))]
  | .delete domain => ((zoneBump t domain []).map (Prod.mk .soaIncrement)).toList ++ [(.appendDelete, .delete domain)]

section Log

variable {W : Type} (append : W → Op → W × Option WalError)

def logAndApply (s : Session W) : List (Stage × Op) → Session W × Option StoreError
  | [] => (s, none)
  | (stage, op) :: rest =>
    match append s.writer op with
    | (w, some e) => (⟨s.tree, w⟩, some (.append stage e))
    | (w, none) => logAndApply ⟨applyOp s.tree op, w⟩ rest

theorem logAndApply_append (s : Session W) (xs ys : List (Stage × Op)) : logAndApply append s (xs ++ ys) =
      match logAndApply append s xs with
      | (s', some e) => (s', some e)
      | (s', none) => logAndApply append s' ys := by
  induction xs generalizing s with
  | nil => rfl
  | cons x xs ih =>
    obtain ⟨stage, op⟩ := x
    rw [List.cons_append, logAndApply, logAndApply]
    rcases append s.writer op with ⟨w, _ | e⟩
    · apply ih
    · rfl

end Log

theorem autoIncrementSOA_eq (s : Session Writer) (domain : Bytes) (rs : RRSets) : autoIncrementSOA s domain rs =
      ((logAndApply append s ((zoneBump s.tree domain rs).map (Prod.mk .soaIncrement)).toList).1, (bumpSOA rs).getD rs,
        (logAndApply append s ((zoneBump s.tree domain rs).map (Prod.mk .soaIncrement)).toList).2) := by
  unfold autoIncrementSOA zoneBump
  cases bumpSOA rs with
  | some bumped => rfl
  | none =>
    dsimp only
    split_ifs with h
    · rfl
    · cases (s.tree.get _).bind bumpSOA with
      | none => rfl
      | some updated =>
        simp only [Option.map_some, Option.toList_some, logAndApply, append]
        rcases appendUpsert s.writer _ updated with ⟨w, _ | e⟩ <;> rfl

theorem applyOperation_eq (s : Session Writer) (op : Op) : applyOperation s op = logAndApply append s (effects s.tree op) := by
  cases op with
  | upsert domain rs =>
    rw [applyOperation, applyUpsert, autoIncrementSOA_eq, effects, logAndApply_append]
    rcases logAndApply append s _ with ⟨s', _ | e⟩
    · simp only [logAndApply, append]
      rcases appendUpsert s'.writer domain _ with ⟨w, _ | e⟩ <;> rfl
    · rfl
  | delete domain =>
    rw [applyOperation, applyDelete, autoIncrementSOA_eq, effects, logAndApply_append]
    rcases logAndApply append s _ with ⟨s', _ | e⟩
    · simp only [logAndApply, append]
      rcases appendDelete s'.writer domain with ⟨w, _ | e⟩ <;> rfl
    · rfl

end Kdns.Storage
