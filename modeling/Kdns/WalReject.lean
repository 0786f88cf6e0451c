import Kdns.WalAppend

namespace Kdns.Wal

open ByteStream FramedLog BufferedFile Dns Codec List

section

variable (w : Writer)

theorem appendUpsert_healthy (domain : Bytes) (records : RRSets) (h : w.Healthy) :
    (appendUpsert w domain records).1.Healthy := by
  unfold appendUpsert
  split_ifs
  · exact h
  obtain ⟨hw, h₁⟩ := w.write_healthy [opUpsert] h
  simp only [hw, if_true]
  split
  · exact h₁
  · exact h₁
  · rename_i bs _
    obtain ⟨hw₂, h₂⟩ := (w.write [opUpsert]).1.write_healthy bs h₁
    simp only [hw₂, if_true]
    exact (BufWriter.write_healthy _ _ h₂).2

theorem append_healthy (op : Op) (h : w.Healthy) : (append w op).1.Healthy := by
  cases op with
  | upsert domain records => exact appendUpsert_healthy w domain records h
  | delete domain =>
    simp only [append, appendDelete]
    split_ifs
    · exact h
    · exact (w.write_healthy _ h).2

theorem append_within (op : Op) (h : w.Healthy) (hl : withinLimits op = true) :
    (append w op).2 = none ∧ (append w op).1.log = w.log ++ encodeOp op := by
  have hh := (append_healthy w op h).1
  have hc := append_cases w op
  generalize (append w op).1 = w' at hh hc ⊢
  generalize (append w op).2 = r at hc ⊢
  cases hc with
  | refused ht => rw [not_tooLarge_of_withinLimits hl] at ht; cases ht
  | stray _ _ hl' _ _ => rw [hl] at hl'; cases hl'
  | logged _ _ hlog _ => exact ⟨rfl, hlog⟩
  | broken _ _ _ _ _ _ _ hf => rw [hh] at hf; cases hf

end

def succeeded {ε : Type} : List Op → List (Option ε) → List Op
  | op :: ops, none :: results => op :: succeeded ops results
  | _ :: ops, some _ :: results => succeeded ops results
  | _, _ => []

end Kdns.Wal
