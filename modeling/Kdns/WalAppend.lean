import Kdns.WalReplay

namespace Kdns.Wal

open ByteStream FramedLog BufferedFile Dns Codec List

def tooLarge : Op → Bool
  | .upsert domain records => domain.length > maxDomainLen || records.length > maxRecordsPerDomain
  | .delete domain => domain.length > maxDomainLen

def withinLimits : Op → Bool
  | .upsert domain records => (calculateFrameSize domain records).isOk
  | .delete domain => domain.length ≤ maxDomainLen

def WellFormed : Op → Prop
  | .upsert _ records => ClassIN records
  | .delete domain => domain ≠ []

instance : (op : Op) → Decidable (WellFormed op)
  | .upsert _ records => inferInstanceAs (Decidable (ClassIN records))
  | .delete domain => inferInstanceAs (Decidable (domain ≠ []))

theorem fits_of_withinLimits {domain : Bytes} {records : RRSets} (hl : withinLimits (.upsert domain records) = true) :
    Fits domain records := by
  simp only [withinLimits] at hl
  cases hn : calculateFrameSize domain records with
  | error e => rw [hn] at hl; cases hl
  | ok n => exact (calculateFrameSize_ok hn).2

variable {op : Op} {w : Writer} {ops : List Op}

theorem replayable_of_withinLimits (hl : withinLimits op = true) (hw : WellFormed op) : Replayable op := by
  cases op with
  | upsert domain records => exact ⟨fits_of_withinLimits hl, hw⟩
  | delete domain => exact ⟨hw, by simpa [withinLimits] using hl⟩

theorem not_tooLarge_of_withinLimits (hl : withinLimits op = true) : tooLarge op = false := by
  cases op with
  | upsert domain records =>
    have hf := fits_of_withinLimits hl
    simpa [tooLarge] using And.intro hf.domain_le hf.records_le
  | delete domain => simpa [withinLimits, tooLarge] using hl

inductive Appended (w : Writer) (op : Op) : Writer → Option WalError → Prop
  | refused (hl : tooLarge op = true) : Appended w op w (some .capacityExceeded)
  | stray (w' : Writer) (ht : tooLarge op = false) (hl : withinLimits op = false)
      (hlog : w'.log = w.log ++ [opUpsert]) (hf : w'.failed = false) : Appended w op w' (some .capacityExceeded)
  | logged (w' : Writer) (hl : withinLimits op = true)
      (hlog : w'.log = w.log ++ encodeOp op) (hf : w'.failed = false) : Appended w op w' none
  | broken (w' : Writer) (stage : WriteStage) (q : Bytes) (hl : withinLimits op = true ∨ q = [])
      (hq : q <+: encodeOp op) (hne : q ≠ encodeOp op) (hlog : w'.log = w.log ++ q) (hf : w'.failed = true) :
      Appended w op w' (some (.write stage))

theorem appendDelete_cases (w : Writer) (domain : Bytes) :
    Appended w (.delete domain) (appendDelete w domain).1 (appendDelete w domain).2 := by
  unfold appendDelete
  split_ifs with hl
  · exact .refused (by simpa [tooLarge] using hl)
  · have hl' : withinLimits (.delete domain) = true := by simpa [withinLimits] using hl
    have hne : deletePayload domain ++ checksum (deletePayload domain) ≠ [] := by simp [deletePayload]
    obtain ⟨hok, hbad⟩ := w.write_spec _ hne
    cases hr : (w.write (deletePayload domain ++ checksum (deletePayload domain))).2 with
    | true =>
      simp only [reportWrite, hr, if_true]
      exact .logged _ hl' (hok hr).1 (hok hr).2
    | false =>
      obtain ⟨⟨q, hq, hqne, hlog⟩, hf⟩ := hbad hr
      simp only [reportWrite, hr, Bool.false_eq_true, if_false]
      exact .broken _ _ q (.inl hl') hq hqne hlog hf

theorem appendPayload_cases (w w₁ : Writer) (domain : Bytes) (records : RRSets)
    (hl : withinLimits (.upsert domain records) = true) (hlog : w₁.log = w.log ++ [opUpsert]) :
    let r := w₁.write (encodeRecord domain records)
    let out := if r.2 then reportWrite .checksum (r.1.write (checksum (upsertPayload domain records)))
      else (r.1, some (.write .upsertPayload))
    Appended w (.upsert domain records) out.1 out.2 := by
  have hne : encodeRecord domain records ≠ [] := by simp [encodeRecord, bigEndian]
  have hne' : checksum (upsertPayload domain records) ≠ [] := by simp [checksum, bigEndian]
  have hop : encodeOp (.upsert domain records) =
      [opUpsert] ++ (encodeRecord domain records ++ checksum (upsertPayload domain records)) := rfl
  obtain ⟨hok, hbad⟩ := w₁.write_spec _ hne
  dsimp only
  split_ifs with hw
  · obtain ⟨hlog₂, -⟩ := hok hw
    obtain ⟨hok', hbad'⟩ := (w₁.write (encodeRecord domain records)).1.write_spec _ hne'
    cases hr : ((w₁.write (encodeRecord domain records)).1.write (checksum (upsertPayload domain records))).2 with
    | true =>
      simp only [reportWrite, hr, if_true]
      refine .logged _ hl ?_ (hok' hr).2
      rw [(hok' hr).1, hlog₂, hlog, hop]
      simp
    | false =>
      obtain ⟨⟨q, hq, hqne, hlog₃⟩, hf⟩ := hbad' hr
      obtain ⟨hq', hqne'⟩ := proper_prefix_mid ([opUpsert] ++ encodeRecord domain records) [] hq hqne
      simp only [reportWrite, hr, Bool.false_eq_true, if_false]
      refine .broken _ _ ([opUpsert] ++ encodeRecord domain records ++ q) (.inl hl) ?_ ?_ ?_ hf
      · simpa [hop] using hq'
      · simpa [hop] using hqne'
      · rw [hlog₃, hlog₂, hlog]
        simp
  · obtain ⟨⟨q, hq, hqne, hlog₂⟩, hf⟩ := hbad (by simpa using hw)
    obtain ⟨hq', hqne'⟩ := proper_prefix_mid [opUpsert] (checksum (upsertPayload domain records)) hq hqne
    refine .broken _ _ ([opUpsert] ++ q) (.inl hl) hq' hqne' ?_ hf
    rw [hlog₂, hlog, append_assoc]

theorem appendUpsert_cases (w : Writer) (domain : Bytes) (records : RRSets) :
    Appended w (.upsert domain records) (appendUpsert w domain records).1 (appendUpsert w domain records).2 := by
  unfold appendUpsert
  split_ifs with hl
  · exact .refused (by simpa [tooLarge] using hl)
  have ht : tooLarge (.upsert domain records) = false := by simpa [tooLarge, not_or] using hl
  obtain ⟨hok, hbad⟩ := w.write_spec [opUpsert] (by simp)
  dsimp only
  split_ifs with hw
  · obtain ⟨hlog, hf⟩ := hok hw
    cases hn : calculateFrameSize domain records with
    | error e =>
      have hrec : writeRecord domain records = .error e := by rw [writeRecord, hn]
      obtain ⟨l, rfl⟩ := writeRecord_error hrec
      rw [hrec]
      exact .stray _ ht (by rw [withinLimits, hn]; rfl) hlog hf
    | ok n =>
      have hl' : withinLimits (.upsert domain records) = true := by rw [withinLimits, hn]; rfl
      rw [show writeRecord domain records = .ok (encodeRecord domain records) by rw [writeRecord, hn]]
      exact appendPayload_cases w _ domain records hl' hlog
  · obtain ⟨⟨q, hq, hqne, hlog⟩, hf⟩ := hbad (by simpa using hw)
    obtain ⟨hq', hqne'⟩ := proper_prefix_mid [] (encodeRecord domain records ++
      checksum (upsertPayload domain records)) hq hqne
    have h0 : q = [] := by
      have hlt := lt_of_le_of_ne hq.length_le fun he => hqne (hq.eq_of_length he)
      exact length_eq_zero_iff.mp (by simpa using hlt)
    exact .broken _ _ q (.inr h0) hq' hqne' hlog hf

theorem append_cases (w : Writer) (op : Op) : Appended w op (append w op).1 (append w op).2 := by
  cases op with
  | upsert domain records => exact appendUpsert_cases w domain records
  | delete domain => exact appendDelete_cases w domain

def appendAll (w : Writer) : List Op → Writer × List (Option WalError)
  | [] => (w, [])
  | op :: ops =>
    let r := append w op
    let rs := appendAll r.1 ops
    (rs.1, r.2 :: rs.2)

theorem append_none (h : (append w op).2 = none) :
    withinLimits op = true ∧ (append w op).1.log = w.log ++ encodeOp op ∧ (append w op).1.failed = false := by
  have hc := append_cases w op
  rw [h] at hc
  generalize (append w op).1 = w' at hc ⊢
  cases hc with
  | logged _ hl hlog hf => exact ⟨hl, hlog, hf⟩

theorem appendAll_log (h : ∀ r ∈ (appendAll w ops).2, r = none) :
    (appendAll w ops).1.log = w.log ++ encodeLog ops ∧ ∀ op ∈ ops, withinLimits op = true := by
  induction ops generalizing w with
  | nil => simp [appendAll, encodeLog]
  | cons op ops ih =>
    simp only [appendAll, forall_mem_cons] at h ⊢
    obtain ⟨hl, hlog, -⟩ := append_none h.1
    obtain ⟨hlog', hl'⟩ := ih h.2
    refine ⟨?_, hl, hl'⟩
    rw [hlog', hlog, append_assoc]
    rfl

theorem appendAll_take (h : ∀ r ∈ (appendAll w ops).2, r = none) (k : ℕ) :
    ∀ r ∈ (appendAll w (ops.take k)).2, r = none := by
  induction ops generalizing w k with
  | nil => simp [appendAll]
  | cons op ops ih =>
    cases k with
    | zero => simp [appendAll]
    | succ k =>
      simp only [appendAll, take_succ_cons, forall_mem_cons] at h ⊢
      exact ⟨h.1, ih h.2 k⟩

theorem replayable_of_appended (hw : ∀ op ∈ ops, WellFormed op)
    (h : ∀ r ∈ (appendAll w ops).2, r = none) : ∀ op ∈ ops, Replayable op :=
  fun op hop => replayable_of_withinLimits ((appendAll_log h).2 op hop) (hw op hop)

theorem replay_take (f : File) (hf : f.content = []) (ops : List Op) (hw : ∀ op ∈ ops, WellFormed op)
    (hok : ∀ r ∈ (appendAll (BufWriter.new f) ops).2, r = none) (n : ℕ)
    (hn : n ≤ (appendAll (BufWriter.new f) ops).1.log.length) :
    let frameEnd (k : ℕ) := (appendAll (BufWriter.new f) (ops.take k)).1.log.length
    ∃ k ≤ ops.length, frameEnd k ≤ n ∧ (∀ j, k < j → j ≤ ops.length → n < frameEnd j) ∧
      replay ((appendAll (BufWriter.new f) ops).1.log.take n) .eof =
        (ops.take k, if n = frameEnd k then none else some .truncated) := by
  have hnew : (BufWriter.new f).log = [] := by simp [BufWriter.new, BufWriter.log, hf]
  have hend : ∀ k, (appendAll (BufWriter.new f) (ops.take k)).1.log = encodeLog (ops.take k) := by
    intro k
    rw [(appendAll_log (appendAll_take hok k)).1, hnew, nil_append]
  have hlog : (appendAll (BufWriter.new f) ops).1.log = encodeLog ops := by
    rw [(appendAll_log hok).1, hnew, nil_append]
  have hrep := replayable_of_appended hw hok
  simp only [hend, hlog] at hn ⊢
  obtain ⟨k, hk, q, hcut, hq, hmax⟩ := take_flatMap encodeOp ops (fun op _ => encodeOp_ne_nil op) n hn
  change (encodeLog ops).take n = encodeLog (ops.take k) ++ q at hcut
  have hlen : n = (encodeLog (ops.take k)).length + q.length := by
    have := congrArg List.length hcut
    rw [length_take, Nat.min_eq_left hn, length_append] at this
    exact this
  have htorn : Torn q ∨ q = [] := by
    rcases hq with rfl | ⟨op, hop, hp⟩
    · exact .inr rfl
    · exact .inl ⟨op, hrep op hop, hp⟩
  refine ⟨k, hk, by omega, hmax, ?_⟩
  rw [hcut]
  have hrep' : ∀ op ∈ ops.take k, Replayable op := fun op hop => hrep op (mem_of_mem_take hop)
  by_cases h0 : q = []
  · rw [h0, append_nil, if_pos (by rw [hlen, h0]; rfl)]
    exact replay_encodeLog _ hrep'
  · have hpos := length_pos_of_ne_nil h0
    rw [replay_encodeLog_torn _ hrep' q (htorn.resolve_right h0), if_neg h0, if_neg (by omega)]

theorem replay_take_inside_delete :
    let ops := [Op.upsert [0x61] [⟨[[1, 2, 3, 4]], 300, 1, classIN⟩], .delete [0x61]]
    replay ((appendAll (BufWriter.new ⟨[], []⟩) ops).1.log.take 30) .eof = (ops.take 1, some .truncated) := by
  intro ops
  obtain ⟨k, hk, hle, hmax, hr⟩ :=
    replay_take ⟨[], []⟩ rfl ops (by decide) (by decide +kernel) 30 (by decide +kernel)
  have h₁ : k ≠ 0 := by
    rintro rfl
    exact absurd (hmax 1 (by omega) (by decide)) (by decide +kernel)
  have h₂ : k ≠ 2 := by
    rintro rfl
    exact absurd hle (by decide +kernel)
  have hk' : k ≤ 2 := hk
  obtain rfl : k = 1 := by omega
  rw [hr, if_neg (by decide +kernel)]

end Kdns.Wal
