import Kdns.Lib.ByteStream

/-!
A buffered writer over an append-only file whose writes and syncs may fail. `faults` lists the fate of
the file operations to come: `none` succeeds, `some k` fails after at most `k` bytes; when the list is
used up everything succeeds.
-/

open List

namespace BufferedFile

open ByteStream

structure File where
  content : Bytes
  faults : List (Option ℕ)
  deriving DecidableEq, Repr

def File.write (f : File) (bs : Bytes) : File × ℕ × Bool :=
  match f.faults with
  | [] => ({ f with content := f.content ++ bs }, bs.length, true)
  | none :: fs => (⟨f.content ++ bs, fs⟩, bs.length, true)
  | some k :: fs => (⟨f.content ++ bs.take (min k (bs.length - 1)), fs⟩, min k (bs.length - 1), false)

def File.sync (f : File) : File × Bool :=
  match f.faults with
  | [] => (f, true)
  | none :: fs => ({ f with faults := fs }, true)
  | some _ :: fs => ({ f with faults := fs }, false)

def bufferSize : ℕ := 4096

structure BufWriter where
  file : File
  buf : Bytes
  failed : Bool
  deriving DecidableEq, Repr

namespace BufWriter

def new (f : File) : BufWriter := ⟨f, [], false⟩

def log (w : BufWriter) : Bytes := w.file.content ++ w.buf

def flush (w : BufWriter) : BufWriter × Bool :=
  if w.failed then (w, false)
  else if w.buf = [] then (w, true)
  else
    let r := w.file.write w.buf
    if r.2.2 then (⟨r.1, [], false⟩, true) else (⟨r.1, w.buf.drop r.2.1, true⟩, false)

def available (w : BufWriter) : ℕ := bufferSize - w.buf.length

def append (w : BufWriter) (p : Bytes) : BufWriter × Bool :=
  if w.failed then (w, false) else ({ w with buf := w.buf ++ p }, true)

def writeThrough (w : BufWriter) (p : Bytes) : BufWriter × Bool :=
  let r := w.file.write p
  if r.2.2 then ({ w with file := r.1 }, true) else ({ w with file := r.1, failed := true }, false)

def writeDirect (w : BufWriter) (p : Bytes) : BufWriter × Bool :=
  if p.length ≤ w.available ∨ w.failed then w.append p else w.writeThrough p

def write (w : BufWriter) (p : Bytes) : BufWriter × Bool :=
  if p.length ≤ w.available ∨ w.failed ∨ w.buf = [] then w.writeDirect p
  else (flush { w with buf := w.buf ++ p.take w.available }).1.writeDirect (p.drop w.available)

theorem file_write_content (f : File) (bs : Bytes) (h : bs ≠ []) :
    ((f.write bs).2.2 = true → (f.write bs).1.content = f.content ++ bs) ∧
    ((f.write bs).2.2 = false → (f.write bs).1.content = f.content ++ bs.take (f.write bs).2.1 ∧
      (f.write bs).2.1 < bs.length) := by
  have hl : 0 < bs.length := length_pos_of_ne_nil h
  unfold File.write
  split
  · simp
  · simp
  · grind

section

variable (w : BufWriter)

theorem flush_log : (w.flush).1.log = w.log := by
  unfold flush
  split_ifs with hf hb
  · rfl
  · rfl
  · obtain ⟨ht, he⟩ := file_write_content w.file w.buf hb
    dsimp only
    split_ifs with hr
    · simp [log, ht hr]
    · simp [log, (he (by simpa using hr)).1]

theorem flush_ok (h : (w.flush).2 = true) :
    (w.flush).1.file.content = w.log ∧ (w.flush).1.buf = [] ∧ (w.flush).1.failed = false := by
  unfold flush at h ⊢
  split_ifs at h ⊢ with hf hb
  · simp [log, hb, hf]
  · obtain ⟨ht, -⟩ := file_write_content w.file w.buf hb
    dsimp only at h ⊢
    split_ifs at h ⊢ with hr
    simp [log, ht hr]

theorem flush_back (h : (w.flush).2 = true) : w.failed = false := by
  unfold flush at h
  split_ifs at h with hf hb
  · simpa using hf
  · simpa using hf

theorem flush_failed (h : (w.flush).2 = false) : (w.flush).1.failed = true := by
  unfold flush at h ⊢
  split_ifs at h ⊢ with hf hb
  · exact hf
  · dsimp only at h ⊢
    split_ifs at h ⊢
    rfl

theorem append_spec (p : Bytes) :
    ((w.append p).2 = true → (w.append p).1.log = w.log ++ p ∧ (w.append p).1.failed = false) ∧
    ((w.append p).2 = false → (w.append p).1 = w ∧ w.failed = true) := by
  unfold append
  split_ifs with hf
  · simp [hf]
  · simp [log, hf]

theorem writeThrough_spec (p : Bytes) (hb : w.buf = []) (hp : p ≠ []) (hf : w.failed = false) :
    ((w.writeThrough p).2 = true → (w.writeThrough p).1.log = w.log ++ p ∧ (w.writeThrough p).1.failed = false) ∧
    ((w.writeThrough p).2 = false → (∃ q, q <+: p ∧ q ≠ p ∧ (w.writeThrough p).1.log = w.log ++ q) ∧
      (w.writeThrough p).1.failed = true) := by
  obtain ⟨ht, he⟩ := file_write_content w.file p hp
  unfold writeThrough
  dsimp only
  split_ifs with hr
  · simp [log, hb, ht hr, hf]
  · obtain ⟨hc, hl⟩ := he (by simpa using hr)
    refine ⟨by simp, fun _ => ⟨⟨p.take (w.file.write p).2.1, take_prefix _ _, fun hq => ?_, by simp [log, hb, hc]⟩, rfl⟩⟩
    have := congrArg List.length hq
    rw [length_take] at this
    omega

theorem writeDirect_spec (p : Bytes) (hp : p ≠ []) (hw : p.length ≤ w.available ∨ w.failed ∨ w.buf = []) :
    ((w.writeDirect p).2 = true → (w.writeDirect p).1.log = w.log ++ p ∧ (w.writeDirect p).1.failed = false) ∧
    ((w.writeDirect p).2 = false → (∃ q, q <+: p ∧ q ≠ p ∧ (w.writeDirect p).1.log = w.log ++ q) ∧
      (w.writeDirect p).1.failed = true) := by
  unfold writeDirect
  split_ifs with ha
  · obtain ⟨h₁, h₂⟩ := append_spec w p
    refine ⟨h₁, fun h => ?_⟩
    obtain ⟨he, hf⟩ := h₂ h
    rw [he]
    exact ⟨⟨[], nil_prefix, fun h => hp h.symm, by simp⟩, hf⟩
  · simp only [not_or, Bool.not_eq_true] at ha
    have hb : w.buf = [] := by
      rcases hw with h | h | h
      · exact absurd h ha.1
      · rw [ha.2] at h; cases h
      · exact h
    exact writeThrough_spec w p hb hp ha.2

theorem write_spec (p : Bytes) (hp : p ≠ []) :
    ((w.write p).2 = true → (w.write p).1.log = w.log ++ p ∧ (w.write p).1.failed = false) ∧
    ((w.write p).2 = false → (∃ q, q <+: p ∧ q ≠ p ∧ (w.write p).1.log = w.log ++ q) ∧
      (w.write p).1.failed = true) := by
  unfold write
  split_ifs with ha
  · exact writeDirect_spec w p hp ha
  · simp only [not_or, not_le, Bool.not_eq_true] at ha
    have hsplit := take_append_drop w.available p
    have hq : p.drop w.available ≠ [] := by
      intro h
      have := congrArg List.length h
      rw [length_drop, length_nil] at this
      omega
    generalize hw₁ : (flush { w with buf := w.buf ++ p.take w.available }).1 = w₁
    have hlog : w₁.log = w.log ++ p.take w.available := by rw [← hw₁, flush_log]; simp [log]
    have hcase : (p.drop w.available).length ≤ w₁.available ∨ w₁.failed ∨ w₁.buf = [] := by
      cases hok : (flush { w with buf := w.buf ++ p.take w.available }).2 with
      | true => exact .inr (.inr (hw₁ ▸ (flush_ok _ hok).2.1))
      | false => exact .inr (.inl (hw₁ ▸ flush_failed _ hok))
    obtain ⟨h₁, h₂⟩ := writeDirect_spec w₁ (p.drop w.available) hq hcase
    refine ⟨fun h => ?_, fun h => ?_⟩
    · grind
    · obtain ⟨⟨q, hq₁, hq₂, hq₃⟩, hf⟩ := h₂ h
      refine ⟨⟨p.take w.available ++ q, ?_, fun he => hq₂ ?_, by rw [hq₃, hlog, append_assoc]⟩, hf⟩
      · conv_rhs => rw [← hsplit]
        exact (prefix_append_right_inj _).mpr hq₁
      · conv_rhs at he => rw [← hsplit]
        exact append_cancel_left he

end

theorem file_write_extends (f : File) (bs : Bytes) : f.content <+: (f.write bs).1.content := by
  unfold File.write
  split <;> exact prefix_append _ _

theorem flush_extends (w : BufWriter) : w.file.content <+: (w.flush).1.file.content := by
  unfold flush
  split_ifs
  · apply prefix_refl
  · apply prefix_refl
  · dsimp only
    split_ifs <;> exact file_write_extends _ _

theorem writeDirect_extends (w : BufWriter) (p : Bytes) : w.file.content <+: (w.writeDirect p).1.file.content := by
  unfold writeDirect append writeThrough
  split_ifs
  · apply prefix_refl
  · apply prefix_refl
  · dsimp only
    split_ifs <;> exact file_write_extends _ _

theorem write_extends (w : BufWriter) (p : Bytes) : w.file.content <+: (w.write p).1.file.content := by
  unfold write
  split_ifs
  · exact writeDirect_extends w p
  · exact (flush_extends { w with buf := w.buf ++ p.take w.available }).trans (writeDirect_extends _ _)

theorem write_failed (w : BufWriter) (p : Bytes) (h : w.failed = true) : w.write p = (w, false) := by
  simp [write, writeDirect, append, h]

def Healthy (w : BufWriter) : Prop := w.failed = false ∧ ∀ x ∈ w.file.faults, x = none

theorem file_write_healthy (f : File) (bs : Bytes) (h : ∀ x ∈ f.faults, x = none) :
    (f.write bs).2.2 = true ∧ ∀ x ∈ (f.write bs).1.faults, x = none := by
  obtain ⟨c, faults⟩ := f
  cases faults with
  | nil => simp [File.write]
  | cons x xs =>
    obtain ⟨rfl, hxs⟩ := forall_mem_cons.mp h
    exact ⟨rfl, hxs⟩

theorem file_sync_content (f : File) : f.sync.1.content = f.content := by
  unfold File.sync
  split <;> rfl

theorem flush_healthy (w : BufWriter) (h : w.Healthy) : (w.flush).2 = true ∧ (w.flush).1.Healthy := by
  unfold flush
  rw [if_neg (by simp [h.1])]
  split_ifs with hb
  · exact ⟨rfl, h⟩
  · obtain ⟨hok, hfs⟩ := file_write_healthy w.file w.buf h.2
    simp only [hok, if_true]
    exact ⟨trivial, rfl, hfs⟩

theorem writeDirect_healthy (w : BufWriter) (p : Bytes) (h : w.Healthy) :
    (w.writeDirect p).2 = true ∧ (w.writeDirect p).1.Healthy := by
  unfold writeDirect
  split_ifs with ha
  · simp only [append, h.1, Bool.false_eq_true, if_false]
    exact ⟨trivial, rfl, h.2⟩
  · obtain ⟨hok, hfs⟩ := file_write_healthy w.file p h.2
    simp only [writeThrough, hok, if_true]
    exact ⟨trivial, h.1, hfs⟩

theorem write_healthy (w : BufWriter) (p : Bytes) (h : w.Healthy) : (w.write p).2 = true ∧ (w.write p).1.Healthy := by
  unfold write
  split_ifs
  · exact writeDirect_healthy w p h
  · exact writeDirect_healthy _ _ (flush_healthy { w with buf := w.buf ++ p.take w.available } h).2

end BufWriter

end BufferedFile
