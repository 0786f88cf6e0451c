import Kdns.Wire.PackHeader

namespace Kdns.Wire

open ByteStream Dns List

def Segmented (name : Bytes) : Prop := ∀ label ∈ name.splitOn dotByte, label.length ≤ maxLabelLen

@[elab_as_elim]
theorem first_induction (d : UInt8) {motive : Bytes → Prop} (base : ∀ a, d ∉ a → motive a)
    (step : ∀ a b, d ∉ a → motive b → motive (a ++ d :: b)) (s : Bytes) : motive s := by
  induction hn : s.length using Nat.strong_induction_on generalizing s with
  | _ n ih =>
    by_cases hd : d ∈ s
    · obtain ⟨a, b, rfl, ha⟩ := eq_append_cons_of_mem hd
      simp only [length_append, length_cons] at hn
      exact step a b ha (ih b.length (by omega) b rfl)
    · exact base s hd

@[elab_as_elim]
theorem first_dot_induction {motive : Bytes → Prop} (base : ∀ a, dotByte ∉ a → motive a)
    (step : ∀ a b, dotByte ∉ a → motive b → motive (a ++ dotByte :: b)) (name : Bytes) : motive name :=
  first_induction dotByte base step name

variable {part name p suffix closing : Bytes} {d : Decompressor} {w : PacketWriter}
  {r : PacketWriter × Option WireError} {q : Question}

theorem part_of_mem_splitOn {d : UInt8} {s : Bytes} (h : part ∈ s.splitOn d) : d ∉ part ∧ part.length ≤ s.length := by
  induction s using first_induction d with
  | base a ha =>
    rw [splitOn_eq_singleton ha, mem_singleton] at h
    rw [h]
    exact ⟨ha, le_rfl⟩
  | step a b ha ih =>
    rw [splitOn_append_cons_self, splitOn_eq_singleton ha] at h
    rw [length_append, length_cons]
    rcases mem_append.mp h with h | h
    · rw [mem_singleton.mp h]
      exact ⟨ha, Nat.le_add_right _ _⟩
    · obtain ⟨hd, hle⟩ := ih h
      exact ⟨hd, by omega⟩

theorem segmented_of_length (h : name.length ≤ maxLabelLen) : Segmented name := by
  intro label hl
  exact (part_of_mem_splitOn hl).2.trans h

theorem Segmented.label {label : Bytes} (h : Segmented label) (hdot : dotByte ∉ label) :
    label.length ≤ maxLabelLen := by
  apply h
  rw [splitOn_eq_singleton hdot]
  exact mem_singleton_self label

theorem segmented_cons {a b : Bytes} : Segmented (a ++ dotByte :: b) ↔ Segmented a ∧ Segmented b := by
  unfold Segmented
  rw [splitOn_append_cons_self]
  simp only [mem_append, or_imp, forall_and]

theorem Segmented.drop (h : Segmented name) (n : ℕ) : Segmented (name.drop n) := by
  induction name using first_dot_induction generalizing n with
  | base a ha =>
    have hlen := h.label ha
    apply segmented_of_length
    rw [length_drop]
    omega
  | step a b ha ih =>
    obtain ⟨hleft, hright⟩ := segmented_cons.mp h
    have hlen := hleft.label ha
    by_cases hn : n ≤ a.length
    · rw [drop_append_of_le_length hn]
      refine segmented_cons.mpr ⟨segmented_of_length ?_, hright⟩
      rw [length_drop]
      omega
    · have hrest : (a ++ dotByte :: b).drop n = b.drop (n - a.length - 1) := by
        rw [drop_append, drop_eq_nil_of_le (by omega), nil_append]
        obtain ⟨k, hk⟩ : ∃ k, n - a.length = k + 1 := ⟨n - a.length - 1, by omega⟩
        rw [hk]
        rfl
      rw [hrest]
      exact ih hright _

theorem Segmented.take (h : Segmented name) (n : ℕ) : Segmented (name.take n) := by
  induction name using first_dot_induction generalizing n with
  | base a ha =>
    have hlen := h.label ha
    apply segmented_of_length
    rw [length_take]
    omega
  | step a b ha ih =>
    obtain ⟨hleft, hright⟩ := segmented_cons.mp h
    by_cases hn : n ≤ a.length
    · have hlen := hleft.label ha
      apply segmented_of_length
      rw [length_take]
      omega
    · obtain ⟨k, rfl⟩ : ∃ k, n = a.length + (k + 1) := ⟨n - a.length - 1, by omega⟩
      rw [take_length_add_append, take_succ_cons]
      exact segmented_cons.mpr ⟨hleft, ih hright k⟩

theorem Segmented.of_isInfix (h : Segmented name) (hpart : part <:+: name) : Segmented part := by
  obtain ⟨front, back, rfl⟩ := hpart
  have hdrop := h.drop front.length
  rw [append_assoc, drop_left] at hdrop
  have htake := hdrop.take part.length
  rwa [take_left] at htake

def Decompressor.Named (d : Decompressor) : Prop :=
  d.buffer.length ≤ maxNameLen ∧ (d.buffer = [] ∨ ∃ name, d.buffer = name ++ [dotByte] ∧ Segmented name)

theorem Decompressor.Named.step {d' : Decompressor} (h : d.Named) (hs : d.step p = .more d') : d'.Named := by
  rcases Decompressor.step_more hs with ⟨hbuf, -, -⟩ | ⟨label, hbuf, -, hmax, -, hlen⟩
  · rw [Decompressor.Named, hbuf]
    exact h
  · constructor
    · grind
    · right
      refine ⟨d.buffer ++ label, hbuf, ?_⟩
      rcases h.2 with hnil | ⟨name, hname, hseg⟩
      · rw [hnil, nil_append]
        exact segmented_of_length hmax
      · rw [hname, append_assoc]
        exact segmented_cons.mpr ⟨hseg, segmented_of_length hmax⟩

theorem decodeFrom_named {fuel : ℕ} {next : ℕ} (hd : d.Named)
    (h : decodeFrom p fuel d = .ok (name, next)) : name.length < maxNameLen ∧ Segmented name := by
  induction fuel generalizing d with
  | zero => cases h
  | succ fuel ih =>
    rw [decodeFrom] at h
    cases hs : d.step p with
    | failed e => rw [hs] at h; cases h
    | more d' =>
      rw [hs] at h
      exact ih (hd.step hs) h
    | done =>
      rw [hs] at h
      cases h
      obtain ⟨hlen, hnil | ⟨name, hname, hseg⟩⟩ := hd
      · rw [hnil]
        exact ⟨by decide, segmented_of_length (by decide)⟩
      · grind

theorem unpackDomainName_named {offset next : ℕ}
    (h : unpackDomainName p offset = .ok (name, next)) : name.length < maxNameLen ∧ Segmented name :=
  decodeFrom_named ⟨Nat.zero_le _, .inl rfl⟩ h

theorem decodeQuestion_name {offset : ℕ} {r : Question × ℕ} (h : decodeQuestion p offset = .ok r) :
    ∃ next, unpackDomainName p offset = .ok (r.1.name, next) := by
  unfold decodeQuestion at h
  cases hname : unpackDomainName p offset with
  | error e => rw [hname] at h; cases h
  | ok d =>
    rw [hname] at h
    simp only [bind, Except.bind, pure, Except.pure, throw, throwThe, MonadExceptOf.throw] at h
    split_ifs at h
    cases h
    exact ⟨d.2, rfl⟩

theorem decodeQuestions_named (p : Bytes) (n offset : ℕ) :
    ∀ q ∈ (decodeQuestions p n offset).1, q.name.length < maxNameLen ∧ Segmented q.name := by
  induction n generalizing offset with
  | zero => simp [decodeQuestions]
  | succ n ih =>
    rw [decodeQuestions]
    cases hq : decodeQuestion p offset with
    | error e => simp
    | ok r =>
      intro q hmem
      rcases mem_cons.mp hmem with rfl | hmem
      · obtain ⟨next, hname⟩ := decodeQuestion_name hq
        exact unpackDomainName_named hname
      · exact ih r.2 q hmem

theorem unpack_named (p : Bytes) : ∀ q ∈ (unpack p).1.questions, q.name.length < maxNameLen ∧ Segmented q.name := by
  rcases unpack_decoded p with hnil | ⟨-, hqs⟩
  · simp [hnil]
  · rw [hqs]
    exact decodeQuestions_named p _ headerSize

def Written (w : PacketWriter) (n : ℕ) (r : PacketWriter × Option WireError) : Prop :=
  r.2 = none ∧ r.1.limit = w.limit ∧ r.1.offset ≤ w.offset + n

theorem put_offset (w : PacketWriter) (bytes : Bytes) : (w.put bytes).offset = w.offset + bytes.length :=
  length_append

theorem written_writeRoot (hfit : w.offset + 1 ≤ w.limit) : Written w 1 w.writeRoot := by
  unfold PacketWriter.writeRoot
  rw [if_neg (by omega)]
  refine ⟨rfl, rfl, ?_⟩
  simp only [put_offset, length_singleton, le_refl]

theorem Written.mono {n n' : ℕ} (h : Written w n r) (hn : n ≤ n') : Written w n' r :=
  ⟨h.1, h.2.1, by have := h.2.2; omega⟩

theorem Written.next {w' : PacketWriter} {n n' : ℕ} (h : Written w n (w', none))
    (h' : Written w' n' r) : Written w (n + n') r :=
  ⟨h'.1, h'.2.1.trans h.2.1, by have := h.2.2; have := h'.2.2; dsimp only at *; omega⟩

theorem split_at_dot {i : ℕ} (h : suffix.idxOf? dotByte = some i) :
    suffix = suffix.take i ++ dotByte :: suffix.drop (i + 1) ∧ i < suffix.length ∧ dotByte ∉ suffix.take i := by
  obtain ⟨hi, hdot, hfirst⟩ := List.idxOf?_eq_some_iff.mp h
  refine ⟨?_, hi, ?_⟩
  · rw [← hdot, getElem_cons_drop, take_append_drop]
  · intro hmem
    obtain ⟨j, hj, heq⟩ := getElem_of_mem hmem
    rw [length_take] at hj
    rw [getElem_take] at heq
    exact hfirst j (by omega) heq

/-- Whatever else is wrong with it, a name was not stopped by the limit and took at most `n` bytes. -/
structure Roomed (w : PacketWriter) (n : ℕ) (r : PacketWriter × Option WireError) : Prop where
  error : r.2 ≠ some .bufferTooSmall
  limit_eq : r.1.limit = w.limit
  offset_le : r.1.offset ≤ w.offset + n

section Room

variable {v : PacketWriter} {n n' : ℕ}

theorem Roomed.mono (h : Roomed w n r) (hn : n ≤ n') : Roomed w n' r :=
  ⟨h.error, h.limit_eq, h.offset_le.trans (Nat.add_le_add_left hn _)⟩

theorem Roomed.next (h : Roomed w n (v, none)) (h' : Roomed v n' r) : Roomed w (n + n') r := by
  have hv : v.offset ≤ w.offset + n := h.offset_le
  have hr := h'.offset_le
  exact ⟨h'.error, h'.limit_eq.trans h.limit_eq, by omega⟩

theorem Written.roomed (h : Written w n r) : Roomed w n r := by
  obtain ⟨hnone, hlimit, hoffset⟩ := h
  refine ⟨?_, hlimit, hoffset⟩
  rw [hnone]
  exact Option.some_ne_none _ |>.symm

theorem Roomed.written (h : Roomed w n r) (herror : ∀ v e, r = (v, some e) → e = .bufferTooSmall) : Written w n r := by
  rcases r with ⟨v, _ | e⟩
  · exact ⟨rfl, h.limit_eq, h.offset_le⟩
  · exact absurd (congrArg some (herror v e rfl)) h.error

theorem roomed_writeLabel {label : Bytes} (hfit : w.offset + 1 + label.length + closing.length ≤ w.limit)
    (suffix : Bytes) (allow : Bool) : Roomed w (1 + label.length + closing.length) (w.writeLabel suffix label closing allow) := by
  obtain ⟨hlimit, hout⟩ := insert_out w suffix
  have hoffset : (w.insert suffix).offset = w.offset := congrArg List.length hout
  unfold PacketWriter.writeLabel
  split_ifs
  · exact ⟨by simp, rfl, Nat.le_add_right _ _⟩
  · exact ⟨by simp, rfl, Nat.le_add_right _ _⟩
  · omega
  · refine ⟨by simp, hlimit, ?_⟩
    simp only [put_offset, hoffset, length_append, length_cons]
    omega
  · refine ⟨by simp, rfl, ?_⟩
    simp only [put_offset, length_append, length_cons]
    omega

theorem roomed_writeSuffix (allow : Bool) (fuel : ℕ) (hfit : w.offset + suffix.length + 2 ≤ w.limit) :
    Roomed w (suffix.length + 2) (writeSuffix allow fuel w suffix) := by
  induction fuel generalizing w suffix with
  | zero => exact ⟨by simp [writeSuffix], rfl, Nat.le_add_right _ _⟩
  | succ fuel ih =>
    rw [writeSuffix]
    split
    · rw [if_neg (by omega)]
      refine ⟨by simp, rfl, ?_⟩
      simp only [put_offset, bigEndian_length]
      omega
    · split
      · have hroom : w.offset + 1 + suffix.length + [(0 : UInt8)].length ≤ w.limit := by
          rw [length_singleton]
          omega
        apply (roomed_writeLabel hroom suffix allow).mono
        rw [length_singleton]
        omega
      · rename_i i hdot
        obtain ⟨-, hi, -⟩ := split_at_dot hdot
        have htake : (suffix.take i).length = i := by
          rw [length_take]
          omega
        have hdrop : (suffix.drop (i + 1)).length = suffix.length - (i + 1) := length_drop
        have hroom : w.offset + 1 + (suffix.take i).length + ([] : Bytes).length ≤ w.limit := by
          rw [htake, length_nil]
          omega
        have hlabel := roomed_writeLabel hroom suffix allow
        rw [htake, length_nil] at hlabel
        rw [PacketWriter.writeIntermediateLabel]
        generalize w.writeLabel suffix (suffix.take i) [] allow = x at hlabel ⊢
        rcases x with ⟨w₁, _ | e⟩
        · have hlimit := hlabel.limit_eq
          have hoffset := hlabel.offset_le
          dsimp only at hlimit hoffset ⊢
          split_ifs
          · apply (hlabel.next (written_writeRoot (by omega)).roomed).mono
            omega
          · apply (hlabel.next (ih (by omega))).mono
            omega
        · exact hlabel.mono (by omega)

theorem roomed_writeDomain (hfit : w.offset + name.length + 2 ≤ w.limit) :
    Roomed w (name.length + 2) (w.writeDomain name) := by
  unfold PacketWriter.writeDomain PacketWriter.writeDomainCompressed
  split_ifs
  · exact ⟨by simp, rfl, Nat.le_add_right _ _⟩
  · exact (written_writeRoot (by omega)).roomed.mono (by omega)
  · exact roomed_writeSuffix true _ hfit

end Room

structure Writable (name : Bytes) : Prop where
  length_le : name.length ≤ maxNameLen
  segmented : Segmented name

section Errors

variable {v : PacketWriter} {e : WireError} {allow : Bool}

theorem writeRoot_error (h : w.writeRoot = (v, some e)) : e = .bufferTooSmall := by
  unfold PacketWriter.writeRoot at h
  split_ifs at h
  · cases h
    rfl
  · cases h

theorem writeLabel_error {label : Bytes} (hshort : label.length ≤ maxLabelLen)
    (h : w.writeLabel suffix label closing allow = (v, some e)) : e = .bufferTooSmall := by
  unfold PacketWriter.writeLabel at h
  rw [if_neg (Nat.not_lt.mpr hshort)] at h
  split_ifs at h <;> cases h
  rfl

theorem writeSuffix_error {fuel : ℕ} (hseg : Segmented suffix)
    (h : writeSuffix allow fuel w suffix = (v, some e)) : e = .bufferTooSmall := by
  induction fuel generalizing w suffix with
  | zero => cases h
  | succ fuel ih =>
    rw [writeSuffix] at h
    split at h
    · split_ifs at h
      · cases h
        rfl
      · cases h
    · split at h
      · rename_i hdot
        exact writeLabel_error (hseg.label (List.idxOf?_eq_none_iff.mp hdot)) h
      · rename_i i hdot
        obtain ⟨heq, -, hnodot⟩ := split_at_dot hdot
        rw [heq] at hseg
        obtain ⟨hleft, hright⟩ := segmented_cons.mp hseg
        rcases hlabel : w.writeIntermediateLabel suffix (suffix.take i) allow with ⟨w₁, _ | e₁⟩
        · rw [hlabel] at h
          split_ifs at h
          · exact writeRoot_error h
          · exact ih hright h
        · rw [hlabel] at h
          cases h
          exact writeLabel_error (hleft.label hnodot) hlabel

theorem writeDomain_error (hname : Writable name) (h : w.writeDomain name = (v, some e)) : e = .bufferTooSmall := by
  unfold PacketWriter.writeDomain PacketWriter.writeDomainCompressed at h
  rw [if_neg (Nat.not_lt.mpr hname.length_le)] at h
  split_ifs at h
  · exact writeRoot_error h
  · exact writeSuffix_error hname.segmented h

end Errors

theorem written_writeSuffix (allow : Bool) (fuel : ℕ) (hseg : Segmented suffix)
    (hfit : w.offset + suffix.length + 2 ≤ w.limit) : Written w (suffix.length + 2) (writeSuffix allow fuel w suffix) :=
  (roomed_writeSuffix allow fuel hfit).written fun _ _ => writeSuffix_error hseg

theorem written_writeDomain (hlen : name.length ≤ maxNameLen) (hseg : Segmented name)
    (hfit : w.offset + name.length + 2 ≤ w.limit) : Written w (name.length + 2) (w.writeDomain name) :=
  (roomed_writeDomain hfit).written fun _ _ => writeDomain_error ⟨hlen, hseg⟩

theorem written_writeQuestion (hlen : q.name.length ≤ maxNameLen) (hseg : Segmented q.name)
    (hfit : w.offset + q.name.length + 6 ≤ w.limit) : Written w (q.name.length + 6) (w.writeQuestion q) := by
  have hname : Written w (q.name.length + 2) (w.writeDomain q.name) := written_writeDomain hlen hseg (by omega)
  unfold PacketWriter.writeQuestion
  generalize w.writeDomain q.name = r at hname ⊢
  rcases r with ⟨w', _ | e⟩
  · obtain ⟨-, hlimit, hoffset⟩ := hname
    dsimp only at hlimit hoffset ⊢
    rw [if_neg (by omega)]
    refine ⟨rfl, hlimit, ?_⟩
    simp only [put_offset, length_append, bigEndian_length]
    omega
  · cases hname.1

theorem writeSections_ofRCode (m : Message) (c : RCode) (w : PacketWriter) :
    ∃ bytes, writeSections m (.ofRCode c) w = .ok bytes := by
  have hanswer : writeAnswerSection m (.ofRCode c) w = (w, .ok 0) := by
    unfold writeAnswerSection
    split
    · exact if_neg fun h => by cases h.2
    · rfl
  have hauthority : writeAuthoritySection m (.ofRCode c) w = (w, .ok 0) := by
    unfold writeAuthoritySection
    split <;> rfl
  have hadditional : writeAdditionalSection m (.ofRCode c) w = (w, .ok 0) := by
    unfold writeAdditionalSection
    split
    · exact if_neg fun h => by cases h.2
    · rfl
  unfold writeSections
  rw [hanswer]
  dsimp only
  rw [hauthority]
  dsimp only
  rw [hadditional]
  exact ⟨_, rfl⟩

theorem packResponse_ofRCode {m : Message} (hq : m.questions = [q])
    (hname : q.name.length < maxNameLen ∧ Segmented q.name) (c : RCode) {bufLen maxSize : ℕ}
    (hbuf : maxUDPSize ≤ bufLen) (hmax : maxUDPSize ≤ maxSize) :
    ∃ bytes, packResponse m bufLen (.ofRCode c) maxSize = .ok bytes := by
  have hudp : maxUDPSize = 512 := rfl
  have hnames : maxNameLen = 255 := rfl
  have hheader : headerSize = 12 := rfl
  unfold packResponse
  rw [hq, if_neg (by simp [maxQuestions])]
  dsimp only
  rw [if_neg (by omega)]
  generalize hw : (⟨min maxSize bufLen, headerBytes m.header.id (responseFlags m (.ofRCode c))
    (UInt16.ofNat [q].length), []⟩ : PacketWriter) = w
  have hoffset : w.offset = 12 := by
    rw [← hw]
    simp [PacketWriter.offset, headerBytes]
  have hwlimit : w.limit = min maxSize bufLen := by rw [← hw]
  have hquestion := written_writeQuestion (w := w) (Nat.le_of_lt hname.1) hname.2 (by omega)
  rw [PacketWriter.writeQuestions]
  generalize w.writeQuestion q = r at hquestion ⊢
  rcases r with ⟨w', _ | e⟩
  · apply writeSections_ofRCode
  · cases hquestion.1

end Kdns.Wire
