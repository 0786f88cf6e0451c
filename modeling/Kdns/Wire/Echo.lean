import Kdns.Wire.Sections
import Kdns.Radix.Labels

namespace Kdns.Wire

open ByteStream Dns CompressedName List

theorem dotted_ne_nil (l : Bytes) (ls : List Bytes) : dotted (l :: ls) ≠ [] := by
  rw [dotted_cons]
  simp

variable {l packet : Bytes} {ls front back : List Bytes} {w w' : PacketWriter} {m : Message} {q : Question}

theorem dotted_dropLast_cons {l' : Bytes} :
    (dotted (l :: l' :: ls)).dropLast = l ++ dotByte :: (dotted (l' :: ls)).dropLast := by
  rw [dotted_cons, dropLast_append_of_ne_nil (dotted_ne_nil l' ls), append_assoc]
  rfl

theorem nameLabels_dotted (hl : ∀ l ∈ ls, IsLabel l) (hdot : ∀ l ∈ ls, dotByte ∉ l) :
    nameLabels (dotted ls).dropLast = ls := by
  induction ls with
  | nil => rfl
  | cons l ls ih =>
    obtain ⟨hfirst, hrest⟩ := forall_mem_cons.mp hl
    obtain ⟨hnodot, hnodots⟩ := forall_mem_cons.mp hdot
    have hone : nameLabels l = [l] := by rw [nameLabels_nodot hnodot, if_neg hfirst.nonempty]
    cases ls with
    | nil =>
      rw [dotted_cons, dotted, flatMap_nil, append_nil, dropLast_concat]
      exact hone
    | cons l' ls =>
      rw [dotted_dropLast_cons, nameLabels_dot, hone, ih hrest hnodots]
      rfl

theorem nameLabels_no_dot {name : Bytes} (h : l ∈ nameLabels name) : dotByte ∉ l :=
  (part_of_mem_splitOn (mem_of_mem_filter h)).1

theorem NameWritten.isPrefix {name closing : Bytes}
    (h : NameWritten w name w' front back closing) : encodeLabels front ++ closing <+: w'.out.drop w.offset := by
  rw [h.out_eq]
  exact put_isPrefix w _

theorem NameWritten.nameAt_root {name : Bytes} (h : NameWritten w name w' front back [0]) {lo : ℕ}
    (hlo : lo ≤ w.offset) : NameAt w'.out lo w.offset front 0 w'.offset := by
  have hoffset : w'.offset = w.offset + (encodeLabels front).length + 1 := by
    rw [PacketWriter.offset, h.out_eq, length_append, length_append, length_singleton]
    rfl
  obtain ⟨post, hpost⟩ := h.isPrefix
  rw [append_assoc] at hpost
  have hroot : NameAt w'.out lo (w.offset + (encodeLabels front).length) [] 0 w'.offset := by
    rw [hoffset]
    apply NameAt.root (by omega)
    rw [← drop_drop, ← hpost, drop_left]
    exact ⟨post, rfl⟩
  have hname := NameAt.encode hlo h.front_labels ⟨_, hpost⟩ hroot
  rwa [append_nil] at hname

theorem Appended.nameAt {more : Bytes} {cut : Prop} (h : Appended w w' more cut) (hs : w.Sound) {i j next : ℕ}
    (hat : NameAt w.out headerSize i ls j next) : NameAt w'.out headerSize i ls j next := by
  apply (hat.append more).congr
  rw [h.body]
  exact drop_append_of_le_length hs.header

theorem question_nameAt {qs : List Question} (hq : m.questions = q :: qs) {bufLen maxSize : ℕ} {res : Response}
    {bytes : Bytes} (h : packResponse m bufLen res maxSize = .ok bytes) :
    ∃ next, NameAt bytes headerSize headerSize (nameLabels q.name) 0 next := by
  obtain ⟨w, w', hstart, hw, ⟨more, cut, hgrows⟩, -, hbody⟩ := packResponse_grows h
  have hoffset : (headerWriter m bufLen res maxSize).offset = headerSize := by rfl
  rw [hq] at hw
  obtain ⟨w₁, hfirst, hw⟩ := writeQuestions_cons hw
  obtain ⟨o, tail, -, -, hquestion⟩ := appended_question hstart hfirst
  obtain ⟨rest, hrest, -⟩ := appended_questions hquestion.sound hw
  have hall := hrest.trans hgrows
  obtain ⟨v, hname, -, rfl⟩ := writeQuestion_ok hfirst
  obtain ⟨front, back, closing, hn⟩ := writeDomainCompressed_written hname
  rcases hn.closed with ⟨rfl, rfl⟩ | ⟨s, t, rest', hmem, -⟩
  · have hlabels := hn.labels_eq
    rw [append_nil] at hlabels
    have hat := hn.nameAt_root hoffset.ge
    rw [hoffset, ← hlabels] at hat
    exact ⟨_, (hall.nameAt hquestion.sound (hat.append _)).congr hbody.symm⟩
  · exact absurd hmem not_mem_nil

structure Asks (packet : Bytes) (m : Message) (q : Question) (ls : List Bytes) : Prop where
  accepted : unpack packet = (m, none)
  single : m.questions = [q]
  read : ∃ j next, NameAt packet 0 headerSize ls j next

def Echoed (m : Message) (ls : List Bytes) : Prop :=
  ∀ bufLen res maxSize bytes, packResponse m bufLen res maxSize = .ok bytes →
    ∃ j next, NameAt bytes 0 headerSize ls j next

theorem Asks.name (h : Asks packet m q ls) :
    q.name = (dotted ls).dropLast ∧ q.name.length < maxNameLen ∧ Segmented q.name := by
  obtain ⟨-, -, offset, hquestions⟩ := unpack_ok h.accepted
  refine ⟨?_, unpack_named packet q (by simp [h.accepted, h.single])⟩
  rw [h.single] at hquestions
  have hcount := decodeQuestions_length hquestions
  rw [← hcount, length_singleton, decodeQuestions] at hquestions
  rcases hq : decodeQuestion packet headerSize with e | r
  · rw [hq] at hquestions
    cases hquestions
  · rw [hq] at hquestions
    obtain ⟨heq, -⟩ := List.cons.inj (Prod.mk.inj hquestions).1
    obtain ⟨next, hname⟩ := decodeQuestion_name hq
    obtain ⟨ls', j, hat, -, -, hdotted⟩ := unpackDomainName_nameAt hname
    obtain ⟨j', next', hat'⟩ := h.read
    rw [← heq, hdotted, (hat.unique hat').1]

theorem echoed_iff (h : Asks packet m q ls) : Echoed m ls ↔ nameLabels q.name = ls := by
  constructor
  · intro he
    obtain ⟨-, hnamed⟩ := h.name
    obtain ⟨bytes, hbytes⟩ : ∃ bytes, packResponse m maxUDPSize (.ofRCode .success) maxUDPSize = .ok bytes :=
      packResponse_ofRCode h.single hnamed .success le_rfl le_rfl
    obtain ⟨next, hat⟩ := question_nameAt h.single hbytes
    obtain ⟨j', next', hat'⟩ := he _ _ _ _ hbytes
    exact (hat.unique hat').1
  · rintro rfl bufLen res maxSize bytes hbytes
    obtain ⟨next, hat⟩ := question_nameAt h.single hbytes
    exact ⟨0, next, hat.mono (Nat.zero_le _)⟩

theorem Asks.nameLabels_iff (h : Asks packet m q ls) : nameLabels q.name = ls ↔ ∀ l ∈ ls, dotByte ∉ l := by
  constructor
  · rintro rfl l hl
    exact nameLabels_no_dot hl
  · intro hdot
    obtain ⟨j, next, hat⟩ := h.read
    rw [h.name.1]
    exact nameLabels_dotted (NameAt.labels hat) hdot

theorem labels_eq_nameLabels (name : Bytes) : Radix.labels name = ((nameLabels name).map Radix.lower).reverse :=
  Radix.labels_eq_normalLabels name

theorem echo_iff {packet packet' : Bytes} {m m' : Message} {q q' : Question} {ls ls' : List Bytes}
    (h : Asks packet m q ls) (h' : Asks packet' m' q' ls') :
    (Echoed m ls ∧ Echoed m' ls' ∧
        (Radix.labels q.name = Radix.labels q'.name → ls.map Radix.lower = ls'.map Radix.lower)) ↔
      (∀ l ∈ ls, dotByte ∉ l) ∧ ∀ l ∈ ls', dotByte ∉ l := by
  rw [echoed_iff h, echoed_iff h', ← h.nameLabels_iff, ← h'.nameLabels_iff, ← and_assoc]
  apply and_iff_left_of_imp
  rintro ⟨hls, hls'⟩ heq
  rw [labels_eq_nameLabels, labels_eq_nameLabels, hls, hls'] at heq
  exact reverse_injective heq

def questionPacket (name : Bytes) : Bytes := [0x12, 0x34, 1, 0, 0, 1, 0, 0, 0, 0, 0, 0] ++ name ++ [0, 1, 0, 1]

def questionMessage (name : Bytes) : Message :=
  ⟨⟨0x1234, 0x0100, 1, 0, 0, 0⟩, [⟨name, 1, classIN⟩], 0, false, 0⟩

theorem asks_oneLabel : Asks (questionPacket [1, 0x61, 0]) (questionMessage [0x61]) ⟨[0x61], 1, classIN⟩ [[0x61]] where
  accepted := by decide +kernel
  single := rfl
  read := ⟨0, _, .label (Nat.zero_le _) ⟨nofun, by decide⟩ (by decide) (.root (Nat.zero_le _) (by decide))⟩

theorem asks_twoLabels :
    Asks (questionPacket [1, 0x61, 1, 0x62, 0]) (questionMessage [0x61, 0x2E, 0x62]) ⟨[0x61, 0x2E, 0x62], 1, classIN⟩
      [[0x61], [0x62]] where
  accepted := by decide +kernel
  single := rfl
  read := ⟨0, _, .label (Nat.zero_le _) ⟨nofun, by decide⟩ (by decide)
    (.label (Nat.zero_le _) ⟨nofun, by decide⟩ (by decide) (.root (Nat.zero_le _) (by decide)))⟩

theorem asks_dotInLabel :
    Asks (questionPacket [3, 0x61, 0x2E, 0x62, 0]) (questionMessage [0x61, 0x2E, 0x62]) ⟨[0x61, 0x2E, 0x62], 1, classIN⟩
      [[0x61, 0x2E, 0x62]] where
  accepted := by decide +kernel
  single := rfl
  read := ⟨0, _, .label (Nat.zero_le _) ⟨nofun, by decide⟩ (by decide) (.root (Nat.zero_le _) (by decide))⟩

theorem echo_iff_plain :
    Echoed (questionMessage [0x61]) [[0x61]] ∧ Echoed (questionMessage [0x61, 0x2E, 0x62]) [[0x61], [0x62]] ∧
      (Radix.labels [0x61] = Radix.labels [0x61, 0x2E, 0x62] →
        [[0x61]].map Radix.lower = [[0x61], [0x62]].map Radix.lower) :=
  (echo_iff asks_oneLabel asks_twoLabels).mpr ⟨by decide, by decide⟩

/-- The label `a.b` comes back as two labels, and is looked up as they are. -/
theorem echo_splits_label :
    Asks (questionPacket [3, 0x61, 0x2E, 0x62, 0]) (questionMessage [0x61, 0x2E, 0x62]) ⟨[0x61, 0x2E, 0x62], 1, classIN⟩
        [[0x61, 0x2E, 0x62]] ∧
      Asks (questionPacket [1, 0x61, 1, 0x62, 0]) (questionMessage [0x61, 0x2E, 0x62]) ⟨[0x61, 0x2E, 0x62], 1, classIN⟩
        [[0x61], [0x62]] ∧
      packResponse (questionMessage [0x61, 0x2E, 0x62]) 512 (.ofRCode .nameError) 512 =
        .ok [0x12, 0x34, 0x85, 3, 0, 1, 0, 0, 0, 0, 0, 0, 1, 0x61, 1, 0x62, 0, 0, 1, 0, 1] ∧
      ¬ Echoed (questionMessage [0x61, 0x2E, 0x62]) [[0x61, 0x2E, 0x62]] := by
  refine ⟨asks_dotInLabel, asks_twoLabels, by decide +kernel, ?_⟩
  rw [echoed_iff asks_dotInLabel]
  decide

end Kdns.Wire
