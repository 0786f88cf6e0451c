import Kdns.Wire.Echo
import Kdns.Wire.Placed

namespace Kdns.Wire

open ByteStream Dns CompressedName List

def probeLabels (b : UInt8) : List Bytes :=
  [replicate 63 b, replicate 63 b, replicate 63 b, replicate 61 b]

def probe (b : UInt8) : Message :=
  ⟨⟨0x8080, 0, 1, 0, 0, 0⟩, [⟨(dotted (probeLabels b)).dropLast, 1, classIN⟩], 0, false, 0⟩

def probeSet (type : RRType) (rdata : Bytes) : RRSet := ⟨[rdata], 0, type, classIN⟩

def inAnswer (set : RRSet) : Response := { rcode := .success, answer := set }

def inAuthority (set : RRSet) : Response := { rcode := .success, authority := set }

def probed (b : UInt8) : PacketWriter :=
  ((⟨maxTCPSize, headerBytes 0x8080 0x8400 1, []⟩ : PacketWriter).writeQuestions (probe b).questions).1

def probeFront (b : UInt8) (answer authority : UInt16) : Bytes :=
  ((probed b).updateCounts answer authority 0).out ++ pointerBytes headerSize

theorem putUint16_append {bytes : Bytes} {i : ℕ} (h : i + 2 ≤ bytes.length) (v : UInt16) (more : Bytes) :
    putUint16 (bytes ++ more) i v = putUint16 bytes i v ++ more := by
  rw [putUint16, putUint16, take_append_of_le_length (by omega), drop_append_of_le_length h, append_assoc,
    append_assoc, append_assoc]

theorem updateCounts_put {w : PacketWriter} (h : headerSize ≤ w.offset) (a b c : UInt16) (more : Bytes) :
    ((w.put more).updateCounts a b c).out = (w.updateCounts a b c).out ++ more := by
  have hsize : headerSize = 12 := rfl
  have hlen : 12 ≤ w.out.length := hsize ▸ h
  have hfirst : (putUint16 w.out 6 a).length = w.out.length := putUint16_length (by omega) a
  have hsecond : (putUint16 (putUint16 w.out 6 a) 8 b).length = w.out.length := by
    rw [putUint16_length (by omega), hfirst]
  simp only [PacketWriter.updateCounts, PacketWriter.put]
  rw [putUint16_append (by omega), putUint16_append (by omega), putUint16_append (by omega)]

section Probe

variable {b : UInt8} {rdata : Bytes}

structure Probing (b : UInt8) : Prop where
  questions : (⟨maxTCPSize, headerBytes 0x8080 0x8400 1, []⟩ : PacketWriter).writeQuestions (probe b).questions = (probed b, none)
  owner : (probed b).writeDomain (dotted (probeLabels b)).dropLast = ((probed b).put (pointerBytes headerSize), none)
  offset_eq : (probed b).offset = 271
  limit_eq : (probed b).limit = maxTCPSize

theorem probing_first : Probing 0x80 := ⟨by decide +kernel, by decide +kernel, by decide +kernel, by decide +kernel⟩

theorem probing_second : Probing 0x81 := ⟨by decide +kernel, by decide +kernel, by decide +kernel, by decide +kernel⟩

section

variable (h : Probing b)
include h

theorem Probing.writeRRSet (type : RRType) (hlen : rdata.length ≤ 4096) :
    (probed b).writeRRSet (dotted (probeLabels b)).dropLast (probeSet type rdata) =
      ((probed b).put (pointerBytes headerSize ++ recordBytes (probeSet type rdata) rdata), .ok 1) := by
  have htcp : maxTCPSize = 65535 := rfl
  have hoffset := h.offset_eq
  have hfit : ¬ ((probed b).put (pointerBytes headerSize)).offset + 10 + rdata.length >
      ((probed b).put (pointerBytes headerSize)).limit := by
    rw [put_offset, pointerBytes_length, hoffset, PacketWriter.put, h.limit_eq]
    omega
  rw [PacketWriter.writeRRSet, probeSet, writeRecords, h.owner]
  dsimp only
  rw [if_neg hfit, put_put]
  rfl

theorem Probing.counted (answer authority : UInt16) (more : Bytes) :
    (((probed b).put (pointerBytes headerSize ++ more)).updateCounts answer authority 0).out =
      probeFront b answer authority ++ more := by
  have hsize : headerSize = 12 := rfl
  have hoffset := h.offset_eq
  rw [updateCounts_put (by omega), probeFront, append_assoc]

theorem Probing.packResponse {res : Response} (hrcode : res.rcode = .success)
    (hanswers : res.hasAnswer = true ∨ res.authority.type ≠ typeNS) :
    packResponse (probe b) maxTCPSize res maxTCPSize = writeSections (probe b) res (probed b) := by
  have hflags : responseFlags (probe b) res = 0x8400 := by
    rw [responseFlags, if_neg fun hreferral => hanswers.elim (by simp [hreferral.2.1]) (absurd hreferral.2.2.2), hrcode]
    change ((0 : UInt16) &&& 0x7900) ||| 0x8400 ||| UInt16.ofNat 0 = 0x8400
    decide
  have hcount : ¬ (probe b).questions.length > maxQuestions := Nat.not_lt.mpr (by decide : 1 ≤ maxQuestions)
  have hlimit : ¬ min maxTCPSize maxTCPSize < headerSize := by decide
  have hid : (probe b).header.id = 0x8080 := rfl
  have hone : UInt16.ofNat (probe b).questions.length = 1 := rfl
  rw [Wire.packResponse, if_neg hcount]
  dsimp only
  rw [if_neg hlimit, hflags, Nat.min_self, hid, hone, h.questions]

theorem Probing.answers (type : RRType) (hlen : rdata.length ≤ 4096) :
    Wire.packResponse (probe b) maxTCPSize (inAnswer (probeSet type rdata)) maxTCPSize =
      .ok (probeFront b 1 0 ++ recordBytes (probeSet type rdata) rdata) := by
  have hanswer : writeAnswerSection (probe b) (inAnswer (probeSet type rdata)) (probed b) =
      ((probed b).put (pointerBytes headerSize ++ recordBytes (probeSet type rdata) rdata), .ok 1) :=
    (writeSigned_unsigned _ _ _ RRSet.empty).trans (h.writeRRSet type hlen)
  rw [h.packResponse rfl (.inl rfl), writeSections, hanswer, ← h.counted]
  rfl

theorem Probing.authorises (hlen : rdata.length ≤ 4096) :
    Wire.packResponse (probe b) maxTCPSize (inAuthority (probeSet typeSOA rdata)) maxTCPSize =
      .ok (probeFront b 0 1 ++ recordBytes (probeSet typeSOA rdata) rdata) := by
  have hauthority : writeAuthoritySection (probe b) (inAuthority (probeSet typeSOA rdata)) (probed b) =
      ((probed b).put (pointerBytes headerSize ++ recordBytes (probeSet typeSOA rdata) rdata), .ok 1) :=
    (writeSigned_unsigned _ _ _ RRSet.empty).trans (h.writeRRSet typeSOA hlen)
  have hanswer : writeAnswerSection (probe b) (inAuthority (probeSet typeSOA rdata)) (probed b) = (probed b, .ok 0) := rfl
  rw [h.packResponse rfl (.inr (by decide : typeSOA ≠ typeNS)), writeSections, hanswer]
  dsimp only
  rw [hauthority, ← h.counted]
  rfl

end

theorem probeLabels_isLabel (b : UInt8) : ∀ l ∈ probeLabels b, IsLabel l := by
  intro l hl
  simp only [probeLabels, mem_cons, not_mem_nil, or_false] at hl
  rcases hl with rfl | rfl | rfl | rfl <;> exact ⟨nofun, by simp⟩

structure ProbeFront (b : UInt8) (answer authority : UInt16) : Prop where
  length_ge : headerSize ≤ (probeFront b answer authority).length
  body : (probeFront b answer authority).drop headerSize =
    (encodeLabels (probeLabels b) ++ [0]) ++ ([0, 1, 0, 1] ++ pointerBytes headerSize)
  question : (decodeHeader (probeFront b answer authority)).qdCount = 1
  record : (decodeHeader (probeFront b answer authority)).anCount.toNat +
    (decodeHeader (probeFront b answer authority)).nsCount.toNat + (decodeHeader (probeFront b answer authority)).arCount.toNat = 1

theorem probeFront_first : ProbeFront 0x80 1 0 := ⟨by decide +kernel, by decide +kernel, by decide +kernel, by decide +kernel⟩

theorem probeFront_second : ProbeFront 0x81 0 1 := ⟨by decide +kernel, by decide +kernel, by decide +kernel, by decide +kernel⟩

theorem ProbeFront.placed {answer authority : UInt16} (h : ProbeFront b answer authority) (type : RRType)
    (hlen : rdata.length ≤ 4096) :
    ((probeFront b answer authority).length + 10, wireRecord (probeSet type rdata) rdata) ∈
      placedRecords (probeFront b answer authority ++ recordBytes (probeSet type rdata) rdata) := by
  have hquestion : IsNameForm (encodeLabels (probeLabels b) ++ [0]) :=
    ⟨probeLabels b, [0], probeLabels_isLabel b, .inl rfl, rfl⟩
  have howner : IsNameForm (pointerBytes headerSize) :=
    ⟨[], pointerBytes headerSize, nofun, .inr ⟨headerSize, by decide, rfl⟩, rfl⟩
  exact placedRecords_single _ h.length_ge h.body hquestion rfl howner h.question h.record (by omega)

end Probe

def tellsApart (a b : Bytes) (t : ℕ) : Bool :=
  match a[t]? with
  | none => false
  | some x =>
    (64 ≤ x.toNat && x.toNat < 192) ||
      match unpackDomainName a t, unpackDomainName b t with
      | .ok (name, _), .ok (name', _) => name = [] || name ≠ name'
      | _, _ => false

theorem nameAt_first_byte {p : Bytes} {lo i j next : ℕ} {ls : List Bytes} (h : NameAt p lo i ls j next) :
    ∃ b, p[i]? = some b ∧ (b.toNat < 64 ∨ 192 ≤ b.toNat) := by
  cases h with
  | root _ h => exact ⟨0, getElem?_of_isPrefix h, .inl (by decide)⟩
  | label _ hl h _ =>
    refine ⟨_, getElem?_of_isPrefix h, .inl ?_⟩
    rw [hl.head.1]
    exact Nat.lt_succ_of_le hl.length_le
  | pointer _ ht _ h _ =>
    obtain ⟨b, x, heq, hb⟩ := pointerBytes_cons ht
    rw [heq] at h
    exact ⟨b, getElem?_of_isPrefix h, .inr hb⟩

theorem dotted_of_unpack {p more name : Bytes} {i j next next' : ℕ} {ls : List Bytes}
    (h : unpackDomainName p i = .ok (name, next')) (hat : NameAt (p ++ more) 0 i ls j next) : name = (dotted ls).dropLast := by
  obtain ⟨ls', j', hname, -, -, rfl⟩ := unpackDomainName_nameAt h
  obtain ⟨rfl, -, -⟩ := (hname.append more).unique hat
  rfl

theorem tellsApart_root {a b x y : Bytes} {t ja jb na nb : ℕ} {la lb : List Bytes} (h : tellsApart a b t = true)
    (ha : NameAt (a ++ x) 0 t la ja na) (hb : NameAt (b ++ y) 0 t lb jb nb) (heq : dotted la = dotted lb) : la = [] := by
  unfold tellsApart at h
  split at h
  · cases h
  · rename_i v hv
    rcases Bool.or_eq_true_iff.mp h with hreserved | hread
    · obtain ⟨c, hc, hrange⟩ := nameAt_first_byte ha
      have hlt : t < a.length := (List.getElem?_eq_some_iff.mp hv).1
      rw [List.getElem?_append_left hlt, hv] at hc
      cases hc
      simp only [Bool.and_eq_true, decide_eq_true_eq] at hreserved
      omega
    · split at hread
      · rename_i name _ name' _ hname hname'
        have hsame : name = name' := by rw [dotted_of_unpack hname ha, dotted_of_unpack hname' hb, heq]
        simp only [hsame, ne_eq, not_true_eq_false, decide_false, Bool.or_false, decide_eq_true_eq] at hread
        rw [← hsame, dotted_of_unpack hname ha] at hread
        cases la with
        | nil => rfl
        | cons l la =>
          have hl := length_pos_of_ne_nil (ha.labels l mem_cons_self).nonempty
          have hlen := congrArg List.length hread
          rw [length_dropLast, dotted_cons, length_append, length_append] at hlen
          simp only [length_singleton, length_nil] at hlen
          omega
      · cases hread

theorem probes_apart {t : ℕ} (ht : t < 255) : tellsApart (probeFront 0x80 1 0) (probeFront 0x81 0 1) t = true := by
  have hall : (range 255).all (tellsApart (probeFront 0x80 1 0) (probeFront 0x81 0 1)) = true := by decide +kernel
  exact all_eq_true.mp hall t (mem_range.mpr ht)

end Kdns.Wire
