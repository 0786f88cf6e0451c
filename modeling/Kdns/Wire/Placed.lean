import Kdns.Wire.Walk

namespace Kdns.Wire

open ByteStream Dns CompressedName List

def placeRecords (total : ℕ) : ℕ → Bytes → List (ℕ × WireRecord)
  | 0, _ => []
  | n + 1, p =>
    match readRecord p with
    | none => []
    | some (r, rest) => (total - rest.length - r.rdata.length, r) :: placeRecords total n rest

def placedRecords (p : Bytes) : List (ℕ × WireRecord) :=
  let h := decodeHeader p
  match readQuestions h.qdCount.toNat (p.drop headerSize) with
  | none => []
  | some rest => placeRecords p.length (h.anCount.toNat + h.nsCount.toNat + h.arCount.toNat) rest

section Walk

variable {p rest : Bytes} {n : ℕ}

theorem skipNameFrom_suffix {fuel : ℕ} (h : skipNameFrom fuel p = some rest) : rest <:+ p := by
  induction fuel generalizing p with
  | zero => cases h
  | succ fuel ih =>
    cases p with
    | nil => cases h
    | cons b p =>
      rw [skipNameFrom] at h
      have hcons : p <:+ b :: p := suffix_cons b p
      split_ifs at h
      · cases h
        exact hcons
      · cases h
        exact (tail_suffix p).trans hcons
      · exact ((ih h).trans (drop_suffix _ p)).trans hcons

theorem readRecord_split {r : WireRecord} (h : readRecord p = some (r, rest)) : ∃ front, p = front ++ (r.rdata ++ rest) := by
  obtain ⟨q, hq, hr⟩ := Option.bind_eq_some_iff.mp h
  obtain ⟨front, rfl⟩ := skipNameFrom_suffix hq
  dsimp only at hr
  split_ifs at hr
  cases hr
  refine ⟨front ++ q.take 10, ?_⟩
  rw [← drop_drop, take_append_drop, append_assoc, take_append_drop]

theorem readQuestions_suffix (h : readQuestions n p = some rest) : rest <:+ p := by
  induction n generalizing p with
  | zero =>
    cases h
    exact suffix_rfl
  | succ n ih =>
    obtain ⟨q, hq, h⟩ := Option.bind_eq_some_iff.mp h
    split_ifs at h
    exact ((ih h).trans (drop_suffix 4 q)).trans (skipNameFrom_suffix hq)

theorem placeRecords_isPrefix {whole : Bytes} {s : ℕ} {r : WireRecord} (hp : p <:+ whole)
    (h : (s, r) ∈ placeRecords whole.length n p) : r.rdata <+: whole.drop s := by
  induction n generalizing p with
  | zero => cases h
  | succ n ih =>
    rw [placeRecords] at h
    split at h
    · cases h
    · rename_i r' rest hread
      obtain ⟨front, rfl⟩ := readRecord_split hread
      obtain ⟨before, rfl⟩ := hp
      rcases mem_cons.mp h with heq | h
      · obtain ⟨rfl, rfl⟩ := Prod.mk.inj heq
        have hplace : (before ++ (front ++ (r.rdata ++ rest))).length - rest.length - r.rdata.length =
            (before ++ front).length := by
          simp only [length_append]
          omega
        rw [hplace, ← append_assoc, drop_left]
        exact prefix_append _ _
      · refine ih ⟨before ++ front ++ r'.rdata, ?_⟩ h
        simp only [append_assoc]

theorem placedRecords_isPrefix {s : ℕ} {r : WireRecord} (h : (s, r) ∈ placedRecords p) : r.rdata <+: p.drop s := by
  unfold placedRecords at h
  dsimp only at h
  split at h
  · cases h
  · rename_i rest hquestions
    exact placeRecords_isPrefix ((readQuestions_suffix hquestions).trans (drop_suffix _ p)) h

theorem decodeHeader_append (h : headerSize ≤ p.length) (more : Bytes) : decodeHeader (p ++ more) = decodeHeader p := by
  have hsize : headerSize = 12 := rfl
  unfold decodeHeader
  rw [uint16At_append (by omega), uint16At_append (by omega), uint16At_append (by omega), uint16At_append (by omega),
    uint16At_append (by omega), uint16At_append (by omega)]

theorem placedRecords_single {front o four own rdata : Bytes} (set : RRSet) (hlen : headerSize ≤ front.length)
    (hfront : front.drop headerSize = o ++ (four ++ own)) (ho : IsNameForm o) (hfour : four.length = 4) (hown : IsNameForm own)
    (hquestions : (decodeHeader front).qdCount = 1)
    (hrecords : (decodeHeader front).anCount.toNat + (decodeHeader front).nsCount.toNat + (decodeHeader front).arCount.toNat = 1)
    (hrdata : rdata.length < 65536) :
    (front.length + 10, wireRecord set rdata) ∈ placedRecords (front ++ recordBytes set rdata) := by
  have hwalk : readQuestions 1 ((front ++ recordBytes set rdata).drop headerSize) = some (own ++ recordBytes set rdata) := by
    rw [drop_append_of_le_length hlen, hfront, append_assoc, readQuestions, skipName_append ho, Option.bind_some,
      if_neg (by simp only [length_append]; omega), append_assoc, drop_left' hfour]
    rfl
  have hread := readRecord_append hown set hrdata []
  rw [append_nil] at hread
  unfold placedRecords
  rw [decodeHeader_append hlen]
  dsimp only
  rw [hquestions, hrecords, show (1 : UInt16).toNat = 1 from rfl, hwalk]
  dsimp only
  rw [placeRecords, hread]
  apply mem_cons.mpr
  simp only [Prod.mk.injEq, and_true, length_append, recordBytes_length, length_nil, wireRecord]
  omega

end Walk

end Kdns.Wire
