import Kdns.Snapshot
import Kdns.Radix.Ordered

open List

namespace Kdns

open ByteStream Dns Codec Radix

namespace Codec

/-- What the encoder accepts: the four limits of the format and its guard on the size of a frame. -/
def Encodable (domain : Bytes) (records : RRSets) : Prop := ∃ n, calculateFrameSize domain records = .ok n

theorem Encodable.fits {domain : Bytes} {records : RRSets} (h : Encodable domain records) : Fits domain records := by
  obtain ⟨n, hn⟩ := h
  exact (calculateFrameSize_ok hn).2

theorem rdataFrameSize_mono {rs : List Bytes} {size size' n : ℕ} (hle : size' ≤ size)
    (h : rdataFrameSize rs size = .ok n) : ∃ n' ≤ n, rdataFrameSize rs size' = .ok n' := by
  induction rs generalizing size size' with
  | nil =>
    cases h
    exact ⟨size', hle, rfl⟩
  | cons r rs ih =>
    rw [rdataFrameSize] at h
    split_ifs at h with hr hsize
    obtain ⟨n', hn', hok⟩ := ih (Nat.add_le_add_right hle (2 + r.length)) h
    refine ⟨n', hn', ?_⟩
    rw [rdataFrameSize, if_neg hr, if_neg (by omega), hok]

theorem recordsFrameSize_mono {ss : RRSets} {size size' n : ℕ} (hle : size' ≤ size)
    (h : recordsFrameSize ss size = .ok n) : ∃ n', recordsFrameSize ss size' = .ok n' := by
  induction ss generalizing size size' with
  | nil => exact ⟨size', rfl⟩
  | cons s ss ih =>
    rw [recordsFrameSize] at h
    split_ifs at h with hcount
    split at h
    · cases h
    · rename_i m hm
      obtain ⟨m', hm', hok⟩ := rdataFrameSize_mono (Nat.add_le_add_right hle 8) hm
      obtain ⟨n', hn'⟩ := ih hm' h
      refine ⟨n', ?_⟩
      rw [recordsFrameSize, if_neg hcount, hok]
      exact hn'

theorem Encodable.shorter {domain domain' : Bytes} {records : RRSets} (h : Encodable domain records)
    (hle : domain'.length ≤ domain.length) : Encodable domain' records := by
  have hfits := h.fits
  obtain ⟨n, hn⟩ := h
  rw [calculateFrameSize, if_neg (not_lt.mpr hfits.domain_le), if_neg (not_lt.mpr hfits.records_le)] at hn
  obtain ⟨n', hn'⟩ := recordsFrameSize_mono (show 2 + domain'.length + 2 ≤ 2 + domain.length + 2 by omega) hn
  refine ⟨n', ?_⟩
  rw [calculateFrameSize, if_neg (not_lt.mpr (hle.trans hfits.domain_le)), if_neg (not_lt.mpr hfits.records_le), hn']

theorem Encodable.writeRecord {domain : Bytes} {records : RRSets} (h : Encodable domain records) :
    writeRecord domain records = .ok (encodeRecord domain records) := by
  obtain ⟨n, hn⟩ := h
  rw [Codec.writeRecord, hn]

theorem rdataFrameSize_le {rs : List Bytes} {size n : ℕ} (hsize : size ≤ maxFrameSize)
    (h : rdataFrameSize rs size = .ok n) : n ≤ maxFrameSize := by
  induction rs generalizing size with
  | nil =>
    cases h
    exact hsize
  | cons r rs ih =>
    rw [rdataFrameSize] at h
    split_ifs at h with hr hlarge
    exact ih (not_lt.mp hlarge) h

end Codec

namespace Snapshot

theorem encodeRecords_encodable {es : List (Bytes × RRSets)} (h : ∀ e ∈ es, Encodable e.1 e.2) :
    encodeRecords es = .ok (encodeEntries es) := by
  induction es with
  | nil => rfl
  | cons e es ih =>
    obtain ⟨he, hes⟩ := forall_mem_cons.mp h
    rw [encodeRecords, he.writeRecord]
    rw [ih hes]
    rfl

section Histories

variable {ms : List Mutation} (h : ∀ m ∈ ms, Encodable m.domain m.records ∧ ClassIN m.records)

include h

theorem namesWithin_encodable : NamesWithin pathBufSize (Tree.new.mutateAll ms).root := by
  intro p hp
  obtain ⟨m, hm, rfl⟩ := exists_mutation hp
  have hlen : m.domain.length ≤ 255 := (h m hm).1.fits.domain_le
  exact (nameOf_labels_length m.domain).trans (hlen.trans (by decide))

theorem walk_encodable : ∀ e ∈ (Tree.new.mutateAll ms).walk, Encodable e.1 e.2 ∧ ClassIN e.2 := by
  rintro ⟨name, records⟩ he
  obtain ⟨hname, hget⟩ := (Tree.mem_walk (Tree.valid_mutateAll ms) (namesWithin_encodable h) name records).mp he
  rw [get_mutateAll] at hget
  obtain ⟨m, hfind, hstored⟩ := Option.bind_eq_some_iff.mp hget
  have hlabels : labels m.domain = labels name := by
    rw [labels_eq_normalLabels, labels_eq_normalLabels]
    simpa using find?_some hfind
  have hrecords : m.records = records := by
    rw [Mutation.stored] at hstored
    split_ifs at hstored
    exact Option.some.inj hstored
  have hm := h m (mem_reverse.mp (mem_of_find?_eq_some hfind))
  have hlen : name.length ≤ m.domain.length := by
    rw [← hname, ← hlabels]
    exact nameOf_labels_length m.domain
  rw [hrecords] at hm
  exact ⟨hm.1.shorter hlen, hm.2⟩

theorem save_mutateAll (fl : Flate) : save fl (Tree.new.mutateAll ms) =
    if (Tree.new.mutateAll ms).len > maxUint32 then .error .domainCount
    else if (fl.compress (encodeEntries (Tree.new.mutateAll ms).walk)).length > maxUint32 then .error .bodyLength
    else .ok (frame (Tree.new.mutateAll ms).len (fl.compress (encodeEntries (Tree.new.mutateAll ms).walk))) := by
  rw [save, encodeRecords_encodable fun e he => (walk_encodable h e he).1]

end Histories

theorem load_count {fl : Flate} {data : Bytes} (h : (load fl data).2 = none) :
    ∃ head, readHeader data = .ok head ∧ head.totalDomains = (load fl data).1.length := by
  unfold load at h ⊢
  split at h
  · cases h
  · rename_i head hhead
    refine ⟨head, hhead, ?_⟩
    simp only at h ⊢
    generalize fl.decompress (take head.bodyLen (drop headerSize data)) = stream at h ⊢
    have hcount := (readRecords_yields head.totalDomains ⟨stream.1, stream.2, []⟩).2
    split at h <;> rename_i heq
    · cases h
    · cases h
    · rw [heq] at hcount
      exact (hcount rfl).symm

/-- The two capacities of the header are all that can keep `Save` from writing a tree of encodable records. -/
theorem save_load_walkSeq (fl : Flate) (ms : List Mutation)
    (h : ∀ m ∈ ms, Encodable m.domain m.records ∧ ClassIN m.records) :
    ((∃ bs, save fl (Tree.new.mutateAll ms) = .ok bs ∧ load fl bs = ((Tree.new.mutateAll ms).walkSeq, none)) ↔
        (Tree.new.mutateAll ms).len ≤ maxUint32 ∧
          (fl.compress (encodeEntries (Tree.new.mutateAll ms).walkSeq)).length ≤ maxUint32) ∧
      ∀ data, (load fl data).2 = none →
        (∃ head, readHeader data = .ok head ∧ head.totalDomains = (load fl data).1.length) ∧
          ∀ e ∈ (load fl data).1, Fits e.1 e.2 := by
  have hlen := (Tree.walk_spec (Tree.valid_mutateAll ms) (namesWithin_encodable h)).2
  refine ⟨?_, fun data hdata => ⟨load_count hdata, fun e he => (load_fits fl data e he).1⟩⟩
  rw [Tree.walkSeq_eq]
  constructor
  · rintro ⟨bs, hsave, -⟩
    rw [save_mutateAll h] at hsave
    split_ifs at hsave with hcount hbody
    exact ⟨not_lt.mp hcount, not_lt.mp hbody⟩
  · rintro ⟨hcount, hbody⟩
    have hsave := save_mutateAll h fl
    rw [if_neg (not_lt.mpr hcount), if_neg (not_lt.mpr hbody)] at hsave
    exact ⟨_, hsave, load_save hsave hlen fun e he => (walk_encodable h e he).2⟩

theorem save_load_walkSeq_hosts :
    let set : RRSets := [⟨[[1]], 300, typeA, classIN⟩]
    let ms := [.upsert [0x62] set, .upsert [0x63] set, .deleteDomain [0x63], .upsert [0x61] set]
    (∃ bs, save .none (Tree.new.mutateAll ms) = .ok bs ∧ load .none bs = ([([0x61], set), ([0x62], set)], none)) ∧
      Fits [0x62] set := by
  intro set ms
  have h : ∀ m ∈ ms, Encodable m.domain m.records ∧ ClassIN m.records := by
    simp only [ms, forall_mem_cons]
    exact ⟨⟨⟨_, rfl⟩, by decide⟩, ⟨⟨_, rfl⟩, by decide⟩, ⟨⟨_, rfl⟩, by decide⟩, ⟨⟨_, rfl⟩, by decide⟩, by simp⟩
  obtain ⟨hsave, hload⟩ := save_load_walkSeq .none _ h
  obtain ⟨bs, hbs, hrows⟩ := hsave.mpr ⟨by decide +kernel, by decide +kernel⟩
  have hwalk : (Tree.new.mutateAll ms).walkSeq = [([0x61], set), ([0x62], set)] := by decide +kernel
  rw [hwalk] at hrows
  refine ⟨⟨bs, hbs, hrows⟩, (hload bs (congrArg Prod.snd hrows)).2 ([0x62], _) ?_⟩
  rw [hrows]
  exact mem_cons_of_mem _ mem_cons_self

theorem encodeRData_replicate (k : ℕ) (r : Bytes) :
    ((replicate k r).flatMap encodeRData).length = k * (2 + r.length) := by
  induction k with
  | zero => rw [replicate_zero, flatMap_nil, length_nil, Nat.zero_mul]
  | succ k ih =>
    rw [replicate_succ, flatMap_cons, length_append, ih, encodeRData, length_append,
      bigEndian_length, Nat.succ_mul, Nat.add_comm]

def largeSet : RRSet := ⟨replicate 161 (replicate 65535 0), 300, typeA, classIN⟩

theorem encodeRecord_largeSet : (encodeRecord [0x61] [largeSet]).length = 10551470 := by
  have hdata : (largeSet.rdata.flatMap encodeRData).length = 161 * (2 + 65535) := by
    rw [largeSet, encodeRData_replicate, length_replicate]
  simp only [encodeRecord, encodeRRSet, length_append, bigEndian_length, flatMap_cons, flatMap_nil,
    append_nil, hdata, length_singleton]

theorem largeSet_fits : Fits [0x61] [largeSet] where
  domain_le := by decide
  records_le := by decide
  rdata_le := by
    intro s hs
    rw [mem_singleton.mp hs, largeSet]
    refine ⟨?_, fun r hr => ?_⟩
    · rw [length_replicate]
      decide
    · rw [eq_of_mem_replicate hr, length_replicate]
      decide

theorem largeSet_not_encodable : ¬Encodable [0x61] [largeSet] := by
  rintro ⟨n, hn⟩
  have hlength := (calculateFrameSize_ok hn).1
  rw [encodeRecord_largeSet] at hlength
  rw [calculateFrameSize, if_neg (by decide), if_neg (by decide), recordsFrameSize] at hn
  split_ifs at hn
  split at hn
  · cases hn
  · rename_i m hm
    have hle := rdataFrameSize_le (by decide) hm
    obtain rfl := Except.ok.inj hn
    rw [hlength] at hle
    exact absurd hle (by decide)

theorem mutateAll_single (s : RRSet) : (Tree.new.mutateAll [.upsert [0x61] [s]]).walk = [([0x61], [s])] ∧
    (Tree.new.mutateAll [.upsert [0x61] [s]]).len = 1 :=
  ⟨rfl, rfl⟩

/-- Within the four limits of the format, yet larger than the frame that the encoder allows. The decoder has no such
guard. -/
theorem save_refuses_large :
    Fits [0x61] [largeSet] ∧
      save .none (Tree.new.mutateAll [.upsert [0x61] [largeSet]]) = .error .capacityExceeded ∧
      ¬Encodable [0x61] [largeSet] ∧
      load .none (frame 1 (encodeRecord [0x61] [largeSet])) = ([([0x61], [largeSet])], none) := by
  refine ⟨largeSet_fits, ?_, largeSet_not_encodable, ?_⟩
  · obtain ⟨hwalk, hlen⟩ := mutateAll_single largeSet
    have hwrite : writeRecord [0x61] [largeSet] ≠ .ok (encodeRecord [0x61] [largeSet]) := by
      intro hok
      rw [writeRecord] at hok
      split at hok
      · cases hok
      · rename_i n hn
        exact largeSet_not_encodable ⟨n, hn⟩
    rw [save, hlen, if_neg (by decide), hwalk, encodeRecords]
    cases he : writeRecord [0x61] [largeSet] with
    | ok bs => exact absurd (he.trans (congrArg _ (writeRecord_ok he).1)) hwrite
    | error e =>
      obtain ⟨l, rfl⟩ := writeRecord_error he
      rfl
  · have hlen : (encodeRecord [0x61] [largeSet]).length ≤ maxUint32 := by
      rw [encodeRecord_largeSet]
      decide
    have hfits : ∀ e ∈ [(([0x61] : Bytes), [largeSet])], Fits e.1 e.2 := by
      intro e he
      rw [mem_singleton.mp he]
      exact largeSet_fits
    have hclass : ∀ e ∈ [(([0x61] : Bytes), [largeSet])], ClassIN e.2 := by
      intro e he s hs
      rw [mem_singleton.mp he] at hs
      rw [mem_singleton.mp hs]
      rfl
    have hentries : encodeEntries [([0x61], [largeSet])] = encodeRecord [0x61] [largeSet] := by
      rw [encodeEntries, flatMap_cons, flatMap_nil, append_nil]
    refine load_frame .none hfits hclass (by decide) hlen ?_
    rw [hentries]
    rfl

end Snapshot

end Kdns
