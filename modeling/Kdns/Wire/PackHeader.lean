import Kdns.Wire.Pack

open List

namespace Kdns.Wire

open ByteStream Dns

variable {bytes : Bytes} {code : UInt16}

theorem uint16At_append {i : ℕ} (h : i + 2 ≤ bytes.length) (more : Bytes) :
    uint16At (bytes ++ more) i = uint16At bytes i := by
  unfold uint16At
  rw [drop_append_of_le_length (by omega), take_append_of_le_length (by rw [length_drop]; omega)]

theorem uint16At_prepend (front : Bytes) {i j : ℕ} (h : i = front.length + j) :
    uint16At (front ++ bytes) i = uint16At bytes j := by
  subst h
  unfold uint16At
  rw [drop_append, drop_eq_nil_of_le (by omega), nil_append, Nat.add_sub_cancel_left]

theorem uint16At_bigEndian (v : UInt16) (more : Bytes) : uint16At (bigEndian 2 v.toNat ++ more) 0 = v := by
  rw [uint16At_append (by simp)]
  unfold uint16At
  rw [drop_zero, take_of_length_le (by simp), ofBigEndian_bigEndian _ _ v.toNat_lt]
  exact UInt16.ofNat_toNat

theorem putUint16_length {i : ℕ} (h : i + 2 ≤ bytes.length) (v : UInt16) :
    (putUint16 bytes i v).length = bytes.length := by
  simp only [putUint16, length_append, length_take, length_drop, bigEndian_length]
  omega

theorem uint16At_putUint16 {i : ℕ} (h : i + 2 ≤ bytes.length) (v : UInt16) : uint16At (putUint16 bytes i v) i = v := by
  have hi : i = (bytes.take i).length + 0 := by
    rw [length_take]
    omega
  rw [putUint16, append_assoc, uint16At_prepend _ hi]
  apply uint16At_bigEndian

theorem uint16At_putUint16_before {i j : ℕ} (h : i + 2 ≤ bytes.length) (hj : j + 2 ≤ i) (v : UInt16) :
    uint16At (putUint16 bytes i v) j = uint16At bytes j := by
  have hlen : j + 2 ≤ (bytes.take i).length := by
    rw [length_take]
    omega
  rw [putUint16, append_assoc, uint16At_append hlen]
  conv_rhs => rw [← take_append_drop i bytes]
  rw [uint16At_append hlen]

theorem or_and_distrib (a b c : UInt16) : (a ||| b) &&& c = (a &&& c) ||| (b &&& c) := by
  apply UInt16.toBitVec_inj.mp
  simp only [UInt16.toBitVec_and, UInt16.toBitVec_or]
  ext i hi
  simp only [BitVec.getElem_and, BitVec.getElem_or]
  apply Bool.and_or_distrib_right

structure HeaderCode (bytes : Bytes) (code : UInt16) : Prop where
  whole : headerSize ≤ bytes.length
  rcode : (decodeHeader bytes).rcode = code

theorem HeaderCode.append (h : HeaderCode bytes code) (more : Bytes) : HeaderCode (bytes ++ more) code := by
  have hlen := h.whole
  have hsize : headerSize = 12 := rfl
  constructor
  · rw [length_append]
    omega
  · rw [← h.rcode, Header.rcode, Header.rcode]
    simp only [decodeHeader]
    rw [uint16At_append (by omega)]

theorem HeaderCode.putCount (h : HeaderCode bytes code) {i : ℕ} (hi : 4 ≤ i) (hlen : i + 2 ≤ headerSize)
    (v : UInt16) : HeaderCode (putUint16 bytes i v) code := by
  have hw := h.whole
  constructor
  · rw [putUint16_length (by omega)]
    exact hw
  · rw [← h.rcode, Header.rcode, Header.rcode]
    simp only [decodeHeader]
    rw [uint16At_putUint16_before (by omega) (by omega)]

theorem HeaderCode.setTruncatedFlag {w : PacketWriter} (h : HeaderCode w.out code) :
    HeaderCode w.setTruncatedFlag.out code := by
  have hw := h.whole
  have hsize : headerSize = 12 := rfl
  constructor
  · rw [PacketWriter.setTruncatedFlag, putUint16_length (by omega)]
    exact hw
  · rw [← h.rcode, Header.rcode, Header.rcode]
    simp only [decodeHeader, PacketWriter.setTruncatedFlag]
    rw [uint16At_putUint16 (by omega), or_and_distrib]
    have hbit : (0x0200 &&& 0x0F : UInt16) = 0 := by decide
    rw [hbit, UInt16.or_zero]

theorem headerCode_headerBytes (id flags count : UInt16) : HeaderCode (headerBytes id flags count) (flags &&& 0x0F) := by
  constructor
  · simp [headerBytes, headerSize]
  · rw [Header.rcode]
    simp only [decodeHeader, headerBytes, append_assoc]
    rw [uint16At_prepend _ (show 2 = (bigEndian 2 id.toNat).length + 0 by simp), uint16At_bigEndian]

theorem responseFlags_and (m : Message) (res : Response) {mask : UInt16} (hcopied : 0x7900 &&& mask = 0)
    (hset : 0x8400 &&& mask = 0) (hkept : ~~~0x0400 &&& mask = mask) :
    responseFlags m res &&& mask = UInt16.ofNat res.rcode.code &&& mask := by
  have hflags : ((m.header.flags &&& 0x7900) ||| 0x8400 ||| UInt16.ofNat res.rcode.code) &&& mask =
      UInt16.ofNat res.rcode.code &&& mask := by
    rw [or_and_distrib, or_and_distrib, UInt16.and_assoc, hcopied, hset, UInt16.and_zero, UInt16.or_zero, UInt16.zero_or]
  unfold responseFlags
  split_ifs
  · rw [UInt16.and_assoc, hkept, hflags]
  · exact hflags

theorem responseFlags_rcode (m : Message) (res : Response) :
    responseFlags m res &&& 0x0F = UInt16.ofNat res.rcode.code := by
  rw [responseFlags_and m res (by decide) (by decide) (by decide)]
  cases res.rcode <;> rfl

structure NameStep (R : PacketWriter → PacketWriter → Prop) : Prop where
  refl : ∀ w, R w w
  trans : ∀ {w w' w''}, R w w' → R w' w'' → R w w''
  put : ∀ w bytes, R w (w.put bytes)
  insert : ∀ w domain, R w (w.insert domain)

namespace NameStep

variable {R : PacketWriter → PacketWriter → Prop} (hR : NameStep R) (w : PacketWriter)

include hR

theorem writeLabel (fullSuffix label closing : Bytes) (allow : Bool) :
    R w (w.writeLabel fullSuffix label closing allow).1 := by
  unfold PacketWriter.writeLabel
  split_ifs
  · exact hR.refl w
  · exact hR.refl w
  · exact hR.refl w
  · exact hR.trans (hR.insert w fullSuffix) (hR.put _ _)
  · exact hR.put w _

theorem writeRoot : R w w.writeRoot.1 := by
  unfold PacketWriter.writeRoot
  split_ifs
  · exact hR.refl w
  · exact hR.put w _

theorem writeSuffix (allow : Bool) (fuel : ℕ) (suffix : Bytes) : R w (Wire.writeSuffix allow fuel w suffix).1 := by
  induction fuel generalizing w suffix with
  | zero => exact hR.refl w
  | succ fuel ih =>
    rw [Wire.writeSuffix]
    split
    · split_ifs
      · exact hR.refl w
      · exact hR.put w _
    · split
      · apply hR.writeLabel
      · rename_i i _
        have hlabel := hR.writeLabel w suffix (suffix.take i) [] allow
        rw [PacketWriter.writeIntermediateLabel]
        generalize w.writeLabel suffix (suffix.take i) [] allow = r at hlabel ⊢
        rcases r with ⟨w', _ | e⟩
        · dsimp only
          split_ifs
          · exact hR.trans hlabel (hR.writeRoot w')
          · exact hR.trans hlabel (ih w' _)
        · exact hlabel

theorem writeDomain (name : Bytes) : R w (w.writeDomain name).1 := by
  unfold PacketWriter.writeDomain PacketWriter.writeDomainCompressed
  split_ifs
  · exact hR.refl w
  · apply hR.writeRoot
  · apply hR.writeSuffix

end NameStep

structure PacketWriter.Extends (w w' : PacketWriter) : Prop where
  limit_eq : w'.limit = w.limit
  out_eq : ∃ more, w'.out = w.out ++ more

section Writers

variable (w : PacketWriter)

theorem PacketWriter.Extends.refl : w.Extends w := ⟨rfl, [], (append_nil _).symm⟩

theorem PacketWriter.Extends.trans {w w' w'' : PacketWriter} (h : w.Extends w') (h' : w'.Extends w'') :
    w.Extends w'' := by
  obtain ⟨more, hmore⟩ := h.out_eq
  obtain ⟨more', hmore'⟩ := h'.out_eq
  refine ⟨h'.limit_eq.trans h.limit_eq, more ++ more', ?_⟩
  rw [hmore', hmore, append_assoc]

theorem extends_put (bytes : Bytes) : w.Extends (w.put bytes) := ⟨rfl, bytes, rfl⟩

theorem insert_out (domain : Bytes) : (w.insert domain).limit = w.limit ∧ (w.insert domain).out = w.out := by
  unfold PacketWriter.insert
  split_ifs <;> exact ⟨rfl, rfl⟩

theorem extends_insert (domain : Bytes) : w.Extends (w.insert domain) := by
  obtain ⟨hlimit, hout⟩ := insert_out w domain
  exact ⟨hlimit, [], by rw [hout, append_nil]⟩

theorem extends_nameStep : NameStep PacketWriter.Extends := ⟨.refl, .trans, extends_put, extends_insert⟩

theorem extends_writeDomain (name : Bytes) : w.Extends (w.writeDomain name).1 := extends_nameStep.writeDomain w name

theorem extends_writeQuestion (q : Question) : w.Extends (w.writeQuestion q).1 := by
  have hdomain := extends_writeDomain w q.name
  unfold PacketWriter.writeQuestion
  generalize w.writeDomain q.name = r at hdomain ⊢
  rcases r with ⟨w', _ | e⟩
  · dsimp only
    split_ifs
    · exact hdomain
    · exact hdomain.trans (extends_put w' _)
  · exact hdomain

theorem extends_writeQuestions (qs : List Question) : w.Extends (PacketWriter.writeQuestions qs w).1 := by
  induction qs generalizing w with
  | nil => exact .refl w
  | cons q qs ih =>
    have hq := extends_writeQuestion w q
    rw [PacketWriter.writeQuestions]
    generalize w.writeQuestion q = r at hq ⊢
    rcases r with ⟨w', _ | e⟩
    · exact hq.trans (ih w')
    · exact hq

end Writers

theorem HeaderCode.extended {w w' : PacketWriter} (h : HeaderCode w.out code) (hw : w.Extends w') :
    HeaderCode w'.out code := by
  obtain ⟨more, hmore⟩ := hw.out_eq
  rw [hmore]
  apply h.append

end Kdns.Wire
