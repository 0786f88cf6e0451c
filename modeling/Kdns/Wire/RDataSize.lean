import Kdns.Wire.Embedded

namespace Kdns.Wire

open ByteStream Dns Fallible List

theorem Window.bytes_length {x : Window} (h : x.maxBit < 256) : x.bytes.length ≤ 34 := by
  rw [Window.bytes, length_cons, length_cons, length_take]
  omega

def Roomy (limit offset : ℕ) (done : Bytes) : Option Window → Prop
  | none => offset + done.length ≤ limit
  | some x => x.maxBit < 256 ∧ offset + done.length + 34 ≤ limit

variable {done bytes : Bytes} {current : Option Window} {c : GoStrings.Capitals}

theorem Roomy.closed {limit offset : ℕ} (h : Roomy limit offset done current) :
    offset + (done ++ (current.map Window.bytes).getD []).length ≤ limit := by
  rw [length_append]
  cases current with
  | none => exact h
  | some x =>
    have hlen := Window.bytes_length h.1
    have hroom := h.2
    simp only [Option.map_some, Option.getD_some]
    omega

theorem encodeWindows_length {limit offset : ℕ} {types : List ℕ}
    (h : encodeWindows limit offset types done current = .ok bytes) (hroom : Roomy limit offset done current) :
    offset + bytes.length ≤ limit := by
  induction types generalizing done current with
  | nil =>
    cases h
    exact hroom.closed
  | cons type types ih =>
    have hmod : type % 256 < 256 := Nat.mod_lt _ (by decide)
    rw [encodeWindows] at h
    split at h
    · rename_i x hx
      obtain ⟨rfl, -⟩ := Option.filter_eq_some_iff.mp hx
      exact ih h ⟨max_lt hroom.1 hmod, hroom.2⟩
    · dsimp only at h
      split_ifs at h with hfull
      exact ih h ⟨max_lt hmod hmod, Nat.le_of_not_lt hfull⟩

theorem encodeTypeBitMaps_length {limit offset : ℕ} {names : List Text}
    (h : encodeTypeBitMaps c limit offset names = .ok bytes) (hoffset : offset ≤ limit) : offset + bytes.length ≤ limit := by
  unfold encodeTypeBitMaps at h
  split_ifs at h
  obtain ⟨types, -, h⟩ := bind_ok h
  exact encodeWindows_length h hoffset

def Within (w w' : PacketWriter) : Prop := w'.limit = w.limit ∧ w'.offset ≤ w.limit

section Steps

variable {w v w' : PacketWriter} {text name : Text}

theorem Within.trans (h : Within w v) (h' : Within v w') : Within w w' := by
  obtain ⟨hlimit, -⟩ := h
  obtain ⟨hlimit', hoffset⟩ := h'
  exact ⟨hlimit'.trans hlimit, by omega⟩

theorem SuffixRun.within {allow : Bool} (h : SuffixRun allow w name w') : Within w w' := by
  obtain ⟨front, back, closing, hwritten⟩ := h.written
  have hfits := hwritten.fits
  have hlimit := hwritten.limit_eq
  exact ⟨hlimit, by omega⟩

theorem fill_within (h : w.fill bytes = .ok w') : Within w w' := by
  unfold PacketWriter.fill at h
  split_ifs at h with hfit
  cases h
  refine ⟨rfl, ?_⟩
  rw [put_offset]
  exact Nat.le_of_not_lt hfit

theorem domain_within (h : w.domain name = .ok w') : Within w w' := (domain_ok h).2.within

theorem writeUncompressedDomain_within (h : w.writeUncompressedDomain name = .ok w') : Within w w' :=
  (writeUncompressedDomain_ok h).2.within

theorem soa_within (h : writeRDataSOA w text = .ok w') : Within w w' := by
  unfold writeRDataSOA at h
  split at h
  · split at h
    · cases h
    · obtain ⟨v, hfirst, h⟩ := bind_ok h
      obtain ⟨v', hsecond, h⟩ := bind_ok h
      exact ((domain_within hfirst).trans (domain_within hsecond)).trans (fill_within h)
  · cases h

theorem mx_within (h : writeRDataMX w text = .ok w') : Within w w' := by
  unfold writeRDataMX at h
  split at h
  · split at h
    · cases h
    · obtain ⟨v, hfill, h⟩ := bind_ok h
      exact (fill_within hfill).trans (domain_within h)
  · cases h

theorem srv_within (h : writeRDataSRV w text = .ok w') : Within w w' := by
  unfold writeRDataSRV at h
  split at h
  · split at h
    · cases h
    · obtain ⟨v, hfill, h⟩ := bind_ok h
      exact (fill_within hfill).trans (domain_within h)
  · cases h

theorem rrsig_within (h : writeRDataRRSIG c w text = .ok w') : Within w w' := by
  unfold writeRDataRRSIG at h
  split at h
  · dsimp only at h
    split at h
    · cases h
    · split at h
      · cases h
      · obtain ⟨v, hfill, h⟩ := bind_ok h
        obtain ⟨v', hname, h⟩ := bind_ok h
        exact ((fill_within hfill).trans (writeUncompressedDomain_within hname)).trans (fill_within h)
  · cases h

theorem nsec_within (h : writeRDataNSEC c w text = .ok w') : Within w w' := by
  unfold writeRDataNSEC at h
  split at h
  · obtain ⟨v, hname, h⟩ := bind_ok h
    obtain ⟨bitmap, hbitmap, h⟩ := bind_ok h
    cases h
    obtain ⟨hlimit, hoffset⟩ := writeUncompressedDomain_within hname
    have hlen := encodeTypeBitMaps_length hbitmap (by omega)
    refine ⟨hlimit, ?_⟩
    rw [put_offset]
    omega
  · cases h

end Steps

theorem packRData_length {enc : Encoders} {type : RRType} {text : Text} {rdata : Bytes} (htype : type ∈ namedTypes)
    (h : packRData enc type text = .ok rdata) : rdata.length ≤ rdataBufferSize := by
  obtain ⟨w, hw, h⟩ := bind_ok h
  cases h
  simp only [namedTypes, mem_cons, not_mem_nil, or_false] at htype
  rcases htype with rfl | rfl | rfl | rfl | rfl | rfl | rfl | rfl
  · exact (domain_within hw).2
  · exact (domain_within hw).2
  · exact (domain_within hw).2
  · exact (mx_within hw).2
  · exact (srv_within hw).2
  · exact (soa_within hw).2
  · exact (rrsig_within hw).2
  · exact (nsec_within hw).2

end Kdns.Wire
