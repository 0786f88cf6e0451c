import Kdns.Wire.Echo
import Kdns.Wire.Embedded

namespace Kdns.Wire

open ByteStream Dns CompressedName List

section Written

variable {w w' : PacketWriter} {name : Bytes}

theorem SuffixRun.uncompressed (h : SuffixRun false w name w') : NameWritten w name w' (nameLabels name) [] [0] := by
  generalize hallow : false = allow at h
  induction h with
  | root hfit => exact nameWritten_root nameLabels_nil hfit
  | known hyes => exact absurd (hallow.trans hyes) (by decide)
  | label _ hfirst hl _ ih =>
    have hlabels := hfirst.nameLabels hl.nonempty
    rw [hlabels]
    exact ih.label hl hlabels (hfirst.length_lt hl.nonempty)
  | @skip _ _ rest _ _ ih =>
    have hlabels : nameLabels (dotByte :: rest) = nameLabels rest := nameLabels_dot [] rest
    exact ih.skip hlabels (Nat.lt_succ_self _)

variable (h : w.writeDomainCompressed name false = (w', none))

include h

theorem uncompressed_offset : w'.offset = w.offset + (dotted (nameLabels name)).length + 1 := by
  have hout := (writeDomainCompressed_run h).2.uncompressed.out_eq
  rw [PacketWriter.offset, hout, length_append, length_append, encodeLabels_length, length_singleton]
  rfl

theorem uncompressed_nameAt : NameAt w'.out 0 w.offset (nameLabels name) 0 w'.offset :=
  (writeDomainCompressed_run h).2.uncompressed.nameAt_root (Nat.zero_le _)

theorem uncompressed_read_iff :
    (∃ back, unpackDomainName w'.out w.offset = .ok (back, w'.offset) ∧ nameLabels back = nameLabels name) ↔
      (dotted (nameLabels name)).length ≤ maxNameLen := by
  have hat := uncompressed_nameAt h
  constructor
  · rintro ⟨back, hback, -⟩
    obtain ⟨ls, j, hls, -, hlen, -⟩ := unpackDomainName_nameAt hback
    rwa [(hat.unique hls).1]
  · intro hlen
    refine ⟨_, unpackDomainName_of_nameAt hat (Nat.zero_le _) hlen, ?_⟩
    exact nameLabels_dotted hat.labels fun l hl => nameLabels_no_dot hl

end Written

theorem writeDomainCompressed_total {v : PacketWriter} {name : Bytes} (hlen : name.length ≤ maxNameLen)
    (hseg : Segmented name) (hfit : v.offset + name.length + 2 ≤ v.limit) (allow : Bool) :
    (v.writeDomainCompressed name allow).2 = none := by
  unfold PacketWriter.writeDomainCompressed
  rw [if_neg (Nat.not_lt.mpr hlen)]
  split_ifs
  · exact (written_writeRoot (by omega)).1
  · exact (written_writeSuffix allow _ hseg hfit).1

/-- Both limits count something else than the octets of the wire format: the writer the characters of the text, the
reader the labels with their length octets but without the root. -/
theorem name_limits_iff {w w' : PacketWriter} {name : Bytes} (hwrite : w.writeDomainCompressed name false = (w', none))
    {p read : Bytes} {i next : ℕ} (hread : unpackDomainName p i = .ok (read, next)) :
    ((w'.offset ≤ w.offset + maxNameLen ∧
        ∃ back, unpackDomainName w'.out w.offset = .ok (back, w'.offset) ∧ nameLabels back = nameLabels name) ↔
      (dotted (nameLabels name)).length < maxNameLen) ∧
    ∃ ls j, NameAt p 0 i ls j next ∧ read = (dotted ls).dropLast ∧
      (((encodeLabels ls ++ [0]).length ≤ maxNameLen ∧ ∀ (v : PacketWriter) allow, v.offset + read.length + 2 ≤ v.limit →
          (v.writeDomainCompressed read allow).2 = none) ↔
        (dotted ls).length ≠ maxNameLen) := by
  constructor
  · rw [uncompressed_read_iff hwrite, uncompressed_offset hwrite]
    omega
  · obtain ⟨ls, j, hat, -, hlen, hname⟩ := unpackDomainName_nameAt hread
    refine ⟨ls, j, hat, hname, ?_⟩
    obtain ⟨hshort, hseg⟩ := unpackDomainName_named hread
    have haccepted : ∀ (v : PacketWriter) allow, v.offset + read.length + 2 ≤ v.limit →
        (v.writeDomainCompressed read allow).2 = none :=
      fun v allow hfit => writeDomainCompressed_total hshort.le hseg hfit allow
    rw [and_iff_left haccepted, length_append, encodeLabels_length, length_singleton]
    omega

def boundaryLabels (n : ℕ) : List Bytes :=
  [replicate 63 0x61, replicate 63 0x61, replicate 63 0x61, replicate n 0x61]

def boundaryName (n : ℕ) : Bytes := (dotted (boundaryLabels n)).dropLast

def uncompressedName (name : Bytes) : PacketWriter × Option WireError :=
  (⟨512, [], []⟩ : PacketWriter).writeDomainCompressed name false

theorem name_limits_longest :
    (uncompressedName (boundaryName 61)).1.offset ≤ 0 + maxNameLen ∧
      ∃ ls j, NameAt (encodeLabels (boundaryLabels 61) ++ [0]) 0 0 ls j 255 ∧ (encodeLabels ls ++ [0]).length ≤ maxNameLen := by
  have hwrite : (⟨512, [], []⟩ : PacketWriter).writeDomainCompressed (boundaryName 61) false =
      ((uncompressedName (boundaryName 61)).1, none) := by decide +kernel
  have hread : unpackDomainName (encodeLabels (boundaryLabels 61) ++ [0]) 0 = .ok (boundaryName 61, 255) := by decide +kernel
  obtain ⟨hwritten, ls, j, hat, hname, hls⟩ := name_limits_iff hwrite hread
  have hlen := congrArg length hname
  rw [length_dropLast] at hlen
  have hlong : (boundaryName 61).length = 253 := by decide +kernel
  exact ⟨(hwritten.mpr (by decide +kernel)).1, ls, j, hat, (hls.mpr (by unfold maxNameLen; omega)).1⟩

/-- A text of 255 characters is written as 257 octets, which cannot be read; a name of 256 octets is read. -/
theorem name_limits_exceeded :
    (boundaryName 63).length = 255 ∧ (uncompressedName (boundaryName 63)).2 = none ∧
      (uncompressedName (boundaryName 63)).1.offset = 257 ∧
      unpackDomainName (uncompressedName (boundaryName 63)).1.out 0 = .error .nameTooLong ∧
      (encodeLabels (boundaryLabels 62) ++ [0]).length = 256 ∧
      unpackDomainName (encodeLabels (boundaryLabels 62) ++ [0]) 0 = .ok (boundaryName 62, 256) := by
  decide +kernel

end Kdns.Wire
