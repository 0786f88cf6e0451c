import Kdns.Radix.Authority
import Kdns.Store.Serial
import Kdns.Wire.Truncation

namespace Kdns.Wire

open ByteStream Dns Radix Prefixes List

def soaMinimum (rdata : Bytes) : Option ℕ :=
  (Storage.serialOffset rdata).map fun offset => ofBigEndian ((rdata.drop (offset + 16)).take 4)

theorem mem_firstRecords {set : RRSet} {k : ℕ} {r : WireRecord} (h : r ∈ firstRecords set k) :
    r.type = set.type ∧ r.ttl = set.ttl ∧ r.rdata ∈ set.rdata := by
  obtain ⟨rdata, hrdata, rfl⟩ := mem_map.mp h
  exact ⟨rfl, rfl, mem_of_mem_take hrdata⟩

theorem asked_authority {m : Message} (h : m.questions ≠ []) (r : Result) :
    ((Response.ofResult r).asked m).authority = r.authority ∧
      ((Response.ofResult r).asked m).authorityRRSIG = .empty := by
  have hasked : m.questions.isEmpty = false := by simpa using h
  constructor
  · simp only [Response.asked, Response.ofResult, hasked]
    rfl
  · simp only [Response.asked, Response.ofResult]
    exact ite_self _

theorem authority_of_packResponse {m : Message} {bufLen maxSize : ℕ} {res : Result} {bytes : Bytes} {sections : Sections}
    (hq : m.questions ≠ []) (hmax : maxSize ≤ maxTCPSize) (h : packResponse m bufLen (.ofResult res) maxSize = .ok bytes)
    (hread : readSections bytes = some sections) {r : WireRecord} (hr : r ∈ sections.authority) :
    r.type = res.authority.type ∧ r.ttl = res.authority.ttl ∧ r.rdata ∈ res.authority.rdata := by
  obtain ⟨kept, opt, -, -, hkept, -⟩ := packResponse_reads ((Nat.min_le_left _ _).trans hmax) h
  obtain rfl := Option.some.inj (hkept.symm.trans hread)
  obtain ⟨hset, hsigs⟩ := asked_authority hq res
  simp only [Kept.sections, hset, hsigs, firstRecords_empty, append_nil] at hr
  exact mem_firstRecords hr

/-- The response repeats the stored TTL, which is right where it is the smaller of the two. -/
theorem negative_ttl_iff (ms : List Mutation) {m : Message} {q : Question} {qs : List Question}
    (hq : m.questions = q :: qs) {bufLen maxSize : ℕ} (hmax : maxSize ≤ maxTCPSize) {bytes : Bytes}
    (h : packResponse m bufLen (.ofResult ((Tree.new.mutateAll ms).resolve q.name q.type)) maxSize = .ok bytes)
    {sections : Sections} (hread : readSections bytes = some sections) {r : WireRecord} (hr : r ∈ sections.authority)
    (hsoa : r.type = typeSOA) :
    ∃ apex stored, Longest (HoldsSOA (Tree.new.mutateAll ms).contents) (labels q.name) apex ∧
      findType (recordsAt (Tree.new.mutateAll ms).contents apex) typeSOA = some stored ∧ r.rdata ∈ stored.rdata ∧
      ∀ minimum, soaMinimum r.rdata = some minimum →
        (r.ttl.toNat = min stored.ttl.toNat minimum ↔ stored.ttl.toNat ≤ minimum) := by
  obtain ⟨htype, httl, hrdata⟩ := authority_of_packResponse (by rw [hq]; exact cons_ne_nil _ _) hmax h hread hr
  obtain ⟨apex, hapex, hstored⟩ :=
    resolve_authority_soa (Tree.valid_mutateAll ms) (ne_nil_of_mem hrdata) (htype.symm.trans hsoa)
  refine ⟨apex, _, hapex, hstored, hrdata, fun minimum _ => ?_⟩
  rw [httl]
  exact eq_comm.trans min_eq_left_iff

def soaData : Bytes := [0, 0] ++ [0, 0, 0, 7] ++ [0, 0, 14, 16] ++ [0, 0, 3, 132] ++ [0, 9, 58, 128] ++ [0, 0, 1, 44]

def soaHistory (ttl : UInt32) : List Mutation := [.upsert [0x61] [⟨[soaData], ttl, typeSOA, classIN⟩]]

def hostQuery : Message where
  header := ⟨7, 0x0100, 1, 0, 0, 0⟩
  questions := [⟨[0x62, dotByte, 0x61], typeA, classIN⟩]
  edns0Size := 0
  wantsDNSSEC := false
  extRCode := 0

def hostDenied (ttl : UInt32) : Bytes :=
  [0, 7, 0x85, 3, 0, 1, 0, 0, 0, 1, 0, 0, 1, 0x62, 1, 0x61, 0, 0, 1, 0, 1, 0xC0, 14, 0, 6, 0, 1] ++
    bigEndian 4 ttl.toNat ++ [0, 22] ++ soaData

theorem negative_ttl_smaller :
    ∃ apex stored, readSections (hostDenied 60) = some ⟨[], [⟨typeSOA, classIN, 60, soaData⟩], []⟩ ∧
      findType (recordsAt (Tree.new.mutateAll (soaHistory 60)).contents apex) typeSOA = some stored ∧
      (60 = min stored.ttl.toNat 300 ↔ stored.ttl.toNat ≤ 300) := by
  have hpack : packResponse hostQuery 512 (.ofResult ((Tree.new.mutateAll (soaHistory 60)).resolve
      [0x62, dotByte, 0x61] typeA)) 512 = .ok (hostDenied 60) := by decide +kernel
  have hquestion : hostQuery.questions = ⟨[0x62, dotByte, 0x61], typeA, classIN⟩ :: [] := rfl
  have hsize : 512 ≤ maxTCPSize := by decide
  have hread : readSections (hostDenied 60) = some ⟨[], [⟨typeSOA, classIN, 60, soaData⟩], []⟩ := by decide +kernel
  obtain ⟨apex, stored, -, hstored, -, hiff⟩ :=
    negative_ttl_iff (soaHistory 60) hquestion hsize hpack hread (mem_singleton.mpr rfl) rfl
  exact ⟨apex, stored, hread, hstored, hiff 300 (by decide +kernel)⟩

/-- A name that does not exist is denied for an hour, although the zone says five minutes. -/
theorem negative_ttl_stored :
    ((Tree.new.mutateAll (soaHistory 3600)).resolve [0x62, dotByte, 0x61] typeA).rcode = .nameError ∧
      packResponse hostQuery 512 (.ofResult ((Tree.new.mutateAll (soaHistory 3600)).resolve
        [0x62, dotByte, 0x61] typeA)) 512 = .ok (hostDenied 3600) ∧
      readSections (hostDenied 3600) = some ⟨[], [⟨typeSOA, classIN, 3600, soaData⟩], []⟩ ∧
      soaMinimum soaData = some 300 := by
  decide +kernel

end Kdns.Wire
