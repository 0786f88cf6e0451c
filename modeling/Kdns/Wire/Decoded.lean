import Kdns.Lib.Fallible
import Kdns.Wire.Emitted
import Kdns.Wire.Owners

namespace Kdns.Wire

open ByteStream Dns CompressedName Fallible List

def walkQuestion (p : Bytes) (i : ℕ) : Except WireError ((Bytes × RRType) × ℕ) := do
  let r ← unpackDomainName p i
  if r.2 + 4 > p.length then throw .outOfBounds
  return ((r.1, uint16At p r.2), r.2 + 4)

def walkRecord (p : Bytes) (i : ℕ) : Except WireError ((Bytes × RRType) × ℕ) := do
  let r ← unpackDomainName p i
  if r.2 + 10 > p.length then throw .outOfBounds
  let next := r.2 + 10 + (uint16At p (r.2 + 8)).toNat
  if next > p.length then throw .outOfBounds
  return ((r.1, uint16At p r.2), next)

def walkQuestions (p : Bytes) : ℕ → ℕ → Except WireError (List (Bytes × RRType) × ℕ) := several (walkQuestion p)

def walkRecords (p : Bytes) : ℕ → ℕ → Except WireError (List (Bytes × RRType) × ℕ) := several (walkRecord p)

def Meant (name : Bytes) (type : RRType) (x : Bytes × RRType) : Prop :=
  equalFoldASCII x.1 (dotted (nameLabels name)).dropLast = true ∧ x.2 = type

theorem NamedAt.unpack {p name : Bytes} {i j next : ℕ} (h : NamedAt p i (nameLabels name) j next) (hj : j ≤ maxJumps)
    (hshort : (dotted (nameLabels name)).length ≤ maxNameLen) :
    ∃ read, unpackDomainName p i = .ok (read, next) ∧ equalFoldASCII read (dotted (nameLabels name)).dropLast = true := by
  obtain ⟨ls, hat, hls⟩ := h
  have hlen := lowered_lengths hls
  exact ⟨_, unpackDomainName_of_nameAt hat hj (by omega), equalFold_of_lowered hls⟩

theorem uint16At_eq {p : Bytes} {i : ℕ} {v : UInt16} (h : bigEndian 2 v.toNat <+: p.drop i) : uint16At p i = v := by
  apply UInt16.toNat_inj.mp
  exact uint16At_of_isPrefix v.toNat_lt h

theorem walkRecord_written {w v : PacketWriter} {owner rdata p : Bytes} {set : RRSet} {j : ℕ} (hs : v.Sound)
    (hat : NamedAt v.out w.offset (nameLabels owner) j v.offset) (hj : j ≤ maxJumps) (ho : OwnerName owner)
    (hfit : v.offset + 10 + rdata.length ≤ v.limit) (hmax : v.limit ≤ maxTCPSize)
    (hp : Inside (v.put (recordBytes set rdata)) p) :
    ∃ x, Meant owner set.type x ∧ walkRecord p w.offset = .ok (x, (v.put (recordBytes set rdata)).offset) := by
  have htcp : maxTCPSize = 65535 := rfl
  have hput : Appended v (v.put (recordBytes set rdata)) (recordBytes set rdata) False :=
    appended_put hs (by rw [recordBytes_length]; omega)
  have hheader := hs.header
  have hend : (v.put (recordBytes set rdata)).offset = v.offset + (10 + rdata.length) := by
    rw [put_offset, recordBytes_length]
  have hlen := hp.length_le (by omega)
  obtain ⟨ls, hname, hls⟩ := hat
  obtain ⟨read, hread, hfold⟩ := NamedAt.unpack ⟨ls, hp.nameAt hput.sound (hname.append _), hls⟩ hj ho.short
  have hbytes : recordBytes set rdata <+: p.drop v.offset :=
    hp.isPrefix hput.sound hheader (put_isPrefix v (recordBytes set rdata))
  have htype : uint16At p v.offset = set.type := by
    apply uint16At_eq
    apply List.IsPrefix.trans _ hbytes
    exact prefix_append _ _
  have hsizeAt : (uint16At p (v.offset + 8)).toNat = rdata.length := by
    apply uint16At_of_isPrefix (by omega)
    obtain ⟨post, hpost⟩ := hbytes
    rw [← drop_drop, ← hpost, recordBytes, append_assoc, append_assoc, drop_left' (by simp)]
    exact prefix_append _ _
  refine ⟨(read, set.type), ⟨hfold, rfl⟩, ?_⟩
  simp only [walkRecord, hread, bind, Except.bind, hsizeAt, htype, pure, Except.pure]
  rw [if_neg (by omega), if_neg (by omega), hend, Nat.add_assoc]

theorem walkRecord_name {p : Bytes} {i : ℕ} {r : (Bytes × RRType) × ℕ} (h : walkRecord p i = .ok r) :
    ∃ n, unpackDomainName p i = .ok n := by
  obtain ⟨n, hn, -⟩ := bind_ok h
  exact ⟨n, hn⟩

section Run

variable {owner : Bytes} {set : RRSet} {rdatas : List Bytes} {w w' : PacketWriter} {k : ℕ} {p : Bytes}

variable (h : RecordRun owner set w rdatas w' k)
include h

theorem RecordRun.walk (hr : Ready w owner) (hs : w.Sound)
    (hmax : w.limit ≤ maxTCPSize) (ho : OwnerName owner) (hp : Inside w' p) :
    (SafeRecords owner set rdatas w → Ready w' owner ∧
        ∃ xs, walkRecords p k w.offset = .ok (xs, w'.offset) ∧ ∀ x ∈ xs, Meant owner set.type x) ∧
      ((∃ r, walkRecords p k w.offset = .ok r) → SafeRecords owner set rdatas w) := by
  induction h with
  | done w => exact ⟨fun _ => ⟨hr, [], rfl, nofun⟩, fun _ => trivial⟩
  | @cut w rdata rest hno =>
    constructor
    · intro _
      have happended := appended_cut hs (extends_writeDomain w owner).limit_eq (learns_writeDomain w owner)
      have hoffset := happended.offset_eq hs
      refine ⟨hr.cut hs ho, [], ?_, nofun⟩
      rw [hoffset]
      rfl
    · intro _
      constructor
      · intro hhazard
        obtain ⟨v, hname, hfit, -⟩ := hhazard.unreadable hs ho
        have hlt := hno v hname
        omega
      · intro v hname hfit
        have hlt := hno v hname
        omega
  | @record w v w' rdata rest k hname hfit run ih =>
    obtain ⟨o, -, happended⟩ := appended_name hs hname
    have hlimit := happended.limit_eq
    have hrecord : Emitted w (v.put (recordBytes set rdata)) [wireRecord set rdata] False := emitted_record hs hmax hname hfit
    have hsame := hrecord.limit_eq
    obtain ⟨-, more, happended', -⟩ := run.emitted hrecord.sound (by omega)
    have hinside : Inside (v.put (recordBytes set rdata)) p := hp.of_appended happended'
    have hput : Appended v (v.put (recordBytes set rdata)) (recordBytes set rdata) False :=
      appended_put happended.sound (by rw [recordBytes_length]; omega)
    by_cases hhazard : Hazard w owner rdata
    · obtain ⟨v', hname', -, hbad⟩ := hhazard.unreadable hs ho
      obtain rfl : v = v' := (Prod.mk.inj (hname.symm.trans hname')).1
      refine ⟨fun hsafe => absurd hhazard hsafe.1, ?_⟩
      rintro ⟨⟨xs, j⟩, hwalk⟩
      obtain ⟨x, ys, i, hfirst, -, -⟩ := several_cons_inv hwalk
      obtain ⟨n, hn⟩ := walkRecord_name hfirst
      exact absurd hn (hbad p (hinside.of_appended hput) n)
    · obtain ⟨⟨j, hj, hat⟩, hready⟩ := hr.written hs ho set hname hfit hhazard
      obtain ⟨x, hx, hwalk⟩ := walkRecord_written happended.sound hat hj ho hfit (by omega) hinside
      obtain ⟨hforth, hback⟩ := ih hready hrecord.sound (by omega) hp
      constructor
      · intro hsafe
        obtain ⟨hlast, xs, hxs, hmeant⟩ := hforth (hsafe.2 v hname hfit)
        exact ⟨hlast, x :: xs, several_cons hwalk hxs, forall_mem_cons.mpr ⟨hx, hmeant⟩⟩
      · rintro ⟨⟨xs, l⟩, hall⟩
        refine ⟨hhazard, ?_⟩
        intro v' hname' _
        obtain rfl : v = v' := (Prod.mk.inj (hname.symm.trans hname')).1
        obtain ⟨y, ys, i, hfirst, hrest, -⟩ := several_cons_inv hall
        obtain ⟨-, rfl⟩ := Prod.mk.inj (Except.ok.inj (hwalk.symm.trans hfirst))
        exact hback ⟨_, hrest⟩

theorem RecordRun.table : ∃ entries, w'.table = w.table ++ entries := by
  induction h with
  | done w => exact ⟨[], (append_nil _).symm⟩
  | @cut w rdata rest _ =>
    obtain ⟨more, hmore, -⟩ := learns_writeDomain w owner
    exact ⟨more, hmore⟩
  | @record w v w' rdata rest k hname _ _ ih =>
    obtain ⟨more, hmore, -⟩ := learns_writeDomain w owner
    rw [hname] at hmore
    obtain ⟨entries, hentries⟩ := ih
    exact ⟨more ++ entries, by rw [hentries, PacketWriter.put, hmore, append_assoc]⟩

theorem RecordRun.settled (hw : Settled w owner) (hs : w.Sound)
    (hmax : w.limit ≤ maxTCPSize) (ho : OwnerName owner) : SafeRecords owner set rdatas w ∧ w'.table = w.table := by
  induction h with
  | done w => exact ⟨trivial, rfl⟩
  | @cut w rdata rest hno =>
    refine ⟨⟨hw.safe, ?_⟩, hw.table ho⟩
    intro v hname hfit
    have hlt := hno v hname
    omega
  | @record w v w' rdata rest k hname hfit run ih =>
    have hrecord : Emitted w (v.put (recordBytes set rdata)) [wireRecord set rdata] False := emitted_record hs hmax hname hfit
    have hsame := hrecord.limit_eq
    have htable := hw.table ho
    rw [hname] at htable
    obtain ⟨more, happended, -⟩ := id hrecord
    have hnext : Settled (v.put (recordBytes set rdata)) owner :=
      hw.mono hs happended ⟨[], by rw [append_nil]; exact htable⟩
    obtain ⟨hsafe, hrest⟩ := ih hnext hrecord.sound (by omega)
    refine ⟨⟨hw.safe, ?_⟩, hrest.trans htable⟩
    intro v' hname' _
    obtain rfl : v = v' := (Prod.mk.inj (hname.symm.trans hname')).1
    exact hsafe

end Run

end Kdns.Wire
