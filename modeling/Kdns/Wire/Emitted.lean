import Kdns.Wire.Sections

namespace Kdns.Wire

open ByteStream Dns CompressedName List

structure ReadsAs (rs : List WireRecord) (bytes : Bytes) : Prop where
  read : ∀ rest, readRecords rs.length (bytes ++ rest) = some (rs, rest)
  long : 11 * rs.length ≤ bytes.length

theorem ReadsAs.nil : ReadsAs [] [] := ⟨fun _ => rfl, Nat.zero_le _⟩

variable {rs : List WireRecord} {w w' : PacketWriter} {owner : Bytes} {set sigs : RRSet} {count : UInt16}

theorem ReadsAs.append {rs' : List WireRecord} {bytes bytes' : Bytes} (h : ReadsAs rs bytes) (h' : ReadsAs rs' bytes') :
    ReadsAs (rs ++ rs') (bytes ++ bytes') := by
  have hlong := h.long
  have hlong' := h'.long
  constructor
  · intro rest
    rw [append_assoc, length_append, readRecords_append (h.read _), h'.read]
    rfl
  · rw [length_append, length_append]
    omega

theorem readsAs_record {o : Bytes} (h : IsNameForm o) (set : RRSet) {rdata : Bytes} (hlen : rdata.length < 65536) :
    ReadsAs [wireRecord set rdata] (o ++ recordBytes set rdata) := by
  have hpos := h.length_pos
  constructor
  · intro rest
    rw [length_singleton, readRecords, readRecord_append h set hlen]
    rfl
  · rw [length_append, recordBytes_length, length_singleton]
    omega

def Emitted (w w' : PacketWriter) (rs : List WireRecord) (cut : Prop) : Prop :=
  ∃ more, Appended w w' more cut ∧ ReadsAs rs more

theorem Emitted.sound {cut : Prop} (h : Emitted w w' rs cut) : w'.Sound := by
  obtain ⟨more, h, -⟩ := h
  exact h.sound

theorem Emitted.limit_eq {cut : Prop} (h : Emitted w w' rs cut) : w'.limit = w.limit := by
  obtain ⟨more, h, -⟩ := h
  exact h.limit_eq

theorem Emitted.offset_ge {cut : Prop} (h : Emitted w w' rs cut)
    (hs : w.Sound) : w.offset + 11 * rs.length ≤ w'.offset := by
  obtain ⟨more, h, hr⟩ := h
  have hoffset := h.offset_eq hs
  have hlong := hr.long
  omega

theorem Emitted.refl (h : w.Sound) : Emitted w w [] False := ⟨[], .refl h, .nil⟩

theorem Emitted.trans {w'' : PacketWriter} {rs' : List WireRecord} {cut cut' : Prop} (h : Emitted w w' rs cut)
    (h' : Emitted w' w'' rs' cut') : Emitted w w'' (rs ++ rs') (cut ∨ cut') := by
  obtain ⟨more, h, hr⟩ := h
  obtain ⟨more', h', hr'⟩ := h'
  exact ⟨more ++ more', h.trans h', hr.append hr'⟩

theorem emitted_record {rdata : Bytes} (hs : w.Sound) (hmax : w.limit ≤ maxTCPSize)
    (h : w.writeDomain owner = (w', none)) (hfit : w'.offset + 10 + rdata.length ≤ w'.limit) :
    Emitted w (w'.put (recordBytes set rdata)) [wireRecord set rdata] False := by
  obtain ⟨o, hform, hname⟩ := appended_name hs h
  have hlimit := hname.limit_eq
  have htcp : maxTCPSize = 65535 := rfl
  have hput : Appended w' (w'.put (recordBytes set rdata)) (recordBytes set rdata) False := by
    apply appended_put hname.sound
    rw [recordBytes_length]
    omega
  have hboth := hname.trans hput
  rw [or_self] at hboth
  exact ⟨_, hboth, readsAs_record hform set (by omega)⟩

def firstRecords (set : RRSet) (k : ℕ) : List WireRecord := (set.rdata.take k).map (wireRecord set)

inductive RecordRun (owner : Bytes) (set : RRSet) : PacketWriter → List Bytes → PacketWriter → ℕ → Prop
  | done (w : PacketWriter) : RecordRun owner set w [] w 0
  | cut {w : PacketWriter} {rdata : Bytes} {rest : List Bytes}
      (h : ∀ v, w.writeDomain owner = (v, none) → v.limit < v.offset + 10 + rdata.length) :
      RecordRun owner set w (rdata :: rest) { (w.writeDomain owner).1 with out := w.out }.setTruncatedFlag 0
  | record {w v w' : PacketWriter} {rdata : Bytes} {rest : List Bytes} {k : ℕ} (hname : w.writeDomain owner = (v, none))
      (hfit : v.offset + 10 + rdata.length ≤ v.limit)
      (run : RecordRun owner set (v.put (recordBytes set rdata)) rest w' k) : RecordRun owner set w (rdata :: rest) w' (k + 1)

theorem RecordRun.emitted {rdatas : List Bytes} {k : ℕ} (h : RecordRun owner set w rdatas w' k) (hs : w.Sound)
    (hmax : w.limit ≤ maxTCPSize) :
    k ≤ rdatas.length ∧ Emitted w w' ((rdatas.take k).map (wireRecord set)) (k < rdatas.length) := by
  induction h with
  | done w =>
    refine ⟨le_rfl, ?_⟩
    have hrefl := Emitted.refl hs
    rwa [← iff_false_intro (lt_irrefl 0)] at hrefl
  | @cut w rdata rest _ =>
    refine ⟨Nat.zero_le _, [], ?_, .nil⟩
    have happended := appended_cut hs (extends_writeDomain w owner).limit_eq (learns_writeDomain w owner)
    rwa [← iff_true_intro (show 0 < (rdata :: rest).length from Nat.succ_pos _)] at happended
  | @record w v w' rdata rest k hname hfit _ ih =>
    have hrecord : Emitted w (v.put (recordBytes set rdata)) [wireRecord set rdata] False := emitted_record hs hmax hname hfit
    have hsame := hrecord.limit_eq
    obtain ⟨hk, hrest⟩ := ih hrecord.sound (by omega)
    refine ⟨Nat.succ_le_succ hk, ?_⟩
    have hall := hrecord.trans hrest
    rwa [false_or, ← propext (Nat.succ_lt_succ_iff (a := k) (b := rest.length))] at hall

theorem writeRecords_run {rdatas : List Bytes} {count' : UInt16} (hs : w.Sound) (hmax : w.limit ≤ maxTCPSize)
    (hcount : 11 * count.toNat ≤ w.offset) (h : writeRecords owner set rdatas w count = (w', .ok count')) :
    ∃ k, RecordRun owner set w rdatas w' k ∧ count'.toNat = count.toNat + k := by
  induction rdatas generalizing w count with
  | nil =>
    cases h
    exact ⟨0, .done _, rfl⟩
  | cons rdata rest ih =>
    rw [writeRecords] at h
    have hcut : (∀ v, w.writeDomain owner = (v, none) → v.limit < v.offset + 10 + rdata.length) →
        RecordRun owner set w (rdata :: rest) { (w.writeDomain owner).1 with out := w.out }.setTruncatedFlag 0 := .cut
    rcases hname : w.writeDomain owner with ⟨v, _ | e⟩
    · rw [hname] at h hcut
      dsimp only at h
      by_cases hfit : v.offset + 10 + rdata.length > v.limit
      · rw [if_pos hfit] at h
        cases h
        refine ⟨0, hcut ?_, rfl⟩
        rintro v' hv'
        cases hv'
        exact hfit
      · rw [if_neg hfit] at h
        have hrecord : Emitted w (v.put (recordBytes set rdata)) [wireRecord set rdata] False :=
          emitted_record hs hmax hname (Nat.le_of_not_lt hfit)
        have hge := hrecord.offset_ge hs
        have hfits := hrecord.sound.fits
        have hsame := hrecord.limit_eq
        rw [length_singleton] at hge
        have htcp : maxTCPSize = 65535 := rfl
        have hnext : (count + 1).toNat = count.toNat + 1 := by
          exact Nat.mod_eq_of_lt (by change count.toNat + 1 < 65536; omega)
        have hgo : count + 1 ≠ 0xFFFF := by
          intro he
          have hval : (count + 1).toNat = 65535 := congrArg UInt16.toNat he
          omega
        rw [if_neg hgo] at h
        obtain ⟨k, hrun, hsum⟩ := ih hrecord.sound (by omega) (by omega) h
        exact ⟨k + 1, .record hname (Nat.le_of_not_lt hfit) hrun, by omega⟩
    · rw [hname] at h hcut
      dsimp only at h
      split_ifs at h
      · cases h
        refine ⟨0, hcut ?_, rfl⟩
        intro v' hv'
        cases hv'
      · cases h

theorem firstRecords_length {k : ℕ} (h : k ≤ set.rdata.length) : (firstRecords set k).length = k := by
  rw [firstRecords, length_map, length_take, Nat.min_eq_left h]

theorem firstRecords_empty (k : ℕ) : firstRecords RRSet.empty k = [] := by
  rw [firstRecords, RRSet.empty, take_nil, map_nil]

def SectionRun (owner : Bytes) (set sigs : RRSet) (w w' : PacketWriter) (count : UInt16) : Prop :=
  ∃ v k ks, (w.writeRRSet owner set).1 = v ∧ RecordRun owner set w set.rdata v k ∧ RecordRun owner sigs v sigs.rdata w' ks ∧
    count.toNat = k + ks

theorem sectionRun_nothing (owner : Bytes) (w : PacketWriter) (hset : set.rdata = [])
    (hsigs : sigs.rdata = []) : SectionRun owner set sigs w w 0 := by
  refine ⟨w, 0, 0, ?_, ?_, ?_, rfl⟩
  · rw [PacketWriter.writeRRSet, hset]
    rfl
  · rw [hset]
    exact .done w
  · rw [hsigs]
    exact .done w

theorem sectionRun_set (hs : w.Sound) (hmax : w.limit ≤ maxTCPSize) (h : w.writeRRSet owner set = (w', .ok count)) :
    SectionRun owner set RRSet.empty w w' count := by
  obtain ⟨k, hrun, hcount⟩ := writeRecords_run hs hmax (Nat.zero_le _) h
  exact ⟨w', k, 0, congrArg Prod.fst h, hrun, .done w', hcount.trans (Nat.zero_add k)⟩

def askedSet (asked : Bool) (set : RRSet) : RRSet := if asked then set else RRSet.empty

theorem sectionRun_signed {signed : Bool} (hs : w.Sound) (hmax : w.limit ≤ maxTCPSize)
    (h : w.writeSigned owner set sigs signed = (w', .ok count)) :
    SectionRun owner set (askedSet signed sigs) w w' count := by
  unfold PacketWriter.writeSigned at h
  rcases hset : w.writeRRSet owner set with ⟨v, _ | n⟩
  · rw [hset] at h
    cases h
  rw [hset] at h
  dsimp only at h
  cases signed with
  | false =>
    cases h
    exact sectionRun_set hs hmax hset
  | true =>
    obtain ⟨k, hrun, hn⟩ := writeRecords_run hs hmax (Nat.zero_le _) hset
    obtain ⟨hk, hfirst⟩ := hrun.emitted hs hmax
    have hlimit := hfirst.limit_eq
    rcases hsigs : v.writeRRSet owner sigs with ⟨v', _ | ns⟩
    · rw [hsigs] at h
      cases h
    rw [hsigs] at h
    cases h
    obtain ⟨ks, hruns, hns⟩ := writeRecords_run hfirst.sound (by omega) (Nat.zero_le _) hsigs
    obtain ⟨hks, hsecond⟩ := hruns.emitted hfirst.sound (by omega)
    refine ⟨v, k, ks, congrArg Prod.fst hset, hrun, hruns, ?_⟩
    -- the records fit the packet, so that their number fits the counter
    have hge := hfirst.offset_ge hs
    have hge' := hsecond.offset_ge hfirst.sound
    have hfits := hsecond.sound.fits
    have hlimit' := hsecond.limit_eq
    have htcp : maxTCPSize = 65535 := rfl
    rw [length_map, length_take, Nat.min_eq_left hk] at hge
    rw [length_map, length_take, Nat.min_eq_left hks] at hge'
    have hzero : (0 : UInt16).toNat = 0 := rfl
    rw [hzero, Nat.zero_add] at hn hns
    rw [UInt16.toNat_add, hn, hns]
    exact Nat.mod_eq_of_lt (by change k + ks < 65536; omega)

def SectionEmitted (w w' : PacketWriter) (count : UInt16) (set sigs : RRSet) : Prop :=
  ∃ k ≤ set.rdata.length, ∃ ks ≤ sigs.rdata.length, count.toNat = k + ks ∧
    Emitted w w' (firstRecords set k ++ firstRecords sigs ks) (k < set.rdata.length ∨ ks < sigs.rdata.length)

theorem SectionRun.emitted (h : SectionRun owner set sigs w w' count) (hs : w.Sound) (hmax : w.limit ≤ maxTCPSize) :
    SectionEmitted w w' count set sigs := by
  obtain ⟨v, k, ks, -, hrun, hruns, hcount⟩ := h
  obtain ⟨hk, hfirst⟩ := hrun.emitted hs hmax
  have hlimit := hfirst.limit_eq
  obtain ⟨hks, hsecond⟩ := hruns.emitted hfirst.sound (by omega)
  exact ⟨k, hk, ks, hks, hcount, hfirst.trans hsecond⟩

def OptEmitted (m : Message) (w w' : PacketWriter) (count : UInt16) (opt : List WireRecord) : Prop :=
  (opt = [] ∨ m.edns0Size ≠ 0 ∧ opt = firstRecords (optSet m) 1) ∧ Emitted w w' opt False ∧ count.toNat = opt.length

theorem opt_emitted (hs : w.Sound) (m : Message) (res : Response) :
    ∃ opt, OptEmitted m w (w.writeEDNS0 m res).1 (w.writeEDNS0 m res).2 opt := by
  rcases writeEDNS0_cases w m res with hnone | ⟨hsome, hfit, hopt⟩
  · rw [hnone]
    exact ⟨[], .inl rfl, .refl hs, rfl⟩
  · rw [hopt]
    have hroot : IsNameForm [0] := ⟨[], [0], nofun, .inl rfl, rfl⟩
    have hput : Appended w (w.put ([0] ++ recordBytes (optSet m) [])) ([0] ++ recordBytes (optSet m) []) False := by
      apply appended_put hs
      exact hfit
    exact ⟨_, .inr ⟨hsome, rfl⟩, ⟨_, hput, readsAs_record hroot (optSet m) (by decide)⟩, rfl⟩

end Kdns.Wire
