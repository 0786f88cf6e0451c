import Kdns.Wire.Tables

namespace Kdns.Wire

open ByteStream Dns CompressedName

section WriteDomain

variable {w : PacketWriter} {name : Bytes}

theorem not_root_of_lookup {t : ℕ} (h : w.lookup name = some t) : ¬(name = [] ∨ name = [dotByte]) := by
  intro hroot
  rw [PacketWriter.lookup, if_pos hroot] at h
  cases h

theorem writeDomain_root (h : name = [] ∨ name = [dotByte]) : w.writeDomain name = w.writeRoot := by
  have hlen : ¬ name.length > maxNameLen := by rcases h with rfl | rfl <;> decide
  rw [PacketWriter.writeDomain, PacketWriter.writeDomainCompressed, if_neg hlen, if_pos h]

theorem writeDomain_known {t : ℕ} (hlen : name.length ≤ maxNameLen) (h : w.lookup name = some t) : w.writeDomain name =
      if w.offset + 2 > w.limit then (w, some .bufferTooSmall) else (w.put (pointerBytes t), none) := by
  rw [PacketWriter.writeDomain, PacketWriter.writeDomainCompressed, if_neg (Nat.not_lt.mpr hlen),
    if_neg (not_root_of_lookup h), writeSuffix, if_pos rfl, h]
  rfl

theorem writeLabel_learned {label : Bytes} (closing : Bytes) (hroot : ¬(name = [] ∨ name = [dotByte])) (hnone : w.lookup name = none)
    (hlabel : label ≠ []) :
    (w.writeLabel name label closing true).1.table = w.table ∧ ((w.writeLabel name label closing true).2 = none → w.Full) ∨
      (w.writeLabel name label closing true).1.lookup name = some w.offset := by
  unfold PacketWriter.writeLabel
  rw [if_neg hlabel, if_pos rfl]
  by_cases hlong : label.length > maxLabelLen
  · grind
  rw [if_neg hlong]
  by_cases hfit : w.offset + 1 + label.length + closing.length > w.limit
  · grind
  rw [if_neg hfit]
  rcases insert_cases hroot hnone with ⟨hfull, heq⟩ | htable
  · left
    rw [heq]
    exact ⟨rfl, fun _ => hfull⟩
  · exact .inr (lookup_last htable hroot hnone)

theorem take_ne_nil_of_head {i : ℕ} (hdot : name.head? ≠ some dotByte) (hi : name.idxOf? dotByte = some i) :
    name.take i ≠ [] := by
  obtain ⟨heq, -, -⟩ := split_at_dot hi
  intro hnil
  rw [hnil, List.nil_append] at heq
  rw [heq] at hdot
  exact hdot rfl

theorem writeDomain_learned (hdot : name.head? ≠ some dotByte) (hroot : ¬(name = [] ∨ name = [dotByte]))
    (hnone : w.lookup name = none) : (w.writeDomain name).1.table = w.table ∧ ((w.writeDomain name).2 = none → w.Full) ∨
      (w.writeDomain name).1.lookup name = some w.offset := by
  have hne : name ≠ [] := fun h => hroot (.inl h)
  unfold PacketWriter.writeDomain PacketWriter.writeDomainCompressed
  by_cases hlen : name.length > maxNameLen
  · grind
  rw [if_neg hlen, if_neg hroot, writeSuffix, if_pos rfl, hnone]
  cases hi : name.idxOf? dotByte with
  | none =>
    exact writeLabel_learned [0] hroot hnone hne
  | some i =>
    have hlearned := writeLabel_learned [] hroot hnone (take_ne_nil_of_head hdot hi)
    have hfull := fun h => (full_nameStep.writeLabel w name (name.take i) [] true h).2
    dsimp only
    rw [PacketWriter.writeIntermediateLabel]
    generalize w.writeLabel name (name.take i) [] true = r at hlearned hfull ⊢
    rcases r with ⟨w', _ | e⟩
    · dsimp only at hlearned hfull ⊢
      rcases hlearned with ⟨htable, hw⟩ | hlookup
      · left
        refine ⟨?_, fun _ => hw rfl⟩
        split_ifs
        · exact (writeRoot_table w').trans htable
        · exact (full_nameStep.writeSuffix w' _ _ _ (hfull (hw rfl))).1.trans htable
      · right
        split_ifs
        · obtain ⟨more, hmore, -⟩ := (learns_nameStep.writeRoot w').2
          exact lookup_append hmore hlookup
        · obtain ⟨more, hmore, -⟩ := (learns_nameStep.writeSuffix w' true name.length (name.drop (i + 1))).2
          exact lookup_append hmore hlookup
    · rcases hlearned with ⟨htable, -⟩ | hlookup
      · refine .inl ⟨htable, ?_⟩
        intro h
        cases h
      · exact .inr hlookup

end WriteDomain

theorem PacketWriter.Sound.lookup_lt {w : PacketWriter} {name : Bytes} {t : ℕ} (hs : w.Sound) (h : w.lookup name = some t) :
    t < 0x4000 := by
  obtain ⟨s, hmem, -⟩ := PacketWriter.mem_of_lookup h
  exact Nat.lt_succ_of_le (hs.placed _ hmem)

structure OwnerName (owner : Bytes) : Prop where
  length_le : owner.length ≤ maxNameLen
  first : owner = [] ∨ owner = [dotByte] ∨ owner.head? ≠ some dotByte
  short : (dotted (nameLabels owner)).length ≤ maxNameLen

theorem OwnerName.head {owner : Bytes} (h : OwnerName owner) (hroot : ¬(owner = [] ∨ owner = [dotByte])) :
    owner.head? ≠ some dotByte := by
  rcases h.first with h | h | h
  · exact absurd (.inl h) hroot
  · exact absurd (.inr h) hroot
  · exact h

inductive Ready (w : PacketWriter) (owner : Bytes) : Prop
  | root (h : owner = [] ∨ owner = [dotByte])
  | known {t : ℕ} (h : w.lookup owner = some t)
      (hat : w.offset ≤ t ∨ ∃ j ≤ maxJumps, ∃ next, NamedAt w.out t (nameLabels owner) j next)
  | fresh (hroot : ¬(owner = [] ∨ owner = [dotByte])) (h : w.lookup owner = none) (hv : w.Valid maxJumps)

/-- The record fits, and its owner would be a pointer to itself or the eleventh on the way to the name. -/
def Hazard (w : PacketWriter) (owner rdata : Bytes) : Prop :=
  ∃ t, w.lookup owner = some t ∧ w.offset + 12 + rdata.length ≤ w.limit ∧
    (w.offset ≤ t ∨ ∃ ls next, NameAt w.out headerSize t ls maxJumps next)

theorem nameLabels_root {name : Bytes} (h : name = [] ∨ name = [dotByte]) : nameLabels name = [] := by
  rcases h with rfl | rfl <;> decide

section Steps

variable {w v : PacketWriter} {owner rdata : Bytes}

theorem Ready.written (h : Ready w owner) (hs : w.Sound) (ho : OwnerName owner) (set : RRSet)
    (hname : w.writeDomain owner = (v, none)) (hfit : v.offset + 10 + rdata.length ≤ v.limit) (hsafe : ¬ Hazard w owner rdata) :
    (∃ j ≤ maxJumps, NamedAt v.out w.offset (nameLabels owner) j v.offset) ∧ Ready (v.put (recordBytes set rdata)) owner := by
  obtain ⟨o, -, happended⟩ := appended_name hs hname
  have hput : Appended v (v.put (recordBytes set rdata)) (recordBytes set rdata) False :=
    appended_put happended.sound (by rw [recordBytes_length]; omega)
  cases h with
  | root hroot =>
    rw [writeDomain_root hroot] at hname
    obtain ⟨hlt, rfl⟩ := PacketWriter.writeRoot_ok hname
    have hlabels := nameLabels_root hroot
    have hat := (nameWritten_root hlabels hlt).nameAt_root hs.header
    exact ⟨⟨0, Nat.zero_le _, [], hat, by rw [hlabels]⟩, .root hroot⟩
  | known hlookup hat =>
    rename_i t
    rw [writeDomain_known ho.length_le hlookup] at hname
    split_ifs at hname with hfull
    · cases hname
    obtain rfl := (Prod.mk.inj hname).1
    have hlimit := happended.limit_eq
    rw [put_offset, pointerBytes_length] at hfit
    have hroom : w.offset + 12 + rdata.length ≤ w.limit := by omega
    rcases hat with hstale | ⟨j, hj, next, hat⟩
    · exact absurd ⟨t, hlookup, hroom, .inl hstale⟩ hsafe
    obtain ⟨ls, hname', hls⟩ := hat
    have hdeep : j ≠ maxJumps := by
      rintro rfl
      exact hsafe ⟨t, hlookup, hroom, .inr ⟨ls, next, hname'⟩⟩
    have hback : t < w.offset := by
      by_contra hge
      exact hsafe ⟨t, hlookup, hroom, .inl (Nat.le_of_not_lt hge)⟩
    have ht : t < 0x4000 := hs.lookup_lt hlookup
    constructor
    · refine ⟨j + 1, by omega, ls, ?_, hls⟩
      rw [put_offset, pointerBytes_length]
      have hhere := put_isPrefix w (pointerBytes t)
      have htarget : NameAt (w.put (pointerBytes t)).out headerSize t ls j next := hname'.append _
      exact .pointer hs.header ht hback hhere htarget
    · refine .known hlookup (.inr ⟨j, hj, next, ls, ?_, hls⟩)
      exact (hname'.append _).append _
  | fresh hroot hnone hv =>
    obtain ⟨front, back, closing, hn⟩ := writeDomainCompressed_written hname
    obtain ⟨hat, -⟩ := hn.valid hs hv
    refine ⟨hat, ?_⟩
    obtain ⟨j, hj, ls, hname', hls⟩ := hat
    have hlearned := writeDomain_learned (ho.head hroot) hroot hnone
    rw [hname] at hlearned
    rcases hlearned with ⟨htable, -⟩ | hlookup
    · refine .fresh hroot ((lookup_congr htable).trans hnone) ?_
      exact hv.mono hs (happended.trans hput) htable
    · exact .known hlookup (.inr ⟨j, hj, _, ls, hname'.append _, hls⟩)

theorem Ready.cut (h : Ready w owner) (hs : w.Sound) (ho : OwnerName owner) :
    Ready { (w.writeDomain owner).1 with out := w.out }.setTruncatedFlag owner := by
  have hlearns := learns_writeDomain w owner
  have happended := appended_cut hs (extends_writeDomain w owner).limit_eq hlearns
  have hoffset := happended.offset_eq hs
  cases h with
  | root hroot => exact .root hroot
  | known hlookup hat =>
    obtain ⟨more, hmore, -⟩ := hlearns
    refine .known (lookup_append hmore hlookup) ?_
    rcases hat with hstale | ⟨j, hj, next, hat⟩
    · exact .inl (hoffset.trans_le hstale)
    · exact .inr ⟨j, hj, next, hat.mono happended hs⟩
  | fresh hroot hnone hv =>
    rcases writeDomain_learned (ho.head hroot) hroot hnone with ⟨htable, -⟩ | hlookup
    · exact .fresh hroot ((lookup_congr htable).trans hnone) (hv.mono hs happended htable)
    · exact .known hlookup (.inl hoffset.le)

theorem Hazard.unreadable (h : Hazard w owner rdata) (hs : w.Sound) (ho : OwnerName owner) :
    ∃ v, w.writeDomain owner = (v, none) ∧ v.offset + 10 + rdata.length ≤ v.limit ∧
      ∀ p, Inside v p → ∀ r, unpackDomainName p w.offset ≠ .ok r := by
  obtain ⟨t, hlookup, hroom, hbad⟩ := h
  have ht : t < 0x4000 := hs.lookup_lt hlookup
  have hname : w.writeDomain owner = (w.put (pointerBytes t), none) := by
    rw [writeDomain_known ho.length_le hlookup, if_neg (by omega)]
  obtain ⟨o, -, happended⟩ := appended_name hs hname
  refine ⟨w.put (pointerBytes t), hname, ?_, ?_⟩
  · rw [put_offset, pointerBytes_length]
    exact (by omega : w.offset + 2 + 10 + rdata.length ≤ w.limit)
  · rintro p hp ⟨name, next⟩ hok
    have hhere : pointerBytes t <+: p.drop w.offset :=
      hp.isPrefix happended.sound hs.header (put_isPrefix w (pointerBytes t))
    obtain ⟨ls, j, hat, hj, -⟩ := unpackDomainName_nameAt hok
    cases hat with
    | root _ h0 => exact pointer_not_root ht hhere h0
    | label _ hl h0 _ => exact label_not_pointer hl ht h0 hhere
    | pointer _ ht' hback h0 target =>
      obtain rfl := pointerBytes_inj ht' ht (eq_of_isPrefix h0 hhere (by rw [pointerBytes_length, pointerBytes_length]))
      rcases hbad with hstale | ⟨ls', next', hdeep⟩
      · omega
      · have hjumps := ((hp.nameAt happended.sound (hdeep.append _)).unique target).2.1
        omega

theorem PacketWriter.Valid.ready (h : w.Valid maxJumps) (owner : Bytes) : Ready w owner := by
  by_cases hroot : owner = [] ∨ owner = [dotByte]
  · exact .root hroot
  cases hlookup : w.lookup owner with
  | none => exact .fresh hroot hlookup h
  | some t =>
    obtain ⟨s, hmem, hfold⟩ := PacketWriter.mem_of_lookup hlookup
    obtain ⟨-, j, hj, next, ls, hat, hls⟩ := h _ hmem
    exact .known hlookup (.inr ⟨j, hj.le, next, ls, hat, hls.trans (lowered_of_equalFold hfold)⟩)

def Settled (w : PacketWriter) (owner : Bytes) : Prop :=
  (owner = [] ∨ owner = [dotByte]) ∨
    ∃ t, w.lookup owner = some t ∧ t < w.offset ∧ ∃ j < maxJumps, ∃ next, NamedAt w.out t (nameLabels owner) j next

variable (h : Settled w owner)
include h

theorem Settled.ready : Ready w owner := by
  rcases h with hroot | ⟨t, hlookup, -, j, hj, next, hat⟩
  · exact .root hroot
  · exact .known hlookup (.inr ⟨j, hj.le, next, hat⟩)

theorem Settled.safe : ¬ Hazard w owner rdata := by
  rintro ⟨t', hlookup', -, hbad⟩
  rcases h with hroot | ⟨t, hlookup, hlt, j, hj, next, ls, hat, -⟩
  · exact not_root_of_lookup hlookup' hroot
  · obtain rfl : t = t' := Option.some.inj (hlookup.symm.trans hlookup')
    rcases hbad with hstale | ⟨ls', next', hdeep⟩
    · omega
    · have hjumps := (hat.unique hdeep).2.1
      omega

theorem Settled.mono {w' : PacketWriter} {more : Bytes} {cut : Prop} (hs : w.Sound) (ha : Appended w w' more cut)
    (htable : ∃ entries, w'.table = w.table ++ entries) : Settled w' owner := by
  rcases h with hroot | ⟨t, hlookup, hlt, j, hj, next, hat⟩
  · exact .inl hroot
  · obtain ⟨entries, hentries⟩ := htable
    have hoffset := ha.offset_eq hs
    exact .inr ⟨t, lookup_append hentries hlookup, by omega, j, hj, next, hat.mono ha hs⟩

theorem Settled.table (ho : OwnerName owner) : (w.writeDomain owner).1.table = w.table := by
  rcases h with hroot | ⟨t, hlookup, -⟩
  · rw [writeDomain_root hroot]
    apply writeRoot_table
  · rw [writeDomain_known ho.length_le hlookup]
    split_ifs <;> rfl

end Steps

def SafeRecords (owner : Bytes) (set : RRSet) : List Bytes → PacketWriter → Prop
  | [], _ => True
  | rdata :: rest, w => ¬ Hazard w owner rdata ∧ ∀ v, w.writeDomain owner = (v, none) →
      v.offset + 10 + rdata.length ≤ v.limit → SafeRecords owner set rest (v.put (recordBytes set rdata))

end Kdns.Wire
