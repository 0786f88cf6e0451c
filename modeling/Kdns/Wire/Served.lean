import Kdns.Wire.Probes
import Kdns.Wire.RDataSize

namespace Kdns.Wire

open ByteStream Dns CompressedName List

def spelled (name : Text) : Bytes := (dotted (nameLabels name)).dropLast

def ReadsSame (packet : Bytes) (s : ℕ) (rdata : Bytes) (e : ℕ × Text) : Prop :=
  ∃ name next next', unpackDomainName rdata e.1 = .ok (name, next) ∧ unpackDomainName packet (s + e.1) = .ok (name, next') ∧
    equalFoldASCII name (spelled e.2) = true

def KeepsMeaning (type : RRType) (text : Text) (rdata : Bytes) : Prop :=
  ∀ m bufLen res maxSize packet, packResponse m bufLen res maxSize = .ok packet →
    ∀ s r, (s, r) ∈ placedRecords packet → r.type = type → r.rdata = rdata →
      ∀ e ∈ embeddedNames type text, ReadsSame packet s rdata e

def NamesShort (type : RRType) (text : Text) : Prop :=
  ∀ e ∈ embeddedNames type text, (dotted (nameLabels e.2)).length ≤ maxNameLen

section Names

variable {type : RRType} {text name : Text} {rdata packet : Bytes}

theorem nameAt_wireName {p : Bytes} {i : ℕ} (hlabels : ∀ l ∈ nameLabels name, IsLabel l) (h : wireName name <+: p.drop i) :
    NameAt p 0 i (nameLabels name) 0 (i + (wireName name).length) := by
  obtain ⟨post, hpost⟩ := h
  rw [wireName, append_assoc] at hpost
  have hroot : NameAt p 0 (i + (encodeLabels (nameLabels name)).length) [] 0 (i + (encodeLabels (nameLabels name)).length + 1) := by
    apply NameAt.root (Nat.zero_le _)
    refine ⟨post, ?_⟩
    rw [← drop_drop, ← hpost, drop_left]
  have hname := NameAt.encode (Nat.zero_le i) hlabels ⟨_, hpost⟩ hroot
  rw [append_nil, Nat.add_assoc] at hname
  rwa [wireName, length_append]

theorem isPrefix_drop_trans {x y p : Bytes} {i s : ℕ} (h : x <+: y.drop i) (hy : y <+: p.drop s) : x <+: p.drop (s + i) := by
  obtain ⟨post, hpost⟩ := hy
  rw [← drop_drop, ← hpost]
  exact isPrefix_drop_append h post

theorem readsSame_of_full {s : ℕ} {e : ℕ × Text} (hlabels : ∀ l ∈ nameLabels e.2, IsLabel l)
    (hfull : wireName e.2 <+: rdata.drop e.1) (hshort : (dotted (nameLabels e.2)).length ≤ maxNameLen)
    (hrdata : rdata <+: packet.drop s) : ReadsSame packet s rdata e := by
  have hat := nameAt_wireName hlabels hfull
  have hat' := nameAt_wireName hlabels (isPrefix_drop_trans hfull hrdata)
  refine ⟨spelled e.2, e.1 + (wireName e.2).length, s + e.1 + (wireName e.2).length, ?_, ?_, decide_eq_true rfl⟩
  · exact unpackDomainName_of_nameAt hat (Nat.zero_le _) hshort
  · exact unpackDomainName_of_nameAt hat' (Nat.zero_le _) hshort

theorem ReadsSame.short {s : ℕ} {e : ℕ × Text} (h : ReadsSame packet s rdata e) :
    (dotted (nameLabels e.2)).length ≤ maxNameLen := by
  obtain ⟨name, next, -, hread, -, hfold⟩ := h
  obtain ⟨ls, j, -, -, hlen, rfl⟩ := unpackDomainName_nameAt hread
  have hsame := equalFoldASCII_length hfold
  have hmax : maxNameLen = 255 := rfl
  rw [spelled, length_dropLast, length_dropLast] at hsame
  omega

end Names

theorem dotted_concat {ls : List Bytes} (h : ls ≠ []) : dotted ls = (dotted ls).dropLast ++ [dotByte] := by
  have hlast : ∃ front, dotted ls = front ++ [dotByte] := by
    rw [← dropLast_append_getLast h, dotted_append]
    refine ⟨dotted ls.dropLast ++ ls.getLast h, ?_⟩
    simp only [dotted_cons, append_assoc]
    rfl
  obtain ⟨front, hfront⟩ := hlast
  rw [hfront, dropLast_concat]

theorem dotted_length_ge {ls : List Bytes} (hne : ls ≠ []) (hls : ∀ l ∈ ls, l ≠ []) : 2 ≤ (dotted ls).length := by
  obtain ⟨l, rest, rfl⟩ := exists_cons_of_ne_nil hne
  have hl := length_pos_of_ne_nil (hls l mem_cons_self)
  rw [dotted_cons, length_append, length_append, length_singleton]
  omega

section Shortened

variable {name : Text} {rdata packet : Bytes} {front back : List Bytes} {i s t : ℕ}

theorem ReadsSame.behind (h : ReadsSame packet s rdata (i, name)) (hrdata : rdata <+: packet.drop s)
    (hfront : ∀ l ∈ front, IsLabel l) (ht : t < 255) (hp : encodeLabels front ++ pointerBytes t <+: rdata.drop i) :
    ∃ read next rest j next', unpackDomainName rdata i = .ok (read, next) ∧ read = (dotted (front ++ rest)).dropLast ∧
      NameAt packet 0 t rest j next' := by
  obtain ⟨read, next, next', hread, hread', -⟩ := h
  obtain ⟨ls, j, hat, -, -, hls⟩ := unpackDomainName_nameAt hread'
  obtain ⟨post, hpost⟩ := isPrefix_drop_trans hp hrdata
  rw [append_assoc] at hpost
  obtain ⟨rest, rfl, hrest⟩ := hat.encode_inv hfront ⟨_, hpost⟩
  have hpointer : pointerBytes t <+: packet.drop (s + i + (encodeLabels front).length) := by
    refine ⟨post, ?_⟩
    rw [← drop_drop, ← hpost, drop_left]
  obtain ⟨j', next'', -, -, -, htarget⟩ := hrest.pointer_inv (by omega) hpointer
  exact ⟨read, next, rest, j', next'', hread, hls, htarget⟩

theorem ReadsSame.rest_length {read : Bytes} {next : ℕ} {rest : List Bytes} (h : ReadsSame packet s rdata (i, name))
    (hread : unpackDomainName rdata i = .ok (read, next)) (hrest : read = (dotted (front ++ rest)).dropLast)
    (hname : nameLabels name = front ++ back) (hback : back ≠ []) : rest ≠ [] := by
  obtain ⟨read', next', -, hread', -, hfold⟩ := h
  obtain ⟨rfl, -⟩ := Prod.mk.inj (Except.ok.inj (hread'.symm.trans hread))
  have hlen := equalFoldASCII_length hfold
  have hlabels : ∀ l ∈ back, l ≠ [] := by
    intro l hl
    have hmem : l ∈ nameLabels name := hname ▸ mem_append_right front hl
    exact of_decide_eq_true (mem_filter.mp hmem).2
  have hge := dotted_length_ge hback hlabels
  rintro rfl
  rw [hrest, spelled, hname, append_nil, dotted_append, length_dropLast, length_dropLast,
    length_append] at hlen
  omega

theorem not_both_probes {answered authorised : Bytes} {sa sb : ℕ} (hshort : Shortened name i rdata)
    (ha : rdata <+: (probeFront 0x80 1 0 ++ answered).drop sa) (hb : rdata <+: (probeFront 0x81 0 1 ++ authorised).drop sb)
    (hreads : ReadsSame (probeFront 0x80 1 0 ++ answered) sa rdata (i, name))
    (hreads' : ReadsSame (probeFront 0x81 0 1 ++ authorised) sb rdata (i, name)) : False := by
  obtain ⟨front, back, t, hname, hfront, hback, ht, hp⟩ := hshort
  obtain ⟨read, next, la, ja, na, hread, hla, hat⟩ := hreads.behind ha hfront ht hp
  obtain ⟨read', next', lb, jb, nb, hread', hlb, hat'⟩ := hreads'.behind hb hfront ht hp
  obtain ⟨rfl, -⟩ := Prod.mk.inj (Except.ok.inj (hread.symm.trans hread'))
  have hla' := hreads.rest_length hread hla hname hback
  have hlb' := hreads'.rest_length hread hlb hname hback
  have heq : dotted (front ++ la) = dotted (front ++ lb) := by
    rw [dotted_concat (append_ne_nil_of_right_ne_nil _ hla'), dotted_concat (append_ne_nil_of_right_ne_nil _ hlb'),
      ← hla, ← hlb]
  rw [dotted_append, dotted_append] at heq
  exact hla' (tellsApart_root (probes_apart ht) hat hat' (append_cancel_left heq))

end Shortened

theorem keepsMeaning_iff {enc : Encoders} {type : RRType} {text : Text} {rdata : Bytes} (htype : type ∈ namedTypes)
    (h : packRData enc type text = .ok rdata) :
    KeepsMeaning type text rdata ↔ NamesShort type text ∧ NamesApart type text := by
  have hlen : rdata.length ≤ 4096 := packRData_length htype h
  constructor
  · intro hkeeps
    have hanswer := fun e => hkeeps _ _ _ _ _ (probing_first.answers type hlen) _ _ (probeFront_first.placed type hlen) rfl rfl e
    refine ⟨fun e he => (hanswer e he).short, ?_⟩
    rcases packRData_cases htype h with ⟨hapart, -⟩ | ⟨-, rfl, first, second, hnames, hshort⟩
    · exact hapart
    · have hmem : ((wireName first).length, second) ∈ embeddedNames typeSOA text := by
        rw [hnames]
        exact mem_cons_of_mem _ mem_cons_self
      have hauthority := hkeeps _ _ _ _ _ (probing_second.authorises hlen) _ _ (probeFront_second.placed typeSOA hlen) rfl rfl
      have hplace := placedRecords_isPrefix (probeFront_first.placed typeSOA hlen)
      have hplace' := placedRecords_isPrefix (probeFront_second.placed typeSOA hlen)
      exact (not_both_probes hshort hplace hplace' (hanswer _ hmem) (hauthority _ hmem)).elim
  · rintro ⟨hshort, hapart⟩ m bufLen res maxSize packet - s r hplaced - rfl e he
    rcases packRData_cases htype h with ⟨-, hfull⟩ | ⟨hshared, -⟩
    · obtain ⟨hlabels, hname⟩ := hfull e he
      exact readsSame_of_full hlabels hname (hshort e he) (placedRecords_isPrefix hplaced)
    · exact absurd hapart hshared

def nameEncoders : Encoders := ⟨.basic, fun _ _ _ => .error (.message "")⟩

theorem keepsMeaning_iff_mx :
    ∃ rdata, packRData nameEncoders typeMX (GoStrings.ascii "10 mail.example.") = .ok rdata ∧
      KeepsMeaning typeMX (GoStrings.ascii "10 mail.example.") rdata := by
  have hpack : packRData nameEncoders typeMX (GoStrings.ascii "10 mail.example.") =
      .ok ([0, 10, 4] ++ GoStrings.ascii "mail" ++ [7] ++ GoStrings.ascii "example" ++ [0]) := by decide +kernel
  refine ⟨_, hpack, (keepsMeaning_iff (by decide) hpack).mpr ⟨?_, by decide +kernel⟩⟩
  unfold NamesShort
  decide +kernel

def soaText : Text := GoStrings.ascii "ns.example. admin.example. 1 2 3 4 5"

def soaRData : Bytes :=
  [2] ++ GoStrings.ascii "ns" ++ [7] ++ GoStrings.ascii "example" ++ [0] ++ [5] ++ GoStrings.ascii "admin" ++ [0xC0, 3] ++
    [0, 0, 0, 1, 0, 0, 0, 2, 0, 0, 0, 3, 0, 0, 0, 4, 0, 0, 0, 5]

def soaQuery : Message := ⟨⟨7, 0x0100, 1, 0, 0, 0⟩, [⟨GoStrings.ascii "example", typeSOA, classIN⟩], 0, false, 0⟩

def soaAnswer : Response := { rcode := .success, answer := ⟨[soaRData], 300, typeSOA, classIN⟩ }

/-- The pointer in the second name leads to the flags in the header, which end the name. -/
theorem mailbox_loses_domain :
    packRData nameEncoders typeSOA soaText = .ok soaRData ∧ (12, GoStrings.ascii "admin.example.") ∈ embeddedNames typeSOA soaText ∧
      unpackDomainName soaRData 12 = .ok (GoStrings.ascii "admin.example", 20) ∧
      ∃ packet, packResponse soaQuery 512 soaAnswer 512 = .ok packet ∧
        (37, ⟨typeSOA, classIN, 300, soaRData⟩) ∈ placedRecords packet ∧
        unpackDomainName packet (37 + 12) = .ok (GoStrings.ascii "admin", 57) :=
  ⟨by decide +kernel, by decide +kernel, by decide +kernel, _, rfl, by decide +kernel, by decide +kernel⟩

end Kdns.Wire
