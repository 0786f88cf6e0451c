import Kdns.Wire.Soa
import Kdns.Zone.Lines

open List

namespace Kdns.Wire

open ByteStream Dns CompressedName

def Denotes (wire : Bytes) (offset : ℕ) (name : Text) : Prop :=
  ∃ ls j next, NameAt wire 0 offset ls j next ∧ lowered ls = lowered (nameLabels name)

theorem Denotes.labels {wire : Bytes} {offset : ℕ} {name name' : Text} (h : Denotes wire offset name) :
    Denotes wire offset name' ↔ lowered (nameLabels name) = lowered (nameLabels name') := by
  obtain ⟨ls, j, next, hat, hls⟩ := h
  constructor
  · rintro ⟨ls', j', next', hat', hls'⟩
    obtain ⟨rfl, -⟩ := hat.unique hat'
    rw [← hls, hls']
  · intro heq
    exact ⟨ls, j, next, hat, hls.trans heq⟩

theorem packRData_denotes {enc : Encoders} {type : RRType} {text : Text} {wire : Bytes} (htype : type ∈ namedTypes)
    (h : packRData enc type text = .ok wire) : ∀ e ∈ embeddedNames type text, Denotes wire e.1 e.2 := by
  rcases packRData_cases htype h with ⟨-, hfull⟩ | ⟨-, rfl, first, second, hnames, -⟩
  · intro e he
    obtain ⟨hlabels, hwire⟩ := hfull e he
    exact ⟨_, _, _, nameAt_wireName hlabels hwire, rfl⟩
  · obtain ⟨w, hw, rfl⟩ := packRData_iff.mp h
    obtain ⟨names, first', second', j, values, hform⟩ := writeRDataSOA_form hw rfl rfl (by decide)
    have hsame : embeddedNames typeSOA text = [(0, first'), ((wireName first').length, second')] := by
      obtain ⟨numbers, hfields, -⟩ := hform.fields
      change soaNames text = _
      rw [soaNames, hfields]
    rw [hsame, hform.wire_eq, forall_mem_cons, forall_mem_singleton]
    exact ⟨⟨_, _, _, hform.first_at.append _, rfl⟩, ⟨_, _, _, hform.second_at.append _, hform.labels⟩⟩

end Kdns.Wire

namespace Kdns.Zone

open ByteStream Dns Wire
open GoStrings hiding Text

def relativeTo (origin name : Text) : Text := if name = ascii "@" then origin else complete origin name

theorem lowered_at : lowered (nameLabels (ascii "@")) = [ascii "@"] := by decide

theorem lowered_eq_at {ls : List Bytes} : lowered ls = [ascii "@"] ↔ ls = [ascii "@"] := by
  have hbyte : ∀ b : UInt8, lowerASCII b = 0x40 → b = 0x40 := by
    intro b hb
    rcases lowerASCII_eq hb with h | h
    · exact h
    · have hspace : b = 0x20 := by
        rw [← UInt8.add_right_inj 32, UInt8.add_comm 32, h]
        rfl
      rw [hspace] at hb
      exact absurd hb (by decide)
  constructor
  · intro h
    obtain ⟨l, hl⟩ : ∃ l, ls = [l] := length_eq_one_iff.mp (by simpa [lowered] using congrArg List.length h)
    subst hl
    have hmap : l.map lowerASCII = [0x40] := singleton_inj.mp h
    obtain ⟨b, rfl⟩ : ∃ b, l = [b] := length_eq_one_iff.mp (by simpa using congrArg List.length hmap)
    rw [hbyte b (singleton_inj.mp hmap)]
    rfl
  · rintro rfl
    decide

theorem relativeTo_labels (origin : Text) {name : Text} (hdot : hasSuffix name [dotByte] = false) :
    lowered (nameLabels name) = lowered (nameLabels (relativeTo origin name)) ↔
      nameLabels origin = if name = ascii "@" then [ascii "@"] else [] := by
  unfold relativeTo complete
  split_ifs with hat hrel
  · rw [hat, lowered_at, eq_comm]
    exact lowered_eq_at
  · rw [nameLabels_dot, lowered_append, self_eq_append_right, lowered, map_eq_nil_iff]
  · have horigin : origin = [] := by simpa [hdot] using hrel
    simp [horigin, nameLabels_nil]

variable {enc : Encoders} {u : Unicode} {p p' : ZoneParser} {tokens : List Text} {typeIdx : ℕ} {qType : RRType}
  {hd : ParsedHeader} {name last : Text} {wire : Bytes}

def relativeTypes : List RRType := [typeNS, typeCNAME, typePTR, typeMX, typeSRV, typeSOA]

/-- The names in the RDATA of a record are stored as they are written. So they are completed with the origin, as its owner is,
exactly if there is nothing to add. -/
theorem relative_names_iff (h : Accepted enc u p p' tokens typeIdx qType hd name wire last) (htype : qType ∈ relativeTypes) :
    (∀ e ∈ embeddedNames qType (joinBlank (tokens.drop (typeIdx + 1))), hasSuffix e.2 [dotByte] = false →
        Denotes wire e.1 (relativeTo p.origin e.2)) ↔
      ∀ e ∈ embeddedNames qType (joinBlank (tokens.drop (typeIdx + 1))), hasSuffix e.2 [dotByte] = false →
        nameLabels p.origin = if e.2 = ascii "@" then [ascii "@"] else [] := by
  have hnamed : qType ∈ namedTypes := by
    have hsubset : relativeTypes ⊆ namedTypes := by decide
    exact hsubset htype
  apply forall_congr'
  intro e
  apply forall_congr'
  intro he
  apply forall_congr'
  intro hdot
  rw [(packRData_denotes hnamed h.rdata e he).labels, relativeTo_labels p.origin hdot]

theorem relative_names_origin : Denotes [1, 0x78, 0] 0 (ascii "x") := by
  have h : Accepted sampleEncoders .basic newZoneParser
      { newZoneParser with
        lastDomain := ascii "w"
        records := [(ascii "w", [⟨[[1, 0x78, 0]], 3600, typeCNAME, classIN⟩])] }
      [ascii "w", ascii "CNAME", ascii "x"] 1 typeCNAME ⟨ascii "w", 3600, classIN, true⟩ (ascii "w") [1, 0x78, 0] (ascii "w") :=
    ⟨by decide +kernel, by decide +kernel, by decide +kernel, by decide +kernel, by decide +kernel⟩
  apply (relative_names_iff h (by decide)).mpr _ (0, ascii "x") (by decide +kernel) (by decide)
  intro e he _
  rw [mem_singleton.mp he]
  decide +kernel

/-- The alias of `w.a` is `x` and not `x.a`. -/
theorem relative_alias :
    parse sampleEncoders .basic (ascii "$ORIGIN a.\nw CNAME x\n") =
        .ok [(ascii "w.a", [⟨[[1, 0x78, 0]], 3600, typeCNAME, classIN⟩])] ∧
      embeddedNames typeCNAME (ascii "x") = [(0, ascii "x")] ∧ relativeTo (ascii "a") (ascii "x") = ascii "x.a" ∧
      ¬Denotes [1, 0x78, 0] 0 (ascii "x.a") := by
  refine ⟨by decide +kernel, by decide, by decide, ?_⟩
  have hx : Denotes [1, 0x78, 0] 0 (ascii "x") :=
    packRData_denotes (by decide) (by decide +kernel : packRData sampleEncoders typeCNAME (ascii "x") = .ok [1, 0x78, 0])
      (0, ascii "x") (by decide)
  rw [hx.labels]
  decide

end Kdns.Zone
