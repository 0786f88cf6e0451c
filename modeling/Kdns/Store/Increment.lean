import Kdns.Store.Serial
import Kdns.Wire.Soa
import Mathlib.Logic.Function.Iterate

namespace Kdns.Storage

open ByteStream Dns Wire CompressedName List

section Skip

variable {p : Bytes} {lo i j next : ℕ} {ls : List Bytes}

theorem skipFrom_nameAt (h : NameAt p lo i ls j next) {fuel : ℕ} (hfuel : p.length ≤ i + fuel) : skipFrom p fuel i = some next := by
  induction h generalizing fuel with
  | @root i _ h =>
    have hlt := length_le_of_isPrefix_drop h (cons_ne_nil _ _)
    rw [length_singleton] at hlt
    obtain ⟨fuel, rfl⟩ : ∃ k, fuel = k + 1 := ⟨fuel - 1, by omega⟩
    rw [skipFrom, getElem?_of_isPrefix h]
    rfl
  | @label i l ls j next _ hl h _ ih =>
    have hlt := length_le_of_isPrefix_drop h (cons_ne_nil _ _)
    rw [labelBytes_length] at hlt
    have hle := hl.length_le
    obtain ⟨hhead, hpos⟩ := hl.head
    have hmask : compressionPointerMask = 192 := rfl
    obtain ⟨fuel, rfl⟩ : ∃ k, fuel = k + 1 := ⟨fuel - 1, by omega⟩
    rw [skipFrom, getElem?_of_isPrefix h]
    dsimp only
    rw [hhead, if_neg (by omega), if_neg (by omega), ← Nat.add_assoc]
    exact ih (by omega)
  | @pointer i t ls j next _ ht _ h _ _ =>
    have hlt := length_le_of_isPrefix_drop h (cons_ne_nil _ _)
    rw [pointerBytes_length] at hlt
    obtain ⟨b, x, heq, hb⟩ := pointerBytes_cons ht
    have hmask : compressionPointerMask = 192 := rfl
    obtain ⟨fuel, rfl⟩ : ∃ k, fuel = k + 1 := ⟨fuel - 1, by omega⟩
    rw [heq] at h
    rw [skipFrom, getElem?_of_isPrefix h]
    dsimp only
    rw [if_neg (by omega), if_pos (by omega)]

theorem skipDomainName_nameAt (h : NameAt p lo i ls j next) : skipDomainName p i = some next :=
  skipFrom_nameAt h (Nat.le_add_left _ _)

end Skip

section Increment

variable {names rest : Bytes} {ls ls' : List Bytes} {m j j' serial : ℕ}

theorem incrementSOASerial_names (hfirst : NameAt names 0 0 ls j m) (hsecond : NameAt names 0 m ls' j' names.length)
    (hserial : serial < 2 ^ 32) (hrest : rest.length = 16) :
    incrementSOASerial (names ++ (bigEndian 4 serial ++ rest)) = names ++ (bigEndian 4 ((serial + 1) % 2 ^ 32) ++ rest) := by
  have hlen : (names ++ (bigEndian 4 serial ++ rest)).length = names.length + 20 := by
    rw [length_append, length_append, bigEndian_length, hrest]
  rw [incrementSOASerial, skipDomainName_nameAt (hfirst.append _), Option.bind_some, skipDomainName_nameAt (hsecond.append _)]
  dsimp only
  rw [if_neg (by omega), take_left, ← drop_drop, drop_left, take_left' (bigEndian_length 4 serial),
    ofBigEndian_bigEndian 4 serial hserial, drop_left' (bigEndian_length 4 serial)]

theorem incrementSOASerial_iterate (hfirst : NameAt names 0 0 ls j m) (hsecond : NameAt names 0 m ls' j' names.length)
    (hserial : serial < 2 ^ 32) (hrest : rest.length = 16) (k : ℕ) :
    incrementSOASerial^[k] (names ++ (bigEndian 4 serial ++ rest)) = names ++ (bigEndian 4 ((serial + k) % 2 ^ 32) ++ rest) := by
  induction k with
  | zero => rw [Function.iterate_zero, id_eq, Nat.add_zero, Nat.mod_eq_of_lt hserial]
  | succ k ih =>
    rw [Function.iterate_succ_apply', ih, incrementSOASerial_names hfirst hsecond (Nat.mod_lt _ (by decide)) hrest,
      Nat.mod_add_mod, Nat.add_assoc]

theorem incrementSOASerial_unreadable {rdata : Bytes}
    (h : ¬∃ i j, skipDomainName rdata 0 = some i ∧ skipDomainName rdata i = some j ∧ j + 20 ≤ rdata.length) :
    incrementSOASerial rdata = rdata := by
  unfold incrementSOASerial
  cases hskip : (skipDomainName rdata 0).bind (skipDomainName rdata) with
  | none => rfl
  | some offset =>
    obtain ⟨i, hi, hj⟩ := Option.bind_eq_some_iff.mp hskip
    by_cases hroom : offset + 20 > rdata.length
    · exact if_pos hroom
    · exact absurd ⟨i, offset, hi, hj, Nat.le_of_not_lt hroom⟩ h

end Increment

/-- Raising the serial edits the serial and nothing else, and leaves alone what is not an SOA. -/
theorem serial_only :
    (∀ (enc : Encoders) (lib : Library) (text : Text) (wire : Bytes), packRData enc typeSOA text = .ok wire →
        (∀ e ∈ embeddedNames typeSOA text, (wireName e.2).length ≤ 255) →
        ∃ a b serial refresh retry expire minimum,
          DecodesSOA lib wire a b [serial, refresh, retry, expire, minimum] ∧
            ∀ k, (incrementSOASerial^[k] wire).length = wire.length ∧
              DecodesSOA lib (incrementSOASerial^[k] wire) a b [(serial + k) % 2 ^ 32, refresh, retry, expire, minimum]) ∧
      ∀ rdata, (¬∃ i j, skipDomainName rdata 0 = some i ∧ skipDomainName rdata i = some j ∧ j + 20 ≤ rdata.length) →
        incrementSOASerial rdata = rdata := by
  refine ⟨?_, fun rdata h => incrementSOASerial_unreadable h⟩
  intro enc lib text wire h hshort
  obtain ⟨w, hw, h⟩ := Fallible.bind_ok h
  cases h
  obtain ⟨names, first, second, j, values, hform⟩ := writeRDataSOA_form hw rfl rfl (by decide)
  obtain ⟨numbers, hfields, hvalues⟩ := hform.fields
  have hnames : embeddedNames typeSOA text = [(0, first), ((wireName first).length, second)] := by
    change soaNames text = _
    rw [soaNames, hfields]
  rw [hnames, forall_mem_cons, forall_mem_singleton] at hshort
  obtain ⟨serial, refresh, retry, expire, minimum, rfl⟩ := five_values hform.count
  have hlt : ∀ v ∈ [serial, refresh, retry, expire, minimum], v < 2 ^ 32 := by
    intro v hv
    have hmem : some v ∈ numbers.map (GoStrings.parseUint · 32) := hvalues ▸ mem_map_of_mem hv
    obtain ⟨s, -, hs⟩ := mem_map.mp hmem
    exact GoStrings.parseUint_lt hs
  have hwire : w.out = names ++ (bigEndian 4 serial ++ [refresh, retry, expire, minimum].flatMap (bigEndian 4)) := hform.wire_eq
  have hserial := hlt serial mem_cons_self
  refine ⟨spelled first, (dotted (readLabels (remembered first) second)).dropLast, serial, refresh, retry, expire, minimum, ?_, ?_⟩
  · rw [hform.wire_eq]
    exact hform.decodes lib hshort.1 hshort.2 rfl hlt
  · intro k
    rw [hwire, incrementSOASerial_iterate hform.first_at hform.second_at hserial (flatMap_bigEndian_length _)]
    constructor
    · simp only [length_append, bigEndian_length]
    · have hlt' : ∀ v ∈ [(serial + k) % 2 ^ 32, refresh, retry, expire, minimum], v < 2 ^ 32 :=
        forall_mem_cons.mpr ⟨Nat.mod_lt _ (by decide), fun v hv => hlt v (mem_cons_of_mem _ hv)⟩
      exact hform.decodes lib hshort.1 hshort.2 rfl hlt'

def lastSerial : Bytes := [1, 97, 0, 1, 98, 0xC0, 0, 255, 255, 255, 255, 0, 0, 0, 1, 0, 0, 0, 2, 0, 0, 0, 3, 0, 0, 0, 4]

theorem serial_only_wraps :
    (∃ a b serial refresh retry expire minimum,
        DecodesSOA .basic lastSerial a b [serial, refresh, retry, expire, minimum] ∧
          ∀ k, (incrementSOASerial^[k] lastSerial).length = lastSerial.length ∧
            DecodesSOA .basic (incrementSOASerial^[k] lastSerial) a b [(serial + k) % 2 ^ 32, refresh, retry, expire, minimum]) ∧
      incrementSOASerial [50, 97, 98] = [50, 97, 98] := by
  constructor
  · exact serial_only.1 (encoders .basic) .basic (GoStrings.ascii "a. b.A. 4294967295 1 2 3 4") lastSerial (by decide +kernel)
      (by decide +kernel)
  · apply serial_only.2
    rintro ⟨i, -, hi, -⟩
    have hnone : skipDomainName [50, 97, 98] 0 = none := by decide
    rw [hnone] at hi
    cases hi

end Kdns.Storage
