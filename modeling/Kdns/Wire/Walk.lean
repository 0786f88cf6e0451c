import Kdns.Lib.CompressedName
import Kdns.Wire.PackHeader

namespace Kdns.Wire

open ByteStream Dns CompressedName List

def skipNameFrom : ℕ → Bytes → Option Bytes
  | 0, _ => none
  | _ + 1, [] => none
  | fuel + 1, b :: rest =>
    if b = 0 then some rest
    else if 192 ≤ b.toNat then (if rest = [] then none else some rest.tail)
    else if b.toNat > maxLabelLen ∨ rest.length < b.toNat then none
    else skipNameFrom fuel (rest.drop b.toNat)

def skipName (p : Bytes) : Option Bytes := skipNameFrom p.length p

structure WireRecord where
  type : RRType
  rrClass : UInt16
  ttl : UInt32
  rdata : Bytes
  deriving DecidableEq, Repr

def readRecord (p : Bytes) : Option (WireRecord × Bytes) :=
  (skipName p).bind fun rest =>
    let n := (uint16At rest 8).toNat
    if rest.length < 10 + n then none
    else some (⟨uint16At rest 0, uint16At rest 2, uint32At rest 4, (rest.drop 10).take n⟩, rest.drop (10 + n))

def readRecords : ℕ → Bytes → Option (List WireRecord × Bytes)
  | 0, p => some ([], p)
  | n + 1, p =>
    (readRecord p).bind fun r =>
      (readRecords n r.2).map fun rs => (r.1 :: rs.1, rs.2)

def readQuestions : ℕ → Bytes → Option Bytes
  | 0, p => some p
  | n + 1, p => (skipName p).bind fun rest => if rest.length < 4 then none else readQuestions n (rest.drop 4)

structure Sections where
  answer : List WireRecord
  authority : List WireRecord
  additional : List WireRecord
  deriving DecidableEq, Repr

def readSections (p : Bytes) : Option Sections :=
  let h := decodeHeader p
  (readQuestions h.qdCount.toNat (p.drop headerSize)).bind fun rest =>
    (readRecords h.anCount.toNat rest).bind fun answer =>
      (readRecords h.nsCount.toNat answer.2).bind fun authority =>
        (readRecords h.arCount.toNat authority.2).bind fun additional =>
          if additional.2 = [] then some ⟨answer.1, authority.1, additional.1⟩ else none

def IsNameForm (o : Bytes) : Prop :=
  ∃ front closing, (∀ l ∈ front, IsLabel l) ∧ (closing = [0] ∨ ∃ t < 0x4000, closing = pointerBytes t) ∧
    o = encodeLabels front ++ closing

theorem IsNameForm.length_pos {o : Bytes} (h : IsNameForm o) : 0 < o.length := by
  obtain ⟨front, closing, -, hclosing, rfl⟩ := h
  rcases hclosing with rfl | ⟨t, -, rfl⟩
  · rw [length_append, length_singleton]
    omega
  · rw [length_append, pointerBytes_length]
    omega

theorem skipNameFrom_closing {closing : Bytes} (h : closing = [0] ∨ ∃ t < 0x4000, closing = pointerBytes t)
    (rest : Bytes) {fuel : ℕ} (hfuel : 0 < fuel) : skipNameFrom fuel (closing ++ rest) = some rest := by
  obtain ⟨fuel, rfl⟩ : ∃ k, fuel = k + 1 := ⟨fuel - 1, by omega⟩
  rcases h with rfl | ⟨t, ht, rfl⟩
  · rfl
  · obtain ⟨b, x, heq, hb⟩ := pointerBytes_cons ht
    have hlen := congrArg List.length heq
    rw [pointerBytes_length, length_cons] at hlen
    obtain ⟨c, rfl⟩ := length_eq_one_iff.mp (show x.length = 1 by omega)
    have h0 : b ≠ 0 := fun he => by
      rw [he] at hb
      exact absurd hb (by decide)
    rw [heq, cons_append, skipNameFrom, if_neg h0, if_pos hb]
    rfl

theorem skipNameFrom_form {front : List Bytes} {closing : Bytes} (hfront : ∀ l ∈ front, IsLabel l)
    (hclosing : closing = [0] ∨ ∃ t < 0x4000, closing = pointerBytes t) (rest : Bytes) {fuel : ℕ}
    (hfuel : front.length < fuel) : skipNameFrom fuel (encodeLabels front ++ closing ++ rest) = some rest := by
  induction front generalizing fuel with
  | nil => exact skipNameFrom_closing hclosing rest (by omega)
  | cons l front ih =>
    obtain ⟨fuel, rfl⟩ : ∃ k, fuel = k + 1 := ⟨fuel - 1, by omega⟩
    have hl := hfront l mem_cons_self
    obtain ⟨hhead, hpos⟩ := hl.head
    have hle := hl.length_le
    have hmax : maxLabelLen = 63 := rfl
    have h0 : UInt8.ofNat l.length ≠ 0 := fun he => by
      rw [he] at hhead
      exact absurd hhead.symm (Nat.ne_of_gt hpos)
    rw [encodeLabels_cons, labelBytes, cons_append, cons_append, cons_append, skipNameFrom, if_neg h0, hhead,
      if_neg (by omega), if_neg (by simp only [length_append]; omega)]
    simp only [append_assoc, drop_left]
    rw [← append_assoc]
    rw [length_cons] at hfuel
    exact ih (fun l' hl' => hfront l' (mem_cons_of_mem l hl')) (by omega)

theorem encodeLabels_length_ge (ls : List Bytes) : ls.length ≤ (encodeLabels ls).length := by
  induction ls with
  | nil => exact le_rfl
  | cons l ls ih =>
    rw [encodeLabels_cons, length_append, labelBytes_length, length_cons]
    omega

theorem skipName_append {o : Bytes} (h : IsNameForm o) (rest : Bytes) : skipName (o ++ rest) = some rest := by
  obtain ⟨front, closing, hfront, hclosing, rfl⟩ := h
  have hge := encodeLabels_length_ge front
  have hcl : 0 < closing.length := by
    rcases hclosing with rfl | ⟨t, -, rfl⟩
    · exact Nat.one_pos
    · rw [pointerBytes_length]
      omega
  apply skipNameFrom_form hfront hclosing
  simp only [length_append]
  omega

theorem uint32At_bigEndian (v : UInt32) (more : Bytes) : uint32At (bigEndian 4 v.toNat ++ more) 0 = v := by
  unfold uint32At
  rw [drop_zero, take_append_of_le_length (by simp), take_of_length_le (by simp),
    ofBigEndian_bigEndian _ _ v.toNat_lt]
  exact UInt32.ofNat_toNat

theorem uint32At_prepend (front : Bytes) {bytes : Bytes} {i j : ℕ} (h : i = front.length + j) :
    uint32At (front ++ bytes) i = uint32At bytes j := by
  subst h
  unfold uint32At
  rw [drop_append, drop_eq_nil_of_le (by omega), nil_append, Nat.add_sub_cancel_left]

theorem recordBytes_length (set : RRSet) (rdata : Bytes) : (recordBytes set rdata).length = 10 + rdata.length := by
  simp only [recordBytes, length_append, bigEndian_length]

def wireRecord (set : RRSet) (rdata : Bytes) : WireRecord := ⟨set.type, set.rrClass, set.ttl, rdata⟩

theorem readRecord_append {o : Bytes} (h : IsNameForm o) (set : RRSet) {rdata : Bytes} (hlen : rdata.length < 65536)
    (rest : Bytes) : readRecord (o ++ recordBytes set rdata ++ rest) = some (wireRecord set rdata, rest) := by
  have hbytes : recordBytes set rdata ++ rest = bigEndian 2 set.type.toNat ++ (bigEndian 2 set.rrClass.toNat ++
      (bigEndian 4 set.ttl.toNat ++ (bigEndian 2 (UInt16.ofNat rdata.length).toNat ++ (rdata ++ rest)))) := by
    have hsize : (UInt16.ofNat rdata.length).toNat = rdata.length := by
      rw [UInt16.toNat_ofNat', Nat.mod_eq_of_lt hlen]
    rw [hsize]
    simp only [recordBytes, append_assoc]
  have h2 : ∀ v : ℕ, (bigEndian 2 v).length = 2 := bigEndian_length 2
  have h4 : ∀ v : ℕ, (bigEndian 4 v).length = 4 := bigEndian_length 4
  have htype : uint16At (recordBytes set rdata ++ rest) 0 = set.type := by rw [hbytes, uint16At_bigEndian]
  have hclass : uint16At (recordBytes set rdata ++ rest) 2 = set.rrClass := by
    rw [hbytes, uint16At_prepend _ (show 2 = _ + 0 by rw [h2]), uint16At_bigEndian]
  have httl : uint32At (recordBytes set rdata ++ rest) 4 = set.ttl := by
    rw [hbytes, uint32At_prepend _ (show 4 = _ + 2 by rw [h2]), uint32At_prepend _ (show 2 = _ + 0 by rw [h2]),
      uint32At_bigEndian]
  have hsize : (uint16At (recordBytes set rdata ++ rest) 8).toNat = rdata.length := by
    rw [hbytes, uint16At_prepend _ (show 8 = _ + 6 by rw [h2]), uint16At_prepend _ (show 6 = _ + 4 by rw [h2]),
      uint16At_prepend _ (show 4 = _ + 0 by rw [h4]), uint16At_bigEndian, UInt16.toNat_ofNat', Nat.mod_eq_of_lt hlen]
  have hrdata : ((recordBytes set rdata ++ rest).drop 10).take rdata.length = rdata := by
    have hten : (recordBytes set rdata ++ rest).drop 10 = rdata ++ rest := by
      rw [recordBytes, append_assoc, drop_left' (by simp)]
    rw [hten, take_left]
  have hrest : (recordBytes set rdata ++ rest).drop (10 + rdata.length) = rest := by
    rw [← recordBytes_length set, drop_left]
  rw [readRecord, append_assoc, skipName_append h, Option.bind_some]
  rw [hsize, if_neg (by rw [length_append, recordBytes_length]; omega), htype, hclass, httl, hrdata, hrest]
  rfl

theorem readRecords_append {n : ℕ} {p rest : Bytes} {rs : List WireRecord} (h : readRecords n p = some (rs, rest)) (k : ℕ) :
    readRecords (n + k) p = (readRecords k rest).map fun r => (rs ++ r.1, r.2) := by
  induction n generalizing p rs with
  | zero =>
    cases h
    simp
  | succ n ih =>
    obtain ⟨r, hr, h⟩ := Option.bind_eq_some_iff.mp h
    obtain ⟨rs', hrs', heq⟩ := Option.map_eq_some_iff.mp h
    cases heq
    rw [Nat.succ_add, readRecords, hr, Option.bind_some, ih hrs', Option.map_map]
    rfl

end Kdns.Wire
