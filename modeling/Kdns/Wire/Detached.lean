import Kdns.Wire.Presentation
import Kdns.Wire.Served

namespace Kdns.Wire

open ByteStream Dns CompressedName GoStrings List

def nameOffset (type : RRType) : ℕ := if type = typeMX then 2 else 0

def rdataNames (type : RRType) (p : Bytes) (offset : ℕ) : Except WireError (List Bytes × ℕ) :=
  if type = typeSOA then do
    let (primaryMaster, nextOffset) ← unpackDomainName p offset
    let (responsibleMailbox, nextOffset) ← unpackDomainName p nextOffset
    return ([primaryMaster, responsibleMailbox], nextOffset)
  else do
    let (name, nextOffset) ← unpackDomainName p (offset + nameOffset type)
    return ([name], nextOffset)

def ShowsNames (type : RRType) (names : List Bytes) (text : Text) : Prop :=
  if type = typeSOA then
    ∃ numbers : List ℕ, numbers.length = 5 ∧ text = spaced (names.map (· ++ [dotByte]) ++ numbers.map formatUint)
  else if type = typeMX then ∃ preference, text = spaced (formatUint preference :: names.map (· ++ [dotByte]))
  else text = spaced (names.map (· ++ [dotByte]))

def Jumps (p : Bytes) (i k t : ℕ) : Prop :=
  ∃ front, (∀ l ∈ front, IsLabel l) ∧ encodeLabels front ++ pointerBytes t <+: p.drop i ∧ t < 0x4000 ∧
    k = i + (encodeLabels front).length

def SameAt (p rdata : Bytes) (t : ℕ) : Prop :=
  ∃ ls ls' j j' next next', NameAt p 0 t ls j next ∧ NameAt rdata 0 t ls' j' next' ∧ dotted ls = dotted ls' ∧ j' < maxJumps

def Detaches (p : Bytes) (start : ℕ) (rdata : Bytes) (i : ℕ) : Prop :=
  ∀ k t, Jumps p i k t → start + t < k ∧ SameAt p rdata t

section Names

variable {p rdata name : Bytes} {start o next : ℕ}

theorem isPrefix_drop_of_trans {x y p : Bytes} {i s : ℕ} (hx : x <+: p.drop (s + i)) (hy : y <+: p.drop s)
    (hlen : i + x.length ≤ y.length) : x <+: y.drop i := by
  obtain ⟨post, hpost⟩ := hy
  rw [← drop_drop, ← hpost, drop_append] at hx
  apply prefix_of_prefix_length_le hx (prefix_append _ _)
  rw [length_drop]
  omega

theorem dotted_inj_dropLast {ls ls' : List Bytes} (hls : ∀ l ∈ ls, IsLabel l) (hls' : ∀ l ∈ ls', IsLabel l)
    (h : (dotted ls).dropLast = (dotted ls').dropLast) : dotted ls = dotted ls' := by
  have hempty : ∀ {ls : List Bytes}, (∀ l ∈ ls, IsLabel l) → (dotted ls).dropLast = [] → ls = [] := by
    intro ls hls hnil
    by_contra hne
    have hge := dotted_length_ge hne fun l hl => (hls l hl).nonempty
    have hlen := congrArg List.length hnil
    rw [length_dropLast, length_nil] at hlen
    omega
  by_cases hne : ls = []
  · subst hne
    rw [hempty hls' h.symm]
  · by_cases hne' : ls' = []
    · subst hne'
      exact absurd (hempty hls h) hne
    · rw [dotted_concat hne, dotted_concat hne', h]

section

variable (hrdata : rdata <+: p.drop start)
include hrdata

variable (hread : unpackDomainName p (start + o) = .ok (name, next))
include hread

theorem front_of_unpack
    (hend : next ≤ start + rdata.length) :
    ∃ front back, (∀ l ∈ front, IsLabel l) ∧ (∀ l ∈ back, IsLabel l) ∧ name = (dotted (front ++ back)).dropLast ∧
      (dotted (front ++ back)).length ≤ maxNameLen ∧
      (encodeLabels front ++ [0] <+: rdata.drop o ∧ back = [] ∧ next = start + (o + (encodeLabels front).length + 1) ∨
        ∃ t j next', Jumps p (start + o) (start + o + (encodeLabels front).length) t ∧
          encodeLabels front ++ pointerBytes t <+: rdata.drop o ∧ t < 0x4000 ∧
          next = start + (o + (encodeLabels front).length + 2) ∧ NameAt p 0 t back j next') := by
  obtain ⟨ls, j, hat, -, hlen, rfl⟩ := unpackDomainName_nameAt hread
  obtain ⟨front, back, rfl, hfront, hclosed⟩ := hat.front
  refine ⟨front, back, hfront, fun l hl => hat.labels l (mem_append_right front hl), rfl, hlen, ?_⟩
  rcases hclosed with ⟨hroot, hback, hnext⟩ | ⟨t, j', next', hp, ht, hnext, htarget⟩
  · refine .inl ⟨isPrefix_drop_of_trans hroot hrdata ?_, hback, by omega⟩
    rw [length_append, length_singleton]
    omega
  · refine .inr ⟨t, j', next', ⟨front, hfront, hp, ht, rfl⟩, isPrefix_drop_of_trans hp hrdata ?_, ht, by omega, htarget⟩
    rw [length_append, pointerBytes_length]
    omega

theorem unpack_detached
    (hend : next ≤ start + rdata.length) (h : Detaches p start rdata (start + o)) :
    ∃ next', unpackDomainName rdata o = .ok (name, next') ∧ next = start + next' := by
  obtain ⟨front, back, hfront, hbacks, rfl, hlen, hclosed⟩ := front_of_unpack hrdata hread hend
  rcases hclosed with ⟨hroot, rfl, hnext⟩ | ⟨t, j, next'', hjump, hp, ht, hnext, htarget⟩
  · have hat : NameAt rdata 0 o (front ++ []) 0 (o + (encodeLabels front).length + 1) :=
      .encode (Nat.zero_le _) hfront ((prefix_append _ _).trans hroot) (.root (Nat.zero_le _) (isPrefix_drop_right hroot))
    exact ⟨_, unpackDomainName_of_nameAt hat (Nat.zero_le _) hlen, hnext⟩
  · obtain ⟨hbefore, ls, ls', j₁, j₂, n₁, n₂, hat, hat', hsame, hj⟩ := h _ _ hjump
    obtain ⟨rfl, -, -⟩ := htarget.unique hat
    have hname : NameAt rdata 0 o (front ++ ls') (j₂ + 1) (o + (encodeLabels front).length + 2) :=
      .encode (Nat.zero_le _) hfront ((prefix_append _ _).trans hp)
        (.pointer (Nat.zero_le _) ht (by omega) (isPrefix_drop_right hp) hat')
    have hdotted : dotted (front ++ back) = dotted (front ++ ls') := by rw [dotted_append, dotted_append, hsame]
    refine ⟨_, ?_, hnext⟩
    rw [hdotted] at hlen ⊢
    exact unpackDomainName_of_nameAt hname hj hlen

theorem detaches_of_unpack {next' : ℕ} (hend : next ≤ start + rdata.length)
    (h : unpackDomainName rdata o = .ok (name, next')) : Detaches p start rdata (start + o) := by
  rintro k t ⟨front, hfront, hp, ht, rfl⟩
  obtain ⟨ls, j, hat, -, -, hname⟩ := unpackDomainName_nameAt hread
  obtain ⟨back, rfl, hback⟩ := hat.encode_inv hfront ((prefix_append _ _).trans hp)
  obtain ⟨j₁, n₁, -, hnext, -, htarget⟩ := hback.pointer_inv ht (isPrefix_drop_right hp)
  -- The pointer stands in the RDATA too, since the name ends there.
  have hp' : encodeLabels front ++ pointerBytes t <+: rdata.drop o := by
    apply isPrefix_drop_of_trans hp hrdata
    rw [length_append, pointerBytes_length]
    omega
  obtain ⟨ls', j', hat', hjumps, -, hname'⟩ := unpackDomainName_nameAt h
  obtain ⟨back', rfl, hback'⟩ := hat'.encode_inv hfront ((prefix_append _ _).trans hp')
  obtain ⟨j₂, n₂, rfl, -, hbefore, htarget'⟩ := hback'.pointer_inv ht (isPrefix_drop_right hp')
  have hsame := dotted_inj_dropLast hat.labels hat'.labels (hname.symm.trans hname')
  rw [dotted_append, dotted_append] at hsame
  exact ⟨by omega, _, _, _, _, _, _, htarget, htarget', append_cancel_left hsame, by omega⟩

end

theorem detaches_of_full {i : ℕ} {ls : List Bytes} (h : NameAt p 0 i ls 0 next) : Detaches p start rdata i := by
  rintro k t ⟨front, hfront, hp, ht, rfl⟩
  obtain ⟨back, rfl, hback⟩ := h.encode_inv hfront ((prefix_append _ _).trans hp)
  obtain ⟨j, -, hj, -⟩ := hback.pointer_inv ht (isPrefix_drop_right hp)
  exact absurd hj (Nat.zero_ne_add_one j)

end Names

def KeepsNames (lib : Library) (type : RRType) (p : Bytes) (start : ℕ) (rdata : Bytes) : Prop :=
  ∃ names next next' text, rdataNames type p start = .ok (names, next) ∧ rdataNames type rdata 0 = .ok (names, next') ∧
    unpackRData lib type rdata = .ok text ∧ ShowsNames type names text

def SelfContained (type : RRType) (p : Bytes) (start : ℕ) (rdata : Bytes) : Prop :=
  Detaches p start rdata (start + nameOffset type) ∧
    (type = typeSOA → ∀ a m b n, unpackDomainName p start = .ok (a, m) → unpackDomainName p m = .ok (b, n) →
      Detaches p start rdata m ∧ n + 20 ≤ start + rdata.length)

section Types

variable {lib : Library} {type : RRType} {p rdata : Bytes} {start next : ℕ} {names : List Bytes}

theorem rdataNames_single (htype : type ≠ typeSOA) : rdataNames type p start = .ok (names, next) ↔
      ∃ name, names = [name] ∧ unpackDomainName p (start + nameOffset type) = .ok (name, next) := by
  rw [rdataNames, if_neg htype]
  cases unpackDomainName p (start + nameOffset type) with
  | error e => exact iff_of_false (fun h => by cases h) (fun ⟨_, _, h⟩ => by cases h)
  | ok r =>
    constructor
    · intro h
      cases h
      exact ⟨r.1, rfl, rfl⟩
    · rintro ⟨name, rfl, h⟩
      cases h
      rfl

theorem rdataNames_soa : rdataNames typeSOA p start = .ok (names, next) ↔
      ∃ a m b, names = [a, b] ∧ unpackDomainName p start = .ok (a, m) ∧ unpackDomainName p m = .ok (b, next) := by
  rw [rdataNames, if_pos rfl]
  constructor
  · intro h
    obtain ⟨first, hfirst, h⟩ := Fallible.bind_ok h
    obtain ⟨second, hsecond, h⟩ := Fallible.bind_ok h
    cases h
    exact ⟨first.1, first.2, second.1, rfl, hfirst, hsecond⟩
  · rintro ⟨a, m, b, rfl, hfirst, hsecond⟩
    rw [hfirst, Fallible.ok_bind]
    dsimp only
    rw [hsecond]
    rfl

theorem unpackRData_single (htype : type = typeNS ∨ type = typeCNAME ∨ type = typePTR) {name : Bytes}
    (h : unpackDomainName rdata 0 = .ok (name, next)) : unpackRData lib type rdata = .ok (name ++ [dotByte]) := by
  have hcase : unpackRData lib type rdata = (readWireDomain "domain name" rdata 0).map Prod.fst := by
    rcases htype with rfl | rfl | rfl <;> rfl
  rw [hcase, readWireDomain_ok h]
  rfl

theorem unpackRData_mx {name : Bytes} (h : unpackDomainName rdata 2 = .ok (name, next)) :
    unpackRData lib typeMX rdata = .ok (spaced [uintAt 2 rdata 0, name ++ [dotByte]]) := by
  have hcase : unpackRData lib typeMX rdata = unpackMX rdata := rfl
  obtain ⟨ls, j, hat, -⟩ := unpackDomainName_nameAt h
  have hbounds := hat.bounds
  rw [hcase, unpackMX, if_neg (by omega), readWireDomain_ok h]
  rfl

theorem unpack_detached_iff {o : ℕ} {name : Bytes} (hrdata : rdata <+: p.drop start)
    (hread : unpackDomainName p (start + o) = .ok (name, next)) (hend : next ≤ start + rdata.length) :
    (∃ next', unpackDomainName rdata o = .ok (name, next')) ↔ Detaches p start rdata (start + o) := by
  constructor
  · rintro ⟨next', h⟩
    exact detaches_of_unpack hrdata hread hend h
  · intro h
    obtain ⟨next', h, -⟩ := unpack_detached hrdata hread hend h
    exact ⟨next', h⟩

theorem keepsNames_single (htype : type = typeNS ∨ type = typeCNAME ∨ type = typePTR ∨ type = typeMX)
    (hrdata : rdata <+: p.drop start) (hnames : rdataNames type p start = .ok (names, next))
    (hend : next ≤ start + rdata.length) :
    KeepsNames lib type p start rdata ↔ Detaches p start rdata (start + nameOffset type) := by
  have hsoa : type ≠ typeSOA := by rcases htype with rfl | rfl | rfl | rfl <;> decide
  obtain ⟨name, rfl, hread⟩ := (rdataNames_single hsoa).mp hnames
  rw [← unpack_detached_iff hrdata hread hend]
  constructor
  · rintro ⟨names, n, next', text, hnames', hnames'', -, -⟩
    cases hnames.symm.trans hnames'
    obtain ⟨name', heq, hread'⟩ := (rdataNames_single hsoa).mp hnames''
    cases heq
    rw [Nat.zero_add] at hread'
    exact ⟨next', hread'⟩
  · rintro ⟨next', hread'⟩
    have hdetached : rdataNames type rdata 0 = .ok ([name], next') := by
      apply (rdataNames_single hsoa).mpr
      rw [Nat.zero_add]
      exact ⟨name, rfl, hread'⟩
    by_cases hmx : type = typeMX
    · subst hmx
      exact ⟨_, _, _, _, hnames, hdetached, unpackRData_mx hread', ofBigEndian ((rdata.drop 0).take 2), rfl⟩
    · have hoffset : nameOffset type = 0 := if_neg hmx
      rw [hoffset] at hread'
      refine ⟨_, _, _, _, hnames, hdetached, unpackRData_single ?_ hread', ?_⟩
      · rcases htype with h | h | h | h
        · exact .inl h
        · exact .inr (.inl h)
        · exact .inr (.inr h)
        · exact absurd h hmx
      · rw [ShowsNames, if_neg hsoa, if_neg hmx]
        simp [spaced]

theorem keepsNames_soa (hrdata : rdata <+: p.drop start) (hnames : rdataNames typeSOA p start = .ok (names, next))
    (hend : next ≤ start + rdata.length) :
    KeepsNames lib typeSOA p start rdata ↔ SelfContained typeSOA p start rdata := by
  obtain ⟨a, m, b, rfl, hfirst, hsecond⟩ := rdataNames_soa.mp hnames
  have hm : m ≤ start + rdata.length := by
    obtain ⟨_, _, hat, -⟩ := unpackDomainName_nameAt hsecond
    have := hat.bounds
    omega
  constructor
  · rintro ⟨names, n, next', text, hnames', hnames'', hunpack, -⟩
    cases hnames.symm.trans hnames'
    obtain ⟨a', m', b', heq, hfirst', hsecond'⟩ := rdataNames_soa.mp hnames''
    cases heq
    have hdetaches : Detaches p start rdata start := detaches_of_unpack (o := 0) hrdata hfirst hm hfirst'
    obtain ⟨m'', hfirst'', rfl⟩ := unpack_detached (o := 0) hrdata hfirst hm hdetaches
    cases hfirst'.symm.trans hfirst''
    have hdetaches' := detaches_of_unpack hrdata hsecond hend hsecond'
    obtain ⟨n'', hsecond'', rfl⟩ := unpack_detached hrdata hsecond hend hdetaches'
    cases hsecond'.symm.trans hsecond''
    obtain ⟨_, _, _, _, h₁, h₂, hroom, -⟩ := unpackRData_soa.mp hunpack
    cases hfirst'.symm.trans h₁
    cases hsecond'.symm.trans h₂
    refine ⟨hdetaches, ?_⟩
    intro _ a₂ m₂ b₂ n₂ hfirst₂ hsecond₂
    cases hfirst.symm.trans hfirst₂
    cases hsecond.symm.trans hsecond₂
    exact ⟨hdetaches', by omega⟩
  · rintro ⟨hdetaches, hrest⟩
    obtain ⟨hdetaches', hroom⟩ := hrest rfl a m b next hfirst hsecond
    obtain ⟨m', hfirst', rfl⟩ := unpack_detached (o := 0) hrdata hfirst hm hdetaches
    obtain ⟨n', hsecond', rfl⟩ := unpack_detached hrdata hsecond hend hdetaches'
    refine ⟨_, _, n', _, hnames, rdataNames_soa.mpr ⟨a, m', b, rfl, hfirst', hsecond'⟩,
      unpackRData_soa.mpr ⟨a, m', b, n', hfirst', hsecond', by omega, rfl⟩, ?_⟩
    exact ⟨[n', n' + 4, n' + 8, n' + 12, n' + 16].map fun i => ofBigEndian ((rdata.drop i).take 4), rfl, rfl⟩

theorem keepsNames_iff (htype : type ∈ [typeNS, typeCNAME, typePTR, typeMX, typeSOA]) (hrdata : rdata <+: p.drop start)
    (hnames : rdataNames type p start = .ok (names, next)) (hend : next ≤ start + rdata.length) :
    KeepsNames lib type p start rdata ↔ SelfContained type p start rdata := by
  by_cases hsoa : type = typeSOA
  · subst hsoa
    exact keepsNames_soa hrdata hnames hend
  · have hother : type = typeNS ∨ type = typeCNAME ∨ type = typePTR ∨ type = typeMX := by
      simp only [mem_cons, not_mem_nil, or_false] at htype
      tauto
    rw [keepsNames_single hother hrdata hnames hend]
    exact ⟨fun h => ⟨h, fun heq => absurd heq hsoa⟩, fun h => h.1⟩

end Types

end Kdns.Wire
