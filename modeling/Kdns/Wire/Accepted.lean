import Kdns.Wire.Decoded

namespace Kdns.Wire

open ByteStream Dns Fallible

variable {p : Bytes} {n i j : ℕ} {xs : List (Bytes × RRType)}

theorem walkQuestion_ok {x : Bytes × RRType} (h : walkQuestion p i = .ok (x, j)) :
    ∃ k, unpackDomainName p i = .ok (x.1, k) ∧ k + 4 ≤ p.length ∧ uint16At p k = x.2 ∧ k + 4 = j := by
  obtain ⟨⟨name, k⟩, hname, h⟩ := bind_ok h
  split_ifs at h with hlen
  · cases h
  · cases h
    exact ⟨k, hname, Nat.le_of_not_lt hlen, rfl, rfl⟩

theorem walkRecord_ok {x : Bytes × RRType} (h : walkRecord p i = .ok (x, j)) :
    ∃ k, unpackDomainName p i = .ok (x.1, k) ∧ k + 10 ≤ p.length ∧ uint16At p k = x.2 ∧
      k + 10 + (uint16At p (k + 8)).toNat = j ∧ j ≤ p.length := by
  obtain ⟨⟨name, k⟩, hname, h⟩ := bind_ok h
  obtain ⟨hlen, h⟩ := Fallible.of_ite h nofun
  obtain ⟨hend, h⟩ := Fallible.of_ite h nofun
  cases h
  exact ⟨k, hname, Nat.le_of_not_lt hlen, rfl, rfl, Nat.le_of_not_lt hend⟩

theorem decodeQuestion_walk {x : Bytes × RRType} (h : walkQuestion p i = .ok (x, j)) : decodeQuestion p i =
      if x.2 = typeOPT then .error .misplacedOPT else .ok (⟨x.1, x.2, uint16At p (j - 2)⟩, j) := by
  obtain ⟨k, hname, hlen, htype, rfl⟩ := walkQuestion_ok h
  simp only [decodeQuestion, hname, bind, Except.bind, htype, pure, Except.pure, throw, throwThe, MonadExceptOf.throw]
  rw [if_neg (Nat.not_lt.mpr hlen)]
  split_ifs <;> rfl

theorem decodeQuestions_walk (h : walkQuestions p n i = .ok (xs, j)) :
    (∃ qs k, decodeQuestions p n i = (qs, .ok k)) ↔ ∀ x ∈ xs, x.2 ≠ typeOPT := by
  induction n generalizing i xs with
  | zero =>
    cases h
    exact iff_of_true ⟨[], _, rfl⟩ nofun
  | succ n ih =>
    obtain ⟨x, ys, k, hx, hys, rfl⟩ := several_cons_inv h
    rw [decodeQuestions, decodeQuestion_walk hx, List.forall_mem_cons, ← ih hys]
    by_cases hopt : x.2 = typeOPT
    · rw [if_pos hopt]
      refine iff_of_false ?_ fun hall => hall.1 hopt
      rintro ⟨qs, l, hqs⟩
      cases hqs
    · rw [if_neg hopt]
      constructor
      · rintro ⟨qs, l, hqs⟩
        exact ⟨hopt, _, l, Prod.ext rfl (Prod.mk.inj hqs).2⟩
      · rintro ⟨-, qs, l, hqs⟩
        dsimp only
        rw [hqs]
        exact ⟨_, l, rfl⟩

theorem decodeQuestions_end (h : walkQuestions p n i = .ok (xs, j)) {qs : List Question} {k : ℕ}
    (hqs : decodeQuestions p n i = (qs, .ok k)) : k = j := by
  induction n generalizing i xs qs with
  | zero =>
    cases h
    cases hqs
    rfl
  | succ n ih =>
    obtain ⟨x, ys, l, hx, hys, rfl⟩ := several_cons_inv h
    rw [decodeQuestions, decodeQuestion_walk hx] at hqs
    split_ifs at hqs
    · cases hqs
    · exact ih hys (Prod.ext rfl (Prod.mk.inj hqs).2)

theorem skipRecords_walk (h : walkRecords p n i = .ok (xs, j)) : skipRecords p n i = .ok j := by
  induction n generalizing i xs with
  | zero =>
    cases h
    rfl
  | succ n ih =>
    obtain ⟨x, ys, k, hx, hys, rfl⟩ := several_cons_inv h
    obtain ⟨l, hname, hlen, -, rfl, hend⟩ := walkRecord_ok hx
    have hskip : skipRecord p i = .ok (l + 10 + (uint16At p (l + 8)).toNat) := by
      simp only [skipRecord, hname, bind, Except.bind, pure, Except.pure]
      rw [if_neg (Nat.not_lt.mpr hlen), if_neg (Nat.not_lt.mpr hend)]
    simp only [skipRecords, hskip, bind, Except.bind]
    exact ih hys

theorem decodeEDNS0_walk (h : walkRecords p n i = .ok (xs, j)) {found : Option EDNS0}
    (hone : (xs.filter fun x => x.2 = typeOPT).length + (if found.isSome then 1 else 0) ≤ 1) :
    ∃ e, decodeEDNS0 p found n i = .ok e := by
  induction n generalizing i xs found with
  | zero => exact ⟨_, rfl⟩
  | succ n ih =>
    obtain ⟨x, ys, k, hx, hys, rfl⟩ := several_cons_inv h
    obtain ⟨l, hname, hlen, htype, rfl, hend⟩ := walkRecord_ok hx
    simp only [decodeEDNS0, hname, bind, Except.bind, htype]
    rw [if_neg (Nat.not_lt.mpr hlen)]
    by_cases hopt : x.2 = typeOPT
    · rw [List.filter_cons_of_pos (by simpa using hopt), List.length_cons] at hone
      have hnone : found.isSome = false := by
        cases hsome : found.isSome with
        | false => rfl
        | true =>
          rw [hsome, if_pos rfl] at hone
          omega
      rw [if_neg (by rw [hnone]; simp), if_neg (Nat.not_lt.mpr hend), if_pos hopt]
      apply ih hys
      rw [Option.isSome_some, if_pos rfl]
      omega
    · rw [List.filter_cons_of_neg (by simpa using hopt)] at hone
      rw [if_neg (fun hboth => hopt hboth.1), if_neg (Nat.not_lt.mpr hend), if_neg hopt]
      exact ih hys hone

theorem unpack_walk {as ns cs : List (Bytes × RRType)} {k l o : ℕ} (hlen : headerSize ≤ p.length)
    (hfew : (decodeHeader p).qdCount.toNat ≤ maxQuestions)
    (hquestions : walkQuestions p (decodeHeader p).qdCount.toNat headerSize = .ok (xs, i)) (hxs : ∀ x ∈ xs, x.2 ≠ typeOPT)
    (hanswer : walkRecords p (decodeHeader p).anCount.toNat i = .ok (as, k))
    (hauthority : walkRecords p (decodeHeader p).nsCount.toNat k = .ok (ns, l))
    (hadditional : walkRecords p (decodeHeader p).arCount.toNat l = .ok (cs, o))
    (hone : (cs.filter fun x => x.2 = typeOPT).length ≤ 1) : (unpack p).2 = none := by
  obtain ⟨qs, i', hqs⟩ := (decodeQuestions_walk hquestions).mpr hxs
  obtain rfl := decodeQuestions_end hquestions hqs
  have hskip := skipRecords_walk (several_append hanswer hauthority)
  obtain ⟨e, he⟩ := decodeEDNS0_walk hadditional (show _ + (if (none : Option EDNS0).isSome then 1 else 0) ≤ 1 from hone)
  unfold unpack
  rw [if_neg (Nat.not_lt.mpr hlen)]
  rw [if_neg (Nat.not_lt.mpr hfew), hqs]
  dsimp only
  rw [hskip]
  dsimp only
  rw [he]

theorem unpack_types (h : (unpack p).2 = none)
    (hquestions : walkQuestions p (decodeHeader p).qdCount.toNat headerSize = .ok (xs, i)) : ∀ x ∈ xs, x.2 ≠ typeOPT := by
  apply (decodeQuestions_walk hquestions).mp
  obtain ⟨-, hheader, k, hqs⟩ := unpack_ok (Prod.ext rfl h : unpack p = ((unpack p).1, none))
  rw [hheader] at hqs
  exact ⟨_, k, hqs⟩

end Kdns.Wire
