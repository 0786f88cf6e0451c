import Kdns.Server.Sizes

namespace Kdns.DnsServer

open ByteStream Dns Wire Tsig List

def framed (packets : List Bytes) : Bytes := packets.flatMap fun p => bigEndian 2 p.length ++ p

def Exhausted (input : Bytes) : Prop :=
  input.length < 2 ∨ ofBigEndian (input.take 2) = 0 ∨ input.length < 2 + ofBigEndian (input.take 2)

instance (input : Bytes) : Decidable (Exhausted input) := inferInstanceAs (Decidable (_ ∨ _ ∨ _))

section Framing

theorem framed_cons (p : Bytes) (ps : List Bytes) : framed (p :: ps) = bigEndian 2 p.length ++ (p ++ framed ps) := by
  rw [framed, flatMap_cons, append_assoc]
  rfl

theorem exists_framed (input : Bytes) : ∃ ps rest, input = framed ps ++ rest ∧
    (∀ p ∈ ps, p ≠ [] ∧ p.length ≤ 65535) ∧ Exhausted rest := by
  induction hn : input.length using Nat.strong_induction_on generalizing input with
  | _ n ih =>
    by_cases hend : Exhausted input
    · exact ⟨[], input, rfl, forall_mem_nil _, hend⟩
    · rw [Exhausted, not_or, not_or] at hend
      have htwo : (input.take 2).length = 2 := by
        rw [length_take]
        omega
      have hbytes := bigEndian_ofBigEndian (input.take 2)
      have hlt := ofBigEndian_lt (input.take 2)
      rw [htwo] at hbytes hlt
      set k := ofBigEndian (input.take 2) with hk
      obtain ⟨ps, rest, hrest, hps, hend'⟩ := ih (input.drop (2 + k)).length (by rw [length_drop]; omega) _ rfl
      have hlength : ((input.drop 2).take k).length = k := by
        rw [length_take, length_drop]
        omega
      refine ⟨(input.drop 2).take k :: ps, rest, ?_, forall_mem_cons.mpr ⟨⟨?_, by omega⟩, hps⟩, hend'⟩
      · rw [framed_cons, hlength, hbytes, append_assoc, append_assoc, ← hrest, ← drop_drop, take_append_drop,
          take_append_drop]
      · exact ne_nil_of_length_pos (by omega)

end Framing

section Connection

variable {σ ε : Type} (rt : Runtime) (srv : Server σ ε)

/-- `handleTCPConn` on what the client sends, with a moment for each turn; without one left the context is done. -/
def handleTCPConn : List Moment → σ → Bytes → σ × Bytes
  | [], s, _ => (s, [])
  | m :: ms, s, input =>
    if Exhausted input then (s, [])
    else
      let length := ofBigEndian (input.take 2)
      let o := resolve rt srv m s ((input.drop 2).take length) .tcp
      match o.answer with
      | .error _ => handleTCPConn ms o.store (input.drop (2 + length))
      | .ok bytes =>
        if 65535 < bytes.length then (o.store, [])
        else
          let r := handleTCPConn ms o.store (input.drop (2 + length))
          (r.1, bigEndian 2 bytes.length ++ bytes ++ r.2)

/-- The requests one after the other, each against the store that the one before it left. -/
def converse : List Moment → σ → List Bytes → σ × List Bytes
  | m :: ms, s, p :: ps =>
    let o := resolve rt srv m s p .tcp
    let r := converse ms o.store ps
    (r.1, o.answer.toOption.toList ++ r.2)
  | _, s, _ => (s, [])

variable {rt srv} {m : Moment} {s : σ}

theorem answer_length_tcp {packet bytes : Bytes} (h : (resolve rt srv m s packet .tcp).answer = .ok bytes) :
    bytes.length ≤ 65535 := by
  rcases answer_cases h with hshort | ⟨auth, msg, packed, hp, rfl⟩
  · exact hshort.trans (by decide)
  · have hlimit : maxPayloadSize Transport.tcp.size msg.edns0Size = 65535 := if_neg (by simp [Transport.size, maxTCPSize, maxUDPSize])
    refine (signAnswer_length hp.header (hp.length_le.trans hlimit.le)).mpr fun r key rr _ _ _ hle => hle

theorem handleTCPConn_framed (ms : List Moment) (s : σ) {ps : List Bytes} (hps : ∀ p ∈ ps, p ≠ [] ∧ p.length ≤ 65535)
    {rest : Bytes} (hrest : Exhausted rest) : handleTCPConn rt srv ms s (framed ps ++ rest) =
      ((converse rt srv ms s ps).1, framed (converse rt srv ms s ps).2) := by
  induction ms generalizing s ps with
  | nil => rfl
  | cons m ms ih =>
    cases ps with
    | nil =>
      rw [handleTCPConn, if_pos (show Exhausted (framed [] ++ rest) from hrest)]
      rfl
    | cons p ps =>
      obtain ⟨⟨hne, hle⟩, hps⟩ := forall_mem_cons.mp hps
      have hpos := length_pos_of_ne_nil hne
      have htake : (framed (p :: ps) ++ rest).take 2 = bigEndian 2 p.length := by
        rw [framed_cons, append_assoc, take_left' (bigEndian_length 2 _)]
      have hdrop : (framed (p :: ps) ++ rest).drop 2 = p ++ (framed ps ++ rest) := by
        rw [framed_cons, append_assoc, drop_left' (bigEndian_length 2 _), append_assoc]
      have hlength : ofBigEndian ((framed (p :: ps) ++ rest).take 2) = p.length := by
        rw [htake, ofBigEndian_bigEndian 2 _ (by omega)]
      have hnext : ¬Exhausted (framed (p :: ps) ++ rest) := by
        rw [Exhausted, hlength, framed_cons]
        simp only [length_append, bigEndian_length]
        omega
      rw [handleTCPConn, if_neg hnext, converse]
      dsimp only
      rw [hlength, ← drop_drop, hdrop, take_left, drop_left, ih _ hps]
      cases ho : (resolve rt srv m s p .tcp).answer with
      | error e => rfl
      | ok bytes =>
        dsimp only
        rw [if_neg (Nat.not_lt.mpr (answer_length_tcp ho)), append_assoc]
        exact Prod.ext rfl (framed_cons bytes _).symm

/-- Whatever a client sends is whole requests and a rest without one. The server answers these requests in their order,
each against the store that the one before left. -/
theorem handleTCPConn_in_order (ms : List Moment) (s : σ) (input : Bytes) : ∃ ps rest, input = framed ps ++ rest ∧
    (∀ p ∈ ps, p ≠ [] ∧ p.length ≤ 65535) ∧ Exhausted rest ∧
    handleTCPConn rt srv ms s input = ((converse rt srv ms s ps).1, framed (converse rt srv ms s ps).2) := by
  obtain ⟨ps, rest, rfl, hps, hrest⟩ := exists_framed input
  exact ⟨ps, rest, rfl, hps, hrest, handleTCPConn_framed ms s hps hrest⟩

end Connection

end Kdns.DnsServer
