import Kdns.Server.Refusal

namespace Kdns.DnsServer

open ByteStream Dns Wire GoStrings Tsig Update

structure Arrival where
  packet : Bytes
  transport : Transport
  moment : Moment

inductive Event (σ : Type) where
  | external (s : σ)
  | arrive (a : Arrival)

section Serve

variable {σ ε : Type} (rt : Runtime) (srv : Server σ ε)

def serve : List (Event σ) → σ → List (Arrival × Outcome σ ε)
  | [], _ => []
  | .external s :: events, _ => serve events s
  | .arrive a :: events, s =>
    let o := resolve rt srv a.moment s a.packet a.transport
    (a, o) :: serve events o.store

def ReadOnly (packet : Bytes) (o : Outcome σ ε) : Prop :=
  o.calls = [] ∧ (wellFormedUpdate rt.unicode packet = true → Refused o)

def Keyless (packet : Bytes) : Prop :=
  wellFormedUpdate rt.unicode packet = true → srv.tsigKeys = none ∧ carriesTSIG rt.unicode packet = false

theorem Read.carriesTSIG_eq {u : Unicode} {packet payload : Bytes} {r : Option Record} {msg : Message} {q : Question}
    (h : Read u packet r payload msg q) : carriesTSIG u packet = false ↔ r = none := by
  unfold carriesTSIG
  rw [h.extracted]
  cases r <;> simp

variable {rt srv}

theorem resolve_readOnly_iff (hw : TakesUpdates srv) (m : Moment) (s : σ) (packet : Bytes) (t : Transport) :
    ReadOnly rt packet (resolve rt srv m s packet t) ↔ Keyless rt srv packet := by
  constructor
  · rintro ⟨-, hrefused⟩ hwf
    obtain ⟨r, payload, msg, q, hread⟩ := wellFormedUpdate_read hwf
    rw [hread.carriesTSIG_eq]
    exact (resolve_refused_iff hw hread s t).mp (hrefused hwf)
  · intro hkeyless
    constructor
    · by_contra hcalls
      obtain ⟨hwf, hkeys⟩ := resolve_calls hcalls
      exact hkeys (hkeyless hwf).1
    · intro hwf
      obtain ⟨r, payload, msg, q, hread⟩ := wellFormedUpdate_read hwf
      apply (resolve_refused_iff hw hread s t).mpr
      rw [← hread.carriesTSIG_eq]
      exact hkeyless hwf

theorem serve_readOnly_iff (hw : TakesUpdates srv) (events : List (Event σ)) (s : σ) :
    (∀ x ∈ serve rt srv events s, ReadOnly rt x.1.packet x.2) ↔
      ∀ a, .arrive a ∈ events → Keyless rt srv a.packet := by
  induction events generalizing s with
  | nil => simp [serve]
  | cons event events ih =>
    cases event with
    | external s' =>
      rw [serve, ih]
      simp
    | arrive a =>
      rw [serve, List.forall_mem_cons, ih, resolve_readOnly_iff hw]
      simp

end Serve

end Kdns.DnsServer
