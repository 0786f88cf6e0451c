import Kdns.Wal

namespace Kdns.Wal

open ByteStream FramedLog BufferedFile Dns Codec List

def payload : Op → Bytes
  | .upsert domain records => upsertPayload domain records
  | .delete domain => deletePayload domain

def encodeOp (op : Op) : Bytes := payload op ++ checksum (payload op)

def Replayable : Op → Prop
  | .upsert domain records => Fits domain records ∧ ClassIN records
  | .delete domain => domain ≠ [] ∧ domain.length ≤ maxDomainLen

theorem verifyChecksum_ok (ctx : Context) (rest : Bytes) (tail : ReadError) (h : Bytes) :
    verifyChecksum ctx ⟨checksum h ++ rest, tail, h⟩ = .ok ((), ⟨rest, tail, h⟩) := by
  have hr : wrapError (normalizeEOF ctx) (readFull 4) ⟨checksum h ++ rest, tail, h⟩ =
      .ok (checksum h, ⟨rest, tail, h⟩) := by
    simp [wrapError, readFull, checksum]
  have hs : ofBigEndian (checksum h) = (crc32 h).toNat := ofBigEndian_bigEndian _ _ (crc32 h).toNat_lt
  rw [verifyChecksum, bind_ok _ _ _ _ _ hr, bind_ok sum32 _ _ _ _ rfl, failIf, if_neg (by simp [hs])]
  rfl

theorem verifyChecksum_torn (ctx : Context) (q : Bytes) (tail : ReadError) (h : Bytes) (hq : q.length < 4) :
    ∃ e, verifyChecksum ctx ⟨q, tail, h⟩ = .error e ∧ Cut tail e := by
  have hr : wrapError (normalizeEOF ctx) (readFull 4) ⟨q, tail, h⟩ =
      .error (normalizeEOF ctx (shortError ⟨q, tail, h⟩)) := by
    simp [wrapError, readFull, Nat.not_le.mpr hq]
  exact ⟨_, bind_error _ _ _ _ hr, cut_normalizeEOF ctx tail _ (shortError_isEnd ⟨q, tail, h⟩)⟩

theorem isFrame_of_reads {α : Type} {b : UInt8} {p : Parser WalError α} {ctx : Context} {g : α → Op}
    (hb : replayBody b = p >>= fun x => verifyChecksum ctx >>= fun _ => pure (g x))
    {bs : Bytes} {x : α} (hp : Reads Cut p bs bs x) : IsFrame frames (b :: bs ++ checksum (b :: bs)) (g x) := by
  have hnext : ∀ d t h, frames.next ⟨b :: d, t, h⟩ =
      some ((p >>= fun x => verifyChecksum ctx >>= fun _ => pure (g x)) ⟨d, t, [b]⟩) := by
    intro d t h
    rw [← hb]
    exact nextFrame_cons b d t h
  have hpay : ∀ rest t, p ⟨bs ++ rest, t, [b]⟩ = .ok (x, ⟨rest, t, b :: bs⟩) := fun rest t => hp.1 rest t [b]
  refine ⟨by simp, fun rest tail h => ⟨b :: bs, ?_⟩, fun q tail h hq hne h0 => ?_⟩
  · rw [append_assoc, cons_append, hnext, bind_ok _ _ _ _ _ (hpay _ _),
      bind_ok _ _ _ _ _ (verifyChecksum_ok ctx rest tail (b :: bs))]
    rfl
  · obtain ⟨c, q, rfl⟩ := exists_cons_of_ne_nil h0
    rw [cons_append] at hq hne
    obtain ⟨rfl, hq⟩ := cons_prefix_cons.mp hq
    rw [hnext]
    rcases proper_prefix_append hq (fun h => hne (by rw [h])) with ⟨hq', hne'⟩ | ⟨q', rfl, hq', hne'⟩
    · obtain ⟨e, he, hc⟩ := hp.2 q tail [c] hq' hne'
      exact ⟨e, by rw [bind_error _ _ _ _ he], hc⟩
    · rw [bind_ok _ _ _ _ _ (hpay _ _)]
      have hl : q'.length < 4 := by
        have := lt_of_le_of_ne hq'.length_le fun h => hne' (hq'.eq_of_length h)
        simpa [checksum] using this
      obtain ⟨e, he, hc⟩ := verifyChecksum_torn ctx q' tail (c :: bs) hl
      exact ⟨e, by rw [bind_error _ _ _ _ he], hc⟩

theorem reads_readDeleteName (domain : Bytes) (h0 : domain ≠ []) (hl : domain.length ≤ maxDomainLen) :
    Reads Cut readDeleteName (bigEndian 2 domain.length ++ domain) (bigEndian 2 domain.length ++ domain) domain := by
  have hpos := length_pos_of_ne_nil h0
  have hn : domain.length < 256 ^ 2 := by unfold maxDomainLen at hl; omega
  have hlen : Reads Cut (wrapError (normalizeEOF .deleteLength) (readFull 2)) (bigEndian 2 domain.length) []
      (bigEndian 2 domain.length) := by
    have h := reads_readFull (bigEndian 2 domain.length)
    exact reads_wrapError h (cut_normalizeEOF _)
  have hname : Reads Cut (wrapError (normalizeEOF .deleteName) (readFull domain.length)) domain [] domain :=
    reads_wrapError (reads_readFull domain) (cut_normalizeEOF _)
  have hv := ofBigEndian_bigEndian 2 domain.length hn
  have h : Reads Cut readDeleteName (bigEndian 2 domain.length ++ (domain ++ []))
      ([] ++ (bigEndian 2 domain.length ++ ([] ++ (domain ++ [])))) domain := by
    refine reads_bind hlen (reads_failIf ?_ (reads_feed ?_))
    · rw [hv]; omega
    · rw [hv]
      exact reads_bind hname (reads_feed (reads_pure domain))
  simpa only [append_nil, nil_append] using h

theorem isFrame_encodeOp (op : Op) (h : Replayable op) : IsFrame frames (encodeOp op) op := by
  cases op with
  | upsert domain records =>
    have hp : Reads Cut (wrapError (normalizeCodec .upsertPayload) readRecord) (encodeRecord domain records)
        (encodeRecord domain records) (domain, records) :=
      reads_wrapError (reads_readRecord domain records h.1 h.2) (cut_normalizeCodec _)
    exact isFrame_of_reads (b := opUpsert) (g := fun r => Op.upsert r.1 r.2) rfl hp
  | delete domain =>
    exact isFrame_of_reads (b := opDelete) (g := Op.delete) rfl (reads_readDeleteName domain h.1 h.2)

theorem encodeOp_ne_nil (op : Op) : encodeOp op ≠ [] := by
  cases op <;> simp [encodeOp, payload, upsertPayload, deletePayload]

def encodeLog (ops : List Op) : Bytes := ops.flatMap encodeOp

theorem encodeLog_append (ops ops' : List Op) : encodeLog (ops ++ ops') = encodeLog ops ++ encodeLog ops' :=
  flatMap_append

theorem replay_encodeLog_append (ops : List Op) (h : ∀ op ∈ ops, Replayable op) (rest : Bytes) (tail : ReadError) :
    replay (encodeLog ops ++ rest) tail = (ops ++ (replay rest tail).1, (replay rest tail).2) :=
  readAll_frames encodeOp ops (fun op hop => isFrame_encodeOp op (h op hop)) rest tail []

theorem replay_encodeLog (ops : List Op) (h : ∀ op ∈ ops, Replayable op) : replay (encodeLog ops) .eof = (ops, none) :=
  readAll_whole encodeOp ops (fun op hop => isFrame_encodeOp op (h op hop)) []

def Torn (q : Bytes) : Prop := ∃ op, Replayable op ∧ q <+: encodeOp op ∧ q ≠ encodeOp op

theorem torn_nil : Torn [] := ⟨.delete [0x61], ⟨by decide, by decide⟩, nil_prefix, (encodeOp_ne_nil _).symm⟩

theorem replay_torn (q : Bytes) (hq : Torn q) (h0 : q ≠ []) (tail : ReadError) :
    ∃ e, replay q tail = ([], some e) ∧ Cut tail e := by
  obtain ⟨op, hop, hp, hne⟩ := hq
  exact readAll_torn (isFrame_encodeOp op hop) hp hne h0 tail []

theorem replay_encodeLog_torn (ops : List Op) (h : ∀ op ∈ ops, Replayable op) (q : Bytes) (hq : Torn q) :
    replay (encodeLog ops ++ q) .eof = (ops, if q = [] then none else some .truncated) := by
  rw [replay_encodeLog_append ops h]
  split_ifs with h0
  · subst h0
    rw [show replay [] .eof = ([], none) from rfl, append_nil]
  · obtain ⟨e, he, hc⟩ := replay_torn q hq h0 .eof
    cases hc
    simp [he]

def Storable : Op → Prop
  | .upsert domain records => domain.length ≤ maxDomainLen ∧ ClassIN records
  | .delete _ => True

theorem storable_of_replayable {op : Op} (h : Replayable op) : Storable op := by
  cases op with
  | upsert domain records => exact ⟨h.1.domain_le, h.2⟩
  | delete domain => trivial

theorem yields_replayBody (op : UInt8) : Yields (replayBody op) Storable := by
  unfold replayBody
  split_ifs
  · exact yields_bind (yields_wrapError _ yields_readRecord) fun _ h =>
      yields_bind (yields_true _) fun _ _ => yields_pure ⟨h.1.domain_le, h.2⟩
  · exact yields_bind (yields_true _) fun _ _ => yields_bind (yields_true _) fun _ _ => yields_pure trivial
  · intro s a s' h
    cases h

theorem replay_storable (d : Bytes) (tail : ReadError) : ∀ op ∈ (replay d tail).1, Storable op := by
  refine readAll_forall frames (fun s a s' h => ?_) _
  change nextFrame s = _ at h
  unfold nextFrame at h
  split at h
  · cases h
  · cases h
  · exact yields_bind (yields_true _) (fun _ _ => yields_replayBody _) _ _ _ (Option.some.inj h)

end Kdns.Wal
