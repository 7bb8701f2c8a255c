import GossipMesh.Engine.Batch

/-!
# Reading back what the batch encoder wrote

The decoder works with offsets into the data, so every lemma is about an
encoding that stands after some bytes `front` and before some bytes `rest`.
Lengths are taken modulo their field width, as the encoder writes them.
-/

namespace GossipMesh.Engine

open GossipMesh.Foundation

theorem slice_append (front middle rest : Bytes) :
    slice (front ++ (middle ++ rest)) front.length middle.length = .ok middle := by
  simp [slice]

theorem encodeEntry_length (e : GossipEntry) :
    (encodeEntry e).length = 14 + e.payload.length := by
  simp [encodeEntry]
  omega

theorem encodeMark_length (m : TopicSeq) : (encodeMark m).length = 10 := by
  simp [encodeMark]

theorem uint16_putUint16 (v : UInt16) : uint16 (putUint16 v) = v := by
  simpa using uint16_append v []

theorem uint32_putUint32 (v : UInt32) : uint32 (putUint32 v) = v := by
  simpa using uint32_append v []

theorem uint64_putUint64 (v : UInt64) : uint64 (putUint64 v) = v := by
  simpa using uint64_append v []

private theorem slice_header (front : Bytes) (topic : UInt16) (seq : UInt64)
    (len : UInt32) (rest : Bytes) :
    let data := front ++ (putUint16 topic ++ putUint64 seq ++ putUint32 len ++ rest)
    slice data front.length 2 = .ok (putUint16 topic) ∧
    slice data (front.length + 2) 8 = .ok (putUint64 seq) ∧
    slice data (front.length + 10) 4 = .ok (putUint32 len) := by
  intro data
  refine ⟨?_, ?_, ?_⟩
  · have h := slice_append front (putUint16 topic)
      (putUint64 seq ++ putUint32 len ++ rest)
    simpa [data] using h
  · have h := slice_append (front ++ putUint16 topic) (putUint64 seq)
      (putUint32 len ++ rest)
    simpa [data] using h
  · have h := slice_append (front ++ putUint16 topic ++ putUint64 seq)
      (putUint32 len) rest
    simpa [data, Nat.add_assoc] using h

/--
One turn of the entry loop on an encoded entry.  A payload of `2 ^ 32` bytes
or more comes back cut to its length modulo `2 ^ 32`.
-/
theorem decodeEntryAt_encodeEntry (front : Bytes) (e : GossipEntry)
    (rest : Bytes) (i : Nat) :
    decodeEntryAt (front ++ (encodeEntry e ++ rest)) i front.length =
      .ok ({ e with payload := e.payload.take (e.payload.length % 2 ^ 32) },
        front.length + 14 + e.payload.length % 2 ^ 32) := by
  obtain ⟨htopic, hseq, hlen⟩ := slice_header front e.topic e.seq
    (UInt32.ofNat e.payload.length) (e.payload ++ rest)
  have hcut : e.payload.length % 2 ^ 32 ≤ e.payload.length := Nat.mod_le _ _
  have hpayload : slice (front ++ (encodeEntry e ++ rest)) (front.length + 14)
      (e.payload.length % 2 ^ 32) =
      .ok (e.payload.take (e.payload.length % 2 ^ 32)) := by
    have h := slice_append
      (front ++ (putUint16 e.topic ++ putUint64 e.seq ++
        putUint32 (UInt32.ofNat e.payload.length)))
      (e.payload.take (e.payload.length % 2 ^ 32))
      (e.payload.drop (e.payload.length % 2 ^ 32) ++ rest)
    rw [List.length_take_of_le hcut, ← List.append_assoc (List.take _ _),
      List.take_append_drop] at h
    simpa [encodeEntry, Nat.add_assoc] using h
  have htotal : (front ++ (encodeEntry e ++ rest)).length =
      front.length + 14 + e.payload.length + rest.length := by
    simp [encodeEntry_length]
    omega
  unfold decodeEntryAt
  rw [if_neg (by omega)]
  have hassoc : encodeEntry e ++ rest =
      putUint16 e.topic ++ putUint64 e.seq ++
        putUint32 (UInt32.ofNat e.payload.length) ++ (e.payload ++ rest) := by
    simp [encodeEntry]
  rw [← hassoc] at htopic hseq hlen
  rw [htopic, hseq, hlen]
  simp only [bind, Except.bind, uint16_putUint16, uint64_putUint64,
    uint32_putUint32, UInt32.toNat_ofNat']
  rw [if_neg (by omega), hpayload]

theorem decodeEntries_encode (count : Nat) (es : List GossipEntry)
    (hcount : count ≤ es.length)
    (hsmall : ∀ e ∈ es, e.payload.length < 2 ^ 32)
    (front rest : Bytes) (i : Nat) :
    decodeEntries (front ++ (es.flatMap encodeEntry ++ rest)) count i
        front.length =
      .ok (es.take count,
        front.length + ((es.take count).flatMap encodeEntry).length) := by
  induction count generalizing es front i with
  | zero => simp [decodeEntries]
  | succ count ih =>
      cases es with
      | nil => simp at hcount
      | cons e es =>
          have hlen := hsmall e (by simp)
          have hturn := decodeEntryAt_encodeEntry front e
            (es.flatMap encodeEntry ++ rest) i
          rw [Nat.mod_eq_of_lt hlen, List.take_length] at hturn
          have htail := ih es (by simpa using hcount)
            (fun e' he' => hsmall e' (by simp [he'])) (front ++ encodeEntry e)
            (i + 1)
          rw [List.length_append, encodeEntry_length] at htail
          simp only [List.flatMap_cons, List.append_assoc] at hturn htail ⊢
          simp only [decodeEntries, bind, Except.bind, hturn]
          rw [Nat.add_assoc front.length 14, htail]
          simp only [List.take_succ_cons, List.flatMap_cons, List.length_append,
            encodeEntry_length, Nat.add_assoc]

theorem decodeMarks_encode (marks : List TopicSeq) (front rest : Bytes)
    (i : Nat) :
    decodeMarks (front ++ (marks.flatMap encodeMark ++ rest)) marks.length i
        front.length =
      .ok (marks, front.length + 10 * marks.length) := by
  induction marks generalizing front i with
  | nil => simp [decodeMarks]
  | cons m marks ih =>
      have htopic := slice_append front (putUint16 m.topic)
        (putUint64 m.seq ++ (marks.flatMap encodeMark ++ rest))
      have hseq := slice_append (front ++ putUint16 m.topic) (putUint64 m.seq)
        (marks.flatMap encodeMark ++ rest)
      have htail := ih (front ++ encodeMark m) (i + 1)
      rw [List.length_append, encodeMark_length] at htail
      have hturn : decodeMarkAt
          (front ++ ((m :: marks).flatMap encodeMark ++ rest)) i front.length =
          .ok (m, front.length + 10) := by
        unfold decodeMarkAt
        rw [if_neg (by simp [encodeMark_length])]
        simp only [List.append_assoc, putUint16_length, putUint64_length,
          List.length_append] at htopic hseq
        simp only [List.flatMap_cons, encodeMark, List.append_assoc, htopic,
          hseq, bind, Except.bind, uint16_putUint16, uint64_putUint64]
      simp only [List.append_assoc] at htail
      simp only [List.length_cons, decodeMarks, bind, Except.bind, hturn]
      simp only [List.flatMap_cons, List.append_assoc, htail]
      congr 2
      omega

/-- The part of the parser behind the entries, where it can still fail. -/
private theorem parseBatch_serialize_step (batch : LazyBatch) (trailing : Bytes)
    (hsmall : ∀ e ∈ batch.entries, e.payload.length < 2 ^ 32) :
    let count := batch.entries.length % 2 ^ 16
    let data := serializeBatch batch ++ trailing
    let off := 2 + ((batch.entries.take count).flatMap encodeEntry).length
    parseBatch data =
      if data.length < off + 2 then .error .truncatedHWMHeader
      else (do
        let hwmCount ← slice data off 2
        let (marks, _) ← decodeMarks data (uint16 hwmCount).toNat 0 (off + 2)
        .ok ⟨batch.entries.take count, marks⟩) := by
  intro count data off
  have hcount := slice_append [] (putUint16 (UInt16.ofNat batch.entries.length))
    (batch.entries.flatMap encodeEntry ++
      (putUint16 (UInt16.ofNat batch.senderHighWaterMarks.length) ++
        (batch.senderHighWaterMarks.flatMap encodeMark ++ trailing)))
  have hentries := decodeEntries_encode count batch.entries (Nat.mod_le _ _)
    hsmall (putUint16 (UInt16.ofNat batch.entries.length))
    (putUint16 (UInt16.ofNat batch.senderHighWaterMarks.length) ++
      (batch.senderHighWaterMarks.flatMap encodeMark ++ trailing)) 0
  have hdata : data = putUint16 (UInt16.ofNat batch.entries.length) ++
      (batch.entries.flatMap encodeEntry ++
        (putUint16 (UInt16.ofNat batch.senderHighWaterMarks.length) ++
          (batch.senderHighWaterMarks.flatMap encodeMark ++ trailing))) := by
    simp [data, serializeBatch]
  rw [← hdata] at hentries
  simp only [List.nil_append, ← hdata, putUint16_length, List.length_nil]
    at hcount hentries
  unfold parseBatch
  rw [if_neg (by rw [hdata, List.length_append, putUint16_length]; omega)]
  simp only [bind, Except.bind, hcount, uint16_putUint16, UInt16.toNat_ofNat']
  rw [show batch.entries.length % 2 ^ 16 = count from rfl, hentries]

theorem parseBatch_serialize_entries {batch parsed : LazyBatch}
    (hsmall : ∀ e ∈ batch.entries, e.payload.length < 2 ^ 32)
    (h : parseBatch (serializeBatch batch) = .ok parsed) :
    parsed.entries = batch.entries.take (batch.entries.length % 2 ^ 16) := by
  have hstep := parseBatch_serialize_step batch [] hsmall
  simp only [List.append_nil] at hstep
  rw [hstep] at h
  split at h
  · cases h
  · simp only [bind, Except.bind] at h
    split at h
    · cases h
    · split at h
      · cases h
      · cases h
        rfl

theorem parseBatch_serialize (batch : LazyBatch) (trailing : Bytes)
    (hentries : batch.entries.length < 2 ^ 16)
    (hmarks : batch.senderHighWaterMarks.length < 2 ^ 16)
    (hsmall : ∀ e ∈ batch.entries, e.payload.length < 2 ^ 32) :
    parseBatch (serializeBatch batch ++ trailing) = .ok batch := by
  have hstep := parseBatch_serialize_step batch trailing hsmall
  simp only [Nat.mod_eq_of_lt hentries, List.take_length] at hstep
  have hdata : serializeBatch batch ++ trailing =
      (putUint16 (UInt16.ofNat batch.entries.length) ++
        batch.entries.flatMap encodeEntry) ++
      (putUint16 (UInt16.ofNat batch.senderHighWaterMarks.length) ++
        (batch.senderHighWaterMarks.flatMap encodeMark ++ trailing)) := by
    simp [serializeBatch]
  have hoff : 2 + (batch.entries.flatMap encodeEntry).length =
      (putUint16 (UInt16.ofNat batch.entries.length) ++
        batch.entries.flatMap encodeEntry).length := by
    simp
  have hhwm := slice_append (putUint16 (UInt16.ofNat batch.entries.length) ++
      batch.entries.flatMap encodeEntry)
    (putUint16 (UInt16.ofNat batch.senderHighWaterMarks.length))
    (batch.senderHighWaterMarks.flatMap encodeMark ++ trailing)
  have hmarkList := decodeMarks_encode batch.senderHighWaterMarks
    (putUint16 (UInt16.ofNat batch.entries.length) ++
      batch.entries.flatMap encodeEntry ++
      putUint16 (UInt16.ofNat batch.senderHighWaterMarks.length)) trailing 0
  rw [hstep, hoff, hdata, if_neg (by simp; omega)]
  rw [@List.length_append _ _ (putUint16 _)] at hmarkList
  simp only [List.append_assoc, putUint16_length] at hhwm hmarkList ⊢
  simp only [hhwm, bind, Except.bind, uint16_putUint16, UInt16.toNat_ofNat',
    Nat.mod_eq_of_lt hmarks, hmarkList]

theorem decodeLazyBatch_encode (z : Zstd) (batch : LazyBatch) :
    decodeLazyBatch z (encodeLazyBatch z batch) =
      parseBatch (serializeBatch batch) := by
  simp [decodeLazyBatch, encodeLazyBatch, z.lossless]

/-! ## Frames -/

structure LazyBatch.Fits (z : Zstd) (batch : LazyBatch) : Prop where
  entries : batch.entries.length < 2 ^ 16
  marks : batch.senderHighWaterMarks.length < 2 ^ 16
  payloads : ∀ e ∈ batch.entries, e.payload.length < 2 ^ 32
  frame : (encodeLazyBatch z batch).length ≤ maxFrame

instance (z : Zstd) (batch : LazyBatch) : Decidable (batch.Fits z) :=
  decidable_of_iff (batch.entries.length < 2 ^ 16 ∧
      batch.senderHighWaterMarks.length < 2 ^ 16 ∧
      (∀ e ∈ batch.entries, e.payload.length < 2 ^ 32) ∧
      (encodeLazyBatch z batch).length ≤ maxFrame)
    ⟨fun h => ⟨h.1, h.2.1, h.2.2.1, h.2.2.2⟩,
      fun h => ⟨h.entries, h.marks, h.payloads, h.frame⟩⟩

theorem readLazyBatch_frame (z : Zstd) (compressed trailing : Bytes)
    (hlen : compressed.length < 2 ^ 32) :
    readLazyBatch z
      (putUint32 (UInt32.ofNat compressed.length) ++ (compressed ++ trailing)) =
      if maxFrame < compressed.length then .error (.tooLarge compressed.length)
      else match decodeLazyBatch z compressed with
        | .error err => .error (.decode err)
        | .ok batch => .ok batch := by
  have hsize : (UInt32.ofNat compressed.length).toNat = compressed.length := by
    rw [UInt32.toNat_ofNat']
    exact Nat.mod_eq_of_lt hlen
  unfold readLazyBatch
  rw [if_neg (by simp)]
  simp only [uint32_append, hsize]
  split
  · rfl
  · simp only [List.drop_left' (putUint32_length _), List.take_left' rfl]
    exact if_neg (by simp)

theorem readLazyBatch_write (z : Zstd) (batch : LazyBatch) (trailing : Bytes)
    (hfits : batch.Fits z) :
    readLazyBatch z (writeLazyBatch z batch ++ trailing) = .ok batch := by
  have hframe := hfits.frame
  have hsmall : (encodeLazyBatch z batch).length < 2 ^ 32 := by
    unfold maxFrame at hframe
    omega
  unfold writeLazyBatch
  simp only [List.append_assoc]
  rw [readLazyBatch_frame z _ _ hsmall, if_neg (by omega)]
  have hparse := parseBatch_serialize batch [] hfits.entries hfits.marks
    hfits.payloads
  rw [List.append_nil] at hparse
  rw [decodeLazyBatch_encode, hparse]

theorem readLazyBatch_write_entries {z : Zstd} {batch parsed : LazyBatch}
    (hlen : (encodeLazyBatch z batch).length < 2 ^ 32)
    (hsmall : ∀ e ∈ batch.entries, e.payload.length < 2 ^ 32)
    (h : readLazyBatch z (writeLazyBatch z batch) = .ok parsed) :
    ∀ e ∈ parsed.entries, e ∈ batch.entries := by
  have hframe := readLazyBatch_frame z (encodeLazyBatch z batch) [] hlen
  rw [List.append_nil] at hframe
  rw [writeLazyBatch, hframe] at h
  split at h
  · cases h
  · rw [decodeLazyBatch_encode] at h
    split at h
    · cases h
    · next parsed' hparsed =>
        cases h
        intro e he
        rw [parseBatch_serialize_entries hsmall hparsed] at he
        exact List.mem_of_mem_take he

end GossipMesh.Engine
