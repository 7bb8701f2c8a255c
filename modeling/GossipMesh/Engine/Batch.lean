import GossipMesh.Foundation.Wire
import GossipMesh.Engine.Ordered
import GossipMesh.Engine.Seen

/-!
# Lazy buffers and lazy batches

A lazy peer's entries accumulate in its `LazyBuffer` and leave it as one
`LazyBatch`, compressed and length-prefixed.  The counts are written with 16
bits and the lengths with 32; the encoder converts without a check.

The compressor is a parameter.  Of it the code relies on decoding undoing
encoding only.
-/

namespace GossipMesh.Engine

open GossipMesh.Foundation

structure GossipEntry where
  topic : UInt16
  seq : UInt64
  payload : Payload
  deriving DecidableEq

structure Zstd where
  encodeAll : Bytes → Bytes
  decodeAll : Bytes → Option Bytes
  lossless : ∀ data, decodeAll (encodeAll data) = some data

def Zstd.stored : Zstd := ⟨id, some, fun _ => rfl⟩

structure LazyBatch where
  entries : List GossipEntry
  senderHighWaterMarks : List TopicSeq
  deriving DecidableEq

structure LazyBuffer where
  entries : List GossipEntry
  -- a missing key reads as zero
  peerSeqs : UInt16 → UInt64

namespace LazyBuffer

def new : LazyBuffer := ⟨[], fun _ => 0⟩

def add (b : LazyBuffer) (entry : GossipEntry) : LazyBuffer :=
  if b.peerSeqs entry.topic < entry.seq then
    { b with entries := b.entries ++ [entry] }
  else b

def flush (b : LazyBuffer) : List GossipEntry × LazyBuffer :=
  (b.entries, { b with entries := [] })

def len (b : LazyBuffer) : Nat := b.entries.length

def updatePeerSeq (b : LazyBuffer) (m : TopicSeq) : LazyBuffer :=
  if b.peerSeqs m.topic < m.seq then
    { b with peerSeqs := Function.update b.peerSeqs m.topic m.seq }
  else b

def updatePeerSeqs (b : LazyBuffer) (marks : List TopicSeq) : LazyBuffer :=
  marks.foldl updatePeerSeq b

@[simp] theorem add_peerSeqs (b : LazyBuffer) (entry : GossipEntry) :
    (b.add entry).peerSeqs = b.peerSeqs := by
  unfold add
  split <;> rfl

theorem add_entries (b : LazyBuffer) (entry : GossipEntry) :
    (b.add entry).entries = b.entries ++
      (if b.peerSeqs entry.topic < entry.seq then [entry] else []) := by
  unfold add
  split <;> simp

@[simp] theorem updatePeerSeqs_entries (b : LazyBuffer) (marks : List TopicSeq) :
    (b.updatePeerSeqs marks).entries = b.entries := by
  induction marks generalizing b with
  | nil => rfl
  | cons m marks ih =>
      change ((b.updatePeerSeq m).updatePeerSeqs marks).entries = b.entries
      rw [ih]
      unfold updatePeerSeq
      split <;> rfl

end LazyBuffer

/-! ## Marks -/

def markOf (topic : UInt16) (marks : List TopicSeq) : UInt64 :=
  marks.foldr (fun m mark => if m.topic = topic then max m.seq mark else mark) 0

theorem markOf_cons (topic : UInt16) (m : TopicSeq) (marks : List TopicSeq) :
    markOf topic (m :: marks) =
      if m.topic = topic then max m.seq (markOf topic marks) else markOf topic marks := rfl

theorem LazyBuffer.updatePeerSeqs_peerSeqs (b : LazyBuffer) (marks : List TopicSeq)
    (topic : UInt16) :
    (b.updatePeerSeqs marks).peerSeqs topic = max (b.peerSeqs topic) (markOf topic marks) := by
  induction marks generalizing b with
  | nil =>
      rw [max_eq_left]
      · rfl
      · exact UInt64.zero_le
  | cons m marks ih =>
      change ((b.updatePeerSeq m).updatePeerSeqs marks).peerSeqs topic = _
      rw [ih, markOf_cons]
      have hone : (b.updatePeerSeq m).peerSeqs topic =
          if m.topic = topic then max (b.peerSeqs topic) m.seq else b.peerSeqs topic := by
        unfold LazyBuffer.updatePeerSeq
        by_cases htopic : m.topic = topic
        · subst htopic
          split
          · next hlt => simp [max_eq_right (le_of_lt hlt)]
          · next hge => simp [max_eq_left (not_lt.mp hge)]
        · rw [if_neg htopic]
          split
          · simp [Ne.symm htopic]
          · rfl
      rw [hone]
      by_cases htopic : m.topic = topic
      · simp [htopic, max_assoc]
      · simp [htopic]

theorem markOf_le_iff {topic : UInt16} {marks : List TopicSeq} {bound : UInt64} :
    markOf topic marks ≤ bound ↔ ∀ m ∈ marks, m.topic = topic → m.seq ≤ bound := by
  induction marks with
  | nil => simp [markOf]
  | cons m marks ih =>
      rw [markOf_cons, List.forall_mem_cons, ← ih]
      by_cases htopic : m.topic = topic
      · simp [htopic]
      · simp [htopic]

theorem markOf_append (topic : UInt16) (marks more : List TopicSeq) :
    markOf topic (marks ++ more) = max (markOf topic marks) (markOf topic more) := by
  apply eq_of_forall_ge_iff
  intro bound
  simp only [max_le_iff, markOf_le_iff, List.forall_mem_append]

theorem markOf_perm (topic : UInt16) {marks more : List TopicSeq} (h : marks.Perm more) :
    markOf topic marks = markOf topic more := by
  apply eq_of_forall_ge_iff
  intro bound
  simp only [markOf_le_iff, h.mem_iff]

theorem LazyBuffer.updatePeerSeqs_le {b : LazyBuffer} {marks : List TopicSeq}
    {topic : UInt16} {bound : UInt64} (hbefore : b.peerSeqs topic ≤ bound)
    (hmarks : ∀ m ∈ marks, m.topic = topic → m.seq ≤ bound) :
    (b.updatePeerSeqs marks).peerSeqs topic ≤ bound := by
  rw [updatePeerSeqs_peerSeqs]
  exact max_le hbefore (markOf_le_iff.mpr hmarks)

theorem LazyBuffer.le_updatePeerSeqs (b : LazyBuffer) (marks : List TopicSeq)
    (topic : UInt16) :
    b.peerSeqs topic ≤ (b.updatePeerSeqs marks).peerSeqs topic := by
  rw [updatePeerSeqs_peerSeqs]
  exact le_max_left _ _

/-! ## Encoding -/

def encodeEntry (e : GossipEntry) : Bytes :=
  putUint16 e.topic ++ putUint64 e.seq ++
    putUint32 (UInt32.ofNat e.payload.length) ++ e.payload

def encodeMark (m : TopicSeq) : Bytes :=
  putUint16 m.topic ++ putUint64 m.seq

def serializeBatch (batch : LazyBatch) : Bytes :=
  putUint16 (UInt16.ofNat batch.entries.length) ++
    batch.entries.flatMap encodeEntry ++
    putUint16 (UInt16.ofNat batch.senderHighWaterMarks.length) ++
    batch.senderHighWaterMarks.flatMap encodeMark

def encodeLazyBatch (z : Zstd) (batch : LazyBatch) : Bytes :=
  z.encodeAll (serializeBatch batch)

/-! ## Decoding -/

inductive DecodeError where
  | zstdDecompress
  | batchTooShort
  | truncatedEntry (i : Nat)
  | truncatedPayload (i : Nat)
  | truncatedHWMHeader
  | truncatedHWM (i : Nat)
  -- the run-time panic of a slice expression
  | outOfRange
  deriving DecidableEq

def slice (data : Bytes) (off width : Nat) : Except DecodeError Bytes :=
  if off + width ≤ data.length then .ok ((data.drop off).take width)
  else .error .outOfRange

def decodeEntryAt (data : Bytes) (i off : Nat) :
    Except DecodeError (GossipEntry × Nat) :=
  if data.length < off + 14 then .error (.truncatedEntry i)
  else do
    let topic ← slice data off 2
    let seq ← slice data (off + 2) 8
    let plen ← slice data (off + 10) 4
    let plen := (uint32 plen).toNat
    if data.length < off + 14 + plen then .error (.truncatedPayload i)
    else do
      let payload ← slice data (off + 14) plen
      .ok (⟨uint16 topic, uint64 seq, payload⟩, off + 14 + plen)

def decodeEntries (data : Bytes) : Nat → Nat → Nat →
    Except DecodeError (List GossipEntry × Nat)
  | 0, _, off => .ok ([], off)
  | count + 1, i, off => do
      let (entry, off) ← decodeEntryAt data i off
      let (entries, off) ← decodeEntries data count (i + 1) off
      .ok (entry :: entries, off)

def decodeMarkAt (data : Bytes) (i off : Nat) :
    Except DecodeError (TopicSeq × Nat) :=
  if data.length < off + 10 then .error (.truncatedHWM i)
  else do
    let topic ← slice data off 2
    let seq ← slice data (off + 2) 8
    .ok (⟨uint16 topic, uint64 seq⟩, off + 10)

def decodeMarks (data : Bytes) : Nat → Nat → Nat →
    Except DecodeError (List TopicSeq × Nat)
  | 0, _, off => .ok ([], off)
  | count + 1, i, off => do
      let (mark, off) ← decodeMarkAt data i off
      let (marks, off) ← decodeMarks data count (i + 1) off
      .ok (mark :: marks, off)

def parseBatch (data : Bytes) : Except DecodeError LazyBatch :=
  if data.length < 2 then .error .batchTooShort
  else do
    let entryCount ← slice data 0 2
    let (entries, off) ← decodeEntries data (uint16 entryCount).toNat 0 2
    if data.length < off + 2 then .error .truncatedHWMHeader
    else do
      let hwmCount ← slice data off 2
      let (marks, _) ← decodeMarks data (uint16 hwmCount).toNat 0 (off + 2)
      .ok ⟨entries, marks⟩

def decodeLazyBatch (z : Zstd) (compressed : Bytes) :
    Except DecodeError LazyBatch :=
  match z.decodeAll compressed with
  | none => .error .zstdDecompress
  | some data => parseBatch data

/-! ## Framing -/

def maxFrame : Nat := 16 * 1024 * 1024

def writeLazyBatch (z : Zstd) (batch : LazyBatch) : Bytes :=
  let compressed := encodeLazyBatch z batch
  putUint32 (UInt32.ofNat compressed.length) ++ compressed

inductive ReadError where
  | unexpectedEOF
  | tooLarge (size : Nat)
  | decode (err : DecodeError)
  deriving DecidableEq

def readLazyBatch (z : Zstd) (r : Bytes) : Except ReadError LazyBatch :=
  -- `r` is what the reader yields until it ends; the rest is left unread
  if r.length < 4 then .error .unexpectedEOF
  else
    let size := (uint32 r).toNat
    if maxFrame < size then .error (.tooLarge size)
    else
      let rest := r.drop 4
      if rest.length < size then .error .unexpectedEOF
      else match decodeLazyBatch z (rest.take size) with
        | .error err => .error (.decode err)
        | .ok batch => .ok batch

end GossipMesh.Engine
