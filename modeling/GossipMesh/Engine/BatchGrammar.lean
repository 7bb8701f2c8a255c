import GossipMesh.Engine.BatchCodec

/-!
# What the batch parser accepts

The parser moves an offset over the data.  Every reader of it either fails for
want of bytes, never by a slice out of range, or consumes exactly the encoding
of what it returns.  With the round trip of the codec the accepted strings are
the serialized batches, followed by anything.
-/

namespace GossipMesh.Engine

open GossipMesh.Foundation

/-- A reader at `off` fails without a panic or has read the encoding of a good value. -/
def Consumes {α : Type} (data : Bytes) (off : Nat) (enc : α → Bytes)
    (good : α → Prop) : Except DecodeError (α × Nat) → Prop
  | .error err => err ≠ .outOfRange
  | .ok (value, next) =>
      next ≤ data.length ∧ data.take next = data.take off ++ enc value ∧ good value

theorem slice_of_le (data : Bytes) (off width : Nat)
    (h : off + width ≤ data.length) :
    ∃ bytes, slice data off width = .ok bytes ∧ bytes.length = width ∧
      data.take (off + width) = data.take off ++ bytes := by
  refine ⟨(data.drop off).take width, if_pos h, ?_, List.take_add⟩
  rw [List.length_take_of_le]
  rw [List.length_drop]
  omega

theorem header_of_le (data : Bytes) (off : Nat) (h : off + 10 ≤ data.length) :
    ∃ topic seq, slice data off 2 = .ok topic ∧ slice data (off + 2) 8 = .ok seq ∧
      data.take (off + 10) =
        data.take off ++ (putUint16 (uint16 topic) ++ putUint64 (uint64 seq)) := by
  obtain ⟨topic, htopic, htopicLen, htopicTake⟩ := slice_of_le data off 2 (by omega)
  obtain ⟨seq, hseq, hseqLen, hseqTake⟩ := slice_of_le data (off + 2) 8 (by omega)
  refine ⟨topic, seq, htopic, hseq, ?_⟩
  rw [hseqTake, htopicTake, putUint16_uint16 htopicLen, putUint64_uint64 hseqLen,
    List.append_assoc]

theorem decodeEntryAt_consumes (data : Bytes) (i off : Nat) :
    Consumes data off encodeEntry (fun e => e.payload.length < 2 ^ 32)
      (decodeEntryAt data i off) := by
  unfold decodeEntryAt
  split
  · simp [Consumes]
  · next hheader =>
      obtain ⟨topic, seq, htopic, hseq, hheaderTake⟩ := header_of_le data off (by omega)
      obtain ⟨plen, hplen, hplenLen, hplenTake⟩ :=
        slice_of_le data (off + 10) 4 (by omega)
      simp only [htopic, hseq, hplen, bind, Except.bind]
      split
      · simp [Consumes]
      · next hbody =>
          obtain ⟨payload, hpayload, hpayloadLen, hpayloadTake⟩ :=
            slice_of_le data (off + 14) (uint32 plen).toNat (by omega)
          simp only [hpayload]
          refine ⟨by omega, ?_, ?_⟩
          · have hcount : UInt32.ofNat payload.length = uint32 plen := by
              rw [hpayloadLen, UInt32.ofNat_toNat]
            rw [hpayloadTake, hplenTake, hheaderTake]
            simp only [encodeEntry, hcount, putUint32_uint32 hplenLen, List.append_assoc]
          · have hlt := (uint32 plen).toNat_lt
            rwa [← hpayloadLen] at hlt

theorem decodeMarkAt_consumes (data : Bytes) (i off : Nat) :
    Consumes data off encodeMark (fun _ => True) (decodeMarkAt data i off) := by
  unfold decodeMarkAt
  split
  · simp [Consumes]
  · next hheader =>
      obtain ⟨topic, seq, htopic, hseq, hheaderTake⟩ := header_of_le data off (by omega)
      simp only [htopic, hseq, bind, Except.bind]
      exact ⟨by omega, hheaderTake, trivial⟩

theorem Consumes.cons {α : Type} {data : Bytes} {off : Nat} {enc : α → Bytes}
    {good : α → Prop} {count : Nat} {first : Except DecodeError (α × Nat)}
    {more : Nat → Except DecodeError (List α × Nat)}
    (hfirst : Consumes data off enc good first)
    (hmore : ∀ next, next ≤ data.length → Consumes data next
      (List.flatMap enc)
      (fun values => values.length = count ∧ ∀ v ∈ values, good v) (more next)) :
    Consumes data off (List.flatMap enc)
      (fun values => values.length = count + 1 ∧ ∀ v ∈ values, good v)
      (first >>= fun p => more p.2 >>= fun q => .ok (p.1 :: q.1, q.2)) := by
  cases first with
  | error err => exact hfirst
  | ok p =>
      obtain ⟨value, next⟩ := p
      obtain ⟨hnext, htake, hgood⟩ := hfirst
      have hrest := hmore next hnext
      simp only [bind, Except.bind]
      cases hq : more next with
      | error err =>
          rw [hq] at hrest
          exact hrest
      | ok q =>
          obtain ⟨values, last⟩ := q
          rw [hq] at hrest
          obtain ⟨hlast, htakeRest, hlen, hgoods⟩ := hrest
          refine ⟨hlast, ?_, by simp [hlen], ?_⟩
          · rw [htakeRest, htake, List.flatMap_cons, List.append_assoc]
          · intro v hv
            rcases List.mem_cons.mp hv with rfl | hv
            · exact hgood
            · exact hgoods v hv

theorem decodeEntries_consumes (data : Bytes) (count i off : Nat)
    (hoff : off ≤ data.length) :
    Consumes data off (List.flatMap encodeEntry)
      (fun es => es.length = count ∧ ∀ e ∈ es, e.payload.length < 2 ^ 32)
      (decodeEntries data count i off) := by
  induction count generalizing i off with
  | zero => simp [decodeEntries, Consumes, hoff]
  | succ count ih =>
      rw [decodeEntries]
      exact Consumes.cons (decodeEntryAt_consumes data i off)
        fun next hnext => ih (i + 1) next hnext

theorem decodeMarks_consumes (data : Bytes) (count i off : Nat)
    (hoff : off ≤ data.length) :
    Consumes data off (List.flatMap encodeMark)
      (fun marks => marks.length = count ∧ ∀ m ∈ marks, True)
      (decodeMarks data count i off) := by
  induction count generalizing i off with
  | zero => simp [decodeMarks, Consumes, hoff]
  | succ count ih =>
      rw [decodeMarks]
      exact Consumes.cons (decodeMarkAt_consumes data i off)
        fun next hnext => ih (i + 1) next hnext

/-! ## Batches -/

structure LazyBatch.InBounds (batch : LazyBatch) : Prop where
  entries : batch.entries.length < 2 ^ 16
  marks : batch.senderHighWaterMarks.length < 2 ^ 16
  payloads : ∀ e ∈ batch.entries, e.payload.length < 2 ^ 32

def Accepts (data : Bytes) : Except DecodeError LazyBatch → Prop
  | .error err => err ≠ .outOfRange
  | .ok batch => batch.InBounds ∧ serializeBatch batch <+: data

theorem parseBatch_accepts (data : Bytes) : Accepts data (parseBatch data) := by
  unfold parseBatch
  split
  · simp [Accepts]
  · next hshort =>
      obtain ⟨entryCount, hcount, hcountLen, hcountTake⟩ :=
        slice_of_le data 0 2 (by omega)
      have hentries := decodeEntries_consumes data (uint16 entryCount).toNat 0 2
        (by omega)
      simp only [hcount, bind, Except.bind]
      cases hes : decodeEntries data (uint16 entryCount).toNat 0 2 with
      | error err =>
          rw [hes] at hentries
          exact hentries
      | ok p =>
          obtain ⟨entries, off⟩ := p
          rw [hes] at hentries
          obtain ⟨hoff, hentriesTake, hentriesLen, hpayloads⟩ := hentries
          simp only
          split
          · simp [Accepts]
          · next hheader =>
              obtain ⟨hwmCount, hhwm, hhwmLen, hhwmTake⟩ :=
                slice_of_le data off 2 (by omega)
              have hmarks := decodeMarks_consumes data (uint16 hwmCount).toNat 0
                (off + 2) (by omega)
              simp only [hhwm]
              cases hms : decodeMarks data (uint16 hwmCount).toNat 0 (off + 2) with
              | error err =>
                  rw [hms] at hmarks
                  exact hmarks
              | ok q =>
                  obtain ⟨marks, last⟩ := q
                  rw [hms] at hmarks
                  obtain ⟨hlast, hmarksTake, hmarksLen, -⟩ := hmarks
                  have hfewEntries := (uint16 entryCount).toNat_lt
                  have hfewMarks := (uint16 hwmCount).toNat_lt
                  rw [← hentriesLen] at hfewEntries
                  rw [← hmarksLen] at hfewMarks
                  refine ⟨⟨hfewEntries, hfewMarks, hpayloads⟩, ?_⟩
                  have hser : serializeBatch ⟨entries, marks⟩ = data.take last := by
                    rw [hmarksTake, hhwmTake, hentriesTake, hcountTake]
                    simp only [serializeBatch, hentriesLen, hmarksLen,
                      UInt16.ofNat_toNat, putUint16_uint16 hcountLen,
                      putUint16_uint16 hhwmLen, List.take_zero, List.nil_append]
                  rw [hser]
                  exact List.take_prefix last data

theorem parseBatch_eq_ok (data : Bytes) (batch : LazyBatch) :
    parseBatch data = .ok batch ↔
      batch.InBounds ∧ ∃ trailing, data = serializeBatch batch ++ trailing := by
  constructor
  · intro h
    have hspec := parseBatch_accepts data
    rw [h] at hspec
    obtain ⟨hbounds, trailing, htrailing⟩ := hspec
    exact ⟨hbounds, trailing, htrailing.symm⟩
  · rintro ⟨hbounds, trailing, rfl⟩
    exact parseBatch_serialize batch trailing hbounds.entries hbounds.marks
      hbounds.payloads

/--
The parser never slices out of range, and it succeeds on exactly the serialized
batches within the bounds of the format, whatever follows them.  A string has at
most one such reading, and decoding undoes encoding.
-/
theorem parseBatch_grammar (data : Bytes) :
    parseBatch data ≠ .error .outOfRange ∧
    (∀ batch, parseBatch data = .ok batch ↔
      batch.InBounds ∧ ∃ trailing, data = serializeBatch batch ++ trailing) ∧
    (∀ batch batch' : LazyBatch, batch.InBounds → batch'.InBounds →
      (∃ trailing, data = serializeBatch batch ++ trailing) →
      (∃ trailing, data = serializeBatch batch' ++ trailing) → batch = batch') ∧
    ∀ (z : Zstd) (batch : LazyBatch), batch.InBounds →
      decodeLazyBatch z (encodeLazyBatch z batch) = .ok batch := by
  refine ⟨?_, parseBatch_eq_ok data, ?_, ?_⟩
  · intro h
    have hspec := parseBatch_accepts data
    rw [h] at hspec
    exact hspec rfl
  · intro batch batch' hbounds hbounds' hdata hdata'
    have hparse := (parseBatch_eq_ok data batch).mpr ⟨hbounds, hdata⟩
    have hparse' := (parseBatch_eq_ok data batch').mpr ⟨hbounds', hdata'⟩
    rw [hparse] at hparse'
    exact Except.ok.inj hparse'
  · intro z batch hbounds
    rw [decodeLazyBatch_encode]
    exact (parseBatch_eq_ok _ batch).mpr ⟨hbounds, [], by simp⟩

/-! ## Frames -/

def writeLazyBatchTo (z : Zstd) (batch : LazyBatch) (header body : Option Nat) :
    Bytes × Bool :=
  let compressed := encodeLazyBatch z batch
  let prefixed := write header (putUint32 (UInt32.ofNat compressed.length))
  if prefixed.2 then
    let written := write body compressed
    (prefixed.1 ++ written.1, written.2)
  else prefixed

/-- A compressed frame cut short does not decode to data. -/
def Zstd.Delimited (z : Zstd) : Prop :=
  ∀ data n out, n < (z.encodeAll data).length →
    z.decodeAll ((z.encodeAll data).take n) = some out → out = []

theorem writeLazyBatchTo_eq_ok {z : Zstd} {batch : LazyBatch}
    {header body : Option Nat} :
    (writeLazyBatchTo z batch header body).2 = true ↔ header = none ∧ body = none := by
  cases header <;> cases body <;> simp [writeLazyBatchTo, write]

private theorem readLazyBatch_long (z : Zstd) (hz : z.Delimited) (data : Bytes)
    (batch : LazyBatch) (hlen : 2 ^ 32 ≤ (z.encodeAll data).length) :
    readLazyBatch z (putUint32 (UInt32.ofNat (z.encodeAll data).length) ++
      z.encodeAll data) ≠ .ok batch := by
  intro h
  unfold readLazyBatch at h
  rw [if_neg (by simp)] at h
  simp only [uint32_append, UInt32.toNat_ofNat',
    List.drop_left' (putUint32_length _)] at h
  have hsize : (z.encodeAll data).length % 2 ^ 32 < (z.encodeAll data).length := by
    omega
  split at h
  · cases h
  · rw [if_neg (by omega)] at h
    -- what the reader takes for the frame is a proper prefix of it
    cases hdecode : z.decodeAll
        ((z.encodeAll data).take ((z.encodeAll data).length % 2 ^ 32)) with
    | none =>
        simp only [decodeLazyBatch, hdecode] at h
        cases h
    | some out =>
        have hempty := hz data _ out hsize hdecode
        simp only [decodeLazyBatch, hdecode, hempty] at h
        cases h

private theorem readLazyBatch_write_iff (z : Zstd) (hz : z.Delimited) (batch : LazyBatch)
    (hsmall : ∀ e ∈ batch.entries, e.payload.length < 2 ^ 32) :
    readLazyBatch z (writeLazyBatch z batch) = .ok batch ↔ batch.Fits z := by
  constructor
  · intro h
    by_cases hlen : (encodeLazyBatch z batch).length < 2 ^ 32
    · have hframe := readLazyBatch_frame z (encodeLazyBatch z batch) [] hlen
      rw [List.append_nil] at hframe
      rw [writeLazyBatch, hframe, decodeLazyBatch_encode] at h
      split at h
      · cases h
      · next hfits =>
          cases hparse : parseBatch (serializeBatch batch) with
          | error err => simp [hparse] at h
          | ok parsed =>
              rw [hparse] at h
              cases h
              have hbounds := ((parseBatch_eq_ok _ _).mp hparse).1
              exact ⟨hbounds.entries, hbounds.marks, hsmall, not_lt.mp hfits⟩
    · exact absurd h (readLazyBatch_long z hz _ batch (not_lt.mp hlen))
  · intro hfits
    simpa using readLazyBatch_write z batch [] hfits

/--
A lazy batch is refused by the writer or comes back from the reader exactly if
a write fails, or both counts fit in 16 bits and the compressed batch is within
the reader's limit.
-/
theorem writeLazyBatchTo_refused_or_read_iff (z : Zstd) (hz : z.Delimited)
    (batch : LazyBatch) (hsmall : ∀ e ∈ batch.entries, e.payload.length < 2 ^ 32)
    (header body : Option Nat) :
    ((writeLazyBatchTo z batch header body).2 = false ∨
      readLazyBatch z (writeLazyBatchTo z batch header body).1 = .ok batch) ↔
    (header ≠ none ∨ body ≠ none) ∨
      (batch.entries.length ≤ 65535 ∧ batch.senderHighWaterMarks.length ≤ 65535 ∧
        (encodeLazyBatch z batch).length ≤ maxFrame) := by
  have hread := readLazyBatch_write_iff z hz batch hsmall
  have hfits : batch.Fits z ↔ batch.entries.length ≤ 65535 ∧
      batch.senderHighWaterMarks.length ≤ 65535 ∧
      (encodeLazyBatch z batch).length ≤ maxFrame := by
    constructor
    · intro h
      exact ⟨Nat.le_of_lt_succ h.entries, Nat.le_of_lt_succ h.marks, h.frame⟩
    · intro h
      exact ⟨Nat.lt_succ_of_le h.1, Nat.lt_succ_of_le h.2.1, hsmall, h.2.2⟩
  rw [← hfits, ← hread]
  by_cases hok : header = none ∧ body = none
  · obtain ⟨rfl, rfl⟩ := hok
    simp [writeLazyBatchTo, write, writeLazyBatch]
  · have hfailed : (writeLazyBatchTo z batch header body).2 = false := by
      rw [← Bool.not_eq_true, writeLazyBatchTo_eq_ok]
      exact hok
    have hfault : header ≠ none ∨ body ≠ none := by
      rwa [not_and_or] at hok
    simp [hfailed, hfault]

/-! ## A batch that outgrows its counts -/

def announced (data : Bytes) : Bytes :=
  data.flatMap (fun b => [1, b]) ++ [0]

def unannounced : Bytes → Option Bytes
  | [] => none
  | [tag] => if tag = 0 then some [] else none
  | tag :: b :: rest => if tag = 1 then (unannounced rest).map (b :: ·) else none

theorem announced_cons (b : UInt8) (data : Bytes) :
    announced (b :: data) = 1 :: b :: announced data := by
  simp [announced]

private theorem unannounced_announced (data : Bytes) :
    unannounced (announced data) = some data := by
  induction data with
  | nil => rfl
  | cons b data ih =>
      rw [announced_cons, unannounced, if_pos rfl, ih]
      rfl

private theorem unannounced_cut (data : Bytes) {n : Nat}
    (hn : n < (announced data).length) :
    unannounced ((announced data).take n) = none := by
  induction data generalizing n with
  | nil =>
      have hzero : n = 0 := by simpa [announced] using hn
      rw [hzero]
      rfl
  | cons b data ih =>
      rw [announced_cons] at hn ⊢
      match n with
      | 0 => rfl
      | 1 => rfl
      | n + 2 =>
          have hrest := ih (n := n) (by simpa using hn)
          simp [unannounced, hrest]

def Zstd.announced : Zstd :=
  ⟨Engine.announced, unannounced, unannounced_announced⟩

private theorem Zstd.announced_delimited : Zstd.announced.Delimited := by
  intro data n out hn h
  have hcut := unannounced_cut data hn
  exact absurd (hcut.symm.trans h) (by simp)

def mixedBatch : LazyBatch :=
  ⟨[⟨1, 1, [7]⟩, ⟨1, 2, []⟩, ⟨2, 300, [8, 9]⟩], [⟨1, 2⟩, ⟨2, 300⟩]⟩

theorem writeLazyBatchTo_refused_or_read_mixed :
    (Zstd.announced.Delimited ∧ ∀ e ∈ mixedBatch.entries, e.payload.length < 2 ^ 32) ∧
    readLazyBatch .announced (writeLazyBatchTo .announced mixedBatch none none).1 =
      .ok mixedBatch ∧
    (writeLazyBatchTo .announced mixedBatch none (some 3)).2 = false := by
  have hsmall : ∀ e ∈ mixedBatch.entries, e.payload.length < 2 ^ 32 := by decide
  have hboth := writeLazyBatchTo_refused_or_read_iff .announced Zstd.announced_delimited
    mixedBatch hsmall none none
  have hcut := writeLazyBatchTo_refused_or_read_iff .announced Zstd.announced_delimited
    mixedBatch hsmall none (some 3)
  refine ⟨⟨Zstd.announced_delimited, hsmall⟩, ?_, ?_⟩
  · rcases hboth.mpr (.inr (by decide +kernel)) with hrefused | hread
    · cases hrefused
    · exact hread
  · rcases hcut.mpr (.inl (by decide)) with hrefused | hread
    · exact hrefused
    · exact absurd hread (by decide +kernel)

def numbered (n : Nat) : LazyBatch :=
  ⟨(List.range n).map fun i => ⟨0, UInt64.ofNat (i + 1), []⟩, []⟩

theorem numbered_length (n : Nat) : (numbered n).entries.length = n := by
  simp [numbered]

theorem serializeBatch_numbered_length (n : Nat) :
    (serializeBatch (numbered n)).length = 14 * n + 4 := by
  have hentries : ((numbered n).entries.flatMap encodeEntry).length = n * 14 := by
    rw [List.length_flatMap, List.sum_eq_card_nsmul _ 14]
    · simp [numbered]
    · simp [numbered, encodeEntry_length]
  simp only [serializeBatch, List.length_append, putUint16_length, hentries]
  simp [numbered]
  omega

theorem serializeBatch_numbered (n : Nat) :
    ∃ rest, serializeBatch (numbered (n + 1)) =
      putUint16 (UInt16.ofNat (n + 1)) ++ (putUint16 0 ++ rest) := by
  simp only [serializeBatch, numbered_length]
  simp only [numbered, List.range_succ_eq_map, List.map_cons, List.flatMap_cons,
    encodeEntry, List.append_assoc]
  exact ⟨_, rfl⟩

theorem encodeLazyBatch_stored (batch : LazyBatch) :
    encodeLazyBatch .stored batch = serializeBatch batch := rfl

private theorem parseBatch_zeros (rest : Bytes) :
    parseBatch (0 :: 0 :: 0 :: 0 :: rest) = .ok ⟨[], []⟩ := by
  have hcount : uint16 [0, 0] = 0 := by decide
  have hlong : ¬ rest.length + 1 + 1 + 1 + 1 < 2 := by omega
  have hheader : ¬ rest.length + 1 + 1 + 1 + 1 < 4 := by omega
  simp [parseBatch, slice, decodeEntries, decodeMarks, hcount, bind, Except.bind,
    hlong, hheader]

private theorem parseBatch_serialize_numbered :
    parseBatch (serializeBatch (numbered 65536)) = .ok ⟨[], []⟩ := by
  have hcount : putUint16 (UInt16.ofNat (65535 + 1)) = [0, 0] := by decide
  have htopic : putUint16 0 = [0, 0] := by decide
  obtain ⟨rest, hrest⟩ := serializeBatch_numbered 65535
  rw [hcount, htopic] at hrest
  rw [hrest]
  exact parseBatch_zeros rest

/-- All entries are lost, and neither side reports it. -/
theorem numbered_lost :
    (∀ e ∈ (numbered 65536).entries, e.payload.length < 2 ^ 32) ∧
    (writeLazyBatchTo .stored (numbered 65536) none none).2 = true ∧
    readLazyBatch .stored (writeLazyBatchTo .stored (numbered 65536) none none).1 =
      .ok ⟨[], []⟩ ∧
    numbered 65536 ≠ ⟨[], []⟩ := by
  have hlen : (encodeLazyBatch .stored (numbered 65536)).length = 14 * 65536 + 4 := by
    rw [encodeLazyBatch_stored, serializeBatch_numbered_length]
  refine ⟨by simp [numbered], writeLazyBatchTo_eq_ok.mpr ⟨rfl, rfl⟩, ?_, ?_⟩
  · have hframe := readLazyBatch_frame .stored
      (encodeLazyBatch .stored (numbered 65536)) []
      (by rw [hlen]; decide)
    rw [List.append_nil, if_neg (by rw [hlen]; decide), decodeLazyBatch_encode,
      parseBatch_serialize_numbered] at hframe
    exact hframe
  · intro h
    have hcount := numbered_length 65536
    rw [h] at hcount
    simp at hcount

end GossipMesh.Engine
