import GossipMesh.Engine.EagerStream
import Mathlib.Data.List.Pairwise

/-!
# The writer of eager streams

`eagerStreamWriter` opens a stream when it needs one, writes the stream type
once and then one frame per message, and drops the stream at the first error.
A write may fail after any number of accepted bytes.  Every stream keeps a log
of the sends attempted on it, with their numbers in the order of the calls.
-/

namespace GossipMesh.Engine

open GossipMesh.Foundation

structure UniStream where
  bytes : Bytes
  attempted : List (Nat × Bytes)

structure EagerStreamWriter where
  -- the streams opened and closed so far
  closed : List UniStream
  stream : Option UniStream

structure Faults where
  opened : Bool
  type : Option Nat
  header : Option Nat
  body : Option Nat

namespace EagerStreamWriter

def new : EagerStreamWriter := ⟨[], none⟩

def streams (w : EagerStreamWriter) : List UniStream :=
  w.closed ++ w.stream.toList

def openStream (w : EagerStreamWriter) (f : Faults) : EagerStreamWriter :=
  -- the first half of `send`; no stream is set where it returns an error
  match w.stream with
  | some _ => w
  | none =>
      if f.opened then
        let typed := write f.type [streamTypeEagerStream]
        if typed.2 then { w with stream := some ⟨typed.1, []⟩ }
        else { w with closed := w.closed ++ [⟨typed.1, []⟩] }
      else w

/-- The second half of `send`, on the current stream `s`. -/
def writeFrame (w : EagerStreamWriter) (s : UniStream) (number : Nat) (msg : Bytes)
    (f : Faults) : EagerStreamWriter × Bool :=
  let hdr := write f.header (putUint32 (UInt32.ofNat msg.length))
  let s := { bytes := s.bytes ++ hdr.1, attempted := s.attempted ++ [(number, msg)] }
  if hdr.2 then
    let payload := write f.body msg
    let s := { s with bytes := s.bytes ++ payload.1 }
    if payload.2 then ({ w with stream := some s }, true)
    else (⟨w.closed ++ [s], none⟩, false)
  else (⟨w.closed ++ [s], none⟩, false)

def send (w : EagerStreamWriter) (number : Nat) (msg : Bytes) (f : Faults) :
    EagerStreamWriter × Bool :=
  let w := w.openStream f
  match w.stream with
  | none => (w, false)
  | some s => w.writeFrame s number msg f

def close (w : EagerStreamWriter) : EagerStreamWriter :=
  ⟨w.streams, none⟩

end EagerStreamWriter

inductive WriterCall where
  | send (entry : GossipEntry) (faults : Faults)
  | close

def WriterCall.entry : WriterCall → Option GossipEntry
  | .send entry _ => some entry
  | .close => none

def writerStep (r : EagerStreamWriter × List Bool) : WriterCall →
    EagerStreamWriter × List Bool
  | .send entry faults =>
      let sent := r.1.send r.2.length (encodeEagerMessage entry) faults
      (sent.1, r.2 ++ [sent.2])
  | .close => (r.1.close, r.2)

def writerRun (calls : List WriterCall) : EagerStreamWriter × List Bool :=
  calls.foldl writerStep (.new, [])

/--
`dispatchUniStream` as the calls of the eager handler.  A stream without its
type byte, and any other type, leads to none.
-/
def dispatchUniStream : Bytes → List Bytes
  | [] => []
  | streamType :: rest =>
      if streamType = streamTypeEagerStream then receiveEagerStream rest else []

/-! ## What a stream carries -/

namespace UniStream

def frames (attempted : List (Nat × Bytes)) : Bytes :=
  streamTypeEagerStream :: attempted.flatMap fun a => eagerFrame a.2

/--
The bytes of a stream are those of its sends, possibly cut short, and the cut
is behind every send that returned nil.
-/
structure Sound (results : List Bool) (s : UniStream) : Prop where
  framed : s.bytes <+: frames s.attempted
  acked : ∀ before a after, s.attempted = before ++ a :: after →
    results[a.1]? = some true → frames (before ++ [a]) <+: s.bytes
  known : ∀ a ∈ s.attempted, a.1 < results.length

theorem frames_append (attempted more : List (Nat × Bytes)) :
    frames (attempted ++ more) =
      frames attempted ++ more.flatMap fun a => eagerFrame a.2 := by
  simp [frames]

theorem frames_initial (before : List (Nat × Bytes)) (a : Nat × Bytes)
    (after : List (Nat × Bytes)) :
    frames (before ++ [a]) <+: frames (before ++ a :: after) := by
  have hsplit : before ++ a :: after = (before ++ [a]) ++ after := by simp
  rw [hsplit, frames_append (before ++ [a])]
  exact List.prefix_append _ _

theorem Sound.snoc {results : List Bool} {s : UniStream} (h : s.Sound results)
    (result : Bool) : s.Sound (results ++ [result]) where
  framed := h.framed
  acked := by
    intro before a after hsplit hok
    apply h.acked before a after hsplit
    rwa [List.getElem?_append_left (h.known a (by simp [hsplit]))] at hok
  known := by
    intro a ha
    have hknown := h.known a ha
    simp
    omega

theorem sound_of_eq {results : List Bool} {s : UniStream}
    (hbytes : s.bytes = frames s.attempted)
    (hknown : ∀ a ∈ s.attempted, a.1 < results.length) : s.Sound results where
  framed := by rw [hbytes]
  acked := by
    intro before a after hsplit _
    rw [hbytes, hsplit]
    exact frames_initial before a after
  known := hknown

theorem sound_of_failed {results : List Bool} {s : UniStream} {msg cut : Bytes}
    (hbytes : s.bytes = frames s.attempted)
    (hknown : ∀ a ∈ s.attempted, a.1 < results.length)
    (hcut : cut <+: eagerFrame msg) :
    Sound (results ++ [false])
      ⟨s.bytes ++ cut, s.attempted ++ [(results.length, msg)]⟩ where
  framed := by
    simp only [frames_append, List.flatMap_singleton, hbytes]
    rw [List.prefix_append_right_inj]
    exact hcut
  acked := by
    intro before a after hsplit hok
    have hlt : a.1 < results.length := by
      by_contra hge
      have hlast : a.1 < (results ++ [false]).length := by
        by_contra hout
        rw [List.getElem?_eq_none (not_lt.mp hout)] at hok
        cases hok
      rw [List.length_append, List.length_singleton] at hlast
      rw [show a.1 = results.length by omega] at hok
      simp at hok
    -- so `a` is not the failed send
    rcases List.eq_nil_or_concat' after with rfl | ⟨middle, last, rfl⟩
    · have hlast := (List.append_inj' hsplit rfl).2
      cases hlast
      simp at hlt
    · have hinit : s.attempted = before ++ a :: middle := by
        have hparts : s.attempted ++ [(results.length, msg)] =
            (before ++ a :: middle) ++ [last] := by
          simpa using hsplit
        exact (List.append_inj' hparts rfl).1
      have hbefore : frames (before ++ [a]) <+: s.bytes := by
        rw [hbytes, hinit]
        exact frames_initial before a middle
      exact hbefore.trans (List.prefix_append _ _)
  known := by
    intro a ha
    rcases List.mem_append.mp ha with ha | ha
    · have hlt := hknown a ha
      simp
      omega
    · rw [List.mem_singleton.mp ha]
      simp

end UniStream

/-! ## The writer's invariant -/

namespace EagerStreamWriter

def log (w : EagerStreamWriter) : List (Nat × Bytes) :=
  w.streams.flatMap fun s => s.attempted

structure Tracks (w : EagerStreamWriter) (results : List Bool) (sent : List Bytes) :
    Prop where
  closed : ∀ s ∈ w.closed, s.Sound results
  stream : ∀ s, w.stream = some s → s.bytes = UniStream.frames s.attempted
  numbered : ∀ a ∈ w.log, a.1 < results.length ∧ sent[a.1]? = some a.2
  ordered : w.log.Pairwise fun a b => a.1 < b.1
  found : ∀ j, results[j]? = some true → ∃ a ∈ w.log, a.1 = j
  counted : sent.length = results.length

theorem mem_log_of_stream {w : EagerStreamWriter} {s : UniStream}
    (h : w.stream = some s) {a : Nat × Bytes} (ha : a ∈ s.attempted) : a ∈ w.log := by
  simp only [log, streams, List.mem_flatMap]
  exact ⟨s, by simp [h], ha⟩

theorem Tracks.sound {w : EagerStreamWriter} {results : List Bool}
    {sent : List Bytes} (h : w.Tracks results sent) :
    ∀ s ∈ w.streams, s.Sound results := by
  intro s hs
  rcases List.mem_append.mp hs with hs | hs
  · exact h.closed s hs
  · have hstream : w.stream = some s := by simpa using hs
    exact UniStream.sound_of_eq (h.stream s hstream)
      fun a ha => (h.numbered a (mem_log_of_stream hstream ha)).1

theorem Tracks.of_log_eq {w w' : EagerStreamWriter} {results : List Bool}
    {sent : List Bytes} (h : w.Tracks results sent) (hlog : w'.log = w.log)
    (hclosed : ∀ s ∈ w'.closed, s.Sound results)
    (hstream : ∀ s, w'.stream = some s → s.bytes = UniStream.frames s.attempted) :
    w'.Tracks results sent where
  closed := hclosed
  stream := hstream
  numbered := by
    rw [hlog]
    exact h.numbered
  ordered := by
    rw [hlog]
    exact h.ordered
  found := by
    rw [hlog]
    exact h.found
  counted := h.counted

theorem Tracks.openStream {w : EagerStreamWriter} {results : List Bool}
    {sent : List Bytes} (h : w.Tracks results sent) (f : Faults) :
    (w.openStream f).Tracks results sent := by
  unfold EagerStreamWriter.openStream
  split
  · exact h
  · next hstream =>
      split
      · simp only
        split
        · next htyped =>
            refine h.of_log_eq (by simp [log, streams, hstream]) h.closed ?_
            rintro s ⟨⟩
            cases htype : f.type with
            | none => rfl
            | some n => simp [htype, write] at htyped
        · refine h.of_log_eq (by simp [log, streams, hstream]) ?_ h.stream
          intro s hs
          rcases List.mem_append.mp hs with hs | hs
          · exact h.closed s hs
          · rw [List.mem_singleton.mp hs]
            refine ⟨?_, by simp, by simp⟩
            cases f.type with
            | none => exact List.prefix_rfl
            | some n => exact List.take_prefix n _
      · exact h

theorem writeFrame_cases (w : EagerStreamWriter) (s : UniStream) (number : Nat)
    (msg : Bytes) (f : Faults) :
    w.writeFrame s number msg f = ({ w with
      stream := some ⟨s.bytes ++ eagerFrame msg, s.attempted ++ [(number, msg)]⟩ },
      true) ∨
    ∃ cut, cut <+: eagerFrame msg ∧
      w.writeFrame s number msg f =
        (⟨w.closed ++ [⟨s.bytes ++ cut, s.attempted ++ [(number, msg)]⟩], none⟩,
          false) := by
  -- the writes in turn: the header, then the message
  cases hheader : f.header with
  | some n =>
      refine .inr ⟨(putUint32 (UInt32.ofNat msg.length)).take n, ?_, ?_⟩
      · exact (List.take_prefix n _).trans (List.prefix_append _ _)
      · simp [writeFrame, write, hheader]
  | none =>
      cases hbody : f.body with
      | some n =>
          refine .inr ⟨putUint32 (UInt32.ofNat msg.length) ++ msg.take n, ?_, ?_⟩
          · rw [eagerFrame, List.prefix_append_right_inj]
            exact List.take_prefix n msg
          · simp [writeFrame, write, hheader, hbody]
      | none =>
          refine .inl ?_
          simp [writeFrame, write, hheader, hbody, eagerFrame]

theorem Tracks.failed {w : EagerStreamWriter} {results : List Bool}
    {sent : List Bytes} (h : w.Tracks results sent) (msg : Bytes) :
    w.Tracks (results ++ [false]) (sent ++ [msg]) where
  closed := fun s hs => (h.closed s hs).snoc false
  stream := h.stream
  numbered := by
    intro a ha
    obtain ⟨hlt, hsent⟩ := h.numbered a ha
    refine ⟨by simp; omega, ?_⟩
    rw [List.getElem?_append_left (by rw [h.counted]; exact hlt)]
    exact hsent
  ordered := h.ordered
  found := by
    intro j hj
    rcases getElem?_snoc_eq_some hj with hj | ⟨-, hfalse⟩
    · exact h.found j hj
    · cases hfalse
  counted := by simp [h.counted]

private theorem Tracks.attempted {w w' : EagerStreamWriter} {results : List Bool}
    {sent : List Bytes} (h : w.Tracks results sent) (msg : Bytes) (result : Bool)
    (hlog : w'.log = w.log ++ [(results.length, msg)])
    (hclosed : ∀ s ∈ w'.closed, s.Sound (results ++ [result]))
    (hstream : ∀ s, w'.stream = some s → s.bytes = UniStream.frames s.attempted) :
    w'.Tracks (results ++ [result]) (sent ++ [msg]) where
  closed := hclosed
  stream := hstream
  numbered := by
    intro a ha
    rw [hlog] at ha
    rcases List.mem_append.mp ha with ha | ha
    · exact ((h.failed msg).numbered a ha).imp_left (by simp)
    · rw [List.mem_singleton.mp ha]
      simp [← h.counted]
  ordered := by
    rw [hlog, List.pairwise_append]
    refine ⟨h.ordered, by simp, ?_⟩
    intro a ha b hb
    rw [List.mem_singleton.mp hb]
    exact (h.numbered a ha).1
  found := by
    intro j hj
    rw [hlog]
    rcases getElem?_snoc_eq_some hj with hj | ⟨hlast, -⟩
    · obtain ⟨a, ha, haj⟩ := h.found j hj
      exact ⟨a, List.mem_append_left _ ha, haj⟩
    · exact ⟨(results.length, msg), by simp, hlast.symm⟩
  counted := by simp [h.counted]

private theorem Tracks.writeFrame {w : EagerStreamWriter} {results : List Bool}
    {sent : List Bytes} (h : w.Tracks results sent) {s : UniStream}
    (hs : w.stream = some s) (msg : Bytes) (f : Faults) :
    (w.writeFrame s results.length msg f).1.Tracks
      (results ++ [(w.writeFrame s results.length msg f).2]) (sent ++ [msg]) := by
  have hbytes := h.stream s hs
  have hknown : ∀ a ∈ s.attempted, a.1 < results.length :=
    fun a ha => (h.numbered a (mem_log_of_stream hs ha)).1
  rcases writeFrame_cases w s results.length msg f with hdone | ⟨cut, hcut, hdone⟩
  · rw [hdone]
    refine h.attempted msg true (by simp [log, streams, hs])
      (fun s' hs' => (h.closed s' hs').snoc true) ?_
    rintro s' ⟨⟩
    simp [UniStream.frames_append, hbytes]
  · rw [hdone]
    refine h.attempted msg false (by simp [log, streams, hs]) ?_ (by simp)
    intro s' hs'
    rcases List.mem_append.mp hs' with hs' | hs'
    · exact (h.closed s' hs').snoc false
    · rw [List.mem_singleton.mp hs']
      exact UniStream.sound_of_failed hbytes hknown hcut

theorem Tracks.send {w : EagerStreamWriter} {results : List Bool}
    {sent : List Bytes} (h : w.Tracks results sent) (msg : Bytes) (f : Faults) :
    (w.send results.length msg f).1.Tracks
      (results ++ [(w.send results.length msg f).2]) (sent ++ [msg]) := by
  have hopen := h.openStream f
  unfold EagerStreamWriter.send
  simp only
  split
  · exact hopen.failed msg
  · next s hs => exact hopen.writeFrame hs msg f

private theorem Tracks.close {w : EagerStreamWriter} {results : List Bool}
    {sent : List Bytes} (h : w.Tracks results sent) :
    w.close.Tracks results sent := by
  have hlog : w.close.log = w.log := by
    simp [log, streams, EagerStreamWriter.close]
  exact h.of_log_eq hlog h.sound (by simp [EagerStreamWriter.close])

end EagerStreamWriter

def sentEntries (calls : List WriterCall) : List GossipEntry :=
  calls.filterMap WriterCall.entry

theorem writerRun_tracks (calls : List WriterCall) :
    (writerRun calls).1.Tracks (writerRun calls).2
      ((sentEntries calls).map encodeEagerMessage) := by
  induction calls using List.reverseRecOn with
  | nil =>
      refine ⟨?_, ?_, ?_, ?_, ?_, rfl⟩ <;>
        simp [writerRun, EagerStreamWriter.new, EagerStreamWriter.log,
          EagerStreamWriter.streams]
  | append_singleton calls call ih =>
      have hrun : writerRun (calls ++ [call]) = writerStep (writerRun calls) call := by
        simp [writerRun]
      rw [hrun]
      cases call with
      | send entry faults =>
          have hsend := ih.send (encodeEagerMessage entry) faults
          simpa [writerStep, sentEntries, WriterCall.entry] using hsend
      | close =>
          have hclose := ih.close
          simpa [writerStep, sentEntries, WriterCall.entry, List.filterMap_cons]
            using hclose

/-! ## Both ends of a stream -/

theorem dispatchUniStream_frames {received : Bytes} {attempted : List (Nat × Bytes)}
    (hreceived : received <+: UniStream.frames attempted)
    (hlen : ∀ a ∈ attempted, a.2.length < 2 ^ 32) :
    ∃ m, InitialRun (attempted.map fun a => a.2) (received.length - 1) m ∧
      dispatchUniStream received = (attempted.take m).map fun a => stripType a.2 := by
  have hframes : (attempted.flatMap fun a => eagerFrame a.2) =
      (attempted.map fun a => a.2).flatMap eagerFrame := by
    rw [List.flatMap_map]
  have hmsgs : ∀ msg ∈ attempted.map fun a => a.2, msg.length < 2 ^ 32 := by
    intro msg hmsg
    obtain ⟨a, ha, rfl⟩ := List.mem_map.mp hmsg
    exact hlen a ha
  obtain ⟨m, hrun, hcalls⟩ := receiveEagerStream_take (attempted.map fun a => a.2)
    (received.length - 1) hmsgs
  rw [← List.map_take, List.map_map] at hcalls
  refine ⟨m, hrun, ?_⟩
  cases received with
  | nil => exact hcalls
  | cons streamType rest =>
      rw [UniStream.frames, List.cons_prefix_cons] at hreceived
      obtain ⟨rfl, hrest⟩ := hreceived
      rw [hframes] at hrest
      rw [List.length_cons, Nat.add_sub_cancel,
        ← List.prefix_iff_eq_take.mp hrest] at hcalls
      rw [dispatchUniStream, if_pos rfl, hcalls]
      rfl

theorem stream_unique {streams : List UniStream}
    (hordered : (streams.flatMap fun s => s.attempted).Pairwise fun a b => a.1 < b.1)
    {i k : Nat} {s t : UniStream} (hs : streams[i]? = some s) (ht : streams[k]? = some t)
    {a b : Nat × Bytes} (ha : a ∈ s.attempted) (hb : b ∈ t.attempted)
    (hab : a.1 = b.1) : i = k := by
  rw [List.pairwise_flatMap] at hordered
  have hpairs := List.pairwise_iff_getElem.mp hordered.2
  obtain ⟨hi, rfl⟩ := List.getElem?_eq_some_iff.mp hs
  obtain ⟨hk, rfl⟩ := List.getElem?_eq_some_iff.mp ht
  rcases lt_trichotomy i k with hlt | heq | hgt
  · have hless := hpairs i k hi hk hlt a ha b hb
    omega
  · exact heq
  · have hless := hpairs k i hk hi hgt b hb a ha
    omega

theorem log_sent {calls : List WriterCall} {a : Nat × Bytes}
    (ha : a ∈ (writerRun calls).1.log) :
    ∃ entry, (sentEntries calls)[a.1]? = some entry ∧
      a.2 = encodeEagerMessage entry := by
  have hnumber := ((writerRun_tracks calls).numbered a ha).2
  rw [List.getElem?_map, Option.map_eq_some_iff] at hnumber
  obtain ⟨entry, hentry, hmsg⟩ := hnumber
  exact ⟨entry, hentry, hmsg.symm⟩

private theorem decode_attempted {calls : List WriterCall} {attempted : List (Nat × Bytes)}
    (hlog : ∀ a ∈ attempted, a ∈ (writerRun calls).1.log) :
    (attempted.map fun a => stripType a.2).map decodeEagerMessage =
        (attempted.map fun a => (sentEntries calls)[a.1]?) ∧
      (attempted.map fun a => receiveDatagram a.2) =
        (attempted.map fun a => stripType a.2).map some := by
  constructor
  · rw [List.map_map]
    apply List.map_congr_left
    intro a ha
    obtain ⟨entry, hentry, hmsg⟩ := log_sent (hlog a ha)
    rw [Function.comp_apply, hmsg, stripType_encode, decodeEagerMessage_encode,
      hentry]
  · rw [List.map_map]
    apply List.map_congr_left
    intro a ha
    obtain ⟨entry, hentry, hmsg⟩ := log_sent (hlog a ha)
    rw [Function.comp_apply, hmsg, stripType_encode, receiveDatagram_encode]

private theorem acked_once {calls : List WriterCall} {j : Nat} {entry : GossipEntry}
    (hentry : (sentEntries calls)[j]? = some entry)
    (hok : (writerRun calls).2[j]? = some true) :
    ∃! k : Nat, ∃ (s : UniStream) (before after : List (Nat × Bytes)),
      (writerRun calls).1.streams[k]? = some s ∧
      s.attempted = before ++ (j, encodeEagerMessage entry) :: after ∧
      UniStream.frames (before ++ [(j, encodeEagerMessage entry)]) <+: s.bytes := by
  have h := writerRun_tracks calls
  obtain ⟨a, ha, rfl⟩ := h.found j hok
  obtain ⟨entry', hentry', hmsg⟩ := log_sent ha
  rw [hentry] at hentry'
  cases hentry'
  obtain ⟨s, hs, has⟩ := List.mem_flatMap.mp ha
  obtain ⟨k, hk⟩ := List.getElem?_of_mem hs
  obtain ⟨before, after, hsplit⟩ := List.append_of_mem has
  have ha' : a = (a.1, encodeEagerMessage entry) := by rw [← hmsg]
  rw [ha'] at hsplit
  refine ⟨k, ⟨s, before, after, hk, hsplit, ?_⟩, ?_⟩
  · exact (h.sound s hs).acked before _ after hsplit hok
  · rintro k' ⟨t, before', after', ht, hsplit', -⟩
    have hat : a ∈ t.attempted := by
      rw [hsplit', ← ha']
      simp
    exact stream_unique h.ordered ht hk hat has rfl

/--
Both ends of the eager streams of one writer, over every run of its calls and
every fault of the transport.  A stream holds sends of the run in their order;
whatever prefix of it arrives, the handler is called on the messages whole in
it, up to the first above the limit, and each decodes to the entry that was
sent, as its datagram would have.  A message whose send returned nil is whole
on one stream only.
-/
theorem eagerStreams_synchronised (calls : List WriterCall)
    (hlen : ∀ entry ∈ sentEntries calls,
      (encodeEagerMessage entry).length < 2 ^ 32) :
    (∀ s ∈ (writerRun calls).1.streams,
      s.attempted.Pairwise (fun a b => a.1 < b.1) ∧
      (∀ a ∈ s.attempted,
        (sentEntries calls)[a.1]?.map encodeEagerMessage = some a.2) ∧
      ∀ received, received <+: s.bytes →
        ∃ m, InitialRun (s.attempted.map fun a => a.2) (received.length - 1) m ∧
          dispatchUniStream received =
            ((s.attempted.take m).map fun a => stripType a.2) ∧
          (dispatchUniStream received).map decodeEagerMessage =
            ((s.attempted.take m).map fun a => (sentEntries calls)[a.1]?) ∧
          ((s.attempted.take m).map fun a => receiveDatagram a.2) =
            (dispatchUniStream received).map some) ∧
    ∀ j entry, (sentEntries calls)[j]? = some entry →
      (writerRun calls).2[j]? = some true →
      ∃! k : Nat, ∃ (s : UniStream) (before after : List (Nat × Bytes)),
        (writerRun calls).1.streams[k]? = some s ∧
        s.attempted = before ++ (j, encodeEagerMessage entry) :: after ∧
        UniStream.frames (before ++ [(j, encodeEagerMessage entry)]) <+: s.bytes := by
  have h := writerRun_tracks calls
  refine ⟨fun s hs => ?_, fun j entry hentry hok => acked_once hentry hok⟩
  have hlog : ∀ a ∈ s.attempted, a ∈ (writerRun calls).1.log :=
    fun a ha => List.mem_flatMap.mpr ⟨s, hs, ha⟩
  refine ⟨(List.pairwise_flatMap.mp h.ordered).1 s hs, ?_, ?_⟩
  · intro a ha
    obtain ⟨entry, hentry, hmsg⟩ := log_sent (hlog a ha)
    simp [hentry, hmsg]
  · intro received hreceived
    have hshort : ∀ a ∈ s.attempted, a.2.length < 2 ^ 32 := by
      intro a ha
      obtain ⟨entry, hentry, hmsg⟩ := log_sent (hlog a ha)
      rw [hmsg]
      exact hlen entry (List.mem_of_getElem? hentry)
    obtain ⟨m, hrun, hcalls⟩ := dispatchUniStream_frames
      (hreceived.trans (h.sound s hs).framed) hshort
    obtain ⟨hdecoded, hdatagrams⟩ := decode_attempted
      fun a ha => hlog a (List.mem_of_mem_take ha)
    refine ⟨m, hrun, hcalls, ?_, ?_⟩
    · rw [hcalls]
      exact hdecoded
    · rw [hcalls]
      exact hdatagrams

def reopened : List WriterCall :=
  -- a header cut after two bytes, then a send on a new stream
  [.send ⟨1, 1, [7]⟩ ⟨true, none, some 2, none⟩,
    .send ⟨1, 2, [8]⟩ ⟨true, none, none, none⟩]

theorem eagerStreams_synchronised_reopened :
    (∀ entry ∈ sentEntries reopened, (encodeEagerMessage entry).length < 2 ^ 32) ∧
    (sentEntries reopened)[1]? = some ⟨1, 2, [8]⟩ ∧
    (writerRun reopened).2[1]? = some true ∧
    ∃! k : Nat, ∃ (s : UniStream) (before after : List (Nat × Bytes)),
      (writerRun reopened).1.streams[k]? = some s ∧
      s.attempted = before ++ (1, encodeEagerMessage ⟨1, 2, [8]⟩) :: after ∧
      UniStream.frames (before ++ [(1, encodeEagerMessage ⟨1, 2, [8]⟩)]) <+: s.bytes :=
  ⟨by decide, rfl, rfl,
    (eagerStreams_synchronised reopened (by decide)).2 1 ⟨1, 2, [8]⟩ rfl rfl⟩

end GossipMesh.Engine
