import GossipMesh.Transport.Dispatch
import GossipMesh.Relay.Relay

/-!
# What one node writes and another hears

Everything the nodes of a mesh send each other, as the bytes on the wire, and
what the receiving node makes of them: the transport picks a handler and the
handler parses.  A stream may be cut anywhere, by a write that failed or a
connection that ended; a datagram arrives whole or not at all.
-/

namespace GossipMesh.Wire

open GossipMesh.Foundation GossipMesh.Engine GossipMesh.Cluster GossipMesh.Transport
open GossipMesh.Relay

inductive Service where
  | onEagerReceive
  | onLazyBatchReceive
  | handleRequest
  | receiveEagerStream
  | handleRelay
  | application (n : Nat)
  deriving DecidableEq

inductive Event where
  | entry (entry : GossipEntry)
  | batch (batch : LazyBatch)
  | request (key : TopicSeq)
  | relay (target : Bytes)
  | application (n : Nat) (data : Bytes)

def Service.parse (z : Zstd) : Service → Bytes → List Event
  | .onEagerReceive, data => ((decodeEagerMessage data).map Event.entry).toList
  | .onLazyBatchReceive, r =>
      match readLazyBatch z r with
      | .error _ => []
      | .ok batch => [.batch batch]
  | .handleRequest, stream =>
      if stream.length < 10 then [] else [.request ⟨uint16 stream, uint64 (stream.drop 2)⟩]
  | .receiveEagerStream, r =>
      (Engine.receiveEagerStream r).filterMap fun data =>
        (decodeEagerMessage data).map Event.entry
  | .handleRelay, stream => ((readTarget stream).map fun request => Event.relay request.1).toList
  | .application n, data => [.application n data]

/-- `New` of the engine, then `NewServer` of the relay. -/
def registrations : List (Registration Service) :=
  [.setHandlers (some .onEagerReceive) (some .onLazyBatchReceive) (some .handleRequest),
    .uni streamTypeEagerStream .receiveEagerStream,
    .bidi streamTypeRelay .handleRelay]

def node (more : List (Registration Service)) : Handlers Service :=
  Handlers.none.registerAll (registrations ++ more)

/-- A registration that leaves the mesh's own types alone. -/
def Apart : Registration Service → Prop
  | .setHandlers _ _ _ => False
  | .bidi typeByte _ => typeByte ≠ streamTypeRelay
  | .uni typeByte _ => typeByte ≠ streamTypeEagerStream
  | .datagram _ _ => True

inductive Sent where
  | eagerDatagram (entry : GossipEntry)
  | eagerStream (entries : List GossipEntry)
  | lazyBatch (batch : LazyBatch)
  | repairRequest (topic : UInt16) (seq : UInt64)
  | relayRequest (target : Bytes)

namespace Sent

def wire (z : Zstd) : Sent → Bytes
  | .eagerDatagram entry => encodeEagerMessage entry
  | .eagerStream entries =>
      streamTypeEagerStream :: entries.flatMap fun entry => eagerFrame (encodeEagerMessage entry)
  | .lazyBatch batch => streamTypeLazyBatch :: writeLazyBatch z batch
  | .repairRequest topic seq => Engine.repairRequest topic seq
  | .relayRequest target => relayHeader target

def events : Sent → List Event
  | .eagerDatagram entry => [.entry entry]
  | .eagerStream entries => entries.map Event.entry
  | .lazyBatch batch => [.batch batch]
  | .repairRequest topic seq => [.request ⟨topic, seq⟩]
  | .relayRequest target => [.relay target]

def Fits (z : Zstd) : Sent → Prop
  | .eagerStream entries => ∀ entry ∈ entries, (encodeEagerMessage entry).length ≤ maxFrame
  | .lazyBatch batch => batch.Fits z
  | .relayRequest target => target ≠ [] ∧ target.length ≤ 255
  | _ => True

end Sent

/-! ## Writing -/

def sendLazyBatch (z : Zstd) (batch : LazyBatch) (typeFault lenFault bodyFault : Option Nat) :
    Bytes × Bool :=
  let typed := write typeFault [streamTypeLazyBatch]
  if typed.2 then
    let compressed := encodeLazyBatch z batch
    let len := write lenFault (putUint32 (UInt32.ofNat compressed.length))
    if len.2 then
      let body := write bodyFault compressed
      (typed.1 ++ len.1 ++ body.1, body.2)
    else (typed.1 ++ len.1, false)
  else (typed.1, false)

/--
The bytes its sender gets onto the stream.  An eager stream is one that a writer
opened in a run of its calls, and a request is a single write.
-/
inductive Writes (z : Zstd) : Sent → Bytes → Prop
  | eagerStream (calls : List WriterCall) (stream : UniStream) (entries : List GossipEntry)
      (hstream : stream ∈ (writerRun calls).1.streams)
      (hentries : stream.attempted.map Prod.snd = entries.map encodeEagerMessage) :
      Writes z (.eagerStream entries) stream.bytes
  | lazyBatch (batch : LazyBatch) (typeFault lenFault bodyFault : Option Nat) :
      Writes z (.lazyBatch batch) (sendLazyBatch z batch typeFault lenFault bodyFault).1
  | repairRequest (topic : UInt16) (seq : UInt64) (fault : Option Nat) :
      Writes z (.repairRequest topic seq) (write fault (Engine.repairRequest topic seq)).1
  | relayRequest (target : Bytes) (fault : Option Nat) :
      Writes z (.relayRequest target) (write fault (relayHeader target)).1

private theorem sendLazyBatch_initial (z : Zstd) (batch : LazyBatch)
    (typeFault lenFault bodyFault : Option Nat) :
    (sendLazyBatch z batch typeFault lenFault bodyFault).1 <+:
      streamTypeLazyBatch :: writeLazyBatch z batch := by
  have hwire : streamTypeLazyBatch :: writeLazyBatch z batch =
      [streamTypeLazyBatch] ++
        (putUint32 (UInt32.ofNat (encodeLazyBatch z batch).length) ++
          encodeLazyBatch z batch) := rfl
  rw [hwire]
  unfold sendLazyBatch
  dsimp only
  split
  · next htyped =>
      rw [write_of_ok htyped]
      split
      · next hlen =>
          rw [write_of_ok hlen, List.append_assoc]
          exact (List.prefix_append_right_inj _).mpr
            ((List.prefix_append_right_inj _).mpr (write_initial _ _))
      · exact (List.prefix_append_right_inj _).mpr
          ((write_initial _ _).trans (List.prefix_append _ _))
  · exact (write_initial _ _).trans (List.prefix_append _ _)

private theorem writes_initial {z : Zstd} {s : Sent} {written : Bytes} (h : Writes z s written) :
    written <+: s.wire z := by
  cases h with
  | eagerStream calls stream entries hstream hentries =>
      have hframed := ((writerRun_tracks calls).sound stream hstream).framed
      have hwire : UniStream.frames stream.attempted = (Sent.eagerStream entries).wire z := by
        have hattempted : (stream.attempted.flatMap fun a => eagerFrame a.2) =
            (stream.attempted.map Prod.snd).flatMap eagerFrame := by
          rw [List.flatMap_map]
        rw [UniStream.frames, hattempted, hentries, List.flatMap_map]
        rfl
      rwa [hwire] at hframed
  | lazyBatch batch => exact sendLazyBatch_initial z batch _ _ _
  | repairRequest | relayRequest => exact write_initial _ _

namespace Sent

def Arrives (z : Zstd) (bytes : Bytes) : Sent → Prop
  | .eagerDatagram entry => bytes = encodeEagerMessage entry
  | s => ∃ written, Writes z s written ∧ bytes <+: written

theorem arrives_initial {z : Zstd} {bytes : Bytes} {s : Sent} (h : s.Arrives z bytes) :
    bytes <+: s.wire z := by
  cases s with
  | eagerDatagram entry => exact h ▸ List.prefix_rfl
  | eagerStream | lazyBatch | repairRequest | relayRequest =>
      obtain ⟨written, hwrites, hbytes⟩ := h
      exact hbytes.trans (writes_initial hwrites)

/-! ## Hearing -/

def dispatch (t : Handlers Service) (stream : Inbound) : Sent → Option (Service × Bytes)
  | .eagerDatagram _ => t.receiveDatagram stream.bytes
  | .eagerStream _ | .lazyBatch _ => t.dispatchUniStream stream.bytes
  | .repairRequest _ _ | .relayRequest _ => t.dispatchBidiStream stream

def heard (z : Zstd) (t : Handlers Service) (stream : Inbound) (s : Sent) : List Event :=
  match s.dispatch t stream with
  | none => []
  | some (service, bytes) => service.parse z bytes

end Sent

/-! ## Registrations -/

/-- The handlers of the mesh are in place. -/
structure Serves (t : Handlers Service) : Prop where
  eager : t.onEagerGossip = some .onEagerReceive
  lazy : t.onLazyBatch = some .onLazyBatchReceive
  repair : t.onRepair = some .handleRequest
  stream : t.uniHandlers streamTypeEagerStream = some .receiveEagerStream
  relay : t.bidiHandlers streamTypeRelay = some .handleRelay

theorem serves_register {t : Handlers Service} (ht : Serves t) {r : Registration Service}
    (hr : Apart r) : Serves (t.register r) := by
  cases r with
  | setHandlers => exact hr.elim
  | bidi typeByte h =>
      refine ⟨ht.eager, ht.lazy, ht.repair, ht.stream, ?_⟩
      exact (Function.update_of_ne hr.symm _ _).trans ht.relay
  | uni typeByte h =>
      refine ⟨ht.eager, ht.lazy, ht.repair, ?_, ht.relay⟩
      exact (Function.update_of_ne hr.symm _ _).trans ht.stream
  | datagram typeByte h => exact ⟨ht.eager, ht.lazy, ht.repair, ht.stream, ht.relay⟩

theorem serves_node {more : List (Registration Service)} (hmore : ∀ r ∈ more, Apart r) :
    Serves (node more) := by
  have hinit : Serves (Handlers.none.registerAll registrations) :=
    ⟨rfl, rfl, rfl, rfl, rfl⟩
  rw [node, Handlers.registerAll, List.foldl_append]
  exact List.foldlRecOn more Handlers.register hinit fun t ht r hr =>
    serves_register ht (hmore r hr)

def Foreign : Registration Service → Prop
  | .setHandlers _ _ _ => False
  | .bidi _ h | .uni _ h | .datagram _ h => ∃ n, h = .application n

/-- Beyond the handlers of the mesh there are only those of the application. -/
structure Confined (t : Handlers Service) : Prop extends Serves t where
  bidi : ∀ typeByte h, t.bidiHandlers typeByte = some h →
    h = .handleRelay ∨ ∃ n, h = .application n
  uni : ∀ typeByte h, typeByte ≠ streamTypeEagerStream → t.uniHandlers typeByte = some h →
    ∃ n, h = .application n
  datagram : ∀ typeByte h, t.datagramHandlers typeByte = some h → ∃ n, h = .application n

private theorem confined_register {t : Handlers Service} (ht : Confined t) {r : Registration Service}
    (hr : Apart r) (hforeign : Foreign r) : Confined (t.register r) := by
  have hserves := serves_register ht.toServes hr
  cases r with
  | setHandlers => exact hr.elim
  | bidi typeByte h =>
      refine ⟨hserves, fun b h' hb => ?_, ht.uni, ht.datagram⟩
      simp only [Handlers.register, Function.update_apply] at hb
      split at hb
      · cases hb
        exact .inr hforeign
      · exact ht.bidi b h' hb
  | uni typeByte h =>
      refine ⟨hserves, ht.bidi, fun b h' hne hb => ?_, ht.datagram⟩
      simp only [Handlers.register, Function.update_apply] at hb
      split at hb
      · cases hb
        exact hforeign
      · exact ht.uni b h' hne hb
  | datagram typeByte h =>
      refine ⟨hserves, ht.bidi, ht.uni, fun b h' hb => ?_⟩
      simp only [Handlers.register, Function.update_apply] at hb
      split at hb
      · cases hb
        exact hforeign
      · exact ht.datagram b h' hb

theorem confined_node {more : List (Registration Service)}
    (hmore : ∀ r ∈ more, Apart r ∧ Foreign r) : Confined (node more) := by
  have hinit : Confined (Handlers.none.registerAll registrations) := by
    refine ⟨⟨rfl, rfl, rfl, rfl, rfl⟩, fun b h hb => ?_, fun b h hne hb => ?_, nofun⟩
    · simp only [Handlers.registerAll, registrations, List.foldl_cons, List.foldl_nil,
        Handlers.register, Handlers.none, Function.update_apply] at hb
      split at hb
      · cases hb
        exact .inl rfl
      · cases hb
    · simp only [Handlers.registerAll, registrations, List.foldl_cons, List.foldl_nil,
        Handlers.register, Handlers.none, Function.update_apply, if_neg hne] at hb
      cases hb
  rw [node, Handlers.registerAll, List.foldl_append]
  exact List.foldlRecOn more Handlers.register hinit fun t ht r hr =>
    confined_register ht (hmore r hr).1 (hmore r hr).2

/-! ## The dispatch of the engine and of the cluster -/

def passedTo (service : Service) (call : Option (Service × Bytes)) : Option Bytes :=
  call.bind fun c => if c.1 = service then some c.2 else none

section Agree

variable {t : Handlers Service} (ht : Confined t) (bytes : Bytes)

include ht

theorem receiveDatagram_agrees :
    Engine.receiveDatagram bytes = passedTo .onEagerReceive (t.receiveDatagram bytes) := by
  cases bytes with
  | nil => rfl
  | cons msgType data =>
      simp only [Engine.receiveDatagram, Handlers.receiveDatagram]
      split
      · simp [passedTo, ht.eager]
      · cases hh : t.datagramHandlers msgType with
        | none => rfl
        | some h =>
            obtain ⟨n, rfl⟩ := ht.datagram msgType h hh
            rfl

theorem dispatchRepair_agrees (clean : Bool) :
    dispatchRepair bytes =
      passedTo .handleRequest (t.dispatchBidiStream ⟨bytes, clean⟩) := by
  cases bytes with
  | nil => rfl
  | cons streamType rest =>
      simp only [dispatchRepair, Handlers.dispatchBidiStream]
      split
      · simp [passedTo, ht.repair]
      · split
        · cases clean <;> simp [passedTo, ht.eager]
        · cases hh : t.bidiHandlers streamType with
          | none => rfl
          | some h =>
              rcases ht.bidi streamType h hh with rfl | ⟨n, rfl⟩
              · rfl
              · rfl

private theorem dispatchUniStream_agrees :
    Engine.dispatchUniStream bytes =
      ((passedTo .receiveEagerStream (t.dispatchUniStream bytes)).map
        Engine.receiveEagerStream).getD [] := by
  cases bytes with
  | nil => rfl
  | cons streamType rest =>
      simp only [Engine.dispatchUniStream, Handlers.dispatchUniStream]
      split
      · next heager =>
          subst heager
          rw [if_neg (by decide)]
          simp [passedTo, ht.stream]
      · next hne =>
          split
          · simp [passedTo, ht.lazy]
          · cases hh : t.uniHandlers streamType with
            | none => rfl
            | some h =>
                obtain ⟨n, rfl⟩ := ht.uni streamType h hne hh
                rfl

private theorem onUniStream_agrees (z : Zstd) (n : Node) (sender : String) :
    n.onUniStream z sender bytes =
      match t.dispatchUniStream bytes with
      | some (.onLazyBatchReceive, rest) => n.onLazyStream z sender rest
      | some (.receiveEagerStream, rest) => n.onEagerStream sender rest
      | _ => n := by
  cases bytes with
  | nil => rfl
  | cons streamType rest =>
      simp only [Node.onUniStream, Handlers.dispatchUniStream]
      split
      · simp [ht.lazy]
      · split
        · next heager =>
            subst heager
            simp [ht.stream]
        · next hne =>
            cases hh : t.uniHandlers streamType with
            | none => rfl
            | some h =>
                obtain ⟨n, rfl⟩ := ht.uni streamType h hne hh
                rfl

end Agree

/--
What the models of the engine and of the cluster take for the dispatch of the
transport is the part of it that concerns them, on every node whose application
has registered handlers of its own.
-/
theorem dispatch_agrees {more : List (Registration Service)}
    (hmore : ∀ r ∈ more, Apart r ∧ Foreign r) (z : Zstd) (n : Node) (sender : String)
    (bytes : Bytes) (clean : Bool) :
    Engine.receiveDatagram bytes =
        passedTo .onEagerReceive ((node more).receiveDatagram bytes) ∧
      dispatchRepair bytes =
        passedTo .handleRequest ((node more).dispatchBidiStream ⟨bytes, clean⟩) ∧
      Engine.dispatchUniStream bytes =
        ((passedTo .receiveEagerStream ((node more).dispatchUniStream bytes)).map
          Engine.receiveEagerStream).getD [] ∧
      n.onUniStream z sender bytes =
        match (node more).dispatchUniStream bytes with
        | some (.onLazyBatchReceive, rest) => n.onLazyStream z sender rest
        | some (.receiveEagerStream, rest) => n.onEagerStream sender rest
        | _ => n := by
  have ht := confined_node hmore
  exact ⟨receiveDatagram_agrees ht bytes, dispatchRepair_agrees ht bytes clean,
    dispatchUniStream_agrees ht bytes, onUniStream_agrees ht bytes z n sender⟩

/-! ## Each kind of traffic -/

variable {z : Zstd} {t : Handlers Service}

/-- Part of what was sent was heard; all of it, if all of it arrived. -/
def Faithful (z : Zstd) (s : Sent) (bytes : Bytes) (events : List Event) : Prop :=
  events <+: s.events ∧ (bytes = s.wire z → events = s.events)

theorem faithful_of_eq {s : Sent} {bytes : Bytes} {events : List Event}
    (h : events = s.events) : Faithful z s bytes events :=
  ⟨h ▸ List.prefix_rfl, fun _ => h⟩

theorem faithful_of_cut {s : Sent} {bytes : Bytes} (h : bytes ≠ s.wire z) :
    Faithful z s bytes [] :=
  ⟨List.nil_prefix, fun heq => absurd heq h⟩

theorem heard_eagerDatagram (ht : Serves t) (entry : GossipEntry) (clean : Bool) :
    (Sent.eagerDatagram entry).heard z t ⟨encodeEagerMessage entry, clean⟩ = [.entry entry] := by
  have hdispatch : t.receiveDatagram (encodeEagerMessage entry) =
      some (.onEagerReceive, (encodeEagerMessage entry).tail) := by
    simp [Handlers.receiveDatagram, encodeEagerMessage, ht.eager]
  simp [Sent.heard, Sent.dispatch, hdispatch, Service.parse, decodeEagerMessage_encode]

private theorem filterMap_decode (entries : List GossipEntry) :
    ((entries.map encodeEagerMessage).map stripType).filterMap
        (fun data => (decodeEagerMessage data).map Event.entry) =
      entries.map Event.entry := by
  induction entries with
  | nil => rfl
  | cons entry entries ih => simp_all [decodeEagerMessage_encode]

theorem faithful_eagerStream (ht : Serves t) {entries : List GossipEntry} {bytes : Bytes}
    (hfits : (Sent.eagerStream entries).Fits z)
    (harrives : (Sent.eagerStream entries).Arrives z bytes) (clean : Bool) :
    Faithful z (.eagerStream entries) bytes
      ((Sent.eagerStream entries).heard z t ⟨bytes, clean⟩) := by
  cases bytes with
  | nil => exact faithful_of_cut nofun
  | cons typeByte rest =>
      obtain ⟨rfl, hrest⟩ := List.cons_prefix_cons.mp (Sent.arrives_initial harrives)
      have hdispatch : t.dispatchUniStream (streamTypeEagerStream :: rest) =
          some (.receiveEagerStream, rest) := by
        rw [Handlers.dispatchUniStream, if_neg (by decide), ht.stream]
        rfl
      have hheard : (Sent.eagerStream entries).heard z t ⟨streamTypeEagerStream :: rest, clean⟩ =
          (receiveEagerStream rest).filterMap
            fun data => (decodeEagerMessage data).map Event.entry := by
        simp [Sent.heard, Sent.dispatch, hdispatch, Service.parse]
      have hframes : (entries.flatMap fun entry => eagerFrame (encodeEagerMessage entry)) =
          (entries.map encodeEagerMessage).flatMap eagerFrame := by
        rw [List.flatMap_map]
      have hsmall : ∀ msg ∈ entries.map encodeEagerMessage, msg.length ≤ maxFrame := by
        intro msg hmsg
        obtain ⟨entry, hentry, rfl⟩ := List.mem_map.mp hmsg
        exact hfits entry hentry
      have hlen : ∀ msg ∈ entries.map encodeEagerMessage, msg.length < 2 ^ 32 := by
        intro msg hmsg
        have hle := hsmall msg hmsg
        unfold maxFrame at hle
        omega
      rw [hframes] at hrest
      obtain ⟨m, hrun, hcalls⟩ := receiveEagerStream_take (entries.map encodeEagerMessage)
        rest.length hlen
      rw [← List.prefix_iff_eq_take.mp hrest, ← List.map_take] at hcalls
      rw [hheard, hcalls, filterMap_decode]
      refine ⟨List.IsPrefix.map _ (List.take_prefix m entries), fun heq => ?_⟩
      -- all the bytes are there, so no message is cut or too large
      have hall : rest = (entries.map encodeEagerMessage).flatMap eagerFrame := by
        rw [← hframes]
        exact (List.cons.inj heq).2
      have hm : entries.length ≤ m := by
        simpa using hrun.length_le hsmall (by rw [hall])
      rw [List.take_of_length_le hm]
      rfl

private theorem readLazyBatch_cut {batch : LazyBatch} {bytes : Bytes} (hfits : batch.Fits z)
    (hcut : bytes <+: writeLazyBatch z batch) (hne : bytes ≠ writeLazyBatch z batch) :
    readLazyBatch z bytes = .error .unexpectedEOF := by
  have hframe := hfits.frame
  have hsize : (UInt32.ofNat (encodeLazyBatch z batch).length).toNat =
      (encodeLazyBatch z batch).length := by
    rw [UInt32.toNat_ofNat']
    unfold maxFrame at hframe
    omega
  have hshort : bytes.length < 4 + (encodeLazyBatch z batch).length := by
    have hle := hcut.length_le
    have hlen : bytes.length ≠ (writeLazyBatch z batch).length :=
      fun heq => hne (hcut.eq_of_length heq)
    simp only [writeLazyBatch, List.length_append, putUint32_length] at hle hlen
    omega
  unfold readLazyBatch
  split
  · rfl
  · next hheader =>
      have hword : uint32 bytes = UInt32.ofNat (encodeLazyBatch z batch).length := by
        have htake : bytes.take 4 = (writeLazyBatch z batch).take 4 := by
          rw [List.prefix_iff_eq_take.mp hcut, List.take_take, Nat.min_eq_left (by omega)]
        rw [uint32, htake]
        exact uint32_append _ _
      simp only [hword, hsize]
      rw [if_neg (by omega), if_pos (by simp; omega)]

theorem faithful_lazyBatch (ht : Serves t) {batch : LazyBatch} {bytes : Bytes}
    (hfits : batch.Fits z) (harrives : (Sent.lazyBatch batch).Arrives z bytes) (clean : Bool) :
    Faithful z (.lazyBatch batch) bytes ((Sent.lazyBatch batch).heard z t ⟨bytes, clean⟩) := by
  cases bytes with
  | nil => exact faithful_of_cut nofun
  | cons typeByte rest =>
      obtain ⟨rfl, hrest⟩ := List.cons_prefix_cons.mp (Sent.arrives_initial harrives)
      have hheard : (Sent.lazyBatch batch).heard z t ⟨streamTypeLazyBatch :: rest, clean⟩ =
          Service.onLazyBatchReceive.parse z rest := by
        simp [Sent.heard, Sent.dispatch, Handlers.dispatchUniStream, ht.lazy]
      rw [hheard, Service.parse]
      by_cases hall : rest = writeLazyBatch z batch
      · have hread := readLazyBatch_write z batch [] hfits
        rw [List.append_nil] at hread
        rw [hall, hread]
        exact faithful_of_eq rfl
      · rw [readLazyBatch_cut hfits hrest hall]
        exact faithful_of_cut fun heq => hall (List.cons.inj heq).2

private theorem faithful_repairRequest (ht : Serves t) {topic : UInt16} {seq : UInt64} {bytes : Bytes}
    (harrives : (Sent.repairRequest topic seq).Arrives z bytes) (clean : Bool) :
    Faithful z (.repairRequest topic seq) bytes
      ((Sent.repairRequest topic seq).heard z t ⟨bytes, clean⟩) := by
  cases bytes with
  | nil => exact faithful_of_cut nofun
  | cons typeByte rest =>
      obtain ⟨rfl, hrest⟩ := List.cons_prefix_cons.mp (Sent.arrives_initial harrives)
      have hheard : (Sent.repairRequest topic seq).heard z t ⟨streamTypeRepair :: rest, clean⟩ =
          Service.handleRequest.parse z rest := by
        simp [Sent.heard, Sent.dispatch, Handlers.dispatchBidiStream, ht.repair]
      rw [hheard, Service.parse]
      by_cases hall : rest = putUint16 topic ++ putUint64 seq
      · have hseq : (putUint16 topic ++ putUint64 seq).drop 2 = putUint64 seq :=
          List.drop_left' (putUint16_length _)
        rw [hall, if_neg (by simp), hseq, uint16_append, uint64_putUint64]
        exact faithful_of_eq rfl
      · have hshort : rest.length < 10 := by
          have hle := hrest.length_le
          have hlen : rest.length ≠ (putUint16 topic ++ putUint64 seq).length :=
            fun heq => hall (hrest.eq_of_length heq)
          simp only [List.length_append, putUint16_length, putUint64_length] at hle hlen
          omega
        rw [if_pos hshort]
        exact faithful_of_cut fun heq => hall (List.cons.inj heq).2

private theorem faithful_relayRequest (ht : Serves t) {target bytes : Bytes}
    (hfits : target ≠ [] ∧ target.length ≤ 255)
    (harrives : (Sent.relayRequest target).Arrives z bytes) (clean : Bool) :
    Faithful z (.relayRequest target) bytes
      ((Sent.relayRequest target).heard z t ⟨bytes, clean⟩) := by
  cases bytes with
  | nil => exact faithful_of_cut nofun
  | cons typeByte rest =>
      obtain ⟨rfl, hrest⟩ := List.cons_prefix_cons.mp (Sent.arrives_initial harrives)
      have hdispatch : t.dispatchBidiStream ⟨streamTypeRelay :: rest, clean⟩ =
          some (.handleRelay, rest) := by
        simp only [Handlers.dispatchBidiStream]
        rw [if_neg (by decide), if_neg (by decide), ht.relay]
        rfl
      have hheard : (Sent.relayRequest target).heard z t ⟨streamTypeRelay :: rest, clean⟩ =
          Service.handleRelay.parse z rest := by
        simp [Sent.heard, Sent.dispatch, hdispatch]
      rw [hheard, Service.parse]
      by_cases hall : rest = (relayHeader target).tail
      · have hread : readTarget ((relayHeader target).tail ++ []) = some (target, []) :=
          readTarget_relayHeader hfits.1 hfits.2
        rw [List.append_nil] at hread
        rw [hall, hread]
        exact faithful_of_eq rfl
      · rw [readTarget_cut hfits.2 hrest hall]
        exact faithful_of_cut fun heq => hall (List.cons.inj heq).2

/--
Nothing on the wire is taken for something else.  Whatever a node sends within
the limits of the formats, cut anywhere, and whatever handlers the receiving
node's application has registered besides the mesh's own, the handler it is
meant for hears an initial part of what was said and no other handler hears
anything; if all of it arrives, all of it is heard.
-/
theorem heard_as_sent (z : Zstd) {more : List (Registration Service)}
    (hmore : ∀ r ∈ more, Apart r) {s : Sent} (hfits : s.Fits z) {bytes : Bytes}
    (harrives : s.Arrives z bytes) (clean : Bool) :
    s.heard z (node more) ⟨bytes, clean⟩ <+: s.events ∧
      (bytes = s.wire z → s.heard z (node more) ⟨bytes, clean⟩ = s.events) := by
  have ht := serves_node hmore
  cases s with
  | eagerDatagram entry =>
      obtain rfl : bytes = encodeEagerMessage entry := harrives
      exact faithful_of_eq (heard_eagerDatagram ht entry clean)
  | eagerStream entries => exact faithful_eagerStream ht hfits harrives clean
  | lazyBatch batch => exact faithful_lazyBatch ht hfits harrives clean
  | repairRequest topic seq => exact faithful_repairRequest ht harrives clean
  | relayRequest target => exact faithful_relayRequest ht hfits harrives clean

theorem heard_as_sent_shadowed :
    (Sent.relayRequest [98, 50]).heard .stored
        (node [.uni streamTypeLazyBatch (.application 0), .bidi streamTypeRepair (.application 1)])
        ⟨relayHeader [98, 50], false⟩ = [.relay [98, 50]] :=
  (heard_as_sent .stored (s := .relayRequest [98, 50]) (by simp [Apart, streamTypeRelay,
    streamTypeRepair, streamTypeLazyBatch, streamTypeEagerStream]) ⟨by decide, by decide⟩
    ⟨_, .relayRequest [98, 50] none, List.prefix_rfl⟩ false).2 rfl

end GossipMesh.Wire
