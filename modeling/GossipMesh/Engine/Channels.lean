import GossipMesh.Engine.Batch
import GossipMesh.Engine.OrderedSteps
import GossipMesh.Foundation.Channel

/-!
# The channels of the engine

The goroutines of all topics call the `deliver` callback of the engine, which
sends on `deliverCh` if there is room, drops the entry if not, and then counts
it.  The consumer reads from the channel beside them.

`Enqueue` sends on `localCh` and blocks while it is full; `Run` reads from it
until its context is cancelled.
-/

namespace GossipMesh.Engine

open GossipMesh.Foundation

/-! ## The consumer -/

structure DeliveredEntry where
  topic : UInt16
  seq : UInt64
  payload : Payload
  deriving DecidableEq

abbrev Goroutine := UInt16 × Nat

/--
`counting` holds the goroutines that have left the `select` of the callback, by
the send or by the default, and not counted yet.
-/
structure Delivery where
  topics : UInt16 → SlotThreads
  deliverCh : Channel DeliveredEntry
  dropped : List DeliveredEntry
  counting : List (Goroutine × Bool)
  deliverCount : Nat
  deliverDrop : Nat

inductive DeliveryLabel where
  | operate (topic : UInt16) (i : Nat) (choice : SlotChoice)
  | count (topic : UInt16) (i : Nat)
  | consume

def SlotPoint.delivering : SlotPoint → Option Numbered
  | .deliver seq payload | .deliverAhead seq payload => some (seq, payload)
  | _ => none

namespace Delivery

def start (deliverBufferSize : Nat) (nextSeq : UInt16 → UInt64)
    (calls : UInt16 → List SlotThreads.Call) : Delivery :=
  ⟨fun topic => .start (nextSeq topic) (calls topic), .new deliverBufferSize, [], [], 0, 0⟩

def callback (d : Delivery) (caller : Goroutine) (entry : DeliveredEntry) : Delivery :=
  match d.deliverCh.send entry with
  | some ch => { d with deliverCh := ch, counting := (caller, true) :: d.counting }
  | none =>
      { d with dropped := d.dropped ++ [entry], counting := (caller, false) :: d.counting }

def step (maxGapBuffer : Nat) (d : Delivery) : DeliveryLabel → Option Delivery
  | .operate topic i choice =>
      if (d.counting.lookup (topic, i)).isSome then none
      else
        (SlotThreads.step maxGapBuffer (d.topics topic) (i, choice)).map fun next =>
          let moved := { d with topics := Function.update d.topics topic next }
          match (d.topics topic).routines[i]?.bind SlotPoint.delivering with
          | some entry => moved.callback (topic, i) ⟨topic, entry.1, entry.2⟩
          | none => moved
  | .count topic i =>
      (d.counting.lookup (topic, i)).map fun sent =>
        let counting := d.counting.erase ((topic, i), sent)
        if sent then { d with counting := counting, deliverCount := d.deliverCount + 1 }
        else { d with counting := counting, deliverDrop := d.deliverDrop + 1 }
  | .consume => d.deliverCh.receive.map fun ch => { d with deliverCh := ch }

/-! ### Steps -/

inductive Moves (d : Delivery) : Delivery → Prop
  | silent (topic : UInt16) (next : SlotThreads)
      (hlog : next.memory.delivered = (d.topics topic).memory.delivered) :
      Moves d { d with topics := Function.update d.topics topic next }
  | sent (topic : UInt16) (i : Nat) (seq : UInt64) (payload : Payload) (next : SlotThreads)
      (ch : Channel DeliveredEntry)
      (hlog : next.memory.delivered = (d.topics topic).memory.delivered ++ [(seq, payload)])
      (hsend : d.deliverCh.send ⟨topic, seq, payload⟩ = some ch) :
      Moves d { d with
        topics := Function.update d.topics topic next
        deliverCh := ch
        counting := ((topic, i), true) :: d.counting }
  | dropped (topic : UInt16) (i : Nat) (seq : UInt64) (payload : Payload) (next : SlotThreads)
      (hlog : next.memory.delivered = (d.topics topic).memory.delivered ++ [(seq, payload)])
      (hsend : d.deliverCh.send ⟨topic, seq, payload⟩ = none) :
      Moves d { d with
        topics := Function.update d.topics topic next
        dropped := d.dropped ++ [⟨topic, seq, payload⟩]
        counting := ((topic, i), false) :: d.counting }
  | countSent (caller : Goroutine) (hmem : (caller, true) ∈ d.counting) :
      Moves d { d with
        counting := d.counting.erase (caller, true)
        deliverCount := d.deliverCount + 1 }
  | countDropped (caller : Goroutine) (hmem : (caller, false) ∈ d.counting) :
      Moves d { d with
        counting := d.counting.erase (caller, false)
        deliverDrop := d.deliverDrop + 1 }
  | consumed (ch : Channel DeliveredEntry) (hreceive : d.deliverCh.receive = some ch) :
      Moves d { d with deliverCh := ch }

end Delivery

private theorem Operates.delivered {maxGapBuffer : Nat} {m m' : SlotMemory} {p p' : SlotPoint}
    {c : SlotChoice} {new : List SlotPoint} (h : Operates maxGapBuffer m p c m' p' new) :
    m'.delivered = m.delivered ++ p.delivering.toList := by
  cases h <;> simp [SlotPoint.delivering, SlotMemory.deliver, SlotMemory.discard, SlotMemory.store]

namespace Delivery

variable {maxGapBuffer : Nat} {d e : Delivery}

private theorem mem_of_lookup {caller : Goroutine} {sent : Bool}
    (h : d.counting.lookup caller = some sent) : (caller, sent) ∈ d.counting := by
  obtain ⟨l₁, l₂, hsplit, -⟩ := List.lookup_eq_some_iff.mp h
  rw [hsplit]
  simp

theorem moves_of_step {l : DeliveryLabel} (h : d.step maxGapBuffer l = some e) : d.Moves e := by
  cases l with
  | operate topic i choice =>
      rw [step] at h
      split at h
      · cases h
      · obtain ⟨next, hnext, rfl⟩ := Option.map_eq_some_iff.mp h
        obtain ⟨before, p, after, p', new, hp, -, hmove, -⟩ := Threads.step_eq_some hnext
        have hlog := (operates_of_operate hmove).delivered
        rw [hp, Option.bind_some]
        cases hentry : p.delivering with
        | none =>
            rw [hentry] at hlog
            exact .silent topic next (by simpa using hlog)
        | some entry =>
            rw [hentry] at hlog
            dsimp only [callback]
            cases hsend : d.deliverCh.send ⟨topic, entry.1, entry.2⟩ with
            | some ch => exact .sent topic i entry.1 entry.2 next ch hlog hsend
            | none => exact .dropped topic i entry.1 entry.2 next hlog hsend
  | count topic i =>
      obtain ⟨sent, hsent, rfl⟩ := Option.map_eq_some_iff.mp h
      cases sent with
      | true => exact .countSent (topic, i) (mem_of_lookup hsent)
      | false => exact .countDropped (topic, i) (mem_of_lookup hsent)
  | consume =>
      obtain ⟨ch, hreceive, rfl⟩ := Option.map_eq_some_iff.mp h
      exact .consumed ch hreceive

/-! ### Accounts -/

def on (topic : UInt16) (entries : List DeliveredEntry) : List Numbered :=
  entries.filterMap fun e => if e.topic = topic then some (e.seq, e.payload) else none

@[simp] theorem on_append (topic : UInt16) (first second : List DeliveredEntry) :
    on topic (first ++ second) = on topic first ++ on topic second := by
  simp [on]

@[simp] theorem on_single (topic topic' : UInt16) (seq : UInt64) (payload : Payload) :
    on topic [⟨topic', seq, payload⟩] = if topic' = topic then [(seq, payload)] else [] := by
  by_cases h : topic' = topic <;> simp [on, h]

/-- The entries delivered were sent, in order, or dropped. -/
structure Kept (accepted dropped delivered : List Numbered) : Prop where
  order : accepted.Sublist delivered
  entries : (delivered : Multiset Numbered) = accepted + dropped

theorem Kept.sent {accepted dropped delivered : List Numbered}
    (h : Kept accepted dropped delivered) (entry : Numbered) :
    Kept (accepted ++ [entry]) dropped (delivered ++ [entry]) := by
  refine ⟨h.order.append_right [entry], ?_⟩
  rw [← Multiset.coe_add, ← Multiset.coe_add, h.entries]
  abel

theorem Kept.dropped {accepted dropped delivered : List Numbered}
    (h : Kept accepted dropped delivered) (entry : Numbered) :
    Kept accepted (dropped ++ [entry]) (delivered ++ [entry]) := by
  refine ⟨h.order.trans (List.sublist_append_left _ _), ?_⟩
  rw [← Multiset.coe_add, ← Multiset.coe_add, h.entries, add_assoc]

/-- Every entry is accounted for and is counted, or about to be. -/
structure Accounted (d : Delivery) : Prop where
  topics : ∀ topic, Kept (on topic d.deliverCh.accepted) (on topic d.dropped)
    (d.topics topic).memory.delivered
  sent : d.deliverCount + d.counting.countP (fun c => c.2) = d.deliverCh.accepted.length
  dropped : d.deliverDrop + d.counting.countP (fun c => !c.2) = d.dropped.length

theorem accounted_start (deliverBufferSize : Nat) (nextSeq : UInt16 → UInt64)
    (calls : UInt16 → List SlotThreads.Call) :
    Accounted (start deliverBufferSize nextSeq calls) :=
  ⟨fun _ => ⟨.slnil, rfl⟩, rfl, rfl⟩

private theorem add_countP_erase {counting : List (Goroutine × Bool)} {c : Goroutine × Bool}
    (hmem : c ∈ counting) (p : Goroutine × Bool → Bool) :
    (if p c then 1 else 0) + (counting.erase c).countP p = counting.countP p := by
  rw [(List.perm_cons_erase hmem).countP_eq, List.countP_cons, add_comm]

theorem Accounted.moves (hd : d.Accounted) (h : d.Moves e) : e.Accounted := by
  have hsent := hd.sent
  have hdropped := hd.dropped
  cases h with
  | silent topic next hlog =>
      refine ⟨fun topic' => ?_, hsent, hdropped⟩
      by_cases htopic : topic' = topic
      · subst htopic
        simpa [hlog] using hd.topics topic'
      · simpa [htopic] using hd.topics topic'
  | sent topic i seq payload next ch hlog hsend =>
      obtain ⟨-, haccepted, -⟩ := Channel.send_eq_some hsend
      refine ⟨fun topic' => ?_, ?_, by simpa using hdropped⟩
      · by_cases htopic : topic' = topic
        · subst htopic
          simpa [haccepted, hlog] using (hd.topics topic').sent (seq, payload)
        · simpa [haccepted, htopic, Ne.symm htopic] using hd.topics topic'
      · rw [haccepted, List.length_append, List.length_singleton, ← hsent]
        simp [add_assoc]
  | dropped topic i seq payload next hlog hsend =>
      refine ⟨fun topic' => ?_, by simpa using hsent, ?_⟩
      · by_cases htopic : topic' = topic
        · subst htopic
          simpa [hlog] using (hd.topics topic').dropped (seq, payload)
        · simpa [htopic, Ne.symm htopic] using hd.topics topic'
      · rw [List.length_append, List.length_singleton, ← hdropped]
        simp [add_assoc]
  | countSent caller hmem =>
      rw [← add_countP_erase hmem] at hsent hdropped
      exact ⟨hd.topics, by simpa [add_assoc] using hsent, by simpa using hdropped⟩
  | countDropped caller hmem =>
      rw [← add_countP_erase hmem] at hsent hdropped
      exact ⟨hd.topics, by simpa using hsent, by simpa [add_assoc] using hdropped⟩
  | consumed ch hreceive =>
      obtain ⟨-, haccepted⟩ := Channel.receive_eq_some hreceive
      exact ⟨by simpa [haccepted] using hd.topics, by simpa [haccepted] using hsent, hdropped⟩

theorem capacity_moves (h : d.Moves e) : e.deliverCh.capacity = d.deliverCh.capacity := by
  cases h with
  | sent topic i seq payload next ch hlog hsend => exact (Channel.send_eq_some hsend).1
  | consumed ch hreceive => exact (Channel.receive_eq_some hreceive).1
  | silent | dropped | countSent | countDropped => rfl

private theorem dropped_moves (h : d.Moves e)
    (hroom : d.deliverCh.buffer.length < d.deliverCh.capacity) :
    e.dropped = d.dropped := by
  cases h with
  | dropped topic i seq payload next hlog hsend =>
      have hsome := Channel.send_of_room (x := ⟨topic, seq, payload⟩) hroom
      rw [hsend] at hsome
      cases hsome
  | silent | sent | countSent | countDropped | consumed => rfl

def Roomy (maxGapBuffer : Nat) (d : Delivery) (labels : List DeliveryLabel) : Prop :=
  Along (step maxGapBuffer) (fun d _ => d.deliverCh.buffer.length < d.deliverCh.capacity) d labels

private theorem dropped_of_roomy {labels : List DeliveryLabel} (hroomy : Roomy maxGapBuffer d labels)
    (hdropped : d.dropped = []) (hrun : exec (step maxGapBuffer) d labels = some e) :
    e.dropped = [] :=
  exec_invariant_of_along (fun d => d.dropped = [])
    (fun _ _ _ hd hroom hstep => (dropped_moves (moves_of_step hstep) hroom).trans hd)
    hdropped hroomy hrun

/--
What the consumer reads on a topic is, in order, part of what the applier has
delivered; the rest is in the channel or was dropped, and the counters tell how
many of each.  While there is room in the channel, nothing is dropped.
-/
theorem consumer_reads_deliveries {deliverBufferSize : Nat} {nextSeq : UInt16 → UInt64}
    {calls : UInt16 → List SlotThreads.Call} {labels : List DeliveryLabel}
    (hrun : exec (step maxGapBuffer) (start deliverBufferSize nextSeq calls) labels = some d) :
    (∀ topic, (on topic d.deliverCh.received).Sublist (d.topics topic).memory.delivered ∧
      ((d.topics topic).memory.delivered : Multiset Numbered) =
        on topic d.deliverCh.received + on topic d.deliverCh.buffer + on topic d.dropped) ∧
    d.deliverCh.buffer.length ≤ deliverBufferSize ∧
    d.deliverCount + d.counting.countP (fun c => c.2) =
      d.deliverCh.received.length + d.deliverCh.buffer.length ∧
    d.deliverDrop + d.counting.countP (fun c => !c.2) = d.dropped.length ∧
    (Roomy maxGapBuffer (start deliverBufferSize nextSeq calls) labels → ∀ topic,
      (d.topics topic).memory.delivered =
        on topic d.deliverCh.received ++ on topic d.deliverCh.buffer) := by
  have hd : Accounted d := exec_invariant Accounted
    (fun _ _ _ hd hstep => hd.moves (moves_of_step hstep))
    (accounted_start deliverBufferSize nextSeq calls) hrun
  have hcapacity : d.deliverCh.capacity = deliverBufferSize :=
    exec_invariant (fun d => d.deliverCh.capacity = deliverBufferSize)
      (fun _ _ _ hd hstep => (capacity_moves (moves_of_step hstep)).trans hd) rfl hrun
  have hfifo : ∀ topic, on topic d.deliverCh.accepted =
      on topic d.deliverCh.received ++ on topic d.deliverCh.buffer := by
    intro topic
    rw [d.deliverCh.fifo, on_append]
  refine ⟨fun topic => ⟨?_, ?_⟩, ?_, ?_, hd.dropped, fun hroomy topic => ?_⟩
  · refine List.Sublist.trans ?_ (hd.topics topic).order
    rw [hfifo]
    exact List.sublist_append_left _ _
  · rw [(hd.topics topic).entries, hfifo, ← Multiset.coe_add]
  · rw [← hcapacity]
    exact d.deliverCh.bounded
  · rw [hd.sent, d.deliverCh.fifo, List.length_append]
  · have hkept := hd.topics topic
    rw [dropped_of_roomy hroomy rfl hrun] at hkept
    have hlength : (on topic d.deliverCh.accepted).length =
        (d.topics topic).memory.delivered.length := by
      simpa [on] using (congrArg Multiset.card hkept.entries).symm
    rw [← hfifo, hkept.order.eq_of_length hlength]

def crowded : Delivery :=
  start 1 (fun _ => 1) fun topic =>
    if topic = 1 then [.receive 1 [7], .receive 2 [8]] else if topic = 2 then [.receive 1 [9]]
    else []

def crowding : List DeliveryLabel :=
  -- the first entry is sent, the one of the other topic dropped, and the last read as well
  [.operate 1 0 .proceed, .operate 1 0 .proceed, .operate 2 0 .proceed, .operate 2 0 .proceed,
    .consume, .count 2 0, .count 1 0, .operate 1 0 .proceed, .operate 1 1 .proceed,
    .operate 1 1 .proceed, .consume]

theorem consumer_reads_deliveries_crowding :
    ∃ d, exec (step 10) crowded crowding = some d ∧
      d.deliverCh.received = [⟨1, 1, [7]⟩, ⟨1, 2, [8]⟩] ∧ d.dropped = [⟨2, 1, [9]⟩] ∧
      ((d.topics 1).memory.delivered : Multiset Numbered) =
        on 1 d.deliverCh.received + on 1 d.deliverCh.buffer + on 1 d.dropped ∧
      d.deliverDrop + d.counting.countP (fun c => !c.2) = 1 := by
  obtain ⟨d, hrun, hreceived, hdropped⟩ : ∃ d, exec (step 10) crowded crowding = some d ∧
      d.deliverCh.received = [⟨1, 1, [7]⟩, ⟨1, 2, [8]⟩] ∧ d.dropped = [⟨2, 1, [9]⟩] :=
    ⟨_, rfl, rfl, rfl⟩
  obtain ⟨htopics, -, -, hdrop, -⟩ := consumer_reads_deliveries hrun
  rw [hdropped] at hdrop
  exact ⟨d, hrun, hreceived, hdropped, (htopics 1).2, hdrop⟩

end Delivery

/-! ## The local entries -/

/--
Callers of `Enqueue` with the entries each has still to enqueue, the first by
the call it is in.  The channel tells who sent an entry.
-/
structure LocalLoop (ι : Type) where
  callers : ι → List GossipEntry
  localCh : Channel (ι × GossipEntry)
  running : Bool

inductive LoopLabel (ι : Type) where
  | enqueue (i : ι)
  | handleLocal
  | lazyTick
  | done

namespace LocalLoop

variable {ι : Type} [DecidableEq ι] {s t : LocalLoop ι}

def start (callers : ι → List GossipEntry) : LocalLoop ι := ⟨callers, .new 256, true⟩

def step (s : LocalLoop ι) : LoopLabel ι → Option (LocalLoop ι)
  | .enqueue i =>
      match s.callers i with
      | [] => none
      | entry :: rest =>
          (s.localCh.send (i, entry)).map fun ch =>
            { s with callers := Function.update s.callers i rest, localCh := ch }
  | .handleLocal =>
      if s.running then s.localCh.receive.map fun ch => { s with localCh := ch } else none
  | .lazyTick => if s.running then some s else none
  -- the context is cancelled; nobody closes the channel
  | .done => if s.running then some { s with running := false } else none

def of (i : ι) (entries : List (ι × GossipEntry)) : List GossipEntry :=
  entries.filterMap fun e => if e.1 = i then some e.2 else none

@[simp] theorem of_append (i : ι) (first second : List (ι × GossipEntry)) :
    of i (first ++ second) = of i first ++ of i second := by
  simp [of]

@[simp] theorem of_single (i j : ι) (entry : GossipEntry) :
    of i [(j, entry)] = if j = i then [entry] else [] := by
  by_cases h : j = i <;> simp [of, h]

inductive Moves (s : LocalLoop ι) : LocalLoop ι → Prop
  | enqueued (i : ι) (entry : GossipEntry) (rest : List GossipEntry)
      (ch : Channel (ι × GossipEntry)) (hcaller : s.callers i = entry :: rest)
      (hsend : s.localCh.send (i, entry) = some ch) :
      Moves s { s with callers := Function.update s.callers i rest, localCh := ch }
  | handled (ch : Channel (ι × GossipEntry)) (hrunning : s.running = true)
      (hreceive : s.localCh.receive = some ch) : Moves s { s with localCh := ch }
  | ticked : Moves s s
  | stopped : Moves s { s with running := false }

theorem moves_of_step {l : LoopLabel ι} (h : s.step l = some t) : s.Moves t := by
  cases l with
  | enqueue i =>
      rw [step] at h
      split at h
      · cases h
      · next entry rest hcaller =>
          obtain ⟨ch, hsend, rfl⟩ := Option.map_eq_some_iff.mp h
          exact .enqueued i entry rest ch hcaller hsend
  | handleLocal =>
      rw [step] at h
      split at h
      · next hrunning =>
          obtain ⟨ch, hreceive, rfl⟩ := Option.map_eq_some_iff.mp h
          exact .handled ch hrunning hreceive
      · cases h
  | lazyTick =>
      rw [step] at h
      split at h
      · cases h
        exact .ticked
      · cases h
  | done =>
      rw [step] at h
      split at h
      · cases h
        exact .stopped
      · cases h

/-- Each caller's entries are on their way in its order. -/
structure InOrder (callers : ι → List GossipEntry) (s : LocalLoop ι) : Prop where
  capacity : s.localCh.capacity = 256
  entries : ∀ i, callers i = of i s.localCh.accepted ++ s.callers i

private theorem InOrder.moves {callers : ι → List GossipEntry} (hs : InOrder callers s)
    (h : s.Moves t) : InOrder callers t := by
  cases h with
  | enqueued i entry rest ch hcaller hsend =>
      obtain ⟨hcapacity, haccepted, -⟩ := Channel.send_eq_some hsend
      refine ⟨hcapacity.trans hs.capacity, fun j => ?_⟩
      by_cases hj : j = i
      · subst hj
        simpa [haccepted, hcaller] using hs.entries j
      · simpa [haccepted, hj, Ne.symm hj] using hs.entries j
  | handled ch hrunning hreceive =>
      obtain ⟨hcapacity, haccepted⟩ := Channel.receive_eq_some hreceive
      exact ⟨hcapacity.trans hs.capacity, by simpa [haccepted] using hs.entries⟩
  | ticked => exact hs
  | stopped => exact ⟨hs.capacity, hs.entries⟩

private theorem received_moves (h : s.Moves t) (hstopped : s.running = false) :
    t.running = false ∧ t.localCh.received = s.localCh.received := by
  cases h with
  | enqueued i entry rest ch hcaller hsend => exact ⟨hstopped, (Channel.send_eq_some hsend).2.2⟩
  | handled ch hrunning hreceive => exact absurd hrunning (by simp [hstopped])
  | ticked => exact ⟨hstopped, rfl⟩
  | stopped => exact ⟨rfl, rfl⟩

/--
However the callers of `Enqueue` and the loop interleave, the entries of each
caller are handled once each and in its order, and at most 256 wait.  Once `Run`
has returned nothing more is handled, and all but 256 further calls block
forever.
-/
theorem local_entries_in_order {callers : ι → List GossipEntry} {labels : List (LoopLabel ι)}
    (hrun : exec step (start callers) labels = some s) :
    (∀ i, callers i =
      of i s.localCh.received ++ of i s.localCh.buffer ++ s.callers i) ∧
    s.localCh.buffer.length ≤ 256 ∧
    (s.running = false → ∀ more t, exec step s more = some t →
      t.localCh.received = s.localCh.received ∧
      t.localCh.accepted.length ≤ s.localCh.received.length + 256) := by
  have hs : InOrder callers s := exec_invariant (InOrder callers)
    (fun _ _ _ hs hstep => hs.moves (moves_of_step hstep)) ⟨rfl, fun _ => rfl⟩ hrun
  have hbounded : ∀ u : LocalLoop ι, InOrder callers u → u.localCh.buffer.length ≤ 256 := by
    intro u hu
    rw [← hu.capacity]
    exact u.localCh.bounded
  refine ⟨fun i => ?_, hbounded s hs, fun hstopped more t hmore => ?_⟩
  · rw [← of_append, ← s.localCh.fifo]
    exact hs.entries i
  · have ht : InOrder callers t := exec_invariant (InOrder callers)
      (fun _ _ _ hs hstep => hs.moves (moves_of_step hstep)) hs hmore
    have hrest : t.running = false ∧ t.localCh.received = s.localCh.received :=
      exec_invariant (fun u => u.running = false ∧ u.localCh.received = s.localCh.received)
        (fun u _ v hu hstep => by
          obtain ⟨hrunning, hreceived⟩ := received_moves (moves_of_step hstep) hu.1
          exact ⟨hrunning, hreceived.trans hu.2⟩)
        ⟨hstopped, rfl⟩ hmore
    refine ⟨hrest.2, ?_⟩
    rw [t.localCh.fifo, List.length_append, hrest.2]
    exact Nat.add_le_add_left (hbounded t ht) _

theorem local_entries_in_order_stopped :
    ∃ s : LocalLoop Bool, exec step
        (start fun i => if i then [⟨1, 1, [7]⟩, ⟨1, 2, [8]⟩] else [⟨2, 1, [9]⟩])
        [.enqueue true, .enqueue false, .handleLocal, .lazyTick, .done, .enqueue true] = some s ∧
      s.running = false ∧ s.localCh.received = [(true, ⟨1, 1, [7]⟩)] ∧
      [⟨1, 1, [7]⟩, ⟨1, 2, [8]⟩] =
        of true s.localCh.received ++ of true s.localCh.buffer ++ s.callers true := by
  obtain ⟨s, hrun, hrunning, hreceived⟩ : ∃ s : LocalLoop Bool, exec step
        (start fun i => if i then [⟨1, 1, [7]⟩, ⟨1, 2, [8]⟩] else [⟨2, 1, [9]⟩])
        [.enqueue true, .enqueue false, .handleLocal, .lazyTick, .done, .enqueue true] = some s ∧
      s.running = false ∧ s.localCh.received = [(true, ⟨1, 1, [7]⟩)] :=
    ⟨_, rfl, rfl, rfl⟩
  exact ⟨s, hrun, hrunning, hreceived, (local_entries_in_order hrun).1 true⟩

end LocalLoop

end GossipMesh.Engine
