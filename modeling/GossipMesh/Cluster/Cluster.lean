import GossipMesh.Foundation.Transition
import GossipMesh.Engine.Task

/-!
# A cluster of nodes

Each node runs its handlers as tasks, so operations of different handlers
interleave on every node.  A node keeps a log of everything it ever sent; the
network delivers logged messages, each any number of times, at any time, in any
order and at any node, or never.  It does not make messages up.

A stream is what its frames spell: an eager stream is any sequence of frames
the peer wrote, cut off anywhere.  A repair answer travels on the stream of its
request and can only be taken for an answer to the same request.
-/

namespace GossipMesh.Cluster

open GossipMesh.Foundation GossipMesh.Engine

def streamTypeLazyBatch : UInt8 := 0x11

structure Node where
  engine : GossipEngine
  tasks : List Task
  -- the snapshots of a `flushLazyBatches` call that waits for the lock
  flushing : Option (List OverlayPeer × List TopicSeq)
  -- the remaining fields are logs
  enqueued : List GossipEntry
  accepted : List (Bool × GossipEntry)
  sent : List EagerSend
  batches : List PeerBatch
  replies : List (TopicSeq × Bytes)

structure NodeConfig where
  nodeID : String
  overlay : OverlayConfig
  maxGapBuffer : Int
  /-- The `SetInitialSeq` calls made before the node starts. -/
  primed : List (UInt16 × UInt64)

namespace Node

def start (cfg : NodeConfig) : Node where
  engine := cfg.primed.foldl (fun g p => g.setInitialSeq p.1 p.2)
    (.new (.new cfg.nodeID cfg.overlay) cfg.maxGapBuffer)
  tasks := []
  flushing := none
  enqueued := []
  accepted := []
  sent := []
  batches := []
  replies := []

def loopIdle (n : Node) : Bool :=
  n.flushing.isNone && n.tasks.all fun t => !t.isLocal || t.queue.isEmpty

end Node

/-! ## What a node does by itself -/

inductive Action where
  | enqueue (entry : GossipEntry)
  | takeLocal
  | task (i : Nat) (first : RangeFirst)
  | startFlush (order : List UInt16)
  | finishFlush
  | expire (topic : UInt16) (expectedAtStart : UInt64)
  | repairFail (topic : UInt16) (missing : UInt64)
  | serveRepair (topic : UInt16) (seq : UInt64)
  | reclassify (sorter : SortSlice) (peers : List PeerInfo)
  | setTopicSeq (topic : UInt16) (seq : UInt64)
  | setNextSeq (topic : UInt16) (seq : UInt64)

namespace Node

def withEngine (n : Node) (g : GossipEngine) : Node := { n with engine := g }

def withApplier (n : Node) (o : OrderedApplier) : Node :=
  n.withEngine { n.engine with applier := o }

def noteAccept (t : Task) (g : GossipEngine) : List (Bool × GossipEntry) :=
  -- the operation accepted an entry when it took it from `seen` to `cache`
  match t.phase, t.queue with
  | .seen, entry :: _ => if t.accepts g entry then [(t.isLocal, entry)] else []
  | _, _ => []

def runTask (n : Node) (i : Nat) (first : RangeFirst) : Option Node := do
  let t ← n.tasks[i]?
  let p ← t.step first n.engine
  some { n with
    engine := p.engine
    tasks := n.tasks.set i p.task
    accepted := n.accepted ++ noteAccept t n.engine
    sent := n.sent ++ p.sends }

def finishFlush (n : Node) : Option Node := do
  let (peers, marks) ← n.flushing
  let (batches, buffers) := GossipEngine.collectBatches marks peers
    n.engine.lazyBuffers
  some { n with
    engine := { n.engine with lazyBuffers := buffers }
    flushing := none
    batches := n.batches ++ batches }

def answer (n : Node) (topic : UInt16) (seq : UInt64) : Option Bytes :=
  (dispatchRepair (repairRequest topic seq)).map (handleRequest n.engine.cache)

def act (n : Node) : Action → Option Node
  | .enqueue entry =>
      (n.engine.enqueue entry).map fun g =>
        { n.withEngine g with enqueued := n.enqueued ++ [entry] }
  | .takeLocal =>
      match n.engine.localCh with
      | [] => none
      | entry :: rest =>
          if n.loopIdle then
            some { n.withEngine { n.engine with localCh := rest } with
              tasks := n.tasks ++ [.handleLocal entry] }
          else none
  | .task i first => n.runTask i first
  | .startFlush order =>
      if n.loopIdle ∧ n.engine.seen.IterationOrder order then
        some { n with flushing := some (n.engine.overlay.lazyPeers,
          n.engine.seen.highWaterMarks order) }
      else none
  | .finishFlush => n.finishFlush
  | .expire topic e =>
      (n.engine.applier.step (topic, .expire e)).map n.withApplier
  | .repairFail topic missing =>
      (n.engine.applier.step (topic, .repairFail missing)).map n.withApplier
  | .serveRepair topic seq =>
      (n.answer topic seq).map fun reply =>
        { n with replies := n.replies ++ [(⟨topic, seq⟩, reply)] }
  | .reclassify sorter peers =>
      (n.engine.overlay.reclassify sorter peers).map fun o =>
        n.withEngine { n.engine with overlay := o }
  | .setTopicSeq topic seq =>
      some (n.withEngine { n.engine with
        seen := n.engine.seen.setTopicSeq topic seq })
  | .setNextSeq topic seq =>
      (n.engine.applier.step (topic, .setNextSeq seq)).map n.withApplier

/-- The outcomes of `act`, one rule for each action. -/
inductive Acts (n : Node) : Action → Node → Prop
  | enqueue (entry : GossipEntry) (hroom : n.engine.localCh.length < 256) :
      Acts n (.enqueue entry)
        { n.withEngine { n.engine with
            localCh := n.engine.localCh ++ [entry] } with
          enqueued := n.enqueued ++ [entry] }
  | takeLocal (entry : GossipEntry) (rest : List GossipEntry)
      (hlocal : n.engine.localCh = entry :: rest) (hidle : n.loopIdle = true) :
      Acts n .takeLocal
        { n.withEngine { n.engine with localCh := rest } with
          tasks := n.tasks ++ [.handleLocal entry] }
  | task (i : Nat) (first : RangeFirst) (t : Task) (entry : GossipEntry)
      (rest : List GossipEntry) (ht : n.tasks[i]? = some t)
      (hqueue : t.queue = entry :: rest) :
      Acts n (.task i first)
        { n with
          engine := (t.operate first n.engine entry rest).engine
          tasks := n.tasks.set i (t.operate first n.engine entry rest).task
          accepted := n.accepted ++ noteAccept t n.engine
          sent := n.sent ++ (t.operate first n.engine entry rest).sends }
  | startFlush (order : List UInt16) (hidle : n.loopIdle = true)
      (horder : n.engine.seen.IterationOrder order) :
      Acts n (.startFlush order)
        { n with flushing := some (n.engine.overlay.lazyPeers,
          n.engine.seen.highWaterMarks order) }
  | finishFlush (peers : List OverlayPeer) (marks : List TopicSeq)
      (hflushing : n.flushing = some (peers, marks)) :
      Acts n .finishFlush
        { n with
          engine := { n.engine with
            lazyBuffers := (GossipEngine.collectBatches marks peers
              n.engine.lazyBuffers).2 }
          flushing := none
          batches := n.batches ++ (GossipEngine.collectBatches marks peers
            n.engine.lazyBuffers).1 }
  | expire (topic : UInt16) (e : UInt64) (o : OrderedApplier)
      (hstep : n.engine.applier.step (topic, .expire e) = some o) :
      Acts n (.expire topic e) (n.withApplier o)
  | repairFail (topic : UInt16) (missing : UInt64) (o : OrderedApplier)
      (hstep : n.engine.applier.step (topic, .repairFail missing) = some o) :
      Acts n (.repairFail topic missing) (n.withApplier o)
  | serveRepair (topic : UInt16) (seq : UInt64) (reply : Bytes)
      (hreply : n.answer topic seq = some reply) :
      Acts n (.serveRepair topic seq)
        { n with replies := n.replies ++ [(⟨topic, seq⟩, reply)] }
  | reclassify (sorter : SortSlice) (peers : List PeerInfo) (o : Overlay)
      (hoverlay : n.engine.overlay.reclassify sorter peers = some o) :
      Acts n (.reclassify sorter peers)
        (n.withEngine { n.engine with overlay := o })
  | setTopicSeq (topic : UInt16) (seq : UInt64) :
      Acts n (.setTopicSeq topic seq)
        (n.withEngine { n.engine with
          seen := n.engine.seen.setTopicSeq topic seq })
  | setNextSeq (topic : UInt16) (seq : UInt64) (o : OrderedApplier)
      (hstep : n.engine.applier.step (topic, .setNextSeq seq) = some o) :
      Acts n (.setNextSeq topic seq) (n.withApplier o)

theorem acts_of_act {n n' : Node} {a : Action} (h : n.act a = some n') :
    n.Acts a n' := by
  cases a with
  | enqueue entry =>
      obtain ⟨g, hg, rfl⟩ := Option.map_eq_some_iff.mp h
      unfold GossipEngine.enqueue at hg
      split at hg
      · next hroom =>
          cases hg
          exact .enqueue entry hroom
      · cases hg
  | takeLocal =>
      simp only [act] at h
      split at h
      · cases h
      · next entry rest hlocal =>
          split at h
          · next hidle =>
              cases h
              exact .takeLocal entry rest hlocal hidle
          · cases h
  | task i first =>
      simp only [act, runTask, Option.bind_eq_bind, Option.bind_eq_some_iff,
        Option.some.injEq] at h
      obtain ⟨t, ht, p, hp, rfl⟩ := h
      obtain ⟨entry, rest, hqueue, rfl⟩ := Task.step_eq_some hp
      exact .task i first t entry rest ht hqueue
  | startFlush order =>
      simp only [act] at h
      split at h
      · next hstart =>
          cases h
          exact .startFlush order hstart.1 hstart.2
      · cases h
  | finishFlush =>
      simp only [act, finishFlush, Option.bind_eq_bind,
        Option.bind_eq_some_iff] at h
      obtain ⟨⟨peers, marks⟩, hflushing, heq⟩ := h
      cases heq
      exact .finishFlush peers marks hflushing
  | expire topic e =>
      obtain ⟨o, ho, rfl⟩ := Option.map_eq_some_iff.mp h
      exact .expire topic e o ho
  | repairFail topic missing =>
      obtain ⟨o, ho, rfl⟩ := Option.map_eq_some_iff.mp h
      exact .repairFail topic missing o ho
  | serveRepair topic seq =>
      simp only [act] at h
      obtain ⟨reply, hreply, rfl⟩ := Option.map_eq_some_iff.mp h
      exact .serveRepair topic seq reply hreply
  | reclassify sorter peers =>
      obtain ⟨o, ho, rfl⟩ := Option.map_eq_some_iff.mp h
      exact .reclassify sorter peers o ho
  | setTopicSeq topic seq =>
      cases h
      exact .setTopicSeq topic seq
  | setNextSeq topic seq =>
      simp only [act] at h
      obtain ⟨o, ho, rfl⟩ := Option.map_eq_some_iff.mp h
      exact .setNextSeq topic seq o ho

end Node

/-! ## What a node receives -/

inductive Input where
  | datagram (sender : String) (msg : Bytes)
  | uniStream (sender : String) (bytes : Bytes)
  | repairReply (topic : UInt16) (missing : UInt64) (reply : Bytes)

namespace Node

def startTask (n : Node) (sender : String) (entries : List GossipEntry) : Node :=
  { n with tasks := n.tasks ++ [.receive sender entries] }

def onDatagram (n : Node) (sender : String) (msg : Bytes) : Node :=
  n.startTask sender
    ((receiveDatagram msg).bind decodeEagerMessage).toList

def onEagerStream (n : Node) (sender : String) (bytes : Bytes) : Node :=
  n.startTask sender ((receiveEagerStream bytes).filterMap decodeEagerMessage)

def onLazyStream (z : Zstd) (n : Node) (sender : String) (bytes : Bytes) : Node :=
  match readLazyBatch z bytes with
  | .error _ => n
  | .ok batch =>
      (n.withEngine (n.engine.updateSender sender
        batch.senderHighWaterMarks)).startTask sender batch.entries

def onUniStream (z : Zstd) (n : Node) (sender : String) : Bytes → Node
  | [] => n
  | streamType :: bytes =>
      if streamType = streamTypeLazyBatch then n.onLazyStream z sender bytes
      else if streamType = streamTypeEagerStream then n.onEagerStream sender bytes
      else n

def onRepairReply (n : Node) (topic : UInt16) (missing : UInt64)
    (reply : Bytes) : Option Node :=
  match readReply topic missing reply with
  -- the repair goes on with the next peer
  | .error | .miss => some n
  | .hit entry =>
      (n.engine.applier.step (topic, .repairReply missing entry.payload)).map
        n.withApplier

def receive (z : Zstd) (n : Node) : Input → Option Node
  | .datagram sender msg => some (n.onDatagram sender msg)
  | .uniStream sender bytes => some (n.onUniStream z sender bytes)
  | .repairReply topic missing reply => n.onRepairReply topic missing reply

end Node

def Input.entries (z : Zstd) : Input → List GossipEntry
  | .datagram _ msg => ((receiveDatagram msg).bind decodeEagerMessage).toList
  | .uniStream _ [] => []
  | .uniStream _ (streamType :: bytes) =>
      if streamType = streamTypeLazyBatch then
        match readLazyBatch z bytes with
        | .error _ => []
        | .ok batch => batch.entries
      else if streamType = streamTypeEagerStream then
        (receiveEagerStream bytes).filterMap decodeEagerMessage
      else []
  | .repairReply topic missing reply =>
      match readReply topic missing reply with
      | .error | .miss => []
      | .hit entry => [entry]

namespace Node

inductive Receives (z : Zstd) (n : Node) (input : Input) : Node → Prop
  | ignored : Receives z n input n
  | eager (sender : String) :
      Receives z n input (n.startTask sender (input.entries z))
  | lazyBatch (sender : String) (marks : List TopicSeq) :
      Receives z n input
        ((n.withEngine (n.engine.updateSender sender marks)).startTask sender
          (input.entries z))
  | repaired (entry : GossipEntry) (o : OrderedApplier)
      (hentry : entry ∈ input.entries z)
      (hstep : n.engine.applier.step
        (entry.topic, .repairReply entry.seq entry.payload) = some o) :
      Receives z n input (n.withApplier o)

private theorem receives_of_uniStream (z : Zstd) (n : Node) (sender : String)
    (bytes : Bytes) :
    n.Receives z (.uniStream sender bytes) (n.onUniStream z sender bytes) := by
  cases bytes with
  | nil => exact .ignored
  | cons streamType bytes =>
      have heager : n.Receives z (.uniStream sender (streamType :: bytes)) _ :=
        .eager sender
      have hlazy := fun marks =>
        (.lazyBatch sender marks :
          n.Receives z (.uniStream sender (streamType :: bytes)) _)
      simp only [Input.entries] at heager hlazy
      simp only [onUniStream]
      split
      · next htype =>
          simp only [if_pos htype] at hlazy
          unfold onLazyStream
          cases hread : readLazyBatch z bytes with
          | error err => exact .ignored
          | ok batch =>
              simp only [hread] at hlazy
              exact hlazy batch.senderHighWaterMarks
      · next htype =>
          rw [if_neg htype] at heager
          split
          · next hstream =>
              rw [if_pos hstream] at heager
              exact heager
          · exact .ignored

theorem receives_of_receive {z : Zstd} {n n' : Node} {input : Input}
    (h : n.receive z input = some n') : n.Receives z input n' := by
  cases input with
  | datagram sender msg =>
      cases h
      exact .eager sender
  | uniStream sender bytes =>
      cases h
      exact receives_of_uniStream z n sender bytes
  | repairReply topic missing reply =>
      simp only [receive, onRepairReply] at h
      cases hread : readReply topic missing reply with
      | error | miss =>
          rw [hread] at h
          cases h
          exact .ignored
      | hit entry =>
          rw [hread] at h
          obtain ⟨o, ho, rfl⟩ := Option.map_eq_some_iff.mp h
          obtain ⟨rfl, rfl⟩ := readReply_hit hread
          exact .repaired entry o (by simp [Input.entries, hread]) ho

end Node

inductive Event where
  | act (a : Action)
  | receive (input : Input)

namespace Node

def step (z : Zstd) (n : Node) : Event → Option Node
  | .act a => n.act a
  | .receive input => n.receive z input

/-! ## What the network can carry -/

def lazyStream (z : Zstd) (batch : LazyBatch) : Bytes :=
  streamTypeLazyBatch :: writeLazyBatch z batch

def eagerStream (sends : List EagerSend) : Bytes :=
  streamTypeEagerStream :: sends.flatMap fun s => eagerFrame s.msg

inductive Delivery where
  | datagram (i : Nat)
  | eagerStream (frames : List Nat) (cut : Nat)
  | lazyStream (i : Nat)
  | repairReply (i : Nat)
  deriving DecidableEq

def emit (z : Zstd) (n : Node) (sender : String) : Delivery → Option Input
  | .datagram i =>
      match n.sent[i]? with
      | none => none
      | some s => if s.useStream then none else some (.datagram sender s.msg)
  | .eagerStream frames cut =>
      let sends := (frames.filterMap fun i => n.sent[i]?).filter EagerSend.useStream
      some (.uniStream sender ((eagerStream sends).take cut))
  | .lazyStream i =>
      n.batches[i]?.map fun pb => .uniStream sender (lazyStream z pb.batch)
  | .repairReply i =>
      n.replies[i]?.map fun r => .repairReply r.1.topic r.1.seq r.2

inductive Emits (z : Zstd) (n : Node) : Input → Prop
  | datagram (s : EagerSend) (sender : String) (hsent : s ∈ n.sent) :
      Emits z n (.datagram sender s.msg)
  | eagerStream (sends : List EagerSend) (cut : Nat) (sender : String)
      (hsent : ∀ s ∈ sends, s ∈ n.sent) :
      Emits z n (.uniStream sender ((eagerStream sends).take cut))
  | lazyStream (pb : PeerBatch) (sender : String) (hsent : pb ∈ n.batches) :
      Emits z n (.uniStream sender (lazyStream z pb.batch))
  | repairReply (k : TopicSeq) (reply : Bytes) (hsent : (k, reply) ∈ n.replies) :
      Emits z n (.repairReply k.topic k.seq reply)

theorem emits_of_emit {z : Zstd} {n : Node} {sender : String} {d : Delivery}
    {input : Input} (h : n.emit z sender d = some input) : n.Emits z input := by
  cases d with
  | datagram i =>
      simp only [emit] at h
      split at h
      · cases h
      · next s hs =>
          split at h
          · cases h
          · cases h
            exact .datagram s sender (List.mem_of_getElem? hs)
  | eagerStream frames cut =>
      cases h
      refine .eagerStream _ cut sender fun s hs => ?_
      obtain ⟨i, -, hi⟩ := List.mem_filterMap.mp (List.mem_filter.mp hs).1
      exact List.mem_of_getElem? hi
  | lazyStream i =>
      obtain ⟨pb, hpb, rfl⟩ := Option.map_eq_some_iff.mp h
      exact .lazyStream pb sender (List.mem_of_getElem? hpb)
  | repairReply i =>
      obtain ⟨r, hr, rfl⟩ := Option.map_eq_some_iff.mp h
      exact .repairReply r.1 r.2 (List.mem_of_getElem? hr)

end Node

/-! ## The cluster -/

inductive Label (ι : Type) where
  | act (v : ι) (a : Action)
  -- `sender` is whatever the receiving transport passes as `from`
  | deliver (u v : ι) (sender : String) (d : Node.Delivery)

section System

variable {ι : Type} [DecidableEq ι]

def start (cfg : ι → NodeConfig) : ι → Node := fun v => .start (cfg v)

def step (z : Zstd) (c : ι → Node) : Label ι → Option (ι → Node)
  | .act v a => ((c v).act a).map (Function.update c v)
  | .deliver u v sender d =>
      match (c u).emit z sender d with
      | none => none
      | some input => ((c v).receive z input).map (Function.update c v)

theorem step_cases {z : Zstd} {c c' : ι → Node} {l : Label ι}
    (h : step z c l = some c') :
    (∃ v a n, l = .act v a ∧ (c v).act a = some n ∧
      c' = Function.update c v n) ∨
    (∃ u v input n, (c u).Emits z input ∧ (c v).receive z input = some n ∧
      c' = Function.update c v n) := by
  cases l with
  | act v a =>
      obtain ⟨n, hn, rfl⟩ := Option.map_eq_some_iff.mp h
      exact .inl ⟨v, a, n, rfl, hn, rfl⟩
  | deliver u v sender d =>
      simp only [step] at h
      split at h
      · cases h
      · next input hinput =>
          obtain ⟨n, hn, rfl⟩ := Option.map_eq_some_iff.mp h
          exact .inr ⟨u, v, input, n, Node.emits_of_emit hinput, hn, rfl⟩

theorem exec_acts {z : Zstd} {c : ι → Node} {v : ι} {n n' : Node}
    {acts : List Action} (h : exec Node.act n acts = some n') :
    exec (step z) (Function.update c v n) (acts.map (.act v)) =
      some (Function.update c v n') := by
  induction acts generalizing n with
  | nil =>
      cases h
      rfl
  | cons a acts ih =>
      obtain ⟨m, hact, hrest⟩ := exec_cons_eq_some.mp h
      refine exec_cons_eq_some.mpr ⟨Function.update c v m, ?_, ih hrest⟩
      simp [step, hact]

end System

def twoNodes (isA : Bool) : NodeConfig :=
  ⟨if isA then "a" else "b", ⟨0, 0, 0, 0⟩, 0, [(1, 0)]⟩

end GossipMesh.Cluster
