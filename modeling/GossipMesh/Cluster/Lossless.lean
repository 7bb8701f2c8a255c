import GossipMesh.Foundation.Transition
import GossipMesh.Engine.Arrival

/-!
# A cluster with lossless FIFO links

The same handlers as elsewhere, each taken as one step, over a network that
loses nothing: to every address a node has one queue of eager messages and one
of lazy batches, and the node at the address takes them in order.  Overlays do
not change.

`Topology` says what the peer lists are about: a peer entry carries the node ID
and the address of one node, and these identify the node.  A node ID is never
empty, since a node without one generates it.
-/

namespace GossipMesh.Cluster.Lossless

open GossipMesh.Foundation GossipMesh.Engine

structure Topology (ι : Type) where
  nodeID : ι → String
  addr : ι → String
  overlay : ι → Overlay
  nodeID_injective : Function.Injective nodeID
  addr_injective : Function.Injective addr
  nodeID_ne : ∀ v, nodeID v ≠ ""
  named : ∀ v, ∀ peer ∈ (overlay v).allPeers,
    ∃ w, peer.nodeID = nodeID w ∧ peer.addr = addr w

structure Node where
  engine : GossipEngine
  eagerOut : String → List EagerSend
  lazyOut : String → List LazyBatch
  enqueued : List GossipEntry

namespace Node

def withEngine (n : Node) (g : GossipEngine) : Node := { n with engine := g }

def pass (n : Node) (out : GossipEngine × List EagerSend) : Node :=
  { n with
    engine := out.1
    eagerOut := fun a => n.eagerOut a ++ out.2.filter fun s => s.addr = a }

def enqueue (n : Node) (entry : GossipEntry) : Option Node :=
  (n.engine.enqueue entry).map fun g =>
    { n with engine := g, enqueued := n.enqueued ++ [entry] }

def runLocal (n : Node) (first : RangeFirst) (entry : GossipEntry)
    (rest : List GossipEntry) : Node :=
  n.pass (GossipEngine.handleLocal first { n.engine with localCh := rest } entry)

def handleLocal (n : Node) (first : RangeFirst) : Option Node :=
  match n.engine.localCh with
  | [] => none
  | entry :: rest => some (n.runLocal first entry rest)

def flush (n : Node) (order : List UInt16) : Option Node :=
  if n.engine.seen.IterationOrder order then
    let (g, batches) := n.engine.flushLazyBatches order
    some { n with
      engine := g
      lazyOut := fun a => n.lazyOut a ++
        (batches.filter fun b => b.addr = a).map PeerBatch.batch }
  else none

def gapTimer (n : Node) (topic : UInt16) (act : Engine.Action) : Option Node :=
  (n.engine.applier.step (topic, act)).map fun o =>
    n.withEngine { n.engine with applier := o }

def popEager (n : Node) (a : String) : Node :=
  { n with eagerOut := Function.update n.eagerOut a (n.eagerOut a).tail }

def popLazy (n : Node) (a : String) : Node :=
  { n with lazyOut := Function.update n.lazyOut a (n.lazyOut a).tail }

def arriving (s : EagerSend) : Option Bytes :=
  if s.useStream then (receiveEagerStream (eagerFrame s.msg)).head?
  else receiveDatagram s.msg

def onEager (n : Node) (sender : String) (first : RangeFirst)
    (s : EagerSend) : Node :=
  match arriving s with
  | none => n
  | some data => n.pass (n.engine.onEagerReceive first sender data)

def onLazy (z : Zstd) (n : Node) (sender : String) (first : RangeFirst)
    (batch : LazyBatch) : Node :=
  n.pass (n.engine.onLazyBatchReceive z first sender (writeLazyBatch z batch))

end Node

/-! ## The network -/

inductive Label (ι : Type) where
  | enqueue (v : ι) (entry : GossipEntry)
  | handleLocal (v : ι) (first : RangeFirst)
  | flush (v : ι) (order : List UInt16)
  -- `sender` is whatever the receiving transport passes as `from`
  | eager (u v : ι) (sender : String) (first : RangeFirst)
  | lazyBatch (u v : ι) (sender : String) (first : RangeFirst)
  | expire (v : ι) (topic : UInt16) (expectedAtStart : UInt64)
  | repairReply (v : ι) (topic : UInt16) (missing : UInt64) (payload : Payload)
  | repairFail (v : ι) (topic : UInt16) (missing : UInt64)

section System

variable {ι : Type} [DecidableEq ι] (T : Topology ι) (z : Zstd)

/--
Every node has its overlay and has called `SetInitialSeq`, for any topics and
last of all with `(topic, 0)`.
-/
def start (gap : ι → Int) (primed : ι → List (UInt16 × UInt64))
    (topic : UInt16) : ι → Node := fun v =>
  { engine := GossipEngine.setInitialSeq
      ((primed v).foldl (fun g q => GossipEngine.setInitialSeq g q.1 q.2)
        (.new (T.overlay v) (gap v))) topic 0
    eagerOut := fun _ => []
    lazyOut := fun _ => []
    enqueued := [] }

def step (net : ι → Node) : Label ι → Option (ι → Node)
  | .enqueue v entry => ((net v).enqueue entry).map (Function.update net v)
  | .handleLocal v first => ((net v).handleLocal first).map (Function.update net v)
  | .flush v order => ((net v).flush order).map (Function.update net v)
  | .eager u v sender first =>
      match (net u).eagerOut (T.addr v) with
      | [] => none
      | s :: _ =>
          let net := Function.update net u ((net u).popEager (T.addr v))
          some (Function.update net v ((net v).onEager sender first s))
  | .lazyBatch u v sender first =>
      match (net u).lazyOut (T.addr v) with
      | [] => none
      | batch :: _ =>
          let net := Function.update net u ((net u).popLazy (T.addr v))
          some (Function.update net v ((net v).onLazy z sender first batch))
  | .expire v topic e =>
      ((net v).gapTimer topic (.expire e)).map (Function.update net v)
  | .repairReply v topic missing payload =>
      ((net v).gapTimer topic (.repairReply missing payload)).map
        (Function.update net v)
  | .repairFail v topic missing =>
      ((net v).gapTimer topic (.repairFail missing)).map (Function.update net v)

end System

/-! ## Channels -/

/-- An edge of the overlay graph: what one node sends another, by its path. -/
inductive Channel (ι : Type) where
  | eager (src dst : ι)
  | lazyBatch (src dst : ι)
  deriving DecidableEq

namespace Channel

variable {ι : Type}

def src : Channel ι → ι
  | .eager u _ => u
  | .lazyBatch u _ => u

def dst : Channel ι → ι
  | .eager _ v => v
  | .lazyBatch _ v => v

end Channel

namespace Topology

variable {ι : Type} (T : Topology ι)

def peersOf : Channel ι → List OverlayPeer
  | .eager u _ => (T.overlay u).eagerPeers
  | .lazyBatch u _ => (T.overlay u).lazyPeers

def IsEdge (k : Channel ι) : Prop := ∃ peer ∈ T.peersOf k, peer.addr = T.addr k.dst

abbrev Edge := { k : Channel ι // T.IsEdge k }

def Adjacent (u v : ι) : Prop :=
  ∃ peer ∈ (T.overlay u).allPeers, peer.addr = T.addr v

instance (u v : ι) : Decidable (T.Adjacent u v) :=
  inferInstanceAs
    (Decidable (∃ peer ∈ (T.overlay u).allPeers, peer.addr = T.addr v))

theorem adjacent_iff {u v : ι} :
    T.Adjacent u v ↔ ∃ k : T.Edge, k.1.src = u ∧ k.1.dst = v := by
  constructor
  · rintro ⟨peer, hmem, haddr⟩
    rcases List.mem_append.mp hmem with heager | hlazy
    · exact ⟨⟨.eager u v, peer, heager, haddr⟩, rfl, rfl⟩
    · exact ⟨⟨.lazyBatch u v, peer, hlazy, haddr⟩, rfl, rfl⟩
  · rintro ⟨⟨k, peer, hmem, haddr⟩, rfl, rfl⟩
    refine ⟨peer, ?_, haddr⟩
    cases k with
    | eager u v => exact List.mem_append_left _ hmem
    | lazyBatch u v => exact List.mem_append_right _ hmem

theorem mem_allPeers {k : Channel ι} {peer : OverlayPeer}
    (h : peer ∈ T.peersOf k) : peer ∈ (T.overlay k.src).allPeers := by
  cases k with
  | eager u v => exact List.mem_append_left _ h
  | lazyBatch u v => exact List.mem_append_right _ h

theorem nodeID_eq_iff_addr_eq {u v : ι} {peer : OverlayPeer}
    (h : peer ∈ (T.overlay u).allPeers) :
    peer.nodeID = T.nodeID v ↔ peer.addr = T.addr v := by
  obtain ⟨w, hid, haddr⟩ := T.named u peer h
  rw [hid, haddr, T.nodeID_injective.eq_iff, T.addr_injective.eq_iff]

/--
The string `sender` that node `v` is given for a message of `u` is not the node
ID of another peer.
-/
def Attributed (v : ι) (sender : String) (u : ι) : Prop :=
  ∀ peer ∈ (T.overlay v).allPeers, peer.nodeID = sender → peer.addr = T.addr u

instance (v : ι) (sender : String) (u : ι) :
    Decidable (T.Attributed v sender u) :=
  inferInstanceAs (Decidable (∀ peer ∈ (T.overlay v).allPeers,
    peer.nodeID = sender → peer.addr = T.addr u))

private theorem exists_peer (k : T.Edge) :
    ∃ peer ∈ (T.overlay k.1.src).allPeers,
      peer.nodeID = T.nodeID k.1.dst ∧ peer.addr = T.addr k.1.dst := by
  obtain ⟨k, peer, hpeer, haddr⟩ := k
  have hmem := T.mem_allPeers hpeer
  exact ⟨peer, hmem, (T.nodeID_eq_iff_addr_eq hmem).mpr haddr, haddr⟩

variable {T} in
theorem Attributed.dst_eq {u v : ι} {sender : String}
    (h : T.Attributed v sender u) (k : T.Edge) (hk : k.1.src = v)
    (hid : T.nodeID k.1.dst = sender) : k.1.dst = u := by
  obtain ⟨peer, hmem, hpeerID, haddr⟩ := T.exists_peer k
  exact T.addr_injective
    (haddr.symm.trans (h peer (hk ▸ hmem) (hpeerID.trans hid)))

end Topology

/-! ## What is under way on a channel -/

def seqsOf (topic : UInt16) (entries : List GossipEntry) : List Nat :=
  (ofTopic topic entries).map fun entry => entry.seq.toNat

section SeqsOf

variable {topic : UInt16} {entry : GossipEntry}

@[simp] theorem seqsOf_nil : seqsOf topic [] = [] := rfl

@[simp] theorem seqsOf_append (first second : List GossipEntry) :
    seqsOf topic (first ++ second) = seqsOf topic first ++ seqsOf topic second := by
  simp [seqsOf, ofTopic]

theorem seqsOf_cons_self (h : entry.topic = topic) (entries : List GossipEntry) :
    seqsOf topic (entry :: entries) = entry.seq.toNat :: seqsOf topic entries := by
  simp [seqsOf, ofTopic, h]

theorem seqsOf_cons_ne (h : entry.topic ≠ topic) (entries : List GossipEntry) :
    seqsOf topic (entry :: entries) = seqsOf topic entries := by
  simp [seqsOf, ofTopic, h]

theorem seqsOf_replicate_self (h : entry.topic = topic) (copies : Nat) :
    seqsOf topic (List.replicate copies entry) =
      List.replicate copies entry.seq.toNat := by
  simp [seqsOf, ofTopic, h]

theorem seqsOf_replicate_ne (h : entry.topic ≠ topic) (copies : Nat) :
    seqsOf topic (List.replicate copies entry) = [] := by
  simp [seqsOf, ofTopic, h]

end SeqsOf

namespace Node

variable {ι : Type} (T : Topology ι)

def underWay (n : Node) : Channel ι → List GossipEntry
  | .eager _ v => (n.eagerOut (T.addr v)).map EagerSend.entry
  | .lazyBatch _ v => (n.lazyOut (T.addr v)).flatMap LazyBatch.entries ++
      (GossipEngine.bufferOf n.engine.lazyBuffers (T.nodeID v)).entries

/-- The mark below which a channel suppresses; eager sends never do. -/
def known (topic : UInt16) (n : Node) : Channel ι → UInt64
  | .eager _ _ => 0
  | .lazyBatch _ v =>
      (GossipEngine.bufferOf n.engine.lazyBuffers (T.nodeID v)).peerSeqs topic

def mark (n : Node) (topic : UInt16) : UInt64 := n.engine.seen.slotSeqs topic

def published (n : Node) (topic : UInt16) : Nat := (seqsOf topic n.enqueued).length

theorem pass_pass (n : Node) (out more : GossipEngine × List EagerSend) :
    (n.pass out).pass more = n.pass (more.1, out.2 ++ more.2) := by
  simp [pass]

@[simp] theorem pass_nil (n : Node) (g : GossipEngine) :
    n.pass (g, []) = n.withEngine g := by
  simp [pass, withEngine]

theorem enqueue_eq_some {n n' : Node} {entry : GossipEntry}
    (h : n.enqueue entry = some n') :
    n' = { n with
      engine := { n.engine with localCh := n.engine.localCh ++ [entry] }
      enqueued := n.enqueued ++ [entry] } := by
  simp only [enqueue, GossipEngine.enqueue] at h
  split at h
  · cases h
    rfl
  · cases h

theorem handleLocal_eq_some {n n' : Node} {first : RangeFirst}
    (h : n.handleLocal first = some n') :
    ∃ entry rest, n.engine.localCh = entry :: rest ∧ n' = n.runLocal first entry rest := by
  simp only [handleLocal] at h
  split at h
  · cases h
  · next entry rest hlocal =>
      cases h
      exact ⟨entry, rest, hlocal, rfl⟩

theorem flush_eq_some {n n' : Node} {order : List UInt16}
    (h : n.flush order = some n') :
    n' = { n with
      engine := (n.engine.flushLazyBatches order).1
      lazyOut := fun a => n.lazyOut a ++
        ((n.engine.flushLazyBatches order).2.filter fun b => b.addr = a).map
          PeerBatch.batch } := by
  simp only [flush] at h
  split at h
  · cases h
    rfl
  · cases h

theorem underWay_popEager_of_ne (n : Node) {k : Channel ι} {v : ι}
    (hk : k ≠ .eager k.src v) :
    (n.popEager (T.addr v)).underWay T k = n.underWay T k := by
  cases k with
  | eager u w =>
      have hne : T.addr w ≠ T.addr v := fun heq =>
        hk (by rw [T.addr_injective heq]; rfl)
      simp [underWay, popEager, hne]
  | lazyBatch u w => rfl

theorem underWay_popLazy_of_ne (n : Node) {k : Channel ι} {v : ι}
    (hk : k ≠ .lazyBatch k.src v) :
    (n.popLazy (T.addr v)).underWay T k = n.underWay T k := by
  cases k with
  | eager u w => rfl
  | lazyBatch u w =>
      have hne : T.addr w ≠ T.addr v := fun heq =>
        hk (by rw [T.addr_injective heq]; rfl)
      simp [underWay, popLazy, hne]

theorem mem_popEager {n : Node} {a b : String} {s : EagerSend}
    (h : s ∈ (n.popEager a).eagerOut b) : s ∈ n.eagerOut b := by
  by_cases hb : b = a
  · subst hb
    simp only [popEager, Function.update_self] at h
    exact List.mem_of_mem_tail h
  · simpa [popEager, hb] using h

theorem mem_popLazy {n : Node} {a b : String} {batch : LazyBatch}
    (h : batch ∈ (n.popLazy a).lazyOut b) : batch ∈ n.lazyOut b := by
  by_cases hb : b = a
  · subst hb
    simp only [popLazy, Function.update_self] at h
    exact List.mem_of_mem_tail h
  · simpa [popLazy, hb] using h

theorem arriving_eq {s : EagerSend} (hfits : s.msg.length ≤ maxFrame) :
    arriving s = some s.msg.tail := by
  have hlen : s.msg.length < 2 ^ 32 := by
    unfold maxFrame at hfits
    omega
  have hframe := receiveEagerStream_frame s.msg [] hlen
  rw [List.append_nil, if_neg (not_lt.mpr hfits)] at hframe
  unfold arriving
  split
  · rw [hframe]
    simp [EagerSend.msg]
  · exact receiveDatagram_encode s.entry

variable {T} {n : Node} {g : GossipEngine} {entry : GossipEntry}
  {exclude : String} {k : Channel ι}

private theorem eagerForward_to (g : GossipEngine) (entry : GossipEntry)
    (exclude addr : String) :
    ∃ copies, ((g.eagerForward entry exclude).filter fun s => s.addr = addr).map
        EagerSend.entry = List.replicate copies entry ∧
      (copies = 0 → ∀ peer ∈ g.overlay.eagerPeers, peer.addr = addr →
        peer.nodeID = exclude) := by
  refine ⟨_, List.eq_replicate_iff.mpr ⟨rfl, ?_⟩, fun hzero peer hpeer haddr => ?_⟩
  · intro e he
    obtain ⟨s, hs, rfl⟩ := List.mem_map.mp he
    obtain ⟨peer, -, rfl⟩ := List.mem_map.mp (List.mem_filter.mp hs).1
    rfl
  · by_contra hother
    have hsent : ⟨addr, entry⟩ ∈ g.eagerForward entry exclude :=
      List.mem_map.mpr ⟨peer, List.mem_filter.mpr ⟨hpeer, by simpa using hother⟩,
        by rw [haddr]⟩
    have hnone := List.map_eq_nil_iff.mp (List.eq_nil_of_length_eq_zero hzero)
    have hmem : ⟨addr, entry⟩ ∈
        (g.eagerForward entry exclude).filter fun s => s.addr = addr :=
      List.mem_filter.mpr ⟨hsent, by simp⟩
    rw [hnone] at hmem
    cases hmem

theorem enqueueForLazy_to (g : GossipEngine) (entry : GossipEntry)
    (exclude id : String) :
    ∃ copies, (GossipEngine.bufferOf
          (g.enqueueForLazy entry exclude).lazyBuffers id).entries =
        (GossipEngine.bufferOf g.lazyBuffers id).entries ++
          List.replicate copies entry ∧
      (copies = 0 → (∀ peer ∈ g.overlay.lazyPeers, peer.nodeID = id →
          peer.nodeID = exclude) ∨
        entry.seq ≤ (GossipEngine.bufferOf g.lazyBuffers id).peerSeqs entry.topic) := by
  refine ⟨_, GossipEngine.foldl_addLazy_entries entry _ g.lazyBuffers id,
    fun hzero => ?_⟩
  by_cases hknown : (GossipEngine.bufferOf g.lazyBuffers id).peerSeqs
      entry.topic < entry.seq
  · rw [if_pos hknown, List.countP_eq_zero] at hzero
    refine .inl fun peer hpeer hid => ?_
    by_contra hother
    have hkept : peer ∈ g.overlay.lazyPeers.filter fun q => q.nodeID ≠ exclude :=
      List.mem_filter.mpr ⟨hpeer, by simpa using hother⟩
    exact hzero peer hkept (by simpa using hid)
  · exact .inr (not_lt.mp hknown)

theorem underWay_forward (hoverlay : n.engine.overlay = T.overlay k.src)
    (hbuffers : g.lazyBuffers = (n.engine.enqueueForLazy entry exclude).lazyBuffers)
    (hedge : T.IsEdge k) :
    ∃ copies, (n.pass (g, n.engine.eagerForward entry exclude)).underWay T k =
        n.underWay T k ++ List.replicate copies entry ∧
      (copies = 0 → T.nodeID k.dst = exclude ∨
        entry.seq ≤ n.known T entry.topic k) := by
  obtain ⟨peer, hpeer, haddr⟩ := hedge
  have hid := (T.nodeID_eq_iff_addr_eq (T.mem_allPeers hpeer)).mpr haddr
  cases k with
  | eager u v =>
      obtain ⟨copies, hsends, hskip⟩ :=
        eagerForward_to n.engine entry exclude (T.addr v)
      refine ⟨copies, ?_, fun hzero => .inl ?_⟩
      · simp only [underWay, pass, List.map_append, hsends]
      · rw [← hid]
        exact hskip hzero peer (hoverlay ▸ hpeer) haddr
  | lazyBatch u v =>
      obtain ⟨copies, hentries, hskip⟩ :=
        enqueueForLazy_to n.engine entry exclude (T.nodeID v)
      refine ⟨copies, ?_, fun hzero => (hskip hzero).imp_left fun hall => ?_⟩
      · simp only [underWay, pass, hbuffers, hentries, List.append_assoc]
      · rw [← hid]
        exact hall peer (hoverlay ▸ hpeer) hid

theorem known_forward
    (hbuffers : g.lazyBuffers = (n.engine.enqueueForLazy entry exclude).lazyBuffers)
    (topic : UInt16) (sends : List EagerSend) :
    (n.pass (g, sends)).known T topic k = n.known T topic k := by
  cases k with
  | eager u v => rfl
  | lazyBatch u v =>
      simp only [known, pass, hbuffers, GossipEngine.enqueueForLazy,
        GossipEngine.enqueueFor, GossipEngine.foldl_addLazy_peerSeqs]

theorem underWay_runLocal (first : RangeFirst) (rest : List GossipEntry)
    (hoverlay : n.engine.overlay = T.overlay k.src) (hedge : T.IsEdge k) :
    ∃ copies, (n.runLocal first entry rest).underWay T k =
        n.underWay T k ++ List.replicate copies entry ∧
      (copies = 0 → T.nodeID k.dst = "" ∨
        entry.seq ≤ n.known T entry.topic k) :=
  underWay_forward hoverlay rfl hedge

theorem known_runLocal (first : RangeFirst) (rest : List GossipEntry)
    (topic : UInt16) :
    (n.runLocal first entry rest).known T topic k = n.known T topic k :=
  known_forward rfl topic (n.engine.eagerForward entry "")

theorem mark_runLocal (n : Node) (first : RangeFirst) (entry : GossipEntry)
    (rest : List GossipEntry) (topic : UInt16) :
    (n.runLocal first entry rest).mark topic =
      Function.update n.engine.seen.slotSeqs entry.topic
        (max (n.engine.seen.slotSeqs entry.topic) entry.seq) topic := by
  rw [← SeenTracker.shouldProcess_snd_slotSeqs]
  rfl

theorem pass_process_of_new (first : RangeFirst) (sender : String)
    (hnew : n.mark entry.topic < entry.seq) :
    n.pass (n.engine.process first sender entry) =
      n.pass ((n.engine.process first sender entry).1,
        n.engine.eagerForward entry sender) ∧
    (n.engine.process first sender entry).1.lazyBuffers =
      (n.engine.enqueueForLazy entry sender).lazyBuffers := by
  have hsends := n.engine.process_sends first sender entry
  have hbuffers := n.engine.process_lazyBuffers first sender entry
  unfold mark at hnew
  rw [if_pos hnew] at hsends hbuffers
  rw [← hsends]
  exact ⟨rfl, hbuffers⟩

theorem pass_process_of_old (first : RangeFirst) (sender : String)
    (hold : ¬n.mark entry.topic < entry.seq) :
    n.pass (n.engine.process first sender entry) =
      n.withEngine (n.engine.process first sender entry).1 ∧
    (n.engine.process first sender entry).1.lazyBuffers =
      n.engine.lazyBuffers := by
  have hsends := n.engine.process_sends first sender entry
  have hbuffers := n.engine.process_lazyBuffers first sender entry
  unfold mark at hold
  rw [if_neg hold] at hsends hbuffers
  rw [← pass_nil, ← hsends]
  exact ⟨rfl, hbuffers⟩

theorem underWay_process (first : RangeFirst) (sender : String)
    (hoverlay : n.engine.overlay = T.overlay k.src) (hedge : T.IsEdge k) :
    ∃ copies, (n.pass (n.engine.process first sender entry)).underWay T k =
        n.underWay T k ++ List.replicate copies entry ∧
      (¬n.mark entry.topic < entry.seq → copies = 0) ∧
      (n.mark entry.topic < entry.seq → copies = 0 →
        T.nodeID k.dst = sender ∨ entry.seq ≤ n.known T entry.topic k) := by
  by_cases hnew : n.mark entry.topic < entry.seq
  · obtain ⟨hpass, hbuffers⟩ := pass_process_of_new first sender hnew
    obtain ⟨copies, hflow, hskip⟩ := underWay_forward hoverlay hbuffers hedge
    exact ⟨copies, hpass ▸ hflow, fun hold => absurd hnew hold, fun _ => hskip⟩
  · obtain ⟨hpass, hbuffers⟩ := pass_process_of_old first sender hnew
    refine ⟨0, ?_, fun _ => rfl, fun h => absurd h hnew⟩
    rw [hpass, List.replicate_zero, List.append_nil]
    cases k with
    | eager u v => rfl
    | lazyBatch u v => simp only [underWay, withEngine, hbuffers]

theorem mark_process (n : Node) (first : RangeFirst) (sender : String)
    (entry : GossipEntry) (topic : UInt16) :
    (n.pass (n.engine.process first sender entry)).mark topic =
      if topic = entry.topic then max (n.mark topic) entry.seq
      else n.mark topic := by
  have hslots := congrFun (n.engine.process_slotSeqs first sender entry) topic
  refine hslots.trans ?_
  split
  · next htopic =>
      subst htopic
      rw [Function.update_self]
      rfl
  · next htopic => exact Function.update_of_ne htopic _ _

theorem known_process (first : RangeFirst) (sender : String) (topic : UInt16) :
    (n.pass (n.engine.process first sender entry)).known T topic k =
      n.known T topic k := by
  by_cases hnew : n.mark entry.topic < entry.seq
  · exact known_forward (pass_process_of_new first sender hnew).2 topic _
  · have hbuffers := (pass_process_of_old first sender hnew).2
    cases k with
    | eager u v => rfl
    | lazyBatch u v => simp only [known, pass, hbuffers]

theorem underWay_updateSender (sender : String) (marks : List TopicSeq) :
    (n.withEngine (n.engine.updateSender sender marks)).underWay T k =
      n.underWay T k := by
  cases k with
  | eager u v => rfl
  | lazyBatch u v =>
      simp only [underWay, withEngine, GossipEngine.updateSender_entries]

theorem known_updateSender {topic : UInt16} {bound : UInt64} {sender : String}
    {marks : List TopicSeq} (hbefore : n.known T topic k ≤ bound)
    (hmarks : T.nodeID k.dst = sender →
      ∀ m ∈ marks, m.topic = topic → m.seq ≤ bound) :
    (n.withEngine (n.engine.updateSender sender marks)).known T topic k ≤ bound := by
  cases k with
  | eager u v => exact hbefore
  | lazyBatch u v =>
      rcases n.engine.bufferOf_updateSender sender (T.nodeID v) marks with
        hsame | ⟨hid, hupdated⟩
      · simpa only [known, withEngine, hsame] using hbefore
      · simp only [known, withEngine, hupdated]
        exact LazyBuffer.updatePeerSeqs_le hbefore (hmarks hid)

theorem underWay_flush {n' : Node} {order : List UInt16}
    (hoverlay : n.engine.overlay = T.overlay k.src)
    (hflush : n.flush order = some n') :
    n'.underWay T k = n.underWay T k ∧
    ∀ topic, n'.known T topic k = n.known T topic k := by
  have hcollected := GossipEngine.collectBatches_collected
    (n.engine.seen.highWaterMarks order) n.engine.overlay.lazyPeers
    n.engine.lazyBuffers
  rw [flush_eq_some hflush]
  cases k with
  | eager u v => exact ⟨rfl, fun _ => rfl⟩
  | lazyBatch u v =>
      have hmoved := hcollected.moved (T.nodeID v) (T.addr v) fun peer hpeer =>
        T.nodeID_eq_iff_addr_eq (List.mem_append_right _ (hoverlay ▸ hpeer))
      refine ⟨?_, fun topic => ?_⟩
      · simp only [underWay, GossipEngine.flushLazyBatches, List.flatMap_append,
          List.flatMap_map, List.append_assoc, hmoved]
      · simp only [known, GossipEngine.flushLazyBatches, hcollected.peerSeqs]

end Node

end GossipMesh.Cluster.Lossless
