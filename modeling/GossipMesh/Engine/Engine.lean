import GossipMesh.Engine.EagerStream
import GossipMesh.Engine.Repair
import GossipMesh.Overlay.Reclassify

/-!
# The gossip engine

The handlers of one node, each as a function from the node's state to its next
state and the eager messages it sends.  `from` is what the transport passes,
the remote address of the connection; exclusion compares it with node IDs.
-/

namespace GossipMesh.Engine

open GossipMesh.Foundation

abbrev LazyBuffers := String → Option LazyBuffer

structure GossipEngine where
  overlay : Overlay
  seen : SeenTracker
  applier : OrderedApplier
  cache : Cache
  localCh : List GossipEntry
  lazyBuffers : LazyBuffers

structure EagerSend where
  addr : String
  entry : GossipEntry
  deriving DecidableEq

namespace EagerSend

def msg (s : EagerSend) : Bytes := encodeEagerMessage s.entry

def useStream (s : EagerSend) : Bool := decide (maxDatagramPayload < s.msg.length)

end EagerSend

structure PeerBatch where
  addr : String
  batch : LazyBatch

def gapBufferOrDefault (configured : Int) : Nat :=
  if configured ≤ 0 then 64 else configured.toNat

namespace GossipEngine

def new (overlay : Overlay) (maxGapBuffer : Int) : GossipEngine where
  overlay := overlay
  seen := .empty
  applier := ⟨gapBufferOrDefault maxGapBuffer, fun _ => .fresh 0⟩
  cache := ∅
  localCh := []
  lazyBuffers := fun _ => none

def setInitialSeq (g : GossipEngine) (topic : UInt16) (seq : UInt64) :
    GossipEngine :=
  { g with
    seen := g.seen.setTopicSeq topic seq
    applier := g.applier.setNextSeq topic (seq + 1) }

def enqueue (g : GossipEngine) (entry : GossipEntry) : Option GossipEngine :=
  if g.localCh.length < 256 then
    some { g with localCh := g.localCh ++ [entry] }
  else
    -- the channel is full and the caller blocks
    none

/-! ## The parts of a handler -/

def markSeen (g : GossipEngine) (entry : GossipEntry) : GossipEngine :=
  { g with seen := (g.seen.shouldProcess entry.topic entry.seq).2 }

def isNew (g : GossipEngine) (entry : GossipEntry) : Bool :=
  (g.seen.shouldProcess entry.topic entry.seq).1

def cacheForRepair (first : RangeFirst) (g : GossipEngine)
    (entry : GossipEntry) : GossipEngine :=
  { g with cache := cacheEntry first g.cache entry }

def apply (g : GossipEngine) (entry : GossipEntry) : GossipEngine :=
  { g with
    applier := g.applier.receive entry.topic entry.seq entry.payload }

def eagerForward (g : GossipEngine) (entry : GossipEntry)
    (excludeNodeID : String) : List EagerSend :=
  (g.overlay.eagerPeers.filter fun peer => peer.nodeID ≠ excludeNodeID).map
    fun peer => ⟨peer.addr, entry⟩

def bufferOf (buffers : LazyBuffers) (nodeID : String) : LazyBuffer :=
  (buffers nodeID).getD .new

def addLazy (entry : GossipEntry) (buffers : LazyBuffers)
    (peer : OverlayPeer) : LazyBuffers :=
  Function.update buffers peer.nodeID
    (some ((bufferOf buffers peer.nodeID).add entry))

/-- The locked part of `enqueueForLazy`, on a snapshot of the lazy peers. -/
def enqueueFor (peers : List OverlayPeer) (g : GossipEngine)
    (entry : GossipEntry) (excludeNodeID : String) : GossipEngine :=
  { g with
    lazyBuffers := (peers.filter fun peer => peer.nodeID ≠ excludeNodeID).foldl
      (addLazy entry) g.lazyBuffers }

def enqueueForLazy (g : GossipEngine) (entry : GossipEntry)
    (excludeNodeID : String) : GossipEngine :=
  g.enqueueFor g.overlay.lazyPeers entry excludeNodeID

/-! ## The handlers -/

def handleLocal (first : RangeFirst) (g : GossipEngine) (entry : GossipEntry) :
    GossipEngine × List EagerSend :=
  let g := (g.markSeen entry).cacheForRepair first entry
  (g.enqueueForLazy entry "", g.eagerForward entry "")

/-- What both receive handlers do with one decoded entry. -/
def process (first : RangeFirst) (g : GossipEngine) (sender : String)
    (entry : GossipEntry) : GossipEngine × List EagerSend :=
  if g.isNew entry then
    let g := ((g.markSeen entry).cacheForRepair first entry).apply entry
    (g.enqueueForLazy entry sender, g.eagerForward entry sender)
  else (g.markSeen entry, [])

def onEagerReceive (first : RangeFirst) (g : GossipEngine) (sender : String)
    (data : Bytes) : GossipEngine × List EagerSend :=
  match decodeEagerMessage data with
  | none => (g, [])
  | some entry => g.process first sender entry

def processAll (first : RangeFirst) (g : GossipEngine) (sender : String) :
    List GossipEntry → GossipEngine × List EagerSend
  | [] => (g, [])
  | entry :: entries =>
      let (g, sends) := g.process first sender entry
      let (g, more) := g.processAll first sender entries
      (g, sends ++ more)

def updateSender (g : GossipEngine) (sender : String) (marks : List TopicSeq) :
    GossipEngine :=
  match g.lazyBuffers sender with
  | none => g
  | some buf =>
      { g with
        lazyBuffers := Function.update g.lazyBuffers sender
          (some (buf.updatePeerSeqs marks)) }

def onLazyBatchReceive (z : Zstd) (first : RangeFirst) (g : GossipEngine)
    (sender : String) (reader : Bytes) : GossipEngine × List EagerSend :=
  match readLazyBatch z reader with
  | .error _ => (g, [])
  | .ok batch =>
      (g.updateSender sender batch.senderHighWaterMarks).processAll first sender
        batch.entries

/-- The loop of `flushLazyBatches` that empties the buffers. -/
def collectBatches (marks : List TopicSeq) :
    List OverlayPeer → LazyBuffers → List PeerBatch × LazyBuffers
  | [], buffers => ([], buffers)
  | peer :: peers, buffers =>
      match buffers peer.nodeID with
      | none => collectBatches marks peers buffers
      | some buf =>
          if buf.len = 0 then collectBatches marks peers buffers
          else
            let (entries, buf) := buf.flush
            let (batches, buffers) := collectBatches marks peers
              (Function.update buffers peer.nodeID (some buf))
            (⟨peer.addr, ⟨entries, marks⟩⟩ :: batches, buffers)

def flushLazyBatches (g : GossipEngine) (order : List UInt16) :
    GossipEngine × List PeerBatch :=
  let (batches, buffers) := collectBatches (g.seen.highWaterMarks order)
    g.overlay.lazyPeers g.lazyBuffers
  ({ g with lazyBuffers := buffers }, batches)

/-! ## What a handler does to the parts of the state -/

section Parts

variable (first : RangeFirst) (g : GossipEngine) (sender : String)
  (entry : GossipEntry)

theorem isNew_iff : g.isNew entry = true ↔
    g.seen.slotSeqs entry.topic < entry.seq := by
  simp [isNew]

@[simp] theorem process_overlay :
    (g.process first sender entry).1.overlay = g.overlay := by
  unfold process
  split <;> rfl

@[simp] theorem process_localCh :
    (g.process first sender entry).1.localCh = g.localCh := by
  unfold process
  split <;> rfl

@[simp] theorem process_maxGapBuffer :
    (g.process first sender entry).1.applier.maxGapBuffer =
      g.applier.maxGapBuffer := by
  unfold process
  split <;> rfl

@[simp] theorem process_slotSeqs :
    (g.process first sender entry).1.seen.slotSeqs =
      Function.update g.seen.slotSeqs entry.topic
        (max (g.seen.slotSeqs entry.topic) entry.seq) := by
  rw [← SeenTracker.shouldProcess_snd_slotSeqs]
  unfold process
  split <;> rfl

theorem process_slots (topic : UInt16) :
    (g.process first sender entry).1.applier.slots topic =
      if topic = entry.topic ∧ g.seen.slotSeqs topic < entry.seq then
        (g.applier.slots topic).receive g.applier.maxGapBuffer entry.seq
          entry.payload
      else g.applier.slots topic := by
  unfold process
  simp only [isNew_iff]
  by_cases htopic : topic = entry.topic
  · subst htopic
    simp only [true_and]
    split
    · exact OrderedApplier.setSlot_slots_self _ _ _
    · rfl
  · simp only [htopic, false_and, if_false]
    split
    · exact OrderedApplier.setSlot_slots_ne _ _ htopic
    · rfl

theorem process_sends :
    (g.process first sender entry).2 =
      if g.seen.slotSeqs entry.topic < entry.seq then
        g.eagerForward entry sender
      else [] := by
  unfold process
  simp only [isNew_iff]
  split <;> rfl

theorem process_lazyBuffers :
    (g.process first sender entry).1.lazyBuffers =
      if g.seen.slotSeqs entry.topic < entry.seq then
        (g.enqueueForLazy entry sender).lazyBuffers
      else g.lazyBuffers := by
  unfold process
  simp only [isNew_iff]
  split <;> rfl

end Parts

@[simp] theorem updateSender_overlay (g : GossipEngine) (sender : String)
    (marks : List TopicSeq) :
    (g.updateSender sender marks).overlay = g.overlay := by
  unfold updateSender
  split <;> rfl

@[simp] theorem updateSender_localCh (g : GossipEngine) (sender : String)
    (marks : List TopicSeq) :
    (g.updateSender sender marks).localCh = g.localCh := by
  unfold updateSender
  split <;> rfl

@[simp] theorem updateSender_seen (g : GossipEngine) (sender : String)
    (marks : List TopicSeq) :
    (g.updateSender sender marks).seen = g.seen := by
  unfold updateSender
  split <;> rfl

@[simp] theorem updateSender_cache (g : GossipEngine) (sender : String)
    (marks : List TopicSeq) :
    (g.updateSender sender marks).cache = g.cache := by
  unfold updateSender
  split <;> rfl

@[simp] theorem updateSender_applier (g : GossipEngine) (sender : String)
    (marks : List TopicSeq) :
    (g.updateSender sender marks).applier = g.applier := by
  unfold updateSender
  split <;> rfl

/-! ## Lazy buffers -/

theorem bufferOf_update (buffers : LazyBuffers) (id other : String)
    (buf : LazyBuffer) :
    bufferOf (Function.update buffers id (some buf)) other =
      if other = id then buf else bufferOf buffers other := by
  unfold bufferOf
  by_cases h : other = id
  · subst h
    simp
  · simp [h]

theorem bufferOf_updateSender (g : GossipEngine) (sender id : String)
    (marks : List TopicSeq) :
    bufferOf (g.updateSender sender marks).lazyBuffers id =
        bufferOf g.lazyBuffers id ∨
      id = sender ∧ bufferOf (g.updateSender sender marks).lazyBuffers id =
        (bufferOf g.lazyBuffers id).updatePeerSeqs marks := by
  unfold updateSender
  split
  · exact .inl rfl
  · next buf hbuf =>
      rw [bufferOf_update]
      by_cases hid : id = sender
      · refine .inr ⟨hid, ?_⟩
        simp [hid, bufferOf, hbuf]
      · exact .inl (if_neg hid)

theorem updateSender_entries (g : GossipEngine) (sender id : String)
    (marks : List TopicSeq) :
    (bufferOf (g.updateSender sender marks).lazyBuffers id).entries =
      (bufferOf g.lazyBuffers id).entries := by
  rcases g.bufferOf_updateSender sender id marks with hsame | ⟨-, hupdated⟩
  · rw [hsame]
  · rw [hupdated, LazyBuffer.updatePeerSeqs_entries]

theorem le_updateSender_peerSeqs (g : GossipEngine) (sender id : String)
    (marks : List TopicSeq) (topic : UInt16) :
    (bufferOf g.lazyBuffers id).peerSeqs topic ≤
      (bufferOf (g.updateSender sender marks).lazyBuffers id).peerSeqs topic := by
  rcases g.bufferOf_updateSender sender id marks with hsame | ⟨-, hupdated⟩
  · rw [hsame]
  · rw [hupdated]
    exact LazyBuffer.le_updatePeerSeqs _ marks topic

theorem foldl_addLazy_peerSeqs (entry : GossipEntry) (peers : List OverlayPeer)
    (buffers : LazyBuffers) (id : String) :
    (bufferOf (peers.foldl (addLazy entry) buffers) id).peerSeqs =
      (bufferOf buffers id).peerSeqs := by
  induction peers generalizing buffers with
  | nil => rfl
  | cons peer peers ih =>
      rw [List.foldl_cons, ih, addLazy, bufferOf_update]
      split
      · next h =>
          subst h
          simp
      · rfl

theorem foldl_addLazy_entries (entry : GossipEntry) (peers : List OverlayPeer)
    (buffers : LazyBuffers) (id : String) :
    (bufferOf (peers.foldl (addLazy entry) buffers) id).entries =
      (bufferOf buffers id).entries ++
        List.replicate
          (if (bufferOf buffers id).peerSeqs entry.topic < entry.seq then
            peers.countP (fun peer => peer.nodeID = id) else 0) entry := by
  induction peers generalizing buffers with
  | nil => simp
  | cons peer peers ih =>
      have hseqs := foldl_addLazy_peerSeqs entry [peer] buffers id
      simp only [List.foldl_cons, List.foldl_nil] at hseqs
      rw [List.foldl_cons, ih, hseqs, addLazy, bufferOf_update]
      by_cases hid : id = peer.nodeID
      · subst hid
        rw [if_pos rfl, LazyBuffer.add_entries]
        split
        · simp [List.replicate_succ]
        · simp
      · rw [if_neg hid, List.countP_cons_of_neg (by simpa using Ne.symm hid)]

structure Collected (marks : List TopicSeq) (peers : List OverlayPeer)
    (buffers : LazyBuffers) (out : List PeerBatch × LazyBuffers) : Prop where
  marks : ∀ b ∈ out.1, b.batch.senderHighWaterMarks = marks
  addressed : ∀ b ∈ out.1, ∃ peer ∈ peers, peer.addr = b.addr
  batched : ∀ b ∈ out.1, ∀ e ∈ b.batch.entries,
    ∃ id, e ∈ (bufferOf buffers id).entries
  kept : ∀ id, ∀ e ∈ (bufferOf out.2 id).entries,
    e ∈ (bufferOf buffers id).entries
  peerSeqs : ∀ id, (bufferOf out.2 id).peerSeqs = (bufferOf buffers id).peerSeqs
  moved : ∀ id addr, (∀ peer ∈ peers, peer.nodeID = id ↔ peer.addr = addr) →
    ((out.1.filter fun b => b.addr = addr).flatMap fun b => b.batch.entries) ++
      (bufferOf out.2 id).entries = (bufferOf buffers id).entries

section Collect

variable {marks : List TopicSeq} {peer : OverlayPeer} {peers : List OverlayPeer}
  {buffers : LazyBuffers} {out : List PeerBatch × LazyBuffers}

theorem Collected.skip (h : Collected marks peers buffers out) :
    Collected marks (peer :: peers) buffers out where
  marks := h.marks
  addressed b hb := by
    obtain ⟨other, hother, haddr⟩ := h.addressed b hb
    exact ⟨other, by simp [hother], haddr⟩
  batched := h.batched
  kept := h.kept
  peerSeqs := h.peerSeqs
  moved id addr hnamed :=
    h.moved id addr fun other hother => hnamed other (by simp [hother])

private theorem Collected.flush {buf : LazyBuffer}
    (hbuf : buffers peer.nodeID = some buf)
    (h : Collected marks peers
      (Function.update buffers peer.nodeID (some buf.flush.2)) out) :
    Collected marks (peer :: peers) buffers
      (⟨peer.addr, buf.flush.1, marks⟩ :: out.1, out.2) := by
  have hfound : bufferOf buffers peer.nodeID = buf := by simp [bufferOf, hbuf]
  have hold : ∀ id, ∀ e ∈ (bufferOf (Function.update buffers peer.nodeID
      (some buf.flush.2)) id).entries, e ∈ (bufferOf buffers id).entries := by
    intro id e he
    rw [bufferOf_update] at he
    split at he
    · simp [LazyBuffer.flush] at he
    · exact he
  refine ⟨?_, ?_, ?_, fun id e he => hold id e (h.kept id e he), ?_, ?_⟩
  · simpa using h.marks
  · intro b hb
    rcases List.mem_cons.mp hb with rfl | hb
    · exact ⟨peer, by simp, rfl⟩
    · exact h.skip.addressed b hb
  · intro b hb e he
    rcases List.mem_cons.mp hb with rfl | hb
    · exact ⟨peer.nodeID, hfound ▸ he⟩
    · obtain ⟨id, hid⟩ := h.batched b hb e he
      exact ⟨id, hold id e hid⟩
  · intro id
    rw [h.peerSeqs, bufferOf_update]
    split
    · next hid =>
        rw [hid, hfound]
        rfl
    · rfl
  · intro id addr hnamed
    have hrest := h.moved id addr fun other hother => hnamed other (by simp [hother])
    rw [bufferOf_update] at hrest
    by_cases hid : peer.nodeID = id
    · subst hid
      rw [List.filter_cons_of_pos (by simpa using (hnamed peer (by simp)).mp rfl),
        List.flatMap_cons, List.append_assoc, hrest, hfound]
      simp [LazyBuffer.flush]
    · have haddr : peer.addr ≠ addr := fun heq =>
        hid ((hnamed peer (by simp)).mpr heq)
      rw [List.filter_cons_of_neg (by simpa using haddr), hrest,
        if_neg (Ne.symm hid)]

theorem collectBatches_collected (marks : List TopicSeq)
    (peers : List OverlayPeer) (buffers : LazyBuffers) :
    Collected marks peers buffers (collectBatches marks peers buffers) := by
  induction peers generalizing buffers with
  | nil =>
      rw [collectBatches]
      exact ⟨by simp, by simp, by simp, by simp, by simp, by simp⟩
  | cons peer peers ih =>
      rw [collectBatches]
      split
      · exact (ih buffers).skip
      · next buf hbuf =>
          split
          · exact (ih buffers).skip
          · exact (ih _).flush hbuf

theorem collectBatches_reaches (marks : List TopicSeq) (peers : List OverlayPeer)
    {buffers : LazyBuffers} {id : String} {e : GossipEntry}
    (he : e ∈ (bufferOf buffers id).entries) :
    (∃ peer ∈ peers, peer.nodeID = id ∧
      ∃ b ∈ (collectBatches marks peers buffers).1,
        b.addr = peer.addr ∧ e ∈ b.batch.entries) ∨
    (∀ peer ∈ peers, peer.nodeID ≠ id) ∧
      e ∈ (bufferOf (collectBatches marks peers buffers).2 id).entries := by
  induction peers generalizing buffers with
  | nil => exact .inr ⟨by simp, he⟩
  | cons peer peers ih =>
      rw [collectBatches]
      cases hbuf : buffers peer.nodeID with
      | none =>
          have hother : peer.nodeID ≠ id := by
            rintro rfl
            simp [bufferOf, hbuf, LazyBuffer.new] at he
          rcases ih he with ⟨q, hq, hreached⟩ | ⟨hnone, hkept⟩
          · exact .inl ⟨q, by simp [hq], hreached⟩
          · exact .inr ⟨by simpa [hother] using hnone, hkept⟩
      | some buf =>
          have hfound : bufferOf buffers peer.nodeID = buf := by
            simp [bufferOf, hbuf]
          dsimp only
          split
          · next hlen =>
              have hother : peer.nodeID ≠ id := by
                rintro rfl
                rw [hfound, List.length_eq_zero_iff.mp hlen] at he
                cases he
              rcases ih he with ⟨q, hq, hreached⟩ | ⟨hnone, hkept⟩
              · exact .inl ⟨q, by simp [hq], hreached⟩
              · exact .inr ⟨by simpa [hother] using hnone, hkept⟩
          · by_cases hid : peer.nodeID = id
            · subst hid
              exact .inl ⟨peer, by simp, rfl, _, List.mem_cons_self, rfl,
                hfound ▸ he⟩
            · have hrest : e ∈ (bufferOf (Function.update buffers peer.nodeID
                  (some buf.flush.2)) id).entries := by
                rwa [bufferOf_update, if_neg (Ne.symm hid)]
              rcases ih hrest with ⟨q, hq, hname, b, hb, hreached⟩ | ⟨hnone, hkept⟩
              · exact .inl ⟨q, by simp [hq], hname, b,
                  List.mem_cons_of_mem _ hb, hreached⟩
              · exact .inr ⟨by simpa [hid] using hnone, hkept⟩

end Collect

end GossipEngine

end GossipMesh.Engine
