import GossipMesh.Cluster.Cluster
import GossipMesh.Engine.Echo
import GossipMesh.Overlay.Diversity

/-!
# Marks a peer advertises

A lazy batch carries the marks of its sender, and the buffer kept for the
sender skips entries at or below them.  Buffers are kept by node ID, and the
handler looks for the one of its `from` argument, the remote address.  Of a
peer whose address is not its node ID nothing is ever recorded that way: what
its buffer skips is what was recorded under its node ID.
-/

namespace GossipMesh.Cluster

open GossipMesh.Foundation GossipMesh.Engine

namespace Node

def recordedSeq (n : Node) (id : String) (topic : UInt16) : UInt64 :=
  (GossipEngine.bufferOf n.engine.lazyBuffers id).peerSeqs topic

/-- The mark an event records for a node ID: `from` is that ID and has a buffer. -/
def credit (z : Zstd) (id : String) (topic : UInt16) (n : Node) : Event → UInt64
  | .receive (.uniStream sender (streamType :: bytes)) =>
      if streamType = streamTypeLazyBatch ∧ sender = id ∧
          (n.engine.lazyBuffers id).isSome then
        match readLazyBatch z bytes with
        | .error _ => 0
        | .ok batch => markOf topic batch.senderHighWaterMarks
      else 0
  | _ => 0

def credited (z : Zstd) (id : String) (topic : UInt16) : Node → List Event → UInt64
  | _, [] => 0
  | n, event :: events =>
      max (n.credit z id topic event) (match n.step z event with
        | none => 0
        | some n' => credited z id topic n' events)

variable {z : Zstd} {id : String} {topic : UInt16} {n n' : Node}

theorem recordedSeq_of_lazyBuffers (h : n'.engine.lazyBuffers = n.engine.lazyBuffers) :
    n'.recordedSeq id topic = max (n.recordedSeq id topic) 0 := by
  rw [recordedSeq, h, max_eq_left]
  · rfl
  · exact UInt64.zero_le

private theorem recordedSeq_updateSender (sender : String) (marks : List TopicSeq) :
    (n.withEngine (n.engine.updateSender sender marks)).recordedSeq id topic =
      max (n.recordedSeq id topic)
        (if sender = id ∧ (n.engine.lazyBuffers id).isSome then markOf topic marks else 0) := by
  by_cases hbuf : sender = id ∧ (n.engine.lazyBuffers id).isSome
  · obtain ⟨rfl, hsome⟩ := hbuf
    obtain ⟨buf, hbuf⟩ := Option.isSome_iff_exists.mp hsome
    rw [if_pos ⟨rfl, hsome⟩]
    simp [recordedSeq, withEngine, GossipEngine.updateSender, hbuf, GossipEngine.bufferOf,
      LazyBuffer.updatePeerSeqs_peerSeqs]
  · rw [if_neg hbuf, max_eq_left UInt64.zero_le]
    unfold recordedSeq withEngine GossipEngine.updateSender
    dsimp only
    split
    · rfl
    · next buf hsome =>
        rw [GossipEngine.bufferOf_update, if_neg]
        rintro rfl
        exact hbuf ⟨rfl, by simp [hsome]⟩

private theorem recordedSeq_uniStream (sender : String) (bytes : Bytes) :
    (n.onUniStream z sender bytes).recordedSeq id topic =
      max (n.recordedSeq id topic) (n.credit z id topic (.receive (.uniStream sender bytes))) := by
  cases bytes with
  | nil => exact recordedSeq_of_lazyBuffers rfl
  | cons streamType bytes =>
      simp only [onUniStream, credit]
      by_cases htype : streamType = streamTypeLazyBatch
      · rw [if_pos htype]
        simp only [htype, true_and, onLazyStream]
        cases readLazyBatch z bytes with
        | error err =>
            rw [ite_self]
            exact recordedSeq_of_lazyBuffers rfl
        | ok batch => exact recordedSeq_updateSender sender batch.senderHighWaterMarks
      · have hother : ¬ (streamType = streamTypeLazyBatch ∧ sender = id ∧
            (n.engine.lazyBuffers id).isSome = true) := fun h => htype h.1
        rw [if_neg htype, if_neg hother]
        split
        · exact recordedSeq_of_lazyBuffers rfl
        · exact recordedSeq_of_lazyBuffers rfl

private theorem recordedSeq_task (first : RangeFirst) (t : Task) (g : GossipEngine)
    (entry : GossipEntry) (rest : List GossipEntry) :
    (GossipEngine.bufferOf (t.operate first g entry rest).engine.lazyBuffers id).peerSeqs =
      (GossipEngine.bufferOf g.lazyBuffers id).peerSeqs := by
  unfold Task.operate
  cases t.phase with
  | enqueue peers => exact GossipEngine.foldl_addLazy_peerSeqs _ _ _ _
  | seen | cache | apply | eagerForward | lazyPeers => rfl

theorem step_recordedSeq {event : Event} (h : n.step z event = some n') :
    n'.recordedSeq id topic =
      max (n.recordedSeq id topic) (n.credit z id topic event) := by
  have hsame : ∀ {m : Node}, m.recordedSeq id topic = n.recordedSeq id topic →
      m.recordedSeq id topic = max (n.recordedSeq id topic) 0 := by
    intro m hm
    rw [hm, max_eq_left UInt64.zero_le]
  cases event with
  | act a =>
      cases acts_of_act h with
      | task i first t entry rest ht hqueue =>
          exact hsame (congrFun (recordedSeq_task first t n.engine entry rest) topic)
      | finishFlush peers marks hflushing =>
          exact hsame (congrFun
            ((GossipEngine.collectBatches_collected marks peers n.engine.lazyBuffers).peerSeqs id)
            topic)
      | enqueue | takeLocal | startFlush | expire | repairFail | serveRepair | reclassify
      | setTopicSeq | setNextSeq => exact recordedSeq_of_lazyBuffers rfl
  | receive input =>
      cases input with
      | datagram sender msg =>
          cases h
          exact recordedSeq_of_lazyBuffers rfl
      | uniStream sender bytes =>
          cases h
          exact recordedSeq_uniStream sender bytes
      | repairReply t missing reply =>
          simp only [step, receive, onRepairReply] at h
          split at h
          · cases h
            exact recordedSeq_of_lazyBuffers rfl
          · cases h
            exact recordedSeq_of_lazyBuffers rfl
          · obtain ⟨o, -, rfl⟩ := Option.map_eq_some_iff.mp h
            exact recordedSeq_of_lazyBuffers rfl

private theorem exec_recordedSeq {events : List Event} (h : exec (step z) n events = some n') :
    n'.recordedSeq id topic =
      max (n.recordedSeq id topic) (credited z id topic n events) := by
  induction events generalizing n with
  | nil =>
      cases h
      rw [credited, max_eq_left UInt64.zero_le]
  | cons event events ih =>
      obtain ⟨m, hstep, hrest⟩ := exec_cons_eq_some.mp h
      rw [ih hrest, step_recordedSeq hstep, credited, hstep, max_assoc]

private theorem enqueue_lazyEntries_iff {i : Nat} {first : RangeFirst} {t : Task}
    {peers : List OverlayPeer} {entry : GossipEntry} {rest : List GossipEntry}
    (ht : n.tasks[i]? = some t) (hphase : t.phase = .enqueue peers)
    (hqueue : t.queue = entry :: rest) (h : n.act (.task i first) = some n')
    (peer : OverlayPeer) :
    n'.engine.lazyEntries peer = n.engine.lazyEntries peer ↔
      (∀ q ∈ peers, q.nodeID = peer.nodeID → q.nodeID = t.sender) ∨
        entry.seq ≤ n.recordedSeq peer.nodeID entry.topic := by
  have hbuffers : n'.engine.lazyBuffers =
      (peers.filter fun q => q.nodeID ≠ t.sender).foldl (GossipEngine.addLazy entry)
        n.engine.lazyBuffers := by
    simp only [act, runTask, ht, Option.bind_eq_bind, Option.bind_some, Task.step, hqueue,
      Option.some.injEq] at h
    rw [← h]
    simp [Task.operate, hphase, GossipEngine.enqueueFor]
  have hadded := GossipEngine.foldl_addLazy_entries entry
    (peers.filter fun q => q.nodeID ≠ t.sender) n.engine.lazyBuffers peer.nodeID
  unfold GossipEngine.lazyEntries
  rw [hbuffers, hadded, ← recordedSeq, List.append_right_eq_self, List.replicate_eq_nil_iff]
  by_cases hknown : n.recordedSeq peer.nodeID entry.topic < entry.seq
  · rw [or_iff_left (not_le.mpr hknown), if_pos hknown, List.countP_eq_zero]
    simp only [List.mem_filter, decide_eq_true_eq, and_imp]
    constructor
    · intro hnone q hq hid
      by_contra hsender
      exact hnone q hq hsender hid
    · intro hall q hq hsender hid
      exact hsender (hall q hq hid)
  · exact iff_of_true (if_neg hknown) (.inr (not_lt.mp hknown))

/--
After a lazy batch from the address of a peer and any run that follows, an
entry is withheld from the buffer of the peer exactly if no lazy peer of the
handler's snapshot has its node ID, the excluded sender apart, or a mark at or
above the entry was recorded for its node ID before the batch or after it.  The
marks of the batch itself play no part.
-/
theorem withheld_after_batch_iff (z : Zstd) (n n₁ n₂ n₃ : Node) (peer : OverlayPeer)
    (hne : peer.nodeID ≠ peer.addr) (bytes : Bytes)
    (hbatch : n.step z (.receive (.uniStream peer.addr bytes)) = some n₁)
    (events : List Event) (hrun : exec (step z) n₁ events = some n₂)
    (i : Nat) (first : RangeFirst) (t : Task) (peers : List OverlayPeer) (entry : GossipEntry)
    (rest : List GossipEntry) (ht : n₂.tasks[i]? = some t) (hphase : t.phase = .enqueue peers)
    (hqueue : t.queue = entry :: rest)
    (henqueue : n₂.step z (.act (.task i first)) = some n₃) :
    n₃.engine.lazyEntries peer = n₂.engine.lazyEntries peer ↔
      (∀ q ∈ peers, q.nodeID = peer.nodeID → q.nodeID = t.sender) ∨
        entry.seq ≤ max (n.recordedSeq peer.nodeID entry.topic)
          (credited z peer.nodeID entry.topic n₁ events) := by
  have hcredit : n.credit z peer.nodeID entry.topic
      (.receive (.uniStream peer.addr bytes)) = 0 := by
    cases bytes with
    | nil => rfl
    | cons streamType bytes =>
        simp only [credit]
        rw [if_neg fun h => hne h.2.1.symm]
  rw [enqueue_lazyEntries_iff ht hphase hqueue henqueue, exec_recordedSeq hrun,
    step_recordedSeq hbatch, hcredit, max_eq_left (UInt64.zero_le)]

noncomputable def reclassifyRegions : Event := .act (.reclassify .insertion Overlay.twoRegions)

def peerC : OverlayPeer := ⟨"c", "c:1", 2000000, false⟩

def peerE : OverlayPeer := ⟨"e", "e:1", 101000000, false⟩

noncomputable def forwarded (i : Nat) (entry : GossipEntry) : List Event :=
  .receive (.datagram "b:1" (encodeEagerMessage entry)) ::
    List.replicate 5 (.act (.task i .any))

def marksFrom (sender : String) : Event :=
  .receive (.uniStream sender (lazyStream .stored ⟨[], [⟨1, 5⟩]⟩))

theorem withheld_after_batch_recorded :
    ∃ n n₁ n₂ n₃, exec (step .stored) (start ⟨"a", ⟨0, 0, 0, 0⟩, 0, [(1, 0)]⟩)
        (reclassifyRegions :: forwarded 0 ⟨1, 1, [1]⟩ ++
          [.act (.task 0 .any), marksFrom "c"]) = some n ∧
      n.step .stored (marksFrom "c:1") = some n₁ ∧
      exec (step .stored) n₁ (forwarded 3 ⟨1, 3, [3]⟩) = some n₂ ∧
      n₂.step .stored (.act (.task 3 .any)) = some n₃ ∧
      n₃.engine.lazyEntries peerC = n₂.engine.lazyEntries peerC := by
  have hsome : (exec (step .stored) (start ⟨"a", ⟨0, 0, 0, 0⟩, 0, [(1, 0)]⟩)
      (reclassifyRegions :: forwarded 0 ⟨1, 1, [1]⟩ ++
        [.act (.task 0 .any), marksFrom "c"])).isSome := by
    decide
  obtain ⟨n, hn⟩ := Option.isSome_iff_exists.mp hsome
  have hrest : ∀ n, exec (step .stored) (start ⟨"a", ⟨0, 0, 0, 0⟩, 0, [(1, 0)]⟩)
      (reclassifyRegions :: forwarded 0 ⟨1, 1, [1]⟩ ++
        [.act (.task 0 .any), marksFrom "c"]) = some n →
      n.recordedSeq "c" 1 = 5 ∧ (n.step .stored (marksFrom "c:1")).isSome ∧
      ∀ n₁, n.step .stored (marksFrom "c:1") = some n₁ →
        (exec (step .stored) n₁ (forwarded 3 ⟨1, 3, [3]⟩)).isSome ∧
        ∀ n₂, exec (step .stored) n₁ (forwarded 3 ⟨1, 3, [3]⟩) = some n₂ →
          n₂.tasks[3]? = some ⟨"b:1", false, .enqueue [peerC, peerE], [⟨1, 3, [3]⟩]⟩ ∧
          (n₂.step .stored (.act (.task 3 .any))).isSome := by
    decide
  obtain ⟨hrecorded, hsome₁, hrest⟩ := hrest n hn
  obtain ⟨n₁, hn₁⟩ := Option.isSome_iff_exists.mp hsome₁
  obtain ⟨hsome₂, hrest⟩ := hrest n₁ hn₁
  obtain ⟨n₂, hn₂⟩ := Option.isSome_iff_exists.mp hsome₂
  obtain ⟨htask, hsome₃⟩ := hrest n₂ hn₂
  obtain ⟨n₃, hn₃⟩ := Option.isSome_iff_exists.mp hsome₃
  refine ⟨n, n₁, n₂, n₃, hn, hn₁, hn₂, hn₃, ?_⟩
  refine (withheld_after_batch_iff .stored n n₁ n₂ n₃ peerC (by decide) _ hn₁ _ hn₂ 3 .any _ _ _ _
    htask rfl rfl hn₃).mpr (.inr (le_max_of_le_left ?_))
  change 3 ≤ n.recordedSeq "c" 1
  rw [hrecorded]
  decide

/-- `c` advertises mark 5 over its own connection, and entry 3 is put into its buffer. -/
theorem advertised_mark_ignored :
    (exec (step .stored) (start ⟨"a", ⟨0, 0, 0, 0⟩, 0, [(1, 0)]⟩)
      (reclassifyRegions :: marksFrom "c:1" :: forwarded 1 ⟨1, 3, [3]⟩ ++
        [.act (.task 1 .any)])).map
        (fun n => (n.engine.overlay.lazyPeers, n.engine.lazyEntries peerC)) =
      some ([peerC, peerE], [⟨1, 3, [3]⟩]) := by
  decide

end Node

end GossipMesh.Cluster
