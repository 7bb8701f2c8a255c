import GossipMesh.Cluster.Lossless

/-!
# One node of a lossless cluster

One topic is followed through the cluster: its origin enqueues the numbers
1, 2, 3, ... and `p` gives their payloads.  Two groups of facts hold of every
node.  `Receiving` is about its engine: no timer of the topic has been started,
a node other than the origin has delivered `1 .. mark`, and the origin has the
numbers above its mark in its local channel.  `Sending` is about what a node
holds and has put on its queues.
-/

namespace GossipMesh.Cluster.Lossless

open GossipMesh.Foundation GossipMesh.Engine

/-- The messages of the entry fit a frame, and its payload is the one of its number. -/
structure Good (topic : UInt16) (p : UInt64 → Payload) (entry : GossipEntry) :
    Prop where
  fits : (encodeEagerMessage entry).length ≤ maxFrame
  payload : entry.topic = topic → entry.payload = p entry.seq

instance (topic : UInt16) (p : UInt64 → Payload) (entry : GossipEntry) :
    Decidable (Good topic p entry) :=
  decidable_of_iff ((encodeEagerMessage entry).length ≤ maxFrame ∧
      (entry.topic = topic → entry.payload = p entry.seq))
    ⟨fun h => ⟨h.1, h.2⟩, fun h => ⟨h.fits, h.payload⟩⟩

inductive Node.Holds (n : Node) (entry : GossipEntry) : Prop
  | localCh (h : entry ∈ n.engine.localCh)
  | eagerOut (a : String) (s : EagerSend) (h : s ∈ n.eagerOut a)
      (he : s.entry = entry)
  | lazyOut (a : String) (b : LazyBatch) (h : b ∈ n.lazyOut a)
      (he : entry ∈ b.entries)
  | buffer (id : String)
      (h : entry ∈ (GossipEngine.bufferOf n.engine.lazyBuffers id).entries)

section Invariants

variable {ι : Type} (T : Topology ι) (topic : UInt16) (p : UInt64 → Payload)
  (origin : ι)

structure Receiving (v : ι) (n : Node) : Prop where
  overlay : n.engine.overlay = T.overlay v
  quiet : (n.engine.applier.slots topic).Quiet
  view : v ≠ origin → ∃ j, TopicView.InStep [] p 0 j (n.engine.topicView topic)
  backlog : v = origin → ∃ k,
    n.published topic = (n.mark topic).toNat + k ∧
    seqsOf topic n.engine.localCh = List.range' ((n.mark topic).toNat + 1) k
  idle : v ≠ origin → seqsOf topic n.engine.localCh = []

structure Sending (v : ι) (n : Node) : Prop where
  good : ∀ e, n.Holds e → Good topic p e
  eagerTo : ∀ a, ∀ s ∈ n.eagerOut a,
    ∃ peer ∈ (T.overlay v).eagerPeers, peer.addr = a
  lazyTo : ∀ a, ∀ b ∈ n.lazyOut a,
    ∃ peer ∈ (T.overlay v).lazyPeers, peer.addr = a
  marks : ∀ a, ∀ b ∈ n.lazyOut a, ∀ m ∈ b.senderHighWaterMarks,
    m.topic = topic → m.seq ≤ n.mark topic

end Invariants

variable {ι : Type} {T : Topology ι} {topic : UInt16} {p : UInt64 → Payload}
  {origin v : ι} {n n' : Node} {entry : GossipEntry}

namespace Receiving

theorem congr (h : Receiving T topic p origin v n)
    (hoverlay : n'.engine.overlay = n.engine.overlay)
    (hview : n'.engine.topicView topic = n.engine.topicView topic)
    (hlocal : seqsOf topic n'.engine.localCh = seqsOf topic n.engine.localCh)
    (hpublished : n'.published topic = n.published topic) :
    Receiving T topic p origin v n' := by
  have hmark : n'.mark topic = n.mark topic := congrArg TopicView.mark hview
  have hslot : n'.engine.applier.slots topic = n.engine.applier.slots topic :=
    congrArg TopicView.slot hview
  exact ⟨hoverlay.trans h.overlay, hslot ▸ h.quiet, hview ▸ h.view,
    by rw [hmark, hlocal, hpublished]; exact h.backlog, hlocal ▸ h.idle⟩

theorem head (h : Receiving T topic p origin v n) {rest : List GossipEntry}
    (hlocal : n.engine.localCh = entry :: rest) (htopic : entry.topic = topic) :
    v = origin ∧ entry.seq.toNat = (n.mark topic).toNat + 1 ∧
    ∃ k, n.published topic = entry.seq.toNat + k ∧
      seqsOf topic rest = List.range' (entry.seq.toNat + 1) k := by
  have hcons : seqsOf topic n.engine.localCh =
      entry.seq.toNat :: seqsOf topic rest := by
    rw [hlocal, seqsOf_cons_self htopic]
  have hv : v = origin := by
    by_contra hv
    rw [h.idle hv] at hcons
    cases hcons
  obtain ⟨k, hcount, hseqs⟩ := h.backlog hv
  rw [hcons] at hseqs
  cases k with
  | zero => cases hseqs
  | succ k =>
      rw [List.range'_succ, List.cons.injEq] at hseqs
      obtain ⟨hseq, hrest⟩ := hseqs
      refine ⟨hv, hseq, k, by omega, ?_⟩
      rw [hrest, hseq]

theorem enqueue (h : Receiving T topic p origin v n)
    (henqueue : n.enqueue entry = some n')
    (hnext : entry.topic = topic →
      v = origin ∧ entry.seq.toNat = n.published topic + 1) :
    Receiving T topic p origin v n' := by
  rw [Node.enqueue_eq_some henqueue]
  by_cases htopic : entry.topic = topic
  · obtain ⟨hv, hseq⟩ := hnext htopic
    have hone : seqsOf topic [entry] = [entry.seq.toNat] :=
      seqsOf_cons_self htopic []
    refine ⟨h.overlay, h.quiet, h.view, fun _ => ?_, fun hne => absurd hv hne⟩
    obtain ⟨k, hcount, hseqs⟩ := h.backlog hv
    refine ⟨k + 1, ?_, ?_⟩
    · have hmore : (seqsOf topic (n.enqueued ++ [entry])).length =
          n.published topic + 1 := by
        simp [hone, Node.published]
      exact hmore.trans (congrArg (· + 1) hcount)
    · simp only [seqsOf_append, hone, hseqs, List.range'_concat]
      rw [hseq, hcount, Nat.one_mul, Nat.add_right_comm]
      rfl
  · have hone : seqsOf topic [entry] = [] := seqsOf_cons_ne htopic []
    exact h.congr rfl rfl (by simp [hone]) (by simp [hone, Node.published])

theorem runLocal (h : Receiving T topic p origin v n)
    {rest : List GossipEntry} (hlocal : n.engine.localCh = entry :: rest)
    (first : RangeFirst) :
    Receiving T topic p origin v (n.runLocal first entry rest) := by
  have hmark := n.mark_runLocal first entry rest topic
  by_cases htopic : entry.topic = topic
  · obtain ⟨hv, hseq, k, hcount, hrest⟩ := h.head hlocal htopic
    have hle : n.engine.seen.slotSeqs topic ≤ entry.seq :=
      UInt64.le_iff_toNat_le.mpr (by unfold Node.mark at hseq; omega)
    rw [htopic, Function.update_self, max_eq_right hle] at hmark
    refine ⟨h.overlay, h.quiet, fun hne => absurd hv hne, fun _ => ⟨k, ?_, ?_⟩,
      fun hne => absurd hv hne⟩
    · rw [hmark]
      exact hcount
    · rw [hmark]
      exact hrest
  · rw [Function.update_of_ne (Ne.symm htopic)] at hmark
    refine h.congr rfl (congrArg₂ TopicView.mk hmark rfl) ?_ rfl
    rw [hlocal, seqsOf_cons_ne htopic]
    rfl

theorem process (h : Receiving T topic p origin v n) (hgood : Good topic p entry)
    (hturn : entry.topic = topic → n.mark topic < entry.seq →
      v ≠ origin ∧ entry.seq.toNat ≤ (n.mark topic).toNat + 1)
    (first : RangeFirst) (sender : String) :
    Receiving T topic p origin v
      (n.pass (n.engine.process first sender entry)) := by
  have hview := n.engine.topicView_process first sender entry topic
  by_cases haccept : entry.topic = topic ∧ n.mark topic < entry.seq
  · obtain ⟨htopic, hnew⟩ := haccept
    obtain ⟨hv, hle⟩ := hturn htopic hnew
    obtain ⟨j, hstep⟩ := h.view hv
    have hentries : ofTopic topic [entry] = [entry] := by simp [ofTopic, htopic]
    rw [hentries] at hview
    obtain ⟨j', -, hstep', -⟩ := hstep.offer n.engine.applier.maxGapBuffer hle
      fun _ => hgood.payload htopic
    -- the entry is the awaited one, so `Receive` delivers it and starts no timer
    have hslot := congrArg TopicView.slot (hview.trans (hstep.offer_next _ hle hnew))
    refine ⟨(n.engine.process_overlay first sender entry).trans h.overlay, ?_,
      fun _ => ⟨j', hview ▸ hstep'⟩, fun heq => absurd heq hv, fun _ => ?_⟩
    · refine (congrArg Slot.Quiet hslot).mpr ?_
      exact ⟨h.quiet.gapTimers, h.quiet.timers, h.quiet.repairs⟩
    · simpa [Node.pass] using h.idle hv
  · refine h.congr (by simp [Node.pass]) ?_ (by simp [Node.pass]) rfl
    refine hview.trans ?_
    by_cases htopic : entry.topic = topic
    · have hold : ¬n.mark topic < entry.seq := fun hnew => haccept ⟨htopic, hnew⟩
      simp [ofTopic, htopic, TopicView.offerAll, TopicView.offer,
        GossipEngine.topicView, show ¬n.engine.seen.slotSeqs topic < entry.seq from hold]
    · simp [ofTopic, htopic, TopicView.offerAll]

theorem flush (h : Receiving T topic p origin v n) {order : List UInt16}
    (hflush : n.flush order = some n') : Receiving T topic p origin v n' := by
  rw [Node.flush_eq_some hflush]
  exact h.congr rfl rfl rfl rfl

theorem updateSender (h : Receiving T topic p origin v n) (sender : String)
    (marks : List TopicSeq) :
    Receiving T topic p origin v
      (n.withEngine (n.engine.updateSender sender marks)) :=
  h.congr (by simp [Node.withEngine])
    (by simp [Node.withEngine, GossipEngine.topicView])
    (by simp [Node.withEngine]) rfl

theorem gapTimer (h : Receiving T topic p origin v n) {other : UInt16}
    {act : Engine.Action} (hact : n.gapTimer other act = some n')
    (hblocked : ∀ gap s, Slot.Quiet s → Slot.step gap s act = none) :
    Receiving T topic p origin v n' := by
  obtain ⟨o, ho, rfl⟩ := Option.map_eq_some_iff.mp hact
  obtain ⟨s, hs, rfl⟩ := OrderedApplier.step_eq_some.mp ho
  by_cases hother : other = topic
  · subst hother
    rw [hblocked _ _ h.quiet] at hs
    cases hs
  · refine h.congr rfl ?_ rfl rfl
    simp [Node.withEngine, GossipEngine.topicView, Ne.symm hother]

end Receiving

namespace Sending

theorem shrink (h : Sending T topic p v n)
    (hlocal : ∀ e ∈ n'.engine.localCh, e ∈ n.engine.localCh)
    (heager : ∀ a, ∀ s ∈ n'.eagerOut a, s ∈ n.eagerOut a)
    (hlazy : ∀ a, ∀ b ∈ n'.lazyOut a, b ∈ n.lazyOut a)
    (hbuffer : ∀ id, (GossipEngine.bufferOf n'.engine.lazyBuffers id).entries =
      (GossipEngine.bufferOf n.engine.lazyBuffers id).entries)
    (hmark : n.mark topic ≤ n'.mark topic) : Sending T topic p v n' where
  good e he := by
    cases he with
    | localCh hmem => exact h.good e (.localCh (hlocal e hmem))
    | eagerOut a s hmem hs => exact h.good e (.eagerOut a s (heager a s hmem) hs)
    | lazyOut a b hmem hb => exact h.good e (.lazyOut a b (hlazy a b hmem) hb)
    | buffer id hmem => exact h.good e (.buffer id (hbuffer id ▸ hmem))
  eagerTo a s hs := h.eagerTo a s (heager a s hs)
  lazyTo a b hb := h.lazyTo a b (hlazy a b hb)
  marks a b hb m hm htopic :=
    le_trans (h.marks a b (hlazy a b hb) m hm htopic) hmark

theorem enqueue (h : Sending T topic p v n)
    (henqueue : n.enqueue entry = some n') (hgood : Good topic p entry) :
    Sending T topic p v n' := by
  rw [Node.enqueue_eq_some henqueue]
  refine ⟨fun e he => ?_, h.eagerTo, h.lazyTo, h.marks⟩
  cases he with
  | localCh hmem =>
      rcases List.mem_append.mp hmem with hold | hnew
      · exact h.good e (.localCh hold)
      · rw [List.mem_singleton.mp hnew]
        exact hgood
  | eagerOut a s hmem hs => exact h.good e (.eagerOut a s hmem hs)
  | lazyOut a b hmem hb => exact h.good e (.lazyOut a b hmem hb)
  | buffer id hmem => exact h.good e (.buffer id hmem)

theorem forward (h : Sending T topic p v n) {g : GossipEngine}
    {exclude : String} (hoverlay : n.engine.overlay = T.overlay v)
    (hlocal : g.localCh = n.engine.localCh)
    (hbuffers : g.lazyBuffers =
      (n.engine.enqueueForLazy entry exclude).lazyBuffers)
    (hmark : n.mark topic ≤ g.seen.slotSeqs topic) (hgood : Good topic p entry) :
    Sending T topic p v (n.pass (g, n.engine.eagerForward entry exclude)) where
  good e he := by
    cases he with
    | localCh hmem => exact h.good e (.localCh (hlocal ▸ hmem))
    | eagerOut a s hmem hs =>
        rcases List.mem_append.mp hmem with hold | hnew
        · exact h.good e (.eagerOut a s hold hs)
        · obtain ⟨peer, -, rfl⟩ := List.mem_map.mp (List.mem_filter.mp hnew).1
          exact hs ▸ hgood
    | lazyOut a b hmem hb => exact h.good e (.lazyOut a b hmem hb)
    | buffer id hmem =>
        obtain ⟨copies, hentries, -⟩ :=
          Node.enqueueForLazy_to n.engine entry exclude id
        simp only [Node.pass, hbuffers, hentries] at hmem
        rcases List.mem_append.mp hmem with hold | hnew
        · exact h.good e (.buffer id hold)
        · rw [List.eq_of_mem_replicate hnew]
          exact hgood
  eagerTo a s hs := by
    rcases List.mem_append.mp hs with hold | hnew
    · exact h.eagerTo a s hold
    · obtain ⟨hsent, haddr⟩ := List.mem_filter.mp hnew
      obtain ⟨peer, hpeer, rfl⟩ := List.mem_map.mp hsent
      refine ⟨peer, ?_, by simpa using haddr⟩
      rw [← hoverlay]
      exact (List.mem_filter.mp hpeer).1
  lazyTo := h.lazyTo
  marks a b hb m hm htopic := le_trans (h.marks a b hb m hm htopic) hmark

theorem runLocal (h : Sending T topic p v n)
    (hoverlay : n.engine.overlay = T.overlay v)
    {rest : List GossipEntry} (hlocal : n.engine.localCh = entry :: rest)
    (first : RangeFirst) :
    Sending T topic p v (n.runLocal first entry rest) := by
  have hgood := h.good entry (.localCh (by simp [hlocal]))
  have hrest : Sending T topic p v
      (n.withEngine { n.engine with localCh := rest }) :=
    h.shrink (fun e he => by rw [hlocal]; exact List.mem_cons_of_mem _ he)
      (fun _ _ => id) (fun _ _ => id) (fun _ => rfl) (le_refl _)
  exact hrest.forward hoverlay rfl rfl
    (SeenTracker.shouldProcess_mono _ _ _ _) hgood

theorem process (h : Sending T topic p v n)
    (hoverlay : n.engine.overlay = T.overlay v) (hgood : Good topic p entry)
    (first : RangeFirst) (sender : String) :
    Sending T topic p v (n.pass (n.engine.process first sender entry)) := by
  have hmark : n.mark topic ≤
      (n.engine.process first sender entry).1.seen.slotSeqs topic := by
    rw [GossipEngine.process_slotSeqs, ← SeenTracker.shouldProcess_snd_slotSeqs]
    exact SeenTracker.shouldProcess_mono _ _ _ _
  by_cases hnew : n.mark entry.topic < entry.seq
  · obtain ⟨hpass, hbuffers⟩ := Node.pass_process_of_new first sender hnew
    rw [hpass]
    exact h.forward hoverlay (by simp) hbuffers hmark hgood
  · obtain ⟨hpass, hbuffers⟩ := Node.pass_process_of_old first sender hnew
    rw [hpass]
    exact h.shrink (by simp [Node.withEngine]) (fun _ _ => id) (fun _ _ => id)
      (fun id => by rw [Node.withEngine, hbuffers]) hmark

theorem flush (h : Sending T topic p v n)
    (hoverlay : n.engine.overlay = T.overlay v) {order : List UInt16}
    (hflush : n.flush order = some n') : Sending T topic p v n' := by
  have hcollected := GossipEngine.collectBatches_collected
    (n.engine.seen.highWaterMarks order) n.engine.overlay.lazyPeers
    n.engine.lazyBuffers
  rw [Node.flush_eq_some hflush]
  refine ⟨fun e he => ?_, h.eagerTo, fun a b hb => ?_, fun a b hb m hm ht => ?_⟩
  · cases he with
    | localCh hmem => exact h.good e (.localCh hmem)
    | eagerOut a s hmem hs => exact h.good e (.eagerOut a s hmem hs)
    | lazyOut a b hmem hb =>
        rcases List.mem_append.mp hmem with hold | hnew
        · exact h.good e (.lazyOut a b hold hb)
        · obtain ⟨pb, hpb, rfl⟩ := List.mem_map.mp hnew
          obtain ⟨id, hid⟩ :=
            hcollected.batched pb (List.mem_filter.mp hpb).1 e hb
          exact h.good e (.buffer id hid)
    | buffer id hmem => exact h.good e (.buffer id (hcollected.kept id e hmem))
  · rcases List.mem_append.mp hb with hold | hnew
    · exact h.lazyTo a b hold
    · obtain ⟨pb, hpb, rfl⟩ := List.mem_map.mp hnew
      obtain ⟨hmem, haddr⟩ := List.mem_filter.mp hpb
      obtain ⟨peer, hpeer, hpeerAddr⟩ := hcollected.addressed pb hmem
      exact ⟨peer, hoverlay ▸ hpeer, by simpa [hpeerAddr] using haddr⟩
  · rcases List.mem_append.mp hb with hold | hnew
    · exact h.marks a b hold m hm ht
    · obtain ⟨pb, hpb, rfl⟩ := List.mem_map.mp hnew
      rw [hcollected.marks pb (List.mem_filter.mp hpb).1] at hm
      rw [SeenTracker.mem_highWaterMarks hm, ht]
      exact le_refl _

theorem updateSender (h : Sending T topic p v n) (sender : String)
    (marks : List TopicSeq) :
    Sending T topic p v
      (n.withEngine (n.engine.updateSender sender marks)) := by
  refine h.shrink (by simp [Node.withEngine]) (fun _ _ => id) (fun _ _ => id)
    (fun id => ?_) (by simp [Node.withEngine, Node.mark])
  simp only [Node.withEngine, GossipEngine.updateSender_entries]

theorem gapTimer (h : Sending T topic p v n) {other : UInt16}
    {act : Engine.Action} (hact : n.gapTimer other act = some n') :
    Sending T topic p v n' := by
  obtain ⟨o, -, rfl⟩ := Option.map_eq_some_iff.mp hact
  exact h.shrink (fun _ => id) (fun _ _ => id) (fun _ _ => id) (fun _ => rfl)
    (le_refl _)

theorem popEager (h : Sending T topic p v n) (a : String) :
    Sending T topic p v (n.popEager a) :=
  h.shrink (fun _ => id) (fun _ _ => Node.mem_popEager) (fun _ _ => id)
    (fun _ => rfl) (le_refl _)

theorem popLazy (h : Sending T topic p v n) (a : String) :
    Sending T topic p v (n.popLazy a) :=
  h.shrink (fun _ => id) (fun _ _ => id) (fun _ _ => Node.mem_popLazy)
    (fun _ => rfl) (le_refl _)

end Sending

/-! ## The start -/

/-- What the `SetInitialSeq` calls before the start leave as `New` made it. -/
structure Unused (overlay : Overlay) (g : GossipEngine) : Prop where
  overlay : g.overlay = overlay
  localCh : g.localCh = []
  lazyBuffers : g.lazyBuffers = fun _ => none
  slots : ∀ t, (g.applier.slots t).Quiet ∧ (g.applier.slots t).delivered = []

private theorem Unused.setInitialSeq {overlay : Overlay} {g : GossipEngine}
    (h : Unused overlay g) (t : UInt16) (seq : UInt64) :
    Unused overlay (g.setInitialSeq t seq) := by
  refine ⟨h.overlay, h.localCh, h.lazyBuffers, ?_⟩
  refine OrderedApplier.forall_setSlot
    (P := fun _ s => s.Quiet ∧ s.delivered = []) h.slots ?_
  obtain ⟨⟨hflag, htimers, hrepairs⟩, hlog⟩ := h.slots t
  exact ⟨⟨hflag, htimers, hrepairs⟩, hlog⟩

theorem start_unused (T : Topology ι) (topic : UInt16) (gap : ι → Int)
    (primed : ι → List (UInt16 × UInt64)) (v : ι) :
    Unused (T.overlay v) (start T gap primed topic v).engine := by
  have hprimed : Unused (T.overlay v) ((primed v).foldl
      (fun g q => GossipEngine.setInitialSeq g q.1 q.2)
      (.new (T.overlay v) (gap v))) :=
    List.foldlRecOn _ _ ⟨rfl, rfl, rfl, fun _ => ⟨⟨rfl, rfl, rfl⟩, rfl⟩⟩
      fun g hg q _ => hg.setInitialSeq q.1 q.2
  exact hprimed.setInitialSeq topic 0

theorem start_inStep (T : Topology ι) (topic : UInt16) (p : UInt64 → Payload)
    (gap : ι → Int) (primed : ι → List (UInt16 × UInt64)) (v : ι) :
    TopicView.InStep [] p 0 0 ((start T gap primed topic v).engine.topicView topic) := by
  have hlog := ((start_unused T topic gap primed v).slots topic).2
  have hstep := GossipEngine.setInitialSeq_inStep ((primed v).foldl
    (fun g q => GossipEngine.setInitialSeq g q.1 q.2)
    (.new (T.overlay v) (gap v))) topic 0 p
  have hsame : ∀ (g : GossipEngine), ((g.setInitialSeq topic 0).applier.slots
      topic).delivered = (g.applier.slots topic).delivered := fun g => by
    simp [GossipEngine.setInitialSeq, OrderedApplier.setNextSeq, Slot.setNextSeq]
  rw [← hsame] at hstep
  exact hlog ▸ hstep

end GossipMesh.Cluster.Lossless
