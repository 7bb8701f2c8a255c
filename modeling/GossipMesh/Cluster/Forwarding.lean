import GossipMesh.Cluster.Cluster

/-!
# Forwarding across reclassification

An acceptance reads the overlay twice, once for the eager peers and once for
the lazy ones, and a flush reads it a third time.  `Reclassify` may fall between
any two of these snapshots.  A peer that is eager in the first snapshot, or lazy
in the other two, is issued the entry; a peer that changes class in between can
be missed by all of them.
-/

namespace GossipMesh.Cluster

open GossipMesh.Foundation GossipMesh.Engine

def Lists (peers : List OverlayPeer) (id : String) : Prop :=
  ∃ p ∈ peers, p.nodeID = id

instance decidableLists (peers : List OverlayPeer) (id : String) :
    Decidable (Lists peers id) :=
  inferInstanceAs (Decidable (∃ p ∈ peers, p.nodeID = id))

namespace Node

def flushPeers (n : Node) : List OverlayPeer :=
  match n.flushing with
  | none => []
  | some (peers, _) => peers

def peers (n : Node) : List OverlayPeer :=
  n.engine.overlay.allPeers ++ n.flushPeers

/-- `e` went to one of the addresses, eagerly or in a batch. -/
def Issued (n : Node) (addrs : List String) (e : GossipEntry) : Prop :=
  ∃ addr ∈ addrs, ⟨addr, e⟩ ∈ n.sent ∨
    ∃ pb ∈ n.batches, pb.addr = addr ∧ e ∈ pb.batch.entries

def Buffered (n : Node) (id : String) (e : GossipEntry) : Prop :=
  e ∈ (GossipEngine.bufferOf n.engine.lazyBuffers id).entries

/-- The node knows a mark of the peer that covers `e`. -/
def Advertised (n : Node) (id : String) (e : GossipEntry) : Prop :=
  0 < e.seq ∧
    e.seq ≤ (GossipEngine.bufferOf n.engine.lazyBuffers id).peerSeqs e.topic

instance decidableIssued (n : Node) (addrs : List String) (e : GossipEntry) :
    Decidable (n.Issued addrs e) :=
  inferInstanceAs (Decidable (∃ addr ∈ addrs, _ ∨ ∃ pb ∈ n.batches, _ ∧ _))

instance decidableBuffered (n : Node) (id : String) (e : GossipEntry) :
    Decidable (n.Buffered id e) :=
  inferInstanceAs (Decidable (_ ∈ _))

instance decidableAdvertised (n : Node) (id : String) (e : GossipEntry) :
    Decidable (n.Advertised id e) :=
  inferInstanceAs (Decidable (_ < _ ∧ _ ≤ _))

end Node

/-! ## What a step does to the logs and buffers -/

section Step

variable {z : Zstd} {n n' : Node} {event : Event} {id : String}
  {addrs : List String} {e : GossipEntry}

private theorem step_sent_batches (hstep : n.step z event = some n') :
    n.sent ⊆ n'.sent ∧ n.batches ⊆ n'.batches := by
  cases event with
  | act a =>
      cases Node.acts_of_act hstep with
      | task | finishFlush => simp
      | _ => exact ⟨List.Subset.refl _, List.Subset.refl _⟩
  | receive input =>
      cases Node.receives_of_receive hstep with
      | _ => exact ⟨List.Subset.refl _, List.Subset.refl _⟩

theorem Node.Issued.step (h : n.Issued addrs e)
    (hstep : n.step z event = some n') : n'.Issued addrs e := by
  obtain ⟨hsent, hbatches⟩ := step_sent_batches hstep
  obtain ⟨addr, haddr, h | ⟨pb, hpb, h⟩⟩ := h
  · exact ⟨addr, haddr, .inl (hsent h)⟩
  · exact ⟨addr, haddr, .inr ⟨pb, hbatches hpb, h⟩⟩

theorem operate_buffers (first : RangeFirst) (g : GossipEngine) (t : Task)
    (entry : GossipEntry) (rest : List GossipEntry) (id : String) :
    let after := (t.operate first g entry rest).engine.lazyBuffers
    (GossipEngine.bufferOf after id).peerSeqs =
      (GossipEngine.bufferOf g.lazyBuffers id).peerSeqs ∧
    (GossipEngine.bufferOf g.lazyBuffers id).entries ⊆
      (GossipEngine.bufferOf after id).entries := by
  unfold Task.operate
  split
  case h_6 peers hphase =>
      refine ⟨GossipEngine.foldl_addLazy_peerSeqs entry _ _ id, ?_⟩
      simp only [GossipEngine.enqueueFor, GossipEngine.foldl_addLazy_entries]
      exact List.subset_append_left _ _
  all_goals exact ⟨rfl, List.Subset.refl _⟩

private theorem step_peerSeqs (hstep : n.step z event = some n') (topic : UInt16) :
    (GossipEngine.bufferOf n.engine.lazyBuffers id).peerSeqs topic ≤
      (GossipEngine.bufferOf n'.engine.lazyBuffers id).peerSeqs topic := by
  cases event with
  | act a =>
      cases Node.acts_of_act hstep with
      | task i first t entry rest ht hqueue =>
          have hsame := (operate_buffers first n.engine t entry rest id).1
          exact (congrFun hsame topic).ge
      | finishFlush peers marks hflushing =>
          have hcollected := GossipEngine.collectBatches_collected marks peers
            n.engine.lazyBuffers
          exact (congrFun (hcollected.peerSeqs id) topic).ge
      | _ => exact le_rfl
  | receive input =>
      cases Node.receives_of_receive hstep with
      | lazyBatch sender marks =>
          exact n.engine.le_updateSender_peerSeqs sender id marks topic
      | _ => exact le_rfl

theorem Node.Advertised.step (h : n.Advertised id e)
    (hstep : n.step z event = some n') : n'.Advertised id e :=
  ⟨h.1, h.2.trans (step_peerSeqs hstep e.topic)⟩

theorem finishFlush_issues {peers : List OverlayPeer} {marks : List TopicSeq}
    (h : n.Buffered id e) (hflushing : n.flushing = some (peers, marks))
    (haddrs : ∀ p ∈ n.peers, p.nodeID = id → p.addr ∈ addrs)
    (hact : n.act .finishFlush = some n') :
    n'.Issued addrs e ∨ ¬ Lists peers id ∧ n'.Buffered id e := by
  cases Node.acts_of_act hact with
  | finishFlush peers' marks' hflushing' =>
      obtain ⟨rfl, rfl⟩ : peers = peers' ∧ marks = marks' := by
        simpa [hflushing] using hflushing'
      rcases GossipEngine.collectBatches_reaches marks peers h with
        ⟨p, hp, hid, b, hb, haddr, he⟩ | ⟨hnone, hkept⟩
      · have hlisted : p ∈ n.peers := by
          simp [Node.peers, Node.flushPeers, hflushing, hp]
        exact .inl ⟨p.addr, haddrs p hlisted hid, .inr ⟨b,
          List.mem_append_right _ hb, haddr, he⟩⟩
      · exact .inr ⟨fun ⟨p, hp, hid⟩ => hnone p hp hid, hkept⟩

theorem Node.Buffered.step (h : n.Buffered id e)
    (haddrs : ∀ p ∈ n.peers, p.nodeID = id → p.addr ∈ addrs)
    (hstep : n.step z event = some n') :
    n'.Issued addrs e ∨ n'.Buffered id e := by
  cases event with
  | act a =>
      cases Node.acts_of_act hstep with
      | task i first t entry rest ht hqueue =>
          exact .inr ((operate_buffers first n.engine t entry rest id).2 h)
      | finishFlush peers marks hflushing =>
          rcases finishFlush_issues h hflushing haddrs hstep with hissued | ⟨-, hkept⟩
          · exact .inl hissued
          · exact .inr hkept
      | _ => exact .inr h
  | receive input =>
      cases Node.receives_of_receive hstep with
      | lazyBatch sender marks =>
          have hkept : e ∈ (GossipEngine.bufferOf
              (n.engine.updateSender sender marks).lazyBuffers id).entries := by
            rwa [GossipEngine.updateSender_entries]
          exact .inr hkept
      | _ => exact .inr h

end Step

/-! ## The task that accepted the entry -/

def Node.phaseAt (n : Node) (i left : Nat) : Option Phase :=
  match n.tasks[i]? with
  | none => none
  | some t => if t.queue.length = left then some t.phase else none

def EagerAt (i left : Nat) (id : String) (n : Node) : Event → Prop
  | .act (.task j _) =>
      match n.phaseAt i left with
      | some .eagerForward => j = i → Lists n.engine.overlay.eagerPeers id
      | _ => True
  | _ => True

def LazyAt (i left : Nat) (id : String) (n : Node) : Event → Prop
  | .act (.task j _) =>
      match n.phaseAt i left with
      | some .lazyPeers => j = i → Lists n.engine.overlay.lazyPeers id
      | _ => True
  | _ => True

instance decidableEagerAt (i left : Nat) (id : String) (n : Node)
    (event : Event) : Decidable (EagerAt i left id n event) := by
  unfold EagerAt
  split
  · split <;> infer_instance
  · infer_instance

instance decidableLazyAt (i left : Nat) (id : String) (n : Node)
    (event : Event) : Decidable (LazyAt i left id n event) := by
  unfold LazyAt
  split
  · split <;> infer_instance
  · infer_instance

section Track

variable {z : Zstd} {n n' : Node} {event : Event} {id : String}
  {addrs : List String} {i : Nat} {t : Task} {e : GossipEntry}
  {rest : List GossipEntry}

theorem task_step (ht : n.tasks[i]? = some t) (hqueue : t.queue = e :: rest)
    (hstep : n.step z event = some n') :
    n'.tasks[i]? = some t ∨
    ∃ first, event = .act (.task i first) ∧
      n'.tasks[i]? = some (t.operate first n.engine e rest).task ∧
      n'.engine = (t.operate first n.engine e rest).engine ∧
      n'.sent = n.sent ++ (t.operate first n.engine e rest).sends := by
  have hi : i < n.tasks.length := (List.getElem?_eq_some_iff.mp ht).1
  cases event with
  | act a =>
      cases Node.acts_of_act hstep with
      | takeLocal => exact .inl ((List.getElem?_append_left hi).trans ht)
      | task j first u entry rest' hu hqueue' =>
          by_cases hij : j = i
          · subst hij
            rw [ht] at hu
            cases hu
            rw [hqueue] at hqueue'
            cases hqueue'
            exact .inr ⟨first, rfl, List.getElem?_set_self hi, rfl, rfl⟩
          · refine .inl ?_
            rwa [List.getElem?_set_ne hij]
      | _ => exact .inl ht
  | receive input =>
      cases Node.receives_of_receive hstep with
      | ignored | repaired => exact .inl ht
      | eager | lazyBatch => exact .inl ((List.getElem?_append_left hi).trans ht)

def BeforeForward : Phase → Prop
  | .cache | .apply | .eagerForward => True
  | .seen | .lazyPeers | .enqueue _ => False

/-- An eager peer is served by the time its task is past `eagerForward`. -/
theorem forward_step (hqueue : t.queue = e :: rest) (hsender : id ≠ t.sender)
    (h : n.Issued addrs e ∨ ∃ phase,
      n.tasks[i]? = some { t with phase := phase } ∧ BeforeForward phase)
    (heager : EagerAt i (rest.length + 1) id n event)
    (haddrs : ∀ p ∈ n.peers, p.nodeID = id → p.addr ∈ addrs)
    (hstep : n.step z event = some n') :
    n'.Issued addrs e ∨ ∃ phase,
      n'.tasks[i]? = some { t with phase := phase } ∧ BeforeForward phase := by
  rcases h with hissued | ⟨phase, ht, hbefore⟩
  · exact .inl (hissued.step hstep)
  rcases task_step ht hqueue hstep with hsame | ⟨first, rfl, htask, -, hsent⟩
  · exact .inr ⟨phase, hsame, hbefore⟩
  cases phase with
  | cache =>
      refine .inr ⟨_, htask, ?_⟩
      dsimp only
      split <;> trivial
  | apply => exact .inr ⟨_, htask, trivial⟩
  | eagerForward =>
      simp only [EagerAt, Node.phaseAt, ht, hqueue, List.length_cons, if_true]
        at heager
      obtain ⟨p, hp, hid⟩ := heager trivial
      have hlisted : p ∈ n.peers := by simp [Node.peers, Overlay.allPeers, hp]
      refine .inl ⟨p.addr, haddrs p hlisted hid, .inl ?_⟩
      rw [hsent]
      refine List.mem_append_right _ (List.mem_map.mpr ⟨p, ?_, rfl⟩)
      simp [hp, hid, hsender]
  | seen | lazyPeers | enqueue => exact hbefore.elim

/-- The snapshot of the lazy peers, once taken, lists `id`. -/
def BeforeEnqueue (id : String) : Phase → Prop
  | .cache | .apply | .eagerForward | .lazyPeers => True
  | .enqueue peers => Lists peers id
  | .seen => False

def Node.Covered (n : Node) (id : String) (addrs : List String)
    (e : GossipEntry) : Prop :=
  n.Issued addrs e ∨ n.Buffered id e ∨ n.Advertised id e

private theorem Node.Covered.step (h : n.Covered id addrs e)
    (haddrs : ∀ p ∈ n.peers, p.nodeID = id → p.addr ∈ addrs)
    (hstep : n.step z event = some n') : n'.Covered id addrs e := by
  rcases h with hissued | hbuffered | hadvertised
  · exact .inl (hissued.step hstep)
  · exact (hbuffered.step haddrs hstep).imp_right .inl
  · exact .inr (.inr (hadvertised.step hstep))

private theorem enqueueFor_covers {g : GossipEngine} {peers : List OverlayPeer}
    {sender : String} (hlists : Lists peers id) (hsender : id ≠ sender) :
    let buf := GossipEngine.bufferOf (g.enqueueFor peers e sender).lazyBuffers id
    e ∈ buf.entries ∨ e.seq ≤ buf.peerSeqs e.topic := by
  obtain ⟨p, hp, hid⟩ := hlists
  simp only [GossipEngine.enqueueFor, GossipEngine.foldl_addLazy_entries,
    GossipEngine.foldl_addLazy_peerSeqs]
  by_cases hbehind :
      (GossipEngine.bufferOf g.lazyBuffers id).peerSeqs e.topic < e.seq
  · refine .inl (List.mem_append_right _ ?_)
    rw [if_pos hbehind, List.mem_replicate]
    refine ⟨?_, rfl⟩
    rw [← Nat.pos_iff_ne_zero, List.countP_pos_iff]
    exact ⟨p, List.mem_filter.mpr ⟨hp, by simpa [hid] using hsender⟩,
      by simpa using hid⟩
  · exact .inr (not_lt.mp hbehind)

private theorem enqueue_step (hqueue : t.queue = e :: rest) (hsender : id ≠ t.sender)
    (hseq : 0 < e.seq)
    (h : n.Covered id addrs e ∨ ∃ phase,
      n.tasks[i]? = some { t with phase := phase } ∧ BeforeEnqueue id phase)
    (hlazy : LazyAt i (rest.length + 1) id n event)
    (haddrs : ∀ p ∈ n.peers, p.nodeID = id → p.addr ∈ addrs)
    (hstep : n.step z event = some n') :
    n'.Covered id addrs e ∨ ∃ phase,
      n'.tasks[i]? = some { t with phase := phase } ∧ BeforeEnqueue id phase := by
  rcases h with hcovered | ⟨phase, ht, hbefore⟩
  · exact .inl (hcovered.step haddrs hstep)
  rcases task_step ht hqueue hstep with hsame | ⟨first, rfl, htask, hengine, -⟩
  · exact .inr ⟨phase, hsame, hbefore⟩
  cases phase with
  | cache =>
      refine .inr ⟨_, htask, ?_⟩
      dsimp only
      split <;> trivial
  | apply | eagerForward => exact .inr ⟨_, htask, trivial⟩
  | lazyPeers =>
      simp only [LazyAt, Node.phaseAt, ht, hqueue, List.length_cons, if_true]
        at hlazy
      exact .inr ⟨_, htask, hlazy trivial⟩
  | enqueue peers =>
      refine .inl (.inr ?_)
      have hcovers := enqueueFor_covers (g := n.engine) (e := e) hbefore hsender
      unfold Node.Buffered Node.Advertised
      rw [hengine]
      exact hcovers.imp_right fun hmark => ⟨hseq, hmark⟩
  | seen => exact hbefore.elim

private theorem accept_step {first : RangeFirst} (ht : n.tasks[i]? = some t)
    (hphase : t.phase = .seen) (hqueue : t.queue = e :: rest)
    (haccepts : t.accepts n.engine e = true)
    (hact : n.act (.task i first) = some n') :
    n'.tasks[i]? = some { t with phase := .cache } := by
  have hi : i < n.tasks.length := (List.getElem?_eq_some_iff.mp ht).1
  cases Node.acts_of_act hact with
  | task _ _ u entry rest' hu hqueue' =>
      rw [ht] at hu
      cases hu
      rw [hqueue] at hqueue'
      cases hqueue'
      simp [List.getElem?_set_self hi, Task.operate, hphase, haccepts]

end Track

/--
Task `i` accepts `e` in state `n`, and in state `m`, where it is past `e`, a
flush ends.  A peer that is not the sender has been issued `e` by then, or has
advertised it, if it was eager in the snapshot of `eagerForward`, or lazy in the
snapshots of `enqueueForLazy` and of the flush.  `addrs` are the addresses the
peer is listed under meanwhile.
-/
theorem issued_of_snapshots (z : Zstd) {n m final : Node} {i : Nat}
    {first : RangeFirst} {t : Task} {e : GossipEntry} {rest : List GossipEntry}
    {mid : List Event} {id : String} {addrs : List String}
    (ht : n.tasks[i]? = some t) (hphase : t.phase = .seen)
    (hqueue : t.queue = e :: rest) (haccepts : t.accepts n.engine e = true)
    (hsender : id ≠ t.sender)
    (hrun : exec (Node.step z) n (.act (.task i first) :: mid) = some m)
    (hdone : ∀ u, m.tasks[i]? = some u → u.queue.length ≤ rest.length)
    (hflush : m.act .finishFlush = some final)
    (haddrs : Along (Node.step z)
      (fun s _ => ∀ p ∈ s.peers, p.nodeID = id → p.addr ∈ addrs) n
      (.act (.task i first) :: mid ++ [.act .finishFlush]))
    (hclass :
      Along (Node.step z) (EagerAt i (rest.length + 1) id) n
        (.act (.task i first) :: mid) ∨
      0 < e.seq ∧ Along (Node.step z) (LazyAt i (rest.length + 1) id) n
        (.act (.task i first) :: mid) ∧ Lists m.flushPeers id) :
    final.Issued addrs e ∨ final.Advertised id e := by
  obtain ⟨n₁, haccept, hmid⟩ := exec_cons_eq_some.mp hrun
  have hcache := accept_step ht hphase hqueue haccepts haccept
  obtain ⟨haddrs, hlast⟩ := (along_snoc hrun).mp haddrs
  have hend : m.step z (.act .finishFlush) = some final := hflush
  have hpast : ∀ phase, m.tasks[i]? ≠ some { t with phase := phase } := by
    intro phase hphase
    have hlen := hdone _ hphase
    simp only [hqueue, List.length_cons] at hlen
    omega
  rcases hclass with heager | ⟨hseq, hlazy, hlists⟩
  · have hm := exec_invariant_of_along
      (fun s => s.Issued addrs e ∨ ∃ phase,
        s.tasks[i]? = some { t with phase := phase } ∧ BeforeForward phase)
      (fun s event s' h hs => forward_step hqueue hsender h hs.1 hs.2)
      (.inr ⟨.cache, hcache, trivial⟩)
      ((heager.and haddrs).2 n₁ haccept) hmid
    rcases hm with hissued | ⟨phase, hphase, -⟩
    · exact .inl (hissued.step hend)
    · exact (hpast phase hphase).elim
  · have hm := exec_invariant_of_along
      (fun s => s.Covered id addrs e ∨ ∃ phase,
        s.tasks[i]? = some { t with phase := phase } ∧ BeforeEnqueue id phase)
      (fun s event s' h hs => enqueue_step hqueue hsender hseq h hs.1 hs.2)
      (.inr ⟨.cache, hcache, trivial⟩)
      ((hlazy.and haddrs).2 n₁ haccept) hmid
    rcases hm with (hissued | hbuffered | hadvertised) | ⟨phase, hphase, -⟩
    · exact .inl (hissued.step hend)
    · cases hflushing : m.flushing with
      | none => simp [Lists, Node.flushPeers, hflushing] at hlists
      | some snapshot =>
          simp only [Node.flushPeers, hflushing] at hlists
          exact .inl ((finishFlush_issues hbuffered hflushing hlast hflush).resolve_right
            fun hmissed => hmissed.1 hlists)
    · exact .inr (hadvertised.step hend)
    · exact (hpast phase hphase).elim

def regionPeers (b c : Int64) : List PeerInfo :=
  [⟨"b", "b:1", b⟩, ⟨"c", "c:1", c⟩, ⟨"d", "d:1", 100000000⟩,
    ⟨"e", "e:1", 101000000⟩]

def arrival : List Event :=
  [.act (.reclassify .insertion (regionPeers 1000000 2000000)),
   .receive (.datagram "x:1" (encodeEagerMessage ⟨1, 1, [7]⟩))]

noncomputable def undisturbed : List Event :=
  [.act (.task 0 .any), .act (.task 0 .any), .act (.task 0 .any),
   .act (.task 0 .any), .act (.task 0 .any), .act (.startFlush [1])]

theorem issued_of_snapshots_undisturbed :
    ∃ n m final, exec (Node.step .stored) (.start (twoNodes true)) arrival = some n ∧
      exec (Node.step .stored) n (.act (.task 0 .any) :: undisturbed) = some m ∧
      m.act .finishFlush = some final ∧
      (final.Issued ["c:1"] ⟨1, 1, [7]⟩ ∨ final.Advertised "c" ⟨1, 1, [7]⟩) := by
  have hsome : ((exec (Node.step .stored) (.start (twoNodes true)) arrival).bind
      fun n => (exec (Node.step .stored) n
        (.act (.task 0 .any) :: undisturbed)).bind
          fun m => m.act .finishFlush).isSome := by decide
  obtain ⟨final, hfinal⟩ := Option.isSome_iff_exists.mp hsome
  obtain ⟨n, hn, hrest⟩ := Option.bind_eq_some_iff.mp hfinal
  obtain ⟨m, hm, hflush⟩ := Option.bind_eq_some_iff.mp hrest
  have hstart : ∀ n, exec (Node.step .stored) (.start (twoNodes true)) arrival =
      some n → n.tasks[0]? = some (.receive "x:1" [⟨1, 1, [7]⟩]) ∧
      (Task.receive "x:1" [⟨1, 1, [7]⟩]).accepts n.engine ⟨1, 1, [7]⟩ = true ∧
      Along (Node.step .stored)
        (fun s _ => ∀ p ∈ s.peers, p.nodeID = "c" → p.addr ∈ ["c:1"]) n
        (.act (.task 0 .any) :: undisturbed ++ [.act .finishFlush]) ∧
      Along (Node.step .stored) (LazyAt 0 1 "c") n
        (.act (.task 0 .any) :: undisturbed) ∧
      ∀ m, exec (Node.step .stored) n (.act (.task 0 .any) :: undisturbed) =
        some m → (∀ u, m.tasks[0]? = some u → u.queue.length ≤ 0) ∧
          Lists m.flushPeers "c" := by decide
  obtain ⟨ht, haccepts, haddrs, hlazy, hend⟩ := hstart n hn
  obtain ⟨hdone, hlists⟩ := hend m hm
  exact ⟨n, m, final, hn, hm, hflush,
    issued_of_snapshots .stored ht rfl rfl haccepts (by decide) hm hdone hflush
      haddrs (.inr ⟨by decide, hlazy, hlists⟩)⟩

noncomputable def disturbed : List Event :=
  -- between the two snapshots of the acceptance `c` becomes eager
  [.act (.task 0 .any), .act (.task 0 .any), .act (.task 0 .any),
   .act (.reclassify .insertion (regionPeers 2000000 1000000)),
   .act (.task 0 .any), .act (.task 0 .any), .act (.startFlush [1])]

/-- `c` is in the overlay all the time, and the entry passes it by. -/
theorem reclassified_peer_missed :
    ∃ n final, exec (Node.step .stored) (.start (twoNodes true)) arrival = some n ∧
      exec (Node.step .stored) n
        (.act (.task 0 .any) :: disturbed ++ [.act .finishFlush]) = some final ∧
      final.accepted = [(false, ⟨1, 1, [7]⟩)] ∧
      Along (Node.step .stored)
        (fun s _ => Lists s.engine.overlay.allPeers "c" ∧
          ∀ p ∈ s.peers, p.nodeID = "c" → p.addr ∈ ["c:1"]) n
        (.act (.task 0 .any) :: disturbed ++ [.act .finishFlush]) ∧
      ¬ final.Issued ["c:1"] ⟨1, 1, [7]⟩ ∧ ¬ final.Advertised "c" ⟨1, 1, [7]⟩ ∧
      ¬ final.Buffered "c" ⟨1, 1, [7]⟩ := by
  have hsome : ((exec (Node.step .stored) (.start (twoNodes true)) arrival).bind
      fun n => exec (Node.step .stored) n
        (.act (.task 0 .any) :: disturbed ++ [.act .finishFlush])).isSome := by
    decide
  obtain ⟨final, hfinal⟩ := Option.isSome_iff_exists.mp hsome
  obtain ⟨n, hn, hrun⟩ := Option.bind_eq_some_iff.mp hfinal
  have hall : ∀ n, exec (Node.step .stored) (.start (twoNodes true)) arrival =
      some n → ∀ final, exec (Node.step .stored) n
        (.act (.task 0 .any) :: disturbed ++ [.act .finishFlush]) = some final →
      final.accepted = [(false, ⟨1, 1, [7]⟩)] ∧
      Along (Node.step .stored)
        (fun s _ => Lists s.engine.overlay.allPeers "c" ∧
          ∀ p ∈ s.peers, p.nodeID = "c" → p.addr ∈ ["c:1"]) n
        (.act (.task 0 .any) :: disturbed ++ [.act .finishFlush]) ∧
      ¬ final.Issued ["c:1"] ⟨1, 1, [7]⟩ ∧ ¬ final.Advertised "c" ⟨1, 1, [7]⟩ ∧
      ¬ final.Buffered "c" ⟨1, 1, [7]⟩ := by decide
  exact ⟨n, final, hn, hrun, hall n hn final hrun⟩

end GossipMesh.Cluster
