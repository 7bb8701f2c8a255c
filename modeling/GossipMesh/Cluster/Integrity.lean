import GossipMesh.Cluster.Cluster

/-!
# Integrity

Everything a node delivers, caches, buffers or sends was enqueued somewhere in
the cluster, as it stands.  The invariant covers every place where an entry can
rest and every kind of message.

It needs two bounds.  Lengths are written into 32-bit fields without a check:
the length of an eager message into its stream frame, the length of a payload
into a lazy batch, and the length of a compressed batch into its frame.  An
entry or a batch beyond them comes out as something that was never enqueued.
-/

namespace GossipMesh.Cluster

open GossipMesh.Foundation GossipMesh.Engine

/-! ## Slots -/

structure SlotGenuine (E : UInt64 → Payload → Prop) (s : Slot) : Prop where
  pending : ∀ seq p, s.pending.lookup seq = some p → E seq p
  delivered : ∀ seq p, (seq, p) ∈ s.delivered → E seq p

namespace SlotGenuine

variable {E : UInt64 → Payload → Prop} {s t : Slot}

theorem of_drains (h : SlotGenuine E s) (hdrains : Slot.Drains s t) :
    SlotGenuine E t where
  pending seq p hp := h.pending seq p (hdrains.kept seq p hp)
  delivered seq p hp :=
    (hdrains.moved seq p hp).elim (h.delivered seq p) (h.pending seq p)

theorem receive (h : SlotGenuine E s) (maxGapBuffer : Nat) {seq : UInt64}
    {payload : Payload} (hentry : E seq payload) :
    SlotGenuine E (s.receive maxGapBuffer seq payload) := by
  have hdeliver : SlotGenuine E
      { s.deliver seq payload with nextSeq := seq + 1 }.drainPending := by
    have hbefore : SlotGenuine E
        { s.deliver seq payload with nextSeq := seq + 1 } := by
      refine ⟨h.pending, fun k p hk => ?_⟩
      rcases List.mem_append.mp hk with hold | hnew
      · exact h.delivered k p hold
      · obtain ⟨rfl, rfl⟩ : k = seq ∧ p = payload := by simpa using hnew
        exact hentry
    exact hbefore.of_drains (Slot.drainPending_drains _)
  rcases Slot.receive_cases maxGapBuffer s seq payload with
    ⟨-, heq⟩ | ⟨-, -, heq⟩ | ⟨-, heq⟩ | ⟨-, heq⟩ <;> rw [heq]
  · exact h
  · refine ⟨fun k p hk => ?_, by simpa using h.delivered⟩
    rw [Slot.startGapTimer_pending] at hk
    by_cases hkey : k = seq
    · subst hkey
      rw [Finmap.lookup_insert] at hk
      cases hk
      exact hentry
    · rw [Finmap.lookup_insert_of_ne _ hkey] at hk
      exact h.pending k p hk
  · exact hdeliver
  · exact hdeliver

theorem step (h : SlotGenuine E s) {maxGapBuffer : Nat} {a : Engine.Action}
    (hentry : ∀ seq p, a.entry = some (seq, p) → E seq p)
    (hstep : s.step maxGapBuffer a = some t) : SlotGenuine E t := by
  obtain ⟨seq, payload, rfl, rfl⟩ | ⟨seq, rfl, rfl⟩ | ⟨e, -, rfl, rfl⟩ |
    ⟨missing, -, payload, rfl, rfl⟩ | ⟨missing, -, rfl, rfl⟩ :=
    Slot.step_cases hstep
  · exact h.receive maxGapBuffer (hentry seq payload rfl)
  · refine ⟨fun k p hk => ?_, h.delivered⟩
    simp [Slot.setNextSeq] at hk
  · exact ⟨by simpa using h.pending, by simpa using h.delivered⟩
  · have hbefore : SlotGenuine E
        { s with repairs := s.repairs.erase missing } := ⟨h.pending, h.delivered⟩
    exact hbefore.receive maxGapBuffer (hentry missing payload rfl)
  · have hbefore : SlotGenuine E
        { s with repairs := s.repairs.erase missing } := ⟨h.pending, h.delivered⟩
    exact hbefore.of_drains (Slot.skipGap_drains _)

end SlotGenuine

/-! ## Engines -/

structure EngineGenuine (E : GossipEntry → Prop) (g : GossipEngine) : Prop where
  localCh : ∀ e ∈ g.localCh, E e
  cache : ∀ k p, g.cache.lookup k = some p → E ⟨k.topic, k.seq, p⟩
  slots : ∀ topic, SlotGenuine (fun seq p => E ⟨topic, seq, p⟩)
    (g.applier.slots topic)
  buffers : ∀ id, ∀ e ∈ (GossipEngine.bufferOf g.lazyBuffers id).entries, E e

namespace EngineGenuine

variable {E F : GossipEntry → Prop} {g : GossipEngine} {entry : GossipEntry}

theorem mono (h : EngineGenuine E g) (himp : ∀ e, E e → F e) :
    EngineGenuine F g where
  localCh e he := himp e (h.localCh e he)
  cache k p hk := himp _ (h.cache k p hk)
  slots topic := ⟨fun seq p hp => himp _ ((h.slots topic).pending seq p hp),
    fun seq p hp => himp _ ((h.slots topic).delivered seq p hp)⟩
  buffers id e he := himp e (h.buffers id e he)

theorem markSeen (h : EngineGenuine E g) : EngineGenuine E (g.markSeen entry) :=
  ⟨h.localCh, h.cache, h.slots, h.buffers⟩

theorem cacheForRepair (h : EngineGenuine E g) (first : RangeFirst)
    (hentry : E entry) : EngineGenuine E (g.cacheForRepair first entry) where
  localCh := h.localCh
  cache k p hk := by
    rcases cacheEntry_lookup hk with ⟨rfl, rfl⟩ | hold
    · exact hentry
    · exact h.cache k p hold
  slots := h.slots
  buffers := h.buffers

theorem applierStep (h : EngineGenuine E g) {topic : UInt16}
    {a : Engine.Action} {o : OrderedApplier}
    (hentry : ∀ seq p, a.entry = some (seq, p) → E ⟨topic, seq, p⟩)
    (hstep : g.applier.step (topic, a) = some o) :
    EngineGenuine E { g with applier := o } where
  localCh := h.localCh
  cache := h.cache
  slots := by
    obtain ⟨s, hs, rfl⟩ := OrderedApplier.step_eq_some.mp hstep
    exact OrderedApplier.forall_setSlot h.slots ((h.slots topic).step hentry hs)
  buffers := h.buffers

theorem new (overlay : Overlay) (maxGapBuffer : Int) :
    EngineGenuine E (.new overlay maxGapBuffer) where
  localCh := by simp [GossipEngine.new]
  cache := by simp [GossipEngine.new]
  slots _ := ⟨by simp [GossipEngine.new, Slot.fresh],
    by simp [GossipEngine.new, Slot.fresh]⟩
  buffers := by simp [GossipEngine.new, GossipEngine.bufferOf, LazyBuffer.new]

theorem setInitialSeq (h : EngineGenuine E g) (topic : UInt16) (seq : UInt64) :
    EngineGenuine E (g.setInitialSeq topic seq) := by
  have hstep : g.applier.step (topic, .setNextSeq (seq + 1)) =
      some (g.setInitialSeq topic seq).applier := rfl
  have hnext := h.applierStep (by rintro k p ⟨⟩) hstep
  exact ⟨hnext.localCh, hnext.cache, hnext.slots, hnext.buffers⟩

theorem apply (h : EngineGenuine E g) (hentry : E entry) :
    EngineGenuine E (g.apply entry) := by
  have hstep : g.applier.step (entry.topic, .receive entry.seq entry.payload) =
      some (g.apply entry).applier := rfl
  refine h.applierStep ?_ hstep
  rintro seq p ⟨⟩
  exact hentry

theorem enqueueFor (h : EngineGenuine E g) (peers : List OverlayPeer)
    (sender : String) (hentry : E entry) :
    EngineGenuine E (g.enqueueFor peers entry sender) where
  localCh := h.localCh
  cache := h.cache
  slots := h.slots
  buffers id e he := by
    rw [GossipEngine.enqueueFor, GossipEngine.foldl_addLazy_entries] at he
    rcases List.mem_append.mp he with hold | hnew
    · exact h.buffers id e hold
    · rw [List.eq_of_mem_replicate hnew]
      exact hentry

theorem updateSender (h : EngineGenuine E g) (sender : String)
    (marks : List TopicSeq) : EngineGenuine E (g.updateSender sender marks) where
  localCh := by simpa using h.localCh
  cache := by simpa using h.cache
  slots := by simpa using h.slots
  buffers id e he := by
    rw [GossipEngine.updateSender_entries] at he
    exact h.buffers id e he

end EngineGenuine

/-! ## Nodes -/

/-- `E` holds of every entry of the node, its tasks and its logs. -/
structure Genuine (E : GossipEntry → Prop) (n : Node) : Prop where
  engine : EngineGenuine E n.engine
  tasks : ∀ t ∈ n.tasks, ∀ e ∈ t.queue, E e
  sent : ∀ s ∈ n.sent, E s.entry
  batches : ∀ pb ∈ n.batches, ∀ e ∈ pb.batch.entries, E e
  replies : ∀ r ∈ n.replies, ∀ e,
    readReply r.1.topic r.1.seq r.2 = .hit e → E e

theorem operate_genuine {E : GossipEntry → Prop} (first : RangeFirst)
    {g : GossipEngine} (h : EngineGenuine E g) {t : Task} {entry : GossipEntry}
    {rest : List GossipEntry} (hqueue : t.queue = entry :: rest)
    (ht : ∀ e ∈ t.queue, E e) :
    EngineGenuine E (t.operate first g entry rest).engine ∧
      (∀ e ∈ (t.operate first g entry rest).task.queue, E e) ∧
      ∀ s ∈ (t.operate first g entry rest).sends, E s.entry := by
  have hentry : E entry := ht entry (by simp [hqueue])
  have hrest : ∀ e ∈ rest, E e := fun e he => ht e (by simp [hqueue, he])
  unfold Task.operate
  split
  · refine ⟨h.markSeen, ?_, by simp⟩
    split
    · exact ht
    · exact hrest
  · exact ⟨h.cacheForRepair first hentry, ht, by simp⟩
  · exact ⟨h.apply hentry, ht, by simp⟩
  · refine ⟨h, ht, fun s hs => ?_⟩
    obtain ⟨peer, -, rfl⟩ := List.mem_map.mp hs
    exact hentry
  · exact ⟨h, ht, by simp⟩
  · exact ⟨h.enqueueFor _ _ hentry, hrest, by simp⟩

namespace Genuine

variable {E F : GossipEntry → Prop} {n n' : Node}

theorem mono (h : Genuine E n) (himp : ∀ e, E e → F e) : Genuine F n where
  engine := h.engine.mono himp
  tasks t ht e he := himp e (h.tasks t ht e he)
  sent s hs := himp _ (h.sent s hs)
  batches pb hpb e he := himp e (h.batches pb hpb e he)
  replies r hr e he := himp e (h.replies r hr e he)

theorem withEngine (h : Genuine E n) {g : GossipEngine}
    (hg : EngineGenuine E g) : Genuine E (n.withEngine g) :=
  ⟨hg, h.tasks, h.sent, h.batches, h.replies⟩

private theorem startTask (h : Genuine E n) (sender : String)
    {entries : List GossipEntry} (hentries : ∀ e ∈ entries, E e) :
    Genuine E (n.startTask sender entries) where
  engine := h.engine
  tasks t ht := by
    rcases List.mem_append.mp ht with hold | hnew
    · exact h.tasks t hold
    · rw [List.mem_singleton.mp hnew]
      exact hentries
  sent := h.sent
  batches := h.batches
  replies := h.replies

theorem receive (h : Genuine E n) {z : Zstd} {input : Input}
    (hinput : ∀ e ∈ input.entries z, E e)
    (hreceive : n.receive z input = some n') : Genuine E n' := by
  cases Node.receives_of_receive hreceive with
  | ignored => exact h
  | eager sender => exact h.startTask sender hinput
  | lazyBatch sender marks =>
      exact (h.withEngine (h.engine.updateSender sender marks)).startTask sender
        hinput
  | repaired entry o hentry hstep =>
      refine h.withEngine (h.engine.applierStep ?_ hstep)
      rintro seq p ⟨⟩
      exact hinput entry hentry

private theorem task (h : Genuine E n) {i : Nat} {first : RangeFirst} {t : Task}
    {entry : GossipEntry} {rest : List GossipEntry} (ht : n.tasks[i]? = some t)
    (hqueue : t.queue = entry :: rest) :
    Genuine E { n with
      engine := (t.operate first n.engine entry rest).engine
      tasks := n.tasks.set i (t.operate first n.engine entry rest).task
      accepted := n.accepted ++ Node.noteAccept t n.engine
      sent := n.sent ++ (t.operate first n.engine entry rest).sends } := by
  obtain ⟨hengine, htask, hsends⟩ := operate_genuine first h.engine hqueue
    (h.tasks t (List.mem_of_getElem? ht))
  refine ⟨hengine, fun t' ht' => ?_, fun s hs => ?_, h.batches, h.replies⟩
  · rcases List.mem_or_eq_of_mem_set ht' with hold | rfl
    · exact h.tasks t' hold
    · exact htask
  · rcases List.mem_append.mp hs with hold | hnew
    · exact h.sent s hold
    · exact hsends s hnew

private theorem answer (h : Genuine E n) {topic : UInt16} {seq : UInt64} {reply : Bytes}
    (hanswer : n.answer topic seq = some reply) {e : GossipEntry}
    (hhit : readReply topic seq reply = .hit e) : E e := by
  obtain ⟨stream, hdispatch, rfl⟩ := Option.map_eq_some_iff.mp hanswer
  obtain ⟨hkey, hcached⟩ := readReply_handleRequest hdispatch hhit
  obtain ⟨rfl, rfl⟩ : e.topic = topic ∧ e.seq = seq := by
    simpa [GossipEntry.key] using hkey
  exact h.engine.cache _ _ hcached

theorem act (h : Genuine E n) {a : Action}
    (henqueue : ∀ entry, a = .enqueue entry → E entry)
    (hact : n.act a = some n') : Genuine E n' := by
  cases Node.acts_of_act hact with
  | enqueue entry hroom =>
      refine ⟨⟨fun e he => ?_, h.engine.cache, h.engine.slots, h.engine.buffers⟩,
        h.tasks, h.sent, h.batches, h.replies⟩
      rcases List.mem_append.mp he with hold | hnew
      · exact h.engine.localCh e hold
      · rw [List.mem_singleton.mp hnew]
        exact henqueue entry rfl
  | takeLocal entry rest hlocal hidle =>
      have hch : ∀ e ∈ entry :: rest, E e := hlocal ▸ h.engine.localCh
      refine ⟨⟨fun e he => hch e (List.mem_cons_of_mem _ he), h.engine.cache,
        h.engine.slots, h.engine.buffers⟩, fun t ht => ?_, h.sent, h.batches,
        h.replies⟩
      rcases List.mem_append.mp ht with hold | hnew
      · exact h.tasks t hold
      · rw [List.mem_singleton.mp hnew]
        intro e he
        exact hch e (by simp [List.mem_singleton.mp he])
  | task i first t entry rest ht hqueue => exact h.task ht hqueue
  | startFlush => exact ⟨h.engine, h.tasks, h.sent, h.batches, h.replies⟩
  | finishFlush peers marks hflushing =>
      have hcollected := GossipEngine.collectBatches_collected marks peers
        n.engine.lazyBuffers
      refine ⟨⟨h.engine.localCh, h.engine.cache, h.engine.slots, ?_⟩,
        h.tasks, h.sent, fun pb hpb e he => ?_, h.replies⟩
      · exact fun id e he => h.engine.buffers id e (hcollected.kept id e he)
      · rcases List.mem_append.mp hpb with hold | hnew
        · exact h.batches pb hold e he
        · obtain ⟨id, hid⟩ := hcollected.batched pb hnew e he
          exact h.engine.buffers id e hid
  | reclassify | setTopicSeq =>
      exact h.withEngine ⟨h.engine.localCh, h.engine.cache, h.engine.slots,
        h.engine.buffers⟩
  | expire topic e o hstep | repairFail topic e o hstep
  | setNextSeq topic e o hstep =>
      refine h.withEngine (h.engine.applierStep ?_ hstep)
      intro seq p hentry
      cases hentry
  | serveRepair topic seq reply hreply =>
      refine ⟨h.engine, h.tasks, h.sent, h.batches, fun r hr e he => ?_⟩
      rcases List.mem_append.mp hr with hold | hnew
      · exact h.replies r hold e he
      · rw [List.mem_singleton.mp hnew] at he
        exact h.answer hreply he

end Genuine

/-! ## Messages -/

def Short (entry : GossipEntry) : Prop := entry.payload.length + 11 < 2 ^ 32

instance (entry : GossipEntry) : Decidable (Short entry) :=
  inferInstanceAs (Decidable (_ < _))

def BatchFits (z : Zstd) (pb : PeerBatch) : Prop :=
  (encodeLazyBatch z pb.batch).length < 2 ^ 32

private theorem eagerStream_entries (sends : List EagerSend) (cut : Nat)
    (hshort : ∀ s ∈ sends, Short s.entry) {e : GossipEntry}
    (he : e ∈ (receiveEagerStream
      ((sends.flatMap fun s => eagerFrame s.msg).take cut)).filterMap
        decodeEagerMessage) : ∃ s ∈ sends, s.entry = e := by
  have hframes : (sends.flatMap fun s => eagerFrame s.msg) =
      (sends.map EagerSend.msg).flatMap eagerFrame := by
    rw [List.flatMap_map]
  rw [hframes] at he
  have hsmall : ∀ msg ∈ sends.map EagerSend.msg, msg.length < 2 ^ 32 := by
    intro msg hmsg
    obtain ⟨s, hs, rfl⟩ := List.mem_map.mp hmsg
    have := hshort s hs
    unfold Short at this
    rw [EagerSend.msg, encodeEagerMessage_length]
    omega
  obtain ⟨data, hdata, hdecode⟩ := List.mem_filterMap.mp he
  have hmem := (receiveEagerStream_isPrefix _ cut hsmall).subset hdata
  obtain ⟨msg, hmsg, rfl⟩ := List.mem_map.mp hmem
  obtain ⟨s, hs, rfl⟩ := List.mem_map.mp hmsg
  rw [EagerSend.msg, stripType_encode, decodeEagerMessage_encode] at hdecode
  exact ⟨s, hs, Option.some.inj hdecode⟩

theorem Genuine.emits {E : GossipEntry → Prop} {n : Node} {z : Zstd}
    (h : Genuine E n) (hshort : ∀ e, E e → Short e)
    (hframes : ∀ pb ∈ n.batches, BatchFits z pb) {input : Input}
    (hemits : n.Emits z input) : ∀ e ∈ input.entries z, E e := by
  intro e he
  cases hemits with
  | datagram s sender hsent =>
      have hentry : e = s.entry := by
        simpa [Input.entries, EagerSend.msg, receiveDatagram_encode,
          decodeEagerMessage_encode] using he
      exact hentry ▸ h.sent s hsent
  | eagerStream sends cut sender hsent =>
      cases cut with
      | zero => simp [Input.entries] at he
      | succ cut =>
          rw [Node.eagerStream, List.take_succ_cons, Input.entries,
            if_neg (by decide), if_pos rfl] at he
          obtain ⟨s, hs, rfl⟩ := eagerStream_entries sends cut
            (fun s hs => hshort _ (h.sent s (hsent s hs))) he
          exact h.sent s (hsent s hs)
  | lazyStream pb sender hsent =>
      simp only [Node.lazyStream, Input.entries, if_pos] at he
      cases hread : readLazyBatch z (writeLazyBatch z pb.batch) with
      | error err => simp [hread] at he
      | ok batch =>
          rw [hread] at he
          refine h.batches pb hsent e ?_
          refine readLazyBatch_write_entries (hframes pb hsent) ?_ hread e he
          intro e' he'
          have := hshort e' (h.batches pb hsent e' he')
          unfold Short at this
          omega
  | repairReply k reply hsent =>
      simp only [Input.entries] at he
      cases hread : readReply k.topic k.seq reply with
      | error | miss => simp [hread] at he
      | hit entry =>
          rw [hread] at he
          rw [List.mem_singleton.mp he]
          exact h.replies _ hsent entry hread

/-! ## The cluster -/

section Run

variable {ι : Type} [DecidableEq ι] {z : Zstd} {c c' : ι → Node}

def Enqueued (c : ι → Node) (entry : GossipEntry) : Prop :=
  ∃ u, entry ∈ (c u).enqueued

def Node.flushBatches (n : Node) : List PeerBatch :=
  match n.flushing with
  | none => []
  | some (peers, marks) =>
      (GossipEngine.collectBatches marks peers n.engine.lazyBuffers).1

def WithinLimits (z : Zstd) (c : ι → Node) : Label ι → Prop
  | .act _ (.enqueue entry) => Short entry
  | .act v .finishFlush => ∀ pb ∈ (c v).flushBatches, BatchFits z pb
  | _ => True

instance (z : Zstd) (c : ι → Node) (l : Label ι) :
    Decidable (WithinLimits z c l) := by
  unfold WithinLimits BatchFits
  split <;> infer_instance

structure Integrity (z : Zstd) (c : ι → Node) : Prop where
  genuine : ∀ v, Genuine (Enqueued c) (c v)
  short : ∀ e, Enqueued c e → Short e
  frames : ∀ v, ∀ pb ∈ (c v).batches, BatchFits z pb

def Action.newEntries : Action → List GossipEntry
  | .enqueue entry => [entry]
  | _ => []

def Node.newBatches (n : Node) : Action → List PeerBatch
  | .finishFlush => n.flushBatches
  | _ => []

theorem act_logs {n n' : Node} {a : Action} (hact : n.act a = some n') :
    n'.enqueued = n.enqueued ++ a.newEntries ∧
      n'.batches = n.batches ++ n.newBatches a := by
  cases Node.acts_of_act hact with
  | finishFlush peers marks hflushing =>
      simp [Action.newEntries, Node.newBatches, Node.flushBatches, hflushing]
  | _ =>
      simp [Node.withApplier, Node.withEngine, Action.newEntries, Node.newBatches]

theorem receive_logs {n n' : Node} {input : Input}
    (hreceive : n.receive z input = some n') :
    n'.enqueued = n.enqueued ∧ n'.batches = n.batches := by
  cases Node.receives_of_receive hreceive <;> exact ⟨rfl, rfl⟩

theorem enqueued_update {v : ι} {n : Node} {added : List GossipEntry}
    (hlog : n.enqueued = (c v).enqueued ++ added) (e : GossipEntry) :
    Enqueued (Function.update c v n) e ↔ Enqueued c e ∨ e ∈ added := by
  constructor
  · rintro ⟨u, hu⟩
    by_cases huv : u = v
    · subst huv
      rw [Function.update_self, hlog, List.mem_append] at hu
      exact hu.imp (fun h => ⟨u, h⟩) id
    · rw [Function.update_of_ne huv] at hu
      exact .inl ⟨u, hu⟩
  · rintro (⟨u, hu⟩ | hadded)
    · refine ⟨u, ?_⟩
      by_cases huv : u = v
      · subst huv
        rw [Function.update_self, hlog]
        exact List.mem_append_left _ hu
      · rwa [Function.update_of_ne huv]
    · refine ⟨v, ?_⟩
      rw [Function.update_self, hlog]
      exact List.mem_append_right _ hadded

theorem Integrity.act (h : Integrity z c) {v : ι} {a : Action} {n : Node}
    (hlimits : WithinLimits z c (.act v a)) (hact : (c v).act a = some n) :
    Integrity z (Function.update c v n) := by
  obtain ⟨hentries, hbatches⟩ := act_logs hact
  have henq := enqueued_update (c := c) hentries
  have himp : ∀ e, Enqueued c e → Enqueued (Function.update c v n) e :=
    fun e he => (henq e).mpr (.inl he)
  refine ⟨?_, fun e he => ?_, ?_⟩
  · refine forall_update (fun w => (h.genuine w).mono himp) ?_
    refine ((h.genuine v).mono himp).act ?_ hact
    rintro entry rfl
    exact (henq entry).mpr (.inr (by simp [Action.newEntries]))
  · rcases (henq e).mp he with hold | hnew
    · exact h.short e hold
    · cases a <;> simp only [Action.newEntries, List.not_mem_nil] at hnew
      rw [List.mem_singleton.mp hnew]
      exact hlimits
  · refine forall_update (P := fun _ n => ∀ pb ∈ Node.batches n, BatchFits z pb)
      h.frames ?_
    intro pb hpb
    rw [hbatches] at hpb
    rcases List.mem_append.mp hpb with hold | hnew
    · exact h.frames v pb hold
    · cases a <;> simp only [Node.newBatches, List.not_mem_nil] at hnew
      exact hlimits pb hnew

theorem Integrity.receive (h : Integrity z c) {u v : ι} {input : Input} {n : Node}
    (hemits : (c u).Emits z input) (hreceive : (c v).receive z input = some n) :
    Integrity z (Function.update c v n) := by
  obtain ⟨hentries, hbatches⟩ := receive_logs hreceive
  have hlog : n.enqueued = (c v).enqueued ++ [] := by simpa using hentries
  have henq : ∀ e, Enqueued (Function.update c v n) e ↔ Enqueued c e := by
    intro e
    rw [enqueued_update hlog]
    simp
  have hinput := (h.genuine u).emits h.short (h.frames u) hemits
  refine ⟨?_, fun e he => h.short e ((henq e).mp he), ?_⟩
  · have hnodes := forall_update (i := v) h.genuine
      ((h.genuine v).receive hinput hreceive)
    exact fun w => (hnodes w).mono fun e he => (henq e).mpr he
  · refine forall_update (P := fun _ n => ∀ pb ∈ Node.batches n, BatchFits z pb)
      h.frames ?_
    rw [hbatches]
    exact h.frames v

omit [DecidableEq ι] in
theorem Integrity.start (cfg : ι → NodeConfig) : Integrity z (start cfg) where
  genuine v := by
    refine ⟨List.foldlRecOn _ _ (EngineGenuine.new _ _) fun g hg p _ =>
      hg.setInitialSeq p.1 p.2, ?_, ?_, ?_, ?_⟩ <;>
      simp [Cluster.start, Node.start]
  short e := by
    rintro ⟨u, hu⟩
    cases hu
  frames v pb hpb := by cases hpb

def Node.Holds (n : Node) (e : GossipEntry) : Prop :=
  (e.seq, e.payload) ∈ (n.engine.applier.slots e.topic).delivered ∨
  (n.engine.applier.slots e.topic).pending.lookup e.seq = some e.payload ∨
  n.engine.cache.lookup e.key = some e.payload ∨
  (∃ s ∈ n.sent, s.entry = e) ∨
  (∃ id, e ∈ (GossipEngine.bufferOf n.engine.lazyBuffers id).entries) ∨
  ∃ pb ∈ n.batches, e ∈ pb.batch.entries

theorem Genuine.holds {E : GossipEntry → Prop} {n : Node} (h : Genuine E n)
    {e : GossipEntry} (hholds : n.Holds e) : E e := by
  rcases hholds with h' | h' | h' | ⟨s, hs, rfl⟩ | ⟨id, h'⟩ | ⟨pb, hpb, h'⟩
  · exact (h.engine.slots e.topic).delivered _ _ h'
  · exact (h.engine.slots e.topic).pending _ _ h'
  · exact h.engine.cache _ _ h'
  · exact h.sent s hs
  · exact h.engine.buffers id e h'
  · exact h.batches pb hpb e h'

/-- Every entry of a node was enqueued, and with the payload it has there. -/
def Agreement (c : ι → Node) : Prop :=
  ∀ v e, (c v).Holds e →
    (∃ u, ∃ e' ∈ (c u).enqueued, e'.key = e.key) ∧
    ∀ u, ∀ e' ∈ (c u).enqueued, e'.key = e.key → e'.payload = e.payload

def UniquePayloads (c : ι → Node) : Prop :=
  ∀ u u' e e', e ∈ (c u).enqueued → e' ∈ (c u').enqueued → e.key = e'.key →
    e.payload = e'.payload

/--
In every run that stays within the limits of the length fields, with messages
lost, repeated and reordered at will, all nodes agree with the enqueued entries.
-/
theorem agreement_of_withinLimits (cfg : ι → NodeConfig) {acts : List (Label ι)}
    (hlimits : Along (step z) (WithinLimits z) (start cfg) acts)
    (hrun : exec (step z) (start cfg) acts = some c)
    (hunique : UniquePayloads c) : Agreement c := by
  have hintegrity : Integrity z c := by
    refine exec_invariant_of_along (Integrity z) ?_ (.start cfg) hlimits hrun
    intro c l c' h hl hstep
    rcases step_cases hstep with ⟨v, a, n, rfl, hact, rfl⟩ |
      ⟨u, v, input, n, hemits, hreceive, rfl⟩
    · exact h.act hl hact
    · exact h.receive hemits hreceive
  intro v e hholds
  obtain ⟨u, hu⟩ := (hintegrity.genuine v).holds hholds
  exact ⟨⟨u, e, hu, rfl⟩, fun u' e' he' hkey =>
    hunique u' u e' e he' hu hkey⟩

end Run

/-! ## Two runs -/

noncomputable def publishTrace (payload : Payload) : List (Label Bool) :=
  -- node `a` publishes an entry to its eager peer `b`
  [.act true (.reclassify .insertion [⟨"b", "b:1", 1000⟩]),
   .act true (.enqueue ⟨1, 1, payload⟩), .act true .takeLocal,
   .act true (.task 0 .any), .act true (.task 0 .any), .act true (.task 0 .any)]

noncomputable def deliverTrace : List (Label Bool) :=
  publishTrace [7] ++
  [.deliver true false "a:1" (.datagram 0), .act false (.task 0 .any),
   .act false (.task 0 .any), .act false (.task 0 .any)]

theorem agreement_of_withinLimits_deliverTrace :
    ∃ c, exec (step .stored) (start twoNodes) deliverTrace = some c ∧
      ((c false).engine.applier.slots 1).delivered = [(1, [7])] ∧
      Agreement c := by
  have hsome : (exec (step .stored) (start twoNodes) deliverTrace).isSome := by
    decide
  obtain ⟨c, hrun⟩ := Option.isSome_iff_exists.mp hsome
  have hlogs : ∀ c, exec (step .stored) (start twoNodes) deliverTrace = some c →
      ((c false).engine.applier.slots 1).delivered = [(1, [7])] ∧
      (c true).enqueued = [⟨1, 1, [7]⟩] ∧ (c false).enqueued = [] := by decide
  obtain ⟨hdelivered, htrue, hfalse⟩ := hlogs c hrun
  refine ⟨c, hrun, hdelivered,
    agreement_of_withinLimits twoNodes (by decide) hrun ?_⟩
  rintro (_ | _) (_ | _) e e' he he' - <;> simp_all

noncomputable def takeUpTrace : List (Label Bool) :=
  -- node `b` reads 16 bytes of the stream and takes up what it finds there
  [.deliver true false "a:1" (.eagerStream [0] 16),
   .act false (.task 0 .any), .act false (.task 0 .any),
   .act false (.task 0 .any)]

theorem publishTrace_sends (payload : Payload) :
    ∃ c, exec (step .stored) (start twoNodes) (publishTrace payload) = some c ∧
      c false = .start (twoNodes false) ∧
      (c true).sent = [⟨"b:1", ⟨1, 1, payload⟩⟩] ∧
      (c true).enqueued = [⟨1, 1, payload⟩] :=
  ⟨_, rfl, rfl, rfl, rfl⟩

private theorem oversized_frame {payload : Payload} (h : payload.length = 2 ^ 32) :
    (Node.eagerStream [⟨"b:1", ⟨1, 1, payload⟩⟩]).take 16 =
      [0x12, 0, 0, 0, 11, 2, 0, 1, 0, 0, 0, 0, 0, 0, 0, 1] := by
  have hlen : UInt32.ofNat (EagerSend.msg ⟨"b:1", ⟨1, 1, payload⟩⟩).length = 11 := by
    rw [EagerSend.msg, encodeEagerMessage_length, h]
    rfl
  have hheader : putUint32 11 = [0, 0, 0, 11] := by decide
  have htopic : putUint16 1 = [0, 1] := by decide
  have hseq : putUint64 1 = [0, 0, 0, 0, 0, 0, 0, 1] := by decide
  simp only [Node.eagerStream, List.flatMap_cons, List.flatMap_nil, eagerFrame,
    hlen, hheader]
  simp only [EagerSend.msg, encodeEagerMessage, htopic, hseq]
  rfl

private theorem oversized_emit {n : Node} {payload : Payload}
    (hsent : n.sent = [⟨"b:1", ⟨1, 1, payload⟩⟩])
    (h : payload.length = 2 ^ 32) :
    n.emit .stored "a:1" (.eagerStream [0] 16) = some (.uniStream "a:1"
      [0x12, 0, 0, 0, 11, 2, 0, 1, 0, 0, 0, 0, 0, 0, 0, 1]) := by
  have hstream : EagerSend.useStream ⟨"b:1", ⟨1, 1, payload⟩⟩ = true := by
    simp only [EagerSend.useStream, EagerSend.msg, encodeEagerMessage_length, h]
    decide
  simp only [Node.emit, hsent, List.filterMap_cons, List.getElem?_cons_zero,
    List.filterMap_nil, List.filter_cons, hstream, if_true, List.filter_nil,
    oversized_frame h]

/--
A payload of `2 ^ 32` bytes leaves its sender in a frame that announces an empty
one.  The receiver delivers the empty payload, which nobody enqueued.
-/
theorem oversized_payload_disagrees :
    ∃ c, exec (step .stored) (start twoNodes)
        (publishTrace (List.replicate (2 ^ 32) 0) ++ takeUpTrace) = some c ∧
      UniquePayloads c ∧ ¬ Agreement c := by
  have hlen : (List.replicate (2 ^ 32) (0 : UInt8)).length = 2 ^ 32 :=
    List.length_replicate
  generalize List.replicate (2 ^ 32) (0 : UInt8) = payload at hlen
  obtain ⟨c, hrun, hfresh, hsent, henqueued⟩ := publishTrace_sends payload
  have hdeliver : step .stored c
      (.deliver true false "a:1" (.eagerStream [0] 16)) =
      some (Function.update c false
        ((Node.start (twoNodes false)).startTask "a:1" [⟨1, 1, []⟩])) := by
    simp only [step, oversized_emit hsent hlen, hfresh]
    rfl
  obtain ⟨n, hrest, hdelivered, hnone⟩ : ∃ n, exec Node.act
      ((Node.start (twoNodes false)).startTask "a:1" [⟨1, 1, []⟩])
      [.task 0 .any, .task 0 .any, .task 0 .any] = some n ∧
      (n.engine.applier.slots 1).delivered = [(1, [])] ∧ n.enqueued = [] :=
    ⟨_, rfl, rfl, rfl⟩
  refine ⟨Function.update c false n, ?_, ?_, ?_⟩
  · rw [exec_append_eq_some]
    exact ⟨c, hrun, exec_cons_eq_some.mpr ⟨_, hdeliver, exec_acts hrest⟩⟩
  · rintro (_ | _) (_ | _) e e' he he' - <;> simp_all
  · intro hagree
    have hholds : (Function.update c false n false).Holds ⟨1, 1, []⟩ := by
      rw [Function.update_self]
      exact .inl (by simp [hdelivered])
    have hpayload := (hagree false _ hholds).2 true ⟨1, 1, payload⟩
      (by simp [henqueued]) rfl
    simp only at hpayload
    subst hpayload
    simp at hlen

end GossipMesh.Cluster
