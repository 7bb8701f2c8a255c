import Mathlib.Algebra.BigOperators.Ring.Finset
import Mathlib.Algebra.Order.BigOperators.Group.Finset
import Mathlib.Data.Fintype.BigOperators
import GossipMesh.Cluster.Cluster
import GossipMesh.Foundation.Interleaving
import GossipMesh.Overlay.Clusters

/-!
# The flood is bounded

Forwarding has no other brake than the high-water mark: a node accepts a
received entry at most once, because accepting it raises the mark to it.  Every
acceptance forwards the entry to at most `MaxEagerPeers` peers, so the eager
sends of one entry are bounded whatever the peer graph looks like.

The invariant is about a single node.  It charges the sends of an acceptance
to the task that is still going to make them.
-/

namespace GossipMesh.Cluster

open GossipMesh.Foundation GossipMesh.Engine

/-! ## Counting -/

def isKey (k : TopicSeq) (entry : GossipEntry) : Bool := decide (entry.key = k)

namespace Node

def received (n : Node) (k : TopicSeq) : Nat :=
  n.accepted.countP fun a => !a.1 && isKey k a.2

def acceptedLocal (n : Node) (k : TopicSeq) : Nat :=
  n.accepted.countP fun a => a.1 && isKey k a.2

def enqueues (n : Node) (k : TopicSeq) : Nat := n.enqueued.countP (isKey k)

def eagerSends (n : Node) (k : TopicSeq) : Nat :=
  n.sent.countP fun s => isKey k s.entry

end Node

def waiting (k : TopicSeq) (t : Task) : Nat :=
  if t.isLocal then
    match t.phase with
    | .seen => t.queue.countP (isKey k)
    | _ => t.queue.tail.countP (isKey k)
  else 0

def forwarding (k : TopicSeq) (t : Task) : Nat :=
  match t.phase, t.queue with
  | .cache, entry :: _ | .apply, entry :: _ | .eagerForward, entry :: _ =>
      if isKey k entry then 1 else 0
  | _, _ => 0

/-! ## One operation of a task -/

section Operate

variable (k : TopicSeq) (first : RangeFirst) (g : GossipEngine) {t : Task}
  {entry : GossipEntry} {rest : List GossipEntry}

theorem operate_overlay :
    (t.operate first g entry rest).engine.overlay = g.overlay := by
  unfold Task.operate
  split <;> rfl

theorem operate_localCh :
    (t.operate first g entry rest).engine.localCh = g.localCh := by
  unfold Task.operate
  split <;> rfl

theorem operate_mark_le (topic : UInt16) :
    g.seen.slotSeqs topic ≤
      (t.operate first g entry rest).engine.seen.slotSeqs topic := by
  unfold Task.operate
  split
  · exact SeenTracker.shouldProcess_mono g.seen entry.topic topic entry.seq
  all_goals exact le_refl _

theorem operate_waiting (hqueue : t.queue = entry :: rest) :
    ((Node.noteAccept t g).countP fun a => a.1 && isKey k a.2) +
      waiting k (t.operate first g entry rest).task = waiting k t := by
  obtain ⟨sender, isLocal, phase, queue⟩ := t
  simp only at hqueue
  subst hqueue
  cases phase with
  | seen =>
      cases isLocal with
      | false =>
          simp only [Node.noteAccept, Task.operate, Task.accepts, Bool.false_or]
          split <;> simp [waiting]
      | true =>
          simp only [Node.noteAccept, Task.operate, Task.accepts, Bool.true_or,
            if_true, waiting, List.tail_cons, List.countP_cons, List.countP_nil,
            Bool.true_and]
          omega
  | _ => cases isLocal <;> simp [Node.noteAccept, Task.operate, waiting]

theorem operate_forwarding (hqueue : t.queue = entry :: rest) {m : Nat}
    (hcap : g.overlay.eagerPeers.length ≤ m) :
    ((t.operate first g entry rest).sends.countP fun s => isKey k s.entry) +
      m * forwarding k (t.operate first g entry rest).task ≤
    m * (forwarding k t + (Node.noteAccept t g).countP fun a => isKey k a.2) := by
  obtain ⟨sender, isLocal, phase, queue⟩ := t
  simp only at hqueue
  subst hqueue
  cases phase with
  | seen =>
      simp only [Node.noteAccept, Task.operate]
      split <;> simp [forwarding, List.countP_cons]
  | cache => cases isLocal <;> simp [Node.noteAccept, Task.operate, forwarding]
  | apply => simp [Node.noteAccept, Task.operate, forwarding]
  | eagerForward =>
      have hlen : (g.eagerForward entry sender).length ≤ m := by
        refine le_trans ?_ hcap
        rw [GossipEngine.eagerForward, List.length_map]
        exact List.length_filter_le _ _
      by_cases hkey : isKey k entry = true
      · have hcount := List.countP_le_length
          (p := fun s : EagerSend => isKey k s.entry)
          (l := g.eagerForward entry sender)
        simp only [Task.operate, forwarding, Node.noteAccept, hkey, if_true,
          List.countP_nil, Nat.mul_zero, Nat.add_zero, Nat.mul_one]
        omega
      · have hnone : (g.eagerForward entry sender).countP
            (fun s => isKey k s.entry) = 0 := by
          rw [List.countP_eq_zero]
          intro s hs
          obtain ⟨peer, -, rfl⟩ := List.mem_map.mp hs
          simpa using hkey
        simp [Task.operate, forwarding, hnone]
  | lazyPeers => simp [Node.noteAccept, Task.operate, forwarding]
  | enqueue peers => simp [Node.noteAccept, Task.operate, forwarding]

theorem operate_received (hqueue : t.queue = entry :: rest)
    (h : 0 < (Node.noteAccept t g).countP fun a => !a.1 && isKey k a.2) :
    ((Node.noteAccept t g).countP fun a => !a.1 && isKey k a.2) = 1 ∧
      g.seen.slotSeqs k.topic < k.seq ∧
      k.seq ≤ (t.operate first g entry rest).engine.seen.slotSeqs k.topic := by
  obtain ⟨sender, isLocal, phase, queue⟩ := t
  simp only at hqueue
  subst hqueue
  cases phase with
  | seen =>
      by_cases haccept : (isLocal || g.isNew entry) = true
      · simp only [Node.noteAccept, Task.accepts, haccept, if_true] at h ⊢
        cases isLocal with
        | true => simp at h
        | false =>
            have hkey : isKey k entry = true := by
              by_contra hne
              simp [hne] at h
            have heq : entry.key = k := by simpa [isKey] using hkey
            subst heq
            have hnew : g.isNew entry = true := by simpa using haccept
            refine ⟨by simp [hkey], (g.isNew_iff entry).mp hnew, ?_⟩
            simp [Task.operate, GossipEngine.markSeen, GossipEntry.key]
      · simp [Node.noteAccept, Task.accepts, haccept] at h
  | _ => simp [Node.noteAccept] at h

end Operate

/-! ## The invariant of a node -/

structure Bounded (m : Nat) (k : TopicSeq) (n : Node) : Prop where
  limit : n.engine.overlay.cfg.maxEagerPeers = m
  capped : n.engine.overlay.eagerPeers.length ≤ m
  once : n.received k ≤ 1
  behind : 0 < n.received k → k.seq ≤ n.engine.seen.slotSeqs k.topic
  origin : n.acceptedLocal k + (n.tasks.map (waiting k)).sum +
    n.engine.localCh.countP (isKey k) ≤ n.enqueues k
  sends : n.eagerSends k + m * (n.tasks.map (forwarding k)).sum ≤
    m * (n.received k + n.acceptedLocal k)

private theorem countP_accepts (k : TopicSeq) (accepted : List (Bool × GossipEntry)) :
    (accepted.countP fun a => isKey k a.2) =
      (accepted.countP fun a => !a.1 && isKey k a.2) +
        accepted.countP fun a => a.1 && isKey k a.2 := by
  induction accepted with
  | nil => rfl
  | cons a accepted ih =>
      obtain ⟨isLocal, entry⟩ := a
      cases isLocal <;> simp [List.countP_cons, ih] <;> omega

namespace Bounded

variable {m : Nat} {k : TopicSeq} {n n' : Node}

theorem task (h : Bounded m k n) {i : Nat} {first : RangeFirst} {t : Task}
    {entry : GossipEntry} {rest : List GossipEntry} (ht : n.tasks[i]? = some t)
    (hqueue : t.queue = entry :: rest) :
    Bounded m k { n with
      engine := (t.operate first n.engine entry rest).engine
      tasks := n.tasks.set i (t.operate first n.engine entry rest).task
      accepted := n.accepted ++ Node.noteAccept t n.engine
      sent := n.sent ++ (t.operate first n.engine entry rest).sends } := by
  have hmark : n.engine.seen.slotSeqs k.topic ≤
      (t.operate first n.engine entry rest).engine.seen.slotSeqs k.topic :=
    operate_mark_le first n.engine k.topic
  have hwaiting := operate_waiting k first n.engine hqueue
  have hforward := operate_forwarding k first n.engine hqueue h.capped
  have hreceived := operate_received k first n.engine hqueue
  have hsplit := countP_accepts k (Node.noteAccept t n.engine)
  have hwaitingSum := Threads.total_set (waiting k) ht (t.operate first n.engine entry rest).task
  have hforwardSum := Threads.total_set (forwarding k) ht (t.operate first n.engine entry rest).task
  simp only [Threads.total] at hwaitingSum hforwardSum
  have hlocals := h.origin
  have hsends := h.sends
  have honce := h.once
  have hbehind := h.behind
  unfold Node.acceptedLocal Node.enqueues Node.eagerSends Node.received at *
  refine ⟨?_, ?_, ?_, ?_, ?_, ?_⟩ <;>
    simp only [Node.received, Node.acceptedLocal, Node.enqueues, Node.eagerSends,
      List.countP_append, operate_overlay, operate_localCh]
  · exact h.limit
  · exact h.capped
  · by_contra hmany
    have hnew : 0 < (Node.noteAccept t n.engine).countP
        fun a => !a.1 && isKey k a.2 := by omega
    obtain ⟨hone, hlt, -⟩ := hreceived hnew
    exact absurd hlt (not_lt.mpr (hbehind (by omega)))
  · intro hpos
    by_cases hnew : 0 < (Node.noteAccept t n.engine).countP
        fun a => !a.1 && isKey k a.2
    · exact (hreceived hnew).2.2
    · exact (hbehind (by omega)).trans hmark
  · omega
  · -- charge the task's share before and after the operation
    have hshare := congrArg (m * ·) hforwardSum
    rw [hsplit] at hforward
    simp only [Nat.mul_add] at hshare hforward hsends ⊢
    omega

private theorem startTask (h : Bounded m k n) (sender : String)
    (entries : List GossipEntry) : Bounded m k (n.startTask sender entries) where
  limit := h.limit
  capped := h.capped
  once := h.once
  behind := h.behind
  origin := by
    simpa [Node.startTask, waiting, Task.receive, Node.acceptedLocal,
      Node.enqueues] using h.origin
  sends := by
    simpa [Node.startTask, forwarding, Task.receive, Node.eagerSends,
      Node.received, Node.acceptedLocal] using h.sends

private theorem updateSender (h : Bounded m k n) (sender : String)
    (marks : List TopicSeq) :
    Bounded m k (n.withEngine (n.engine.updateSender sender marks)) where
  limit := by simpa [Node.withEngine] using h.limit
  capped := by simpa [Node.withEngine] using h.capped
  once := h.once
  behind := by
    intro hpos
    simpa [Node.withEngine] using h.behind hpos
  origin := by
    simpa [Node.withEngine, Node.acceptedLocal, Node.enqueues] using h.origin
  sends := h.sends

theorem receive (h : Bounded m k n) {z : Zstd} {input : Input}
    (hreceive : n.receive z input = some n') : Bounded m k n' := by
  cases Node.receives_of_receive hreceive with
  | ignored => exact h
  | eager sender => exact h.startTask sender _
  | lazyBatch sender marks => exact (h.updateSender sender marks).startTask sender _
  | repaired entry o hentry hstep =>
      exact ⟨h.limit, h.capped, h.once, h.behind, h.origin, h.sends⟩

theorem act (h : Bounded m k n) {a : Action}
    (hreset : ∀ topic seq, a ≠ .setTopicSeq topic seq)
    (hact : n.act a = some n') : Bounded m k n' := by
  cases Node.acts_of_act hact with
  | enqueue entry hroom =>
      refine ⟨h.limit, h.capped, h.once, h.behind, ?_, h.sends⟩
      have := h.origin
      simp only [Node.enqueues, Node.withEngine, List.countP_append] at this ⊢
      change n.acceptedLocal k + _ + _ ≤ _
      omega
  | takeLocal entry rest hlocal hidle =>
      have horigin := h.origin
      rw [hlocal, List.countP_cons] at horigin
      refine ⟨h.limit, h.capped, h.once, h.behind, ?_, ?_⟩
      · simp only [Node.withEngine, List.map_append, List.map_cons,
          List.map_nil, List.sum_append, List.sum_cons, List.sum_nil,
          waiting, Task.handleLocal, if_true, List.countP_cons,
          List.countP_nil]
        change n.acceptedLocal k + _ + _ ≤ n.enqueues k
        omega
      · simpa [Node.withEngine, forwarding, Task.handleLocal,
          Node.eagerSends, Node.received, Node.acceptedLocal] using h.sends
  | task i first t entry rest ht hqueue => exact h.task ht hqueue
  | reclassify sorter peers o ho =>
      have hcfg := Overlay.reclassify_cfg ho
      have hcap := Overlay.reclassify_capped (by rw [h.limit]; omega) ho
      unfold Overlay.Capped at hcap
      rw [hcfg, h.limit] at hcap
      refine ⟨?_, ?_, h.once, h.behind, h.origin, h.sends⟩
      · exact (congrArg OverlayConfig.maxEagerPeers hcfg).trans h.limit
      · exact Int.ofNat_le.mp hcap
  | setTopicSeq topic seq => exact absurd rfl (hreset topic seq)
  | startFlush | finishFlush | expire | repairFail | serveRepair | setNextSeq =>
      exact ⟨h.limit, h.capped, h.once, h.behind, h.origin, h.sends⟩

end Bounded

/-! ## The cluster -/

private theorem foldl_setInitialSeq_frame (primed : List (UInt16 × UInt64))
    (g : GossipEngine) :
    (primed.foldl (fun g p => g.setInitialSeq p.1 p.2) g).overlay = g.overlay ∧
      (primed.foldl (fun g p => g.setInitialSeq p.1 p.2) g).localCh =
        g.localCh := by
  induction primed generalizing g with
  | nil => exact ⟨rfl, rfl⟩
  | cons p primed ih => exact ih (g.setInitialSeq p.1 p.2)

theorem Bounded.start {m : Nat} (k : TopicSeq) {cfg : NodeConfig}
    (hm : cfg.overlay.withDefaults.maxEagerPeers = m) :
    Bounded m k (.start cfg) := by
  obtain ⟨hoverlay, hlocal⟩ := foldl_setInitialSeq_frame cfg.primed
    (.new (.new cfg.nodeID cfg.overlay) cfg.maxGapBuffer)
  refine ⟨?_, ?_, Nat.zero_le _, ?_, ?_, Nat.zero_le _⟩
  · exact (congrArg (fun o : Overlay => o.cfg.maxEagerPeers) hoverlay).trans hm
  · exact (congrArg (fun o : Overlay => o.eagerPeers.length) hoverlay).trans_le
      (Nat.zero_le m)
  · intro hpos
    cases hpos
  · exact (congrArg (fun ch : List GossipEntry => 0 + 0 + ch.countP (isKey k))
      hlocal).le

section Run

variable {ι : Type} [DecidableEq ι] {z : Zstd} {c c' : ι → Node}

omit [DecidableEq ι] in
def Label.resetsMark : Label ι → Bool
  | .act _ (.setTopicSeq _ _) => true
  | _ => false

private theorem Bounded.step {m : Nat} {k : TopicSeq} (h : ∀ v, Bounded m k (c v))
    {l : Label ι} (hreset : l.resetsMark = false) (hstep : step z c l = some c') :
    ∀ v, Bounded m k (c' v) := by
  rcases step_cases hstep with ⟨v, a, n, rfl, hact, rfl⟩ |
    ⟨u, v, input, n, -, hreceive, rfl⟩
  · refine forall_update h ((h v).act ?_ hact)
    rintro topic seq rfl
    cases hreset
  · exact forall_update h ((h v).receive hreceive)

/--
In every run of a cluster whose nodes share one `MaxEagerPeers` and after the
start never reset a mark, a node accepts an entry at most once as received and
once per local enqueue, and the eager sends of the entry are bounded by the
number of nodes and of enqueues.
-/
theorem flood_bounded_run [Fintype ι] (cfg : ι → NodeConfig) (m : Nat)
    (hm : ∀ v, (cfg v).overlay.withDefaults.maxEagerPeers = m)
    {acts : List (Label ι)} (hreset : ∀ l ∈ acts, l.resetsMark = false)
    (hrun : exec (step z) (start cfg) acts = some c) (k : TopicSeq) :
    (∀ v, (c v).received k ≤ 1 ∧ (c v).acceptedLocal k ≤ (c v).enqueues k) ∧
    ∑ v, (c v).eagerSends k ≤ m * (Fintype.card ι + ∑ v, (c v).enqueues k) := by
  have hbounded : ∀ v, Bounded m k (c v) := by
    have halong : Along (step z) (fun _ l => l.resetsMark = false) (start cfg)
        acts := along_of_forall hreset
    refine exec_invariant_of_along (fun c => ∀ v, Bounded m k (c v)) ?_
      (fun v => .start k (hm v)) halong hrun
    intro c l c' h hl hstep
    exact Bounded.step h hl hstep
  have haccepts : ∀ v, (c v).received k ≤ 1 ∧
      (c v).acceptedLocal k ≤ (c v).enqueues k := by
    intro v
    have := (hbounded v).origin
    exact ⟨(hbounded v).once, by omega⟩
  refine ⟨haccepts, ?_⟩
  calc ∑ v, (c v).eagerSends k
      ≤ ∑ v, m * ((c v).received k + (c v).acceptedLocal k) := by
        refine Finset.sum_le_sum fun v _ => ?_
        have := (hbounded v).sends
        omega
    _ ≤ ∑ v, m * (1 + (c v).enqueues k) := by
        refine Finset.sum_le_sum fun v _ => Nat.mul_le_mul_left m ?_
        have := haccepts v
        omega
    _ = m * (Fintype.card ι + ∑ v, (c v).enqueues k) := by
        rw [← Finset.mul_sum, Finset.sum_add_distrib]
        simp

end Run

noncomputable def echoTrace : List (Label Bool) :=
  -- node `a` publishes an entry, `b` accepts it and sends it straight back, and `a` drops the
  -- echo
  [Label.act true (.reclassify .insertion [⟨"b", "b:1", 1000⟩]),
   .act false (.reclassify .insertion [⟨"a", "a:1", 1000⟩]),
   .act true (.enqueue ⟨1, 1, [7]⟩), .act true .takeLocal] ++
  List.replicate 5 (Label.act true (.task 0 .any)) ++
  [Label.deliver true false "a:1" (.datagram 0)] ++
  List.replicate 6 (Label.act false (.task 0 .any)) ++
  [Label.deliver false true "b:1" (.datagram 0), .act true (.task 1 .any)]

theorem flood_bounded_run_echoTrace :
    ∃ c, exec (step .stored) (start twoNodes) echoTrace = some c ∧
      ∑ v, (c v).eagerSends ⟨1, 1⟩ = 2 ∧
      ∑ v, (c v).eagerSends ⟨1, 1⟩ ≤ 8 * (2 + 1) := by
  have hsome : (exec (step .stored) (start twoNodes) echoTrace).isSome := by
    decide
  obtain ⟨c, hrun⟩ := Option.isSome_iff_exists.mp hsome
  have hcounts : ∀ c, exec (step .stored) (start twoNodes) echoTrace = some c →
      ∑ v, (c v).eagerSends ⟨1, 1⟩ = 2 ∧ ∑ v, (c v).enqueues ⟨1, 1⟩ = 1 := by
    decide
  obtain ⟨hsends, henqueues⟩ := hcounts c hrun
  have hbound := (flood_bounded_run twoNodes 8 (by decide) (by decide) hrun
    ⟨1, 1⟩).2
  rw [henqueues] at hbound
  exact ⟨c, hrun, hsends, hbound⟩

end GossipMesh.Cluster
