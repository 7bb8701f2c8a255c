import GossipMesh.Cluster.Integrity

/-!
# Serving what was delivered

The receive handlers put an entry into the repair cache before they hand it to
the applier, so what they deliver can be pulled by other nodes as long as
nothing is evicted.  `RequestRepair` hands a pulled entry to the applier only.
-/

namespace GossipMesh.Cluster

open GossipMesh.Foundation GossipMesh.Engine

/-! ## Entries on their way to the cache -/

def uncached (t : Task) : Option TopicSeq :=
  match t.phase with
  | .cache => t.queue.head?.map GossipEntry.key
  | _ => none

def unapplied (t : Task) : Option GossipEntry :=
  match t.phase with
  | .apply => t.queue.head?
  | _ => none

/--
Marks never fall and an accepted key is above its mark, so a key is accepted,
and with it cached, at most once.
-/
structure Accounted (cache : Cache) (marks : UInt16 → UInt64)
    (tasks : List Task) : Prop where
  marked : ∀ k ∈ cache, k.seq ≤ marks k.topic
  remote : ∀ t ∈ tasks, t.isLocal = false
  applying : ∀ t ∈ tasks, ∀ e, unapplied t = some e →
    cache.lookup e.key = some e.payload
  waiting : ∀ k ∈ tasks.filterMap uncached,
    k.seq ≤ marks k.topic ∧ k ∉ cache
  nodup : (tasks.filterMap uncached).Nodup

namespace Accounted

variable {cache : Cache} {marks marks' : UInt16 → UInt64}
  {before after tasks : List Task} {t t' : Task}

theorem start : Accounted ∅ marks [] where
  marked _ hk := (Finmap.notMem_empty hk).elim
  remote := by simp
  applying := by simp
  waiting := by simp
  nodup := by simp

theorem startTask (h : Accounted cache marks tasks) (sender : String)
    (entries : List GossipEntry) :
    Accounted cache marks (tasks ++ [.receive sender entries]) := by
  have hnone : uncached (.receive sender entries) = none := rfl
  refine ⟨h.marked, fun t ht => ?_, fun t ht e he => ?_, ?_, ?_⟩
  · rcases List.mem_append.mp ht with hold | hnew
    · exact h.remote t hold
    · rw [List.mem_singleton.mp hnew]
      rfl
  · rcases List.mem_append.mp ht with hold | hnew
    · exact h.applying t hold e he
    · rw [List.mem_singleton.mp hnew] at he
      cases he
  · simpa [hnone] using h.waiting
  · simpa [hnone] using h.nodup

theorem forall_replace {P : Task → Prop} (h : ∀ u ∈ before ++ t :: after, P u)
    (ht : P t') : ∀ u ∈ before ++ t' :: after, P u := by
  intro u hu
  rcases List.mem_append.mp hu with hu | hu
  · exact h u (by simp [hu])
  · rcases List.mem_cons.mp hu with rfl | hu
    · exact ht
    · exact h u (by simp [hu])

theorem remote_replace (h : Accounted cache marks (before ++ t :: after))
    (hlocal : t'.isLocal = t.isLocal) :
    ∀ u ∈ before ++ t' :: after, u.isLocal = false :=
  forall_replace h.remote (hlocal.trans (h.remote t (by simp)))

theorem applying_replace (h : Accounted cache marks (before ++ t :: after))
    {cache' : Cache}
    (hkept : ∀ k p, cache.lookup k = some p → cache'.lookup k = some p)
    (htask : ∀ e, unapplied t' = some e →
      cache'.lookup e.key = some e.payload) :
    ∀ u ∈ before ++ t' :: after, ∀ e, unapplied u = some e →
      cache'.lookup e.key = some e.payload :=
  forall_replace (fun u hu e he => hkept _ _ (h.applying u hu e he)) htask

theorem advance (h : Accounted cache marks (before ++ t :: after))
    (hmarks : ∀ topic, marks topic ≤ marks' topic)
    (hlocal : t'.isLocal = t.isLocal) (huncached : uncached t' = none)
    (hunapplied : unapplied t' = none) :
    Accounted cache marks' (before ++ t' :: after) := by
  have hsub : ((before ++ t' :: after).filterMap uncached).Sublist
      ((before ++ t :: after).filterMap uncached) := by
    rw [List.filterMap_append, List.filterMap_append,
      List.filterMap_cons_none huncached]
    exact List.Sublist.append_left ((List.sublist_cons_self t after).filterMap _) _
  refine ⟨fun k hk => le_trans (h.marked k hk) (hmarks _),
    h.remote_replace hlocal, ?_, fun k hk => ?_, h.nodup.sublist hsub⟩
  · exact h.applying_replace (fun _ _ hk => hk) (by simp [hunapplied])
  · obtain ⟨hle, hcache⟩ := h.waiting k (hsub.subset hk)
    exact ⟨le_trans hle (hmarks _), hcache⟩

theorem accept (h : Accounted cache marks (before ++ t :: after))
    {k : TopicSeq} (hmarks : ∀ topic, marks topic ≤ marks' topic)
    (hlocal : t'.isLocal = t.isLocal) (hbefore : uncached t = none)
    (huncached : uncached t' = some k)
    (hunapplied : unapplied t' = none)
    (hnew : marks k.topic < k.seq) (hmarked : k.seq ≤ marks' k.topic) :
    Accounted cache marks' (before ++ t' :: after) := by
  have hkeys : (before ++ t' :: after).filterMap uncached =
      before.filterMap uncached ++ k :: after.filterMap uncached := by
    rw [List.filterMap_append, List.filterMap_cons_some huncached]
  have hold : (before ++ t :: after).filterMap uncached =
      before.filterMap uncached ++ after.filterMap uncached := by
    rw [List.filterMap_append, List.filterMap_cons_none hbefore]
  have hwaiting := h.waiting
  have hnodup := h.nodup
  rw [hold] at hwaiting hnodup
  refine ⟨fun j hj => le_trans (h.marked j hj) (hmarks _),
    h.remote_replace hlocal,
    h.applying_replace (fun _ _ hj => hj) (by simp [hunapplied]), ?_, ?_⟩
  · rw [hkeys]
    intro j hj
    rcases List.mem_cons.mp (List.perm_middle.mem_iff.mp hj) with rfl | hj
    · exact ⟨hmarked, fun hcached => not_lt_of_ge (h.marked j hcached) hnew⟩
    · obtain ⟨hle, hcache⟩ := hwaiting j hj
      exact ⟨le_trans hle (hmarks _), hcache⟩
  · rw [hkeys, List.nodup_middle, List.nodup_cons]
    exact ⟨fun hk => not_lt_of_ge (hwaiting k hk).1 hnew, hnodup⟩

theorem cached (h : Accounted cache marks (before ++ t :: after))
    {entry : GossipEntry} (hunapplied : unapplied t' = some entry)
    (huncached : uncached t' = none) (hlocal : t'.isLocal = t.isLocal)
    (hbefore : uncached t = some entry.key) :
    (∀ k p, cache.lookup k = some p →
      (cache.insert entry.key entry.payload).lookup k = some p) ∧
    Accounted (cache.insert entry.key entry.payload) marks
      (before ++ t' :: after) := by
  have hkeys : (before ++ t :: after).filterMap uncached =
      before.filterMap uncached ++
        entry.key :: after.filterMap uncached := by
    rw [List.filterMap_append, List.filterMap_cons_some hbefore]
  have hrest : (before ++ t' :: after).filterMap uncached =
      before.filterMap uncached ++ after.filterMap uncached := by
    rw [List.filterMap_append, List.filterMap_cons_none huncached]
  have hwaiting := h.waiting
  have hnodup := h.nodup
  rw [hkeys] at hwaiting
  rw [hkeys, List.nodup_middle, List.nodup_cons] at hnodup
  obtain ⟨hle, hfresh⟩ := hwaiting entry.key (by simp)
  have hkept : ∀ k p, cache.lookup k = some p →
      (cache.insert entry.key entry.payload).lookup k = some p := by
    intro k p hk
    have hne : k ≠ entry.key := by
      rintro rfl
      exact hfresh (Finmap.mem_of_lookup_eq_some hk)
    rwa [Finmap.lookup_insert_of_ne _ hne]
  refine ⟨hkept, fun k hk => ?_, h.remote_replace hlocal,
    h.applying_replace hkept fun e he => ?_, ?_, ?_⟩
  · rcases Finmap.mem_insert.mp hk with rfl | hold
    · exact hle
    · exact h.marked k hold
  · rw [hunapplied] at he
    cases he
    exact Finmap.lookup_insert _
  · rw [hrest]
    intro k hk
    obtain ⟨hmark, hcache⟩ := hwaiting k (List.perm_middle.mem_iff.mpr (by simp [hk]))
    refine ⟨hmark, fun hin => ?_⟩
    rcases Finmap.mem_insert.mp hin with rfl | hold
    · exact hnodup.1 hk
    · exact hcache hold
  · rw [hrest]
    exact hnodup.2

end Accounted

/-! ## The node -/

/-- Whatever the applier holds or has delivered is cached as it stands. -/
structure Stocked (g : GossipEngine) (tasks : List Task) : Prop where
  slots : ∀ topic, SlotGenuine
    (fun seq p => g.cache.lookup ⟨topic, seq⟩ = some p) (g.applier.slots topic)
  tasks : Accounted g.cache g.seen.slotSeqs tasks

namespace Stocked

variable {g : GossipEngine} {tasks before after : List Task} {t : Task}
  {entry : GossipEntry} {rest : List GossipEntry}

theorem start (cfg : NodeConfig) :
    Stocked (Node.start cfg).engine (Node.start cfg).tasks := by
  obtain ⟨hgenuine, hcache⟩ : EngineGenuine (fun _ => False)
      (Node.start cfg).engine ∧ (Node.start cfg).engine.cache = ∅ := by
    refine List.foldlRecOn (motive := fun (g : GossipEngine) =>
      EngineGenuine (fun _ => False) g ∧ g.cache = ∅) _ _ ?_ ?_
    · exact ⟨.new _ _, rfl⟩
    · exact fun g hg p _ => ⟨hg.1.setInitialSeq p.1 p.2, hg.2⟩
  refine ⟨fun topic => ⟨fun seq p hp => ?_, fun seq p hp => ?_⟩, ?_⟩
  · exact ((hgenuine.slots topic).pending seq p hp).elim
  · exact ((hgenuine.slots topic).delivered seq p hp).elim
  · rw [hcache]
    exact .start

theorem applierStep (h : Stocked g tasks) {topic : UInt16} {a : Engine.Action}
    {o : OrderedApplier}
    (hentry : ∀ seq p, a.entry = some (seq, p) →
      g.cache.lookup ⟨topic, seq⟩ = some p)
    (hstep : g.applier.step (topic, a) = some o) :
    Stocked { g with applier := o } tasks where
  slots := by
    obtain ⟨s, hs, rfl⟩ := OrderedApplier.step_eq_some.mp hstep
    exact OrderedApplier.forall_setSlot h.slots ((h.slots topic).step hentry hs)
  tasks := h.tasks

theorem seen (h : Stocked g (before ++ t :: after)) (hphase : t.phase = .seen)
    (hqueue : t.queue = entry :: rest) :
    Stocked (g.markSeen entry) (before ++
      (if t.accepts g entry then { t with phase := .cache }
        else { t with queue := rest }) :: after) := by
  have hremote : t.isLocal = false := h.tasks.remote t (by simp)
  have hmarks := fun other => g.seen.shouldProcess_mono entry.topic other entry.seq
  have haccepts : t.accepts g entry = true ↔
      g.seen.slotSeqs entry.topic < entry.seq := by
    simp [Task.accepts, GossipEngine.isNew, hremote]
  refine ⟨h.slots, ?_⟩
  by_cases hnew : g.seen.slotSeqs entry.topic < entry.seq
  · rw [if_pos (haccepts.mpr hnew)]
    have hmarked : entry.seq ≤ (g.markSeen entry).seen.slotSeqs entry.topic := by
      simp [GossipEngine.markSeen]
    exact h.tasks.accept hmarks rfl (by simp [uncached, hphase])
      (k := entry.key) (by simp [uncached, hqueue]) rfl hnew hmarked
  · rw [if_neg fun haccept => hnew (haccepts.mp haccept)]
    exact h.tasks.advance hmarks rfl (by simp [uncached, hphase])
      (by simp [unapplied, hphase])

private theorem cache (h : Stocked g (before ++ t :: after)) (first : RangeFirst)
    (hphase : t.phase = .cache) (hqueue : t.queue = entry :: rest)
    (hroom : g.cache.keys.card < maxRepairCache) :
    Stocked (g.cacheForRepair first entry)
      (before ++ { t with phase := .apply } :: after) := by
  have hcache : (g.cacheForRepair first entry).cache =
      g.cache.insert entry.key entry.payload :=
    cacheEntry_of_room first hroom entry
  have hunapplied : unapplied { t with phase := .apply } = some entry := by
    simp [unapplied, hqueue]
  obtain ⟨hkept, htasks⟩ := h.tasks.cached hunapplied rfl rfl
    (by simp [uncached, hphase, hqueue])
  refine ⟨fun topic => ?_, ?_⟩
  · rw [hcache]
    exact ⟨fun seq p hp => hkept _ _ ((h.slots topic).pending seq p hp),
      fun seq p hp => hkept _ _ ((h.slots topic).delivered seq p hp)⟩
  · rw [hcache]
    exact htasks

private theorem apply (h : Stocked g (before ++ t :: after)) (hphase : t.phase = .apply)
    (hqueue : t.queue = entry :: rest) :
    Stocked (g.apply entry)
      (before ++ { t with phase := .eagerForward } :: after) := by
  have hcached : g.cache.lookup entry.key = some entry.payload :=
    h.tasks.applying t (by simp) entry (by simp [unapplied, hphase, hqueue])
  have hstep : g.applier.step (entry.topic, .receive entry.seq entry.payload) =
      some (g.apply entry).applier := rfl
  refine ⟨(h.applierStep ?_ hstep).slots,
    h.tasks.advance (fun _ => le_rfl) rfl rfl rfl⟩
  rintro seq p ⟨⟩
  exact hcached

theorem operate (h : Stocked g (before ++ t :: after)) (first : RangeFirst)
    (hqueue : t.queue = entry :: rest)
    (hroom : g.cache.keys.card < maxRepairCache) :
    Stocked (t.operate first g entry rest).engine
      (before ++ (t.operate first g entry rest).task :: after) := by
  unfold Task.operate
  split
  · next hphase => exact h.seen hphase hqueue
  · next hphase =>
      have hremote : t.isLocal = false := h.tasks.remote t (by simp)
      simp only [hremote, Bool.false_eq_true, if_false]
      exact hremote ▸ h.cache first hphase hqueue hroom
  · next hphase => exact h.apply hphase hqueue
  · exact ⟨h.slots, h.tasks.advance (fun _ => le_rfl) rfl rfl rfl⟩
  · exact ⟨h.slots, h.tasks.advance (fun _ => le_rfl) rfl rfl rfl⟩
  · exact ⟨h.slots, h.tasks.advance (fun _ => le_rfl) rfl rfl rfl⟩

theorem updateSender (h : Stocked g tasks) (sender : String)
    (marks : List TopicSeq) : Stocked (g.updateSender sender marks) tasks where
  slots := by simpa using h.slots
  tasks := by simpa using h.tasks

end Stocked

theorem set_of_getElem? {tasks : List Task} {i : Nat} {t : Task}
    (ht : tasks[i]? = some t) :
    ∃ before after, tasks = before ++ t :: after ∧
      ∀ t', tasks.set i t' = before ++ t' :: after := by
  obtain ⟨hi, rfl⟩ := List.getElem?_eq_some_iff.mp ht
  refine ⟨tasks.take i, tasks.drop (i + 1), by simp, fun t' => ?_⟩
  rw [List.set_eq_take_append_cons_drop, if_pos hi]

def Event.Remote : Event → Prop
  | .act (.enqueue _) | .act .takeLocal | .act (.setTopicSeq _ _) => False
  | .act _ | .receive _ => True

instance (event : Event) : Decidable event.Remote := by
  unfold Event.Remote
  split <;> infer_instance

/--
A pulled entry reaches the applier below its next sequence number, where it is
dropped, or it is in the cache already.
-/
def Node.PullsCached (n : Node) : Event → Prop
  | .receive (.repairReply topic missing reply) =>
      match readReply topic missing reply with
      | .error | .miss => True
      | .hit entry => missing < (n.engine.applier.slots topic).nextSeq ∨
          n.engine.cache.lookup ⟨topic, missing⟩ = some entry.payload
  | .receive _ | .act _ => True

instance (n : Node) (event : Event) : Decidable (n.PullsCached event) := by
  unfold Node.PullsCached
  split
  · split <;> infer_instance
  · infer_instance
  · infer_instance

theorem Stocked.act {n n' : Node} {a : Action} (h : Stocked n.engine n.tasks)
    (hremote : (Event.act a).Remote)
    (hroom : n.engine.cache.keys.card < maxRepairCache)
    (hact : n.act a = some n') : Stocked n'.engine n'.tasks := by
  cases Node.acts_of_act hact with
  | enqueue | takeLocal | setTopicSeq => exact hremote.elim
  | task i first t entry rest ht hqueue =>
      obtain ⟨before, after, htasks, hset⟩ := set_of_getElem? ht
      rw [htasks] at h
      simp only [hset]
      exact h.operate first hqueue hroom
  | startFlush | finishFlush | serveRepair | reclassify => exact ⟨h.slots, h.tasks⟩
  | expire topic e o hstep | repairFail topic e o hstep
  | setNextSeq topic e o hstep =>
      refine h.applierStep ?_ hstep
      intro seq p hentry
      cases hentry

private theorem Stocked.onUniStream {n : Node} (h : Stocked n.engine n.tasks) (z : Zstd)
    (sender : String) (bytes : Bytes) :
    Stocked (n.onUniStream z sender bytes).engine
      (n.onUniStream z sender bytes).tasks := by
  cases bytes with
  | nil => exact h
  | cons streamType bytes =>
      simp only [Node.onUniStream]
      split
      · unfold Node.onLazyStream
        split
        · exact h
        · next batch hread =>
            have hupdated := h.updateSender sender batch.senderHighWaterMarks
            exact ⟨hupdated.slots, hupdated.tasks.startTask sender batch.entries⟩
      · split
        · exact ⟨h.slots, h.tasks.startTask sender _⟩
        · exact h

private theorem Stocked.stale {g : GossipEngine} {tasks : List Task}
    (h : Stocked g tasks) {topic : UInt16} {missing : UInt64} {payload : Payload}
    {o : OrderedApplier} (hstale : missing < (g.applier.slots topic).nextSeq)
    (hstep : g.applier.step (topic, .repairReply missing payload) = some o) :
    Stocked { g with applier := o } tasks := by
  obtain ⟨s, hs, rfl⟩ := OrderedApplier.step_eq_some.mp hstep
  refine ⟨OrderedApplier.forall_setSlot h.slots ?_, h.tasks⟩
  simp only [Slot.step, Option.ite_none_right_eq_some, Slot.afterRepair,
    Slot.receive, if_pos hstale] at hs
  obtain ⟨-, hs⟩ := hs
  cases hs
  exact ⟨(h.slots topic).pending, (h.slots topic).delivered⟩

theorem Stocked.receive {n n' : Node} {z : Zstd} {input : Input}
    (h : Stocked n.engine n.tasks) (hpulls : n.PullsCached (.receive input))
    (hreceive : n.receive z input = some n') : Stocked n'.engine n'.tasks := by
  cases input with
  | datagram sender msg =>
      cases hreceive
      exact ⟨h.slots, h.tasks.startTask sender _⟩
  | uniStream sender bytes =>
      cases hreceive
      exact h.onUniStream z sender bytes
  | repairReply topic missing reply =>
      simp only [Node.receive, Node.onRepairReply] at hreceive
      cases hread : readReply topic missing reply with
      | error | miss =>
          rw [hread] at hreceive
          cases hreceive
          exact h
      | hit entry =>
          rw [hread] at hreceive
          obtain ⟨o, hstep, rfl⟩ := Option.map_eq_some_iff.mp hreceive
          simp only [Node.PullsCached, hread] at hpulls
          rcases hpulls with hstale | hcached
          · exact h.stale hstale hstep
          · refine h.applierStep ?_ hstep
            rintro seq p ⟨⟩
            exact hcached

/-- What the node has delivered is in its cache and answered with a hit. -/
def Node.Serves (n : Node) : Prop :=
  ∀ topic seq payload,
    (seq, payload) ∈ (n.engine.applier.slots topic).delivered →
    n.engine.cache.lookup ⟨topic, seq⟩ = some payload ∧
      n.answer topic seq = some (0x01 :: payload)

private theorem Stocked.serves {n : Node} (h : Stocked n.engine n.tasks) : n.Serves := by
  intro topic seq payload hdelivered
  have hcached := (h.slots topic).delivered seq payload hdelivered
  refine ⟨hcached, ?_⟩
  have hdispatch : dispatchRepair (repairRequest topic seq) =
      some (putUint16 topic ++ putUint64 seq) := rfl
  rw [Node.answer, hdispatch, Option.map_some,
    handleRequest_dispatchRepair _ hdispatch, hcached]
  rfl

/--
While fewer entries than the cache holds are ever cached, and every entry that a
repair pull gives to the applier is cached already, the node serves all it has
delivered.
-/
theorem serves_of_pullsCached (z : Zstd) (cfg : NodeConfig) {events : List Event}
    {n : Node} (hrun : exec (Node.step z) (.start cfg) events = some n)
    (hremote : ∀ event ∈ events, event.Remote)
    (entries : Finset TopicSeq) (hfew : entries.card < maxRepairCache)
    (hentries : Along (Node.step z) (fun m _ => m.engine.cache.keys ⊆ entries)
      (.start cfg) events)
    (hpulls : Along (Node.step z) Node.PullsCached (.start cfg) events) :
    n.Serves := by
  have hsteps := (hentries.and hpulls).and (along_of_forall hremote)
  refine Stocked.serves (exec_invariant_of_along
    (fun m => Stocked m.engine m.tasks) ?_ (.start cfg) hsteps hrun)
  rintro m event m' h ⟨⟨hknown, hcached⟩, hevent⟩ hstep
  cases event with
  | act a =>
      exact h.act hevent ((Finset.card_le_card hknown).trans_lt hfew) hstep
  | receive input => exact h.receive hcached hstep

noncomputable def cachedPull : List Event :=
  -- entries 1 and 2 are cached; 2 reaches the applier first, and 1 is pulled
  [.receive (.datagram "b:1" (encodeEagerMessage ⟨1, 1, [7]⟩)),
   .receive (.datagram "c:1" (encodeEagerMessage ⟨1, 2, [8]⟩)),
   .act (.task 0 .any), .act (.task 0 .any),
   .act (.task 1 .any), .act (.task 1 .any), .act (.task 1 .any),
   .act (.expire 1 1), .receive (.repairReply 1 1 [0x01, 7])]

theorem serves_of_pullsCached_cachedPull :
    ∃ n, exec (Node.step .stored) (.start (twoNodes true)) cachedPull = some n ∧
      (n.engine.applier.slots 1).delivered = [(1, [7]), (2, [8])] ∧
      n.Serves := by
  have hsome : (exec (Node.step .stored) (.start (twoNodes true))
      cachedPull).isSome := by decide
  obtain ⟨n, hrun⟩ := Option.isSome_iff_exists.mp hsome
  have hdelivered : ∀ n, exec (Node.step .stored) (.start (twoNodes true))
      cachedPull = some n →
      (n.engine.applier.slots 1).delivered = [(1, [7]), (2, [8])] := by decide
  exact ⟨n, hrun, hdelivered n hrun,
    serves_of_pullsCached .stored (twoNodes true) hrun (by decide)
      {⟨1, 1⟩, ⟨1, 2⟩} (by decide) (by decide) (by decide)⟩

noncomputable def uncachedPull : List Event :=
  -- entry 2 arrives, entry 1 never does and is pulled when the timer expires
  [.receive (.datagram "b:1" (encodeEagerMessage ⟨1, 2, [8]⟩)),
   .act (.task 0 .any), .act (.task 0 .any), .act (.task 0 .any),
   .act (.expire 1 1), .receive (.repairReply 1 1 [0x01, 7])]

/-- A pulled entry is delivered, and the next node that asks for it gets a miss. -/
theorem uncachedPull_not_served :
    (∀ event ∈ uncachedPull, event.Remote) ∧
    ∃ n, exec (Node.step .stored) (.start (twoNodes true)) uncachedPull = some n ∧
      (n.engine.applier.slots 1).delivered = [(1, [7]), (2, [8])] ∧
      n.engine.cache.keys = {⟨1, 2⟩} ∧ n.answer 1 1 = some [0x00] ∧
      ¬ n.Serves := by
  have hsome : (exec (Node.step .stored) (.start (twoNodes true))
      uncachedPull).isSome := by decide
  obtain ⟨n, hrun⟩ := Option.isSome_iff_exists.mp hsome
  have hend : ∀ n, exec (Node.step .stored) (.start (twoNodes true))
      uncachedPull = some n →
      (n.engine.applier.slots 1).delivered = [(1, [7]), (2, [8])] ∧
      n.engine.cache.keys = {⟨1, 2⟩} ∧ n.answer 1 1 = some [0x00] := by decide
  obtain ⟨hdelivered, hkeys, hanswer⟩ := hend n hrun
  refine ⟨by decide, n, hrun, hdelivered, hkeys, hanswer, fun hserves => ?_⟩
  have hhit := (hserves 1 1 [7] (by simp [hdelivered])).2
  rw [hanswer] at hhit
  cases hhit

end GossipMesh.Cluster
