import GossipMesh.Engine.OrderedSteps

/-!
# Calls that are not interrupted

The steps of `Slot` are whole calls.  Each of them is what one goroutine does
while the others wait, so every run of the slot is a run of goroutines.
-/

namespace GossipMesh.Engine

open GossipMesh.Foundation

structure SlotMemory.Matches (m : SlotMemory) (s : Slot) : Prop where
  nextSeq : m.nextSeq = s.nextSeq
  pending : m.pending = s.pending
  gapTimers : m.gapTimers = s.gapTimers
  delivered : m.delivered = s.delivered

/--
A goroutine alone gets from one point to another, takes the slot from `s` to
`t` and starts the timers `t` has beyond those of `s`.
-/
def Performs (maxGapBuffer : Nat) (p p' : SlotPoint) (s t : Slot) : Prop :=
  t.repairs = s.repairs ∧ ∀ m : SlotMemory, m.Matches s → ∃ choices m' started,
    Threads.Solo (SlotMemory.operate maxGapBuffer) m p choices m' p' (started.map .sleep) ∧
      m'.Matches t ∧ t.timers.Perm (started ++ s.timers)

namespace Performs

variable {maxGapBuffer : Nat} {p p' p'' : SlotPoint} {s t u : Slot}

theorem refl (p : SlotPoint) (s : Slot) : Performs maxGapBuffer p p s s :=
  ⟨rfl, fun m hm => ⟨[], m, [], .refl m p, hm, .refl _⟩⟩

theorem trans (h : Performs maxGapBuffer p p' s t) (h' : Performs maxGapBuffer p' p'' t u) :
    Performs maxGapBuffer p p'' s u := by
  refine ⟨h'.1.trans h.1, fun m hm => ?_⟩
  obtain ⟨choices, m', started, hsolo, hm', htimers⟩ := h.2 m hm
  obtain ⟨choices', m'', started', hsolo', hm'', htimers'⟩ := h'.2 m' hm'
  refine ⟨choices ++ choices', m'', started ++ started', ?_, hm'', ?_⟩
  · rw [List.map_append]
    exact hsolo.trans hsolo'
  · refine htimers'.trans ((htimers.append_left started').trans ?_)
    rw [← List.append_assoc]
    exact List.perm_append_comm.append_right s.timers

theorem operation {c : SlotChoice} (hrepairs : t.repairs = s.repairs)
    (htimers : t.timers = s.timers)
    (hop : ∀ m : SlotMemory, m.Matches s → ∃ m',
      m.operate maxGapBuffer p c = some (m', p', []) ∧ m'.Matches t) :
    Performs maxGapBuffer p p' s t := by
  refine ⟨hrepairs, fun m hm => ?_⟩
  obtain ⟨m', hmove, hm'⟩ := hop m hm
  exact ⟨[c], m', [], .one hmove, hm', by rw [htimers]; rfl⟩

theorem arm (expected : UInt64) (s : Slot) :
    Performs maxGapBuffer (.arm expected) .done s (s.startGapTimer expected) := by
  refine ⟨s.startGapTimer_repairs expected, fun m hm => ?_⟩
  unfold Slot.startGapTimer
  split
  · next hset =>
      refine ⟨[.proceed], m, [], .one ?_, hm, .refl _⟩
      simp [SlotMemory.operate, SlotMemory.proceed, hm.gapTimers, hset]
  · next hclear =>
      refine ⟨[.proceed], { m with gapTimers := true }, [expected], .one ?_, ?_, .refl _⟩
      · simp [SlotMemory.operate, SlotMemory.proceed, hm.gapTimers, hclear]
      · exact ⟨hm.nextSeq, hm.pending, rfl, hm.delivered⟩

/-! ## Draining -/

theorem deliver (seq : UInt64) (payload : Payload) (s : Slot) :
    Performs maxGapBuffer (.deliver seq payload) .advance s (s.deliver seq payload) := by
  refine operation (c := .proceed) rfl rfl fun m hm =>
    ⟨m.deliver seq payload, rfl, hm.nextSeq, hm.pending, hm.gapTimers, ?_⟩
  rw [SlotMemory.deliver, hm.delivered]
  rfl

theorem advance (s : Slot) :
    Performs maxGapBuffer .advance .drain s { s with nextSeq := s.nextSeq + 1 } := by
  refine operation (c := .proceed) rfl rfl fun m hm =>
    ⟨{ m with nextSeq := m.nextSeq + 1 }, rfl, ?_, hm.pending, hm.gapTimers, hm.delivered⟩
  rw [hm.nextSeq]

theorem drain (s : Slot) : Performs maxGapBuffer .drain (.take s.nextSeq) s s := by
  refine operation (c := .proceed) rfl rfl fun m hm => ⟨m, ?_, hm⟩
  simp [SlotMemory.operate, SlotMemory.proceed, hm.nextSeq]

private theorem drainStop (h : s.pending.lookup s.nextSeq = none) :
    Performs maxGapBuffer .drain .range s s := by
  refine (drain s).trans (operation (c := .proceed) rfl rfl fun m hm => ⟨m, ?_, hm⟩)
  simp [SlotMemory.operate, SlotMemory.proceed, hm.pending, h]

private theorem drainTurn {val : Payload} (h : s.pending.lookup s.nextSeq = some val) :
    Performs maxGapBuffer .drain .drain s (s.drainOne val) := by
  have htake : Performs maxGapBuffer (.take s.nextSeq) (.deliver s.nextSeq val) s
      { s with pending := s.pending.erase s.nextSeq } := by
    refine operation (c := .proceed) rfl rfl fun m hm =>
      ⟨{ m with pending := m.pending.erase s.nextSeq }, ?_, hm.nextSeq, ?_, hm.gapTimers,
        hm.delivered⟩
    · simp [SlotMemory.operate, SlotMemory.proceed, hm.pending, h]
    · rw [hm.pending]
  exact (drain s).trans (htake.trans ((deliver _ _ _).trans (advance _)))

private theorem drainLoop (fuel : Nat) (s : Slot) (hfuel : s.pending.keys.card ≤ fuel) :
    Performs maxGapBuffer .drain .range s (s.drainLoop fuel) := by
  induction fuel generalizing s with
  | zero =>
      refine drainStop (Finmap.lookup_eq_none.mpr ?_)
      exact Slot.drainLoop_stops 0 s hfuel
  | succ fuel ih =>
      rw [Slot.drainLoop]
      cases hlookup : s.pending.lookup s.nextSeq with
      | none => exact drainStop hlookup
      | some val =>
          have hcard := Slot.drainOne_card hlookup
          exact (drainTurn hlookup).trans (ih (s.drainOne val) (by omega))

theorem drainPending (s : Slot) : Performs maxGapBuffer .drain .done s s.drainPending := by
  unfold Slot.drainPending
  dsimp only
  have hloop : Performs maxGapBuffer .drain .range s _ :=
    drainLoop s.pending.keys.card s (le_refl _)
  generalize s.drainLoop s.pending.keys.card = drained at hloop ⊢
  refine hloop.trans ?_
  split
  · next hsome =>
      obtain ⟨key, hkey⟩ := hsome
      have hrange : Performs maxGapBuffer .range .reload drained drained := by
        refine operation (c := .visit key) rfl rfl fun m hm => ⟨m, ?_, hm⟩
        simp [SlotMemory.operate, SlotMemory.visit_range, hm.pending, Finmap.mem_keys.mp hkey]
      have hreload : Performs maxGapBuffer .reload (.arm drained.nextSeq) drained drained := by
        refine operation (c := .proceed) rfl rfl fun m hm => ⟨m, ?_, hm⟩
        simp [SlotMemory.operate, SlotMemory.proceed, hm.nextSeq]
      exact hrange.trans (hreload.trans (arm drained.nextSeq drained))
  · exact operation (c := .finish) rfl rfl fun m hm => ⟨m, rfl, hm⟩

/-! ## Whole calls -/

theorem receive (seq : UInt64) (payload : Payload) (s : Slot) :
    Performs maxGapBuffer (.load seq payload) .done s (s.receive maxGapBuffer seq payload) := by
  unfold Slot.receive
  dsimp only
  split
  · next hlt =>
      refine operation (c := .proceed) rfl rfl fun m hm => ⟨m.discard [(seq, payload)], ?_,
        hm.nextSeq, hm.pending, hm.gapTimers, hm.delivered⟩
      simp [SlotMemory.operate, SlotMemory.proceed, SlotMemory.load, hm.nextSeq, hlt]
  · next hge =>
      split
      · next hgt =>
          split
          · next hcount =>
              have hload : Performs maxGapBuffer (.load seq payload)
                  (.buffer seq payload s.nextSeq) s s := by
                refine operation (c := .proceed) rfl rfl fun m hm => ⟨m, ?_, hm⟩
                simp [SlotMemory.operate, SlotMemory.proceed, SlotMemory.load, hm.nextSeq, hge,
                  hgt, hcount]
              have hstore : Performs maxGapBuffer (.buffer seq payload s.nextSeq)
                  (.arm s.nextSeq) s { s with pending := s.pending.insert seq payload } := by
                refine operation (c := .proceed) rfl rfl fun m hm =>
                  ⟨m.store seq payload, rfl, hm.nextSeq, ?_, hm.gapTimers, hm.delivered⟩
                rw [SlotMemory.store, hm.pending]
              exact hload.trans (hstore.trans (arm s.nextSeq _))
          · next hcount =>
              have hload : Performs maxGapBuffer (.load seq payload)
                  (.deliverAhead seq payload) s s := by
                refine operation (c := .proceed) rfl rfl fun m hm => ⟨m, ?_, hm⟩
                simp [SlotMemory.operate, SlotMemory.proceed, SlotMemory.load, hm.nextSeq, hge,
                  hgt, hcount]
              have hdeliver : Performs maxGapBuffer (.deliverAhead seq payload) (.jump seq) s
                  (s.deliver seq payload) := by
                refine operation (c := .proceed) rfl rfl fun m hm =>
                  ⟨m.deliver seq payload, rfl, hm.nextSeq, hm.pending, hm.gapTimers, ?_⟩
                rw [SlotMemory.deliver, hm.delivered]
                rfl
              have hjump : Performs maxGapBuffer (.jump seq) .drain (s.deliver seq payload)
                  { s.deliver seq payload with nextSeq := seq + 1 } :=
                operation (c := .proceed) rfl rfl fun m hm =>
                  ⟨{ m with nextSeq := seq + 1 }, rfl, rfl, hm.pending, hm.gapTimers,
                    hm.delivered⟩
              exact hload.trans (hdeliver.trans (hjump.trans (drainPending _)))
      · next hle =>
          have hload : Performs maxGapBuffer (.load seq payload) (.deliver seq payload) s s := by
            refine operation (c := .proceed) rfl rfl fun m hm => ⟨m, ?_, hm⟩
            simp [SlotMemory.operate, SlotMemory.proceed, SlotMemory.load, hm.nextSeq, hge, hle]
          exact hload.trans ((deliver _ _ _).trans ((advance _).trans (drainPending _)))

private theorem scan {keys : List UInt64} (h : ∀ k ∈ keys, k ∈ s.pending) (least : UInt64) :
    Performs maxGapBuffer (.scan least) (.scan (keys.foldl min least)) s s := by
  induction keys generalizing least with
  | nil => exact refl _ s
  | cons key keys ih =>
      have hmin : (if key < least then key else least) = min least key := by
        rw [min_def]
        by_cases hlt : key < least
        · rw [if_pos hlt, if_neg (not_le.mpr hlt)]
        · rw [if_neg hlt, if_pos (not_lt.mp hlt)]
      have hvisit : Performs maxGapBuffer (.scan least) (.scan (min least key)) s s := by
        refine operation (c := .visit key) rfl rfl fun m hm => ⟨m, ?_, hm⟩
        simp [SlotMemory.operate, SlotMemory.visit_scan, hm.pending, h key (by simp), hmin]
      exact hvisit.trans (ih (fun k hk => h k (List.mem_cons_of_mem key hk)) _)

theorem skipGap (s : Slot) :
    Performs maxGapBuffer (.scan maxUint64) .done s s.skipGap := by
  have hleast : leastWord s.pending.keys = s.pending.keys.toList.foldl min maxUint64 := by
    rw [leastWord, Finset.fold, Multiset.map_id, ← Finset.coe_toList, Multiset.coe_fold_l]
  have hscan : Performs maxGapBuffer (.scan maxUint64)
      (.scan (leastWord s.pending.keys)) s s := by
    rw [hleast]
    exact scan (fun k hk => Finmap.mem_keys.mp (Finset.mem_toList.mp hk)) maxUint64
  refine hscan.trans ?_
  unfold Slot.skipGap
  dsimp only
  generalize leastWord s.pending.keys = least
  split
  · next hne =>
      have hfinish : Performs maxGapBuffer (.scan least) (.skip least) s s := by
        refine operation (c := .finish) rfl rfl fun m hm => ⟨m, ?_, hm⟩
        simp [SlotMemory.operate, SlotMemory.finish_scan, hne]
      have hskip : Performs maxGapBuffer (.skip least) .drain s
          { s with nextSeq := least } :=
        operation (c := .proceed) rfl rfl fun m hm =>
          ⟨{ m with nextSeq := least }, rfl, rfl, hm.pending, hm.gapTimers, hm.delivered⟩
      exact hfinish.trans (hskip.trans (drainPending _))
  · next heq =>
      refine operation (c := .finish) rfl rfl fun m hm => ⟨m, ?_, hm⟩
      simp [SlotMemory.operate, SlotMemory.finish_scan, heq]

private theorem clear (count : Nat) (s : Slot) (hcount : s.pending.keys.card = count) :
    Performs maxGapBuffer .clear .done s { s with pending := ∅ } := by
  induction count generalizing s with
  | zero =>
      have hempty : s.pending = ∅ := by
        refine Finmap.ext_lookup fun key => ?_
        rw [Finmap.lookup_empty, Finmap.lookup_eq_none, ← Finmap.mem_keys,
          Finset.card_eq_zero.mp hcount]
        exact Finset.notMem_empty key
      exact operation (c := .finish) rfl rfl fun m hm =>
        ⟨m, rfl, hm.nextSeq, hm.pending.trans hempty, hm.gapTimers, hm.delivered⟩
  | succ count ih =>
      obtain ⟨key, hkey⟩ : s.pending.keys.Nonempty := Finset.card_pos.mp (by omega)
      obtain ⟨val, hval⟩ := Finmap.mem_iff.mp (Finmap.mem_keys.mp hkey)
      have hvisit : Performs maxGapBuffer .clear .clear s
          { s with pending := s.pending.erase key } := by
        refine operation (c := .visit key) rfl rfl fun m hm =>
          ⟨{ m.discard [(key, val)] with pending := m.pending.erase key }, ?_, hm.nextSeq, ?_,
            hm.gapTimers, hm.delivered⟩
        · simp [SlotMemory.operate, SlotMemory.visit_clear, hm.pending, hval]
        · rw [hm.pending]
      refine hvisit.trans (ih _ ?_)
      rw [Finmap.keys_erase, Finset.card_erase_of_mem hkey, hcount]
      rfl

theorem setNextSeq (seq : UInt64) (s : Slot) :
    Performs maxGapBuffer (.reset seq) .done s (s.setNextSeq seq) := by
  have hreset : Performs maxGapBuffer (.reset seq) .clear s { s with nextSeq := seq } :=
    operation (c := .proceed) rfl rfl fun m hm =>
      ⟨{ m with nextSeq := seq }, rfl, rfl, hm.pending, hm.gapTimers, hm.delivered⟩
  exact hreset.trans (clear s.pending.keys.card _ rfl)

theorem expire (e : UInt64) (s : Slot) :
    Performs maxGapBuffer (.sleep e) (if s.nextSeq = e then .onGap e else .done) s
      { s with gapTimers := false } := by
  have hwake : Performs maxGapBuffer (.sleep e) (.check e) s { s with gapTimers := false } :=
    operation (c := .proceed) rfl rfl fun m hm =>
      ⟨{ m with gapTimers := false }, rfl, hm.nextSeq, hm.pending, rfl, hm.delivered⟩
  refine hwake.trans (operation (c := .proceed) rfl rfl fun m hm => ⟨m, ?_, hm⟩)
  simp only [SlotMemory.operate, SlotMemory.proceed, hm.nextSeq]
  split
  · next heq => rw [heq]
  · rfl

theorem repairReply (missing : UInt64) (payload : Payload) (s : Slot) :
    Performs maxGapBuffer (.onGap missing) .done s
      (s.receive maxGapBuffer missing payload) := by
  have hfound : Performs maxGapBuffer (.onGap missing) (.load missing payload) s s :=
    operation (c := .found payload) rfl rfl fun m hm =>
      ⟨{ m with received := m.received ++ [(missing, payload)] }, rfl, hm.nextSeq, hm.pending,
        hm.gapTimers, hm.delivered⟩
  exact hfound.trans (receive missing payload s)

theorem repairFail (missing : UInt64) (s : Slot) :
    Performs maxGapBuffer (.onGap missing) .done s s.skipGap := by
  have hmiss : Performs maxGapBuffer (.onGap missing) (.scan maxUint64) s s :=
    operation (c := .notFound) rfl rfl fun m hm => ⟨m, rfl, hm⟩
  exact hmiss.trans (skipGap s)

theorem exec {threads : SlotThreads} {others : Multiset SlotPoint}
    (h : Performs maxGapBuffer p p' s t) (hm : threads.memory.Matches s)
    (hroutines : (threads.routines : Multiset SlotPoint) =
      {p} + (others + s.timers.map SlotPoint.sleep)) :
    ∃ labels threads', Foundation.exec (SlotThreads.step maxGapBuffer) threads labels =
        some threads' ∧ threads'.memory.Matches t ∧
      (threads'.routines : Multiset SlotPoint) =
        {p'} + (others + t.timers.map SlotPoint.sleep) := by
  obtain ⟨choices, m', started, hsolo, hm', htimers⟩ := h.2 threads.memory hm
  have hmem : p ∈ threads.routines := by
    rw [← Multiset.mem_coe, hroutines]
    exact Multiset.mem_add.mpr (.inl (Multiset.mem_singleton_self p))
  obtain ⟨labels, threads', hrun, rfl, hmoved⟩ := hsolo.exec_of_mem hmem
  refine ⟨labels, threads', hrun, hm', ?_⟩
  have hsleep : (t.timers.map SlotPoint.sleep : Multiset SlotPoint) =
      started.map SlotPoint.sleep + s.timers.map SlotPoint.sleep := by
    rw [Multiset.coe_add, ← List.map_append]
    exact Multiset.coe_eq_coe.mpr (htimers.map SlotPoint.sleep)
  rw [hroutines] at hmoved
  refine add_right_cancel (b := {p}) (hmoved.trans ?_)
  rw [hsleep]
  abel

end Performs

/-! ## Whole runs -/

/-- The steps of a slot that are calls of other parts of the program. -/
def Action.call : Action → Option SlotThreads.Call
  | .receive seq payload => some (.receive seq payload)
  | .setNextSeq seq => some (.setNextSeq seq)
  | .expire _ | .repairReply _ _ | .repairFail _ => none

/-- The goroutines that do not sleep: calls to come, timers in `onGap`, finished ones. -/
def awake (ahead : List Action) (repairs : List UInt64) (finished : Nat) :
    Multiset SlotPoint :=
  ((ahead.filterMap Action.call).map SlotThreads.Call.point : List SlotPoint) +
    repairs.map SlotPoint.onGap + Multiset.replicate finished SlotPoint.done

section Awake

variable {a : Action} {ahead : List Action} {repairs : List UInt64} {finished : Nat}

theorem awake_call {call : SlotThreads.Call} (h : a.call = some call) :
    awake (a :: ahead) repairs finished = {call.point} + awake ahead repairs finished := by
  rw [awake, awake, List.filterMap_cons_some h, List.map_cons, ← Multiset.cons_coe,
    ← Multiset.singleton_add]
  abel

theorem awake_none (h : a.call = none) :
    awake (a :: ahead) repairs finished = awake ahead repairs finished := by
  rw [awake, List.filterMap_cons_none h, awake]

theorem awake_done :
    {.done} + awake ahead repairs finished = awake ahead repairs (finished + 1) := by
  rw [awake, awake, Multiset.replicate_succ, ← Multiset.singleton_add]
  exact add_left_comm _ _ _

theorem awake_onGap (e : UInt64) :
    {.onGap e} + awake ahead repairs finished = awake ahead (e :: repairs) finished := by
  rw [awake, awake, List.map_cons, ← Multiset.cons_coe, ← Multiset.singleton_add]
  abel

theorem awake_erase {e : UInt64} (h : e ∈ repairs) :
    awake ahead repairs finished = {.onGap e} + awake ahead (repairs.erase e) finished := by
  rw [awake_onGap, awake, awake]
  exact congrArg (_ + · + _)
    (Multiset.coe_eq_coe.mpr ((List.perm_cons_erase h).map SlotPoint.onGap))

end Awake

/-- The goroutines of a slot that still has the given calls to come. -/
structure SlotThreads.Simulates (ahead : List Action) (s : Slot) (threads : SlotThreads) :
    Prop where
  memory : threads.memory.Matches s
  routines : ∃ finished, (threads.routines : Multiset SlotPoint) =
    awake ahead s.repairs finished + s.timers.map SlotPoint.sleep

namespace SlotThreads

variable {maxGapBuffer : Nat} {ahead : List Action} {s t : Slot} {threads : SlotThreads}

theorem simulates_start (n : UInt64) (acts : List Action) :
    Simulates acts (.fresh n) (start n (acts.filterMap Action.call)) :=
  ⟨⟨rfl, rfl, rfl, rfl⟩, 0, by simp [start, awake, Slot.fresh]⟩

theorem simulates_of_performs {p : SlotPoint} {finished : Nat}
    (h : Performs maxGapBuffer p .done s t) (hm : threads.memory.Matches s)
    (hroutines : (threads.routines : Multiset SlotPoint) =
      {p} + (awake ahead s.repairs finished + s.timers.map SlotPoint.sleep)) :
    ∃ labels threads', exec (SlotThreads.step maxGapBuffer) threads labels = some threads' ∧
      Simulates ahead t threads' := by
  obtain ⟨labels, threads', hrun, hm', hroutines'⟩ := h.exec hm hroutines
  refine ⟨labels, threads', hrun, hm', finished + 1, ?_⟩
  rw [hroutines', ← add_assoc, awake_done, h.1]

private theorem Simulates.expire {e : UInt64} (h : Simulates ahead s threads) (he : e ∈ s.timers) :
    ∃ labels threads', exec (SlotThreads.step maxGapBuffer) threads labels = some threads' ∧
      Simulates ahead (s.expire e) threads' := by
  obtain ⟨hm, finished, hroutines⟩ := h
  have hsleep : (s.timers.map SlotPoint.sleep : Multiset SlotPoint) =
      {.sleep e} + (s.timers.erase e).map SlotPoint.sleep :=
    Multiset.coe_eq_coe.mpr ((List.perm_cons_erase he).map SlotPoint.sleep)
  rw [hsleep, add_left_comm] at hroutines
  have hperforms : Performs maxGapBuffer (.sleep e) _ { s with timers := s.timers.erase e } _ :=
    .expire e _
  have hstart : threads.memory.Matches { s with timers := s.timers.erase e } :=
    ⟨hm.nextSeq, hm.pending, hm.gapTimers, hm.delivered⟩
  unfold Slot.expire
  dsimp only
  split
  · next hopen =>
      rw [if_pos hopen] at hperforms
      obtain ⟨labels, threads', hrun, hend, hroutines'⟩ := hperforms.exec hstart hroutines
      refine ⟨labels, threads', hrun,
        ⟨hend.nextSeq, hend.pending, hend.gapTimers, hend.delivered⟩, finished, ?_⟩
      rw [hroutines', ← add_assoc, awake_onGap]
  · next hfilled =>
      rw [if_neg hfilled] at hperforms
      exact simulates_of_performs hperforms hstart hroutines

private theorem Simulates.step {a : Action} (h : Simulates (a :: ahead) s threads)
    (hstep : s.step maxGapBuffer a = some t) :
    ∃ labels threads', exec (SlotThreads.step maxGapBuffer) threads labels = some threads' ∧
      Simulates ahead t threads' := by
  obtain ⟨hm, finished, hroutines⟩ := h
  rcases Slot.step_cases hstep with ⟨seq, payload, rfl, rfl⟩ | ⟨seq, rfl, rfl⟩ |
    ⟨e, he, rfl, rfl⟩ | ⟨missing, hmissing, payload, rfl, rfl⟩ | ⟨missing, hmissing, rfl, rfl⟩
  · rw [awake_call rfl, add_assoc] at hroutines
    exact simulates_of_performs (.receive seq payload s) hm hroutines
  · rw [awake_call rfl, add_assoc] at hroutines
    exact simulates_of_performs (.setNextSeq seq s) hm hroutines
  · rw [awake_none rfl] at hroutines
    exact Simulates.expire ⟨hm, finished, hroutines⟩ he
  · rw [awake_none rfl, awake_erase hmissing, add_assoc] at hroutines
    have hstart : threads.memory.Matches { s with repairs := s.repairs.erase missing } :=
      ⟨hm.nextSeq, hm.pending, hm.gapTimers, hm.delivered⟩
    exact simulates_of_performs (.repairReply missing payload _) hstart hroutines
  · rw [awake_none rfl, awake_erase hmissing, add_assoc] at hroutines
    have hstart : threads.memory.Matches { s with repairs := s.repairs.erase missing } :=
      ⟨hm.nextSeq, hm.pending, hm.gapTimers, hm.delivered⟩
    exact simulates_of_performs (.repairFail missing _) hstart hroutines

private theorem Simulates.run {acts : List Action} (h : Simulates acts s threads)
    (hrun : exec (Slot.step maxGapBuffer) s acts = some t) :
    ∃ labels threads', exec (SlotThreads.step maxGapBuffer) threads labels = some threads' ∧
      Simulates [] t threads' := by
  induction acts generalizing s threads with
  | nil =>
      cases hrun
      exact ⟨[], threads, rfl, h⟩
  | cons a acts ih =>
      obtain ⟨u, hstep, hrest⟩ := exec_cons_eq_some.mp hrun
      obtain ⟨first, threads', hfirst, h'⟩ := h.step hstep
      obtain ⟨labels, threads'', hlabels, h''⟩ := ih h' hrest
      exact ⟨first ++ labels, threads'', exec_append_eq_some.mpr ⟨threads', hfirst, hlabels⟩, h''⟩

/--
Every run of a slot by whole calls is a run of goroutines by single operations:
the shared memory ends the same, and the goroutines that have not finished are
the timers and repairs of the slot.
-/
theorem whole_calls_are_interleavings {n : UInt64} {acts : List Action}
    (hrun : exec (Slot.step maxGapBuffer) (.fresh n) acts = some s) :
    ∃ labels threads,
      exec (SlotThreads.step maxGapBuffer) (start n (acts.filterMap Action.call)) labels =
        some threads ∧
      threads.memory.Matches s ∧
      ((threads.routines.filter (· ≠ .done)).Perm
        (s.repairs.map .onGap ++ s.timers.map .sleep)) := by
  obtain ⟨labels, threads, hlabels, hm, finished, hroutines⟩ := (simulates_start n acts).run hrun
  refine ⟨labels, threads, hlabels, hm, ?_⟩
  have hgaps : (s.repairs.map SlotPoint.onGap).filter (· ≠ .done) =
      s.repairs.map SlotPoint.onGap := List.filter_eq_self.mpr (by simp)
  have hsleeps : (s.timers.map SlotPoint.sleep).filter (· ≠ .done) =
      s.timers.map SlotPoint.sleep := List.filter_eq_self.mpr (by simp)
  have hdone : (Multiset.replicate finished SlotPoint.done).filter (· ≠ .done) = 0 :=
    Multiset.filter_eq_nil.mpr fun p hp => not_not.mpr (Multiset.eq_of_mem_replicate hp)
  apply Multiset.coe_eq_coe.mp
  rw [← Multiset.filter_coe, hroutines, awake, Multiset.filter_add, Multiset.filter_add,
    Multiset.filter_add, hdone, Multiset.filter_coe, Multiset.filter_coe, Multiset.filter_coe,
    hgaps, hsleeps]
  simp

theorem whole_calls_are_interleavings_repaired :
    ∃ s, exec (Slot.step 1) (.fresh 5)
        [.receive 6 [6], .expire 5, .repairReply 5 [5], .setNextSeq 9] = some s ∧
      ∃ labels threads,
        exec (SlotThreads.step 1) (start 5 [.receive 6 [6], .setNextSeq 9]) labels =
          some threads ∧
        threads.memory.Matches s := by
  obtain ⟨s, hrun⟩ : ∃ s, exec (Slot.step 1) (.fresh 5)
      [.receive 6 [6], .expire 5, .repairReply 5 [5], .setNextSeq 9] = some s := ⟨_, rfl⟩
  obtain ⟨labels, threads, hlabels, hm, -⟩ := whole_calls_are_interleavings hrun
  exact ⟨s, hrun, labels, threads, hlabels, hm⟩

end SlotThreads

end GossipMesh.Engine
