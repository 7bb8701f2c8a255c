import GossipMesh.Engine.Ordered
import GossipMesh.Foundation.Interleaving

/-!
# The ordered applier one atomic operation at a time

No lock guards a slot of the applier.  Any number of goroutines call `Receive`
and `SetNextSeq` on a topic, and the gap timers they start run beside them.  A
goroutine is cut at every load, store or swap of `nextSeq` and `gapTimers`, at
every operation on `pending` and at every call of `deliver`.

`Range` takes no snapshot of a map.  It meets keys one at a time, each while it
is there, and may miss those that come or go meanwhile; the model lets it stop
at any time, which covers every run of the source.
-/

namespace GossipMesh.Engine

open GossipMesh.Foundation

abbrev Numbered := UInt64 × Payload

/--
What the goroutines of a topic share, and three logs: the calls of `deliver`,
the calls of `Receive`, and the entries that were dropped as duplicates,
overwritten in the buffer or cleared from it.
-/
structure SlotMemory where
  nextSeq : UInt64
  pending : Finmap (fun _ : UInt64 => Payload)
  gapTimers : Bool
  delivered : List Numbered
  received : List Numbered
  discarded : List Numbered

/-- Where a goroutine is, named by its next operation. -/
inductive SlotPoint where
  | load (seq : UInt64) (payload : Payload)
  | buffer (seq : UInt64) (payload : Payload) (expected : UInt64)
  | arm (expected : UInt64)
  | deliverAhead (seq : UInt64) (payload : Payload)
  | jump (seq : UInt64)
  | deliver (seq : UInt64) (payload : Payload)
  | advance
  | drain
  | take (next : UInt64)
  | range
  | reload
  | sleep (expectedAtStart : UInt64)
  | check (expectedAtStart : UInt64)
  | onGap (missing : UInt64)
  | scan (minPending : UInt64)
  | skip (minPending : UInt64)
  | reset (seq : UInt64)
  | clear
  | done
  deriving DecidableEq

inductive SlotChoice where
  | proceed
  | visit (key : UInt64)
  | finish
  | found (payload : Payload)
  | notFound

namespace SlotMemory

def fresh (nextSeq : UInt64) (received : List Numbered) : SlotMemory :=
  ⟨nextSeq, ∅, false, [], received, []⟩

def deliver (m : SlotMemory) (seq : UInt64) (payload : Payload) : SlotMemory :=
  { m with delivered := m.delivered ++ [(seq, payload)] }

def discard (m : SlotMemory) (entries : List Numbered) : SlotMemory :=
  { m with discarded := m.discarded ++ entries }

/-- The first operation of `Receive`, and the branch it takes. -/
def load (maxGapBuffer : Nat) (m : SlotMemory) (seq : UInt64)
    (payload : Payload) : SlotMemory × SlotPoint :=
  let expected := m.nextSeq
  if seq < expected then (m.discard [(seq, payload)], .done)
  else if expected < seq then
    let count := seq - expected
    if count.toNat ≤ maxGapBuffer then (m, .buffer seq payload expected)
    else (m, .deliverAhead seq payload)
  else (m, .deliver seq payload)

def store (m : SlotMemory) (seq : UInt64) (payload : Payload) : SlotMemory :=
  { m.discard ((m.pending.lookup seq).toList.map fun old => (seq, old)) with
    pending := m.pending.insert seq payload }

def proceed (maxGapBuffer : Nat) (m : SlotMemory) :
    SlotPoint → Option (SlotMemory × SlotPoint × List SlotPoint)
  | .load seq payload =>
      let next := m.load maxGapBuffer seq payload
      some (next.1, next.2, [])
  | .buffer seq payload expected => some (m.store seq payload, .arm expected, [])
  | .arm expected =>
      if m.gapTimers then some (m, .done, [])
      else some ({ m with gapTimers := true }, .done, [.sleep expected])
  | .deliverAhead seq payload => some (m.deliver seq payload, .jump seq, [])
  | .jump seq => some ({ m with nextSeq := seq + 1 }, .drain, [])
  | .deliver seq payload => some (m.deliver seq payload, .advance, [])
  | .advance => some ({ m with nextSeq := m.nextSeq + 1 }, .drain, [])
  | .drain => some (m, .take m.nextSeq, [])
  | .take next =>
      match m.pending.lookup next with
      | none => some (m, .range, [])
      | some val =>
          some ({ m with pending := m.pending.erase next }, .deliver next val, [])
  | .reload => some (m, .arm m.nextSeq, [])
  | .sleep expectedAtStart =>
      some ({ m with gapTimers := false }, .check expectedAtStart, [])
  | .check expectedAtStart =>
      if m.nextSeq = expectedAtStart then some (m, .onGap m.nextSeq, [])
      else some (m, .done, [])
  | .skip minPending => some ({ m with nextSeq := minPending }, .drain, [])
  | .reset seq => some ({ m with nextSeq := seq }, .clear, [])
  | .range | .onGap _ | .scan _ | .clear | .done => none

/-- A turn of the range loop of `drainPending`, `skipGap` or `SetNextSeq`. -/
def visit (m : SlotMemory) (key : UInt64) :
    SlotPoint → Option (SlotMemory × SlotPoint × List SlotPoint)
  | .range => if key ∈ m.pending then some (m, .reload, []) else none
  | .scan minPending =>
      if key ∈ m.pending then
        some (m, .scan (if key < minPending then key else minPending), [])
      else none
  | .clear =>
      (m.pending.lookup key).map fun val =>
        ({ m.discard [(key, val)] with pending := m.pending.erase key }, .clear, [])
  | _ => none

def finish (m : SlotMemory) :
    SlotPoint → Option (SlotMemory × SlotPoint × List SlotPoint)
  | .range => some (m, .done, [])
  | .scan minPending =>
      some (m, if minPending ≠ maxUint64 then .skip minPending else .done, [])
  | .clear => some (m, .done, [])
  | _ => none

theorem visit_range (m : SlotMemory) (key : UInt64) :
    m.visit key .range = if key ∈ m.pending then some (m, .reload, []) else none := rfl

theorem visit_scan (m : SlotMemory) (key minPending : UInt64) :
    m.visit key (.scan minPending) =
      if key ∈ m.pending then
        some (m, .scan (if key < minPending then key else minPending), [])
      else none := rfl

theorem visit_clear (m : SlotMemory) (key : UInt64) :
    m.visit key .clear = (m.pending.lookup key).map fun val =>
      ({ m.discard [(key, val)] with pending := m.pending.erase key }, .clear, []) := rfl

theorem finish_scan (m : SlotMemory) (minPending : UInt64) :
    m.finish (.scan minPending) =
      some (m, if minPending ≠ maxUint64 then .skip minPending else .done, []) := rfl

def operate (maxGapBuffer : Nat) (m : SlotMemory) (p : SlotPoint) :
    SlotChoice → Option (SlotMemory × SlotPoint × List SlotPoint)
  | .proceed => m.proceed maxGapBuffer p
  | .visit key => m.visit key p
  | .finish => m.finish p
  -- `RequestRepair` calls `Receive` with what it found, and the timer returns
  | .found payload =>
      match p with
      | .onGap missing =>
          some ({ m with received := m.received ++ [(missing, payload)] },
            .load missing payload, [])
      | _ => none
  | .notFound =>
      match p with
      | .onGap _ => some (m, .scan maxUint64, [])
      | _ => none

end SlotMemory

abbrev SlotThreads := Threads SlotMemory SlotPoint

namespace SlotThreads

inductive Call where
  | receive (seq : UInt64) (payload : Payload)
  | setNextSeq (seq : UInt64)

def Call.point : Call → SlotPoint
  | .receive seq payload => .load seq payload
  | .setNextSeq seq => .reset seq

def Call.entry : Call → Option Numbered
  | .receive seq payload => some (seq, payload)
  | .setNextSeq _ => none

def start (nextSeq : UInt64) (calls : List Call) : SlotThreads :=
  ⟨.fresh nextSeq (calls.filterMap Call.entry), calls.map Call.point⟩

def step (maxGapBuffer : Nat) : SlotThreads → Nat × SlotChoice → Option SlotThreads :=
  Threads.step (SlotMemory.operate maxGapBuffer)

end SlotThreads

/-! ## Operations -/

open SlotMemory SlotPoint in
inductive Operates (maxGapBuffer : Nat) (m : SlotMemory) :
    SlotPoint → SlotChoice → SlotMemory → SlotPoint → List SlotPoint → Prop
  | duplicate (seq : UInt64) (payload : Payload) (hlt : seq < m.nextSeq) :
      Operates maxGapBuffer m (.load seq payload) .proceed
        (m.discard [(seq, payload)]) .done []
  | ahead (seq : UInt64) (payload : Payload) (hlt : m.nextSeq < seq)
      (hcount : (seq - m.nextSeq).toNat ≤ maxGapBuffer) :
      Operates maxGapBuffer m (.load seq payload) .proceed m
        (.buffer seq payload m.nextSeq) []
  | tooFar (seq : UInt64) (payload : Payload) (hlt : m.nextSeq < seq)
      (hcount : maxGapBuffer < (seq - m.nextSeq).toNat) :
      Operates maxGapBuffer m (.load seq payload) .proceed m
        (.deliverAhead seq payload) []
  | next (payload : Payload) :
      Operates maxGapBuffer m (.load m.nextSeq payload) .proceed m
        (.deliver m.nextSeq payload) []
  | store (seq : UInt64) (payload : Payload) (expected : UInt64) :
      Operates maxGapBuffer m (.buffer seq payload expected) .proceed
        (m.store seq payload) (.arm expected) []
  | armed (expected : UInt64) (hset : m.gapTimers = true) :
      Operates maxGapBuffer m (.arm expected) .proceed m .done []
  | arm (expected : UInt64) (hclear : m.gapTimers = false) :
      Operates maxGapBuffer m (.arm expected) .proceed
        { m with gapTimers := true } .done [.sleep expected]
  | deliverAhead (seq : UInt64) (payload : Payload) :
      Operates maxGapBuffer m (.deliverAhead seq payload) .proceed
        (m.deliver seq payload) (.jump seq) []
  | jump (seq : UInt64) :
      Operates maxGapBuffer m (.jump seq) .proceed
        { m with nextSeq := seq + 1 } .drain []
  | deliver (seq : UInt64) (payload : Payload) :
      Operates maxGapBuffer m (.deliver seq payload) .proceed
        (m.deliver seq payload) .advance []
  | advance :
      Operates maxGapBuffer m .advance .proceed
        { m with nextSeq := m.nextSeq + 1 } .drain []
  | drain : Operates maxGapBuffer m .drain .proceed m (.take m.nextSeq) []
  | absent (next : UInt64) (hnone : m.pending.lookup next = none) :
      Operates maxGapBuffer m (.take next) .proceed m .range []
  | take (next : UInt64) (val : Payload) (hsome : m.pending.lookup next = some val) :
      Operates maxGapBuffer m (.take next) .proceed
        { m with pending := m.pending.erase next } (.deliver next val) []
  | hasPending (key : UInt64) (hmem : key ∈ m.pending) :
      Operates maxGapBuffer m .range (.visit key) m .reload []
  | noPending : Operates maxGapBuffer m .range .finish m .done []
  | reload : Operates maxGapBuffer m .reload .proceed m (.arm m.nextSeq) []
  | wake (expectedAtStart : UInt64) :
      Operates maxGapBuffer m (.sleep expectedAtStart) .proceed
        { m with gapTimers := false } (.check expectedAtStart) []
  | gapOpen : Operates maxGapBuffer m (.check m.nextSeq) .proceed m (.onGap m.nextSeq) []
  | gapClosed (expectedAtStart : UInt64) (hne : m.nextSeq ≠ expectedAtStart) :
      Operates maxGapBuffer m (.check expectedAtStart) .proceed m .done []
  | found (missing : UInt64) (payload : Payload) :
      Operates maxGapBuffer m (.onGap missing) (.found payload)
        { m with received := m.received ++ [(missing, payload)] }
        (.load missing payload) []
  | notFound (missing : UInt64) :
      Operates maxGapBuffer m (.onGap missing) .notFound m (.scan maxUint64) []
  | scan (minPending key : UInt64) (hmem : key ∈ m.pending) :
      Operates maxGapBuffer m (.scan minPending) (.visit key) m
        (.scan (if key < minPending then key else minPending)) []
  | lowest (minPending : UInt64) (hne : minPending ≠ maxUint64) :
      Operates maxGapBuffer m (.scan minPending) .finish m (.skip minPending) []
  | noLowest : Operates maxGapBuffer m (.scan maxUint64) .finish m .done []
  | skip (minPending : UInt64) :
      Operates maxGapBuffer m (.skip minPending) .proceed
        { m with nextSeq := minPending } .drain []
  | reset (seq : UInt64) :
      Operates maxGapBuffer m (.reset seq) .proceed { m with nextSeq := seq } .clear []
  | clear (key : UInt64) (val : Payload) (hsome : m.pending.lookup key = some val) :
      Operates maxGapBuffer m .clear (.visit key)
        { m.discard [(key, val)] with pending := m.pending.erase key } .clear []
  | cleared : Operates maxGapBuffer m .clear .finish m .done []

section Inversion

variable {maxGapBuffer : Nat} {m m' : SlotMemory} {p p' : SlotPoint}
  {new : List SlotPoint}

private theorem operates_of_load {seq : UInt64} {payload : Payload} :
    Operates maxGapBuffer m (.load seq payload) .proceed
      (m.load maxGapBuffer seq payload).1 (m.load maxGapBuffer seq payload).2 [] := by
  unfold SlotMemory.load
  dsimp only
  split
  · next hlt => exact .duplicate seq payload hlt
  · next hge =>
      split
      · next hgt =>
          split
          · next hcount => exact .ahead seq payload hgt hcount
          · next hcount => exact .tooFar seq payload hgt (not_le.mp hcount)
      · next hle =>
          obtain rfl : seq = m.nextSeq := le_antisymm (not_lt.mp hle) (not_lt.mp hge)
          exact .next payload

theorem operates_of_proceed (h : m.proceed maxGapBuffer p = some (m', p', new)) :
    Operates maxGapBuffer m p .proceed m' p' new := by
  cases p with
  | load seq payload =>
      cases h
      exact operates_of_load
  | arm expected =>
      simp only [SlotMemory.proceed] at h
      split at h
      · next hset =>
          cases h
          exact .armed expected hset
      · next hclear =>
          cases h
          exact .arm expected (by simpa using hclear)
  | take next =>
      simp only [SlotMemory.proceed] at h
      split at h
      · next hnone =>
          cases h
          exact .absent next hnone
      · next val hsome =>
          cases h
          exact .take next val hsome
  | check expectedAtStart =>
      simp only [SlotMemory.proceed] at h
      split at h
      · next heq =>
          cases h
          subst heq
          exact .gapOpen
      · next hne =>
          cases h
          exact .gapClosed expectedAtStart hne
  | range | onGap | scan | clear | done => cases h
  | _ =>
      cases h
      constructor

private theorem operates_of_visit {key : UInt64} (h : m.visit key p = some (m', p', new)) :
    Operates maxGapBuffer m p (.visit key) m' p' new := by
  cases p with
  | range =>
      rw [SlotMemory.visit_range] at h
      split at h
      · next hmem =>
          cases h
          exact .hasPending key hmem
      · cases h
  | scan minPending =>
      rw [SlotMemory.visit_scan] at h
      split at h
      · next hmem =>
          cases h
          exact .scan minPending key hmem
      · cases h
  | clear =>
      obtain ⟨val, hsome, hout⟩ := Option.map_eq_some_iff.mp h
      cases hout
      exact .clear key val hsome
  | _ => cases h

private theorem operates_of_finish (h : m.finish p = some (m', p', new)) :
    Operates maxGapBuffer m p .finish m' p' new := by
  cases p with
  | range =>
      cases h
      exact .noPending
  | scan minPending =>
      cases h
      split
      · next hne => exact .lowest minPending hne
      · next heq =>
          obtain rfl : minPending = maxUint64 := by simpa using heq
          exact .noLowest
  | clear =>
      cases h
      exact .cleared
  | _ => cases h

theorem operates_of_operate {c : SlotChoice}
    (h : m.operate maxGapBuffer p c = some (m', p', new)) :
    Operates maxGapBuffer m p c m' p' new := by
  cases c with
  | proceed => exact operates_of_proceed h
  | visit key => exact operates_of_visit h
  | finish => exact operates_of_finish h
  | found payload =>
      cases p with
      | onGap missing =>
          cases h
          exact .found missing payload
      | _ => cases h
  | notFound =>
      cases p with
      | onGap missing =>
          cases h
          exact .notFound missing
      | _ => cases h

end Inversion

/-! ## The ledger -/

def held (pending : Finmap (fun _ : UInt64 => Payload)) : Multiset Numbered :=
  pending.entries.map fun e => (e.1, e.2)

@[simp] theorem held_empty : held ∅ = 0 := rfl

theorem held_insert {pending : Finmap (fun _ : UInt64 => Payload)} {seq : UInt64}
    (h : pending.lookup seq = none) (payload : Payload) :
    held (pending.insert seq payload) = held pending + {(seq, payload)} := by
  rw [held, Finmap.entries_insert_of_notMem (Finmap.lookup_eq_none.mp h), Multiset.map_cons,
    ← Multiset.singleton_add, add_comm]
  rfl

theorem held_erase {pending : Finmap (fun _ : UInt64 => Payload)} {seq : UInt64}
    {val : Payload} (h : pending.lookup seq = some val) :
    held (pending.erase seq) + {(seq, val)} = held pending := by
  have hrestore : (pending.erase seq).insert seq val = pending := by
    apply Finmap.ext_lookup
    intro key
    by_cases hkey : key = seq
    · subst hkey
      rw [Finmap.lookup_insert, h]
    · rw [Finmap.lookup_insert_of_ne _ hkey, Finmap.lookup_erase_ne hkey]
  rw [← held_insert (Finmap.lookup_erase seq pending), hrestore]

theorem held_overwrite {pending : Finmap (fun _ : UInt64 => Payload)} {seq : UInt64}
    {val : Payload} (h : pending.lookup seq = some val) (payload : Payload) :
    held (pending.insert seq payload) + {(seq, val)} = held pending + {(seq, payload)} := by
  have herased : (pending.erase seq).insert seq payload = pending.insert seq payload := by
    apply Finmap.ext_lookup
    intro key
    by_cases hkey : key = seq
    · subst hkey
      rw [Finmap.lookup_insert, Finmap.lookup_insert]
    · rw [Finmap.lookup_insert_of_ne _ hkey, Finmap.lookup_insert_of_ne _ hkey,
        Finmap.lookup_erase_ne hkey]
  rw [← herased, held_insert (Finmap.lookup_erase seq pending), ← held_erase h, add_right_comm]

theorem mem_held {pending : Finmap (fun _ : UInt64 => Payload)} {e : Numbered} :
    e ∈ held pending ↔ pending.lookup e.1 = some e.2 := by
  rw [Finmap.lookup_eq_some_iff]
  constructor
  · intro h
    obtain ⟨x, hx, rfl⟩ := Multiset.mem_map.mp h
    exact hx
  · intro h
    exact Multiset.mem_map.mpr ⟨⟨e.1, e.2⟩, h, rfl⟩

def SlotPoint.carried : SlotPoint → Multiset Numbered
  | .load seq payload | .buffer seq payload _ | .deliverAhead seq payload
  | .deliver seq payload => {(seq, payload)}
  | _ => 0

def SlotMemory.stock (m : SlotMemory) : Multiset Numbered :=
  m.delivered + m.discarded + held m.pending

private theorem stock_store (m : SlotMemory) (seq : UInt64) (payload : Payload) :
    (m.store seq payload).stock = m.stock + {(seq, payload)} := by
  cases hold : m.pending.lookup seq with
  | none => simp [SlotMemory.stock, SlotMemory.store, SlotMemory.discard, hold,
      held_insert hold, add_assoc]
  | some val =>
      simp only [SlotMemory.stock, SlotMemory.store, SlotMemory.discard, hold,
        Option.toList_some, List.map_cons, List.map_nil, ← Multiset.coe_add,
        Multiset.coe_singleton]
      rw [add_assoc _ (_ + _), add_assoc (m.discarded : Multiset Numbered),
        add_comm {(seq, val)}, held_overwrite hold]
      simp only [add_assoc]

theorem Operates.balance {maxGapBuffer : Nat} {m m' : SlotMemory} {p p' : SlotPoint}
    {c : SlotChoice} {new : List SlotPoint} (h : Operates maxGapBuffer m p c m' p' new) :
    ∃ d : Multiset Numbered, (m'.received : Multiset Numbered) = m.received + d ∧
      m'.stock + p'.carried + Threads.total SlotPoint.carried new =
        m.stock + p.carried + d := by
  cases h with
  | duplicate seq payload hlt =>
      refine ⟨0, by simp [SlotMemory.discard], ?_⟩
      simp only [SlotMemory.stock, SlotMemory.discard, SlotPoint.carried, Threads.total_nil,
        add_zero, ← Multiset.coe_add, Multiset.coe_singleton]
      abel
  | store seq payload expected =>
      refine ⟨0, by simp [SlotMemory.store, SlotMemory.discard], ?_⟩
      simp [stock_store, SlotPoint.carried]
  | deliverAhead seq payload | deliver seq payload =>
      refine ⟨0, by simp [SlotMemory.deliver], ?_⟩
      simp only [SlotMemory.stock, SlotMemory.deliver, SlotPoint.carried, Threads.total_nil,
        add_zero, ← Multiset.coe_add, Multiset.coe_singleton]
      abel
  | take next val hsome =>
      refine ⟨0, by simp, ?_⟩
      simp only [SlotMemory.stock, SlotPoint.carried, Threads.total_nil, add_zero,
        ← held_erase hsome]
      abel
  | found missing payload =>
      exact ⟨{(missing, payload)}, rfl, by simp [SlotMemory.stock, SlotPoint.carried]⟩
  | clear key val hsome =>
      refine ⟨0, by simp [SlotMemory.discard], ?_⟩
      simp only [SlotMemory.stock, SlotMemory.discard, SlotPoint.carried, Threads.total_nil,
        add_zero, ← held_erase hsome, ← Multiset.coe_add, Multiset.coe_singleton]
      abel
  | _ => exact ⟨0, by simp, by simp [SlotMemory.stock, SlotPoint.carried]⟩

def SlotPoint.sleeping : SlotPoint → Nat
  | .sleep _ => 1
  | _ => 0

theorem Operates.sleeping {maxGapBuffer : Nat} {m m' : SlotMemory} {p p' : SlotPoint}
    {c : SlotChoice} {new : List SlotPoint} (h : Operates maxGapBuffer m p c m' p' new)
    (hset : p.sleeping ≤ m.gapTimers.toNat) :
    m'.gapTimers.toNat + p.sleeping =
      m.gapTimers.toNat + p'.sleeping + Threads.total SlotPoint.sleeping new := by
  cases h with
  | arm expected hclear => simp [SlotPoint.sleeping, hclear]
  | wake expectedAtStart =>
      cases hflag : m.gapTimers with
      | false =>
          rw [hflag] at hset
          exact absurd hset (Nat.not_succ_le_zero 0)
      | true => rfl
  | _ => simp [SlotPoint.sleeping, SlotMemory.deliver, SlotMemory.store,
      SlotMemory.discard]

namespace SlotThreads

variable {maxGapBuffer : Nat} {nextSeq : UInt64} {calls : List Call}
  {labels : List (Nat × SlotChoice)} {s : SlotThreads}

/--
Every call of `Receive` is accounted for: its entry was delivered, was
discarded, is buffered, or is in the hands of one goroutine.
-/
def Accounted (s : SlotThreads) : Prop :=
  (s.memory.received : Multiset Numbered) =
    s.memory.stock + Threads.total SlotPoint.carried s.routines

theorem accounted_start (nextSeq : UInt64) (calls : List Call) :
    Accounted (start nextSeq calls) := by
  induction calls with
  | nil => rfl
  | cons call calls ih =>
      simp only [Accounted, start, SlotMemory.fresh, SlotMemory.stock, held_empty,
        Multiset.coe_nil, add_zero, zero_add, List.map_cons, Threads.total_cons] at ih ⊢
      cases call with
      | receive seq payload =>
          have hentry : Call.entry (.receive seq payload) = some (seq, payload) := rfl
          rw [List.filterMap_cons_some hentry, ← Multiset.cons_coe, ih]
          rfl
      | setNextSeq seq =>
          have hentry : Call.entry (.setNextSeq seq) = none := rfl
          rw [List.filterMap_cons_none hentry, ih]
          exact (zero_add _).symm

theorem accounted_step {t : SlotThreads} {l : Nat × SlotChoice} (hs : Accounted s)
    (hstep : step maxGapBuffer s l = some t) : Accounted t :=
  Threads.conservation_step (fun m : SlotMemory => (m.received : Multiset Numbered))
    SlotMemory.stock SlotPoint.carried
    (fun _ _ _ _ _ _ hop => (operates_of_operate hop).balance) hs hstep

private theorem start_sleeping (calls : List Call) :
    Threads.total SlotPoint.sleeping (calls.map Call.point) = 0 := by
  induction calls with
  | nil => rfl
  | cons call calls ih =>
      rw [List.map_cons, Threads.total_cons, ih]
      cases call <;> rfl

/-- The flag of a topic is raised exactly while one timer of it sleeps. -/
theorem one_timer_sleeps
    (hrun : exec (step maxGapBuffer) (start nextSeq calls) labels = some s) :
    Threads.total SlotPoint.sleeping s.routines = s.memory.gapTimers.toNat := by
  refine exec_invariant (fun s : SlotThreads =>
    Threads.total SlotPoint.sleeping s.routines = s.memory.gapTimers.toNat) ?_
    (start_sleeping calls) hrun
  rintro u ⟨i, c⟩ v hu hstep
  obtain ⟨before, p, after, p', new, -, hbefore, hop, hafter⟩ := Threads.step_eq_some hstep
  rw [hbefore] at hu
  simp only [Threads.total_append, Threads.total_cons] at hu
  have hmove := (operates_of_operate hop).sleeping (by omega)
  rw [hafter]
  simp only [Threads.total_append, Threads.total_cons]
  omega

theorem one_timer_sleeps_of_two_gaps :
    ∃ s, exec (step 2) (start 5 [.receive 6 [], .receive 7 []])
        [(0, .proceed), (1, .proceed), (0, .proceed), (1, .proceed), (0, .proceed),
          (1, .proceed)] = some s ∧
      Threads.total SlotPoint.sleeping s.routines = s.memory.gapTimers.toNat ∧
      s.memory.gapTimers = true := by
  obtain ⟨s, hrun, hflag⟩ : ∃ s, exec (step 2) (start 5 [.receive 6 [], .receive 7 []])
      [(0, .proceed), (1, .proceed), (0, .proceed), (1, .proceed), (0, .proceed),
        (1, .proceed)] = some s ∧ s.memory.gapTimers = true := ⟨_, rfl, rfl⟩
  exact ⟨s, hrun, one_timer_sleeps hrun, hflag⟩

end SlotThreads

end GossipMesh.Engine
