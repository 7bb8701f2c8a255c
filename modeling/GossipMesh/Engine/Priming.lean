import GossipMesh.Engine.OrderedSteps
import GossipMesh.Engine.SeenSteps
import GossipMesh.Foundation.Mutex

/-!
# Priming a topic while traffic flows

`SetInitialSeq` raises the mark of a topic and then sets the number its applier
expects, while handlers already offer entries of the topic to both.  Here the
two components run together, one atomic operation at a time.

Until `SetNextSeq` has stored its number the applier of a fresh topic expects
entry 0.  What it receives until then is buffered and dropped by `SetNextSeq`
if it is at most `maxGapBuffer`; an entry above that is delivered at once, and
again when it is pulled later.  An entry whose `Receive` is under way while
`SetNextSeq` runs may be stored behind the loop that clears the buffer, and is
then delivered a second time too.
-/

namespace GossipMesh.Engine

open GossipMesh.Foundation

/-! ## The goroutines of a topic -/

structure TopicMemory where
  tracker : SeenTracker
  slot : SlotMemory

/-- A handler in `ShouldProcess`, `SetInitialSeq` in `SetTopicSeq`, or a call of the applier. -/
inductive TopicPoint where
  | handler (caller : Caller) (entry : Numbered)
  | setTopicSeq (caller : Caller) (seq : UInt64)
  | slot (p : SlotPoint)
  deriving DecidableEq

namespace TopicMemory

def onReceive (m : TopicMemory) (caller : Caller) (entry : Numbered) : TopicMemory × TopicPoint :=
  -- the handler passes the entry to `Receive` if `ShouldProcess` has answered true
  match caller.results with
  | [] => (m, .handler caller entry)
  | (_, false) :: _ => (m, .slot .done)
  | (_, true) :: _ =>
      ({ m with slot := { m.slot with received := m.slot.received ++ [entry] } },
        .slot (.load entry.1 entry.2))

def setInitialSeq (caller : Caller) (seq : UInt64) : TopicPoint :=
  -- `SetInitialSeq` calls `SetNextSeq` when `SetTopicSeq` has returned
  match caller.results with
  | [] => .setTopicSeq caller seq
  | _ :: _ => .slot (.reset (seq + 1))

def operate (maxGapBuffer : Nat) (m : TopicMemory) (p : TopicPoint) (c : SlotChoice) :
    Option (TopicMemory × TopicPoint × List TopicPoint) :=
  match p, c with
  | .handler caller entry, .proceed =>
      (caller.act m.tracker).map fun next =>
        let handled := onReceive { m with tracker := next.1 } next.2.1 entry
        (handled.1, handled.2, [])
  | .setTopicSeq caller seq, .proceed =>
      (caller.act m.tracker).map fun next =>
        ({ m with tracker := next.1 }, setInitialSeq next.2.1 seq, [])
  | .slot p, c =>
      (m.slot.operate maxGapBuffer p c).map fun next =>
        ({ m with slot := next.1 }, .slot next.2.1, next.2.2.map .slot)
  | .handler _ _, _ | .setTopicSeq _ _, _ => none

end TopicMemory

abbrev TopicThreads := Threads TopicMemory TopicPoint

namespace TopicThreads

def start (tracker : SeenTracker) (topic : UInt16) (mark : UInt64) (entries : List Numbered) :
    TopicThreads :=
  ⟨⟨tracker, .fresh 0 []⟩,
    .setTopicSeq (.new [.setTopicSeq topic mark]) mark ::
      entries.map fun e => .handler (.new [.shouldProcess topic e.1]) e⟩

def step (maxGapBuffer : Nat) : TopicThreads → Nat × SlotChoice → Option TopicThreads :=
  Threads.step (TopicMemory.operate maxGapBuffer)

end TopicThreads

inductive TopicOperates (maxGapBuffer : Nat) (m : TopicMemory) :
    TopicPoint → SlotChoice → TopicMemory → TopicPoint → List TopicPoint → Prop
  | seen (caller caller' : Caller) (entry : Numbered) (tracker : SeenTracker) :
      TopicOperates maxGapBuffer m (.handler caller entry) .proceed ⟨tracker, m.slot⟩
        (.handler caller' entry) []
  | duplicate (caller : Caller) (entry : Numbered) (tracker : SeenTracker) :
      TopicOperates maxGapBuffer m (.handler caller entry) .proceed ⟨tracker, m.slot⟩
        (.slot .done) []
  | receive (caller : Caller) (entry : Numbered) (tracker : SeenTracker) :
      TopicOperates maxGapBuffer m (.handler caller entry) .proceed
        ⟨tracker, { m.slot with received := m.slot.received ++ [entry] }⟩
        (.slot (.load entry.1 entry.2)) []
  | mark (caller caller' : Caller) (seq : UInt64) (tracker : SeenTracker) :
      TopicOperates maxGapBuffer m (.setTopicSeq caller seq) .proceed ⟨tracker, m.slot⟩
        (.setTopicSeq caller' seq) []
  | marked (caller : Caller) (seq : UInt64) (tracker : SeenTracker) :
      TopicOperates maxGapBuffer m (.setTopicSeq caller seq) .proceed ⟨tracker, m.slot⟩
        (.slot (.reset (seq + 1))) []
  | slot {p p' : SlotPoint} {c : SlotChoice} {memory : SlotMemory} {new : List SlotPoint}
      (hop : Operates maxGapBuffer m.slot p c memory p' new) :
      TopicOperates maxGapBuffer m (.slot p) c ⟨m.tracker, memory⟩ (.slot p') (new.map .slot)

theorem topicOperates_of_operate {maxGapBuffer : Nat} {m m' : TopicMemory} {p p' : TopicPoint}
    {c : SlotChoice} {new : List TopicPoint}
    (h : m.operate maxGapBuffer p c = some (m', p', new)) :
    TopicOperates maxGapBuffer m p c m' p' new := by
  unfold TopicMemory.operate at h
  split at h
  · next caller entry =>
      obtain ⟨⟨tracker, caller', effect⟩, -, hout⟩ := Option.map_eq_some_iff.mp h
      cases hout
      dsimp only [TopicMemory.onReceive]
      split
      · exact .seen caller caller' entry tracker
      · exact .duplicate caller entry tracker
      · exact .receive caller entry tracker
  · next caller seq =>
      obtain ⟨⟨tracker, caller', effect⟩, -, hout⟩ := Option.map_eq_some_iff.mp h
      cases hout
      dsimp only [TopicMemory.setInitialSeq]
      split
      · exact .mark caller caller' seq tracker
      · exact .marked caller seq tracker
  · next p =>
      obtain ⟨⟨memory, q, started⟩, hop, hout⟩ := Option.map_eq_some_iff.mp h
      cases hout
      exact .slot (operates_of_operate hop)
  · cases h
  · cases h

/-! ## Calls that keep apart -/

/--
Whether the goroutine is between two operations on `nextSeq`, the buffer and
the output that belong together.
-/
def SlotPoint.busy : SlotPoint → Bool
  | .buffer _ _ _ | .deliverAhead _ _ | .jump _ | .deliver _ _ | .advance | .drain | .take _
  | .scan _ | .skip _ | .clear => true
  | .load _ _ | .arm _ | .range | .reload | .sleep _ | .check _ | .onGap _ | .reset _
  | .done => false

namespace TopicPoint

def busy : TopicPoint → Bool
  | .slot p => p.busy
  | .handler _ _ | .setTopicSeq _ _ => false

def priming : TopicPoint → Bool
  | .setTopicSeq _ _ | .slot (.reset _) => true
  | _ => false

def slotPoint : TopicPoint → Option SlotPoint
  | .slot p => some p
  | .handler _ _ | .setTopicSeq _ _ => none

end TopicPoint

namespace TopicThreads

def unprimed (s : TopicThreads) : Bool := s.routines.any TopicPoint.priming

def quiet (s : TopicThreads) : Bool := s.routines.all fun p => !p.busy

end TopicThreads

/--
The steps without which nothing is delivered twice.  Numbers that are received
fit the buffer.  Nothing is under way when `SetNextSeq` begins, nor, from then
on, when a `Receive` or a `skipGap` begins, and no repair ends before.  A range
loop that is left alone meets every key.
-/
def SlotPoint.orderly (maxGapBuffer : Nat) (m : SlotMemory) (unprimed quiet : Bool) :
    SlotPoint → SlotChoice → Bool
  | .load seq _, _ =>
      seq < maxUint64 && seq.toNat ≤ m.nextSeq.toNat + maxGapBuffer && (unprimed || quiet)
  | .reset _, _ => quiet
  | .onGap _, .found _ => !unprimed
  | .onGap _, _ => !unprimed && quiet
  | .scan least, .finish => least ≤ leastWord m.pending.keys
  | .clear, .finish => m.pending.keys = ∅
  | _, _ => true

namespace SlotPoint

variable {maxGapBuffer : Nat} {m : SlotMemory} {unprimed quiet : Bool}

theorem orderly_load (seq : UInt64) (payload : Payload) (c : SlotChoice) :
    (load seq payload).orderly maxGapBuffer m unprimed quiet c =
      (seq < maxUint64 && seq.toNat ≤ m.nextSeq.toNat + maxGapBuffer &&
        (unprimed || quiet)) := rfl

theorem lt_of_orderly_load {seq : UInt64} {payload : Payload} {c : SlotChoice}
    (h : (load seq payload).orderly maxGapBuffer m unprimed quiet c = true) :
    seq < maxUint64 := by
  simp only [orderly_load, Bool.and_eq_true, decide_eq_true_eq] at h
  exact h.1.1

theorem fits_of_orderly_load {seq : UInt64} {payload : Payload} {c : SlotChoice}
    (h : (load seq payload).orderly maxGapBuffer m unprimed quiet c = true)
    (hlt : m.nextSeq < seq) : (seq - m.nextSeq).toNat ≤ maxGapBuffer := by
  simp only [orderly_load, Bool.and_eq_true, decide_eq_true_eq] at h
  rw [toNat_sub_of_lt hlt]
  omega

theorem orderly_reset (seq : UInt64) (c : SlotChoice) :
    (reset seq).orderly maxGapBuffer m unprimed quiet c = quiet := rfl

theorem orderly_found (missing : UInt64) (payload : Payload) :
    (onGap missing).orderly maxGapBuffer m unprimed quiet (.found payload) = !unprimed := rfl

theorem orderly_notFound (missing : UInt64) :
    (onGap missing).orderly maxGapBuffer m unprimed quiet .notFound =
      (!unprimed && quiet) := rfl

theorem orderly_scan (least : UInt64) :
    (scan least).orderly maxGapBuffer m unprimed quiet .finish =
      decide (least ≤ leastWord m.pending.keys) := rfl

theorem orderly_clear :
    clear.orderly maxGapBuffer m unprimed quiet .finish = decide (m.pending.keys = ∅) := rfl

end SlotPoint

def TopicThreads.orderly (maxGapBuffer : Nat) (s : TopicThreads) (l : Nat × SlotChoice) : Bool :=
  match s.routines[l.1]?.bind TopicPoint.slotPoint with
  | some p => p.orderly maxGapBuffer s.memory.slot s.unprimed s.quiet l.2
  | none => true

/-! ## After the number is set -/

/-- `nextSeq` separates what was delivered from what is buffered. -/
structure Separated (nextSeq : UInt64) (pending : Finmap (fun _ : UInt64 => Payload))
    (delivered : List Numbered) : Prop where
  sorted : (delivered.map Prod.fst).Pairwise (· < ·)
  past : ∀ k ∈ delivered.map Prod.fst, k < nextSeq
  ahead : ∀ k ∈ pending, nextSeq ≤ k ∧ k < maxUint64

structure Settled (nextSeq : UInt64) (pending : Finmap (fun _ : UInt64 => Payload))
    (delivered : List Numbered) : Prop extends Separated nextSeq pending delivered where
  awaited : nextSeq ∉ pending

/-- What a busy goroutine tells of the slot. -/
def SlotPoint.Amid (nextSeq : UInt64) (pending : Finmap (fun _ : UInt64 => Payload))
    (delivered : List Numbered) : SlotPoint → Prop
  | .buffer seq _ _ => Settled nextSeq pending delivered ∧ nextSeq < seq ∧ seq < maxUint64
  | .deliver seq _ => Settled nextSeq pending delivered ∧ seq = nextSeq ∧ seq < maxUint64
  | .advance => Separated (nextSeq + 1) pending delivered
  | .drain => Separated nextSeq pending delivered
  | .take next => Separated nextSeq pending delivered ∧ next = nextSeq
  | .scan least => Settled nextSeq pending delivered ∧ (least = maxUint64 ∨ least ∈ pending)
  | .skip least => Separated least pending delivered
  | .clear => delivered = []
  | _ => False

namespace SlotMemory

def Calm (m : SlotMemory) : Prop := Settled m.nextSeq m.pending m.delivered

def Amid (m : SlotMemory) (p : SlotPoint) : Prop := p.Amid m.nextSeq m.pending m.delivered

end SlotMemory

section Slot

variable {maxGapBuffer : Nat} {m m' : SlotMemory} {p p' : SlotPoint} {c : SlotChoice}
  {new : List SlotPoint} {nextSeq : UInt64} {pending : Finmap (fun _ : UInt64 => Payload)}
  {delivered : List Numbered}

theorem Settled.lt (h : Settled nextSeq pending delivered) {k : UInt64} (hk : k ∈ pending) :
    nextSeq < k := by
  refine lt_of_le_of_ne (h.ahead k hk).1 ?_
  rintro rfl
  exact h.awaited hk

theorem Settled.store (h : Settled nextSeq pending delivered) {seq : UInt64}
    (hlow : nextSeq < seq) (hhigh : seq < maxUint64) (payload : Payload) :
    Settled nextSeq (pending.insert seq payload) delivered := by
  refine ⟨⟨h.sorted, h.past, fun k hk => ?_⟩, fun hmem => ?_⟩
  · rcases Finmap.mem_insert.mp hk with rfl | hold
    · exact ⟨le_of_lt hlow, hhigh⟩
    · exact h.ahead k hold
  · rcases Finmap.mem_insert.mp hmem with rfl | hold
    · exact lt_irrefl _ hlow
    · exact h.awaited hold

theorem Settled.deliver (h : Settled nextSeq pending delivered) (hmax : nextSeq < maxUint64)
    (payload : Payload) :
    Separated (nextSeq + 1) pending (delivered ++ [(nextSeq, payload)]) := by
  have hsucc := lt_succ_self hmax
  refine ⟨?_, fun k hk => ?_, fun k hk => ?_⟩
  · rw [List.map_append, List.pairwise_append]
    exact ⟨h.sorted, by simp, by simpa using h.past⟩
  · rw [List.map_append, List.mem_append] at hk
    rcases hk with hold | hnew
    · exact lt_trans (h.past k hold) hsucc
    · obtain rfl : k = nextSeq := by simpa using hnew
      exact hsucc
  · exact ⟨(succ_le_iff hmax).mpr (h.lt hk), (h.ahead k hk).2⟩

theorem Separated.take (h : Separated nextSeq pending delivered) {val : Payload}
    (hval : pending.lookup nextSeq = some val) :
    Settled nextSeq (pending.erase nextSeq) delivered ∧ nextSeq < maxUint64 := by
  refine ⟨⟨⟨h.sorted, h.past, fun k hk => h.ahead k (Finmap.mem_erase.mp hk).2⟩,
    fun hmem => (Finmap.mem_erase.mp hmem).1 rfl⟩, ?_⟩
  exact (h.ahead nextSeq (Finmap.mem_of_lookup_eq_some hval)).2

theorem Settled.skip (h : Settled nextSeq pending delivered) {least : UInt64}
    (hmem : least ∈ pending) (hleast : least ≤ leastWord pending.keys) :
    Separated least pending delivered := by
  refine ⟨h.sorted, fun k hk => lt_trans (h.past k hk) (h.lt hmem), fun k hk => ?_⟩
  exact ⟨le_trans hleast (leastWord_le (Finmap.mem_keys.mpr hk)), (h.ahead k hk).2⟩

theorem settled_of_nothing (nextSeq : UInt64) (hkeys : pending.keys = ∅) :
    Settled nextSeq pending [] := by
  have hnone : ∀ k, k ∉ pending := by
    intro k hk
    have := Finmap.mem_keys.mpr hk
    rw [hkeys] at this
    exact absurd this (Finset.notMem_empty k)
  exact ⟨⟨.nil, by simp, fun k hk => absurd hk (hnone k)⟩, hnone nextSeq⟩

theorem SlotMemory.Amid.sorted (h : m.Amid p) : (m.delivered.map Prod.fst).Pairwise (· < ·) := by
  cases p with
  | buffer | deliver | take | scan => exact h.1.sorted
  | advance | drain | skip => exact Separated.sorted h
  | clear =>
      have hnone : m.delivered = [] := h
      simp [hnone]
  | _ => exact h.elim

theorem Operates.new_idle (h : Operates maxGapBuffer m p c m' p' new) :
    ∀ q ∈ new, q.busy = false := by
  cases h with
  | arm expected hclear => simp [SlotPoint.busy]
  | _ => simp

theorem Operates.known {quiet : Bool} (h : Operates maxGapBuffer m p c m' p' new)
    (horderly : p.orderly maxGapBuffer m false quiet c = true) (hreset : ∀ seq, p ≠ .reset seq)
    (hknown : Threads.Known SlotPoint.busy SlotMemory.Calm SlotMemory.Amid m p) :
    Threads.Known SlotPoint.busy SlotMemory.Calm SlotMemory.Amid m' p' := by
  cases h with
  | duplicate | armed | arm | hasPending | noPending | reload | wake | gapOpen | gapClosed
  | found => exact ⟨nofun, fun _ => hknown.calm rfl⟩
  | ahead seq payload hlt hcount =>
      exact ⟨fun _ => ⟨hknown.calm rfl, hlt, SlotPoint.lt_of_orderly_load horderly⟩, nofun⟩
  | tooFar seq payload hlt hcount =>
      exact absurd hcount (not_lt.mpr (SlotPoint.fits_of_orderly_load horderly hlt))
  | next payload =>
      exact ⟨fun _ => ⟨hknown.calm rfl, rfl, SlotPoint.lt_of_orderly_load horderly⟩, nofun⟩
  | store seq payload expected =>
      obtain ⟨hsettled, hlow, hhigh⟩ := hknown.amid rfl
      exact ⟨nofun, fun _ => hsettled.store hlow hhigh payload⟩
  | deliver seq payload =>
      obtain ⟨hsettled, rfl, hmax⟩ := hknown.amid rfl
      exact ⟨fun _ => hsettled.deliver hmax payload, nofun⟩
  | advance => exact ⟨fun _ => hknown.amid rfl, nofun⟩
  | drain => exact ⟨fun _ => ⟨hknown.amid rfl, rfl⟩, nofun⟩
  | absent next hnone =>
      obtain ⟨hseparated, rfl⟩ := hknown.amid rfl
      exact ⟨nofun, fun _ => ⟨hseparated, Finmap.lookup_eq_none.mp hnone⟩⟩
  | take next val hsome =>
      obtain ⟨hseparated, rfl⟩ := hknown.amid rfl
      obtain ⟨hsettled, hmax⟩ := hseparated.take hsome
      exact ⟨fun _ => ⟨hsettled, rfl, hmax⟩, nofun⟩
  | notFound missing => exact ⟨fun _ => ⟨hknown.calm rfl, .inl rfl⟩, nofun⟩
  | scan least key hmem =>
      obtain ⟨hsettled, hleast⟩ := hknown.amid rfl
      refine ⟨fun _ => ⟨hsettled, ?_⟩, nofun⟩
      split
      · exact .inr hmem
      · exact hleast
  | lowest least hne =>
      obtain ⟨hsettled, hleast⟩ := hknown.amid rfl
      rw [SlotPoint.orderly_scan, decide_eq_true_eq] at horderly
      exact ⟨fun _ => hsettled.skip (hleast.resolve_left hne) horderly, nofun⟩
  | noLowest => exact ⟨nofun, fun _ => (hknown.amid rfl).1⟩
  | skip least => exact ⟨fun _ => hknown.amid rfl, nofun⟩
  | clear key val hsome => exact ⟨fun _ => hknown.amid rfl, nofun⟩
  | cleared =>
      have hnone : m.delivered = [] := hknown.amid rfl
      rw [SlotPoint.orderly_clear, decide_eq_true_eq] at horderly
      refine ⟨nofun, fun _ => ?_⟩
      rw [SlotMemory.Calm, hnone]
      exact settled_of_nothing m.nextSeq horderly
  | deliverAhead | jump => exact (hknown.amid rfl).elim
  | reset seq => exact absurd rfl (hreset seq)

/-- Beside a busy goroutine the others only arm timers, let them wake and wait for repairs. -/
theorem Operates.beside (h : Operates maxGapBuffer m p c m' p' new)
    (horderly : p.orderly maxGapBuffer m false false c = true) (hidle : p.busy = false) :
    p'.busy = false ∧ ∀ q, m.Amid q → m'.Amid q := by
  cases h with
  | armed | arm | hasPending | noPending | reload | wake | gapOpen | gapClosed | found =>
      exact ⟨rfl, fun _ hq => hq⟩
  | duplicate | ahead | tooFar | next => simp [SlotPoint.orderly_load] at horderly
  | notFound => simp [SlotPoint.orderly_notFound] at horderly
  | reset => simp [SlotPoint.orderly_reset] at horderly
  | _ => cases hidle

end Slot

/-! ## Before the number is set -/

/-- Where goroutines can be while every number they receive is buffered. -/
def TopicPoint.Early : TopicPoint → Prop
  | .handler _ entry => 0 < entry.1
  | .setTopicSeq _ _ => True
  | .slot (.load seq _) => 0 < seq
  | .slot (.buffer _ _ _) | .slot (.arm _) | .slot (.sleep _) | .slot (.check _)
  | .slot (.onGap _) | .slot (.reset _) | .slot .done => True
  | .slot _ => False

section Topic

variable {maxGapBuffer : Nat} {m m' : TopicMemory} {p p' : TopicPoint} {c : SlotChoice}
  {new : List TopicPoint}

private theorem Operates.early {m m' : SlotMemory} {p p' : SlotPoint} {new : List SlotPoint}
    {quiet : Bool} (h : Operates maxGapBuffer m p c m' p' new)
    (horderly : p.orderly maxGapBuffer m true quiet c = true) (hreset : ∀ seq, p ≠ .reset seq)
    (hearly : (TopicPoint.slot p).Early) (hzero : m.nextSeq = 0) :
    m'.nextSeq = 0 ∧ m'.delivered = m.delivered ∧ (TopicPoint.slot p').Early ∧
      ∀ q ∈ new, (TopicPoint.slot q).Early := by
  cases h with
  | duplicate seq payload hlt =>
      rw [hzero] at hlt
      exact absurd hlt (not_lt.mpr UInt64.zero_le)
  | tooFar seq payload hlt hcount =>
      exact absurd hcount (not_lt.mpr (SlotPoint.fits_of_orderly_load horderly hlt))
  | next payload => exact absurd hzero (ne_of_gt hearly)
  | found => simp [SlotPoint.orderly_found] at horderly
  | notFound => simp [SlotPoint.orderly_notFound] at horderly
  | reset seq => exact absurd rfl (hreset seq)
  | arm expected hclear =>
      refine ⟨hzero, rfl, trivial, fun q hq => ?_⟩
      rw [List.mem_singleton.mp hq]
      trivial
  | ahead | armed | wake | gapOpen | gapClosed => exact ⟨hzero, rfl, trivial, nofun⟩
  | store => exact ⟨hzero, rfl, trivial, nofun⟩
  | _ => exact hearly.elim

theorem TopicOperates.priming (h : TopicOperates maxGapBuffer m p c m' p' new)
    (hreset : ∀ seq, p ≠ .slot (.reset seq)) :
    p'.priming = p.priming ∧ ∀ q ∈ new, q.priming = false := by
  cases h with
  | slot hop =>
      cases hop with
      | reset seq => exact absurd rfl (hreset seq)
      | arm expected hclear => exact ⟨rfl, by simp [TopicPoint.priming]⟩
      | _ => exact ⟨rfl, by simp⟩
  | _ => exact ⟨rfl, nofun⟩

theorem TopicOperates.early {quiet : Bool} (h : TopicOperates maxGapBuffer m p c m' p' new)
    (horderly : ∀ q, p = .slot q → q.orderly maxGapBuffer m.slot true quiet c = true)
    (hreset : ∀ seq, p ≠ .slot (.reset seq)) (hearly : p.Early) (hzero : m.slot.nextSeq = 0) :
    m'.slot.nextSeq = 0 ∧ m'.slot.delivered = m.slot.delivered ∧ p'.Early ∧
      ∀ q ∈ new, q.Early := by
  cases h with
  | slot hop =>
      obtain ⟨hzero', hdelivered, hp', hnew⟩ := hop.early (horderly _ rfl)
        (fun seq heq => hreset seq (by rw [heq])) hearly hzero
      exact ⟨hzero', hdelivered, hp', by simpa using hnew⟩
  | seen | receive => exact ⟨hzero, rfl, hearly, nofun⟩
  | duplicate | mark | marked => exact ⟨hzero, rfl, trivial, nofun⟩

/-! ## Runs of a topic -/

namespace TopicMemory

def Calm (m : TopicMemory) : Prop := m.slot.Calm

def Amid (m : TopicMemory) : TopicPoint → Prop
  | .slot p => m.slot.Amid p
  | .handler _ _ | .setTopicSeq _ _ => False

end TopicMemory

theorem TopicOperates.new_idle (h : TopicOperates maxGapBuffer m p c m' p' new) :
    ∀ q ∈ new, q.busy = false := by
  cases h with
  | slot hop => simpa [TopicPoint.busy] using hop.new_idle
  | _ => nofun

theorem TopicOperates.known {quiet : Bool} (h : TopicOperates maxGapBuffer m p c m' p' new)
    (horderly : ∀ q, p = .slot q → q.orderly maxGapBuffer m.slot false quiet c = true)
    (hprimed : p.priming = false)
    (hknown : Threads.Known TopicPoint.busy TopicMemory.Calm TopicMemory.Amid m p) :
    Threads.Known TopicPoint.busy TopicMemory.Calm TopicMemory.Amid m' p' := by
  have hreset : ∀ seq, p ≠ .slot (.reset seq) := by
    rintro seq rfl
    cases hprimed
  cases h with
  | slot hop =>
      obtain ⟨hamid, hcalm⟩ := hop.known (horderly _ rfl)
        (fun seq heq => hreset seq (by rw [heq])) ⟨hknown.amid, hknown.calm⟩
      exact ⟨hamid, hcalm⟩
  | mark | marked => cases hprimed
  | seen | duplicate | receive => exact ⟨nofun, fun _ => hknown.calm rfl⟩

theorem TopicOperates.beside (h : TopicOperates maxGapBuffer m p c m' p' new)
    (horderly : ∀ q, p = .slot q → q.orderly maxGapBuffer m.slot false false c = true)
    (hidle : p.busy = false) : p'.busy = false ∧ ∀ q, m.Amid q → m'.Amid q := by
  cases h with
  | slot hop =>
      obtain ⟨hidle', hframe⟩ := hop.beside (horderly _ rfl) hidle
      refine ⟨hidle', fun q hq => ?_⟩
      cases q with
      | slot q => exact hframe q hq
      | handler | setTopicSeq => exact hq
  | _ => exact ⟨rfl, fun q hq => by cases q <;> exact hq⟩

end Topic

namespace TopicThreads

variable {maxGapBuffer : Nat} {s t : TopicThreads} {l : Nat × SlotChoice}

/-- `SetNextSeq` has still to store its number, and nothing was delivered. -/
structure Early (s : TopicThreads) : Prop where
  nextSeq : s.memory.slot.nextSeq = 0
  delivered : s.memory.slot.delivered = []
  points : ∀ p ∈ s.routines, p.Early
  one : s.routines.countP TopicPoint.priming = 1

/-- No goroutine is left to prime the topic, and the others keep apart. -/
structure Primed (s : TopicThreads) : Prop where
  none : s.routines.countP TopicPoint.priming = 0
  serial : Threads.Serial TopicPoint.busy TopicMemory.Calm TopicMemory.Amid s

theorem unprimed_eq_false (h : s.routines.countP TopicPoint.priming = 0) : s.unprimed = false := by
  simpa [unprimed] using h

theorem unprimed_eq_true (h : s.routines.countP TopicPoint.priming = 1) : s.unprimed = true := by
  obtain ⟨p, hp, hpriming⟩ := List.countP_pos_iff.mp (h ▸ Nat.one_pos)
  exact List.any_eq_true.mpr ⟨p, hp, hpriming⟩

theorem orderly_slot (h : s.orderly maxGapBuffer l = true) {p : TopicPoint}
    (hp : s.routines[l.1]? = some p) (q : SlotPoint) (hq : p = .slot q) :
    q.orderly maxGapBuffer s.memory.slot s.unprimed s.quiet l.2 = true := by
  simpa [orderly, hp, hq, TopicPoint.slotPoint] using h

theorem countP_priming_step (hstep : step maxGapBuffer s l = some t)
    (hreset : ∀ seq, s.routines[l.1]? ≠ some (.slot (.reset seq))) :
    t.routines.countP TopicPoint.priming = s.routines.countP TopicPoint.priming := by
  obtain ⟨before, p, after, p', new, hpoint, hs, hop, ht⟩ := Threads.step_eq_some hstep
  obtain ⟨hsame, hnew⟩ := (topicOperates_of_operate hop).priming
    fun seq heq => hreset seq (heq ▸ hpoint)
  have hnone : new.countP TopicPoint.priming = 0 := List.countP_eq_zero.mpr (by simpa using hnew)
  rw [ht, List.countP_append, hnone, Nat.add_zero, hs, Threads.countP_move, Threads.countP_move,
    hsame]

theorem Primed.step (h : Primed s) (horderly : s.orderly maxGapBuffer l = true)
    (hstep : TopicThreads.step maxGapBuffer s l = some t) : Primed t := by
  have hfalse := unprimed_eq_false h.none
  have hpriming : ∀ p ∈ s.routines, p.priming = false := by
    simpa using List.countP_eq_zero.mp h.none
  refine ⟨?_, Threads.serial_step h.serial (fun p m' p' new hpoint hop => ?_) hstep⟩
  · rw [countP_priming_step hstep fun seq hreset => ?_, h.none]
    cases hpriming _ (List.mem_of_getElem? hreset)
  · have hrule := orderly_slot horderly hpoint
    rw [hfalse] at hrule
    have hoperates := topicOperates_of_operate hop
    refine ⟨hoperates.new_idle, hoperates.known hrule (hpriming p (List.mem_of_getElem? hpoint)),
      fun hidle hbusy => hoperates.beside ?_ hidle⟩
    obtain ⟨q, hq, hbusy⟩ := hbusy
    have hquiet : s.quiet = false := by
      simp only [quiet, List.all_eq_false]
      exact ⟨q, hq, by simp [hbusy]⟩
    rwa [hquiet] at hrule

private theorem Early.reset (h : Early s) {seq : UInt64}
    (hpoint : s.routines[l.1]? = some (.slot (.reset seq)))
    (horderly : s.orderly maxGapBuffer l = true)
    (hstep : TopicThreads.step maxGapBuffer s l = some t) : Primed t := by
  have hquiet : s.quiet = true := orderly_slot horderly hpoint _ rfl
  simp only [quiet, List.all_eq_true, Bool.not_eq_true'] at hquiet
  obtain ⟨i, c⟩ := l
  obtain ⟨before, p, after, p', new, hp, hs, hop, ht⟩ := Threads.step_eq_some hstep
  rw [hpoint] at hp
  cases hp
  have hothers : (before ++ after).countP TopicPoint.busy = 0 := by
    refine List.countP_eq_zero.mpr fun q hq => ?_
    have hmem : q ∈ s.routines := by
      simp only [hs, List.mem_append, List.mem_cons] at hq ⊢
      tauto
    simp [hquiet q hmem]
  have hone := h.one
  rw [hs, Threads.countP_move] at hone
  obtain ⟨m', routines⟩ := t
  dsimp only at hop ht
  subst ht
  cases topicOperates_of_operate hop with
  | slot hslot =>
      cases hslot with
      | reset =>
          refine ⟨?_, Threads.serial_of_idle hothers rfl ⟨fun _ => h.delivered, nofun⟩⟩
          rw [List.map_nil, List.append_nil, Threads.countP_move]
          simp only [TopicPoint.priming, Bool.toNat_true, Bool.toNat_false] at hone ⊢
          omega

theorem Early.step (h : Early s) (horderly : s.orderly maxGapBuffer l = true)
    (hstep : TopicThreads.step maxGapBuffer s l = some t) : Early t ∨ Primed t := by
  by_cases hreset : ∃ seq, s.routines[l.1]? = some (.slot (.reset seq))
  · obtain ⟨seq, hpoint⟩ := hreset
    exact .inr (h.reset hpoint horderly hstep)
  · simp only [not_exists] at hreset
    refine .inl ?_
    have hcount := countP_priming_step hstep hreset
    obtain ⟨before, p, after, p', new, hpoint, hs, hop, ht⟩ := Threads.step_eq_some hstep
    have hrule := orderly_slot horderly hpoint
    rw [unprimed_eq_true h.one] at hrule
    obtain ⟨hzero, hdelivered, hp', hnew⟩ := (topicOperates_of_operate hop).early hrule
      (fun seq heq => hreset seq (heq ▸ hpoint)) (h.points p (List.mem_of_getElem? hpoint)) h.nextSeq
    refine ⟨hzero, hdelivered.trans h.delivered, fun q hq => ?_, hcount.trans h.one⟩
    rw [ht, List.mem_append] at hq
    rcases hq with hq | hq
    · rcases Threads.mem_of_move p hq with rfl | hq
      · exact hp'
      · exact h.points q (hs ▸ hq)
    · exact hnew q hq

private theorem early_start (tracker : SeenTracker) (topic : UInt16) {mark : UInt64}
    {entries : List Numbered} (habove : ∀ e ∈ entries, mark < e.1) :
    Early (start tracker topic mark entries) := by
  refine ⟨rfl, rfl, fun p hp => ?_, ?_⟩
  · rcases List.mem_cons.mp hp with rfl | hp
    · trivial
    · obtain ⟨e, he, rfl⟩ := List.mem_map.mp hp
      exact lt_of_le_of_lt UInt64.zero_le (habove e he)
  · have hnone : (entries.map fun e : Numbered =>
        TopicPoint.handler (.new [.shouldProcess topic e.1]) e).countP TopicPoint.priming = 0 := by
      simp [TopicPoint.priming]
    rw [start, List.countP_cons, hnone]
    rfl

private theorem Primed.sorted (h : Primed s) :
    (s.memory.slot.delivered.map Prod.fst).Pairwise (· < ·) := by
  rcases Nat.eq_zero_or_pos (s.routines.countP TopicPoint.busy) with hzero | hpos
  · exact (h.serial.calm hzero).sorted
  · obtain ⟨p, hp, hbusy⟩ := List.countP_pos_iff.mp hpos
    have hamid := h.serial.amid p hp hbusy
    cases p with
    | slot p => exact SlotMemory.Amid.sorted hamid
    | handler | setTopicSeq => exact hamid.elim

/--
Priming while traffic flows.  If what is received fits the buffer, also before
`SetNextSeq`, and if calls keep apart from `SetNextSeq` and from each other
once it has begun, nothing is ever delivered twice: not by the handlers that
ran before, wherever the `SetTopicSeq` fell, and not by any continuation.
-/
theorem priming_delivers_once (tracker : SeenTracker) (topic : UInt16) (mark : UInt64)
    (entries : List Numbered) (habove : ∀ e ∈ entries, mark < e.1)
    (labels : List (Nat × SlotChoice))
    (horderly : Along (step maxGapBuffer) (fun s l => s.orderly maxGapBuffer l = true)
      (start tracker topic mark entries) labels)
    (hrun : exec (step maxGapBuffer) (start tracker topic mark entries) labels = some s) :
    (s.memory.slot.delivered.map Prod.fst).Nodup := by
  have hinv : Early s ∨ Primed s := by
    refine exec_invariant_of_along (fun s => Early s ∨ Primed s) ?_
      (.inl (early_start tracker topic habove)) horderly hrun
    rintro u l v (hu | hu) hl hstep
    · exact hu.step hl hstep
    · exact .inr (hu.step hl hstep)
  rcases hinv with hs | hs
  · simp [hs.delivered]
  · exact hs.sorted.imp fun hlt => ne_of_lt hlt

def proceeds (i count : Nat) : List (Nat × SlotChoice) := List.replicate count (i, .proceed)

def primedInTime : List (Nat × SlotChoice) :=
  -- entry 5 is buffered and its timer expires before the topic is primed with 4; then 6
  -- arrives, the first repair is answered late, and the second finds 5
  proceeds 1 7 ++ proceeds 3 2 ++ proceeds 0 3 ++ [(0, .visit 5), (0, .finish)] ++
    proceeds 2 5 ++ [(3, .found [0])] ++ proceeds 3 1 ++ proceeds 4 2 ++ [(4, .found [5])] ++
    proceeds 4 9 ++ [(4, .finish)]

theorem priming_delivers_once_buffered :
    ∃ s, exec (step 64) (start .empty 1 4 [(5, [5]), (6, [6])]) primedInTime = some s ∧
      s.memory.slot.delivered = [(5, [5]), (6, [6])] ∧
      (s.memory.slot.delivered.map Prod.fst).Nodup := by
  have hsome : (exec (step 64) (start .empty 1 4 [(5, [5]), (6, [6])]) primedInTime).map
      (fun s => s.memory.slot.delivered) = some [(5, [5]), (6, [6])] := by
    decide +kernel
  obtain ⟨s, hrun, hdelivered⟩ := Option.map_eq_some_iff.mp hsome
  exact ⟨s, hrun, hdelivered,
    priming_delivers_once .empty 1 4 [(5, [5]), (6, [6])] (by decide) primedInTime (by decide +kernel) hrun⟩

def primedBetween : List (Nat × SlotChoice) :=
  -- entry 101 is handled between the two halves of `SetInitialSeq(1, 100)`, and delivered
  -- because the applier still expects 0
  proceeds 0 3 ++ proceeds 1 7 ++ [(1, .finish), (0, .proceed), (0, .finish)]

def pulledAgain : List (Nat × SlotChoice) :=
  -- entry 102 opens a gap, and 101 is pulled to fill it
  proceeds 2 5 ++ proceeds 3 2 ++ [(3, .found [7])] ++ proceeds 3 9 ++ [(3, .finish)]

theorem primed_between_delivers_twice :
    ∃ s t, exec (step 64) (start .empty 1 100 [(101, [7]), (102, [8])]) primedBetween = some s ∧
      exec (step 64) s pulledAgain = some t ∧
      Along (step 64) (fun s l => s.orderly 64 l = true) s pulledAgain ∧
      t.memory.slot.delivered = [(101, [7]), (101, [7]), (102, [8])] := by
  have hsome : (exec (step 64) (start .empty 1 100 [(101, [7]), (102, [8])])
      primedBetween).isSome := by
    decide +kernel
  obtain ⟨s, hs⟩ := Option.isSome_iff_exists.mp hsome
  have hrest : ∀ s, exec (step 64) (start .empty 1 100 [(101, [7]), (102, [8])]) primedBetween =
      some s → Along (step 64) (fun s l => s.orderly 64 l = true) s pulledAgain ∧
        (exec (step 64) s pulledAgain).map (fun t => t.memory.slot.delivered) =
          some [(101, [7]), (101, [7]), (102, [8])] := by
    decide +kernel
  obtain ⟨horderly, hend⟩ := hrest s hs
  obtain ⟨t, ht, hdelivered⟩ := Option.map_eq_some_iff.mp hend
  exact ⟨s, t, hs, ht, horderly, hdelivered⟩

-- Numbers that fit the buffer are not enough: `Receive(5)` loads `nextSeq`
-- before `SetNextSeq(5)` and stores 5 after it.  Entry 5 is then pulled, and
-- delivered again when the gap behind 6 is skipped.
example : (exec (step 64) (start .empty 1 4 [(5, [5]), (6, [6])])
    (proceeds 1 5 ++ proceeds 0 3 ++ [(0, .finish)] ++ proceeds 1 1 ++ proceeds 2 5 ++
      proceeds 3 2 ++ [(3, .found [5])] ++ proceeds 3 9 ++ [(3, .visit 5)] ++ proceeds 3 2 ++
      proceeds 4 2 ++ [(4, .notFound), (4, .visit 5), (4, .finish)] ++ proceeds 4 4)).map
    (fun s => s.memory.slot.delivered) = some [(5, [5]), (6, [6]), (5, [5])] := by
  decide +kernel

end TopicThreads

end GossipMesh.Engine
