import GossipMesh.Engine.Ordered

/-!
# Gap timers

Every `Receive`, `SetNextSeq` and gap-timer body is one step here.  A buffered
entry leaves the buffer through the timer of its topic, so a topic with
buffered entries should have an active timer.  Receptions keep it that way.
The body of a timer does not: it gives up when `nextSeq` has moved since the
timer was started, and `skipGap` takes the largest word for an empty buffer.
-/

namespace GossipMesh.Engine

open GossipMesh.Foundation

inductive Call where
  | receive (seq : UInt64) (payload : Payload)
  | setNextSeq (seq : UInt64)
  | gapTimer (expectedAtStart : UInt64) (reply : Option Payload)
  deriving DecidableEq

namespace Slot

variable {maxGapBuffer : Nat} {s t : Slot}

def call (maxGapBuffer : Nat) (s : Slot) : Call → Option Slot
  | .receive seq payload => some (s.receive maxGapBuffer seq payload)
  | .setNextSeq seq => some (s.setNextSeq seq)
  | .gapTimer expectedAtStart reply =>
      if s.timers.contains expectedAtStart then
        some (s.gapTimer maxGapBuffer expectedAtStart reply)
      else none

def NoStranded (s : Slot) : Prop :=
  s.pending.keys.Nonempty → s.gapTimers = true

/--
The timer body does its work: nothing is buffered, or `nextSeq` is still the
one the timer was started with and there is an entry to go on with, the
repaired one or a buffered one below the largest word.
-/
def TimerServes (s : Slot) : Call → Prop
  | .gapTimer expectedAtStart reply =>
      s.pending.keys = ∅ ∨ (s.nextSeq = expectedAtStart ∧
        (reply.isSome ∨ ∃ k ∈ s.pending.keys, k ≠ maxUint64))
  | .receive _ _ | .setNextSeq _ => True

instance (s : Slot) : Decidable s.NoStranded :=
  inferInstanceAs (Decidable (s.pending.keys.Nonempty → s.gapTimers = true))

instance (s : Slot) : DecidablePred s.TimerServes
  | .gapTimer expectedAtStart reply =>
      have : Decidable (∃ k ∈ s.pending.keys, k ≠ maxUint64) :=
        Finset.decidableExistsAndFinset
      inferInstanceAs (Decidable (s.pending.keys = ∅ ∨
        (s.nextSeq = expectedAtStart ∧
          (reply.isSome ∨ ∃ k ∈ s.pending.keys, k ≠ maxUint64))))
  | .receive _ _ | .setNextSeq _ => isTrue trivial

theorem noStranded_drainPending (s : Slot) : s.drainPending.NoStranded :=
  drainPending_gapTimers

theorem NoStranded.receive (h : s.NoStranded) (seq : UInt64)
    (payload : Payload) : (s.receive maxGapBuffer seq payload).NoStranded := by
  rcases receive_cases maxGapBuffer s seq payload with
    ⟨-, heq⟩ | ⟨-, -, heq⟩ | ⟨-, heq⟩ | ⟨-, heq⟩
  · rw [heq]
    exact h
  · rw [heq]
    exact fun _ => startGapTimer_gapTimers _ _
  · rw [heq]
    exact noStranded_drainPending _
  · rw [heq]
    exact noStranded_drainPending _

theorem noStranded_receive_next (maxGapBuffer : Nat) (s : Slot)
    (payload : Payload) :
    (s.receive maxGapBuffer s.nextSeq payload).NoStranded := by
  rcases receive_cases maxGapBuffer s s.nextSeq payload with
    ⟨hlt, -⟩ | ⟨hlt, -⟩ | ⟨hlt, -⟩ | ⟨-, heq⟩
  · exact absurd hlt (lt_irrefl _)
  · exact absurd hlt (lt_irrefl _)
  · omega
  · rw [heq]
    exact noStranded_drainPending _

private theorem noStranded_skipGap_iff (hflag : s.gapTimers = false) :
    s.skipGap.NoStranded ↔
      s.pending.keys = ∅ ∨ ∃ k ∈ s.pending.keys, k ≠ maxUint64 := by
  rcases skipGap_cases s with ⟨hall, heq⟩ | ⟨least, hmem, hne, -, heq⟩
  · rw [heq]
    have hnone : ¬ ∃ k ∈ s.pending.keys, k ≠ maxUint64 := by
      rintro ⟨k, hk, hkne⟩
      exact hkne (hall k (Finmap.mem_keys.mp hk))
    simp [NoStranded, hflag, hnone]
  · rw [heq]
    exact iff_of_true (noStranded_drainPending _)
      (.inr ⟨least, Finmap.mem_keys.mpr hmem, hne⟩)

@[simp] theorem expire_gapTimers (s : Slot) (e : UInt64) :
    (s.expire e).gapTimers = false := by
  unfold Slot.expire
  dsimp only
  split <;> rfl

private theorem noStranded_gapTimer_iff (s : Slot) (expectedAtStart : UInt64)
    (reply : Option Payload) :
    (s.gapTimer maxGapBuffer expectedAtStart reply).NoStranded ↔
      s.TimerServes (.gapTimer expectedAtStart reply) := by
  unfold Slot.gapTimer TimerServes
  dsimp only
  by_cases hnext : s.nextSeq = expectedAtStart
  · subst hnext
    simp only [if_true, true_and]
    cases reply with
    | some payload =>
        simp only [Option.isSome_some, true_or, or_true, iff_true]
        have h := noStranded_receive_next maxGapBuffer
          { s.expire s.nextSeq with
            repairs := (s.expire s.nextSeq).repairs.erase s.nextSeq } payload
        simpa [afterRepair] using h
    | none =>
        have h := noStranded_skipGap_iff
          (s := { s.expire s.nextSeq with
            repairs := (s.expire s.nextSeq).repairs.erase s.nextSeq })
          (expire_gapTimers _ _)
        simpa [afterRepair] using h
  · simp [hnext, NoStranded]

theorem noStranded_call_iff {c : Call} (h : s.NoStranded)
    (hcall : s.call maxGapBuffer c = some t) :
    t.NoStranded ↔ s.TimerServes c := by
  cases c with
  | receive seq payload =>
      cases hcall
      exact iff_of_true (h.receive seq payload) trivial
  | setNextSeq seq =>
      cases hcall
      exact iff_of_true (by simp [NoStranded, setNextSeq]) trivial
  | gapTimer e reply =>
      obtain ⟨-, rfl⟩ : e ∈ s.timers ∧ s.gapTimer maxGapBuffer e reply = t := by
        simpa [call] using hcall
      exact noStranded_gapTimer_iff s e reply

end Slot

namespace OrderedApplier

def new (maxGapBuffer : Nat) : OrderedApplier := ⟨maxGapBuffer, fun _ => .fresh 0⟩

def call (o : OrderedApplier) (act : UInt16 × Call) : Option OrderedApplier :=
  ((o.slots act.1).call o.maxGapBuffer act.2).map (o.setSlot act.1)

private theorem call_eq_some {o o' : OrderedApplier} {act : UInt16 × Call} :
    o.call act = some o' ↔
      ∃ s, (o.slots act.1).call o.maxGapBuffer act.2 = some s ∧
        o.setSlot act.1 s = o' := by
  simp [call, Option.map_eq_some_iff]

/--
No topic has stranded entries in any state of a run exactly when every timer
body of the run serves: it meets an empty buffer, or the `nextSeq` it was
started with and an entry to go on with.
-/
theorem noStranded_run_iff (maxGapBuffer : Nat) (acts : List (UInt16 × Call))
    (o : OrderedApplier) (hrun : exec call (new maxGapBuffer) acts = some o) :
    (∀ before after p, acts = before ++ after →
      exec call (new maxGapBuffer) before = some p →
      ∀ topic, (p.slots topic).NoStranded) ↔
    Along call (fun p act => (p.slots act.1).TimerServes act.2)
      (new maxGapBuffer) acts := by
  refine always_iff_along (fun p => ∀ topic, (p.slots topic).NoStranded) ?_ ?_ hrun
  · intro p act q hp hcall
    obtain ⟨s, hs, rfl⟩ := call_eq_some.mp hcall
    rw [← Slot.noStranded_call_iff (hp act.1) hs]
    constructor
    · intro hq
      simpa using hq act.1
    · exact forall_setSlot hp
  · simp [new, Slot.fresh, Slot.NoStranded]

def servedTrace : List (UInt16 × Call) :=
  [(0, .setNextSeq 1), (0, .receive 3 [3]), (0, .receive 7 [7]),
   (0, .gapTimer 1 none), (0, .gapTimer 4 (some [4]))]

theorem noStranded_run_iff_servedTrace :
    ∃ o, exec call (new 64) servedTrace = some o ∧
      (o.slots 0).delivered.map Prod.fst = [3, 4] ∧
      ∀ topic, (o.slots topic).NoStranded := by
  have hsome : ((exec call (new 64) servedTrace).map
      fun o => (o.slots 0).delivered.map Prod.fst) = some [3, 4] := by decide
  obtain ⟨o, hrun, hdelivered⟩ := Option.map_eq_some_iff.mp hsome
  exact ⟨o, hrun, hdelivered, (noStranded_run_iff 64 servedTrace o hrun).mpr
    (by decide) servedTrace [] o (by simp) hrun⟩

def strandedTrace : List (UInt16 × Call) :=
  -- the gap in front of 3 is filled half: the timer finds `nextSeq` moved
  [(0, .setNextSeq 1), (0, .receive 3 [3]), (0, .receive 1 [1]),
   (0, .gapTimer 1 none)]

theorem strandedTrace_strands :
    ∃ o, exec call (new 64) strandedTrace = some o ∧
      (3 : UInt64) ∈ (o.slots 0).pending ∧ (o.slots 0).gapTimers = false ∧
      (o.slots 0).timers = [] ∧ ¬ (o.slots 0).NoStranded := by
  have hsome : ((exec call (new 64) strandedTrace).map fun o =>
      decide ((3 : UInt64) ∈ (o.slots 0).pending ∧ (o.slots 0).gapTimers = false ∧
        (o.slots 0).timers = [] ∧ ¬ (o.slots 0).NoStranded)) = some true := by
    decide
  obtain ⟨o, hrun, hstate⟩ := Option.map_eq_some_iff.mp hsome
  exact ⟨o, hrun, of_decide_eq_true hstate⟩

end OrderedApplier

end GossipMesh.Engine
