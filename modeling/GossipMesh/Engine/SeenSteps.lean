import Mathlib.Order.Bounds.Basic
import GossipMesh.Engine.Seen
import GossipMesh.Foundation.Transition

/-!
# The seen tracker one atomic operation at a time

Any number of callers call `ShouldProcess` and `SetTopicSeq`, one call after
the other.  A call is cut into its atomic operations: the load, the swap, which
fails if the mark has changed since, and the two critical sections of
`markActive`.

A call takes effect at its successful swap, at the load that rejects it, or at
its store.  Calls that took effect at once, in that order, would have given the
same marks and the same answers; the active set lags behind by the calls that
are still in `markActive`.
-/

namespace GossipMesh.Engine

open GossipMesh.Foundation

inductive SeenCall where
  | shouldProcess (topic : UInt16) (seq : UInt64)
  | setTopicSeq (topic : UInt16) (seq : UInt64)
  deriving DecidableEq

namespace SeenCall

def topic : SeenCall → UInt16
  | .shouldProcess topic _ | .setTopicSeq topic _ => topic

def accepted : SeenCall → Bool
  | .shouldProcess _ _ => true
  -- `SetTopicSeq` has no answer
  | .setTopicSeq _ _ => false

def offer (topic : UInt16) : SeenCall → Option UInt64
  | .shouldProcess t seq => if t = topic then some seq else none
  | .setTopicSeq _ _ => none

end SeenCall

inductive SeenStage where
  | start
  | swap (old : UInt64)
  | checkActive
  | insertActive
  deriving DecidableEq

structure Caller where
  -- the first is under way
  calls : List SeenCall
  stage : SeenStage
  results : List (SeenCall × Bool)
  deriving DecidableEq

namespace Caller

def new (calls : List SeenCall) : Caller := ⟨calls, .start, []⟩

def finish (c : Caller) (call : SeenCall) (answer : Bool) : Caller :=
  ⟨c.calls.tail, .start, c.results ++ [(call, answer)]⟩

def act (tracker : SeenTracker) (c : Caller) :
    Option (SeenTracker × Caller × Option (SeenCall × Bool)) :=
  match c.stage, c.calls with
  | _, [] => none
  | .start, .shouldProcess topic seq :: _ =>
      let old := tracker.slotSeqs topic
      if seq ≤ old then
        some (tracker, c.finish (.shouldProcess topic seq) false,
          some (.shouldProcess topic seq, false))
      else some (tracker, { c with stage := .swap old }, none)
  | .swap old, .shouldProcess topic seq :: _ =>
      if tracker.slotSeqs topic = old then
        some (tracker.advance topic seq,
          if old = 0 then { c with stage := .checkActive }
          else c.finish (.shouldProcess topic seq) true,
          some (.shouldProcess topic seq, true))
      else some (tracker, { c with stage := .start }, none)
  | .start, .setTopicSeq topic seq :: _ =>
      some (tracker.advance topic seq,
        if 0 < seq then { c with stage := .checkActive }
        else c.finish (.setTopicSeq topic seq) false,
        some (.setTopicSeq topic seq, false))
  | .swap _, .setTopicSeq _ _ :: _ => none
  | .checkActive, call :: _ =>
      if call.topic ∈ tracker.activeSlots then
        some (tracker, c.finish call call.accepted, none)
      else some (tracker, { c with stage := .insertActive }, none)
  | .insertActive, call :: _ =>
      some (tracker.markActive call.topic, c.finish call call.accepted, none)

end Caller

structure SeenEffect (ι : Type*) where
  caller : ι
  call : SeenCall
  answer : Bool

structure SeenSystem (ι : Type*) where
  tracker : SeenTracker
  callers : ι → Caller
  -- the calls that took effect so far, in that order
  effects : List (SeenEffect ι)

namespace SeenSystem

variable {ι : Type*} [DecidableEq ι]

def start (tracker : SeenTracker) (programs : ι → List SeenCall) : SeenSystem ι :=
  ⟨tracker, fun i => .new (programs i), []⟩

def step (s : SeenSystem ι) (i : ι) : Option (SeenSystem ι) :=
  ((s.callers i).act s.tracker).map fun next =>
    ⟨next.1, Function.update s.callers i next.2.1,
      s.effects ++ (next.2.2.map fun e => ⟨i, e.1, e.2⟩).toList⟩

end SeenSystem

/-! ## Operations -/

inductive Acts (tracker : SeenTracker) :
    Caller → SeenTracker → Caller → Option (SeenCall × Bool) → Prop
  | reject (topic : UInt16) (seq : UInt64) (rest : List SeenCall) (results : List (SeenCall × Bool))
      (hle : seq ≤ tracker.slotSeqs topic) :
      Acts tracker ⟨.shouldProcess topic seq :: rest, .start, results⟩ tracker
        ⟨rest, .start, results ++ [(.shouldProcess topic seq, false)]⟩
        (some (.shouldProcess topic seq, false))
  | load (topic : UInt16) (seq : UInt64) (rest : List SeenCall) (results : List (SeenCall × Bool))
      (hlt : tracker.slotSeqs topic < seq) :
      Acts tracker ⟨.shouldProcess topic seq :: rest, .start, results⟩ tracker
        ⟨.shouldProcess topic seq :: rest, .swap (tracker.slotSeqs topic), results⟩ none
  | swapFirst (topic : UInt16) (seq : UInt64) (rest : List SeenCall)
      (results : List (SeenCall × Bool)) (hzero : tracker.slotSeqs topic = 0) :
      Acts tracker ⟨.shouldProcess topic seq :: rest, .swap 0, results⟩
        (tracker.advance topic seq) ⟨.shouldProcess topic seq :: rest, .checkActive, results⟩
        (some (.shouldProcess topic seq, true))
  | swap (topic : UInt16) (seq : UInt64) (rest : List SeenCall) (results : List (SeenCall × Bool))
      (hne : tracker.slotSeqs topic ≠ 0) :
      Acts tracker ⟨.shouldProcess topic seq :: rest, .swap (tracker.slotSeqs topic), results⟩
        (tracker.advance topic seq)
        ⟨rest, .start, results ++ [(.shouldProcess topic seq, true)]⟩
        (some (.shouldProcess topic seq, true))
  | retry (topic : UInt16) (seq old : UInt64) (rest : List SeenCall)
      (results : List (SeenCall × Bool)) (hne : tracker.slotSeqs topic ≠ old) :
      Acts tracker ⟨.shouldProcess topic seq :: rest, .swap old, results⟩ tracker
        ⟨.shouldProcess topic seq :: rest, .start, results⟩ none
  | store (topic : UInt16) (seq : UInt64) (rest : List SeenCall) (results : List (SeenCall × Bool))
      (hpos : 0 < seq) :
      Acts tracker ⟨.setTopicSeq topic seq :: rest, .start, results⟩
        (tracker.advance topic seq) ⟨.setTopicSeq topic seq :: rest, .checkActive, results⟩
        (some (.setTopicSeq topic seq, false))
  | reset (topic : UInt16) (rest : List SeenCall) (results : List (SeenCall × Bool)) :
      Acts tracker ⟨.setTopicSeq topic 0 :: rest, .start, results⟩
        (tracker.advance topic 0) ⟨rest, .start, results ++ [(.setTopicSeq topic 0, false)]⟩
        (some (.setTopicSeq topic 0, false))
  | wasActive (call : SeenCall) (rest : List SeenCall) (results : List (SeenCall × Bool))
      (hmem : call.topic ∈ tracker.activeSlots) :
      Acts tracker ⟨call :: rest, .checkActive, results⟩ tracker
        ⟨rest, .start, results ++ [(call, call.accepted)]⟩ none
  | notActive (call : SeenCall) (rest : List SeenCall) (results : List (SeenCall × Bool)) :
      Acts tracker ⟨call :: rest, .checkActive, results⟩ tracker
        ⟨call :: rest, .insertActive, results⟩ none
  | insert (call : SeenCall) (rest : List SeenCall) (results : List (SeenCall × Bool)) :
      Acts tracker ⟨call :: rest, .insertActive, results⟩ (tracker.markActive call.topic)
        ⟨rest, .start, results ++ [(call, call.accepted)]⟩ none

theorem acts_of_act {tracker tracker' : SeenTracker} {c c' : Caller}
    {effect : Option (SeenCall × Bool)} (h : c.act tracker = some (tracker', c', effect)) :
    Acts tracker c tracker' c' effect := by
  obtain ⟨calls, stage, results⟩ := c
  unfold Caller.act at h
  dsimp only [Caller.finish, List.tail_cons] at h
  split at h
  · cases h
  · next topic seq rest =>
      split at h
      · next hle =>
          cases h
          exact .reject topic seq rest results hle
      · next hgt =>
          cases h
          exact .load topic seq rest results (not_le.mp hgt)
  · next old topic seq rest =>
      split at h
      · next heq =>
          cases h
          subst heq
          split
          · next hzero =>
              rw [hzero]
              exact .swapFirst topic seq rest results hzero
          · next hne => exact .swap topic seq rest results hne
      · next hne =>
          cases h
          exact .retry topic seq old rest results hne
  · next topic seq rest =>
      cases h
      split
      · next hpos => exact .store topic seq rest results hpos
      · next hzero =>
          have heq : seq = 0 := le_antisymm (not_lt.mp hzero) UInt64.zero_le
          subst heq
          exact .reset topic rest results
  · cases h
  · next call rest =>
      split at h
      · next hmem =>
          cases h
          exact .wasActive call rest results hmem
      · cases h
        exact .notActive call rest results
  · next call rest =>
      cases h
      exact .insert call rest results

/-! ## Calls that take effect at once -/

namespace SeenTracker

def call (s : SeenTracker) : SeenCall → Bool × SeenTracker
  | .shouldProcess topic seq => s.shouldProcess topic seq
  | .setTopicSeq topic seq => (false, s.setTopicSeq topic seq)

def serialStep {ι : Type*} (s : SeenTracker) (e : SeenEffect ι) : Option SeenTracker :=
  if (s.call e.call).1 = e.answer then some (s.call e.call).2 else none

end SeenTracker

namespace Caller

def answered (c : Caller) : List (SeenCall × Bool) :=
  match c.stage with
  | .start | .swap _ => c.results
  | .checkActive | .insertActive =>
      c.results ++ c.calls.head?.toList.map fun call => (call, call.accepted)

def ahead (c : Caller) : List SeenCall :=
  match c.stage with
  | .start | .swap _ => c.calls
  | .checkActive | .insertActive => c.calls.tail

def marking (c : Caller) : Option UInt16 :=
  match c.stage with
  | .start | .swap _ => none
  | .checkActive | .insertActive => c.calls.head?.map SeenCall.topic

/-- A call that is to swap is one of `ShouldProcess`, and has loaded a mark below its number. -/
def Loaded (c : Caller) : Prop :=
  ∀ old, c.stage = .swap old →
    ∃ topic seq rest, c.calls = .shouldProcess topic seq :: rest ∧ old < seq

theorem Loaded.lt {topic : UInt16} {seq old : UInt64} {rest : List SeenCall}
    {results : List (SeenCall × Bool)}
    (h : Loaded ⟨.shouldProcess topic seq :: rest, .swap old, results⟩) : old < seq := by
  obtain ⟨t, n, more, hcalls, hlt⟩ := h old rfl
  cases hcalls
  exact hlt

end Caller

section Operation

variable {tracker tracker' w : SeenTracker} {c c' : Caller}

theorem Acts.answered {effect : Option (SeenCall × Bool)}
    (h : Acts tracker c tracker' c' effect) : c'.answered = c.answered ++ effect.toList := by
  cases h <;> simp [Caller.answered, SeenCall.accepted]

theorem Acts.ahead {effect : Option (SeenCall × Bool)}
    (h : Acts tracker c tracker' c' effect) :
    c.ahead = effect.toList.map Prod.fst ++ c'.ahead := by
  cases h <;> simp [Caller.ahead]

theorem Acts.loaded {effect : Option (SeenCall × Bool)}
    (h : Acts tracker c tracker' c' effect) : c'.Loaded := by
  intro old hstage
  cases h with
  | load topic seq rest results hlt =>
      cases hstage
      exact ⟨topic, seq, rest, rfl, hlt⟩
  | _ => cases hstage

theorem Acts.quiet (h : Acts tracker c tracker' c' none) :
    tracker'.slotSeqs = tracker.slotSeqs ∧
      ∀ t, (t ∈ tracker'.activeSlots ∨ c'.marking = some t) ↔
        t ∈ tracker.activeSlots ∨ c.marking = some t := by
  cases h with
  | load | retry | notActive => exact ⟨rfl, fun t => Iff.rfl⟩
  | wasActive call rest results hmem =>
      refine ⟨rfl, fun t => ?_⟩
      simp only [Caller.marking, List.head?_cons, Option.map_some, Option.some.injEq]
      constructor
      · simp only [reduceCtorEq, or_false]
        exact .inl
      · rintro (ht | rfl)
        · exact .inl ht
        · exact .inl hmem
  | insert call rest results =>
      refine ⟨rfl, fun t => ?_⟩
      simp [Caller.marking, SeenTracker.markActive, or_comm, eq_comm]

theorem Acts.effective {call : SeenCall} {answer : Bool}
    (h : Acts tracker c tracker' c' (some (call, answer))) (hloaded : c.Loaded)
    (hw : w.slotSeqs = tracker.slotSeqs) :
    (w.call call).1 = answer ∧ (w.call call).2.slotSeqs = tracker'.slotSeqs ∧
      (∀ t, t ∈ (w.call call).2.activeSlots ↔ t ∈ w.activeSlots ∨ c'.marking = some t) ∧
      tracker'.activeSlots = tracker.activeSlots ∧ c.marking = none := by
  cases h with
  | reject topic seq rest results hle =>
      have hcall : w.shouldProcess topic seq = (false, w) := if_pos (hw ▸ hle)
      simp [SeenTracker.call, hcall, hw, Caller.marking]
  | swapFirst topic seq rest results hzero =>
      have hlt : w.slotSeqs topic < seq := by
        rw [hw, hzero]
        exact hloaded.lt
      have hcall : w.shouldProcess topic seq =
          (true, (w.advance topic seq).markActive topic) := by
        rw [SeenTracker.shouldProcess, if_neg (not_le.mpr hlt), if_pos (by rw [hw, hzero])]
      simp [SeenTracker.call, hcall, hw, Caller.marking, SeenTracker.advance,
        SeenTracker.markActive, SeenCall.topic, or_comm, eq_comm]
  | swap topic seq rest results hne =>
      have hlt : w.slotSeqs topic < seq := by
        rw [hw]
        exact hloaded.lt
      have hcall : w.shouldProcess topic seq = (true, w.advance topic seq) := by
        rw [SeenTracker.shouldProcess, if_neg (not_le.mpr hlt), if_neg (by rwa [hw])]
      simp [SeenTracker.call, hcall, hw, Caller.marking, SeenTracker.advance]
  | store topic seq rest results hpos =>
      simp [SeenTracker.call, SeenTracker.setTopicSeq, hpos, hw, Caller.marking,
        SeenTracker.advance, SeenTracker.markActive, SeenCall.topic, or_comm, eq_comm]
  | reset topic rest results =>
      simp [SeenTracker.call, SeenTracker.setTopicSeq, hw, Caller.marking, SeenTracker.advance]

end Operation

/-! ## Runs -/

namespace SeenSystem

variable {ι : Type*} [DecidableEq ι] {tracker : SeenTracker} {programs : ι → List SeenCall}
  {s t : SeenSystem ι} {i : ι}

def resultsOf (i : ι) (effects : List (SeenEffect ι)) : List (SeenCall × Bool) :=
  (effects.filter fun e => e.caller = i).map fun e => (e.call, e.answer)

/--
The calls that took effect, taken one after the other, give the marks of the
tracker and the answers the callers got, in the order of their programs.
-/
structure Linearized (tracker : SeenTracker) (programs : ι → List SeenCall)
    (s : SeenSystem ι) : Prop where
  serial : ∃ w, exec SeenTracker.serialStep tracker s.effects = some w ∧
    w.slotSeqs = s.tracker.slotSeqs ∧
    ∀ t, t ∈ w.activeSlots ↔
      t ∈ s.tracker.activeSlots ∨ ∃ i, (s.callers i).marking = some t
  answered : ∀ i, resultsOf i s.effects = (s.callers i).answered
  ahead : ∀ i, (s.callers i).answered.map Prod.fst ++ (s.callers i).ahead = programs i
  loaded : ∀ i, (s.callers i).Loaded

theorem linearized_start (tracker : SeenTracker) (programs : ι → List SeenCall) :
    Linearized tracker programs (start tracker programs) where
  serial := ⟨tracker, rfl, rfl, by simp [start, Caller.new, Caller.marking]⟩
  answered _ := rfl
  ahead _ := rfl
  loaded _ _ hstage := by cases hstage

theorem acts_of_step (h : s.step i = some t) :
    ∃ c' effect, Acts s.tracker (s.callers i) t.tracker c' effect ∧
      t.callers = Function.update s.callers i c' ∧
      t.effects = s.effects ++ (effect.map fun e => ⟨i, e.1, e.2⟩).toList := by
  obtain ⟨⟨tracker', c', effect⟩, hact, rfl⟩ := Option.map_eq_some_iff.mp h
  exact ⟨c', effect, acts_of_act hact, rfl, rfl⟩

theorem exists_marking_update (callers : ι → Caller) (i : ι) (c : Caller) (topic : UInt16) :
    (∃ j, (Function.update callers i c j).marking = some topic) ↔
      c.marking = some topic ∨ ∃ j, j ≠ i ∧ (callers j).marking = some topic :=
  Function.exists_update_iff callers fun _ c => c.marking = some topic

private theorem exists_marking_iff (callers : ι → Caller) (i : ι) (topic : UInt16) :
    (∃ j, (callers j).marking = some topic) ↔
      (callers i).marking = some topic ∨ ∃ j, j ≠ i ∧ (callers j).marking = some topic := by
  simpa using exists_marking_update callers i (callers i) topic

private theorem resultsOf_append (j i : ι) (effects : List (SeenEffect ι))
    (effect : Option (SeenCall × Bool)) :
    resultsOf j (effects ++ (effect.map fun e => ⟨i, e.1, e.2⟩).toList) =
      resultsOf j effects ++ if j = i then effect.toList else [] := by
  cases effect with
  | none => simp
  | some e =>
      by_cases hj : j = i
      · simp [resultsOf, hj]
      · simp [resultsOf, hj, Ne.symm hj]

private theorem Linearized.step (hs : Linearized tracker programs s) (h : s.step i = some t) :
    Linearized tracker programs t := by
  obtain ⟨c', effect, hacts, hcallers, heffects⟩ := acts_of_step h
  have hupdate : ∀ j, (t.callers j).answered =
      (s.callers j).answered ++ if j = i then effect.toList else [] := by
    intro j
    by_cases hj : j = i
    · subst hj
      rw [hcallers, Function.update_self, hacts.answered, if_pos rfl]
    · rw [hcallers, Function.update_of_ne hj, if_neg hj, List.append_nil]
  refine ⟨?_, ?_, ?_, ?_⟩
  · obtain ⟨w, hw, hslots, hactive⟩ := hs.serial
    rw [heffects]
    cases effect with
    | none =>
        obtain ⟨hsame, hmarked⟩ := hacts.quiet
        refine ⟨w, by simpa using hw, hslots.trans hsame.symm, fun topic => ?_⟩
        rw [hactive, hcallers, exists_marking_update, exists_marking_iff s.callers i,
          ← or_assoc, ← or_assoc, hmarked]
    | some e =>
        obtain ⟨hanswer, hslots', hactive', hsame, hnone⟩ :=
          hacts.effective (hs.loaded i) hslots
        refine ⟨(w.call e.1).2, exec_snoc_eq_some.mpr ⟨w, hw, if_pos hanswer⟩, hslots',
          fun topic => ?_⟩
        rw [hactive', hactive, hcallers, exists_marking_update, exists_marking_iff s.callers i,
          hsame, hnone]
        simp [or_comm, or_left_comm]
  · intro j
    rw [heffects, resultsOf_append, hs.answered, hupdate]
  · intro j
    rw [hupdate, ← hs.ahead j, List.map_append, List.append_assoc]
    congr 1
    by_cases hj : j = i
    · subst hj
      rw [hcallers, Function.update_self, hacts.ahead, if_pos rfl]
    · rw [hcallers, Function.update_of_ne hj, if_neg hj]
      rfl
  · rw [hcallers]
    exact forall_update hs.loaded hacts.loaded

/-- Every run of the atomic operations is a run of whole calls. -/
theorem linearized_run {labels : List ι}
    (hrun : exec SeenSystem.step (start tracker programs) labels = some s) :
    Linearized tracker programs s :=
  exec_invariant (Linearized tracker programs) (fun _ _ _ hs h => hs.step h)
    (linearized_start tracker programs) hrun

end SeenSystem

end GossipMesh.Engine
