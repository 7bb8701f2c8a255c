import Mathlib.Data.Finset.Insert
import GossipMesh.Foundation.Word

/-!
# The seen tracker

One high-water mark per topic decides whether an entry is new.  `ShouldProcess`
loads the mark and swaps it, retrying when the swap fails; a call is one step
here, taken at its successful swap or at the load that rejects.  The active set
only serves `HighWaterMarks`, whose map iteration visits it in some order.
-/

namespace GossipMesh.Engine

open GossipMesh.Foundation

structure TopicSeq where
  topic : UInt16
  seq : UInt64
  deriving DecidableEq

structure SeenTracker where
  slotSeqs : UInt16 → UInt64
  activeSlots : Finset UInt16

namespace SeenTracker

def empty : SeenTracker := ⟨fun _ => 0, ∅⟩

def markActive (s : SeenTracker) (topic : UInt16) : SeenTracker :=
  { s with activeSlots := insert topic s.activeSlots }

def advance (s : SeenTracker) (topic : UInt16) (seq : UInt64) : SeenTracker :=
  { s with slotSeqs := Function.update s.slotSeqs topic seq }

def shouldProcess (s : SeenTracker) (topic : UInt16) (seq : UInt64) :
    Bool × SeenTracker :=
  let old := s.slotSeqs topic
  if seq ≤ old then (false, s)
  else if old = 0 then (true, (s.advance topic seq).markActive topic)
  else (true, s.advance topic seq)

def currentSeq (s : SeenTracker) (topic : UInt16) : UInt64 := s.slotSeqs topic

def highWaterMarks (s : SeenTracker) (order : List UInt16) : List TopicSeq :=
  order.filterMap fun topic =>
    if 0 < s.slotSeqs topic then some ⟨topic, s.slotSeqs topic⟩ else none

/-- The orders a range loop over the active set can take. -/
def IterationOrder (s : SeenTracker) (order : List UInt16) : Prop :=
  order.Nodup ∧ order.toFinset = s.activeSlots

instance (s : SeenTracker) (order : List UInt16) :
    Decidable (s.IterationOrder order) :=
  inferInstanceAs (Decidable (order.Nodup ∧ order.toFinset = s.activeSlots))

def setTopicSeq (s : SeenTracker) (topic : UInt16) (seq : UInt64) :
    SeenTracker :=
  if 0 < seq then (s.advance topic seq).markActive topic
  else s.advance topic seq

@[simp] theorem markActive_slotSeqs (s : SeenTracker) (topic : UInt16) :
    (s.markActive topic).slotSeqs = s.slotSeqs := rfl

@[simp] theorem setTopicSeq_slotSeqs (s : SeenTracker) (topic : UInt16)
    (seq : UInt64) :
    (s.setTopicSeq topic seq).slotSeqs = Function.update s.slotSeqs topic seq := by
  unfold setTopicSeq
  split <;> rfl

@[simp] theorem shouldProcess_fst (s : SeenTracker) (topic : UInt16)
    (seq : UInt64) :
    (s.shouldProcess topic seq).1 = decide (s.slotSeqs topic < seq) := by
  unfold shouldProcess
  dsimp only
  by_cases hle : seq ≤ s.slotSeqs topic
  · simp [hle]
  · rw [if_neg hle]
    have hlt := not_le.mp hle
    split <;> simp [hlt]

@[simp] theorem shouldProcess_snd_slotSeqs (s : SeenTracker) (topic : UInt16)
    (seq : UInt64) :
    (s.shouldProcess topic seq).2.slotSeqs =
      Function.update s.slotSeqs topic (max (s.slotSeqs topic) seq) := by
  unfold shouldProcess
  dsimp only
  split
  · next hle => simp [max_eq_left hle]
  · next hgt =>
      have hmax := max_eq_right (le_of_lt (not_le.mp hgt))
      split <;> simp [hmax, advance]

theorem shouldProcess_mono (s : SeenTracker) (topic other : UInt16)
    (seq : UInt64) :
    s.slotSeqs other ≤ (s.shouldProcess topic seq).2.slotSeqs other := by
  rw [shouldProcess_snd_slotSeqs]
  by_cases h : other = topic
  · subst h
    simp
  · simp [h]

theorem mem_highWaterMarks {s : SeenTracker} {order : List UInt16}
    {m : TopicSeq} (h : m ∈ s.highWaterMarks order) :
    m.seq = s.slotSeqs m.topic := by
  simp only [highWaterMarks, List.mem_filterMap] at h
  obtain ⟨topic, -, hm⟩ := h
  split at hm
  · cases hm
    rfl
  · cases hm

end SeenTracker

end GossipMesh.Engine
