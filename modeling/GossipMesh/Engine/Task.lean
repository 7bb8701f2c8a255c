import Mathlib.Logic.Function.Iterate
import GossipMesh.Engine.Engine

/-!
# Handlers, operation by operation

A node runs its handlers concurrently.  `Task` is a handler in progress: the
entries it still has to process and, for the first of them, the operation that
comes next.  The operations are atomic in the source, by a lock or by a
compare-and-swap, but for `Receive`, which is taken as one operation all the
same; the two overlay snapshots of an acceptance are operations of their own.

Run without interruption a task computes the handler functions of `Engine`.
-/

namespace GossipMesh.Engine

open GossipMesh.Foundation

inductive Phase where
  | seen
  | cache
  | apply
  | eagerForward
  | lazyPeers
  | enqueue (peers : List OverlayPeer)
  deriving DecidableEq

structure Task where
  sender : String
  -- `handleLocal` ignores the answer of `ShouldProcess`
  isLocal : Bool
  phase : Phase
  queue : List GossipEntry
  deriving DecidableEq

def Task.receive (sender : String) (entries : List GossipEntry) : Task :=
  ⟨sender, false, .seen, entries⟩

def Task.handleLocal (entry : GossipEntry) : Task := ⟨"", true, .seen, [entry]⟩

structure Progress where
  engine : GossipEngine
  task : Task
  sends : List EagerSend

def Task.accepts (g : GossipEngine) (t : Task) (entry : GossipEntry) : Bool :=
  t.isLocal || g.isNew entry

def Task.operate (first : RangeFirst) (g : GossipEngine) (t : Task)
    (entry : GossipEntry) (rest : List GossipEntry) : Progress :=
  match t.phase with
  | .seen =>
      ⟨g.markSeen entry,
        if t.accepts g entry then { t with phase := .cache }
        else { t with queue := rest }, []⟩
  | .cache =>
      ⟨g.cacheForRepair first entry,
        { t with phase := if t.isLocal then .eagerForward else .apply }, []⟩
  | .apply => ⟨g.apply entry, { t with phase := .eagerForward }, []⟩
  | .eagerForward =>
      ⟨g, { t with phase := .lazyPeers }, g.eagerForward entry t.sender⟩
  | .lazyPeers => ⟨g, { t with phase := .enqueue g.overlay.lazyPeers }, []⟩
  | .enqueue peers =>
      ⟨g.enqueueFor peers entry t.sender, { t with phase := .seen, queue := rest },
        []⟩

def Task.step (first : RangeFirst) (g : GossipEngine) (t : Task) :
    Option Progress :=
  match t.queue with
  | [] => none
  | entry :: rest => some (t.operate first g entry rest)

theorem Task.step_eq_some {first : RangeFirst} {g : GossipEngine} {t : Task}
    {p : Progress} (h : t.step first g = some p) :
    ∃ entry rest, t.queue = entry :: rest ∧ p = t.operate first g entry rest := by
  unfold Task.step at h
  split at h
  · cases h
  · next entry rest hqueue =>
      cases h
      exact ⟨entry, rest, hqueue, rfl⟩

/-! ## A task on its own -/

def Progress.advance (first : RangeFirst) (p : Progress) : Progress :=
  match p.task.step first p.engine with
  | none => p
  | some next => { next with sends := p.sends ++ next.sends }

theorem advance_cons (first : RangeFirst) (g : GossipEngine) (sender : String)
    (isLocal : Bool) (phase : Phase) (entry : GossipEntry)
    (rest : List GossipEntry) (sends : List EagerSend) :
    let t : Task := ⟨sender, isLocal, phase, entry :: rest⟩
    Progress.advance first ⟨g, t, sends⟩ =
      { t.operate first g entry rest with
        sends := sends ++ (t.operate first g entry rest).sends } := rfl

private theorem advance_process (first : RangeFirst) (g : GossipEngine)
    (sender : String) (entry : GossipEntry) (rest : List GossipEntry)
    (sends : List EagerSend) :
    ∃ k, (Progress.advance first)^[k]
        ⟨g, .receive sender (entry :: rest), sends⟩ =
      ⟨(g.process first sender entry).1, .receive sender rest,
        sends ++ (g.process first sender entry).2⟩ := by
  unfold GossipEngine.process
  by_cases hnew : g.isNew entry = true
  · refine ⟨6, ?_⟩
    simp [Task.receive, advance_cons, Task.operate, Task.accepts, hnew]
    rfl
  · refine ⟨1, ?_⟩
    simp [Task.receive, advance_cons, Task.operate, Task.accepts, hnew]

theorem advance_processAll (first : RangeFirst) (sender : String)
    (entries : List GossipEntry) (g : GossipEngine) (sends : List EagerSend) :
    ∃ k, (Progress.advance first)^[k] ⟨g, .receive sender entries, sends⟩ =
      ⟨(g.processAll first sender entries).1, .receive sender [],
        sends ++ (g.processAll first sender entries).2⟩ := by
  induction entries generalizing g sends with
  | nil => exact ⟨0, by simp [GossipEngine.processAll]⟩
  | cons entry entries ih =>
      obtain ⟨k, hk⟩ := advance_process first g sender entry entries sends
      obtain ⟨m, hm⟩ := ih (g.process first sender entry).1
        (sends ++ (g.process first sender entry).2)
      refine ⟨m + k, ?_⟩
      rw [Function.iterate_add_apply, hk, hm]
      simp [GossipEngine.processAll]

theorem advance_handleLocal (first : RangeFirst) (g : GossipEngine)
    (entry : GossipEntry) (sends : List EagerSend) :
    (Progress.advance first)^[5] ⟨g, .handleLocal entry, sends⟩ =
      ⟨(g.handleLocal first entry).1, ⟨"", true, .seen, []⟩,
        sends ++ (g.handleLocal first entry).2⟩ := by
  simp [Task.handleLocal, advance_cons, Task.operate, Task.accepts,
    GossipEngine.handleLocal]
  rfl

end GossipMesh.Engine
