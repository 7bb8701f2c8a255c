import GossipMesh.Engine.Batch

/-!
# A lazy buffer over its whole life

Entries are added, marks of the peer arrive and flushes take the entries out,
in any order.  What has left the buffer and what is still in it is together a
selection of the added entries, made by the marks that came before each.
-/

namespace GossipMesh.Engine

open GossipMesh.Foundation

inductive BufferOp where
  | add (entry : GossipEntry)
  | updatePeerSeqs (marks : List TopicSeq)
  | flush
  deriving DecidableEq

def BufferOp.marks : BufferOp → List TopicSeq
  | .updatePeerSeqs marks => marks
  | .add _ | .flush => []

def receivedMarks (ops : List BufferOp) : List TopicSeq := ops.flatMap BufferOp.marks

structure BufferRun where
  buffer : LazyBuffer
  flushed : List (List GossipEntry)

namespace BufferRun

def new : BufferRun := ⟨.new, []⟩

def step (r : BufferRun) : BufferOp → BufferRun
  | .add entry => { r with buffer := r.buffer.add entry }
  | .updatePeerSeqs marks => { r with buffer := r.buffer.updatePeerSeqs marks }
  | .flush => ⟨r.buffer.flush.2, r.flushed ++ [r.buffer.flush.1]⟩

def run (ops : List BufferOp) : BufferRun := ops.foldl step new

end BufferRun

/-! ## The entries a history selects -/

def BufferOp.newEntry (before : List BufferOp) : BufferOp → Option GossipEntry
  | .add entry =>
      if markOf entry.topic (receivedMarks before) < entry.seq then some entry else none
  | .updatePeerSeqs _ | .flush => none

def newEntries (ops : List BufferOp) : List GossipEntry :=
  (List.range ops.length).filterMap fun i => ops[i]?.bind (BufferOp.newEntry (ops.take i))

theorem newEntries_snoc (ops : List BufferOp) (op : BufferOp) :
    newEntries (ops ++ [op]) = newEntries ops ++ (op.newEntry ops).toList := by
  have hbefore : ∀ i ∈ List.range ops.length,
      ((ops ++ [op])[i]?.bind (BufferOp.newEntry ((ops ++ [op]).take i))) =
        ops[i]?.bind (BufferOp.newEntry (ops.take i)) := by
    intro i hi
    have hlt := List.mem_range.mp hi
    rw [List.getElem?_append_left hlt, List.take_append_of_le_length (le_of_lt hlt)]
  unfold newEntries
  rw [List.length_append, List.length_singleton, List.range_succ, List.filterMap_append,
    List.filterMap_congr hbefore]
  congr 1
  cases hnew : op.newEntry ops <;> simp [hnew]

theorem receivedMarks_snoc (ops : List BufferOp) (op : BufferOp) :
    receivedMarks (ops ++ [op]) = receivedMarks ops ++ op.marks := by
  simp [receivedMarks]

/-! ## Runs -/

namespace BufferRun

structure Accounts (ops : List BufferOp) (r : BufferRun) : Prop where
  entries : r.flushed.flatten ++ r.buffer.entries = newEntries ops
  peerSeqs : ∀ topic, r.buffer.peerSeqs topic = markOf topic (receivedMarks ops)

private theorem accounts_new : Accounts [] new := ⟨rfl, fun _ => rfl⟩

private theorem Accounts.step {ops : List BufferOp} {r : BufferRun} (h : Accounts ops r)
    (op : BufferOp) : Accounts (ops ++ [op]) (r.step op) where
  entries := by
    rw [newEntries_snoc, ← h.entries]
    cases op with
    | add entry =>
        simp only [BufferRun.step, LazyBuffer.add_entries, BufferOp.newEntry,
          ← h.peerSeqs entry.topic]
        split <;> simp
    | updatePeerSeqs marks => simp [BufferRun.step, BufferOp.newEntry]
    | flush => simp [BufferRun.step, BufferOp.newEntry, LazyBuffer.flush]
  peerSeqs topic := by
    rw [receivedMarks_snoc, markOf_append, ← h.peerSeqs topic]
    cases op with
    | add entry => simp [BufferRun.step, BufferOp.marks, markOf]
    | updatePeerSeqs marks => exact r.buffer.updatePeerSeqs_peerSeqs marks topic
    | flush => simp [BufferRun.step, BufferOp.marks, markOf, LazyBuffer.flush]

private theorem accounts_run (ops : List BufferOp) : Accounts ops (run ops) := by
  induction ops using List.reverseRecOn with
  | nil => exact accounts_new
  | append_singleton ops op ih =>
      rw [run, List.foldl_append]
      exact ih.step op

/--
The flushed lists and what is still buffered are the added entries above the
largest mark received before them, in order.  The known marks are the largest
received, in whatever order and grouping they came.
-/
theorem run_selects (ops : List BufferOp) :
    (run ops).flushed.flatten ++ (run ops).buffer.entries = newEntries ops ∧
    (∀ topic, (run ops).buffer.peerSeqs topic = markOf topic (receivedMarks ops)) ∧
    ∀ other, (receivedMarks other).Perm (receivedMarks ops) →
      (run other).buffer.peerSeqs = (run ops).buffer.peerSeqs := by
  have h := accounts_run ops
  refine ⟨h.entries, h.peerSeqs, fun other hperm => funext fun topic => ?_⟩
  rw [(accounts_run other).peerSeqs, h.peerSeqs, markOf_perm topic hperm]

def staleMarks : List BufferOp :=
  [.add ⟨0, 3, [1]⟩, .updatePeerSeqs [⟨0, 10⟩], .flush, .add ⟨0, 5, [2]⟩,
    .updatePeerSeqs [⟨0, 4⟩], .add ⟨0, 10, [3]⟩, .add ⟨0, 11, [4]⟩]

theorem run_selects_staleMarks :
    (run staleMarks).flushed.flatten ++ (run staleMarks).buffer.entries =
      [⟨0, 3, [1]⟩, ⟨0, 11, [4]⟩] ∧
    (run [.updatePeerSeqs [⟨0, 4⟩, ⟨0, 10⟩]]).buffer.peerSeqs =
      (run staleMarks).buffer.peerSeqs :=
  ⟨(run_selects staleMarks).1.trans (by decide), (run_selects staleMarks).2.2 _ (by decide)⟩

end BufferRun

end GossipMesh.Engine
