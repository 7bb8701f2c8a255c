import GossipMesh.Engine.Engine

/-!
# Reception of one topic

What a node delivers for a topic is decided by two components in a row: the
topic's high-water mark and its slot of the applier.  `TopicView` is that pair,
and both receive handlers act on it by offering their entries one by one,
whatever else they do to the node.

The mark forgets everything below it.  An entry that arrives after one with a
higher number is therefore dropped before it can reach the reorder buffer, and
the node delivers a block of entries exactly when it arrives in ascending order.
-/

namespace GossipMesh.Engine

open GossipMesh.Foundation

structure TopicView where
  mark : UInt64
  slot : Slot

def TopicView.offer (maxGapBuffer : Nat) (v : TopicView) (entry : GossipEntry) :
    TopicView :=
  if v.mark < entry.seq then
    ⟨entry.seq, v.slot.receive maxGapBuffer entry.seq entry.payload⟩
  else v

def TopicView.offerAll (maxGapBuffer : Nat) (v : TopicView)
    (entries : List GossipEntry) : TopicView :=
  entries.foldl (TopicView.offer maxGapBuffer) v

def ofTopic (topic : UInt16) (entries : List GossipEntry) : List GossipEntry :=
  entries.filter fun entry => entry.topic = topic

namespace GossipEngine

def topicView (g : GossipEngine) (topic : UInt16) : TopicView :=
  ⟨g.seen.slotSeqs topic, g.applier.slots topic⟩

theorem topicView_process (first : RangeFirst) (g : GossipEngine)
    (sender : String) (entry : GossipEntry) (topic : UInt16) :
    (g.process first sender entry).1.topicView topic =
      (g.topicView topic).offerAll g.applier.maxGapBuffer
        (ofTopic topic [entry]) := by
  unfold topicView
  rw [process_slotSeqs, process_slots]
  by_cases htopic : topic = entry.topic
  · subst htopic
    have hentries : ofTopic entry.topic [entry] = [entry] := by simp [ofTopic]
    rw [hentries]
    simp only [TopicView.offerAll, List.foldl_cons, List.foldl_nil,
      TopicView.offer, Function.update_self, true_and]
    split
    · next hlt => rw [max_eq_right (le_of_lt hlt)]
    · next hge => rw [max_eq_left (not_lt.mp hge)]
  · have hentries : ofTopic topic [entry] = [] := by
      simp [ofTopic, Ne.symm htopic]
    rw [hentries, if_neg fun h => htopic h.1]
    simp [htopic, TopicView.offerAll]

theorem processAll_maxGapBuffer (first : RangeFirst) (g : GossipEngine)
    (sender : String) (entries : List GossipEntry) :
    (g.processAll first sender entries).1.applier.maxGapBuffer =
      g.applier.maxGapBuffer := by
  induction entries generalizing g with
  | nil => rfl
  | cons entry entries ih =>
      rw [processAll]
      exact (ih _).trans (process_maxGapBuffer first g sender entry)

theorem topicView_processAll (first : RangeFirst) (g : GossipEngine)
    (sender : String) (entries : List GossipEntry) (topic : UInt16) :
    (g.processAll first sender entries).1.topicView topic =
      (g.topicView topic).offerAll g.applier.maxGapBuffer
        (ofTopic topic entries) := by
  induction entries generalizing g with
  | nil => rfl
  | cons entry entries ih =>
      have hsplit : ofTopic topic (entry :: entries) =
          ofTopic topic [entry] ++ ofTopic topic entries :=
        List.filter_append [entry] entries
      rw [hsplit, TopicView.offerAll, List.foldl_append]
      have htail := ih (g.process first sender entry).1
      rw [topicView_process, process_maxGapBuffer] at htail
      exact htail

end GossipEngine

/-! ## Runs of the receive handlers -/

inductive Arrival where
  | eager (sender : String) (data : Bytes)
  | lazyBatch (sender : String) (reader : Bytes)

def Arrival.sender : Arrival → String
  | .eager sender _ => sender
  | .lazyBatch sender _ => sender

def Arrival.entries (z : Zstd) : Arrival → List GossipEntry
  | .eager _ data => (decodeEagerMessage data).toList
  | .lazyBatch _ reader =>
      match readLazyBatch z reader with
      | .error _ => []
      | .ok batch => batch.entries

def entriesOf (z : Zstd) (topic : UInt16)
    (arrivals : List (RangeFirst × Arrival)) : List GossipEntry :=
  ofTopic topic (arrivals.flatMap fun a => a.2.entries z)

namespace GossipEngine

def handle (z : Zstd) (first : RangeFirst) (g : GossipEngine) :
    Arrival → GossipEngine × List EagerSend
  | .eager sender data => g.onEagerReceive first sender data
  | .lazyBatch sender reader => g.onLazyBatchReceive z first sender reader

def handleAll (z : Zstd) (g : GossipEngine)
    (arrivals : List (RangeFirst × Arrival)) : GossipEngine :=
  arrivals.foldl (fun g a => (g.handle z a.1 a.2).1) g

theorem handle_eq_processAll (z : Zstd) (first : RangeFirst) (g : GossipEngine)
    (a : Arrival) :
    g.handle z first a = g.processAll first a.sender (a.entries z) ∨
    ∃ marks, g.handle z first a =
      (g.updateSender a.sender marks).processAll first a.sender
        (a.entries z) := by
  cases a with
  | eager sender data =>
      refine .inl ?_
      simp only [handle, onEagerReceive, Arrival.entries]
      cases decodeEagerMessage data with
      | none => rfl
      | some entry => simp [processAll, Arrival.sender]
  | lazyBatch sender reader =>
      simp only [handle, onLazyBatchReceive, Arrival.entries]
      cases readLazyBatch z reader with
      | error err => exact .inl rfl
      | ok batch => exact .inr ⟨batch.senderHighWaterMarks, rfl⟩

private theorem topicView_handle (z : Zstd) (first : RangeFirst) (g : GossipEngine)
    (a : Arrival) (topic : UInt16) :
    (g.handle z first a).1.topicView topic =
      (g.topicView topic).offerAll g.applier.maxGapBuffer
        (ofTopic topic (a.entries z)) ∧
    (g.handle z first a).1.applier.maxGapBuffer = g.applier.maxGapBuffer := by
  rcases g.handle_eq_processAll z first a with h | ⟨marks, h⟩
  · rw [h, topicView_processAll, processAll_maxGapBuffer]
    exact ⟨rfl, rfl⟩
  · rw [h, topicView_processAll, processAll_maxGapBuffer]
    simp [topicView]

theorem topicView_handleAll (z : Zstd) (g : GossipEngine)
    (arrivals : List (RangeFirst × Arrival)) (topic : UInt16) :
    (g.handleAll z arrivals).topicView topic =
      (g.topicView topic).offerAll g.applier.maxGapBuffer
        (entriesOf z topic arrivals) := by
  induction arrivals generalizing g with
  | nil => rfl
  | cons a arrivals ih =>
      obtain ⟨hview, hgap⟩ := g.topicView_handle z a.1 a.2 topic
      have htail := ih (g.handle z a.1 a.2).1
      rw [hview, hgap] at htail
      have hsplit : entriesOf z topic (a :: arrivals) =
          ofTopic topic (a.2.entries z) ++ entriesOf z topic arrivals :=
        List.filter_append _ _
      rw [hsplit, TopicView.offerAll, List.foldl_append]
      exact htail

end GossipEngine

/-! ## Ascending arrivals -/

/-- No number arrives for the first time before the one just below it. -/
def Ascending : UInt64 → List UInt64 → Prop
  | _, [] => True
  | mark, seq :: seqs =>
      seq.toNat ≤ mark.toNat + 1 ∧ Ascending (max mark seq) seqs

instance decidableAscending : ∀ mark seqs, Decidable (Ascending mark seqs)
  | _, [] => isTrue trivial
  | mark, seq :: seqs =>
      have := decidableAscending (max mark seq) seqs
      inferInstanceAs (Decidable (seq.toNat ≤ mark.toNat + 1 ∧ _))

namespace TopicView

variable {maxGapBuffer : Nat} {base : List (UInt64 × Payload)}
  {p : UInt64 → Payload} {n : UInt64} {j : Nat} {v : TopicView}
  {entry : GossipEntry}

/-- The topic has received and delivered exactly the `j` numbers above `n`. -/
structure InStep (base : List (UInt64 × Payload)) (p : UInt64 → Payload)
    (n : UInt64) (j : Nat) (v : TopicView) : Prop where
  bound : n.toNat + j < 2 ^ 64
  mark : v.mark = n + UInt64.ofNat j
  next : v.slot.nextSeq = v.mark + 1
  empty : v.slot.pending = ∅
  log : v.slot.delivered = base ++ (wordsFrom (n + 1) j).map fun seq => (seq, p seq)

theorem InStep.mark_toNat (h : InStep base p n j v) :
    v.mark.toNat = n.toNat + j := by
  rw [h.mark, toNat_add_ofNat h.bound]

theorem InStep.offer_next (maxGapBuffer : Nat) (h : InStep base p n j v)
    (hstep : entry.seq.toNat ≤ v.mark.toNat + 1) (hnew : v.mark < entry.seq) :
    v.offer maxGapBuffer entry = ⟨entry.seq,
      { v.slot.deliver entry.seq entry.payload with nextSeq := entry.seq + 1 }⟩ := by
  have hlt := UInt64.lt_iff_toNat_lt.mp hnew
  have hnext : entry.seq = v.slot.nextSeq := by
    rw [h.next]
    apply UInt64.toNat_inj.mp
    rw [toNat_succ (lt_of_lt_of_le hnew (word_le_maxUint64 _))]
    omega
  simp only [TopicView.offer, if_pos hnew]
  rw [hnext, Slot.receive_nextSeq_of_empty _ _ h.empty]

theorem InStep.offer (maxGapBuffer : Nat) (h : InStep base p n j v)
    (hstep : entry.seq.toNat ≤ v.mark.toNat + 1)
    (hpayload : n < entry.seq → entry.payload = p entry.seq) :
    ∃ j', j ≤ j' ∧ InStep base p n j' (v.offer maxGapBuffer entry) ∧
      (v.offer maxGapBuffer entry).mark = max v.mark entry.seq := by
  have hmark := h.mark_toNat
  by_cases hnew : v.mark < entry.seq
  · have hlt := UInt64.lt_iff_toNat_lt.mp hnew
    have hbound : n.toNat + (j + 1) < 2 ^ 64 := by
      have := entry.seq.toNat_lt
      omega
    have hseq : entry.seq = n + UInt64.ofNat (j + 1) := by
      apply UInt64.toNat_inj.mp
      rw [toNat_add_ofNat hbound]
      omega
    have hlast : entry.seq = n + 1 + UInt64.ofNat j := by
      rw [hseq, UInt64.ofNat_add, UInt64.add_assoc, UInt64.add_comm 1]
      rfl
    rw [h.offer_next maxGapBuffer hstep hnew]
    refine ⟨j + 1, by omega, ⟨hbound, hseq, rfl, h.empty, ?_⟩,
      (max_eq_right (le_of_lt hnew)).symm⟩
    have hp := hpayload (UInt64.lt_iff_toNat_lt.mpr (by omega))
    change v.slot.delivered ++ [(entry.seq, entry.payload)] = _
    rw [h.log, wordsFrom_succ, ← hlast, hp]
    simp
  · have hoffer : v.offer maxGapBuffer entry = v := if_neg hnew
    rw [hoffer]
    exact ⟨j, le_refl j, h, (max_eq_left (not_lt.mp hnew)).symm⟩

structure Missing (base : List (UInt64 × Payload)) (x : UInt64)
    (v : TopicView) : Prop where
  behind : x ≤ v.mark
  pending : x ∉ v.slot.pending
  log : ∃ out, v.slot.delivered = base ++ out ∧ ∀ q, (x, q) ∉ out

theorem Missing.receive (maxGapBuffer : Nat) {x seq mark : UInt64}
    (payload : Payload) (h : Missing base x v) (hne : x ≠ seq) (hbehind : x ≤ mark) :
    Missing base x ⟨mark, v.slot.receive maxGapBuffer seq payload⟩ := by
  obtain ⟨out, hlog, hout⟩ := h.log
  have hdeliver : Missing base x ⟨mark,
      { v.slot.deliver seq payload with nextSeq := seq + 1 }.drainPending⟩ := by
    have hdrains := Slot.drainPending_drains
      { v.slot.deliver seq payload with nextSeq := seq + 1 }
    obtain ⟨more, hmore, hpending⟩ := hdrains.appended
    refine ⟨hbehind, ?_, out ++ [(seq, payload)] ++ more, ?_, ?_⟩
    · intro hmem
      obtain ⟨q, hq⟩ := Finmap.mem_iff.mp hmem
      exact h.pending (Finmap.mem_of_lookup_eq_some (hdrains.kept x q hq))
    · rw [hmore]
      simp [Slot.deliver, hlog]
    · intro q hq
      rcases List.mem_append.mp hq with hq | hq
      · rcases List.mem_append.mp hq with hq | hq
        · exact hout q hq
        · exact hne (by simpa using congrArg Prod.fst (List.mem_singleton.mp hq))
      · exact h.pending (Finmap.mem_of_lookup_eq_some (hpending x q hq))
  rcases Slot.receive_cases maxGapBuffer v.slot seq payload with
    ⟨-, heq⟩ | ⟨-, -, heq⟩ | ⟨-, heq⟩ | ⟨-, heq⟩
  · rw [heq]
    exact ⟨hbehind, h.pending, out, hlog, hout⟩
  · rw [heq]
    refine ⟨hbehind, ?_, out, by simpa using hlog, hout⟩
    simp only [Slot.startGapTimer_pending, Finmap.mem_insert, not_or]
    exact ⟨hne, h.pending⟩
  · rw [heq]
    exact hdeliver
  · rw [heq]
    exact hdeliver

theorem Missing.offerAll (maxGapBuffer : Nat) {x : UInt64}
    (h : Missing base x v) (entries : List GossipEntry) :
    Missing base x (v.offerAll maxGapBuffer entries) := by
  induction entries generalizing v with
  | nil => exact h
  | cons entry entries ih =>
      refine ih (v := v.offer maxGapBuffer entry) ?_
      unfold TopicView.offer
      split
      · next hlt =>
          have hx : x < entry.seq := lt_of_le_of_lt h.behind hlt
          exact h.receive _ _ (ne_of_lt hx) (le_of_lt hx)
      · exact h

private theorem InStep.missing (maxGapBuffer : Nat) (h : InStep base p n j v)
    (hjump : v.mark.toNat + 1 < entry.seq.toNat) :
    Missing base (v.mark + 1) (v.offer maxGapBuffer entry) := by
  have hnew : v.mark < entry.seq := UInt64.lt_iff_toNat_lt.mpr (by omega)
  have hsucc := toNat_succ (lt_of_lt_of_le hnew (word_le_maxUint64 _))
  have hnext : v.mark + 1 < entry.seq := UInt64.lt_iff_toNat_lt.mpr (by omega)
  have hbefore : Missing base (v.mark + 1) ⟨v.mark + 1, v.slot⟩ := by
    refine ⟨le_refl _, by simp [h.empty, Finmap.notMem_empty], _, h.log, ?_⟩
    intro q hq
    obtain ⟨seq, hseq, heq⟩ := List.mem_map.mp hq
    have hle := ((mem_wordsFrom_succ_iff h.bound).mp hseq).2
    have hmark := h.mark_toNat
    have hval : seq = v.mark + 1 := congrArg Prod.fst heq
    subst hval
    omega
  have hafter := hbefore.receive maxGapBuffer entry.payload (ne_of_lt hnext)
    (le_of_lt hnext)
  simpa only [TopicView.offer, if_pos hnew] using hafter

private theorem InStep.offerAll_iff (maxGapBuffer : Nat) {k : Nat} (hk : n.toNat + k < 2 ^ 64)
    (h : InStep base p n j v) (hj : j ≤ k) (entries : List GossipEntry)
    (honly : ∀ e ∈ entries, e.seq.toNat ≤ n.toNat + k ∧
      (n < e.seq → e.payload = p e.seq))
    (hall : ∀ seq, v.mark < seq → seq.toNat ≤ n.toNat + k →
      ∃ e ∈ entries, e.seq = seq) :
    (v.offerAll maxGapBuffer entries).slot.delivered =
        base ++ (wordsFrom (n + 1) k).map (fun seq => (seq, p seq)) ↔
      Ascending v.mark (entries.map GossipEntry.seq) := by
  induction entries generalizing v j with
  | nil =>
      have hmark := h.mark_toNat
      have hdone : j = k := by
        by_contra hne
        obtain ⟨e, he, -⟩ := hall (v.mark + 1)
          (lt_succ_self (UInt64.lt_iff_toNat_lt.mpr (by simp; omega)))
          (by rw [toNat_succ (UInt64.lt_iff_toNat_lt.mpr (by simp; omega))]; omega)
        cases he
      subst hdone
      simp only [List.map_nil, Ascending, iff_true]
      exact h.log
  | cons entry entries ih =>
      obtain ⟨hle, hpayload⟩ := honly entry (by simp)
      simp only [List.map_cons, Ascending]
      by_cases hstep : entry.seq.toNat ≤ v.mark.toNat + 1
      · obtain ⟨j', -, hview, hmark⟩ :=
          h.offer maxGapBuffer hstep hpayload
        have hj' : j' ≤ k := by
          have hafter := hview.mark_toNat
          have hbefore := h.mark_toNat
          rcases max_choice v.mark entry.seq with hmax | hmax <;>
            rw [hmark, hmax] at hafter <;> omega
        have htail := ih hview hj' (fun e he => honly e (by simp [he])) ?_
        · rw [hmark] at htail
          rw [and_iff_right hstep]
          exact htail
        · intro seq hseq hseqle
          rw [hmark] at hseq
          obtain ⟨e, he, heq⟩ := hall seq
            (lt_of_le_of_lt (le_max_left _ _) hseq) hseqle
          rcases List.mem_cons.mp he with rfl | htail
          · subst heq
            exact absurd hseq (not_lt.mpr (le_max_right _ _))
          · exact ⟨e, htail, heq⟩
      · refine ⟨fun hlog => ?_, fun hasc => absurd hasc.1 hstep⟩
        -- the jump lost the number above the mark, which the block contains
        have hmissing := (h.missing maxGapBuffer
          (not_le.mp hstep)).offerAll maxGapBuffer entries
        obtain ⟨out, hout, hnot⟩ := hmissing.log
        have hsame : out = (wordsFrom (n + 1) k).map fun seq => (seq, p seq) :=
          List.append_cancel_left (hout.symm.trans hlog)
        have hnew : v.mark < maxUint64 :=
          UInt64.lt_iff_toNat_lt.mpr (by simp; omega)
        have hsucc := toNat_succ hnew
        have hmark := h.mark_toNat
        refine absurd ?_ (hnot (p (v.mark + 1)))
        rw [hsame]
        refine List.mem_map.mpr ⟨v.mark + 1, ?_, rfl⟩
        exact (mem_wordsFrom_succ_iff hk).mpr
          ⟨UInt64.lt_iff_toNat_lt.mpr (by omega), by omega⟩

end TopicView

/-! ## The engine -/

theorem GossipEngine.setInitialSeq_inStep (g : GossipEngine) (topic : UInt16)
    (n : UInt64) (p : UInt64 → Payload) :
    TopicView.InStep (g.applier.slots topic).delivered p n 0
      ((g.setInitialSeq topic n).topicView topic) where
  bound := n.toNat_lt
  mark := by simp [topicView, setInitialSeq]
  next := by
    simp [topicView, setInitialSeq, OrderedApplier.setNextSeq, Slot.setNextSeq]
  empty := by
    simp [topicView, setInitialSeq, OrderedApplier.setNextSeq, Slot.setNextSeq]
  log := by
    simp [topicView, setInitialSeq, OrderedApplier.setNextSeq, Slot.setNextSeq,
      wordsFrom]

/--
Once a topic is primed with `n` and the entries `n + 1 .. n + k` arrive, in any
grouping into eager messages and lazy batches and among entries of any other
topics, they are delivered in order exactly when they arrive ascending.
-/
theorem GossipEngine.delivers_block_iff (z : Zstd) (g : GossipEngine)
    (topic : UInt16) (n : UInt64) (k : Nat) (p : UInt64 → Payload)
    (arrivals : List (RangeFirst × Arrival)) (hk : n.toNat + k < 2 ^ 64)
    (honly : ∀ e ∈ entriesOf z topic arrivals, e.seq.toNat ≤ n.toNat + k ∧
      (n < e.seq → e.payload = p e.seq))
    (hall : ∀ seq ∈ wordsFrom (n + 1) k,
      ∃ e ∈ entriesOf z topic arrivals, e.seq = seq) :
    (((g.setInitialSeq topic n).handleAll z arrivals).applier.slots
        topic).delivered =
      (g.applier.slots topic).delivered ++
        (wordsFrom (n + 1) k).map (fun seq => (seq, p seq)) ↔
    Ascending n ((entriesOf z topic arrivals).map GossipEntry.seq) := by
  have hview := g.setInitialSeq_inStep topic n p
  have hmark : ((g.setInitialSeq topic n).topicView topic).mark = n := by
    simp [topicView, setInitialSeq]
  have hiff := TopicView.InStep.offerAll_iff
    (g.setInitialSeq topic n).applier.maxGapBuffer hk hview (Nat.zero_le k)
    (entriesOf z topic arrivals) honly
    (fun seq hlow hhigh =>
      hall seq ((mem_wordsFrom_succ_iff hk).mpr ⟨hmark ▸ hlow, hhigh⟩))
  rw [← topicView_handleAll, hmark] at hiff
  exact hiff

def loneEngine : GossipEngine := .new (.new "node" ⟨0, 0, 0, 0⟩) 0

noncomputable def ascendingArrivals : List (RangeFirst × Arrival) :=
  [(.any, .eager "peer" (encodeEagerMessage ⟨1, 1, [7]⟩).tail),
   (.any, .lazyBatch "peer"
      (writeLazyBatch .stored ⟨[⟨1, 1, [7]⟩, ⟨1, 2, [7]⟩], []⟩))]

theorem GossipEngine.delivers_block_iff_ascendingArrivals :
    (((loneEngine.setInitialSeq 1 0).handleAll .stored
        ascendingArrivals).applier.slots 1).delivered = [(1, [7]), (2, [7])] :=
  (loneEngine.delivers_block_iff .stored 1 0 2 (fun _ => [7]) ascendingArrivals
    (by decide) (by decide) (List.forall_iff_forall_mem.mp (by decide))).mpr
    (by decide)

noncomputable def swappedArrivals : List (RangeFirst × Arrival) :=
  [(.any, .eager "peer" (encodeEagerMessage ⟨1, 2, [7]⟩).tail),
   (.any, .eager "peer" (encodeEagerMessage ⟨1, 1, [7]⟩).tail)]

/-- Both entries arrive, well inside the reorder window, and none is delivered. -/
theorem GossipEngine.swappedArrivals_not_delivered :
    2 ≤ loneEngine.applier.maxGapBuffer ∧
    entriesOf .stored 1 swappedArrivals = [⟨1, 2, [7]⟩, ⟨1, 1, [7]⟩] ∧
    (((loneEngine.setInitialSeq 1 0).handleAll .stored
        swappedArrivals).applier.slots 1).delivered = [] := by
  decide

end GossipMesh.Engine
