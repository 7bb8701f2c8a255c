import GossipMesh.Engine.Arrival

/-!
# A topic nobody primed

The first number a topic expects is kept twice: the high-water mark starts at
zero, so that entry 1 is the first to pass, and `nextSeq` starts at zero as
well, so that the applier waits for an entry 0 that never passes.  Entries that
arrive in order from 1 on are delivered at once exactly if `nextSeq` is 1.
-/

namespace GossipMesh.Engine

open GossipMesh.Foundation

theorem gapBufferOrDefault_pos (configured : Int) : 0 < gapBufferOrDefault configured := by
  unfold gapBufferOrDefault
  split <;> omega

namespace TopicView

variable {maxGapBuffer : Nat} {v : TopicView} {entry : GossipEntry}

theorem offerAll_wordsFrom (maxGapBuffer : Nat) (entries : List GossipEntry)
    (hnext : v.slot.nextSeq = v.mark + 1) (hempty : v.slot.pending = ∅)
    (hbound : v.mark.toNat + entries.length < 2 ^ 64)
    (hseqs : entries.map GossipEntry.seq = wordsFrom (v.mark + 1) entries.length) :
    v.offerAll maxGapBuffer entries =
      ⟨v.mark + UInt64.ofNat entries.length, { v.slot with
        nextSeq := v.mark + UInt64.ofNat entries.length + 1
        delivered := v.slot.delivered ++ entries.map fun e => (e.seq, e.payload) }⟩ := by
  induction entries generalizing v with
  | nil => simp [offerAll, ← hnext]
  | cons entry entries ih =>
      rw [List.length_cons, List.map_cons, wordsFrom_cons] at hseqs
      obtain ⟨hseq, hrest⟩ := List.cons.inj hseqs
      rw [List.length_cons] at hbound
      have hsucc : (v.mark + 1).toNat = v.mark.toNat + 1 :=
        toNat_succ (UInt64.lt_iff_toNat_lt.mpr (by simp; omega))
      have hnew : v.mark < entry.seq := by
        rw [hseq, UInt64.lt_iff_toNat_lt]
        omega
      have hoffer : v.offer maxGapBuffer entry = ⟨v.mark + 1,
          { v.slot.deliver entry.seq entry.payload with nextSeq := v.mark + 1 + 1 }⟩ := by
        rw [offer, if_pos hnew, hseq, ← hnext, Slot.receive_nextSeq_of_empty _ _ hempty]
      have htail := ih (v := v.offer maxGapBuffer entry) (by rw [hoffer])
        (by rw [hoffer]; exact hempty) (by rw [hoffer]; simp only; omega)
        (by rw [hoffer]; exact hrest)
      rw [offerAll, List.foldl_cons, ← offerAll, htail, hoffer]
      simp [Slot.deliver, UInt64.add_assoc, UInt64.add_comm]

/-- Entry 1 waits for an entry that is not going to come. -/
structure Stuck (v : TopicView) : Prop where
  first : (1 : UInt64) ∈ v.slot.pending
  zero : (0 : UInt64) ∉ v.slot.pending
  next : v.slot.nextSeq ≠ 1

private theorem stuck_drainPending {s : Slot} (mark : UInt64) (h : Stuck ⟨mark, s⟩) :
    Stuck ⟨mark, s.drainPending⟩ := by
  refine Slot.drainPending_induct (fun t => Stuck ⟨mark, t⟩) ?_ ?_ h
  · intro t val ht hlookup
    have hmem := Finmap.mem_of_lookup_eq_some hlookup
    have hzero : t.nextSeq ≠ 0 := fun heq => ht.zero (heq ▸ hmem)
    refine ⟨Finmap.mem_erase.mpr ⟨ht.next.symm, ht.first⟩,
      fun h => ht.zero (Finmap.mem_erase.mp h).2, fun h => hzero ?_⟩
    simpa [Slot.drainOne] using h
  · intro t ht _ _
    exact ⟨by simpa using ht.first, by simpa using ht.zero, by simpa using ht.next⟩

private theorem Stuck.offer (h : Stuck v) : Stuck (v.offer maxGapBuffer entry) := by
  unfold TopicView.offer
  split
  · next hnew =>
      have hseq : entry.seq ≠ 0 := fun heq => absurd hnew (by rw [heq]; exact UInt64.not_lt_zero)
      have hdeliver : Stuck ⟨entry.seq, { v.slot.deliver entry.seq entry.payload with
          nextSeq := entry.seq + 1 }.drainPending⟩ :=
        stuck_drainPending _ ⟨h.first, h.zero, fun heq =>
          hseq (by simpa using heq)⟩
      rcases Slot.receive_cases maxGapBuffer v.slot entry.seq entry.payload with
        ⟨-, heq⟩ | ⟨-, -, heq⟩ | ⟨-, heq⟩ | ⟨-, heq⟩
      · rw [heq]
        exact ⟨h.first, h.zero, h.next⟩
      · rw [heq]
        refine ⟨?_, ?_, by simpa using h.next⟩
        · simp [Finmap.mem_insert, h.first]
        · simp [Finmap.mem_insert, h.zero, Ne.symm hseq]
      · rw [heq]
        exact hdeliver
      · rw [heq]
        exact hdeliver
  · exact h

private theorem Stuck.offerAll (h : Stuck v) (entries : List GossipEntry) :
    Stuck (v.offerAll maxGapBuffer entries) := by
  induction entries generalizing v with
  | nil => exact h
  | cons entry entries ih => exact ih h.offer

theorem first_of_delivered (hgap : 0 < maxGapBuffer) (hempty : v.slot.pending = ∅)
    (hseq : entry.seq = 1) (entries : List GossipEntry)
    (hlog : ∃ out, (v.offerAll maxGapBuffer (entry :: entries)).slot.delivered =
      v.slot.delivered ++ (1, entry.payload) :: out)
    (hdone : (v.offerAll maxGapBuffer (entry :: entries)).slot.pending = ∅) :
    v.mark = 0 ∧ v.slot.nextSeq = 1 := by
  -- entry 1 is passed over unless the topic expects exactly it
  obtain ⟨out, hout⟩ := hlog
  have hmissing : ¬ Missing v.slot.delivered 1 (v.offer maxGapBuffer entry) := by
    intro h
    obtain ⟨out', hout', hnot⟩ := (h.offerAll maxGapBuffer entries).log
    rw [offerAll, List.foldl_cons, ← offerAll, hout'] at hout
    exact hnot entry.payload (by rw [List.append_cancel_left hout]; simp)
  have hstuck : ¬ Stuck (v.offer maxGapBuffer entry) := by
    intro h
    have hstuck : Stuck ((v.offer maxGapBuffer entry).offerAll maxGapBuffer entries) :=
      h.offerAll entries
    have hfirst := hstuck.first
    rw [offerAll, List.foldl_cons, ← offerAll] at hdone
    rw [hdone] at hfirst
    exact Finmap.notMem_empty hfirst
  have hunseen : Missing v.slot.delivered 1 ⟨1, v.slot⟩ :=
    ⟨le_refl _, by simp [hempty, Finmap.notMem_empty], [], by simp, by simp⟩
  by_cases hmark : v.mark < 1
  · have hzero : v.mark = 0 := by
      apply UInt64.toNat_inj.mp
      have := UInt64.lt_iff_toNat_lt.mp hmark
      simp at this ⊢
      omega
    refine ⟨hzero, ?_⟩
    have hoffer : v.offer maxGapBuffer entry =
        ⟨1, v.slot.receive maxGapBuffer 1 entry.payload⟩ := by
      rw [offer, hseq, if_pos hmark]
    rw [hoffer] at hmissing hstuck
    rcases Slot.receive_cases maxGapBuffer v.slot 1 entry.payload with
      ⟨-, heq⟩ | ⟨hlow, -, heq⟩ | ⟨hjump, -⟩ | ⟨hnext, -⟩
    · rw [heq] at hmissing
      exact absurd hunseen hmissing
    · rw [heq] at hstuck
      refine absurd ⟨?_, ?_, ?_⟩ hstuck
      · simp [Finmap.mem_insert]
      · simp [Finmap.mem_insert, hempty, Finmap.notMem_empty]
      · simpa using ne_of_lt hlow
    · simp at hjump
      omega
    · exact hnext.symm
  · have hoffer : v.offer maxGapBuffer entry = v := by
      rw [offer, hseq, if_neg hmark]
    rw [hoffer] at hmissing
    exact absurd ⟨not_lt.mp hmark, hunseen.pending, hunseen.log⟩ hmissing

end TopicView

/-! ## The engine -/

namespace GossipEngine

/--
Every entry of the topic is delivered while its message is handled, leaving
nothing behind and starting no timer.
-/
def Prompt (z : Zstd) (g : GossipEngine) (topic : UInt16)
    (arrivals : List (RangeFirst × Arrival)) : Prop :=
  ∀ before a after, arrivals = before ++ a :: after →
    let s := (g.handleAll z before).applier.slots topic
    let t := (g.handleAll z (before ++ [a])).applier.slots topic
    t.delivered = s.delivered ++
        (ofTopic topic (a.2.entries z)).map (fun e => (e.seq, e.payload)) ∧
      t.pending = ∅ ∧ t.timers = s.timers

theorem entriesOf_append (z : Zstd) (topic : UInt16)
    (before after : List (RangeFirst × Arrival)) :
    entriesOf z topic (before ++ after) =
      entriesOf z topic before ++ entriesOf z topic after := by
  simp [entriesOf, ofTopic]

theorem entriesOf_singleton (z : Zstd) (topic : UInt16) (a : RangeFirst × Arrival) :
    entriesOf z topic [a] = ofTopic topic (a.2.entries z) := by
  simp [entriesOf]

private theorem Prompt.log {z : Zstd} {g : GossipEngine} {topic : UInt16}
    {arrivals : List (RangeFirst × Arrival)} (h : g.Prompt z topic arrivals)
    (before after : List (RangeFirst × Arrival)) (heq : arrivals = before ++ after) :
    ((g.handleAll z before).applier.slots topic).delivered =
      (g.applier.slots topic).delivered ++
        (entriesOf z topic before).map (fun e => (e.seq, e.payload)) := by
  induction before using List.reverseRecOn generalizing after with
  | nil => simp [handleAll, entriesOf, ofTopic]
  | append_singleton before a ih =>
      rw [List.append_assoc] at heq
      obtain ⟨hdelivered, -, -⟩ := h before a after heq
      rw [hdelivered, ih _ heq, entriesOf_append, entriesOf_singleton]
      simp

private theorem topicView_inOrder (z : Zstd) {g : GossipEngine} {topic : UInt16}
    (hempty : (g.applier.slots topic).pending = ∅) (hmark : g.seen.slotSeqs topic = 0)
    (hnext : (g.applier.slots topic).nextSeq = 1) (arrivals : List (RangeFirst × Arrival))
    (hbound : (entriesOf z topic arrivals).length < 2 ^ 64)
    (hseqs : (entriesOf z topic arrivals).map GossipEntry.seq =
      wordsFrom 1 (entriesOf z topic arrivals).length) :
    (g.handleAll z arrivals).applier.slots topic = { g.applier.slots topic with
      nextSeq := UInt64.ofNat (entriesOf z topic arrivals).length + 1
      delivered := (g.applier.slots topic).delivered ++
        (entriesOf z topic arrivals).map fun e => (e.seq, e.payload) } := by
  have hview := g.topicView_handleAll z arrivals topic
  rw [TopicView.offerAll_wordsFrom g.applier.maxGapBuffer (entriesOf z topic arrivals)
    (by simp [topicView, hnext, hmark]) hempty
    (by simpa [topicView, hmark] using hbound) (by simpa [topicView, hmark] using hseqs)] at hview
  have hslot := congrArg TopicView.slot hview
  simpa [topicView, hmark] using hslot

/--
Entries `1 .. n` of a topic with nothing buffered, in order and in any grouping
into eager messages and lazy batches, are delivered one by one as they arrive
exactly if the topic's mark is 0 and its `nextSeq` is 1.
-/
theorem prompt_iff (z : Zstd) (g : GossipEngine) (configured : Int)
    (hgap : g.applier.maxGapBuffer = gapBufferOrDefault configured) (topic : UInt16)
    (hempty : (g.applier.slots topic).pending = ∅) (n : Nat) (hn : 1 ≤ n)
    (hbound : n < 2 ^ 64) (arrivals : List (RangeFirst × Arrival))
    (hseqs : (entriesOf z topic arrivals).map GossipEntry.seq = wordsFrom 1 n) :
    g.Prompt z topic arrivals ↔
      g.seen.slotSeqs topic = 0 ∧ (g.applier.slots topic).nextSeq = 1 := by
  have hcount : (entriesOf z topic arrivals).length = n := by
    simpa using congrArg List.length hseqs
  constructor
  · intro h
    obtain ⟨m, rfl⟩ := Nat.exists_eq_succ_of_ne_zero (show n ≠ 0 by omega)
    obtain ⟨entry, entries, hentries⟩ := List.exists_cons_of_length_eq_add_one hcount
    have hfirst : entry.seq = 1 := by
      rw [hentries, wordsFrom_cons] at hseqs
      simpa using (List.cons.inj hseqs).1
    have hlog := h.log arrivals [] (by simp)
    have hdone : ((g.handleAll z arrivals).applier.slots topic).pending = ∅ := by
      rcases arrivals.eq_nil_or_concat with rfl | ⟨before, a, rfl⟩
      · simp [entriesOf, ofTopic] at hentries
      · rw [List.concat_eq_append] at *
        exact (h before a [] rfl).2.1
    have hview := g.topicView_handleAll z arrivals topic
    rw [hentries] at hview hlog
    have hpos : 0 < g.applier.maxGapBuffer := hgap ▸ gapBufferOrDefault_pos configured
    refine TopicView.first_of_delivered (v := g.topicView topic) hpos hempty hfirst entries ?_ ?_
    · refine ⟨entries.map fun e => (e.seq, e.payload), ?_⟩
      rw [← hview]
      simpa [topicView, hfirst] using hlog
    · rw [← hview]
      exact hdone
  · rintro ⟨hmark, hnext⟩ before a after rfl
    have hparts : ∀ part rest, entriesOf z topic (before ++ a :: after) = part ++ rest →
        part.length < 2 ^ 64 ∧ part.map GossipEntry.seq = wordsFrom 1 part.length := by
      intro part rest hpart
      rw [hpart] at hcount hseqs
      rw [List.length_append] at hcount
      refine ⟨by omega, ?_⟩
      rw [← hcount, wordsFrom_add, List.map_append] at hseqs
      exact (List.append_inj hseqs (by simp)).1
    obtain ⟨hlen, hbefore⟩ := hparts (entriesOf z topic before) (entriesOf z topic (a :: after))
      (entriesOf_append ..)
    obtain ⟨hlen', hupto⟩ := hparts (entriesOf z topic (before ++ [a])) (entriesOf z topic after)
      (by rw [← entriesOf_append]; simp)
    have hs := topicView_inOrder z hempty hmark hnext before hlen hbefore
    have ht := topicView_inOrder z hempty hmark hnext (before ++ [a]) hlen' hupto
    dsimp only
    rw [hs, ht]
    refine ⟨?_, hempty, rfl⟩
    simp [entriesOf_append, entriesOf_singleton]

theorem prompt_iff_ascendingArrivals :
    (loneEngine.setInitialSeq 1 0).Prompt .stored 1
      [(.any, .eager "peer" (encodeEagerMessage ⟨1, 1, [7]⟩).tail),
       (.any, .lazyBatch "peer" (writeLazyBatch .stored ⟨[⟨1, 2, [7]⟩], []⟩))] :=
  (prompt_iff .stored (loneEngine.setInitialSeq 1 0) 0 rfl 1 (by decide) 2 (by decide)
    (by decide) _ (by decide)).mpr ⟨by decide, by decide⟩

/-- A new engine buffers entry 1 and starts a timer for an entry 0. -/
theorem unprimed_not_prompt :
    let a : RangeFirst × Arrival := (.any, .eager "peer" (encodeEagerMessage ⟨1, 1, [7]⟩).tail)
    let s := (loneEngine.handleAll .stored [a]).applier.slots 1
    entriesOf .stored 1 [a] = [⟨1, 1, [7]⟩] ∧ s.delivered = [] ∧
      s.pending.lookup 1 = some [7] ∧ s.timers = [0] := by
  decide

end GossipEngine

end GossipMesh.Engine
