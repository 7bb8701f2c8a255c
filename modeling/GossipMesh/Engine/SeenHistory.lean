import GossipMesh.Engine.SeenSteps

/-!
# What concurrent callers of the seen tracker are told

Since the calls amount to whole calls taken one after the other, what holds of
whole calls holds of any interleaving: every number is accepted once, the mark
ends at the largest number offered, and outside of calls the active set covers
the marks.
-/

namespace GossipMesh.Engine

open GossipMesh.Foundation

namespace SeenTracker

/-! ## Whole calls -/

section Calls

variable {ι : Type*} {s t : SeenTracker} {e : SeenEffect ι} {topic : UInt16}

theorem serialStep_eq_some :
    s.serialStep e = some t ↔ (s.call e.call).1 = e.answer ∧ (s.call e.call).2 = t := by
  unfold serialStep
  split
  · next h => simp [h]
  · next h => simp [h]

theorem call_of_offer {call : SeenCall} {seq : UInt64} (h : call.offer topic = some seq) :
    (s.call call).1 = decide (s.slotSeqs topic < seq) ∧
      (s.call call).2.slotSeqs topic = max (s.slotSeqs topic) seq := by
  cases call with
  | shouldProcess other n =>
      simp only [SeenCall.offer] at h
      split at h
      · next heq =>
          cases h
          subst heq
          simp [call]
      · cases h
  | setTopicSeq other n => cases h

theorem call_of_no_offer {call : SeenCall} (h : call.offer topic = none)
    (hset : ∀ seq, call ≠ .setTopicSeq topic seq) :
    (s.call call).2.slotSeqs topic = s.slotSeqs topic := by
  cases call with
  | shouldProcess other n =>
      have hother : topic ≠ other := by
        rintro rfl
        simp [SeenCall.offer] at h
      simp [call, hother]
  | setTopicSeq other n =>
      have hother : topic ≠ other := by
        rintro rfl
        exact hset n rfl
      simp [call, hother]

def Covered (s : SeenTracker) : Prop := ∀ topic, 0 < s.slotSeqs topic → topic ∈ s.activeSlots

theorem covered_empty : Covered empty := by
  intro topic h
  exact absurd h (lt_irrefl _)

theorem Covered.advance (h : Covered s) {seq : UInt64}
    (hmem : 0 < seq → topic ∈ s.activeSlots) : Covered (s.advance topic seq) := by
  intro other hpos
  by_cases hother : other = topic
  · subst hother
    simp only [SeenTracker.advance, Function.update_self] at hpos
    exact hmem hpos
  · simp only [SeenTracker.advance, Function.update_of_ne hother] at hpos
    exact h other hpos

private theorem Covered.advance_markActive (h : Covered s) (topic : UInt16) (seq : UInt64) :
    Covered ((s.advance topic seq).markActive topic) := by
  have hmarked : Covered (s.markActive topic) :=
    fun other hpos => Finset.mem_insert_of_mem (h other hpos)
  exact hmarked.advance fun _ => Finset.mem_insert_self topic _

theorem Covered.call (h : Covered s) (c : SeenCall) : Covered (s.call c).2 := by
  cases c with
  | shouldProcess topic seq =>
      simp only [SeenTracker.call, shouldProcess]
      split
      · exact h
      · split
        · exact h.advance_markActive topic seq
        · next hne =>
            have hpos : 0 < s.slotSeqs topic :=
              lt_of_le_of_ne UInt64.zero_le (Ne.symm hne)
            exact h.advance fun _ => h topic hpos
  | setTopicSeq topic seq =>
      simp only [SeenTracker.call, setTopicSeq]
      split
      · exact h.advance_markActive topic seq
      · next hzero => exact h.advance fun hpos => absurd hpos hzero

theorem highWaterMarks_of_covered (h : Covered s) {order : List UInt16}
    (horder : s.IterationOrder order) :
    (s.highWaterMarks order).Nodup ∧
      ∀ m, m ∈ s.highWaterMarks order ↔ 0 < s.slotSeqs m.topic ∧ m.seq = s.slotSeqs m.topic := by
  obtain ⟨hnodup, hactive⟩ := horder
  constructor
  · refine hnodup.filterMap fun first second m hfirst hsecond => ?_
    simp only [Option.mem_def] at hfirst hsecond
    split at hfirst
    · cases hfirst
      split at hsecond
      · exact (congrArg TopicSeq.topic (Option.some.inj hsecond)).symm
      · cases hsecond
    · cases hfirst
  · intro m
    refine ⟨fun hm => ⟨?_, mem_highWaterMarks hm⟩, ?_⟩
    · obtain ⟨topic, -, hm⟩ := List.mem_filterMap.mp hm
      split at hm
      · next hpos =>
          cases hm
          exact hpos
      · cases hm
    · rintro ⟨hpos, hseq⟩
      have hmem : m.topic ∈ order := by
        rw [← List.mem_toFinset, hactive]
        exact h m.topic hpos
      refine List.mem_filterMap.mpr ⟨m.topic, hmem, ?_⟩
      rw [if_pos hpos, ← hseq]

end Calls

/-! ## Runs of whole calls -/

section Runs

variable {ι : Type*} {s t : SeenTracker} {effects : List (SeenEffect ι)} {topic : UInt16}

def offered (topic : UInt16) (effects : List (SeenEffect ι)) : List UInt64 :=
  effects.filterMap fun e => e.call.offer topic

def acceptedOn (topic : UInt16) (effects : List (SeenEffect ι)) : List UInt64 :=
  offered topic (effects.filter SeenEffect.answer)

theorem offered_snoc (effects : List (SeenEffect ι)) (e : SeenEffect ι) :
    offered topic (effects ++ [e]) = offered topic effects ++ (e.call.offer topic).toList := by
  cases hoffer : e.call.offer topic <;> simp [offered, hoffer]

theorem acceptedOn_snoc (effects : List (SeenEffect ι)) (e : SeenEffect ι) :
    acceptedOn topic (effects ++ [e]) =
      acceptedOn topic effects ++ if e.answer then (e.call.offer topic).toList else [] := by
  unfold acceptedOn
  cases hanswer : e.answer
  · simp [hanswer]
  · rw [List.filter_append, List.filter_cons_of_pos hanswer, List.filter_nil, offered_snoc,
      if_pos rfl]

theorem offered_prefix_snoc [DecidableEq ι] (i : ι) (effects : List (SeenEffect ι))
    (e : SeenEffect ι) :
    offered topic (effects.filter fun e => e.caller = i) <+:
      offered topic ((effects ++ [e]).filter fun e => e.caller = i) := by
  rw [List.filter_append, offered, offered, List.filterMap_append]
  exact List.prefix_append _ _

structure Offers (topic : UInt16) (start : UInt64) (effects : List (SeenEffect ι))
    (s : SeenTracker) : Prop where
  greatest : IsGreatest (insert start {seq | seq ∈ offered topic effects}) (s.slotSeqs topic)
  increasing : (acceptedOn topic effects).Pairwise (· < ·)
  below : ∀ seq ∈ acceptedOn topic effects, seq ≤ s.slotSeqs topic

private theorem Offers.step {start : UInt64} (h : Offers topic start effects s) {e : SeenEffect ι}
    (hset : ∀ seq, e.call ≠ .setTopicSeq topic seq) (hstep : s.serialStep e = some t) :
    Offers topic start (effects ++ [e]) t := by
  obtain ⟨hanswer, rfl⟩ := serialStep_eq_some.mp hstep
  cases hoffer : e.call.offer topic with
  | none =>
      have hsame := call_of_no_offer (s := s) hoffer hset
      refine ⟨?_, ?_, ?_⟩
      · rw [hsame, offered_snoc, hoffer, Option.toList_none, List.append_nil]
        exact h.greatest
      · simpa [acceptedOn_snoc, hoffer] using h.increasing
      · simpa [acceptedOn_snoc, hoffer, hsame] using h.below
  | some seq =>
      obtain ⟨hwins, hmark⟩ := call_of_offer (s := s) hoffer
      rw [hanswer] at hwins
      refine ⟨?_, ?_, ?_⟩
      · rw [hmark, offered_snoc, hoffer, Option.toList_some]
        have hset' : insert start {n | n ∈ offered topic effects ++ [seq]} =
            insert seq (insert start {n | n ∈ offered topic effects}) := by
          ext n
          simp [or_comm, or_left_comm]
        rw [hset', max_comm]
        exact h.greatest.insert seq
      · rw [acceptedOn_snoc, hoffer, hwins]
        by_cases hlt : s.slotSeqs topic < seq
        · simp only [hlt, decide_true, if_true, Option.toList_some]
          rw [List.pairwise_append]
          refine ⟨h.increasing, List.pairwise_singleton _ _, fun a ha c hc => ?_⟩
          rw [List.mem_singleton.mp hc]
          exact lt_of_le_of_lt (h.below a ha) hlt
        · simpa [hlt] using h.increasing
      · rw [acceptedOn_snoc, hoffer, hwins, hmark]
        intro a ha
        rcases List.mem_append.mp ha with hold | hnew
        · exact le_max_of_le_left (h.below a hold)
        · split at hnew
          · rw [List.mem_singleton.mp hnew]
            exact le_max_right _ _
          · cases hnew

theorem offers_run (hset : ∀ e ∈ effects, ∀ seq, e.call ≠ .setTopicSeq topic seq)
    (hrun : exec serialStep s effects = some t) :
    Offers topic (s.slotSeqs topic) effects t := by
  refine exec_history_invariant (P := fun _ e => ∀ seq, e.call ≠ .setTopicSeq topic seq)
    (Offers topic (s.slotSeqs topic)) ?_ ?_ (along_of_forall hset) hrun
  · exact ⟨by simp [offered], .nil, by simp [acceptedOn, offered]⟩
  · exact fun before u e v _ hu he hstep => hu.step he hstep

theorem covered_run (h : Covered s) (hrun : exec serialStep s effects = some t) : Covered t := by
  refine exec_invariant Covered (fun u e v hu hstep => ?_) h hrun
  obtain ⟨-, rfl⟩ := serialStep_eq_some.mp hstep
  exact hu.call e.call

theorem acceptedOn_eq [DecidableEq ι] {n : Nat} (hn : n < 2 ^ 64)
    (hset : ∀ e ∈ effects, ∀ seq, e.call ≠ .setTopicSeq topic seq)
    (hzero : s.slotSeqs topic = 0)
    (hprograms : ∀ i, offered topic (effects.filter fun e => e.caller = i) <+: wordsFrom 1 n)
    (hrun : exec serialStep s effects = some t) :
    acceptedOn topic effects = wordsFrom 1 (t.slotSeqs topic).toNat := by
  induction effects using List.reverseRecOn generalizing t with
  | nil =>
      cases hrun
      simp [acceptedOn, offered, hzero, wordsFrom]
  | append_singleton effects e ih =>
      obtain ⟨u, hbefore, hstep⟩ := exec_snoc_eq_some.mp hrun
      have hset' : ∀ e ∈ effects, ∀ seq, e.call ≠ .setTopicSeq topic seq :=
        fun e he => hset e (List.mem_append_left _ he)
      have haccepted := ih hset' (fun i => (offered_prefix_snoc i effects e).trans (hprograms i))
        hbefore
      obtain ⟨hanswer, rfl⟩ := serialStep_eq_some.mp hstep
      rw [acceptedOn_snoc, haccepted]
      cases hoffer : e.call.offer topic with
      | none =>
          rw [call_of_no_offer hoffer (hset e (by simp))]
          simp
      | some seq =>
          obtain ⟨hwins, hmark⟩ := call_of_offer (s := u) hoffer
          rw [← hanswer, hwins, hmark]
          by_cases hlt : u.slotSeqs topic < seq
          · have hcaller := hprograms e.caller
            rw [List.filter_append, List.filter_cons_of_pos (by simp), List.filter_nil,
              offered_snoc, hoffer, Option.toList_some] at hcaller
            have hbelow : ∀ word ∈ offered topic (effects.filter fun e' => e'.caller = e.caller),
                word ≤ u.slotSeqs topic := fun word hword =>
              (offers_run hset' hbefore).greatest.2
                (.inr ((List.filter_sublist.filterMap _).subset hword))
            rw [max_eq_right (le_of_lt hlt), ← wordsFrom_snoc_of_lt hn hcaller hbelow hlt]
            simp [hlt]
          · rw [max_eq_left (not_lt.mp hlt)]
            simp [hlt]

end Runs

end SeenTracker

/-! ## Interleaved calls -/

theorem SeenCall.offer_eq_some {call : SeenCall} {topic : UInt16} {seq : UInt64} :
    call.offer topic = some seq ↔ call = .shouldProcess topic seq := by
  cases call with
  | shouldProcess other n =>
      by_cases hother : other = topic
      · simp [offer, hother]
      · simp [offer, hother]
  | setTopicSeq other n => simp [offer]

namespace SeenSystem

open SeenTracker

variable {ι : Type*} [DecidableEq ι] {tracker : SeenTracker} {programs : ι → List SeenCall}
  {s : SeenSystem ι} {topic : UInt16}

theorem Linearized.call_mem (hs : Linearized tracker programs s) {e : SeenEffect ι}
    (he : e ∈ s.effects) : e.call ∈ programs e.caller := by
  have hresult : (e.call, e.answer) ∈ resultsOf e.caller s.effects :=
    List.mem_map.mpr ⟨e, by simpa using he, rfl⟩
  rw [hs.answered] at hresult
  rw [← hs.ahead]
  exact List.mem_append_left _ (List.mem_map.mpr ⟨_, hresult, rfl⟩)

private theorem Linearized.offers (hs : Linearized tracker programs s) (i : ι) :
    offered topic (s.effects.filter fun e => e.caller = i) ++
        (s.callers i).ahead.filterMap (SeenCall.offer topic) =
      (programs i).filterMap (SeenCall.offer topic) := by
  rw [← hs.ahead i, List.filterMap_append, ← hs.answered i, resultsOf, List.map_map,
    List.filterMap_map]
  rfl

def Finished (s : SeenSystem ι) : Prop := ∀ i, (s.callers i).calls = []

theorem Linearized.offers_of_finished (hs : Linearized tracker programs s)
    (hfinished : s.Finished) (i : ι) :
    offered topic (s.effects.filter fun e => e.caller = i) =
      (programs i).filterMap (SeenCall.offer topic) := by
  have hahead : (s.callers i).ahead = [] := by
    unfold Caller.ahead
    split <;> simp [hfinished i]
  rw [← hs.offers i, hahead, List.filterMap_nil, List.append_nil]

private theorem Linearized.mem_offered_iff (hs : Linearized tracker programs s)
    (hfinished : s.Finished) {seq : UInt64} :
    seq ∈ offered topic s.effects ↔ ∃ i, .shouldProcess topic seq ∈ programs i := by
  constructor
  · intro hseq
    obtain ⟨e, he, hoffer⟩ := List.mem_filterMap.mp hseq
    refine ⟨e.caller, ?_⟩
    rw [← SeenCall.offer_eq_some.mp hoffer]
    exact hs.call_mem he
  · rintro ⟨i, hmem⟩
    have hseq : seq ∈ (programs i).filterMap (SeenCall.offer topic) :=
      List.mem_filterMap.mpr ⟨_, hmem, SeenCall.offer_eq_some.mpr rfl⟩
    rw [← hs.offers_of_finished hfinished i] at hseq
    exact (List.filter_sublist.filterMap _).subset hseq

/--
Any number of callers of `ShouldProcess` on a topic nobody resets.  Accepted
numbers increase, and each caller was told what its calls did to the mark; when
all have returned the mark is the largest number there was; and if all callers
offer the numbers up to `n` to an unused topic, each is accepted once.
-/
theorem accepted_once (tracker : SeenTracker) (programs : ι → List SeenCall) (topic : UInt16)
    (hset : ∀ i seq, .setTopicSeq topic seq ∉ programs i) (labels : List ι) (s : SeenSystem ι)
    (hrun : exec SeenSystem.step (start tracker programs) labels = some s) :
    (acceptedOn topic s.effects).Pairwise (· < ·) ∧
    (∀ i, (s.callers i).stage = .start → (s.callers i).results = resultsOf i s.effects) ∧
    (s.Finished → IsGreatest
      (insert (tracker.slotSeqs topic) {seq | ∃ i, .shouldProcess topic seq ∈ programs i})
      (s.tracker.slotSeqs topic)) ∧
    ∀ n < 2 ^ 64, tracker.slotSeqs topic = 0 → Nonempty ι →
      (∀ i, (programs i).filterMap (SeenCall.offer topic) = wordsFrom 1 n) → s.Finished →
      acceptedOn topic s.effects = wordsFrom 1 n := by
  have hs := linearized_run hrun
  obtain ⟨w, hw, hslots, -⟩ := hs.serial
  have hnoset : ∀ e ∈ s.effects, ∀ seq, e.call ≠ .setTopicSeq topic seq := by
    intro e he seq hcall
    exact hset e.caller seq (hcall ▸ hs.call_mem he)
  have hoffers := offers_run hnoset hw
  have hgreatest := hoffers.greatest
  rw [hslots] at hgreatest
  refine ⟨hoffers.increasing, ?_, ?_, ?_⟩
  · intro i hstage
    rw [hs.answered, Caller.answered, hstage]
  · intro hfinished
    simp only [hs.mem_offered_iff hfinished] at hgreatest
    exact hgreatest
  · rintro n hn hzero ⟨i⟩ hprograms hfinished
    have hoffered : ∀ j, offered topic (s.effects.filter fun e => e.caller = j) = wordsFrom 1 n :=
      fun j => (hs.offers_of_finished hfinished j).trans (hprograms j)
    have hmark : (s.tracker.slotSeqs topic).toNat = n := by
      apply le_antisymm
      · rcases hgreatest.1 with hstart | hmem
        · rw [hstart, hzero]
          exact Nat.zero_le _
        · obtain ⟨j, hj⟩ := (hs.mem_offered_iff hfinished).mp hmem
          apply toNat_le_of_mem_wordsFrom hn
          rw [← hprograms j]
          exact List.mem_filterMap.mpr ⟨_, hj, SeenCall.offer_eq_some.mpr rfl⟩
      · refine le_toNat_of_wordsFrom hn fun word hword => hgreatest.2 (.inr ?_)
        rw [← hoffered i] at hword
        exact (List.filter_sublist.filterMap _).subset hword
    rw [acceptedOn_eq hn hnoset hzero (fun j => by rw [hoffered j]) hw, hslots, hmark]

def offerTwice (_ : Bool) : List SeenCall := [.shouldProcess 3 1, .shouldProcess 3 2]

def lostSwap : List Bool :=
  -- two callers offer 1 and 2; the second loses its first swap
  [false, true, false, true, true, false, false, true, false, true, false, false]

theorem accepted_once_lostSwap :
    ∃ s, exec SeenSystem.step (start .empty offerTwice) lostSwap = some s ∧
      acceptedOn 3 s.effects = [1, 2] := by
  have hsome : (exec SeenSystem.step (start .empty offerTwice) lostSwap).isSome := by decide
  obtain ⟨s, hrun⟩ := Option.isSome_iff_exists.mp hsome
  have hend : ∀ s, exec SeenSystem.step (start .empty offerTwice) lostSwap = some s →
      ∀ i, (s.callers i).calls = [] := by
    decide
  have honce := (accepted_once .empty offerTwice 3 (by simp [offerTwice]) lostSwap s hrun).2.2.2
    2 (by decide) rfl ⟨true⟩ (by decide) (hend s hrun)
  exact ⟨s, hrun, honce⟩

/--
Outside of calls, `HighWaterMarks` lists every topic that has a mark once, with
its mark.
-/
theorem highWaterMarks_exact (programs : ι → List SeenCall) (labels : List ι)
    (s : SeenSystem ι) (hrun : exec SeenSystem.step (start .empty programs) labels = some s)
    (hidle : ∀ i, (s.callers i).stage = .start) (order : List UInt16)
    (horder : s.tracker.IterationOrder order) :
    (s.tracker.highWaterMarks order).Nodup ∧
      ∀ m, m ∈ s.tracker.highWaterMarks order ↔
        0 < s.tracker.slotSeqs m.topic ∧ m.seq = s.tracker.slotSeqs m.topic := by
  obtain ⟨w, hw, hslots, hactive⟩ := (linearized_run hrun).serial
  have hcovered : s.tracker.Covered := by
    intro topic hpos
    rw [← hslots] at hpos
    rcases (hactive topic).mp (covered_run covered_empty hw topic hpos) with hmem | ⟨i, hmarking⟩
    · exact hmem
    · simp [Caller.marking, hidle i] at hmarking
  exact highWaterMarks_of_covered hcovered horder

def resetBetween : Bool → List SeenCall
  -- one caller raises a topic that another resets and raises again
  | false => [.shouldProcess 3 5, .shouldProcess 4 1]
  | true => [.setTopicSeq 3 0, .setTopicSeq 3 2]

def resetBetweenSteps : List Bool :=
  [false, false, true, false, true, false, true, false, false, false, false]

theorem highWaterMarks_exact_resetBetween :
    ∃ s, exec SeenSystem.step (start .empty resetBetween) resetBetweenSteps = some s ∧
      s.tracker.highWaterMarks [4, 3] = [⟨4, 1⟩, ⟨3, 2⟩] ∧
      ∀ m, m ∈ s.tracker.highWaterMarks [4, 3] ↔
        0 < s.tracker.slotSeqs m.topic ∧ m.seq = s.tracker.slotSeqs m.topic := by
  have hsome : (exec SeenSystem.step (start .empty resetBetween) resetBetweenSteps).isSome := by
    decide
  obtain ⟨s, hrun⟩ := Option.isSome_iff_exists.mp hsome
  have hend : ∀ s, exec SeenSystem.step (start .empty resetBetween) resetBetweenSteps = some s →
      (∀ i, (s.callers i).stage = .start) ∧ s.tracker.IterationOrder [4, 3] ∧
        s.tracker.highWaterMarks [4, 3] = [⟨4, 1⟩, ⟨3, 2⟩] := by
    decide
  obtain ⟨hidle, horder, hmarks⟩ := hend s hrun
  obtain ⟨-, hexact⟩ := highWaterMarks_exact resetBetween resetBetweenSteps s hrun hidle [4, 3]
    horder
  exact ⟨s, hrun, hmarks, hexact⟩

end SeenSystem

end GossipMesh.Engine
