import GossipMesh.Engine.Ordered

/-!
# Progress of the ordered applier

`nextSeq` is meant to move forward only.  The large-gap branch of `Receive`
moves it past entries that may still be buffered, and `skipGap` later takes the
smallest buffered entry without comparing it to `nextSeq`.  A slot moves
forward in every step but a skip to an entry below `nextSeq`, and as long as
it moves forward no sequence number is delivered twice.
-/

namespace GossipMesh.Engine

open GossipMesh.Foundation

namespace Slot

variable {maxGapBuffer : Nat} {s t : Slot}

structure Progress (maxGapBuffer : Nat) (s : Slot) : Prop where
  upper : ∀ k ∈ s.pending, k.toNat ≤ s.nextSeq.toNat + maxGapBuffer
  below : ∀ k ∈ s.pending, k < maxUint64
  waiting : ∀ e, e ∈ s.timers ∨ e ∈ s.repairs → e ≤ s.nextSeq
  sorted : (s.delivered.map Prod.fst).Pairwise (· < ·)
  past : ∀ k ∈ s.delivered.map Prod.fst, k < s.nextSeq

theorem progress_fresh (nextSeq : UInt64) :
    Progress maxGapBuffer (fresh nextSeq) := by
  constructor <;> simp [fresh, Finmap.notMem_empty]

theorem Progress.advance (h : Progress maxGapBuffer s) {seq : UInt64}
    (hle : s.nextSeq ≤ seq) : Progress maxGapBuffer { s with nextSeq := seq } where
  upper k hk := by
    have := h.upper k hk
    have := UInt64.le_iff_toNat_le.mp hle
    simp only
    omega
  below := h.below
  waiting e he := le_trans (h.waiting e he) hle
  sorted := h.sorted
  past k hk := lt_of_lt_of_le (h.past k hk) hle

theorem Progress.deliverAt (h : Progress maxGapBuffer s) {seq : UInt64}
    (hle : s.nextSeq ≤ seq) (hmax : seq < maxUint64) (payload : Payload) :
    Progress maxGapBuffer { s.deliver seq payload with nextSeq := seq + 1 } := by
  have hup : s.nextSeq ≤ seq + 1 := le_trans hle (le_of_lt (lt_succ_self hmax))
  have hnext := h.advance hup
  refine ⟨hnext.upper, hnext.below, hnext.waiting, ?_, ?_⟩
  · simp only [deliver, List.map_append, List.pairwise_append]
    refine ⟨h.sorted, by simp, fun a ha b hb => ?_⟩
    obtain rfl : b = seq := by simpa using hb
    exact lt_of_lt_of_le (h.past a ha) hle
  · intro k hk
    simp only [deliver, List.map_append, List.mem_append] at hk
    rcases hk with hold | hnew
    · exact hnext.past k hold
    · obtain rfl : k = seq := by simpa using hnew
      exact lt_succ_self hmax

theorem Progress.drainOne (h : Progress maxGapBuffer s) {val : Payload}
    (hlookup : s.pending.lookup s.nextSeq = some val) :
    Progress maxGapBuffer (s.drainOne val) := by
  have hmax := h.below _ (Finmap.mem_of_lookup_eq_some hlookup)
  obtain ⟨hupper, hbelow, hwaiting, hsorted, hpast⟩ :=
    h.deliverAt (le_refl _) hmax val
  exact ⟨fun k hk => hupper k (Finmap.mem_erase.mp hk).2,
    fun k hk => hbelow k (Finmap.mem_erase.mp hk).2, hwaiting, hsorted, hpast⟩

theorem Progress.startGapTimer (h : Progress maxGapBuffer s) :
    Progress maxGapBuffer (s.startGapTimer s.nextSeq) where
  upper := by simpa using h.upper
  below := by simpa using h.below
  waiting e he := by
    rw [startGapTimer_nextSeq]
    rcases he with he | he
    · rcases mem_startGapTimer_timers he with rfl | hold
      · exact le_refl _
      · exact h.waiting e (.inl hold)
    · exact h.waiting e (.inr (by simpa using he))
  sorted := by simpa using h.sorted
  past := by simpa using h.past

theorem Progress.drainPending (h : Progress maxGapBuffer s) :
    Progress maxGapBuffer s.drainPending ∧
      s.nextSeq ≤ s.drainPending.nextSeq := by
  refine drainPending_induct
    (fun t => Progress maxGapBuffer t ∧ s.nextSeq ≤ t.nextSeq) ?_ ?_
    ⟨h, le_refl _⟩
  · rintro t val ⟨ht, hle⟩ hlookup
    have hmax := ht.below _ (Finmap.mem_of_lookup_eq_some hlookup)
    exact ⟨ht.drainOne hlookup, le_trans hle (le_of_lt (lt_succ_self hmax))⟩
  · rintro t ⟨ht, hle⟩ - -
    exact ⟨ht.startGapTimer, by simpa using hle⟩

theorem Progress.store (h : Progress maxGapBuffer s) {seq : UInt64}
    (hmax : seq < maxUint64)
    (hhigh : seq.toNat ≤ s.nextSeq.toNat + maxGapBuffer) (payload : Payload) :
    Progress maxGapBuffer { s with pending := s.pending.insert seq payload } where
  upper k hk := by
    rcases Finmap.mem_insert.mp hk with rfl | hold
    · exact hhigh
    · exact h.upper k hold
  below k hk := by
    rcases Finmap.mem_insert.mp hk with rfl | hold
    · exact hmax
    · exact h.below k hold
  waiting := h.waiting
  sorted := h.sorted
  past := h.past

theorem Progress.receive (h : Progress maxGapBuffer s) {seq : UInt64}
    (hmax : seq < maxUint64) (payload : Payload) :
    Progress maxGapBuffer (s.receive maxGapBuffer seq payload) ∧
      s.nextSeq ≤ (s.receive maxGapBuffer seq payload).nextSeq := by
  have hdeliver : ∀ {j : UInt64}, s.nextSeq ≤ j → j < maxUint64 →
      Progress maxGapBuffer
        { s.deliver j payload with nextSeq := j + 1 }.drainPending ∧
      s.nextSeq ≤
        { s.deliver j payload with nextSeq := j + 1 }.drainPending.nextSeq := by
    intro j hle hj
    obtain ⟨hprogress, hnext⟩ := (h.deliverAt hle hj payload).drainPending
    exact ⟨hprogress,
      le_trans (le_trans hle (le_of_lt (lt_succ_self hj))) hnext⟩
  rcases receive_cases maxGapBuffer s seq payload with
    ⟨-, heq⟩ | ⟨-, hhigh, heq⟩ | ⟨hjump, heq⟩ | ⟨rfl, heq⟩
  · rw [heq]
    exact ⟨h, le_refl _⟩
  · rw [heq]
    exact ⟨(h.store hmax hhigh payload).startGapTimer, by simp⟩
  · rw [heq]
    refine hdeliver ?_ hmax
    rw [UInt64.le_iff_toNat_le]
    omega
  · rw [heq]
    exact hdeliver (le_refl _) hmax

theorem Progress.leaveRepair (h : Progress maxGapBuffer s) (missing : UInt64) :
    Progress maxGapBuffer { s with repairs := s.repairs.erase missing } where
  upper := h.upper
  below := h.below
  waiting e he := h.waiting e (he.imp id List.mem_of_mem_erase)
  sorted := h.sorted
  past := h.past

theorem Progress.expire (h : Progress maxGapBuffer s) {e : UInt64}
    (hmem : e ∈ s.timers) : Progress maxGapBuffer (s.expire e) where
  upper := by simpa using h.upper
  below := by simpa using h.below
  waiting j hj := by
    rw [expire_nextSeq]
    exact h.waiting j (mem_expire_waiting hmem hj)
  sorted := by simpa using h.sorted
  past := by simpa using h.past

theorem Progress.skipGap (h : Progress maxGapBuffer s)
    (hforward : ∀ k ∈ s.pending, s.nextSeq ≤ k) :
    Progress maxGapBuffer s.skipGap ∧ s.nextSeq ≤ s.skipGap.nextSeq := by
  rcases skipGap_cases s with ⟨-, heq⟩ | ⟨least, hmem, -, -, heq⟩
  · rw [heq]
    exact ⟨h, le_refl _⟩
  · rw [heq]
    obtain ⟨hprogress, hnext⟩ :=
      (h.advance (hforward least hmem)).drainPending
    exact ⟨hprogress, le_trans (hforward least hmem) hnext⟩

def BelowMax (a : Action) : Prop :=
  match a with
  | .receive seq _ | .repairReply seq _ => seq < maxUint64
  | .setNextSeq _ => False
  | .expire _ | .repairFail _ => True

instance : DecidablePred BelowMax
  | .receive seq _ | .repairReply seq _ =>
      inferInstanceAs (Decidable (seq < maxUint64))
  | .setNextSeq _ => isFalse not_false
  | .expire _ | .repairFail _ => isTrue trivial

/-- A skip is taken only while no buffered entry lies below `nextSeq`. -/
def SkipsForward (s : Slot) (a : Action) : Prop :=
  match a with
  | .repairFail _ => ∀ k ∈ s.pending, s.nextSeq ≤ k
  | .receive _ _ | .setNextSeq _ | .expire _ | .repairReply _ _ => True

instance (s : Slot) : DecidablePred (SkipsForward s)
  | .repairFail _ =>
      have : Decidable (∀ k ∈ s.pending.keys, s.nextSeq ≤ k) :=
        Finset.decidableDforallFinset
      decidable_of_iff (∀ k ∈ s.pending.keys, s.nextSeq ≤ k)
        (by simp [SkipsForward, Finmap.mem_keys])
  | .receive _ _ | .setNextSeq _ | .expire _ | .repairReply _ _ => isTrue trivial

theorem Progress.step (h : Progress maxGapBuffer s) {a : Action}
    (hbelow : BelowMax a) (hskip : SkipsForward s a)
    (hstep : s.step maxGapBuffer a = some t) :
    Progress maxGapBuffer t ∧ s.nextSeq ≤ t.nextSeq := by
  obtain ⟨seq, payload, rfl, rfl⟩ | ⟨seq, rfl, rfl⟩ | ⟨e, hmem, rfl, rfl⟩ |
    ⟨missing, -, payload, rfl, rfl⟩ | ⟨missing, -, rfl, rfl⟩ := step_cases hstep
  · exact h.receive hbelow payload
  · exact hbelow.elim
  · exact ⟨h.expire hmem, by simp⟩
  · exact (h.leaveRepair missing).receive hbelow payload
  · exact (h.leaveRepair missing).skipGap hskip

/-! ## A skip below `nextSeq` moves back -/

/-- Between steps neither `nextSeq` nor its predecessor is buffered. -/
structure Settled (s : Slot) : Prop where
  next : s.nextSeq ∉ s.pending
  prev : ∀ k ∈ s.pending, k + 1 ≠ s.nextSeq

theorem settled_fresh (nextSeq : UInt64) : Settled (fresh nextSeq) := by
  constructor <;> simp [fresh, Finmap.notMem_empty]

theorem settled_drainPending (h : ∀ k ∈ s.pending, k + 1 ≠ s.nextSeq) :
    Settled s.drainPending := by
  refine ⟨drainPending_nextSeq_notMem s, ?_⟩
  refine drainPending_induct (fun t => ∀ k ∈ t.pending, k + 1 ≠ t.nextSeq)
    ?_ ?_ h
  · intro t val _ _ k hk heq
    obtain ⟨hne, -⟩ := Finmap.mem_erase.mp hk
    exact hne ((UInt64.add_left_inj _).mp heq)
  · intro t ht _ _
    simpa using ht

theorem Settled.receive (hsettled : Settled s) (h : Progress maxGapBuffer s)
    {seq : UInt64} (hmax : seq < maxUint64) (payload : Payload) :
    Settled (s.receive maxGapBuffer seq payload) := by
  rcases receive_cases maxGapBuffer s seq payload with
    ⟨-, heq⟩ | ⟨hlow, -, heq⟩ | ⟨hjump, heq⟩ | ⟨rfl, heq⟩
  · rw [heq]
    exact hsettled
  · rw [heq]
    refine ⟨?_, ?_⟩
    · simp only [startGapTimer_nextSeq, startGapTimer_pending, Finmap.mem_insert]
      rintro (rfl | hold)
      · exact lt_irrefl _ hlow
      · exact hsettled.next hold
    · simp only [startGapTimer_nextSeq, startGapTimer_pending, Finmap.mem_insert]
      rintro k (rfl | hold)
      · exact ne_of_gt (lt_trans hlow (lt_succ_self hmax))
      · exact hsettled.prev k hold
  · rw [heq]
    refine settled_drainPending fun k hk hsucc => ?_
    have hkseq : k = seq := (UInt64.add_left_inj _).mp hsucc
    have := h.upper k hk
    rw [hkseq] at this
    omega
  · rw [heq]
    refine settled_drainPending fun k hk hsucc => ?_
    have hkseq : k = s.nextSeq := (UInt64.add_left_inj _).mp hsucc
    exact hsettled.next (hkseq ▸ hk)

private theorem Settled.skipGap (hsettled : Settled s) (h : Progress maxGapBuffer s) :
    Settled s.skipGap := by
  rcases skipGap_cases s with ⟨-, heq⟩ | ⟨least, -, -, hleast, heq⟩
  · rw [heq]
    exact hsettled
  · rw [heq]
    refine settled_drainPending fun k hk => ?_
    exact ne_of_gt (lt_of_le_of_lt (hleast k hk) (lt_succ_self (h.below k hk)))

theorem Settled.leaveRepair (hsettled : Settled s) (missing : UInt64) :
    Settled { s with repairs := s.repairs.erase missing } :=
  ⟨hsettled.next, hsettled.prev⟩

theorem Settled.step (hsettled : Settled s) (h : Progress maxGapBuffer s)
    {a : Action} (hbelow : BelowMax a)
    (hstep : s.step maxGapBuffer a = some t) : Settled t := by
  obtain ⟨seq, payload, rfl, rfl⟩ | ⟨seq, rfl, rfl⟩ | ⟨e, -, rfl, rfl⟩ |
    ⟨missing, -, payload, rfl, rfl⟩ | ⟨missing, -, rfl, rfl⟩ := step_cases hstep
  · exact hsettled.receive h hbelow payload
  · exact hbelow.elim
  · exact ⟨by simpa using hsettled.next, by simpa using hsettled.prev⟩
  · exact (hsettled.leaveRepair missing).receive (h.leaveRepair missing)
      hbelow payload
  · exact (hsettled.leaveRepair missing).skipGap (h.leaveRepair missing)

private theorem skipGap_nextSeq_lt (hsettled : Settled s) (h : Progress maxGapBuffer s)
    {k : UInt64} (hk : k ∈ s.pending) (hlt : k < s.nextSeq) :
    s.skipGap.nextSeq < s.nextSeq := by
  -- with an entry buffered below `nextSeq` a skip ends below it: the drain that follows would
  -- have to deliver the predecessor of `nextSeq` to get back
  rcases skipGap_cases s with ⟨hall, -⟩ | ⟨least, -, -, hleast, heq⟩
  · exact absurd (hall k hk) (ne_of_lt (h.below k hk))
  · rw [heq]
    have hkeep := drainPending_induct
      (fun t => t.nextSeq < s.nextSeq ∧ ∀ j ∈ t.pending, j ∈ s.pending) ?_ ?_
      (s := { s with nextSeq := least })
      ⟨lt_of_le_of_lt (hleast k hk) hlt, fun j hj => hj⟩
    · exact hkeep.1
    · rintro t val ⟨hbelow, hsub⟩ hlookup
      have hmem := hsub _ (Finmap.mem_of_lookup_eq_some hlookup)
      refine ⟨lt_of_le_of_ne ?_ (hsettled.prev _ hmem),
        fun j hj => hsub j (Finmap.mem_erase.mp hj).2⟩
      exact (succ_le_iff (h.below _ hmem)).mpr hbelow
    · rintro t ⟨hbelow, hsub⟩ - -
      exact ⟨by simpa using hbelow, by simpa using hsub⟩

def MovesForward (maxGapBuffer : Nat) (s : Slot) (a : Action) : Prop :=
  ∀ t, s.step maxGapBuffer a = some t → s.nextSeq ≤ t.nextSeq

private theorem movesForward_iff_skipsForward (hsettled : Settled s)
    (h : Progress maxGapBuffer s) {a : Action} (hbelow : BelowMax a)
    (hstep : s.step maxGapBuffer a = some t) :
    MovesForward maxGapBuffer s a ↔ SkipsForward s a := by
  constructor
  · intro hforward
    obtain ⟨seq, payload, rfl, -⟩ | ⟨seq, rfl, -⟩ | ⟨e, -, rfl, -⟩ |
      ⟨missing, -, payload, rfl, -⟩ | ⟨missing, -, rfl, rfl⟩ := step_cases hstep
    case inr.inr.inr.inr =>
      intro k hk
      by_contra hlt
      have hback := skipGap_nextSeq_lt (hsettled.leaveRepair missing)
        (h.leaveRepair missing) hk (not_le.mp hlt)
      exact absurd (hforward _ hstep) (not_le.mpr hback)
    all_goals trivial
  · intro hskip u hu
    exact (h.step hbelow hskip hu).2

theorem along_movesForward_iff {acts : List Action} (hsettled : Settled s)
    (h : Progress maxGapBuffer s)
    (hbelow : Along (Slot.step maxGapBuffer) (fun _ a => BelowMax a) s acts)
    (hrun : exec (Slot.step maxGapBuffer) s acts = some t) :
    Along (Slot.step maxGapBuffer) (MovesForward maxGapBuffer) s acts ↔
      Along (Slot.step maxGapBuffer) SkipsForward s acts := by
  induction acts generalizing s with
  | nil => simp
  | cons a acts ih =>
      obtain ⟨u, hstep, hrest⟩ := exec_cons_eq_some.mp hrun
      simp only [Along, hstep, Option.some.injEq, forall_eq',
        movesForward_iff_skipsForward hsettled h hbelow.1 hstep]
      -- `Progress` survives this step only under the condition just compared
      refine and_congr_right fun hskip => ?_
      exact ih (hsettled.step h hbelow.1 hstep)
        (h.step hbelow.1 hskip hstep).1 (hbelow.2 u hstep) hrest

theorem progress_of_run {acts : List Action} (h : Progress maxGapBuffer s)
    (hbelow : Along (Slot.step maxGapBuffer) (fun _ a => BelowMax a) s acts)
    (hskip : Along (Slot.step maxGapBuffer) SkipsForward s acts)
    (hrun : exec (Slot.step maxGapBuffer) s acts = some t) :
    Progress maxGapBuffer t := by
  refine exec_invariant_of_along (P := fun s a => BelowMax a ∧ SkipsForward s a)
    (Progress maxGapBuffer) ?_ h (hbelow.and hskip) hrun
  intro s a t hs ha hstep
  exact (hs.step ha.1 ha.2 hstep).1

end Slot

namespace OrderedApplier

def NeverDecreases (topic : UInt16) (o : OrderedApplier)
    (acts : List (UInt16 × Action)) : Prop :=
  Along step (fun p act => ∀ q, p.step act = some q →
    (p.slots topic).nextSeq ≤ (q.slots topic).nextSeq) o acts

private theorem neverDecreases_iff {topic : UInt16} {o o' : OrderedApplier}
    {acts : List (UInt16 × Action)} (hrun : exec step o acts = some o') :
    NeverDecreases topic o acts ↔
      Along (Slot.step o.maxGapBuffer) (Slot.MovesForward o.maxGapBuffer)
        (o.slots topic) (acts.filterMap (ofTopic topic)) := by
  rw [← along_slot_iff topic Slot.MovesForward hrun]
  have hsame : ∀ (p : OrderedApplier) (act : UInt16 × Action),
      (∀ q, p.step act = some q →
        (p.slots topic).nextSeq ≤ (q.slots topic).nextSeq) ↔
      (act.1 = topic →
        Slot.MovesForward p.maxGapBuffer (p.slots topic) act.2) := by
    intro p act
    constructor
    · rintro h rfl t ht
      have := h (p.setSlot act.1 t) (step_eq_some.mpr ⟨t, ht, rfl⟩)
      simpa using this
    · intro h q hq
      obtain ⟨t, ht, rfl⟩ := step_eq_some.mp hq
      by_cases htopic : act.1 = topic
      · subst htopic
        simpa using h rfl t ht
      · rw [setSlot_slots_ne p t (Ne.symm htopic)]
  exact ⟨Along.imp fun p act => (hsame p act).mp,
    Along.imp fun p act => (hsame p act).mpr⟩

/--
Runs of any receptions below the largest word, expirations, repair answers
and skips, without `SetNextSeq`: `nextSeq[topic]` never decreases and no
sequence number is delivered twice, exactly when no skip is taken while an
entry below `nextSeq` is buffered.
-/
theorem forward_run_iff (o o' : OrderedApplier) (topic : UInt16) (n : UInt64)
    (acts : List (UInt16 × Action)) (hstart : o.slots topic = Slot.fresh n)
    (hbelow : Along step (fun _ act => act.1 = topic → Slot.BelowMax act.2) o acts)
    (hrun : exec step o acts = some o') :
    (NeverDecreases topic o acts ∧
      ((o'.slots topic).delivered.map Prod.fst).Nodup) ↔
    Along step (fun p act => act.1 = topic →
      Slot.SkipsForward (p.slots topic) act.2) o acts := by
  have hslot := exec_slot topic hrun
  have hbelow' := (along_slot_iff topic (fun _ _ a => Slot.BelowMax a) hrun).mp hbelow
  rw [neverDecreases_iff hrun,
    along_slot_iff topic (fun _ s a => Slot.SkipsForward s a) hrun]
  rw [hstart] at hslot hbelow' ⊢
  have hforward := Slot.along_movesForward_iff (Slot.settled_fresh n)
    (Slot.progress_fresh n) hbelow' hslot
  constructor
  · rintro ⟨hmoves, -⟩
    exact hforward.mp hmoves
  · intro hskip
    refine ⟨hforward.mpr hskip, ?_⟩
    have hprogress := Slot.progress_of_run (Slot.progress_fresh n) hbelow' hskip hslot
    exact hprogress.sorted.imp fun hlt => ne_of_lt hlt

def forwardTrace : List (UInt16 × Action) :=
  [(0, .receive 3 [3]), (0, .expire 1), (0, .repairFail 1),
   (0, .receive 100 [100]), (0, .receive 103 [103]), (0, .expire 101),
   (0, .repairFail 101)]

theorem forward_run_iff_forwardTrace :
    ∃ o', exec step ⟨64, fun _ => Slot.fresh 1⟩ forwardTrace = some o' ∧
      (o'.slots 0).delivered.map Prod.fst = [3, 100, 103] ∧
      NeverDecreases 0 ⟨64, fun _ => Slot.fresh 1⟩ forwardTrace := by
  have hsome : ((exec step ⟨64, fun _ => Slot.fresh 1⟩ forwardTrace).map
      fun o' => (o'.slots 0).delivered.map Prod.fst) = some [3, 100, 103] := by
    decide
  obtain ⟨o', hrun, hdelivered⟩ := Option.map_eq_some_iff.mp hsome
  have hiff := forward_run_iff ⟨64, fun _ => Slot.fresh 1⟩ o' 0 1 forwardTrace rfl
    (by decide) hrun
  exact ⟨o', hrun, hdelivered, (hiff.mpr (by decide)).1⟩

def staleTrace : List (UInt16 × Action) :=
  -- a jump over the buffered entry 3, a timer that finds `nextSeq` moved, and a later skip,
  -- which returns to 3: then 100 is far above `nextSeq` once more
  [(0, .receive 3 [3]), (0, .receive 100 [100]), (0, .expire 1),
   (0, .receive 103 [103]), (0, .expire 101), (0, .repairFail 101),
   (0, .receive 100 [100])]

theorem staleTrace_moves_back :
    Along step (fun _ act => act.1 = 0 → Slot.BelowMax act.2)
      ⟨64, fun _ => Slot.fresh 1⟩ staleTrace ∧
    ¬ NeverDecreases 0 ⟨64, fun _ => Slot.fresh 1⟩ staleTrace ∧
    ∃ o', exec step ⟨64, fun _ => Slot.fresh 1⟩ staleTrace = some o' ∧
      (o'.slots 0).delivered.map Prod.fst = [100, 3, 100] := by
  refine ⟨by decide, by unfold NeverDecreases; decide, ?_⟩
  have hsome : ((exec step ⟨64, fun _ => Slot.fresh 1⟩ staleTrace).map
      fun o' => (o'.slots 0).delivered.map Prod.fst) = some [100, 3, 100] := by
    decide
  exact Option.map_eq_some_iff.mp hsome

end OrderedApplier

end GossipMesh.Engine
