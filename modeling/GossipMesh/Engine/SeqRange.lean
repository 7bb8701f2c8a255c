import GossipMesh.Engine.Engine
import GossipMesh.Engine.OrderedTimers

/-!
# The end of the range of sequence numbers

A sequence number is any 64-bit word.  After the largest one `nextSeq` wraps to
zero, and `skipGap` uses it as the mark of an empty buffer.  Apart from that,
what is drained is the maximal run of buffered numbers, and `nextSeq` ends
above it.
-/

namespace GossipMesh.Engine

open GossipMesh.Foundation

namespace Slot

variable {maxGapBuffer : Nat} {s t : Slot} {count : Nat}

/-! ## Zero is never buffered -/

theorem Drains.notMem {k : UInt64} (h : Drains s t) (hk : k ∉ s.pending) : k ∉ t.pending := by
  intro hmem
  obtain ⟨p, hp⟩ := Finmap.mem_iff.mp hmem
  exact hk (Finmap.mem_of_lookup_eq_some (h.kept k p hp))

private theorem zero_notMem_receive (h : 0 ∉ s.pending) (seq : UInt64) (payload : Payload) :
    0 ∉ (s.receive maxGapBuffer seq payload).pending := by
  rcases receive_cases maxGapBuffer s seq payload with
    ⟨-, heq⟩ | ⟨hgt, -, heq⟩ | ⟨-, heq⟩ | ⟨-, heq⟩
  · rwa [heq]
  · have hne : 0 ≠ seq := ne_of_lt (lt_of_le_of_lt UInt64.zero_le hgt)
    rw [heq, startGapTimer_pending, Finmap.mem_insert, not_or]
    exact ⟨hne, h⟩
  · rw [heq]
    exact (drainPending_drains _).notMem h
  · rw [heq]
    exact (drainPending_drains _).notMem h

theorem zero_notMem_run {acts : List Action} {n : UInt64}
    (hrun : exec (step maxGapBuffer) (fresh n) acts = some s) : 0 ∉ s.pending := by
  refine exec_invariant (fun s => 0 ∉ s.pending) (fun u a v hu hstep => ?_)
    (Finmap.notMem_empty) hrun
  rcases step_cases hstep with ⟨seq, payload, -, rfl⟩ | ⟨seq, -, rfl⟩ | ⟨e, -, -, rfl⟩ |
    ⟨missing, -, payload, -, rfl⟩ | ⟨missing, -, -, rfl⟩
  · exact zero_notMem_receive hu seq payload
  · exact Finmap.notMem_empty
  · rwa [expire_pending]
  · exact zero_notMem_receive (s := { u with repairs := u.repairs.erase missing }) hu _ _
  · exact (skipGap_drains _).notMem hu

/-! ## Draining -/

/-- The `count` numbers from `nextSeq` on have been drained. -/
structure Drained (s t : Slot) (count : Nat) : Prop where
  range : s.nextSeq.toNat + count ≤ 2 ^ 64
  nextSeq : t.nextSeq = s.nextSeq + UInt64.ofNat count
  log : ∃ out, t.delivered = s.delivered ++ out ∧
    out.map Prod.fst = wordsFrom s.nextSeq count ∧
    ∀ e ∈ out, s.pending.lookup e.1 = some e.2
  pending : ∀ k, t.pending.lookup k =
    if k ∈ wordsFrom s.nextSeq count then none else s.pending.lookup k

private theorem drained_zero (s : Slot) : Drained s s 0 where
  range := by
    have := s.nextSeq.toNat_lt
    omega
  nextSeq := by simp
  log := ⟨[], by simp, rfl, by simp⟩
  pending := by simp [wordsFrom]

private theorem Drained.turn (h : Drained s t count) (hzero : 0 ∉ s.pending) {val : Payload}
    (hlookup : t.pending.lookup t.nextSeq = some val) :
    Drained s (t.drainOne val) (count + 1) := by
  -- since zero is not buffered, there is no turn after the wrap
  rw [h.pending] at hlookup
  split at hlookup
  · cases hlookup
  · rw [h.nextSeq] at hlookup
    have hrange : s.nextSeq.toNat + count < 2 ^ 64 := by
      refine lt_of_le_of_ne h.range fun hend => hzero ?_
      have hwrap : s.nextSeq + UInt64.ofNat count = 0 := by
        apply UInt64.toNat_inj.mp
        rw [UInt64.toNat_add, UInt64.toNat_ofNat', Nat.add_mod_mod, hend]
        rfl
      rw [hwrap] at hlookup
      exact Finmap.mem_of_lookup_eq_some hlookup
    refine ⟨hrange, ?_, ?_, fun k => ?_⟩
    · change t.nextSeq + 1 = _
      rw [h.nextSeq, UInt64.ofNat_add, UInt64.add_assoc]
      rfl
    · obtain ⟨out, hout, hwords, hpayload⟩ := h.log
      refine ⟨out ++ [(t.nextSeq, val)], ?_, ?_, ?_⟩
      · change t.delivered ++ [(t.nextSeq, val)] = _
        rw [hout, List.append_assoc]
      · rw [List.map_append, hwords, wordsFrom_succ, h.nextSeq]
        rfl
      · intro e he
        rcases List.mem_append.mp he with hold | hnew
        · exact hpayload e hold
        · rw [List.mem_singleton.mp hnew, h.nextSeq]
          exact hlookup
    · change (t.pending.erase t.nextSeq).lookup k = _
      rw [wordsFrom_succ, ← h.nextSeq]
      by_cases hk : k = t.nextSeq
      · subst hk
        simp
      · simp [Finmap.lookup_erase_ne hk, h.pending, hk]

theorem drainPending_drained (hzero : 0 ∉ s.pending) : ∃ count, Drained s s.drainPending count := by
  refine drainPending_induct (fun t => ∃ count, Drained s t count) ?_ ?_ ⟨0, drained_zero s⟩
  · rintro t val ⟨count, h⟩ hlookup
    exact ⟨count + 1, h.turn hzero hlookup⟩
  · rintro t ⟨count, h⟩ - -
    exact ⟨count, h.range, by simpa using h.nextSeq, by simpa using h.log,
      by simpa using h.pending⟩

/-- The number is in the run of buffered numbers from `low` on. -/
def InRun (s : Slot) (low k : UInt64) : Prop :=
  low ≤ k ∧ ∀ m, low ≤ m → m ≤ k → m ∈ s.pending

theorem Drained.mem_iff (h : Drained s t count) (hstop : t.nextSeq ∉ t.pending) {k : UInt64} :
    k ∈ wordsFrom s.nextSeq count ↔ s.InRun s.nextSeq k := by
  -- draining stops at the end of the run
  rw [mem_wordsFrom_iff h.range]
  constructor
  · rintro ⟨hlow, hhigh⟩
    refine ⟨UInt64.le_iff_toNat_le.mpr hlow, fun m hlowm hmk => ?_⟩
    rw [UInt64.le_iff_toNat_le] at hlowm hmk
    obtain ⟨out, -, hwords, hpayload⟩ := h.log
    have hm : m ∈ out.map Prod.fst := by
      rw [hwords, mem_wordsFrom_iff h.range]
      omega
    obtain ⟨e, he, rfl⟩ := List.mem_map.mp hm
    exact Finmap.mem_of_lookup_eq_some (hpayload e he)
  · rintro ⟨hlow, hrun⟩
    rw [UInt64.le_iff_toNat_le] at hlow
    refine ⟨hlow, ?_⟩
    by_contra hhigh
    have hend := toNat_add_ofNat (n := s.nextSeq) (i := count) (by have := k.toNat_lt; omega)
    rw [← h.nextSeq] at hend
    have hmem := hrun t.nextSeq (UInt64.le_iff_toNat_le.mpr (by omega))
      (UInt64.le_iff_toNat_le.mpr (by omega))
    have hnot : t.nextSeq ∉ wordsFrom s.nextSeq count := by
      rw [mem_wordsFrom_iff h.range]
      omega
    obtain ⟨p, hp⟩ := Finmap.mem_iff.mp hmem
    have hlookup : t.pending.lookup t.nextSeq = some p := by
      rw [h.pending, if_neg hnot, hp]
    exact hstop (Finmap.mem_of_lookup_eq_some hlookup)

/-- The run of buffered numbers from `low` on moves to the output, in order. -/
structure DeliversRun (low : UInt64) (s t : Slot) : Prop where
  log : ∃ out, t.delivered = s.delivered ++ out ∧ (out.map Prod.fst).Pairwise (· < ·) ∧
    ∀ k p, (k, p) ∈ out ↔ s.InRun low k ∧ s.pending.lookup k = some p
  removed : ∀ k, s.InRun low k → k ∉ t.pending
  kept : ∀ k, ¬ s.InRun low k → t.pending.lookup k = s.pending.lookup k

theorem deliversRun_drainPending (hzero : 0 ∉ s.pending) :
    DeliversRun s.nextSeq s s.drainPending := by
  obtain ⟨count, h⟩ := drainPending_drained hzero
  have hiff : ∀ {k}, k ∈ wordsFrom s.nextSeq count ↔ s.InRun s.nextSeq k :=
    h.mem_iff (drainPending_nextSeq_notMem s)
  refine ⟨?_, fun k hk => ?_, fun k hk => ?_⟩
  · obtain ⟨out, hout, hwords, hpayload⟩ := h.log
    refine ⟨out, hout, ?_, fun k p => ⟨fun hmem => ⟨?_, hpayload (k, p) hmem⟩, ?_⟩⟩
    · rw [hwords]
      exact wordsFrom_pairwise h.range
    · rw [← hiff, ← hwords]
      exact List.mem_map.mpr ⟨(k, p), hmem, rfl⟩
    · rintro ⟨hrun, hp⟩
      rw [← hiff, ← hwords] at hrun
      obtain ⟨e, he, rfl⟩ := List.mem_map.mp hrun
      rw [hpayload e he] at hp
      cases hp
      exact he
  · rw [← Finmap.lookup_eq_none, h.pending, if_pos (hiff.mpr hk)]
  · rw [h.pending, if_neg fun hmem => hk (hiff.mp hmem)]

/-! ## The largest number -/

/-- `Receive` delivers the number in this call. -/
def DeliversNow (maxGapBuffer : Nat) (s : Slot) (seq : UInt64) : Prop :=
  seq = s.nextSeq ∨ s.nextSeq.toNat + maxGapBuffer < seq.toNat

private theorem Drained.above_iff (h : Drained s t count) (hstop : t.nextSeq ∉ t.pending) :
    (s.nextSeq ≤ t.nextSeq ∧ ∀ word ∈ wordsFrom s.nextSeq count, word < t.nextSeq) ↔
      ¬ s.InRun s.nextSeq maxUint64 := by
  rw [← h.mem_iff hstop]
  constructor
  · rintro ⟨-, habove⟩ hmem
    exact absurd (word_le_maxUint64 _) (not_le.mpr (habove _ hmem))
  · intro hnot
    rw [mem_wordsFrom_iff h.range, maxUint64_toNat] at hnot
    have hlow := s.nextSeq.toNat_lt
    have hnext : t.nextSeq.toNat = s.nextSeq.toNat + count := by
      rw [h.nextSeq, toNat_add_ofNat (by omega)]
    refine ⟨UInt64.le_iff_toNat_le.mpr (by omega), fun word hword => ?_⟩
    rw [UInt64.lt_iff_toNat_lt, hnext]
    exact ((mem_wordsFrom_iff h.range).mp hword).2

private theorem deliver_above_iff (hzero : 0 ∉ s.pending) (seq : UInt64) (payload : Payload)
    (ht : t = { s.deliver seq payload with nextSeq := seq + 1 }.drainPending) :
    (∀ e ∈ t.delivered.drop s.delivered.length, e.1 < t.nextSeq) ↔
      ∃ k, seq < k ∧ k ∉ s.pending := by
  obtain ⟨count, h⟩ :=
    drainPending_drained (s := { s.deliver seq payload with nextSeq := seq + 1 }) hzero
  have habove := h.above_iff (drainPending_nextSeq_notMem _)
  rw [← ht] at h habove
  obtain ⟨out, hout, hwords, -⟩ := h.log
  have hdrop : t.delivered.drop s.delivered.length = (seq, payload) :: out := by
    rw [hout]
    simp [deliver]
  rw [← hwords, List.forall_mem_map] at habove
  rw [hdrop, List.forall_mem_cons]
  rcases eq_or_lt_of_le (word_le_maxUint64 seq) with rfl | hseq
  · refine iff_of_false (fun hall => ?_) ?_
    · exact absurd (word_le_maxUint64 _) (not_le.mpr hall.1)
    · rintro ⟨k, hk, -⟩
      exact absurd (word_le_maxUint64 k) (not_le.mpr hk)
  · rw [← succ_le_iff hseq]
    refine habove.trans ⟨?_, ?_⟩
    · intro hnot
      by_contra! hall
      exact hnot ⟨word_le_maxUint64 _, fun m hm _ => hall m ((succ_le_iff hseq).mp hm)⟩
    · rintro ⟨k, hk, hnot⟩ hrun
      exact hnot (hrun.2 k ((succ_le_iff hseq).mpr hk) (word_le_maxUint64 k))

private theorem receive_above_iff (hzero : 0 ∉ s.pending) (seq : UInt64) (payload : Payload) :
    (∀ e ∈ (s.receive maxGapBuffer seq payload).delivered.drop s.delivered.length,
      e.1 < (s.receive maxGapBuffer seq payload).nextSeq) ↔
    ¬ (s.DeliversNow maxGapBuffer seq ∧ ∀ k, seq < k → k ∈ s.pending) := by
  rcases receive_cases maxGapBuffer s seq payload with
    ⟨hlow, heq⟩ | ⟨hgt, hgap, heq⟩ | ⟨hgap, heq⟩ | ⟨hnext, heq⟩
  · have hnot : ¬ s.DeliversNow maxGapBuffer seq := by
      rw [UInt64.lt_iff_toNat_lt] at hlow
      rintro (rfl | hfar) <;> omega
    simp [heq, hnot]
  · have hnot : ¬ s.DeliversNow maxGapBuffer seq := by
      rw [UInt64.lt_iff_toNat_lt] at hgt
      rintro (rfl | hfar) <;> omega
    simp [heq, hnot]
  · rw [deliver_above_iff hzero seq payload heq]
    simp [DeliversNow, hgap]
  · rw [deliver_above_iff hzero seq payload heq]
    simp [DeliversNow, hnext]

private theorem skipGap_deliversRun_iff (hzero : 0 ∉ s.pending) :
    (s.pending.keys.Nonempty → ∃ least ∈ s.pending, (∀ k ∈ s.pending, least ≤ k) ∧
      DeliversRun least s s.skipGap) ↔ s.pending.keys ≠ {maxUint64} := by
  rcases skipGap_cases s with ⟨hmax, heq⟩ | ⟨least, hmem, hne, hleast, heq⟩
  · constructor
    · rintro h hkeys
      obtain ⟨least, hmem, -, hrun⟩ := h (by simp [hkeys])
      rw [heq] at hrun
      refine hrun.removed least ⟨le_refl least, fun m hlow hhigh => ?_⟩ hmem
      rwa [le_antisymm hhigh hlow]
    · rintro hkeys ⟨k, hk⟩
      refine absurd (Finset.eq_singleton_iff_unique_mem.mpr ⟨?_, ?_⟩) hkeys
      · rwa [← hmax k (Finmap.mem_keys.mp hk)]
      · exact fun m hm => hmax m (Finmap.mem_keys.mp hm)
  · have hrun := deliversRun_drainPending (s := { s with nextSeq := least }) hzero
    rw [← heq] at hrun
    refine iff_of_true (fun _ => ⟨least, hmem, hleast, hrun.log, hrun.removed, hrun.kept⟩) ?_
    intro hkeys
    apply hne
    rw [← Finset.mem_singleton, ← hkeys]
    exact Finmap.mem_keys.mpr hmem

end Slot

/--
Over the whole range of sequence numbers.  `nextSeq` ends above all that a
`Receive` has delivered unless it has delivered the largest number;
`SetInitialSeq` leaves it above its argument unless that is the largest number;
and `skipGap` delivers the first run of a non-empty buffer unless the largest
number is alone in it.
-/
theorem seq_range_iff (maxGapBuffer : Nat) (acts : List (UInt16 × Action)) (o : OrderedApplier)
    (hrun : exec OrderedApplier.step (.new maxGapBuffer) acts = some o) (topic : UInt16) :
    (∀ seq payload,
      (∀ e ∈ ((o.receive topic seq payload).slots topic).delivered.drop
          (o.slots topic).delivered.length,
        e.1 < ((o.receive topic seq payload).slots topic).nextSeq) ↔
      ¬ ((o.slots topic).DeliversNow o.maxGapBuffer seq ∧
        ∀ k, seq < k → k ∈ (o.slots topic).pending)) ∧
    (∀ (g : GossipEngine) (seq : UInt64),
      seq < ((g.setInitialSeq topic seq).applier.slots topic).nextSeq ↔ seq ≠ maxUint64) ∧
    (((o.slots topic).pending.keys.Nonempty →
        ∃ least ∈ (o.slots topic).pending, (∀ k ∈ (o.slots topic).pending, least ≤ k) ∧
          Slot.DeliversRun least (o.slots topic) (o.slots topic).skipGap) ↔
      (o.slots topic).pending.keys ≠ {maxUint64}) := by
  have hzero : 0 ∉ (o.slots topic).pending :=
    Slot.zero_notMem_run (OrderedApplier.exec_slot topic hrun)
  refine ⟨fun seq payload => ?_, fun g seq => ?_, Slot.skipGap_deliversRun_iff hzero⟩
  · rw [OrderedApplier.receive, OrderedApplier.setSlot_slots_self]
    exact Slot.receive_above_iff hzero seq payload
  · simp only [GossipEngine.setInitialSeq, OrderedApplier.setNextSeq,
      OrderedApplier.setSlot_slots_self, Slot.setNextSeq]
    constructor
    · rintro hlt rfl
      exact absurd (word_le_maxUint64 _) (not_le.mpr hlt)
    · intro hne
      exact lt_succ_self (lt_of_le_of_ne (word_le_maxUint64 seq) hne)

theorem seq_range_iff_gap :
    ∃ o, exec OrderedApplier.step (.new 64)
        [(1, .setNextSeq 5), (1, .receive 7 [7]), (1, .receive 8 [8])] = some o ∧
      (∀ e ∈ ((o.receive 1 5 [5]).slots 1).delivered.drop (o.slots 1).delivered.length,
        e.1 < ((o.receive 1 5 [5]).slots 1).nextSeq) ∧
      ∃ least ∈ (o.slots 1).pending, (∀ k ∈ (o.slots 1).pending, least ≤ k) ∧
        Slot.DeliversRun least (o.slots 1) (o.slots 1).skipGap := by
  have hsome : (exec OrderedApplier.step (.new 64)
      [(1, .setNextSeq 5), (1, .receive 7 [7]), (1, .receive 8 [8])]).isSome := by
    decide
  obtain ⟨o, hrun⟩ := Option.isSome_iff_exists.mp hsome
  have hend : ∀ o, exec OrderedApplier.step (.new 64)
      [(1, .setNextSeq 5), (1, .receive 7 [7]), (1, .receive 8 [8])] = some o →
      (o.slots 1).pending.keys = {7, 8} := by
    decide
  have hkeys := hend o hrun
  obtain ⟨hreceive, -, hskip⟩ := seq_range_iff 64 _ o hrun 1
  refine ⟨o, hrun, (hreceive 5 [5]).mpr fun hall => ?_, hskip.mpr ?_ ?_⟩
  · have hsix := Finmap.mem_keys.mpr (hall.2 6 (by decide))
    rw [hkeys] at hsix
    exact absurd hsix (by decide)
  · rw [hkeys]
    decide
  · rw [hkeys]
    decide

/--
The largest number: `Receive` and `SetInitialSeq` leave `nextSeq` at zero, and
alone in the buffer it is not skipped to.
-/
theorem seq_range_largest :
    (((OrderedApplier.new 64).receive 1 maxUint64 [7]).slots 1).delivered =
      [(maxUint64, [7])] ∧
    (((OrderedApplier.new 64).receive 1 maxUint64 [7]).slots 1).nextSeq = 0 ∧
    (((GossipEngine.new (.new "a" ⟨0, 0, 0, 0⟩) 64).setInitialSeq 1 maxUint64).applier.slots
      1).nextSeq = 0 ∧
    (exec OrderedApplier.step (.new 64)
      [(1, .setNextSeq (maxUint64 - 1)), (1, .receive maxUint64 [7])]).map
        (fun o => ((o.slots 1).pending.keys, (o.slots 1).skipGap.pending.keys,
          (o.slots 1).skipGap.delivered)) =
      some ({maxUint64}, {maxUint64}, []) := by
  decide

end GossipMesh.Engine
