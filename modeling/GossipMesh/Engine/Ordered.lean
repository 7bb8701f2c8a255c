import Mathlib.Data.Finmap
import GossipMesh.Foundation.Transition
import GossipMesh.Foundation.Wire
import GossipMesh.Foundation.Word

/-!
# The ordered applier

`OrderedApplier` restores the per-topic order of gossip entries.  Each of the
65536 topics owns one slot of every array of the source, so the model keeps one
`Slot` record per topic.  Besides the arrays a slot lists the goroutines the
applier has started for it: `timers` are asleep in `gapTimer`, remembering the
`nextSeq` they were started with, and `repairs` have expired and wait for the
answer of `onGap`.  `delivered` is the sequence of calls of `deliver`.
-/

namespace GossipMesh.Engine

open GossipMesh.Foundation

abbrev Payload := Bytes

structure Slot where
  nextSeq : UInt64
  pending : Finmap (fun _ : UInt64 => Payload)
  gapTimers : Bool
  timers : List UInt64
  repairs : List UInt64
  delivered : List (UInt64 × Payload)

namespace Slot

def fresh (nextSeq : UInt64) : Slot :=
  ⟨nextSeq, ∅, false, [], [], []⟩

def deliver (s : Slot) (seq : UInt64) (payload : Payload) : Slot :=
  { s with delivered := s.delivered ++ [(seq, payload)] }

def startGapTimer (s : Slot) (expected : UInt64) : Slot :=
  if s.gapTimers then s
  else { s with gapTimers := true, timers := expected :: s.timers }

def drainOne (s : Slot) (val : Payload) : Slot :=
  { s.deliver s.nextSeq val with
    pending := s.pending.erase s.nextSeq
    nextSeq := s.nextSeq + 1 }

def drainLoop : Nat → Slot → Slot
  -- the loop of `drainPending`; every turn deletes a buffered entry, so as many turns as
  -- there are entries exhaust it
  | 0, s => s
  | fuel + 1, s =>
      match s.pending.lookup s.nextSeq with
      | none => s
      | some val => drainLoop fuel (s.drainOne val)

def drainPending (s : Slot) : Slot :=
  let drained := s.drainLoop s.pending.keys.card
  if drained.pending.keys.Nonempty then drained.startGapTimer drained.nextSeq
  else drained

def receive (maxGapBuffer : Nat) (s : Slot) (seq : UInt64)
    (payload : Payload) : Slot :=
  let expected := s.nextSeq
  if seq < expected then s
  else if expected < seq then
    let count := seq - expected
    if count.toNat ≤ maxGapBuffer then
      { s with pending := s.pending.insert seq payload }.startGapTimer expected
    else
      { s.deliver seq payload with nextSeq := seq + 1 }.drainPending
  else
    { s.deliver seq payload with nextSeq := s.nextSeq + 1 }.drainPending

def skipGap (s : Slot) : Slot :=
  let minPending := leastWord s.pending.keys
  if minPending ≠ maxUint64 then
    { s with nextSeq := minPending }.drainPending
  else s

def setNextSeq (s : Slot) (seq : UInt64) : Slot :=
  { s with nextSeq := seq, pending := ∅ }

def expire (s : Slot) (expectedAtStart : UInt64) : Slot :=
  -- the flag falls before the check
  let s := { s with timers := s.timers.erase expectedAtStart, gapTimers := false }
  if s.nextSeq = expectedAtStart then
    { s with repairs := expectedAtStart :: s.repairs }
  else s

def afterRepair (maxGapBuffer : Nat) (s : Slot) (missing : UInt64)
    (reply : Option Payload) : Slot :=
  let s := { s with repairs := s.repairs.erase missing }
  match reply with
  -- what was found has gone through `Receive` in `RequestRepair`
  | some payload => s.receive maxGapBuffer missing payload
  | none => s.skipGap

def gapTimer (maxGapBuffer : Nat) (s : Slot) (expectedAtStart : UInt64)
    (reply : Option Payload) : Slot :=
  let woken := s.expire expectedAtStart
  if s.nextSeq = expectedAtStart then
    woken.afterRepair maxGapBuffer expectedAtStart reply
  else woken

end Slot

/-! ## The applier as a transition system -/

/--
The steps of one slot.  A repair answer may come any time after its timer has
expired, so the body of `gapTimer` is cut at the call of `onGap`.
-/
inductive Action where
  | receive (seq : UInt64) (payload : Payload)
  | setNextSeq (seq : UInt64)
  | expire (expectedAtStart : UInt64)
  | repairReply (missing : UInt64) (payload : Payload)
  | repairFail (missing : UInt64)
  deriving DecidableEq

def Action.entry : Action → Option (UInt64 × Payload)
  | .receive seq payload => some (seq, payload)
  | .repairReply missing payload => some (missing, payload)
  | .setNextSeq _ | .expire _ | .repairFail _ => none

def Slot.step (maxGapBuffer : Nat) (s : Slot) : Action → Option Slot
  | .receive seq payload => some (s.receive maxGapBuffer seq payload)
  | .setNextSeq seq => some (s.setNextSeq seq)
  | .expire expectedAtStart =>
      if expectedAtStart ∈ s.timers then some (s.expire expectedAtStart)
      else none
  | .repairReply missing payload =>
      if missing ∈ s.repairs then
        some (s.afterRepair maxGapBuffer missing (some payload))
      else none
  | .repairFail missing =>
      if missing ∈ s.repairs then
        some (s.afterRepair maxGapBuffer missing none)
      else none

structure OrderedApplier where
  maxGapBuffer : Nat
  slots : UInt16 → Slot

namespace OrderedApplier

def setSlot (o : OrderedApplier) (topic : UInt16) (s : Slot) : OrderedApplier :=
  { o with slots := Function.update o.slots topic s }

@[simp] theorem setSlot_maxGapBuffer (o : OrderedApplier) (topic : UInt16)
    (s : Slot) : (o.setSlot topic s).maxGapBuffer = o.maxGapBuffer := rfl

@[simp] theorem setSlot_slots_self (o : OrderedApplier) (topic : UInt16)
    (s : Slot) : (o.setSlot topic s).slots topic = s := by
  simp [setSlot]

@[simp] theorem setSlot_slots_ne (o : OrderedApplier) {topic other : UInt16}
    (s : Slot) (h : other ≠ topic) :
    (o.setSlot topic s).slots other = o.slots other := by
  simp [setSlot, h]

theorem forall_setSlot {P : UInt16 → Slot → Prop} {o : OrderedApplier}
    {topic : UInt16} {s : Slot} (h : ∀ t, P t (o.slots t)) (hs : P topic s) :
    ∀ t, P t ((o.setSlot topic s).slots t) :=
  forall_update h hs

def receive (o : OrderedApplier) (topic : UInt16) (seq : UInt64)
    (payload : Payload) : OrderedApplier :=
  o.setSlot topic ((o.slots topic).receive o.maxGapBuffer seq payload)

def setNextSeq (o : OrderedApplier) (topic : UInt16) (seq : UInt64) :
    OrderedApplier :=
  o.setSlot topic ((o.slots topic).setNextSeq seq)

def step (o : OrderedApplier) (act : UInt16 × Action) : Option OrderedApplier :=
  ((o.slots act.1).step o.maxGapBuffer act.2).map (o.setSlot act.1)

def ofTopic (topic : UInt16) (act : UInt16 × Action) : Option Action :=
  if act.1 = topic then some act.2 else none

theorem ofTopic_self (act : UInt16 × Action) : ofTopic act.1 act = some act.2 :=
  if_pos rfl

theorem ofTopic_ne {topic : UInt16} {act : UInt16 × Action}
    (h : act.1 ≠ topic) : ofTopic topic act = none := if_neg h

theorem step_eq_some {o o' : OrderedApplier} {act : UInt16 × Action} :
    o.step act = some o' ↔
      ∃ s, (o.slots act.1).step o.maxGapBuffer act.2 = some s ∧
        o.setSlot act.1 s = o' := by
  simp [step, Option.map_eq_some_iff]

theorem exec_slot (topic : UInt16) {o o' : OrderedApplier}
    {acts : List (UInt16 × Action)} (hrun : exec step o acts = some o') :
    exec (Slot.step o.maxGapBuffer) (o.slots topic)
      (acts.filterMap (ofTopic topic)) = some (o'.slots topic) := by
  induction acts generalizing o with
  | nil =>
      cases hrun
      rfl
  | cons act acts ih =>
      obtain ⟨p, hstep, hrest⟩ := exec_cons_eq_some.mp hrun
      obtain ⟨s, hs, rfl⟩ := step_eq_some.mp hstep
      have htail := ih hrest
      rw [setSlot_maxGapBuffer] at htail
      by_cases htopic : act.1 = topic
      · subst htopic
        rw [setSlot_slots_self] at htail
        rw [List.filterMap_cons_some (ofTopic_self act)]
        exact exec_cons_eq_some.mpr ⟨s, hs, htail⟩
      · rw [setSlot_slots_ne o s (Ne.symm htopic)] at htail
        rw [List.filterMap_cons_none (ofTopic_ne htopic)]
        exact htail

theorem along_slot_iff (topic : UInt16) (P : Nat → Slot → Action → Prop)
    {o o' : OrderedApplier} {acts : List (UInt16 × Action)}
    (hrun : exec step o acts = some o') :
    Along step
      (fun p act => act.1 = topic → P p.maxGapBuffer (p.slots topic) act.2)
      o acts ↔
    Along (Slot.step o.maxGapBuffer) (P o.maxGapBuffer) (o.slots topic)
      (acts.filterMap (ofTopic topic)) := by
  induction acts generalizing o with
  | nil => simp
  | cons act acts ih =>
      obtain ⟨p, hstep, hrest⟩ := exec_cons_eq_some.mp hrun
      have htail := ih hrest
      obtain ⟨s, hs, rfl⟩ := step_eq_some.mp hstep
      rw [setSlot_maxGapBuffer] at htail
      by_cases htopic : act.1 = topic
      · subst htopic
        rw [setSlot_slots_self] at htail
        rw [List.filterMap_cons_some (ofTopic_self act)]
        simp only [Along, hstep, hs, Option.some.injEq, forall_eq', htail,
          true_implies]
      · rw [setSlot_slots_ne o s (Ne.symm htopic)] at htail
        rw [List.filterMap_cons_none (ofTopic_ne htopic), ← htail]
        simp only [Along, hstep, Option.some.injEq, forall_eq', htopic,
          false_implies, true_and]

end OrderedApplier

/-! ## Rules for the slot operations -/

namespace Slot

@[simp] theorem startGapTimer_nextSeq (s : Slot) (expected : UInt64) :
    (s.startGapTimer expected).nextSeq = s.nextSeq := by
  unfold startGapTimer
  split <;> rfl

@[simp] theorem startGapTimer_pending (s : Slot) (expected : UInt64) :
    (s.startGapTimer expected).pending = s.pending := by
  unfold startGapTimer
  split <;> rfl

@[simp] theorem startGapTimer_repairs (s : Slot) (expected : UInt64) :
    (s.startGapTimer expected).repairs = s.repairs := by
  unfold startGapTimer
  split <;> rfl

@[simp] theorem startGapTimer_delivered (s : Slot) (expected : UInt64) :
    (s.startGapTimer expected).delivered = s.delivered := by
  unfold startGapTimer
  split <;> rfl

@[simp] theorem startGapTimer_gapTimers (s : Slot) (expected : UInt64) :
    (s.startGapTimer expected).gapTimers = true := by
  unfold startGapTimer
  split <;> simp_all

theorem mem_startGapTimer_timers {s : Slot} {expected e : UInt64}
    (h : e ∈ (s.startGapTimer expected).timers) :
    e = expected ∨ e ∈ s.timers := by
  unfold startGapTimer at h
  split at h
  · exact .inr h
  · simpa using h

@[simp] theorem expire_nextSeq (s : Slot) (e : UInt64) :
    (s.expire e).nextSeq = s.nextSeq := by
  unfold expire
  dsimp only
  split <;> rfl

@[simp] theorem expire_pending (s : Slot) (e : UInt64) :
    (s.expire e).pending = s.pending := by
  unfold expire
  dsimp only
  split <;> rfl

@[simp] theorem expire_delivered (s : Slot) (e : UInt64) :
    (s.expire e).delivered = s.delivered := by
  unfold expire
  dsimp only
  split <;> rfl

theorem mem_expire_waiting {s : Slot} {expectedAtStart e : UInt64}
    (hmem : expectedAtStart ∈ s.timers)
    (h : e ∈ (s.expire expectedAtStart).timers ∨
      e ∈ (s.expire expectedAtStart).repairs) :
    e ∈ s.timers ∨ e ∈ s.repairs := by
  unfold expire at h
  dsimp only at h
  split at h
  · rcases h with h | h
    · exact .inl (List.mem_of_mem_erase h)
    · rcases List.mem_cons.mp h with rfl | hold
      · exact .inl hmem
      · exact .inr hold
  · exact h.imp List.mem_of_mem_erase id

theorem drainLoop_induct (P : Slot → Prop)
    (hturn : ∀ s val, P s → s.pending.lookup s.nextSeq = some val →
      P (s.drainOne val))
    (fuel : Nat) {s : Slot} (h : P s) : P (s.drainLoop fuel) := by
  induction fuel generalizing s with
  | zero => exact h
  | succ fuel ih =>
      rw [drainLoop]
      cases hlookup : s.pending.lookup s.nextSeq with
      | none => exact h
      | some val => exact ih (hturn s val h hlookup)

theorem drainOne_card {s : Slot} {val : Payload}
    (h : s.pending.lookup s.nextSeq = some val) :
    (s.drainOne val).pending.keys.card + 1 = s.pending.keys.card := by
  have hmem : s.nextSeq ∈ s.pending.keys :=
    Finmap.mem_keys.mpr (Finmap.mem_of_lookup_eq_some h)
  change (s.pending.erase s.nextSeq).keys.card + 1 = _
  rw [Finmap.keys_erase]
  exact Finset.card_erase_add_one hmem

theorem drainLoop_stops (fuel : Nat) (s : Slot)
    (hfuel : s.pending.keys.card ≤ fuel) :
    (s.drainLoop fuel).nextSeq ∉ (s.drainLoop fuel).pending := by
  -- the loop stops for want of the next entry, not for want of fuel
  induction fuel generalizing s with
  | zero =>
      intro hmem
      have hempty := Finset.card_eq_zero.mp (Nat.le_zero.mp hfuel)
      have hkeys : s.nextSeq ∈ s.pending.keys := Finmap.mem_keys.mpr hmem
      simp [hempty] at hkeys
  | succ fuel ih =>
      rw [drainLoop]
      cases hlookup : s.pending.lookup s.nextSeq with
      | none => exact Finmap.lookup_eq_none.mp hlookup
      | some val =>
          apply ih
          have := drainOne_card hlookup
          omega

theorem drainPending_nextSeq_notMem (s : Slot) :
    s.drainPending.nextSeq ∉ s.drainPending.pending := by
  have hstop := drainLoop_stops s.pending.keys.card s (le_refl _)
  unfold drainPending
  dsimp only
  split
  · simpa using hstop
  · exact hstop

theorem drainPending_gapTimers {s : Slot}
    (h : s.drainPending.pending.keys.Nonempty) :
    s.drainPending.gapTimers = true := by
  unfold drainPending at h ⊢
  dsimp only at h ⊢
  split
  · simp
  · next hempty =>
      rw [if_neg hempty] at h
      exact absurd h hempty

/--
The rule for `drainPending`: the property survives every turn of the loop, and
the start of a timer once the loop has stopped at a gap.
-/
theorem drainPending_induct (P : Slot → Prop)
    (hturn : ∀ s val, P s → s.pending.lookup s.nextSeq = some val →
      P (s.drainOne val))
    (htimer : ∀ s, P s → s.nextSeq ∉ s.pending → s.pending.keys.Nonempty →
      P (s.startGapTimer s.nextSeq))
    {s : Slot} (h : P s) : P s.drainPending := by
  have hloop := drainLoop_induct P hturn s.pending.keys.card h
  have hstop := drainLoop_stops s.pending.keys.card s (le_refl _)
  unfold drainPending
  dsimp only
  split
  · next hsome => exact htimer _ hloop hstop hsome
  · exact hloop

theorem receive_cases (maxGapBuffer : Nat) (s : Slot) (seq : UInt64)
    (payload : Payload) :
    (seq < s.nextSeq ∧ s.receive maxGapBuffer seq payload = s) ∨
    (s.nextSeq < seq ∧ seq.toNat ≤ s.nextSeq.toNat + maxGapBuffer ∧
      s.receive maxGapBuffer seq payload =
        { s with pending := s.pending.insert seq payload }.startGapTimer
          s.nextSeq) ∨
    (s.nextSeq.toNat + maxGapBuffer < seq.toNat ∧
      s.receive maxGapBuffer seq payload =
        { s.deliver seq payload with nextSeq := seq + 1 }.drainPending) ∨
    (seq = s.nextSeq ∧ s.receive maxGapBuffer seq payload =
      { s.deliver seq payload with nextSeq := seq + 1 }.drainPending) := by
  unfold receive
  by_cases hlow : seq < s.nextSeq
  · exact .inl ⟨hlow, by simp [hlow]⟩
  by_cases hhigh : s.nextSeq < seq
  · have hcount := toNat_sub_of_lt hhigh
    have hlt := UInt64.lt_iff_toNat_lt.mp hhigh
    by_cases hgap : (seq - s.nextSeq).toNat ≤ maxGapBuffer
    · refine .inr (.inl ⟨hhigh, by omega, ?_⟩)
      simp [hlow, hhigh, hgap]
    · refine .inr (.inr (.inl ⟨by omega, ?_⟩))
      simp [hlow, hhigh, hgap]
  · have heq : seq = s.nextSeq := le_antisymm (not_lt.mp hhigh) (not_lt.mp hlow)
    subst heq
    exact .inr (.inr (.inr ⟨rfl, by simp⟩))

theorem skipGap_cases (s : Slot) :
    ((∀ k ∈ s.pending, k = maxUint64) ∧ s.skipGap = s) ∨
    (∃ least ∈ s.pending, least ≠ maxUint64 ∧ (∀ k ∈ s.pending, least ≤ k) ∧
      s.skipGap = { s with nextSeq := least }.drainPending) := by
  unfold skipGap
  by_cases h : leastWord s.pending.keys = maxUint64
  · refine .inl ⟨fun k hk => ?_, by simp [h]⟩
    by_contra hne
    exact leastWord_ne_max_iff.mpr ⟨k, Finmap.mem_keys.mpr hk, hne⟩ h
  · refine .inr ⟨leastWord s.pending.keys, Finmap.mem_keys.mp (leastWord_mem h),
      h, fun k hk => leastWord_le (Finmap.mem_keys.mpr hk), by simp [h]⟩

theorem step_cases {maxGapBuffer : Nat} {s t : Slot} {a : Action}
    (h : s.step maxGapBuffer a = some t) :
    (∃ seq payload, a = .receive seq payload ∧
      t = s.receive maxGapBuffer seq payload) ∨
    (∃ seq, a = .setNextSeq seq ∧ t = s.setNextSeq seq) ∨
    (∃ e ∈ s.timers, a = .expire e ∧ t = s.expire e) ∨
    (∃ missing ∈ s.repairs, ∃ payload, a = .repairReply missing payload ∧
      t = { s with repairs := s.repairs.erase missing }.receive maxGapBuffer
        missing payload) ∨
    (∃ missing ∈ s.repairs, a = .repairFail missing ∧
      t = { s with repairs := s.repairs.erase missing }.skipGap) := by
  cases a with
  | receive seq payload =>
      cases h
      exact .inl ⟨seq, payload, rfl, rfl⟩
  | setNextSeq seq =>
      cases h
      exact .inr (.inl ⟨seq, rfl, rfl⟩)
  | expire e =>
      obtain ⟨hmem, rfl⟩ : e ∈ s.timers ∧ s.expire e = t := by
        simpa [step] using h
      exact .inr (.inr (.inl ⟨e, hmem, rfl, rfl⟩))
  | repairReply missing payload =>
      obtain ⟨hmem, rfl⟩ : missing ∈ s.repairs ∧
          s.afterRepair maxGapBuffer missing (some payload) = t := by
        simpa [step] using h
      exact .inr (.inr (.inr (.inl ⟨missing, hmem, payload, rfl, rfl⟩)))
  | repairFail missing =>
      obtain ⟨hmem, rfl⟩ : missing ∈ s.repairs ∧
          s.afterRepair maxGapBuffer missing none = t := by
        simpa [step] using h
      exact .inr (.inr (.inr (.inr ⟨missing, hmem, rfl, rfl⟩)))

private theorem drainPending_of_empty {s : Slot} (h : s.pending = ∅) :
    s.drainPending = s := by
  simp [drainPending, h, drainLoop]

theorem receive_nextSeq_of_empty (maxGapBuffer : Nat) {s : Slot}
    (payload : Payload) (h : s.pending = ∅) :
    s.receive maxGapBuffer s.nextSeq payload =
      { s.deliver s.nextSeq payload with nextSeq := s.nextSeq + 1 } := by
  have hreceive : s.receive maxGapBuffer s.nextSeq payload =
      { s.deliver s.nextSeq payload with
        nextSeq := s.nextSeq + 1 }.drainPending := by
    simp [receive]
  rw [hreceive]
  exact drainPending_of_empty h

structure Quiet (s : Slot) : Prop where
  gapTimers : s.gapTimers = false
  timers : s.timers = []
  repairs : s.repairs = []

/-! ### Draining moves entries from the buffer to the output -/

structure Drains (s t : Slot) : Prop where
  kept : ∀ k p, t.pending.lookup k = some p → s.pending.lookup k = some p
  held : ∀ k p, s.pending.lookup k = some p →
    t.pending.lookup k = some p ∨ (k, p) ∈ t.delivered
  appended : ∃ out, t.delivered = s.delivered ++ out ∧
    ∀ k p, (k, p) ∈ out → s.pending.lookup k = some p

theorem Drains.refl (s : Slot) : Drains s s :=
  ⟨fun _ _ h => h, fun _ _ h => .inl h, [], by simp, by simp⟩

theorem Drains.log {s t : Slot} (h : Drains s t) :
    s.delivered <+: t.delivered := by
  obtain ⟨out, hout, -⟩ := h.appended
  exact ⟨out, hout.symm⟩

theorem Drains.moved {s t : Slot} (h : Drains s t) (k : UInt64) (p : Payload)
    (hk : (k, p) ∈ t.delivered) :
    (k, p) ∈ s.delivered ∨ s.pending.lookup k = some p := by
  obtain ⟨out, hout, hpending⟩ := h.appended
  rw [hout] at hk
  exact (List.mem_append.mp hk).imp id (hpending k p)

private theorem Drains.turn {s t : Slot} {val : Payload} (h : Drains s t)
    (hlookup : t.pending.lookup t.nextSeq = some val) :
    Drains s (t.drainOne val) where
  kept k p hk := by
    change (t.pending.erase t.nextSeq).lookup k = some p at hk
    by_cases hkey : k = t.nextSeq
    · subst hkey
      simp at hk
    · rw [Finmap.lookup_erase_ne hkey] at hk
      exact h.kept k p hk
  held k p hk := by
    rcases h.held k p hk with hpending | hdelivered
    · by_cases hkey : k = t.nextSeq
      · subst hkey
        rw [hpending] at hlookup
        cases hlookup
        exact .inr (List.mem_append.mpr (.inr (by simp)))
      · refine .inl ?_
        change (t.pending.erase t.nextSeq).lookup k = some p
        rw [Finmap.lookup_erase_ne hkey]
        exact hpending
    · exact .inr (List.mem_append.mpr (.inl hdelivered))
  appended := by
    obtain ⟨out, hout, hpending⟩ := h.appended
    refine ⟨out ++ [(t.nextSeq, val)], ?_, fun k p hk => ?_⟩
    · change t.delivered ++ [(t.nextSeq, val)] = _
      rw [hout, List.append_assoc]
    · rcases List.mem_append.mp hk with hold | hnew
      · exact hpending k p hold
      · obtain ⟨rfl, rfl⟩ : k = t.nextSeq ∧ p = val := by simpa using hnew
        exact h.kept _ _ hlookup

theorem drainPending_drains (s : Slot) : Drains s s.drainPending := by
  refine drainPending_induct (Drains s) (fun t val h hl => h.turn hl) ?_
    (Drains.refl s)
  intro t h _ _
  exact ⟨by simpa using h.kept, by simpa using h.held,
    by simpa using h.appended⟩

theorem skipGap_drains (s : Slot) : Drains s s.skipGap := by
  rcases skipGap_cases s with ⟨-, heq⟩ | ⟨least, -, -, -, heq⟩
  · rw [heq]
    exact .refl s
  · rw [heq]
    have h := drainPending_drains { s with nextSeq := least }
    exact ⟨h.kept, h.held, h.appended⟩

end Slot

end GossipMesh.Engine
