import GossipMesh.Engine.OrderedProgress

/-!
# In-window runs of the ordered applier

No entry is received more than `maxGapBuffer` above `nextSeq`.  Then `nextSeq`
separates the delivered sequence numbers from the buffered ones at every
moment of a run, whatever the order of receptions, timer expirations, late
repair answers and skips.
-/

namespace GossipMesh.Engine

open GossipMesh.Foundation

namespace Slot

/--
The separation invariant.  It also holds between the turns of the drain loop,
where the next entry may itself be buffered.
-/
structure Window (maxGapBuffer : Nat) (s : Slot) : Prop
    extends Progress maxGapBuffer s where
  lower : ∀ k ∈ s.pending, s.nextSeq ≤ k
  early : ∀ e, e ∈ s.timers ∨ e ∈ s.repairs → e < maxUint64

/-- Steps of an in-window run; repair answers need no bound of their own. -/
def InWindow (maxGapBuffer : Nat) (s : Slot) : Action → Prop
  | .receive seq _ =>
      seq < maxUint64 ∧ seq.toNat ≤ s.nextSeq.toNat + maxGapBuffer
  | .setNextSeq _ => False
  | .expire _ | .repairReply _ _ | .repairFail _ => True

instance (maxGapBuffer : Nat) (s : Slot) :
    DecidablePred (InWindow maxGapBuffer s)
  | .receive seq _ => inferInstanceAs (Decidable
      (seq < maxUint64 ∧ seq.toNat ≤ s.nextSeq.toNat + maxGapBuffer))
  | .setNextSeq _ => isFalse not_false
  | .expire _ | .repairReply _ _ | .repairFail _ => isTrue trivial

variable {maxGapBuffer : Nat} {s t : Slot}

theorem window_fresh (nextSeq : UInt64) : Window maxGapBuffer (fresh nextSeq) :=
  ⟨progress_fresh nextSeq, by simp [fresh, Finmap.notMem_empty], by simp [fresh]⟩

theorem Window.startGapTimer (h : Window maxGapBuffer s)
    (hmax : s.nextSeq < maxUint64) :
    Window maxGapBuffer (s.startGapTimer s.nextSeq) where
  toProgress := h.toProgress.startGapTimer
  lower := by simpa using h.lower
  early e he := by
    rcases he with he | he
    · rcases mem_startGapTimer_timers he with rfl | hold
      · exact hmax
      · exact h.early e (.inl hold)
    · exact h.early e (.inr (by simpa using he))

theorem Window.drainPending (h : Window maxGapBuffer s) :
    Window maxGapBuffer s.drainPending := by
  refine drainPending_induct _ ?_ ?_ h
  · intro t val ht hlookup
    have hmax := ht.below _ (Finmap.mem_of_lookup_eq_some hlookup)
    refine ⟨ht.toProgress.drainOne hlookup, fun k hk => ?_, ht.early⟩
    obtain ⟨hne, hmem⟩ := Finmap.mem_erase.mp hk
    exact (succ_le_iff hmax).mpr (lt_of_le_of_ne (ht.lower k hmem) hne.symm)
  · intro t ht hstop hsome
    obtain ⟨k, hk⟩ := hsome
    have hmem : k ∈ t.pending := Finmap.mem_keys.mp hk
    exact ht.startGapTimer (lt_of_le_of_lt (ht.lower k hmem) (ht.below k hmem))

theorem Window.receive (h : Window maxGapBuffer s)
    (hsettled : s.nextSeq ∉ s.pending) {seq : UInt64} (hmax : seq < maxUint64)
    (hhigh : seq.toNat ≤ s.nextSeq.toNat + maxGapBuffer) (payload : Payload) :
    Window maxGapBuffer (s.receive maxGapBuffer seq payload) ∧
      (s.receive maxGapBuffer seq payload).nextSeq ∉
        (s.receive maxGapBuffer seq payload).pending := by
  rcases receive_cases maxGapBuffer s seq payload with
    ⟨-, heq⟩ | ⟨hlow, -, heq⟩ | ⟨hjump, -⟩ | ⟨rfl, heq⟩
  · rw [heq]
    exact ⟨h, hsettled⟩
  · rw [heq]
    have hstored : Window maxGapBuffer
        { s with pending := s.pending.insert seq payload } := by
      refine ⟨h.toProgress.store hmax hhigh payload, fun k hk => ?_, h.early⟩
      rcases Finmap.mem_insert.mp hk with rfl | hold
      · exact le_of_lt hlow
      · exact h.lower k hold
    refine ⟨hstored.startGapTimer (lt_trans hlow hmax), ?_⟩
    simp only [startGapTimer_nextSeq, startGapTimer_pending, Finmap.mem_insert]
    rintro (rfl | hold)
    · exact lt_irrefl _ hlow
    · exact hsettled hold
  · omega
  · rw [heq]
    refine ⟨Window.drainPending ⟨h.toProgress.deliverAt (le_refl _) hmax payload,
      fun k hk => ?_, h.early⟩, drainPending_nextSeq_notMem _⟩
    refine (succ_le_iff hmax).mpr (lt_of_le_of_ne (h.lower k hk) ?_)
    rintro rfl
    exact hsettled hk

private theorem Window.skipGap (h : Window maxGapBuffer s)
    (hsettled : s.nextSeq ∉ s.pending) :
    Window maxGapBuffer s.skipGap ∧ s.skipGap.nextSeq ∉ s.skipGap.pending := by
  rcases skipGap_cases s with ⟨-, heq⟩ | ⟨least, hmem, -, hleast, heq⟩
  · rw [heq]
    exact ⟨h, hsettled⟩
  · rw [heq]
    exact ⟨Window.drainPending
      ⟨h.toProgress.advance (h.lower least hmem), hleast, h.early⟩,
      drainPending_nextSeq_notMem _⟩

theorem Window.leaveRepair (h : Window maxGapBuffer s) (missing : UInt64) :
    Window maxGapBuffer { s with repairs := s.repairs.erase missing } :=
  ⟨h.toProgress.leaveRepair missing, h.lower,
    fun e he => h.early e (he.imp id List.mem_of_mem_erase)⟩

theorem Window.step (h : Window maxGapBuffer s)
    (hsettled : s.nextSeq ∉ s.pending) {a : Action}
    (ha : InWindow maxGapBuffer s a) (hstep : s.step maxGapBuffer a = some t) :
    Window maxGapBuffer t ∧ t.nextSeq ∉ t.pending := by
  obtain ⟨seq, payload, rfl, rfl⟩ | ⟨seq, rfl, rfl⟩ | ⟨e, hmem, rfl, rfl⟩ |
    ⟨missing, hmem, payload, rfl, rfl⟩ | ⟨missing, -, rfl, rfl⟩ := step_cases hstep
  · exact h.receive hsettled ha.1 ha.2 payload
  · exact ha.elim
  · refine ⟨⟨h.toProgress.expire hmem, by simpa using h.lower, fun j hj => ?_⟩,
      by simpa using hsettled⟩
    exact h.early j (mem_expire_waiting hmem hj)
  · -- the repaired entry is never above `nextSeq`, however late it comes
    have := UInt64.le_iff_toNat_le.mp (h.waiting missing (.inr hmem))
    exact (h.leaveRepair missing).receive hsettled
      (h.early missing (.inr hmem)) (by simp only; omega) payload
  · exact (h.leaveRepair missing).skipGap hsettled

/-! ## What a step delivers and buffers -/

/--
Where an entry that a step delivers or leaves buffered comes from: it is the
one received, or it was buffered and the step received no copy of it.
-/
def Origin (s : Slot) (a : Action) (k : UInt64) (p : Payload) : Prop :=
  (a.entry = some (k, p) ∧ s.nextSeq ≤ k) ∨
    ((∀ q, a.entry ≠ some (k, q)) ∧ s.pending.lookup k = some p)

def Held (s : Slot) (k : UInt64) : Prop :=
  k ∈ s.delivered.map Prod.fst ∨ k ∈ s.pending

structure Effect (s t : Slot) (a : Action) : Prop where
  buffered : ∀ k p, t.pending.lookup k = some p → Origin s a k p
  output : ∀ k p, (k, p) ∈ t.delivered →
    (k, p) ∈ s.delivered ∨ Origin s a k p
  keeps : ∀ k, Held s k → Held t k
  accepts : ∀ k p, a.entry = some (k, p) → s.nextSeq ≤ k → Held t k

theorem held_of_drains (h : Drains s t) {k : UInt64} (hk : Held s k) :
    Held t k := by
  rcases hk with hdelivered | hpending
  · exact .inl ((h.log.map Prod.fst).subset hdelivered)
  · obtain ⟨p, hp⟩ := Finmap.mem_iff.mp hpending
    rcases h.held k p hp with hkept | hout
    · exact .inr (Finmap.mem_of_lookup_eq_some hkept)
    · exact .inl (List.mem_map.mpr ⟨(k, p), hout, rfl⟩)

theorem Effect.of_drains (h : Drains s t) {a : Action} (ha : a.entry = none) :
    Effect s t a where
  buffered k p hk := .inr ⟨by simp [ha], h.kept k p hk⟩
  output k p hk :=
    (h.moved k p hk).imp id fun hp => .inr ⟨by simp [ha], hp⟩
  keeps k hk := held_of_drains h hk
  accepts k p hk := by simp [ha] at hk

theorem entry_ne_of_ne {a : Action} {seq k : UInt64} {payload : Payload}
    (ha : a.entry = some (seq, payload)) (hk : k ≠ seq) (q : Payload) :
    a.entry ≠ some (k, q) := by
  intro hq
  rw [ha] at hq
  cases hq
  exact hk rfl

private theorem buffer_effect {seq : UInt64} {payload : Payload} {a : Action}
    (ha : a.entry = some (seq, payload)) (hlow : s.nextSeq < seq) :
    Effect s ({ s with pending := s.pending.insert seq payload }.startGapTimer s.nextSeq) a := by
  refine ⟨fun k p hk => ?_, fun k p hk => .inl (by simpa using hk),
    fun k hk => ?_, fun k p hk _ => ?_⟩
  · rw [startGapTimer_pending] at hk
    by_cases hkey : k = seq
    · subst hkey
      rw [Finmap.lookup_insert] at hk
      cases hk
      exact .inl ⟨ha, le_of_lt hlow⟩
    · rw [Finmap.lookup_insert_of_ne _ hkey] at hk
      exact .inr ⟨entry_ne_of_ne ha hkey, hk⟩
  · rcases hk with hdelivered | hpending
    · exact .inl (by simpa using hdelivered)
    · refine .inr ?_
      rw [startGapTimer_pending]
      exact Finmap.mem_insert.mpr (.inr hpending)
  · rw [ha] at hk
    cases hk
    refine .inr ?_
    rw [startGapTimer_pending]
    exact Finmap.mem_insert.mpr (.inl rfl)

private theorem awaited_effect (hsettled : s.nextSeq ∉ s.pending) {payload : Payload} {a : Action}
    (ha : a.entry = some (s.nextSeq, payload)) :
    Effect s { s.deliver s.nextSeq payload with nextSeq := s.nextSeq + 1 }.drainPending a := by
  have hdrains := drainPending_drains
    { s.deliver s.nextSeq payload with nextSeq := s.nextSeq + 1 }
  have hne : ∀ k p, s.pending.lookup k = some p → k ≠ s.nextSeq := by
    rintro k p hk rfl
    exact hsettled (Finmap.mem_of_lookup_eq_some hk)
  refine ⟨fun k p hk => ?_, fun k p hk => ?_, fun k hk => ?_, fun k p hk _ => ?_⟩
  · have hp := hdrains.kept k p hk
    exact .inr ⟨entry_ne_of_ne ha (hne k p hp), hp⟩
  · rcases hdrains.moved k p hk with hout | hp
    · rcases List.mem_append.mp hout with hold | hnew
      · exact .inl hold
      · obtain ⟨rfl, rfl⟩ : k = s.nextSeq ∧ p = payload := by simpa using hnew
        exact .inr (.inl ⟨ha, le_refl _⟩)
    · exact .inr (.inr ⟨entry_ne_of_ne ha (hne k p hp), hp⟩)
  · refine held_of_drains hdrains ?_
    rcases hk with hdelivered | hpending
    · refine .inl ?_
      simp only [deliver, List.map_append]
      exact List.mem_append_left _ hdelivered
    · exact .inr hpending
  · rw [ha] at hk
    cases hk
    exact held_of_drains hdrains (.inl (by simp [deliver]))

private theorem Window.receive_effect (h : Window maxGapBuffer s)
    (hsettled : s.nextSeq ∉ s.pending) {seq : UInt64} {payload : Payload}
    (hhigh : seq.toNat ≤ s.nextSeq.toNat + maxGapBuffer) {a : Action}
    (ha : a.entry = some (seq, payload)) :
    Effect s (s.receive maxGapBuffer seq payload) a := by
  rcases receive_cases maxGapBuffer s seq payload with
    ⟨hold, heq⟩ | ⟨hlow, -, heq⟩ | ⟨hjump, -⟩ | ⟨rfl, heq⟩
  · -- a duplicate: nothing happens, and it cannot be buffered either
    rw [heq]
    refine ⟨fun k p hk => .inr ⟨entry_ne_of_ne ha ?_, hk⟩, fun k p hk => .inl hk,
      fun k hk => hk, fun k p hk hle => ?_⟩
    · rintro rfl
      exact absurd (h.lower _ (Finmap.mem_of_lookup_eq_some hk)) (not_le.mpr hold)
    · rw [ha] at hk
      cases hk
      exact absurd hle (not_le.mpr hold)
  · rw [heq]
    exact buffer_effect ha hlow
  · omega
  · rw [heq]
    exact awaited_effect hsettled ha

theorem Window.step_effect (h : Window maxGapBuffer s)
    (hsettled : s.nextSeq ∉ s.pending) {a : Action}
    (ha : InWindow maxGapBuffer s a) (hstep : s.step maxGapBuffer a = some t) :
    Effect s t a := by
  obtain ⟨seq, payload, rfl, rfl⟩ | ⟨seq, rfl, rfl⟩ | ⟨e, -, rfl, rfl⟩ |
    ⟨missing, hmem, payload, rfl, rfl⟩ | ⟨missing, -, rfl, rfl⟩ := step_cases hstep
  · exact h.receive_effect hsettled ha.2 rfl
  · exact ha.elim
  · refine .of_drains ⟨?_, ?_, ?_⟩ rfl
    · simp
    · exact fun k p hk => .inl (by simpa using hk)
    · exact ⟨[], by simp, by simp⟩
  · have := UInt64.le_iff_toNat_le.mp (h.waiting missing (.inr hmem))
    obtain ⟨hbuffered, houtput, hkeeps, haccepts⟩ :=
      (h.leaveRepair missing).receive_effect (a := .repairReply missing payload)
        hsettled (by simp only; omega) rfl
    exact ⟨hbuffered, houtput, hkeeps, haccepts⟩
  · have h := skipGap_drains { s with repairs := s.repairs.erase missing }
    have hdrains : Drains s
        { s with repairs := s.repairs.erase missing }.skipGap :=
      ⟨h.kept, h.held, h.appended⟩
    exact .of_drains hdrains rfl

/-! ## Whole runs -/

def lastReceived (seq : UInt64) (acts : List Action) : Option Payload :=
  (acts.filterMap Action.entry).foldl
    (fun last entry => if entry.1 = seq then some entry.2 else last) none

theorem lastReceived_snoc_of_entry {acts : List Action} {a : Action}
    {seq : UInt64} {payload : Payload} (ha : a.entry = some (seq, payload)) :
    lastReceived seq (acts ++ [a]) = some payload := by
  simp [lastReceived, List.filterMap_append, ha]

theorem lastReceived_snoc_of_ne {acts : List Action} {a : Action}
    {seq : UInt64} (ha : ∀ payload, a.entry ≠ some (seq, payload)) :
    lastReceived seq (acts ++ [a]) = lastReceived seq acts := by
  cases hentry : a.entry with
  | none => simp [lastReceived, List.filterMap_append, hentry]
  | some entry =>
      have hne : entry.1 ≠ seq := by
        rintro rfl
        exact ha entry.2 hentry
      simp [lastReceived, List.filterMap_append, hentry, hne]

/-- `seq` was received at or above the `nextSeq` of that moment. -/
def Accepted (maxGapBuffer : Nat) (s : Slot) (acts : List Action)
    (seq : UInt64) : Prop :=
  ∃ before a after payload t, acts = before ++ a :: after ∧
    a.entry = some (seq, payload) ∧
    exec (Slot.step maxGapBuffer) s before = some t ∧ t.nextSeq ≤ seq

theorem accepted_snoc_iff {acts : List Action} {a : Action} {seq : UInt64}
    (hrun : exec (Slot.step maxGapBuffer) s acts = some t) :
    Accepted maxGapBuffer s (acts ++ [a]) seq ↔
      Accepted maxGapBuffer s acts seq ∨
        ∃ payload, a.entry = some (seq, payload) ∧ t.nextSeq ≤ seq := by
  constructor
  · rintro ⟨before, b, after, payload, u, heq, hentry, hbefore, hle⟩
    induction after using List.reverseRecOn with
    | nil =>
        obtain ⟨rfl, hlast⟩ := List.append_inj' heq rfl
        obtain rfl : a = b := by simpa using hlast
        rw [hrun] at hbefore
        cases hbefore
        exact .inr ⟨payload, hentry, hle⟩
    | append_singleton after c _ =>
        rw [← List.cons_append, ← List.append_assoc] at heq
        obtain ⟨rfl, -⟩ := List.append_inj' heq rfl
        exact .inl ⟨before, b, after, payload, u, rfl, hentry, hbefore, hle⟩
  · rintro (⟨before, b, after, payload, u, rfl, hentry, hbefore, hle⟩ |
      ⟨payload, hentry, hle⟩)
    · exact ⟨before, b, after ++ [a], payload, u, by simp, hentry, hbefore, hle⟩
    · exact ⟨acts, a, [], payload, t, rfl, hentry, hrun, hle⟩

structure History (maxGapBuffer : Nat) (start : Slot) (acts : List Action)
    (s : Slot) : Prop where
  window : Window maxGapBuffer s
  settled : s.nextSeq ∉ s.pending
  held : ∀ k, Accepted maxGapBuffer start acts k ↔ Held s k
  payload : ∀ k p, s.pending.lookup k = some p → lastReceived k acts = some p

theorem Origin.lastReceived {acts : List Action} {a : Action} {k : UInt64}
    {p : Payload} (h : Origin s a k p)
    (hpayload : ∀ k p, s.pending.lookup k = some p →
      lastReceived k acts = some p) :
    Slot.lastReceived k (acts ++ [a]) = some p := by
  rcases h with ⟨hentry, -⟩ | ⟨hnone, hp⟩
  · exact lastReceived_snoc_of_entry hentry
  · rw [lastReceived_snoc_of_ne hnone]
    exact hpayload k p hp

private theorem history_fresh (n : UInt64) :
    History maxGapBuffer (fresh n) [] (fresh n) where
  window := window_fresh n
  settled := by simp [fresh, Finmap.notMem_empty]
  held k := by
    constructor
    · rintro ⟨before, a, after, payload, t, heq, -⟩
      simp at heq
    · simp [Held, fresh, Finmap.notMem_empty]
  payload k p hk := by simp [fresh] at hk

private theorem History.step {start : Slot} {acts : List Action} {a : Action}
    (h : History maxGapBuffer start acts s)
    (hrun : exec (Slot.step maxGapBuffer) start acts = some s)
    (ha : InWindow maxGapBuffer s a) (hstep : s.step maxGapBuffer a = some t) :
    History maxGapBuffer start (acts ++ [a]) t := by
  have heffect := h.window.step_effect h.settled ha hstep
  obtain ⟨hwindow, hsettled⟩ := h.window.step h.settled ha hstep
  have hnew : ∀ k p, Origin s a k p →
      Accepted maxGapBuffer start (acts ++ [a]) k := by
    rintro k p (⟨hentry, hle⟩ | ⟨-, hp⟩)
    · exact (accepted_snoc_iff hrun).mpr (.inr ⟨p, hentry, hle⟩)
    · refine (accepted_snoc_iff hrun).mpr (.inl ((h.held k).mpr (.inr ?_)))
      exact Finmap.mem_of_lookup_eq_some hp
  refine ⟨hwindow, hsettled, fun k => ⟨fun hk => ?_, fun hk => ?_⟩,
    fun k p hk => (heffect.buffered k p hk).lastReceived h.payload⟩
  · rcases (accepted_snoc_iff hrun).mp hk with hold | ⟨p, hentry, hle⟩
    · exact heffect.keeps k ((h.held k).mp hold)
    · exact heffect.accepts k p hentry hle
  · rcases hk with hout | hpending
    · obtain ⟨⟨j, p⟩, hmem, rfl⟩ := List.mem_map.mp hout
      rcases heffect.output j p hmem with hold | horigin
      · refine (accepted_snoc_iff hrun).mpr (.inl ((h.held j).mpr (.inl ?_)))
        exact List.mem_map.mpr ⟨(j, p), hold, rfl⟩
      · exact hnew j p horigin
    · obtain ⟨p, hp⟩ := Finmap.mem_iff.mp hpending
      exact hnew k p (heffect.buffered k p hp)

private theorem history_of_run {n : UInt64} {acts : List Action}
    (halong : Along (Slot.step maxGapBuffer) (InWindow maxGapBuffer)
      (fresh n) acts)
    (hrun : exec (Slot.step maxGapBuffer) (fresh n) acts = some s) :
    History maxGapBuffer (fresh n) acts s :=
  exec_history_invariant (History maxGapBuffer (fresh n)) (history_fresh n)
    (fun _ _ _ _ hpre h ha hstep => h.step hpre ha hstep) halong hrun

structure InWindowSpec (maxGapBuffer : Nat) (n : UInt64) (acts : List Action)
    (s : Slot) : Prop where
  increasing : (s.delivered.map Prod.fst).Pairwise (· < ·)
  bounded : (∀ k ∈ s.pending, s.nextSeq < k ∧
      k.toNat ≤ s.nextSeq.toNat + maxGapBuffer) ∧
    s.pending.keys.card ≤ maxGapBuffer
  complete : ∀ seq, Accepted maxGapBuffer (fresh n) acts seq →
    ((s.delivered.map Prod.fst).count seq = 1 ∧ seq ∉ s.pending) ∨
      ((s.delivered.map Prod.fst).count seq = 0 ∧ seq ∈ s.pending)
  buffered : ∀ k p, s.pending.lookup k = some p → lastReceived k acts = some p
  output : ∀ before a after t u k p, acts = before ++ a :: after →
    exec (Slot.step maxGapBuffer) (fresh n) before = some t →
    t.step maxGapBuffer a = some u →
    (k, p) ∈ u.delivered → (k, p) ∉ t.delivered →
    lastReceived k (before ++ [a]) = some p
  sound : ∀ k ∈ s.delivered.map Prod.fst, Accepted maxGapBuffer (fresh n) acts k

private theorem inWindowSpec_of_run {n : UInt64} {acts : List Action}
    (halong : Along (Slot.step maxGapBuffer) (InWindow maxGapBuffer)
      (fresh n) acts)
    (hrun : exec (Slot.step maxGapBuffer) (fresh n) acts = some s) :
    InWindowSpec maxGapBuffer n acts s := by
  have h := history_of_run halong hrun
  have habove : ∀ k ∈ s.pending, s.nextSeq < k := by
    intro k hk
    refine lt_of_le_of_ne (h.window.lower k hk) ?_
    rintro rfl
    exact h.settled hk
  refine ⟨h.window.sorted, ⟨fun k hk => ⟨habove k hk, h.window.upper k hk⟩, ?_⟩,
    fun seq hseq => ?_, h.payload, ?_, fun k hk => (h.held k).mpr (.inl hk)⟩
  · refine card_le_of_window s.nextSeq.toNat fun k hk => ?_
    have hmem : k ∈ s.pending := Finmap.mem_keys.mp hk
    exact ⟨UInt64.lt_iff_toNat_lt.mp (habove k hmem), h.window.upper k hmem⟩
  · have hnodup : (s.delivered.map Prod.fst).Nodup :=
      h.window.sorted.imp fun hlt => ne_of_lt hlt
    have hdisjoint : seq ∈ s.pending → seq ∉ s.delivered.map Prod.fst :=
      fun hp hd => lt_asymm (habove seq hp) (h.window.past seq hd)
    rcases (h.held seq).mp hseq with hd | hp
    · exact .inl ⟨List.count_eq_one_of_mem hnodup hd, fun hp => hdisjoint hp hd⟩
    · exact .inr ⟨List.count_eq_zero.mpr (hdisjoint hp), hp⟩
  · intro before a after t u k p heq hbefore hstep hnew hold
    subst heq
    obtain ⟨halongBefore, ha, -⟩ := (along_append hbefore).mp halong
    have hb := history_of_run halongBefore hbefore
    have heffect := hb.window.step_effect hb.settled ha hstep
    rcases heffect.output k p hnew with hmem | horigin
    · exact absurd hmem hold
    · exact horigin.lastReceived hb.payload

end Slot

/--
In-window runs of the whole applier, for every topic and every first `nextSeq`.
Other topics may do anything; the steps of `topic` never receive a sequence
number more than `maxGapBuffer` above its current `nextSeq`.
-/
theorem OrderedApplier.inWindow_run (o o' : OrderedApplier) (topic : UInt16)
    (n : UInt64) (acts : List (UInt16 × Action))
    (hstart : o.slots topic = Slot.fresh n)
    (hwindow : Along OrderedApplier.step
      (fun p act => act.1 = topic →
        Slot.InWindow p.maxGapBuffer (p.slots topic) act.2) o acts)
    (hrun : exec OrderedApplier.step o acts = some o') :
    Slot.InWindowSpec o.maxGapBuffer n
      (acts.filterMap (OrderedApplier.ofTopic topic)) (o'.slots topic) := by
  have halong := (OrderedApplier.along_slot_iff topic Slot.InWindow hrun).mp hwindow
  have hslot := OrderedApplier.exec_slot topic hrun
  rw [hstart] at halong hslot
  exact Slot.inWindowSpec_of_run halong hslot

def windowTrace : List (UInt16 × Action) :=
  [(7, .receive 3 [3]), (9, .receive 500 [9]), (7, .expire 1),
   (7, .receive 2 [2]), (7, .repairReply 1 [1]), (7, .expire 1),
   (7, .receive 6 [6]), (7, .receive 7 [7]), (7, .expire 4),
   (7, .repairFail 4)]

theorem OrderedApplier.inWindow_run_windowTrace :
    ∃ o', exec OrderedApplier.step ⟨64, fun _ => Slot.fresh 1⟩ windowTrace = some o' ∧
      (o'.slots 7).delivered = [(1, [1]), (2, [2]), (3, [3]), (6, [6]), (7, [7])] ∧
      Slot.InWindowSpec 64 1
        (windowTrace.filterMap (OrderedApplier.ofTopic 7)) (o'.slots 7) := by
  have hsome : ((exec OrderedApplier.step ⟨64, fun _ => Slot.fresh 1⟩
      windowTrace).map fun o' => (o'.slots 7).delivered) =
      some [(1, [1]), (2, [2]), (3, [3]), (6, [6]), (7, [7])] := by decide
  obtain ⟨o', hrun, hdelivered⟩ := Option.map_eq_some_iff.mp hsome
  exact ⟨o', hrun, hdelivered,
    OrderedApplier.inWindow_run ⟨64, fun _ => Slot.fresh 1⟩ o' 7 1 windowTrace rfl
      (by decide) hrun⟩

end GossipMesh.Engine
