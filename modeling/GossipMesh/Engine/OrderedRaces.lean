import GossipMesh.Engine.OrderedSteps
import GossipMesh.Engine.Seen

/-!
# Concurrent calls of `Receive`

Goroutines that receive different numbers of one window keep the order of the
topic although no lock guards it: only the goroutine that holds the next number
can deliver it and move `nextSeq`, and there is only one of it.
-/

namespace GossipMesh.Engine

open GossipMesh.Foundation

namespace SlotPoint

def advancing : SlotPoint → Nat
  | .advance => 1
  | _ => 0

/--
What is known of the point a goroutine has reached, as long as no gap is
skipped or jumped over.
-/
def Placed (nextSeq : UInt64) (advancing : Nat) : SlotPoint → Prop
  | .deliver seq _ => seq = nextSeq ∧ advancing = 0
  | .take next => next ≤ nextSeq
  | .deliverAhead _ _ | .jump _ | .onGap _ | .scan _ | .skip _ | .reset _ | .clear => False
  | _ => True

end SlotPoint

namespace SlotThreads

/-- Numbers that differ, of a window that fits the buffer and the range of words. -/
structure Window (maxGapBuffer : Nat) (n : UInt64) (entries : List Numbered) : Prop where
  distinct : (entries.map Prod.fst).Nodup
  low : ∀ e ∈ entries, n ≤ e.1
  high : ∀ e ∈ entries, e.1.toNat ≤ n.toNat + maxGapBuffer
  range : n.toNat + maxGapBuffer < 2 ^ 64 - 1

/-- No timer that wakes finds the gap it was started for. -/
def GapClosed (s : SlotThreads) (l : Nat × SlotChoice) : Prop :=
  s.routines[l.1]? ≠ some (.check s.memory.nextSeq)

instance decidableGapClosed (s : SlotThreads) (l : Nat × SlotChoice) :
    Decidable (s.GapClosed l) :=
  inferInstanceAs (Decidable (s.routines[l.1]? ≠ some (.check s.memory.nextSeq)))

/-- The deliveries are the numbers from `n` on, up to `nextSeq` or just beyond it. -/
structure InOrder (n : UInt64) (entries : List Numbered) (s : SlotThreads) : Prop where
  received : s.memory.received = entries
  discarded : s.memory.discarded = []
  accounted : s.Accounted
  words : s.memory.delivered.map Prod.fst = wordsFrom n s.memory.delivered.length
  level : n.toNat + s.memory.delivered.length =
    s.memory.nextSeq.toNat + Threads.total SlotPoint.advancing s.routines
  low : n ≤ s.memory.nextSeq
  single : Threads.total SlotPoint.advancing s.routines ≤ 1
  placed : ∀ p ∈ s.routines, p.Placed s.memory.nextSeq
    (Threads.total SlotPoint.advancing s.routines)

variable {maxGapBuffer : Nat} {n : UInt64} {entries : List Numbered} {s : SlotThreads}
  {before after new : List SlotPoint} {p p' : SlotPoint}

theorem inOrder_start (n : UInt64) (entries : List Numbered) :
    InOrder n entries (start n (entries.map fun e => .receive e.1 e.2)) := by
  have hpoints : ∀ p ∈ (start n (entries.map fun e => .receive e.1 e.2)).routines,
      ∃ seq payload, p = .load seq payload := by
    intro p hp
    obtain ⟨call, hcall, rfl⟩ := List.mem_map.mp hp
    obtain ⟨e, -, rfl⟩ := List.mem_map.mp hcall
    exact ⟨e.1, e.2, rfl⟩
  have hnone : Threads.total SlotPoint.advancing
      (start n (entries.map fun e => .receive e.1 e.2)).routines = 0 := by
    refine List.sum_eq_zero fun x hx => ?_
    obtain ⟨p, hp, rfl⟩ := List.mem_map.mp hx
    obtain ⟨seq, payload, rfl⟩ := hpoints p hp
    rfl
  refine ⟨?_, rfl, accounted_start n _, rfl, ?_, le_refl n, ?_, ?_⟩
  · simp [start, SlotMemory.fresh, Function.comp_def, Call.entry]
  · rw [hnone]
    rfl
  · rw [hnone]
    exact Nat.zero_le 1
  · intro p hp
    obtain ⟨seq, payload, rfl⟩ := hpoints p hp
    trivial

namespace InOrder

theorem nodup (h : InOrder n entries s) (hwindow : Window maxGapBuffer n entries) :
    ((s.memory.delivered + held s.memory.pending +
      Threads.total SlotPoint.carried s.routines).map Prod.fst).Nodup := by
  have hledger := h.accounted
  rw [Accounted, h.received, SlotMemory.stock, h.discarded, Multiset.coe_nil, add_zero] at hledger
  rw [← hledger, Multiset.map_coe, Multiset.coe_nodup]
  exact hwindow.distinct

theorem mem_delivered (h : InOrder n entries s) {seq : UInt64} (hlow : n ≤ seq)
    (hhigh : seq.toNat < n.toNat + s.memory.delivered.length) :
    seq ∈ s.memory.delivered.map Prod.fst := by
  have hsize := s.memory.nextSeq.toNat_lt
  have hlevel := h.level
  have hsingle := h.single
  rw [h.words, mem_wordsFrom_iff (by omega)]
  exact ⟨UInt64.le_iff_toNat_le.mp hlow, hhigh⟩

theorem carried_fresh (h : InOrder n entries s) (hwindow : Window maxGapBuffer n entries)
    (hsplit : s.routines = before ++ p :: after) {e : Numbered} (he : e ∈ p.carried) :
    e.1 ∉ s.memory.delivered.map Prod.fst ∧ s.memory.pending.lookup e.1 = none ∧
      ∀ q ∈ before ++ after, ∀ f ∈ q.carried, f.1 ≠ e.1 := by
  have hnodup := h.nodup hwindow
  rw [hsplit, Threads.total_move, add_comm p.carried, ← add_assoc, Multiset.map_add,
    Multiset.nodup_add] at hnodup
  have hfresh : e.1 ∉ (s.memory.delivered + held s.memory.pending +
      Threads.total SlotPoint.carried (before ++ after)).map Prod.fst := fun hmem =>
    Multiset.disjoint_left.mp hnodup.2.2 hmem (Multiset.mem_map_of_mem Prod.fst he)
  rw [Multiset.map_add, Multiset.map_add, Multiset.mem_add, Multiset.mem_add, not_or,
    not_or] at hfresh
  obtain ⟨⟨hdelivered, hheld⟩, hothers⟩ := hfresh
  refine ⟨by simpa using hdelivered, ?_, ?_⟩
  · cases hlookup : s.memory.pending.lookup e.1 with
    | none => rfl
    | some val =>
        exact (hheld (Multiset.mem_map.mpr ⟨(e.1, val), mem_held.mpr hlookup, rfl⟩)).elim
  · intro q hq f hf heq
    exact hothers (Multiset.mem_map.mpr ⟨f, Threads.mem_total.mpr ⟨q, hq, hf⟩, heq⟩)

theorem held_fresh (h : InOrder n entries s) (hwindow : Window maxGapBuffer n entries)
    {seq : UInt64} {val : Payload} (hheld : s.memory.pending.lookup seq = some val) :
    seq ∉ s.memory.delivered.map Prod.fst := by
  have hnodup := h.nodup hwindow
  rw [Multiset.map_add, Multiset.map_add, Multiset.nodup_add, Multiset.nodup_add] at hnodup
  have hmem : seq ∈ (held s.memory.pending).map Prod.fst :=
    Multiset.mem_map.mpr ⟨(seq, val), mem_held.mpr hheld, rfl⟩
  intro hdelivered
  exact Multiset.disjoint_left.mp hnodup.1.2.2 (by simpa using hdelivered) hmem

theorem mem_entries (h : InOrder n entries s) {e : Numbered} :
    e ∈ entries ↔ e ∈ s.memory.delivered ∨ s.memory.pending.lookup e.1 = some e.2 ∨
      ∃ p ∈ s.routines, e ∈ p.carried := by
  rw [← h.received, ← Multiset.mem_coe, h.accounted, SlotMemory.stock, h.discarded,
    Multiset.coe_nil, add_zero, Multiset.mem_add, Multiset.mem_add, Multiset.mem_coe, mem_held,
    Threads.mem_total, or_assoc]

theorem nextSeq_le (h : InOrder n entries s) {seq : UInt64} (hlow : n ≤ seq)
    (hfresh : seq ∉ s.memory.delivered.map Prod.fst) :
    s.memory.nextSeq ≤ seq ∧
      (seq = s.memory.nextSeq → Threads.total SlotPoint.advancing s.routines = 0) := by
  have hbeyond : n.toNat + s.memory.delivered.length ≤ seq.toNat := by
    by_contra hbelow
    exact hfresh (h.mem_delivered hlow (not_le.mp hbelow))
  have hlevel := h.level
  constructor
  · rw [UInt64.le_iff_toNat_le]
    omega
  · rintro rfl
    omega

theorem quiet (h : InOrder n entries s) (hsplit : s.routines = before ++ p :: after)
    {m' : SlotMemory} (hnext : m'.nextSeq = s.memory.nextSeq)
    (hdelivered : m'.delivered = s.memory.delivered)
    (hreceived : m'.received = s.memory.received)
    (hdiscarded : m'.discarded = s.memory.discarded)
    (haccounted : Accounted ⟨m', before ++ p' :: after ++ new⟩)
    (hp : p.advancing = 0) (hp' : p'.advancing = 0)
    (hplaced : p'.Placed s.memory.nextSeq (Threads.total SlotPoint.advancing s.routines))
    (hnew : ∀ q ∈ new, q.advancing = 0 ∧ q.Placed s.memory.nextSeq
      (Threads.total SlotPoint.advancing s.routines)) :
    InOrder n entries ⟨m', before ++ p' :: after ++ new⟩ := by
  have hnone : Threads.total SlotPoint.advancing new = 0 :=
    List.sum_eq_zero fun x hx => by
      obtain ⟨q, hq, rfl⟩ := List.mem_map.mp hx
      exact (hnew q hq).1
  have hadvancing : Threads.total SlotPoint.advancing (before ++ p' :: after ++ new) =
      Threads.total SlotPoint.advancing s.routines := by
    simp [hsplit, hp, hp', hnone]
  refine ⟨hreceived.trans h.received, hdiscarded.trans h.discarded, haccounted, ?_, ?_, ?_, ?_,
    ?_⟩
  · rw [hdelivered]
    exact h.words
  · rw [hdelivered, hnext, hadvancing]
    exact h.level
  · rw [hnext]
    exact h.low
  · rw [hadvancing]
    exact h.single
  · rw [hnext, hadvancing]
    intro q hq
    rw [List.mem_append, List.mem_append, List.mem_cons] at hq
    rcases hq with (hq | rfl | hq) | hq
    · exact h.placed q (by simp [hsplit, hq])
    · exact hplaced
    · exact h.placed q (by simp [hsplit, hq])
    · exact (hnew q hq).2

private theorem deliver {seq : UInt64} {payload : Payload} (h : InOrder n entries s)
    (hwindow : Window maxGapBuffer n entries)
    (hsplit : s.routines = before ++ .deliver seq payload :: after)
    (haccounted : Accounted ⟨s.memory.deliver seq payload, before ++ .advance :: after ++ []⟩) :
    InOrder n entries ⟨s.memory.deliver seq payload, before ++ .advance :: after ++ []⟩ := by
  obtain ⟨hseq, hnone⟩ := h.placed (.deliver seq payload) (by simp [hsplit])
  have hothers := (h.carried_fresh hwindow hsplit (Multiset.mem_singleton_self _)).2.2
  have hlevel := h.level
  have hone : Threads.total SlotPoint.advancing (before ++ .advance :: after ++ []) = 1 := by
    rw [hsplit] at hnone
    simp only [Threads.total_append, Threads.total_cons, Threads.total_nil,
      SlotPoint.advancing] at hnone ⊢
    omega
  have hword : seq = n + UInt64.ofNat s.memory.delivered.length := by
    have hsize := seq.toNat_lt
    rw [← hseq] at hlevel
    apply UInt64.toNat_inj.mp
    rw [toNat_add_ofNat (by omega)]
    omega
  refine ⟨h.received, h.discarded, haccounted, ?_, ?_, h.low, ?_, ?_⟩
  · simp only [SlotMemory.deliver, List.map_append, List.map_cons, List.map_nil,
      List.length_append, List.length_singleton]
    rw [h.words, wordsFrom_succ, ← hword]
  · rw [hone]
    simp only [SlotMemory.deliver, List.length_append, List.length_singleton]
    omega
  · rw [hone]
  · rw [hone]
    intro q hq
    rw [List.append_nil, List.mem_append, List.mem_cons, or_left_comm] at hq
    rcases hq with rfl | hq
    · trivial
    · have hplaced := h.placed q
        (hsplit ▸ List.mem_append.mpr (hq.imp id (List.mem_cons_of_mem _)))
      cases q with
      | deliver seq' payload' =>
          exact (hothers _ (List.mem_append.mpr hq) (seq', payload')
            (Multiset.mem_singleton_self _) (hplaced.1.trans hseq.symm)).elim
      | _ => exact hplaced

private theorem advance (h : InOrder n entries s) (hwindow : Window maxGapBuffer n entries)
    (hsplit : s.routines = before ++ .advance :: after)
    (haccounted : Accounted
      ⟨{ s.memory with nextSeq := s.memory.nextSeq + 1 }, before ++ .drain :: after ++ []⟩) :
    InOrder n entries
      ⟨{ s.memory with nextSeq := s.memory.nextSeq + 1 }, before ++ .drain :: after ++ []⟩ := by
  have hlevel := h.level
  have hsingle := h.single
  have hlow := h.low
  have hone : Threads.total SlotPoint.advancing s.routines = 1 := by
    rw [hsplit] at hsingle ⊢
    simp only [Threads.total_append, Threads.total_cons, SlotPoint.advancing] at hsingle ⊢
    omega
  have hnone : Threads.total SlotPoint.advancing (before ++ .drain :: after ++ []) = 0 := by
    rw [hsplit] at hone
    simp only [Threads.total_append, Threads.total_cons, Threads.total_nil,
      SlotPoint.advancing] at hone ⊢
    omega
  have hsucc : (s.memory.nextSeq + 1).toNat = s.memory.nextSeq.toNat + 1 := by
    obtain ⟨e, he, heq⟩ := List.mem_map.mp (h.mem_delivered hlow (by omega))
    have hhigh := hwindow.high e (h.mem_entries.mpr (.inl he))
    have hrange := hwindow.range
    refine toNat_succ (UInt64.lt_iff_toNat_lt.mpr ?_)
    rw [← heq, maxUint64_toNat]
    omega
  refine ⟨h.received, h.discarded, haccounted, h.words, ?_, ?_, ?_, ?_⟩
  · change n.toNat + s.memory.delivered.length = (s.memory.nextSeq + 1).toNat + _
    rw [hnone, hsucc]
    omega
  · rw [UInt64.le_iff_toNat_le] at hlow ⊢
    rw [hsucc]
    omega
  · rw [hnone]
    exact Nat.zero_le 1
  · rw [hnone]
    intro q hq
    rw [List.append_nil] at hq
    rcases Threads.mem_of_move .advance hq with rfl | hq
    · trivial
    · have hplaced := h.placed q (hsplit ▸ hq)
      rw [hone] at hplaced
      cases q with
      | deliver seq payload => exact absurd hplaced.2 Nat.one_ne_zero
      | take next =>
          have hnext := UInt64.le_iff_toNat_le.mp hplaced
          refine UInt64.le_iff_toNat_le.mpr ?_
          rw [hsucc]
          omega
      | _ => exact hplaced

private theorem step (h : InOrder n entries s) (hwindow : Window maxGapBuffer n entries)
    {t : SlotThreads} {l : Nat × SlotChoice} (hgap : s.GapClosed l)
    (hstep : SlotThreads.step maxGapBuffer s l = some t) : InOrder n entries t := by
  have haccounted := accounted_step h.accounted hstep
  obtain ⟨i, c⟩ := l
  obtain ⟨before, p, after, p', new, hat, hsplit, hop, hroutines⟩ := Threads.step_eq_some hstep
  obtain ⟨m', routines'⟩ := t
  subst hroutines
  have hmem : p ∈ s.routines := by simp [hsplit]
  have hplaced := h.placed p hmem
  have hhand : ∀ e ∈ p.carried, e ∈ entries := fun e he =>
    h.mem_entries.mpr (.inr (.inr ⟨p, hmem, he⟩))
  cases operates_of_operate hop with
  | duplicate seq payload hlt =>
      have he : (seq, payload) ∈ (SlotPoint.load seq payload).carried :=
        Multiset.mem_singleton_self _
      have hfresh := (h.carried_fresh hwindow hsplit he).1
      have hle := (h.nextSeq_le (hwindow.low _ (hhand _ he)) hfresh).1
      exact absurd hlt (not_lt.mpr hle)
  | tooFar seq payload hlt hcount =>
      have hhigh := hwindow.high _ (hhand (seq, payload) (Multiset.mem_singleton_self _))
      have hlow := UInt64.le_iff_toNat_le.mp h.low
      rw [toNat_sub_of_lt hlt] at hcount
      dsimp only at hhigh
      omega
  | next payload =>
      have he : (s.memory.nextSeq, payload) ∈
          (SlotPoint.load s.memory.nextSeq payload).carried := Multiset.mem_singleton_self _
      have hfresh := (h.carried_fresh hwindow hsplit he).1
      have hnone := (h.nextSeq_le h.low hfresh).2 rfl
      exact h.quiet hsplit rfl rfl rfl rfl haccounted rfl rfl ⟨rfl, hnone⟩ (by simp)
  | store seq payload expected =>
      have hfresh := (h.carried_fresh hwindow hsplit (Multiset.mem_singleton_self _)).2.1
      refine h.quiet hsplit rfl rfl rfl ?_ haccounted rfl rfl trivial (by simp)
      simp [SlotMemory.discard, hfresh]
  | deliver seq payload => exact h.deliver hwindow hsplit haccounted
  | advance => exact h.advance hwindow hsplit haccounted
  | drain => exact h.quiet hsplit rfl rfl rfl rfl haccounted rfl rfl (le_refl _) (by simp)
  | take next val hsome =>
      have hlow := hwindow.low (next, val) (h.mem_entries.mpr (.inr (.inl hsome)))
      obtain ⟨hle, hnone⟩ := h.nextSeq_le hlow (h.held_fresh hwindow hsome)
      have heq : next = s.memory.nextSeq := le_antisymm hplaced hle
      exact h.quiet hsplit rfl rfl rfl rfl haccounted rfl rfl ⟨heq, hnone heq⟩ (by simp)
  | gapOpen => exact absurd hat hgap
  | arm expected hclear =>
      refine h.quiet hsplit rfl rfl rfl rfl haccounted rfl rfl trivial ?_
      intro q hq
      obtain rfl := List.mem_singleton.mp hq
      exact ⟨rfl, trivial⟩
  | ahead | armed | absent | hasPending | noPending | reload | wake | gapClosed =>
      exact h.quiet hsplit rfl rfl rfl rfl haccounted rfl rfl trivial (by simp)
  | _ => exact hplaced.elim

end InOrder

/--
Goroutines that receive different numbers of a window deliver the numbers from
`n` on in order, whatever the interleaving, unless a timer finds its gap still
open.  Nothing is discarded: what a finished call received is delivered or
buffered.
-/
theorem receive_concurrently_inOrder {labels : List (Nat × SlotChoice)}
    (hwindow : Window maxGapBuffer n entries)
    (hgaps : Along (SlotThreads.step maxGapBuffer) GapClosed
      (start n (entries.map fun e => .receive e.1 e.2)) labels)
    (hrun : exec (SlotThreads.step maxGapBuffer)
      (start n (entries.map fun e => .receive e.1 e.2)) labels = some s) :
    s.memory.delivered.map Prod.fst = wordsFrom n s.memory.delivered.length ∧
      (∀ e ∈ s.memory.delivered, e ∈ entries) ∧
      ∀ e ∈ entries, e ∈ s.memory.delivered ∨ s.memory.pending.lookup e.1 = some e.2 ∨
        ∃ p ∈ s.routines, e ∈ p.carried := by
  have h : InOrder n entries s := exec_invariant_of_along (InOrder n entries)
    (fun _ _ _ hu hgap hstep => hu.step hwindow hgap hstep) (inOrder_start n entries) hgaps hrun
  exact ⟨h.words, fun e he => h.mem_entries.mpr (.inl he), fun e he => h.mem_entries.mp he⟩

def overtaken : List (Nat × SlotChoice) :=
  -- the later number is loaded first and stored while the earlier one is delivered
  [(0, .proceed), (1, .proceed), (1, .proceed), (0, .proceed), (1, .proceed), (0, .proceed),
    (1, .proceed), (1, .proceed), (1, .proceed), (2, .proceed), (2, .proceed)]

theorem receive_concurrently_overtaken :
    ∃ s, exec (SlotThreads.step 1) (start 5 [.receive 6 [6], .receive 5 [5]]) overtaken = some s ∧
      s.memory.delivered.map Prod.fst = wordsFrom 5 s.memory.delivered.length ∧
      s.memory.delivered.length = 2 := by
  have hwindow : Window 1 5 [(6, [6]), (5, [5])] :=
    ⟨by decide, by decide, by decide, by decide⟩
  have hgaps : Along (SlotThreads.step 1) GapClosed
      (start 5 ([(6, [6]), (5, [5])].map fun e => .receive e.1 e.2)) overtaken := by decide
  exact ⟨_, rfl, (receive_concurrently_inOrder hwindow hgaps rfl).1, rfl⟩

end SlotThreads

end GossipMesh.Engine
