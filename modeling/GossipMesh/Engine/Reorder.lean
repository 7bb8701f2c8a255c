import GossipMesh.Engine.Arrival

/-!
# Every order of arrival is undone

A slot that receives all of a block of numbers no longer than its reorder
buffer, in any order and with any repetitions, delivers the block in order.
What has been received and is not delivered is buffered at every moment, so
`nextSeq` cannot stop inside the block once all of it has arrived.
-/

namespace GossipMesh.Engine

open GossipMesh.Foundation

namespace Slot

variable {maxGapBuffer k : Nat} {n : UInt64} {base got : List (UInt64 × Payload)}
  {s : Slot}

def receiveAll (maxGapBuffer : Nat) (s : Slot) (entries : List (UInt64 × Payload)) :
    Slot :=
  entries.foldl (fun s e => s.receive maxGapBuffer e.1 e.2) s

/-- Out of the block `n .. n + k` a slot has received `got`, in whatever order. -/
structure Reordering (base : List (UInt64 × Payload)) (n : UInt64) (k : Nat)
    (got : List (UInt64 × Payload)) (s : Slot) : Prop where
  low : n ≤ s.nextSeq
  high : s.nextSeq.toNat ≤ n.toNat + k + 1
  log : ∃ out, s.delivered = base ++ out ∧
    out.map Prod.fst = wordsFrom n (s.nextSeq.toNat - n.toNat) ∧ ∀ e ∈ out, e ∈ got
  above : ∀ q ∈ s.pending, s.nextSeq ≤ q ∧ q.toNat ≤ n.toNat + k
  payload : ∀ q p, s.pending.lookup q = some p → (q, p) ∈ got
  buffered : ∀ e ∈ got, s.nextSeq ≤ e.1 → e.1 ∈ s.pending

theorem reordering_start (hnext : s.nextSeq = n) (hempty : s.pending = ∅) (k : Nat) :
    Reordering s.delivered n k [] s := by
  refine ⟨by rw [hnext], by rw [hnext]; omega, ⟨[], by simp, ?_, by simp⟩, ?_, ?_, by simp⟩
  · simp [hnext, wordsFrom]
  · simp [hempty, Finmap.notMem_empty]
  · simp [hempty]

theorem Reordering.startGapTimer (h : Reordering base n k got s) (expected : UInt64) :
    Reordering base n k got (s.startGapTimer expected) :=
  ⟨by simpa using h.low, by simpa using h.high, by simpa using h.log,
    by simpa using h.above, by simpa using h.payload, by simpa using h.buffered⟩

theorem Reordering.advance {got' : List (UInt64 × Payload)}
    {rest : Finmap fun _ : UInt64 => Payload} (h : Reordering base n k got s)
    (hk : n.toNat + k < 2 ^ 64 - 1) (hnext : s.nextSeq.toNat ≤ n.toNat + k)
    (hkept : ∀ e ∈ got, e ∈ got') (hnew : ∀ e ∈ got', e ∈ got ∨ e.1 = s.nextSeq)
    (hgone : s.nextSeq ∉ rest)
    (hrest : ∀ q, q ≠ s.nextSeq → rest.lookup q = s.pending.lookup q)
    {p : Payload} (hp : (s.nextSeq, p) ∈ got') :
    Reordering base n k got' { s.deliver s.nextSeq p with
      pending := rest
      nextSeq := s.nextSeq + 1 } := by
  have hmax : s.nextSeq < maxUint64 := UInt64.lt_iff_toNat_lt.mpr (by simp; omega)
  have hsucc := toNat_succ hmax
  have hlow := UInt64.le_iff_toNat_le.mp h.low
  have hne : ∀ q ∈ rest, q ≠ s.nextSeq := fun q hq heq => hgone (heq ▸ hq)
  refine ⟨le_trans h.low (le_of_lt (lt_succ_self hmax)), by simp only; omega, ?_, ?_, ?_, ?_⟩
  · obtain ⟨out, hout, hseqs, hgot⟩ := h.log
    have hcount : (s.nextSeq + 1).toNat - n.toNat = s.nextSeq.toNat - n.toNat + 1 := by omega
    have hword : n + UInt64.ofNat (s.nextSeq.toNat - n.toNat) = s.nextSeq := by
      apply UInt64.toNat_inj.mp
      rw [toNat_add_ofNat (by omega)]
      omega
    refine ⟨out ++ [(s.nextSeq, p)], ?_, ?_, ?_⟩
    · simp [deliver, hout]
    · rw [List.map_append, hseqs, hcount, wordsFrom_succ, hword]
      rfl
    · intro e he
      rcases List.mem_append.mp he with he | he
      · exact hkept e (hgot e he)
      · rwa [List.mem_singleton.mp he]
  · intro q hq
    obtain ⟨r, hr⟩ := Finmap.mem_iff.mp hq
    rw [hrest q (hne q hq)] at hr
    obtain ⟨hle, hhigh⟩ := h.above q (Finmap.mem_of_lookup_eq_some hr)
    exact ⟨(succ_le_iff hmax).mpr (lt_of_le_of_ne hle (hne q hq).symm), hhigh⟩
  · intro q r hq
    have hq' : rest.lookup q = some r := hq
    rw [hrest q (hne q (Finmap.mem_of_lookup_eq_some hq'))] at hq'
    exact hkept _ (h.payload q r hq')
  · intro e he hle
    have hlt := (succ_le_iff hmax).mp hle
    have hold : e ∈ got := (hnew e he).resolve_right (ne_of_gt hlt)
    obtain ⟨r, hr⟩ := Finmap.mem_iff.mp (h.buffered e hold (le_of_lt hlt))
    rw [← hrest e.1 (ne_of_gt hlt)] at hr
    exact Finmap.mem_of_lookup_eq_some hr

private theorem Reordering.drainPending (h : Reordering base n k got s)
    (hk : n.toNat + k < 2 ^ 64 - 1) : Reordering base n k got s.drainPending := by
  refine drainPending_induct _ (fun t val ht hlookup => ?_)
    (fun t ht _ _ => ht.startGapTimer _) h
  have hmem := Finmap.mem_of_lookup_eq_some hlookup
  exact ht.advance hk (ht.above _ hmem).2 (fun _ he => he) (fun _ he => .inl he)
    (Finmap.notMem_erase_self) (fun q hq => Finmap.lookup_erase_ne hq)
    (ht.payload _ _ hlookup)

private theorem Reordering.received (h : Reordering base n k got s) {seq : UInt64} (p : Payload)
    (hdone : s.nextSeq ≤ seq → seq ∈ s.pending) :
    Reordering base n k (got ++ [(seq, p)]) s := by
  obtain ⟨out, hout, hseqs, hgot⟩ := h.log
  refine ⟨h.low, h.high, ⟨out, hout, hseqs, fun e he => by simp [hgot e he]⟩, h.above,
    fun q r hq => by simp [h.payload q r hq], fun e he hle => ?_⟩
  rcases List.mem_append.mp he with he | he
  · exact h.buffered e he hle
  · rw [List.mem_singleton.mp he] at hle ⊢
    exact hdone hle

private theorem Reordering.receive (h : Reordering base n k got s) (hsettled : s.nextSeq ∉ s.pending)
    (hk : n.toNat + k < 2 ^ 64 - 1) (hgap : k ≤ maxGapBuffer) {seq : UInt64}
    (hseq : n ≤ seq → seq.toNat ≤ n.toNat + k) (p : Payload) :
    Reordering base n k (got ++ [(seq, p)]) (s.receive maxGapBuffer seq p) ∧
      (s.receive maxGapBuffer seq p).nextSeq ∉ (s.receive maxGapBuffer seq p).pending := by
  have hlow := UInt64.le_iff_toNat_le.mp h.low
  rcases receive_cases maxGapBuffer s seq p with
    ⟨hold, heq⟩ | ⟨hhigh, -, heq⟩ | ⟨hjump, -⟩ | ⟨rfl, heq⟩
  · rw [heq]
    exact ⟨h.received p fun hle => absurd hle (not_le.mpr hold), hsettled⟩
  · rw [heq]
    have hstored : Reordering base n k (got ++ [(seq, p)])
        { s with pending := s.pending.insert seq p } := by
      obtain ⟨out, hout, hseqs, hgot⟩ := h.log
      refine ⟨h.low, h.high, ⟨out, hout, hseqs, fun e he => by simp [hgot e he]⟩, ?_, ?_, ?_⟩
      · intro q hq
        rcases Finmap.mem_insert.mp hq with rfl | hq
        · exact ⟨le_of_lt hhigh, hseq (le_trans h.low (le_of_lt hhigh))⟩
        · exact h.above q hq
      · intro q r hq
        by_cases hkey : q = seq
        · subst hkey
          rw [Finmap.lookup_insert] at hq
          cases hq
          simp
        · rw [Finmap.lookup_insert_of_ne _ hkey] at hq
          simp [h.payload q r hq]
      · intro e he hle
        rcases List.mem_append.mp he with he | he
        · exact Finmap.mem_insert.mpr (.inr (h.buffered e he hle))
        · rw [List.mem_singleton.mp he]
          exact Finmap.mem_insert.mpr (.inl rfl)
    refine ⟨hstored.startGapTimer _, ?_⟩
    simp only [startGapTimer_nextSeq, startGapTimer_pending, Finmap.mem_insert]
    rintro (rfl | hold)
    · exact lt_irrefl _ hhigh
    · exact hsettled hold
  · -- the block is no longer than the buffer
    have hlt : n ≤ seq := UInt64.le_iff_toNat_le.mpr (by omega)
    have := hseq hlt
    omega
  · rw [heq]
    have hdelivered : Reordering base n k (got ++ [(s.nextSeq, p)])
        { s.deliver s.nextSeq p with nextSeq := s.nextSeq + 1 } :=
      h.advance hk (hseq h.low) (fun e he => by simp [he])
        (fun e he => (List.mem_append.mp he).imp id fun he => by
          rw [List.mem_singleton.mp he])
        hsettled (fun _ _ => rfl) (by simp)
    exact ⟨hdelivered.drainPending hk, drainPending_nextSeq_notMem _⟩

theorem Reordering.receiveAll (h : Reordering base n k got s)
    (hsettled : s.nextSeq ∉ s.pending) (hk : n.toNat + k < 2 ^ 64 - 1)
    (hgap : k ≤ maxGapBuffer) (entries : List (UInt64 × Payload))
    (honly : ∀ e ∈ entries, n ≤ e.1 → e.1.toNat ≤ n.toNat + k) :
    Reordering base n k (got ++ entries) (s.receiveAll maxGapBuffer entries) ∧
      (s.receiveAll maxGapBuffer entries).nextSeq ∉
        (s.receiveAll maxGapBuffer entries).pending := by
  induction entries generalizing s got with
  | nil =>
      rw [List.append_nil]
      exact ⟨h, hsettled⟩
  | cons e entries ih =>
      obtain ⟨hnext, hsettled'⟩ := h.receive hsettled hk hgap (honly e (by simp)) e.2
      have htail := ih hnext hsettled' fun e' he' => honly e' (by simp [he'])
      rw [List.append_assoc] at htail
      exact htail

theorem Reordering.finished (h : Reordering base n k got s)
    (hsettled : s.nextSeq ∉ s.pending)
    (hall : ∀ seq, n ≤ seq → seq.toNat ≤ n.toNat + k → ∃ p, (seq, p) ∈ got) :
    s.nextSeq.toNat = n.toNat + k + 1 ∧ s.pending = ∅ := by
  have hhigh := h.high
  have hdone : s.nextSeq.toNat = n.toNat + k + 1 := by
    by_contra hne
    obtain ⟨p, hp⟩ := hall s.nextSeq h.low (by omega)
    exact hsettled (h.buffered _ hp (le_refl _))
  refine ⟨hdone, ?_⟩
  apply Finmap.ext_lookup
  intro q
  rw [Finmap.lookup_empty, Finmap.lookup_eq_none]
  intro hq
  obtain ⟨hle, hbound⟩ := h.above q hq
  have := UInt64.le_iff_toNat_le.mp hle
  omega

end Slot

namespace OrderedApplier

def receiveAll (o : OrderedApplier) (entries : List GossipEntry) : OrderedApplier :=
  entries.foldl (fun o e => o.receive e.topic e.seq e.payload) o

private theorem receiveAll_slots (o : OrderedApplier) (topic : UInt16) (entries : List GossipEntry) :
    (o.receiveAll entries).slots topic =
      (o.slots topic).receiveAll o.maxGapBuffer
        ((Engine.ofTopic topic entries).map fun e => (e.seq, e.payload)) := by
  induction entries generalizing o with
  | nil => rfl
  | cons e entries ih =>
      have htail := ih (o.receive e.topic e.seq e.payload)
      by_cases htopic : e.topic = topic
      · subst htopic
        have hentries : Engine.ofTopic e.topic (e :: entries) =
            e :: Engine.ofTopic e.topic entries := List.filter_cons_of_pos (by simp)
        rw [hentries]
        simp only [OrderedApplier.receive, setSlot_slots_self] at htail
        exact htail
      · have hentries : Engine.ofTopic topic (e :: entries) =
            Engine.ofTopic topic entries := List.filter_cons_of_neg (by simpa using htopic)
        rw [hentries]
        simp only [OrderedApplier.receive, setSlot_slots_ne _ _ (Ne.symm htopic)] at htail
        exact htail

/--
Every topic of an applier that receives all the numbers `n .. n + k` of a block
no longer than its buffer, and no other number from `n` on, delivers them in
order whatever the order of their arrival, repetitions included.
-/
theorem undoes_permutation (o : OrderedApplier) (topic : UInt16) (n : UInt64) (k : Nat)
    (entries : List GossipEntry) (hnext : (o.slots topic).nextSeq = n)
    (hempty : (o.slots topic).pending = ∅) (hgap : k ≤ o.maxGapBuffer)
    (hk : n.toNat + k < 2 ^ 64 - 1)
    (hall : ∀ seq, n ≤ seq → seq.toNat ≤ n.toNat + k →
      ∃ e ∈ entries, e.topic = topic ∧ e.seq = seq)
    (honly : ∀ e ∈ entries, e.topic = topic → n ≤ e.seq → e.seq.toNat ≤ n.toNat + k) :
    (∃ out, ((o.receiveAll entries).slots topic).delivered = (o.slots topic).delivered ++ out ∧
      out.map Prod.fst = wordsFrom n (k + 1) ∧
      ∀ seq p, (seq, p) ∈ out → ⟨topic, seq, p⟩ ∈ entries) ∧
    ((o.receiveAll entries).slots topic).nextSeq.toNat = n.toNat + k + 1 ∧
    ((o.receiveAll entries).slots topic).pending = ∅ := by
  rw [receiveAll_slots]
  have hmem : ∀ seq p, (seq, p) ∈ (Engine.ofTopic topic entries).map
      (fun e => (e.seq, e.payload)) ↔ ⟨topic, seq, p⟩ ∈ entries := by
    intro seq p
    simp only [Engine.ofTopic, List.mem_map, List.mem_filter, decide_eq_true_eq,
      Prod.mk.injEq]
    constructor
    · rintro ⟨e, ⟨he, rfl⟩, rfl, rfl⟩
      exact he
    · intro he
      exact ⟨_, ⟨he, rfl⟩, rfl, rfl⟩
  obtain ⟨h, hsettled⟩ := (Slot.reordering_start hnext hempty k).receiveAll
    (by simp [hempty, Finmap.notMem_empty]) hk hgap
    ((Engine.ofTopic topic entries).map fun e => (e.seq, e.payload))
    (fun e he => honly _ ((hmem e.1 e.2).mp he) rfl)
  obtain ⟨hdone, hpending⟩ := h.finished hsettled (by
    intro seq hlow hhigh
    obtain ⟨e, he, rfl, rfl⟩ := hall seq hlow hhigh
    exact ⟨e.payload, (hmem e.seq e.payload).mpr he⟩)
  refine ⟨?_, hdone, hpending⟩
  obtain ⟨out, hout, hseqs, hgot⟩ := h.log
  refine ⟨out, hout, ?_, fun seq p hp => (hmem seq p).mp (hgot (seq, p) hp)⟩
  rw [hseqs, hdone]
  congr 1
  omega

def shuffledEntries : List GossipEntry :=
  [⟨7, 7, [7]⟩, ⟨9, 400, []⟩, ⟨7, 6, [6]⟩, ⟨7, 6, [6]⟩, ⟨7, 2, []⟩, ⟨7, 5, [5]⟩]

theorem undoes_permutation_shuffledEntries :
    let o : OrderedApplier := ⟨2, fun _ => .fresh 5⟩
    ∃ out, ((o.receiveAll shuffledEntries).slots 7).delivered = (o.slots 7).delivered ++ out ∧
      out.map Prod.fst = [5, 6, 7] ∧
      ∀ seq p, (seq, p) ∈ out → ⟨7, seq, p⟩ ∈ shuffledEntries := by
  have hblock : ∀ seq : UInt64, 5 ≤ seq → seq.toNat ≤ 5 + 2 →
      ∃ e ∈ shuffledEntries, e.topic = 7 ∧ e.seq = seq := by
    intro seq hlow hhigh
    have hseq : seq = 5 ∨ seq = 6 ∨ seq = 7 := by
      have := UInt64.le_iff_toNat_le.mp hlow
      simp only [← UInt64.toNat_inj, UInt64.reduceToNat] at this ⊢
      omega
    rcases hseq with rfl | rfl | rfl
    · exact ⟨⟨7, 5, [5]⟩, by decide, rfl, rfl⟩
    · exact ⟨⟨7, 6, [6]⟩, by decide, rfl, rfl⟩
    · exact ⟨⟨7, 7, [7]⟩, by decide, rfl, rfl⟩
  exact (undoes_permutation ⟨2, fun _ => .fresh 5⟩ 7 5 2 shuffledEntries rfl rfl (by decide)
    (by decide) hblock (by decide)).1

end OrderedApplier

end GossipMesh.Engine
