import Mathlib.Logic.Function.Basic
import Mathlib.Logic.Relation
import Mathlib.Order.Lattice

/-!
# Flooding a numbered stream over lossless FIFO channels

An origin publishes the numbers 1, 2, 3, ... and every process forwards what it
accepts over its channels.  A process keeps only the highest number it has
accepted, its mark, and drops whatever is not above it.  A process may leave a
channel out if the process at its end has reached the number already.

Because channels are FIFO, no channel ever brings a process a number more than
one above its mark: whatever lies between is ahead of it in the same channel.
So every process accepts its numbers without a gap, and when all channels are
empty the processes reachable from the origin have accepted all of them.
-/

namespace GossipMesh.Foundation.FifoFlood

/-! ## One channel -/

/--
A channel whose sender has accepted `1 .. sent` and whose receiver has accepted
`1 .. got`: what the receiver lacks is under way, in order.
-/
structure Carries (sent got : Nat) (flow : List Nat) : Prop where
  complete : ∀ i, got < i → i ≤ sent → i ∈ flow
  sorted : flow.Pairwise (· ≤ ·)
  bounded : ∀ i ∈ flow, i ≤ sent

namespace Carries

variable {sent got i : Nat} {flow : List Nat}

theorem head_le (h : Carries sent got (i :: flow)) : i ≤ got + 1 := by
  by_contra hgap
  have hi := h.bounded i (by simp)
  have hmem := h.complete (got + 1) (by omega) (by omega)
  rcases List.mem_cons.mp hmem with heq | hlater
  · omega
  · have := List.rel_of_pairwise_cons h.sorted hlater
    omega

theorem pop (h : Carries sent got (i :: flow)) :
    Carries sent (max got i) flow where
  complete j hj hsent := by
    have hmem := h.complete j (by omega) hsent
    rcases List.mem_cons.mp hmem with rfl | hlater
    · omega
    · exact hlater
  sorted := h.sorted.of_cons
  bounded j hj := h.bounded j (by simp [hj])

theorem grow (h : Carries sent got flow) {got' : Nat} (hle : got ≤ got') :
    Carries sent got' flow where
  complete j hj hsent := h.complete j (by omega) hsent
  sorted := h.sorted
  bounded := h.bounded

theorem send (h : Carries sent got flow) (copies : Nat)
    (hskip : copies = 0 → sent + 1 ≤ got) :
    Carries (sent + 1) got (flow ++ List.replicate copies (sent + 1)) where
  complete j hj hsent := by
    by_cases hnew : j = sent + 1
    · subst hnew
      refine List.mem_append_right _ (List.mem_replicate.mpr ⟨?_, rfl⟩)
      intro hzero
      have := hskip hzero
      omega
    · exact List.mem_append_left _ (h.complete j hj (by omega))
  sorted := by
    refine List.pairwise_append.mpr ⟨h.sorted, ?_, ?_⟩
    · exact List.pairwise_replicate.mpr (.inr (le_refl _))
    · intro a ha b hb
      have := h.bounded a ha
      rw [List.eq_of_mem_replicate hb]
      omega
  bounded j hj := by
    rcases List.mem_append.mp hj with hold | hnew
    · have := h.bounded j hold
      omega
    · rw [List.eq_of_mem_replicate hnew]

end Carries

/-! ## A network of channels -/

variable {ι κ : Type*}

@[ext] structure State (ι κ : Type*) where
  mark : ι → Nat
  flow : κ → List Nat

section Network

variable (src dst : κ → ι) (origin : ι)

def Forwards [DecidableEq ι] (mark : ι → Nat) (v : ι) (i : Nat)
    (before after : κ → List Nat) : Prop :=
  ∀ k, if src k = v then
      ∃ copies, after k = before k ++ List.replicate copies i ∧
        (copies = 0 → i ≤ mark (dst k))
    else after k = before k

inductive Step [DecidableEq ι] [DecidableEq κ] (s t : State ι κ) : Prop
  | publish
      (hmark : t.mark = Function.update s.mark origin (s.mark origin + 1))
      (hflow : Forwards src dst t.mark origin (s.mark origin + 1) s.flow t.flow)
  | drop (k : κ) (i : Nat) (rest : List Nat)
      (hhead : s.flow k = i :: rest) (hold : i ≤ s.mark (dst k))
      (hmark : t.mark = s.mark)
      (hflow : t.flow = Function.update s.flow k rest)
  | accept (k : κ) (i : Nat) (rest : List Nat)
      (hhead : s.flow k = i :: rest) (hnew : s.mark (dst k) < i)
      (hmark : t.mark = Function.update s.mark (dst k) i)
      (hflow : Forwards src dst t.mark (dst k) i
        (Function.update s.flow k rest) t.flow)

structure Inv (s : State ι κ) : Prop where
  carries : ∀ k, Carries (s.mark (src k)) (s.mark (dst k)) (s.flow k)
  origin : ∀ v, s.mark v ≤ s.mark origin

variable {src dst origin} {s t : State ι κ}

theorem Inv.initial (hmark : ∀ v, s.mark v = 0) (hflow : ∀ k, s.flow k = []) :
    Inv src dst origin s where
  carries k := by
    rw [hflow]
    exact ⟨fun i hi hle => by rw [hmark] at *; omega, List.Pairwise.nil, by simp⟩
  origin v := by rw [hmark, hmark]

theorem Inv.accept_next (h : Inv src dst origin s) {k : κ} {i : Nat}
    {rest : List Nat} (hhead : s.flow k = i :: rest)
    (hnew : s.mark (dst k) < i) :
    i = s.mark (dst k) + 1 ∧ i ≤ s.mark (src k) ∧ dst k ≠ origin := by
  have hcarries := hhead ▸ h.carries k
  have hsent := hcarries.bounded i (by simp)
  have horigin := h.origin (src k)
  have hle := hcarries.head_le
  refine ⟨by omega, hsent, ?_⟩
  intro heq
  rw [heq] at hnew
  omega

theorem carries_forward [DecidableEq ι] {flow : κ → List Nat} {v : ι} {i : Nat}
    (hi : i = s.mark v + 1)
    (hcarries : ∀ k, Carries (s.mark (src k))
      (Function.update s.mark v i (dst k)) (flow k))
    (hmark : t.mark = Function.update s.mark v i)
    (hflow : Forwards src dst t.mark v i flow t.flow) (k : κ) :
    Carries (t.mark (src k)) (t.mark (dst k)) (t.flow k) := by
  have hk := hflow k
  have hbase := hcarries k
  rw [hmark] at hk ⊢
  by_cases hsrc : src k = v
  · rw [if_pos hsrc] at hk
    obtain ⟨copies, heq, hskip⟩ := hk
    rw [heq, hsrc, Function.update_self, hi]
    rw [hsrc] at hbase
    exact hi ▸ hbase.send copies fun hzero => hi ▸ hskip hzero
  · rw [if_neg hsrc] at hk
    rw [hk, Function.update_of_ne hsrc]
    exact hbase

theorem le_update_self [DecidableEq ι] {mark : ι → Nat} {v : ι} {i : Nat}
    (h : mark v ≤ i) (w : ι) : mark w ≤ Function.update mark v i w := by
  by_cases hw : w = v
  · subst hw
    simpa using h
  · simp [hw]

theorem Inv.step [DecidableEq ι] [DecidableEq κ] (h : Inv src dst origin s)
    (hstep : Step src dst origin s t) :
    Inv src dst origin t := by
  cases hstep with
  | publish hmark hflow =>
      refine ⟨carries_forward rfl (fun k => ?_) hmark hflow, fun v => ?_⟩
      · exact (h.carries k).grow (le_update_self (by omega) _)
      · have := h.origin v
        rw [hmark, Function.update_self]
        by_cases hv : v = origin
        · subst hv
          simp
        · rw [Function.update_of_ne hv]
          omega
  | drop k i rest hhead hold hmark hflow =>
      refine ⟨fun k' => ?_, hmark ▸ h.origin⟩
      rw [hmark, hflow]
      by_cases hk : k' = k
      · subst hk
        have hpop := (hhead ▸ h.carries k').pop
        rw [max_eq_left hold] at hpop
        simpa using hpop
      · simpa [hk] using h.carries k'
  | accept k i rest hhead hnew hmark hflow =>
      obtain ⟨hi, hsent, hdst⟩ := h.accept_next hhead hnew
      refine ⟨carries_forward hi (fun k' => ?_) hmark hflow, fun v => ?_⟩
      · by_cases hk : k' = k
        · subst hk
          have hpop := (hhead ▸ h.carries k').pop
          rw [max_eq_right (le_of_lt hnew)] at hpop
          simpa using hpop
        · rw [Function.update_of_ne hk]
          exact (h.carries k').grow (le_update_self (le_of_lt hnew) _)
      · have := h.origin v
        have := h.origin (src k)
        rw [hmark, Function.update_of_ne (Ne.symm hdst)]
        by_cases hv : v = dst k
        · subst hv
          rw [Function.update_self]
          omega
        · rwa [Function.update_of_ne hv]

/-- With nothing under way the reachable processes are level with the origin. -/
theorem Inv.quiescent (h : Inv src dst origin s) (hempty : ∀ k, s.flow k = [])
    {v : ι} (hreach : Relation.ReflTransGen
      (fun u w => ∃ k, src k = u ∧ dst k = w) origin v) :
    s.mark v = s.mark origin := by
  induction hreach with
  | refl => rfl
  | tail _ hedge ih =>
      obtain ⟨k, rfl, rfl⟩ := hedge
      refine le_antisymm (h.origin _) ?_
      rw [← ih]
      by_contra hlt
      have := (h.carries k).complete (s.mark (src k)) (by omega) (le_refl _)
      rw [hempty] at this
      cases this

end Network

end GossipMesh.Foundation.FifoFlood
