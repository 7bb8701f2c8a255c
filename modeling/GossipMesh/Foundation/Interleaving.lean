import Mathlib.Algebra.BigOperators.Group.List.Basic
import Mathlib.Algebra.Order.Group.Multiset
import Mathlib.Tactic.Abel
import GossipMesh.Foundation.Transition

/-!
# Goroutines over shared memory

Any number of goroutines operate on one memory.  A goroutine is the point its
program has reached; `operate` performs the operation at that point, which is
atomic, and answers the next point and the goroutines it starts.  A label picks
the goroutine that moves and resolves what its operation leaves open, so a run
is an interleaving.
-/

namespace GossipMesh.Foundation

structure Threads (μ π : Type*) where
  memory : μ
  routines : List π

namespace Threads

variable {μ π χ : Type*} {operate : μ → π → χ → Option (μ × π × List π)}
  {s t : Threads μ π}

def step (operate : μ → π → χ → Option (μ × π × List π)) (s : Threads μ π)
    (l : Nat × χ) : Option (Threads μ π) :=
  s.routines[l.1]?.bind fun p => (operate s.memory p l.2).map fun next =>
    ⟨next.1, s.routines.set l.1 next.2.1 ++ next.2.2⟩

/-- One goroutine has moved and the others are where they were. -/
theorem step_eq_some {i : Nat} {c : χ} (h : s.step operate (i, c) = some t) :
    ∃ before p after p' new, s.routines[i]? = some p ∧
      s.routines = before ++ p :: after ∧
      operate s.memory p c = some (t.memory, p', new) ∧
      t.routines = before ++ p' :: after ++ new := by
  obtain ⟨p, hp, h⟩ := Option.bind_eq_some_iff.mp h
  obtain ⟨⟨m', p', new⟩, hop, rfl⟩ := Option.map_eq_some_iff.mp h
  obtain ⟨hi, hget⟩ := List.getElem?_eq_some_iff.mp hp
  refine ⟨s.routines.take i, p, s.routines.drop (i + 1), p', new, hp, ?_, hop, ?_⟩
  · rw [← hget, List.getElem_cons_drop, List.take_append_drop]
  · change s.routines.set i p' ++ new = _
    rw [List.set_eq_take_append_cons_drop, if_pos hi]

theorem mem_of_move {before after : List π} (p : π) {p' q : π}
    (hq : q ∈ before ++ p' :: after) : q = p' ∨ q ∈ before ++ p :: after := by
  simp only [List.mem_append, List.mem_cons] at hq ⊢
  tauto

theorem exists_step {p : π} {c : χ} {next : μ × π × List π} (hp : p ∈ s.routines)
    (hop : operate s.memory p c = some next) : ∃ l t, s.step operate l = some t := by
  obtain ⟨i, hi⟩ := List.getElem?_of_mem hp
  exact ⟨(i, c), _, by rw [step, hi, Option.bind_some, hop, Option.map_some]⟩

/-! ## A goroutine that is not interrupted -/

inductive Solo (operate : μ → π → χ → Option (μ × π × List π)) :
    μ → π → List χ → μ → π → List π → Prop
  | refl (m : μ) (p : π) : Solo operate m p [] m p []
  | next {m m' m'' : μ} {p p' p'' : π} {new new' : List π} {c : χ} {choices : List χ}
      (hop : operate m p c = some (m', p', new))
      (hrest : Solo operate m' p' choices m'' p'' new') :
      Solo operate m p (c :: choices) m'' p'' (new ++ new')

theorem Solo.one {m m' : μ} {p p' : π} {new : List π} {c : χ}
    (hop : operate m p c = some (m', p', new)) : Solo operate m p [c] m' p' new := by
  simpa using Solo.next hop (.refl m' p')

theorem Solo.trans {m m' m'' : μ} {p p' p'' : π} {new new' : List π} {first second : List χ}
    (h : Solo operate m p first m' p' new) (h' : Solo operate m' p' second m'' p'' new') :
    Solo operate m p (first ++ second) m'' p'' (new ++ new') := by
  induction h with
  | refl => exact h'
  | next hop hrest ih =>
      rw [List.append_assoc]
      exact .next hop (ih h')

theorem Solo.exec {m m' : μ} {p p' : π} {new : List π} {choices : List χ}
    (h : Solo operate m p choices m' p' new) (before after : List π) :
    exec (step operate) ⟨m, before ++ p :: after⟩
        (choices.map fun c => (before.length, c)) =
      some ⟨m', before ++ p' :: (after ++ new)⟩ := by
  induction h generalizing after with
  | refl => simp
  | @next m m' m'' p p' p'' new new' c choices hop hrest ih =>
      have hstep : step operate ⟨m, before ++ p :: after⟩ (before.length, c) =
          some ⟨m', before ++ p' :: (after ++ new)⟩ := by
        simp [step, hop]
      rw [List.map_cons, exec_cons_eq_some]
      refine ⟨_, hstep, ?_⟩
      rw [ih, List.append_assoc]

theorem Solo.exec_of_mem {m' : μ} {p p' : π} {new : List π} {choices : List χ}
    (h : Solo operate s.memory p choices m' p' new) (hp : p ∈ s.routines) :
    ∃ labels t, Foundation.exec (step operate) s labels = some t ∧ t.memory = m' ∧
      (t.routines : Multiset π) + {p} = s.routines + {p'} + new := by
  obtain ⟨before, after, hsplit⟩ := List.append_of_mem hp
  have hrun := h.exec before after
  refine ⟨_, _, by rwa [← hsplit] at hrun, rfl, ?_⟩
  rw [hsplit]
  simp only [← Multiset.coe_add, ← Multiset.cons_coe, ← Multiset.singleton_add]
  abel

/-! ## What the goroutines have in hand -/

variable {M : Type*} [AddCommMonoid M]

def total (w : π → M) (routines : List π) : M := (routines.map w).sum

@[simp] theorem total_nil (w : π → M) : total w [] = 0 := rfl

@[simp] theorem total_cons (w : π → M) (p : π) (routines : List π) :
    total w (p :: routines) = w p + total w routines := by
  simp [total]

@[simp] theorem total_append (w : π → M) (first second : List π) :
    total w (first ++ second) = total w first + total w second := by
  simp [total]

theorem total_move (w : π → M) (before after : List π) (p : π) :
    total w (before ++ p :: after) = w p + total w (before ++ after) := by
  rw [total_append, total_cons, total_append, add_left_comm]

theorem total_set (w : π → M) {routines : List π} {i : Nat} {p : π}
    (hp : routines[i]? = some p) (p' : π) :
    total w (routines.set i p') + w p = total w routines + w p' := by
  induction routines generalizing i with
  | nil => cases hp
  | cons q routines ih =>
      cases i with
      | zero =>
          cases hp
          simp only [List.set_cons_zero, total_cons]
          abel
      | succ i =>
          have hrest := ih (i := i) hp
          simp only [List.set_cons_succ, total_cons, add_assoc, hrest]

theorem mem_total {β : Type*} {w : π → Multiset β} {routines : List π} {x : β} :
    x ∈ total w routines ↔ ∃ p ∈ routines, x ∈ w p := by
  induction routines with
  | nil => simp
  | cons p routines ih => simp [ih]

/--
The conservation rule.  If what an operation brings in is what it adds to the
stock and to the hands of its goroutine, then all that ever came in is in stock
or in hand.
-/
theorem conservation_move (into stock : μ → M) (w : π → M) {l : Nat × χ}
    (hop : ∀ p ∈ s.routines, ∀ m' p' new, operate s.memory p l.2 = some (m', p', new) →
      ∃ d, into m' = into s.memory + d ∧
        stock m' + w p' + total w new = stock s.memory + w p + d)
    (hs : into s.memory = stock s.memory + total w s.routines)
    (hstep : step operate s l = some t) :
    into t.memory = stock t.memory + total w t.routines := by
  obtain ⟨before, p, after, p', new, -, hbefore, hmove, hafter⟩ := step_eq_some hstep
  obtain ⟨d, hinto, hbalance⟩ := hop p (by simp [hbefore]) _ _ _ hmove
  rw [hinto, hs, hbefore, hafter]
  rw [total_move, total_append _ _ new, total_move]
  calc stock s.memory + (w p + total w (before ++ after)) + d
      = (stock s.memory + w p + d) + total w (before ++ after) := by abel
    _ = (stock t.memory + w p' + total w new) + total w (before ++ after) := by rw [hbalance]
    _ = stock t.memory + (w p' + total w (before ++ after) + total w new) := by abel

theorem conservation_step (into stock : μ → M) (w : π → M)
    (hop : ∀ m p c m' p' new, operate m p c = some (m', p', new) →
      ∃ d, into m' = into m + d ∧
        stock m' + w p' + total w new = stock m + w p + d)
    {l : Nat × χ} (hs : into s.memory = stock s.memory + total w s.routines)
    (hstep : step operate s l = some t) :
    into t.memory = stock t.memory + total w t.routines :=
  conservation_move into stock w (fun p _ m' p' new => hop s.memory p l.2 m' p' new) hs hstep

end Threads

end GossipMesh.Foundation
