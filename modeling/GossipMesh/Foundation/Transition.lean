import Mathlib.Data.List.Basic
import Mathlib.Data.List.Induction
import Mathlib.Logic.Function.Basic

/-!
# Finite runs of guarded transition functions

A transition function `step : σ → α → Option σ` takes one labelled step, and
answers `none` when the label is not enabled.  All nondeterminism of a modeled
system is carried by the labels, so a run is a list of labels and `exec`
computes where it ends.  This file supplies composition of runs, conditions
that hold of every step of a run, the invariant rules, and the rule for steps
that change one component of a family.
-/

namespace GossipMesh.Foundation

variable {σ α : Type*}

/-- Execute the labels in order; `none` if some label is not enabled. -/
def exec (step : σ → α → Option σ) : σ → List α → Option σ
  | s, [] => some s
  | s, a :: acts => (step s a).bind fun t => exec step t acts

@[simp] theorem exec_nil (step : σ → α → Option σ) (s : σ) :
    exec step s [] = some s := rfl

theorem exec_cons (step : σ → α → Option σ) (s : σ) (a : α) (acts : List α) :
    exec step s (a :: acts) = (step s a).bind fun t => exec step t acts := rfl

theorem exec_cons_eq_some {step : σ → α → Option σ} {s u : σ} {a : α}
    {acts : List α} :
    exec step s (a :: acts) = some u ↔
      ∃ t, step s a = some t ∧ exec step t acts = some u := by
  simp [exec_cons, Option.bind_eq_some_iff]

theorem exec_append (step : σ → α → Option σ) (s : σ) (first second : List α) :
    exec step s (first ++ second) =
      (exec step s first).bind fun t => exec step t second := by
  induction first generalizing s with
  | nil => simp
  | cons a first ih =>
      simp only [List.cons_append, exec_cons]
      cases hstep : step s a with
      | none => simp
      | some t => simpa using ih t

theorem exec_append_eq_some {step : σ → α → Option σ} {s u : σ}
    {first second : List α} :
    exec step s (first ++ second) = some u ↔
      ∃ t, exec step s first = some t ∧ exec step t second = some u := by
  simp [exec_append, Option.bind_eq_some_iff]

theorem exec_append_of_eq_some {step : σ → α → Option σ} {s t : σ} {first : List α}
    (hfirst : exec step s first = some t) (second : List α) :
    exec step s (first ++ second) = exec step t second := by
  rw [exec_append, hfirst]
  rfl

theorem exec_snoc_eq_some {step : σ → α → Option σ} {s u : σ}
    {acts : List α} {a : α} :
    exec step s (acts ++ [a]) = some u ↔
      ∃ t, exec step s acts = some t ∧ step t a = some u := by
  rw [exec_append_eq_some]
  simp [exec_cons_eq_some]

/-- Every step of the run is taken from a state and with a label in `P`. -/
def Along (step : σ → α → Option σ) (P : σ → α → Prop) : σ → List α → Prop
  | _, [] => True
  | s, a :: acts => P s a ∧ ∀ t, step s a = some t → Along step P t acts

instance decidableForallSome {x : Option σ} {P : σ → Prop} [DecidablePred P] :
    Decidable (∀ t, x = some t → P t) :=
  match x with
  | none => isTrue (by simp)
  | some t => decidable_of_iff (P t) (by simp)

instance decidableAlong (step : σ → α → Option σ) (P : σ → α → Prop)
    [∀ s a, Decidable (P s a)] : ∀ s acts, Decidable (Along step P s acts)
  | _, [] => isTrue trivial
  | s, a :: acts =>
      match hstep : step s a with
      | none =>
          decidable_of_iff (P s a) (by simp [Along, hstep])
      | some t =>
          have := decidableAlong step P t acts
          decidable_of_iff (P s a ∧ Along step P t acts) (by simp [Along, hstep])

@[simp] theorem along_nil (step : σ → α → Option σ) (P : σ → α → Prop) (s : σ) :
    Along step P s [] := trivial

theorem along_append {step : σ → α → Option σ} {P : σ → α → Prop} {s t : σ}
    {first second : List α} (hfirst : exec step s first = some t) :
    Along step P s (first ++ second) ↔
      Along step P s first ∧ Along step P t second := by
  induction first generalizing s with
  | nil =>
      cases hfirst
      simp
  | cons a first ih =>
      obtain ⟨u, hstep, hrest⟩ := exec_cons_eq_some.mp hfirst
      simp only [List.cons_append, Along, hstep, Option.some.injEq,
        forall_eq', ih hrest, and_assoc]

theorem along_snoc {step : σ → α → Option σ} {P : σ → α → Prop} {s t : σ}
    {acts : List α} {a : α} (hacts : exec step s acts = some t) :
    Along step P s (acts ++ [a]) ↔ Along step P s acts ∧ P t a := by
  rw [along_append hacts]
  simp [Along]

theorem along_of_forall {step : σ → α → Option σ} {P : α → Prop} {s : σ}
    {acts : List α} (h : ∀ a ∈ acts, P a) : Along step (fun _ a => P a) s acts := by
  induction acts generalizing s with
  | nil => trivial
  | cons a acts ih =>
      exact ⟨h a (by simp), fun t _ => ih fun b hb => h b (by simp [hb])⟩

theorem Along.imp {step : σ → α → Option σ} {P Q : σ → α → Prop}
    (himp : ∀ s a, P s a → Q s a) {s : σ} {acts : List α}
    (h : Along step P s acts) : Along step Q s acts := by
  induction acts generalizing s with
  | nil => trivial
  | cons a acts ih => exact ⟨himp s a h.1, fun t ht => ih (h.2 t ht)⟩

theorem Along.and {step : σ → α → Option σ} {P Q : σ → α → Prop} {s : σ}
    {acts : List α} (hP : Along step P s acts) (hQ : Along step Q s acts) :
    Along step (fun s a => P s a ∧ Q s a) s acts := by
  induction acts generalizing s with
  | nil => trivial
  | cons a acts ih =>
      exact ⟨⟨hP.1, hQ.1⟩, fun t ht => ih (hP.2 t ht) (hQ.2 t ht)⟩

/--
The invariant rule: what holds initially and is kept by every step that meets
the side condition holds at the end of every run whose steps all meet it.
-/
theorem exec_invariant_of_along {step : σ → α → Option σ}
    {P : σ → α → Prop} (Inv : σ → Prop)
    (hkeep : ∀ s a t, Inv s → P s a → step s a = some t → Inv t)
    {s t : σ} {acts : List α} (hinit : Inv s)
    (halong : Along step P s acts) (hrun : exec step s acts = some t) :
    Inv t := by
  induction acts generalizing s with
  | nil =>
      cases hrun
      exact hinit
  | cons a acts ih =>
      obtain ⟨u, hstep, hrest⟩ := exec_cons_eq_some.mp hrun
      exact ih (hkeep s a u hinit halong.1 hstep) (halong.2 u hstep) hrest

theorem exec_invariant {step : σ → α → Option σ} (Inv : σ → Prop)
    (hkeep : ∀ s a t, Inv s → step s a = some t → Inv t)
    {s t : σ} {acts : List α} (hinit : Inv s)
    (hrun : exec step s acts = some t) : Inv t := by
  induction acts generalizing s with
  | nil =>
      cases hrun
      exact hinit
  | cons a acts ih =>
      obtain ⟨u, hstep, hrest⟩ := exec_cons_eq_some.mp hrun
      exact ih (hkeep s a u hinit hstep) hrest

/--
The history-invariant rule.  The invariant also reads the labels executed so
far, and every step condition may be assumed of the state it is taken from.
-/
theorem exec_history_invariant {step : σ → α → Option σ}
    {P : σ → α → Prop} (Inv : List α → σ → Prop) {s : σ}
    (hinit : Inv [] s)
    (hkeep : ∀ acts t a u, exec step s acts = some t → Inv acts t → P t a →
      step t a = some u → Inv (acts ++ [a]) u)
    {acts : List α} {t : σ} (halong : Along step P s acts)
    (hrun : exec step s acts = some t) : Inv acts t := by
  induction acts using List.reverseRecOn generalizing t with
  | nil =>
      cases hrun
      exact hinit
  | append_singleton acts a ih =>
      obtain ⟨u, hacts, hstep⟩ := exec_snoc_eq_some.mp hrun
      obtain ⟨hbefore, hlast⟩ := (along_snoc hacts).mp halong
      exact hkeep acts u a t hacts (ih hbefore hacts) hlast hstep

/--
The exact invariant rule.  If a step from a good state ends in a good state
exactly when it meets `P`, then all states of a run are good exactly when all
its steps meet `P`.
-/
theorem always_iff_along {step : σ → α → Option σ} {P : σ → α → Prop}
    (Inv : σ → Prop)
    (hexact : ∀ s a t, Inv s → step s a = some t → (Inv t ↔ P s a))
    {s t : σ} {acts : List α} (hinit : Inv s)
    (hrun : exec step s acts = some t) :
    (∀ before after u, acts = before ++ after →
      exec step s before = some u → Inv u) ↔ Along step P s acts := by
  induction acts generalizing s with
  | nil =>
      simp only [along_nil, iff_true]
      intro before after u heq hbefore
      obtain ⟨rfl, -⟩ : before = [] ∧ after = [] := by simpa using heq.symm
      cases hbefore
      exact hinit
  | cons a acts ih =>
      obtain ⟨v, hstep, hrest⟩ := exec_cons_eq_some.mp hrun
      constructor
      · intro hall
        have hv : Inv v := hall [a] acts v rfl
          (exec_cons_eq_some.mpr ⟨v, hstep, rfl⟩)
        refine ⟨(hexact s a v hinit hstep).mp hv, fun w hw => ?_⟩
        rw [hstep] at hw
        cases hw
        refine (ih hv hrest).mp fun before after u heq hbefore => ?_
        exact hall (a :: before) after u (by rw [heq]; rfl)
          (exec_cons_eq_some.mpr ⟨v, hstep, hbefore⟩)
      · rintro ⟨hP, halong⟩ before after u heq hbefore
        have hv : Inv v := (hexact s a v hinit hstep).mpr hP
        cases before with
        | nil =>
            cases hbefore
            exact hinit
        | cons b before =>
            obtain ⟨rfl, rfl⟩ : a = b ∧ acts = before ++ after := by
              simpa using heq
            obtain ⟨w, hw, hbefore⟩ := exec_cons_eq_some.mp hbefore
            rw [hstep] at hw
            cases hw
            exact (ih hv hrest).mpr (halong v hstep) before after u rfl hbefore

/-! ## Families of components -/

theorem forall_update {ι : Type*} [DecidableEq ι] {P : ι → σ → Prop} {f : ι → σ}
    {i : ι} {x : σ} (h : ∀ j, P j (f j)) (hx : P i x) :
    ∀ j, P j (Function.update f i x j) :=
  (Function.forall_update_iff f P).mpr ⟨hx, fun j _ => h j⟩

/-! ## Logs that grow at their end -/

theorem getElem?_snoc_eq_some {xs : List α} {x y : α} {j : Nat}
    (h : (xs ++ [x])[j]? = some y) : xs[j]? = some y ∨ j = xs.length ∧ x = y := by
  rcases Nat.lt_trichotomy j xs.length with hlt | rfl | hgt
  · left
    rwa [List.getElem?_append_left hlt] at h
  · right
    simpa using h
  · rw [List.getElem?_eq_none (by simp; omega)] at h
    cases h

end GossipMesh.Foundation
