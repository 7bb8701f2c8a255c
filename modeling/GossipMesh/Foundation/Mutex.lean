import GossipMesh.Foundation.Interleaving

/-!
# Critical sections

Goroutines share a family of locks.  `held` tells which lock a goroutine is
inside, `locked` whether a lock is taken, `Free` what holds of the data behind
a lock that nobody has, and `Owned` what holds of it for the goroutine inside.
If every operation plays by the rules of `Guarded`, then at most one goroutine
is inside a lock, and the data behind it is what `Free` or `Owned` say at every
moment of every interleaving.

Where no lock keeps goroutines apart, `Serial` says the same of those runs in
which they happen to keep apart.
-/

namespace GossipMesh.Foundation

namespace Threads

variable {μ π χ ι : Type*} [DecidableEq ι]
  {operate : μ → π → χ → Option (μ × π × List π)}
  (locked : μ → ι → Bool) (held : π → Option ι) (Free : μ → ι → Prop)
  (Owned : μ → ι → π → Prop)

def holders (i : ι) (routines : List π) : Nat :=
  routines.countP fun p => held p = some i

/-- What is behind a lock survives an operation that is not inside it. -/
structure Frame (m m' : μ) (i : ι) : Prop where
  locked : locked m' i = locked m i
  free : Free m i → Free m' i
  owned : ∀ p, Owned m i p → Owned m' i p

/-- What an operation may do with the locks. -/
inductive Guarded (m m' : μ) (p p' : π) : Prop
  | outside (hp : held p = none) (hp' : held p' = none)
      (hframe : ∀ i, Frame locked Free Owned m m' i)
  | acquire (i : ι) (hp : held p = none) (hp' : held p' = some i)
      (hwas : locked m i = false) (his : locked m' i = true)
      (howned : Free m i → Owned m' i p')
      (hframe : ∀ j, j ≠ i → Frame locked Free Owned m m' j)
  | inside (i : ι) (hp : held p = some i) (hp' : held p' = some i)
      (hsame : locked m' i = locked m i) (howned : Owned m i p → Owned m' i p')
      (hframe : ∀ j, j ≠ i → Frame locked Free Owned m m' j)
  | release (i : ι) (hp : held p = some i) (hp' : held p' = none)
      (his : locked m' i = false) (hfree : Owned m i p → Free m' i)
      (hframe : ∀ j, j ≠ i → Frame locked Free Owned m m' j)

structure Exclusive (s : Threads μ π) : Prop where
  one : ∀ i, holders held i s.routines = if locked s.memory i then 1 else 0
  free : ∀ i, locked s.memory i = false → Free s.memory i
  owned : ∀ p ∈ s.routines, ∀ i, held p = some i → Owned s.memory i p

variable {locked held Free Owned} {s t : Threads μ π}

theorem holders_move (i : ι) (before after : List π) (p : π) :
    holders held i (before ++ p :: after) =
      holders held i (before ++ after) + if held p = some i then 1 else 0 := by
  simp only [holders, List.countP_append, List.countP_cons, decide_eq_true_eq]
  omega

theorem holders_pos {i : ι} {routines : List π} {p : π} (hp : p ∈ routines)
    (hi : held p = some i) : 0 < holders held i routines :=
  List.countP_pos_iff.mpr ⟨p, hp, by simpa using hi⟩

theorem Exclusive.other (h : Exclusive locked held Free Owned s) {before after : List π}
    {p q : π} (hs : s.routines = before ++ p :: after) (hq : q ∈ before ++ after) {i : ι}
    (hi : held q = some i) : locked s.memory i = true ∧ held p ≠ some i := by
  have hone := h.one i
  have hpos := holders_pos hq hi
  rw [hs, holders_move] at hone
  cases hlocked : locked s.memory i with
  | false =>
      simp only [hlocked, Bool.false_eq_true, if_false] at hone
      omega
  | true =>
      refine ⟨rfl, fun hp => ?_⟩
      simp only [hlocked, hp, if_true] at hone
      omega

section Move

variable {before after : List π} {p p' : π}

theorem Exclusive.one_move (h : Exclusive locked held Free Owned s)
    (hs : s.routines = before ++ p :: after) (ht : t.routines = before ++ p' :: after)
    (hmove : Guarded locked held Free Owned s.memory t.memory p p') (i : ι) :
    holders held i t.routines = if locked t.memory i then 1 else 0 := by
  have hone := h.one i
  rw [hs, holders_move] at hone
  rw [ht, holders_move]
  cases hmove with
  | outside hp hp' hframe => simpa [hp, hp', (hframe i).locked] using hone
  | acquire j hp hp' hwas his howned hframe =>
      by_cases hij : j = i
      · subst hij
        have hnone : holders held j (before ++ after) = 0 := by simpa [hp, hwas] using hone
        simp [hp', his, hnone]
      · simpa [hp, hp', hij, (hframe i (Ne.symm hij)).locked] using hone
  | inside j hp hp' hsame howned hframe =>
      by_cases hij : j = i
      · subst hij
        simpa [hp, hp', hsame] using hone
      · simpa [hp, hp', hij, (hframe i (Ne.symm hij)).locked] using hone
  | release j hp hp' his hfree hframe =>
      by_cases hij : j = i
      · subst hij
        have hlocked : locked s.memory j = true := by
          by_contra hfalse
          simp [hp, hfalse] at hone
        have hnone : holders held j (before ++ after) = 0 := by simpa [hp, hlocked] using hone
        simp [hp', his, hnone]
      · simpa [hp, hp', hij, (hframe i (Ne.symm hij)).locked] using hone

theorem Exclusive.free_move (h : Exclusive locked held Free Owned s)
    (hs : s.routines = before ++ p :: after)
    (hmove : Guarded locked held Free Owned s.memory t.memory p p') (i : ι)
    (hi : locked t.memory i = false) : Free t.memory i := by
  have hkeep : Frame locked Free Owned s.memory t.memory i → Free t.memory i :=
    fun hframe => hframe.free (h.free i (hframe.locked ▸ hi))
  have hp : p ∈ s.routines := by simp [hs]
  cases hmove with
  | outside _ _ hframe => exact hkeep (hframe i)
  | acquire j _ _ _ his _ hframe =>
      refine hkeep (hframe i ?_)
      rintro rfl
      rw [his] at hi
      cases hi
  | inside j hheld _ hsame _ hframe =>
      refine hkeep (hframe i ?_)
      rintro rfl
      have hone := h.one i
      have hpos := holders_pos hp hheld
      simp only [← hsame, hi, Bool.false_eq_true, if_false] at hone
      omega
  | release j hheld _ _ hfree hframe =>
      by_cases hij : i = j
      · subst hij
        exact hfree (h.owned p hp i hheld)
      · exact hkeep (hframe i hij)

theorem Exclusive.owned_move (h : Exclusive locked held Free Owned s)
    (hs : s.routines = before ++ p :: after)
    (hmove : Guarded locked held Free Owned s.memory t.memory p p') {q : π}
    (hq : q ∈ before ++ p' :: after) {i : ι} (hi : held q = some i) :
    Owned t.memory i q := by
  have hp : p ∈ s.routines := by simp [hs]
  have hsplit : q = p' ∨ q ∈ before ++ after := by
    simp only [List.mem_append, List.mem_cons] at hq ⊢
    tauto
  rcases hsplit with rfl | hq
  · cases hmove with
    | outside _ hp' _ =>
        rw [hp'] at hi
        cases hi
    | acquire j _ hp' hwas _ howned _ =>
        obtain rfl : j = i := Option.some.inj (hp'.symm.trans hi)
        exact howned (h.free j hwas)
    | inside j hheld hp' _ howned _ =>
        obtain rfl : j = i := Option.some.inj (hp'.symm.trans hi)
        exact howned (h.owned p hp j hheld)
    | release j _ hp' _ _ _ =>
        rw [hp'] at hi
        cases hi
  · obtain ⟨hlocked, hother⟩ := h.other hs hq hi
    have howned : Owned s.memory i q := by
      refine h.owned q ?_ i hi
      simp only [hs, List.mem_append, List.mem_cons] at hq ⊢
      tauto
    cases hmove with
    | outside _ _ hframe => exact (hframe i).owned q howned
    | acquire j _ _ hwas _ _ hframe =>
        refine (hframe i ?_).owned q howned
        rintro rfl
        rw [hwas] at hlocked
        cases hlocked
    | inside j hheld _ _ _ hframe =>
        refine (hframe i ?_).owned q howned
        rintro rfl
        exact hother hheld
    | release j hheld _ _ _ hframe =>
        refine (hframe i ?_).owned q howned
        rintro rfl
        exact hother hheld

end Move

theorem exclusive_step
    (hop : ∀ m p c m' p' new, operate m p c = some (m', p', new) →
      new = [] ∧ Guarded locked held Free Owned m m' p p')
    {l : Nat × χ} (h : Exclusive locked held Free Owned s)
    (hstep : step operate s l = some t) : Exclusive locked held Free Owned t := by
  obtain ⟨before, p, after, p', new, -, hs, hmove, ht⟩ := step_eq_some hstep
  obtain ⟨rfl, hguarded⟩ := hop _ _ _ _ _ _ hmove
  rw [List.append_nil] at ht
  exact ⟨h.one_move hs ht hguarded, h.free_move hs hguarded,
    fun q hq i hi => h.owned_move hs hguarded (ht ▸ hq) hi⟩

/-! ## Sections that no lock guards -/

section Serial

variable (busy : π → Bool) (Calm : μ → Prop) (Amid : μ → π → Prop)

/-- What a goroutine tells of the memory while no other is busy. -/
structure Known (m : μ) (p : π) : Prop where
  amid : busy p = true → Amid m p
  calm : busy p = false → Calm m

/-- At most one goroutine is busy, and `Amid` or `Calm` says what it has done so far. -/
structure Serial (s : Threads μ π) : Prop where
  one : s.routines.countP busy ≤ 1
  calm : s.routines.countP busy = 0 → Calm s.memory
  amid : ∀ p ∈ s.routines, busy p = true → Amid s.memory p

variable {busy Calm Amid}

theorem countP_move (busy : π → Bool) (before after : List π) (p : π) :
    (before ++ p :: after).countP busy = (before ++ after).countP busy + (busy p).toNat := by
  rw [List.countP_append, List.countP_cons, List.countP_append]
  cases busy p <;> simp [add_assoc]

/-- While nobody else is busy, all there is to know is what the goroutine that moves tells. -/
theorem serial_of_idle {before after new : List π} {m : μ} {p : π}
    (hothers : (before ++ after).countP busy = 0) (hnew : new.countP busy = 0)
    (hknown : Known busy Calm Amid m p) :
    Serial busy Calm Amid ⟨m, before ++ p :: after ++ new⟩ := by
  have hcount : (before ++ p :: after ++ new).countP busy = (busy p).toNat := by
    rw [List.countP_append, countP_move, hothers, hnew, Nat.zero_add, Nat.add_zero]
  refine ⟨?_, fun hzero => hknown.calm ?_, fun q hq hbusy => ?_⟩
  · rw [hcount]
    exact Bool.toNat_le (busy p)
  · rwa [hcount, Bool.toNat_eq_zero] at hzero
  · rcases List.mem_append.mp hq with hq | hq
    · simp only [List.mem_append, List.mem_cons] at hq
      rcases hq with hq | rfl | hq
      · exact absurd hbusy (List.countP_eq_zero.mp hothers q (List.mem_append_left _ hq))
      · exact hknown.amid hbusy
      · exact absurd hbusy (List.countP_eq_zero.mp hothers q (List.mem_append_right _ hq))
    · exact absurd hbusy (List.countP_eq_zero.mp hnew q hq)

/--
The rule for sections that are entered one at a time.  The goroutine that moves
is busy, or finds nobody busy, or does nothing that matters to the one who is.
-/
theorem serial_step {l : Nat × χ} (h : Serial busy Calm Amid s)
    (hop : ∀ p m' p' new, s.routines[l.1]? = some p →
      operate s.memory p l.2 = some (m', p', new) →
      (∀ q ∈ new, busy q = false) ∧
      (Known busy Calm Amid s.memory p → Known busy Calm Amid m' p') ∧
      (busy p = false → (∃ q ∈ s.routines, busy q = true) →
        busy p' = false ∧ ∀ q, Amid s.memory q → Amid m' q))
    (hstep : step operate s l = some t) : Serial busy Calm Amid t := by
  obtain ⟨before, p, after, p', new, hpoint, hs, hmove, ht⟩ := step_eq_some hstep
  obtain ⟨hnew, hkeep, hpass⟩ := hop p _ p' new hpoint hmove
  have hnone : new.countP busy = 0 := List.countP_eq_zero.mpr (by simpa using hnew)
  have hcount := countP_move busy before after p
  have hone := h.one
  rw [← hs] at hcount
  by_cases hfree : (before ++ after).countP busy = 0
  · have hknown : Known busy Calm Amid t.memory p' := by
      refine hkeep ⟨h.amid p (List.mem_of_getElem? hpoint), fun hidle => h.calm ?_⟩
      rw [hcount, hfree, hidle]
      rfl
    obtain ⟨m', routines⟩ := t
    subst ht
    exact serial_of_idle hfree hnone hknown
  · -- another goroutine is busy, and this one is not
    obtain ⟨q, hq, hbusy⟩ := List.countP_pos_iff.mp (Nat.pos_of_ne_zero hfree)
    have hold : ∀ q ∈ before ++ after, q ∈ s.routines := by
      intro q hq
      simp only [hs, List.mem_append, List.mem_cons] at hq ⊢
      tauto
    have hidle : busy p = false := by
      cases hp : busy p with
      | false => rfl
      | true =>
          rw [hp, Bool.toNat_true] at hcount
          omega
    obtain ⟨hidle', hframe⟩ := hpass hidle ⟨q, hold q hq, hbusy⟩
    have hsame : t.routines.countP busy = s.routines.countP busy := by
      rw [ht, List.countP_append, hnone, Nat.add_zero, countP_move, hcount, hidle, hidle']
    refine ⟨hsame ▸ hone, fun hzero => ?_, fun r hr hr' => ?_⟩
    · rw [hsame, hcount] at hzero
      omega
    · rw [ht] at hr
      rcases List.mem_append.mp hr with hr | hr
      · rcases mem_of_move p hr with rfl | hr
        · rw [hidle'] at hr'
          cases hr'
        · exact hframe r (h.amid r (hs ▸ hr) hr')
      · rw [hnew r hr] at hr'
        cases hr'

end Serial

end Threads

end GossipMesh.Foundation
