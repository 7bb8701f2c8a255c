import Mathlib.Algebra.GroupWithZero.Nat
import Mathlib.Data.List.SplitBy
import Mathlib.Data.List.Forall2
import Mathlib.Data.List.Range
import Mathlib.Data.List.Count
import Mathlib.Data.List.Nodup
import Mathlib.Data.Bool.Count

/-!
# Consecutive blocks, their first indices, and runs

A list cut into consecutive blocks is described by the lengths of the blocks.
`starts` lists the first index of each block and `indicator` the membership
flags of a set of indices.  The blocks of interest are the runs of a relation,
Mathlib's `List.splitBy`.
-/

namespace GossipMesh.Foundation

def starts : Nat → List Nat → List Nat
  | _, [] => []
  | start, len :: lens => start :: starts (start + len) lens

def blocks : Nat → List Nat → List (List Nat)
  | _, [] => []
  | start, len :: lens => List.range' start len :: blocks (start + len) lens

@[simp] theorem starts_length (start : Nat) (lens : List Nat) :
    (starts start lens).length = lens.length := by
  induction lens generalizing start with
  | nil => rfl
  | cons len lens ih => simp [starts, ih]

@[simp] theorem blocks_length (start : Nat) (lens : List Nat) :
    (blocks start lens).length = lens.length := by
  induction lens generalizing start with
  | nil => rfl
  | cons len lens ih => simp [blocks, ih]

theorem blocks_head {lens : List Nat} (hpos : ∀ len ∈ lens, 0 < len) (start i : Nat) :
    ((blocks start lens)[i]?.bind fun block => block[0]?) = (starts start lens)[i]? := by
  induction lens generalizing start i with
  | nil => simp [blocks, starts]
  | cons len lens ih =>
      cases i with
      | zero =>
          have hlen := hpos len (by simp)
          simp [blocks, starts, hlen]
      | succ i =>
          simp only [blocks, starts, List.getElem?_cons_succ]
          exact ih (fun len' hlen' => hpos len' (by simp [hlen'])) _ i

theorem le_of_mem_starts {start p : Nat} {lens : List Nat}
    (h : p ∈ starts start lens) : start ≤ p := by
  induction lens generalizing start with
  | nil => simp [starts] at h
  | cons len lens ih =>
      rcases List.mem_cons.mp h with rfl | h
      · exact le_refl p
      · have := ih h
        omega

theorem lt_of_mem_starts {start p : Nat} {lens : List Nat}
    (hpos : ∀ len ∈ lens, 0 < len) (h : p ∈ starts start lens) :
    p < start + lens.sum := by
  induction lens generalizing start with
  | nil => simp [starts] at h
  | cons len lens ih =>
      have hlen := hpos len (by simp)
      rw [List.sum_cons]
      rcases List.mem_cons.mp h with rfl | h
      · omega
      · have := ih (fun len' hlen' => hpos len' (by simp [hlen'])) h
        omega

theorem starts_pairwise {lens : List Nat} (hpos : ∀ len ∈ lens, 0 < len)
    (start : Nat) : (starts start lens).Pairwise (· < ·) := by
  induction lens generalizing start with
  | nil => simp [starts]
  | cons len lens ih =>
      have hlen := hpos len (by simp)
      rw [starts, List.pairwise_cons]
      refine ⟨?_, ih (fun len' hlen' => hpos len' (by simp [hlen'])) _⟩
      intro p hp
      have := le_of_mem_starts hp
      omega

theorem starts_succ (start : Nat) (lens : List Nat) :
    starts (start + 1) lens = (starts start lens).map (· + 1) := by
  induction lens generalizing start with
  | nil => rfl
  | cons len lens ih =>
      rw [starts, starts, List.map_cons, Nat.add_right_comm, ih]

theorem succ_mem_starts_succ {start i : Nat} {lens : List Nat} :
    i + 1 ∈ starts (start + 1) lens ↔ i ∈ starts start lens := by
  simp [starts_succ]

/-! ## Flags -/

def indicator (start n : Nat) (ps : List Nat) : List Bool :=
  (List.range' start n).map fun q => ps.contains q

@[simp] theorem indicator_length (start n : Nat) (ps : List Nat) :
    (indicator start n ps).length = n := by
  simp [indicator]

theorem indicator_nil (start n : Nat) : indicator start n [] = List.replicate n false := by
  simp [indicator]

theorem indicator_succ (start n : Nat) (ps : List Nat) :
    indicator start (n + 1) ps = ps.contains start :: indicator (start + 1) n ps := by
  simp [indicator, List.range'_succ]

theorem indicator_cons_of_lt {start p : Nat} (h : p < start) (n : Nat) (ps : List Nat) :
    indicator start n (p :: ps) = indicator start n ps := by
  apply List.map_congr_left
  intro q hq
  have := (List.mem_range'_1.mp hq).1
  have hne : q ≠ p := by omega
  simp [hne]

theorem indicator_set (n p : Nat) (ps : List Nat) :
    (indicator 0 n ps).set p true = indicator 0 n (ps ++ [p]) := by
  apply List.ext_getElem
  · simp
  · intro q hq hq'
    rw [List.getElem_set]
    by_cases hpq : p = q
    · simp [hpq, indicator]
    · have hne : q ≠ p := fun h => hpq h.symm
      simp [hpq, hne, indicator]

theorem indicator_count {n : Nat} {ps : List Nat} (hnodup : ps.Nodup)
    (hlt : ∀ p ∈ ps, p < n) : (indicator 0 n ps).count true = ps.length := by
  have hperm : ((List.range' 0 n).filter fun q => ps.contains q).Perm ps := by
    apply (List.perm_ext_iff_of_nodup (List.Nodup.filter _ List.nodup_range') hnodup).mpr
    intro p
    simp only [List.mem_filter, List.mem_range'_1, List.contains_iff_mem]
    constructor
    · exact fun h => h.2
    · intro h
      have := hlt p h
      exact ⟨by omega, h⟩
  rw [indicator, List.count_eq_countP, List.countP_map, ← hperm.length_eq,
    ← List.countP_eq_length_filter]
  apply List.countP_congr
  simp

theorem indicator_take_count {n total : Nat} (hn : n ≤ total) {ps : List Nat}
    (hnodup : ps.Nodup) :
    ((indicator 0 total ps).take n).count false + ps.countP (fun p => p < n) = n := by
  have htake : (indicator 0 total ps).take n =
      indicator 0 n (ps.filter fun p => p < n) := by
    apply List.ext_getElem?
    intro i
    by_cases hi : i < n
    · have htotal : i < total := by omega
      simp [indicator, hi, htotal]
    · have hge : n ≤ i := not_lt.mp hi
      simp [indicator, hge]
  have htrue := indicator_count (hnodup.filter fun p => decide (p < n)) (n := n) (by simp)
  have htotal := List.count_true_add_count_false
    (indicator 0 n (ps.filter fun p => decide (p < n)))
  rw [indicator_length] at htotal
  rw [htake, List.countP_eq_length_filter]
  omega

theorem indicator_starts {lens : List Nat} (hpos : ∀ len ∈ lens, 0 < len) (start : Nat) :
    indicator start lens.sum (starts start lens) =
      lens.flatMap fun len => true :: List.replicate (len - 1) false := by
  induction lens generalizing start with
  | nil => simp [indicator]
  | cons len lens ih =>
      have hlen := hpos len (by simp)
      have htail := ih (fun len' hlen' => hpos len' (by simp [hlen'])) (start + len)
      have hsplit : List.range' start (len + lens.sum) =
          (start :: List.range' (start + 1) (len - 1)) ++ List.range' (start + len) lens.sum := by
        rw [← List.range'_append_1, ← List.range'_succ, Nat.sub_add_cancel hlen]
      rw [List.sum_cons, indicator, hsplit, List.map_append, List.flatMap_cons, ← htail]
      congr 1
      · rw [List.map_cons, starts]
        congr 1
        · simp
        · rw [List.eq_replicate_iff]
          refine ⟨by simp, ?_⟩
          intro flag hflag
          obtain ⟨q, hq, rfl⟩ := List.mem_map.mp hflag
          rw [List.mem_range'_1] at hq
          have hnot : q ∉ starts (start + len) lens := by
            intro hmem
            have := le_of_mem_starts hmem
            omega
          have hne : q ≠ start := by omega
          simp [hne, hnot]
      · apply List.map_congr_left
        intro q hq
        rw [List.mem_range'_1] at hq
        have hne : q ≠ start := by omega
        simp [starts, hne]

/-! ## Even spreading -/

theorem spread_lt {i j k r : Nat} (hr : 0 < r) (hrk : r ≤ k) (hij : i < j) :
    i * k / r < j * k / r := by
  have hstep : i * k + r ≤ j * k := by
    calc i * k + r ≤ i * k + k := by omega
      _ = (i + 1) * k := by rw [Nat.add_mul, Nat.one_mul]
      _ ≤ j * k := Nat.mul_le_mul_right k hij
  calc i * k / r < i * k / r + 1 := Nat.lt_succ_self _
    _ = (i * k + r) / r := (Nat.add_div_right _ hr).symm
    _ ≤ j * k / r := Nat.div_le_div_right hstep

theorem spread_lt_of_lt {i k r : Nat} (hk : 0 < k) (hi : i < r) : i * k / r < k := by
  rw [Nat.div_lt_iff_lt_mul (by omega), Nat.mul_comm k r]
  exact Nat.mul_lt_mul_of_pos_right hi hk

/-- No `⌈k / r⌉` consecutive numbers below `k` lie between two of the `r` spread ones. -/
theorem spread_dense {k r first : Nat} (hr : 0 < r) (hk : 0 < k)
    (hfirst : first + (k + r - 1) / r ≤ k) :
    ∃ i < r, first ≤ i * k / r ∧ i * k / r < first + (k + r - 1) / r := by
  have hwidth : k ≤ (k + r - 1) / r * r := by
    have := Nat.lt_div_mul_add hr (a := k + r - 1)
    omega
  have hlow : first * r ≤ (first * r + k - 1) / k * k := by
    have := Nat.lt_div_mul_add hk (a := first * r + k - 1)
    omega
  have hhigh : (first * r + k - 1) / k * k ≤ first * r + k - 1 := Nat.div_mul_le_self _ _
  have hfits : first * r + (k + r - 1) / r * r ≤ k * r := by
    rw [← Nat.add_mul]
    exact Nat.mul_le_mul_right r hfirst
  refine ⟨(first * r + k - 1) / k, ?_, ?_, ?_⟩
  · rw [← Nat.mul_lt_mul_right hk, Nat.mul_comm r k]
    omega
  · rwa [Nat.le_div_iff_mul_le hr]
  · rw [Nat.div_lt_iff_lt_mul hr, Nat.add_mul]
    omega

/-! ## Runs -/

section Runs

variable {α : Type} {r : α → α → Bool}

/-- The first element of a run stands at the first index of its block. -/
theorem getElem?_starts {runs : List (List α)} (hne : [] ∉ runs)
    (pre : List α) (c : Nat) :
    ((starts pre.length (runs.map List.length))[c]?.bind fun p => (pre ++ runs.flatten)[p]?) =
      runs[c]?.bind List.head? := by
  induction runs generalizing pre c with
  | nil => simp [starts]
  | cons run runs ih =>
      rw [List.mem_cons, not_or] at hne
      obtain ⟨x, rest, rfl⟩ := List.exists_cons_of_ne_nil (Ne.symm hne.1)
      rw [List.map_cons, starts, List.flatten_cons]
      cases c with
      | zero => simp
      | succ c =>
          have htail := ih hne.2 (pre ++ x :: rest) c
          rw [List.length_append] at htail
          simpa using htail

theorem splitBy_cons_of_related {p q : α} {rest run : List α} {runs : List (List α)}
    (hr : r p q = true) (h : (q :: rest).splitBy r = run :: runs) :
    (p :: q :: rest).splitBy r = (p :: run) :: runs := by
  rw [List.splitBy_eq_iff] at h ⊢
  obtain ⟨hflat, hnil, hchain, hsep⟩ := h
  rw [List.flatten_cons] at hflat
  rw [List.mem_cons, not_or] at hnil
  obtain ⟨head, run, rfl⟩ := List.exists_cons_of_ne_nil (Ne.symm hnil.1)
  have hhead : q = head := by
    rw [List.cons_append] at hflat
    exact (List.cons.inj hflat).1
  subst hhead
  refine ⟨by rw [List.flatten_cons, List.cons_append, ← hflat], by simpa using hnil.2, ?_, ?_⟩
  · intro m hm
    rcases List.mem_cons.mp hm with rfl | hm
    · exact List.isChain_cons_cons.mpr ⟨hr, hchain _ (by simp)⟩
    · exact hchain m (by simp [hm])
  · cases runs with
    | nil => simp
    | cons next runs =>
        rw [List.isChain_cons_cons] at hsep ⊢
        obtain ⟨⟨hlast, hfirst, hfalse⟩, hrest⟩ := hsep
        exact ⟨⟨by simp, hfirst, by simpa using hfalse⟩, hrest⟩

theorem splitBy_cons_of_unrelated {p q : α} {rest : List α} (hr : r p q = false) :
    (p :: q :: rest).splitBy r = [p] :: (q :: rest).splitBy r := by
  have h := List.splitBy_append (r := r) (l := [p]) (m := q :: rest) (by simpa using hr)
  have hsingle : [p].splitBy r = [[p]] := rfl
  rwa [hsingle] at h

theorem succ_mem_starts_splitBy {xs : List α} {i : Nat} :
    i + 1 ∈ starts 0 ((xs.splitBy r).map List.length) ↔
      ∃ p q, xs[i]? = some p ∧ xs[i + 1]? = some q ∧ r p q = false := by
  induction xs generalizing i with
  | nil => simp [starts]
  | cons x xs ih =>
      cases xs with
      | nil =>
          have hsingle : [x].splitBy r = [[x]] := rfl
          simp [hsingle, starts]
      | cons y xs =>
          cases hruns : (y :: xs).splitBy r with
          | nil => simp at hruns
          | cons run runs =>
              have hpos : 0 < run.length := List.length_pos_iff.mpr
                (List.ne_nil_of_mem_splitBy (r := r) (l := y :: xs) (by simp [hruns]))
              rw [hruns, List.map_cons, starts, Nat.zero_add] at ih
              by_cases hrel : r x y = true
              · rw [splitBy_cons_of_related hrel hruns, List.map_cons, starts, Nat.zero_add,
                  List.length_cons, List.mem_cons, or_iff_right (Nat.succ_ne_zero i),
                  succ_mem_starts_succ]
                cases i with
                | zero =>
                    have hnot : 0 ∉ starts run.length (runs.map List.length) := fun h => by
                      have := le_of_mem_starts h
                      omega
                    simp [hnot, hrel]
                | succ i =>
                    have htail := ih (i := i)
                    rw [List.mem_cons, or_iff_right (Nat.succ_ne_zero i)] at htail
                    simpa using htail
              · rw [splitBy_cons_of_unrelated (by simpa using hrel), hruns, List.map_cons, starts,
                  List.mem_cons, or_iff_right (Nat.succ_ne_zero i), List.length_singleton,
                  succ_mem_starts_succ, List.map_cons, starts, Nat.zero_add]
                cases i with
                | zero => simpa using hrel
                | succ i => simpa using ih (i := i)

/-- Initial parts of runs are runs again if the runs are separated throughout. -/
theorem splitBy_flatten_of_initial {kept runs : List (List α)}
    (hkept : List.Forall₂ (fun part run => part ≠ [] ∧ part <+: run) kept runs)
    (hchain : ∀ run ∈ runs, run.IsChain fun x y => r x y)
    (hsep : runs.IsChain fun run next => ∀ x ∈ run, ∀ y ∈ next, r x y = false) :
    kept.flatten.splitBy r = kept := by
  induction hkept with
  | nil => rfl
  | @cons part run kept runs hpart hrest ih =>
      obtain ⟨hne, hinit⟩ := hpart
      have hpartChain : part.IsChain fun x y => r x y :=
        List.IsChain.prefix (hchain run (by simp)) hinit
      have htail := ih (fun run' hrun' => hchain run' (by simp [hrun'])) hsep.tail
      rw [List.flatten_cons, List.splitBy_append, List.splitBy_of_isChain hne hpartChain, htail]
      · rfl
      · intro x hx y hy
        have hxrun : x ∈ run := hinit.subset (List.mem_of_getLast? hx)
        cases hrest with
        | nil => simp at hy
        | @cons part' run' _ _ hpart' _ =>
            obtain ⟨first, part', rfl⟩ := List.exists_cons_of_ne_nil hpart'.1
            have hfirst : first = y := by simpa using hy
            have hyrun : y ∈ run' := hpart'.2.subset (by simp [hfirst])
            exact (List.isChain_cons_cons.mp hsep).1 x hxrun y hyrun

end Runs

end GossipMesh.Foundation
