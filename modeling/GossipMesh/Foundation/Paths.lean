import Mathlib.Data.List.Basic

/-!
# Paths joined by a separator

Joining is not injective when the parts may contain the separator.  What is
joined with a separator at its end begins another such string exactly if its
segments begin those of the other.
-/

namespace GossipMesh.Foundation

variable {α : Type*} {sep : α} {x y : List α}

theorem intercalate_append {first second : List (List α)} (hfirst : first ≠ [])
    (hsecond : second ≠ []) :
    [sep].intercalate (first ++ second) =
      [sep].intercalate first ++ sep :: [sep].intercalate second := by
  induction first with
  | nil => exact absurd rfl hfirst
  | cons part first ih =>
      rw [List.cons_append]
      by_cases hnil : first = []
      · rw [hnil, List.nil_append, List.intercalate_cons_of_ne_nil hsecond]
        simp
      · have happend : first ++ second ≠ [] := by simp [hnil]
        rw [List.intercalate_cons_of_ne_nil happend, ih hnil, List.intercalate_cons_of_ne_nil hnil]
        simp

variable [BEq α] [LawfulBEq α]

theorem splitOn_append_cons (x y : List α) (sep : α) :
    (x ++ sep :: y).splitOn sep = x.splitOn sep ++ y.splitOn sep :=
  List.splitOnP_append_cons x y (beq_self_eq_true sep)

theorem snoc_prefix_snoc_iff :
    x ++ [sep] <+: y ++ [sep] ↔ x.splitOn sep <+: y.splitOn sep := by
  constructor
  · rintro ⟨rest, hrest⟩
    rcases List.eq_nil_or_concat rest with rfl | ⟨more, last, rfl⟩
    · rw [List.append_nil] at hrest
      obtain rfl := List.append_cancel_right hrest
      exact List.prefix_rfl
    · rw [List.concat_eq_append, ← List.append_assoc] at hrest
      obtain ⟨hy, -⟩ := List.append_inj' hrest rfl
      rw [← hy, List.append_assoc, List.singleton_append, splitOn_append_cons]
      exact List.prefix_append _ _
  · rintro ⟨parts, hparts⟩
    have hx : [sep].intercalate (x.splitOn sep) = x := List.intercalate_splitOn sep
    have hy : [sep].intercalate (y.splitOn sep) = y := List.intercalate_splitOn sep
    by_cases hnil : parts = []
    · rw [hnil, List.append_nil] at hparts
      obtain rfl : x = y := by rw [← hx, ← hy, hparts]
      exact List.prefix_rfl
    · rw [← hparts, intercalate_append (List.splitOn_ne_nil sep x) hnil, hx] at hy
      rw [← hy]
      exact ⟨[sep].intercalate parts ++ [sep], by simp⟩

end GossipMesh.Foundation
