import Mathlib.Data.Finset.Fold
import Mathlib.Data.Finset.Card
import Mathlib.Order.Interval.Finset.Nat

/-!
# Machine words as sequence numbers

Sequence numbers are 64-bit words.  Comparisons of words are comparisons of
their values; the successor agrees with that of the value below the largest
word and wraps to zero there.
-/

namespace GossipMesh.Foundation

instance uint64LinearOrder : LinearOrder UInt64 where
  le_refl _ := UInt64.le_refl _
  le_trans _ _ _ := UInt64.le_trans
  le_antisymm _ _ := UInt64.le_antisymm
  le_total := UInt64.le_total
  lt_iff_le_not_ge a b := by
    rw [UInt64.lt_iff_toNat_lt, UInt64.le_iff_toNat_le, UInt64.le_iff_toNat_le]
    omega
  toDecidableLE := UInt64.decLe
  toDecidableLT := UInt64.decLt
  toDecidableEq := instDecidableEqUInt64
  min_def _ _ := rfl
  max_def _ _ := rfl

def maxUint64 : UInt64 := 0xFFFFFFFFFFFFFFFF

@[simp] theorem maxUint64_toNat : maxUint64.toNat = 2 ^ 64 - 1 := rfl

theorem word_le_maxUint64 (k : UInt64) : k ≤ maxUint64 := by
  have := k.toNat_lt
  rw [UInt64.le_iff_toNat_le, maxUint64_toNat]
  omega

theorem toNat_succ {k : UInt64} (h : k < maxUint64) :
    (k + 1).toNat = k.toNat + 1 := by
  have hk := UInt64.lt_iff_toNat_lt.mp h
  rw [maxUint64_toNat] at hk
  rw [UInt64.toNat_add]
  simp only [UInt64.toNat_one]
  omega

theorem toNat_add_ofNat {n : UInt64} {i : Nat} (h : n.toNat + i < 2 ^ 64) :
    (n + UInt64.ofNat i).toNat = n.toNat + i := by
  have hi : i < 2 ^ 64 := by omega
  rw [UInt64.toNat_add, UInt64.toNat_ofNat', Nat.mod_eq_of_lt hi,
    Nat.mod_eq_of_lt h]

theorem toNat_sub_of_lt {a b : UInt64} (h : a < b) :
    (b - a).toNat = b.toNat - a.toNat :=
  UInt64.toNat_sub_of_le b a (le_of_lt h)

theorem lt_succ_self {k : UInt64} (h : k < maxUint64) : k < k + 1 := by
  rw [UInt64.lt_iff_toNat_lt, toNat_succ h]
  omega

theorem succ_le_iff {j k : UInt64} (h : k < maxUint64) : k + 1 ≤ j ↔ k < j := by
  rw [UInt64.lt_iff_toNat_lt, UInt64.le_iff_toNat_le, toNat_succ h]
  omega

/-! ## Consecutive numbers -/

def wordsFrom (n : UInt64) (count : Nat) : List UInt64 :=
  (List.range count).map fun i => n + UInt64.ofNat i

theorem wordsFrom_succ (n : UInt64) (count : Nat) :
    wordsFrom n (count + 1) = wordsFrom n count ++ [n + UInt64.ofNat count] := by
  simp [wordsFrom, List.range_succ]

theorem wordsFrom_cons (n : UInt64) (count : Nat) :
    wordsFrom n (count + 1) = n :: wordsFrom (n + 1) count := by
  rw [wordsFrom, List.range_succ_eq_map, List.map_cons, List.map_map, wordsFrom]
  simp [Function.comp_def, UInt64.add_assoc, UInt64.add_comm]

@[simp] theorem wordsFrom_length (n : UInt64) (count : Nat) : (wordsFrom n count).length = count := by
  simp [wordsFrom]

theorem wordsFrom_add (n : UInt64) (j k : Nat) :
    wordsFrom n (j + k) = wordsFrom n j ++ wordsFrom (n + UInt64.ofNat j) k := by
  induction j generalizing n with
  | zero => simp [wordsFrom]
  | succ j ih =>
      rw [Nat.succ_add, wordsFrom_cons, ih, wordsFrom_cons n j]
      simp [UInt64.add_assoc, UInt64.add_comm]

theorem of_snoc_prefix_wordsFrom {n : UInt64} {count : Nat} {words : List UInt64} {word : UInt64}
    (h : words ++ [word] <+: wordsFrom n count) :
    words = wordsFrom n words.length ∧ word = n + UInt64.ofNat words.length ∧
      words.length < count := by
  have hlen : words.length < count := by
    have := h.length_le
    simp only [List.length_append, List.length_singleton, wordsFrom, List.length_map,
      List.length_range] at this
    omega
  have htake := List.prefix_iff_eq_take.mp h
  rw [List.length_append, List.length_singleton, wordsFrom, ← List.map_take, List.take_range,
    Nat.min_eq_left hlen] at htake
  change words ++ [word] = wordsFrom n (words.length + 1) at htake
  rw [wordsFrom_succ] at htake
  obtain ⟨hwords, hword⟩ := List.append_inj' htake rfl
  exact ⟨hwords, by simpa using hword, hlen⟩

theorem mem_wordsFrom_iff {n word : UInt64} {count : Nat} (h : n.toNat + count ≤ 2 ^ 64) :
    word ∈ wordsFrom n count ↔ n.toNat ≤ word.toNat ∧ word.toNat < n.toNat + count := by
  constructor
  · intro hmem
    obtain ⟨i, hi, rfl⟩ := List.mem_map.mp hmem
    have hlt := List.mem_range.mp hi
    rw [toNat_add_ofNat (by omega)]
    omega
  · rintro ⟨hlow, hhigh⟩
    refine List.mem_map.mpr ⟨word.toNat - n.toNat, List.mem_range.mpr (by omega), ?_⟩
    apply UInt64.toNat_inj.mp
    rw [toNat_add_ofNat (by omega)]
    omega

theorem mem_wordsFrom_succ_iff {n word : UInt64} {count : Nat} (h : n.toNat + count < 2 ^ 64) :
    word ∈ wordsFrom (n + 1) count ↔ n < word ∧ word.toNat ≤ n.toNat + count := by
  rw [UInt64.lt_iff_toNat_lt]
  cases count with
  | zero => simp [wordsFrom]
  | succ count =>
      have hsucc := toNat_succ (k := n) (UInt64.lt_iff_toNat_lt.mpr (by simp; omega))
      rw [mem_wordsFrom_iff (by omega)]
      omega

theorem wordsFrom_pairwise {n : UInt64} {count : Nat} (h : n.toNat + count ≤ 2 ^ 64) :
    (wordsFrom n count).Pairwise (· < ·) := by
  induction count with
  | zero => exact .nil
  | succ count ih =>
      rw [wordsFrom_succ, List.pairwise_append]
      refine ⟨ih (by omega), List.pairwise_singleton _ _, fun word hword last hlast => ?_⟩
      have hlt := ((mem_wordsFrom_iff (by omega)).mp hword).2
      rw [List.mem_singleton.mp hlast, UInt64.lt_iff_toNat_lt, toNat_add_ofNat (by omega)]
      exact hlt

theorem le_toNat_of_wordsFrom {k : Nat} {bound : UInt64} (hk : k < 2 ^ 64)
    (h : ∀ word ∈ wordsFrom 1 k, word ≤ bound) : k ≤ bound.toNat := by
  cases k with
  | zero => exact Nat.zero_le _
  | succ k =>
      have hlast := h (1 + UInt64.ofNat k) (by simp [wordsFrom_succ])
      rw [UInt64.le_iff_toNat_le, toNat_add_ofNat (by simp; omega), UInt64.toNat_one] at hlast
      omega

theorem wordsFrom_snoc_of_lt {n : Nat} (hn : n < 2 ^ 64) {words : List UInt64}
    {mark seq : UInt64} (hwords : words ++ [seq] <+: wordsFrom 1 n)
    (hbelow : ∀ word ∈ words, word ≤ mark) (hlt : mark < seq) :
    wordsFrom 1 mark.toNat ++ [seq] = wordsFrom 1 seq.toNat := by
  obtain ⟨hearlier, hseq, hlen⟩ := of_snoc_prefix_wordsFrom hwords
  generalize words.length = k at hearlier hseq hlen
  subst hearlier
  have hk := le_toNat_of_wordsFrom (by omega) hbelow
  have hvalue : seq.toNat = k + 1 := by
    rw [hseq, toNat_add_ofNat (by simp; omega), UInt64.toNat_one, Nat.add_comm]
  have hmark : mark.toNat = k := by
    have := UInt64.lt_iff_toNat_lt.mp hlt
    omega
  rw [hvalue, wordsFrom_succ, hmark, hseq]

theorem toNat_le_of_mem_wordsFrom {k : Nat} {word : UInt64} (hk : k < 2 ^ 64)
    (h : word ∈ wordsFrom 1 k) : word.toNat ≤ k := by
  have hlt := ((mem_wordsFrom_iff (by simp; omega)).mp h).2
  rw [UInt64.toNat_one] at hlt
  omega

/-! ## The smallest word of a finite set -/

def leastWord (keys : Finset UInt64) : UInt64 := keys.fold min maxUint64 id

theorem leastWord_le {keys : Finset UInt64} {k : UInt64} (h : k ∈ keys) :
    leastWord keys ≤ k :=
  (Finset.fold_min_le k).mpr (.inr ⟨k, h, le_refl k⟩)

theorem leastWord_mem {keys : Finset UInt64} (h : leastWord keys ≠ maxUint64) :
    leastWord keys ∈ keys := by
  have hle : keys.fold min maxUint64 id ≤ leastWord keys := le_refl _
  rcases (Finset.fold_min_le _).mp hle with hmax | ⟨k, hk, hkle⟩
  · exact absurd (le_antisymm (word_le_maxUint64 _) hmax) h
  · have heq : k = leastWord keys := le_antisymm hkle (leastWord_le hk)
    exact heq ▸ hk

theorem leastWord_ne_max_iff {keys : Finset UInt64} :
    leastWord keys ≠ maxUint64 ↔ ∃ k ∈ keys, k ≠ maxUint64 := by
  constructor
  · intro h
    exact ⟨leastWord keys, leastWord_mem h, h⟩
  · rintro ⟨k, hk, hne⟩ heq
    have hle := leastWord_le hk
    rw [heq] at hle
    exact hne (le_antisymm (word_le_maxUint64 k) hle)

theorem card_le_of_window {keys : Finset UInt64} (low : Nat) {width : Nat}
    (h : ∀ k ∈ keys, low < k.toNat ∧ k.toNat ≤ low + width) :
    keys.card ≤ width := by
  have hinj : Set.InjOn UInt64.toNat keys :=
    fun a _ b _ hab => UInt64.toNat_inj.mp hab
  rw [← Finset.card_image_of_injOn hinj]
  calc (keys.image UInt64.toNat).card
      ≤ (Finset.Ioc low (low + width)).card := by
        apply Finset.card_le_card
        intro n hn
        obtain ⟨k, hk, rfl⟩ := Finset.mem_image.mp hn
        exact Finset.mem_Ioc.mpr (h k hk)
    _ = width := by simp

end GossipMesh.Foundation
