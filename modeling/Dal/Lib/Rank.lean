/-
The `k`-th smallest element of a list, and finding it by counting.

An element is the `k`-th smallest when fewer than `k` elements are below it and at least
`k` are not above it.  A histogram finds it so: the numbers of elements in the buckets up
to `i` add up to the number of elements whose bucket is at most `i`.
-/
import Mathlib.Algebra.BigOperators.Group.Finset.Basic
import Mathlib.Algebra.Order.BigOperators.Group.Finset
import Mathlib.Data.List.Sort
import Mathlib.Order.Defs.LinearOrder

namespace Dal

universe u v

variable {α : Type u} {κ : Type v}

namespace Rank

section Kth

variable [LinearOrder κ] {l m : List κ} {k i : Nat} {v : κ}

/-- The `k`-th smallest element, counted from 1. -/
def kth (l : List κ) (k : Nat) : Option κ := (l.mergeSort fun a b => decide (a ≤ b))[k - 1]?

theorem sorted (l : List κ) : (l.mergeSort fun a b => decide (a ≤ b)).Pairwise (· ≤ ·) := by
  have htrans : ∀ a b c : κ, decide (a ≤ b) = true → decide (b ≤ c) = true → decide (a ≤ c) = true :=
    fun a b c hab hbc => decide_eq_true (le_trans (of_decide_eq_true hab) (of_decide_eq_true hbc))
  have htotal : ∀ a b : κ, (decide (a ≤ b) || decide (b ≤ a)) = true := by
    intro a b
    rw [Bool.or_eq_true, decide_eq_true_eq, decide_eq_true_eq]
    exact le_total a b
  exact (List.pairwise_mergeSort htrans htotal l).imp of_decide_eq_true

/-- In a sorted list the elements up to place `i` are not above the one there. -/
theorem countP_le_getElem (hm : m.Pairwise (· ≤ ·)) (hi : i < m.length) :
    i + 1 ≤ m.countP (· ≤ m[i]) := by
  have htake : (m.take (i + 1)).countP (· ≤ m[i]) = i + 1 := by
    have hall : ∀ x ∈ m.take (i + 1), decide (x ≤ m[i]) = true := by
      intro x hx
      obtain ⟨j, hj, rfl⟩ := List.getElem_of_mem hx
      rw [List.length_take] at hj
      rw [List.getElem_take]
      refine decide_eq_true ?_
      rcases Nat.lt_or_eq_of_le (show j ≤ i by omega) with hlt | heq
      · exact List.pairwise_iff_getElem.mp hm j i (by omega) hi hlt
      · exact le_of_eq (by congr 1)
    rw [List.countP_eq_length.mpr hall, List.length_take]
    omega
  have hsplit : m.countP (· ≤ m[i]) =
      (m.take (i + 1)).countP (· ≤ m[i]) + (m.drop (i + 1)).countP (· ≤ m[i]) := by
    rw [← List.countP_append, List.take_append_drop]
  omega

/-- And at most `i` elements are below it. -/
theorem countP_lt_getElem (hm : m.Pairwise (· ≤ ·)) (hi : i < m.length) :
    m.countP (· < m[i]) ≤ i := by
  have hdrop : (m.drop i).countP (· < m[i]) = 0 := by
    refine List.countP_eq_zero.mpr fun x hx => ?_
    obtain ⟨j, hj, rfl⟩ := List.getElem_of_mem hx
    rw [List.length_drop] at hj
    rw [List.getElem_drop, decide_eq_true_eq, not_lt]
    rcases Nat.eq_zero_or_pos j with hzero | hpos
    · exact le_of_eq (by congr 1; omega)
    · exact List.pairwise_iff_getElem.mp hm i (i + j) hi (by omega) (by omega)
  have hsplit : m.countP (· < m[i]) =
      (m.take i).countP (· < m[i]) + (m.drop i).countP (· < m[i]) := by
    rw [← List.countP_append, List.take_append_drop]
  have htake : (m.take i).countP (· < m[i]) ≤ i :=
    Nat.le_trans List.countP_le_length (List.length_take_le _ _)
  omega

/-- The counts below and up to `v` say that it is the `k`-th smallest. -/
theorem kth_eq (hlt : l.countP (· < v) < k) (hle : k ≤ l.countP (· ≤ v)) :
    kth l k = some v := by
  have hperm := List.mergeSort_perm l fun a b => decide (a ≤ b)
  have hsorted := sorted l
  unfold kth
  generalize l.mergeSort (fun a b => decide (a ≤ b)) = m at hperm hsorted
  rw [← hperm.countP_eq] at hlt hle
  have hk : k - 1 < m.length := by
    have hlen := List.countP_le_length (l := m) (p := fun x => decide (x ≤ v))
    omega
  rw [List.getElem?_eq_getElem hk]
  have hbelow := countP_lt_getElem hsorted hk
  have hupto := countP_le_getElem hsorted hk
  refine congrArg some (le_antisymm ?_ ?_)
  · -- Were the element above `v`, those up to `v` would be below it: too few.
    refine not_lt.mp fun hgt => ?_
    have hmono : m.countP (· ≤ v) ≤ m.countP (· < m[k - 1]) :=
      List.countP_mono_left fun x _ hx => decide_eq_true (lt_of_le_of_lt (of_decide_eq_true hx) hgt)
    omega
  · refine not_lt.mp fun hgt => ?_
    have hmono : m.countP (· ≤ m[k - 1]) ≤ m.countP (· < v) :=
      List.countP_mono_left fun x _ hx => decide_eq_true (lt_of_le_of_lt (of_decide_eq_true hx) hgt)
    omega

end Kth

/-! ### Histograms -/

section Histogram

variable [LinearOrder κ] {samples : List α} {f : α → Nat} {g : α → κ} {k i : Nat} {x : α}

theorem countP_succ (f : α → Nat) (n : Nat) (samples : List α) :
    samples.countP (f · < n) + samples.countP (f · = n) = samples.countP (f · < n + 1) := by
  induction samples with
  | nil => rfl
  | cons x samples ih =>
      simp only [List.countP_cons, decide_eq_true_eq]
      rcases Nat.lt_trichotomy (f x) n with hlt | heq | hgt
      · rw [if_pos hlt, if_neg (Nat.ne_of_lt hlt), if_pos (Nat.lt_succ_of_lt hlt)]
        omega
      · rw [if_neg (by omega), if_pos heq, if_pos (by omega)]
        omega
      · rw [if_neg (by omega), if_neg (by omega), if_neg (by omega)]
        omega

/-- The buckets below `n` hold the samples whose bucket is below `n`. -/
theorem sum_countP (f : α → Nat) (samples : List α) (n : Nat) :
    ∑ i ∈ Finset.range n, samples.countP (f · = i) = samples.countP (f · < n) := by
  induction n with
  | zero => exact (List.countP_eq_zero.mpr fun x _ => by simp).symm
  | succ n ih => rw [Finset.sum_range_succ, ih, countP_succ]

/-- `i` is the first bucket at which `th` samples are counted. -/
def Reaches (count : Nat → Nat) (th i : Nat) : Prop :=
  th ≤ ∑ j ∈ Finset.range (i + 1), count j ∧
    ∀ j < i, ∑ j' ∈ Finset.range (j + 1), count j' < th

theorem Reaches.congr {count count' : Nat → Nat} {th : Nat} (h : Reaches count th i)
    (heq : ∀ j ≤ i, count j = count' j) : Reaches count' th i := by
  have hsum : ∀ n ≤ i + 1, ∑ j ∈ Finset.range n, count' j = ∑ j ∈ Finset.range n, count j := by
    intro n hn
    refine Finset.sum_congr rfl fun j hj => (heq j ?_).symm
    have hjn := Finset.mem_range.mp hj
    omega
  refine ⟨?_, fun j hj => ?_⟩
  · rw [hsum _ (Nat.le_refl _)]
    exact h.1
  · rw [hsum _ (by omega)]
    exact h.2 j hj

theorem Reaches.eq_zero {count : Nat → Nat} (h : Reaches count 0 i) : i = 0 := by
  cases i with
  | zero => rfl
  | succ i => exact absurd (h.2 i (Nat.lt_succ_self i)) (Nat.not_lt_zero _)

theorem Reaches.lt_of_pos {count : Nat → Nat} (h : Reaches count k i) (hk : 0 < k) :
    ∑ j ∈ Finset.range i, count j < k := by
  cases i with
  | zero => exact hk
  | succ i => exact h.2 i (Nat.lt_succ_self i)

/-- The bucket at which it happens is not empty. -/
theorem Reaches.exists_mem (h : Reaches (fun i => samples.countP (f · = i)) k i) (hk : 0 < k) :
    ∃ x ∈ samples, f x = i := by
  have hlt := h.lt_of_pos hk
  have hle := h.1
  rw [Finset.sum_range_succ] at hle
  have hpos : 0 < samples.countP (f · = i) := by omega
  obtain ⟨x, hx, hfx⟩ := List.countP_pos_iff.mp hpos
  exact ⟨x, hx, of_decide_eq_true hfx⟩

/-- Values that grow with the buckets have their `k`-th smallest in that bucket. -/
theorem Reaches.kth_map (h : Reaches (fun i => samples.countP (f · = i)) k i) (hk : 0 < k)
    (hmono : ∀ y ∈ samples, f y < i ↔ g y < g x) (hmono' : ∀ y ∈ samples, f y ≤ i ↔ g y ≤ g x) :
    kth (samples.map g) k = some (g x) := by
  have hlt := h.lt_of_pos hk
  have hle := h.1
  rw [sum_countP] at hlt hle
  refine kth_eq ?_ ?_
  · rw [List.countP_map]
    refine Nat.lt_of_le_of_lt (List.countP_mono_left fun y hy hgy => ?_) hlt
    exact decide_eq_true ((hmono y hy).mpr (of_decide_eq_true hgy))
  · rw [List.countP_map]
    refine Nat.le_trans hle (List.countP_mono_left fun y hy hfy => ?_)
    exact decide_eq_true ((hmono' y hy).mp (Nat.le_of_lt_succ (of_decide_eq_true hfy)))

end Histogram

end Rank

end Dal
