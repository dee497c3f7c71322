/-
Slots that are used in turn.

The `i`-th use of a ring of `n` slots is of slot `i % n`.  A `window` is the slots of some
uses in a row: up to `n` of them are different, and after one window the next one goes on.
-/
import Mathlib.Data.List.Nodup
import Mathlib.Data.List.Range

namespace Dal.Ring

variable {n start len len' i j : Nat}

/-- The slots of `len` uses, beginning with use `start`. -/
def window (n start len : Nat) : List Nat := (List.range' start len).map (· % n)

theorem window_zero : window n start 0 = [] := rfl

theorem window_succ : window n start (len + 1) = start % n :: window n (start + 1) len := rfl

theorem length_window : (window n start len).length = len := by
  rw [window, List.length_map, List.length_range']

theorem window_append :
    window n start len ++ window n (start + len) len' = window n start (len + len') := by
  unfold window
  rw [← List.map_append, List.range'_append_1]

/-- Two uses of a slot are at least a round apart. -/
theorem eq_of_mod_eq (hij : i ≤ j) (hlt : j < i + n) (h : i % n = j % n) : i = j := by
  have hzero : (j - i) % n = 0 := Nat.sub_mod_eq_zero_of_mod_eq h.symm
  rw [Nat.mod_eq_of_lt (by omega)] at hzero
  omega

theorem window_nodup (h : len ≤ n) : (window n start len).Nodup := by
  refine List.Nodup.map_on (fun i hi j hj heq => ?_) List.nodup_range'
  obtain ⟨hi, hi'⟩ := List.mem_range'_1.mp hi
  obtain ⟨hj, hj'⟩ := List.mem_range'_1.mp hj
  rcases Nat.le_total i j with hij | hij
  · exact eq_of_mod_eq hij (by omega) heq
  · exact (eq_of_mod_eq hij (by omega) heq.symm).symm

/-- A window depends on the slot it begins with only. -/
theorem window_congr {start' : Nat} (h : start % n = start' % n) :
    window n start len = window n start' len := by
  induction len generalizing start start' with
  | zero => rfl
  | succ len ih =>
      rw [window_succ, window_succ, h]
      have hnext : (start + 1) % n = (start' + 1) % n := by
        rw [Nat.add_mod, h, ← Nat.add_mod]
      rw [ih hnext]

/-- The slots in their order, from one that leaves room for them. -/
theorem window_eq_range (h : start + len ≤ n) :
    window n start len = (List.range len).map (start + ·) := by
  unfold window
  rw [List.range'_eq_map_range, List.map_map]
  refine List.map_congr_left fun i hi => ?_
  have hlt := List.mem_range.mp hi
  exact Nat.mod_eq_of_lt (show start + i < n by omega)

end Dal.Ring
