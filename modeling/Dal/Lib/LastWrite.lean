/-
A fold of updates, seen through one field of the state.

An update either writes the field or leaves it alone, and which of the two it does
depends on the update only.  After a run of updates the field is what the last one that
writes it has written, or what it was before when there was none.
-/
import Mathlib.Data.List.Induction

namespace Dal

universe u v w

variable {α : Type u} {σ : Type v} {β : Type w}

/-- The last element of a list for which `p` holds. -/
def lastWith (p : α → Bool) (l : List α) : Option α := (l.filter p).getLast?

namespace LastWith

variable {p q : α → Bool} {l : List α} {a x : α}

theorem nil : lastWith p [] = none := rfl

theorem concat : lastWith p (l ++ [a]) = if p a then some a else lastWith p l := by
  unfold lastWith
  rw [List.filter_append]
  by_cases ha : p a = true
  · rw [if_pos ha, List.filter_cons_of_pos ha]
    exact List.getLast?_concat
  · rw [if_neg ha, List.filter_cons_of_neg ha, List.filter_nil, List.append_nil]

theorem mem (h : lastWith p l = some x) : x ∈ l ∧ p x = true :=
  List.mem_filter.mp (List.mem_of_getLast? h)

theorem eq_none : lastWith p l = none ↔ ∀ x ∈ l, ¬ p x = true := by
  unfold lastWith
  rw [List.getLast?_eq_none_iff, List.filter_eq_nil_iff]

/-- The last element of a larger set, when it is in the smaller one, is the last of that. -/
theorem of_last (hpq : ∀ y, q y = true → p y = true) (h : lastWith p l = some x)
    (hx : q x = true) : lastWith q l = some x := by
  induction l using List.reverseRecOn with
  | nil => exact absurd h (by rw [nil]; exact fun hnone => by cases hnone)
  | append_singleton l a ih =>
      rw [concat] at h ⊢
      by_cases ha : q a = true
      · rw [if_pos (hpq a ha)] at h
        rw [if_pos ha]
        exact h
      · rw [if_neg ha]
        by_cases hpa : p a = true
        · rw [if_pos hpa] at h
          rw [Option.some.inj h] at ha
          exact absurd hx ha
        · rw [if_neg hpa] at h
          exact ih h

/-- A field after a run of updates. -/
theorem get_foldl {get : σ → β} {val : α → β} {step : σ → α → σ}
    (hstep : ∀ s a, get (step s a) = if p a then val a else get s) (s : σ) (l : List α) :
    get (l.foldl step s) = ((lastWith p l).map val).getD (get s) := by
  induction l using List.reverseRecOn with
  | nil => rfl
  | append_singleton l a ih =>
      rw [List.foldl_append, List.foldl_cons, List.foldl_nil, hstep, concat]
      by_cases ha : p a = true
      · rw [if_pos ha, if_pos ha]
        rfl
      · rw [if_neg ha, if_neg ha, ih]

/-- The order of the updates does not matter when those that write agree on the value. -/
theorem map_perm {val : α → β} {l' : List α} (hperm : l'.Perm l)
    (hsame : ∀ x ∈ l, ∀ y ∈ l, p x = true → p y = true → val x = val y) :
    (lastWith p l').map val = (lastWith p l).map val := by
  cases hl : lastWith p l with
  | none =>
      have hnone : lastWith p l' = none :=
        eq_none.mpr fun x hx => eq_none.mp hl x (hperm.mem_iff.mp hx)
      rw [hnone]
  | some x =>
      obtain ⟨hx, hpx⟩ := mem hl
      cases hl' : lastWith p l' with
      | none => exact absurd hpx (eq_none.mp hl' x (hperm.mem_iff.mpr hx))
      | some y =>
          obtain ⟨hy, hpy⟩ := mem hl'
          exact congrArg some (hsame y (hperm.mem_iff.mp hy) x hx hpy hpx)

end LastWith

end Dal
