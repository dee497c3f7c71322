/-
Half-open ranges that tile a linear order.

`R a x y` says that the tile `a` covers `[x, y)`.  A tiling has no two tiles on one
point, by way of two conditions that are easy to keep: tiles with the same start are
the same, and a tile ends before a later one starts.  Cutting a tile in two keeps a
tiling, and if every tile is followed by one that starts where it ends, the tiles
after `a` cover everything from the start of `a` on.
-/
import Mathlib.Order.Monotone.Basic
import Mathlib.Order.Lattice
import Mathlib.Logic.Relation

namespace Dal

universe u v

/-- Tiles that do not overlap. -/
structure Tiling {α : Type u} {κ : Type v} [LinearOrder κ] (R : α → κ → κ → Prop) : Prop where
  proper : ∀ {a x y}, R a x y → x < y
  start_eq : ∀ {a x y x' y'}, R a x y → R a x' y' → x = x'
  stop_eq : ∀ {a x y x' y'}, R a x y → R a x' y' → y = y'
  inj : ∀ {a b x y y'}, R a x y → R b x y' → a = b
  apart : ∀ {a b x y x' y'}, R a x y → R b x' y' → x < x' → y ≤ x'

namespace Tiling

variable {α : Type u} {κ : Type v} [LinearOrder κ] {R R' : α → κ → κ → Prop}

/-- A point is in one tile at most. -/
theorem home (h : Tiling R) {a b : α} {x y x' y' k : κ} (ha : R a x y) (hb : R b x' y')
    (hxk : x ≤ k) (hky : k < y) (hxk' : x' ≤ k) (hky' : k < y') : a = b := by
  rcases lt_trichotomy x x' with hlt | rfl | hlt
  · exact absurd (lt_of_lt_of_le hky (h.apart ha hb hlt)) (not_lt.mpr hxk')
  · exact h.inj ha hb
  · exact absurd (lt_of_lt_of_le hky' (h.apart hb ha hlt)) (not_lt.mpr hxk)

/-- No tile starts inside another. -/
theorem not_inside (h : Tiling R) {a b : α} {x y x' y' : κ} (ha : R a x y) (hb : R b x' y')
    (hx : x < x') : ¬ x' < y := not_lt.mpr (h.apart ha hb hx)

theorem congr (h : Tiling R) (heq : ∀ a x y, R' a x y ↔ R a x y) : Tiling R' where
  proper ha := h.proper ((heq _ _ _).mp ha)
  start_eq ha ha' := h.start_eq ((heq _ _ _).mp ha) ((heq _ _ _).mp ha')
  stop_eq ha ha' := h.stop_eq ((heq _ _ _).mp ha) ((heq _ _ _).mp ha')
  inj ha hb := h.inj ((heq _ _ _).mp ha) ((heq _ _ _).mp hb)
  apart ha hb := h.apart ((heq _ _ _).mp ha) ((heq _ _ _).mp hb)

/-- Tile `a` is cut at `k`, and its upper part becomes the tile `b`. -/
theorem split (h : Tiling R) {a b : α} {x y k : κ} (ha : R a x y) (hb : ∀ x y, ¬ R b x y)
    (hxk : x < k) (hky : k < y)
    (heq : ∀ c u w, R' c u w ↔ (c = a ∧ u = x ∧ w = k) ∨ (c = b ∧ u = k ∧ w = y) ∨
      (c ≠ a ∧ R c u w)) : Tiling R' := by
  have hab : a ≠ b := fun hab => hb x y (hab ▸ ha)
  constructor
  · intro c u w hc
    rcases (heq _ _ _).mp hc with ⟨rfl, rfl, rfl⟩ | ⟨rfl, rfl, rfl⟩ | ⟨-, hc⟩
    · exact hxk
    · exact hky
    · exact h.proper hc
  · intro c u w u' w' hc hc'
    rcases (heq _ _ _).mp hc with ⟨rfl, rfl, rfl⟩ | ⟨rfl, rfl, rfl⟩ | ⟨hne, hc⟩ <;>
      rcases (heq _ _ _).mp hc' with ⟨h1, rfl, rfl⟩ | ⟨h1, rfl, rfl⟩ | ⟨hne', hc'⟩
    · rfl
    · exact absurd h1 hab
    · exact absurd rfl hne'
    · exact absurd h1.symm hab
    · rfl
    · exact absurd hc' (hb _ _)
    · exact absurd h1 hne
    · exact absurd (h1 ▸ hc) (hb _ _)
    · exact h.start_eq hc hc'
  · intro c u w u' w' hc hc'
    rcases (heq _ _ _).mp hc with ⟨rfl, rfl, rfl⟩ | ⟨rfl, rfl, rfl⟩ | ⟨hne, hc⟩ <;>
      rcases (heq _ _ _).mp hc' with ⟨h1, rfl, rfl⟩ | ⟨h1, rfl, rfl⟩ | ⟨hne', hc'⟩
    · rfl
    · exact absurd h1 hab
    · exact absurd rfl hne'
    · exact absurd h1.symm hab
    · rfl
    · exact absurd hc' (hb _ _)
    · exact absurd h1 hne
    · exact absurd (h1 ▸ hc) (hb _ _)
    · exact h.stop_eq hc hc'
  · intro c d u w w' hc hd
    rcases (heq _ _ _).mp hc with ⟨rfl, rfl, rfl⟩ | ⟨rfl, rfl, rfl⟩ | ⟨hne, hc⟩ <;>
      rcases (heq _ _ _).mp hd with ⟨rfl, h1, rfl⟩ | ⟨rfl, h1, rfl⟩ | ⟨hne', hd⟩
    · rfl
    · exact absurd h1 hxk.ne
    · exact absurd (h.inj ha hd).symm hne'
    · exact absurd h1.symm hxk.ne
    · rfl
    · exact absurd hky (h.not_inside ha hd hxk)
    · subst h1
      exact absurd (h.inj ha hc).symm hne
    · subst h1
      exact absurd hky (h.not_inside ha hc hxk)
    · exact h.inj hc hd
  · intro c d u w u' w' hc hd hlt
    rcases (heq _ _ _).mp hc with ⟨rfl, rfl, rfl⟩ | ⟨rfl, rfl, rfl⟩ | ⟨hne, hc⟩ <;>
      rcases (heq _ _ _).mp hd with ⟨rfl, rfl, rfl⟩ | ⟨rfl, rfl, rfl⟩ | ⟨hne', hd⟩
    · exact absurd hlt (lt_irrefl _)
    · exact le_refl _
    · exact le_trans hky.le (h.apart ha hd hlt)
    · exact absurd (lt_trans hlt hxk) (lt_irrefl _)
    · exact absurd hlt (lt_irrefl _)
    · exact h.apart ha hd (lt_trans hxk hlt)
    · exact h.apart hc ha hlt
    · rcases lt_trichotomy u x with hux | rfl | hux
      · exact le_trans (h.apart hc ha hux) hxk.le
      · exact absurd (h.inj ha hc).symm hne
      · exact absurd (lt_of_lt_of_le (lt_trans hlt hky) (h.apart ha hc hux)) (lt_irrefl _)
    · exact h.apart hc hd hlt

/-- The tiles along a chain, each starting no earlier than the one before it ends. -/
theorem of_chain (next : α → α → Prop) (first : α) (hfun : Relator.RightUnique next)
    (hreach : ∀ {a x y}, R a x y → Relation.ReflTransGen next first a)
    (proper : ∀ {a x y}, R a x y → x < y)
    (start_eq : ∀ {a x y x' y'}, R a x y → R a x' y' → x = x')
    (stop_eq : ∀ {a x y x' y'}, R a x y → R a x' y' → y = y')
    (hnext : ∀ {a b x y}, R a x y → next a b → ∃ x' y', R b x' y' ∧ y ≤ x') : Tiling R := by
  have hafter : ∀ {a b x y}, R a x y → Relation.ReflTransGen next a b →
      a = b ∨ ∃ x' y', R b x' y' ∧ y ≤ x' := by
    intro a b x y ha hab
    induction hab with
    | refl => exact Or.inl rfl
    | tail _ hbc ih =>
        rcases ih with rfl | ⟨x', y', hb, hle⟩
        · exact Or.inr (hnext ha hbc)
        · obtain ⟨u, w, hc, hle'⟩ := hnext hb hbc
          exact Or.inr ⟨u, w, hc, le_trans hle (le_trans (le_of_lt (proper hb)) hle')⟩
  -- one of two tiles comes after the other, or they are the same
  have hcompare : ∀ {a b x y x' y'}, R a x y → R b x' y' → a = b ∨ y ≤ x' ∨ y' ≤ x := by
    intro a b x y x' y' ha hb
    rcases Relation.ReflTransGen.total_of_right_unique hfun (hreach ha) (hreach hb) with hab | hba
    · rcases hafter ha hab with heq | ⟨u, w, hb', hle⟩
      · exact Or.inl heq
      · exact Or.inr (Or.inl (start_eq hb' hb ▸ hle))
    · rcases hafter hb hba with heq | ⟨u, w, ha', hle⟩
      · exact Or.inl heq.symm
      · exact Or.inr (Or.inr (start_eq ha' ha ▸ hle))
  refine ⟨proper, start_eq, stop_eq, fun ha hb => ?_, fun ha hb hlt => ?_⟩
  · rcases hcompare ha hb with heq | hle | hle
    · exact heq
    · exact absurd hle (not_le.mpr (proper ha))
    · exact absurd hle (not_le.mpr (proper hb))
  · rcases hcompare ha hb with rfl | hle | hle
    · exact absurd (start_eq ha hb) hlt.ne
    · exact hle
    · exact absurd (lt_trans (lt_of_lt_of_le (proper hb) hle) hlt) (lt_irrefl _)

/-- Going from tile to tile one gets from any tile to the one a later point is in. -/
theorem cover (h : Tiling R) {μ : κ → Nat} (hμ : StrictMono μ) {P : α → Prop} {k : κ}
    (hnext : ∀ a x y, P a → R a x y → y ≤ k → ∃ b y', P b ∧ R b y y') :
    ∀ {a x y}, P a → R a x y → x ≤ k → ∃ b u w, P b ∧ R b u w ∧ u ≤ k ∧ k < w := by
  intro a x
  induction hn : μ k - μ x using Nat.strong_induction_on generalizing a x with
  | _ n ih =>
      intro y hP ha hxk
      by_cases hk : k < y
      · exact ⟨a, x, y, hP, ha, hxk, hk⟩
      · obtain ⟨b, y', hPb, hb⟩ := hnext a x y hP ha (not_lt.mp hk)
        have hlt := hμ (h.proper ha)
        have hle := hμ.monotone (not_lt.mp hk)
        exact ih (μ k - μ y) (by omega) rfl hPb hb (not_lt.mp hk)

end Tiling

end Dal
