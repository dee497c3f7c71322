/-
Sorted chains.

A set of elements with pairwise different keys is linked in a chain when every element,
and the head before them all, leads to the least element above it.  That is a property
of single links, so it can be kept by writers that each know only one of them: an element
goes in between a link and its successor (`Chain.insert`), and whoever has walked up to a
link below a key sees the first element that is not below it (`Chain.first`).

`orderedSet` is what such a chain stands for.
-/
import Dal.Lib.Atomic
import Mathlib.Data.Set.Function
import Mathlib.Order.Defs.LinearOrder

namespace Dal

universe u v

variable {α : Type u} {K : Type v} [LinearOrder K] (key : α → K)

/-- The head or an element of `S`. -/
def Placed (S : Set α) (l : Option α) : Prop := ∀ a, l = some a → a ∈ S

/-- The head or an element below `k`. -/
def Precedes (l : Option α) (k : K) : Prop := ∀ a, l = some a → key a < k

/-- The first element of `S` that is not below `k`, if there is one. -/
structure IsFirst (S : Set α) (k : K) (o : Option α) : Prop where
  mem : ∀ b, o = some b → b ∈ S
  le : ∀ b, o = some b → k ≤ key b
  least : ∀ a ∈ S, k ≤ key a → ∃ b, o = some b ∧ key b ≤ key a

/-- `next` leads from the head and from each element of `S` to the least element above. -/
structure Chain (S : Set α) (next : Option α → Option α) : Prop where
  inj : Set.InjOn key S
  mem : ∀ l n, Placed S l → next l = some n → n ∈ S
  lt : ∀ l n, Placed S l → next l = some n → Precedes key l (key n)
  least : ∀ l a, Placed S l → a ∈ S → Precedes key l (key a) → ∃ b, next l = some b ∧ key b ≤ key a

variable {key}

section Placed

variable {S T : Set α} {l : Option α} {a : α} {k k' : K}

theorem placed_head : Placed S none := fun _ h => by cases h

theorem placed_some (h : a ∈ S) : Placed S (some a) := fun _ hb => Option.some_inj.mp hb ▸ h

theorem Placed.mono (hST : S ⊆ T) (h : Placed S l) : Placed T l := fun a ha => hST (h a ha)

theorem precedes_head : Precedes key none k := fun _ h => by cases h

theorem precedes_some (h : key a < k) : Precedes key (some a) k :=
  fun _ hb => Option.some_inj.mp hb ▸ h

theorem Precedes.trans (h : Precedes key l k) (hk : k ≤ k') : Precedes key l k' :=
  fun a ha => lt_of_lt_of_le (h a ha) hk

end Placed

namespace Chain

variable {S : Set α} {next next' : Option α → Option α} {l : Option α} {x : α} {k : K}

theorem empty : Chain key ∅ fun _ => none where
  inj := fun _ ha => ha.elim
  mem := fun _ _ _ h => by cases h
  lt := fun _ _ _ h => by cases h
  least := fun _ _ _ ha => ha.elim

/-- Where an element that is not in the chain leads does not matter. -/
theorem congr (h : Chain key S next) (heq : ∀ l, Placed S l → next' l = next l) :
    Chain key S next' where
  inj := h.inj
  mem l n hl hn := h.mem l n hl (heq l hl ▸ hn)
  lt l n hl hn := h.lt l n hl (heq l hl ▸ hn)
  least l a hl ha hla := by
    rw [heq l hl]
    exact h.least l a hl ha hla

/-- From below `k` a chain leads to the first element that is not below, unless it leads to
another element below. -/
theorem first (h : Chain key S next) (hl : Placed S l) (hlow : Precedes key l k)
    (hhigh : ∀ b, next l = some b → k ≤ key b) : IsFirst key S k (next l) where
  mem b hb := h.mem l b hl hb
  le b hb := hhigh b hb
  least a ha hka := h.least l a hl ha (hlow.trans hka)

/-- What lies between a link and its successor is not in the chain. -/
theorem gap (h : Chain key S next) (hl : Placed S l) (hlow : Precedes key l k)
    (hhigh : ∀ b, next l = some b → k < key b) : ∀ a ∈ S, key a ≠ k := by
  intro a ha hak
  obtain ⟨b, hb, hle⟩ := h.least l a hl ha (hak ▸ hlow)
  exact absurd (lt_of_lt_of_le (hhigh b hb) (hle.trans_eq hak)) (lt_irrefl k)

/-- **An element goes in between a link and its successor.** -/
theorem insert [DecidableEq α] (h : Chain key S next) (hl : Placed S l)
    (hlow : Precedes key l (key x)) (hhigh : ∀ b, next l = some b → key x < key b)
    (hx : next (some x) = next l) :
    Chain key (Set.insert x S) (Function.update next l (some x)) := by
  have hnew := h.gap hl hlow hhigh
  have hxl : (some x : Option α) ≠ l := fun heq => lt_irrefl _ (hlow x heq.symm)
  -- a link of the new chain: the one before `x`, `x` itself, or one that stays
  have hlink : ∀ l', Placed (Set.insert x S) l' →
      l' = l ∨ l' = some x ∨ (l' ≠ l ∧ Placed S l') := by
    intro l' hl'
    by_cases heq : l' = l
    · exact Or.inl heq
    · cases l' with
      | none => exact Or.inr (Or.inr ⟨heq, placed_head⟩)
      | some a =>
          rcases hl' a rfl with hax | ha
          · exact Or.inr (Or.inl (congrArg some hax))
          · exact Or.inr (Or.inr ⟨heq, placed_some ha⟩)
  -- a link that stays and is below `x` has an element between itself and `x`
  have hbetween : ∀ l', l' ≠ l → Placed S l' → Precedes key l' (key x) →
      ∃ b, next l' = some b ∧ key b ≤ key x := by
    intro l' hne hl' hlow'
    have hover : ∀ a ∈ S, key a < key x → Precedes key l (key a) → False := by
      intro a ha hax hla
      obtain ⟨b, hb, hle⟩ := h.least l a hl ha hla
      exact lt_irrefl _ (lt_of_lt_of_le ((hhigh b hb).trans_le hle) hax.le)
    cases l with
    | none =>
        cases l' with
        | none => exact absurd rfl hne
        | some a => exact (hover a (hl' a rfl) (hlow' a rfl) precedes_head).elim
    | some c =>
        have hc : c ∈ S := hl c rfl
        have hcx : key c < key x := hlow c rfl
        by_cases hlc : Precedes key l' (key c)
        · obtain ⟨b, hb, hle⟩ := h.least l' c hl' hc hlc
          exact ⟨b, hb, hle.trans hcx.le⟩
        · cases l' with
          | none => exact absurd precedes_head hlc
          | some a =>
              have ha : a ∈ S := hl' a rfl
              have hac : key c ≤ key a := not_lt.mp fun hlt => hlc (precedes_some hlt)
              rcases hac.lt_or_eq with hlt | heq
              · exact (hover a ha (hlow' a rfl) (precedes_some hlt)).elim
              · exact absurd (congrArg some (h.inj ha hc heq.symm)) hne
  refine ⟨?_, fun l' n hl' hn => ?_, fun l' n hl' hn => ?_, fun l' a hl' ha hla => ?_⟩
  · rintro a (rfl | ha) b (rfl | hb) hab
    · rfl
    · exact absurd hab.symm (hnew b hb)
    · exact absurd hab (hnew a ha)
    · exact h.inj ha hb hab
  · rcases hlink l' hl' with rfl | rfl | ⟨hne, hpl⟩
    · rw [Function.update_self] at hn
      exact Or.inl (Option.some_inj.mp hn).symm
    · rw [Function.update_of_ne hxl, hx] at hn
      exact Or.inr (h.mem l n hl hn)
    · rw [Function.update_of_ne hne] at hn
      exact Or.inr (h.mem l' n hpl hn)
  · rcases hlink l' hl' with rfl | rfl | ⟨hne, hpl⟩
    · rw [Function.update_self] at hn
      exact Option.some_inj.mp hn ▸ hlow
    · rw [Function.update_of_ne hxl, hx] at hn
      exact precedes_some (hhigh n hn)
    · rw [Function.update_of_ne hne] at hn
      exact h.lt l' n hpl hn
  · rcases hlink l' hl' with rfl | rfl | ⟨hne, hpl⟩
    · rw [Function.update_self]
      refine ⟨x, rfl, ?_⟩
      rcases ha with rfl | ha
      · exact le_rfl
      · obtain ⟨b, hb, hle⟩ := h.least l' a hl ha hla
        exact ((hhigh b hb).trans_le hle).le
    · rw [Function.update_of_ne hxl, hx]
      have hxa : key x < key a := hla x rfl
      rcases ha with rfl | ha
      · exact absurd hxa (lt_irrefl _)
      · exact h.least l a hl ha (hlow.trans hxa.le)
    · rw [Function.update_of_ne hne]
      rcases ha with rfl | ha
      · exact hbetween l' hne hpl hla
      · exact h.least l' a hpl ha hla

end Chain

/-! ### The set -/

inductive SetOp (α : Type u) (K : Type v)
  | insert (x : α)
  /-- The first element that is not below `k`. -/
  | seek (k : K)
  /-- The first element above `x`. -/
  | after (x : α)

inductive SetRet (α : Type u)
  /-- False if there was an element with the same key. -/
  | inserted (b : Bool)
  | found (o : Option α)

variable (key)

/-- The first element of `S` above `k`, if there is one. -/
structure IsNext (S : Set α) (k : K) (o : Option α) : Prop where
  mem : ∀ b, o = some b → b ∈ S
  lt : ∀ b, o = some b → k < key b
  least : ∀ a ∈ S, k < key a → ∃ b, o = some b ∧ key b ≤ key a

/-- A set of elements, no two with the same key, in the order of their keys. -/
def orderedSet : Object (Set α) (SetOp α K) (SetRet α) where
  Init S := S = ∅
  Apply S op r S' :=
    match op with
    | .insert x =>
        (∃ a ∈ S, key a = key x) ∧ r = .inserted false ∧ S' = S ∨
          (∀ a ∈ S, key a ≠ key x) ∧ r = .inserted true ∧ S' = Set.insert x S
    | .seek k => ∃ o, IsFirst key S k o ∧ r = .found o ∧ S' = S
    | .after x => ∃ o, IsNext key S (key x) o ∧ r = .found o ∧ S' = S

variable {key}

theorem Chain.isNext {S : Set α} {next : Option α → Option α} (h : Chain key S next) {x : α}
    (hx : x ∈ S) : IsNext key S (key x) (next (some x)) where
  mem b hb := h.mem _ b (placed_some hx) hb
  lt b hb := h.lt _ b (placed_some hx) hb x rfl
  least a ha hxa := h.least _ a (placed_some hx) ha (precedes_some hxa)

end Dal
