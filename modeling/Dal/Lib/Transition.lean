/-
Machines that take one enabled action after another.

A `System` says where it may start and what one action makes of a state, with
`none` for an action that is not enabled.  Everything the modules above say about
interleavings is said about `Path`: states joined by enabled actions, each
satisfying a guard in the state it is taken from.  The guard is what lets one
induction serve a plain reachability claim (the guard is true), a claim about
runs that keep clear of some step, and a claim about what happens while nobody
touches a given key.

`Inevitable` is the other half: not that something bad is never reached, but that
something good is, whichever of the enabled actions are chosen.
-/
import Mathlib.Order.WellFounded

namespace Dal

universe u v

/-- A machine: where it may start, and what one action makes of a state. -/
structure System (σ : Type u) (α : Type v) where
  Init : σ → Prop
  /-- `none` when the action is not enabled. -/
  step : σ → α → Option σ

namespace System

variable {σ : Type u} {α : Type v} (M : System σ α)

/-- States joined by enabled actions, each satisfying `G` where it is taken. -/
inductive Path (G : σ → α → Prop) (s : σ) : σ → Prop
  | refl : Path G s s
  | tail {t t' : σ} (a : α) (h : Path G s t) (hg : G t a) (hstep : M.step t a = some t') :
      Path G s t'

/-- Reached from a start by actions that satisfy `G`. -/
def ReachableBy (G : σ → α → Prop) (s : σ) : Prop :=
  ∃ s₀, M.Init s₀ ∧ M.Path G s₀ s

/-- Reached from a start by any enabled actions. -/
def Reachable (s : σ) : Prop := M.ReachableBy (fun _ _ => True) s

variable {M}

/-! ### Paths -/

theorem Path.single {G : σ → α → Prop} {s t : σ} (a : α) (hg : G s a)
    (hstep : M.step s a = some t) : M.Path G s t :=
  Path.tail a Path.refl hg hstep

theorem Path.trans {G : σ → α → Prop} {s t t' : σ} (h : M.Path G s t) (h' : M.Path G t t') :
    M.Path G s t' := by
  induction h' with
  | refl => exact h
  | tail a _ hg hstep ih => exact Path.tail a ih hg hstep

theorem Path.mono {G G' : σ → α → Prop} {s t : σ} (hG : ∀ s a, G s a → G' s a)
    (h : M.Path G s t) : M.Path G' s t := by
  induction h with
  | refl => exact Path.refl
  | tail a _ hg hstep ih => exact Path.tail a ih (hG _ _ hg) hstep

/-- What every guarded action keeps, a whole path keeps. -/
theorem Path.invariant {G : σ → α → Prop} {I : σ → Prop} {s t : σ} (h : M.Path G s t)
    (hs : I s) (hI : ∀ s a s', I s → G s a → M.step s a = some s' → I s') : I t := by
  induction h with
  | refl => exact hs
  | tail a _ hg hstep ih => exact hI _ _ _ ih hg hstep

/-- A path that comes to `P` has a step that does. -/
theorem Path.first {G : σ → α → Prop} {P : σ → Prop} {s t : σ} (h : M.Path G s t)
    (hs : ¬ P s) : (M.Path (fun s a => G s a ∧ ¬ P s) s t ∧ ¬ P t) ∨
    ∃ u a u', M.Path (fun s a => G s a ∧ ¬ P s) s u ∧ ¬ P u ∧ G u a ∧ M.step u a = some u' ∧
      P u' := by
  induction h with
  | refl => exact Or.inl ⟨.refl, hs⟩
  | @tail u u' a _ hg hstep ih =>
      rcases ih with ⟨hpath, hu⟩ | hfound
      · by_cases hu' : P u'
        · exact Or.inr ⟨u, a, u', hpath, hu, hg, hstep, hu'⟩
        · exact Or.inl ⟨hpath.tail a ⟨hg, hu⟩ hstep, hu'⟩
      · exact Or.inr hfound

/-- What holds at the start and is kept by every guarded action holds wherever a run gets. -/
theorem ReachableBy.invariant {G : σ → α → Prop} {I : σ → Prop} {s : σ}
    (h : M.ReachableBy G s) (hinit : ∀ s, M.Init s → I s)
    (hI : ∀ s a s', I s → G s a → M.step s a = some s' → I s') : I s := by
  obtain ⟨s₀, h₀, hpath⟩ := h
  exact hpath.invariant (hinit s₀ h₀) hI

theorem ReachableBy.tail {G : σ → α → Prop} {s s' : σ} (h : M.ReachableBy G s) (a : α)
    (hg : G s a) (hstep : M.step s a = some s') : M.ReachableBy G s' := by
  obtain ⟨s₀, h₀, hpath⟩ := h
  exact ⟨s₀, h₀, hpath.tail a hg hstep⟩

theorem ReachableBy.reachable {G : σ → α → Prop} {s : σ} (h : M.ReachableBy G s) :
    M.Reachable s := by
  obtain ⟨s₀, h₀, hpath⟩ := h
  exact ⟨s₀, h₀, hpath.mono fun _ _ _ => trivial⟩

theorem ReachableBy.path {G : σ → α → Prop} {s s' : σ} (h : M.ReachableBy G s)
    (h' : M.Path G s s') : M.ReachableBy G s' := by
  obtain ⟨s₀, h₀, hpath⟩ := h
  exact ⟨s₀, h₀, hpath.trans h'⟩

/-! ### Runs given by the list of their actions -/

/-- Take the actions in order; `none` as soon as one is not enabled. -/
def exec (M : System σ α) : σ → List α → Option σ
  | s, [] => some s
  | s, a :: as => (M.step s a).bind fun s' => exec M s' as

theorem path_of_exec_of {G : σ → α → Prop} : ∀ (as : List α) {s t : σ}, (∀ s, ∀ a ∈ as, G s a) →
    M.exec s as = some t → M.Path G s t := by
  intro as
  induction as with
  | nil =>
      intro s t _ h
      simp only [exec, Option.some.injEq] at h
      exact h ▸ Path.refl
  | cons a as ih =>
      intro s t hG h
      simp only [exec, Option.bind_eq_some_iff] at h
      obtain ⟨s', hstep, hrest⟩ := h
      exact (Path.single a (hG s a (List.mem_cons_self ..)) hstep).trans
        (ih (fun s b hb => hG s b (List.mem_cons_of_mem _ hb)) hrest)

theorem path_of_exec (as : List α) {s t : σ} (h : M.exec s as = some t) :
    M.Path (fun _ _ => True) s t := path_of_exec_of as (fun _ _ _ => trivial) h

/-- The machine that takes only the actions a decidable guard allows. -/
def restrict (M : System σ α) (G : σ → α → Prop) [∀ s a, Decidable (G s a)] : System σ α where
  Init := M.Init
  step s a := if G s a then M.step s a else none

theorem path_of_restrict {G : σ → α → Prop} [∀ s a, Decidable (G s a)] (as : List α) {s t : σ}
    (h : (M.restrict G).exec s as = some t) : M.Path G s t := by
  have hpath := path_of_exec as h
  clear h
  induction hpath with
  | refl => exact Path.refl
  | tail a _ _ hstep ih =>
      simp only [restrict] at hstep
      split at hstep
      · rename_i hg
        exact ih.tail a hg hstep
      · cases hstep

/-- A run in two parts. -/
theorem exec_append (as bs : List α) (s : σ) :
    M.exec s (as ++ bs) = (M.exec s as).bind fun t => M.exec t bs := by
  induction as generalizing s with
  | nil => rfl
  | cons a as ih =>
      simp only [List.cons_append, exec, Option.bind_assoc]
      exact congrArg _ (funext fun s' => ih s')

/-- What a step counts up by one at most is no more than the length of the run. -/
theorem count_le_exec {f : σ → Nat} (hf : ∀ s a s', M.step s a = some s' → f s' ≤ f s + 1) :
    ∀ (as : List α) {s t : σ}, M.exec s as = some t → f t ≤ f s + as.length := by
  intro as
  induction as with
  | nil =>
      intro s t h
      simp only [exec, Option.some.injEq] at h
      exact h ▸ Nat.le_refl _
  | cons a as ih =>
      intro s t h
      simp only [exec, Option.bind_eq_some_iff] at h
      obtain ⟨s', hstep, hrest⟩ := h
      have := hf s a s' hstep
      have := ih hrest
      simp only [List.length_cons]
      omega

/-! ### What happens on every continuation -/

/-- Along guarded actions `P` comes about whichever are chosen, and one always can be. -/
inductive Inevitable (M : System σ α) (G : σ → α → Prop) (P : σ → Prop) : σ → Prop
  | now {s : σ} (h : P s) : Inevitable M G P s
  | later {s : σ} (can : ∃ a s', G s a ∧ M.step s a = some s')
      (h : ∀ a s', G s a → M.step s a = some s' → Inevitable M G P s') : Inevitable M G P s

/-- If a state that has a rank is no end, a guarded action can be taken, and every one leads to a
lower rank, then `P` is inevitable. -/
theorem inevitable_of_rank {β : Type*} {r : β → β → Prop} (wf : WellFounded r)
    {G : σ → α → Prop} {P : σ → Prop} (R : σ → β → Prop)
    (hcan : ∀ s b, R s b → ¬ P s → ∃ a s', G s a ∧ M.step s a = some s')
    (hR : ∀ s b a s', R s b → ¬ P s → G s a → M.step s a = some s' → ∃ b', R s' b' ∧ r b' b) :
    ∀ b s, R s b → M.Inevitable G P s := by
  intro b
  induction b using wf.induction with
  | _ b ih =>
      intro s hs
      by_cases hP : P s
      · exact .now hP
      · refine .later (hcan s b hs hP) fun a s' hg hstep => ?_
        obtain ⟨b', hs', hlt⟩ := hR s b a s' hs hP hg hstep
        exact ih b' hlt s' hs'

/-- What is inevitable can be reached. -/
theorem Inevitable.exists_path {G : σ → α → Prop} {P : σ → Prop} {s : σ}
    (h : M.Inevitable G P s) : ∃ t, M.Path G s t ∧ P t := by
  induction h with
  | @now s h => exact ⟨s, .refl, h⟩
  | later can _ ih =>
      obtain ⟨a, s', hg, hstep⟩ := can
      obtain ⟨t, hpath, ht⟩ := ih a s' hg hstep
      exact ⟨t, (Path.single a hg hstep).trans hpath, ht⟩

end System

end Dal
