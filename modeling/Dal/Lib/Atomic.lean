/-
Shared objects whose operations take effect at one moment.

An `Object` says what an operation may return and what it leaves behind.  `Atomic` is
the object among its clients, where a call, its one effect and its return are three
steps.  A machine is `Linearizable` when whatever its clients see of a run, the calls
and the returns in their order, they could have seen of the atomic object: each
operation that has returned took effect at some moment between its call and its return.

`linearizable_of_simulation` is the rule to show it by: a relation between the states
of the machine and those of the object, kept by every step of the machine while the
object takes the steps that show the same.
-/
import Dal.Lib.Transition
import Mathlib.Logic.Function.Basic

namespace Dal

universe u v w

/-- What an operation on a state may return, and the state it leaves. -/
structure Object (σ : Type u) (Op : Type v) (Ret : Type w) where
  Init : σ → Prop
  Apply : σ → Op → Ret → σ → Prop

/-- What the clients of an object see. -/
inductive Event (γ : Type*) (Op : Type v) (Ret : Type w)
  | call (c : γ) (op : Op)
  | ret (c : γ) (r : Ret)

/-- Where a client's call is. -/
inductive CallPhase (Op : Type v) (Ret : Type w)
  | idle
  | called (op : Op)
  /-- The operation has taken effect. -/
  | done (r : Ret)

/-- An object and the calls of its clients. -/
structure Atomic (σ : Type u) (γ : Type*) (Op : Type v) (Ret : Type w) where
  object : σ
  phase : γ → CallPhase Op Ret

namespace Object

variable {σ : Type u} {γ : Type*} {Op : Type v} {Ret : Type w} [DecidableEq γ] (O : Object σ Op Ret)

/-- One step, with what is seen of it. -/
inductive Step (t : Atomic σ γ Op Ret) :
    List (Event γ Op Ret) → Atomic σ γ Op Ret → Prop
  | call (c : γ) (op : Op) (h : t.phase c = .idle) :
      Step t [.call c op] { t with phase := Function.update t.phase c (.called op) }
  | effect (c : γ) (op : Op) (r : Ret) (object : σ) (h : t.phase c = .called op)
      (happly : O.Apply t.object op r object) :
      Step t [] { object := object, phase := Function.update t.phase c (.done r) }
  | ret (c : γ) (r : Ret) (h : t.phase c = .done r) :
      Step t [.ret c r] { t with phase := Function.update t.phase c .idle }

/-- Some steps, and what is seen of them all. -/
inductive History (t : Atomic σ γ Op Ret) :
    List (Event γ Op Ret) → Atomic σ γ Op Ret → Prop
  | refl : History t [] t
  | tail {seen more : List (Event γ Op Ret)} {t' t'' : Atomic σ γ Op Ret} (h : History t seen t')
      (hstep : O.Step t' more t'') : History t (seen ++ more) t''

variable {O}

theorem History.single {t t' : Atomic σ γ Op Ret} {seen : List (Event γ Op Ret)}
    (h : O.Step t seen t') : O.History t seen t' :=
  .tail .refl h

theorem History.trans {t t' t'' : Atomic σ γ Op Ret} {seen more : List (Event γ Op Ret)}
    (h : O.History t seen t') (h' : O.History t' more t'') : O.History t (seen ++ more) t'' := by
  induction h' with
  | refl =>
      rw [List.append_nil]
      exact h
  | tail _ hstep ih =>
      rw [← List.append_assoc]
      exact .tail ih hstep

/-- An operation takes effect and returns at once. -/
theorem History.answer {t : Atomic σ γ Op Ret} {c : γ} {op : Op} {r : Ret} {object : σ}
    (h : t.phase c = .called op) (happly : O.Apply t.object op r object) :
    O.History t [.ret c r] { object := object, phase := Function.update t.phase c .idle } := by
  have hret : O.Step
      { object := object, phase := Function.update t.phase c (.done r) } [.ret c r]
      { object := object, phase := Function.update t.phase c .idle } := by
    have := Step.ret (O := O)
      (t := { object := object, phase := Function.update t.phase c (.done r) }) c r
      (Function.update_self ..)
    rwa [Function.update_idem] at this
  exact .tail (.single (.effect c op r object h happly)) hret

/-- What a step does to the call of one client, and what it returns if the call is over. -/
inductive Progress (O : Object σ Op Ret) (object : σ) :
    CallPhase Op Ret → Option Ret → σ → CallPhase Op Ret → Prop
  | stay (phase : CallPhase Op Ret) : Progress O object phase none object phase
  | effect {op : Op} {r : Ret} {object' : σ} (happly : O.Apply object op r object') :
      Progress O object (.called op) none object' (.done r)
  | ret (r : Ret) : Progress O object (.done r) (some r) object .idle
  | answer {op : Op} {r : Ret} {object' : σ} (happly : O.Apply object op r object') :
      Progress O object (.called op) (some r) object' .idle

/-- What one client's step does, the atomic object can do. -/
theorem Progress.history {t : Atomic σ γ Op Ret} {c : γ} {r : Option Ret} {object : σ}
    {phase : CallPhase Op Ret} (h : O.Progress t.object (t.phase c) r object phase) :
    O.History t (r.map (Event.ret c)).toList
      { object := object, phase := Function.update t.phase c phase } := by
  generalize hphase : t.phase c = was at h
  cases h with
  | stay =>
      rw [← hphase, Function.update_eq_self]
      exact .refl
  | effect happly => exact .single (.effect c _ _ _ hphase happly)
  | ret r => exact .single (.ret c r hphase)
  | answer happly => exact .answer hphase happly

end Object

namespace System

variable {τ : Type*} {α : Type*} {σ : Type u} {γ : Type*} {Op : Type v} {Ret : Type w}
  [DecidableEq γ] (M : System τ α)

/-- A run of a machine by actions that satisfy `G`, with what `visible` says is seen of it. -/
inductive History (G : τ → α → Prop) (visible : τ → α → τ → List (Event γ Op Ret)) (s : τ) :
    List (Event γ Op Ret) → τ → Prop
  | refl : History G visible s [] s
  | tail {seen : List (Event γ Op Ret)} {t t' : τ} (a : α) (h : History G visible s seen t)
      (hg : G t a) (hstep : M.step t a = some t') :
      History G visible s (seen ++ visible t a t') t'

/-- What is seen of a run could be seen of the atomic object. -/
def Linearizable (G : τ → α → Prop) (visible : τ → α → τ → List (Event γ Op Ret))
    (O : Object σ Op Ret) : Prop :=
  ∀ s₀ seen s, M.Init s₀ → M.History G visible s₀ seen s →
    ∃ object t, O.Init object ∧ O.History ⟨object, fun _ => .idle⟩ seen t

variable {M}

/-- **A machine that an atomic object can follow step by step is linearizable.** -/
theorem linearizable_of_simulation {G : τ → α → Prop}
    {visible : τ → α → τ → List (Event γ Op Ret)} {O : Object σ Op Ret}
    (R : τ → Atomic σ γ Op Ret → Prop)
    (hinit : ∀ s, M.Init s → ∃ object, O.Init object ∧ R s ⟨object, fun _ => .idle⟩)
    (hR : ∀ s a s' t, R s t → G s a → M.step s a = some s' →
      ∃ t', O.History t (visible s a s') t' ∧ R s' t') :
    M.Linearizable G visible O := by
  intro s₀ seen s h₀ hrun
  obtain ⟨object, hobject, hstart⟩ := hinit s₀ h₀
  suffices h : ∃ t, O.History ⟨object, fun _ => .idle⟩ seen t ∧ R s t by
    obtain ⟨t, ht, -⟩ := h
    exact ⟨object, t, hobject, ht⟩
  induction hrun with
  | refl => exact ⟨_, .refl, hstart⟩
  | tail a _ hg hstep ih =>
      obtain ⟨t, ht, hrel⟩ := ih
      obtain ⟨t', ht', hrel'⟩ := hR _ a _ t hrel hg hstep
      exact ⟨t', ht.trans ht', hrel'⟩

end System

end Dal
