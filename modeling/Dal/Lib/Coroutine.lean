/-
Coroutines of one thread, and a register they share.

A coroutine runs until it yields; then any other may go on.  A `Script` is what a coroutine
still has to do: operations, each followed by what its answer leads to.  Some operations
set the thread's register and some use it, and a use is meant for one value.

`Proper` is checked once along the text of a script: each use comes after a `set` of the
value it is meant for.  That is enough for one coroutine.  For several it takes more:
nobody may set the register while another one has still to use it for something else.
-/
import Dal.Lib.Transition
import Mathlib.Logic.Function.Basic

namespace Dal

/-- Operations `E` that are performed one after the other, with answers `A`. -/
inductive Script (E : Type) (A : E → Type) (α : Type) where
  | ret (a : α)
  | perform (e : E) (rest : A e → Script E A α)

/-- What an operation does with the register. -/
inductive Role (R : Type) where
  | set (r : R)
  | use (r : R)
  | other

namespace Script

variable {E R : Type} {A : E → Type} {α β : Type}

def bind : Script E A α → (α → Script E A β) → Script E A β
  | ret a, f => f a
  | perform e rest, f => perform e fun a => (rest a).bind f

instance : Monad (Script E A) where
  pure := ret
  bind := bind

/-- One operation. -/
def op (e : E) : Script E A (A e) := perform e ret

/-- Only under a condition. -/
def when (c : Prop) [Decidable c] (p : Script E A Unit) : Script E A Unit :=
  if c then p else ret ()

/-- `n` times the same. -/
def times : Nat → Script E A Unit → Script E A Unit
  | 0, _ => ret ()
  | n + 1, p => p >>= fun _ => times n p

/-- Started with `held` in the register, every use finds what it is meant for, and the register
holds `post` at the end. -/
def Proper (role : E → Role R) (post : Option R) : Option R → Script E A α → Prop
  | held, ret _ => held = post
  | held, perform e rest =>
      match role e with
      | .set r => ∀ a, Proper role post (some r) (rest a)
      | .use r => held = some r ∧ ∀ a, Proper role post held (rest a)
      | .other => ∀ a, Proper role post held (rest a)

/-- The script may use the register for `r` before it sets it. -/
inductive Pending (role : E → Role R) (r : R) : Script E A α → Prop
  | here {e : E} {rest : A e → Script E A α} (h : role e = .use r) :
      Pending role r (perform e rest)
  | later {e : E} {rest : A e → Script E A α} (a : A e) (h : ∀ r', role e ≠ .set r')
      (hrest : Pending role r (rest a)) : Pending role r (perform e rest)

variable {role : E → Role R} {held mid post : Option R}

namespace Proper

theorem bind {p : Script E A α} {f : α → Script E A β} (h : p.Proper role mid held)
    (hf : ∀ a, (f a).Proper role post mid) : (p >>= f).Proper role post held := by
  induction p generalizing held with
  | ret a =>
      have hmid : held = mid := h
      rw [hmid]
      exact hf a
  | perform e rest ih =>
      show (perform e fun a => (rest a).bind f).Proper role post held
      unfold Script.Proper at h ⊢
      cases hrole : role e with
      | set r =>
          simp only [hrole] at h ⊢
          intro a
          exact ih a (h a)
      | use r =>
          simp only [hrole] at h ⊢
          exact ⟨h.1, fun a => ih a (h.2 a)⟩
      | other =>
          simp only [hrole] at h ⊢
          intro a
          exact ih a (h a)

theorem ret (a : α) : (Script.ret a : Script E A α).Proper role held held := rfl

theorem pure (a : α) : (Pure.pure a : Script E A α).Proper role held held := rfl

theorem set {e : E} {r : R} (h : role e = .set r) :
    (op e : Script E A (A e)).Proper role (some r) held := by
  unfold op Script.Proper
  simp only [h]
  exact fun a => rfl

theorem use {e : E} {r : R} (h : role e = .use r) :
    (op e : Script E A (A e)).Proper role (some r) (some r) := by
  unfold op Script.Proper
  simp only [h]
  exact ⟨trivial, fun a => rfl⟩

theorem other {e : E} (h : role e = .other) :
    (op e : Script E A (A e)).Proper role held held := by
  unfold op Script.Proper
  simp only [h]
  exact fun a => rfl

theorem times {p : Script E A Unit} (h : p.Proper role held held) (n : Nat) :
    (p.times n).Proper role held held := by
  induction n with
  | zero => rfl
  | succ n ih => exact h.bind fun _ => ih

theorem ite {c : Prop} [Decidable c] {p q : Script E A α}
    (hp : p.Proper role post held) (hq : q.Proper role post held) :
    (if c then p else q).Proper role post held := by
  by_cases hc : c
  · rw [if_pos hc]
    exact hp
  · rw [if_neg hc]
    exact hq

theorem when {c : Prop} [Decidable c] {p : Script E A Unit} (h : p.Proper role held held) :
    (Script.when c p).Proper role held held := .ite h (.ret ())

/-- Without a `set` in between, only what is held can be used. -/
theorem pending {p : Script E A α} {r : R} (h : p.Proper role post held)
    (hp : p.Pending role r) : held = some r := by
  induction hp with
  | here hrole =>
      unfold Script.Proper at h
      simp only [hrole] at h
      exact h.1
  | @later e rest a hset _ ih =>
      unfold Script.Proper at h
      cases hrole : role e with
      | set r' => exact absurd hrole (hset r')
      | use r' =>
          simp only [hrole] at h
          exact ih (h.2 a)
      | other =>
          simp only [hrole] at h
          exact ih (h a)

end Proper

end Script

/-- What the operations do, and what a coroutine may be told to run. -/
structure Coroutines (E : Type) (A : E → Type) (R σ I Job : Type) where
  role : E → Role R
  /-- The operation gives up control when it is done. -/
  yields : E → Bool
  /-- With the register and an input from outside: `none` if it cannot be performed at all, and
  without an answer if it gives up control and will be tried again. -/
  exec : σ → Option R → (e : E) → I → Option (σ × Option (A e))
  body : Job → Script E A Unit

namespace Coroutines

variable {E : Type} {A : E → Type} {R σ I Job : Type}

structure State (E : Type) (A : E → Type) (R σ Coro : Type) where
  shared : σ
  reg : Option R
  script : Coro → Script E A Unit
  /-- The coroutine that runs; `none` is the master, which chooses the next one. -/
  current : Option Coro

inductive Action (σ I Job Coro : Type)
  | resume (c : Coro)
  /-- The coroutine that runs and has nothing to do begins something. -/
  | start (job : Job)
  /-- It gives up control before it does. -/
  | leave
  /-- The next operation of the coroutine that runs. -/
  | run (input : I)
  /-- Another thread changes what is shared. -/
  | elsewhere (shared : σ)

variable {Coro : Type} [DecidableEq Coro] (M : Coroutines E A R σ I Job)

/-- The register after an operation. -/
def newReg (reg : Option R) (e : E) : Option R :=
  match M.role e with
  | .set r => some r
  | _ => reg

def step (s : State E A R σ Coro) : Action σ I Job Coro → Option (State E A R σ Coro)
  | .resume c =>
      match s.current with
      | none => some { s with current := some c }
      | some _ => none
  | .start job =>
      match s.current with
      | none => none
      | some c =>
          match s.script c with
          | .ret _ => some { s with script := Function.update s.script c (M.body job) }
          | .perform _ _ => none
  | .leave =>
      match s.current with
      | none => none
      | some c =>
          match s.script c with
          | .ret _ => some { s with current := none }
          | .perform _ _ => none
  | .run input =>
      match s.current with
      | none => none
      | some c =>
          match s.script c with
          | .ret _ => none
          | .perform e rest =>
              match M.exec s.shared s.reg e input with
              | none => none
              | some (shared, none) => some { s with shared := shared, current := none }
              | some (shared, some a) =>
                  some { shared := shared
                         reg := M.newReg s.reg e
                         script := Function.update s.script c (rest a)
                         current := if M.yields e then none else s.current }
  | .elsewhere shared => some { s with shared := shared }

/-- The coroutines of one thread, which begin with nothing to do. -/
def machine (init : σ) : System (State E A R σ Coro) (Action σ I Job Coro) where
  Init s := s = ⟨init, none, fun _ => .ret (), none⟩
  step := M.step

/-- The coroutine that runs is about to use the register, and finds there what it is meant for. -/
def Isolated (s : State E A R σ Coro) : Prop :=
  ∀ c e rest r, s.current = some c → s.script c = .perform e rest → M.role e = .use r →
    s.reg = some r

/-- The register is set only to what everybody else who has still to use it needs. -/
def Calm (s : State E A R σ Coro) : Action σ I Job Coro → Prop
  | .run _ => ∀ c e rest r, s.current = some c → s.script c = .perform e rest →
      M.role e = .set r → ∀ c', c' ≠ c → ∀ r', (s.script c').Pending M.role r' → r' = r
  | _ => True

/-- Every script is proper on its own, and the register is right for all that is pending. -/
structure Inv (s : State E A R σ Coro) : Prop where
  proper : ∀ c, ∃ held post, (s.script c).Proper M.role post held
  pending : ∀ c r, (s.script c).Pending M.role r → s.reg = some r

namespace Inv

variable {M} {s s' : State E A R σ Coro}

omit [DecidableEq Coro] in
theorem isolated (h : M.Inv s) : M.Isolated s := by
  intro c e rest r _ hscript hrole
  refine h.pending c r ?_
  rw [hscript]
  exact .here hrole

omit [DecidableEq Coro] in
theorem start {init : σ} (h : s = ⟨init, none, fun _ => .ret (), none⟩) : M.Inv s := by
  subst h
  refine ⟨fun c => ⟨none, none, rfl⟩, fun c r hp => ?_⟩
  cases hp

/-- A coroutine goes on with another script. -/
theorem update (h : M.Inv s) {c : Coro} {p : Script E A Unit} {shared : σ} {reg : Option R}
    {current : Option Coro} (hproper : ∃ held post, p.Proper M.role post held)
    (hp : ∀ r, p.Pending M.role r → reg = some r)
    (hothers : ∀ c', c' ≠ c → ∀ r, (s.script c').Pending M.role r → reg = some r) :
    M.Inv ⟨shared, reg, Function.update s.script c p, current⟩ := by
  refine ⟨fun c' => ?_, fun c' r hpend => ?_⟩
  · by_cases hc : c' = c
    · rw [hc]
      simpa only [Function.update_self] using hproper
    · simpa only [Function.update_of_ne hc] using h.proper c'
  · by_cases hc : c' = c
    · rw [hc] at hpend
      simp only [Function.update_self] at hpend
      exact hp r hpend
    · simp only [Function.update_of_ne hc] at hpend
      exact hothers c' hc r hpend

/-- One operation of the coroutine that runs. -/
theorem perform (h : M.Inv s) {c : Coro} {e : E} {rest : A e → Script E A Unit} (a : A e)
    {shared : σ} {current : Option Coro} (hscript : s.script c = .perform e rest)
    (hcalm : ∀ r, M.role e = .set r → ∀ c', c' ≠ c → ∀ r',
      (s.script c').Pending M.role r' → r' = r) :
    M.Inv ⟨shared, M.newReg s.reg e, Function.update s.script c (rest a), current⟩ := by
  obtain ⟨held, post, hproper⟩ := h.proper c
  rw [hscript] at hproper
  unfold Script.Proper at hproper
  cases hrole : M.role e with
  | set r =>
      simp only [hrole] at hproper
      simp only [newReg, hrole]
      refine h.update ⟨_, _, hproper a⟩ (fun r' hp => (hproper a).pending hp) ?_
      intro c' hc r' hp
      rw [hcalm r hrole c' hc r' hp]
  | use r =>
      simp only [hrole] at hproper
      simp only [newReg, hrole]
      refine h.update ⟨_, _, hproper.2 a⟩ (fun r' hp => h.pending c r' ?_)
        fun c' _ r' hp => h.pending c' r' hp
      rw [hscript]
      exact .later a (by simp [hrole]) hp
  | other =>
      simp only [hrole] at hproper
      simp only [newReg, hrole]
      refine h.update ⟨_, _, hproper a⟩ (fun r' hp => h.pending c r' ?_)
        fun c' _ r' hp => h.pending c' r' hp
      rw [hscript]
      exact .later a (by simp [hrole]) hp

theorem step {act : Action σ I Job Coro} (h : M.Inv s)
    (hbody : ∀ job, ∃ held post, (M.body job).Proper M.role post held)
    (hfresh : ∀ job r, ¬ (M.body job).Pending M.role r) (hcalm : M.Calm s act)
    (hstep : M.step s act = some s') : M.Inv s' := by
  cases act with
  | resume c =>
      simp only [Coroutines.step] at hstep
      split at hstep
      · cases hstep
        exact ⟨h.proper, h.pending⟩
      · cases hstep
  | start job =>
      simp only [Coroutines.step] at hstep
      split at hstep
      · cases hstep
      · split at hstep
        · cases hstep
          refine h.update (hbody job) (fun r hp => absurd hp (hfresh job r)) ?_
          exact fun c' _ r hp => h.pending c' r hp
        · cases hstep
  | leave =>
      simp only [Coroutines.step] at hstep
      split at hstep
      · cases hstep
      · split at hstep
        · cases hstep
          exact ⟨h.proper, h.pending⟩
        · cases hstep
  | run input =>
      simp only [Coroutines.step] at hstep
      split at hstep
      · cases hstep
      · rename_i c hcurrent
        split at hstep
        · cases hstep
        · rename_i e rest hscript
          split at hstep
          · cases hstep
          · cases hstep
            exact ⟨h.proper, h.pending⟩
          · rename_i a _
            cases hstep
            refine h.perform a hscript ?_
            exact fun r hrole => hcalm c e rest r hcurrent hscript hrole
  | elsewhere shared =>
      cases hstep
      exact ⟨h.proper, h.pending⟩

end Inv

/-- **Scripts that are proper on their own are isolated in every run that keeps calm.** -/
theorem isolated_of_calm {init : σ} {s : State E A R σ Coro}
    (hbody : ∀ job, ∃ post, (M.body job).Proper M.role post none)
    (h : (M.machine init).ReachableBy M.Calm s) : M.Isolated s := by
  have hfresh : ∀ job r, ¬ (M.body job).Pending M.role r := by
    intro job r hp
    obtain ⟨post, hproper⟩ := hbody job
    cases hproper.pending hp
  have hinv : M.Inv s :=
    h.invariant (fun _ => Inv.start) fun _ _ _ hinv hcalm hstep =>
      hinv.step (fun job => ⟨none, hbody job⟩) hfresh hcalm hstep
  exact hinv.isolated

end Coroutines

end Dal
