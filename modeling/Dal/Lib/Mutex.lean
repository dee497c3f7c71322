/-
A mutex as one shared object, and the rule for showing that a machine is one.

The object is with one client or with none.  A call returns whether the client has it then: `lock`
comes back with it, `tryLock` may come back without it at any time, and `unlock` gives it back.

For a machine it is enough to say of every state where the call of each client is and who has the
mutex, that never two have it, and that a step is a call or takes one client on by one of the ways
of `Turn`.
-/
import Dal.Lib.Atomic

namespace Dal

universe u

/-- The calls, each with the client that makes it. -/
inductive MutexOp (γ : Type u)
  | lock (c : γ)
  | tryLock (c : γ)
  | unlock (c : γ)

/-- A call returns whether the client has the mutex. -/
inductive MutexOp.Apply {γ : Type u} : Option γ → MutexOp γ → Bool → Option γ → Prop
  | lock (c : γ) : Apply none (.lock c) true (some c)
  | tryLock (c : γ) : Apply none (.tryLock c) true (some c)
  | busy (owner : Option γ) (c : γ) : Apply owner (.tryLock c) false owner
  | unlock (c : γ) : Apply (some c) (.unlock c) false none

/-- A mutex that nobody has to begin with. -/
def mutex (γ : Type u) : Object (Option γ) (MutexOp γ) Bool where
  Init owner := owner = none
  Apply := MutexOp.Apply

/-- Where the call of a client of a mutex is. -/
abbrev MutexPhase (γ : Type u) : Type u := CallPhase (MutexOp γ) Bool

namespace Mutex

variable {γ : Type u}

/-- A step of client `c`: where its call is and whether it has the mutex, before the step and after
it, and what it returns if the call is over. -/
inductive Turn (c : γ) : MutexPhase γ → Prop → Option Bool → MutexPhase γ → Prop → Prop
  | stay {phase : MutexPhase γ} {has has' : Prop} (h : has' ↔ has) :
      Turn c phase has none phase has'
  | ret {r : Bool} {has has' : Prop} (h : has' ↔ has) : Turn c (.done r) has (some r) .idle has'
  | take {op : MutexOp γ} {has has' : Prop} (hop : op = .lock c ∨ op = .tryLock c) (hno : ¬ has)
      (hyes : has') : Turn c (.called op) has none (.done true) has'
  /-- The client has the mutex, and returns at once. -/
  | enter {op : MutexOp γ} {has has' : Prop} (hop : op = .lock c ∨ op = .tryLock c) (hno : ¬ has)
      (hyes : has') : Turn c (.called op) has (some true) .idle has'
  | giveUp {has has' : Prop} (hno : ¬ has) (hno' : ¬ has') :
      Turn c (.called (.tryLock c)) has none (.done false) has'
  | fail {has has' : Prop} (hno : ¬ has) (hno' : ¬ has') :
      Turn c (.called (.tryLock c)) has (some false) .idle has'
  | release {has has' : Prop} (hyes : has) (hno : ¬ has') :
      Turn c (.called (.unlock c)) has none (.done false) has'
  /-- The client gives the mutex back, and returns at once. -/
  | leave {has has' : Prop} (hyes : has) (hno : ¬ has') :
      Turn c (.called (.unlock c)) has (some false) .idle has'

/-- The mutex is with the one that has it, and each call is where it should be. -/
structure Follows (phase : γ → MutexPhase γ) (has : γ → Prop)
    (a : Atomic (Option γ) γ (MutexOp γ) Bool) : Prop where
  owner : ∀ c, a.object = some c ↔ has c
  phase : a.phase = phase

variable [DecidableEq γ] {phase phase' : γ → MutexPhase γ} {has has' : γ → Prop}
  {a : Atomic (Option γ) γ (MutexOp γ) Bool} {c : γ} {r : Option Bool}

/-- A client that does not have the mutex and then has it got it from nobody. -/
theorem Follows.free (h : Follows phase has a) (hothers : ∀ d, d ≠ c → (has' d ↔ has d))
    (hsole : ∀ d, has' c → has' d → c = d) (hno : ¬ has c) (hyes : has' c) :
    a.object = none ∧ ∀ d, some c = some d ↔ has' d := by
  refine ⟨?_, fun d => ⟨fun hd => Option.some.inj hd ▸ hyes, fun hd => ?_⟩⟩
  · cases howner : a.object with
    | none => rfl
    | some d =>
        have hd := (h.owner d).mp howner
        by_cases hdc : d = c
        · exact absurd (hdc ▸ hd) hno
        · exact absurd (hsole d hyes ((hothers d hdc).mpr hd)).symm hdc
  · rw [hsole d hyes hd]

/-- A client that has the mutex and then does not leaves it with nobody. -/
theorem Follows.left (h : Follows phase has a) (hothers : ∀ d, d ≠ c → (has' d ↔ has d))
    (hyes : has c) (hno : ¬ has' c) : a.object = some c ∧ ∀ d, none = some d ↔ has' d := by
  have howner := (h.owner c).mpr hyes
  refine ⟨howner, fun d => ⟨fun hd => (by cases hd), fun hd => ?_⟩⟩
  by_cases hdc : d = c
  · exact absurd (hdc ▸ hd) hno
  · have hd := (h.owner d).mpr ((hothers d hdc).mp hd)
    exact absurd (Option.some.inj (hd.symm.trans howner)) hdc

/-- What a client's step does, the mutex can do. -/
theorem Follows.turn (h : Follows phase has a)
    (hturn : Turn c (phase c) (has c) r (phase' c) (has' c))
    (hphase : ∀ d, d ≠ c → phase' d = phase d) (hothers : ∀ d, d ≠ c → (has' d ↔ has d))
    (hsole : ∀ d, has' c → has' d → c = d) :
    ∃ a', (mutex γ).History a (r.map (Event.ret c)).toList a' ∧ Follows phase' has' a' := by
  have hsame : (has' c ↔ has c) → ∀ d, a.object = some d ↔ has' d := fun heq d => by
    rw [h.owner]
    by_cases hd : d = c
    · rw [hd, heq]
    · rw [hothers d hd]
  suffices hall : ∃ object, (mutex γ).Progress a.object (phase c) r object (phase' c) ∧
      ∀ d, object = some d ↔ has' d by
    obtain ⟨object, hprogress, howner⟩ := hall
    rw [← congrFun h.phase c] at hprogress
    refine ⟨_, hprogress.history, howner, funext fun d => ?_⟩
    show Function.update a.phase c _ d = _
    by_cases hd : d = c
    · rw [hd, Function.update_self]
    · rw [Function.update_of_ne hd, h.phase, hphase d hd]
  generalize phase c = p, phase' c = p' at hturn ⊢
  cases hturn with
  | stay heq => exact ⟨a.object, .stay _, hsame heq⟩
  | ret heq => exact ⟨a.object, .ret _, hsame heq⟩
  | take hop hno hyes =>
      obtain ⟨hfree, howner⟩ := h.free hothers hsole hno hyes
      refine ⟨some c, .effect ?_, howner⟩
      rw [hfree]
      rcases hop with rfl | rfl
      · exact .lock c
      · exact .tryLock c
  | enter hop hno hyes =>
      obtain ⟨hfree, howner⟩ := h.free hothers hsole hno hyes
      refine ⟨some c, .answer ?_, howner⟩
      rw [hfree]
      rcases hop with rfl | rfl
      · exact .lock c
      · exact .tryLock c
  | giveUp hno hno' =>
      exact ⟨a.object, .effect (MutexOp.Apply.busy _ c), hsame (iff_of_false hno' hno)⟩
  | fail hno hno' =>
      exact ⟨a.object, .answer (MutexOp.Apply.busy _ c), hsame (iff_of_false hno' hno)⟩
  | release hyes hno =>
      obtain ⟨howner, hnone⟩ := h.left hothers hyes hno
      refine ⟨none, .effect ?_, hnone⟩
      rw [howner]
      exact .unlock c
  | leave hyes hno =>
      obtain ⟨howner, hnone⟩ := h.left hothers hyes hno
      refine ⟨none, .answer ?_, hnone⟩
      rw [howner]
      exact .unlock c

/-- A step of a machine: an idle client calls, or one client goes on. -/
inductive Moves (phase phase' : γ → MutexPhase γ) (has has' : γ → Prop) :
    List (Event γ (MutexOp γ) Bool) → Prop
  | call (c : γ) (op : MutexOp γ) (hidle : phase c = .idle)
      (hphase : phase' = Function.update phase c (.called op)) (hhas : ∀ d, has' d ↔ has d) :
      Moves phase phase' has has' [.call c op]
  | turn (c : γ) (r : Option Bool) (hturn : Turn c (phase c) (has c) r (phase' c) (has' c))
      (hphase : ∀ d, d ≠ c → phase' d = phase d) (hothers : ∀ d, d ≠ c → (has' d ↔ has d)) :
      Moves phase phase' has has' (r.map (Event.ret c)).toList

/-- The call that puts client `c` at `p`, for a machine whose program counters say it all. -/
theorem Moves.called {κ : Type*} {pc pc' : γ → κ} (phaseAt : γ → κ → MutexPhase γ)
    (hasAt : κ → Prop) {p : κ} {op : MutexOp γ} (hpc : pc' = Function.update pc c p)
    (hidle : phaseAt c (pc c) = .idle) (hop : phaseAt c p = .called op)
    (hhas : hasAt p ↔ hasAt (pc c)) :
    Moves (fun d => phaseAt d (pc d)) (fun d => phaseAt d (pc' d)) (fun d => hasAt (pc d))
      (fun d => hasAt (pc' d)) [.call c op] := by
  subst hpc
  refine .call c op hidle (funext fun d => ?_) fun d => ?_
  · rw [Function.update_apply, Function.update_apply]
    split
    · rename_i hdc
      rw [hdc, hop]
    · rfl
  · rw [Function.update_apply]
    split
    · rename_i hdc
      rw [hdc, hhas]
    · rfl

theorem Follows.moves (h : Follows phase has a) {seen : List (Event γ (MutexOp γ) Bool)}
    (hmoves : Moves phase phase' has has' seen) (hsole : ∀ c d, has' c → has' d → c = d) :
    ∃ a', (mutex γ).History a seen a' ∧ Follows phase' has' a' := by
  cases hmoves with
  | call c op hidle hphase hhas =>
      refine ⟨_, .single (.call c op ((congrFun h.phase c).trans hidle)), fun d => ?_, ?_⟩
      · rw [hhas]
        exact h.owner d
      · show Function.update a.phase c _ = _
        rw [h.phase, hphase]
  | turn c r hturn hphase hothers => exact h.turn hturn hphase hothers (hsole c)

end Mutex

/-- **A machine whose steps are the turns of a mutex that never two have is a mutex.** -/
theorem System.linearizable_mutex {τ α : Type*} {γ : Type u} [DecidableEq γ] {M : System τ α}
    {visible : τ → α → τ → List (Event γ (MutexOp γ) Bool)} (phase : τ → γ → MutexPhase γ)
    (has : τ → γ → Prop) (hinit : ∀ s, M.Init s → ∀ c, phase s c = .idle ∧ ¬ has s c)
    (hsole : ∀ s, M.Reachable s → ∀ c d, has s c → has s d → c = d)
    (hstep : ∀ s a s', M.Reachable s → M.step s a = some s' →
      Mutex.Moves (phase s) (phase s') (has s) (has s') (visible s a s')) :
    M.Linearizable (fun _ _ => True) visible (mutex γ) := by
  refine System.linearizable_of_simulation
    (fun s a => M.Reachable s ∧ Mutex.Follows (phase s) (has s) a) (fun s hs => ?_) ?_
  · refine ⟨none, rfl, ⟨s, hs, .refl⟩, fun c => ?_, funext fun c => ((hinit s hs c).1).symm⟩
    exact iff_of_false (fun h => (by cases h)) (hinit s hs c).2
  · rintro s a s' t ⟨hreach, hfollows⟩ - hs
    have hreach' : M.Reachable s' := hreach.tail a trivial hs
    obtain ⟨t', hhistory, hfollows'⟩ := hfollows.moves (hstep s a s' hreach hs) (hsole s' hreach')
    exact ⟨t', hhistory, hreach', hfollows'⟩

end Dal
