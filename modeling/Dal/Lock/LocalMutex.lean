/-
The MCS locks as the mutex of the nodes.

In the `LITL` builds the local lock is whichever lock is linked in for `pthread_mutex_lock`, and
`Lock/Litl.lean` takes it for a mutex that lets one of the threads in front of it in.  Here is
that MCS, with any waiting policy, and hierarchical MCS are that: whatever their threads see of a
run, the calls and the returns in their order, they could have seen of a mutex that is taken and
given back in one step.

A thread that unlocks gives the mutex back when it hands it on, and the next one takes it when it
has seen that; in between nobody has it.  That is also why a `trylock` may come back without the
mutex when nobody has it.
-/
import Dal.Lib.Mutex
import Dal.Lock.Hmcs
import Dal.Lock.McsFair

namespace Dal

/-! ### Hierarchical MCS -/

namespace Hmcs

variable {Thread Socket : Type*}

/-- Where the call of thread `t` is. -/
def Pc.phase (t : Thread) : Pc Thread Socket → MutexPhase Thread
  | .idle | .holding _ | .failed => .idle
  | .reset b _ | .xchg b _ | .cohort b _ | .gnext b _ | .greset b _ | .gxchg b _ =>
      .called (if b then .tryLock t else .lock t)
  | .link .. | .wait _ | .glink .. | .gwait _ => .called (.lock t)
  | .gfirst _ => .done true
  | .succ .. | .handOn .. | .gtest _ | .gcas _ | .gwaitNext _ | .gpass _ => .called (.unlock t)
  | .test _ | .cas _ | .waitNext _ | .pass _ => .done false

/-- What a call returned that has just ended. -/
def Pc.returned : Pc Thread Socket → Option Bool
  | .idle => some false
  | .holding _ => some true
  | _ => none

/-- What is seen of a step. -/
def visible (_ : State Thread Socket) (a : Action Thread Socket) (s' : State Thread Socket) :
    List (Event Thread (MutexOp Thread) Bool) :=
  match a with
  | .lock t _ b => [.call t (if b then .tryLock t else .lock t)]
  | .unlock t => [.call t (.unlock t)]
  | .run t => ((s'.pc t).returned.map (Event.ret t)).toList

variable [DecidableEq Thread] [DecidableEq Socket] {s s' : State Thread Socket} {t u : Thread}

/-- A thread's next step is one of a client of a mutex. -/
theorem run_turn (hstep : runThread s t = some s') : ∃ p, s'.pc = Function.update s.pc t p ∧
    (p = .failed ∨ Mutex.Turn t ((s.pc t).phase t) ((s.pc t).gowns ≠ none) p.returned (p.phase t)
      (p.gowns ≠ none)) := by
  have hself : ∀ p, s.pc t = p → s.pc = Function.update s.pc t p := fun p hp => by
    rw [← hp, Function.update_eq_self]
  have hlock : ∀ b : Bool, (if b then MutexOp.tryLock t else .lock t) = .lock t ∨
      (if b then MutexOp.tryLock t else .lock t) = .tryLock t := fun b => by
    cases b
    · exact Or.inl rfl
    · exact Or.inr rfl
  have hsome : ∀ g : Socket, some g ≠ none := Option.some_ne_none
  rw [runThread] at hstep
  cases hpc : s.pc t <;> simp only [hpc] at hstep
  case idle | holding | failed => cases hstep
  case reset | cohort | gnext | greset | link | glink =>
    obtain rfl := Option.some.inj hstep
    exact ⟨_, rfl, Or.inr (.stay Iff.rfl)⟩
  case xchg b g =>
    split at hstep
    · obtain rfl := Option.some.inj hstep
      exact ⟨_, rfl, Or.inr (.stay Iff.rfl)⟩
    · cases b
      · obtain rfl := Option.some.inj hstep
        exact ⟨_, rfl, Or.inr (.stay Iff.rfl)⟩
      · obtain rfl := Option.some.inj hstep
        exact ⟨_, rfl, Or.inr (.fail (not_not.mpr rfl) (not_not.mpr rfl))⟩
  case wait g =>
    split at hstep
    · obtain rfl := Option.some.inj hstep
      exact ⟨_, hself _ hpc, Or.inr (.stay Iff.rfl)⟩
    split at hstep
    · obtain rfl := Option.some.inj hstep
      exact ⟨_, rfl, Or.inr (.enter (Or.inl rfl) (not_not.mpr rfl) (hsome g))⟩
    · obtain rfl := Option.some.inj hstep
      exact ⟨_, rfl, Or.inr (.stay Iff.rfl)⟩
  case gxchg b g =>
    split at hstep
    · obtain rfl := Option.some.inj hstep
      exact ⟨_, rfl, Or.inr (.take (hlock b) (not_not.mpr rfl) (hsome g))⟩
    · cases b
      · obtain rfl := Option.some.inj hstep
        exact ⟨_, rfl, Or.inr (.stay Iff.rfl)⟩
      · obtain rfl := Option.some.inj hstep
        exact ⟨_, rfl, Or.inr (.giveUp (not_not.mpr rfl) (not_not.mpr rfl))⟩
  case gwait g =>
    split at hstep
    · obtain rfl := Option.some.inj hstep
      exact ⟨_, rfl, Or.inr (.enter (Or.inl rfl) (not_not.mpr rfl) (hsome g))⟩
    · obtain rfl := Option.some.inj hstep
      exact ⟨_, hself _ hpc, Or.inr (.stay Iff.rfl)⟩
  case gfirst g =>
    obtain rfl := Option.some.inj hstep
    exact ⟨_, rfl, Or.inr (.ret (iff_of_true (hsome g) (hsome g)))⟩
  case succ g k =>
    split at hstep <;> obtain rfl := Option.some.inj hstep
    · exact ⟨_, rfl, Or.inr (.stay (iff_of_true (hsome g) (hsome g)))⟩
    · exact ⟨_, rfl, Or.inr (.stay (iff_of_true (hsome g) (hsome g)))⟩
  case handOn g k n =>
    obtain rfl := Option.some.inj hstep
    exact ⟨_, rfl, Or.inr (.leave (hsome g) (not_not.mpr rfl))⟩
  case gtest g =>
    obtain rfl := Option.some.inj hstep
    refine ⟨_, rfl, Or.inr ?_⟩
    split <;> exact .stay (iff_of_true (hsome g) (hsome g))
  case gcas g =>
    split at hstep <;> obtain rfl := Option.some.inj hstep
    · exact ⟨_, rfl, Or.inr (.release (hsome g) (not_not.mpr rfl))⟩
    · exact ⟨_, rfl, Or.inr (.stay (iff_of_true (hsome g) (hsome g)))⟩
  case gwaitNext g =>
    split at hstep <;> obtain rfl := Option.some.inj hstep
    · exact ⟨_, hself _ hpc, Or.inr (.stay Iff.rfl)⟩
    · exact ⟨_, rfl, Or.inr (.stay (iff_of_true (hsome g) (hsome g)))⟩
  case gpass g =>
    split at hstep <;> obtain rfl := Option.some.inj hstep
    · exact ⟨_, rfl, Or.inl rfl⟩
    · exact ⟨_, rfl, Or.inr (.release (hsome g) (not_not.mpr rfl))⟩
  case test g =>
    obtain rfl := Option.some.inj hstep
    refine ⟨_, rfl, Or.inr ?_⟩
    split <;> exact .stay Iff.rfl
  case cas g =>
    split at hstep <;> obtain rfl := Option.some.inj hstep
    · exact ⟨_, rfl, Or.inr (.ret Iff.rfl)⟩
    · exact ⟨_, rfl, Or.inr (.stay Iff.rfl)⟩
  case waitNext g =>
    split at hstep <;> obtain rfl := Option.some.inj hstep
    · exact ⟨_, hself _ hpc, Or.inr (.stay Iff.rfl)⟩
    · exact ⟨_, rfl, Or.inr (.stay Iff.rfl)⟩
  case pass g =>
    split at hstep <;> obtain rfl := Option.some.inj hstep
    · exact ⟨_, rfl, Or.inl rfl⟩
    · exact ⟨_, rfl, Or.inr (.ret Iff.rfl)⟩

/-- **Hierarchical MCS is a mutex.**  Whatever the threads see of a run, they could have seen of one
that is taken and given back in one step. -/
theorem hmcs_linearizable :
    (@machine Thread Socket _ _).Linearizable (fun _ _ => True) visible (mutex Thread) := by
  refine System.linearizable_mutex (fun s t => (s.pc t).phase t) (fun s t => (s.pc t).gowns ≠ none)
    ?_ ?_ ?_
  · rintro s ⟨next, status, gnext, gstatus, rfl⟩ t
    exact ⟨rfl, not_not.mpr rfl⟩
  · intro s hreach t u ht hu
    obtain ⟨lq, gq, hinv, -⟩ := reachable_inv hreach
    obtain ⟨g, hg⟩ := Option.ne_none_iff_exists'.mp ht
    obtain ⟨g', hg'⟩ := Option.ne_none_iff_exists'.mp hu
    exact Holds.unique hinv (Or.inl hg) (Or.inl hg')
  · intro s a s' hreach hstep
    obtain ⟨lq, gq, hinv, -⟩ := reachable_inv (hreach.tail a trivial hstep)
    cases a with
    | lock t g b =>
        change Hmcs.step s (.lock t g b) = some s' at hstep
        rw [Hmcs.step] at hstep
        split at hstep
        · rename_i hpc
          obtain rfl := Option.some.inj hstep
          exact .called Pc.phase (·.gowns ≠ none) (p := .reset b g) rfl (by rw [hpc]; rfl) rfl
            (by rw [hpc]; rfl)
        · cases hstep
    | unlock t =>
        change Hmcs.step s (.unlock t) = some s' at hstep
        rw [Hmcs.step] at hstep
        cases hpc : s.pc t <;> simp only [hpc] at hstep
        case holding g =>
          obtain rfl := Option.some.inj hstep
          refine .called Pc.phase (·.gowns ≠ none) rfl (by rw [hpc]; rfl) ?_ ?_
          · split <;> rfl
          · rw [hpc]
            split <;> rfl
        all_goals cases hstep
    | run t =>
        obtain ⟨p, hp, hturn⟩ := run_turn hstep
        have hself : s'.pc t = p := by rw [hp, Function.update_self]
        have hother : ∀ u, u ≠ t → s'.pc u = s.pc u := fun u hu => by
          rw [hp, Function.update_of_ne hu]
        have hfailed : p ≠ .failed := by
          rintro rfl
          have := hinv.good t
          rwa [Good, hself] at this
        rw [← hself] at hturn hfailed
        exact .turn t _ (hturn.resolve_left hfailed) (fun u hu => by rw [hother u hu])
          fun u hu => by rw [hother u hu]

end Hmcs

/-! ### MCS -/

namespace Mcs

variable {Thread : Type*}

/-- Where the call of thread `t` is. -/
def Pc.phase (t : Thread) : Pc Thread → MutexPhase Thread
  | .idle | .holding | .failed => .idle
  | .reset | .xchg | .link _ | .spinning _ | .check | .futex | .parked | .woken =>
      .called (.lock t)
  | .tryReset | .tryCas => .called (.tryLock t)
  | .cas | .waitNext | .wake => .called (.unlock t)
  | .futexWake _ => .done false

/-- What a call returned that has just ended. -/
def Pc.returned : Pc Thread → Option Bool
  | .idle => some false
  | .holding => some true
  | _ => none

/-- What is seen of a step. -/
def visible (_ : State Thread) (a : Action Thread) (s' : State Thread) :
    List (Event Thread (MutexOp Thread) Bool) :=
  match a with
  | .lock t => [.call t (.lock t)]
  | .trylock t => [.call t (.tryLock t)]
  | .unlock t => [.call t (.unlock t)]
  | .run t => ((s'.pc t).returned.map (Event.ret t)).toList
  | .letGo .. => []

variable [DecidableEq Thread] {policy : Policy} {s s' : State Thread} {t u : Thread}

/-- A thread's next step is one of a client of a mutex. -/
theorem run_turn (hstep : runThread policy s t = some s') : ∃ p, s'.pc t = p ∧
    (p = .failed ∨ Mutex.Turn t ((s.pc t).phase t) ((s.pc t).owns = true) p.returned (p.phase t)
      (p.owns = true)) := by
  have hgoto : ∀ (x : State Thread) p, (x.goto t p).pc t = p := fun _ _ => by simp
  have hno : ¬ false = true := Bool.false_ne_true
  rw [runThread] at hstep
  cases hpc : s.pc t <;> simp only [hpc] at hstep
  case idle | holding | parked | failed => cases hstep
  case reset | tryReset =>
    obtain rfl := Option.some.inj hstep
    exact ⟨_, hgoto .., Or.inr (.stay Iff.rfl)⟩
  case xchg =>
    split at hstep <;> obtain rfl := Option.some.inj hstep
    · exact ⟨_, hgoto .., Or.inr (.enter (Or.inl rfl) hno rfl)⟩
    · exact ⟨_, hgoto .., Or.inr (.stay Iff.rfl)⟩
  case link x =>
    obtain rfl := Option.some.inj hstep
    refine ⟨_, hgoto .., Or.inr ?_⟩
    cases policy <;> exact .stay Iff.rfl
  case spinning i =>
    obtain rfl := Option.some.inj hstep
    unfold sleepOnce
    cases policy <;> dsimp only
    case spinlock =>
      split
      · exact ⟨_, hgoto .., Or.inr (.enter (Or.inl rfl) hno rfl)⟩
      · exact ⟨_, hpc, Or.inr (.stay Iff.rfl)⟩
    case spinlockAtomic =>
      split
      · exact ⟨_, hgoto .., Or.inr (.enter (Or.inl rfl) hno rfl)⟩
      · exact ⟨_, hpc, Or.inr (.stay Iff.rfl)⟩
    case spinThenPark | park =>
      split
      · split <;> exact ⟨_, hgoto .., Or.inr (.stay Iff.rfl)⟩
      · exact ⟨_, hgoto .., Or.inr (.stay Iff.rfl)⟩
  case check =>
    obtain rfl := Option.some.inj hstep
    refine ⟨_, hgoto .., Or.inr ?_⟩
    split
    · exact .enter (Or.inl rfl) hno rfl
    · exact .stay Iff.rfl
  case futex =>
    obtain rfl := Option.some.inj hstep
    refine ⟨_, hgoto .., Or.inr ?_⟩
    split <;> exact .stay Iff.rfl
  case woken =>
    split at hstep <;> obtain rfl := Option.some.inj hstep
    · exact ⟨_, hgoto .., Or.inr (.enter (Or.inl rfl) hno rfl)⟩
    · exact ⟨_, hpc, Or.inr (.stay Iff.rfl)⟩
  case tryCas =>
    split at hstep <;> obtain rfl := Option.some.inj hstep
    · exact ⟨_, hgoto .., Or.inr (.enter (Or.inr rfl) hno rfl)⟩
    · exact ⟨_, hgoto .., Or.inr (.fail hno hno)⟩
  case cas =>
    split at hstep <;> obtain rfl := Option.some.inj hstep
    · exact ⟨_, hgoto .., Or.inr (.leave rfl hno)⟩
    · exact ⟨_, hgoto .., Or.inr (.stay Iff.rfl)⟩
  case waitNext =>
    split at hstep <;> obtain rfl := Option.some.inj hstep
    · exact ⟨_, hpc, Or.inr (.stay Iff.rfl)⟩
    · exact ⟨_, hgoto .., Or.inr (.stay Iff.rfl)⟩
  case wake =>
    split at hstep <;> obtain rfl := Option.some.inj hstep
    · exact ⟨_, hgoto .., Or.inl rfl⟩
    unfold wakeNext
    cases policy <;> dsimp only
    case spinlock => exact ⟨_, hgoto .., Or.inr (.leave rfl hno)⟩
    case spinlockAtomic =>
      split
      · exact ⟨_, hgoto .., Or.inl rfl⟩
      · exact ⟨_, hgoto .., Or.inr (.leave rfl hno)⟩
    case spinThenPark | park => exact ⟨_, hgoto .., Or.inr (.release rfl hno)⟩
  case futexWake n =>
    obtain rfl := Option.some.inj hstep
    exact ⟨_, hgoto .., Or.inr (.ret Iff.rfl)⟩

omit [DecidableEq Thread] in
/-- Being woken is no step of the call. -/
theorem phase_others (h : s'.pc u = s.pc u ∨ s.pc u = .parked ∧ s'.pc u = .woken) :
    (s'.pc u).phase u = (s.pc u).phase u ∧ ((s'.pc u).owns = true ↔ (s.pc u).owns = true) := by
  rcases h with heq | ⟨hparked, hwoken⟩
  · rw [heq]
    exact ⟨rfl, Iff.rfl⟩
  · rw [hparked, hwoken]
    exact ⟨rfl, Iff.rfl⟩

/-- **MCS is a mutex, whatever the waiting policy.** -/
theorem mcs_linearizable (policy : Policy) :
    (@machine Thread _ policy).Linearizable (fun _ _ => True) visible (mutex Thread) := by
  refine System.linearizable_mutex (fun s t => (s.pc t).phase t) (fun s t => (s.pc t).owns = true)
    ?_ ?_ ?_
  · rintro s ⟨next, spin, rfl⟩ t
    exact ⟨rfl, Bool.false_ne_true⟩
  · intro s hreach t u ht hu
    have hinv := reachable_inv hreach
    exact Option.some.inj ((hinv.turn t ht).symm.trans (hinv.turn u hu))
  · intro s a s' hreach hstep
    have hinv := reachable_inv (hreach.tail a trivial hstep)
    cases a with
    | lock t =>
        change Mcs.step policy s (.lock t) = some s' at hstep
        rw [Mcs.step] at hstep
        split at hstep
        · rename_i hpc
          obtain rfl := Option.some.inj hstep
          exact .called Pc.phase (·.owns = true) (p := .reset) rfl (by rw [hpc]; rfl) rfl
            (by rw [hpc]; rfl)
        · cases hstep
    | trylock t =>
        change Mcs.step policy s (.trylock t) = some s' at hstep
        rw [Mcs.step] at hstep
        split at hstep
        · rename_i hpc
          obtain rfl := Option.some.inj hstep
          exact .called Pc.phase (·.owns = true) (p := .tryReset) rfl (by rw [hpc]; rfl) rfl
            (by rw [hpc]; rfl)
        · cases hstep
    | unlock t =>
        change Mcs.step policy s (.unlock t) = some s' at hstep
        rw [Mcs.step] at hstep
        split at hstep
        · rename_i hpc
          obtain rfl := Option.some.inj hstep
          refine .called Pc.phase (·.owns = true) rfl (by rw [hpc]; rfl) ?_ ?_
          · split <;> rfl
          · rw [hpc]
            split <;> rfl
        · cases hstep
    | run t =>
        obtain ⟨p, hp, hturn⟩ := run_turn hstep
        have hfailed : p ≠ .failed := hp ▸ hinv.passed t
        rw [← hp] at hturn hfailed
        exact .turn t _ (hturn.resolve_left hfailed)
          (fun u hu => (phase_others (run_pc hstep hu)).1)
          fun u hu => (phase_others (run_pc hstep hu)).2
    | letGo t eintr =>
        have hsame : ∀ u, (s'.pc u).phase u = (s.pc u).phase u ∧
            ((s'.pc u).owns = true ↔ (s.pc u).owns = true) := by
          change Mcs.step policy s (.letGo t eintr) = some s' at hstep
          rw [Mcs.step] at hstep
          intro u
          split at hstep
          · rename_i hpc
            obtain rfl := Option.some.inj hstep
            by_cases hut : u = t
            · rw [hut, hpc, State.goto_pc, if_pos rfl]
              cases eintr <;> exact ⟨rfl, Iff.rfl⟩
            · rw [State.goto_pc, if_neg hut]
              exact ⟨rfl, Iff.rfl⟩
          · cases hstep
        refine .turn t none ?_ (fun u _ => (hsame u).1) fun u _ => (hsame u).2
        rw [(hsame t).1]
        exact .stay (hsame t).2

end Mcs

end Dal
