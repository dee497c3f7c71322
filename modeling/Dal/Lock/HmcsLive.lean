/-
Whoever calls `hmcs_mutex_lock` gets the lock.

A thread that cannot go on loops on a word that another thread writes: its own `status`, that of
its socket's node, or the `next` of one of the two.  Following who is to write it leads from the
queue of a socket to its first thread, from there to the first socket and its first thread, and
from a thread that releases to the one that has yet to link itself in; so not all of them loop.

The rank is what all threads together still have to do.  A thread that does not loop never goes
back, so each step lowers it.
-/
import Dal.Lock.Hmcs
import Mathlib.Algebra.Order.BigOperators.Group.Finset

namespace Dal.Hmcs

variable {Thread Socket : Type*}

/-- How many steps the thread has still to take, at most. -/
def Pc.left : Pc Thread Socket → Nat
  | .reset .. => 20
  | .xchg .. => 19
  | .link .. => 18
  | .wait _ => 17
  | .cohort .. => 16
  | .gnext .. => 15
  | .greset .. => 14
  | .gxchg .. => 13
  | .glink .. => 12
  | .gwait _ | .gfirst _ => 11
  | .holding _ => 10
  | .succ .. => 9
  | .handOn .. => 1
  | .gtest _ => 8
  | .gcas _ => 7
  | .gwaitNext _ => 6
  | .gpass _ => 5
  | .test _ => 4
  | .cas _ => 3
  | .waitNext _ => 2
  | .pass _ => 1
  | .idle | .failed => 0

/-- The thread is in `hmcs_mutex_lock`, or all but back from `hmcs_mutex_trylock` with the lock. -/
def Pc.locking : Pc Thread Socket → Bool
  | .reset b _ | .xchg b _ | .cohort b _ | .gnext b _ | .greset b _ | .gxchg b _ => !b
  | .link .. | .wait _ | .glink .. | .gwait _ | .gfirst _ => true
  | _ => false

/-- The thread reads a word that is not yet what it waits for. -/
def Spins (s : State Thread Socket) (t : Thread) : Prop :=
  match s.pc t with
  | .wait _ => s.status t = WAIT
  | .gwait g => s.gstatus g = false
  | .waitNext _ => s.next t = none
  | .gwaitNext g => s.gnext g = none
  | _ => False

/-- Nobody calls anew, and a loop is not gone through in vain. -/
def Onward (s : State Thread Socket) : Action Thread Socket → Prop
  | .lock .. => False
  | .unlock _ => True
  | .run t => ¬ Spins s t

section Progress

variable {s : State Thread Socket} {lq : Socket → List Thread} {gq : List Socket} {t u : Thread}
  {g : Socket}

/-! ### Somebody can go on -/

/-- A thread waits for its successor only while that one has yet to link itself in. -/
theorem Inv.successor (h : Inv s lq gq) (hpc : s.pc t = .waitNext g) (hspins : Spins s t) :
    ∃ u, s.pc u = .link g t := by
  have hgood := h.good t
  rw [Good, hpc] at hgood
  rw [Spins, hpc] at hspins
  obtain ⟨q, hq⟩ := (h.locals g).cons_of_owns (x := t) (by rw [hpc]; rfl)
  have hlinked := (h.locals g).linked
  rw [hq] at hlinked
  obtain ⟨u, q', hq', g', hu⟩ := hlinked.second_late hspins hgood
  have hmem := ((h.locals g).mem u).mp (by simp [hq, hq'])
  rw [hu] at hmem
  obtain rfl : g' = g := by simpa [Pc.waits, Pc.owns] using hmem
  exact ⟨u, hu⟩

/-- So does a socket. -/
theorem Inv.gsuccessor (h : Inv s lq gq) (hpc : s.pc t = .gwaitNext g) (hspins : Spins s t) :
    ∃ u g', s.pc u = .glink g' g := by
  have hgood := h.good t
  rw [Good, hpc] at hgood
  rw [Spins, hpc] at hspins
  obtain ⟨q, hq⟩ := h.global.cons_of_owns (x := g) ⟨t, Or.inl (by rw [hpc]; rfl)⟩
  have hlinked := h.global.linked
  rw [hq] at hlinked
  obtain ⟨g', q', -, u, hu⟩ := hlinked.second_late hspins hgood
  exact ⟨u, g', hu⟩

/-- If all threads loop, none waits for a successor. -/
theorem Inv.no_successor (h : Inv s lq gq) (hall : ∀ u, s.pc u = .idle ∨ Spins s u) :
    s.pc t ≠ .waitNext g ∧ s.pc t ≠ .gwaitNext g := by
  have hspins : s.pc t ≠ .idle → Spins s t := (hall t).resolve_left
  refine ⟨fun hpc => ?_, fun hpc => ?_⟩
  · obtain ⟨u, hu⟩ := h.successor hpc (hspins (by simp [hpc]))
    have := hall u
    simp [Spins, hu] at this
  · obtain ⟨u, g', hu⟩ := h.gsuccessor hpc (hspins (by simp [hpc]))
    have := hall u
    simp [Spins, hu] at this

/-- Nor for the global lock. -/
theorem Inv.no_gwait (h : Inv s lq gq) (hall : ∀ u, s.pc u = .idle ∨ Spins s u) :
    s.pc t ≠ .gwait g := by
  intro hpc
  have hmem : g ∈ gq := (h.global.mem g).mpr (Or.inl ⟨t, by rw [hpc]; rfl⟩)
  obtain ⟨g₀, hhead⟩ : ∃ g₀, gq.head? = some g₀ := by
    cases gq with
    | nil => cases hmem
    | cons g₀ q => exact ⟨g₀, rfl⟩
  rcases (h.global.mem g₀).mp (List.mem_of_mem_head? hhead) with ⟨u, hu⟩ | ⟨u, hu | ⟨hu, hless⟩⟩
  · have hgranted := (h.global.grant g₀ ⟨u, hu⟩).mpr hhead
    have hspins := hall u
    cases hpcu : s.pc u <;> simp [hpcu, Pc.gwaits] at hu <;> simp [Spins, hpcu] at hspins
    subst hu
    rw [hgranted] at hspins
    cases hspins
  · have hspins := hall u
    cases hpcu : s.pc u <;> simp [hpcu, Pc.gowns] at hu <;> simp [Spins, hpcu] at hspins
    exact (h.no_successor hall).2 hpcu
  · have hspins := hall u
    cases hpcu : s.pc u <;> simp [hpcu, Pc.waits] at hu <;> simp [Spins, hpcu] at hspins
    rw [hspins] at hless
    exact absurd hless (by decide)

/-- Not all threads loop. -/
theorem Inv.not_all_spin (h : Inv s lq gq) (ht : s.pc t ≠ .idle) :
    ∃ u, s.pc u ≠ .idle ∧ ¬ Spins s u := by
  by_contra hnone
  have hall : ∀ u, s.pc u = .idle ∨ Spins s u := fun u => by
    by_contra hnot
    obtain ⟨hu, hspins⟩ := not_or.mp hnot
    exact hnone ⟨u, hu, hspins⟩
  -- a thread that owns its turn would loop on the global lock or for a successor
  have hnobody : ∀ u g, (s.pc u).owns ≠ some g := by
    intro u g hu
    have hspins := hall u
    cases hpcu : s.pc u <;> simp [hpcu, Pc.owns] at hu <;> simp [Spins, hpcu] at hspins
    · exact h.no_gwait hall hpcu
    · exact (h.no_successor hall).2 hpcu
    · exact (h.no_successor hall).1 hpcu
  have hwait : ∀ u g, (s.pc u).waits = some g → s.status u = WAIT := by
    intro u g hu
    have hspins := hall u
    cases hpcu : s.pc u <;> simp [hpcu, Pc.waits] at hu <;> simp [Spins, hpcu] at hspins
    exact hspins
  have hself := (hall t).resolve_left ht
  cases hpc : s.pc t <;> simp only [Spins, hpc] at hself
  case wait g =>
    have hmem : t ∈ lq g := ((h.locals g).mem t).mpr (Or.inl (by rw [hpc]; rfl))
    obtain ⟨v, hhead⟩ : ∃ v, (lq g).head? = some v := by
      cases hq : lq g with
      | nil =>
          rw [hq] at hmem
          cases hmem
      | cons v q => exact ⟨v, rfl⟩
    rcases ((h.locals g).mem v).mp (List.mem_of_mem_head? hhead) with hv | hv
    · exact ((h.locals g).grant v hv).mpr hhead (hwait v g hv)
    · exact hnobody v g hv
  case gwait g => exact hnobody t g (by rw [hpc]; rfl)
  case waitNext g => exact hnobody t g (by rw [hpc]; rfl)
  case gwaitNext g => exact hnobody t g (by rw [hpc]; rfl)

/-! ### Every step is one less -/

variable [DecidableEq Thread] [DecidableEq Socket] {s' : State Thread Socket}

/-- What a step makes of the thread that takes it. -/
structure Advance (s s' : State Thread Socket) (t : Thread) (p : Pc Thread Socket) : Prop where
  pc : s'.pc = Function.update s.pc t p
  less : p.left < (s.pc t).left
  locking : (s.pc t).locking = true → p.locking = true ∨ ∃ g, p = .holding g

theorem run_advance (hstep : runThread s t = some s') (hspins : ¬ Spins s t) :
    ∃ p, Advance s s' t p := by
  have hnot : ∀ {p : Pc Thread Socket}, (s.pc t).locking = false →
      (s.pc t).locking = true → p.locking = true ∨ ∃ g, p = .holding g := fun hno hyes =>
    absurd (hno.symm.trans hyes) Bool.false_ne_true
  rw [runThread] at hstep
  rw [Spins] at hspins
  cases hpc : s.pc t <;> simp only [hpc] at hstep hspins
  case idle | holding | failed => cases hstep
  case reset | cohort | gnext | greset =>
    obtain rfl := Option.some.inj hstep
    exact ⟨_, rfl, by simp [hpc, Pc.left], fun h => Or.inl (by rwa [hpc] at h)⟩
  case link | glink =>
    obtain rfl := Option.some.inj hstep
    exact ⟨_, rfl, by simp [hpc, Pc.left], fun _ => Or.inl rfl⟩
  case xchg b g =>
    split at hstep
    · obtain rfl := Option.some.inj hstep
      exact ⟨_, rfl, by simp [hpc, Pc.left], fun h => Or.inl (by rwa [hpc] at h)⟩
    · cases b
      · obtain rfl := Option.some.inj hstep
        exact ⟨_, rfl, by simp [hpc, Pc.left], fun _ => Or.inl rfl⟩
      · obtain rfl := Option.some.inj hstep
        exact ⟨_, rfl, by simp [hpc, Pc.left], hnot (by rw [hpc]; rfl)⟩
  case wait g =>
    rw [if_neg hspins] at hstep
    split at hstep <;> obtain rfl := Option.some.inj hstep
    · exact ⟨_, rfl, by simp [hpc, Pc.left], fun _ => Or.inr ⟨g, rfl⟩⟩
    · exact ⟨_, rfl, by simp [hpc, Pc.left], fun _ => Or.inl rfl⟩
  case gxchg b g =>
    split at hstep
    · obtain rfl := Option.some.inj hstep
      exact ⟨_, rfl, by simp [hpc, Pc.left], fun _ => Or.inl rfl⟩
    · cases b
      · obtain rfl := Option.some.inj hstep
        exact ⟨_, rfl, by simp [hpc, Pc.left], fun _ => Or.inl rfl⟩
      · obtain rfl := Option.some.inj hstep
        exact ⟨_, rfl, by simp [hpc, Pc.left], hnot (by rw [hpc]; rfl)⟩
  case gwait g =>
    rw [if_pos (Bool.not_eq_false _ ▸ hspins)] at hstep
    obtain rfl := Option.some.inj hstep
    exact ⟨_, rfl, by simp [hpc, Pc.left], fun _ => Or.inr ⟨g, rfl⟩⟩
  case gfirst g =>
    obtain rfl := Option.some.inj hstep
    exact ⟨_, rfl, by simp [hpc, Pc.left], fun _ => Or.inr ⟨g, rfl⟩⟩
  case succ g k =>
    split at hstep <;> obtain rfl := Option.some.inj hstep
    · exact ⟨_, rfl, by simp [hpc, Pc.left], hnot (by rw [hpc]; rfl)⟩
    · exact ⟨_, rfl, by simp [hpc, Pc.left], hnot (by rw [hpc]; rfl)⟩
  case handOn g k n =>
    obtain rfl := Option.some.inj hstep
    exact ⟨_, rfl, by simp [hpc, Pc.left], hnot (by rw [hpc]; rfl)⟩
  case gtest g | test g =>
    obtain rfl := Option.some.inj hstep
    refine ⟨_, rfl, ?_, hnot (by rw [hpc]; rfl)⟩
    split <;> simp [hpc, Pc.left]
  case gcas g | cas g =>
    split at hstep <;> obtain rfl := Option.some.inj hstep
    · exact ⟨_, rfl, by simp [hpc, Pc.left], hnot (by rw [hpc]; rfl)⟩
    · exact ⟨_, rfl, by simp [hpc, Pc.left], hnot (by rw [hpc]; rfl)⟩
  case gwaitNext g | waitNext g =>
    rw [if_neg hspins] at hstep
    obtain rfl := Option.some.inj hstep
    exact ⟨_, rfl, by simp [hpc, Pc.left], hnot (by rw [hpc]; rfl)⟩
  case gpass g | pass g =>
    split at hstep <;> obtain rfl := Option.some.inj hstep
    · exact ⟨_, rfl, by simp [hpc, Pc.left], hnot (by rw [hpc]; rfl)⟩
    · exact ⟨_, rfl, by simp [hpc, Pc.left], hnot (by rw [hpc]; rfl)⟩

/-- A step that somebody can take: a holder unlocks, or a thread that does not loop goes on. -/
theorem step_advance {a : Action Thread Socket} (hgo : Onward s a)
    (hstep : Hmcs.step s a = some s') : ∃ u p, s.pc u ≠ .idle ∧ Advance s s' u p := by
  cases a with
  | lock u g b => exact hgo.elim
  | unlock u =>
      rw [Hmcs.step] at hstep
      cases hpc : s.pc u <;> simp only [hpc] at hstep
      case holding g =>
        obtain rfl := Option.some.inj hstep
        refine ⟨u, _, by simp [hpc], rfl, ?_, fun h => ?_⟩
        · split <;> simp [hpc, Pc.left]
        · rw [hpc] at h
          cases h
      all_goals cases hstep
  | run u =>
      change runThread s u = some s' at hstep
      obtain ⟨p, hadvance⟩ := run_advance hstep hgo
      refine ⟨u, p, fun hidle => ?_, hadvance⟩
      have := hadvance.less
      rw [hidle] at this
      exact absurd this (Nat.not_lt_zero _)

/-- As long as a call is not over, somebody can go on. -/
theorem Inv.can_go_on (h : Inv s lq gq) (ht : s.pc t ≠ .idle) :
    ∃ a s', Onward s a ∧ Hmcs.step s a = some s' := by
  obtain ⟨u, hu, hspins⟩ := h.not_all_spin ht
  by_cases hholding : ∃ g, s.pc u = .holding g
  · obtain ⟨g, hg⟩ := hholding
    exact ⟨.unlock u, _, trivial, by simp only [Hmcs.step, hg]; rfl⟩
  · have hfailed : s.pc u ≠ .failed := fun hpc => by
      have := h.good u
      rwa [Good, hpc] at this
    have hrun : ∃ s', runThread s u = some s' := by
      rw [runThread]
      cases hpc : s.pc u <;> dsimp only
      case idle => exact absurd hpc hu
      case holding g => exact absurd ⟨g, hpc⟩ hholding
      case failed => exact absurd hpc hfailed
      all_goals
        first
        | exact ⟨_, rfl⟩
        | (split <;> first | exact ⟨_, rfl⟩ | (split <;> exact ⟨_, rfl⟩))
    obtain ⟨s', hs'⟩ := hrun
    exact ⟨.run u, s', hspins, hs'⟩

/-! ### Whole runs -/

/-- All threads but these are idle. -/
def Busy (s : State Thread Socket) (threads : Finset Thread) : Prop :=
  ∀ u, u ∉ threads → s.pc u = .idle

/-- A loop gone through in vain changes nothing. -/
theorem run_spins (hstep : runThread s t = some s') (hspins : Spins s t) : s' = s := by
  rw [runThread] at hstep
  rw [Spins] at hspins
  cases hpc : s.pc t <;> simp only [hpc] at hstep hspins
  case wait g =>
    rw [if_pos hspins] at hstep
    exact (Option.some.inj hstep).symm
  case gwait g =>
    rw [hspins, if_neg Bool.false_ne_true] at hstep
    exact (Option.some.inj hstep).symm
  case gwaitNext g | waitNext g =>
    rw [if_pos hspins] at hstep
    exact (Option.some.inj hstep).symm

/-- A step is one thread's. -/
theorem step_others {a : Action Thread Socket} (hstep : Hmcs.step s a = some s') :
    ∃ u, ∀ v, v ≠ u → s'.pc v = s.pc v := by
  by_cases hgo : Onward s a
  · obtain ⟨u, p, -, hadvance⟩ := step_advance hgo hstep
    exact ⟨u, fun v hv => by rw [hadvance.pc, Function.update_of_ne hv]⟩
  · cases a with
    | lock u g b =>
        rw [Hmcs.step] at hstep
        split at hstep
        · obtain rfl := Option.some.inj hstep
          exact ⟨u, fun v hv => Function.update_of_ne hv ..⟩
        · cases hstep
    | unlock u => exact absurd trivial hgo
    | run u => exact ⟨u, fun v _ => by rw [run_spins hstep (not_not.mp hgo)]⟩

theorem reachable_busy (h : (@machine Thread Socket _ _).Reachable s) :
    ∃ threads, Busy s threads := by
  refine h.invariant (I := fun s => ∃ threads, Busy s threads) ?_ ?_
  · rintro s ⟨next, status, gnext, gstatus, rfl⟩
    exact ⟨∅, fun _ _ => rfl⟩
  · rintro s a s' ⟨threads, hbusy⟩ - hstep
    obtain ⟨u, hothers⟩ := step_others hstep
    refine ⟨insert u threads, fun v hv => ?_⟩
    obtain ⟨hvu, hnot⟩ := not_or.mp (Finset.mem_insert.not.mp hv)
    rw [hothers v hvu]
    exact hbusy v hnot

/-- The thread has called `hmcs_mutex_lock`, and `k` bounds the steps that all have left. -/
def Waits (t : Thread) (s : State Thread Socket) (k : Nat) : Prop :=
  (∃ lq gq, Inv s lq gq) ∧ ((s.pc t).locking = true ∨ ∃ g, s.pc t = .holding g) ∧
    ∃ threads, Busy s threads ∧ k = ∑ u ∈ threads, (s.pc u).left

theorem Waits.step {k : Nat} (h : Waits t s k) (hlocking : (s.pc t).locking = true)
    {a : Action Thread Socket} (hgo : Onward s a) (hstep : Hmcs.step s a = some s') :
    ∃ k', Waits t s' k' ∧ k' < k := by
  obtain ⟨⟨lq, gq, hinv⟩, -, threads, hbusy, rfl⟩ := h
  obtain ⟨lq', gq', hinv', -⟩ := hinv.step hstep
  obtain ⟨u, p, hu, hadvance⟩ := step_advance hgo hstep
  have hmem : u ∈ threads := by
    by_contra hnot
    exact hu (hbusy u hnot)
  have hpc' : ∀ v, s'.pc v = if v = u then p else s.pc v := fun v => by
    rw [hadvance.pc, Function.update_apply]
  refine ⟨_, ⟨⟨lq', gq', hinv'⟩, ?_, threads, fun v hv => ?_, rfl⟩, ?_⟩
  · rw [hpc']
    split
    · rename_i htu
      subst htu
      exact hadvance.locking hlocking
    · exact Or.inl hlocking
  · rw [hpc', if_neg (ne_of_mem_of_not_mem hmem hv).symm]
    exact hbusy v hv
  · refine Finset.sum_lt_sum (fun v _ => ?_) ⟨u, hmem, ?_⟩
    · rw [hpc']
      split
      · rename_i hvu
        rw [hvu]
        exact hadvance.less.le
      · exact Nat.le_refl _
    · rw [hpc', if_pos rfl]
      exact hadvance.less

/-- **Whoever calls `hmcs_mutex_lock` gets the lock.**  Once no new calls come in and whoever has
the lock unlocks, a thread in `hmcs_mutex_lock` has the lock after finitely many steps, in whatever
order the threads take them, and loops gone through in vain not counted; and until then some thread
can go on. -/
theorem hmcs_acquires (h : (@machine Thread Socket _ _).Reachable s)
    (hlocking : (s.pc t).locking = true) :
    (@machine Thread Socket _ _).Inevitable Onward (fun s => ∃ g, s.pc t = .holding g) s := by
  obtain ⟨lq, gq, hinv, -⟩ := reachable_inv h
  obtain ⟨threads, hbusy⟩ := reachable_busy h
  refine System.inevitable_of_rank Nat.lt_wfRel.wf (Waits t) ?_ ?_ _ s
    ⟨⟨lq, gq, hinv⟩, Or.inl hlocking, threads, hbusy, rfl⟩
  · rintro s k ⟨⟨lq, gq, hinv⟩, hask, -⟩ hnot
    refine hinv.can_go_on (t := t) fun hidle => ?_
    have := hask.resolve_right hnot
    rw [hidle] at this
    cases this
  · intro s k a s' hw hnot hgo hstep
    exact hw.step (hw.2.1.resolve_right hnot) hgo hstep

/-- All three threads wait: for the lock, in the queue of the socket, and for the global lock. -/
theorem hmcs_acquires_waiting : ∃ s, machine.exec start waitingRun = some s ∧
    s.pc 1 = .wait false ∧ s.pc 2 = .gwait true ∧
    (@machine Nat Bool _ _).Inevitable Onward (fun s => ∃ g, s.pc 2 = .holding g) s := by
  refine ⟨_, rfl, rfl, rfl, hmcs_acquires ⟨start, ⟨_, _, _, _, rfl⟩, ?_⟩ rfl⟩
  exact System.path_of_exec waitingRun rfl

end Progress

end Dal.Hmcs
