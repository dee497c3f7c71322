/-
The tree while only one client works on it.

Every lock is free, held by that client, or about to be freed by a write it has posted;
none is handed over, since nobody waits.  Memory never fills up, because a state reached by
finitely many steps has finitely many pages.  So the client is never stuck: it can take its
next step, or one of its posted writes can be executed first.
-/
import Dal.Tree.Session
import Mathlib.Data.Finset.Insert

namespace Dal.Tree

/-- There are addresses nobody has used. -/
def Room (mem : GlobalAddress → Option Page) : Prop := ∃ n, ∀ a, n ≤ a.offset → mem a = none

/-- All posted writes of 0 are to locks in `ls`. -/
def PostedIn (ls : Finset LockAddr) (locks : LockAddr → Lock) : Prop :=
  ∀ l w, locks l = .posted w → l ∈ ls

/-- Client `c` is the only one at work, and the index cache is off. -/
structure Alone (cfg : Config) (c : Client) (s : State) : Prop where
  others : ∀ d, d ≠ c → ∃ r, (s.clients d).pc = .idle r
  locks : ∀ l, s.locks l = .free ∨ (∃ w, s.locks l = .posted w) ∨
    (s.clients c).pc.holds cfg = some l
  mode : ∀ p mode after, (s.clients c).pc = .unlock p mode after → mode ≠ .handover
  posted : ∃ ls, PostedIn ls s.locks
  room : Room s.mem
  cacheOff : ∀ n, (s.directory n).enableCache = false

section Room

variable {mem : GlobalAddress → Option Page}

theorem Room.exists_fresh (h : Room mem) : ∃ fresh, mem fresh = none ∧ fresh ≠ .Null := by
  obtain ⟨n, hn⟩ := h
  refine ⟨⟨0, n + 1⟩, hn _ (Nat.le_succ n), fun hnull => ?_⟩
  have hoffset : n + 1 = 0 := congrArg GlobalAddress.offset hnull
  cases hoffset

theorem Room.update (h : Room mem) (a : GlobalAddress) (page : Option Page) :
    Room (Function.update mem a page) := by
  obtain ⟨n, hn⟩ := h
  refine ⟨max n (a.offset + 1), fun b hb => ?_⟩
  have hba : b ≠ a := by
    intro hba
    subst hba
    omega
  rw [Function.update_of_ne hba]
  exact hn b (by omega)

theorem Room.commit {s : State} (h : Room s.mem) (p : GlobalAddress) (out : Outcome) :
    Room (s.commit p out).mem := by
  cases out with
  | entry i r => exact h.update p _
  | page page => exact h.update p _
  | _ => exact h

end Room

theorem PostedIn.setLock {ls : Finset LockAddr} {locks : LockAddr → Lock} (h : PostedIn ls locks)
    (l : LockAddr) (x : Lock) : PostedIn (insert l ls) (Function.update locks l x) := by
  intro k w hk
  by_cases hkl : k = l
  · exact hkl ▸ Finset.mem_insert_self l ls
  · rw [Function.update_of_ne hkl] at hk
    exact Finset.mem_insert_of_mem (h k w hk)

/-! ### Where no lock is held -/

section Holds

variable {cfg : Config} {s : State} {c : Client}

theorem start_holds : (start s c).holds cfg = none := by
  unfold start
  simp only
  split <;> rfl

theorem searchCache_holds : (searchCache s c).holds cfg = none := by
  unfold searchCache
  simp only
  split <;> rfl

theorem restart_holds (x : Local) : (restart x).holds cfg = none := by
  unfold restart
  split <;> rfl

theorem pageRead_holds {p : GlobalAddress} {goal : Goal}
    (hpc : (s.clients c).pc = .descend p goal) : (pageRead s c p goal).pc.holds cfg = none := by
  unfold pageRead
  simp only
  split
  · rfl
  · split
    · split
      · rfl
      · split
        · rfl
        · exact afterSearch_holds ..
      · exact afterSearch_holds ..
    · show (s.clients c).pc.holds cfg = none
      rw [hpc]
      rfl

/-- Nobody waits, so nothing is handed over. -/
theorem Alone.not_handover (h : Alone cfg c s) {p : GlobalAddress} {waiter : Option Client}
    {async : Bool} {mode : Release} (hpc : ∀ q task, (s.clients c).pc ≠ .lock q task)
    (hmode : release cfg s c p waiter async = some mode) : mode ≠ .handover := by
  intro hhandover
  subst hhandover
  unfold release at hmode
  split at hmode
  · split at hmode <;> cases hmode
  · rename_i u
    split at hmode
    · rename_i q task hu
      by_cases huc : u = c
      · subst huc
        exact hpc q task hu
      · obtain ⟨r, hr⟩ := h.others u huc
        rw [hr] at hu
        cases hu
    · cases hmode

end Holds

section Step

variable {cfg : Config} {s s' : State} {c : Client}

/-- A step after which the locks are what they were, and the client holds what it held. -/
theorem Alone.keep (h : Alone cfg c s) (hothers : ∀ d, d ≠ c → s'.clients d = s.clients d)
    (hlocks : s'.locks = s.locks)
    (hholds : (s'.clients c).pc.holds cfg = (s.clients c).pc.holds cfg)
    (hmode : ∀ p mode after, (s'.clients c).pc = .unlock p mode after → mode ≠ .handover)
    (hroom : Room s'.mem) (hdir : s'.directory = s.directory) : Alone cfg c s' where
  others d hd := by
    rw [hothers d hd]
    exact h.others d hd
  locks l := by
    rw [hlocks, hholds]
    exact h.locks l
  mode := hmode
  posted := by
    rw [hlocks]
    exact h.posted
  room := hroom
  cacheOff n := by
    rw [hdir]
    exact h.cacheOff n

/-- A step that makes something else of one lock. -/
theorem Alone.turn (h : Alone cfg c s) (hothers : ∀ d, d ≠ c → s'.clients d = s.clients d)
    (l : LockAddr) (x : Lock) (hlocks : s'.locks = Function.update s.locks l x)
    (hx : x = .free ∨ (∃ w, x = .posted w) ∨ (s'.clients c).pc.holds cfg = some l)
    (hholds : ∀ k, (s.clients c).pc.holds cfg = some k → k = l)
    (hmode : ∀ p mode after, (s'.clients c).pc ≠ .unlock p mode after)
    (hmem : s'.mem = s.mem) (hdir : s'.directory = s.directory) : Alone cfg c s' where
  others d hd := by
    rw [hothers d hd]
    exact h.others d hd
  locks k := by
    rw [hlocks]
    by_cases hk : k = l
    · subst hk
      rw [Function.update_self]
      exact hx
    · rw [Function.update_of_ne hk]
      rcases h.locks k with hfree | hposted | hheld
      · exact Or.inl hfree
      · exact Or.inr (Or.inl hposted)
      · exact absurd (hholds k hheld) hk
  mode p mode after hpc := absurd hpc (hmode p mode after)
  posted := by
    obtain ⟨ls, hls⟩ := h.posted
    rw [hlocks]
    exact ⟨_, hls.setLock l x⟩
  room := by
    rw [hmem]
    exact h.room
  cacheOff n := by
    rw [hdir]
    exact h.cacheOff n

/-- The client takes a step and does not fail. -/
theorem Alone.run (h : Alone cfg c s) {fresh : GlobalAddress} {waiter : Option Client}
    (hstep : runClient cfg s c fresh waiter = some s')
    (hrunning : ∀ why, (s'.clients c).pc ≠ .failed why) : Alone cfg c s' := by
  have hothers := (run_frame hstep).2
  have hturn := run_turned hstep
  -- a client that holds no lock is not about to let one go
  have hnone : ∀ {pc : Pc}, pc.holds cfg = none → ∀ p mode after, pc ≠ .unlock p mode after := by
    intro pc hholds p mode after hpc
    rw [hpc] at hholds
    cases hholds
  have hidle : s'.locks = s.locks → (s.clients c).pc.holds cfg = none →
      (s'.clients c).pc.holds cfg = none → Room s'.mem → s'.directory = s.directory →
      Alone cfg c s' := fun hlocks hbefore hafter hroom hdir =>
    h.keep hothers hlocks (hafter.trans hbefore.symm)
      (fun p mode after hpc => absurd hpc (hnone hafter p mode after)) hroom hdir
  generalize hpc : (s.clients c).pc = pc at hturn
  cases hturn with
  | start => exact hidle rfl (by rw [hpc]; rfl) (by rw [setPc_self]; exact start_holds) h.room rfl
  | toRead use hroot => exact hidle rfl (by rw [hpc]; rfl) (by rw [setPc_self]; rfl) h.room rfl
  | known use hroot | readRoot use =>
      exact hidle rfl (by rw [hpc]; rfl) (by rw [setClient_self, rooted_holds]) h.room rfl
  | searchCache =>
      exact hidle rfl (by rw [hpc]; rfl) (by rw [setPc_self]; exact searchCache_holds) h.room rfl
  | descend p goal =>
      exact hidle rfl (by rw [hpc]; rfl) (by rw [setClient_self]; exact pageRead_holds hpc)
        h.room rfl
  | caching p page goal result hok =>
      exact hidle rfl (by rw [hpc]; rfl) (by rw [setPc_self, afterSearch_holds]) h.room rfl
  | invalidate entry =>
      exact hidle rfl (by rw [hpc]; rfl) (by rw [setPc_self]; exact restart_holds _) h.room rfl
  | grow p task splitKey sibling hmem hnull =>
      exact hidle rfl (by rw [hpc]; rfl) (by rw [setPc_self]; rfl) (h.room.update fresh _) rfl
  | installed p task splitKey sibling newRoot hroot =>
      exact hidle rfl (by rw [hpc]; rfl) (by rw [setPc_self]; rfl) h.room rfl
  | overtaken p task splitKey sibling newRoot hroot =>
      exact hidle rfl (by rw [hpc]; rfl) (by rw [setPc_self, postUp_holds]) h.room rfl
  | cachingError p page goal why herror => exact absurd (setPc_self _ _) (hrunning why)
  | unmapped p task hmem => exact absurd (setPc_self _ _) (hrunning .unmapped)
  | fail p task page why hout => exact absurd (setPc_self _ _) (hrunning why)
  | read p task page hmem =>
      apply h.keep hothers rfl
      · rw [setPc_self, hpc]
        rfl
      · intro q mode after hq
        rw [setPc_self] at hq
        cases hq
      · exact h.room
      · rfl
  | split p task page left right splitKey hout hmem hnull =>
      apply h.keep hothers rfl
      · rw [setPc_self, hpc]
        rfl
      · intro q mode after hq
        rw [setPc_self] at hq
        cases hq
      · exact h.room.update fresh _
      · rfl
  | loaded p task page mode after async hafter hmode =>
      apply h.keep hothers
      · rw [commit_eq]
        rfl
      · rw [setPc_self, hpc]
        rfl
      · intro q mode' after' hq
        rw [setPc_self] at hq
        cases hq
        exact h.not_handover (fun q task hq => by rw [hpc] at hq; cases hq) hmode
      · exact h.room.commit p _
      · rw [commit_eq]
        rfl
  | linked p task page left right splitKey sibling mode hout hmode =>
      apply h.keep hothers rfl
      · rw [setPc_self, hpc]
        rfl
      · intro q mode' after' hq
        rw [setPc_self] at hq
        cases hq
        exact h.not_handover (fun q task hq => by rw [hpc] at hq; cases hq) hmode
      · exact h.room.update p _
      · rfl
  | lock p task hlock =>
      apply h.turn hothers (cfg.lockAddr p) (.held c) rfl
      · rw [setPc_self]
        exact Or.inr (Or.inr rfl)
      · intro k hk
        rw [hpc] at hk
        cases hk
      · intro q mode after hq
        rw [setPc_self] at hq
        cases hq
      · rfl
      · rfl
  | posting p task page left right splitKey sibling hout hasync =>
      apply h.turn hothers (cfg.lockAddr p) _ rfl (Or.inr (Or.inl ⟨_, rfl⟩))
      · intro k hk
        rw [hpc] at hk
        cases hk
        rfl
      · rw [setPc_self]
        exact hnone (afterUnlock_holds cfg _)
      · rfl
      · rfl
  | unlock p mode after =>
      apply h.turn hothers (cfg.lockAddr p) (mode.lock c.node) rfl
      · cases mode with
        | sync => exact Or.inl rfl
        | async => exact Or.inr (Or.inl ⟨none, rfl⟩)
        | handover => exact absurd rfl (h.mode p .handover after hpc)
      · intro k hk
        rw [hpc] at hk
        cases hk
        rfl
      · rw [setPc_self]
        exact hnone (afterUnlock_holds cfg _)
      · rfl
      · rfl

/-- The client makes a call. -/
theorem Alone.call (h : Alone cfg c s) {op : Op} (hstep : step cfg s (.call c op) = some s') :
    Alone cfg c s' := by
  simp only [step] at hstep
  split at hstep
  · rename_i r hpc
    split at hstep
    · cases hstep
      refine h.keep (fun d hd => Function.update_of_ne hd ..) rfl ?_ ?_ h.room rfl
      · rw [setClient_self, hpc]
        cases op <;> rfl
      · intro p mode after hp
        rw [setClient_self] at hp
        cases op <;> cases hp
    · cases hstep
  · cases hstep

/-- A posted write is executed. -/
theorem Alone.land (h : Alone cfg c s) {l : LockAddr} (hstep : step cfg s (.land l) = some s') :
    Alone cfg c s' := by
  have hset : ∀ (mem : GlobalAddress → Option Page) (x : Lock), Room mem →
      x = .free ∨ (∃ w, x = .posted w) →
      Alone cfg c { s with mem := mem, locks := Function.update s.locks l x } := by
    intro mem x hroom hx
    refine ⟨h.others, fun k => ?_, h.mode, ?_, hroom, h.cacheOff⟩
    · show Function.update s.locks l x k = _ ∨ (∃ w, Function.update s.locks l x k = _) ∨ _
      by_cases hk : k = l
      · subst hk
        rw [Function.update_self]
        exact hx.imp_right Or.inl
      · rw [Function.update_of_ne hk]
        exact h.locks k
    · obtain ⟨ls, hls⟩ := h.posted
      exact ⟨_, hls.setLock l x⟩
  simp only [step] at hstep
  split at hstep
  · cases hstep
    exact hset _ _ (h.room.update _ _) (Or.inr ⟨none, rfl⟩)
  · cases hstep
    exact hset _ _ h.room (Or.inl rfl)
  · cases hstep

/-- A message is processed, with the cache off. -/
theorem Alone.deliver (h : Alone cfg c s) {message : Nat × GlobalAddress × Nat}
    (hstep : step cfg s (.deliver message) = some s') : Alone cfg c s'.cacheOff := by
  obtain ⟨n, a, l⟩ := message
  simp only [step] at hstep
  split at hstep
  · cases hstep
    exact ⟨h.others, h.locks, h.mode, h.posted, h.room, fun _ => rfl⟩
  · cases hstep

end Step

end Dal.Tree
