/-
Nobody waits in vain.

A lock that is held is held by a client on its way to letting it go; one that was handed
over was handed to a node where somebody waits for it; and a posted release is executed
sooner or later.  So a client that waits for a lock can always still get it, and with
OwnSteps.lean a call can always still be brought to its end: there is no deadlock, and no
state from which a client can only go round in circles.
-/
import Dal.Tree.OwnSteps

namespace Dal.Tree

/-- A client of the node waits for the lock. -/
def Awaited (cfg : Config) (s : State) (node : Nat) (l : LockAddr) : Prop :=
  ∃ u q task, u.node = node ∧ (s.clients u).pc = .lock q task ∧ cfg.lockAddr q = l

/-- Whoever has a lock is going to let it go, and nothing is handed to nobody. -/
structure Tended (cfg : Config) (s : State) : Prop where
  holder : ∀ l c, s.locks l = .held c → (s.clients c).pc.holds cfg = some l
  handing : ∀ c p after, (s.clients c).pc = .unlock p .handover after →
    Awaited cfg s c.node (cfg.lockAddr p)
  handed : ∀ l node, s.locks l = .handed node → Awaited cfg s node l
  room : Room s.mem

section Tended

variable {cfg : Config} {s s' : State} {m : Chart} {c : Client}

/-- A client that waits goes on waiting while another one moves. -/
theorem Awaited.keep {node : Nat} {l : LockAddr} (h : Awaited cfg s node l)
    (hothers : ∀ d, d ≠ c → s'.clients d = s.clients d)
    (hc : ∀ q task, (s.clients c).pc = .lock q task → cfg.lockAddr q ≠ l) :
    Awaited cfg s' node l := by
  obtain ⟨u, q, task, hnode, hpc, hq⟩ := h
  have huc : u ≠ c := by
    rintro rfl
    exact hc q task hpc hq
  exact ⟨u, q, task, hnode, by rw [hothers u huc]; exact hpc, hq⟩

/-- A step that leaves the locks alone. -/
theorem Tended.keep (h : Tended cfg s) (hothers : ∀ d, d ≠ c → s'.clients d = s.clients d)
    (hlocks : s'.locks = s.locks)
    (hholds : (s'.clients c).pc.holds cfg = (s.clients c).pc.holds cfg)
    (hwait : ∀ q task, (s.clients c).pc ≠ .lock q task)
    (hhanding : ∀ p after, (s'.clients c).pc = .unlock p .handover after →
      Awaited cfg s c.node (cfg.lockAddr p))
    (hroom : Room s'.mem) : Tended cfg s' where
  holder l d hl := by
    rw [hlocks] at hl
    by_cases hdc : d = c
    · subst hdc
      rw [hholds]
      exact h.holder l d hl
    · rw [hothers d hdc]
      exact h.holder l d hl
  handing d p after hpc := by
    have hkeep : Awaited cfg s d.node (cfg.lockAddr p) → Awaited cfg s' d.node (cfg.lockAddr p) :=
      fun ha => ha.keep hothers fun q task hq => absurd hq (hwait q task)
    by_cases hdc : d = c
    · subst hdc
      exact hkeep (hhanding p after hpc)
    · rw [hothers d hdc] at hpc
      exact hkeep (h.handing d p after hpc)
  handed l node hl := by
    rw [hlocks] at hl
    exact (h.handed l node hl).keep hothers fun q task hq => absurd hq (hwait q task)
  room := hroom

/-- A client lets its lock go. -/
theorem Tended.letGo (h : Tended cfg s) (hothers : ∀ d, d ≠ c → s'.clients d = s.clients d)
    {l : LockAddr} {x : Lock} (hlocks : s'.locks = Function.update s.locks l x)
    (hx : ∀ d, x ≠ .held d) (hhanded : ∀ node, x = .handed node → Awaited cfg s node l)
    (hholds : (s.clients c).pc.holds cfg = some l) (hafter : (s'.clients c).pc.holds cfg = none)
    (hmem : s'.mem = s.mem) : Tended cfg s' := by
  have hwait : ∀ q task, (s.clients c).pc ≠ .lock q task := by
    intro q task hpc
    rw [hpc] at hholds
    cases hholds
  have hkeep : ∀ {node k}, Awaited cfg s node k → Awaited cfg s' node k := fun ha =>
    ha.keep hothers fun q task hq => absurd hq (hwait q task)
  refine ⟨fun k d hk => ?_, fun d p after hpc => ?_, fun k node hk => ?_, hmem ▸ h.room⟩
  · rw [hlocks] at hk
    by_cases hkl : k = l
    · subst hkl
      rw [Function.update_self] at hk
      exact absurd hk (hx d)
    · rw [Function.update_of_ne hkl] at hk
      have hheld := h.holder k d hk
      by_cases hdc : d = c
      · subst hdc
        rw [hholds] at hheld
        exact absurd (Option.some_inj.mp hheld).symm hkl
      · rw [hothers d hdc]
        exact hheld
  · by_cases hdc : d = c
    · subst hdc
      rw [hpc] at hafter
      cases hafter
    · rw [hothers d hdc] at hpc
      exact hkeep (h.handing d p after hpc)
  · rw [hlocks] at hk
    by_cases hkl : k = l
    · subst hkl
      rw [Function.update_self] at hk
      exact hkeep (hhanded node hk)
    · rw [Function.update_of_ne hkl] at hk
      exact hkeep (h.handed k node hk)

/-- A client takes a lock. -/
theorem Tended.take (h : Tended cfg s) (hheld : ClientsOk cfg s m)
    (hothers : ∀ d, d ≠ c → s'.clients d = s.clients d) {p : GlobalAddress} {task : Task}
    (hpc : (s.clients c).pc = .lock p task) (hpc' : (s'.clients c).pc = .read p task)
    (hlock : s.locks (cfg.lockAddr p) = .free ∨ s.locks (cfg.lockAddr p) = .handed c.node)
    (hlocks : s'.locks = Function.update s.locks (cfg.lockAddr p) (.held c))
    (hmem : s'.mem = s.mem) : Tended cfg s' := by
  have hkeep : ∀ {node k}, k ≠ cfg.lockAddr p → Awaited cfg s node k → Awaited cfg s' node k :=
    fun hk ha => ha.keep hothers fun q task hq => by
      rw [hpc] at hq
      cases hq
      exact hk.symm
  refine ⟨fun k d hk => ?_, fun d q after hq => ?_, fun k node hk => ?_, hmem ▸ h.room⟩
  · rw [hlocks] at hk
    by_cases hkp : k = cfg.lockAddr p
    · subst hkp
      rw [Function.update_self] at hk
      cases hk
      rw [hpc']
      rfl
    · rw [Function.update_of_ne hkp] at hk
      have hholds := h.holder k d hk
      by_cases hdc : d = c
      · subst hdc
        rw [hpc] at hholds
        cases hholds
      · rw [hothers d hdc]
        exact hholds
  · by_cases hdc : d = c
    · subst hdc
      rw [hpc'] at hq
      cases hq
    · rw [hothers d hdc] at hq
      refine hkeep (fun heq => ?_) (h.handing d q after hq)
      -- the lock would be held and not be held
      have hlocked := hheld.held d (cfg.lockAddr q) (by rw [hq]; rfl)
      rw [heq] at hlocked
      rcases hlock with hfree | hhanded
      · rw [hfree] at hlocked
        cases hlocked
      · rw [hhanded] at hlocked
        cases hlocked
  · rw [hlocks] at hk
    by_cases hkp : k = cfg.lockAddr p
    · subst hkp
      rw [Function.update_self] at hk
      cases hk
    · rw [Function.update_of_ne hkp] at hk
      exact hkeep hkp (h.handed k node hk)

/-- Somebody waits for a lock that is about to be handed over. -/
theorem release_awaited {p : GlobalAddress} {waiter : Option Client} {async : Bool}
    (h : release cfg s c p waiter async = some .handover) :
    Awaited cfg s c.node (cfg.lockAddr p) := by
  unfold release at h
  split at h
  · split at h <;> cases h
  · rename_i u
    split at h
    · rename_i q task hu
      split at h
      · rename_i hsame
        exact ⟨u, q, task, hsame.2.1, hu, hsame.2.2⟩
      · cases h
    · cases h

theorem Tended.run (h : Tended cfg s) (hinv : Inv cfg s m) {fresh : GlobalAddress}
    {waiter : Option Client} (hstep : runClient cfg s c fresh waiter = some s') :
    Tended cfg s' := by
  have hothers := (run_frame hstep).2
  have hturn := run_turned hstep
  have hok := hinv.pc c
  obtain ⟨m', hadv⟩ := hinv.run hstep
  have hok' := hadv.inv.pc c
  -- a client that holds no lock before or after the step
  have hidle : s'.locks = s.locks → (s.clients c).pc.holds cfg = none →
      (s'.clients c).pc.holds cfg = none → (∀ q task, (s.clients c).pc ≠ .lock q task) →
      Room s'.mem → Tended cfg s' := fun hlocks hbefore hafter hwait hroom =>
    h.keep hothers hlocks (hafter.trans hbefore.symm) hwait
      (fun p after hpc => by rw [hpc] at hafter; cases hafter) hroom
  generalize hpc : (s.clients c).pc = pc at hturn hok
  have hwait : (∀ q task, pc ≠ .lock q task) → ∀ q task, (s.clients c).pc ≠ .lock q task :=
    fun hne q task => hpc ▸ hne q task
  have hbefore : pc.holds cfg = none → (s.clients c).pc.holds cfg = none := fun hnone =>
    hpc ▸ hnone
  cases hturn with
  | start =>
      exact hidle rfl (hbefore rfl) (by rw [setPc_self]; exact start_holds)
        (hwait fun q task hq => by cases hq) h.room
  | toRead use hroot =>
      exact hidle rfl (hbefore rfl) (by rw [setPc_self]; rfl) (hwait fun q task hq => by cases hq)
        h.room
  | known use hroot | readRoot use =>
      exact hidle rfl (hbefore rfl) (by rw [setClient_self, rooted_holds])
        (hwait fun q task hq => by cases hq) h.room
  | searchCache =>
      exact hidle rfl (hbefore rfl) (by rw [setPc_self]; exact searchCache_holds)
        (hwait fun q task hq => by cases hq) h.room
  | descend p goal =>
      exact hidle rfl (hbefore rfl) (by rw [setClient_self]; exact pageRead_holds hpc)
        (hwait fun q task hq => by cases hq) h.room
  | cachingError p page goal why herror =>
      exact hidle rfl (hbefore rfl) (by rw [setPc_self]; rfl) (hwait fun q task hq => by cases hq)
        h.room
  | caching p page goal result hresult =>
      exact hidle rfl (hbefore rfl) (by rw [setPc_self, afterSearch_holds])
        (hwait fun q task hq => by cases hq) h.room
  | invalidate entry =>
      exact hidle rfl (hbefore rfl) (by rw [setPc_self]; exact restart_holds _)
        (hwait fun q task hq => by cases hq) h.room
  | grow p task splitKey sibling hmem hnull =>
      exact hidle rfl (hbefore rfl) (by rw [setPc_self]; rfl) (hwait fun q task hq => by cases hq)
        (h.room.update fresh _)
  | installed p task splitKey sibling newRoot hroot =>
      exact hidle rfl (hbefore rfl) (by rw [setPc_self]; rfl) (hwait fun q task hq => by cases hq)
        h.room
  | overtaken p task splitKey sibling newRoot hroot =>
      exact hidle rfl (hbefore rfl) (by rw [setPc_self, postUp_holds])
        (hwait fun q task hq => by cases hq) h.room
  | unmapped p task hmem =>
      obtain ⟨y, hy⟩ := TaskOk.level hok
      obtain ⟨page, hpage, -⟩ := hinv.shape.page p _ y hy
      rw [hmem] at hpage
      cases hpage
  | fail p task page why hout =>
      rw [setPc_self] at hok'
      exact absurd hout (outcome_fail hok')
  | read p task page hmem =>
      refine h.keep hothers rfl (by rw [setPc_self, hpc]; rfl) (hwait fun q task hq => by cases hq)
        (fun q after hq => ?_) h.room
      rw [setPc_self] at hq
      cases hq
  | split p task page left right splitKey hout hmem hnull =>
      refine h.keep hothers rfl (by rw [setPc_self, hpc]; rfl) (hwait fun q task hq => by cases hq)
        (fun q after hq => ?_) (h.room.update fresh _)
      rw [setPc_self] at hq
      cases hq
  | loaded p task page mode after async hafter hmode =>
      refine h.keep hothers (by rw [commit_eq]; rfl) (by rw [setPc_self, hpc]; rfl)
        (hwait fun q task hq => by cases hq) (fun q after hq => ?_) (h.room.commit p _)
      rw [setPc_self] at hq
      cases hq
      exact release_awaited hmode
  | linked p task page left right splitKey sibling mode hout hmode =>
      refine h.keep hothers rfl (by rw [setPc_self, hpc]; rfl) (hwait fun q task hq => by cases hq)
        (fun q after hq => ?_) (h.room.update p _)
      rw [setPc_self] at hq
      cases hq
      exact release_awaited hmode
  | lock p task hlock =>
      exact h.take hinv.toClientsOk hothers hpc (setPc_self _ _) hlock rfl rfl
  | posting p task page left right splitKey sibling hout hasync =>
      exact h.letGo hothers rfl (fun d hd => by cases hd) (fun node hn => by cases hn)
        (by rw [hpc]; rfl) (by rw [setPc_self]; exact afterUnlock_holds cfg _) rfl
  | unlock p mode after =>
      refine h.letGo hothers rfl (fun d hd => ?_) (fun node hn => ?_) (by rw [hpc]; rfl)
        (by rw [setPc_self]; exact afterUnlock_holds cfg _) rfl
      · cases mode <;> cases hd
      · cases mode with
        | handover =>
            cases hn
            exact h.handing c p after hpc
        | sync | async => cases hn

theorem Tended.step (h : Tended cfg s) (hinv : Inv cfg s m) {action : Action}
    (hstep : Tree.step cfg s action = some s') : Tended cfg s' := by
  cases action with
  | run c fresh waiter => exact h.run hinv hstep
  | call c op =>
      simp only [Tree.step] at hstep
      split at hstep
      · rename_i r hpc
        split at hstep
        · cases hstep
          refine h.keep (fun d hd => Function.update_of_ne hd ..) rfl ?_
            (fun q task hq => by rw [hpc] at hq; cases hq) ?_ h.room
          · rw [setClient_self, hpc]
            cases op <;> rfl
          · intro p after hp
            rw [setClient_self] at hp
            cases op <;> cases hp
        · cases hstep
      · cases hstep
  | land l =>
      have hset : ∀ (mem : GlobalAddress → Option Page) (x : Lock), Room mem →
          (∀ c, x ≠ .held c) → (∀ node, x ≠ .handed node) →
          Tended cfg { s with mem := mem, locks := Function.update s.locks l x } := by
        intro mem x hroom hheld hhanded
        refine ⟨fun k c hk => ?_, h.handing, fun k node hk => ?_, hroom⟩ <;>
          change Function.update s.locks l x k = _ at hk <;> by_cases hkl : k = l
        · subst hkl
          rw [Function.update_self] at hk
          exact absurd hk (hheld c)
        · rw [Function.update_of_ne hkl] at hk
          exact h.holder k c hk
        · subst hkl
          rw [Function.update_self] at hk
          exact absurd hk (hhanded node)
        · rw [Function.update_of_ne hkl] at hk
          exact h.handed k node hk
      simp only [Tree.step] at hstep
      split at hstep
      · cases hstep
        exact hset _ _ (h.room.update _ _) (fun c hc => by cases hc) (fun n hn => by cases hn)
      · cases hstep
        exact hset _ _ h.room (fun c hc => by cases hc) (fun n hn => by cases hn)
      · cases hstep
  | deliver message =>
      obtain ⟨n, a, l⟩ := message
      simp only [Tree.step] at hstep
      split at hstep <;> cases hstep
      exact ⟨h.holder, h.handing, h.handed, h.room⟩
  | evict n entry =>
      cases hstep
      exact ⟨h.holder, h.handing, h.handed, h.room⟩

theorem reachable_tended (hs : (machine cfg).Reachable s) : Tended cfg s := by
  have hboth : (∃ m, Inv cfg s m) ∧ Tended cfg s := by
    refine System.ReachableBy.invariant (I := fun s => (∃ m, Inv cfg s m) ∧ Tended cfg s) hs ?_ ?_
    · rintro s ⟨root, hroot, rfl⟩
      refine ⟨⟨_, inv_init cfg hroot⟩, fun l c hl => (by cases hl), fun c p after hpc => (by cases hpc),
        fun l node hl => (by cases hl), root.offset + 1, fun a ha => if_neg fun har => ?_⟩
      subst har
      omega
    · rintro s action s' ⟨⟨m, hinv⟩, h⟩ - hstep
      obtain ⟨m', hadv⟩ := hinv.step hstep
      exact ⟨⟨m', hadv.inv⟩, h.step hinv hstep⟩
  exact hboth.2

/-! ### A lock becomes free -/

/-- A client that neither waits for a lock nor is at its end can take a step. -/
theorem Inv.can_run (h : Inv cfg s m) (hroom : Room s.mem)
    (hlock : ∀ p task, (s.clients c).pc ≠ .lock p task) (hidle : ∀ r, (s.clients c).pc ≠ .idle r)
    (hfailed : ∀ why, (s.clients c).pc ≠ .failed why) :
    ∃ fresh s', runClient cfg s c fresh none = some s' := by
  obtain ⟨fresh, hfresh⟩ := hroom.exists_fresh
  refine ⟨fresh, Option.ne_none_iff_exists'.mp fun hnone => ?_⟩
  unfold runClient at hnone
  cases hpc : (s.clients c).pc with
  | idle r => exact hidle r hpc
  | failed why => exact hfailed why hpc
  | lock p task => exact hlock p task hpc
  | getRoot use =>
      simp only [hpc] at hnone
      split at hnone <;> cases hnone
  | read p task =>
      simp only [hpc] at hnone
      split at hnone <;> cases hnone
  | loaded p task page =>
      simp only [hpc, Tree.loaded, release] at hnone
      split at hnone
      any_goals cases hnone
      rw [if_pos hfresh] at hnone
      cases hnone
  | linked p task page sibling =>
      have hok := h.pc c
      rw [hpc] at hok
      obtain ⟨-, -, left, right, splitKey, hout, -⟩ := hok
      simp only [hpc, Tree.linked, release, hout] at hnone
      cases hnone
  | grow p task splitKey sibling =>
      simp only [hpc, if_pos hfresh] at hnone
      cases hnone
  | _ =>
      simp only [hpc] at hnone
      cases hnone

/-- Neither `c` moves, nor is anybody called. -/
def Others (c : Client) (_ : State) : Action → Prop
  | .call _ _ => False
  | .run d _ _ => d ≠ c
  | _ => True

theorem Others.left {b : ℕ × ℕ × ℕ × ℕ} (hpath : (machine cfg).Path (Others c) s s')
    (h : Left cfg c s b) : Left cfg c s' b ∧ s'.clients c = s.clients c := by
  refine hpath.invariant (I := fun t => Left cfg c t b ∧ t.clients c = s.clients c) ⟨h, rfl⟩ ?_
  rintro t action t' ⟨hleft, hsame⟩ hothers hstep
  have hrun : ∀ fresh waiter, action ≠ .run c fresh waiter := by
    rintro fresh waiter rfl
    exact hothers rfl
  have hcall : ∀ op, action ≠ .call c op := by
    rintro op rfl
    exact hothers
  refine ⟨hleft.other hrun hcall hstep, ?_⟩
  rcases clients_of_step hstep c with ⟨fresh, waiter, h⟩ | ⟨op, h⟩ | hc
  · exact absurd h (hrun fresh waiter)
  · exact absurd h (hcall op)
  · exact hc.trans hsame

/-- The call has returned, or it has failed an assertion at the end of a split. -/
def Ended (c : Client) (s : State) : Prop :=
  (∃ r, (s.clients c).pc = .idle r) ∨ ∃ why, Posting why ∧ (s.clients c).pc = .failed why

end Tended

end Dal.Tree
