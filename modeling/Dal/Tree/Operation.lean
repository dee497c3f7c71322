/-
The life of one operation.

Between its call and its return a client is at first still looking for the leaf of its
key, and then, once the leaf is written, cleaning up after itself: letting locks go and
posting separators.  `Pc.uncommitted` tells the two apart.  An `insert` or `del` leaves
the first phase only by the one step that carries it out, so when it returns it has
been carried out exactly once.
-/
import Dal.Tree.Step
import Dal.Tree.Turn

namespace Dal.Tree

/-- The operation has not been carried out yet. -/
def Pc.uncommitted : Pc → Bool
  | .idle _ | .failed _ | .grow .. | .casRoot .. => false
  | .start | .searchCache | .invalidate _ => true
  | .getRoot use | .readRoot use => use.pending.isNone
  | .descend _ goal | .caching _ _ goal => goal.pending.isNone
  | .lock _ task | .read _ task | .loaded _ task _ | .linked _ task _ _ => task.pending.isNone
  | .unlock _ _ .done | .unlock _ _ (.split ..) => false
  | .unlock _ _ (.stale _) => true
  | .unlock _ _ (.right task _) => task.pending.isNone

/-- What a step of a client that serves an `insert` or a `del` makes of the two phases. -/
def Pc.Moved (pc pc' : Pc) (committed : Bool) : Prop :=
  if pc.uncommitted then
    if committed then pc'.uncommitted = false else pc'.uncommitted = true ∨ ∃ why, pc' = .failed why
  else committed = false ∧ pc'.uncommitted = false

section Moved

variable {x : Local} {p : GlobalAddress} {goal : Goal}

theorem afterSearch_moved (hup : x.op.updates = true) (result : Option SearchResult) :
    (afterSearch x p goal result).uncommitted = goal.pending.isNone ∨
      ∃ why, afterSearch x p goal result = .failed why := by
  cases hop : x.op with
  | search k => rw [hop] at hup; cases hup
  | insert k v | del k =>
      cases result with
      | none => cases goal <;> simp only [afterSearch, hop] <;> exact Or.inl rfl
      | some result =>
          cases goal <;> simp only [afterSearch, hop] <;> repeat' split
          all_goals first | exact Or.inl rfl | exact Or.inr ⟨_, rfl⟩

theorem postUp_moved (task : Task) (k : Nat) (sibling : GlobalAddress) :
    (postUp x task k sibling).uncommitted = false := by
  rcases postUp_cases x task k sibling with ⟨-, h⟩ | ⟨-, -, h⟩ | ⟨-, -, why, -, h⟩ <;> rw [h] <;> rfl

theorem afterUnlock_moved (mode : Release) (after : After) :
    (afterUnlock x after).uncommitted = (Pc.unlock p mode after).uncommitted ∨
      ∃ why, afterUnlock x after = .failed why := by
  cases after with
  | done => exact Or.inl rfl
  | stale entry => exact Or.inl rfl
  | right task sibling =>
      simp only [afterUnlock]
      split
      · exact Or.inr ⟨_, rfl⟩
      · refine Or.inl ?_
        rw [Pc.uncommitted, uncached_pending]
        rfl
  | split q task splitKey sibling =>
      simp only [afterUnlock]
      split
      · exact Or.inl rfl
      · exact Or.inl (postUp_moved task splitKey sibling)

theorem rooted_moved (root : GlobalAddress) (use : RootUse) :
    (rooted x root use).pc.uncommitted = use.pending.isNone := by
  unfold rooted
  repeat' split
  all_goals rfl

/-- A step that carries nothing out and stays in its phase, unless it fails. -/
theorem Pc.Moved.of_eq {pc pc' : Pc}
    (h : pc'.uncommitted = pc.uncommitted ∨ ∃ why, pc' = .failed why) : pc.Moved pc' false := by
  unfold Pc.Moved
  cases hpc : pc.uncommitted with
  | true => exact h.imp_left fun heq => heq.trans hpc
  | false =>
      refine ⟨rfl, ?_⟩
      rcases h with heq | ⟨why, rfl⟩
      · exact heq.trans hpc
      · rfl

end Moved

section Run

variable {cfg : Config} {s s' : State} {m : Chart} {c : Client}

/-- A client's step leaves the other clients, and its own operation, alone. -/
theorem run_frame {fresh : GlobalAddress} {waiter : Option Client}
    (hstep : runClient cfg s c fresh waiter = some s') :
    (s'.clients c).op = (s.clients c).op ∧ ∀ d, d ≠ c → s'.clients d = s.clients d := by
  have hset : ∀ (t : State) (x : Local), t.clients = s.clients → x.op = (s.clients c).op →
      ((t.setClient c x).clients c).op = (s.clients c).op ∧
        ∀ d, d ≠ c → (t.setClient c x).clients d = s.clients d := by
    intro t x ht hx
    refine ⟨?_, fun d hd => ?_⟩
    · rw [show (t.setClient c x).clients c = x from Function.update_self ..]
      exact hx
    · rw [show (t.setClient c x).clients d = t.clients d from Function.update_of_ne hd ..]
      rw [ht]
  have hturn := run_turned hstep
  generalize (s.clients c).pc = pc at hturn
  cases hturn with
  | known use hroot | readRoot use => exact hset _ _ rfl (rooted_op _ use)
  | descend p goal =>
      apply hset _ _ rfl
      unfold pageRead
      simp only
      repeat' split
      all_goals rfl
  | loaded p task page mode after async hafter hmode =>
      rw [commit_eq]
      exact hset _ _ rfl rfl
  | _ => exact hset _ _ rfl rfl

/-- The two phases, over one step under the lock. -/
theorem Inv.loaded_moved (h : Inv cfg s m) {p : GlobalAddress} {task : Task} {page : Page}
    (fresh : GlobalAddress) (waiter : Option Client)
    (hpc : (s.clients c).pc = .loaded p task page)
    (hstep : Tree.loaded cfg s c p task page fresh waiter = some s') :
    (s.clients c).pc.Moved (s'.clients c).pc (commits s (.run c fresh waiter)).isSome := by
  have htask := h.pc c
  rw [hpc] at htask
  obtain ⟨htask, hpage⟩ := htask
  have hheld : s.locks (cfg.lockAddr p) = .held c := h.held c _ (by rw [hpc]; rfl)
  have hcommits : commits s (.run c fresh waiter) =
      commitsBy (s.clients c).op (task.outcome (s.clients c).op page) := by simp only [commits, hpc]
  rw [hcommits, hpc]
  unfold Tree.loaded at hstep
  rcases h.outcome htask (by rw [hpc]; rfl) hheld hpage with
    ⟨x, lpage, -, -, rfl, -, -, hpending, hresult⟩ |
    ⟨x, ipage, below, k, v, -, -, rfl, -, rfl, hresult⟩
  · have hbefore : (Pc.loaded p task (.leaf lpage)).uncommitted = true := by
      rw [Pc.uncommitted, hpending]
      rfl
    generalize task.outcome (s.clients c).op (.leaf lpage) = out at hresult hstep
    unfold Pc.Moved
    rw [if_pos hbefore]
    cases hresult with
    | stale hcached hk =>
        obtain ⟨mode, -, rfl⟩ := Option.map_eq_some_iff.mp hstep
        rw [setPc_self]
        exact Or.inl rfl
    | right hcached hk =>
        obtain ⟨mode, -, rfl⟩ := Option.map_eq_some_iff.mp hstep
        rw [setPc_self]
        exact Or.inl hbefore
    | entry i r hk hleaf hchanged =>
        obtain ⟨mode, -, rfl⟩ := Option.map_eq_some_iff.mp hstep
        rw [setPc_self]
        rfl
    | absent hk hnone habsent =>
        obtain ⟨mode, -, rfl⟩ := Option.map_eq_some_iff.mp hstep
        rw [setPc_self]
        rfl
    | split mid left right splitKey hk hdr hsplit hchanged hstored =>
        simp only at hstep
        split at hstep
        · cases hstep
          rw [setPc_self]
          exact Or.inl hbefore
        · cases hstep
  · generalize (Task.internalStore k v (below + 1)).outcome (s.clients c).op (.internal ipage) = out
      at hresult hstep
    cases hresult with
    | right hk =>
        obtain ⟨mode, -, rfl⟩ := Option.map_eq_some_iff.mp hstep
        rw [setPc_self]
        exact .of_eq (Or.inl rfl)
    | page page' hk hint hdr hrecords =>
        obtain ⟨mode, -, rfl⟩ := Option.map_eq_some_iff.mp hstep
        rw [setPc_self]
        exact .of_eq (Or.inl rfl)
    | split left right splitKey hk hsplit =>
        simp only at hstep
        split at hstep
        · cases hstep
          rw [setPc_self]
          exact .of_eq (Or.inl rfl)
        · cases hstep

theorem Inv.linked_moved (h : Inv cfg s m) {p sibling : GlobalAddress} {task : Task} {page : Page}
    (fresh : GlobalAddress) (waiter : Option Client)
    (hpc : (s.clients c).pc = .linked p task page sibling)
    (hstep : Tree.linked cfg s c p task page sibling waiter = some s') :
    (s.clients c).pc.Moved (s'.clients c).pc (commits s (.run c fresh waiter)).isSome := by
  have htask := h.pc c
  rw [hpc] at htask
  obtain ⟨htask, -, left, right, k, hout, -⟩ := htask
  have hafter : (s'.clients c).pc.uncommitted = false := by
    simp only [Tree.linked, hout] at hstep
    obtain ⟨mode, -, rfl⟩ := Option.map_eq_some_iff.mp hstep
    cases mode with
    | async =>
        simp only [writeSplit, setPc_self, afterUnlock]
        split
        · rfl
        · exact postUp_moved task k sibling
    | handover | sync =>
        simp only [writeSplit, setPc_self]
        rfl
  rw [hpc]
  unfold Pc.Moved
  cases task with
  | leafStore cached =>
      simp only [commits, hpc]
      exact hafter
  | leafDel cached =>
      -- a deletion never splits
      cases page with
      | internal page => cases hout
      | leaf page =>
          simp only [Task.outcome, LeafPage.del] at hout
          split at hout <;> try cases hout
          split at hout <;> try cases hout
          split at hout <;> try cases hout
          split at hout <;> try cases hout
          split at hout <;> try cases hout
          split at hout <;> cases hout
  | internalStore k v level =>
      simp only [commits, hpc]
      exact ⟨rfl, hafter⟩

/-- **A client that serves an `insert` or a `del` goes through the two phases**, and from the
first to the second by carrying its operation out. -/
theorem Inv.moved (h : Inv cfg s m) {fresh : GlobalAddress} {waiter : Option Client}
    (hup : (s.clients c).op.updates = true) (hstep : runClient cfg s c fresh waiter = some s') :
    (s.clients c).pc.Moved (s'.clients c).pc (commits s (.run c fresh waiter)).isSome := by
  unfold runClient at hstep
  cases hpc : (s.clients c).pc with
  | idle response | failed why => simp only [hpc] at hstep; cases hstep
  | start =>
      simp only [hpc, Option.some.injEq] at hstep
      subst hstep
      simp only [commits, hpc, setPc_self]
      refine .of_eq (Or.inl ?_)
      unfold start
      simp only
      split <;> rfl
  | getRoot use =>
      simp only [hpc] at hstep
      simp only [commits, hpc]
      split at hstep <;> cases hstep
      · rw [setPc_self]
        exact .of_eq (Or.inl rfl)
      · rw [setClient_self]
        exact .of_eq (Or.inl (rooted_moved _ use))
  | readRoot use =>
      simp only [hpc, Option.some.injEq] at hstep
      subst hstep
      simp only [commits, hpc]
      rw [setClient_self]
      exact .of_eq (Or.inl (rooted_moved _ use))
  | searchCache =>
      simp only [hpc, Option.some.injEq] at hstep
      subst hstep
      simp only [commits, hpc, setPc_self]
      refine .of_eq (Or.inl ?_)
      unfold searchCache
      simp only
      split <;> rfl
  | descend p goal =>
      simp only [hpc, Option.some.injEq] at hstep
      subst hstep
      simp only [commits, hpc, setClient_self]
      refine .of_eq ?_
      unfold pageRead
      simp only
      split
      · exact Or.inr ⟨_, rfl⟩
      · split
        · split
          · exact Or.inr ⟨_, rfl⟩
          · split
            · exact Or.inl rfl
            · exact afterSearch_moved hup _
          · exact afterSearch_moved hup _
        · rw [hpc]
          exact Or.inl rfl
  | caching p page goal =>
      simp only [hpc, Option.some.injEq] at hstep
      subst hstep
      simp only [commits, hpc, Tree.caching]
      refine .of_eq ?_
      split
      · rw [setPc_self]
        exact Or.inr ⟨_, rfl⟩
      · rw [setPc_self]
        exact afterSearch_moved hup _
  | invalidate entry =>
      simp only [hpc, Option.some.injEq] at hstep
      subst hstep
      simp only [commits, hpc, setPc_self]
      refine .of_eq (Or.inl ?_)
      unfold restart
      split <;> rfl
  | lock p task =>
      simp only [hpc] at hstep
      simp only [commits, hpc]
      have hread : s' = (s.setLock (cfg.lockAddr p) (.held c)).setPc c (.read p task) := by
        split at hstep
        · exact (Option.some_inj.mp hstep).symm
        · split at hstep
          · exact (Option.some_inj.mp hstep).symm
          · cases hstep
        · cases hstep
      rw [hread, setPc_self]
      exact .of_eq (Or.inl rfl)
  | read p task =>
      simp only [hpc] at hstep
      simp only [commits, hpc]
      split at hstep <;> cases hstep <;> rw [setPc_self]
      · exact .of_eq (Or.inr ⟨_, rfl⟩)
      · exact .of_eq (Or.inl rfl)
  | loaded p task page =>
      simp only [hpc] at hstep
      have := h.loaded_moved fresh waiter hpc hstep
      rwa [hpc] at this
  | linked p task page sibling =>
      simp only [hpc] at hstep
      have := h.linked_moved fresh waiter hpc hstep
      rwa [hpc] at this
  | unlock p mode after =>
      simp only [hpc, Option.some.injEq] at hstep
      subst hstep
      simp only [commits, hpc, Tree.unlock, setPc_self]
      exact .of_eq (afterUnlock_moved mode after)
  | grow p task splitKey sibling =>
      simp only [hpc] at hstep
      simp only [commits, hpc]
      split at hstep
      · cases hstep
        rw [setPc_self]
        exact .of_eq (Or.inl rfl)
      · cases hstep
  | casRoot p task splitKey sibling root =>
      simp only [hpc, Option.some.injEq] at hstep
      subst hstep
      simp only [commits, hpc, casRoot]
      refine .of_eq (Or.inl ?_)
      split <;> rw [setPc_self]
      · rfl
      · exact postUp_moved task splitKey sibling

end Run

end Dal.Tree
