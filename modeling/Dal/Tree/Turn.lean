/-
What a step of a client does.

`runClient` is one function with a branch for each program counter, and every proof about
runs would have to take it apart.  `Turned` does so once: it lists what a step can make of
the state, with what the branch has tested, and the proofs split on it.
-/
import Dal.Tree.Machine

namespace Dal.Tree

/-- What follows the release of the lock, for a page on which nothing is split. -/
def Task.after (task : Task) : Outcome → Option After
  | .stale => some (.stale task.entry)
  | .right sibling => some (.right task sibling)
  | .absent | .entry .. | .page _ => some .done
  | .fail _ | .split .. => none

/-- The page is written, if the outcome says so and it is not split. -/
def State.commit (s : State) (p : GlobalAddress) : Outcome → State
  | .entry i r => { s with mem := Function.update s.mem p ((s.mem p).map (Page.setEntry i r)) }
  | .page page => s.write p (.internal page)
  | _ => s

/-- The state after the next step of client `c`. -/
inductive Turned (cfg : Config) (s : State) (c : Client) (fresh : GlobalAddress)
    (waiter : Option Client) : Pc → State → Prop
  | start : Turned cfg s c fresh waiter .start (s.setPc c (start s c))
  | toRead (use : RootUse) (hroot : (s.directory c.node).rootPtr = .Null) :
      Turned cfg s c fresh waiter (.getRoot use) (s.setPc c (.readRoot use))
  | known (use : RootUse) (hroot : (s.directory c.node).rootPtr ≠ .Null) :
      Turned cfg s c fresh waiter (.getRoot use)
        (s.setClient c (rooted (s.clients c) (s.directory c.node).rootPtr use))
  | readRoot (use : RootUse) :
      Turned cfg s c fresh waiter (.readRoot use)
        (s.setClient c (rooted (s.clients c) s.rootPtr use))
  | searchCache : Turned cfg s c fresh waiter .searchCache (s.setPc c (searchCache s c))
  | descend (p : GlobalAddress) (goal : Goal) :
      Turned cfg s c fresh waiter (.descend p goal) (s.setClient c (pageRead s c p goal))
  | cachingError (p : GlobalAddress) (page : InternalPage) (goal : Goal) (why : Assertion)
      (herror : pageSearch (.internal page) (goal.key (s.clients c).op) goal.fromCache = .error why) :
      Turned cfg s c fresh waiter (.caching p page goal)
        ((s.setCache c.node ((s.cache c.node).addToCache page)).setPc c (.failed why))
  | caching (p : GlobalAddress) (page : InternalPage) (goal : Goal) (result : Option SearchResult)
      (hok : pageSearch (.internal page) (goal.key (s.clients c).op) goal.fromCache = .ok result) :
      Turned cfg s c fresh waiter (.caching p page goal)
        ((s.setCache c.node ((s.cache c.node).addToCache page)).setPc c
          (afterSearch (s.clients c) p goal result))
  | invalidate (entry : Nat × Nat) :
      Turned cfg s c fresh waiter (.invalidate entry)
        ((s.setCache c.node ((s.cache c.node).invalidate entry.1 entry.2)).setPc c
          (restart (s.clients c)))
  | lock (p : GlobalAddress) (task : Task)
      (hlock : s.locks (cfg.lockAddr p) = .free ∨ s.locks (cfg.lockAddr p) = .handed c.node) :
      Turned cfg s c fresh waiter (.lock p task)
        ((s.setLock (cfg.lockAddr p) (.held c)).setPc c (.read p task))
  | unmapped (p : GlobalAddress) (task : Task) (hmem : s.mem p = none) :
      Turned cfg s c fresh waiter (.read p task) (s.setPc c (.failed .unmapped))
  | read (p : GlobalAddress) (task : Task) (page : Page) (hmem : s.mem p = some page) :
      Turned cfg s c fresh waiter (.read p task) (s.setPc c (.loaded p task page))
  | fail (p : GlobalAddress) (task : Task) (page : Page) (why : Assertion)
      (hout : task.outcome (s.clients c).op page = .fail why) :
      Turned cfg s c fresh waiter (.loaded p task page) (s.setPc c (.failed why))
  | loaded (p : GlobalAddress) (task : Task) (page : Page) (mode : Release) (after : After)
      (async : Bool) (hafter : task.after (task.outcome (s.clients c).op page) = some after)
      (hmode : release cfg s c p waiter async = some mode) :
      Turned cfg s c fresh waiter (.loaded p task page)
        ((s.commit p (task.outcome (s.clients c).op page)).setPc c (.unlock p mode after))
  | split (p : GlobalAddress) (task : Task) (page left right : Page) (splitKey : Nat)
      (hout : task.outcome (s.clients c).op page = .split left right splitKey)
      (hmem : s.mem fresh = none) (hnull : fresh ≠ .Null) :
      Turned cfg s c fresh waiter (.loaded p task page)
        ((s.write fresh right).setPc c (.linked p task page fresh))
  | posting (p : GlobalAddress) (task : Task) (page left right : Page) (splitKey : Nat)
      (sibling : GlobalAddress)
      (hout : task.outcome (s.clients c).op page = .split left right splitKey)
      (hasync : cfg.batched = true ∧ waiter = none) :
      Turned cfg s c fresh waiter (.linked p task page sibling)
        ((s.setLock (cfg.lockAddr p) (.posted (some (p, left.link sibling)))).setPc c
          (afterUnlock (s.clients c) (.split p task splitKey sibling)))
  | linked (p : GlobalAddress) (task : Task) (page left right : Page) (splitKey : Nat)
      (sibling : GlobalAddress) (mode : Release)
      (hout : task.outcome (s.clients c).op page = .split left right splitKey)
      (hmode : release cfg s c p waiter cfg.batched = some mode) :
      Turned cfg s c fresh waiter (.linked p task page sibling)
        ((s.write p (left.link sibling)).setPc c
          (.unlock p mode (.split p task splitKey sibling)))
  | unlock (p : GlobalAddress) (mode : Release) (after : After) :
      Turned cfg s c fresh waiter (.unlock p mode after)
        ((s.setLock (cfg.lockAddr p) (mode.lock c.node)).setPc c
          (afterUnlock (s.clients c) after))
  | grow (p : GlobalAddress) (task : Task) (splitKey : Nat) (sibling : GlobalAddress)
      (hmem : s.mem fresh = none) (hnull : fresh ≠ .Null) :
      Turned cfg s c fresh waiter (.grow p task splitKey sibling)
        ((s.write fresh (newRoot p splitKey sibling (task.level + 1))).setPc c
          (.casRoot p task splitKey sibling fresh))
  | installed (p : GlobalAddress) (task : Task) (splitKey : Nat) (sibling newRoot : GlobalAddress)
      (hroot : s.rootPtr = (s.clients c).root) :
      Turned cfg s c fresh waiter (.casRoot p task splitKey sibling newRoot)
        ({ s with
          rootPtr := newRoot
          messages := s.messages ++
            (List.range cfg.machineNR).map fun n => (n, newRoot, task.level + 1) }.setPc c
          (.idle (some .done)))
  | overtaken (p : GlobalAddress) (task : Task) (splitKey : Nat) (sibling newRoot : GlobalAddress)
      (hroot : s.rootPtr ≠ (s.clients c).root) :
      Turned cfg s c fresh waiter (.casRoot p task splitKey sibling newRoot)
        (s.setPc c (postUp (s.clients c) task splitKey sibling))

section Turned

variable {cfg : Config} {s s' : State} {c : Client}

theorem setClient_self (t : State) (x : Local) : (t.setClient c x).clients c = x :=
  Function.update_self ..

theorem setPc_self (t : State) (pc : Pc) : ((t.setPc c pc).clients c).pc = pc :=
  congrArg Local.pc (setClient_self t { t.clients c with pc := pc })

/-- Writing the page changes memory only. -/
theorem commit_eq (t : State) (p : GlobalAddress) (out : Outcome) :
    t.commit p out = { t with mem := (t.commit p out).mem } := by
  cases out <;> rfl

theorem release_async {p : GlobalAddress} {waiter : Option Client} {async : Bool}
    (h : release cfg s c p waiter async = some .async) : async = true ∧ waiter = none := by
  unfold release at h
  split at h
  · split at h
    · exact ⟨by assumption, rfl⟩
    · cases h
  · split at h
    · split at h <;> cases h
    · cases h

/-- The step from a page that was read under its lock. -/
theorem loaded_turned {p : GlobalAddress} {task : Task} {page : Page} {fresh : GlobalAddress}
    {waiter : Option Client} (hstep : loaded cfg s c p task page fresh waiter = some s') :
    Turned cfg s c fresh waiter (.loaded p task page) s' := by
  unfold Tree.loaded at hstep
  have hgo : ∀ {out after async} {t : State}, task.outcome (s.clients c).op page = out →
      task.after out = some after → (release cfg s c p waiter async).map (fun mode =>
        (s.commit p out).setPc c (.unlock p mode after)) = some t →
      Turned cfg s c fresh waiter (.loaded p task page) t := by
    intro out after async t hout hafter hmap
    obtain ⟨mode, hmode, rfl⟩ := Option.map_eq_some_iff.mp hmap
    subst hout
    exact .loaded p task page mode after async hafter hmode
  split at hstep <;> rename_i hout
  · cases hstep
    exact .fail p task page _ hout
  · exact hgo hout rfl hstep
  · exact hgo hout rfl hstep
  · exact hgo hout rfl hstep
  · exact hgo hout rfl hstep
  · exact hgo hout rfl hstep
  · split at hstep
    · rename_i hfresh
      cases hstep
      exact .split p task page _ _ _ hout hfresh.1 hfresh.2
    · cases hstep

/-- The write of a page that was split. -/
theorem linked_turned {p sibling : GlobalAddress} {task : Task} {page : Page}
    {fresh : GlobalAddress} {waiter : Option Client}
    (hstep : linked cfg s c p task page sibling waiter = some s') :
    Turned cfg s c fresh waiter (.linked p task page sibling) s' := by
  unfold Tree.linked at hstep
  split at hstep
  · rename_i hout
    obtain ⟨mode, hmode, rfl⟩ := Option.map_eq_some_iff.mp hstep
    cases mode with
    | async => exact .posting p task page _ _ _ sibling hout (release_async hmode)
    | handover | sync => exact .linked p task page _ _ _ sibling _ hout hmode
  · cases hstep

/-- **What a step of a client does.** -/
theorem run_turned {fresh : GlobalAddress} {waiter : Option Client}
    (hstep : runClient cfg s c fresh waiter = some s') :
    Turned cfg s c fresh waiter (s.clients c).pc s' := by
  unfold runClient at hstep
  cases hpc : (s.clients c).pc with
  | idle response | failed why => simp only [hpc] at hstep; cases hstep
  | start =>
      simp only [hpc, Option.some.injEq] at hstep
      subst hstep
      exact .start
  | getRoot use =>
      simp only [hpc] at hstep
      split at hstep <;> rename_i hroot <;> cases hstep
      · exact .toRead use hroot
      · exact .known use hroot
  | readRoot use =>
      simp only [hpc, Option.some.injEq] at hstep
      subst hstep
      exact .readRoot use
  | searchCache =>
      simp only [hpc, Option.some.injEq] at hstep
      subst hstep
      exact .searchCache
  | descend p goal =>
      simp only [hpc, Option.some.injEq] at hstep
      subst hstep
      exact .descend p goal
  | caching p page goal =>
      simp only [hpc, Option.some.injEq, Tree.caching] at hstep
      subst hstep
      split <;> rename_i hsearch
      · exact .cachingError p page goal _ hsearch
      · exact .caching p page goal _ hsearch
  | invalidate entry =>
      simp only [hpc, Option.some.injEq] at hstep
      subst hstep
      exact .invalidate entry
  | lock p task =>
      simp only [hpc] at hstep
      split at hstep
      · rename_i hfree
        cases hstep
        exact .lock p task (Or.inl hfree)
      · rename_i n hhanded
        split at hstep
        · rename_i hn
          cases hstep
          exact .lock p task (Or.inr (hn ▸ hhanded))
        · cases hstep
      · cases hstep
  | read p task =>
      simp only [hpc] at hstep
      split at hstep <;> rename_i hmem <;> cases hstep
      · exact .unmapped p task hmem
      · exact .read p task _ hmem
  | loaded p task page =>
      simp only [hpc] at hstep
      exact loaded_turned hstep
  | linked p task page sibling =>
      simp only [hpc] at hstep
      exact linked_turned hstep
  | unlock p mode after =>
      simp only [hpc, Option.some.injEq, Tree.unlock] at hstep
      subst hstep
      exact .unlock p mode after
  | grow p task splitKey sibling =>
      simp only [hpc] at hstep
      split at hstep
      · rename_i hfresh
        cases hstep
        exact .grow p task splitKey sibling hfresh.1 hfresh.2
      · cases hstep
  | casRoot p task splitKey sibling root =>
      simp only [hpc, Option.some.injEq, casRoot] at hstep
      subst hstep
      split <;> rename_i hroot
      · exact .installed p task splitKey sibling root hroot
      · exact .overtaken p task splitKey sibling root hroot

/-- No client touches the directories, and the root pointer and the messages change by a successful
compare-and-swap only. -/
theorem Turned.shared {fresh : GlobalAddress} {waiter : Option Client} {pc : Pc}
    (h : Turned cfg s c fresh waiter pc s') :
    s'.directory = s.directory ∧ ((s'.rootPtr = s.rootPtr ∧ s'.messages = s.messages) ∨
      ∃ p task splitKey sibling newRoot, pc = .casRoot p task splitKey sibling newRoot ∧
        s.rootPtr = (s.clients c).root ∧ s'.rootPtr = newRoot ∧ s'.mem = s.mem ∧
        s'.messages = s.messages ++
          (List.range cfg.machineNR).map (fun n => (n, newRoot, task.level + 1)) ∧
        (s'.clients c).pc = .idle (some .done)) := by
  cases h with
  | installed p task splitKey sibling newRoot hroot =>
      exact ⟨rfl, Or.inr ⟨p, task, splitKey, sibling, newRoot, rfl, hroot, rfl, rfl, rfl, setPc_self _ _⟩⟩
  | loaded p task page mode after async hafter hmode =>
      rw [commit_eq]
      exact ⟨rfl, Or.inl ⟨rfl, rfl⟩⟩
  | _ => exact ⟨rfl, Or.inl ⟨rfl, rfl⟩⟩

end Turned

end Dal.Tree
