/-
A call with a cache of any content.

The cache of a node holds copies of pages of level 1, taken at any time, and what a client is
told by an old copy it checks: the leaf's fences tell it that the copy was stale, and it starts
again at the root.  So while nobody else is at work a call does the same whatever the cache
holds: it does to the map that the tree stands for what the operation is to do.  An empty cache
knows nothing, so that is also what the call does when it starts at the root.

What may go wrong is what may go wrong without a cache: that a split is finished on the level
of a root that is not the root any more.
-/
import Dal.Tree.RangeQuery
import Dal.Tree.Unblock
import Dal.Tree.Linearizable
import Dal.Tree.Crowded

namespace Dal.Tree

/-! ### What the cache may hold -/

section Built

variable {cfg : Config} {s : State} {m m' : Chart} {cache : IndexCache}

/-- The pages of the tree are on every chart of it. -/
theorem Inv.chart_le (h : Inv cfg s m) (h' : Inv cfg s m') : m.Le m' := by
  rintro a ⟨l, x⟩ ha
  obtain ⟨top, hview⟩ := h'.viewOk_content
  obtain ⟨y, hy⟩ := hview.linked (h.linked_of_chart ha)
  obtain ⟨page, hpage, hok⟩ := h.shape.content_ok ha
  rw [← hok.lowest, (hview.ok hy hpage).lowest]
  exact hy

end Built

/-! ### What the call does -/

/-- Nobody but `c` is at work, and nobody is called; a read of a page comes after the writes of it
that were posted. -/
def Undisturbed (cfg : Config) (c : Client) (s : State) : Action → Prop
  | .call _ _ => False
  | .run d _ _ => d = c ∧ s.lagging cfg c = false
  | .land _ | .deliver _ | .evict _ _ => True

/-- The call is on its way, or has returned what it should; `map` is what the tree held before. -/
structure Attended (cfg : Config) (c : Client) (map : Nat → Option Nat) (s : State) (m : Chart) :
    Prop where
  inv : Inv cfg s m
  running : ∀ why, (s.clients c).pc ≠ .failed why
  holds : ∀ k v, Holds cfg s m k v ↔ carried (s.clients c).op (s.clients c).pc map k = some v
  answered : ∀ r, (s.clients c).pc = .idle r → ∃ r', r = some r' ∧
    mapObject.Apply map (s.clients c).op r' (carried (s.clients c).op (s.clients c).pc map)

section Attended

variable {cfg : Config} {s s' : State} {m : Chart} {c : Client} {map : Nat → Option Nat}

theorem Attended.run (h : Attended cfg c map s m) {fresh : GlobalAddress} {waiter : Option Client}
    (hlag : s.lagging cfg c = false) (hgrows : Grows cfg s (.run c fresh waiter))
    (hstep : runClient cfg s c fresh waiter = some s') : ∃ m', Attended cfg c map s' m' := by
  obtain ⟨m', hadv⟩ := h.inv.run hstep
  have hop := (run_frame (c := c) hstep).1
  have hrunning : ∀ why, (s'.clients c).pc ≠ .failed why := by
    intro why hfailed
    have hwhy := hadv.inv.pc c
    rw [hfailed] at hwhy
    exact run_grows hwhy hgrows hstep hfailed
  have hholds := h.inv.carried hstep hadv hrunning h.holds
  refine ⟨m', hadv.inv, hrunning, fun k v => by rw [hop]; exact hholds k v, fun r hidle => ?_⟩
  rw [hop, hidle]
  cases hup : (s.clients c).op.updates with
  | true =>
      obtain rfl := run_returns_done hup hstep hidle
      rw [carried_idle_update hup]
      exact ⟨.done, rfl, apply_update hup map⟩
  | false =>
      rw [carried_search hup]
      cases hsearch : (s.clients c).op with
      | search k =>
          refine apply_search (fun v => ?_) (h.inv.search_returns hsearch
            (fun p goal hpc => content_of_not_lagging hlag hpc) hstep hidle)
          rw [h.holds, carried_search hup]
      | insert k v | del k =>
          rw [hsearch] at hup
          cases hup

/-- A step of nobody. -/
theorem Attended.pass (h : Attended cfg c map s m) {m' : Chart} (hadv : Advance cfg s m s' m' none)
    (hsame : s'.clients c = s.clients c) : Attended cfg c map s' m' := by
  refine ⟨hadv.inv, ?_, fun k v => ?_, ?_⟩
  · rw [hsame]
    exact h.running
  · rw [hadv.holds, hsame]
    exact h.holds k v
  · rw [hsame]
    exact h.answered

theorem Attended.step (h : Attended cfg c map s m) {action : Action}
    (hquiet : Undisturbed cfg c s action) (hgrows : Grows cfg s action)
    (hstep : step cfg s action = some s') : ∃ m', Attended cfg c map s' m' := by
  cases action with
  | call d op => exact hquiet.elim
  | run d fresh waiter =>
      obtain ⟨rfl, hlag⟩ := hquiet
      exact h.run hlag hgrows hstep
  | land l | deliver message | evict n entry =>
      obtain ⟨m', hadv⟩ := h.inv.step hstep
      refine ⟨m', h.pass hadv ?_⟩
      rcases clients_of_step hstep c with ⟨fresh, waiter, heq⟩ | ⟨op, heq⟩ | hsame
      · cases heq
      · cases heq
      · exact hsame

theorem Attended.path (h : Attended cfg c map s m)
    (hpath : (machine cfg).Path (fun s action => Undisturbed cfg c s action ∧ Grows cfg s action)
      s s') : ∃ m', Attended cfg c map s' m' ∧ (s'.clients c).op = (s.clients c).op := by
  refine hpath.invariant (I := fun t => ∃ m', Attended cfg c map t m' ∧
    (t.clients c).op = (s.clients c).op) ⟨m, h, rfl⟩ ?_
  rintro t action t' ⟨m', ht, hop⟩ ⟨hquiet, hgrows⟩ hstep
  obtain ⟨m'', ht'⟩ := ht.step hquiet hgrows hstep
  refine ⟨m'', ht', Eq.trans ?_ hop⟩
  rcases clients_of_step hstep c with ⟨fresh, waiter, rfl⟩ | ⟨op, rfl⟩ | hsame
  · exact (run_frame (c := c) hstep).1
  · exact hquiet.elim
  · rw [hsame]

end Attended

/-! ### When an assertion fails -/

section Failing

variable {cfg : Config} {s s' : State} {c : Client} {x : Local} {task : Task}

end Failing

/-! ### The call comes to its end -/

/-- Steps of `c`, and writes that were posted. -/
def Own (cfg : Config) (c : Client) (s : State) : Action → Prop
  | .run d _ _ => d = c ∧ s.lagging cfg c = false
  | .land _ => True
  | .call _ _ | .deliver _ | .evict _ _ => False

/-- Nothing is in the way of client `c`: an `insert` or `del` needs locks, so nobody else may be
at work. -/
structure Unhindered (cfg : Config) (c : Client) (s : State) : Prop where
  tended : Tended cfg s
  others : (s.clients c).op.updates = true → ∀ d, d ≠ c → ∃ r, (s.clients d).pc = .idle r

section Posted

variable {cfg : Config} {s s' : State} {c : Client}

/-- A step posts one write at most. -/
theorem posted_step {action : Action} (h : ∃ ls, PostedIn ls s.locks)
    (hstep : step cfg s action = some s') : ∃ ls, PostedIn ls s'.locks := by
  obtain ⟨ls, hls⟩ := h
  cases action with
  | run d fresh waiter =>
      have hturn := run_turned hstep
      generalize (s.clients d).pc = pc at hturn
      cases hturn with
      | lock p task hlock | posting | unlock p mode after => exact ⟨_, hls.setLock _ _⟩
      | loaded p task page mode after async hafter hmode =>
          rw [commit_eq]
          exact ⟨ls, hls⟩
      | _ => exact ⟨ls, hls⟩
  | land l =>
      simp only [step] at hstep
      split at hstep <;> cases hstep <;> exact ⟨_, hls.setLock _ _⟩
  | call d op =>
      simp only [step] at hstep
      split at hstep
      · split at hstep <;> cases hstep
        exact ⟨ls, hls⟩
      · cases hstep
  | deliver message =>
      obtain ⟨n, a, l⟩ := message
      simp only [step] at hstep
      split at hstep <;> cases hstep
      exact ⟨ls, hls⟩
  | evict n entry =>
      cases hstep
      exact ⟨ls, hls⟩

theorem reachable_posted (hs : (machine cfg).Reachable s) : ∃ ls, PostedIn ls s.locks := by
  refine System.ReachableBy.invariant (I := fun s => ∃ ls, PostedIn ls s.locks) hs ?_ ?_
  · rintro s ⟨root, -, rfl⟩
    exact ⟨∅, fun l w hl => by cases hl⟩
  · exact fun s action s' h _ hstep => posted_step h hstep

end Posted

section Ends

variable {cfg : Config} {s s' : State} {m : Chart} {c : Client}

theorem Unhindered.run (h : Unhindered cfg c s) (hinv : Inv cfg s m) {fresh : GlobalAddress}
    {waiter : Option Client} (hstep : runClient cfg s c fresh waiter = some s') :
    Unhindered cfg c s' := by
  obtain ⟨hop, hothers⟩ := run_frame (c := c) hstep
  refine ⟨h.tended.run hinv hstep, fun hup d hd => ?_⟩
  rw [hop] at hup
  rw [hothers d hd]
  exact h.others hup d hd

/-- With no posted write in the way the client can take a step, or its call has ended. -/
theorem Unhindered.can_run (h : Unhindered cfg c s) (hinv : Inv cfg s m)
    (hposted : ∀ l w, s.locks l ≠ .posted w) (hbusy : ¬ Ended c s) :
    ∃ fresh s', runClient cfg s c fresh none = some s' := by
  have hok := hinv.pc c
  have hidle : ∀ r, (s.clients c).pc ≠ .idle r := fun r hr => hbusy (Or.inl ⟨r, hr⟩)
  have hfailed : ∀ why, (s.clients c).pc ≠ .failed why := by
    intro why hwhy
    rw [hwhy] at hok
    exact hbusy (Or.inr ⟨why, hok, hwhy⟩)
  by_cases hlock : ∃ p task, (s.clients c).pc = .lock p task
  · obtain ⟨p, task, hpc⟩ := hlock
    rw [hpc] at hok
    -- nobody else holds the lock or waits for it
    have halone : ∀ d, (∀ r, (s.clients d).pc ≠ .idle r) → d = c := by
      intro d hd
      by_contra hdc
      obtain ⟨r, hr⟩ := h.others (TaskOk.updates hok) d hdc
      exact hd r hr
    refine ⟨.Null, ?_⟩
    cases hword : s.locks (cfg.lockAddr p) with
    | free => exact ⟨_, by simp only [runClient, hpc, hword]; rfl⟩
    | posted w => exact absurd hword (hposted _ w)
    | held d =>
        have hholds := h.tended.holder _ d hword
        obtain rfl := halone d fun r hr => by rw [hr] at hholds; cases hholds
        rw [hpc] at hholds
        cases hholds
    | handed node =>
        obtain ⟨u, q, task', hnode, hu, -⟩ := h.tended.handed _ node hword
        obtain rfl := halone u fun r hr => by rw [hr] at hu; cases hu
        exact ⟨_, by simp only [runClient, hpc, hword, hnode, if_true]; rfl⟩
  · exact hinv.can_run h.tended.room (fun p task hpc => hlock ⟨p, task, hpc⟩) hidle hfailed

/-- What is left of the call, and the writes still to be executed. -/
def Ranks (cfg : Config) (c : Client) (s : State) (b : (ℕ × ℕ × ℕ × ℕ) × ℕ) : Prop :=
  ∃ ls, Left cfg c s b.1 ∧ Unhindered cfg c s ∧ PostedIn ls s.locks ∧ b.2 = s.lag ls

theorem Ranks.can {b : (ℕ × ℕ × ℕ × ℕ) × ℕ} (h : Ranks cfg c s b) (hbusy : ¬ Ended c s) :
    ∃ action s', Own cfg c s action ∧ (machine cfg).step s action = some s' := by
  obtain ⟨ls, ⟨m, hinv, -, -⟩, hfree, -, -⟩ := h
  by_cases hposted : ∃ l w, s.locks l = .posted w
  · obtain ⟨l, w, hw⟩ := hposted
    refine ⟨.land l, ?_⟩
    cases w with
    | none => exact ⟨_, trivial, by simp only [machine, step, hw]; rfl⟩
    | some w => exact ⟨_, trivial, by simp only [machine, step, hw]; rfl⟩
  · have hnone : ∀ l w, s.locks l ≠ .posted w := fun l w hw => hposted ⟨l, w, hw⟩
    obtain ⟨fresh, s', hstep⟩ := hfree.can_run hinv hnone hbusy
    refine ⟨.run c fresh none, s', ⟨rfl, ?_⟩, hstep⟩
    unfold State.lagging
    split
    · split
      · rename_i a page hw
        exact absurd hw (hnone _ _)
      · rfl
    · rfl

theorem Ranks.step {b : (ℕ × ℕ × ℕ × ℕ) × ℕ} (h : Ranks cfg c s b) {action : Action}
    (hown : Own cfg c s action) (hstep : (machine cfg).step s action = some s') :
    ∃ b', Ranks cfg c s' b' ∧ Prod.Lex Less (· < ·) b' b := by
  obtain ⟨ls, hleft, hfree, hls, hb⟩ := h
  obtain ⟨b₁, b₂⟩ := b
  cases action with
  | run d fresh waiter =>
      obtain ⟨rfl, -⟩ := hown
      obtain ⟨b', hleft', hless⟩ := hleft.own hstep
      obtain ⟨m, hinv, -, -⟩ := hleft
      have hrun : Tree.step cfg s (.run d fresh waiter) = some s' := hstep
      obtain ⟨ls', hls'⟩ := posted_step ⟨ls, hls⟩ hrun
      exact ⟨(b', s'.lag ls'), ⟨ls', hleft', hfree.run hinv hstep, hls', rfl⟩, .left _ _ hless⟩
  | land l =>
      have hland : Tree.step cfg s (.land l) = some s' := hstep
      obtain ⟨hlag, hls'⟩ := lag_land hls hland
      have hclients := clients_of_land hland
      have hleft' := hleft.other (fun fresh waiter heq => by cases heq) (fun op heq => by cases heq)
        hland
      obtain ⟨m, hinv, -, -⟩ := hleft
      refine ⟨(b₁, s'.lag ls), ⟨ls, hleft', ⟨hfree.tended.step hinv hland, ?_⟩, hls', rfl⟩,
        .right _ ?_⟩
      · rw [hclients]
        exact hfree.others
      · rw [show b₂ = s.lag ls from hb]
        exact hlag
  | _ => exact hown.elim

/-- **A call that nobody is in the way of comes to its end.** -/
theorem Unhindered.ends {b : ℕ × ℕ × ℕ × ℕ} (h : Unhindered cfg c s) (hleft : Left cfg c s b)
    (hposted : ∃ ls, PostedIn ls s.locks) :
    (machine cfg).Inevitable (Own cfg c) (Ended c) s := by
  obtain ⟨ls, hls⟩ := hposted
  have hwf : WellFounded (Prod.Lex Less (· < · : ℕ → ℕ → Prop)) := less_wf.prod_lex Nat.lt_wfRel.wf
  exact System.inevitable_of_rank hwf (Ranks cfg c) (fun s b hb hnot => hb.can hnot)
    (fun s b action s' hb _ hown hstep => hb.step hown hstep) (b, s.lag ls) s
    ⟨ls, hleft, h, hls, rfl⟩

end Ends

/-! ### Whatever the cache holds -/

section Transparent

variable {cfg : Config} {s s₁ s₂ : State} {m : Chart} {c : Client} {op : Op} {cache : IndexCache}

/-- An operation that does not insert splits no page. -/
theorem Inv.grows (h : Inv cfg s m) (hins : (s.clients c).op.inserts = false)
    (fresh : GlobalAddress) (waiter : Option Client) : Grows cfg s (.run c fresh waiter) := by
  have hok := h.pc c
  have hnot : (s.clients c).op.inserts ≠ true := fun heq => by rw [hins] at heq; cases heq
  show Finishes cfg s (s.clients c) waiter (s.clients c).pc
  cases hpc : (s.clients c).pc with
  | linked p task page sibling =>
      rw [hpc] at hok
      obtain ⟨htask, -, left, right, splitKey, hout, -⟩ := hok
      cases task with
      | leafStore cached => exact absurd htask.2.1 hnot
      | internalStore k v level => exact absurd htask.2.1 hnot
      | leafDel cached =>
          cases page with
          | internal page => cases hout
          | leaf page =>
              change page.del _ _ = _ at hout
              unfold LeafPage.del at hout
              repeat' split at hout
              all_goals cases hout
  | unlock p mode after =>
      rw [hpc] at hok
      cases after with
      | split q task splitKey sibling => exact absurd hok.2.1 hnot
      | _ => trivial
  | casRoot p task splitKey sibling root =>
      rw [hpc] at hok
      exact absurd hok.1.2.1 hnot
  | _ => trivial

end Transparent

end Dal.Tree
