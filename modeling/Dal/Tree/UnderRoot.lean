/-
What a call does stays under the root it has begun at.

A call asks for the root once, and once more when a cached leaf was stale or a separator has
to be taken up from a cached leaf.  Its `path_stack` has nothing above that root, and a leaf
of the index cache is far below it.  So a client whose compare-and-swap of the root pointer
fails has nowhere to post its separator: the second half of the `if` in `leaf_page_store`
and `internal_page_store`, after an `update_new_root` that returns false, only ever runs
into an assertion.
-/
import Dal.Tree.Search
import Dal.Tree.Turn

namespace Dal.Tree

/-! ### Under the root of the call -/

/-- The root of the call is on level `l` or above, and `path_stack` has nothing above it. -/
def Local.Under (m : Chart) (x : Local) (l : Nat) : Prop :=
  ∃ r y, m x.root = some (r, y) ∧ l ≤ r ∧ ∀ i, x.path i ≠ .Null → i ≤ r

/-- A leaf of the index cache is below the root of the call, not the root itself. -/
def Task.Under (m : Chart) (x : Local) : Task → Prop
  | .leafStore none | .internalStore .. => x.Under m 0
  | .leafStore (some _) => x.Under m 1
  | .leafDel _ => True

/-- Where a call may be that has not left what is under its root. -/
def UnderRoot (m : Chart) (x : Local) : Pc → Prop
  | .descend p _ | .caching p _ _ => x.op.updates = true → ∃ l y, m p = some (l, y) ∧ x.Under m l
  | .lock _ task | .read _ task | .loaded _ task _ | .linked _ task _ _ | .grow _ task _ _
  | .casRoot _ task _ _ _ | .unlock _ _ (.right task _) | .unlock _ _ (.split _ task _ _) =>
      task.Under m x
  | _ => True

section Under

variable {m m' : Chart} {enabled : Bool} {mem : GlobalAddress → Option Page} {x : Local}
  {p : GlobalAddress} {l y : Nat} {goal : Goal} {task : Task}

theorem Local.Under.le (h : x.Under m l) {l' : Nat} (hl : l' ≤ l) : x.Under m l' := by
  obtain ⟨r, y, hroot, hlr, hpath⟩ := h
  exact ⟨r, y, hroot, Nat.le_trans hl hlr, hpath⟩

theorem Local.Under.mono (hle : m.Le m') (h : x.Under m l) : x.Under m' l := by
  obtain ⟨r, y, hroot, hlr, hpath⟩ := h
  exact ⟨r, y, hle _ _ hroot, hlr, hpath⟩

theorem Local.Under.record (h : x.Under m l) (p : GlobalAddress) :
    Local.Under m { x with path := Function.update x.path l p } l := by
  obtain ⟨r, y, hroot, hlr, hpath⟩ := h
  refine ⟨r, y, hroot, hlr, fun i hi => ?_⟩
  by_cases hil : i = l
  · rw [hil]
    exact hlr
  · have hi : Function.update x.path l p i ≠ .Null := hi
    rw [Function.update_of_ne hil] at hi
    exact hpath i hi

theorem Task.Under.mono (hle : m.Le m') (h : task.Under m x) : task.Under m' x := by
  cases task with
  | leafStore cached => cases cached <;> exact Local.Under.mono hle h
  | leafDel cached => trivial
  | internalStore k v level => exact Local.Under.mono hle h

/-- A `leaf_page_del` never splits a page. -/
theorem outcome_not_del {op : Op} {page left right : Page} {k : Nat}
    (hout : task.outcome op page = .split left right k) (cached : Option (Nat × Nat)) :
    task ≠ .leafDel cached := by
  rintro rfl
  cases page with
  | internal page => cases hout
  | leaf page =>
      simp only [Task.outcome, LeafPage.del] at hout
      repeat' split at hout
      all_goals cases hout

theorem Task.Under.zero (h : task.Under m x) (hdel : ∀ cached, task ≠ .leafDel cached) :
    x.Under m 0 := by
  cases task with
  | leafStore cached =>
      cases cached with
      | none => exact h
      | some entry => exact Local.Under.le h (Nat.zero_le 1)
  | leafDel cached => exact absurd rfl (hdel cached)
  | internalStore k v level => exact h

theorem Task.Under.uncached (h : task.Under m x) : task.uncached.Under m x := by
  cases task with
  | leafStore cached => exact h.zero (by simp)
  | leafDel cached => trivial
  | internalStore k v level => exact h

theorem UnderRoot.mono (hle : m.Le m') {pc : Pc} (h : UnderRoot m x pc) : UnderRoot m' x pc := by
  cases pc with
  | descend p goal | caching p page goal =>
      intro hup
      obtain ⟨l, y, hp, hunder⟩ := h hup
      exact ⟨l, y, hle _ _ hp, hunder.mono hle⟩
  | unlock p mode after =>
      cases after with
      | right task sibling | split q task k sibling => exact Task.Under.mono hle h
      | _ => trivial
  | lock p task | read p task | loaded p task page | linked p task page sibling
  | grow p task k sibling | casRoot p task k sibling root => exact Task.Under.mono hle h
  | _ => trivial

theorem Task.Under.setPc (h : task.Under m x) (pc : Pc) : task.Under m { x with pc := pc } := by
  cases task with
  | leafStore cached => cases cached <;> exact h
  | leafDel cached => trivial
  | internalStore k v level => exact h

/-- The program counter itself is not part of what it says. -/
theorem UnderRoot.setPc {pc pc' : Pc} (h : UnderRoot m x pc) :
    UnderRoot m { x with pc := pc' } pc := by
  cases pc with
  | unlock p mode after =>
      cases after with
      | right task sibling | split q task k sibling => exact Task.Under.setPc h pc'
      | _ => trivial
  | lock p task | read p task | loaded p task page | linked p task page sibling
  | grow p task k sibling | casRoot p task k sibling root => exact Task.Under.setPc h pc'
  | _ => exact h

/-- A call begins, or begins again, at a root. -/
theorem underRoot_rooted {use : RootUse} {root : GlobalAddress} (h : UseOk m enabled x use)
    (hroot : m root = some (l, y)) (hlevel : enabled = true → 3 ≤ l) :
    UnderRoot m (rooted x root use) (rooted x root use).pc := by
  have hunder : ∀ {x' : Local}, x'.root = root → NoPath x' → x'.Under m l :=
    fun hx hnp => ⟨l, y, by rw [hx]; exact hroot, Nat.le_refl l, fun i hi => absurd (hnp i) hi⟩
  cases use with
  | operation =>
      cases hop : x.op with
      | search k =>
          simp only [rooted, hop]
          trivial
      | insert k v | del k =>
          simp only [rooted, hop]
          exact fun _ => ⟨l, y, hroot, hunder rfl (h (by rw [hop]; rfl))⟩
  | cachedStore addr entry =>
      obtain ⟨-, hen, hnp, -⟩ := h
      have hat : (rooted x root (.cachedStore addr entry)).Under m l := hunder rfl hnp
      exact hat.le (Nat.le_trans (by decide) (hlevel hen))
  | parent k v level => exact fun _ => ⟨l, y, hroot, hunder rfl h.2.2.1⟩
  | retry goal => exact h.elim

theorem op_task_under (h : x.Under m 0) : x.op.task.Under m x := by
  cases hop : x.op with
  | search k | insert k v => exact h
  | del k => trivial

/-- A descent goes right or down. -/
theorem underRoot_afterSearch {page : Page} {result : Option SearchResult}
    (hgoal : GoalOk m enabled x p goal) (hnull : m .Null = none) (hp : m p = some (l, y))
    (hunder : x.op.updates = true → x.Under m l)
    (hfound : Found m page l y (goal.key x.op) goal.fromCache result) :
    UnderRoot m x (afterSearch x p goal result) := by
  have hmove : ∀ {q l' z}, m q = some (l', z) → l' ≤ l → UnderRoot m x (.descend q goal) :=
    fun hq hl hup => ⟨_, _, hq, (hunder hup).le hl⟩
  have hleaf : x.op.updates = true → x.op.task.Under m x := fun hup =>
    op_task_under ((hunder hup).le (Nat.zero_le l))
  cases hfound with
  | stale hfrom hk =>
      simp only [afterSearch]
      split
      · trivial
      · exact hmove hp (Nat.le_refl l)
      · trivial
  | right sibling hk hsib =>
      have hne := ne_null hnull hsib
      have hsib := hmove hsib (Nat.le_refl l)
      cases goal with
      | parent k v level =>
          simp only [afterSearch, ne_eq, hne, not_false_eq_true, if_true]
          split
          · trivial
          · exact hsib
      | leaf cached =>
          cases hop : x.op with
          | search k =>
              simp only [afterSearch, hop, ne_eq, hne, not_false_eq_true, if_true,
                not_true_eq_false, if_false, ite_self]
              exact hsib
          | insert k v | del k =>
              simp only [afterSearch, hop, ne_eq, hne, not_false_eq_true, if_true]
              rw [hop] at hleaf
              repeat' split
              · exact hleaf rfl
              · trivial
              · exact hsib
  | leaf lpage val hl hk hpage hval hnone =>
      cases goal with
      | parent k v level => trivial
      | leaf cached =>
          cases hop : x.op with
          | search k =>
              simp only [afterSearch, hop, if_true]
              split
              · trivial
              · rw [if_neg (not_not_intro rfl)]
                trivial
          | insert k v | del k =>
              simp only [afterSearch, hop, if_true]
              rw [hop] at hleaf
              exact hleaf rfl
  | child below z q hl hq hyz hzk =>
      have hq := hmove hq (by omega)
      cases goal with
      | parent k v level =>
          have hup := Op.updates_of_inserts hgoal.2.1
          simp only [afterSearch, ne_eq, not_true_eq_false, if_false]
          repeat' split
          · trivial
          · exact hq
          · exact (hunder hup).le (Nat.zero_le l)
      | leaf cached =>
          cases hop : x.op with
          | search k =>
              simp only [afterSearch, hop, ne_eq, not_true_eq_false, if_false,
                Bool.false_eq_true]
              exact hq
          | insert k v | del k =>
              simp only [afterSearch, hop, ne_eq, not_true_eq_false, if_false,
                Bool.false_eq_true]
              rw [hop] at hleaf
              repeat' split
              · trivial
              · exact hq
              · exact hleaf rfl

theorem underRoot_postUp {k : Nat} {sibling : GlobalAddress} (h : task.Under m x)
    (hdel : ∀ cached, task ≠ .leafDel cached) : UnderRoot m x (postUp x task k sibling) := by
  rcases postUp_cases x task k sibling with ⟨-, hpc⟩ | ⟨-, -, hpc⟩ | ⟨-, -, why, -, hpc⟩ <;> rw [hpc]
  · exact h.zero hdel
  · trivial
  · trivial

theorem underRoot_split {k : Nat} {sibling : GlobalAddress} (h : task.Under m x)
    (hdel : ∀ cached, task ≠ .leafDel cached) :
    UnderRoot m x (afterUnlock x (.split p task k sibling)) := by
  simp only [afterUnlock]
  split
  · exact h
  · exact underRoot_postUp h hdel

theorem SplitOk.not_del {k : Nat} (h : SplitOk m enabled x p task k) (cached : Option (Nat × Nat)) :
    task ≠ .leafDel cached := by
  rintro rfl
  exact h.2.2.2

theorem underRoot_afterUnlock {mode : Release} {after : After}
    (h : UnderRoot m x (.unlock p mode after)) (hafter : AfterOk m enabled x after) :
    UnderRoot m x (afterUnlock x after) := by
  cases after with
  | done => trivial
  | stale entry => trivial
  | right task sibling =>
      rw [show afterUnlock x (.right task sibling) = .lock sibling task.uncached from
        if_neg hafter.1]
      exact Task.Under.uncached h
  | split q task k sibling => exact underRoot_split h (SplitOk.not_del hafter)

/-- A client that is not to post its separator to a new root has no page to post it to. -/
theorem overtaken_fails {k : Nat} (h : task.Under m x) (hsplit : SplitOk m enabled x p task k)
    (hroot : x.root = p) (sibling : GlobalAddress) :
    ∃ why, postUp x task k sibling = .failed why := by
  have hdel := hsplit.not_del
  obtain ⟨-, -, ⟨y, hp, -⟩, -⟩ := hsplit
  rw [← hroot] at hp
  have hlevel : ∀ {l}, x.Under m l → l ≤ task.level ∧ x.path (task.level + 1) = .Null := by
    rintro l ⟨r, z, hr, hlr, hpath⟩
    rw [hp] at hr
    cases hr
    refine ⟨hlr, ?_⟩
    by_contra hne
    exact Nat.not_succ_le_self _ (hpath _ hne)
  rcases postUp_cases x task k sibling with ⟨hne, -⟩ | ⟨-, ⟨entry, rfl⟩, -⟩ | ⟨-, -, why, -, hpc⟩
  · exact absurd (hlevel (h.zero hdel)).2 hne
  · exact absurd (hlevel h).1 (Nat.not_succ_le_zero 0)
  · exact ⟨why, hpc⟩

end Under

section Step

variable {cfg : Config} {s s' : State} {m : Chart} {c : Client}

/-- What `page_search` of one page leaves the client at. -/
theorem pageRead_cases (s : State) (c : Client) (p : GlobalAddress) (goal : Goal) :
    (pageRead s c p goal).pc = (s.clients c).pc ∨ (∃ why, (pageRead s c p goal).pc = .failed why) ∨
      (∃ page, (pageRead s c p goal).pc = .caching p page goal) ∨
      ∃ x result, (pageRead s c p goal).pc = afterSearch x p goal result := by
  unfold pageRead
  simp only
  repeat' split
  · exact Or.inr (Or.inl ⟨_, rfl⟩)
  · exact Or.inr (Or.inl ⟨_, rfl⟩)
  · exact Or.inr (Or.inr (Or.inl ⟨_, rfl⟩))
  · exact Or.inr (Or.inr (Or.inr ⟨_, _, rfl⟩))
  · exact Or.inr (Or.inr (Or.inr ⟨_, _, rfl⟩))
  · exact Or.inl rfl

theorem pageRead_underRoot (h : Inv cfg s m) {p : GlobalAddress} {goal : Goal}
    (hunder : UnderRoot m (s.clients c) (.descend p goal))
    (hpc : (s.clients c).pc = .descend p goal) :
    UnderRoot m (pageRead s c p goal) (pageRead s c p goal).pc := by
  have hgoal : GoalOk m (s.directory c.node).enableCache (s.clients c) p goal := by
    have hok := h.pc c
    rwa [hpc] at hok
  obtain ⟨l, y, page, hp, hpage, hok⟩ := GoalOk.page h hgoal
  have hrec := hgoal.record hp
  have hspot := hrec.spot hp
  have hkey := h.goal_key_lt (c := c) hrec rfl (by rw [hpc]; rfl)
  obtain ⟨result, hresult, hfound⟩ :=
    pageSearch_spec hok h.shape.null hspot.2.1 hkey hspot.2.2.2
  have hat : (s.clients c).op.updates = true → (s.clients c).Under m l := by
    intro hup
    obtain ⟨l', y', hp', hunder'⟩ := hunder hup
    rw [hp] at hp'
    cases hp'
    exact hunder'
  have hafter := underRoot_afterSearch hrec h.shape.null hp (fun hup => (hat hup).record p) hfound
  simp only [pageRead, hpage, hok.consistent, if_true, hok.level, hresult]
  cases page with
  | leaf lpage => exact hafter.setPc
  | internal ipage =>
      simp only
      split
      · exact fun hup => ⟨l, y, hp, (hat hup).record p⟩
      · exact hafter.setPc

theorem Inv.underRoot_run (h : Inv cfg s m) {fresh : GlobalAddress} {waiter : Option Client}
    (hunder : UnderRoot m (s.clients c) (s.clients c).pc)
    (hstep : runClient cfg s c fresh waiter = some s') :
    UnderRoot m (s'.clients c) (s'.clients c).pc := by
  have hturn := run_turned hstep
  have hok := h.pc c
  have hset : ∀ (t : State) {pc : Pc}, t.clients = s.clients → UnderRoot m (s.clients c) pc →
      UnderRoot m ((t.setPc c pc).clients c) ((t.setPc c pc).clients c).pc := by
    intro t pc ht hpc
    rw [show (t.setPc c pc).clients c = { t.clients c with pc := pc } from setClient_self .., ht]
    exact hpc.setPc
  generalize hpc : (s.clients c).pc = pc at hturn hunder hok
  cases hturn with
  | start =>
      refine hset _ rfl ?_
      unfold start
      simp only
      split <;> trivial
  | toRead use hroot => exact hset _ rfl trivial
  | known use hroot =>
      rw [setClient_self]
      obtain ⟨l, hl, hrootAt⟩ := (h.directory c.node).root hroot
      refine underRoot_rooted hok hrootAt fun hen => ?_
      have hthree := ((h.directory c.node).enabled hen).2
      omega
  | readRoot use =>
      rw [setClient_self]
      obtain ⟨top, htop, hmax⟩ := h.top
      refine underRoot_rooted hok htop fun hen => ?_
      obtain ⟨hne, hthree⟩ := (h.directory c.node).enabled hen
      obtain ⟨l, hl, hrootAt⟩ := (h.directory c.node).root hne
      have hle := hmax _ _ _ hrootAt
      omega
  | searchCache =>
      refine hset _ rfl ?_
      have hsearch : ∀ p goal, UnderRoot m (s.clients c) (.descend p goal) :=
        fun p goal hup => Bool.noConfusion (hup.symm.trans hok.2)
      unfold searchCache
      simp only
      split <;> exact hsearch _ _
  | descend p goal =>
      rw [setClient_self]
      exact pageRead_underRoot h hunder hpc
  | cachingError p page goal why herror => exact hset _ rfl trivial
  | caching p page goal result hresult =>
      refine hset _ rfl ?_
      obtain ⟨hgoal, -, -, y, hp, hpageOk⟩ := hok
      have hspot := hgoal.spot hp
      have hkey := h.goal_key_lt (c := c) hgoal rfl (by rw [hpc]; rfl)
      obtain ⟨result', hresult', hfound⟩ :=
        pageSearch_spec hpageOk h.shape.null hspot.2.1 hkey hspot.2.2.2
      rw [hresult] at hresult'
      cases hresult'
      refine underRoot_afterSearch hgoal h.shape.null hp (fun hup => ?_) hfound
      obtain ⟨l', y', hp', hunder'⟩ := hunder hup
      rw [hp] at hp'
      cases hp'
      exact hunder'
  | invalidate entry =>
      refine hset _ rfl ?_
      unfold restart
      split
      · rename_i k hop
        exact fun hup => by rw [hop] at hup; cases hup
      · trivial
  | lock p task hlock | read p task page hmem
  | split p task page left right splitKey hout hmem hnull
  | linked p task page left right splitKey sibling mode hout hmode
  | grow p task splitKey sibling hmem hnull => exact hset _ rfl hunder
  | unmapped p task hmem | fail p task page why hout => exact hset _ rfl trivial
  | loaded p task page mode after async hafter hmode =>
      refine hset _ (by rw [commit_eq]) ?_
      cases hout : task.outcome (s.clients c).op page with
      | right sibling =>
          rw [hout] at hafter
          cases hafter
          exact hunder
      | stale | entry i r | absent | page page' =>
          rw [hout] at hafter
          cases hafter
          trivial
      | fail why | split left right splitKey =>
          rw [hout] at hafter
          cases hafter
  | posting p task page left right splitKey sibling hout hasync =>
      exact hset _ rfl (underRoot_split hunder (outcome_not_del hout))
  | unlock p mode after => exact hset _ rfl (underRoot_afterUnlock hunder hok)
  | installed p task splitKey sibling newRoot hroot => exact hset _ rfl trivial
  | overtaken p task splitKey sibling newRoot hroot =>
      exact hset _ rfl (underRoot_postUp hunder hok.1.not_del)

end Step

end Dal.Tree
