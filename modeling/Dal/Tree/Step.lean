/-
Every step advances the tree.

`Inv.step` goes through the program counters.  A client that has read a page under its
lock finds one of the outcomes that `LeafPage.Result` and `InternalPage.Result` list,
and each of those is a calm step, a store or a split.  `commits` says which of the
steps carries an operation out: the write of the one leaf that holds its key, or the
look at it when there is nothing to delete.
-/
import Dal.Tree.Commit

namespace Dal.Tree

/-- What has been done to a leaf carries `op` out. -/
def commitsBy (op : Op) : Outcome → Option Op
  | .entry .. | .absent => some op
  | _ => none

/-- The operation a step carries out. -/
def commits (s : State) : Action → Option Op
  | .run c _ _ =>
      let x := s.clients c
      match x.pc with
      | .loaded _ task page => commitsBy x.op (task.outcome x.op page)
      | .linked _ (.leafStore _) _ _ => some x.op
      | _ => none
  | _ => none

section Local

variable {cfg : Config} {s s' : State} {m : Chart} {c : Client}

theorem PcOk.setPc {enabled : Bool} {mem : GlobalAddress → Option Page} {x : Local} {pc q : Pc}
    (h : PcOk m enabled mem x pc) : PcOk m enabled mem { x with pc := q } pc := by
  cases pc <;> exact h

/-- A step that changes nothing but the client's own variables. -/
theorem Inv.client (h : Inv cfg s m) {x' : Local} (hvalid : x'.op.valid = true)
    (hpc : PcOk m (s.directory c.node).enableCache s.mem x' x'.pc)
    (hheld : ∀ k, x'.pc.holds cfg = some k → (s.clients c).pc.holds cfg = some k)
    (hfresh : x'.pc.fresh = none)
    (hpending : x'.pc.pending = (s.clients c).pc.pending ∨ ∃ why, x'.pc = .failed why) :
    Advance cfg s m (s.setClient c x') m none :=
  h.calm c rfl rfl (fun _ _ => rfl) (fun _ _ => Iff.rfl) (fun _ _ _ hk => hk)
    (fun n => ⟨h.directory n, id⟩) (fun _ hm => hm) h.cache hvalid hpc
    (fun k hk => h.held c k (hheld k hk)) (fun a ha => by rw [hfresh] at ha; cases ha) hpending

/-- The beginning of an update, by the root or by what the cache has. -/
theorem Inv.started (h : Inv cfg s m) (hpc : (s.clients c).pc = .start) :
    Advance cfg s m (s.setPc c (start s c)) m none := by
  obtain ⟨hup, hnp⟩ : (s.clients c).op.updates = true ∧ NoPath (s.clients c) := by
    have hok := h.pc c
    rwa [hpc] at hok
  have hcopy := fun e q he hq => h.cache c.node e q he hq
  have hstart : PcOk m (s.directory c.node).enableCache s.mem (s.clients c) (start s c) ∧
      (start s c).holds cfg = none ∧ (start s c).fresh = none ∧
      (start s c).pending = none := by
    unfold start
    simp only
    split
    · rename_i k v hit hop hhit
      split at hhit
      · rename_i hen
        obtain ⟨y, hy, hyk⟩ := searchFromCache_spec hcopy hhit
        exact ⟨⟨by rw [hop]; rfl, hen, hnp, y, hy, hyk, fun _ => .of_noPath hnp⟩, rfl, rfl, rfl⟩
      · cases hhit
    · rename_i k hit hop hhit
      split at hhit
      · obtain ⟨y, hy, hyk⟩ := searchFromCache_spec hcopy hhit
        exact ⟨⟨hup, by rw [hop]; rfl, ⟨y, hy, hyk, fun _ => .of_noPath hnp⟩, fun _ => hnp⟩,
          rfl, rfl, rfl⟩
      · cases hhit
    · exact ⟨fun _ => hnp, rfl, rfl, rfl⟩
  obtain ⟨hpcOk, hholds, hfresh, hpending⟩ := hstart
  refine h.client (h.valid c) hpcOk.setPc (fun k hk => ?_) hfresh (Or.inl ?_)
  · exact absurd hk (by simp [hholds])
  · rw [hpc]
    exact hpending

/-- `get_root_ptr` returns a page that begins at `kKeyMin`, and is high enough for the cache. -/
theorem Inv.gotRoot (h : Inv cfg s m) {use : RootUse} {root : GlobalAddress} {l : Nat}
    (hpc : (s.clients c).pc = .getRoot use ∨ (s.clients c).pc = .readRoot use)
    (hroot : m root = some (l, kKeyMin))
    (hlevel : (s.directory c.node).enableCache = true → 3 ≤ l) :
    Advance cfg s m (s.setClient c (rooted (s.clients c) root use)) m none := by
  have huse : UseOk m (s.directory c.node).enableCache (s.clients c) use := by
    have hok := h.pc c
    rcases hpc with hpc | hpc <;> rwa [hpc] at hok
  have hpending : (s.clients c).pc.pending = use.pending := by
    rcases hpc with hpc | hpc <;> rw [hpc] <;> rfl
  refine h.client ?_ (pcOk_rooted huse hroot hlevel) (fun k hk => ?_) (rooted_fresh _ use)
    (Or.inl ((rooted_pending _ use).trans hpending.symm))
  · rw [rooted_op]
    exact h.valid c
  · rw [rooted_holds] at hk
    cases hk

/-- `g_root_ptr`, or else a read of the root pointer, which is as high as every announced root. -/
theorem Inv.announcedRoot (h : Inv cfg s m) {use : RootUse} (hpc : (s.clients c).pc = .getRoot use)
    (hne : (s.directory c.node).rootPtr ≠ .Null) :
    Advance cfg s m
      (s.setClient c (rooted (s.clients c) (s.directory c.node).rootPtr use)) m none := by
  obtain ⟨l, hl, hroot⟩ := (h.directory c.node).root hne
  refine h.gotRoot (Or.inl hpc) hroot fun hen => ?_
  have := ((h.directory c.node).enabled hen).2
  omega

theorem Inv.memoryRoot (h : Inv cfg s m) {use : RootUse} (hpc : (s.clients c).pc = .readRoot use) :
    Advance cfg s m (s.setClient c (rooted (s.clients c) s.rootPtr use)) m none := by
  obtain ⟨top, htop, hmax⟩ := h.top
  refine h.gotRoot (Or.inr hpc) htop fun hen => ?_
  obtain ⟨hne, hlevel⟩ := (h.directory c.node).enabled hen
  obtain ⟨l, hl, hroot⟩ := (h.directory c.node).root hne
  have := hmax _ _ _ hroot
  omega

/-- A `search` goes to the leaf that the cache names, or down from the root. -/
theorem Inv.cacheSearched (h : Inv cfg s m) (hpc : (s.clients c).pc = .searchCache) :
    Advance cfg s m (s.setPc c (searchCache s c)) m none := by
  obtain ⟨hroot, hup⟩ : RootAt m (s.clients c).root ∧ (s.clients c).op.updates = false := by
    have hok := h.pc c
    rwa [hpc] at hok
  have hsearch : ∃ p goal, searchCache s c = .descend p goal ∧ goal.pending = none ∧
      GoalOk m (s.directory c.node).enableCache (s.clients c) p goal := by
    have hnever : ∀ {y}, (s.clients c).op.updates = true → PathOk m (s.clients c).path 0 y :=
      fun hu => by rw [hup] at hu; cases hu
    unfold searchCache
    simp only
    split
    · rename_i hit hhit
      split at hhit
      · obtain ⟨y, hy, hyk⟩ := searchFromCache_spec (fun e q he hq => h.cache _ e q he hq) hhit
        exact ⟨_, _, rfl, rfl, hroot, 0, ⟨y, hy, hyk, hnever⟩, fun _ => ⟨rfl, hup⟩⟩
      · cases hhit
    · obtain ⟨l, hl⟩ := hroot
      refine ⟨_, _, rfl, rfl, ⟨l, hl⟩, l, ⟨kKeyMin, hl, Nat.zero_le _, fun hu => ?_⟩,
        fun hc => absurd rfl hc⟩
      rw [hup] at hu
      cases hu
  obtain ⟨p, goal, heq, hpending, hgoal⟩ := hsearch
  rw [heq]
  have hok : PcOk m (s.directory c.node).enableCache s.mem (s.clients c) (.descend p goal) := hgoal
  refine h.client (h.valid c) hok.setPc (fun k hk => by cases hk) rfl ?_
  rw [hpc]
  exact Or.inl hpending

/-- A page that a client may read begins where the chart says and is `Ok`. -/
theorem GoalOk.page (h : Inv cfg s m) {enabled : Bool} {x : Local} {p : GlobalAddress}
    {goal : Goal} (hgoal : GoalOk m enabled x p goal) :
    ∃ l y page, m p = some (l, y) ∧ s.mem p = some page ∧ page.Ok m l y := by
  have hp : ∃ l y, m p = some (l, y) := by
    cases goal with
    | leaf cached =>
        obtain ⟨-, l, ⟨y, hy, -⟩, -⟩ := hgoal
        exact ⟨l, y, hy⟩
    | parent k v level =>
        obtain ⟨-, -, -, l, -, ⟨y, hy, -⟩⟩ := hgoal
        exact ⟨l, y, hy⟩
  obtain ⟨l, y, hy⟩ := hp
  obtain ⟨page, hpage, hok⟩ := h.shape.page p l y hy
  exact ⟨l, y, page, hy, hpage, hok⟩

/-- Recording in `path_stack` the page a descent is at. -/
theorem GoalOk.record {enabled : Bool} {x : Local} {p : GlobalAddress} {goal : Goal} {l y : Nat}
    (h : GoalOk m enabled x p goal) (hp : m p = some (l, y)) :
    GoalOk m enabled { x with path := Function.update x.path l p } p goal := by
  cases goal with
  | leaf cached =>
      obtain ⟨hroot, l', ⟨y', hy', hyk, hpath⟩, hcached⟩ := h
      rw [hp] at hy'
      cases hy'
      exact ⟨hroot, l, ⟨y, hp, hyk, fun hu => (hpath hu).record⟩, hcached⟩
  | parent k v level =>
      obtain ⟨hroot, hins, hen, l', hl, ⟨y', hy', hyk, hpath⟩⟩ := h
      rw [hp] at hy'
      cases hy'
      exact ⟨hroot, hins, hen, l, hl, ⟨y, hp, hyk, fun hu => (hpath hu).record⟩⟩

theorem Inv.goal_key_lt (h : Inv cfg s m) {x : Local} {p : GlobalAddress} {goal : Goal}
    (hgoal : GoalOk m (s.directory c.node).enableCache x p goal)
    (hop : x.op = (s.clients c).op) (hpending : (s.clients c).pc.pending = goal.pending) :
    goal.key x.op < kKeyMax := by
  refine hgoal.key_lt (by rw [hop]; exact h.valid c) fun d hd => ?_
  obtain ⟨-, -, -, -, hlt, -⟩ := h.pending c d (hpending.trans hd)
  exact hlt

/-- `page_search` reads a page. -/
theorem Inv.descend (h : Inv cfg s m) {p : GlobalAddress} {goal : Goal}
    (hpc : (s.clients c).pc = .descend p goal) :
    Advance cfg s m (s.setClient c (pageRead s c p goal)) m none := by
  have hgoal : GoalOk m (s.directory c.node).enableCache (s.clients c) p goal := by
    have := h.pc c
    rwa [hpc] at this
  obtain ⟨l, y, page, hp, hpage, hok⟩ := GoalOk.page h hgoal
  have hrec := hgoal.record hp
  have hspot := hrec.spot hp
  have hkey := h.goal_key_lt (c := c) hrec rfl (by rw [hpc]; rfl)
  obtain ⟨result, hresult, hfound⟩ :=
    pageSearch_spec hok h.shape.null hspot.2.1 hkey hspot.2.2.2
  have hafter : PcOk m (s.directory c.node).enableCache s.mem _ _ :=
    pcOk_afterSearch hrec h.shape.null hp (Function.update_self ..) hfound
      (Nat.le_of_lt hok.range)
  have hlevel := hok.level
  have hdone : Advance cfg s m (s.setClient c { s.clients c with
      path := Function.update (s.clients c).path l p
      pc := afterSearch { s.clients c with path := Function.update (s.clients c).path l p } p goal
        result }) m none := by
    refine h.client (h.valid c) hafter.setPc (fun k hk => ?_) (afterSearch_fresh result) ?_
    · rw [afterSearch_holds] at hk
      cases hk
    · rw [hpc]
      exact afterSearch_pending result
  simp only [pageRead, hpage, hok.consistent, if_true, hlevel, hresult]
  cases page with
  | leaf lpage => exact hdone
  | internal ipage =>
      simp only
      split
      · rename_i hcache
        have hl : l = 1 := hlevel.symm.trans hcache.1
        subst hl
        refine h.client (h.valid c) ⟨hrec, ?_, ?_, y, hp, hok⟩ (fun k hk => by cases hk) rfl ?_
        · exact Function.update_self 1 p (s.clients c).path
        · cases hf : goal.fromCache with
          | false => rfl
          | true => exact absurd (hspot.2.2.2 hf) (by decide)
        · rw [hpc]
          exact Or.inl rfl
      · exact hdone

/-- The page that was read is added to the index cache. -/
theorem Inv.caching (h : Inv cfg s m) {p : GlobalAddress} {page : InternalPage} {goal : Goal}
    (hpc : (s.clients c).pc = .caching p page goal) :
    Advance cfg s m (caching s c p page goal) m none := by
  have hgoal := h.pc c
  rw [hpc] at hgoal
  obtain ⟨hgoal, hpath, -, y, hp, hok⟩ := hgoal
  have hspot := hgoal.spot hp
  have hkey := h.goal_key_lt (c := c) hgoal rfl (by rw [hpc]; rfl)
  obtain ⟨result, hresult, hfound⟩ :=
    pageSearch_spec hok h.shape.null hspot.2.1 hkey hspot.2.2.2
  have hafter : PcOk m (s.directory c.node).enableCache s.mem _ _ :=
    pcOk_afterSearch hgoal h.shape.null hp hpath hfound (Nat.le_of_lt hok.range)
  simp only [Tree.caching, hresult]
  refine h.calm c rfl rfl (fun _ _ => rfl) (fun _ _ => Iff.rfl) (fun _ _ _ hk => hk)
    (fun n => ⟨h.directory n, id⟩) (fun _ hm => hm) (fun n e q he hq => ?_) (h.valid c)
    hafter.setPc (fun k hk => ?_) (fun a ha => ?_) ?_
  · by_cases hn : n = c.node
    · subst hn
      have hself : ((s.setCache c.node ((s.cache c.node).addToCache page)).setPc c
          (afterSearch (s.clients c) p goal result)).cache c.node =
          (s.cache c.node).addToCache page := Function.update_self ..
      rw [hself] at he
      exact copyOk_addToCache hok (fun e q he hq => h.cache _ e q he hq) e q he hq
    · have hother : ((s.setCache c.node ((s.cache c.node).addToCache page)).setPc c
          (afterSearch (s.clients c) p goal result)).cache n = s.cache n :=
        Function.update_of_ne hn _ _
      rw [hother] at he
      exact h.cache n e q he hq
  · exact absurd hk (by simp)
  · exact absurd ha (by simp)
  · rw [hpc]
    exact afterSearch_pending result

/-- The range of a stale entry is cleared in the index cache. -/
theorem Inv.setCache_invalidate (h : Inv cfg s m) (node : Nat) (entry : Nat × Nat) :
    ∀ n e page, e ∈ (s.setCache node ((s.cache node).invalidate entry.1 entry.2)).cache n →
      e.ptr = some page → CopyOk m e page := by
  intro n e page he hpage
  by_cases hn : n = node
  · subst hn
    rw [show (s.setCache n ((s.cache n).invalidate entry.1 entry.2)).cache n =
      (s.cache n).invalidate entry.1 entry.2 from Function.update_self ..] at he
    exact copyOk_invalidate (fun e q he hq => h.cache _ e q he hq) e page he hpage
  · rw [show (s.setCache node ((s.cache node).invalidate entry.1 entry.2)).cache n = s.cache n from
      Function.update_of_ne hn _ _] at he
    exact h.cache n e page he hpage

/-- A stale entry is cleared, and the operation starts over without the cache. -/
theorem Inv.invalidate (h : Inv cfg s m) {entry : Nat × Nat}
    (hpc : (s.clients c).pc = .invalidate entry) :
    Advance cfg s m ((s.setCache c.node ((s.cache c.node).invalidate entry.1 entry.2)).setPc c
      (restart (s.clients c))) m none := by
  have hok := h.pc c
  rw [hpc] at hok
  have hnext : PcOk m (s.directory c.node).enableCache s.mem (s.clients c) (restart (s.clients c)) ∧
      (restart (s.clients c)).holds cfg = none ∧ (restart (s.clients c)).fresh = none ∧
      (restart (s.clients c)).pending = none := by
    simp only [PcOk] at hok
    unfold restart
    cases hop : (s.clients c).op with
    | search k =>
        rw [hop, if_neg (by simp [Op.updates])] at hok
        obtain ⟨l, hl⟩ := hok
        refine ⟨⟨⟨l, hl⟩, l, ⟨kKeyMin, hl, Nat.zero_le _, fun hu => ?_⟩, fun hc => absurd rfl hc⟩,
          rfl, rfl, rfl⟩
        rw [hop] at hu
        cases hu
    | insert k v | del k =>
        rw [hop, if_pos (by rfl)] at hok
        exact ⟨fun _ => hok, rfl, rfl, rfl⟩
  obtain ⟨hpcOk, hholds, hfresh, hpending⟩ := hnext
  refine h.calm c rfl rfl (fun _ _ => rfl) (fun _ _ => Iff.rfl) (fun _ _ _ hk => hk)
    (fun n => ⟨h.directory n, id⟩) (fun _ hm => hm) (h.setCache_invalidate c.node entry)
    (h.valid c) hpcOk.setPc (fun k hk => ?_) (fun a ha => ?_) ?_
  · exact absurd hk (by simp [hholds])
  · exact absurd ha (by simp [hfresh])
  · rw [hpc]
    exact Or.inl hpending

/-- The page of a new root is written. -/
theorem Inv.newRoot (h : Inv cfg s m) {p sibling fresh : GlobalAddress} {task : Task} {k : Nat}
    (hpc : (s.clients c).pc = .grow p task k sibling)
    (hfresh : s.mem fresh = none ∧ fresh ≠ .Null) :
    Advance cfg s m ((s.write fresh (newRoot p k sibling (task.level + 1))).setPc c
      (.casRoot p task k sibling fresh)) m none := by
  have hok := h.pc c
  rw [hpc] at hok
  have hself : ((s.write fresh (Dal.newRoot p k sibling (task.level + 1))).setPc c
      (.casRoot p task k sibling fresh)).mem fresh = some _ := Function.update_self ..
  have hpcOk : PcOk m (s.directory c.node).enableCache
      ((s.write fresh (Dal.newRoot p k sibling (task.level + 1))).setPc c
        (.casRoot p task k sibling fresh)).mem (s.clients c) (.casRoot p task k sibling fresh) :=
    ⟨hok.1, hok.2, hself⟩
  refine h.calm c rfl rfl (fun a ha => Function.update_of_ne ?_ _ _) (fun _ _ => Iff.rfl)
    (fun _ _ _ hk => hk) (fun n => ⟨h.directory n, id⟩) (fun _ hm => hm) h.cache (h.valid c)
    hpcOk.setPc (fun k hk => by cases hk) (fun a ha => ?_) ?_
  · rintro rfl
    exact ha hfresh.1
  · cases ha
    exact Or.inr ⟨hfresh.1, by rw [hself]; exact Option.some_ne_none _, hfresh.2⟩
  · rw [hpc]
    exact Or.inl rfl

/-- A lock is taken. -/
theorem Inv.lock (h : Inv cfg s m) {p : GlobalAddress} {task : Task}
    (hpc : (s.clients c).pc = .lock p task)
    (hfree : ∀ w, s.locks (cfg.lockAddr p) ≠ .posted w)
    (hnot : ∀ d, s.locks (cfg.lockAddr p) ≠ .held d) :
    Advance cfg s m ((s.setLock (cfg.lockAddr p) (.held c)).setPc c (.read p task)) m none := by
  have hok : PcOk m (s.directory c.node).enableCache s.mem (s.clients c) (.read p task) := by
    have := h.pc c
    rwa [hpc] at this
  have hself : ((s.setLock (cfg.lockAddr p) (.held c)).setPc c (.read p task)).locks
      (cfg.lockAddr p) = .held c := Function.update_self ..
  have hother : ∀ k, k ≠ cfg.lockAddr p →
      ((s.setLock (cfg.lockAddr p) (.held c)).setPc c (.read p task)).locks k = s.locks k :=
    fun k hk => Function.update_of_ne hk _ _
  refine h.calm c rfl rfl (fun _ _ => rfl) (fun k w => ?_) (fun d k _ hk => ?_)
    (fun n => ⟨h.directory n, id⟩) (fun _ hm => hm) h.cache (h.valid c)
    hok.setPc (fun k hk => ?_) (fun a ha => by cases ha) ?_
  · by_cases hk : k = cfg.lockAddr p
    · rw [hk, hself]
      exact ⟨fun hw => (by cases hw), fun hw => absurd hw (hfree _)⟩
    · rw [hother k hk]
  · rw [hother k (by rintro rfl; exact hnot d hk)]
    exact hk
  · cases hk
    exact hself
  · rw [hpc]
    exact Or.inl rfl

/-- A lock is let go. -/
theorem Inv.unlock (h : Inv cfg s m) {p : GlobalAddress} {mode : Release} {after : After}
    (hpc : (s.clients c).pc = .unlock p mode after) :
    Advance cfg s m (unlock cfg s c p mode after) m none := by
  have hok := h.pc c
  rw [hpc] at hok
  have hheld : s.locks (cfg.lockAddr p) = .held c := h.held c _ (by rw [hpc]; rfl)
  have hlock : ∀ w, mode.lock c.node ≠ .posted (some w) := by cases mode <;> simp [Release.lock]
  have hself : (Tree.unlock cfg s c p mode after).locks (cfg.lockAddr p) = mode.lock c.node :=
    Function.update_self ..
  have hother : ∀ k, k ≠ cfg.lockAddr p → (Tree.unlock cfg s c p mode after).locks k = s.locks k :=
    fun k hk => Function.update_of_ne hk _ _
  refine h.calm c rfl rfl (fun _ _ => rfl) (fun k w => ?_) (fun d k hd hk => ?_)
    (fun n => ⟨h.directory n, id⟩) (fun _ hm => hm) h.cache (h.valid c)
    (pcOk_afterUnlock hok).setPc (fun k hk => ?_) (fun a ha => ?_) ?_
  · by_cases hk : k = cfg.lockAddr p
    · rw [hk, hself, hheld]
      exact ⟨fun hw => absurd hw (hlock w), fun hw => by cases hw⟩
    · rw [hother k hk]
  · rw [hother k (by rintro rfl; rw [hheld] at hk; cases hk; exact hd rfl)]
    exact hk
  · exact absurd hk (by simp)
  · exact absurd ha (by simp)
  · rw [hpc]
    exact afterUnlock_pending after

/-! ### Under the lock -/

/-- `from_cache` of the call. -/
def Task.cached : Task → Bool
  | .leafStore cached | .leafDel cached => cached.isSome
  | .internalStore .. => false

/-- The page of a task is on its level. -/
theorem TaskOk.level {enabled : Bool} {x : Local} {p : GlobalAddress} {task : Task}
    (h : TaskOk m enabled x p task) : ∃ y, m p = some (task.level, y) := by
  cases task with
  | leafStore cached =>
      obtain ⟨-, -, ⟨y, hy, -⟩, -⟩ := h
      exact ⟨y, hy⟩
  | leafDel cached =>
      obtain ⟨-, -, ⟨y, hy, -⟩, -⟩ := h
      exact ⟨y, hy⟩
  | internalStore k v level =>
      obtain ⟨-, -, y, hy, -⟩ := h
      exact ⟨y, hy⟩

/-- The page is read under its lock. -/
theorem Inv.lockedRead (h : Inv cfg s m) {p : GlobalAddress} {task : Task} {page : Page}
    (hpc : (s.clients c).pc = .read p task) (hpage : s.mem p = some page) :
    Advance cfg s m (s.setPc c (.loaded p task page)) m none := by
  have hok : PcOk m (s.directory c.node).enableCache s.mem (s.clients c) (.loaded p task page) := by
    have htask := h.pc c
    rw [hpc] at htask
    exact ⟨htask, hpage⟩
  refine h.client (h.valid c) hok.setPc (fun k hk => ?_) rfl ?_ <;> rw [hpc]
  · exact hk
  · exact Or.inl rfl

/-- The compare-and-swap fails, and the separator goes up by `path_stack`. -/
theorem Inv.postedUp (h : Inv cfg s m) {p sibling root : GlobalAddress} {task : Task} {k : Nat}
    (hpc : (s.clients c).pc = .casRoot p task k sibling root) :
    Advance cfg s m (s.setPc c (postUp (s.clients c) task k sibling)) m none := by
  have hok := h.pc c
  rw [hpc] at hok
  refine h.client (h.valid c) (pcOk_postUp sibling hok.1).setPc (fun k hk => ?_)
    (postUp_fresh task k sibling) ?_
  · exact absurd hk (by simp)
  · rw [hpc]
    exact postUp_pending task k sibling

/-- What a client finds on the page it has locked and read: the page is a leaf, and the
outcome is one of a leaf's, or it is internal and the client is posting a separator. -/
theorem Inv.outcome (h : Inv cfg s m) {p : GlobalAddress} {task : Task} {page : Page}
    (htask : TaskOk m (s.directory c.node).enableCache (s.clients c) p task)
    (hpending : (s.clients c).pc.pending = task.pending)
    (hheld : s.locks (cfg.lockAddr p) = .held c) (hpage : s.mem p = some page) :
    (∃ x lpage, m p = some (0, x) ∧ x ≤ (s.clients c).op.key ∧ page = .leaf lpage ∧
      page.Ok m 0 x ∧ task.level = 0 ∧ task.pending = none ∧
      LeafPage.Result lpage (s.clients c).op.key (s.clients c).op.stored task.cached
        (task.outcome (s.clients c).op page)) ∨
    (∃ x ipage below k v, m p = some (below + 1, x) ∧ x ≤ k ∧ page = .internal ipage ∧
      page.Ok m (below + 1) x ∧ task = .internalStore k v (below + 1) ∧
      InternalPage.Result m ipage below ⟨k, v⟩ (task.outcome (s.clients c).op page)) := by
  have hleaf : Spot m (s.clients c) p 0 (s.clients c).op.key →
      ∃ x lpage, m p = some (0, x) ∧ x ≤ (s.clients c).op.key ∧ page = .leaf lpage ∧
        page.Ok m 0 x ∧ lpage.Ok ∧ lpage.hdr.lowest ≤ (s.clients c).op.key := by
    rintro ⟨x, hp, hxk, -⟩
    obtain ⟨q, hq, hok⟩ := h.shape.page p 0 x hp
    rw [hpage] at hq
    cases hq
    obtain ⟨lpage, rfl, hleaf⟩ := hok.leaf
    have hlow : lpage.hdr.lowest = x := hok.lowest
    exact ⟨x, lpage, hp, hxk, rfl, hok, hleaf, hlow ▸ hxk⟩
  cases task with
  | leafStore cached =>
      obtain ⟨-, hins, hspot, -⟩ := htask
      obtain ⟨x, lpage, hp, hxk, rfl, hok, hleaf, hlow⟩ := hleaf hspot
      refine Or.inl ⟨x, lpage, hp, hxk, rfl, hok, rfl, rfl, ?_⟩
      have hvalid := h.valid c
      cases hop : (s.clients c).op with
      | insert k v =>
          rw [hop] at hvalid hlow
          have hv : v ≠ kValueNull := (of_decide_eq_true hvalid).2
          exact hleaf.store hlow hv cached.isSome
      | _ => rw [hop] at hins; cases hins
  | leafDel cached =>
      obtain ⟨hup, hins, hspot, -⟩ := htask
      obtain ⟨x, lpage, hp, hxk, rfl, hok, hleaf, hlow⟩ := hleaf hspot
      refine Or.inl ⟨x, lpage, hp, hxk, rfl, hok, rfl, rfl, ?_⟩
      cases hop : (s.clients c).op with
      | del k =>
          rw [hop] at hlow
          exact hleaf.del hlow cached.isSome
      | insert k v => rw [hop] at hins; cases hins
      | search k => rw [hop] at hup; cases hup
  | internalStore k v level =>
      obtain ⟨-, -, x, hp, hxk, -⟩ := htask
      obtain ⟨below, hlevel, hsib, -, -, hnew, hrec⟩ := h.pending c ⟨v, k, level⟩ hpending
      simp only at hlevel hsib hnew hrec
      subst hlevel
      obtain ⟨q, hq, hok⟩ := h.shape.page p _ x hp
      rw [hpage] at hq
      cases hq
      obtain ⟨ipage, rfl, hint⟩ := hok.internal
      have hlow : ipage.hdr.lowest = x := hok.lowest
      have hne : x ≠ k := fun hxk => hnew p (hxk ▸ hp)
      have hcontent : s.content cfg p = some (.internal ipage) := (content_of_held hheld).trans hpage
      exact Or.inr ⟨x, ipage, below, k, v, hp, hxk, rfl, hok, rfl,
        hint.store hsib (by omega) (hrec p x _ hp hcontent)⟩

/-- The lock is let go without a write. -/
theorem Inv.letGo (h : Inv cfg s m) {p : GlobalAddress} {task : Task} {page : Page}
    {mode : Release} {after : After} (hpc : (s.clients c).pc = .loaded p task page)
    (hafter : AfterOk m (s.directory c.node).enableCache (s.clients c) after)
    (hpending : after.pending = task.pending) :
    Advance cfg s m (s.setPc c (.unlock p mode after)) m none := by
  have hafter' : PcOk m (s.directory c.node).enableCache s.mem (s.clients c)
      (.unlock p mode after) := hafter
  refine h.client (h.valid c) hafter'.setPc (fun k hk => ?_) rfl ?_
  · rw [hpc]
    exact hk
  · rw [hpc]
    exact Or.inl hpending

/-- What is not there need not be deleted. -/
theorem Advance.absent {s' : State} {m' : Chart} {op : Op} (h : Advance cfg s m s' m' none)
    (hstored : op.stored = none) (habsent : ∀ v, ¬ Holds cfg s m op.key v) :
    Advance cfg s m s' m' (some op) := by
  refine ⟨h.le, h.inv, fun k v => (h.holds k v).trans ?_, h.keeps, h.posts, h.links⟩
  simp only [Effect]
  split
  · rename_i hk
    subst hk
    simp [hstored, habsent v]
  · rfl

/-- Where the client's page ends, another begins. -/
theorem Spot.right {x : Local} {p : GlobalAddress} {l y k : Nat} {page : Page}
    (h : Spot m x p l k) (hp : m p = some (l, y)) (hok : page.Ok m l y)
    (hk : page.hdr.highest ≤ k) (hmax : k < kKeyMax) (hnull : m .Null = none) :
    page.hdr.siblingPtr ≠ .Null ∧ Spot m x page.hdr.siblingPtr l k := by
  have hsib := hok.next (by omega)
  obtain ⟨y', hy', -, hpath⟩ := h
  rw [hp] at hy'
  cases hy'
  exact ⟨ne_null hnull hsib, _, hsib, hk, fun hu => (hpath hu).right (Nat.le_of_lt hok.range)⟩

/-- The new sibling is written, where nobody can find it yet. -/
theorem Inv.link (h : Inv cfg s m) {p fresh : GlobalAddress} {task : Task}
    {page left right : Page} {k : Nat} (hpc : (s.clients c).pc = .loaded p task page)
    (hout : task.outcome (s.clients c).op page = .split left right k)
    (hfresh : s.mem fresh = none ∧ fresh ≠ .Null) :
    Advance cfg s m ((s.write fresh right).setPc c (.linked p task page fresh)) m none := by
  have htask := h.pc c
  rw [hpc] at htask
  obtain ⟨htask, hpage⟩ := htask
  have hother : ∀ a, s.mem a ≠ none →
      ((s.write fresh right).setPc c (.linked p task page fresh)).mem a = s.mem a := by
    intro a ha
    refine Function.update_of_ne ?_ _ _
    rintro rfl
    exact ha hfresh.1
  have hself : ((s.write fresh right).setPc c (.linked p task page fresh)).mem fresh = some right :=
    Function.update_self ..
  have hlinked : PcOk m (s.directory c.node).enableCache
      ((s.write fresh right).setPc c (.linked p task page fresh)).mem (s.clients c)
      (.linked p task page fresh) := by
    refine ⟨htask, ?_, left, right, k, hout, hself⟩
    rw [hother p (by rw [hpage]; exact Option.some_ne_none _)]
    exact hpage
  refine h.calm c rfl rfl hother (fun _ _ => Iff.rfl) (fun _ _ _ hk => hk)
    (fun n => ⟨h.directory n, id⟩) (fun _ hm => hm) h.cache (h.valid c) hlinked.setPc
    (fun k hk => ?_) (fun a ha => ?_) ?_
  · cases hk
    exact h.held c _ (by rw [hpc]; rfl)
  · cases ha
    exact Or.inr ⟨hfresh.1, by rw [hself]; exact Option.some_ne_none _, hfresh.2⟩
  · rw [hpc]
    exact Or.inl rfl

/-- The step after a locked page was read. -/
theorem Inv.loaded (h : Inv cfg s m) {p : GlobalAddress} {task : Task} {page : Page}
    {fresh : GlobalAddress} {waiter : Option Client}
    (hpc : (s.clients c).pc = .loaded p task page)
    (hstep : loaded cfg s c p task page fresh waiter = some s') :
    Advance cfg s m s' m (commits s (.run c fresh waiter)) := by
  have htask := h.pc c
  rw [hpc] at htask
  obtain ⟨htask, hpage⟩ := htask
  have hheld : s.locks (cfg.lockAddr p) = .held c := h.held c _ (by rw [hpc]; rfl)
  have hcontent : s.content cfg p = some page := (content_of_held hheld).trans hpage
  have hcommits : commits s (.run c fresh waiter) =
      commitsBy (s.clients c).op (task.outcome (s.clients c).op page) := by simp only [commits, hpc]
  rw [hcommits]
  unfold Tree.loaded at hstep
  rcases h.outcome htask (by rw [hpc]; rfl) hheld hpage with
    ⟨x, lpage, hp, hxk, rfl, hok, hlevel, hpending, hresult⟩ |
    ⟨x, ipage, below, k, v, hp, hxk, rfl, hok, rfl, hresult⟩
  · have hspot : Spot m (s.clients c) p 0 (s.clients c).op.key := by
      cases task with
      | leafStore cached => exact htask.2.2.1
      | leafDel cached => exact htask.2.2.1
      | internalStore k v level => cases hpending
    generalize hout : task.outcome (s.clients c).op (.leaf lpage) = out at hresult hstep
    cases hresult with
    | stale hcached hk =>
        obtain ⟨mode, -, rfl⟩ := Option.map_eq_some_iff.mp hstep
        refine h.letGo hpc ?_ hpending.symm
        cases task with
        | leafStore cached =>
            obtain ⟨-, hins, -, hnp⟩ := htask
            refine ⟨Op.updates_of_inserts hins, (hnp ?_).2⟩
            rintro rfl
            cases hcached
        | leafDel cached =>
            obtain ⟨hup, -, -, hnp⟩ := htask
            refine ⟨hup, hnp ?_⟩
            rintro rfl
            cases hcached
        | internalStore k v level => cases hpending
    | right hcached hk =>
        obtain ⟨mode, -, rfl⟩ := Option.map_eq_some_iff.mp hstep
        obtain ⟨hne, hright⟩ := hspot.right hp hok hk (Op.key_lt (h.valid c)) h.shape.null
        refine h.letGo hpc ⟨hne, ?_⟩ rfl
        cases task with
        | leafStore cached => exact ⟨htask.1, htask.2.1, hright, fun hc => absurd rfl hc⟩
        | leafDel cached => exact ⟨htask.1, htask.2.1, hright, fun hc => absurd rfl hc⟩
        | internalStore k v level => cases hpending
    | entry i r hk hleaf hchanged =>
        obtain ⟨mode, -, rfl⟩ := Option.map_eq_some_iff.mp hstep
        have hwrite : { s with mem := Function.update s.mem p ((s.mem p).map (Page.setEntry i r)) } =
            s.write p (.leaf (lpage.set i r)) := by rw [hpage]; rfl
        rw [hwrite]
        refine h.store hpc hp ⟨hok.level, hok.lowest, hok.top, hok.last, hok.next, hleaf⟩ rfl
          (fun r hr => by cases hr) (fun y a hpt => hpt) (fun d hd => ?_) (fun op hop => ?_)
          fun k v => hchanged k v
        · rw [hpending] at hd
          cases hd
        · cases hop
          exact ⟨rfl, hxk, hk⟩
    | absent hk hnone habsent =>
        obtain ⟨mode, -, rfl⟩ := Option.map_eq_some_iff.mp hstep
        have hgo : Advance cfg s m (s.setPc c (.unlock p mode .done)) m none :=
          h.letGo hpc htask.updates hpending.symm
        refine hgo.absent hnone ?_
        rintro v ⟨a, e, q, ha, hq, hhas⟩
        have hap := h.shape.has_home hp hcontent rfl hxk hk ha hq hhas
        subst hap
        rw [hcontent] at hq
        cases hq
        exact habsent v hhas
    | split mid left right splitKey hk hdr hsplit hchanged hstored =>
        simp only at hstep
        split at hstep
        · rename_i hfresh
          cases hstep
          exact h.link hpc hout hfresh
        · cases hstep
  · generalize hout : (Task.internalStore k v (below + 1)).outcome (s.clients c).op
      (.internal ipage) = out at hresult hstep
    cases hresult with
    | right hk =>
        obtain ⟨mode, -, rfl⟩ := Option.map_eq_some_iff.mp hstep
        obtain ⟨hroot, hins, hspot⟩ := htask
        obtain ⟨-, -, -, -, hmax, -⟩ := h.pending c ⟨v, k, below + 1⟩ (by rw [hpc]; rfl)
        obtain ⟨hne, hright⟩ := hspot.right hp hok hk hmax h.shape.null
        exact h.letGo hpc ⟨hne, hroot, hins, hright⟩ rfl
    | page page' hk hint hdr hrecords =>
        obtain ⟨mode, -, rfl⟩ := Option.map_eq_some_iff.mp hstep
        refine h.store hpc hp ?_ (congrArg Header.highest hdr) (fun r hr => ?_) (fun y a hpt => ?_)
          (fun d hd => ?_) (fun op hop => by cases hop) fun k v => Iff.rfl
        · refine ⟨?_, ?_, ?_, ?_, ?_, below, rfl, hint⟩ <;> simp only [Page.hdr, hdr]
          · exact hok.level
          · exact hok.lowest
          · exact hok.top
          · exact hok.last
          · exact hok.next
        · rcases (hrecords r).mp hr with rfl | hr
          · exact Or.inr (Or.inr ⟨⟨v, k, below + 1⟩, by rw [hpc]; rfl, rfl, rfl⟩)
          · exact Or.inr (Or.inl ⟨r, hr, rfl⟩)
        · rcases hpt with hr | hleft
          · exact Or.inl ((hrecords _).mpr (Or.inr hr))
          · exact Or.inr (hdr ▸ hleft)
        · cases hd
          exact ⟨rfl, Or.inl ((hrecords _).mpr (Or.inl rfl))⟩
    | split left right splitKey hk hsplit =>
        simp only at hstep
        split at hstep
        · rename_i hfresh
          cases hstep
          exact h.link hpc hout hfresh
        · cases hstep

/-- The write of a page that was split. -/
theorem Inv.linked (h : Inv cfg s m) {p sibling : GlobalAddress} {task : Task} {page : Page}
    {fresh : GlobalAddress} {waiter : Option Client}
    (hpc : (s.clients c).pc = .linked p task page sibling)
    (hstep : linked cfg s c p task page sibling waiter = some s') :
    ∃ m', Advance cfg s m s' m' (commits s (.run c fresh waiter)) := by
  have htask := h.pc c
  rw [hpc] at htask
  obtain ⟨htask, hpage, left, right, k, hout, hright⟩ := htask
  have hheld : s.locks (cfg.lockAddr p) = .held c := h.held c _ (by rw [hpc]; rfl)
  obtain ⟨hfr, -, hnull⟩ := h.fresh c sibling (by rw [hpc]; rfl)
  simp only [Tree.linked, hout] at hstep
  obtain ⟨mode, -, rfl⟩ := Option.map_eq_some_iff.mp hstep
  generalize hcommits : commits s (.run c fresh waiter) = committed
  have hle : ∀ l, m.Le (m.add sibling l k) := fun l => Chart.le_add l k hfr
  have hnull' : ∀ l, (m.add sibling l k) .Null = none := fun l =>
    (m.add_other l k (Ne.symm hnull)).trans h.shape.null
  -- what the new page and its client's knowledge have to be, however the write is carried out
  have hwrite : ∀ l, task.level = l →
      SplitOk (m.add sibling l k) (s.directory c.node).enableCache (s.clients c) p task k →
      (∀ s' x', Rewrite cfg s s' c p (left.link sibling) →
        s'.clients = Function.update s.clients c x' → x'.op.valid = true →
        PcOk (m.add sibling l k) (s'.directory c.node).enableCache s'.mem x' x'.pc →
        (∀ k, x'.pc.holds cfg = some k → s'.locks k = .held c) → x'.pc.fresh = none →
        (x'.pc.pending = some ⟨sibling, k, l + 1⟩ ∨ ∃ why, x'.pc = .failed why) →
        Advance cfg s m s' (m.add sibling l k) committed) →
      ∃ m', Advance cfg s m
        (writeSplit cfg s c p (left.link sibling) (.split p task k sibling) mode) m' committed := by
    rintro l rfl hsplitOk hadvance
    have hlater : PcOk (m.add sibling task.level k) (s.directory c.node).enableCache s.mem
        (s.clients c) (afterUnlock (s.clients c) (.split p task k sibling)) :=
      pcOk_afterUnlock hsplitOk
    have hsync : ∀ mode, ∃ m', Advance cfg s m ((s.write p (left.link sibling)).setPc c
        (.unlock p mode (.split p task k sibling))) m' committed := fun mode =>
      ⟨_, hadvance _ _ (Rewrite.sync hheld _ _) rfl (h.valid c) hsplitOk
        (fun k hk => by cases hk; exact hheld) rfl (Or.inl rfl)⟩
    cases mode with
    | async =>
        refine ⟨_, hadvance _ _ (Rewrite.posting hheld _ _) rfl (h.valid c) ?_ (fun k hk => ?_) ?_ ?_⟩
        · exact hlater.setPc
        · exact absurd hk (by simp)
        · exact afterUnlock_fresh (x := s.clients c) (.split p task k sibling)
        · exact afterUnlock_pending (x := s.clients c) (.split p task k sibling)
    | handover => exact hsync _
    | sync => exact hsync _
  rcases h.outcome htask (by rw [hpc]; rfl) hheld hpage with
    ⟨x, lpage, hp, hxk, rfl, hok, hlevel, hpending, hresult⟩ |
    ⟨x, ipage, below, kp, v, hp, hxk, rfl, hok, rfl, hresult⟩
  · rw [hout] at hresult
    cases hresult with
    | split mid left right splitKey hk hdr hsplit hchanged hstored =>
        have hpage' := pageSplit_leaf hok hdr hsplit
        have hstore : ∃ cached, task = .leafStore cached := by
          cases task with
          | leafStore cached => exact ⟨cached, rfl⟩
          | leafDel cached =>
              obtain ⟨-, hins, -⟩ := htask
              exact absurd (Op.stored_of_inserts hins) hstored
          | internalStore k v level => cases hpending
        obtain ⟨cached, rfl⟩ := hstore
        obtain ⟨hroot, hins, hspot, hcached⟩ := htask
        have hcommitted : committed = some (s.clients c).op := by
          rw [← hcommits]
          simp only [commits, hpc]
        subst hcommitted
        refine hwrite 0 rfl ⟨hroot.mono (hle 0), hins, ?_, hcached⟩ fun s' x' hw hclients hvalid hpcOk
          hheld' hfresh' hpend => h.split hw hclients hpc hp hpage' hright (Or.inl rfl)
            (fun r hr => ?_) (fun y a hpt => hpt.elim) (fun d hd => by cases hd) (fun op hop => ?_)
            (fun k v => ?_) hvalid hpcOk hheld' hfresh' hpend
        · obtain ⟨y, hy, -, hpath⟩ := hspot
          rw [hp] at hy
          cases hy
          exact ⟨x, hle 0 _ _ hp, hpage'.inside.1,
            (hpath (Op.updates_of_inserts hins)).mono (hle 0) (hnull' 0)⟩
        · rcases hr with hr | hr <;> cases hr
        · cases hop
          exact ⟨rfl, hxk, hk⟩
        · exact (hsplit.has k v).symm.trans (hchanged k v)
  · rw [hout] at hresult
    cases hresult with
    | split left right splitKey hk hsplit =>
        have hpage' := pageSplit_internal hok hsplit
        obtain ⟨hroot, hins, hspot⟩ := htask
        have hcommitted : committed = none := by
          rw [← hcommits]
          simp only [commits, hpc]
        subst hcommitted
        -- every separator of the halves was on the page or is the one being posted
        have hknown : ∀ r, r = ⟨kp, v⟩ ∨ r ∈ ipage.records →
            Known s c (below + 1) (.internal ipage) r.key := by
          rintro r (rfl | hr)
          · exact Or.inr (Or.inr ⟨⟨v, kp, below + 1⟩, by rw [hpc]; rfl, rfl, rfl⟩)
          · exact Or.inr (Or.inl ⟨r, hr, rfl⟩)
        have hpoints : ∀ r, r = ⟨kp, v⟩ ∨ r ∈ ipage.records →
            (Page.internal left).Points r.key r.ptr ∨ (Page.internal right).Points r.key r.ptr := by
          intro r hr
          rcases (hsplit.records r).mp hr with hl | hr | rfl
          · exact Or.inl (Or.inl hl)
          · exact Or.inr (Or.inl hr)
          · exact Or.inr (Or.inr ⟨hsplit.rightLowest, rfl⟩)
        refine hwrite (below + 1) rfl ⟨hroot.mono (hle _), hins, ?_, trivial⟩ fun s' x' hw hclients
          hvalid hpcOk hheld' hfresh' hpend => h.split hw hclients hpc hp hpage' hright
            (hknown ⟨k, right.hdr.leftmostPtr⟩ ((hsplit.records _).mpr (Or.inr (Or.inr rfl))))
            (fun r hr => hknown r ((hsplit.records r).mpr (hr.imp_right Or.inl)))
            (fun y a hpt => ?_) (fun d hd => ?_) (fun op hop => by cases hop) (fun k v => ?_)
            hvalid hpcOk hheld' hfresh' hpend
        · obtain ⟨y, hy, -, hpath⟩ := hspot
          rw [hp] at hy
          cases hy
          exact ⟨x, hle _ _ _ hp, hpage'.inside.1,
            (hpath (Op.updates_of_inserts hins)).mono (hle _) (hnull' _)⟩
        · rcases hpt with hr | ⟨hlow, hleft⟩
          · exact hpoints ⟨y, a⟩ (Or.inr hr)
          · refine Or.inl (Or.inr ?_)
            rw [hsplit.leftHdr]
            exact ⟨hlow, hleft⟩
        · cases hd
          exact ⟨rfl, hpoints ⟨kp, v⟩ (Or.inl rfl)⟩
        · exact or_self_iff

end Local

/-! ### The steps put together -/

section Step

variable {cfg : Config} {s s' : State} {m : Chart}

/-- A step of a client. -/
theorem Inv.run (h : Inv cfg s m) {c : Client} {fresh : GlobalAddress} {waiter : Option Client}
    (hstep : runClient cfg s c fresh waiter = some s') :
    ∃ m', Advance cfg s m s' m' (commits s (.run c fresh waiter)) := by
  unfold runClient at hstep
  cases hpc : (s.clients c).pc with
  | idle response => simp only [hpc] at hstep; cases hstep
  | failed why => simp only [hpc] at hstep; cases hstep
  | start =>
      simp only [hpc, Option.some.injEq] at hstep
      simp only [commits, hpc]
      exact ⟨m, hstep ▸ h.started hpc⟩
  | getRoot use =>
      simp only [hpc] at hstep
      simp only [commits, hpc]
      split at hstep
      · obtain rfl := Option.some.inj hstep
        have hok : PcOk m (s.directory c.node).enableCache s.mem (s.clients c) (.readRoot use) := by
          have huse := h.pc c
          rwa [hpc] at huse
        refine ⟨m, h.client (h.valid c) hok.setPc (fun k hk => by cases hk) rfl ?_⟩
        rw [hpc]
        exact Or.inl rfl
      · rename_i hne
        exact ⟨m, Option.some.inj hstep ▸ h.announcedRoot hpc hne⟩
  | readRoot use =>
      simp only [hpc, Option.some.injEq] at hstep
      simp only [commits, hpc]
      exact ⟨m, hstep ▸ h.memoryRoot hpc⟩
  | searchCache =>
      simp only [hpc, Option.some.injEq] at hstep
      simp only [commits, hpc]
      exact ⟨m, hstep ▸ h.cacheSearched hpc⟩
  | descend p goal =>
      simp only [hpc, Option.some.injEq] at hstep
      simp only [commits, hpc]
      exact ⟨m, hstep ▸ h.descend hpc⟩
  | caching p page goal =>
      simp only [hpc, Option.some.injEq] at hstep
      simp only [commits, hpc]
      exact ⟨m, hstep ▸ h.caching hpc⟩
  | invalidate entry =>
      simp only [hpc, Option.some.injEq] at hstep
      simp only [commits, hpc]
      exact ⟨m, hstep ▸ h.invalidate hpc⟩
  | lock p task =>
      simp only [hpc] at hstep
      simp only [commits, hpc]
      split at hstep
      · rename_i hfree
        obtain rfl := Option.some.inj hstep
        exact ⟨m, h.lock hpc (fun w hw => by rw [hfree] at hw; cases hw)
          (fun d hd => by rw [hfree] at hd; cases hd)⟩
      · rename_i n hhanded
        split at hstep
        · obtain rfl := Option.some.inj hstep
          exact ⟨m, h.lock hpc (fun w hw => by rw [hhanded] at hw; cases hw)
            (fun d hd => by rw [hhanded] at hd; cases hd)⟩
        · cases hstep
      · cases hstep
  | read p task =>
      simp only [hpc] at hstep
      simp only [commits, hpc]
      split at hstep
      · -- the page of a task is a page of the tree
        rename_i hnone
        have htask := h.pc c
        rw [hpc] at htask
        obtain ⟨y, hy⟩ := TaskOk.level htask
        exact absurd hnone (h.shape.mapped hy)
      · rename_i page hpage
        exact ⟨m, Option.some.inj hstep ▸ h.lockedRead hpc hpage⟩
  | loaded p task page =>
      simp only [hpc] at hstep
      exact ⟨m, h.loaded hpc hstep⟩
  | linked p task page sibling =>
      simp only [hpc] at hstep
      exact h.linked hpc hstep
  | unlock p mode after =>
      simp only [hpc, Option.some.injEq] at hstep
      simp only [commits, hpc]
      exact ⟨m, hstep ▸ h.unlock hpc⟩
  | grow p task splitKey sibling =>
      simp only [hpc] at hstep
      simp only [commits, hpc]
      split at hstep
      · rename_i hfresh
        exact ⟨m, Option.some.inj hstep ▸ h.newRoot hpc hfresh⟩
      · cases hstep
  | casRoot p task splitKey sibling root =>
      simp only [hpc, Option.some.injEq] at hstep
      subst hstep
      simp only [commits, hpc]
      by_cases hroot : s.rootPtr = (s.clients c).root
      · exact ⟨_, h.grow hpc hroot⟩
      · rw [show Tree.casRoot cfg s c task splitKey sibling root =
          s.setPc c (postUp (s.clients c) task splitKey sibling) from if_neg hroot]
        exact ⟨m, h.postedUp hpc⟩

/-- A call is made. -/
theorem Inv.call (h : Inv cfg s m) {c : Client} {op : Op}
    (hstep : step cfg s (.call c op) = some s') : Advance cfg s m s' m none := by
  simp only [step] at hstep
  split at hstep
  · rename_i response hpc
    split at hstep
    · rename_i hvalid
      cases hstep
      cases op with
      | search k =>
          have hok : PcOk m (s.directory c.node).enableCache s.mem
              { s.clients c with op := .search k } (.getRoot .operation) := fun hu => by cases hu
          refine h.client hvalid hok.setPc (fun k hk => by cases hk) rfl ?_
          rw [hpc]
          exact Or.inl rfl
      | insert k v | del k =>
          refine h.client hvalid ⟨rfl, fun _ => rfl⟩ (fun k hk => by cases hk) rfl ?_
          rw [hpc]
          exact Or.inl rfl
    · cases hstep
  · cases hstep

/-- A posted write is executed. -/
theorem Inv.land (h : Inv cfg s m) {l : LockAddr} (hstep : step cfg s (.land l) = some s') :
    Advance cfg s m s' m none := by
  simp only [step] at hstep
  split at hstep
  · rename_i a page hl
    cases hstep
    obtain ⟨hlock, i, x, ha, -⟩ := h.shape.posted _ _ _ hl
    have hself : ((s.write a page).setLock l (.posted none)).locks l = .posted none :=
      Function.update_self ..
    have hother : ∀ k, k ≠ l → ((s.write a page).setLock l (.posted none)).locks k = s.locks k :=
      fun k hk => Function.update_of_ne hk _ _
    have hmem : ((s.write a page).setLock l (.posted none)).mem a = some page :=
      Function.update_self ..
    have hmemOther : ∀ b, b ≠ a → ((s.write a page).setLock l (.posted none)).mem b = s.mem b :=
      fun b hb => Function.update_of_ne hb _ _
    have hnone : ∀ b, cfg.lockAddr b = l → ((s.write a page).setLock l (.posted none)).content cfg b =
        ((s.write a page).setLock l (.posted none)).mem b := fun b hb =>
      content_of_not_posted fun q hq => by rw [hb, hself] at hq; cases hq
    refine h.settle rfl rfl (fun b e _ => ?_) (fun b => ?_) (fun k w hw => ?_) (fun d k hk => ?_)
      (fun n => ⟨h.directory n, id⟩) (fun _ hm => hm) h.cache
    · by_cases hb : cfg.lockAddr b = l
      · rw [hnone b hb]
        by_cases hba : b = a
        · rw [hba, hmem, content_of_posted (hlock ▸ hl)]
        · rw [hmemOther b hba, content_of_not_posted]
          intro q hq
          rw [hb, hl] at hq
          cases hq
          exact hba rfl
      · refine content_congr (hmemOther b ?_) fun w => by rw [hother _ hb]
        rintro rfl
        exact hb hlock
    · by_cases hba : b = a
      · rw [hba, hmem, content_of_posted (hlock ▸ hl)]
        refine Or.inr ⟨by rw [ha]; exact Option.some_ne_none _, fun d hd => ?_, rfl⟩
        rw [hlock, hl] at hd
        cases hd
      · exact Or.inl (hmemOther b hba)
    · by_cases hk : k = l
      · rw [hk, hself] at hw
        cases hw
      · rwa [hother k hk] at hw
    · rw [hother k (by rintro rfl; rw [hl] at hk; cases hk)]
      exact hk
  · rename_i hl
    cases hstep
    have hself : (s.setLock l .free).locks l = .free := Function.update_self ..
    have hother : ∀ k, k ≠ l → (s.setLock l .free).locks k = s.locks k :=
      fun k hk => Function.update_of_ne hk _ _
    have hlocks : ∀ k w, (s.setLock l .free).locks k = .posted (some w) ↔
        s.locks k = .posted (some w) := by
      intro k w
      by_cases hk : k = l
      · rw [hk, hself, hl]
        exact ⟨fun hw => (by cases hw), fun hw => (by cases hw)⟩
      · rw [hother k hk]
    refine h.settle rfl rfl (fun b e _ => content_congr rfl (hlocks _)) (fun b => Or.inl rfl)
      (fun k w hw => (hlocks k w).mp hw) (fun d k hk => ?_) (fun n => ⟨h.directory n, id⟩)
      (fun _ hm => hm) h.cache
    rw [hother k (by rintro rfl; rw [hl] at hk; cases hk)]
    exact hk
  · cases hstep

/-- A directory learns of a root. -/
theorem DirectoryOk.newRoot {d : Directory} {a : GlobalAddress} {l : Nat} (h : DirectoryOk m d)
    (hnull : m .Null = none) (ha : m a = some (l, kKeyMin)) :
    DirectoryOk m (d.newRoot a l) ∧ (d.enableCache = true → (d.newRoot a l).enableCache = true) := by
  unfold Directory.newRoot
  split
  · rename_i hlt
    refine ⟨⟨fun _ => ⟨l, rfl, ha⟩, fun hen => ⟨ne_null hnull ha, ?_⟩⟩, fun hen => ?_⟩
    · rcases (Bool.or_eq_true _ _).mp hen with hen | hlevel
      · have := (h.enabled hen).2
        simp only
        omega
      · exact Int.ofNat_le.mpr (of_decide_eq_true hlevel)
    · simp [hen]
  · exact ⟨h, id⟩

theorem Inv.deliver (h : Inv cfg s m) {message : Nat × GlobalAddress × Nat}
    (hstep : step cfg s (.deliver message) = some s') : Advance cfg s m s' m none := by
  obtain ⟨n, a, l⟩ := message
  simp only [step] at hstep
  split at hstep
  · rename_i hm
    cases hstep
    refine h.settle rfl rfl (fun _ _ _ => rfl) (fun _ => Or.inl rfl) (fun _ _ hw => hw)
      (fun _ _ hk => hk) (fun i => ?_) (fun x hx => List.mem_of_mem_erase hx) h.cache
    by_cases hi : i = n
    · subst hi
      simp only [Function.update_self]
      exact (h.directory i).newRoot h.shape.null (h.messages _ _ _ hm)
    · simp only [Function.update_of_ne hi]
      exact ⟨h.directory i, id⟩
  · cases hstep

/-- **Every step advances the tree.** -/
theorem Inv.step (h : Inv cfg s m) {action : Action} (hstep : step cfg s action = some s') :
    ∃ m', Advance cfg s m s' m' (commits s action) := by
  cases action with
  | call c op => exact ⟨m, h.call hstep⟩
  | run c fresh waiter => exact h.run hstep
  | land l => exact ⟨m, h.land hstep⟩
  | deliver message => exact ⟨m, h.deliver hstep⟩
  | evict n entry =>
      cases hstep
      exact ⟨m, h.settle rfl rfl (fun _ _ _ => rfl) (fun _ => Or.inl rfl) (fun _ _ hw => hw)
        (fun _ _ hk => hk) (fun n => ⟨h.directory n, id⟩) (fun _ hm => hm)
        (h.setCache_invalidate n entry)⟩

end Step

/-! ### Reachable states -/

/-- The chart of a tree that is one leaf. -/
def Chart.single (root : GlobalAddress) : Chart := fun a =>
  if a = root then some (0, kKeyMin) else none

theorem new_ok : (LeafPage.new 0).setConsistent.Ok := by
  have hlive : ∀ r ∈ (LeafPage.new 0).setConsistent.records, r = .new := fun r hr =>
    List.eq_of_mem_replicate hr
  refine ⟨⟨rfl, rfl, rfl, by decide, fun r hr => ?_, fun r hr hl => ?_, ?_⟩, ?_⟩
  · rw [hlive r hr]
    rfl
  · rw [hlive r hr] at hl
    cases hl
  · refine List.pairwise_of_forall_mem_list fun a ha b hb hl => ?_
    rw [hlive a ha] at hl
    cases hl
  · rw [List.countP_eq_zero.mpr fun r hr => by rw [hlive r hr]; decide]
    decide

theorem inv_init (cfg : Config) {root : GlobalAddress} (hroot : root ≠ .Null) :
    Inv cfg (State.init root) (Chart.single root) := by
  have hself : Chart.single root root = some (0, kKeyMin) := if_pos rfl
  have honly : ∀ {a l x}, Chart.single root a = some (l, x) → a = root ∧ l = 0 ∧ x = kKeyMin := by
    intro a l x ha
    unfold Chart.single at ha
    split at ha
    · cases ha
      exact ⟨by assumption, rfl, rfl⟩
    · cases ha
  have hmem : (State.init root).mem root = some (.leaf (LeafPage.new 0).setConsistent) := if_pos rfl
  have hpage : Page.Ok (Chart.single root) (.leaf (LeafPage.new 0).setConsistent) 0 kKeyMin :=
    ⟨rfl, rfl, Nat.le_refl _, fun _ => rfl, fun hne => absurd rfl hne, new_ok⟩
  have hcovers : ∀ {l a x y}, Covers cfg (State.init root) (Chart.single root) l a x y →
      a = root ∧ x = kKeyMin ∧ y = kKeyMax := by
    rintro l a x y ⟨ha, page, hp, rfl⟩
    obtain ⟨rfl, -, rfl⟩ := honly ha
    rw [content_of_not_posted (fun q hq => (by cases hq)), hmem] at hp
    cases hp
    exact ⟨rfl, rfl, rfl⟩
  have hshape : Shape cfg (State.init root) (Chart.single root) := by
    refine ⟨if_neg (Ne.symm hroot), fun a l x ha => ?_, fun k a page hp => (by cases hp), fun l => ?_⟩
    · obtain ⟨rfl, rfl, rfl⟩ := honly ha
      exact ⟨_, hmem, hpage⟩
    · refine ⟨fun ha => ?_, fun ha hb => ?_, fun ha hb => ?_, fun ha hb => ?_, fun ha hb hlt => ?_⟩
      · obtain ⟨-, rfl, rfl⟩ := hcovers ha
        decide
      · rw [(hcovers ha).2.1, (hcovers hb).2.1]
      · rw [(hcovers ha).2.2, (hcovers hb).2.2]
      · rw [(hcovers ha).1, (hcovers hb).1]
      · rw [(hcovers ha).2.1, (hcovers hb).2.1] at hlt
        exact absurd hlt (Nat.lt_irrefl _)
  have hclients : ClientsOk cfg (State.init root) (Chart.single root) :=
    ⟨fun c => rfl, fun c => trivial, fun c k hk => (by cases hk), fun c a ha => (by cases ha),
      fun c d a ha => (by cases ha)⟩
  refine ⟨hclients, hshape, ⟨0, hself, fun a l x ha => ?_⟩, fun n => ?_,
    fun n a l hm => (by cases hm), fun n e page he => (by cases he), fun c d hd => (by cases hd),
    fun c d e e' he => (by cases he)⟩
  · rw [(honly ha).2.1]
  · exact ⟨fun hne => absurd rfl hne, fun hen => (by cases hen)⟩

/-- **Every reachable tree has a chart that explains it.** -/
theorem reachable_inv {cfg : Config} {s : State} (hs : (machine cfg).Reachable s) :
    ∃ m, Inv cfg s m := by
  refine System.ReachableBy.invariant (I := fun s => ∃ m, Inv cfg s m) hs ?_ ?_
  · rintro s ⟨root, hroot, rfl⟩
    exact ⟨_, inv_init cfg hroot⟩
  · rintro s action s' ⟨m, h⟩ - hstep
    obtain ⟨m', hadv⟩ := h.step hstep
    exact ⟨m', hadv.inv⟩

end Dal.Tree
