/-
A call takes finitely many steps of its own.

Return.lean counts down the steps of a client that is alone.  Others can do no more than
make it wait: what they write does not lead it back.  A descent goes down or to the right,
and where a page begins never changes, so what is left of the descent is the same after a
split or a new root.  A call that came from a stale cache entry starts again, but only
once and without the cache.  And a split goes up no higher than the root the client has
come from, which is what `Low` keeps.
-/
import Dal.Tree.Return
import Dal.Lib.Endless

namespace Dal.Tree

/-! ### What is left -/

/-- The level of a page of the tree. -/
def levelOf (m : Chart) (a : GlobalAddress) : Nat :=
  match m a with
  | some (l, _) => l
  | none => 0

/-- The part of a call in which a page is locked for a task: through the cache first. -/
def Task.part : Task → Nat
  | .leafStore cached | .leafDel cached => if cached.isSome then 13 else 7
  | .internalStore .. => 3

/-- The part in which the page is split. -/
def Task.rising : Task → Nat
  | .leafStore _ | .leafDel _ => 6
  | .internalStore .. => 3

/-- The levels from the page of a task up to the root. -/
def Task.above (m : Chart) (root : GlobalAddress) : Task → Nat
  | .leafStore _ | .leafDel _ => 0
  | .internalStore _ _ level => levelOf m root - level

def Goal.part : Goal → Nat
  | .leaf (some _) => 9
  | .leaf none => 8
  | .parent .. => 4

def RootUse.part : RootUse → Nat
  | .cachedStore .. => 14
  | .operation => 11
  | .parent .. => 5
  | .retry _ => 0

/-- What a client still has to do: the part of the call, the levels that may be split, the
place of the page and the step. -/
def Local.left (m : Chart) (x : Local) : Pc → ℕ × ℕ × ℕ × ℕ
  | .idle _ | .failed _ => (0, 0, 0, 0)
  | .start => (15, 0, 0, 0)
  | .getRoot use => (use.part, 0, 0, 1)
  | .readRoot use => (use.part, 0, 0, 0)
  | .searchCache => (10, 0, 0, 0)
  | .descend p goal => (goal.part, 0, place m p, 1)
  | .caching p _ goal => (goal.part, 0, place m p, 0)
  | .invalidate _ => if x.op.updates then (12, 0, 0, 0) else (9, 0, 0, 0)
  | .lock p task => (task.part, task.above m x.root, place m p, 6)
  | .read p task => (task.part, task.above m x.root, place m p, 5)
  | .loaded p task _ => (task.part, task.above m x.root, place m p, 4)
  | .linked p task _ _ => (task.part, task.above m x.root, place m p, 3)
  | .unlock _ _ .done => (0, 0, 0, 1)
  | .unlock _ _ (.stale _) => (12, 0, 0, 1)
  | .unlock _ _ (.right task sibling) =>
      (task.uncached.part, task.above m x.root, place m sibling, 7)
  | .unlock _ _ (.split p task _ _) => (task.rising, task.above m x.root, place m p, 2)
  | .grow p task _ _ => (task.rising, task.above m x.root, place m p, 1)
  | .casRoot p task _ _ _ => (task.rising, task.above m x.root, place m p, 0)

/-- The parts first, and then as before. -/
def Less : ℕ × ℕ × ℕ × ℕ → ℕ × ℕ × ℕ × ℕ → Prop := Prod.Lex (· < ·) Below

section Less

variable {a a' b b' d d' n n' : ℕ}

theorem less_wf : WellFounded Less := Nat.lt_wfRel.wf.prod_lex below_wf

theorem Less.part {t t' : ℕ × ℕ × ℕ} (h : a < a') : Less (a, t) (a', t') := Prod.Lex.left _ _ h

theorem Less.level (h : b < b') : Less (a, b, d, n) (a, b', d', n') :=
  Prod.Lex.right _ (Below.phase h)

theorem Less.place (hb : b = b') (h : d < d') : Less (a, b, d, n) (a, b', d', n') := by
  subst hb
  exact Prod.Lex.right _ (Below.place h)

theorem Less.step (hb : b = b') (hd : d = d') (h : n < n') : Less (a, b, d, n) (a, b', d', n') := by
  subst hb
  exact Prod.Lex.right _ (Below.step hd h)

end Less

section Left

variable {m m' : Chart} {x : Local} {p : GlobalAddress} {l y : Nat}

theorem levelOf_of (h : m p = some (l, y)) : levelOf m p = l := by
  unfold levelOf
  rw [h]

theorem RootAt.levelOf (hle : m.Le m') (h : RootAt m p) : levelOf m' p = levelOf m p := by
  obtain ⟨l, hl⟩ := h
  rw [levelOf_of hl, levelOf_of (hle _ _ hl)]

theorem Task.above_mono (hle : m.Le m') {root : GlobalAddress} {task : Task}
    (h : task.pending ≠ none → RootAt m root) : task.above m' root = task.above m root := by
  cases task with
  | leafStore cached | leafDel cached => rfl
  | internalStore k v level =>
      have hroot := h (Option.some_ne_none _)
      simp only [Task.above, hroot.levelOf hle]

theorem TaskOk.root {enabled : Bool} {task : Task} (h : TaskOk m enabled x p task)
    (hpending : task.pending ≠ none) : RootAt m x.root := by
  cases task with
  | leafStore cached | leafDel cached => exact absurd rfl hpending
  | internalStore k v level => exact h.1

theorem GoalOk.at_page {enabled : Bool} {goal : Goal} (h : GoalOk m enabled x p goal) :
    ∃ l y, m p = some (l, y) := by
  cases goal with
  | leaf cached =>
      obtain ⟨-, l, ⟨y, hy, -⟩, -⟩ := h
      exact ⟨l, y, hy⟩
  | parent k v level =>
      obtain ⟨-, -, -, l, -, ⟨y, hy, -⟩⟩ := h
      exact ⟨l, y, hy⟩

theorem uncached_above {root : GlobalAddress} (task : Task) :
    task.uncached.above m root = task.above m root := by cases task <;> rfl

/-- Later charts make no difference to what is left. -/
theorem Local.left_mono (hle : m.Le m') {enabled : Bool} {mem : GlobalAddress → Option Page}
    {pc : Pc} (h : PcOk m enabled mem x pc) : x.left m' pc = x.left m pc := by
  have htask : ∀ {q : GlobalAddress} {task : Task} {part step : ℕ}, TaskOk m enabled x q task →
      (part, task.above m' x.root, Tree.place m' q, step) =
        (part, task.above m x.root, Tree.place m q, step) := by
    intro q task part step htask
    obtain ⟨y, hy⟩ := htask.level
    rw [Task.above_mono hle htask.root, place_mono hle hy]
  have hsplit : ∀ {q : GlobalAddress} {task : Task} {k part step : ℕ},
      SplitOk m enabled x q task k → (part, task.above m' x.root, Tree.place m' q, step) =
        (part, task.above m x.root, Tree.place m q, step) := by
    intro q task k part step hsplit
    obtain ⟨hroot, -, ⟨y, hy, -⟩, -⟩ := hsplit
    rw [Task.above_mono hle fun _ => hroot, place_mono hle hy]
  cases pc with
  | descend q goal =>
      obtain ⟨l, y, hy⟩ := GoalOk.at_page h
      simp only [Local.left, place_mono hle hy]
  | caching q page goal =>
      obtain ⟨l, y, hy⟩ := GoalOk.at_page h.1
      simp only [Local.left, place_mono hle hy]
  | lock q task | read q task => exact htask h
  | loaded q task page => exact htask h.1
  | linked q task page sibling => exact htask h.1
  | unlock q mode after =>
      cases after with
      | done | stale entry => rfl
      | right task sibling =>
          have hgo : TaskOk m enabled x sibling task.uncached := h.2
          have heq : (task.uncached.part, task.uncached.above m' x.root, Tree.place m' sibling, 7) =
              (task.uncached.part, task.uncached.above m x.root, Tree.place m sibling, 7) := htask hgo
          rwa [uncached_above, uncached_above] at heq
      | split q task k sibling => exact hsplit h
  | grow q task k sibling => exact hsplit h.1
  | casRoot q task k sibling newRoot => exact hsplit h.1
  | _ => rfl

end Left

/-! ### Down and to the right -/

/-- From page `p` of a descent, which is on level `l` and begins at `y`, a client goes on. -/
inductive Onward (m : Chart) (l y : Nat) (x : Local) (goal : Goal) : Pc → Prop
  | returned (r : Option Response) : Onward m l y x goal (.idle r)
  | failed (why : Assertion) : Onward m l y x goal (.failed why)
  | stale (entry : Nat × Nat) (hgoal : goal = .leaf (some entry)) (hup : x.op.updates = false) :
      Onward m l y x goal (.invalidate entry)
  | right (q : GlobalAddress) (z : Nat) (hq : m q = some (l, z)) (hyz : y < z) :
      Onward m l y x goal (.descend q goal)
  | down (q : GlobalAddress) (below z : Nat) (hl : l = below + 1) (hq : m q = some (below, z)) :
      Onward m l y x goal (.descend q goal)
  | found (q : GlobalAddress) (task : Task) (hpart : task.part < goal.part) :
      Onward m l y x goal (.lock q task)

section Onward

variable {m m' : Chart} {enabled : Bool} {x : Local} {p : GlobalAddress} {l y : Nat} {goal : Goal}

/-- Only a search goes through the cache. -/
theorem GoalOk.plain {cached : Option (Nat × Nat)} (h : GoalOk m enabled x p (.leaf cached))
    (hup : x.op.updates = true) : cached = none := by
  obtain ⟨-, _, -, hcached⟩ := h
  by_contra hne
  rw [(hcached hne).2] at hup
  cases hup

theorem afterSearch_onward {page : Page} {result : Option SearchResult}
    (h : GoalOk m enabled x p goal) (hnull : m .Null = none) (hrange : y < page.hdr.highest)
    (hfound : Found m page l y (goal.key x.op) goal.fromCache result) :
    Onward m l y x goal (afterSearch x p goal result) := by
  cases hfound with
  | stale hcache hk =>
      cases goal with
      | parent k v level => cases hcache
      | leaf cached =>
          cases cached with
          | none => cases hcache
          | some entry =>
              obtain ⟨-, _, -, hcached⟩ := h
              have hup := (hcached (Option.some_ne_none _)).2
              cases hop : x.op with
              | search k =>
                  simp only [afterSearch, hop]
                  exact .stale entry rfl hup
              | insert k v | del k => rw [hop] at hup; cases hup
  | right sibling hk hsib =>
      have hmove : Onward m l y x goal (.descend sibling goal) := .right sibling _ hsib hrange
      have hne := ne_null hnull hsib
      cases goal with
      | parent k v level =>
          simp only [afterSearch]
          split
          · exact .failed _
          · exact hmove
      | leaf cached =>
          cases hop : x.op with
          | search k =>
              simp only [afterSearch, hop]
              split <;> exact hmove
          | insert k v | del k =>
              obtain rfl := h.plain (by rw [hop]; rfl)
              simp only [afterSearch, hop]
              split
              · exact .found _ _ (Nat.lt_succ_self 7)
              · split
                · exact .failed _
                · exact hmove
  | leaf lpage val hl hk hpage hval hnone =>
      cases goal with
      | parent k v level =>
          simp only [afterSearch, if_true]
          exact .failed _
      | leaf cached =>
          cases hop : x.op with
          | search k =>
              simp only [afterSearch, hop, if_true]
              split
              · exact .returned _
              · rw [if_neg (not_not_intro rfl)]
                exact .returned _
          | insert k v | del k =>
              obtain rfl := h.plain (by rw [hop]; rfl)
              simp only [afterSearch, hop, if_true]
              exact .found _ _ (Nat.lt_succ_self 7)
  | child below z q hl hq hyz hzk =>
      have hmove : Onward m l y x goal (.descend q goal) := .down q below z hl hq
      cases goal with
      | parent k v level =>
          simp only [afterSearch]
          split
          · exact .failed _
          · rw [if_neg (not_not_intro rfl)]
            split
            · exact hmove
            · exact .found _ _ (Nat.lt_succ_self 3)
      | leaf cached =>
          cases hop : x.op with
          | search k =>
              simp only [afterSearch, hop]
              rw [if_neg Bool.false_ne_true, if_neg (not_not_intro rfl)]
              exact hmove
          | insert k v | del k =>
              obtain rfl := h.plain (by rw [hop]; rfl)
              simp only [afterSearch, hop]
              rw [if_neg Bool.false_ne_true]
              split
              · exact .failed _
              · rw [if_neg (not_not_intro rfl)]
                split
                · exact hmove
                · exact .found _ _ (Nat.lt_succ_self 7)

theorem Goal.part_pos (goal : Goal) : 3 < goal.part := by
  cases goal with
  | leaf cached =>
      cases cached with
      | none => exact show 3 < 8 by decide
      | some entry => exact show 3 < 9 by decide
  | parent k v level => exact Nat.lt_succ_self 3

/-- Less is left further on. -/
theorem Onward.left {pc : Pc} (h : Onward m l y x goal pc) (hle : m.Le m')
    (hp : m p = some (l, y)) (hy : y < kKeyMax) {n : ℕ} (hn : 0 < n ∨ goal.fromCache = false) :
    Less (x.left m' pc) (goal.part, 0, place m p, n) := by
  have hpos := goal.part_pos
  cases h with
  | returned r => exact Less.part (by omega)
  | failed why => exact Less.part (by omega)
  | stale entry hgoal hup =>
      subst hgoal
      have hpos : 0 < n := hn.resolve_right fun hplain => by cases hplain
      simp only [Local.left, hup]
      by_cases hplace : place m p = 0
      · exact Less.step rfl hplace.symm hpos
      · exact Less.place rfl (Nat.pos_of_ne_zero hplace)
  | right q z hq hyz =>
      apply Less.place rfl
      rw [place_mono hle hq]
      exact place_right hp hq hyz hy
  | down q below z hl hq =>
      subst hl
      apply Less.place rfl
      rw [place_mono hle hq]
      exact place_down hp hq
  | found q task hpart => exact Less.part hpart

end Onward

/-! ### No higher than the root -/

/-- The page of a descent. -/
def Pc.at : Pc → Option GlobalAddress
  | .descend p _ | .caching p _ _ => some p
  | _ => none

/-- `path_stack` goes up to the root the client has come from, and no descent is above it. -/
def Low (m : Chart) (x : Local) : Prop :=
  x.op.updates = true →
    (∀ i, x.path i ≠ .Null → ∃ l, m x.root = some (l, kKeyMin) ∧ i ≤ l) ∧
    ∀ p, x.pc.at = some p → ∃ l k y, m x.root = some (l, kKeyMin) ∧ m p = some (k, y) ∧ k ≤ l

section Low

variable {m m' : Chart} {x : Local} {p : GlobalAddress} {l y : Nat} {goal : Goal}

theorem Low.mono (hle : m.Le m') (h : Low m x) : Low m' x := by
  intro hup
  obtain ⟨hpath, hat⟩ := h hup
  refine ⟨fun i hi => ?_, fun p hp => ?_⟩
  · obtain ⟨l, hl, hil⟩ := hpath i hi
    exact ⟨l, hle _ _ hl, hil⟩
  · obtain ⟨l, k, y, hl, hk, hkl⟩ := hat p hp
    exact ⟨l, k, y, hle _ _ hl, hle _ _ hk, hkl⟩

/-- The client is not in a descent afterwards, or at the same page. -/
theorem Low.setPc (h : Low m x) {pc : Pc} (hpc : pc.at = none ∨ pc.at = x.pc.at) :
    Low m { x with pc := pc } := by
  refine fun hup => ⟨(h hup).1, fun p hp => ?_⟩
  rcases hpc with hnone | hsame
  · rw [show ({ x with pc := pc } : Local).pc.at = none from hnone] at hp
    cases hp
  · exact (h hup).2 p (hsame.symm.trans hp)

/-- A search has no use for `path_stack`. -/
theorem low_of_not_updates (h : x.op.updates = false) : Low m x := by
  intro hup
  rw [h] at hup
  cases hup

theorem low_of_noPath (h : x.op.updates = true → NoPath x)
    (hat : ∀ p, x.pc.at = some p → p = x.root ∧ m x.root = some (l, kKeyMin)) : Low m x := by
  intro hup
  refine ⟨fun i hi => absurd (h hup i) hi, fun p hp => ?_⟩
  obtain ⟨rfl, hroot⟩ := hat p hp
  exact ⟨l, l, kKeyMin, hroot, hroot, Nat.le_refl l⟩

theorem Low.record (h : Low m x) (hat : x.pc.at = some p) (hp : m p = some (l, y)) :
    Low m { x with path := Function.update x.path l p } := by
  intro hup
  obtain ⟨hpath, hdescent⟩ := h hup
  refine ⟨fun i hi => ?_, hdescent⟩
  by_cases hil : i = l
  · obtain ⟨top, k, z, htop, hk, hkl⟩ := hdescent p hat
    rw [hp] at hk
    cases hk
    exact ⟨top, htop, hil ▸ hkl⟩
  · rw [show ({ x with path := Function.update x.path l p } : Local).path i = x.path i from
      Function.update_of_ne hil ..] at hi
    exact hpath i hi

theorem Onward.low {pc : Pc} (h : Onward m l y x goal pc) (hlow : Low m x)
    (hat : x.pc.at = some p) (hp : m p = some (l, y)) : Low m { x with pc := pc } := by
  have hgo : ∀ {q : GlobalAddress} {k z : Nat}, m q = some (k, z) → k ≤ l →
      Low m { x with pc := .descend q goal } := by
    intro q k z hq hkl hup
    obtain ⟨hpath, hdescent⟩ := hlow hup
    refine ⟨hpath, fun p' hp' => ?_⟩
    obtain ⟨top, k', z', htop, hk', hkl'⟩ := hdescent p hat
    rw [hp] at hk'
    cases hk'
    cases hp'
    exact ⟨top, k, z, htop, hq, Nat.le_trans hkl hkl'⟩
  cases h with
  | right q z hq hyz => exact hgo hq (Nat.le_refl l)
  | down q below z hl hq => exact hgo hq (by omega)
  | _ => exact hlow.setPc (Or.inl rfl)

theorem start_at {s : State} {c : Client} : (start s c).at = none := by
  unfold start
  simp only
  split <;> rfl

theorem postUp_at (task : Task) (k : Nat) (sibling : GlobalAddress) :
    (postUp x task k sibling).at = none := by
  rcases postUp_cases x task k sibling with ⟨-, h⟩ | ⟨-, -, h⟩ | ⟨-, -, _, -, h⟩ <;> rw [h] <;> rfl

theorem afterUnlock_at (after : After) : (afterUnlock x after).at = none := by
  cases after with
  | done | stale entry => rfl
  | right task sibling =>
      simp only [afterUnlock]
      split <;> rfl
  | split q task k sibling =>
      simp only [afterUnlock]
      split
      · rfl
      · exact postUp_at task k sibling

/-- What a root pointer leads to is the top of a tree. -/
theorem low_rooted {enabled : Bool} {use : RootUse} {root : GlobalAddress} (h : UseOk m enabled x use)
    (hroot : m root = some (l, kKeyMin)) : Low m (rooted x root use) := by
  cases use with
  | operation =>
      have hpath : x.op.updates = true → NoPath x := h
      unfold rooted
      simp only
      split <;> refine low_of_noPath (l := l) hpath fun p hp => ?_
      · cases hp
      · cases hp
        exact ⟨rfl, hroot⟩
  | cachedStore addr entry =>
      refine low_of_noPath (l := l) (fun _ => h.2.2.1) fun p hp => ?_
      cases hp
  | parent k v level =>
      refine low_of_noPath (l := l) (fun _ => h.2.2.1) fun p hp => ?_
      cases hp
      exact ⟨rfl, hroot⟩
  | retry goal => exact h.elim

end Low

/-! ### One step of the client -/

section Run

variable {cfg : Config} {s s' : State} {m m' : Chart} {c : Client}

theorem setPc_local (t : State) (pc : Pc) :
    (t.setPc c pc).clients c = { t.clients c with pc := pc } := setClient_self ..

/-- The client reads a page of its descent: it goes on, or caches the page first. -/
theorem Inv.reads (h : Inv cfg s m) {p : GlobalAddress} {goal : Goal}
    (hpc : (s.clients c).pc = .descend p goal) :
    ∃ l y pc, m p = some (l, y) ∧
      pageRead s c p goal =
        { s.clients c with path := Function.update (s.clients c).path l p, pc := pc } ∧
      ((∃ page, pc = .caching p page goal) ∨
        Onward m l y { s.clients c with path := Function.update (s.clients c).path l p } goal pc) := by
  have hgoal : GoalOk m (s.directory c.node).enableCache (s.clients c) p goal := by
    have hok := h.pc c
    rwa [hpc] at hok
  obtain ⟨l, y, page, hp, hpage, hok⟩ := GoalOk.page h hgoal
  have hspot := hgoal.spot hp
  obtain ⟨result, hresult, hfound⟩ := pageSearch_spec hok h.shape.null hspot.2.1
    (h.goal_key_lt (c := c) hgoal rfl (by rw [hpc]; rfl)) hspot.2.2.2
  have honward : Onward m l y { s.clients c with path := Function.update (s.clients c).path l p }
      goal (afterSearch { s.clients c with path := Function.update (s.clients c).path l p } p goal
        result) :=
    afterSearch_onward (hgoal.record hp) h.shape.null hok.range hfound
  have hlevel := hok.level
  simp only [pageRead, hpage, hok.consistent, if_true, hlevel, hresult]
  cases page with
  | leaf lpage => exact ⟨l, y, _, hp, rfl, Or.inr honward⟩
  | internal ipage =>
      simp only
      split
      · exact ⟨l, y, _, hp, rfl, Or.inl ⟨ipage, rfl⟩⟩
      · exact ⟨l, y, _, hp, rfl, Or.inr honward⟩

/-- The client has read a page under its lock, and splits nothing. -/
theorem Inv.after (h : Inv cfg s m) {p : GlobalAddress} {task : Task} {page : Page}
    {after : After} (hpc : (s.clients c).pc = .loaded p task page)
    (hafter : task.after (task.outcome (s.clients c).op page) = some after) :
    after = .done ∨ (task.part = 13 ∧ ∃ entry, after = .stale entry) ∨
      ∃ y sibling z, after = .right task sibling ∧ task.uncached = task ∧
        m p = some (task.level, y) ∧ m sibling = some (task.level, z) ∧ y < z := by
  have hok := h.pc c
  rw [hpc] at hok
  obtain ⟨htask, hpage⟩ := hok
  have hheld : s.locks (cfg.lockAddr p) = .held c := h.held c _ (by rw [hpc]; rfl)
  rcases h.outcome htask (by rw [hpc]; rfl) hheld hpage with
    ⟨x, lpage, hp, hxk, rfl, hpageOk, hlevel, -, hresult⟩ |
    ⟨x, ipage, below, k, v, hp, hxk, rfl, hpageOk, rfl, hresult⟩
  · generalize task.outcome (s.clients c).op (.leaf lpage) = out at hresult hafter
    cases hresult with
    | stale hcached hk =>
        refine Or.inr (Or.inl ⟨?_, _, (Option.some_inj.mp hafter).symm⟩)
        cases task with
        | leafStore cached | leafDel cached => exact if_pos hcached
        | internalStore k v level => cases hcached
    | right hcached hk =>
        cases hafter
        have hkey := Op.key_lt (h.valid c)
        have hhigh : lpage.hdr.highest ≠ kKeyMax := by omega
        have huncached : task.uncached = task := by
          cases task with
          | leafStore cached | leafDel cached =>
              cases cached with
              | none => rfl
              | some entry => cases hcached
          | internalStore k v level => rfl
        rw [hlevel]
        exact Or.inr (Or.inr ⟨x, _, _, rfl, huncached, hp, hpageOk.next hhigh, hpageOk.range⟩)
    | entry i r hk hleaf hchanged => exact Or.inl (Option.some_inj.mp hafter).symm
    | absent hk hnone habsent => exact Or.inl (Option.some_inj.mp hafter).symm
    | split mid left right splitKey hk hdr hsplit hchanged hstored => cases hafter
  · obtain ⟨-, -, -, -, hkey, -⟩ := h.pending c ⟨v, k, below + 1⟩ (by rw [hpc]; rfl)
    generalize (Task.internalStore k v (below + 1)).outcome (s.clients c).op (.internal ipage) = out
      at hresult hafter
    cases hresult with
    | right hk =>
        cases hafter
        have hhigh : ipage.hdr.highest ≠ kKeyMax := by
          simp only at hk hkey
          omega
        exact Or.inr (Or.inr ⟨x, _, _, rfl, rfl, hp, hpageOk.next hhigh, hpageOk.range⟩)
    | page page' hk hint hdr hrecords => exact Or.inl (Option.some_inj.mp hafter).symm
    | split left right splitKey hk hsplit => cases hafter

theorem Task.rising_le (task : Task) : 3 ≤ task.rising ∧ task.rising ≤ task.part := by
  cases task with
  | leafStore cached | leafDel cached => cases cached <;> simp [Task.rising, Task.part]
  | internalStore k v level => exact ⟨Nat.le_refl 3, Nat.le_refl 3⟩

/-- A separator goes up to a page below the root, or there is none above. -/
theorem Low.postUp_left {x : Local} {sibling : GlobalAddress} {task : Task} {k b n : Nat}
    (hlow : Low m x) (hup : x.op.updates = true) (hle : m.Le m') :
    Less (x.left m' (postUp x task k sibling)) (task.rising, task.above m x.root, b, n) := by
  rcases postUp_cases x task k sibling with ⟨hne, hpost⟩ | ⟨-, ⟨entry, rfl⟩, hpost⟩ |
    ⟨-, -, why, -, hpost⟩ <;> rw [hpost]
  · obtain ⟨l, hl, hlevel⟩ := (hlow hup).1 _ hne
    cases task with
    | leafStore cached | leafDel cached => exact Less.part (show 3 < 6 by decide)
    | internalStore k' v level =>
        apply Less.level
        simp only [Task.above, Task.level, levelOf_of hl, levelOf_of (hle _ _ hl)] at hlevel ⊢
        omega
  · exact Less.part (show 5 < 6 by decide)
  · exact Less.part (by have := task.rising_le; omega)

theorem Low.afterSplit_left {x : Local} {p sibling : GlobalAddress} {task : Task} {k n y : Nat}
    (hlow : Low m x) (hup : x.op.updates = true) (hle : m.Le m')
    (hroot : task.pending ≠ none → RootAt m x.root) (hp : m p = some (task.level, y)) (hn : 1 < n) :
    Less (x.left m' (afterUnlock x (.split p task k sibling)))
      (task.rising, task.above m x.root, place m p, n) := by
  by_cases hself : x.root = p
  · rw [show afterUnlock x (.split p task k sibling) = .grow p task k sibling from if_pos hself]
    exact Less.step (Task.above_mono hle hroot) (place_mono hle hp) hn
  · rw [show afterUnlock x (.split p task k sibling) = postUp x task k sibling from if_neg hself]
    exact hlow.postUp_left hup hle

/-- A page is split after it was locked. -/
theorem Less.of_rising {t : ℕ × ℕ × ℕ × ℕ} {task : Task} {b d n : Nat}
    (h : Less t (task.rising, b, d, n)) : Less t (task.part, b, d, n) := by
  have hle := task.rising_le.2
  cases h with
  | left _ _ hlt => exact Less.part (Nat.lt_of_lt_of_le hlt hle)
  | right _ hlt =>
      rcases Nat.lt_or_eq_of_le hle with hpart | hpart
      · exact Less.part hpart
      · rw [← hpart]
        exact Prod.Lex.right _ hlt

/-- A step at the page of a task. -/
theorem TaskOk.step_left {x : Local} {enabled : Bool} {p : GlobalAddress} {task : Task}
    (h : TaskOk m enabled x p task) (hle : m.Le m') {part n n' : Nat} (hn : n < n') :
    Less (part, task.above m' x.root, place m' p, n) (part, task.above m x.root, place m p, n') := by
  obtain ⟨y, hy⟩ := h.level
  exact Less.step (Task.above_mono hle h.root) (place_mono hle hy) hn

/-- With a root the client goes on to the next part. -/
theorem rooted_left {x : Local} {use : RootUse} {root : GlobalAddress} {n : ℕ}
    (huse : ∀ goal, use ≠ .retry goal) :
    Less ((rooted x root use).left m' (rooted x root use).pc) (use.part, 0, 0, n) := by
  cases use with
  | operation =>
      unfold rooted
      simp only
      split
      · exact Less.part (show 10 < 11 by decide)
      · exact Less.part (show 8 < 11 by decide)
  | cachedStore addr entry => exact Less.part (show 13 < 14 by decide)
  | parent k v level => exact Less.part (show 4 < 5 by decide)
  | retry goal => exact absurd rfl (huse goal)

/-- **Each step of its own brings a client nearer to its return.** -/
theorem Inv.nearer (h : Inv cfg s m) (hlow : Low m (s.clients c)) (hle : m.Le m')
    {fresh : GlobalAddress} {waiter : Option Client}
    (hstep : runClient cfg s c fresh waiter = some s') :
    Low m (s'.clients c) ∧
      Less ((s'.clients c).left m' (s'.clients c).pc) ((s.clients c).left m (s.clients c).pc) := by
  have hturn := run_turned hstep
  have hok := h.pc c
  -- the client changes its program counter only, and is not in a descent afterwards
  have hset : ∀ (t : State) {pc : Pc} {b : ℕ × ℕ × ℕ × ℕ}, t.clients = s.clients →
      pc.at = none → Less ((s.clients c).left m' pc) b →
      Low m ((t.setPc c pc).clients c) ∧
        Less (((t.setPc c pc).clients c).left m' ((t.setPc c pc).clients c).pc) b := by
    intro t pc b ht hat hless
    rw [setPc_local, ht]
    refine ⟨hlow.setPc (Or.inl hat), ?_⟩
    cases pc with
    | unlock q mode after => cases after <;> exact hless
    | _ => exact hless
  generalize hpc : (s.clients c).pc = pc at hturn hok
  cases hturn with
  | start =>
      refine hset _ rfl start_at ?_
      unfold start
      simp only
      split
      · exact Less.part (show 14 < 15 by decide)
      · exact Less.part (show 13 < 15 by decide)
      · exact Less.part (show 11 < 15 by decide)
  | toRead use hroot => exact hset _ rfl rfl (Less.step rfl rfl Nat.zero_lt_one)
  | known use hroot =>
      obtain ⟨l, -, hl⟩ := (h.directory c.node).root hroot
      rw [setClient_self]
      exact ⟨low_rooted hok hl, rooted_left fun goal hgoal => by subst hgoal; exact hok.elim⟩
  | readRoot use =>
      obtain ⟨top, htop, -⟩ := h.top
      rw [setClient_self]
      exact ⟨low_rooted hok htop, rooted_left fun goal hgoal => by subst hgoal; exact hok.elim⟩
  | searchCache =>
      refine ⟨low_of_not_updates (by rw [setPc_local]; exact hok.2), ?_⟩
      rw [setPc_self]
      unfold searchCache
      simp only
      split
      · exact Less.part (show 9 < 10 by decide)
      · exact Less.part (show 8 < 10 by decide)
  | descend p goal =>
      obtain ⟨l, y, pc, hp, hread, hnext⟩ := h.reads hpc
      have hat : (s.clients c).pc.at = some p := by
        rw [hpc]
        rfl
      have hrecord := hlow.record hat hp
      rw [setClient_self, hread]
      rcases hnext with ⟨page, rfl⟩ | honward
      · exact ⟨hrecord.setPc (Or.inr hat.symm),
          Less.step rfl (place_mono hle hp) Nat.zero_lt_one⟩
      · exact ⟨honward.low hrecord hat hp,
          honward.left hle hp (h.begin_lt hp) (Or.inl Nat.zero_lt_one)⟩
  | cachingError p page goal why herror =>
      exact hset _ rfl rfl (Less.part (by have := goal.part_pos; omega))
  | caching p page goal result hresult =>
      obtain ⟨hgoal, -, hplain, y, hp, hpage⟩ := hok
      have hspot := hgoal.spot hp
      obtain ⟨result', hresult', hfound⟩ := pageSearch_spec hpage h.shape.null hspot.2.1
        (h.goal_key_lt (c := c) hgoal rfl (by rw [hpc]; rfl)) hspot.2.2.2
      rw [hresult] at hresult'
      cases hresult'
      have honward := afterSearch_onward hgoal h.shape.null hpage.range hfound
      have hat : (s.clients c).pc.at = some p := by
        rw [hpc]
        rfl
      rw [setPc_local]
      exact ⟨honward.low hlow hat hp, honward.left hle hp (h.begin_lt hp) (Or.inr hplain)⟩
  | invalidate entry =>
      cases hop : (s.clients c).op with
      | search k =>
          rw [show restart (s.clients c) = .descend (s.clients c).root (.leaf none) by
            simp only [restart, hop]]
          refine ⟨low_of_not_updates ?_, ?_⟩
          · rw [setPc_local]
            exact congrArg Op.updates hop
          · rw [setPc_self]
            simp only [Local.left, hop, Op.updates]
            exact Less.part (show 8 < 9 by decide)
      | insert k v | del k =>
          rw [show restart (s.clients c) = .getRoot .operation by simp only [restart, hop]]
          refine hset _ rfl rfl ?_
          simp only [Local.left, hop, Op.updates, if_true]
          exact Less.part (show 11 < 12 by decide)
  | lock p task hlock => exact hset _ rfl rfl (TaskOk.step_left hok hle (by omega))
  | unmapped p task hmem => exact hset _ rfl rfl (Less.part (by have := task.rising_le; omega))
  | read p task page hmem => exact hset _ rfl rfl (TaskOk.step_left hok hle (by omega))
  | fail p task page why hout =>
      exact hset _ rfl rfl (Less.part (by have := task.rising_le; omega))
  | loaded p task page mode after async hafter hmode =>
      refine hset _ (by rw [commit_eq]) rfl ?_
      rcases h.after hpc hafter with rfl | ⟨hpart, entry, rfl⟩ |
        ⟨y, sibling, z, rfl, hplain, hp, hq, hyz⟩
      · exact Less.part (by have := task.rising_le; omega)
      · exact Less.part (by omega)
      · simp only [Local.left, hplain]
        refine Less.place (Task.above_mono hle hok.1.root) ?_
        rw [place_mono hle hq]
        exact place_right hp hq hyz (h.begin_lt hp)
  | split p task page left right splitKey hout hmem hnull =>
      exact hset _ rfl rfl (TaskOk.step_left hok.1 hle (by omega))
  | posting p task page left right splitKey sibling hout hasync =>
      obtain ⟨y, hy⟩ := hok.1.level
      exact hset _ rfl (afterUnlock_at _)
        (Less.of_rising (hlow.afterSplit_left hok.1.updates hle hok.1.root hy (by omega)))
  | linked p task page left right splitKey sibling mode hout hmode =>
      exact hset _ rfl rfl (Less.of_rising (hok.1.step_left hle (by omega)))
  | unlock p mode after =>
      refine hset _ rfl (afterUnlock_at after) ?_
      cases after with
      | done => exact Less.step rfl rfl Nat.zero_lt_one
      | stale entry =>
          simp only [afterUnlock, Local.left, hok.1, if_true]
          exact Less.step rfl rfl Nat.zero_lt_one
      | right task sibling =>
          rw [show afterUnlock (s.clients c) (.right task sibling) = .lock sibling task.uncached from
            if_neg hok.1]
          simp only [Local.left]
          rw [← uncached_above (m := m)]
          exact hok.2.step_left hle (by omega)
      | split q task splitKey sibling =>
          obtain ⟨hroot, hins, ⟨y, hy, -⟩, -⟩ := hok
          exact hlow.afterSplit_left (Op.updates_of_inserts hins) hle (fun _ => hroot) hy (by omega)
  | grow p task splitKey sibling hmem hnull =>
      obtain ⟨⟨hroot, -, ⟨y, hy, -⟩, -⟩, -⟩ := hok
      exact hset _ rfl rfl
        (Less.step (Task.above_mono hle fun _ => hroot) (place_mono hle hy) Nat.zero_lt_one)
  | installed p task splitKey sibling newRoot hroot =>
      exact hset _ rfl rfl (Less.part (by have := task.rising_le; omega))
  | overtaken p task splitKey sibling newRoot hroot =>
      exact hset _ rfl (postUp_at ..) (hlow.postUp_left (Op.updates_of_inserts hok.1.2.1) hle)

end Run

/-! ### Whole runs -/

/-- What is left of the call of `c`. -/
def Left (cfg : Config) (c : Client) (s : State) (b : ℕ × ℕ × ℕ × ℕ) : Prop :=
  ∃ m, Inv cfg s m ∧ Low m (s.clients c) ∧ b = (s.clients c).left m (s.clients c).pc

section Left

variable {cfg : Config} {s s' : State} {c : Client} {b : ℕ × ℕ × ℕ × ℕ}

/-- The others cannot add to it. -/
theorem Left.other (h : Left cfg c s b) {action : Action}
    (hrun : ∀ fresh waiter, action ≠ .run c fresh waiter) (hcall : ∀ op, action ≠ .call c op)
    (hstep : step cfg s action = some s') : Left cfg c s' b := by
  obtain ⟨m, hinv, hlow, rfl⟩ := h
  obtain ⟨m', hadv⟩ := hinv.step hstep
  have hsame : s'.clients c = s.clients c := by
    rcases clients_of_step hstep c with ⟨fresh, waiter, h⟩ | ⟨op, h⟩ | hsame
    · exact absurd h (hrun fresh waiter)
    · exact absurd h (hcall op)
    · exact hsame
  refine ⟨m', hadv.inv, ?_, ?_⟩
  · rw [hsame]
    exact hlow.mono hadv.le
  · rw [hsame]
    exact (Local.left_mono hadv.le (hinv.pc c)).symm

theorem Left.own (h : Left cfg c s b) {fresh : GlobalAddress} {waiter : Option Client}
    (hstep : runClient cfg s c fresh waiter = some s') : ∃ b', Left cfg c s' b' ∧ Less b' b := by
  obtain ⟨m, hinv, hlow, rfl⟩ := h
  obtain ⟨m', hadv⟩ := hinv.run hstep
  obtain ⟨hlow', hless⟩ := hinv.nearer hlow hadv.le hstep
  exact ⟨_, ⟨m', hadv.inv, hlow'.mono hadv.le, rfl⟩, hless⟩

theorem Left.call (h : Left cfg c s b) {op : Op} (hstep : step cfg s (.call c op) = some s') :
    ∃ b', Left cfg c s' b' := by
  obtain ⟨m, hinv, hlow, rfl⟩ := h
  have hadv := hinv.call hstep
  refine ⟨_, m, hadv.inv, ?_, rfl⟩
  simp only [step] at hstep
  split at hstep
  · split at hstep
    · cases hstep
      rw [setClient_self]
      cases op with
      | search k => exact low_of_not_updates rfl
      | insert k v | del k =>
          exact fun _ => ⟨fun i hi => absurd rfl hi, fun p hp => by cases hp⟩
    · cases hstep
  · cases hstep

theorem reachable_left (c : Client) (hs : (machine cfg).Reachable s) : ∃ b, Left cfg c s b := by
  refine System.ReachableBy.invariant (I := fun s => ∃ b, Left cfg c s b) hs ?_ ?_
  · rintro s ⟨root, hroot, rfl⟩
    exact ⟨_, _, inv_init cfg hroot, low_of_not_updates rfl, rfl⟩
  · rintro s action s' ⟨b, h⟩ - hstep
    by_cases hrun : ∃ fresh waiter, action = .run c fresh waiter
    · obtain ⟨fresh, waiter, rfl⟩ := hrun
      obtain ⟨b', h', -⟩ := h.own hstep
      exact ⟨b', h'⟩
    · by_cases hcall : ∃ op, action = .call c op
      · obtain ⟨op, rfl⟩ := hcall
        exact h.call hstep
      · exact ⟨b, h.other (fun fresh waiter heq => hrun ⟨fresh, waiter, heq⟩)
          (fun op heq => hcall ⟨op, heq⟩) hstep⟩

end Left

end Dal.Tree
