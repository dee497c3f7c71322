/-
What a client comes to know by its own steps.

These are the steps that only read shared memory, or nothing at all: from a page that
is `Ok` a client gets addresses it can use, whether it moves right, goes down, or comes
back up by `path_stack`.  `path_stack` is sound for a page because the entries above
begin further left; that is kept on the way down, and going up just drops entries.
-/
import Dal.Tree.Invariant

namespace Dal.Tree

theorem Op.updates_of_inserts {op : Op} (h : op.inserts = true) : op.updates = true := by
  cases op <;> first | rfl | cases h

theorem Op.stored_of_inserts {op : Op} (h : op.inserts = false) : op.stored = none := by
  cases op <;> first | rfl | cases h

theorem Op.key_lt {op : Op} (h : op.valid = true) : op.key < kKeyMax := by
  cases op with
  | insert k v => exact (of_decide_eq_true h).1
  | del k | search k => exact of_decide_eq_true h

/-! ### path_stack -/

section Path

variable {m : Chart} {path : Nat → GlobalAddress} {l x y : Nat} {p : GlobalAddress}

theorem PathOk.of_noPath (h : ∀ i, path i = .Null) : PathOk m path l x :=
  fun i _ hne => absurd (h i) hne

theorem PathOk.right (h : PathOk m path l x) (hxy : x ≤ y) : PathOk m path l y := by
  intro i hi hne
  obtain ⟨z, hz, hzx, hbelow⟩ := h i hi hne
  exact ⟨z, hz, Nat.le_trans hzx hxy, hbelow⟩

/-- Recording the page of level `l` itself changes nothing above. -/
theorem PathOk.record (h : PathOk m path l x) : PathOk m (Function.update path l p) l x := by
  have hother : ∀ i, l < i → Function.update path l p i = path i := fun i hi =>
    Function.update_of_ne (Nat.ne_of_gt hi) _ _
  intro i hi hne
  rw [hother i hi] at hne ⊢
  obtain ⟨z, hz, hzx, hbelow⟩ := h i hi hne
  refine ⟨z, hz, hzx, fun j w hj hji hw => hbelow j w hj hji ?_⟩
  rwa [hother j hj] at hw

/-- Down to a child, with the page it is a child of recorded. -/
theorem PathOk.down (h : PathOk m path (l + 1) x) (hp : m p = some (l + 1, x))
    (hpath : path (l + 1) = p) (hxy : x ≤ y) : PathOk m path l y := by
  intro i hi hne
  by_cases hil : i = l + 1
  · subst hil
    refine ⟨x, by rw [hpath]; exact hp, hxy, fun j z hj hji => by omega⟩
  · obtain ⟨z, hz, hzx, hbelow⟩ := h i (by omega) hne
    refine ⟨z, hz, Nat.le_trans hzx hxy, fun j w hj hji hw => ?_⟩
    by_cases hjl : j = l + 1
    · subst hjl
      rw [hpath, hp] at hw
      cases hw
      exact hzx
    · exact hbelow j w (by omega) hji hw

/-- Up to the entry of the next level. -/
theorem PathOk.up (h : PathOk m path l x) (hne : path (l + 1) ≠ .Null) :
    ∃ y, m (path (l + 1)) = some (l + 1, y) ∧ y ≤ x ∧ PathOk m path (l + 1) y := by
  obtain ⟨y, hy, hyx, -⟩ := h (l + 1) (Nat.lt_succ_self l) hne
  refine ⟨y, hy, hyx, fun i hi hnei => ?_⟩
  obtain ⟨z, hz, hzx, hbelow⟩ := h i (by omega) hnei
  exact ⟨z, hz, hbelow (l + 1) y (Nat.lt_succ_self l) hi hy,
    fun j w hj hji hw => hbelow j w (by omega) hji hw⟩

end Path

/-! ### page_search -/

/-- What `page_search` finds on a page of level `l` that begins at or before `k`. -/
inductive Found (m : Chart) (page : Page) (l y k : Nat) (fromCache : Bool) :
    Option SearchResult → Prop
  | stale (hcache : fromCache = true) (hk : page.hdr.highest ≤ k) : Found m page l y k fromCache none
  | right (sibling : GlobalAddress) (hk : page.hdr.highest ≤ k)
      (hsibling : m sibling = some (l, page.hdr.highest)) : Found m page l y k fromCache
        (some ⟨decide (l = 0), l, sibling, .Null, kValueNull⟩)
  | leaf (lpage : LeafPage) (val : Nat) (hl : l = 0) (hk : k < page.hdr.highest)
      (hpage : page = .leaf lpage) (hfound : val ≠ kValueNull → lpage.Has k val)
      (hnone : val = kValueNull → ∀ v, ¬ lpage.Has k v) :
      Found m page l y k fromCache (some ⟨true, 0, .Null, .Null, val⟩)
  | child (below z : Nat) (c : GlobalAddress) (hl : l = below + 1) (hc : m c = some (below, z))
      (hyz : y ≤ z) (hzk : z ≤ k) :
      Found m page l y k fromCache (some ⟨false, l, .Null, c, kValueNull⟩)

/-- `page_search` meets no assertion, whatever version of the page it reads. -/
theorem pageSearch_spec {m : Chart} {page : Page} {l y k : Nat} {fromCache : Bool}
    (hok : page.Ok m l y) (hnull : m .Null = none) (hyk : y ≤ k) (hk : k < kKeyMax)
    (hcache : fromCache = true → l = 0) :
    ∃ result, pageSearch page k fromCache = .ok result ∧ Found m page l y k fromCache result := by
  have hlow := hok.lowest
  have htop := hok.top
  have hnext := hok.next
  cases l with
  | zero =>
      obtain ⟨lpage, rfl, hleaf⟩ := hok.leaf
      simp only [Page.hdr] at hlow htop hnext
      simp only [pageSearch, hleaf.level]
      rw [if_neg (not_not_intro hleaf.leftmost)]
      by_cases hright : lpage.hdr.highest ≤ k
      · cases fromCache with
        | true =>
            rw [if_pos ⟨rfl, Or.inr hright⟩]
            exact ⟨_, rfl, .stale rfl hright⟩
        | false =>
            rw [if_neg (by simp), if_neg (by simp), if_pos hright]
            exact ⟨_, rfl, .right _ hright (hnext (by omega))⟩
      · rw [if_neg (by omega), if_neg (by simp), if_neg hright, if_neg (by omega)]
        obtain ⟨hfound, hnone⟩ := LeafPage.leafPageSearch_eq (k := k) hleaf.versions
        refine ⟨_, rfl, .leaf lpage _ rfl (Nat.lt_of_not_le hright) rfl hfound fun hv v hhas => ?_⟩
        obtain ⟨r, hr, hlive, hkey, -⟩ := hhas
        exact hnone hv r hr hlive hkey
  | succ below =>
      obtain ⟨ipage, rfl, hint⟩ := hok.internal
      simp only [Page.hdr] at hlow htop hnext
      have hleft : ipage.hdr.leftmostPtr ≠ .Null := fun hn => by
        have := hint.leftmost
        rw [hn, hnull] at this
        cases this
      have hnocache : fromCache = false := by
        cases fromCache with
        | true => cases hcache rfl
        | false => rfl
      subst hnocache
      simp only [pageSearch, hint.level]
      rw [if_neg hleft, if_neg (Nat.succ_ne_zero _), if_neg Bool.false_ne_true]
      by_cases hright : ipage.hdr.highest ≤ k
      · rw [if_pos hright]
        exact ⟨_, rfl, .right _ hright (hnext (by omega))⟩
      · rw [if_neg hright, if_neg (by omega)]
        obtain ⟨z, hz, hyz, hzk⟩ := hint.childFor (k := k) (by omega)
        exact ⟨_, rfl, .child below z _ rfl hz (by omega) hzk⟩

section Steps

variable {m : Chart} {enabled : Bool} {mem : GlobalAddress → Option Page} {x : Local}
  {p : GlobalAddress} {l y : Nat} {goal : Goal}

theorem ne_null (hnull : m .Null = none) {a : GlobalAddress} {e : Nat × Nat} (h : m a = some e) :
    a ≠ .Null := by
  rintro rfl
  rw [hnull] at h
  cases h

/-- Only an `insert` or a `del` works on a locked page. -/
theorem TaskOk.updates {task : Task} (h : TaskOk m enabled x p task) : x.op.updates = true := by
  cases task with
  | leafStore cached => exact Op.updates_of_inserts h.2.1
  | leafDel cached => exact h.1
  | internalStore k v level => exact Op.updates_of_inserts h.2.1

/-- Where a goal's descent is, in the terms of the page it is at. -/
theorem GoalOk.spot (h : GoalOk m enabled x p goal) (hp : m p = some (l, y)) :
    RootAt m x.root ∧ y ≤ goal.key x.op ∧ (x.op.updates = true → PathOk m x.path l y) ∧
    (goal.fromCache = true → l = 0) := by
  cases goal with
  | leaf cached =>
      obtain ⟨hroot, l', ⟨y', hy', hyk, hpath⟩, hcached⟩ := h
      rw [hp] at hy'
      cases hy'
      refine ⟨hroot, hyk, hpath, fun hf => (hcached ?_).1⟩
      rintro rfl
      cases hf
  | parent k v level =>
      obtain ⟨hroot, -, -, l', -, ⟨y', hy', hyk, hpath⟩⟩ := h
      rw [hp] at hy'
      cases hy'
      exact ⟨hroot, hyk, hpath, fun hf => by cases hf⟩

theorem GoalOk.key_lt (h : GoalOk m enabled x p goal) (hvalid : x.op.valid = true)
    (hparent : ∀ d, goal.pending = some d → d.key < kKeyMax) : goal.key x.op < kKeyMax := by
  cases goal with
  | leaf cached => exact Op.key_lt hvalid
  | parent k v level => exact hparent ⟨v, k, level⟩ rfl

/-- `insert` or `del` has found its leaf. -/
theorem taskOk_op (hroot : RootAt m x.root) (hup : x.op.updates = true)
    (hspot : Spot m x p 0 x.op.key) : TaskOk m enabled x p x.op.task := by
  cases hop : x.op with
  | insert k v =>
      rw [hop] at hspot
      exact ⟨hroot, by rw [hop]; rfl, by rw [hop]; exact hspot, fun hc => absurd rfl hc⟩
  | del k =>
      rw [hop] at hspot
      exact ⟨by rw [hop]; rfl, by rw [hop]; rfl, by rw [hop]; exact hspot,
        fun hc => absurd rfl hc⟩
  | search k => rw [hop] at hup; cases hup

/-- A descent goes on to a page it may go on to. -/
theorem GoalOk.move (h : GoalOk m enabled x p goal) {q : GlobalAddress} {l' z : Nat}
    (hq : m q = some (l', z)) (hz : z ≤ goal.key x.op)
    (hpath : x.op.updates = true → PathOk m x.path l' z)
    (hcached : goal.fromCache = true → l' = 0)
    (hlevel : ∀ k v level, goal = .parent k v level → level < l') : GoalOk m enabled x q goal := by
  cases goal with
  | leaf cached =>
      obtain ⟨hroot, l, -, hc⟩ := h
      refine ⟨hroot, l', ⟨z, hq, hz, hpath⟩, fun hne => ⟨hcached ?_, (hc hne).2⟩⟩
      cases cached with
      | none => exact absurd rfl hne
      | some e => rfl
  | parent k v level =>
      obtain ⟨hroot, hins, hen, -, -, -⟩ := h
      exact ⟨hroot, hins, hen, l', hlevel k v level rfl, ⟨z, hq, hz, hpath⟩⟩

/-- After `page_search` of page `p`, which is recorded in `path_stack`. -/
theorem pcOk_afterSearch {page : Page} {result : Option SearchResult}
    (h : GoalOk m enabled x p goal) (hnull : m .Null = none) (hp : m p = some (l, y))
    (hpath : x.path l = p)
    (hfound : Found m page l y (goal.key x.op) goal.fromCache result)
    (hrange : y ≤ page.hdr.highest) :
    PcOk m enabled mem x (afterSearch x p goal result) := by
  obtain ⟨hroot, hyk, hpathOk, hcache⟩ := h.spot hp
  cases hfound with
  | stale hfrom hk =>
      cases goal with
      | parent k v level => cases hfrom
      | leaf cached =>
          cases cached with
          | none => cases hfrom
          | some entry =>
              obtain ⟨_, _, _, hc⟩ := h
              have hop := (hc (Option.some_ne_none _)).2
              cases hop' : x.op with
              | search k =>
                  simp only [afterSearch, hop', PcOk, Op.updates]
                  exact hroot
              | _ => rw [hop'] at hop; cases hop
  | right sibling hk hsib =>
      have hne := ne_null hnull hsib
      have hlevel : ∀ k v level, goal = .parent k v level → level < l := by
        rintro k v level rfl
        obtain ⟨-, -, -, l', hl', y', hy', -⟩ := h
        rw [hp] at hy'
        cases hy'
        exact hl'
      have hmove : GoalOk m enabled x sibling goal :=
        h.move hsib hk (fun hu => (hpathOk hu).right hrange) hcache hlevel
      cases goal with
      | parent k v level =>
          have := hlevel k v level rfl
          simp only [afterSearch]
          rw [if_neg (by omega), if_pos hne]
          exact hmove
      | leaf cached =>
          cases hop : x.op with
          | search k =>
              simp only [afterSearch, hop]
              split <;> exact hmove
          | _ =>
              simp only [afterSearch, hop]
              split
              · rename_i hl
                have hl0 : l = 0 := of_decide_eq_true hl
                subst hl0
                have htask : TaskOk m enabled x p x.op.task :=
                  taskOk_op hroot (by rw [hop]; rfl) ⟨y, hp, hyk, hpathOk⟩
                rwa [hop] at htask
              · rename_i hl
                rw [if_neg (fun hl0 => hl (decide_eq_true hl0))]
                exact hmove
  | leaf lpage val hl hk hpage hval hnone =>
      subst hl
      cases goal with
      | parent k v level =>
          obtain ⟨-, -, -, l', hl', y', hy', -⟩ := h
          rw [hp] at hy'
          cases hy'
          cases hl'
      | leaf cached =>
          cases hop : x.op with
          | search k =>
              simp only [afterSearch, hop, if_true]
              split
              · trivial
              · rw [if_neg (not_not_intro rfl)]
                trivial
          | _ =>
              simp only [afterSearch, hop, if_true]
              have htask : TaskOk m enabled x p x.op.task :=
                  taskOk_op hroot (by rw [hop]; rfl) ⟨y, hp, hyk, hpathOk⟩
              rwa [hop] at htask
  | child below z c hl hc hyz hzk =>
      subst hl
      have hdown : x.op.updates = true → PathOk m x.path below z := fun hu =>
        (hpathOk hu).down hp hpath hyz
      have hnocache : goal.fromCache = false := by
        cases hf : goal.fromCache with
        | false => rfl
        | true => cases hcache hf
      cases goal with
      | parent k v level =>
          obtain ⟨-, hins, hen, l', hl', y', hy', -⟩ := id h
          rw [hp] at hy'
          cases hy'
          simp only [afterSearch]
          rw [if_neg (Nat.succ_ne_zero _), if_neg (by simp)]
          split
          · rename_i hne
            refine h.move hc hzk hdown (fun hf => by cases hf) ?_
            intro k' v' level' heq
            cases heq
            omega
          · rename_i heq
            have hlev : below = level := by omega
            subst hlev
            exact ⟨hroot, hins, z, hc, hzk, hdown⟩
      | leaf cached =>
          have hmove : GoalOk m enabled x c (.leaf cached) :=
            h.move hc hzk hdown (fun hf => by rw [hnocache] at hf; cases hf) (by simp)
          cases hop : x.op with
          | search k =>
              simp only [afterSearch, hop]
              rw [if_neg Bool.false_ne_true, if_neg (by simp)]
              exact hmove
          | _ =>
              simp only [afterSearch, hop]
              rw [if_neg Bool.false_ne_true, if_neg (Nat.succ_ne_zero _), if_neg (by simp)]
              split
              · exact hmove
              · rename_i hlev
                have hbelow : below = 0 := by omega
                subst hbelow
                have htask : TaskOk m enabled x c x.op.task :=
                  taskOk_op hroot (by rw [hop]; rfl) ⟨z, hc, hzk, hdown⟩
                rwa [hop] at htask

/-! ### Roots -/

theorem pcOk_rooted {use : RootUse} {root : GlobalAddress} {l : Nat}
    (h : UseOk m enabled x use) (hroot : m root = some (l, kKeyMin))
    (hlevel : enabled = true → 3 ≤ l) :
    PcOk m enabled mem (rooted x root use) (rooted x root use).pc := by
  cases use with
  | operation =>
      have hnp : x.op.updates = true → NoPath x := h
      cases hop : x.op with
      | search k =>
          simp only [rooted, hop]
          exact ⟨⟨l, hroot⟩, by simp [Op.updates]⟩
      | _ =>
          simp only [rooted, hop]
          refine ⟨⟨l, hroot⟩, l, ⟨kKeyMin, hroot, Nat.zero_le _, fun hu => ?_⟩,
            fun hc => absurd rfl hc⟩
          exact PathOk.of_noPath (hnp (by rw [hop]; exact hu))
  | cachedStore addr entry =>
      obtain ⟨hins, hen, hnp, hspot⟩ := h
      exact ⟨⟨l, hroot⟩, hins, hspot, fun _ => ⟨hen, hnp⟩⟩
  | parent k v level =>
      obtain ⟨hins, hen, hnp, rfl⟩ := h
      have := hlevel hen
      refine ⟨⟨l, hroot⟩, hins, hen, l, by omega, kKeyMin, hroot, Nat.zero_le _, fun _ => ?_⟩
      exact PathOk.of_noPath hnp
  | retry goal => exact h.elim

/-! ### After the lock is let go -/

theorem pcOk_postUp {task : Task} {k : Nat} (sibling : GlobalAddress)
    (h : SplitOk m enabled x p task k) :
    PcOk m enabled mem x (postUp x task k sibling) := by
  obtain ⟨hroot, hins, ⟨y, hy, hyk, hpath⟩, htask⟩ := h
  unfold postUp
  simp only
  split
  · rename_i hne
    obtain ⟨z, hz, hzy, hup⟩ := hpath.up hne
    exact ⟨hroot, hins, z, hz, by omega, fun _ => hup⟩
  · cases task with
    | leafStore cached =>
        cases cached with
        | none => exact Or.inl rfl
        | some entry =>
            obtain ⟨hen, hnp⟩ := htask (by simp)
            exact ⟨hins, hen, hnp, rfl⟩
    | leafDel cached => exact htask.elim
    | internalStore k v level => exact Or.inr rfl

theorem pcOk_afterUnlock {after : After} (h : AfterOk m enabled x after) :
    PcOk m enabled mem x (afterUnlock x after) := by
  cases after with
  | done => trivial
  | stale entry =>
      simp only [afterUnlock, PcOk]
      rw [if_pos h.1]
      exact h.2
  | right task sibling =>
      simp only [afterUnlock]
      rw [if_neg h.1]
      exact h.2
  | split p task splitKey sibling =>
      simp only [afterUnlock]
      split
      · rename_i hroot
        exact ⟨h, hroot⟩
      · exact pcOk_postUp sibling h

/-! ### What these steps leave alone -/

@[simp] theorem afterSearch_holds (cfg : Config) (result : Option SearchResult) :
    (afterSearch x p goal result).holds cfg = none := by
  unfold afterSearch
  repeat' split
  all_goals rfl

@[simp] theorem afterSearch_fresh (result : Option SearchResult) :
    (afterSearch x p goal result).fresh = none := by
  unfold afterSearch
  repeat' split
  all_goals rfl

theorem task_pending (op : Op) : op.task.pending = none := by cases op <;> rfl

theorem afterSearch_pending (result : Option SearchResult) :
    (afterSearch x p goal result).pending = goal.pending ∨
      ∃ why, afterSearch x p goal result = .failed why := by
  unfold afterSearch
  repeat' split
  all_goals first
    | exact Or.inl rfl
    | exact Or.inr ⟨_, rfl⟩
    | exact Or.inl (task_pending _)

/-- The three ways on for a separator that has no new root to go to. -/
theorem postUp_cases (x : Local) (task : Task) (k : Nat) (sibling : GlobalAddress) :
    (x.path (task.level + 1) ≠ .Null ∧ postUp x task k sibling =
      .lock (x.path (task.level + 1)) (.internalStore k sibling (task.level + 1))) ∨
    (x.path (task.level + 1) = .Null ∧ (∃ entry, task = .leafStore (some entry)) ∧
      postUp x task k sibling = .getRoot (.parent k sibling (task.level + 1))) ∨
    (x.path (task.level + 1) = .Null ∧ (∀ entry, task ≠ .leafStore (some entry)) ∧
      ∃ why, (why = .fromCache ∨ why = .noParent) ∧ postUp x task k sibling = .failed why) := by
  unfold postUp
  by_cases hne : x.path (task.level + 1) = .Null
  · refine Or.inr ?_
    simp only [hne, ne_eq, not_true_eq_false, if_false, true_and]
    cases task with
    | leafStore cached =>
        cases cached with
        | none => exact Or.inr ⟨by simp, _, Or.inl rfl, rfl⟩
        | some entry => exact Or.inl ⟨⟨entry, rfl⟩, rfl⟩
    | leafDel cached => exact Or.inr ⟨by simp, _, Or.inr rfl, rfl⟩
    | internalStore k v level => exact Or.inr ⟨by simp, _, Or.inr rfl, rfl⟩
  · exact Or.inl ⟨hne, if_pos hne⟩

@[simp] theorem postUp_holds (cfg : Config) (task : Task) (k : Nat) (sibling : GlobalAddress) :
    (postUp x task k sibling).holds cfg = none := by
  rcases postUp_cases x task k sibling with ⟨-, h⟩ | ⟨-, -, h⟩ | ⟨-, -, _, -, h⟩ <;> rw [h] <;> rfl

@[simp] theorem postUp_fresh (task : Task) (k : Nat) (sibling : GlobalAddress) :
    (postUp x task k sibling).fresh = none := by
  rcases postUp_cases x task k sibling with ⟨-, h⟩ | ⟨-, -, h⟩ | ⟨-, -, _, -, h⟩ <;> rw [h] <;> rfl

theorem postUp_pending (task : Task) (k : Nat) (sibling : GlobalAddress) :
    (postUp x task k sibling).pending = some ⟨sibling, k, task.level + 1⟩ ∨
      ∃ why, postUp x task k sibling = .failed why := by
  rcases postUp_cases x task k sibling with ⟨-, h⟩ | ⟨-, -, h⟩ | ⟨-, -, why, -, h⟩ <;> rw [h]
  · exact Or.inl rfl
  · exact Or.inl rfl
  · exact Or.inr ⟨why, rfl⟩

@[simp] theorem afterUnlock_holds (cfg : Config) (after : After) :
    (afterUnlock x after).holds cfg = none := by
  unfold afterUnlock
  repeat' split
  all_goals first | rfl | exact postUp_holds ..

@[simp] theorem afterUnlock_fresh (after : After) : (afterUnlock x after).fresh = none := by
  unfold afterUnlock
  repeat' split
  all_goals first | rfl | exact postUp_fresh ..

theorem uncached_pending (task : Task) : task.uncached.pending = task.pending := by
  cases task <;> rfl

theorem afterUnlock_pending (after : After) :
    (afterUnlock x after).pending = after.pending ∨
      ∃ why, afterUnlock x after = .failed why := by
  cases after with
  | done => exact Or.inl rfl
  | stale entry => exact Or.inl rfl
  | right task sibling =>
      simp only [afterUnlock]
      split
      · exact Or.inr ⟨_, rfl⟩
      · exact Or.inl (uncached_pending task)
  | split p task splitKey sibling =>
      simp only [afterUnlock]
      split
      · exact Or.inl rfl
      · exact postUp_pending task splitKey sibling

@[simp] theorem rooted_holds (cfg : Config) (root : GlobalAddress) (use : RootUse) :
    (rooted x root use).pc.holds cfg = none := by
  unfold rooted
  repeat' split
  all_goals rfl

@[simp] theorem rooted_fresh (root : GlobalAddress) (use : RootUse) :
    (rooted x root use).pc.fresh = none := by
  unfold rooted
  repeat' split
  all_goals rfl

theorem rooted_pending (root : GlobalAddress) (use : RootUse) :
    (rooted x root use).pc.pending = use.pending := by
  unfold rooted
  repeat' split
  all_goals rfl

@[simp] theorem rooted_op (root : GlobalAddress) (use : RootUse) :
    (rooted x root use).op = x.op := by
  unfold rooted
  repeat' split
  all_goals rfl

end Steps

/-! ### The index cache -/

section Cache

variable {m : Chart} {cache : IndexCache}

/-- A hit leads to a leaf that begins at or before the key. -/
theorem searchFromCache_spec {k : Nat} {hit : IndexCache.Hit}
    (hcache : ∀ e page, e ∈ cache → e.ptr = some page → CopyOk m e page)
    (h : cache.searchFromCache k = some hit) : ∃ y, m hit.addr = some (0, y) ∧ y ≤ k := by
  unfold IndexCache.searchFromCache at h
  split at h
  · cases h
  · rename_i e hfind
    split at h
    · cases h
    · rename_i page hptr
      split at h
      · rename_i hrange
        cases h
        obtain ⟨hok, hstart, -⟩ := hcache e page (List.mem_of_find?_eq_some hfind) hptr
        obtain ⟨ipage, heq, hint⟩ := hok.internal
        cases heq
        obtain ⟨y, hy, -, hyk⟩ := hint.childFor (k := k) (by omega)
        exact ⟨y, hy, hyk⟩
      · cases h

theorem mem_setPtr {start last : Nat} {ptr : Option InternalPage} {e : CacheEntry}
    (h : e ∈ cache.setPtr start last ptr) :
    e ∈ cache ∨ e.start = start ∧ e.last = last ∧ e.ptr = ptr := by
  obtain ⟨x, hx, rfl⟩ := List.mem_map.mp h
  split
  · rename_i hrange
    exact Or.inr ⟨hrange.1, hrange.2, rfl⟩
  · exact Or.inl hx

theorem mem_insertSorted {e x : CacheEntry} : ∀ {cache : IndexCache},
    x ∈ cache.insertSorted e ↔ x = e ∨ x ∈ cache := by
  intro cache
  induction cache with
  | nil => simp [IndexCache.insertSorted]
  | cons y ys ih =>
      rw [IndexCache.insertSorted]
      split
      · exact List.mem_cons
      · rw [List.mem_cons, ih, List.mem_cons]
        exact or_left_comm

theorem mem_addToCache {page : InternalPage} {e : CacheEntry} (h : e ∈ cache.addToCache page) :
    e ∈ cache ∨ e.start = page.hdr.lowest ∧ e.last = page.hdr.highest - 1 ∧ e.ptr = some page := by
  unfold IndexCache.addToCache at h
  simp only at h
  split at h
  · split at h
    · split at h
      · exact mem_setPtr h
      · exact Or.inl h
    · exact Or.inl h
  · rcases mem_insertSorted.mp h with rfl | h
    · exact Or.inr ⟨rfl, rfl, rfl⟩
    · exact Or.inl h

/-- Adding a copy of a page and clearing pointers keep the entries what they should be. -/
theorem copyOk_addToCache {page : InternalPage} {y : Nat} (hok : (Page.internal page).Ok m 1 y)
    (hcache : ∀ e page, e ∈ cache → e.ptr = some page → CopyOk m e page) :
    ∀ e page', e ∈ cache.addToCache page → e.ptr = some page' → CopyOk m e page' := by
  intro e page' he hptr
  rcases mem_addToCache he with he | ⟨hstart, hlast, hptr'⟩
  · exact hcache e page' he hptr
  · rw [hptr'] at hptr
    cases hptr
    have hlow : page.hdr.lowest = y := hok.lowest
    exact ⟨hlow ▸ hok, hstart, hlast⟩

theorem copyOk_invalidate {start last : Nat}
    (hcache : ∀ e page, e ∈ cache → e.ptr = some page → CopyOk m e page) :
    ∀ e page, e ∈ cache.invalidate start last → e.ptr = some page → CopyOk m e page := by
  intro e page he hptr
  rcases mem_setPtr he with he | ⟨-, -, hptr'⟩
  · exact hcache e page he hptr
  · rw [hptr'] at hptr
    cases hptr

end Cache

end Dal.Tree
