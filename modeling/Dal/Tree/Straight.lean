/-
The way of a client that is alone.

It comes from the root, not through the index cache, so `path_stack` has an entry for every
level from the page it works on to the root.  And the root it remembers is the root, since
nobody else installs one.  So a split finds a page to post its separator to, or the page is
the root: the assertions at the end of a split cannot fail.
-/
import Dal.Tree.Alone

namespace Dal.Tree

/-- `path_stack` has the levels above `l`, up to `top`. -/
def PathTo (x : Local) (top l : Nat) : Prop := ∀ i, l < i → i ≤ top → x.path i ≠ .Null

/-- The call does not come from the index cache. -/
def Task.plain : Task → Prop
  | .leafStore cached | .leafDel cached => cached = none
  | .internalStore .. => True

/-- The call has come down from the root. -/
structure FromRoot (root : GlobalAddress) (top : Nat) (x : Local) (task : Task) : Prop where
  plain : task.plain
  root : x.root = root
  path : PathTo x top task.level

/-- Where a client may be that has come down from the root. -/
def Straight (m : Chart) (root : GlobalAddress) (top : Nat) (x : Local) : Pc → Prop
  | .idle _ | .start | .getRoot .operation | .readRoot .operation | .unlock _ _ .done => True
  | .searchCache => x.root = root
  | .descend p (.leaf none) => x.root = root ∧ ∃ l y, m p = some (l, y) ∧ PathTo x top l
  | .lock _ task | .read _ task | .loaded _ task _ | .linked _ task _ _ | .grow _ task _ _
  | .casRoot _ task _ _ _ | .unlock _ _ (.right task _) | .unlock _ _ (.split _ task _ _) =>
      FromRoot root top x task
  | _ => False

section Straight

variable {m m' : Chart} {root : GlobalAddress} {top l y : Nat} {x : Local} {p : GlobalAddress}

theorem Straight.mono (hle : m.Le m') {pc : Pc} (h : Straight m root top x pc) :
    Straight m' root top x pc := by
  cases pc with
  | descend p goal =>
      cases goal with
      | leaf cached =>
          cases cached with
          | none =>
              obtain ⟨hroot, l, y, hp, hpath⟩ := h
              exact ⟨hroot, l, y, hle _ _ hp, hpath⟩
          | some entry => exact h
      | parent k v level => exact h
  | getRoot use | readRoot use => cases use <;> exact h
  | unlock q mode after => cases after <;> exact h
  | _ => exact h

theorem FromRoot.setPc {task : Task} (h : FromRoot root top x task) (pc : Pc) :
    FromRoot root top { x with pc := pc } task :=
  ⟨h.plain, h.root, h.path⟩

/-- The program counter itself is not part of what it says. -/
theorem Straight.setPc {pc pc' : Pc} (h : Straight m root top x pc) :
    Straight m root top { x with pc := pc' } pc := by
  cases pc with
  | descend p goal =>
      cases goal with
      | leaf cached => cases cached <;> exact h
      | parent k v level => exact h
  | getRoot use | readRoot use => cases use <;> exact h
  | unlock q mode after =>
      cases after with
      | right task sibling | split p task splitKey sibling => exact FromRoot.setPc h pc'
      | _ => exact h
  | lock p task | read p task | loaded p task page | linked p task page sibling
  | grow p task splitKey sibling | casRoot p task splitKey sibling newRoot =>
      exact FromRoot.setPc h pc'
  | _ => exact h

theorem PathTo.record (h : PathTo x top l) (p : GlobalAddress) :
    PathTo { x with path := Function.update x.path l p } top l := by
  intro i hi htop
  show Function.update x.path l p i ≠ .Null
  rw [Function.update_of_ne (Nat.ne_of_gt hi)]
  exact h i hi htop

theorem PathTo.down (h : PathTo x top (l + 1)) (hp : x.path (l + 1) ≠ .Null) : PathTo x top l := by
  intro i hi htop
  by_cases hil : i = l + 1
  · rw [hil]
    exact hp
  · exact h i (by omega) htop

theorem op_task_level (op : Op) : op.task.level = 0 := by cases op <;> rfl

theorem op_task_plain (op : Op) : op.task.plain := by cases op <;> rfl

theorem uncached_level (task : Task) : task.uncached.level = task.level := by cases task <;> rfl

theorem uncached_plain (task : Task) : task.uncached.plain := by
  cases task <;> first | rfl | trivial

/-- From page `p`, which is on level `l` and begins at `y`, the search for the leaf leads on. -/
inductive Led (m : Chart) (l y : Nat) (x : Local) (p : GlobalAddress) : Pc → Prop
  | returned (r : Option Response) : Led m l y x p (.idle r)
  | right (q : GlobalAddress) (z : Nat) (hq : m q = some (l, z)) (hyz : y < z) :
      Led m l y x p (.descend q (.leaf none))
  | down (q : GlobalAddress) (below z : Nat) (hl : l = below + 1) (hq : m q = some (below, z))
      (hyz : y ≤ z) : Led m l y x p (.descend q (.leaf none))
  | leaf (hl : l = 0) : Led m l y x p (.lock p x.op.task)
  | child (q : GlobalAddress) (z : Nat) (hl : l = 1) (hq : m q = some (0, z)) :
      Led m l y x p (.lock q x.op.task)

theorem afterSearch_led {page : Page} {result : Option SearchResult} (hnull : m .Null = none)
    (hrange : y < page.hdr.highest) (hfound : Found m page l y x.op.key false result) :
    Led m l y x p (afterSearch x p (.leaf none) result) := by
  cases hfound with
  | stale hcache hk => cases hcache
  | right sibling hk hsib =>
      have hmove : Led m l y x p (.descend sibling (.leaf none)) := .right sibling _ hsib hrange
      have hne := ne_null hnull hsib
      cases hop : x.op with
      | search k =>
          simp only [afterSearch, hop]
          split <;> exact hmove
      | insert k v | del k =>
          simp only [afterSearch, hop]
          split
          · rename_i hl
            rw [← hop]
            exact .leaf (of_decide_eq_true hl)
          · rename_i hl
            rw [if_neg (fun hl0 => hl (decide_eq_true hl0))]
            exact hmove
  | leaf lpage val hl hk hpage hval hnone =>
      cases hop : x.op with
      | search k =>
          simp only [afterSearch, hop, if_true]
          split
          · exact .returned _
          · rw [if_neg (not_not_intro rfl)]
            exact .returned _
      | insert k v | del k =>
          simp only [afterSearch, hop, if_true]
          rw [← hop]
          exact .leaf hl
  | child below z q hl hq hyz hzk =>
      have hmove : Led m l y x p (.descend q (.leaf none)) := .down q below z hl hq hyz
      cases hop : x.op with
      | search k =>
          simp only [afterSearch, hop]
          rw [if_neg Bool.false_ne_true, if_neg (not_not_intro rfl)]
          exact hmove
      | insert k v | del k =>
          simp only [afterSearch, hop]
          rw [if_neg Bool.false_ne_true, if_neg (by omega), if_neg (not_not_intro rfl)]
          split
          · exact hmove
          · rename_i hlevel
            have hbelow : below = 0 := by omega
            subst hbelow
            rw [← hop]
            exact .child q z hl hq

/-- The way goes on from page `p`, which is recorded in `path_stack`. -/
theorem Led.straight {pc : Pc} (h : Led m l y x p pc) (hroot : x.root = root)
    (hpath : PathTo x top l) (hrec : x.path l ≠ .Null) : Straight m root top x pc := by
  cases h with
  | returned r => trivial
  | right q z hq hyz => exact ⟨hroot, l, z, hq, hpath⟩
  | down q below z hl hq hyz =>
      subst hl
      exact ⟨hroot, below, z, hq, hpath.down hrec⟩
  | leaf hl =>
      subst hl
      exact ⟨op_task_plain _, hroot, by rw [op_task_level]; exact hpath⟩
  | child q z hl hq =>
      subst hl
      exact ⟨op_task_plain _, hroot, by rw [op_task_level]; exact hpath.down hrec⟩

/-- At the root the way begins. -/
theorem straight_rooted (hroot : m root = some (top, y)) :
    Straight m root top (rooted x root .operation) (rooted x root .operation).pc := by
  have hbegin : ∀ x : Local, PathTo x top top := fun x i hi htop => by omega
  cases hop : x.op with
  | search k =>
      simp only [rooted, hop]
      rfl
  | insert k v | del k =>
      simp only [rooted, hop]
      exact ⟨rfl, top, y, hroot, hbegin _⟩

/-- After a split the client goes to the page above. -/
theorem straight_postUp {task : Task} {k : Nat} {sibling : GlobalAddress}
    (h : FromRoot root top x task) (hrunning : ∀ why, postUp x task k sibling ≠ .failed why) :
    Straight m root top x (postUp x task k sibling) := by
  rcases postUp_cases x task k sibling with ⟨-, hpc⟩ | ⟨-, ⟨entry, rfl⟩, -⟩ | ⟨-, -, why, -, hpc⟩
  · rw [hpc]
    exact ⟨trivial, h.root, fun i hi htop => h.path i (Nat.lt_of_succ_lt hi) htop⟩
  · cases h.plain
  · exact absurd hpc (hrunning why)

theorem straight_afterUnlock {mode : Release} {after : After}
    (h : Straight m root top x (.unlock p mode after))
    (hrunning : ∀ why, afterUnlock x after ≠ .failed why) :
    Straight m root top x (afterUnlock x after) := by
  cases after with
  | done => trivial
  | stale entry => exact h.elim
  | right task sibling =>
      by_cases hnull : sibling = .Null
      · exact absurd (if_pos hnull) (hrunning .sibling)
      · rw [show afterUnlock x (.right task sibling) = .lock sibling task.uncached from if_neg hnull]
        exact ⟨uncached_plain task, h.root, by rw [uncached_level]; exact h.path⟩
  | split q task splitKey sibling =>
      by_cases hroot : x.root = q
      · rw [show afterUnlock x (.split q task splitKey sibling) = .grow q task splitKey sibling from
          if_pos hroot]
        exact h
      · have hpost : afterUnlock x (.split q task splitKey sibling) =
            postUp x task splitKey sibling := if_neg hroot
        rw [hpost] at hrunning ⊢
        exact straight_postUp h hrunning

end Straight

end Dal.Tree
