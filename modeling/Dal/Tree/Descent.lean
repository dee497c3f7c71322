/-
Where a descent ends, in a tree that nobody changes.

A descent is what `insert`, `del`, `search` and `insert_internal` do before they are at the
page they are for: the calls of `page_search`, and the right moves of `leaf_page_store`,
`leaf_page_del` and `internal_page_store`, which read the page again under its lock.  It may
begin at a leaf that the index cache gave, and goes back to the root when that is stale.

The upper fence of a page is exclusive, and the last page of each level ends at `kKeyMax`.
So every key below `kKeyMax` is in one page of each level, and `kKeyMax` itself, a key
like any other for its type, is in none.
-/
import Dal.Tree.Blink
import Dal.Tree.Return

namespace Dal.Tree

/-- `b` is what a pointer of page `a` leads to. -/
inductive Points (view : View) (a : GlobalAddress) : GlobalAddress → Prop
  | leftmost {page : InternalPage} (h : view a = some (.internal page)) :
      Points view a page.hdr.leftmostPtr
  | record {page : InternalPage} {r : InternalEntry} (h : view a = some (.internal page))
      (hr : r ∈ page.records) : Points view a r.ptr
  | sibling {page : Page} (h : view a = some page) (hne : page.hdr.siblingPtr ≠ .Null) :
      Points view a page.hdr.siblingPtr

/-- The pages of the tree: what child and sibling pointers lead to from the root. -/
def InTree (view : View) (root a : GlobalAddress) : Prop :=
  Relation.ReflTransGen (Points view) root a

/-- The level and the lower fence of what is at an address. -/
def View.chart (view : View) : Chart := fun a =>
  if a = .Null then none else (view a).map fun page => (page.hdr.level, page.hdr.lowest)

/-- Every page of the tree is as it should be, its children are one level lower and begin
at their separators, and its sibling begins where it ends. -/
structure WellFormed (view : View) (root : GlobalAddress) : Prop where
  begins : ∃ page, view root = some page ∧ page.hdr.lowest = kKeyMin
  notNull : root ≠ .Null
  page : ∀ a, InTree view root a →
    ∃ page, view a = some page ∧ page.Ok view.chart page.hdr.level page.hdr.lowest

/-! ### Descents -/

/-- What is done next. -/
inductive Stage
  /-- `page_search` of a page. -/
  | search (p : GlobalAddress) (goal : Goal)
  /-- `leaf_page_store`, `leaf_page_del` or `internal_page_store` of a page. -/
  | store (p : GlobalAddress) (task : Task)
  /-- The page is the one to work on. -/
  | arrived (p : GlobalAddress)
  | failed (why : Assertion)
  deriving DecidableEq, Repr

namespace Stage

/-- The page that is read. -/
def reads : Stage → Option GlobalAddress
  | .search p _ | .store p _ => some p
  | .arrived _ | .failed _ => none

/-- What comes after page `p`; a descent that starts again does so at the root. -/
def ofPc (root p : GlobalAddress) : Pc → Stage
  | .descend q goal => .search q goal
  | .lock q task => .store q task
  | .getRoot (.retry goal) => .search root goal
  | .invalidate _ => .search root (.leaf none)
  | .failed why => .failed why
  | _ => .arrived p

/-- One stage further.  The assertions on the records of a page are not the descent's. -/
def next (view : View) (root : GlobalAddress) (x : Local) : Stage → Stage
  | .search p goal =>
      match view p with
      | none => .failed .unmapped
      | some page =>
          if page.consistent then
            match pageSearch page (goal.key x.op) goal.fromCache with
            | .error why => .failed why
            | .ok result => ofPc root p (afterSearch x p goal result)
          else .search p goal
  | .store p task =>
      match view p with
      | none => .failed .unmapped
      | some page =>
          match task.outcome x.op page with
          | .stale => .search root (.leaf none)
          | .right sibling => ofPc root p (afterUnlock x (.right task sibling))
          | .fail why => if why = .full ∨ why = .splitKey then .arrived p else .failed why
          | _ => .arrived p
  | .arrived p => .arrived p
  | .failed why => .failed why

end Stage

/-- What makes a descent. -/
inductive Descent
  /-- A call of a client, with the leaf that the index cache has for its key, if any. -/
  | call (op : Op) (cached : Option (GlobalAddress × (Nat × Nat)))
  | insertInternal (k : Nat) (v : GlobalAddress) (level : Nat)

namespace Descent

def key : Descent → Nat
  | .call op _ => op.key
  | .insertInternal k _ _ => k

/-- The level of the page it is to end at. -/
def level : Descent → Nat
  | .call _ _ => 0
  | .insertInternal _ _ level => level

/-- The variables of the client; a descent depends on its call only. -/
def client : Descent → Local
  | .call op _ => ⟨op, fun _ => .Null, .Null, .start⟩
  | .insertInternal k _ _ => ⟨.insert k 1, fun _ => .Null, .Null, .start⟩

/-- The descent from the root. -/
def goal : Descent → Goal
  | .call _ _ => .leaf none
  | .insertInternal k v level => .parent k v level

def start (root : GlobalAddress) : Descent → Stage
  | .call (.search _) (some (a, entry)) => .search a (.leaf (some entry))
  | .call (.insert _ _) (some (a, entry)) => .store a (.leafStore (some entry))
  | .call (.del _) (some (a, entry)) => .store a (.leafDel (some entry))
  | d => .search root d.goal

/-- After `n` reads. -/
def stage (view : View) (root : GlobalAddress) (d : Descent) (n : Nat) : Stage :=
  (Stage.next view root d.client)^[n] (d.start root)

/-- What the callers see to: the index cache has leaves of the tree, the right ones or not, and
a separator goes to a level above the leaves and below the root. -/
def Apt (view : View) (root : GlobalAddress) : Descent → Prop
  | .call _ none => True
  | .call _ (some (a, _)) => InTree view root a ∧ ∃ page, view a = some page ∧ page.hdr.level = 0
  | .insertInternal _ _ level =>
      0 < level ∧ ∃ page, view root = some page ∧ level < page.hdr.level

/-- It reads pages of the tree only, and ends at one of its level whose fences admit the
key; so no assertion fails on the way. -/
def Lands (view : View) (root : GlobalAddress) (d : Descent) : Prop :=
  (∀ n a, (d.stage view root n).reads = some a → InTree view root a) ∧
    ∃ n p page, d.stage view root n = .arrived p ∧ InTree view root p ∧ view p = some page ∧
      page.hdr.level = d.level ∧ page.hdr.lowest ≤ d.key ∧ d.key < page.hdr.highest

end Descent

/-! ### The chart of a tree -/

section Chart

variable {view : View} {root a b : GlobalAddress}

theorem View.chart_some {l x : Nat} (h : view.chart a = some (l, x)) :
    a ≠ .Null ∧ ∃ page, view a = some page ∧ page.hdr.level = l ∧ page.hdr.lowest = x := by
  unfold View.chart at h
  by_cases hnull : a = .Null
  · rw [if_pos hnull] at h
    cases h
  · rw [if_neg hnull] at h
    obtain ⟨page, hpage, heq⟩ := Option.map_eq_some_iff.mp h
    simp only [Prod.mk.injEq] at heq
    exact ⟨hnull, page, hpage, heq.1, heq.2⟩

theorem View.chart_of {page : Page} (ha : a ≠ .Null) (hpage : view a = some page) :
    view.chart a = some (page.hdr.level, page.hdr.lowest) := by
  unfold View.chart
  rw [if_neg ha, hpage, Option.map_some]

namespace WellFormed

theorem ok (h : WellFormed view root) (ha : InTree view root a) {page : Page}
    (hpage : view a = some page) : page.Ok view.chart page.hdr.level page.hdr.lowest := by
  obtain ⟨page', hpage', hok⟩ := h.page a ha
  rw [hpage] at hpage'
  cases hpage'
  exact hok

theorem points_ne_null (h : WellFormed view root) (ha : InTree view root a)
    (hab : Points view a b) : b ≠ .Null := by
  cases hab with
  | leftmost hpage =>
      obtain ⟨below, -, hint⟩ := (h.ok ha hpage).body
      exact (View.chart_some hint.leftmost).1
  | record hpage hr =>
      obtain ⟨below, -, hint⟩ := (h.ok ha hpage).body
      exact (View.chart_some (hint.child _ hr)).1
  | sibling _ hne => exact hne

theorem ne_null (h : WellFormed view root) (ha : InTree view root a) : a ≠ .Null := by
  cases ha with
  | refl => exact h.notNull
  | tail hb hba => exact h.points_ne_null hb hba

end WellFormed

open Classical in
/-- The chart of the pages of the tree. -/
noncomputable def treeChart (view : View) (root : GlobalAddress) : Chart := fun a =>
  if InTree view root a then view.chart a else none

theorem treeChart_inTree {e : Nat × Nat} (h : treeChart view root a = some e) :
    InTree view root a := by
  unfold treeChart at h
  by_contra hnot
  rw [if_neg hnot] at h
  cases h

theorem treeChart_eq (h : InTree view root a) : treeChart view root a = view.chart a := if_pos h

theorem treeChart_null : treeChart view root .Null = none := by
  cases h : treeChart view root .Null with
  | none => rfl
  | some e =>
      rw [treeChart_eq (treeChart_inTree h)] at h
      exact absurd rfl (View.chart_some h).1

/-- A page of the tree leads to pages of the tree, so their chart is enough for it. -/
theorem WellFormed.treeChart_ok (h : WellFormed view root) (ha : InTree view root a) {page : Page}
    (hpage : view a = some page) :
    page.Ok (treeChart view root) page.hdr.level page.hdr.lowest := by
  have hok := h.ok ha hpage
  have hpoints : ∀ {b}, Points view a b → treeChart view root b = view.chart b :=
    fun hab => treeChart_eq (ha.tail hab)
  refine ⟨rfl, rfl, hok.top, hok.last, fun hne => ?_, ?_⟩
  · have hnext := hok.next hne
    rw [hpoints (.sibling hpage (View.chart_some hnext).1)]
    exact hnext
  · have hbody := hok.body
    cases page with
    | leaf page => exact hbody
    | internal page =>
        obtain ⟨below, hl, hint⟩ := hbody
        refine ⟨below, hl, { hint with leftmost := ?_, child := fun r hr => ?_ }⟩
        · rw [hpoints (.leftmost hpage)]
          exact hint.leftmost
        · rw [hpoints (.record hpage hr)]
          exact hint.child r hr

theorem WellFormed.page_of (h : WellFormed view root) {l x : Nat}
    (ha : treeChart view root a = some (l, x)) :
    ∃ page, view a = some page ∧ page.Ok (treeChart view root) l x := by
  have hin := treeChart_inTree ha
  rw [treeChart_eq hin] at ha
  obtain ⟨-, page, hpage, rfl, rfl⟩ := View.chart_some ha
  exact ⟨page, hpage, h.treeChart_ok hin hpage⟩

theorem WellFormed.treeChart_of (h : WellFormed view root) (ha : InTree view root a) {page : Page}
    (hpage : view a = some page) :
    treeChart view root a = some (page.hdr.level, page.hdr.lowest) := by
  rw [treeChart_eq ha]
  exact View.chart_of (h.ne_null ha) hpage

end Chart

/-- What pointers lead to from the root is on the chart. -/
theorem ViewOk.inTree {view : View} {root a : GlobalAddress} {m : Chart} {top : Nat}
    (h : ViewOk view root m top) (ha : InTree view root a) : ∃ l x, m a = some (l, x) := by
  induction ha with
  | refl => exact ⟨top, kKeyMin, h.root⟩
  | tail _ hbc ih =>
      obtain ⟨l, x, hb⟩ := ih
      cases hbc with
      | leftmost hpage =>
          obtain ⟨below, -, hint⟩ := (h.ok hb hpage).body
          exact ⟨_, _, hint.leftmost⟩
      | record hpage hr =>
          obtain ⟨below, -, hint⟩ := (h.ok hb hpage).body
          exact ⟨_, _, hint.child _ hr⟩
      | sibling hpage hne =>
          have hok := h.ok hb hpage
          exact ⟨_, _, hok.next fun hmax => hne (hok.last hmax)⟩

/-- Every tree that the clients can bring about is well formed, with the posted writes
carried out and without. -/
theorem ViewOk.wellFormed {view : View} {root : GlobalAddress} {m : Chart} {top : Nat}
    (h : ViewOk view root m top) : WellFormed view root := by
  have hle : m.Le view.chart := by
    rintro a ⟨l, x⟩ ha
    obtain ⟨page, hpage, hok⟩ := h.page a l x ha
    rw [View.chart_of (Tree.ne_null h.null ha) hpage, hok.level, hok.lowest]
  refine ⟨?_, Tree.ne_null h.null h.root, fun a ha => ?_⟩
  · obtain ⟨page, hpage, hok⟩ := h.page root top kKeyMin h.root
    exact ⟨page, hpage, hok.lowest⟩
  · obtain ⟨l, x, hax⟩ := h.inTree ha
    obtain ⟨page, hpage, hok⟩ := h.page a l x hax
    refine ⟨page, hpage, ?_⟩
    rw [hok.level, hok.lowest]
    exact hok.mono hle

theorem reachable_wellFormed {cfg : Config} {s : State} (hs : (machine cfg).Reachable s) :
    WellFormed s.mem s.rootPtr ∧ WellFormed (s.content cfg) s.rootPtr := by
  obtain ⟨m, h⟩ := reachable_inv hs
  obtain ⟨top, hmem⟩ := h.viewOk_mem
  obtain ⟨top', hcontent⟩ := h.viewOk_content
  exact ⟨hmem.wellFormed, hcontent.wellFormed⟩

/-! ### The checks before the records -/

/-- What the checks of a page's fences make of a store or a delete. -/
inductive Entered (hdr : Header) (k : Nat) (cached : Bool) : Outcome → Prop
  | stale (hc : cached = true) (hk : hdr.highest ≤ k) : Entered hdr k cached .stale
  | right (hc : cached = false) (hk : hdr.highest ≤ k) :
      Entered hdr k cached (.right hdr.siblingPtr)
  | here {out : Outcome} (hk : k < hdr.highest) (hstale : out ≠ .stale)
      (hright : ∀ sibling, out ≠ .right sibling)
      (hfail : ∀ why, out = .fail why → why = .full ∨ why = .splitKey) : Entered hdr k cached out

section Entered

variable {k v : Nat} {cached : Bool} {hdr : Header}

theorem Entered.fail {why : Assertion} (hk : k < hdr.highest) (h : why = .full ∨ why = .splitKey) :
    Entered hdr k cached (.fail why) :=
  .here hk (by simp) (by simp) fun why' heq => by cases heq; exact h

/-- Past its upper fence a page is left to the right, or the cache entry was stale. -/
theorem Entered.past {out : Outcome} (h : Entered hdr k cached out) (hk : hdr.highest ≤ k) :
    out = if cached then .stale else .right hdr.siblingPtr := by
  cases h with
  | stale hc _ | right hc _ => rw [hc]; rfl
  | here hlt => omega

theorem leafSplit_entered (page : LeafPage) (hk : k < hdr.highest) :
    Entered hdr k cached page.split := by
  unfold LeafPage.split LeafPage.splitSorted
  simp only
  split
  · exact .here hk (by simp) (by simp) (by simp)
  · exact .fail hk (Or.inr rfl)

theorem internalSplit_entered (page : InternalPage) (hk : k < hdr.highest) :
    Entered hdr k cached page.split := by
  unfold InternalPage.split
  simp only
  split
  · exact .here hk (by simp) (by simp) (by simp)
  · exact .fail hk (Or.inr rfl)

theorem leafStore_entered {page : LeafPage} (hok : page.Sound)
    (hlow : page.hdr.lowest ≤ k) : Entered page.hdr k cached (page.store k v cached) := by
  unfold LeafPage.store
  rw [if_neg (not_not_intro hok.level), if_neg (not_not_intro hok.consistent)]
  by_cases hk : page.hdr.highest ≤ k
  · cases cached with
    | true =>
        rw [if_pos ⟨rfl, Or.inr hk⟩]
        exact .stale rfl hk
    | false =>
        rw [if_neg (by simp), if_pos hk]
        exact .right rfl hk
  rw [if_neg (by omega), if_neg hk, if_neg (by omega)]
  have hlt := Nat.lt_of_not_le hk
  simp only
  split
  · exact .fail hlt (Or.inl rfl)
  · split
    · exact .here hlt (by simp) (by simp) (by simp)
    · exact .fail hlt (Or.inl rfl)
    · split
      · exact leafSplit_entered _ hlt
      · exact .here hlt (by simp) (by simp) (by simp)

theorem leafDel_entered {page : LeafPage} (hok : page.Sound)
    (hlow : page.hdr.lowest ≤ k) : Entered page.hdr k cached (page.del k cached) := by
  unfold LeafPage.del
  rw [if_neg (not_not_intro hok.level), if_neg (not_not_intro hok.consistent)]
  by_cases hk : page.hdr.highest ≤ k
  · cases cached with
    | true =>
        rw [if_pos ⟨rfl, Or.inr hk⟩]
        exact .stale rfl hk
    | false =>
        rw [if_neg (by simp), if_pos hk]
        exact .right rfl hk
  rw [if_neg (by omega), if_neg hk, if_neg (by omega)]
  have hlt := Nat.lt_of_not_le hk
  split
  · exact .here hlt (by simp) (by simp) (by simp)
  · exact .here hlt (by simp) (by simp) (by simp)

theorem internalStore_entered {m : Chart} {page : InternalPage} {below : Nat}
    {a : GlobalAddress} (hok : page.Ok m below) (hlow : page.hdr.lowest ≤ k) :
    Entered page.hdr k false (page.store k a (below + 1)) := by
  unfold InternalPage.store
  rw [if_neg (not_not_intro hok.level), if_neg (not_not_intro hok.consistent)]
  by_cases hk : page.hdr.highest ≤ k
  · rw [if_pos hk]
    exact .right rfl hk
  rw [if_neg hk, if_neg (by omega)]
  have hlt := Nat.lt_of_not_le hk
  split
  · exact .fail hlt (Or.inl rfl)
  · split
    · exact .here hlt (by simp) (by simp) (by simp)
    · simp only
      split
      · exact internalSplit_entered _ hlt
      · exact .here hlt (by simp) (by simp) (by simp)

/-- The key a task is about. -/
def Task.key (op : Op) : Task → Nat
  | .leafStore _ | .leafDel _ => op.key
  | .internalStore k _ _ => k

theorem outcome_entered {m : Chart} {op : Op} {task : Task} {page : Page} {y : Nat}
    (hok : page.Ok m task.level y) (hyk : y ≤ task.key op)
    (hlevel : ∀ k a l, task = .internalStore k a l → 0 < l) :
    Entered page.hdr (task.key op) task.cached (task.outcome op page) := by
  have hlow := hok.lowest
  cases task with
  | leafStore cached =>
      obtain ⟨lpage, rfl, hleaf⟩ := hok.leaf
      exact leafStore_entered hleaf.toSound (Nat.le_trans (Nat.le_of_eq hlow) hyk)
  | leafDel cached =>
      obtain ⟨lpage, rfl, hleaf⟩ := hok.leaf
      exact leafDel_entered hleaf.toSound (Nat.le_trans (Nat.le_of_eq hlow) hyk)
  | internalStore k a level =>
      obtain ⟨below, rfl⟩ := Nat.exists_eq_succ_of_ne_zero (Nat.ne_of_gt (hlevel k a level rfl))
      obtain ⟨ipage, rfl, hint⟩ := hok.internal
      exact internalStore_entered hint (Nat.le_trans (Nat.le_of_eq hlow) hyk)

end Entered

/-! ### Every stage is on the way -/

namespace Descent

/-- The store or the delete a descent is for. -/
def task : Descent → Task
  | .call op _ => op.task
  | .insertInternal k v level => .internalStore k v level

/-- A page of level `l` may be on the way. -/
def Above (l : Nat) : Descent → Prop
  | .call _ _ => True
  | .insertInternal _ _ level => 0 < level ∧ level < l

/-- The page a descent is to end at. -/
def Home (view : View) (root : GlobalAddress) (d : Descent) (p : GlobalAddress) : Prop :=
  InTree view root p ∧ ∃ page, view p = some page ∧ page.hdr.level = d.level ∧
    page.hdr.lowest ≤ d.key ∧ d.key < page.hdr.highest

/-- From the root, or as good as that: the page that is read begins at or before the key. -/
def OnWay (view : View) (root : GlobalAddress) (d : Descent) : Stage → Prop
  | .search p goal => goal = d.goal ∧
      ∃ l y, treeChart view root p = some (l, y) ∧ y ≤ d.key ∧ d.Above l
  | .store p task => task = d.task ∧ d.Above (d.level + 1) ∧
      ∃ y, treeChart view root p = some (d.level, y) ∧ y ≤ d.key
  | .arrived p => d.Home view root p
  | .failed _ => False

/-- What is left of the way. -/
noncomputable def rank (view : View) (root : GlobalAddress) : Stage → Nat
  | .search p _ => 2 * place (treeChart view root) p + 1
  | .store p _ => 2 * place (treeChart view root) p
  | .arrived _ | .failed _ => 0

/-- The way has become shorter, or is over. -/
def Nearer (view : View) (root : GlobalAddress) (st st' : Stage) : Prop :=
  rank view root st' < rank view root st ∨ st'.reads = none

section OnWay

variable {view : View} {root p q : GlobalAddress} {d : Descent} {l y z : Nat}

theorem task_level (d : Descent) : d.task.level = d.level := by
  cases d with
  | call op cached => exact op_task_level op
  | insertInternal k v level => rfl

theorem client_key (d : Descent) : d.goal.key d.client.op = d.key := by
  cases d <;> rfl

theorem goal_fromCache (d : Descent) : d.goal.fromCache = false := by
  cases d <;> rfl

theorem task_key (d : Descent) : d.task.key d.client.op = d.key := by
  cases d with
  | call op cached => cases op <;> rfl
  | insertInternal k v level => rfl

theorem task_cached (d : Descent) : d.task.cached = false := by
  cases d with
  | call op cached => cases op <;> rfl
  | insertInternal k v level => rfl

theorem task_uncached (d : Descent) : d.task.uncached = d.task := by
  cases d with
  | call op cached => cases op <;> rfl
  | insertInternal k v level => rfl

/-! What `page_search` has found decides what comes next -/

theorem ofPc_right (hne : q ≠ .Null) (habove : d.Above l) :
    Stage.ofPc root p (afterSearch d.client p d.goal
      (some ⟨decide (l = 0), l, q, .Null, kValueNull⟩)) = .search q d.goal ∨
    l = d.level ∧ d.Above (d.level + 1) ∧ Stage.ofPc root p (afterSearch d.client p d.goal
      (some ⟨decide (l = 0), l, q, .Null, kValueNull⟩)) = .store p d.task := by
  cases d with
  | call op cached =>
      by_cases hl : l = 0
      · cases op with
        | search k =>
            refine Or.inl ?_
            simp only [afterSearch, goal, client, hl, decide_true, if_true, ne_eq,
              not_true_eq_false, if_false, hne, not_false_eq_true]
            rfl
        | insert k v | del k =>
            refine Or.inr ⟨hl, trivial, ?_⟩
            simp only [afterSearch, goal, client, hl, decide_true, if_true]
            rfl
      · refine Or.inl ?_
        cases op <;>
          simp only [afterSearch, goal, client, hl, decide_false, Bool.false_eq_true, if_false,
            ne_eq, hne, not_false_eq_true, if_true] <;> rfl
  | insertInternal k v level =>
      obtain ⟨-, hlt⟩ := habove
      refine Or.inl ?_
      simp only [afterSearch, goal, client]
      rw [if_neg (by omega), if_pos hne]
      rfl

theorem ofPc_child {below : Nat} (habove : d.Above (below + 1)) :
    d.Above below ∧ Stage.ofPc root p (afterSearch d.client p d.goal
      (some ⟨false, below + 1, .Null, q, kValueNull⟩)) = .search q d.goal ∨
    below = d.level ∧ d.Above (d.level + 1) ∧ Stage.ofPc root p (afterSearch d.client p d.goal
      (some ⟨false, below + 1, .Null, q, kValueNull⟩)) = .store q d.task := by
  cases d with
  | call op cached =>
      cases op with
      | search k =>
          refine Or.inl ⟨trivial, ?_⟩
          simp only [afterSearch, goal, client]
          rw [if_neg Bool.false_ne_true, if_neg (not_not_intro rfl)]
          rfl
      | insert k v | del k =>
          simp only [afterSearch, goal, client]
          rw [if_neg Bool.false_ne_true, if_neg (Nat.succ_ne_zero _),
            if_neg (not_not_intro rfl)]
          by_cases hbelow : below = 0
          · rw [if_neg (by omega)]
            exact Or.inr ⟨hbelow, trivial, rfl⟩
          · rw [if_pos (by omega)]
            exact Or.inl ⟨trivial, rfl⟩
  | insertInternal k v level =>
      obtain ⟨hpos, hlt⟩ := habove
      simp only [afterSearch, goal, client]
      rw [if_neg (Nat.succ_ne_zero _), if_neg (not_not_intro rfl)]
      by_cases hbelow : below = level
      · rw [if_neg (by omega)]
        exact Or.inr ⟨hbelow, ⟨hpos, Nat.lt_succ_self _⟩, rfl⟩
      · rw [if_pos (by omega)]
        exact Or.inl ⟨⟨hpos, by omega⟩, rfl⟩

theorem ofPc_leaf {val : Nat} (habove : d.Above 0) :
    d.level = 0 ∧ (Stage.ofPc root p (afterSearch d.client p d.goal
      (some ⟨true, 0, .Null, .Null, val⟩)) = .arrived p ∨
    d.Above (d.level + 1) ∧ Stage.ofPc root p (afterSearch d.client p d.goal
      (some ⟨true, 0, .Null, .Null, val⟩)) = .store p d.task) := by
  cases d with
  | call op cached =>
      refine ⟨rfl, ?_⟩
      cases op with
      | search k =>
          refine Or.inl ?_
          simp only [afterSearch, goal, client, if_true]
          split
          · rfl
          · rw [if_neg (not_not_intro rfl)]
            rfl
      | insert k v | del k => exact Or.inr ⟨trivial, rfl⟩
  | insertInternal k v level => exact absurd habove.2 (Nat.not_lt_zero _)

/-! One stage -/

theorem nearer_store {goal : Goal} {task : Task} :
    Nearer view root (.search p goal) (.store p task) :=
  Or.inl (Nat.lt_succ_self _)

theorem nearer_of_place {st st' : Stage}
    (h : place (treeChart view root) q < place (treeChart view root) p)
    (hst : 2 * place (treeChart view root) p ≤ rank view root st)
    (hst' : rank view root st' ≤ 2 * place (treeChart view root) q + 1) :
    Nearer view root st st' := Or.inl (by omega)

theorem onWay_search (h : WellFormed view root) (hk : d.key < kKeyMax)
    (hway : d.OnWay view root (.search p d.goal)) :
    d.OnWay view root ((Stage.search p d.goal).next view root d.client) ∧
      Nearer view root (.search p d.goal) ((Stage.search p d.goal).next view root d.client) := by
  obtain ⟨-, l, y, hp, hy, habove⟩ := hway
  obtain ⟨page, hpage, hok⟩ := h.page_of hp
  obtain ⟨result, hresult, hfound⟩ := pageSearch_spec hok treeChart_null hy hk
    (fun hcache => absurd hcache Bool.false_ne_true)
  have hnext : (Stage.search p d.goal).next view root d.client
      = Stage.ofPc root p (afterSearch d.client p d.goal result) := by
    simp only [Stage.next, hpage, hok.consistent, if_true, client_key, goal_fromCache, hresult]
  rw [hnext]
  cases hfound with
  | stale hcache _ => cases hcache
  | right sibling hright hsib =>
      rcases @ofPc_right root p _ d _ (ne_null treeChart_null hsib) habove
        with hst | ⟨hl, hstore, hst⟩
      · rw [hst]
        have hplace := place_right hp hsib hok.range (by omega)
        exact ⟨⟨rfl, l, _, hsib, hright, habove⟩, nearer_of_place hplace (Nat.le_succ _) (Nat.le_refl _)⟩
      · rw [hst]
        subst hl
        exact ⟨⟨rfl, hstore, y, hp, hy⟩, nearer_store⟩
  | leaf lpage val hl hlt hleaf _ _ =>
      subst hl
      obtain ⟨hlevel, hst | ⟨hstore, hst⟩⟩ := @ofPc_leaf root p d val habove
      · rw [hst]
        refine ⟨⟨treeChart_inTree hp, page, hpage, ?_, ?_, hlt⟩, Or.inr rfl⟩
        · rw [hok.level, hlevel]
        · rw [hok.lowest]
          exact hy
      · rw [hst]
        exact ⟨⟨rfl, hstore, y, by rw [hlevel]; exact hp, hy⟩, nearer_store⟩
  | child below z c hl hc hyz hzk =>
      subst hl
      have hplace := place_down hp hc
      rcases @ofPc_child root p c d _ habove
        with ⟨habove', hst⟩ | ⟨hl, hstore, hst⟩
      · rw [hst]
        exact ⟨⟨rfl, below, z, hc, hzk, habove'⟩, nearer_of_place hplace (Nat.le_succ _) (Nat.le_refl _)⟩
      · rw [hst]
        subst hl
        exact ⟨⟨rfl, hstore, z, hc, hzk⟩, nearer_of_place hplace (Nat.le_succ _) (Nat.le_succ _)⟩

theorem task_internal {d : Descent} {k l : Nat} {a : GlobalAddress}
    (habove : d.Above (d.level + 1)) (h : d.task = .internalStore k a l) : 0 < l := by
  cases d with
  | call op cached => cases op <;> cases h
  | insertInternal k' v level =>
      cases h
      exact habove.1

/-- A page that admits the key is the one to work on. -/
theorem store_arrives {x : Local} {task : Task} {page : Page} {k : Nat} {cached : Bool}
    (hpage : view p = some page) (h : Entered page.hdr k cached (task.outcome x.op page))
    (hk : k < page.hdr.highest) : (Stage.store p task).next view root x = .arrived p := by
  simp only [Stage.next, hpage]
  generalize task.outcome x.op page = out at h
  cases h with
  | stale _ hle | right _ hle => omega
  | here _ hstale hright hfail =>
      cases out with
      | stale => exact absurd rfl hstale
      | right sibling => exact absurd rfl (hright sibling)
      | fail why => exact if_pos (hfail why rfl)
      | entry i r | absent | page page' | split left right splitKey => rfl

theorem onWay_store (h : WellFormed view root) (hk : d.key < kKeyMax)
    (hway : d.OnWay view root (.store p d.task)) :
    d.OnWay view root ((Stage.store p d.task).next view root d.client) ∧
      Nearer view root (.store p d.task) ((Stage.store p d.task).next view root d.client) := by
  obtain ⟨-, habove, y, hp, hy⟩ := hway
  obtain ⟨page, hpage, hok⟩ := h.page_of hp
  have hentered := @outcome_entered _ d.client.op _ _ _ (by rw [task_level]; exact hok)
    (by rw [task_key]; exact hy) fun _ _ _ htask => task_internal habove htask
  rw [task_key, task_cached] at hentered
  rcases Nat.lt_or_ge d.key page.hdr.highest with hlt | hge
  · rw [store_arrives hpage hentered hlt]
    exact ⟨⟨treeChart_inTree hp, page, hpage, hok.level, by rw [hok.lowest]; exact hy, hlt⟩,
      Or.inr rfl⟩
  · have hsib := hok.next (by omega)
    have hnext : (Stage.store p d.task).next view root d.client =
        .store page.hdr.siblingPtr d.task := by
      simp only [Stage.next, hpage, hentered.past hge, afterUnlock, Bool.false_eq_true, if_false,
        ne_null treeChart_null hsib, task_uncached]
      rfl
    rw [hnext]
    exact ⟨⟨rfl, habove, _, hsib, hge⟩, nearer_of_place
      (place_right hp hsib hok.range (by omega)) (Nat.le_refl _) (Nat.le_succ _)⟩

theorem onWay_next (h : WellFormed view root) (hk : d.key < kKeyMax) {st : Stage}
    (hway : d.OnWay view root st) : d.OnWay view root (st.next view root d.client) ∧
      (st.reads = none ∨ Nearer view root st (st.next view root d.client)) := by
  cases st with
  | search p goal =>
      obtain rfl := hway.1
      exact (onWay_search h hk hway).imp_right Or.inr
  | store p task =>
      obtain rfl := hway.1
      exact (onWay_store h hk hway).imp_right Or.inr
  | arrived p => exact ⟨hway, Or.inl rfl⟩
  | failed why => exact hway.elim

/-! The whole way -/

theorem onWay_iterate (h : WellFormed view root) (hk : d.key < kKeyMax) {st : Stage}
    (hway : d.OnWay view root st) (n : Nat) :
    d.OnWay view root ((Stage.next view root d.client)^[n] st) := by
  induction n with
  | zero => exact hway
  | succ n ih =>
      rw [Function.iterate_succ_apply']
      exact (onWay_next h hk ih).1

theorem onWay_reads {st : Stage} (hway : d.OnWay view root st) {a : GlobalAddress}
    (ha : st.reads = some a) : InTree view root a := by
  cases st with
  | search p goal =>
      cases ha
      obtain ⟨-, l, y, hp, -⟩ := hway
      exact treeChart_inTree hp
  | store p task =>
      cases ha
      obtain ⟨-, -, y, hp, -⟩ := hway
      exact treeChart_inTree hp
  | arrived p => cases ha
  | failed why => cases ha

theorem onWay_arrives (h : WellFormed view root) (hk : d.key < kKeyMax) :
    ∀ (r : Nat) (st : Stage), rank view root st = r → d.OnWay view root st →
      ∃ n p, (Stage.next view root d.client)^[n] st = .arrived p ∧ d.Home view root p := by
  intro r
  induction r using Nat.strong_induction_on with
  | _ r ih =>
      intro st hr hway
      obtain ⟨hnext, hend | hlt | hover⟩ := onWay_next h hk hway
      · cases st with
        | search p goal => cases hend
        | store p task => cases hend
        | arrived p => exact ⟨0, p, rfl, hway⟩
        | failed why => exact hway.elim
      · rw [hr] at hlt
        obtain ⟨n, p, hn, hhome⟩ := ih _ hlt _ rfl hnext
        exact ⟨n + 1, p, hn, hhome⟩
      · cases hst : st.next view root d.client with
        | search p goal => rw [hst] at hover; cases hover
        | store p task => rw [hst] at hover; cases hover
        | arrived p =>
            rw [hst] at hnext
            exact ⟨1, p, hst, hnext⟩
        | failed why =>
            rw [hst] at hnext
            exact hnext.elim

theorem lands_of_onWay (h : WellFormed view root) (hk : d.key < kKeyMax)
    (hway : d.OnWay view root (d.start root)) : d.Lands view root := by
  refine ⟨fun n a ha => onWay_reads (onWay_iterate h hk hway n) ha, ?_⟩
  obtain ⟨n, p, hn, hin, page, hpage, hhome⟩ := onWay_arrives h hk _ _ rfl hway
  exact ⟨n, p, page, hn, hin, hpage, hhome⟩

/-! The beginning -/

theorem onWay_root (h : WellFormed view root)
    (habove : ∀ page, view root = some page → d.Above page.hdr.level) :
    d.OnWay view root (.search root d.goal) := by
  obtain ⟨page, hpage, hlow⟩ := h.begins
  refine ⟨rfl, page.hdr.level, kKeyMin, ?_, Nat.zero_le _, habove page hpage⟩
  rw [← hlow]
  exact h.treeChart_of .refl hpage

variable {op : Op} {cached : Option (GlobalAddress × (Nat × Nat))} {entry : Nat × Nat} {page : Page}

/-- What a leaf is read for after the index cache has given it. -/
theorem lands_of_next (h : WellFormed view root) (hk : d.key < kKeyMax)
    (hread : ∀ a, (d.start root).reads = some a → InTree view root a)
    (hway : d.OnWay view root ((d.start root).next view root d.client)) :
    d.Lands view root := by
  constructor
  · intro n a ha
    cases n with
    | zero => exact hread a ha
    | succ n => exact onWay_reads (onWay_iterate h hk hway n) ha
  · obtain ⟨n, p, hn, hin, page, hpage, hhome⟩ := onWay_arrives h hk _ _ rfl hway
    exact ⟨n + 1, p, page, hn, hin, hpage, hhome⟩

/-- A leaf from the index cache that begins after the key is left for the root. -/
theorem outcome_below {task : Task} {m : Chart} {x : Nat}
    (htask : task = .leafStore (some entry) ∨ task = .leafDel (some entry))
    (hok : page.Ok m 0 x) (hlow : op.key < page.hdr.lowest) : task.outcome op page = .stale := by
  obtain ⟨lpage, rfl, hleaf⟩ := hok.leaf
  have hlevel : ¬ lpage.hdr.level ≠ 0 := not_not_intro hok.level
  have hconsistent : ¬ lpage.rearVersion ≠ lpage.frontVersion := not_not_intro hleaf.consistent
  have hout : (some entry).isSome = true ∧ (op.key < lpage.hdr.lowest ∨ lpage.hdr.highest ≤ op.key) :=
    ⟨rfl, Or.inl hlow⟩
  rcases htask with rfl | rfl
  · show lpage.store op.key op.value _ = .stale
    unfold LeafPage.store
    rw [if_neg hlevel, if_neg hconsistent, if_pos hout]
  · show lpage.del op.key _ = .stale
    unfold LeafPage.del
    rw [if_neg hlevel, if_neg hconsistent, if_pos hout]

theorem onWay_cachedStore (h : WellFormed view root) {task : Task}
    (htask : task = .leafStore (some entry) ∨ task = .leafDel (some entry))
    (ha : InTree view root p) (hpage : view p = some page) (hlevel : page.hdr.level = 0) :
    (call op cached).OnWay view root
      ((Stage.store p task).next view root (call op cached).client) := by
  have hok := h.ok ha hpage
  have hstale : task.outcome op page = .stale →
      (Stage.store p task).next view root (call op cached).client = .search root (.leaf none) :=
    fun hout => by simp only [Stage.next, hpage, client, hout]
  by_cases hbelow : op.key < page.hdr.lowest
  · rw [hstale (outcome_below htask (hlevel ▸ hok) hbelow)]
    exact onWay_root h fun _ _ => trivial
  have hlow : page.hdr.lowest ≤ op.key := Nat.le_of_not_lt hbelow
  have hfacts : task.level = 0 ∧ task.key op = op.key ∧ task.cached = true ∧
      ∀ k a l, task = .internalStore k a l → 0 < l := by
    rcases htask with rfl | rfl <;> exact ⟨rfl, rfl, rfl, fun _ _ _ heq => by cases heq⟩
  obtain ⟨htlevel, htkey, htcached, hinternal⟩ := hfacts
  rw [hlevel, ← htlevel] at hok
  have hentered : Entered page.hdr op.key true (task.outcome (call op cached).client.op page) := by
    have hentered := outcome_entered hok (by rw [htkey]; exact hlow) hinternal
    rwa [htkey, htcached] at hentered
  rcases Nat.lt_or_ge op.key page.hdr.highest with hlt | hge
  · rw [store_arrives hpage hentered hlt]
    exact ⟨ha, page, hpage, hlevel, hlow, hlt⟩
  · rw [hstale (hentered.past hge)]
    exact onWay_root h fun _ _ => trivial

theorem pageSearch_stale {lpage : LeafPage} {k : Nat} (hleft : lpage.hdr.leftmostPtr = .Null)
    (hk : k < lpage.hdr.lowest ∨ lpage.hdr.highest ≤ k) :
    pageSearch (.leaf lpage) k true = .ok none := by
  simp only [pageSearch]
  rw [if_neg (not_not_intro hleft), if_pos ⟨trivial, hk⟩]

theorem onWay_cachedSearch (h : WellFormed view root) {k : Nat} (hk : k < kKeyMax)
    (ha : InTree view root p) (hpage : view p = some page) (hlevel : page.hdr.level = 0) :
    (call (.search k) cached).OnWay view root
      ((Stage.search p (.leaf (some entry))).next view root (call (.search k) cached).client) := by
  have hok := h.treeChart_ok ha hpage
  rw [hlevel] at hok
  obtain ⟨lpage, rfl, hleaf⟩ := hok.leaf
  have hnext : ∀ {result}, pageSearch (.leaf lpage) k true = .ok result →
      (Stage.search p (.leaf (some entry))).next view root (call (.search k) cached).client =
        Stage.ofPc root p
          (afterSearch (call (.search k) cached).client p (.leaf (some entry)) result) := by
    intro result hresult
    simp only [Stage.next, hpage, hok.consistent, if_true, client, Goal.key, Op.key, Goal.fromCache,
      Option.isSome_some, hresult]
  by_cases hout : k < lpage.hdr.lowest ∨ lpage.hdr.highest ≤ k
  · rw [hnext (pageSearch_stale hleaf.leftmost hout)]
    exact onWay_root h fun _ _ => trivial
  · obtain ⟨hlow, hhigh⟩ := not_or.mp hout
    have hlow : lpage.hdr.lowest ≤ k := Nat.le_of_not_lt hlow
    obtain ⟨result, hresult, hfound⟩ := @pageSearch_spec _ _ _ _ k true hok treeChart_null
      hlow hk fun _ => rfl
    rw [hnext hresult]
    cases hfound with
    | stale _ hstale => exact absurd hstale hhigh
    | right _ hright => exact absurd hright hhigh
    | child below z c hl => cases hl
    | leaf _ val _ hlt =>
        have harrived : Stage.ofPc root p (afterSearch (call (.search k) cached).client p
            (.leaf (some entry)) (some ⟨true, 0, .Null, .Null, val⟩)) = .arrived p := by
          simp only [afterSearch, client, if_true]
          split
          · rfl
          · rw [if_neg (not_not_intro rfl)]
            rfl
        rw [harrived]
        exact ⟨ha, .leaf lpage, hpage, hlevel, hlow, hlt⟩

theorem lands_of_lt (h : WellFormed view root) (hapt : d.Apt view root) (hk : d.key < kKeyMax) :
    d.Lands view root := by
  cases d with
  | insertInternal k v level =>
      obtain ⟨hpos, page, hpage, hlt⟩ := hapt
      refine lands_of_onWay h hk (onWay_root h fun page' hpage' => ?_)
      rw [hpage] at hpage'
      cases hpage'
      exact ⟨hpos, hlt⟩
  | call op cached =>
      cases cached with
      | none =>
          have hstart : (call op none).start root = .search root (call op none).goal := by
            cases op <;> rfl
          refine lands_of_onWay h hk ?_
          rw [hstart]
          exact onWay_root h fun _ _ => trivial
      | some hit =>
          obtain ⟨a, entry⟩ := hit
          obtain ⟨ha, page, hpage, hlevel⟩ := hapt
          have hread : ∀ b, ((call op (some (a, entry))).start root).reads = some b →
              InTree view root b := by
            intro b hb
            cases op <;> cases hb <;> exact ha
          refine lands_of_next h hk hread ?_
          cases op with
          | search k => exact onWay_cachedSearch h hk ha hpage hlevel
          | insert k v => exact onWay_cachedStore h (Or.inl rfl) ha hpage hlevel
          | del k => exact onWay_cachedStore h (Or.inr rfl) ha hpage hlevel

end OnWay

/-- A descent reads only pages of the tree, and ends at one that admits its key, unless the key
is the greatest there is. -/
theorem lands_iff {view : View} {root : GlobalAddress} {d : Descent} (h : WellFormed view root)
    (hapt : d.Apt view root) : d.Lands view root ↔ d.key < kKeyMax := by
  constructor
  · rintro ⟨-, n, p, page, -, hin, hpage, -, -, hlt⟩
    exact Nat.lt_of_lt_of_le hlt (h.ok hin hpage).top
  · exact lands_of_lt h hapt

/-- An insert of the greatest key into a new tree turns right at its only leaf, and there is no
page there. -/
theorem insert_kKeyMax_fails :
    WellFormed (State.init ⟨0, 8⟩).mem ⟨0, 8⟩ ∧
      (call (.insert kKeyMax 7) none).stage (State.init ⟨0, 8⟩).mem ⟨0, 8⟩ 2 = .failed .sibling ∧
      ¬ (call (.insert kKeyMax 7) none).Lands (State.init ⟨0, 8⟩).mem ⟨0, 8⟩ := by
  have hreach : (machine sample).Reachable (State.init ⟨0, 8⟩) :=
    ⟨_, ⟨⟨0, 8⟩, by decide, rfl⟩, .refl⟩
  have hwf := (reachable_wellFormed hreach).1
  have hstage : (call (.insert kKeyMax 7) none).stage (State.init ⟨0, 8⟩).mem ⟨0, 8⟩ 2
      = .failed .sibling := by
    decide +kernel
  refine ⟨hwf, hstage, ?_⟩
  rintro ⟨-, n, p, page, -, hin, hpage, -, -, hlt⟩
  exact Nat.lt_irrefl _ (Nat.lt_of_lt_of_le hlt (hwf.ok hin hpage).top)

/-- One through the index cache. -/
theorem insert_cached_lands :
    (call (.insert 5 7) (some (⟨0, 8⟩, (0, 9)))).Lands (State.init ⟨0, 8⟩).mem ⟨0, 8⟩ := by
  have hreach : (machine sample).Reachable (State.init ⟨0, 8⟩) :=
    ⟨_, ⟨⟨0, 8⟩, by decide, rfl⟩, .refl⟩
  refine (lands_iff (reachable_wellFormed hreach).1 ?_).mpr (by decide)
  exact ⟨.refl, .leaf (LeafPage.new 0).setConsistent, by decide, by decide⟩

end Descent

end Dal.Tree
