/-
The invariant of the tree.

It is stated relative to a chart of the pages that are linked into the tree.  The
pages of one level tile the keys; every version of a page that anybody can still see
is `Ok` for the chart; and a client that is about to work on a page got its address
from such a version, so it knows the page to begin at or before its key.  `PcOk` says
the latter for each program counter.

A split is visible half done: the new sibling is linked, its separator is not posted
yet.  The client that is going to post it has it `pending`, and until then no page of
the upper level knows the key.
-/
import Dal.Tree.Machine
import Dal.Tree.Internal
import Dal.Lib.Tiling

namespace Dal.Tree

/-- What a page holds: the write on its way, if there is one, or else what is in memory. -/
def State.content (cfg : Config) (s : State) (a : GlobalAddress) : Option Page :=
  match s.locks (cfg.lockAddr a) with
  | .posted (some (b, page)) => if b = a then some page else s.mem a
  | _ => s.mem a

/-! ### What the program counters say -/

/-- The lock a client holds. -/
def Pc.holds (cfg : Config) : Pc → Option LockAddr
  | .read p _ | .loaded p _ _ | .linked p _ _ _ | .unlock p _ _ => some (cfg.lockAddr p)
  | _ => none

/-- The page a client has written and not linked into the tree yet. -/
def Pc.fresh : Pc → Option GlobalAddress
  | .linked _ _ _ sibling => some sibling
  | .casRoot _ _ _ _ newRoot => some newRoot
  | _ => none

/-- A separator on its way up: the new page, where it begins, the level it is for. -/
structure Pending where
  sibling : GlobalAddress
  key : Nat
  level : Nat
  deriving DecidableEq

def Goal.pending : Goal → Option Pending
  | .leaf _ => none
  | .parent k v level => some ⟨v, k, level⟩

def Task.pending : Task → Option Pending
  | .internalStore k v level => some ⟨v, k, level⟩
  | .leafStore _ | .leafDel _ => none

def RootUse.pending : RootUse → Option Pending
  | .operation | .cachedStore .. => none
  | .parent k v level => some ⟨v, k, level⟩
  | .retry goal => goal.pending

def After.pending : After → Option Pending
  | .done | .stale _ => none
  | .right task _ => task.pending
  | .split _ task splitKey sibling => some ⟨sibling, splitKey, task.level + 1⟩

def Pc.pending : Pc → Option Pending
  | .getRoot use | .readRoot use => use.pending
  | .descend _ goal | .caching _ _ goal => goal.pending
  | .lock _ task | .read _ task | .loaded _ task _ | .linked _ task _ _ => task.pending
  | .unlock _ _ after => after.pending
  | .grow _ task splitKey sibling | .casRoot _ task splitKey sibling _ =>
      some ⟨sibling, splitKey, task.level + 1⟩
  | .idle _ | .start | .searchCache | .invalidate _ | .failed _ => none

/-- `insert` and `del`, which use `path_stack`. -/
def Op.updates : Op → Bool
  | .insert .. | .del _ => true
  | .search _ => false

def Op.inserts : Op → Bool
  | .insert .. => true
  | .del _ | .search _ => false

/-- What an operation leaves under its key. -/
def Op.stored : Op → Option Nat
  | .insert _ v => some v
  | .del _ | .search _ => none

/-! ### What a client knows -/

/-- The root of some time: it begins at `kKeyMin`. -/
def RootAt (m : Chart) (a : GlobalAddress) : Prop := ∃ l, m a = some (l, kKeyMin)

/-- `path_stack` above level `l`, for a page that begins at `x`: each entry is a page of
its level, and they begin further left the higher they are. -/
def PathOk (m : Chart) (path : Nat → GlobalAddress) (l x : Nat) : Prop :=
  ∀ i, l < i → path i ≠ .Null → ∃ y, m (path i) = some (i, y) ∧ y ≤ x ∧
    ∀ j z, l < j → j < i → m (path j) = some (j, z) → y ≤ z

/-- Page `p` is on level `l` and begins at or before `k`. -/
def Spot (m : Chart) (x : Local) (p : GlobalAddress) (l k : Nat) : Prop :=
  ∃ y, m p = some (l, y) ∧ y ≤ k ∧ (x.op.updates = true → PathOk m x.path l y)

/-- `path_stack` is as `before_operation` left it. -/
def NoPath (x : Local) : Prop := ∀ i, x.path i = .Null

/-- A descent is at a page that begins at or before its key, above where it has to get. -/
def GoalOk (m : Chart) (enabled : Bool) (x : Local) (p : GlobalAddress) : Goal → Prop
  | .leaf cached => RootAt m x.root ∧
      ∃ l, Spot m x p l x.op.key ∧ (cached ≠ none → l = 0 ∧ x.op.updates = false)
  | .parent k _ level => RootAt m x.root ∧ x.op.inserts = true ∧ enabled = true ∧
      ∃ l, level < l ∧ Spot m x p l k

def TaskOk (m : Chart) (enabled : Bool) (x : Local) (p : GlobalAddress) : Task → Prop
  | .leafStore cached => RootAt m x.root ∧ x.op.inserts = true ∧ Spot m x p 0 x.op.key ∧
      (cached ≠ none → enabled = true ∧ NoPath x)
  | .leafDel cached => x.op.updates = true ∧ x.op.inserts = false ∧ Spot m x p 0 x.op.key ∧
      (cached ≠ none → NoPath x)
  | .internalStore k _ level => RootAt m x.root ∧ x.op.inserts = true ∧ Spot m x p level k

def UseOk (m : Chart) (enabled : Bool) (x : Local) : RootUse → Prop
  | .operation => x.op.updates = true → NoPath x
  | .cachedStore addr _ => x.op.inserts = true ∧ enabled = true ∧ NoPath x ∧
      Spot m x addr 0 x.op.key
  | .parent _ _ level => x.op.inserts = true ∧ enabled = true ∧ NoPath x ∧ level = 1
  | .retry _ => False

/-- A page was split at `k`, and the separator is to go up from it. -/
def SplitOk (m : Chart) (enabled : Bool) (x : Local) (p : GlobalAddress) (task : Task) (k : Nat) :
    Prop :=
  RootAt m x.root ∧ x.op.inserts = true ∧
    (∃ y, m p = some (task.level, y) ∧ y < k ∧ PathOk m x.path task.level y) ∧
    match task with
    | .leafStore cached => cached ≠ none → enabled = true ∧ NoPath x
    | .leafDel _ => False
    | .internalStore .. => True

def AfterOk (m : Chart) (enabled : Bool) (x : Local) : After → Prop
  | .done => x.op.updates = true
  | .stale _ => x.op.updates = true ∧ NoPath x
  | .right task sibling => sibling ≠ .Null ∧ TaskOk m enabled x sibling task.uncached
  | .split p task splitKey _ => SplitOk m enabled x p task splitKey

def PcOk (m : Chart) (enabled : Bool) (mem : GlobalAddress → Option Page) (x : Local) : Pc → Prop
  | .idle _ => True
  | .failed why => why = .fromCache ∨ why = .noParent
  | .start => x.op.updates = true ∧ NoPath x
  | .getRoot use | .readRoot use => UseOk m enabled x use
  | .searchCache => RootAt m x.root ∧ x.op.updates = false
  | .descend p goal => GoalOk m enabled x p goal
  | .caching p page goal => GoalOk m enabled x p goal ∧ x.path 1 = p ∧
      goal.fromCache = false ∧ ∃ y, m p = some (1, y) ∧ (Page.internal page).Ok m 1 y
  | .invalidate _ => if x.op.updates then NoPath x else RootAt m x.root
  | .lock p task | .read p task => TaskOk m enabled x p task
  | .loaded p task page => TaskOk m enabled x p task ∧ mem p = some page
  | .linked p task page sibling => TaskOk m enabled x p task ∧ mem p = some page ∧
      ∃ left right splitKey, task.outcome x.op page = .split left right splitKey ∧
        mem sibling = some right
  | .unlock _ _ after => AfterOk m enabled x after
  | .grow p task splitKey _ => SplitOk m enabled x p task splitKey ∧ x.root = p
  | .casRoot p task splitKey sibling root => SplitOk m enabled x p task splitKey ∧ x.root = p ∧
      mem root = some (newRoot p splitKey sibling (task.level + 1))

/-! ### The invariant -/

/-- Page `a` of level `l` covers the keys from `x` up to `y`. -/
def Covers (cfg : Config) (s : State) (m : Chart) (l : Nat) (a : GlobalAddress) (x y : Nat) :
    Prop :=
  m a = some (l, x) ∧ ∃ page, s.content cfg a = some page ∧ page.hdr.highest = y

/-- The pages in memory and on their way there. -/
structure Shape (cfg : Config) (s : State) (m : Chart) : Prop where
  null : m .Null = none
  page : ∀ a l x, m a = some (l, x) → ∃ page, s.mem a = some page ∧ page.Ok m l x
  posted : ∀ k a page, s.locks k = .posted (some (a, page)) →
    cfg.lockAddr a = k ∧ ∃ l x, m a = some (l, x) ∧ page.Ok m l x
  tiling : ∀ l, Tiling (Covers cfg s m l)

/-- The root pointer leads to the top of the tree. -/
def TopOk (s : State) (m : Chart) : Prop :=
  ∃ top, m s.rootPtr = some (top, kKeyMin) ∧ ∀ a l x, m a = some (l, x) → l ≤ top

/-- What a directory has been told is a root; the cache is on from level 3 on. -/
structure DirectoryOk (m : Chart) (d : Directory) : Prop where
  root : d.rootPtr ≠ .Null → ∃ l : Nat, d.rootLevel = l ∧ m d.rootPtr = some (l, kKeyMin)
  enabled : d.enableCache = true → d.rootPtr ≠ .Null ∧ 3 ≤ d.rootLevel

/-- A cached copy is of a page of level 1, and the entry has its range. -/
def CopyOk (m : Chart) (e : CacheEntry) (page : InternalPage) : Prop :=
  (Page.internal page).Ok m 1 page.hdr.lowest ∧ e.start = page.hdr.lowest ∧
    e.last = page.hdr.highest - 1

/-- No page of `level` begins or has a separator at `k`. -/
def Unposted (cfg : Config) (s : State) (m : Chart) (level k : Nat) : Prop :=
  (∀ a, m a ≠ some (level, k)) ∧ ∀ a x page, m a = some (level, x) →
    s.content cfg a = some page → ∀ r ∈ page.separators, r.key ≠ k

/-- A pending separator is that of a page one level below, and new to its level. -/
def PendingOk (cfg : Config) (s : State) (m : Chart) (d : Pending) : Prop :=
  ∃ below, d.level = below + 1 ∧ m d.sibling = some (below, d.key) ∧ kKeyMin < d.key ∧
    d.key < kKeyMax ∧ Unposted cfg s m d.level d.key

/-- Each client knows what it should, holds the lock it is about to use, and has the page
it has written to itself. -/
structure ClientsOk (cfg : Config) (s : State) (m : Chart) : Prop where
  valid : ∀ c, (s.clients c).op.valid = true
  pc : ∀ c, PcOk m (s.directory c.node).enableCache s.mem (s.clients c) (s.clients c).pc
  held : ∀ c k, (s.clients c).pc.holds cfg = some k → s.locks k = .held c
  fresh : ∀ c a, (s.clients c).pc.fresh = some a → m a = none ∧ s.mem a ≠ none ∧ a ≠ .Null
  freshOnce : ∀ c d a, (s.clients c).pc.fresh = some a → (s.clients d).pc.fresh = some a → c = d

structure Inv (cfg : Config) (s : State) (m : Chart) : Prop extends ClientsOk cfg s m where
  shape : Shape cfg s m
  top : TopOk s m
  directory : ∀ n, DirectoryOk m (s.directory n)
  messages : ∀ n a l, (n, a, l) ∈ s.messages → m a = some (l, kKeyMin)
  cache : ∀ n e page, e ∈ s.cache n → e.ptr = some page → CopyOk m e page
  pending : ∀ c d, (s.clients c).pc.pending = some d → PendingOk cfg s m d
  pendingOnce : ∀ c d e e', (s.clients c).pc.pending = some e →
    (s.clients d).pc.pending = some e' → e.sibling = e'.sibling → c = d

/-! ### Later charts -/

section Mono

variable {m m' : Chart} {enabled enabled' : Bool} {x : Local} {p : GlobalAddress} {l k : Nat}

theorem RootAt.mono (hle : m.Le m') {a : GlobalAddress} (h : RootAt m a) : RootAt m' a :=
  h.imp fun _ ha => hle _ _ ha

/-- An entry of the path that is on the chart already is where it will be. -/
theorem PathOk.mono (hle : m.Le m') {path : Nat → GlobalAddress} (hnull : m' .Null = none)
    (h : PathOk m path l k) : PathOk m' path l k := by
  intro i hi hne
  obtain ⟨y, hy, hyk, hbelow⟩ := h i hi hne
  refine ⟨y, hle _ _ hy, hyk, fun j z hj hji hz => ?_⟩
  have hnej : path j ≠ .Null := fun hn => by rw [hn, hnull] at hz; cases hz
  obtain ⟨z', hz', -, -⟩ := h j hj hnej
  have hzz := hle _ _ hz'
  rw [hz] at hzz
  cases hzz
  exact hbelow j z hj hji hz'

variable (hle : m.Le m') (hnull : m' .Null = none) (hen : enabled = true → enabled' = true)

include hle hnull in
theorem Spot.mono (h : Spot m x p l k) : Spot m' x p l k := by
  obtain ⟨y, hy, hyk, hpath⟩ := h
  exact ⟨y, hle _ _ hy, hyk, fun hu => (hpath hu).mono hle hnull⟩

include hle hnull hen

theorem GoalOk.mono {goal : Goal} (h : GoalOk m enabled x p goal) : GoalOk m' enabled' x p goal := by
  cases goal with
  | leaf cached =>
      obtain ⟨hroot, l, hspot, hcached⟩ := h
      exact ⟨hroot.mono hle, l, hspot.mono hle hnull, hcached⟩
  | parent k v level =>
      obtain ⟨hroot, hins, hen', l, hl, hspot⟩ := h
      exact ⟨hroot.mono hle, hins, hen hen', l, hl, hspot.mono hle hnull⟩

theorem TaskOk.mono {task : Task} (h : TaskOk m enabled x p task) : TaskOk m' enabled' x p task := by
  cases task with
  | leafStore cached =>
      obtain ⟨hroot, hins, hspot, hcached⟩ := h
      exact ⟨hroot.mono hle, hins, hspot.mono hle hnull, fun hc => (hcached hc).imp_left hen⟩
  | leafDel cached =>
      obtain ⟨hup, hins, hspot, hcached⟩ := h
      exact ⟨hup, hins, hspot.mono hle hnull, hcached⟩
  | internalStore k v level =>
      obtain ⟨hroot, hins, hspot⟩ := h
      exact ⟨hroot.mono hle, hins, hspot.mono hle hnull⟩

theorem UseOk.mono {use : RootUse} (h : UseOk m enabled x use) : UseOk m' enabled' x use := by
  cases use with
  | operation => exact h
  | cachedStore addr entry =>
      exact ⟨h.1, hen h.2.1, h.2.2.1, h.2.2.2.mono hle hnull⟩
  | parent k v level => exact ⟨h.1, hen h.2.1, h.2.2⟩
  | retry goal => exact h

theorem SplitOk.mono {task : Task} (h : SplitOk m enabled x p task k) :
    SplitOk m' enabled' x p task k := by
  obtain ⟨hroot, hins, ⟨y, hy, hyk, hpath⟩, htask⟩ := h
  refine ⟨hroot.mono hle, hins, ⟨y, hle _ _ hy, hyk, hpath.mono hle hnull⟩, ?_⟩
  cases task with
  | leafStore cached => exact fun hc => (htask hc).imp_left hen
  | leafDel cached => exact htask
  | internalStore k v level => trivial

theorem AfterOk.mono {after : After} (h : AfterOk m enabled x after) :
    AfterOk m' enabled' x after := by
  cases after with
  | done => exact h
  | stale entry => exact h
  | right task sibling => exact ⟨h.1, h.2.mono hle hnull hen⟩
  | split p task splitKey sibling => exact SplitOk.mono hle hnull hen h

/-- What a client knows stays true while others work, if they leave alone the page it
holds and the page it has written. -/
theorem PcOk.mono {mem mem' : GlobalAddress → Option Page} {pc : Pc}
    (hpage : ∀ p task page, pc = .loaded p task page ∨ (∃ sibling, pc = .linked p task page sibling) →
      mem' p = mem p)
    (hfresh : ∀ a, pc.fresh = some a → mem' a = mem a)
    (h : PcOk m enabled mem x pc) : PcOk m' enabled' mem' x pc := by
  cases pc with
  | idle _ => trivial
  | failed why => exact h
  | start => exact h
  | getRoot use | readRoot use => exact UseOk.mono hle hnull hen h
  | searchCache => exact ⟨h.1.mono hle, h.2⟩
  | descend p goal => exact GoalOk.mono hle hnull hen h
  | caching p page goal =>
      obtain ⟨hgoal, hpath, hcached, y, hy, hok⟩ := h
      exact ⟨hgoal.mono hle hnull hen, hpath, hcached, y, hle _ _ hy, hok.mono hle⟩
  | invalidate entry =>
      simp only [PcOk] at h ⊢
      split
      · rename_i hu
        rwa [if_pos hu] at h
      · rename_i hu
        rw [if_neg hu] at h
        exact h.mono hle
  | lock p task | read p task => exact TaskOk.mono hle hnull hen h
  | loaded p task page =>
      exact ⟨h.1.mono hle hnull hen, (hpage p task page (Or.inl rfl)).trans h.2⟩
  | linked p task page sibling =>
      obtain ⟨htask, hmem, left, right, splitKey, hout, hright⟩ := h
      exact ⟨htask.mono hle hnull hen, (hpage p task page (Or.inr ⟨sibling, rfl⟩)).trans hmem, left,
        right, splitKey, hout, (hfresh sibling rfl).trans hright⟩
  | unlock p mode after => exact AfterOk.mono hle hnull hen h
  | grow p task splitKey sibling => exact ⟨h.1.mono hle hnull hen, h.2⟩
  | casRoot p task splitKey sibling root =>
      exact ⟨h.1.mono hle hnull hen, h.2.1, (hfresh root rfl).trans h.2.2⟩

end Mono

end Dal.Tree
