/-
The tree under any number of clients: `insert`, `del` and `search` of
`src/Sherman/src/Tree.cpp`, one access to shared memory at a time, in the builds
without `HANDOVER_DATA`.

A client is a thread, or a coroutine of one; `path_stack` is its own.  The locks are
what the lock modules show them to be, `SHERMAN_LOCK`'s as long as each local lock is
acquired fewer than 2^32 times (see `Dal.Lock.Ticket`): held by one client at a time,
possibly handed to a waiting client of the same node, possibly released by a write that
was posted and not executed yet.  With `BATCHED_WRITEBACK` the write of a page that was
split is posted together with that release, and executed before it.

A client that waits for a posted operation is modelled by the operation executing at
once, since nobody can tell.  Pages are read as one committed version, which is
what the memory of the model holds.  The allocator is the choice of an address nobody
has used; `path_stack` has an entry for every level.
-/
import Dal.Tree.IndexCache
import Dal.Lib.Transition
import Mathlib.Logic.Function.Basic

namespace Dal.Tree

/-- What the builds and the drivers fix. -/
structure Config where
  cityHash : GlobalAddress → Nat
  lockNR : Nat
  machineNR : Nat
  /-- Built with `HANDOVER`. -/
  handover : Bool
  /-- Built with `BATCHED_WRITEBACK`. -/
  batched : Bool

/-- The lock that guards a page. -/
def Config.lockAddr (cfg : Config) (a : GlobalAddress) : LockAddr :=
  ⟨a.nodeID, cfg.cityHash a % cfg.lockNR⟩

structure Client where
  node : Nat
  id : Nat
  deriving DecidableEq, Repr

/-- A call a client is serving, or has served last. -/
inductive Op
  | insert (k : Nat) (v : Nat)
  | del (k : Nat)
  | search (k : Nat)
  deriving DecidableEq, Repr

def Op.key : Op → Nat
  | .insert k _ | .del k | .search k => k

/-- The value an insert stores. -/
def Op.value : Op → Nat
  | .insert _ v => v
  | .del _ | .search _ => kValueNull

/-- `k < kKeyMax` and `v != kValueNull`. -/
def Op.valid : Op → Bool
  | .insert k v => decide (k < kKeyMax ∧ v ≠ kValueNull)
  | .del k | .search k => decide (k < kKeyMax)

inductive Response
  | done
  | found (v : Nat)
  | notFound
  deriving DecidableEq, Repr

/-- A call of one of the three functions that work on a locked page.  `cached` is
`from_cache`, with the range of the cache entry the address came from. -/
inductive Task
  | leafStore (cached : Option (Nat × Nat))
  | leafDel (cached : Option (Nat × Nat))
  | internalStore (k : Nat) (v : GlobalAddress) (level : Nat)
  deriving DecidableEq, Repr

def Task.level : Task → Nat
  | .leafStore _ | .leafDel _ => 0
  | .internalStore _ _ level => level

/-- The call at the sibling, where `from_cache` has its default. -/
def Task.uncached : Task → Task
  | .leafStore _ => .leafStore none
  | .leafDel _ => .leafDel none
  | .internalStore k v level => .internalStore k v level

/-- What a descent through the tree is for. -/
inductive Goal
  /-- The leaf of the operation's key. -/
  | leaf (cached : Option (Nat × Nat))
  /-- `insert_internal`: the page one level above `level` that covers `k`. -/
  | parent (k : Nat) (v : GlobalAddress) (level : Nat)
  deriving DecidableEq, Repr

/-- What `get_root_ptr` is called for. -/
inductive RootUse
  | operation
  | cachedStore (addr : GlobalAddress) (entry : Nat × Nat)
  | parent (k : Nat) (v : GlobalAddress) (level : Nat)
  /-- After a search that returned false. -/
  | retry (goal : Goal)
  deriving DecidableEq, Repr

/-- How a lock is let go. -/
inductive Release
  | handover
  | sync
  | async
  deriving DecidableEq, Repr

/-- What follows the release of a page's lock. -/
inductive After
  | done
  | stale (entry : Nat × Nat)
  | right (task : Task) (sibling : GlobalAddress)
  /-- `splitKey` and the new sibling have to go one level up. -/
  | split (p : GlobalAddress) (task : Task) (splitKey : Nat) (sibling : GlobalAddress)
  deriving DecidableEq, Repr

inductive Pc
  | idle (response : Option Response)
  /-- Before the index cache is consulted, by `insert` and `del`. -/
  | start
  /-- In `get_root_ptr`, before `g_root_ptr` is read. -/
  | getRoot (use : RootUse)
  /-- In `get_root_ptr`, before the root pointer is read from memory. -/
  | readRoot (use : RootUse)
  /-- Before `search` consults the index cache. -/
  | searchCache
  /-- Before `page_search(p, ..)` reads the page. -/
  | descend (p : GlobalAddress) (goal : Goal)
  /-- The page was read and is about to be added to the index cache. -/
  | caching (p : GlobalAddress) (page : InternalPage) (goal : Goal)
  /-- Before a stale cache entry is invalidated. -/
  | invalidate (entry : Nat × Nat)
  /-- In `try_lock_addr`. -/
  | lock (p : GlobalAddress) (task : Task)
  /-- The lock is held, the page not read yet. -/
  | read (p : GlobalAddress) (task : Task)
  | loaded (p : GlobalAddress) (task : Task) (page : Page)
  /-- The new sibling is written, the page not yet. -/
  | linked (p : GlobalAddress) (task : Task) (page : Page) (sibling : GlobalAddress)
  | unlock (p : GlobalAddress) (mode : Release) (after : After)
  /-- In `update_new_root`, before the new root is written. -/
  | grow (p : GlobalAddress) (task : Task) (splitKey : Nat) (sibling : GlobalAddress)
  /-- Before the compare-and-swap of the root pointer. -/
  | casRoot (p : GlobalAddress) (task : Task) (splitKey : Nat) (sibling : GlobalAddress)
      (newRoot : GlobalAddress)
  | failed (why : Assertion)
  deriving DecidableEq, Repr

/-- The variables of one client. -/
structure Local where
  op : Op
  /-- `path_stack`. -/
  path : Nat → GlobalAddress
  root : GlobalAddress
  pc : Pc

/-- `g_root_ptr`, `g_root_level` and `enable_cache` of a node. -/
structure Directory where
  rootPtr : GlobalAddress
  rootLevel : Int
  enableCache : Bool

inductive Lock
  | free
  | held (c : Client)
  /-- Handed over within a node. -/
  | handed (node : Nat)
  /-- The write of 0 is posted, maybe with the write of a page before it. -/
  | posted (write : Option (GlobalAddress × Page))
  deriving DecidableEq

structure State where
  mem : GlobalAddress → Option Page
  /-- The word at `root_ptr_ptr`. -/
  rootPtr : GlobalAddress
  locks : LockAddr → Lock
  directory : Nat → Directory
  cache : Nat → IndexCache
  /-- `NEW_ROOT` messages on their way: to which node, with what address and level. -/
  messages : List (Nat × GlobalAddress × Nat)
  clients : Client → Local

/-- A freshly constructed tree whose root leaf is at `root`. -/
def State.init (root : GlobalAddress) : State where
  mem := fun a => if a = root then some (.leaf (LeafPage.new 0).setConsistent) else none
  rootPtr := root
  locks := fun _ => .free
  directory := fun _ => ⟨.Null, -1, false⟩
  cache := fun _ => []
  messages := []
  clients := fun _ => ⟨.search 0, fun _ => .Null, .Null, .idle none⟩

def State.setClient (s : State) (c : Client) (x : Local) : State :=
  { s with clients := Function.update s.clients c x }

def State.setPc (s : State) (c : Client) (p : Pc) : State :=
  s.setClient c { s.clients c with pc := p }

def State.setLock (s : State) (l : LockAddr) (x : Lock) : State :=
  { s with locks := Function.update s.locks l x }

def State.write (s : State) (a : GlobalAddress) (page : Page) : State :=
  { s with mem := Function.update s.mem a (some page) }

def State.setCache (s : State) (n : Nat) (cache : IndexCache) : State :=
  { s with cache := Function.update s.cache n cache }

inductive Action
  | call (c : Client) (op : Op)
  /-- The client's next step: `fresh` is what `dsm->alloc` returns, `waiter` whom
  `can_hand_over` sees waiting. -/
  | run (c : Client) (fresh : GlobalAddress) (waiter : Option Client)
  /-- The first of the writes posted for a lock is executed. -/
  | land (l : LockAddr)
  /-- A directory processes a `NEW_ROOT` message. -/
  | deliver (message : Nat × GlobalAddress × Nat)
  /-- `evict_one`, of whatever it has drawn. -/
  | evict (n : Nat) (entry : Nat × Nat)

/-! ### The functions of the tree -/

/-- The key a descent follows. -/
def Goal.key (op : Op) : Goal → Nat
  | .leaf _ => op.key
  | .parent k _ _ => k

def Goal.fromCache : Goal → Bool
  | .leaf cached => cached.isSome
  | .parent .. => false

/-- The body of `leaf_page_store`, `leaf_page_del` or `internal_page_store`. -/
def Task.outcome (op : Op) : Task → Page → Outcome
  | .leafStore cached, .leaf page => page.store op.key op.value cached.isSome
  | .leafDel cached, .leaf page => page.del op.key cached.isSome
  | .internalStore k v level, .internal page => page.store k v level
  | _, _ => .fail .level

/-- The call `insert` or `del` ends with. -/
def Op.task : Op → Task
  | .insert .. | .search _ => .leafStore none
  | .del _ => .leafDel none

/-- `insert`, `del`, `search` and `insert_internal` after `page_search(p, ..)` returned. -/
def afterSearch (x : Local) (p : GlobalAddress) (goal : Goal) : Option SearchResult → Pc
  | none =>
      match goal, x.op with
      | .leaf (some entry), .search _ => .invalidate entry
      | .leaf none, .search _ => .descend p goal
      | _, _ => .getRoot (.retry goal)
  | some result =>
      match goal, x.op with
      | .leaf _, .search _ =>
          if result.isLeaf then
            if result.val ≠ kValueNull then .idle (some (.found result.val))
            else if result.slibing ≠ .Null then .descend result.slibing goal
            else .idle (some .notFound)
          else if result.slibing ≠ .Null then .descend result.slibing goal
          else .descend result.nextLevel goal
      | .leaf _, op =>
          if result.isLeaf then .lock p op.task
          else if result.level = 0 then .failed .level
          else if result.slibing ≠ .Null then .descend result.slibing goal
          else if result.level ≠ 1 then .descend result.nextLevel goal
          else .lock result.nextLevel op.task
      | .parent k v level, _ =>
          if result.level = 0 then .failed .level
          else if result.slibing ≠ .Null then .descend result.slibing goal
          else if result.level ≠ level + 1 then .descend result.nextLevel goal
          else .lock result.nextLevel (.internalStore k v level)

/-- Where `get_root_ptr` returns `root` to. -/
def rooted (x : Local) (root : GlobalAddress) : RootUse → Local
  | .operation =>
      match x.op with
      | .search _ => { x with root := root, pc := .searchCache }
      | _ => { x with root := root, pc := .descend root (.leaf none) }
  | .cachedStore addr entry => { x with root := root, pc := .lock addr (.leafStore (some entry)) }
  | .parent k v level => { x with root := root, pc := .descend root (.parent k v level) }
  | .retry goal => { x with pc := .descend root goal }

/-- The end of a store that has split its page, when there is no new root to install. -/
def postUp (x : Local) (task : Task) (splitKey : Nat) (sibling : GlobalAddress) : Pc :=
  let upLevel := x.path (task.level + 1)
  if upLevel ≠ .Null then .lock upLevel (.internalStore splitKey sibling (task.level + 1))
  else
    match task with
    | .leafStore (some _) => .getRoot (.parent splitKey sibling (task.level + 1))
    | .leafStore none => .failed .fromCache
    | _ => .failed .noParent

/-- What a client does after it has let the lock go. -/
def afterUnlock (x : Local) : After → Pc
  | .done => .idle (some .done)
  | .stale entry => .invalidate entry
  | .right task sibling =>
      if sibling = .Null then .failed .sibling else .lock sibling task.uncached
  | .split p task splitKey sibling =>
      if x.root = p then .grow p task splitKey sibling else postUp x task splitKey sibling

/-- The range of the entry a leaf was reached by, when it was reached through the cache. -/
def Task.entry : Task → Nat × Nat
  | .leafStore (some entry) | .leafDel (some entry) => entry
  | _ => (0, 0)

/-- `can_hand_over`, and how the lock is let go otherwise. -/
def release (cfg : Config) (s : State) (c : Client) (p : GlobalAddress) (waiter : Option Client)
    (async : Bool) : Option Release :=
  match waiter with
  | none => some (if async then .async else .sync)
  | some u =>
      match (s.clients u).pc with
      | .lock q _ =>
          if cfg.handover ∧ u.node = c.node ∧ cfg.lockAddr q = cfg.lockAddr p then
            some .handover
          else none
      | _ => none

/-! ### One step of one client -/

/-- `insert` and `del` before anything was read. -/
def start (s : State) (c : Client) : Pc :=
  let op := (s.clients c).op
  let hit := if (s.directory c.node).enableCache then (s.cache c.node).searchFromCache op.key else none
  match op, hit with
  | .insert .., some hit => .getRoot (.cachedStore hit.addr (hit.start, hit.last))
  | .del _, some hit => .lock hit.addr (.leafDel (some (hit.start, hit.last)))
  | _, _ => .getRoot .operation

/-- `search` once it has the root. -/
def searchCache (s : State) (c : Client) : Pc :=
  let x := s.clients c
  let hit := if (s.directory c.node).enableCache then (s.cache c.node).searchFromCache x.op.key
    else none
  match hit with
  | some hit => .descend hit.addr (.leaf (some (hit.start, hit.last)))
  | none => .descend x.root (.leaf none)

/-- `page_search`: read the page, and use it unless it has to be cached first. -/
def pageRead (s : State) (c : Client) (p : GlobalAddress) (goal : Goal) : Local :=
  let x := s.clients c
  match s.mem p with
  | none => { x with pc := .failed .unmapped }
  | some page =>
      let x := { x with path := Function.update x.path page.hdr.level p }
      if page.consistent then
        match pageSearch page (goal.key x.op) goal.fromCache, page with
        | .error why, _ => { x with pc := .failed why }
        | .ok result, .internal ipage =>
            if ipage.hdr.level = 1 ∧ (s.directory c.node).enableCache then
              { x with pc := .caching p ipage goal }
            else { x with pc := afterSearch x p goal result }
        | .ok result, _ => { x with pc := afterSearch x p goal result }
      else x

/-- `add_to_cache`, and the rest of `page_search`. -/
def caching (s : State) (c : Client) (p : GlobalAddress) (page : InternalPage) (goal : Goal) :
    State :=
  let x := s.clients c
  let s' := s.setCache c.node ((s.cache c.node).addToCache page)
  match pageSearch (.internal page) (goal.key x.op) goal.fromCache with
  | .error why => s'.setPc c (.failed why)
  | .ok result => s'.setPc c (afterSearch x p goal result)

/-- The step after a locked page was read. -/
def loaded (cfg : Config) (s : State) (c : Client) (p : GlobalAddress) (task : Task) (page : Page)
    (fresh : GlobalAddress) (waiter : Option Client) : Option State :=
  match task.outcome (s.clients c).op page with
  | .fail why => some (s.setPc c (.failed why))
  | .stale =>
      (release cfg s c p waiter true).map fun mode =>
        s.setPc c (.unlock p mode (.stale task.entry))
  | .right sibling =>
      (release cfg s c p waiter true).map fun mode =>
        s.setPc c (.unlock p mode (.right task sibling))
  | .absent =>
      (release cfg s c p waiter false).map fun mode => s.setPc c (.unlock p mode .done)
  | .entry i r =>
      (release cfg s c p waiter false).map fun mode =>
        { s with mem := Function.update s.mem p ((s.mem p).map (Page.setEntry i r)) }.setPc c
          (.unlock p mode .done)
  | .page page' =>
      (release cfg s c p waiter false).map fun mode =>
        (s.write p (.internal page')).setPc c (.unlock p mode .done)
  | .split _ right _ =>
      if s.mem fresh = none ∧ fresh ≠ .Null then
        some ((s.write fresh right).setPc c (.linked p task page fresh))
      else none

/-- The write of a split page: posted together with the release, or on its own. -/
def writeSplit (cfg : Config) (s : State) (c : Client) (p : GlobalAddress) (page : Page)
    (after : After) : Release → State
  | .async => (s.setLock (cfg.lockAddr p) (.posted (some (p, page)))).setPc c
      (afterUnlock (s.clients c) after)
  | mode => (s.write p page).setPc c (.unlock p mode after)

/-- The write of the split page, once its sibling is in place. -/
def linked (cfg : Config) (s : State) (c : Client) (p : GlobalAddress) (task : Task) (page : Page)
    (sibling : GlobalAddress) (waiter : Option Client) : Option State :=
  match task.outcome (s.clients c).op page with
  | .split left _ splitKey =>
      (release cfg s c p waiter cfg.batched).map
        (writeSplit cfg s c p (left.link sibling) (.split p task splitKey sibling))
  | _ => none

/-- What becomes of a lock that a client of a node lets go. -/
def Release.lock (node : Nat) : Release → Lock
  | .handover => .handed node
  | .sync => .free
  | .async => .posted none

def unlock (cfg : Config) (s : State) (c : Client) (p : GlobalAddress) (mode : Release)
    (after : After) : State :=
  (s.setLock (cfg.lockAddr p) (mode.lock c.node)).setPc c (afterUnlock (s.clients c) after)

/-- The compare-and-swap of `update_new_root` and what follows. -/
def casRoot (cfg : Config) (s : State) (c : Client) (task : Task) (splitKey : Nat)
    (sibling newRoot : GlobalAddress) : State :=
  let x := s.clients c
  if s.rootPtr = x.root then
    { s with
      rootPtr := newRoot
      messages := s.messages ++
        (List.range cfg.machineNR).map fun n => (n, newRoot, task.level + 1) }.setPc c
      (.idle (some .done))
  else s.setPc c (postUp x task splitKey sibling)

/-- Where an operation goes on once a stale cache entry is cleared. -/
def restart (x : Local) : Pc :=
  match x.op with
  | .search _ => .descend x.root (.leaf none)
  | _ => .getRoot .operation

def runClient (cfg : Config) (s : State) (c : Client) (fresh : GlobalAddress)
    (waiter : Option Client) : Option State :=
  let x := s.clients c
  match x.pc with
  | .idle _ => none
  | .failed _ => none
  | .start => some (s.setPc c (start s c))
  | .getRoot use =>
      let root := (s.directory c.node).rootPtr
      if root = .Null then some (s.setPc c (.readRoot use))
      else some (s.setClient c (rooted x root use))
  | .readRoot use => some (s.setClient c (rooted x s.rootPtr use))
  | .searchCache => some (s.setPc c (searchCache s c))
  | .descend p goal => some (s.setClient c (pageRead s c p goal))
  | .caching p page goal => some (caching s c p page goal)
  | .invalidate entry =>
      some ((s.setCache c.node ((s.cache c.node).invalidate entry.1 entry.2)).setPc c (restart x))
  | .lock p task =>
      match s.locks (cfg.lockAddr p) with
      | .free => some ((s.setLock (cfg.lockAddr p) (.held c)).setPc c (.read p task))
      | .handed n =>
          if n = c.node then some ((s.setLock (cfg.lockAddr p) (.held c)).setPc c (.read p task))
          else none
      | _ => none
  | .read p task =>
      match s.mem p with
      | none => some (s.setPc c (.failed .unmapped))
      | some page => some (s.setPc c (.loaded p task page))
  | .loaded p task page => loaded cfg s c p task page fresh waiter
  | .linked p task page sibling => linked cfg s c p task page sibling waiter
  | .unlock p mode after => some (unlock cfg s c p mode after)
  | .grow p task splitKey sibling =>
      if s.mem fresh = none ∧ fresh ≠ .Null then
        some ((s.write fresh (newRoot p splitKey sibling (task.level + 1))).setPc c
          (.casRoot p task splitKey sibling fresh))
      else none
  | .casRoot _ task splitKey sibling newRoot =>
      some (casRoot cfg s c task splitKey sibling newRoot)

/-- `process_message` for `NEW_ROOT`. -/
def Directory.newRoot (d : Directory) (addr : GlobalAddress) (level : Nat) : Directory :=
  if d.rootLevel < level then
    { rootPtr := addr, rootLevel := level, enableCache := d.enableCache || decide (3 ≤ level) }
  else d

def step (cfg : Config) (s : State) : Action → Option State
  | .call c op =>
      match (s.clients c).pc with
      | .idle _ =>
          if op.valid then
            some (s.setClient c (match op with
              | .search _ => { s.clients c with op := op, pc := .getRoot .operation }
              | _ => { s.clients c with op := op, path := fun _ => .Null, pc := .start }))
          else none
      | _ => none
  | .run c fresh waiter => runClient cfg s c fresh waiter
  | .land l =>
      match s.locks l with
      | .posted (some (a, page)) => some ((s.write a page).setLock l (.posted none))
      | .posted none => some (s.setLock l .free)
      | _ => none
  | .deliver (n, addr, level) =>
      if (n, addr, level) ∈ s.messages then
        some { s with
          directory := Function.update s.directory n ((s.directory n).newRoot addr level)
          messages := s.messages.erase (n, addr, level) }
      else none
  | .evict n entry => some (s.setCache n ((s.cache n).invalidate entry.1 entry.2))

/-- Any number of clients on any number of nodes, any interleaving; `root` is where the
first leaf was allocated. -/
def machine (cfg : Config) : System State Action where
  Init s := ∃ root, root ≠ .Null ∧ s = State.init root
  step := step cfg

/-- One machine and sixteen locks, to run examples on. -/
def sample : Config :=
  { cityHash := fun a => a.offset, lockNR := 16, machineNR := 1, handover := false, batched := false }

/-- `n` inserts one after another, into a leaf that has room for them. -/
def fill (n : Nat) : List Action :=
  (List.range n).flatMap fun k =>
    .call ⟨0, 0⟩ (.insert (k + 1) 7) :: List.replicate 8 (.run ⟨0, 0⟩ .Null none)

/-- The insert that splits the first leaf, up to the write of the page; its sibling goes to
`sibling`. -/
def splitLeaf (sibling : GlobalAddress) : List Action :=
  .call ⟨0, 0⟩ (.insert 100 7) :: List.replicate 6 (.run ⟨0, 0⟩ .Null none) ++
    [.run ⟨0, 0⟩ sibling none, .run ⟨0, 0⟩ .Null none]

/-- The same, and the new root goes to `root`. -/
def splitRoot (sibling root : GlobalAddress) : List Action :=
  splitLeaf sibling ++ [.run ⟨0, 0⟩ .Null none, .run ⟨0, 0⟩ root none, .run ⟨0, 0⟩ .Null none]

end Dal.Tree
