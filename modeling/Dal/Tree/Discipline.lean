/-
The locks one call takes: `insert`, `del` and `insert_internal` as programs.

Here the tree is whatever the call reads of it.  The page that `lock_and_read_page`
leaves in the buffer, the result of a search, the root pointer, the entries of
`path_stack` and of the index cache are answers to questions, and nothing is assumed
about them, so that what is shown holds in every build, with or without `HANDOVER` and
`HANDOVER_DATA`, and whatever the other threads do.

`unlock_addr` and `write_page_and_unlock` each let go of the lock exactly once, the one
without and the one with a write; both are the release of a lock here.  The fuel
bounds the recursion: what a call does before it runs out of it is what the call does.
-/
import Dal.Lib.Program
import Dal.Tree.Machine

namespace Dal.Tree.Discipline

/-- What a call asks its surroundings. -/
inductive Question
  /-- `get_root_ptr`. -/
  | rootPtr
  /-- `search_from_cache(k, ..)`, where the cache is enabled. -/
  | cache (k : Nat)
  /-- `page_search(p, k, ..)`, with `none` where it returns false. -/
  | pageSearch (p : GlobalAddress) (k : Nat)
  /-- The page in the buffer, after `lock_and_read_page` or after it was read again. -/
  | page (p : GlobalAddress)
  /-- `dsm->alloc`. -/
  | alloc
  /-- `update_new_root`. -/
  | updateNewRoot
  /-- `path_stack[coro_id][level]`. -/
  | pathStack (level : Nat)

def Answer : Question → Type
  | .rootPtr | .alloc | .pathStack _ => GlobalAddress
  | .cache _ => Option GlobalAddress
  | .pageSearch .. => Option SearchResult
  | .page _ => Page
  | .updateNewRoot => Bool

abbrev Call := Program LockAddr Answer

open Program (stop ret)

def getRootPtr : Call GlobalAddress := .question Question.rootPtr
def searchFromCache (k : Nat) : Call (Option GlobalAddress) := .question (Question.cache k)
def pageSearch (p : GlobalAddress) (k : Nat) : Call (Option SearchResult) :=
  .question (Question.pageSearch p k)
def readPage (p : GlobalAddress) : Call Page := .question (Question.page p)
def alloc : Call GlobalAddress := .question Question.alloc
def updateNewRoot : Call Bool := .question Question.updateNewRoot
def pathStack (level : Nat) : Call GlobalAddress := .question (Question.pathStack level)

def tryLockAddr (l : LockAddr) : Call Unit := .lock l
def unlockAddr (l : LockAddr) : Call Unit := .unlock l
def writePageAndUnlock (l : LockAddr) : Call Unit := .unlock l

/-! ### The procedures -/

/-- A page that was the root when the call began is to get a new root above it. -/
def growRoot (root pageAddr : GlobalAddress) : Call Bool :=
  if root = pageAddr then updateNewRoot else ret false

/-- The body of a store into an internal page. -/
def internalOutcome (page : Page) (k : Nat) (v : GlobalAddress) (level : Nat) : Outcome :=
  match page with
  | .internal page => page.store k v level
  | .leaf _ => .fail .level

def leafOutcome (page : Page) (k v : Nat) (fromCache : Bool) : Outcome :=
  match page with
  | .leaf page => page.store k v fromCache
  | .internal _ => .fail .level

def delOutcome (page : Page) (k : Nat) (fromCache : Bool) : Outcome :=
  match page with
  | .leaf page => page.del k fromCache
  | .internal _ => .fail .level

variable (cfg : Config)

/-- `internal_page_store`. -/
def internalPageStore : Nat → GlobalAddress → Nat → GlobalAddress → GlobalAddress → Nat → Call Unit
  | 0, _, _, _, _, _ => stop
  | fuel + 1, pageAddr, k, v, root, level => do
      tryLockAddr (cfg.lockAddr pageAddr)
      let page ← readPage pageAddr
      match internalOutcome page k v level with
      | .fail _ | .stale | .absent | .entry .. => stop
      | .right sibling => do
          unlockAddr (cfg.lockAddr pageAddr)
          if sibling = .Null then stop
          else internalPageStore fuel sibling k v root level
      | .page _ => writePageAndUnlock (cfg.lockAddr pageAddr)
      | .split _ _ splitKey => do
          let siblingAddr ← alloc
          writePageAndUnlock (cfg.lockAddr pageAddr)
          let grown ← growRoot root pageAddr
          if grown then ret ()
          else do
            let upLevel ← pathStack (level + 1)
            if upLevel ≠ .Null then
              internalPageStore fuel upLevel splitKey siblingAddr root (level + 1)
            else stop

/-- The loop of `insert_internal`. -/
def findParent : Nat → GlobalAddress → Nat → Nat → Call GlobalAddress
  | 0, _, _, _ => stop
  | fuel + 1, p, k, level => do
      let result ← pageSearch p k
      match result with
      | none => do
          let root ← getRootPtr
          findParent fuel root k level
      | some result =>
          if result.level = 0 then stop
          else if result.slibing ≠ .Null then findParent fuel result.slibing k level
          else if result.level ≠ level + 1 then findParent fuel result.nextLevel k level
          else ret result.nextLevel

/-- `insert_internal`. -/
def insertInternal (fuel k : Nat) (v : GlobalAddress) (level : Nat) : Call Unit := do
  let root ← getRootPtr
  let p ← findParent fuel root k level
  internalPageStore cfg fuel p k v root level

/-- `leaf_page_store`, at level 0. -/
def leafPageStore : Nat → GlobalAddress → Nat → Nat → GlobalAddress → Bool → Call Bool
  | 0, _, _, _, _, _ => stop
  | fuel + 1, pageAddr, k, v, root, fromCache => do
      tryLockAddr (cfg.lockAddr pageAddr)
      let page ← readPage pageAddr
      match leafOutcome page k v fromCache with
      -- The page has another level: it is read again, and the insert given up if that helps.
      | .fail .level => do
          let page ← readPage pageAddr
          if page.hdr.level = 0 then do
            unlockAddr (cfg.lockAddr pageAddr)
            ret true
          else stop
      | .fail _ | .absent | .page _ => stop
      | .stale => do
          unlockAddr (cfg.lockAddr pageAddr)
          ret false
      | .right sibling => do
          unlockAddr (cfg.lockAddr pageAddr)
          if sibling = .Null then stop
          else do
            let _ ← leafPageStore fuel sibling k v root false
            ret true
      | .entry .. => do
          writePageAndUnlock (cfg.lockAddr pageAddr)
          ret true
      | .split _ _ splitKey => do
          let siblingAddr ← alloc
          writePageAndUnlock (cfg.lockAddr pageAddr)
          let grown ← growRoot root pageAddr
          if grown then ret true
          else do
            let upLevel ← pathStack 1
            if upLevel ≠ .Null then do
              internalPageStore cfg fuel upLevel splitKey siblingAddr root 1
              ret true
            else if fromCache then do
              insertInternal cfg fuel splitKey siblingAddr 1
              ret true
            else stop

/-- `leaf_page_del`, at level 0. -/
def leafPageDel : Nat → GlobalAddress → Nat → Bool → Call Bool
  | 0, _, _, _ => stop
  | fuel + 1, pageAddr, k, fromCache => do
      tryLockAddr (cfg.lockAddr pageAddr)
      let page ← readPage pageAddr
      match delOutcome page k fromCache with
      | .fail _ | .page _ | .split .. => stop
      | .stale => do
          unlockAddr (cfg.lockAddr pageAddr)
          ret false
      | .right sibling => do
          unlockAddr (cfg.lockAddr pageAddr)
          if sibling = .Null then stop
          else do
            let _ ← leafPageDel fuel sibling k false
            ret true
      | .entry .. => do
          writePageAndUnlock (cfg.lockAddr pageAddr)
          ret true
      | .absent => do
          unlockAddr (cfg.lockAddr pageAddr)
          ret true

/-- The loop of `insert` and `del`. -/
def findLeaf : Nat → GlobalAddress → Nat → Call GlobalAddress
  | 0, _, _ => stop
  | fuel + 1, p, k => do
      let result ← pageSearch p k
      match result with
      | none => do
          let root ← getRootPtr
          findLeaf fuel root k
      | some result =>
          if result.isLeaf then ret p
          else if result.level = 0 then stop
          else if result.slibing ≠ .Null then findLeaf fuel result.slibing k
          else if result.level ≠ 1 then findLeaf fuel result.nextLevel k
          else ret result.nextLevel

/-- `insert`, where the cache had nothing or something stale. -/
def insertFromRoot (fuel k v : Nat) : Call Unit := do
  let root ← getRootPtr
  let p ← findLeaf fuel root k
  let _ ← leafPageStore cfg fuel p k v root false
  ret ()

def insert (fuel k v : Nat) : Call Unit := do
  let hit ← searchFromCache k
  match hit with
  | none => insertFromRoot cfg fuel k v
  | some cacheAddr => do
      let root ← getRootPtr
      let done ← leafPageStore cfg fuel cacheAddr k v root true
      if done then ret () else insertFromRoot cfg fuel k v

def delFromRoot (fuel k : Nat) : Call Unit := do
  let root ← getRootPtr
  let p ← findLeaf fuel root k
  let _ ← leafPageDel cfg fuel p k false
  ret ()

def del (fuel k : Nat) : Call Unit := do
  let hit ← searchFromCache k
  match hit with
  | none => delFromRoot cfg fuel k
  | some cacheAddr => do
      let done ← leafPageDel cfg fuel cacheAddr k true
      if done then ret () else delFromRoot cfg fuel k

/-! ### Each of them is disciplined -/

theorem growRoot_disciplined (root pageAddr : GlobalAddress) :
    (growRoot root pageAddr).Disciplined none none := by
  unfold growRoot
  split
  · exact .question _
  · exact .ret false

theorem internalPageStore_disciplined : ∀ fuel pageAddr k v root level,
    (internalPageStore cfg fuel pageAddr k v root level).Disciplined none none := by
  intro fuel
  induction fuel with
  | zero => exact fun _ _ _ _ _ => .stop
  | succ fuel ih =>
      intro pageAddr k v root level
      refine .bind (.lock _) fun _ => .bind (.question _) fun page => ?_
      split
      · exact .stop
      · exact .stop
      · exact .stop
      · exact .stop
      · refine .bind (.unlock _) fun _ => ?_
        split
        · exact .stop
        · exact ih _ _ _ _ _
      · exact .unlock _
      · refine .bind (.question _) fun siblingAddr => .bind (.unlock _) fun _ =>
          .bind (growRoot_disciplined _ _) fun grown => ?_
        split
        · exact .ret ()
        · refine .bind (.question _) fun upLevel => ?_
          split
          · exact ih _ _ _ _ _
          · exact .stop

theorem findParent_disciplined : ∀ fuel p k level,
    (findParent fuel p k level).Disciplined none none := by
  intro fuel
  induction fuel with
  | zero => exact fun _ _ _ => .stop
  | succ fuel ih =>
      intro p k level
      refine .bind (.question _) fun result => ?_
      cases result with
      | none => exact .bind (.question _) fun root => ih _ _ _
      | some result =>
          simp only
          split
          · exact .stop
          · split
            · exact ih _ _ _
            · split
              · exact ih _ _ _
              · exact .ret _

theorem insertInternal_disciplined (fuel k : Nat) (v : GlobalAddress) (level : Nat) :
    (insertInternal cfg fuel k v level).Disciplined none none :=
  .bind (.question _) fun root => .bind (findParent_disciplined fuel root k level) fun p =>
    internalPageStore_disciplined cfg fuel p k v root level

theorem leafPageStore_disciplined : ∀ fuel pageAddr k v root fromCache,
    (leafPageStore cfg fuel pageAddr k v root fromCache).Disciplined none none := by
  intro fuel
  induction fuel with
  | zero => exact fun _ _ _ _ _ => .stop
  | succ fuel ih =>
      intro pageAddr k v root fromCache
      refine .bind (.lock _) fun _ => .bind (.question _) fun page => ?_
      split
      · refine .bind (.question _) fun page => ?_
        split
        · exact .bind (.unlock _) fun _ => .ret true
        · exact .stop
      · exact .stop
      · exact .stop
      · exact .stop
      · exact .bind (.unlock _) fun _ => .ret false
      · refine .bind (.unlock _) fun _ => ?_
        split
        · exact .stop
        · exact .bind (ih _ _ _ _ _) fun _ => .ret true
      · exact .bind (.unlock _) fun _ => .ret true
      · refine .bind (.question _) fun siblingAddr => .bind (.unlock _) fun _ =>
          .bind (growRoot_disciplined _ _) fun grown => ?_
        split
        · exact .ret true
        · refine .bind (.question _) fun upLevel => ?_
          split
          · exact .bind (internalPageStore_disciplined cfg _ _ _ _ _ _) fun _ => .ret true
          · split
            · exact .bind (insertInternal_disciplined cfg _ _ _ _) fun _ => .ret true
            · exact .stop

theorem leafPageDel_disciplined : ∀ fuel pageAddr k fromCache,
    (leafPageDel cfg fuel pageAddr k fromCache).Disciplined none none := by
  intro fuel
  induction fuel with
  | zero => exact fun _ _ _ => .stop
  | succ fuel ih =>
      intro pageAddr k fromCache
      refine .bind (.lock _) fun _ => .bind (.question _) fun page => ?_
      split
      · exact .stop
      · exact .stop
      · exact .stop
      · exact .bind (.unlock _) fun _ => .ret false
      · refine .bind (.unlock _) fun _ => ?_
        split
        · exact .stop
        · exact .bind (ih _ _ _) fun _ => .ret true
      · exact .bind (.unlock _) fun _ => .ret true
      · exact .bind (.unlock _) fun _ => .ret true

theorem findLeaf_disciplined : ∀ fuel p k, (findLeaf fuel p k).Disciplined none none := by
  intro fuel
  induction fuel with
  | zero => exact fun _ _ => .stop
  | succ fuel ih =>
      intro p k
      refine .bind (.question _) fun result => ?_
      cases result with
      | none => exact .bind (.question _) fun root => ih _ _
      | some result =>
          simp only
          split
          · exact .ret p
          · split
            · exact .stop
            · split
              · exact ih _ _
              · split
                · exact ih _ _
                · exact .ret _

theorem insertFromRoot_disciplined (fuel k v : Nat) :
    (insertFromRoot cfg fuel k v).Disciplined none none :=
  .bind (.question _) fun root => .bind (findLeaf_disciplined fuel root k) fun _ =>
    .bind (leafPageStore_disciplined cfg fuel _ k v root false) fun _ => .ret ()

theorem insert_disciplined (fuel k v : Nat) : (insert cfg fuel k v).Disciplined none none := by
  refine .bind (.question _) fun hit => ?_
  cases hit with
  | none => exact insertFromRoot_disciplined cfg fuel k v
  | some cacheAddr =>
      refine .bind (.question _) fun root =>
        .bind (leafPageStore_disciplined cfg fuel cacheAddr k v root true) fun done => ?_
      split
      · exact .ret ()
      · exact insertFromRoot_disciplined cfg fuel k v

theorem delFromRoot_disciplined (fuel k : Nat) :
    (delFromRoot cfg fuel k).Disciplined none none :=
  .bind (.question _) fun root => .bind (findLeaf_disciplined fuel root k) fun _ =>
    .bind (leafPageDel_disciplined cfg fuel _ k false) fun _ => .ret ()

theorem del_disciplined (fuel k : Nat) : (del cfg fuel k).Disciplined none none := by
  refine .bind (.question _) fun hit => ?_
  cases hit with
  | none => exact delFromRoot_disciplined cfg fuel k
  | some cacheAddr =>
      refine .bind (leafPageDel_disciplined cfg fuel cacheAddr k true) fun done => ?_
      split
      · exact .ret ()
      · exact delFromRoot_disciplined cfg fuel k

/-! ### Every call -/

inductive Entry
  | insert (k v : Nat)
  | del (k : Nat)
  | insertInternal (k : Nat) (v : GlobalAddress) (level : Nat)

/-- The call, with this much fuel. -/
def Entry.run (fuel : Nat) : Entry → Call Unit
  | .insert k v => Discipline.insert cfg fuel k v
  | .del k => Discipline.del cfg fuel k
  | .insertInternal k v level => Discipline.insertInternal cfg fuel k v level

/--
**Every call takes and gives back one lock after another.**

Whatever it reads, what is seen of its locks is `acquire l, release l` for one lock after
another; while the call goes on there may be one more `acquire l`, and when it has returned
there is not.
-/
theorem lock_discipline (fuel : Nat) (entry : Entry) {ops : List (LockOp LockAddr)}
    {r : Option Unit} (h : (entry.run cfg fuel).Trace ops r) :
    (∃ ls, ops = Program.pairs ls) ∨
      r = none ∧ ∃ ls l, ops = Program.pairs ls ++ [.acquire l] := by
  have hd : (entry.run cfg fuel).Disciplined none none := by
    cases entry with
    | insert k v => exact insert_disciplined cfg fuel k v
    | del k => exact del_disciplined cfg fuel k
    | insertInternal k v level => exact insertInternal_disciplined cfg fuel k v level
  exact (hd.alternates h).imp_right fun h => ⟨Option.not_isSome_iff_eq_none.mp h.1, h.2⟩

/-- A leaf with room for no more than one key. -/
def crowdedLeaf : LeafPage where
  frontVersion := 0
  hdr := { Header.new 0 with lowest := 28, highest := 900 }
  records := ((List.range 53).map fun i => LeafEntry.new.write (i + 28) 7) ++ [.new]
  rearVersion := 0
  size := by decide

/-- The answers of a tree of two levels, with the cache off.  The leaf the root leads to was split
at 28; its sibling, of which the root does not know, and the root itself are about to be. -/
def crowdedTree : (q : Question) → Answer q
  | .rootPtr => (⟨0, 24⟩ : GlobalAddress)
  | .cache _ => (none : Option GlobalAddress)
  | .pageSearch .. => some (⟨false, 1, .Null, ⟨0, 8⟩, kValueNull⟩ : SearchResult)
  | .page p =>
      if p = ⟨0, 8⟩ then
        Page.leaf { LeafPage.new 0 with
          hdr := { Header.new 0 with siblingPtr := ⟨0, 16⟩, highest := 28 } }
      else if p = ⟨0, 16⟩ then Page.leaf crowdedLeaf
      else Page.internal { frontVersion := 0
                           hdr := { Header.new 1 with leftmostPtr := ⟨0, 8⟩ }
                           records := (List.range 60).map fun i => ⟨900 + i, ⟨1, 8 * i⟩⟩
                           rearVersion := 0 }
  | .alloc => (⟨0, 32⟩ : GlobalAddress)
  | .updateNewRoot => true
  | .pathStack _ => (⟨0, 24⟩ : GlobalAddress)

/-- An insert that goes right, splits the sibling, and then the root, takes three locks. -/
theorem lock_discipline_insert : ∃ ops,
    ((Entry.insert 100 7).run sample 3).Trace ops (some ()) ∧ ops.length = 6 ∧
    ∃ ls, ops = Program.pairs ls := by
  have htrace := Program.trace_exec crowdedTree ((Entry.insert 100 7).run sample 3)
  have hrun : ((Entry.insert 100 7).run sample 3).exec crowdedTree =
      ([.acquire ⟨0, 8⟩, .release ⟨0, 8⟩, .acquire ⟨0, 0⟩, .release ⟨0, 0⟩, .acquire ⟨0, 8⟩,
        .release ⟨0, 8⟩], some ()) := by
    decide +kernel
  rw [hrun] at htrace
  refine ⟨_, htrace, rfl, ?_⟩
  rcases lock_discipline sample 3 (.insert 100 7) htrace with hpairs | ⟨hr, -⟩
  · exact hpairs
  · cases hr

end Dal.Tree.Discipline
