/-
`Tree::ln` under `run_coroutine`.

`acquire_local_lock` sets `ln`, which there is one of for each thread, to the
`LocalLockNode` of the lock; `lock_and_read_page`, `unlock_addr` and
`write_page_and_unlock` then go through `ln`.  They find `can_hand_over` and the lock
itself by the lock's address again.  Coroutines of one thread switch where the local
lock is spun for, and at every RDMA operation that is given the `CoroContext`.

The three functions are scripts here, in the builds with `HANDOVER`.  What they read
from the page buffer and the result of a fetch-and-add on the memory node are inputs.
A job is a `lock_and_read_page`, any number of switches, and one of the two releases;
what `search` and `insert` do apart from that holds no lock and does not touch `ln`.
-/
import Dal.Lib.Coroutine
import Dal.Lock.Local

namespace Dal.HandoverRecord

/-- The definitions the three functions are compiled with, `HANDOVER` apart. -/
structure Build where
  /-- `LITL`; `SHERMAN_LOCK` otherwise. -/
  litl : Bool
  handoverData : Bool
  randFaa : Bool
  randFaad : Bool
  batchedWriteback : Bool
  maxHandover : Nat

/-- The fields of a `LocalLockNode` that are used through `ln`. -/
structure Record where
  pageBuffer : Nat
  pageAddr : GlobalAddress
  level : Nat
  wb : Nat
  written : Bool
  safe : Bool
  uaHod : Bool
  deriving DecidableEq, Repr

/-- A `LocalLockNode`. -/
structure Node where
  lock : LocalLockNode
  /-- `litl_lock` is taken. -/
  litlLock : Bool
  record : Record

def Node.init : Node := ⟨.init, false, ⟨0, .Null, 0, 0, false, false, false⟩⟩

/-- `local_locks[lock_addr.nodeID][lock_addr.offset / 8]`. -/
abbrev LocalLocks := LockAddr → Node

inductive Op
  /-- `ticket_lock.fetch_add(1)`. -/
  | fetchTicket (lockAddr : LockAddr)
  /-- `ln = &local_locks[..][..]`. -/
  | setLn (lockAddr : LockAddr)
  /-- `hot_wait_queue.push(coro_id)` and the switch to the master. -/
  | hotWait
  /-- The load of `ticket_lock` in the spin loop; it goes round again if it is not this ticket's
  turn. -/
  | awaitTicket (lockAddr : LockAddr) (ticket : Nat)
  | mutexLock (lockAddr : LockAddr)
  | mutexUnlock (lockAddr : LockAddr)
  /-- `ticket_lock.fetch_add(-1)`. -/
  | dropTicket (lockAddr : LockAddr)
  /-- `hand_time++`. -/
  | countHolder (lockAddr : LockAddr)
  /-- `return node.hand_over`. -/
  | handOver (lockAddr : LockAddr)
  | canHandOver (lockAddr : LockAddr)
  /-- `ticket_lock.fetch_add(1ull << 32)`. -/
  | serveNext (lockAddr : LockAddr)
  /-- Reading through `ln`, in a function that was called for this lock. -/
  | readLn (lockAddr : LockAddr)
  /-- Writing through `ln`. -/
  | writeLn (lockAddr : LockAddr) (change : Record → Record)
  /-- An RDMA operation with the `CoroContext`. -/
  | rdma
  /-- Something read from a buffer. -/
  | input
  /-- A failed assertion. -/
  | abort

def Op.Answer : Op → Type
  | .fetchTicket _ | .input => Nat
  | .handOver _ | .canHandOver _ => Bool
  | .readLn _ => Record
  | _ => Unit

/-- Which operations are about `ln`. -/
def Op.role : Op → Role LockAddr
  | .setLn lockAddr => .set lockAddr
  | .readLn lockAddr | .writeLn lockAddr _ => .use lockAddr
  | _ => .other

def Op.yields : Op → Bool
  | .hotWait | .rdma => true
  | _ => false

abbrev Code := Script Op Op.Answer

def fetchTicket (lockAddr : LockAddr) : Code Nat := .op (Op.fetchTicket lockAddr)
def setLn (lockAddr : LockAddr) : Code Unit := .op (Op.setLn lockAddr)
def hotWait : Code Unit := .op Op.hotWait
def awaitTicket (lockAddr : LockAddr) (ticket : Nat) : Code Unit :=
  .op (Op.awaitTicket lockAddr ticket)
def mutexLock (lockAddr : LockAddr) : Code Unit := .op (Op.mutexLock lockAddr)
def mutexUnlock (lockAddr : LockAddr) : Code Unit := .op (Op.mutexUnlock lockAddr)
def dropTicket (lockAddr : LockAddr) : Code Unit := .op (Op.dropTicket lockAddr)
def countHolder (lockAddr : LockAddr) : Code Unit := .op (Op.countHolder lockAddr)
def handOver (lockAddr : LockAddr) : Code Bool := .op (Op.handOver lockAddr)
def canHandOver (lockAddr : LockAddr) : Code Bool := .op (Op.canHandOver lockAddr)
def serveNext (lockAddr : LockAddr) : Code Unit := .op (Op.serveNext lockAddr)
def readLn (lockAddr : LockAddr) : Code Record := .op (Op.readLn lockAddr)
def writeLn (lockAddr : LockAddr) (change : Record → Record) : Code Unit :=
  .op (Op.writeLn lockAddr change)
def rdma : Code Unit := .op Op.rdma
def input : Code Nat := .op Op.input
def abort : Code Unit := .op Op.abort

/-! ### The functions -/

variable (build : Build)

/-- The wait in `acquire_local_lock`. -/
def awaitTurn (lockAddr : LockAddr) (lockVal : Nat) : Code Unit :=
  if build.litl then do
    mutexLock lockAddr
    dropTicket lockAddr
  else .when (ticketOf lockVal ≠ currentOf lockVal) do
    hotWait
    awaitTicket lockAddr (ticketOf lockVal)

/-- `Tree::acquire_local_lock`. -/
def acquireLocalLock (lockAddr : LockAddr) : Code Bool := do
  let lockVal ← fetchTicket lockAddr
  setLn lockAddr
  awaitTurn build lockAddr lockVal
  countHolder lockAddr
  handOver lockAddr

/-- `Tree::releases_local_lock`. -/
def releasesLocalLock (lockAddr : LockAddr) : Code Unit :=
  if build.litl then mutexUnlock lockAddr else serveNext lockAddr

/-- `Tree::try_lock_addr`; the loop on the memory node's lock does not switch. -/
def tryLockAddr (lockAddr : LockAddr) (buffer : Nat) : Code Bool := do
  let handedOver ← acquireLocalLock build lockAddr
  if handedOver then pure true
  else if build.randFaa then do
    let lockMeta ← input
    if lockMeta = 0 then pure false
    else if build.randFaad then do
      writeLn lockAddr fun ln => { ln with pageBuffer := buffer }
      pure true
    else pure false
  else pure false

/-- `Tree::lock_and_read_page`; it returns whether the page was handed over. -/
def lockAndReadPage (lockAddr : LockAddr) (pageAddr : GlobalAddress) (level buffer : Nat) :
    Code Bool := do
  let handover ← tryLockAddr build lockAddr buffer
  if build.handoverData = false then do
    rdma
    pure false
  else if handover then do
    let ln ← readLn lockAddr
    let headerLevel ← input
    if ln.pageAddr = pageAddr ∧ ln.level = level ∧ headerLevel = level ∧ ln.safe then do
      let consistent ← input
      if consistent = 0 then do
        abort
        pure true
      else do
        writeLn lockAddr fun ln => { ln with written := false, uaHod := false }
        pure true
    else do
      .when (ln.wb > 0) do
        writeLn lockAddr fun ln => { ln with uaHod := false }
        -- `write_sync` of the page is not given the context
        writeLn lockAddr fun ln => { ln with wb := 0, written := true }
      writeLn lockAddr fun ln => { ln with safe := false }
      rdma
      pure false
  else do
    rdma
    pure false

/-- The write back of a page that was handed over, where the lock goes back to the memory node. -/
def writeBack (lockAddr : LockAddr) : Code Unit := do
  let ln ← readLn lockAddr
  .when (ln.wb > 0) (writeLn lockAddr fun ln => { ln with written := true })
  writeLn lockAddr fun ln => { ln with wb := 0, safe := false }

/-- `Tree::unlock_addr`. -/
def unlockAddr (lockAddr : LockAddr) (async : Bool) (pageBuf : Nat) (pageAddr : GlobalAddress)
    (level : Nat) (staleCache : Bool) : Code Unit := do
  let handOverOther ← canHandOver lockAddr
  if handOverOther then do
    .when build.handoverData (writeLn lockAddr fun ln => { ln with safe := !staleCache })
    writeLn lockAddr fun ln =>
      { ln with pageBuffer := pageBuf, pageAddr := pageAddr, level := level, written := false,
                uaHod := true }
    releasesLocalLock build lockAddr
  else do
    .when build.handoverData (writeBack lockAddr)
    -- with `RAND_FAA` the lock is given up without the context
    .when (build.randFaa = false ∧ async = false) rdma
    releasesLocalLock build lockAddr

/-- The writes of the page and of the lock in `write_page_and_unlock`. -/
def writeOut (async : Bool) : Code Unit :=
  if build.batchedWriteback then .when (async = false) rdma
  else do
    rdma
    rdma

/-- `Tree::write_page_and_unlock`. -/
def writePageAndUnlock (lockAddr : LockAddr) (async : Bool) (level origPbuf : Nat)
    (origPaddr : GlobalAddress) : Code Unit := do
  writeLn lockAddr fun ln =>
    { ln with pageBuffer := origPbuf, pageAddr := origPaddr, level := level, safe := !async,
              wb := ln.wb + 1 }
  let handOverOther ← canHandOver lockAddr
  if handOverOther then do
    .when (build.handoverData = false) rdma
    releasesLocalLock build lockAddr
  else if build.randFaa then do
    rdma
    writeLn lockAddr fun ln => { ln with wb := 0, safe := false }
    releasesLocalLock build lockAddr
  else do
    writeOut build async
    .when build.handoverData
      (writeLn lockAddr fun ln => { ln with safe := false, wb := 0, written := true })
    releasesLocalLock build lockAddr

/-- How a page function ends its critical section. -/
inductive Finish
  | unlock (async : Bool) (pageBuf : Nat) (pageAddr : GlobalAddress) (level : Nat)
      (staleCache : Bool)
  | write (async : Bool) (level origPbuf : Nat) (origPaddr : GlobalAddress)

/-- The critical section of a page function. -/
structure Job where
  lockAddr : LockAddr
  pageAddr : GlobalAddress
  level : Nat
  buffer : Nat
  /-- RDMA operations between the read of the page and the release. -/
  switches : Nat
  finish : Finish

def Job.code (job : Job) : Code Unit := do
  let _ ← lockAndReadPage build job.lockAddr job.pageAddr job.level job.buffer
  Script.times job.switches rdma
  match job.finish with
  | .unlock async pageBuf pageAddr level staleCache =>
      unlockAddr build job.lockAddr async pageBuf pageAddr level staleCache
  | .write async level origPbuf origPaddr =>
      writePageAndUnlock build job.lockAddr async level origPbuf origPaddr

/-! ### What the operations do -/

/-- Change the node of one lock. -/
def LocalLocks.change (locks : LocalLocks) (lockAddr : LockAddr) (f : Node → Node) :
    LocalLocks := Function.update locks lockAddr (f (locks lockAddr))

/-- Change the lock of one node. -/
def LocalLocks.changeLock (locks : LocalLocks) (lockAddr : LockAddr)
    (f : LocalLockNode → LocalLockNode) : LocalLocks :=
  locks.change lockAddr fun node => { node with lock := f node.lock }

/-- `Tree::can_hand_over`. -/
def Build.canHandOver (lock : LocalLockNode) : LocalLockNode :=
  if build.litl then
    let handOver := decide (lock.ticketLock > 0 ∧ lock.handTime < build.maxHandover)
    { lock with handOver := handOver, handTime := if handOver then lock.handTime else 0 }
  else lock.canHandOver build.maxHandover

/-- Each operation on the local locks, with `ln` and the input. -/
def exec (locks : LocalLocks) (ln : Option LockAddr) :
    (op : Op) → Nat → Option (LocalLocks × Option op.Answer)
  | .fetchTicket a, _ =>
      some (locks.changeLock a (·.fetchAdd 1), some (locks a).lock.ticketLock)
  | .setLn _, _ | .hotWait, _ | .rdma, _ => some (locks, some ())
  | .awaitTicket a ticket, _ =>
      if ticket = currentOf (locks a).lock.ticketLock then some (locks, some ())
      else some (locks, none)
  | .mutexLock a, _ =>
      if (locks a).litlLock then none
      else some (locks.change a fun node => { node with litlLock := true }, some ())
  | .mutexUnlock a, _ =>
      some (locks.change a fun node => { node with litlLock := false }, some ())
  | .dropTicket a, _ => some (locks.changeLock a (·.fetchAdd (2 ^ 64 - 1)), some ())
  | .countHolder a, _ => some (locks.changeLock a (·.countHolder), some ())
  | .handOver a, _ => some (locks, some (locks a).lock.handOver)
  | .canHandOver a, _ =>
      let locks := locks.changeLock a build.canHandOver
      some (locks, some (locks a).lock.handOver)
  | .serveNext a, _ => some (locks.changeLock a (·.fetchAdd (2 ^ 32)), some ())
  | .readLn _, _ => ln.map fun a => (locks, some (locks a).record)
  | .writeLn _ f, _ =>
      ln.map fun a => (locks.change a fun node => { node with record := f node.record }, some ())
  | .input, x => some (locks, some x)
  | .abort, _ => none

/-- The coroutines of one thread. -/
def coroutines : Coroutines Op Op.Answer LockAddr LocalLocks Nat Job where
  role := Op.role
  yields := Op.yields
  exec := exec build
  body := Job.code build

/-! ### Each function is proper -/

section Proper

open Script

variable {held : Option LockAddr} (lockAddr : LockAddr)

theorem readLn_proper : (readLn lockAddr).Proper Op.role (some lockAddr) (some lockAddr) :=
  .use rfl

theorem writeLn_proper (change : Record → Record) :
    (writeLn lockAddr change).Proper Op.role (some lockAddr) (some lockAddr) := .use rfl

theorem rdma_proper : rdma.Proper Op.role held held := .other rfl

theorem releasesLocalLock_proper :
    (releasesLocalLock build lockAddr).Proper Op.role held held :=
  .ite (.other rfl) (.other rfl)

theorem awaitTurn_proper (lockVal : Nat) :
    (awaitTurn build lockAddr lockVal).Proper Op.role held held := by
  refine .ite ?_ (.when ?_)
  · exact .bind (.other rfl) fun _ => .other rfl
  · exact .bind (.other rfl) fun _ => .other rfl

theorem acquireLocalLock_proper :
    (acquireLocalLock build lockAddr).Proper Op.role (some lockAddr) held := by
  refine .bind (.other rfl) fun lockVal => .bind (.set rfl) fun _ => ?_
  refine .bind (awaitTurn_proper build lockAddr lockVal) fun _ => ?_
  exact .bind (.other rfl) fun _ => .other rfl

theorem tryLockAddr_proper (buffer : Nat) :
    (tryLockAddr build lockAddr buffer).Proper Op.role (some lockAddr) held := by
  refine .bind (acquireLocalLock_proper build lockAddr) fun handedOver => ?_
  refine .ite (.pure _) (.ite ?_ (.pure _))
  refine .bind (.other rfl) fun lockMeta => .ite (.pure _) (.ite ?_ (.pure _))
  exact .bind (writeLn_proper lockAddr _) fun _ => .pure _

theorem lockAndReadPage_proper (pageAddr : GlobalAddress) (level buffer : Nat) :
    (lockAndReadPage build lockAddr pageAddr level buffer).Proper Op.role (some lockAddr)
      held := by
  have hread : (rdma >>= fun _ => pure false : Code Bool).Proper Op.role (some lockAddr)
      (some lockAddr) := .bind rdma_proper fun _ => .pure _
  refine .bind (tryLockAddr_proper build lockAddr buffer) fun handover => ?_
  refine .ite hread (.ite ?_ hread)
  refine .bind (readLn_proper lockAddr) fun ln => .bind (.other rfl) fun headerLevel => ?_
  refine .ite ?_ ?_
  · refine .bind (.other rfl) fun consistent => .ite ?_ ?_
    · exact .bind (.other rfl) fun _ => .pure _
    · exact .bind (writeLn_proper lockAddr _) fun _ => .pure _
  · refine .bind (.when ?_) fun _ => .bind (writeLn_proper lockAddr _) fun _ => hread
    exact .bind (writeLn_proper lockAddr _) fun _ => writeLn_proper lockAddr _

theorem writeBack_proper :
    (writeBack lockAddr).Proper Op.role (some lockAddr) (some lockAddr) := by
  refine .bind (readLn_proper lockAddr) fun ln => ?_
  exact .bind (.when (writeLn_proper lockAddr _)) fun _ => writeLn_proper lockAddr _

theorem unlockAddr_proper (async : Bool) (pageBuf : Nat) (pageAddr : GlobalAddress)
    (level : Nat) (staleCache : Bool) :
    (unlockAddr build lockAddr async pageBuf pageAddr level staleCache).Proper Op.role
      (some lockAddr) (some lockAddr) := by
  refine .bind (.other rfl) fun handOverOther => .ite ?_ ?_
  · refine .bind (.when (writeLn_proper lockAddr _)) fun _ => ?_
    exact .bind (writeLn_proper lockAddr _) fun _ => releasesLocalLock_proper build lockAddr
  · refine .bind (.when (writeBack_proper lockAddr)) fun _ => ?_
    exact .bind (.when rdma_proper) fun _ => releasesLocalLock_proper build lockAddr

theorem writeOut_proper (async : Bool) :
    (writeOut build async).Proper Op.role held held :=
  .ite (.when rdma_proper) (.bind rdma_proper fun _ => rdma_proper)

theorem writePageAndUnlock_proper (async : Bool) (level origPbuf : Nat)
    (origPaddr : GlobalAddress) :
    (writePageAndUnlock build lockAddr async level origPbuf origPaddr).Proper Op.role
      (some lockAddr) (some lockAddr) := by
  refine .bind (writeLn_proper lockAddr _) fun _ => .bind (.other rfl) fun handOverOther => ?_
  refine .ite ?_ (.ite ?_ ?_)
  · exact .bind (.when rdma_proper) fun _ => releasesLocalLock_proper build lockAddr
  · refine .bind rdma_proper fun _ => .bind (writeLn_proper lockAddr _) fun _ => ?_
    exact releasesLocalLock_proper build lockAddr
  · refine .bind (writeOut_proper build async) fun _ => ?_
    refine .bind (.when (writeLn_proper lockAddr _)) fun _ => ?_
    exact releasesLocalLock_proper build lockAddr

theorem code_proper (job : Job) :
    (job.code build).Proper Op.role (some job.lockAddr) none := by
  refine .bind (lockAndReadPage_proper build job.lockAddr _ _ _) fun _ =>
    .bind (.times rdma_proper _) fun _ => ?_
  cases job.finish with
  | unlock async pageBuf pageAddr level staleCache => exact unlockAddr_proper build _ _ _ _ _ _
  | write async level origPbuf origPaddr => exact writePageAndUnlock_proper build _ _ _ _ _

end Proper

/-- In every run in which `acquire_local_lock` sets `ln` only while each other coroutine that
has still to go through `ln` does so for the same lock, whoever goes through `ln` finds the
`LocalLockNode` of the lock it was called for. -/
theorem record_isolated {Coro : Type} [DecidableEq Coro]
    {s : Coroutines.State Op Op.Answer LockAddr LocalLocks Coro}
    (h : ((coroutines build).machine fun _ => Node.init).ReachableBy (coroutines build).Calm s) :
    (coroutines build).Isolated s :=
  Coroutines.isolated_of_calm _ (fun job => ⟨some job.lockAddr, code_proper build job⟩) h

/-- `SHERMAN_LOCK` and `HANDOVER`. -/
def shermanHo : Build := ⟨false, false, false, false, false, 16⟩

/-- A store into page `i`, under lock `i`. -/
def storeJob (i : Nat) : Job :=
  ⟨⟨0, i⟩, ⟨0, 1024 * i⟩, 0, i, 0, .write false 0 i ⟨0, 1024 * i⟩⟩

/-- A coroutine locks and is switched away from at the read of its page. -/
def lockAndSwitch (c : Fin 2) (i : Nat) : List (Coroutines.Action LocalLocks Nat Job (Fin 2)) :=
  [.resume c, .start (storeJob i), .run 0, .run 0, .run 0, .run 0, .run 0]

/-- Coroutine 1 locks while coroutine 0 reads, and coroutine 0 is back to write its page. -/
def twoStores : List (Coroutines.Action LocalLocks Nat Job (Fin 2)) :=
  lockAndSwitch 0 1 ++ lockAndSwitch 1 2 ++ [.resume 0]

/-- Then coroutine 0 leaves its page in the `LocalLockNode` of the other lock. -/
theorem record_overwritten : ¬ ∀ (build : Build)
    (s : Coroutines.State Op Op.Answer LockAddr LocalLocks (Fin 2)),
    ((coroutines build).machine fun _ => Node.init).Reachable s →
      (coroutines build).Isolated s := by
  intro hall
  have hrun := System.path_of_exec (M := (coroutines shermanHo).machine fun _ => Node.init)
    (s := ⟨fun _ => .init, none, fun _ => .ret (), none⟩) twoStores rfl
  have hreg := hall shermanHo _ ⟨_, rfl, hrun⟩ 0 _ _ ⟨0, 1⟩ rfl rfl rfl
  cases hreg

theorem calm_of_idle {build : Build} {act : Coroutines.Action LocalLocks Nat Job (Fin 2)}
    {s : Coroutines.State Op Op.Answer LockAddr LocalLocks (Fin 2)}
    (hcurrent : s.current = some 0) (hidle : s.script 1 = .ret ()) :
    (coroutines build).Calm s act := by
  cases act with
  | run input =>
      intro c e rest r hc _ _ c' hne r' hp
      have hc0 : c = 0 := by
        rw [hcurrent] at hc
        exact (Option.some.inj hc).symm
      have hc1 : c' = 1 := by omega
      rw [hc1, hidle] at hp
      cases hp
  | _ => trivial

/-- Coroutine 0 locks and is about to write through `ln`, and coroutine 1 does nothing. -/
theorem record_isolated_alone :
    ∃ s : Coroutines.State Op Op.Answer LockAddr LocalLocks (Fin 2),
      ((coroutines shermanHo).machine fun _ => Node.init).ReachableBy
        (coroutines shermanHo).Calm s ∧
      s.reg = some ⟨0, 1⟩ ∧ (coroutines shermanHo).Isolated s := by
  have h : ((coroutines shermanHo).machine fun _ => Node.init).ReachableBy
      (coroutines shermanHo).Calm
      (⟨fun _ => .init, none, fun _ => .ret (), none⟩ :
        Coroutines.State Op Op.Answer LockAddr LocalLocks (Fin 2)) := ⟨_, rfl, .refl⟩
  have hstart := (h.tail (.resume 0) trivial rfl).tail (.start (storeJob 1)) trivial rfl
  have hset := (hstart.tail (.run 0) (calm_of_idle rfl rfl) rfl).tail (.run 0)
    (calm_of_idle rfl rfl) rfl
  have hheld := (hset.tail (.run 0) (calm_of_idle rfl rfl) rfl).tail (.run 0)
    (calm_of_idle rfl rfl) rfl
  have hread := (hheld.tail (.run 0) (calm_of_idle rfl rfl) rfl).tail (.resume 0) trivial rfl
  exact ⟨_, hread, rfl, record_isolated shermanHo hread⟩

end Dal.HandoverRecord
