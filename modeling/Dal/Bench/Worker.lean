/-
The benchmark that checks the locks: `mlocks_worker` of `src/microbench/microbench.cpp`,
which locks a page, adds one to each of its words and lets the lock go, by `mb_lock` and
`mb_unlock` of `src/Sherman/src/Tree.cpp`.

The lock is the one of `Dal.Handover`: the state of that machine is a part of the state
here, and its steps are taken by the steps here.  A build without `HANDOVER` never asks
`can_hand_over`, which is the same as a `maxHandover` of zero.  Memory is bytes, because
nothing in the benchmark keeps the pages aligned; what the workers count and what
`check_MN_correctness` adds up are words.

A page is read in one step, and written in one step.  `get_bufs` draws from a copy of the
thread's `RdmaBuffer`, so a thread has one page buffer, and a page that is handed over
stays in that of the releaser until the receiver copies it.  Counters are not bounded;
words are.
-/
import Dal.Lib.Bytes
import Dal.Lock.Handover
import Mathlib.Algebra.BigOperators.Group.Finset.Basic

namespace Dal.Bench

open Handover (Thread)
open Bytes

/-- `page_size`. -/
def pageSize : Nat := 1024

/-- `data_len`: the words of a page. -/
def dataLen : Nat := pageSize / 8

/-- The command line, the build and the threads that run `mlocks_worker`. -/
structure Config where
  mnNR : Nat
  /-- The locks of one memory node. -/
  lockNR : Nat
  /-- Gigabytes of one memory node. -/
  dsmSize : Nat
  maxHandover : Nat
  handover : Bool
  handoverData : Bool
  batched : Bool
  workers : Finset Thread

namespace Config

variable (cfg : Config)

/-- `GB(dsmSize) / rlock->getLockNR()`. -/
def chunkSize : Nat := cfg.dsmSize * 2 ^ 30 / cfg.lockNR

/-- The lock a worker computes from the index it draws. -/
def lockAddr (lockIdx : Nat) : LockAddr := ⟨lockIdx / cfg.lockNR, lockIdx / cfg.mnNR⟩

/-- The page of a lock: `baseAddr.offset = chunk_size * lock_idx`. -/
def baseAddr (l : LockAddr) : GlobalAddress := ⟨l.nodeID, cfg.chunkSize * l.index⟩

/-- What `can_hand_over` compares with. -/
def limit : Nat := if cfg.handover then cfg.maxHandover else 0

/-- A lock the workers can draw. -/
def Valid (l : LockAddr) : Prop := l.nodeID < cfg.mnNR ∧ l.index < cfg.lockNR

end Config

/-- `page_buffer` and `page_addr` of a `LocalLockNode`, the buffer named by its thread. -/
structure Record where
  pageBuffer : Option Thread
  pageAddr : GlobalAddress

/-- Where a worker is between two acquisitions. -/
inductive Phase
  /-- Not in the critical section. -/
  | out
  /-- `try_lock_addr` has returned, the page is not in the buffer yet. -/
  | entered
  | loaded
  /-- The words were counted up. -/
  | changed
  /-- `can_hand_over` was asked. -/
  | unlocking
  /-- The page is written, or posted, or a write is not called for. -/
  | written
  deriving DecidableEq, Repr

structure State where
  lock : Handover.State
  /-- The bytes of each memory node. -/
  mem : Nat → Nat → Nat
  /-- The words at `curr_page_buffer` of each thread. -/
  buf : Thread → Nat → Nat
  record : Nat → LockAddr → Record
  phase : Thread → Phase
  /-- The page write that was posted in front of the write of 0, by whom. -/
  batch : LockAddr → Option Thread
  /-- `lock_acqs`, over all nodes. -/
  lockAcqs : LockAddr → Nat
  /-- `task->inc`. -/
  inc : Thread → Nat

/-- Zeroed memory and free locks. -/
def State.init : State where
  lock := .init
  mem := fun _ _ => 0
  buf := fun _ _ => 0
  record := fun _ _ => ⟨none, .Null⟩
  phase := fun _ => .out
  batch := fun _ => none
  lockAcqs := fun _ => 0
  inc := fun _ => 0

def State.setPhase (s : State) (t : Thread) (ph : Phase) : State :=
  { s with phase := Function.update s.phase t ph }

/-- The words of the page at `a`. -/
def readPage (mem : Nat → Nat → Nat) (a : GlobalAddress) (k : Nat) : Nat :=
  word fun j => mem a.nodeID (a.offset + 8 * k + j)

/-- A page of words written at `a`. -/
def writePage (mem : Nat → Nat → Nat) (a : GlobalAddress) (words : Nat → Nat) :
    Nat → Nat → Nat := fun n x =>
  if n = a.nodeID ∧ a.offset ≤ x ∧ x < a.offset + pageSize then
    byte (words ((x - a.offset) / 8)) ((x - a.offset) % 8)
  else mem n x

def State.writePage (s : State) (a : GlobalAddress) (words : Nat → Nat) : State :=
  { s with mem := Bench.writePage s.mem a words }

inductive Action
  /-- A worker draws a lock. -/
  | acquire (t : Thread) (lockIdx : Nat)
  /-- The worker's next step. -/
  | run (t : Thread)
  /-- The page write of a batch is executed. -/
  | landPage (l : LockAddr)
  /-- The write of 0 is executed. -/
  | land (l : LockAddr)

/-! ### The steps of a worker -/

/-- One step of the lock. -/
def lockStep (cfg : Config) (s : State) (t : Thread) (ph : Phase) : Option State :=
  (Handover.runThread cfg.limit s.lock t true).map fun lock => { s.setPhase t ph with lock := lock }

/-- The phase after a step of `try_lock_addr`. -/
def entering : Handover.Pc → Phase
  | .holding .. => .entered
  | _ => .out

/-- What `mb_lock` leaves in `curr_page_buffer`. -/
def mbLock (cfg : Config) (s : State) (t : Thread) (l : LockAddr) (handover : Bool) : Nat → Nat :=
  let ln := s.record t.node l
  match cfg.handoverData && handover && decide (ln.pageAddr = cfg.baseAddr l), ln.pageBuffer with
  | true, some u => s.buf u
  | _, _ => readPage s.mem (cfg.baseAddr l)

/-- The loop over `long_data`. -/
def countUp (words : Nat → Nat) (k : Nat) : Nat :=
  if k < dataLen then (words k + 1) % 2 ^ 64 else words k

/-- The critical section of `mlocks_worker`. -/
def work (s : State) (t : Thread) (l : LockAddr) : State :=
  { s.setPhase t .changed with
    buf := Function.update s.buf t (countUp (s.buf t))
    lockAcqs := Function.update s.lockAcqs l (s.lockAcqs l + 1)
    inc := Function.update s.inc t (s.inc t + dataLen) }

/-- `write_page_and_unlock` up to the answer of `can_hand_over`. -/
def leaveRecord (cfg : Config) (s : State) (t : Thread) (l : LockAddr) : State :=
  if cfg.handover then
    { s with record := fun n l' =>
        if n = t.node ∧ l' = l then ⟨some t, cfg.baseAddr l⟩ else s.record n l' }
  else s

/-- The next step of a worker that has drawn a lock. -/
def runWorker (cfg : Config) (s : State) (t : Thread) : Option State :=
  match s.phase t, s.lock.pc t with
  | .out, .spin .. | .out, .cas .. =>
      (Handover.runThread cfg.limit s.lock t true).map fun lock =>
        { s.setPhase t (entering (lock.pc t)) with lock := lock }
  | .entered, .holding l _ handover =>
      some { s.setPhase t .loaded with
        buf := Function.update s.buf t (mbLock cfg s t l handover) }
  | .loaded, .holding l _ _ => some (work s t l)
  | .changed, .holding l _ _ => lockStep cfg (leaveRecord cfg s t l) t .unlocking
  | .unlocking, .handing l _ =>
      if cfg.handoverData then lockStep cfg s t .out
      else some ((s.writePage (cfg.baseAddr l) (s.buf t)).setPhase t .written)
  | .unlocking, .releasing l _ =>
      if cfg.batched then
        lockStep cfg { s with batch := Function.update s.batch l (some t) } t .written
      else some ((s.writePage (cfg.baseAddr l) (s.buf t)).setPhase t .written)
  | .written, .handing .. => lockStep cfg s t .out
  | .written, .releasing .. => lockStep cfg s t .written
  | .written, .posted .. => lockStep cfg s t .out
  | _, _ => none

def step (cfg : Config) (s : State) : Action → Option State
  | .acquire t lockIdx =>
      if t ∈ cfg.workers ∧ lockIdx < cfg.lockNR * cfg.mnNR ∧ s.phase t = .out then
        (Handover.step cfg.limit s.lock (.acquire t (cfg.lockAddr lockIdx))).map fun lock =>
          { s with lock := lock }
      else none
  | .run t => runWorker cfg s t
  | .landPage l =>
      match s.batch l with
      | some t =>
          some { s.writePage (cfg.baseAddr l) (s.buf t) with batch := Function.update s.batch l none }
      | none => none
  | .land l =>
      if s.batch l = none then
        (Handover.step cfg.limit s.lock (.land l)).map fun lock => { s with lock := lock }
      else none

/-- Any number of workers, any interleaving. -/
def machine (cfg : Config) : System State Action where
  Init := (· = State.init)
  step := step cfg

/-! ### What the benchmark checks -/

/-- The page in the buffer of `t` was handed over with lock `l` and not copied yet. -/
def Pending (s : State) (t : Thread) (l : LockAddr) : Prop :=
  (s.lock.locals t.node l).handOver = true ∧ (s.record t.node l).pageBuffer = some t ∧
    ∀ u, u.node = t.node → (s.lock.pc u).critical = some l → s.phase u = .entered

/-- A worker does not read a page into a buffer with a page handed over that was not copied. -/
def Copied (cfg : Config) (s : State) : Action → Prop
  | .run t => cfg.handoverData = true → s.phase t = .entered →
      ∀ l, (s.lock.pc t).critical ≠ some l → ¬ Pending s t l
  | _ => True

/-- The page buffers hold different words, and pages do not overlap. -/
structure Config.Apart (cfg : Config) : Prop where
  aligned : 8 ∣ cfg.chunkSize
  disjoint : pageSize ≤ cfg.chunkSize

/-- Fewer than `2 ^ 32` acquisitions of each local lock. -/
def Few (s : State) : Prop := ∀ n l, s.lock.acquisitions n l < 2 ^ 32

/-- `datasum` of one memory node, which `check_CN_correctness` adds up. -/
def datasum (cfg : Config) (s : State) (n : Nat) : Nat :=
  ∑ i ∈ Finset.range (cfg.dsmSize * 2 ^ 30 / 8), word fun j => s.mem n (8 * i + j)

/-- Every word of a page is the number of acquisitions of its lock, and the sums agree, as
numbers of 64 bits. -/
structure Conserved (cfg : Config) (s : State) : Prop where
  words : ∀ l, cfg.Valid l → ∀ k < dataLen,
    readPage s.mem (cfg.baseAddr l) k = s.lockAcqs l % 2 ^ 64
  sums : (∑ n ∈ Finset.range cfg.mnNR, datasum cfg s n) % 2 ^ 64 =
    (∑ t ∈ cfg.workers, s.inc t) % 2 ^ 64

end Dal.Bench
