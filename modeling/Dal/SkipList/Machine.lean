/-
The skip list below the index cache: `third_party/inlineskiplist.h`, one access to shared
memory at a time.

`InsertConcurrently`, which is `Insert<true>` with a splice of its own, and `Seek` and `Next`
of an iterator are all that the cache uses, any number of threads at once.  A new splice has
height 0, so `Insert` recomputes all of it: the branches that look for what is left of an
older splice are for `Insert` and `InsertWithHint`, which nobody calls.

A node is known by the key and the height it was allocated with, neither of which ever
changes, and by a number that tells allocations apart.  Where a node is expected, `none` is
`head_` in front and `nullptr` behind.  The key of a node is in the order that the comparator
gives.
-/
import Dal.Lib.Chain
import Dal.Lib.Transition
import Mathlib.Logic.Function.Basic

namespace Dal.SkipList

/-- `kMaxPossibleHeight`. -/
def kMaxPossibleHeight : Nat := 32

structure Node (K : Type) where
  id : Nat
  key : K
  height : Nat
  deriving DecidableEq, Repr

/-- The assertions of the code that is modelled. -/
inductive Assertion
  /-- `height >= 1 && height <= kMaxHeight_`. -/
  | height
  /-- `max_height <= kMaxPossibleHeight`. -/
  | possibleHeight
  /-- `recompute_level > 0`. -/
  | recomputeLevel
  /-- Make sure the lists are sorted. -/
  | unsorted
  /-- Make sure we haven't overshot during our search. -/
  | overshot
  /-- The key is before `next_[i]`, or after `prev_[i]`. -/
  | nextBracket
  | prevBracket
  /-- What is asserted of the splice after the insertion. -/
  | splice
  deriving DecidableEq, Repr

/-- The variables of `Insert`: the new node and the splice. -/
structure Insertion (K : Type) where
  x : Node K
  /-- `splice->height_`. -/
  height : Nat
  prev : Nat → Option (Node K)
  next : Nat → Option (Node K)
  /-- `splice_is_valid`. -/
  valid : Bool

/-- Where a thread is. -/
inductive Pc (K : Type)
  | idle (result : Option (SetRet (Node K)))
  /-- `Insert`, before `max_height_` is read. -/
  | height (x : Node K)
  /-- Before `compare_exchange_weak(max_height, height)`. -/
  | raise (x : Node K) (maxHeight : Nat)
  /-- In `FindSpliceForLevel<true>`, before `before->Next(level)`. -/
  | recompute (w : Insertion K) (level : Nat) (before after : Option (Node K))
  /-- At the top of the loop for level `i`. -/
  | link (w : Insertion K) (i : Nat)
  /-- Before `prev_[i]->CASNext(i, next_[i], x)`. -/
  | cas (w : Insertion K) (i : Nat)
  /-- In `FindSpliceForLevel<false>`, after the compare-and-swap has failed. -/
  | refind (w : Insertion K) (i : Nat) (before : Option (Node K))
  /-- `FindGreaterOrEqual`, before `max_height_` is read. -/
  | top (k : K)
  /-- Before `x->Next(level)`. -/
  | seek (k : K) (x : Option (Node K)) (level : Nat) (lastBigger : Option (Node K))
  /-- `Iterator::Next`. -/
  | after (x : Node K)
  | failed (why : Assertion)

structure State (K Thread : Type) where
  /-- `Next(level)` of `head_` or of a node. -/
  next : Nat → Option (Node K) → Option (Node K)
  /-- `max_height_`. -/
  maxHeight : Nat
  /-- How many nodes were allocated. -/
  allocated : Nat
  /-- `node_` of the thread's iterator. -/
  node : Thread → Option (Node K)
  pc : Thread → Pc K

/-- A new list. -/
def State.init (K Thread : Type) : State K Thread where
  next := fun _ _ => none
  maxHeight := 1
  allocated := 0
  node := fun _ => none
  pc := fun _ => .idle none

inductive Action (K Thread : Type)
  /-- `AllocateKey`, which draws a height, and `InsertConcurrently`. -/
  | insert (t : Thread) (k : K) (height : Nat)
  | seek (t : Thread) (k : K)
  /-- `Next` of a valid iterator. -/
  | after (t : Thread)
  /-- The thread's next step; a weak compare-and-swap may fail for no reason. -/
  | run (t : Thread) (spurious : Bool)

variable {K Thread : Type} [LinearOrder K] [DecidableEq Thread]

section State

variable (s : State K Thread) (t : Thread)

def State.goto (pc : Pc K) : State K Thread := { s with pc := Function.update s.pc t pc }

/-- `SetNext(level, n)`. -/
def State.setNext (level : Nat) (l : Option (Node K)) (n : Option (Node K)) : State K Thread :=
  { s with next := Function.update s.next level (Function.update (s.next level) l n) }

/-- An iterator is positioned. -/
def State.found (n : Option (Node K)) : State K Thread :=
  { s with node := Function.update s.node t n }.goto t (.idle (some (.found n)))

end State

/-- `KeyIsAfterNode`. -/
def keyIsAfterNode (k : K) : Option (Node K) → Bool
  | none => false
  | some n => decide (n.key < k)

/-- `before == head_ || next == nullptr || KeyIsAfterNode(next->Key(), before)`. -/
def inOrder : Option (Node K) → Option (Node K) → Bool
  | some x, some n => decide (x.key < n.key)
  | _, _ => true

/-- `before == head_ || KeyIsAfterNode(key, before)`. -/
def isBefore (k : K) : Option (Node K) → Bool
  | none => true
  | some x => decide (x.key < k)

/-- What one round of the loop of `FindSpliceForLevel` comes to. -/
inductive Round
  | failed (why : Assertion)
  | found
  | further

/-- One round, after `next` was read. -/
def findSpliceForLevel (k : K) (before next after : Option (Node K)) : Round :=
  if inOrder before next = false then .failed .unsorted
  else if isBefore k before = false then .failed .overshot
  else if next = after ∨ keyIsAfterNode k next = false then .found
  else .further

namespace Insertion

/-- `prev_[level]` and `next_[level]` are set. -/
def set (w : Insertion K) (level : Nat) (before next : Option (Node K)) : Insertion K :=
  { w with prev := Function.update w.prev level before, next := Function.update w.next level next }

/-- A splice on its way: `head_` and `nullptr` above all levels. -/
def start (x : Node K) (maxHeight : Nat) : Insertion K where
  x := x
  height := maxHeight
  prev := fun _ => none
  next := fun _ => none
  valid := true

/-- `prev_[i] = x` on the levels of `x`. -/
def linked (w : Insertion K) : Insertion K :=
  { w with prev := fun i => if i < w.x.height then some w.x else w.prev i }

/-- What is asserted on one level. -/
def levelOk (w : Insertion K) (i : Nat) : Bool :=
  (match w.next i with
    | none => true
    | some n => decide (w.x.key < n.key)) &&
  (match w.prev i with
    | none => true
    | some p => decide (p.key ≤ w.x.key)) &&
  (decide (w.prev (i + 1) = w.prev i) ||
    match w.prev (i + 1), w.prev i with
    | none, _ => true
    | some p, some q => decide (p.key < q.key)
    | some _, none => false) &&
  (decide (w.next (i + 1) = w.next i) ||
    match w.next (i + 1), w.next i with
    | none, _ => true
    | some n, some m => decide (m.key < n.key)
    | some _, none => false)

/-- What is asserted of a splice that is still valid. -/
def spliceOk (w : Insertion K) : Bool :=
  decide (w.prev w.height = none) && decide (w.next w.height = none) &&
    (List.range w.height).all w.levelOk

end Insertion

/-- `Insert` once it knows the height of the list. -/
def begin (x : Node K) (maxHeight : Nat) : Pc K :=
  if kMaxPossibleHeight < maxHeight then .failed .possibleHeight
  else if maxHeight = 0 then .failed .recomputeLevel
  else .recompute (Insertion.start x maxHeight) (maxHeight - 1) none none

/-- `while (height > max_height)`. -/
def checkHeight (x : Node K) (maxHeight : Nat) : Pc K :=
  if maxHeight < x.height then .raise x maxHeight else begin x maxHeight

/-- After a level of the splice was recomputed. -/
def nextLevel (w : Insertion K) (level : Nat) (before next : Option (Node K)) : Pc K :=
  match level with
  | 0 => .link w 0
  | level + 1 => .recompute w level before next

/-- The node is linked on all its levels. -/
def finish (w : Insertion K) : Pc K :=
  if w.valid ∧ w.linked.spliceOk = false then .failed .splice
  else .idle (some (.inserted true))

/-- After the node was linked on level `i`. -/
def linkedLevel (w : Insertion K) (i : Nat) : Pc K :=
  if i + 1 < w.x.height then .link w (i + 1) else finish w

/-- The checks before the node is linked on level `i`; `none` if the key is no duplicate. -/
def linkChecks (w : Insertion K) (i : Nat) : Option (Pc K) :=
  let nextAfter := match w.next i with
    | none => true
    | some n => decide (w.x.key < n.key)
  let prevBefore := isBefore w.x.key (w.prev i)
  if i = 0 ∧ nextAfter = false then some (.idle (some (.inserted false)))
  else if i = 0 ∧ prevBefore = false then some (.idle (some (.inserted false)))
  else if nextAfter = false then some (.failed .nextBracket)
  else if prevBefore = false then some (.failed .prevBracket)
  else none

/-- One round of the loop of `FindGreaterOrEqual`, after `next` was read. -/
def findGreaterOrEqual (s : State K Thread) (t : Thread) (k : K) (x : Option (Node K)) (level : Nat)
    (lastBigger next : Option (Node K)) : State K Thread :=
  if inOrder x next = false then s.goto t (.failed .unsorted)
  else if isBefore k x = false then s.goto t (.failed .overshot)
  else
    match next with
    | none =>
        match level with
        | 0 => s.found t none
        | level + 1 => s.goto t (.seek k x level none)
    | some n =>
        if some n ≠ lastBigger ∧ n.key < k then s.goto t (.seek k (some n) level lastBigger)
        else if some n ≠ lastBigger ∧ n.key = k then s.found t (some n)
        else
          match level with
          | 0 => s.found t (some n)
          | level + 1 => s.goto t (.seek k x level (some n))

/-- The next step of thread `t`. -/
def runThread (kMaxHeight : Nat) (s : State K Thread) (t : Thread) (spurious : Bool) :
    Option (State K Thread) :=
  match s.pc t with
  | .idle _ => none
  | .failed _ => none
  | .height x =>
      if 1 ≤ x.height ∧ x.height ≤ kMaxHeight then some (s.goto t (checkHeight x s.maxHeight))
      else some (s.goto t (.failed .height))
  | .raise x maxHeight =>
      if s.maxHeight = maxHeight ∧ spurious = false then
        some ({ s with maxHeight := x.height }.goto t (begin x x.height))
      else some (s.goto t (checkHeight x s.maxHeight))
  | .recompute w level before after =>
      let next := s.next level before
      match findSpliceForLevel w.x.key before next after with
      | .failed why => some (s.goto t (.failed why))
      | .found => some (s.goto t (nextLevel (w.set level before next) level before next))
      | .further => some (s.goto t (.recompute w level next after))
  | .link w i =>
      match linkChecks w i with
      | some pc => some (s.goto t pc)
      | none => some ((s.setNext i (some w.x) (w.next i)).goto t (.cas w i))
  | .cas w i =>
      if s.next i (w.prev i) = w.next i then
        some ((s.setNext i (w.prev i) (some w.x)).goto t (linkedLevel w i))
      else some (s.goto t (.refind w i (w.prev i)))
  | .refind w i before =>
      let next := s.next i before
      match findSpliceForLevel w.x.key before next none with
      | .failed why => some (s.goto t (.failed why))
      | .found =>
          some (s.goto t (.link { w.set i before next with valid := w.valid && decide (i = 0) } i))
      | .further => some (s.goto t (.refind w i next))
  | .top k => some (s.goto t (.seek k none (s.maxHeight - 1) none))
  | .seek k x level lastBigger =>
      some (findGreaterOrEqual s t k x level lastBigger (s.next level x))
  | .after x => some (s.found t (s.next 0 (some x)))

/-- A call is made of a thread that is not serving one. -/
def callThread (s : State K Thread) (t : Thread) (pc : Pc K) : Option (State K Thread) :=
  match s.pc t with
  | .idle _ => some (s.goto t pc)
  | _ => none

def step (kMaxHeight : Nat) (s : State K Thread) : Action K Thread → Option (State K Thread)
  | .insert t k height =>
      if 1 ≤ height ∧ height ≤ kMaxHeight then
        callThread { s with allocated := s.allocated + 1 } t (.height ⟨s.allocated, k, height⟩)
      else none
  | .seek t k => callThread s t (.top k)
  | .after t =>
      match s.node t with
      | some x => callThread s t (.after x)
      | none => none
  | .run t spurious => runThread kMaxHeight s t spurious

variable (K Thread) in
/-- Any number of threads at once. -/
def machine (kMaxHeight : Nat) : System (State K Thread) (Action K Thread) where
  Init s := s = .init K Thread
  step := step kMaxHeight

/-- What the callers see of a step. -/
def visible (s : State K Thread) (action : Action K Thread) (s' : State K Thread) :
    List (Event Thread (SetOp (Node K) K) (SetRet (Node K))) :=
  match action with
  | .insert t k height => [.call t (.insert ⟨s.allocated, k, height⟩)]
  | .seek t k => [.call t (.seek k)]
  | .after t =>
      match s.node t with
      | some x => [.call t (.after x)]
      | none => []
  | .run t _ =>
      match s'.pc t with
      | .idle (some r) => [.ret t r]
      | _ => []

end Dal.SkipList
