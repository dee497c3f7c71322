/-
The MCS lock, `mcs.c`, with the waiting policies of `waiting_policy.h`.

Each thread has one node of its own in each mutex.  It makes its node the tail with one
exchange, writes the node into the `next` of the old tail, and waits on its own `spin` until the
thread in front of it writes it.  A thread that unlocks and sees nobody behind it tries to set the
tail back to NULL; if that fails, somebody is on the way, and it waits for `next` to be written.

How a thread waits is the policy: it loops on `spin`, as a read or as a compare-and-swap, or
it asks the kernel to park it.  The kernel compares and parks in one step; it may let a thread go
for no reason or with EINTR; and the thread that wakes writes `spin` first and makes its own call
to the kernel after that, when the other may be long gone and back again in the same node.

One action is one access to shared memory or one call to the kernel; only the last read of
`me->next` goes with the write to that node, since nobody writes `me->next` any more.  `arrived` are
the threads in the order of their exchanges and `released` is how often the lock was let go; no
step reads them.
-/
import Dal.Lib.Transition
import Dal.Lib.WaitQueue

namespace Dal.Mcs

/-! ### The machine -/

/-- `WAITING_POLICY`. -/
inductive Policy
  | spinlock
  | spinlockAtomic
  | spinThenPark
  | park
  deriving DecidableEq, Repr

/-- `SPINNING_THRESHOLD`. -/
def SPINNING_THRESHOLD : Nat := 2700

/-- Where a thread is in `mcs_mutex_lock`, `mcs_mutex_trylock` and `mcs_mutex_unlock`. -/
inductive Pc (Thread : Type*)
  | idle
  /-- `me->next` is written, `me->spin` is next. -/
  | reset
  /-- `xchg_64(&impl->tail, me)` is next. -/
  | xchg
  /-- `tail->next = me` is next. -/
  | link (tail : Thread)
  /-- The first loop of `waiting_policy_sleep`, after `i` rounds. -/
  | spinning (i : Nat)
  /-- `if (*var == UNLOCKED)`, after the loop that spins before it parks. -/
  | check
  /-- `FUTEX_WAIT_PRIVATE` is next. -/
  | futex
  | parked
  /-- The last loop of `waiting_policy_sleep`. -/
  | woken
  /-- `mcs_mutex_lock` or `mcs_mutex_trylock` has returned 0. -/
  | holding
  /-- As `reset` and `xchg`, in `mcs_mutex_trylock`. -/
  | tryReset
  | tryCas
  /-- `me->next` was NULL: the compare-and-swap of `__mcs_mutex_unlock` is next. -/
  | cas
  /-- `while (!me->next)`. -/
  | waitNext
  /-- `waiting_policy_wake(&me->next->spin)`. -/
  | wake
  /-- `*var` is written, `FUTEX_WAKE_PRIVATE` is next. -/
  | futexWake (next : Thread)
  /-- An assertion failed, or NULL was followed. -/
  | failed
  deriving DecidableEq

/-- One mutex, with the nodes that the threads have in it. -/
structure State (Thread : Type*) where
  tail : Option Thread
  next : Thread → Option Thread
  /-- `spin` is UNLOCKED. -/
  spin : Thread → Bool
  pc : Thread → Pc Thread
  arrived : List Thread
  released : Nat

inductive Action (Thread : Type*)
  /-- An idle thread calls `mcs_mutex_lock`. -/
  | lock (t : Thread)
  /-- An idle thread calls `mcs_mutex_trylock`. -/
  | trylock (t : Thread)
  /-- The thread that has the lock calls `mcs_mutex_unlock`. -/
  | unlock (t : Thread)
  /-- The thread's next step. -/
  | run (t : Thread)
  /-- The kernel lets a parked thread go: with EINTR, or as if it had been woken. -/
  | letGo (t : Thread) (eintr : Bool)

/-- The first step of `waiting_policy_sleep`. -/
def Policy.sleep {Thread : Type*} : Policy → Pc Thread
  | .spinlock | .spinlockAtomic | .spinThenPark => .spinning 0
  | .park => .futex

/-- The policies that call the kernel. -/
def Policy.parks : Policy → Bool
  | .spinlock | .spinlockAtomic => false
  | .spinThenPark | .park => true

variable {Thread : Type*}

namespace State

variable (s : State Thread) {t x : Thread} {p : Pc Thread} {o : Option Thread} {b : Bool}

/-- As `mcs_mutex_create` leaves it; what is in the nodes does not matter. -/
def init (next : Thread → Option Thread) (spin : Thread → Bool) : State Thread :=
  ⟨none, next, spin, fun _ => .idle, [], 0⟩

/-- The threads in the queue, the one whose turn it is first. -/
def queue : List Thread := s.arrived.drop s.released

/-- The thread has made its node the tail. -/
def arrive (t : Thread) : State Thread := { s with tail := some t, arrived := s.arrived ++ [t] }

@[simp, grind =] theorem arrive_tail : (s.arrive t).tail = some t := rfl

@[simp, grind =] theorem arrive_next : (s.arrive t).next x = s.next x := rfl

@[simp, grind =] theorem arrive_spin : (s.arrive t).spin x = s.spin x := rfl

@[simp, grind =] theorem arrive_pc : (s.arrive t).pc x = s.pc x := rfl

@[simp, grind =] theorem arrive_arrived : (s.arrive t).arrived = s.arrived ++ [t] := rfl

@[simp, grind =] theorem arrive_released : (s.arrive t).released = s.released := rfl

/-- The lock is let go. -/
def release : State Thread := { s with released := s.released + 1 }

@[simp, grind =] theorem release_tail : s.release.tail = s.tail := rfl

@[simp, grind =] theorem release_next : s.release.next x = s.next x := rfl

@[simp, grind =] theorem release_spin : s.release.spin x = s.spin x := rfl

@[simp, grind =] theorem release_pc : s.release.pc x = s.pc x := rfl

@[simp, grind =] theorem release_arrived : s.release.arrived = s.arrived := rfl

@[simp, grind =] theorem release_released : s.release.released = s.released + 1 := rfl

/-- The tail is NULL again. -/
def clear : State Thread := { s with tail := none }

@[simp, grind =] theorem clear_tail : s.clear.tail = none := rfl

@[simp, grind =] theorem clear_next : s.clear.next x = s.next x := rfl

@[simp, grind =] theorem clear_spin : s.clear.spin x = s.spin x := rfl

@[simp, grind =] theorem clear_pc : s.clear.pc x = s.pc x := rfl

@[simp, grind =] theorem clear_arrived : s.clear.arrived = s.arrived := rfl

@[simp, grind =] theorem clear_released : s.clear.released = s.released := rfl

variable [DecidableEq Thread]

def goto (t : Thread) (p : Pc Thread) : State Thread := { s with pc := Function.update s.pc t p }

@[simp, grind =] theorem goto_pc :
    (s.goto t p).pc x = if x = t then p else s.pc x := Function.update_apply ..

@[simp, grind =] theorem goto_tail : (s.goto t p).tail = s.tail := rfl

@[simp, grind =] theorem goto_next : (s.goto t p).next x = s.next x := rfl

@[simp, grind =] theorem goto_spin : (s.goto t p).spin x = s.spin x := rfl

@[simp, grind =] theorem goto_arrived : (s.goto t p).arrived = s.arrived := rfl

@[simp, grind =] theorem goto_released : (s.goto t p).released = s.released := rfl

def setNext (t : Thread) (o : Option Thread) : State Thread :=
  { s with next := Function.update s.next t o }

@[simp, grind =] theorem setNext_next :
    (s.setNext t o).next x = if x = t then o else s.next x := Function.update_apply ..

@[simp, grind =] theorem setNext_tail : (s.setNext t o).tail = s.tail := rfl

@[simp, grind =] theorem setNext_spin : (s.setNext t o).spin x = s.spin x := rfl

@[simp, grind =] theorem setNext_pc : (s.setNext t o).pc x = s.pc x := rfl

@[simp, grind =] theorem setNext_arrived : (s.setNext t o).arrived = s.arrived := rfl

@[simp, grind =] theorem setNext_released : (s.setNext t o).released = s.released := rfl

def setSpin (t : Thread) (b : Bool) : State Thread :=
  { s with spin := Function.update s.spin t b }

@[simp, grind =] theorem setSpin_spin :
    (s.setSpin t b).spin x = if x = t then b else s.spin x := Function.update_apply ..

@[simp, grind =] theorem setSpin_tail : (s.setSpin t b).tail = s.tail := rfl

@[simp, grind =] theorem setSpin_next : (s.setSpin t b).next x = s.next x := rfl

@[simp, grind =] theorem setSpin_pc : (s.setSpin t b).pc x = s.pc x := rfl

@[simp, grind =] theorem setSpin_arrived : (s.setSpin t b).arrived = s.arrived := rfl

@[simp, grind =] theorem setSpin_released : (s.setSpin t b).released = s.released := rfl

end State

variable [DecidableEq Thread]

/-- One round of the first loop of `waiting_policy_sleep`. -/
def sleepOnce (policy : Policy) (s : State Thread) (t : Thread) (i : Nat) : State Thread :=
  match policy with
  | .spinlock => if s.spin t then s.goto t .holding else s
  | .spinlockAtomic => if s.spin t then (s.setSpin t false).goto t .holding else s
  | .spinThenPark | .park =>
      if i < SPINNING_THRESHOLD then
        if s.spin t then s.goto t .check else s.goto t (.spinning (i + 1))
      else s.goto t .check

/-- `waiting_policy_wake` up to the call to the kernel; the thread has let the lock go. -/
def wakeNext (policy : Policy) (s : State Thread) (t n : Thread) : State Thread :=
  match policy with
  | .spinlock => ((s.setSpin n true).goto t .idle).release
  | .spinlockAtomic =>
      if s.spin n then s.goto t .failed else ((s.setSpin n true).goto t .idle).release
  | .spinThenPark | .park => ((s.setSpin n true).goto t (.futexWake n)).release

/-- The next step of a thread that is in one of the three functions. -/
def runThread (policy : Policy) (s : State Thread) (t : Thread) : Option (State Thread) :=
  match s.pc t with
  | .idle | .holding | .parked | .failed => none
  | .reset => some ((s.setSpin t false).goto t .xchg)
  | .xchg =>
      match s.tail with
      | none => some ((s.arrive t).goto t .holding)
      | some tail => some ((s.arrive t).goto t (.link tail))
  | .link tail => some ((s.setNext tail (some t)).goto t policy.sleep)
  | .spinning i => some (sleepOnce policy s t i)
  | .check => some (s.goto t (if s.spin t then .holding else .futex))
  | .futex => some (s.goto t (if s.spin t then .woken else .parked))
  | .woken => some (if s.spin t then s.goto t .holding else s)
  | .tryReset => some ((s.setSpin t false).goto t .tryCas)
  | .tryCas =>
      match s.tail with
      | none => some ((s.arrive t).goto t .holding)
      | some _ => some (s.goto t .idle)
  | .cas =>
      if s.tail = some t then some (s.clear.goto t .idle).release
      else some (s.goto t .waitNext)
  | .waitNext => some (if s.next t = none then s else s.goto t .wake)
  | .wake =>
      match s.next t with
      | none => some (s.goto t .failed)
      | some n => some (wakeNext policy s t n)
  | .futexWake n =>
      some ((if s.pc n = .parked then s.goto n .woken else s).goto t .idle)

def step (policy : Policy) (s : State Thread) : Action Thread → Option (State Thread)
  | .lock t => if s.pc t = .idle then some ((s.setNext t none).goto t .reset) else none
  | .trylock t => if s.pc t = .idle then some ((s.setNext t none).goto t .tryReset) else none
  | .unlock t =>
      if s.pc t = .holding then
        some (s.goto t (if s.next t = none then .cas else .wake))
      else none
  | .run t => runThread policy s t
  | .letGo t eintr =>
      if s.pc t = .parked then some (s.goto t (if eintr then .futex else .woken)) else none

/-- Any number of threads, any interleaving. -/
def machine (policy : Policy) : System (State Thread) (Action Thread) where
  Init s := ∃ next spin, s = State.init next spin
  step := step policy

/-! ### What the program counters say -/

/-- The node is in the queue and the thread waits for its turn. -/
def Pc.waits : Pc Thread → Bool
  | .link _ | .spinning _ | .check | .futex | .parked | .woken => true
  | _ => false

/-- It is the thread's turn, and the thread knows. -/
def Pc.owns : Pc Thread → Bool
  | .holding | .cas | .waitNext | .wake => true
  | _ => false

/-- The thread has asked the kernel to park it, or is about to. -/
def Pc.asks : Pc Thread → Bool
  | .check | .futex | .parked | .woken => true
  | _ => false

/-- Nothing is asked of the node of a thread that gets here from its place in the queue. -/
def Pc.settled : Pc Thread → Bool
  | .reset | .xchg | .tryReset | .tryCas | .link _ | .failed => false
  | _ => true

/-- The thread has yet to write itself into the `next` of the one in front of it. -/
def Late (s : State Thread) (b p : Thread) : Prop := s.pc b = .link p

/-- What holds in every reachable state, for the queue `q`. -/
structure Inv (policy : Policy) (s : State Thread) (q : List Thread) : Prop where
  queue : s.queue = q
  counted : s.released ≤ s.arrived.length
  linked : WaitQueue s.next (Late s) s.tail q
  mem : ∀ t, t ∈ q ↔ (s.pc t).waits = true ∨ (s.pc t).owns = true
  turn : ∀ t, (s.pc t).owns = true → q.head? = some t
  /-- A waiting thread's `spin` says whether it is its turn. -/
  spin : ∀ t, (s.pc t).waits = true → (s.spin t = true ↔ q.head? = some t)
  /-- The node of a thread that is about to come is as the thread left it. -/
  fresh : ∀ t, s.pc t = .reset ∨ s.pc t = .xchg ∨ s.pc t = .tryReset ∨ s.pc t = .tryCas →
    s.next t = none
  locked : ∀ t, s.pc t = .xchg ∨ s.pc t = .tryCas → s.spin t = false
  behind : ∀ t, s.pc t = .waitNext → s.tail ≠ some t
  seen : ∀ t, s.pc t = .wake → s.next t ≠ none
  /-- Nobody is parked whose turn it is, unless the call that wakes it is on its way. -/
  parked : ∀ t, s.pc t = .parked → s.spin t = true → ∃ u, s.pc u = .futexWake t
  parks : ∀ t, (s.pc t).asks = true → policy.parks = true
  passed : ∀ t, s.pc t ≠ .failed

/-! ### One step keeps it -/

section Steps

variable {policy : Policy} {s s' : State Thread} {q : List Thread} {t n : Thread} {p : Pc Thread}

theorem late_goto (b x : Thread) :
    Late (s.goto t p) b x ↔ if b = t then p = .link x else Late s b x := by
  simp only [Late, State.goto, Function.update_apply]
  split <;> rfl

omit [DecidableEq Thread] in
theorem Inv.not_mem (h : Inv policy s q) (hw : (s.pc t).waits = false)
    (ho : (s.pc t).owns = false) : t ∉ q := by
  rw [h.mem, hw, ho]
  simp

/-- A thread that stays where it is in the queue. -/
theorem Inv.goto (h : Inv policy s q) (hw : p.waits = (s.pc t).waits)
    (ho : p.owns = (s.pc t).owns) (hsettled : p.settled = true)
    (hlink : ∀ x, s.pc t ≠ .link x) (hwaker : ∀ n, s.pc t = .futexWake n → s.pc n ≠ .parked)
    (hbehind : p = .waitNext → s.tail ≠ some t) (hseen : p = .wake → s.next t ≠ none)
    (hparked : p = .parked → s.spin t = false)
    (hparks : p.asks = true → policy.parks = true) : Inv policy (s.goto t p) q := by
  have hlink' : ∀ x, p ≠ .link x := fun x heq => by simp [heq, Pc.settled] at hsettled
  have hpc : ∀ u, (s.goto t p).pc u = if u = t then p else s.pc u := fun u => by simp
  constructor
  case queue => exact h.queue
  case counted => exact h.counted
  case linked =>
    refine h.linked.congr (fun _ _ => rfl) fun b _ x => ?_
    rw [late_goto]
    split
    · rename_i hbt
      subst hbt
      exact iff_of_false (hlink' x) (hlink x)
    · exact Iff.rfl
  case mem =>
    intro u
    have := h.mem u
    grind
  case turn =>
    intro u hu
    have := h.turn u
    grind
  case spin =>
    intro u hu
    have := h.spin u
    show s.spin u = true ↔ _
    grind
  case fresh =>
    intro u hu
    have := h.fresh u
    show s.next u = none
    grind [Pc.settled]
  case locked =>
    intro u hu
    have := h.locked u
    show s.spin u = false
    grind [Pc.settled]
  case behind =>
    intro u hu
    have := h.behind u
    show s.tail ≠ some u
    grind
  case seen =>
    intro u hu
    have := h.seen u
    show s.next u ≠ none
    grind
  case parked =>
    intro u hu hspin
    have := h.parked u
    change s.spin u = true at hspin
    grind
  case parks =>
    intro u hu
    have := h.parks u
    grind
  case passed =>
    intro u
    have := h.passed u
    grind [Pc.settled]

/-- A thread that is not in the queue writes its own node. -/
theorem Inv.own (h : Inv policy s q) (hw : (s.pc t).waits = false) (ho : (s.pc t).owns = false)
    (hwaker : ∀ n, s.pc t ≠ .futexWake n) {o : Option Thread} {b : Bool}
    (hnext : s'.next = Function.update s.next t o) (hspin : s'.spin = Function.update s.spin t b)
    (hpc : s'.pc = Function.update s.pc t p) (htail : s'.tail = s.tail)
    (hqueue : s'.arrived = s.arrived ∧ s'.released = s.released)
    (hw' : p.waits = false) (ho' : p.owns = false) (hasks : p.asks = false) (hpassed : p ≠ .failed)
    (hfresh : p = .reset ∨ p = .xchg ∨ p = .tryReset ∨ p = .tryCas → o = none)
    (hlocked : p = .xchg ∨ p = .tryCas → b = false) : Inv policy s' q := by
  have hnot := h.not_mem hw ho
  have hlate : ∀ b x, b ≠ t → (Late s' b x ↔ Late s b x) := fun b x hb => by
    rw [Late, hpc, Function.update_of_ne hb, Late]
  have hpc' : ∀ u, s'.pc u = if u = t then p else s.pc u := fun u => by
    rw [hpc, Function.update_apply]
  have hnext' : ∀ u, s'.next u = if u = t then o else s.next u := fun u => by
    rw [hnext, Function.update_apply]
  have hspin' : ∀ u, s'.spin u = if u = t then b else s.spin u := fun u => by
    rw [hspin, Function.update_apply]
  constructor
  case queue => rw [State.queue, hqueue.1, hqueue.2]; exact h.queue
  case counted => rw [hqueue.1, hqueue.2]; exact h.counted
  case linked =>
    rw [htail]
    refine h.linked.congr (fun u hu => ?_) fun u hu x => hlate u x (ne_of_mem_of_not_mem hu hnot)
    rw [hnext', if_neg (ne_of_mem_of_not_mem hu hnot)]
  case mem =>
    intro u
    have := h.mem u
    grind
  case turn =>
    intro u hu
    have := h.turn u
    grind
  case spin =>
    intro u hu
    have := h.spin u
    grind
  case fresh =>
    intro u hu
    have := h.fresh u
    grind
  case locked =>
    intro u hu
    have := h.locked u
    grind
  case behind =>
    intro u hu
    have := h.behind u
    grind [Pc.owns]
  case seen =>
    intro u hu
    have := h.seen u
    grind [Pc.owns]
  case parked =>
    intro u hu hu'
    have := h.parked u
    grind [Pc.asks]
  case parks =>
    intro u hu
    have := h.parks u
    grind
  case passed =>
    intro u
    have := h.passed u
    grind

/-- The exchange, or the compare-and-swap, finds nobody. -/
theorem Inv.arriveFirst (h : Inv policy s q) (hpc : s.pc t = .xchg ∨ s.pc t = .tryCas)
    (htail : s.tail = none) : Inv policy ((s.arrive t).goto t .holding) [t] := by
  obtain rfl : q = [] := (htail ▸ h.linked).eq_nil
  have hnext := h.fresh t (by grind)
  have hqueue := h.queue
  have hcounted := h.counted
  have hpc' : ∀ u, ((s.arrive t).goto t .holding).pc u = if u = t then .holding else s.pc u :=
    fun u => by simp
  constructor
  case queue =>
    show (s.arrived ++ [t]).drop s.released = [t]
    rw [List.drop_append_of_le_length hcounted]
    exact congrArg (· ++ [t]) hqueue
  case counted =>
    show s.released ≤ (s.arrived ++ [t]).length
    rw [List.length_append]
    omega
  case linked =>
    refine .singleton hnext fun x => ?_
    rw [late_goto, if_pos rfl]
    exact fun heq => by cases heq
  case mem =>
    intro u
    have := h.mem u
    grind [Pc.owns]
  case turn =>
    intro u hu
    have := h.turn u
    grind
  case spin =>
    intro u hu
    have := h.mem u
    grind [Pc.waits]
  case fresh =>
    intro u hu
    have := h.fresh u
    show s.next u = none
    grind
  case locked =>
    intro u hu
    have := h.locked u
    show s.spin u = false
    grind
  case behind =>
    intro u hu
    have := h.mem u
    grind [Pc.owns]
  case seen =>
    intro u hu
    have := h.mem u
    grind [Pc.owns]
  case parked =>
    intro u hu hu'
    have := h.mem u
    grind [Pc.waits]
  case parks =>
    intro u hu
    have := h.parks u
    grind [Pc.asks]
  case passed =>
    intro u
    have := h.passed u
    grind

/-- The exchange finds another node: the thread is behind it. -/
theorem Inv.arriveBehind (h : Inv policy s q) (hpc : s.pc t = .xchg) {x : Thread}
    (htail : s.tail = some x) : Inv policy ((s.arrive t).goto t (.link x)) (q ++ [t]) := by
  have hnot : t ∉ q := h.not_mem (by rw [hpc]; rfl) (by rw [hpc]; rfl)
  have hlinked : WaitQueue s.next (Late s) (some x) q := htail ▸ h.linked
  have hne : q ≠ [] := List.ne_nil_of_mem hlinked.tail_mem
  have hhead : (q ++ [t]).head? = q.head? := List.head?_append_of_ne_nil _ hne
  have hlocked := h.locked t (Or.inl hpc)
  have hpc' : ∀ u, ((s.arrive t).goto t (.link x)).pc u = if u = t then .link x else s.pc u :=
    fun u => by simp
  have hfirst : q.head? ≠ some t := fun heq => hnot (List.mem_of_mem_head? heq)
  constructor
  case queue =>
    show (s.arrived ++ [t]).drop s.released = q ++ [t]
    rw [List.drop_append_of_le_length h.counted]
    exact congrArg (· ++ [t]) h.queue
  case counted =>
    show s.released ≤ (s.arrived ++ [t]).length
    rw [List.length_append]
    exact Nat.le_add_right_of_le h.counted
  case linked =>
    refine hlinked.push hnot (h.fresh t (by grind)) (fun y => ?_) fun b hb y => ?_
    · rw [late_goto, if_pos rfl]
      exact ⟨fun heq => (by cases heq; rfl), fun heq => heq ▸ rfl⟩
    · rw [late_goto, if_neg (ne_of_mem_of_not_mem hb hnot)]
      rfl
  case mem =>
    intro u
    have := h.mem u
    rw [List.mem_append, List.mem_singleton, hpc']
    grind [Pc.waits]
  case turn =>
    intro u hu
    have := h.turn u
    grind [Pc.owns]
  case spin =>
    intro u hu
    have := h.spin u
    show s.spin u = true ↔ _
    grind
  case fresh =>
    intro u hu
    have := h.fresh u
    show s.next u = none
    grind
  case locked =>
    intro u hu
    have := h.locked u
    show s.spin u = false
    grind
  case behind =>
    intro u hu
    show some t ≠ some u
    grind
  case seen =>
    intro u hu
    have := h.seen u
    show s.next u ≠ none
    grind
  case parked =>
    intro u hu hu'
    have := h.parked u
    change s.spin u = true at hu'
    grind
  case parks =>
    intro u hu
    have := h.parks u
    grind [Pc.asks]
  case passed =>
    intro u
    have := h.passed u
    grind

omit [DecidableEq Thread] in
theorem sleep_waits (policy : Policy) : (policy.sleep : Pc Thread).waits = true ∧
    (policy.sleep : Pc Thread).owns = false ∧ (policy.sleep : Pc Thread) ≠ .parked ∧
    (policy.sleep : Pc Thread) ≠ .failed ∧ (∀ x : Thread, policy.sleep ≠ .link x) ∧
    ((policy.sleep : Pc Thread).asks = true → policy.parks = true) := by
  cases policy <;> simp [Policy.sleep, Pc.waits, Pc.owns, Pc.asks, Policy.parks]

/-- The thread writes itself into the `next` of the one in front of it. -/
theorem Inv.link (h : Inv policy s q) {x : Thread} (hpc : s.pc t = .link x) :
    Inv policy ((s.setNext x (some t)).goto t policy.sleep) q := by
  obtain ⟨hw, ho, hparked, hpassed, hlink, hasks⟩ := @sleep_waits Thread policy
  have hmem : t ∈ q := (h.mem t).mpr (Or.inl (by rw [hpc]; rfl))
  have honly : ∀ y, Late s t y → y = x := fun y hy => by
    rw [Late, hpc] at hy
    cases hy
    rfl
  have hx : x ∈ q := by
    obtain ⟨l₁, l₂, rfl⟩ := h.linked.late_behind hmem hpc honly
    simp
  have hpc' : ∀ u, ((s.setNext x (some t)).goto t policy.sleep).pc u =
      if u = t then policy.sleep else s.pc u := fun u => by simp
  have hnext : ∀ u, ((s.setNext x (some t)).goto t policy.sleep).next u =
      if u = x then some t else s.next u := fun u => by simp
  constructor
  case queue => exact h.queue
  case counted => exact h.counted
  case linked =>
    refine h.linked.link hmem hpc honly (fun y => ?_) fun c hc hct y => ?_
    · rw [Late, hpc', if_pos rfl]
      exact hlink y
    · rw [Late, hpc', if_neg hct, Late]
  case mem =>
    intro u
    have := h.mem u
    grind [Pc.waits]
  case turn =>
    intro u hu
    have := h.turn u
    grind
  case spin =>
    intro u hu
    have := h.spin u
    show s.spin u = true ↔ _
    grind [Pc.waits]
  case fresh =>
    intro u hu
    have := h.fresh u
    have := h.mem u
    grind [Pc.waits, Pc.owns]
  case locked =>
    intro u hu
    have := h.locked u
    show s.spin u = false
    grind [Pc.waits]
  case behind =>
    intro u hu
    have := h.behind u
    show s.tail ≠ some u
    grind [Pc.owns]
  case seen =>
    intro u hu
    have := h.seen u
    grind [Pc.owns]
  case parked =>
    intro u hu hu'
    have := h.parked u
    change s.spin u = true at hu'
    grind
  case parks =>
    intro u hu
    have := h.parks u
    grind
  case passed =>
    intro u
    have := h.passed u
    grind

/-- A waiting thread finds that it is its turn. -/
theorem Inv.enter (h : Inv policy s q) (hw : (s.pc t).waits = true) (hlink : ∀ x, s.pc t ≠ .link x)
    (hturn : s.spin t = true) (b : Bool) :
    Inv policy ((s.setSpin t b).goto t .holding) q := by
  have hhead := (h.spin t hw).mp hturn
  have howns : ∀ u, (s.pc u).owns = true → u = t := fun u hu =>
    Option.some.inj ((h.turn u hu).symm.trans hhead)
  have hpc' : ∀ u, ((s.setSpin t b).goto t .holding).pc u = if u = t then .holding else s.pc u :=
    fun u => by simp
  have hspin : ∀ u, ((s.setSpin t b).goto t .holding).spin u = if u = t then b else s.spin u :=
    fun u => by simp
  constructor
  case queue => exact h.queue
  case counted => exact h.counted
  case linked =>
    refine h.linked.congr (fun _ _ => rfl) fun c _ y => ?_
    rw [Late, hpc']
    split
    · rename_i hct
      subst hct
      exact iff_of_false (fun heq => by cases heq) (hlink y)
    · exact Iff.rfl
  case mem =>
    intro u
    have := h.mem u
    grind [Pc.owns]
  case turn =>
    intro u hu
    have := h.turn u
    grind
  case spin =>
    intro u hu
    have := h.spin u
    grind [Pc.waits]
  case fresh =>
    intro u hu
    have := h.fresh u
    show s.next u = none
    grind
  case locked =>
    intro u hu
    have := h.locked u
    grind
  case behind =>
    intro u hu
    have := h.behind u
    show s.tail ≠ some u
    grind
  case seen =>
    intro u hu
    have := h.seen u
    show s.next u ≠ none
    grind
  case parked =>
    intro u hu hu'
    have := h.parked u
    grind [Pc.waits]
  case parks =>
    intro u hu
    have := h.parks u
    grind [Pc.asks]
  case passed =>
    intro u
    have := h.passed u
    grind

omit [DecidableEq Thread] in
/-- It is the turn of one thread at a time. -/
theorem Inv.cons_of_owns (h : Inv policy s q) (ho : (s.pc t).owns = true) :
    ∃ q', q = t :: q' ∧ ∀ u, (s.pc u).owns = true → u = t := by
  have hhead := h.turn t ho
  obtain ⟨q', rfl⟩ : ∃ q', q = t :: q' := by
    cases q with
    | nil => cases hhead
    | cons c q' => exact ⟨q', by rw [Option.some.inj hhead]⟩
  exact ⟨q', rfl, fun u hu => (Option.some.inj (h.turn u hu)).symm⟩

/-- Nobody has come: the tail is NULL again. -/
theorem Inv.close (h : Inv policy s q) (hpc : s.pc t = .cas) (htail : s.tail = some t) :
    Inv policy (s.clear.goto t .idle).release [] := by
  obtain ⟨q', rfl, howns⟩ := h.cons_of_owns (t := t) (by rw [hpc]; rfl)
  obtain rfl : q' = [] := (htail ▸ h.linked).alone
  have hnone : ∀ u, u ≠ t → (s.pc u).waits = false ∧ (s.pc u).owns = false := fun u hu => by
    have := h.mem u
    grind
  have hpc' : ∀ u, (s.clear.goto t .idle).release.pc u =
      if u = t then .idle else s.pc u := fun u => by simp
  have hqueue : s.arrived.drop s.released = [t] := h.queue
  constructor
  case queue =>
    show s.arrived.drop (s.released + 1) = []
    rw [← List.drop_drop, hqueue]
    rfl
  case counted =>
    show s.released + 1 ≤ s.arrived.length
    have := congrArg List.length hqueue
    rw [List.length_drop, List.length_singleton] at this
    omega
  case linked => exact .nil
  case mem =>
    intro u
    have := hnone u
    grind [Pc.waits, Pc.owns]
  case turn =>
    intro u hu
    have := hnone u
    grind [Pc.owns]
  case spin =>
    intro u hu
    have := hnone u
    grind [Pc.waits]
  case fresh =>
    intro u hu
    have := h.fresh u
    show s.next u = none
    grind
  case locked =>
    intro u hu
    have := h.locked u
    show s.spin u = false
    grind
  case behind => exact fun u _ => Option.some_ne_none u ∘ Eq.symm
  case seen =>
    intro u hu
    have := h.seen u
    show s.next u ≠ none
    grind
  case parked =>
    intro u hu hu'
    have := hnone u
    grind [Pc.waits]
  case parks =>
    intro u hu
    have := h.parks u
    grind [Pc.asks]
  case passed =>
    intro u
    have := h.passed u
    grind

/-- `spin` of the next thread is written: it is that thread's turn. -/
theorem Inv.pass (h : Inv policy s q) (hpc : s.pc t = .wake) (hnext : s.next t = some n)
    (hp : p = .futexWake n ∨ p = .idle ∧ policy.parks = false) :
    s.spin n = false ∧ Inv policy ((s.setSpin n true).goto t p).release q.tail := by
  obtain ⟨q', rfl, howns⟩ := h.cons_of_owns (t := t) (by rw [hpc]; rfl)
  obtain ⟨q'', rfl, hlinked⟩ := h.linked.pop hnext
  have hnodup := h.linked.nodup
  have hnt : n ≠ t := fun heq => (List.nodup_cons.mp hnodup).1 (heq ▸ List.mem_cons_self ..)
  have htq : t ∉ n :: q'' := (List.nodup_cons.mp hnodup).1
  have hnowns : (s.pc n).owns = false := by
    have := howns n
    grind
  have hnw : (s.pc n).waits = true := by
    have := h.mem n
    grind
  have hothers : ∀ u, (s.pc u).waits = true → s.spin u = false := fun u hu => by
    have := h.spin u hu
    grind [Pc.waits]
  have hlate : ∀ y, ¬ Late s n y := hlinked.first n rfl
  have hpc' : ∀ u, ((s.setSpin n true).goto t p).release.pc u = if u = t then p else s.pc u :=
    fun u => by simp
  have hspin : ∀ u, ((s.setSpin n true).goto t p).release.spin u =
      if u = n then true else s.spin u := fun u => by simp
  have hp' : p.waits = false ∧ p.owns = false ∧ p.asks = false := by
    rcases hp with rfl | ⟨rfl, -⟩ <;> exact ⟨rfl, rfl, rfl⟩
  have hqueue : s.arrived.drop s.released = t :: n :: q'' := h.queue
  refine ⟨hothers n hnw, ?_⟩
  constructor
  case queue =>
    show s.arrived.drop (s.released + 1) = n :: q''
    rw [← List.drop_drop, hqueue]
    rfl
  case counted =>
    show s.released + 1 ≤ s.arrived.length
    have := congrArg List.length hqueue
    rw [List.length_drop, List.length_cons] at this
    omega
  case linked =>
    refine hlinked.congr (fun _ _ => rfl) fun b hb y => ?_
    rw [Late, hpc', if_neg (ne_of_mem_of_not_mem hb htq), Late]
  case mem =>
    intro u
    have := h.mem u
    show u ∈ n :: q'' ↔ _
    grind
  case turn =>
    intro u hu
    have := howns u
    grind
  case spin =>
    intro u hu
    have := hothers u
    have : (n :: q'').head? = some n := rfl
    show _ ↔ (n :: q'').head? = some u
    grind
  case fresh =>
    intro u hu
    have := h.fresh u
    show s.next u = none
    grind
  case locked =>
    intro u hu
    have := h.locked u
    grind [Pc.waits]
  case behind =>
    intro u hu
    have := h.behind u
    show s.tail ≠ some u
    grind
  case seen =>
    intro u hu
    have := h.seen u
    show s.next u ≠ none
    grind
  case parked =>
    intro u hu hu'
    have := h.parked u
    have hparks := h.parks u
    rw [hpc'] at hu
    rw [hspin] at hu'
    have hut : u ≠ t := by
      rintro rfl
      grind [Pc.asks]
    rw [if_neg hut] at hu
    have hun : u = n := by
      have := hothers u (by rw [hu]; rfl)
      grind
    subst hun
    refine ⟨t, ?_⟩
    rw [hpc', if_pos rfl]
    rcases hp with rfl | ⟨rfl, hno⟩
    · rfl
    · exact absurd ((hparks (by rw [hu]; rfl)).symm.trans hno) Bool.false_ne_true.symm
  case parks =>
    intro u hu
    have := h.parks u
    grind
  case passed =>
    intro u
    have := h.passed u
    grind

theorem Inv.enterSelf (h : Inv policy s q) (hw : (s.pc t).waits = true)
    (hlink : ∀ x, s.pc t ≠ .link x) (hturn : s.spin t = true) :
    Inv policy (s.goto t .holding) q := by
  have hself : s.setSpin t (s.spin t) = s := by
    simp only [State.setSpin, Function.update_eq_self]
  exact hself ▸ h.enter hw hlink hturn (s.spin t)

/-- One round of the first loop of `waiting_policy_sleep`. -/
theorem Inv.sleepOnce (h : Inv policy s q) {i : Nat} (hpc : s.pc t = .spinning i) :
    Inv policy (sleepOnce policy s t i) q := by
  have hw : (s.pc t).waits = true := by rw [hpc]; rfl
  have hlink : ∀ x, s.pc t ≠ .link x := fun x => by simp [hpc]
  have hstay : ∀ p : Pc Thread, (p = .check ∧ policy.parks = true ∨ ∃ j, p = .spinning j) →
      Inv policy (s.goto t p) q := by
    rintro p (⟨rfl, hparks⟩ | ⟨j, rfl⟩)
    · exact h.goto (by rw [hpc]; rfl) (by rw [hpc]; rfl) rfl hlink (by simp [hpc]) (by simp)
        (by simp) (by simp) fun _ => hparks
    · exact h.goto (by rw [hpc]; rfl) (by rw [hpc]; rfl) rfl hlink (by simp [hpc]) (by simp)
        (by simp) (by simp) (by simp [Pc.asks])
  cases policy with
  | spinlock =>
      show Inv _ (if s.spin t then s.goto t .holding else s) q
      split
      · rename_i hturn
        exact h.enterSelf hw hlink hturn
      · exact h
  | spinlockAtomic =>
      show Inv _ (if s.spin t then (s.setSpin t false).goto t .holding else s) q
      split
      · rename_i hturn
        exact h.enter hw hlink hturn false
      · exact h
  | spinThenPark =>
      simp only [Mcs.sleepOnce]
      split
      · split
        · exact hstay _ (Or.inl ⟨rfl, rfl⟩)
        · exact hstay _ (Or.inr ⟨_, rfl⟩)
      · exact hstay _ (Or.inl ⟨rfl, rfl⟩)
  | park =>
      simp only [Mcs.sleepOnce]
      split
      · split
        · exact hstay _ (Or.inl ⟨rfl, rfl⟩)
        · exact hstay _ (Or.inr ⟨_, rfl⟩)
      · exact hstay _ (Or.inl ⟨rfl, rfl⟩)

/-- `waiting_policy_wake`; the assertion in it holds. -/
theorem Inv.wakeNext (h : Inv policy s q) (hpc : s.pc t = .wake) (hnext : s.next t = some n) :
    Inv policy (wakeNext policy s t n) q.tail := by
  have hpass : ∀ p, (p = .futexWake n ∨ p = .idle ∧ policy.parks = false) →
      s.spin n = false ∧ Inv policy ((s.setSpin n true).goto t p).release q.tail :=
    fun p hp => h.pass hpc hnext hp
  cases policy with
  | spinlock => exact (hpass .idle (Or.inr ⟨rfl, rfl⟩)).2
  | spinlockAtomic =>
      obtain ⟨hlocked, hinv⟩ := hpass .idle (Or.inr ⟨rfl, rfl⟩)
      simp only [Mcs.wakeNext, hlocked, Bool.false_eq_true, if_false]
      exact hinv
  | spinThenPark => exact (hpass (.futexWake n) (Or.inl rfl)).2
  | park => exact (hpass (.futexWake n) (Or.inl rfl)).2

/-- The call that wakes finds the thread parked, or comes too late. -/
theorem Inv.futexWake (h : Inv policy s q) (hpc : s.pc t = .futexWake n) :
    Inv policy ((if s.pc n = .parked then s.goto n .woken else s).goto t .idle) q := by
  have hdone : ∀ s' : State Thread, Inv policy s' q → s'.pc t = .futexWake n →
      s'.pc n ≠ .parked → Inv policy (s'.goto t .idle) q := by
    intro s' h' hpc' hn
    refine h'.goto (by rw [hpc']; rfl) (by rw [hpc']; rfl) rfl (by simp [hpc']) (fun m hm => ?_)
      (by simp) (by simp) (by simp) (by simp [Pc.asks])
    rw [hpc'] at hm
    cases hm
    exact hn
  split
  · rename_i hparked
    have hnt : t ≠ n := by
      rintro rfl
      simp [hpc] at hparked
    refine hdone _ (h.goto (by rw [hparked]; rfl) (by rw [hparked]; rfl) rfl (by simp [hparked])
      (by simp [hparked]) (by simp) (by simp) (by simp)
      fun _ => h.parks n (by rw [hparked]; rfl)) ?_ ?_
    · simp only [State.goto, Function.update_of_ne hnt, hpc]
    · simp [State.goto]
  · rename_i hparked
    exact hdone s h hpc hparked

/-- `q'` is what a step makes of the queue `q`. -/
theorem Inv.run (h : Inv policy s q) (hstep : runThread policy s t = some s') :
    ∃ q', Inv policy s' q' := by
  simp only [runThread] at hstep
  cases hpc : s.pc t with
  | idle => simp [hpc] at hstep
  | holding => simp [hpc] at hstep
  | parked => simp [hpc] at hstep
  | failed => simp [hpc] at hstep
  | reset =>
      simp only [hpc, Option.some.injEq] at hstep
      subst hstep
      have hself : s.next = Function.update s.next t (s.next t) :=
        (Function.update_eq_self ..).symm
      exact ⟨q, h.own (by rw [hpc]; rfl) (by rw [hpc]; rfl) (by simp [hpc]) hself rfl rfl rfl
        ⟨rfl, rfl⟩ rfl rfl rfl (by simp) (fun _ => h.fresh t (Or.inl hpc)) fun _ => rfl⟩
  | tryReset =>
      simp only [hpc, Option.some.injEq] at hstep
      subst hstep
      have hself : s.next = Function.update s.next t (s.next t) :=
        (Function.update_eq_self ..).symm
      exact ⟨q, h.own (by rw [hpc]; rfl) (by rw [hpc]; rfl) (by simp [hpc]) hself rfl rfl rfl
        ⟨rfl, rfl⟩ rfl rfl rfl (by simp) (fun _ => h.fresh t (Or.inr (Or.inr (Or.inl hpc))))
        fun _ => rfl⟩
  | xchg =>
      simp only [hpc] at hstep
      split at hstep
      · rename_i htail
        cases hstep
        exact ⟨_, h.arriveFirst (Or.inl hpc) htail⟩
      · rename_i x htail
        cases hstep
        exact ⟨_, h.arriveBehind hpc htail⟩
  | tryCas =>
      simp only [hpc] at hstep
      split at hstep
      · rename_i htail
        cases hstep
        exact ⟨_, h.arriveFirst (Or.inr hpc) htail⟩
      · cases hstep
        exact ⟨q, h.goto (by rw [hpc]; rfl) (by rw [hpc]; rfl) rfl (by simp [hpc]) (by simp [hpc])
          (by simp) (by simp) (by simp) (by simp [Pc.asks])⟩
  | link x =>
      simp only [hpc, Option.some.injEq] at hstep
      subst hstep
      exact ⟨q, h.link hpc⟩
  | spinning i =>
      simp only [hpc, Option.some.injEq] at hstep
      subst hstep
      exact ⟨q, h.sleepOnce hpc⟩
  | check =>
      simp only [hpc, Option.some.injEq] at hstep
      subst hstep
      have hasks := h.parks t (by rw [hpc]; rfl)
      split
      · rename_i hturn
        exact ⟨q, h.enterSelf (by rw [hpc]; rfl) (by simp [hpc]) hturn⟩
      · exact ⟨q, h.goto (by rw [hpc]; rfl) (by rw [hpc]; rfl) rfl (by simp [hpc]) (by simp [hpc])
          (by simp) (by simp) (by simp) fun _ => hasks⟩
  | futex =>
      simp only [hpc, Option.some.injEq] at hstep
      subst hstep
      have hasks := h.parks t (by rw [hpc]; rfl)
      split
      · exact ⟨q, h.goto (by rw [hpc]; rfl) (by rw [hpc]; rfl) rfl (by simp [hpc]) (by simp [hpc])
          (by simp) (by simp) (by simp) fun _ => hasks⟩
      · rename_i hturn
        exact ⟨q, h.goto (by rw [hpc]; rfl) (by rw [hpc]; rfl) rfl (by simp [hpc]) (by simp [hpc])
          (by simp) (by simp) (fun _ => Bool.eq_false_iff.mpr hturn) fun _ => hasks⟩
  | woken =>
      simp only [hpc, Option.some.injEq] at hstep
      subst hstep
      split
      · rename_i hturn
        exact ⟨q, h.enterSelf (by rw [hpc]; rfl) (by simp [hpc]) hturn⟩
      · exact ⟨q, h⟩
  | cas =>
      simp only [hpc] at hstep
      split at hstep
      · rename_i htail
        cases hstep
        exact ⟨[], h.close hpc htail⟩
      · rename_i htail
        cases hstep
        exact ⟨q, h.goto (by rw [hpc]; rfl) (by rw [hpc]; rfl) rfl (by simp [hpc]) (by simp [hpc])
          (fun _ => htail) (by simp) (by simp) (by simp [Pc.asks])⟩
  | waitNext =>
      simp only [hpc, Option.some.injEq] at hstep
      subst hstep
      split
      · exact ⟨q, h⟩
      · rename_i hnext
        exact ⟨q, h.goto (by rw [hpc]; rfl) (by rw [hpc]; rfl) rfl (by simp [hpc]) (by simp [hpc])
          (by simp) (fun _ => hnext) (by simp) (by simp [Pc.asks])⟩
  | wake =>
      simp only [hpc] at hstep
      split at hstep
      · rename_i hnext
        exact absurd hnext (h.seen t hpc)
      · rename_i n hnext
        cases hstep
        exact ⟨_, h.wakeNext hpc hnext⟩
  | futexWake n =>
      simp only [hpc, Option.some.injEq] at hstep
      subst hstep
      exact ⟨q, h.futexWake hpc⟩

theorem Inv.step (h : Inv policy s q) {a : Action Thread} (hstep : step policy s a = some s') :
    ∃ q', Inv policy s' q' := by
  cases a with
  | lock t =>
      simp only [Mcs.step] at hstep
      split at hstep
      · rename_i hpc
        cases hstep
        have hself : s.spin = Function.update s.spin t (s.spin t) :=
          (Function.update_eq_self ..).symm
        exact ⟨q, h.own (by rw [hpc]; rfl) (by rw [hpc]; rfl) (by simp [hpc]) rfl hself rfl rfl
          ⟨rfl, rfl⟩ rfl rfl rfl (by simp) (fun _ => rfl) (by simp)⟩
      · cases hstep
  | trylock t =>
      simp only [Mcs.step] at hstep
      split at hstep
      · rename_i hpc
        cases hstep
        have hself : s.spin = Function.update s.spin t (s.spin t) :=
          (Function.update_eq_self ..).symm
        exact ⟨q, h.own (by rw [hpc]; rfl) (by rw [hpc]; rfl) (by simp [hpc]) rfl hself rfl rfl
          ⟨rfl, rfl⟩ rfl rfl rfl (by simp) (fun _ => rfl) (by simp)⟩
      · cases hstep
  | unlock t =>
      simp only [Mcs.step] at hstep
      split at hstep
      · rename_i hpc
        cases hstep
        split
        · exact ⟨q, h.goto (by rw [hpc]; rfl) (by rw [hpc]; rfl) rfl (by simp [hpc])
            (by simp [hpc]) (by simp) (by simp) (by simp) (by simp [Pc.asks])⟩
        · rename_i hnext
          exact ⟨q, h.goto (by rw [hpc]; rfl) (by rw [hpc]; rfl) rfl (by simp [hpc])
            (by simp [hpc]) (by simp) (fun _ => hnext) (by simp) (by simp [Pc.asks])⟩
      · cases hstep
  | run t => exact h.run hstep
  | letGo t eintr =>
      simp only [Mcs.step] at hstep
      split at hstep
      · rename_i hpc
        cases hstep
        have hasks := h.parks t (by rw [hpc]; rfl)
        split
        · exact ⟨q, h.goto (by rw [hpc]; rfl) (by rw [hpc]; rfl) rfl (by simp [hpc])
            (by simp [hpc]) (by simp) (by simp) (by simp) fun _ => hasks⟩
        · exact ⟨q, h.goto (by rw [hpc]; rfl) (by rw [hpc]; rfl) rfl (by simp [hpc])
            (by simp [hpc]) (by simp) (by simp) (by simp) fun _ => hasks⟩
      · cases hstep

end Steps

/-! ### Every run -/

section Runs

variable {policy : Policy} {s : State Thread}

omit [DecidableEq Thread] in
theorem inv_init (next : Thread → Option Thread) (spin : Thread → Bool) :
    Inv policy (State.init next spin) [] := by
  constructor
  case linked => exact .nil
  case queue => rfl
  case counted => exact Nat.le_refl 0
  all_goals simp [State.init, Pc.waits, Pc.owns, Pc.asks]

theorem reachable_inv (h : (machine policy).Reachable s) : Inv policy s s.queue := by
  have hall : ∃ q, Inv policy s q := by
    refine h.invariant (I := fun s => ∃ q, Inv policy s q) ?_ ?_
    · rintro s ⟨next, spin, rfl⟩
      exact ⟨[], inv_init next spin⟩
    · rintro s a s' ⟨q, hq⟩ - hstep
      exact hq.step hstep
  obtain ⟨q, hq⟩ := hall
  exact hq.queue ▸ hq

omit [DecidableEq Thread] in
theorem head_queue (s : State Thread) : s.queue.head? = s.arrived[s.released]? := by
  rw [State.queue, List.head?_drop]

/-- **Mutual exclusion, in the order of the exchanges.**  The thread that has the lock is the one
whose exchange was the first that is not released yet, whatever the waiting policy; every thread
that waits has its place behind it; nobody sleeps whose turn it is, unless the call that wakes it is
on its way; and no assertion fails and no NULL is followed. -/
theorem mcs_fifo (h : (machine policy).Reachable s) :
    (∀ t, (s.pc t).owns = true → s.arrived[s.released]? = some t) ∧
    (∀ t, (s.pc t).waits = true → ∃ i, s.released ≤ i ∧ s.arrived[i]? = some t ∧
      (s.spin t = true ↔ s.arrived[s.released]? = some t)) ∧
    (∀ t, s.pc t = .parked → s.spin t = true → ∃ u, s.pc u = .futexWake t) ∧
    (s.tail = none ↔ s.arrived.length = s.released) ∧ ∀ t, s.pc t ≠ .failed := by
  have hinv := reachable_inv h
  refine ⟨fun t ht => ?_, fun t ht => ?_, hinv.parked, ?_, hinv.passed⟩
  · rw [← head_queue]
    exact hinv.turn t ht
  · obtain ⟨i, hi⟩ := List.mem_iff_getElem?.mp ((hinv.mem t).mpr (Or.inl ht))
    rw [State.queue, List.getElem?_drop] at hi
    exact ⟨_, Nat.le_add_right .., hi, head_queue s ▸ hinv.spin t ht⟩
  · rw [← hinv.linked.tail, List.getLast?_eq_none_iff, State.queue, List.drop_eq_nil_iff]
    have hcounted := hinv.counted
    omega

/-- Thread 1 is parked behind thread 0, which unlocks and wakes it. -/
def parkedRun : List (Action Nat) :=
  [.lock 0, .run 0, .run 0, .lock 1, .run 1, .run 1, .run 1, .run 1, .unlock 0, .run 0, .run 0,
    .run 1]

theorem mcs_fifo_parked : ∃ s, (machine .park).exec (State.init (fun _ => none) fun _ => true)
      parkedRun = some s ∧ s.pc 1 = .holding ∧ s.arrived[s.released]? = some 1 := by
  refine ⟨_, rfl, rfl, ?_⟩
  have hreach : (machine .park).Reachable _ :=
    ⟨_, ⟨fun _ => none, fun _ => true, rfl⟩, System.path_of_exec parkedRun rfl⟩
  exact (mcs_fifo hreach).1 1 rfl

end Runs

end Dal.Mcs
