/-
The hierarchical MCS lock, `hmcs.c`: one queue of threads for each socket, and one queue of
sockets.

The thread at the front of its socket's queue acquires the global lock with the node of its
socket.  A thread that unlocks hands the lock to the next thread of its socket, together with the
global lock, by writing into that thread's `status` how many have had it in a row; after
RELEASE_THRESHOLD of them, or when nobody of the socket is in sight, it releases the global lock
and tells the next thread, if there is one, to acquire it for itself.  So `status` is a
waiting thread's flag, a message and a counter at once, and a socket's node is used by one
thread after another.

One action is one access to shared memory; only in `me->next->status = val` the read goes with the
write, since nobody writes `me->next` any more.  `inRow` counts the threads that have had the lock
since the global lock came to the socket that has it, and `entered` those that have ever had it; no
step reads them.
-/
import Dal.Lib.Transition
import Dal.Lib.Turnstile
import Mathlib.Algebra.Group.Nat.Defs
import Mathlib.Data.Fintype.Card

namespace Dal.Hmcs

/-! ### The machine -/

def COHORT_START : Nat := 1

def ACQUIRE_PARENT : Nat := 2 ^ 64 - 2

def WAIT : Nat := 2 ^ 64 - 1

def RELEASE_THRESHOLD : Nat := 100

/-- Where a thread is; `g` is `last_local`, and `trylock` says which of the two it has called. -/
inductive Pc (Thread Socket : Type*)
  | idle
  /-- `me->next` is written, `me->status = WAIT` is next. -/
  | reset (trylock : Bool) (g : Socket)
  /-- The exchange, or the compare-and-swap, with the local tail. -/
  | xchg (trylock : Bool) (g : Socket)
  /-- `tail->next = me`. -/
  | link (g : Socket) (tail : Thread)
  /-- `while ((cur_status = me->status) == WAIT)`. -/
  | wait (g : Socket)
  /-- `me->status = COHORT_START`. -/
  | cohort (trylock : Bool) (g : Socket)
  /-- In `__hmcs_mutex_global_lock`, with `me` the node of the socket: `me->next = 0`. -/
  | gnext (trylock : Bool) (g : Socket)
  /-- `me->status = LOCKED`. -/
  | greset (trylock : Bool) (g : Socket)
  /-- The exchange, or the compare-and-swap, with the global tail. -/
  | gxchg (trylock : Bool) (g : Socket)
  /-- `tail->next = me`. -/
  | glink (g tail : Socket)
  /-- `while (me->status == LOCKED)`. -/
  | gwait (g : Socket)
  /-- `me->status = UNLOCKED`, when no one was there. -/
  | gfirst (g : Socket)
  /-- `hmcs_mutex_lock` or `hmcs_mutex_trylock` has returned 0. -/
  | holding (g : Socket)
  /-- In `__hmcs_mutex_local_unlock`: `me->next` is looked at. -/
  | succ (g : Socket) (curCount : Nat)
  /-- `succ->status = cur_count + 1`. -/
  | handOn (g : Socket) (curCount : Nat) (succ : Thread)
  /-- `__hmcs_release_helper` on the global lock: `me->next` is looked at. -/
  | gtest (g : Socket)
  | gcas (g : Socket)
  | gwaitNext (g : Socket)
  | gpass (g : Socket)
  /-- `__hmcs_release_helper` on the local lock, with ACQUIRE_PARENT. -/
  | test (g : Socket)
  | cas (g : Socket)
  | waitNext (g : Socket)
  | pass (g : Socket)
  /-- NULL was followed. -/
  | failed
  deriving DecidableEq

/-- One mutex: the nodes of the threads and those of the sockets. -/
structure State (Thread Socket : Type*) where
  /-- `local[g].tail`. -/
  tail : Socket → Option Thread
  next : Thread → Option Thread
  /-- `uint64_t status` of a thread's node. -/
  status : Thread → Nat
  /-- `global.tail`. -/
  gtail : Option Socket
  /-- `next` of `local[g].node`. -/
  gnext : Socket → Option Socket
  /-- `status` of `local[g].node` is UNLOCKED. -/
  gstatus : Socket → Bool
  pc : Thread → Pc Thread Socket
  inRow : Nat
  entered : Nat

inductive Action (Thread Socket : Type*)
  /-- An idle thread that runs on socket `g` calls `hmcs_mutex_lock` or `hmcs_mutex_trylock`. -/
  | lock (t : Thread) (g : Socket) (trylock : Bool)
  /-- The thread that has the lock calls `hmcs_mutex_unlock`. -/
  | unlock (t : Thread)
  /-- The thread's next step. -/
  | run (t : Thread)

variable {Thread Socket : Type*}

section Machine

variable [DecidableEq Thread] [DecidableEq Socket]

namespace State

variable (s : State Thread Socket)

omit [DecidableEq Thread] [DecidableEq Socket] in
/-- As `hmcs_mutex_create` leaves it; what is in the nodes does not matter. -/
def init (next : Thread → Option Thread) (status : Thread → Nat) (gnext : Socket → Option Socket)
    (gstatus : Socket → Bool) : State Thread Socket :=
  ⟨fun _ => none, next, status, none, gnext, gstatus, fun _ => .idle, 0, 0⟩

def goto (t : Thread) (p : Pc Thread Socket) : State Thread Socket :=
  { s with pc := Function.update s.pc t p }

omit [DecidableEq Socket] in
@[simp] theorem goto_pc (t : Thread) (p : Pc Thread Socket) : (s.goto t p).pc t = p :=
  Function.update_self ..

def setTail (g : Socket) (o : Option Thread) : State Thread Socket :=
  { s with tail := Function.update s.tail g o }

def setNext (t : Thread) (o : Option Thread) : State Thread Socket :=
  { s with next := Function.update s.next t o }

def setStatus (t : Thread) (k : Nat) : State Thread Socket :=
  { s with status := Function.update s.status t k }

def setGtail (o : Option Socket) : State Thread Socket := { s with gtail := o }

def setGnext (g : Socket) (o : Option Socket) : State Thread Socket :=
  { s with gnext := Function.update s.gnext g o }

def setGstatus (g : Socket) (b : Bool) : State Thread Socket :=
  { s with gstatus := Function.update s.gstatus g b }

/-- The thread has the lock. -/
def enter (t : Thread) (g : Socket) : State Thread Socket :=
  { s.goto t (.holding g) with inRow := s.inRow + 1, entered := s.entered + 1 }

/-- The global lock is with another socket from now on. -/
def newRow : State Thread Socket := { s with inRow := 0 }

end State

/-- The next step of a thread that is in one of the three functions. -/
def runThread (s : State Thread Socket) (t : Thread) : Option (State Thread Socket) :=
  match s.pc t with
  | .idle | .holding _ | .failed => none
  | .reset trylock g => some ((s.setStatus t WAIT).goto t (.xchg trylock g))
  | .xchg trylock g =>
      match s.tail g with
      | none => some ((s.setTail g (some t)).goto t (.cohort trylock g))
      | some tail =>
          if trylock then some (s.goto t .idle)
          else some ((s.setTail g (some t)).goto t (.link g tail))
  | .link g tail => some ((s.setNext tail (some t)).goto t (.wait g))
  | .wait g =>
      if s.status t = WAIT then some s
      else if s.status t < ACQUIRE_PARENT then some (s.enter t g)
      else some (s.goto t (.cohort false g))
  | .cohort trylock g => some ((s.setStatus t COHORT_START).goto t (.gnext trylock g))
  | .gnext trylock g => some ((s.setGnext g none).goto t (.greset trylock g))
  | .greset trylock g => some ((s.setGstatus g false).goto t (.gxchg trylock g))
  | .gxchg trylock g =>
      match s.gtail with
      | none => some ((s.setGtail (some g)).newRow.goto t (.gfirst g))
      | some tail =>
          if trylock then some (s.goto t (.test g))
          else some ((s.setGtail (some g)).goto t (.glink g tail))
  | .glink g tail => some ((s.setGnext tail (some g)).goto t (.gwait g))
  | .gwait g => if s.gstatus g then some (s.enter t g) else some s
  | .gfirst g => some ((s.setGstatus g true).enter t g)
  | .succ g curCount =>
      match s.next t with
      | none => some (s.goto t (.gtest g))
      | some n => some (s.goto t (.handOn g curCount n))
  | .handOn _ curCount n => some ((s.setStatus n (curCount + 1)).goto t .idle)
  | .gtest g => some (s.goto t (if s.gnext g = none then .gcas g else .gpass g))
  | .gcas g =>
      if s.gtail = some g then some ((s.setGtail none).goto t (.test g))
      else some (s.goto t (.gwaitNext g))
  | .gwaitNext g => some (if s.gnext g = none then s else s.goto t (.gpass g))
  | .gpass g =>
      match s.gnext g with
      | none => some (s.goto t .failed)
      | some n => some ((s.setGstatus n true).newRow.goto t (.test g))
  | .test g => some (s.goto t (if s.next t = none then .cas g else .pass g))
  | .cas g =>
      if s.tail g = some t then some ((s.setTail g none).goto t .idle)
      else some (s.goto t (.waitNext g))
  | .waitNext g => some (if s.next t = none then s else s.goto t (.pass g))
  | .pass _ =>
      match s.next t with
      | none => some (s.goto t .failed)
      | some n => some ((s.setStatus n ACQUIRE_PARENT).goto t .idle)

def step (s : State Thread Socket) : Action Thread Socket → Option (State Thread Socket)
  | .lock t g trylock =>
      if s.pc t = .idle then some ((s.setNext t none).goto t (.reset trylock g)) else none
  | .unlock t =>
      match s.pc t with
      | .holding g =>
          some (s.goto t (if s.status t = RELEASE_THRESHOLD then .gtest g
            else .succ g (s.status t)))
      | _ => none
  | .run t => runThread s t

/-- Any number of threads on any number of sockets, any interleaving. -/
def machine : System (State Thread Socket) (Action Thread Socket) where
  Init s := ∃ next status gnext gstatus, s = State.init next status gnext gstatus
  step := step

end Machine

/-! ### What the program counters say -/

namespace Pc

variable (p : Pc Thread Socket)

/-- The socket in whose queue the thread waits. -/
def waits : Pc Thread Socket → Option Socket
  | .link g _ | .wait g => some g
  | _ => none

/-- The socket in whose queue it is the thread's turn, and the thread knows. -/
def owns : Pc Thread Socket → Option Socket
  | .cohort _ g | .gnext _ g | .greset _ g | .gxchg _ g | .glink g _ | .gwait g | .gfirst g
  | .holding g | .succ g _ | .handOn g _ _ | .gtest g | .gcas g | .gwaitNext g | .gpass g
  | .test g | .cas g | .waitNext g | .pass g => some g
  | _ => none

/-- The socket for which the thread waits for the global lock. -/
def gwaits : Pc Thread Socket → Option Socket
  | .glink g _ | .gwait g => some g
  | _ => none

/-- The socket for which the thread has the global lock. -/
def gowns : Pc Thread Socket → Option Socket
  | .gfirst g | .holding g | .succ g _ | .handOn g _ _ | .gtest g | .gcas g | .gwaitNext g
  | .gpass g => some g
  | _ => none

/-- The thread is not about to write a node into the `next` of another. -/
def linked : Pc Thread Socket → Bool
  | .link .. | .glink .. => false
  | _ => true

/-- Neither is the thread in the two places, which are the same for both queues. -/
structure Beside (p p' : Pc Thread Socket) : Prop where
  waits : p'.waits = p.waits
  owns : p'.owns = p.owns
  gwaits : p'.gwaits = p.gwaits
  gowns : p'.gowns = p.gowns
  linked : p.linked = true
  linked' : p'.linked = true

theorem not_link {p : Pc Thread Socket} (h : p.linked = true) (g : Socket) (x : Thread) :
    p ≠ .link g x := by
  rintro rfl
  cases h

theorem not_glink {p : Pc Thread Socket} (h : p.linked = true) (g x : Socket) :
    p ≠ .glink g x := by
  rintro rfl
  cases h

end Pc

/-- The thread has yet to write itself into the `next` of the one in front of it. -/
def Late (s : State Thread Socket) (b p : Thread) : Prop := ∃ g, s.pc b = .link g p

/-- The socket's node has yet to be written into the `next` of the one in front of it. -/
def GLate (s : State Thread Socket) (g p : Socket) : Prop := ∃ t, s.pc t = .glink g p

def GWaits (s : State Thread Socket) (g : Socket) : Prop := ∃ t, (s.pc t).gwaits = some g

/-- A thread has the global lock for the socket, or is told so. -/
def GOwns (s : State Thread Socket) (g : Socket) : Prop :=
  ∃ t, (s.pc t).gowns = some g ∨ (s.pc t).waits = some g ∧ s.status t < ACQUIRE_PARENT

/-- The queue of the threads of one socket. -/
abbrev Local (s : State Thread Socket) (g : Socket) (q : List Thread) : Prop :=
  Turnstile s.next (Late s) (s.tail g) (fun t => (s.pc t).waits = some g)
    (fun t => (s.pc t).owns = some g) (fun t => s.status t ≠ WAIT) q

/-- The queue of the sockets. -/
abbrev Global (s : State Thread Socket) (q : List Socket) : Prop :=
  Turnstile s.gnext (GLate s) s.gtail (GWaits s) (GOwns s) (fun g => s.gstatus g = true) q

/-- What a waiting thread may be told: nothing yet, to acquire the global lock, or how many of its
socket have had the lock in a row when it has. -/
def Told (s : State Thread Socket) (t : Thread) : Prop :=
  s.status t = WAIT ∨ s.status t = ACQUIRE_PARENT ∨
    s.status t = s.inRow + 1 ∧ s.inRow < RELEASE_THRESHOLD

/-- The thread has the lock as the `inRow`-th of its socket. -/
def Counted (s : State Thread Socket) (t : Thread) : Prop :=
  s.status t = s.inRow ∧ s.inRow ≤ RELEASE_THRESHOLD

/-- What a thread can rely on where it is. -/
def Good (s : State Thread Socket) (t : Thread) : Prop :=
  match s.pc t with
  | .idle | .cohort .. | .gtest _ | .gcas _ | .test _ | .cas _ => True
  | .reset .. => s.next t = none
  | .xchg .. => s.next t = none ∧ s.status t = WAIT
  | .link .. | .wait _ => Told s t
  | .gnext .. => s.status t = COHORT_START
  | .glink g _ | .gwait g => s.status t = COHORT_START ∧ (s.gstatus g = true → s.inRow = 0)
  | .gfirst _ => s.status t = COHORT_START ∧ s.inRow = 0
  | .greset _ g => s.status t = COHORT_START ∧ s.gnext g = none
  | .gxchg _ g => s.status t = COHORT_START ∧ s.gnext g = none ∧ s.gstatus g = false
  | .holding _ => Counted s t
  | .succ _ k => Counted s t ∧ k = s.status t ∧ k ≠ RELEASE_THRESHOLD
  | .handOn _ k n => (Counted s t ∧ k = s.status t ∧ k ≠ RELEASE_THRESHOLD) ∧ s.next t = some n
  | .gwaitNext g => s.gtail ≠ some g
  | .gpass g => s.gnext g ≠ none
  | .waitNext g => s.tail g ≠ some t
  | .pass _ => s.next t ≠ none
  | .failed => False

/-- What holds in every reachable state, for the queues `lq` of the threads and `gq` of the
sockets. -/
structure Inv (s : State Thread Socket) (lq : Socket → List Thread) (gq : List Socket) : Prop where
  locals : ∀ g, Local s g (lq g)
  global : Global s gq
  good : ∀ t, Good s t

/-! ### One step keeps it -/

section Steps

variable {s s' : State Thread Socket} {lq : Socket → List Thread} {gq : List Socket}
  {t u : Thread} {g : Socket} {p : Pc Thread Socket}

/-- Another thread can still rely on what it could. -/
theorem Good.frame (h : Good s u) (hpc : s'.pc u = s.pc u)
    (hnext : s.next u ≠ none ∨ (s.pc u).waits = none ∧ (s.pc u).owns = none →
      s'.next u = s.next u)
    (hstatus : (s.pc u).waits = none → s'.status u = s.status u)
    (htold : (s.pc u).waits ≠ none → Told s' u)
    (hgnext : ∀ g, (s.pc u).owns = some g → s.gnext g ≠ none ∨
      (s.pc u).gwaits = none ∧ (s.pc u).gowns = none → s'.gnext g = s.gnext g)
    (hgstatus : ∀ g, (s.pc u).owns = some g → (s.pc u).gwaits = none → (s.pc u).gowns = none →
      s'.gstatus g = s.gstatus g)
    (htail : ∀ g, (s.pc u).owns = some g → s'.tail g = some u → s.tail g = some u)
    (hgtail : ∀ g, (s.pc u).owns = some g → s'.gtail = some g → s.gtail = some g)
    (hrow : (s.pc u).gowns ≠ none → s'.inRow = s.inRow)
    (hgranted : ∀ g, (s.pc u).gwaits = some g → (s.gstatus g = true → s.inRow = 0) →
      s'.gstatus g = true → s'.inRow = 0) : Good s' u := by
  unfold Good at h ⊢
  rw [hpc]
  cases hp : s.pc u <;> rw [hp] at h <;>
    simp only [hp, Pc.waits, Pc.owns, Pc.gwaits, Pc.gowns] at * <;> grind [Counted]

/-- A queue of threads that a step leaves alone. -/
theorem Local.frame [DecidableEq Thread] {q : List Thread} (h : Local s g q)
    (hpc : s'.pc = Function.update s.pc t p)
    (hwaits : p.waits = some g ↔ (s.pc t).waits = some g)
    (howns : p.owns = some g ↔ (s.pc t).owns = some g)
    (hlate : t ∈ q → ∀ x, Late s' t x ↔ Late s t x)
    (hnext : ∀ x ∈ q, s'.next x = s.next x) (htail : s'.tail g = s.tail g)
    (hstatus : ∀ x, (s.pc x).waits = some g → (s'.status x = WAIT ↔ s.status x = WAIT)) :
    Local s' g q := by
  have hpc' : ∀ x, s'.pc x = if x = t then p else s.pc x := fun x => by
    rw [hpc, Function.update_apply]
  rw [Local, htail]
  refine Turnstile.congr h hnext (fun x hx y => ?_) (fun x => ?_) (fun x => ?_) fun x hx => ?_
  · by_cases hxt : x = t
    · exact hxt ▸ hlate (hxt ▸ hx) y
    · rw [Late, Late, hpc', if_neg hxt]
  · rw [hpc']
    split
    · rename_i hxt
      rw [hwaits, hxt]
    · rfl
  · rw [hpc']
    split
    · rename_i hxt
      rw [howns, hxt]
    · rfl
  · exact (hstatus x hx).not

/-- The queue of the sockets, when a step leaves it alone. -/
theorem Global.frame [DecidableEq Thread] (h : Global s gq)
    (hpc : s'.pc = Function.update s.pc t p)
    (hwaits : p.gwaits = (s.pc t).gwaits) (howns : p.gowns = (s.pc t).gowns)
    (hlink : ∀ g x, p ≠ .glink g x ∧ s.pc t ≠ .glink g x)
    (htold : ∀ x g, (s'.pc x).waits = some g ∧ s'.status x < ACQUIRE_PARENT ↔
      (s.pc x).waits = some g ∧ s.status x < ACQUIRE_PARENT)
    (hgnext : ∀ x ∈ gq, s'.gnext x = s.gnext x) (hgtail : s'.gtail = s.gtail)
    (hgstatus : ∀ x, GWaits s x → s'.gstatus x = s.gstatus x) : Global s' gq := by
  have hpc' : ∀ x, s'.pc x = if x = t then p else s.pc x := fun x => by
    rw [hpc, Function.update_apply]
  rw [Global, hgtail]
  refine Turnstile.congr h hgnext (fun x hx y => ?_) (fun x => ?_) (fun x => ?_) fun x hx => ?_
  · unfold GLate
    refine exists_congr fun u => ?_
    grind
  · unfold GWaits
    refine exists_congr fun u => ?_
    grind
  · unfold GOwns
    refine exists_congr fun u => ?_
    rw [htold]
    grind
  · rw [hgstatus x hx]

theorem Pc.owns_of_gowns {p : Pc Thread Socket} (h : p.gowns = some g) : p.owns = some g := by
  cases p <;> simp_all [Pc.gowns, Pc.owns]

theorem Pc.owns_of_gwaits {p : Pc Thread Socket} (h : p.gwaits = some g) : p.owns = some g := by
  cases p <;> simp_all [Pc.gwaits, Pc.owns]

theorem Pc.waits_of_owns {p : Pc Thread Socket} (h : p.owns = some g) : p.waits = none := by
  cases p <;> simp_all [Pc.waits, Pc.owns]

section Facts

variable (h : Inv s lq gq)

include h

/-- One thread of a socket is past the local queue. -/
theorem Inv.owner_unique (ht : (s.pc t).owns = some g) (hu : (s.pc u).owns = some g) : t = u :=
  (h.locals g).owns_unique ht hu

/-- While it is, nobody of the socket has been told anything. -/
theorem Inv.not_told (ht : (s.pc t).owns = some g) (hu : (s.pc u).waits = some g) :
    s.status u = WAIT := by
  by_contra hne
  have heq := (h.locals g).granted_unique hu hne ht
  rw [heq, Pc.waits_of_owns ht] at hu
  cases hu

/-- While it does not have or want the global lock, the socket is not in the global queue. -/
theorem Inv.not_queued (ht : (s.pc t).owns = some g) (hw : (s.pc t).gwaits = none)
    (ho : (s.pc t).gowns = none) : g ∉ gq := by
  rw [h.global.mem]
  rintro (⟨u, hu⟩ | ⟨u, hu | ⟨hu, hless⟩⟩)
  · rw [← h.owner_unique ht (Pc.owns_of_gwaits hu), hw] at hu
    cases hu
  · rw [← h.owner_unique ht (Pc.owns_of_gowns hu), ho] at hu
    cases hu
  · rw [h.not_told ht hu] at hless
    exact absurd hless (by decide)

end Facts

theorem Good.told (h : Good s u) (hw : (s.pc u).waits ≠ none) : Told s u := by
  unfold Good at h
  grind [Pc.waits]

/-- A thread that stays where it is in the queues, and writes what is its own. -/
theorem Inv.move [DecidableEq Thread] (h : Inv s lq gq) (hpc : s'.pc = Function.update s.pc t p)
    (hbeside : (s.pc t).Beside p)
    (hnext : ∀ x, x ≠ t ∨ (s.pc t).waits ≠ none ∨ (s.pc t).owns ≠ none → s'.next x = s.next x)
    (hstatus : ∀ x, x ≠ t ∨ (s.pc t).waits ≠ none → s'.status x = s.status x)
    (hgnext : ∀ x, (s.pc t).owns ≠ some x ∨ (s.pc t).gwaits ≠ none ∨ (s.pc t).gowns ≠ none →
      s'.gnext x = s.gnext x)
    (hgstatus : ∀ x, (s.pc t).owns ≠ some x ∨ (s.pc t).gwaits ≠ none ∨ (s.pc t).gowns ≠ none →
      s'.gstatus x = s.gstatus x)
    (htail : s'.tail = s.tail) (hgtail : s'.gtail = s.gtail) (hrow : s'.inRow = s.inRow)
    (hgood : Good s' t) : Inv s' lq gq := by
  have hpc' : ∀ x, s'.pc x = if x = t then p else s.pc x := fun x => by
    rw [hpc, Function.update_apply]
  have hqueued : ∀ x ∈ gq, (s.pc t).owns ≠ some x ∨ (s.pc t).gwaits ≠ none ∨
      (s.pc t).gowns ≠ none := by
    intro x hx
    by_contra hnot
    obtain ⟨hown, hnone⟩ := not_or.mp hnot
    obtain ⟨hgw', hgo'⟩ := not_or.mp hnone
    exact h.not_queued (not_not.mp hown) (not_not.mp hgw') (not_not.mp hgo') hx
  have hstatus' : ∀ x g, (s.pc x).waits = some g → s'.status x = s.status x := by
    intro x g hx
    refine hstatus x ?_
    by_cases hxt : x = t
    · subst hxt
      rw [hx]
      exact Or.inr (Option.some_ne_none g)
    · exact Or.inl hxt
  constructor
  case locals =>
    intro g
    have hown : t ∈ lq g → (s.pc t).waits ≠ none ∨ (s.pc t).owns ≠ none := fun hm => by
      have := ((h.locals g).mem t).mp hm
      grind
    refine (h.locals g).frame hpc (by rw [hbeside.waits]) (by rw [hbeside.owns]) (fun _ x => ?_)
      (fun x hx => ?_) (by rw [htail]) fun x hx => by rw [hstatus' x g hx]
    · refine exists_congr fun g' => ?_
      rw [hpc', if_pos rfl]
      exact iff_of_false (Pc.not_link hbeside.linked' g' x) (Pc.not_link hbeside.linked g' x)
    · refine hnext x ?_
      by_cases hxt : x = t
      · exact Or.inr (hown (hxt ▸ hx))
      · exact Or.inl hxt
  case global =>
    refine h.global.frame hpc hbeside.gwaits hbeside.gowns
      (fun g' x => ⟨Pc.not_glink hbeside.linked' g' x, Pc.not_glink hbeside.linked g' x⟩)
      (fun x g => ?_) (fun x hx => hgnext x (hqueued x hx)) hgtail fun x hx =>
        hgstatus x (hqueued x ((h.global.mem x).mpr (Or.inl hx)))
    have hwx : (s'.pc x).waits = (s.pc x).waits := by grind [hbeside.waits]
    rw [hwx]
    refine and_congr_right fun hx => ?_
    rw [hstatus' x g hx]
  case good =>
    intro u
    by_cases hut : u = t
    · exact hut ▸ hgood
    · have hother : ∀ g, (s.pc u).owns = some g → (s.pc t).owns ≠ some g := fun g hu ht =>
        hut (h.owner_unique hu ht)
      have hgood := h.good u
      refine hgood.frame (by rw [hpc', if_neg hut]) (fun _ => hnext u (Or.inl hut))
        (fun _ => hstatus u (Or.inl hut)) (fun hw => ?_)
        (fun g hg _ => hgnext g (Or.inl (hother g hg)))
        (fun g hg _ _ => hgstatus g (Or.inl (hother g hg)))
        (fun g _ => by rw [htail]; exact id) (fun g _ => by rw [hgtail]; exact id) (fun _ => hrow)
        fun g hg => ?_
      · rw [Told, hstatus u (Or.inl hut), hrow]
        exact hgood.told hw
      · rw [hgstatus g (Or.inl (hother g (Pc.owns_of_gwaits hg))), hrow]
        exact id

/-- A thread is in the queue of one socket at most. -/
theorem Inv.disjoint (h : Inv s lq gq) {g' : Socket} (hg : t ∈ lq g) (hg' : t ∈ lq g') :
    g = g' := by
  have hwo : (s.pc t).owns = some g ∨ (s.pc t).owns = some g' → (s.pc t).waits = none := by
    rintro (ho | ho) <;> exact Pc.waits_of_owns ho
  have hg := ((h.locals g).mem t).mp hg
  have hg' := ((h.locals g').mem t).mp hg'
  grind

section Locals

variable [DecidableEq Thread]

/-- The queues of the threads, when a step is about the sockets. -/
theorem Inv.locals_same (h : Inv s lq gq) (hpc : s'.pc = Function.update s.pc t p)
    (hw : p.waits = (s.pc t).waits) (ho : p.owns = (s.pc t).owns)
    (hlink : ∀ g x, p ≠ .link g x ∧ s.pc t ≠ .link g x) (hnext : s'.next = s.next)
    (htail : s'.tail = s.tail) (hstatus : s'.status = s.status) (g : Socket) :
    Local s' g (lq g) := by
  refine (h.locals g).frame hpc (by rw [hw]) (by rw [ho]) (fun _ x => ?_) (fun x _ => by rw [hnext])
    (by rw [htail]) fun x _ => by rw [hstatus]
  refine exists_congr fun g' => ?_
  rw [hpc, Function.update_self]
  exact iff_of_false (hlink g' x).1 (hlink g' x).2

/-- The queues of the threads, when a step changes that of one socket. -/
theorem Inv.locals_update [DecidableEq Socket] (h : Inv s lq gq) {q : List Thread}
    (hpc : s'.pc = Function.update s.pc t p)
    (hat : ∀ g', g' ≠ g → (p.waits ≠ some g' ∧ p.owns ≠ some g') ∧
      (s.pc t).waits ≠ some g' ∧ (s.pc t).owns ≠ some g')
    (hsame : ∀ x, x ∉ lq g → s'.next x = s.next x ∧ s'.status x = s.status x)
    (htail : ∀ g', g' ≠ g → s'.tail g' = s.tail g') (hlocal : Local s' g q) (g' : Socket) :
    Local s' g' (Function.update lq g q g') := by
  rw [Function.update_apply]
  split
  · rename_i hg
    exact hg ▸ hlocal
  · rename_i hg
    obtain ⟨⟨hw', ho'⟩, hw, ho⟩ := hat g' hg
    have hnot : t ∉ lq g' := ((h.locals g').mem t).not.mpr (not_or.mpr ⟨hw, ho⟩)
    have hother : ∀ x ∈ lq g', x ∉ lq g := fun x hx hxg => hg (h.disjoint hx hxg)
    refine (h.locals g').frame hpc (iff_of_false hw' hw) (iff_of_false ho' ho)
      (fun hm => absurd hm hnot) (fun x hx => (hsame x (hother x hx)).1) (htail g' hg)
      fun x hx => ?_
    rw [(hsame x (hother x (((h.locals g').mem x).mpr (Or.inl hx)))).2]

/-- The same, when nobody comes or leaves. -/
theorem Inv.locals_keep [DecidableEq Socket] (h : Inv s lq gq)
    (hpc : s'.pc = Function.update s.pc t p)
    (hat : ∀ g', g' ≠ g → (p.waits ≠ some g' ∧ p.owns ≠ some g') ∧
      (s.pc t).waits ≠ some g' ∧ (s.pc t).owns ≠ some g')
    (hsame : ∀ x, x ∉ lq g → s'.next x = s.next x ∧ s'.status x = s.status x)
    (htail : s'.tail = s.tail) (hlocal : Local s' g (lq g)) (g' : Socket) :
    Local s' g' (lq g') := by
  have hlocal := h.locals_update hpc hat hsame (fun _ _ => by rw [htail]) hlocal g'
  rwa [Function.update_eq_self] at hlocal

end Locals

/-- Whoever is first in its socket's queue, with no other socket first in the global one, is the
only thread that may have the lock or be told so. -/
theorem Inv.sole (h : Inv s lq gq) (ht : (lq g).head? = some t)
    (hg : ∀ x, gq.head? = some x → x = g) (hut : u ≠ t) :
    (s.pc u).gowns = none ∧ ((s.pc u).waits ≠ none → ¬ s.status u < ACQUIRE_PARENT) ∧
      ∀ g', (s.pc u).gwaits = some g' → ¬ s.gstatus g' = true := by
  have hsocket : ∀ g', GOwns s g' → g' = g := fun g' hown =>
    hg g' (h.global.turn g' hown)
  refine ⟨Option.eq_none_iff_forall_ne_some.mpr fun g' hown => ?_, fun hw hless => ?_,
    fun g' hw hgranted => ?_⟩
  · obtain rfl := hsocket g' ⟨u, Or.inl hown⟩
    have hhead := (h.locals g').turn u (Pc.owns_of_gowns hown)
    exact hut (Option.some.inj (hhead.symm.trans ht))
  · obtain ⟨g', hw⟩ := Option.ne_none_iff_exists'.mp hw
    obtain rfl := hsocket g' ⟨u, Or.inr ⟨hw, hless⟩⟩
    have hne : s.status u ≠ WAIT := fun heq => by
      rw [heq] at hless
      exact absurd hless (by decide)
    have hhead := ((h.locals g').grant u hw).mp hne
    exact hut (Option.some.inj (hhead.symm.trans ht))
  · have hhead := (h.global.grant g' ⟨u, hw⟩).mp hgranted
    obtain rfl := hg g' hhead
    have hhead := (h.locals g').turn u (Pc.owns_of_gwaits hw)
    exact hut (Option.some.inj (hhead.symm.trans ht))

/-- What a thread is told is not a count, so it is true whatever the count is. -/
theorem Good.told_of_sole (h : Good s u) (hw : (s.pc u).waits ≠ none)
    (hless : ¬ s.status u < ACQUIRE_PARENT) (hstatus : s'.status u = s.status u) : Told s' u := by
  rw [Told, hstatus]
  rcases h.told hw with hwait | hparent | ⟨hcount, hrow⟩
  · exact Or.inl hwait
  · exact Or.inr (Or.inl hparent)
  · refine absurd ?_ hless
    have : s.inRow + 1 < ACQUIRE_PARENT := lt_of_le_of_lt hrow (by decide)
    rwa [hcount]

variable [DecidableEq Thread] [DecidableEq Socket]

/-- The local tail is NULL: the thread is the first of its socket. -/
theorem Inv.arriveFirst (h : Inv s lq gq) {b : Bool} (hpc : s.pc t = .xchg b g)
    (htail : s.tail g = none) :
    Inv ((s.setTail g (some t)).goto t (.cohort b g)) (Function.update lq g [t]) gq := by
  have hpc' : ∀ x, ((s.setTail g (some t)).goto t (.cohort b g)).pc x =
      if x = t then .cohort b g else s.pc x := fun x => by
    simp [State.goto, State.setTail, Function.update_apply]
  have htail' : ∀ x, ((s.setTail g (some t)).goto t (.cohort b g)).tail x =
      if x = g then some t else s.tail x := fun x => by
    simp [State.goto, State.setTail, Function.update_apply]
  have hgood : s.next t = none ∧ s.status t = WAIT := by
    have := h.good t
    rwa [Good, hpc] at this
  constructor
  case locals =>
    refine h.locals_update rfl (fun g' hg => ?_) (fun _ _ => ⟨rfl, rfl⟩)
      (fun g' hg => by rw [htail', if_neg hg]) ?_
    · simp [hpc, Pc.waits, Pc.owns, hg.symm]
    have hlocal := h.locals g
    rw [Local, htail] at hlocal
    rw [Local, htail', if_pos rfl]
    refine hlocal.arriveFirst hgood.1 (fun x => ?_) ?_ fun y hy => ?_
    · rintro ⟨g, hg⟩
      rw [hpc', if_pos rfl] at hg
      cases hg
    · rw [hpc', if_pos rfl]
      exact ⟨fun hw => (by cases hw), rfl⟩
    · rw [hpc', if_neg hy]
      exact ⟨Iff.rfl, Iff.rfl⟩
  case global =>
    refine h.global.frame rfl (by rw [hpc]; rfl) (by rw [hpc]; rfl) (by simp [hpc]) (fun x g' => ?_)
      (fun _ _ => rfl) rfl fun _ _ => rfl
    show _ ∧ s.status x < _ ↔ _
    grind [Pc.waits]
  case good =>
    intro u
    by_cases hut : u = t
    · rw [Good, hpc', if_pos hut]
      trivial
    · refine (h.good u).frame (by rw [hpc', if_neg hut]) (fun _ => rfl) (fun _ => rfl)
        (h.good u).told (fun _ _ _ => rfl) (fun _ _ _ _ => rfl) (fun g' _ hu => ?_)
        (fun _ _ => id) (fun _ => rfl) fun _ _ => id
      rw [htail'] at hu
      grind

/-- The exchange with the local tail finds another thread. -/
theorem Inv.arriveBehind (h : Inv s lq gq) (hpc : s.pc t = .xchg false g) {x : Thread}
    (htail : s.tail g = some x) :
    Inv ((s.setTail g (some t)).goto t (.link g x)) (Function.update lq g (lq g ++ [t])) gq := by
  have hpc' : ∀ y, ((s.setTail g (some t)).goto t (.link g x)).pc y =
      if y = t then .link g x else s.pc y := fun y => by
    simp [State.goto, State.setTail, Function.update_apply]
  have htail' : ∀ y, ((s.setTail g (some t)).goto t (.link g x)).tail y =
      if y = g then some t else s.tail y := fun y => by
    simp [State.goto, State.setTail, Function.update_apply]
  have hgood : s.next t = none ∧ s.status t = WAIT := by
    have := h.good t
    rwa [Good, hpc] at this
  have hnot : t ∉ lq g := fun hm => by
    have := ((h.locals g).mem t).mp hm
    simp [hpc, Pc.waits, Pc.owns] at this
  constructor
  case locals =>
    refine h.locals_update rfl (fun g' hg => ?_) (fun _ _ => ⟨rfl, rfl⟩)
      (fun g' hg => by rw [htail', if_neg hg]) ?_
    · simp [hpc, Pc.waits, Pc.owns, hg.symm]
    have hlocal := h.locals g
    rw [Local, htail] at hlocal
    rw [Local, htail', if_pos rfl]
    refine hlocal.arriveBehind (by simp [hpc, Pc.waits, Pc.owns]) hgood.1 (fun y => ?_)
      (fun y hy z => ?_) ?_ (fun y hy => ?_) fun _ _ _ => Iff.rfl
    · constructor
      · rintro ⟨g', heq⟩
        rw [hpc', if_pos rfl] at heq
        cases heq
        rfl
      · rintro rfl
        exact ⟨g, by rw [hpc', if_pos rfl]⟩
    · rw [Late, hpc', if_neg (ne_of_mem_of_not_mem hy hnot), Late]
    · rw [hpc', if_pos rfl]
      exact ⟨rfl, fun ho => (by cases ho), not_not.mpr hgood.2⟩
    · rw [hpc', if_neg hy]
      exact ⟨Iff.rfl, Iff.rfl⟩
  case global =>
    refine h.global.frame rfl (by rw [hpc]; rfl) (by rw [hpc]; rfl) (by simp [hpc]) (fun y g' => ?_)
      (fun _ _ => rfl) rfl fun _ _ => rfl
    show _ ∧ s.status y < _ ↔ _
    have hless : ¬ WAIT < ACQUIRE_PARENT := by decide
    grind [Pc.waits]
  case good =>
    intro u
    by_cases hut : u = t
    · subst hut
      rw [Good, hpc', if_pos rfl]
      exact Or.inl hgood.2
    · refine (h.good u).frame (by rw [hpc', if_neg hut]) (fun _ => rfl) (fun _ => rfl)
        (h.good u).told (fun _ _ _ => rfl) (fun _ _ _ _ => rfl) (fun g' _ hu => ?_)
        (fun _ _ => id) (fun _ => rfl) fun _ _ => id
      rw [htail'] at hu
      grind

/-- The thread writes itself behind the one it found. -/
theorem Inv.link (h : Inv s lq gq) {x : Thread} (hpc : s.pc t = .link g x) :
    Inv ((s.setNext x (some t)).goto t (.wait g)) lq gq := by
  have hpc' : ∀ y, ((s.setNext x (some t)).goto t (.wait g)).pc y =
      if y = t then .wait g else s.pc y := fun y => by
    simp [State.goto, State.setNext, Function.update_apply]
  have hnext' : ∀ y, y ≠ x → ((s.setNext x (some t)).goto t (.wait g)).next y = s.next y :=
    fun y hy => Function.update_of_ne hy ..
  have hself : (s.pc t).waits = some g := by rw [hpc]; rfl
  have hwaits : ∀ y, ((if y = t then .wait g else s.pc y : Pc Thread Socket)).waits =
      (s.pc y).waits := fun y => by
    split
    · rename_i hyt
      rw [hyt, hself]
      rfl
    · rfl
  have howns : ∀ y, ((if y = t then .wait g else s.pc y : Pc Thread Socket)).owns =
      (s.pc y).owns := fun y => by
    split
    · rename_i hyt
      rw [hyt, hpc]
      rfl
    · rfl
  obtain ⟨hx, hnone, hlocal⟩ : x ∈ lq g ∧ s.next x = none ∧
      Local ((s.setNext x (some t)).goto t (.wait g)) g (lq g) := by
    refine (h.locals g).link hself ⟨g, hpc⟩ ?_ ?_ (fun y _ hyt z => ?_) (fun y => ?_) (fun y => ?_)
      fun _ _ => Iff.rfl
    · rintro y ⟨g', hy⟩
      rw [hpc] at hy
      cases hy
      rfl
    · rintro y ⟨g', hy⟩
      rw [hpc', if_pos rfl] at hy
      cases hy
    · rw [Late, hpc', if_neg hyt, Late]
    · rw [hpc', hwaits]
    · rw [hpc', howns]
  constructor
  case locals =>
    refine h.locals_keep rfl (fun g' hg => ?_)
      (fun y hy => ⟨hnext' y (fun heq => hy (heq ▸ hx)), rfl⟩) rfl hlocal
    simp [hpc, Pc.waits, Pc.owns, hg.symm]
  case global =>
    refine h.global.frame rfl (by rw [hpc]; rfl) (by rw [hpc]; rfl) (by simp [hpc]) (fun y g' => ?_)
      (fun _ _ => rfl) rfl fun _ _ => rfl
    rw [hpc', hwaits]
    rfl
  case good =>
    intro u
    by_cases hut : u = t
    · subst hut
      rw [Good, hpc', if_pos rfl]
      exact (h.good u).told (by rw [hself]; exact Option.some_ne_none g)
    · refine (h.good u).frame (by rw [hpc', if_neg hut]) (fun hu => hnext' u ?_) (fun _ => rfl)
        (h.good u).told (fun _ _ _ => rfl) (fun _ _ _ _ => rfl) (fun _ _ => id)
        (fun _ _ => id) (fun _ => rfl) fun _ _ => id
      rintro rfl
      have := ((h.locals g).mem u).mp hx
      grind

/-- It is the turn of a thread that waits, and the thread sees that. -/
theorem Inv.takeTurn (h : Inv s lq gq) (hpc : s.pc t = .wait g) (hgranted : s.status t ≠ WAIT)
    (hpc' : s'.pc = Function.update s.pc t p) (hp : p.owns = some g) (hlinked : p.linked = true)
    (hnext : s'.next = s.next) (htail : s'.tail = s.tail) (hstatus : s'.status = s.status)
    (g' : Socket) : Local s' g' (lq g') := by
  have hself : (s.pc t).waits = some g := by rw [hpc]; rfl
  have hat : ∀ y, s'.pc y = if y = t then p else s.pc y := fun y => by
    rw [hpc', Function.update_apply]
  have hlocal : Local s' g (lq g) := by
    rw [Local, hnext, htail, hstatus]
    refine (h.locals g).enter hself hgranted (fun y _ z => ?_) ?_ (fun y hy => ?_)
      fun _ _ _ => Iff.rfl
    · refine exists_congr fun g' => ?_
      rw [hat]
      split
      · rename_i hyt
        rw [hyt, hpc]
        exact iff_of_false (Pc.not_link hlinked g' z) (Pc.not_link rfl g' z)
      · rfl
    · rw [hat, if_pos rfl, Pc.waits_of_owns hp]
      exact ⟨fun hw => (by cases hw), hp⟩
    · rw [hat, if_neg hy]
      exact ⟨Iff.rfl, Iff.rfl⟩
  refine h.locals_keep hpc' (fun g' hg => ?_) (fun y _ => ⟨by rw [hnext], by rw [hstatus]⟩) htail
    hlocal g'
  rw [hpc, Pc.waits_of_owns hp, hp]
  simp [Pc.waits, Pc.owns, hg.symm]

/-- It is told to acquire the global lock. -/
theorem Inv.enterParent (h : Inv s lq gq) (hpc : s.pc t = .wait g)
    (hstatus : s.status t = ACQUIRE_PARENT) : Inv (s.goto t (.cohort false g)) lq gq := by
  have hpc' : ∀ y, (s.goto t (.cohort false g)).pc y =
      if y = t then .cohort false g else s.pc y := fun y => by
    simp [State.goto, Function.update_apply]
  constructor
  case locals =>
    refine h.takeTurn (p := .cohort false g) hpc ?_ rfl rfl rfl rfl rfl rfl
    rw [hstatus]
    decide
  case global =>
    refine h.global.frame rfl (by rw [hpc]; rfl) (by rw [hpc]; rfl) (by simp [hpc]) (fun y g' => ?_)
      (fun _ _ => rfl) rfl fun _ _ => rfl
    show _ ∧ s.status y < _ ↔ _
    grind [Pc.waits]
  case good =>
    intro u
    by_cases hut : u = t
    · rw [Good, hpc', if_pos hut]
      trivial
    · exact (h.good u).frame (by rw [hpc', if_neg hut]) (fun _ => rfl) (fun _ => rfl)
        (h.good u).told (fun _ _ _ => rfl) (fun _ _ _ _ => rfl) (fun _ _ => id)
        (fun _ _ => id) (fun _ => rfl) fun _ _ => id

/-- It is told that it has the lock. -/
theorem Inv.enterTold (h : Inv s lq gq) (hpc : s.pc t = .wait g)
    (hstatus : s.status t < ACQUIRE_PARENT) : Inv (s.enter t g) lq gq := by
  have hpc' : ∀ y, (s.enter t g).pc y =
      if y = t then .holding g else s.pc y := fun y => by
    simp [State.enter, State.goto, Function.update_apply]
  have hself : (s.pc t).waits = some g := by rw [hpc]; rfl
  have hne : s.status t ≠ WAIT := fun heq => by
    rw [heq] at hstatus
    exact absurd hstatus (by decide)
  have hturn := h.global.turn g ⟨t, Or.inr ⟨hself, hstatus⟩⟩
  have hsole := fun u => h.sole (u := u) (((h.locals g).grant t hself).mp hne) fun x hx =>
    Option.some.inj (hx.symm.trans hturn)
  constructor
  case locals => exact h.takeTurn (p := .holding g) hpc hne rfl rfl rfl rfl rfl rfl
  case global =>
    refine Turnstile.congr h.global (fun _ _ => rfl) (fun x _ y => ?_) (fun x => ?_) (fun x => ?_)
      fun _ _ => Iff.rfl
    · refine exists_congr fun u => ?_
      rw [hpc']
      split
      · rename_i hut
        simp [hut, hpc]
      · rfl
    · refine exists_congr fun u => ?_
      rw [hpc']
      split
      · rename_i hut
        simp [hut, hpc, Pc.gwaits]
      · rfl
    · refine exists_congr fun u => ?_
      rw [hpc']
      split
      · rename_i hut
        subst hut
        simp [hpc, hstatus, Pc.gowns, Pc.waits]
      · rfl
  case good =>
    intro u
    by_cases hut : u = t
    · subst hut
      rw [Good, hpc', if_pos rfl]
      have htold := (h.good u).told (by rw [hself]; exact Option.some_ne_none g)
      rcases htold with hwait | hparent | ⟨hcount, hrow⟩
      · exact absurd hwait hne
      · exact absurd hparent hstatus.ne
      · exact ⟨hcount, hrow⟩
    · refine (h.good u).frame (by rw [hpc', if_neg hut]) (fun _ => rfl) (fun _ => rfl)
        (fun hw => (h.good u).told_of_sole hw ((hsole u hut).2.1 hw) rfl) (fun _ _ _ => rfl)
        (fun _ _ _ _ => rfl) (fun _ _ => id) (fun _ _ => id) (fun hown => ?_)
        fun g' hg _ hgranted => ?_
      · exact absurd (hsole u hut).1 hown
      · exact absurd hgranted ((hsole u hut).2.2 g' hg)

/-- The thread leaves its socket's queue, and writes `v` into the `status` of the next one. -/
theorem Inv.passOn (h : Inv s lq gq) {n : Thread} {v : Nat} (howns : (s.pc t).owns = some g)
    (hnext : s.next t = some n) (hv : v ≠ WAIT) :
    (∀ g', Local ((s.setStatus n v).goto t .idle) g' (Function.update lq g (lq g).tail g')) ∧
      n ≠ t ∧ (s.pc n).waits = some g ∧ s.status n = WAIT ∧
      ∀ u, (s.pc u).waits = none → ((s.setStatus n v).goto t .idle).status u = s.status u := by
  have hpc' : ∀ y, ((s.setStatus n v).goto t .idle).pc y =
      if y = t then .idle else s.pc y := fun y => by
    simp [State.goto, State.setStatus, Function.update_apply]
  have hstatus' : ∀ y, ((s.setStatus n v).goto t .idle).status y =
      if y = n then v else s.status y := fun y => by
    simp [State.goto, State.setStatus, Function.update_apply]
  obtain ⟨-, hnt, hwn, hgrant, hlocal⟩ : (∃ q', lq g = t :: n :: q') ∧ n ≠ t ∧
      (s.pc n).waits = some g ∧ ¬ s.status n ≠ WAIT ∧
      Local ((s.setStatus n v).goto t .idle) g (lq g).tail := by
    refine (h.locals g).pass howns hnext (fun y _ hyt z => ?_) ?_ (fun y hy => ?_) ?_ fun y hy => ?_
    · rw [Late, hpc', if_neg hyt, Late]
    · rw [hpc', if_pos rfl]
      exact ⟨fun hw => (by cases hw), fun ho => (by cases ho)⟩
    · rw [hpc', if_neg hy]
      exact ⟨Iff.rfl, Iff.rfl⟩
    · rwa [hstatus', if_pos rfl]
    · rw [hstatus', if_neg hy]
  refine ⟨h.locals_update rfl (fun g' hg => ?_) (fun y hy => ⟨rfl, ?_⟩) (fun _ _ => rfl) hlocal,
    hnt, hwn, not_not.mp hgrant, fun u hu => ?_⟩
  · rw [Pc.waits_of_owns howns, howns]
    simp [Pc.waits, Pc.owns, hg.symm]
  · rw [hstatus', if_neg]
    rintro rfl
    exact hy (((h.locals g).mem y).mpr (Or.inl hwn))
  · rw [hstatus', if_neg]
    rintro rfl
    rw [hu] at hwn
    cases hwn

/-- The lock is handed on inside the socket. -/
theorem Inv.handOn (h : Inv s lq gq) {k : Nat} {n : Thread} (hpc : s.pc t = .handOn g k n) :
    Inv ((s.setStatus n (k + 1)).goto t .idle) (Function.update lq g (lq g).tail) gq := by
  have hpc' : ∀ y, ((s.setStatus n (k + 1)).goto t .idle).pc y =
      if y = t then .idle else s.pc y := fun y => by
    simp [State.goto, State.setStatus, Function.update_apply]
  have hstatus' : ∀ y, ((s.setStatus n (k + 1)).goto t .idle).status y =
      if y = n then k + 1 else s.status y := fun y => by
    simp [State.goto, State.setStatus, Function.update_apply]
  have howns : (s.pc t).owns = some g := by rw [hpc]; rfl
  obtain ⟨⟨⟨hcount, hrow⟩, hk, hlimit⟩, hnext⟩ : (Counted s t ∧ k = s.status t ∧
      k ≠ RELEASE_THRESHOLD) ∧ s.next t = some n := by
    have := h.good t
    rwa [Good, hpc] at this
  have hless : s.inRow < RELEASE_THRESHOLD := by omega
  have hsmall : k + 1 < ACQUIRE_PARENT := by
    have : RELEASE_THRESHOLD < ACQUIRE_PARENT := by decide
    omega
  obtain ⟨hlocals, hnt, hwn, hwait, hkeep⟩ := h.passOn howns hnext
    (v := k + 1) (hsmall.trans (by decide)).ne
  have htold : ∀ u, (s.pc u).waits ≠ none → Told ((s.setStatus n (k + 1)).goto t .idle) u := by
    intro u hw
    by_cases hun : u = n
    · rw [Told, hstatus', if_pos hun]
      exact Or.inr (Or.inr ⟨by rw [hk, hcount]; rfl, hless⟩)
    · rw [Told, hstatus', if_neg hun]
      exact (h.good u).told hw
  refine ⟨hlocals, ?_, fun u => ?_⟩
  · refine Turnstile.congr h.global (fun _ _ => rfl) (fun x _ y => ?_) (fun x => ?_) (fun x => ?_)
      fun _ _ => Iff.rfl
    · refine exists_congr fun u => ?_
      grind
    · refine exists_congr fun u => ?_
      grind [Pc.gwaits]
    · -- the sender had the global lock for the socket, and now the receiver has
      by_cases hx : x = g
      · subst hx
        refine iff_of_true ⟨n, Or.inr ?_⟩ ⟨t, Or.inl (by rw [hpc]; rfl)⟩
        rw [hpc', if_neg hnt, hstatus', if_pos rfl]
        exact ⟨hwn, hsmall⟩
      · refine exists_congr fun u => ?_
        grind [Pc.gowns, Pc.waits]
  · by_cases hut : u = t
    · rw [Good, hpc', if_pos hut]
      trivial
    · exact (h.good u).frame (by rw [hpc', if_neg hut]) (fun _ => rfl) (hkeep u) (htold u)
        (fun _ _ _ => rfl) (fun _ _ _ _ => rfl) (fun _ _ => id) (fun _ _ => id) (fun _ => rfl)
        fun _ _ => id

/-- The next thread of the socket is told to acquire the global lock. -/
theorem Inv.passParent (h : Inv s lq gq) {n : Thread} (hpc : s.pc t = .pass g)
    (hnext : s.next t = some n) :
    Inv ((s.setStatus n ACQUIRE_PARENT).goto t .idle) (Function.update lq g (lq g).tail) gq := by
  have hpc' : ∀ y, ((s.setStatus n ACQUIRE_PARENT).goto t .idle).pc y =
      if y = t then .idle else s.pc y := fun y => by
    simp [State.goto, State.setStatus, Function.update_apply]
  have hstatus' : ∀ y, ((s.setStatus n ACQUIRE_PARENT).goto t .idle).status y =
      if y = n then ACQUIRE_PARENT else s.status y := fun y => by
    simp [State.goto, State.setStatus, Function.update_apply]
  have howns : (s.pc t).owns = some g := by rw [hpc]; rfl
  obtain ⟨hlocals, hnt, hwn, hwait, hkeep⟩ := h.passOn howns hnext
    (v := ACQUIRE_PARENT) (by decide)
  refine ⟨hlocals, ?_, fun u => ?_⟩
  · refine h.global.frame rfl (by rw [hpc]; rfl) (by rw [hpc]; rfl) (by simp [hpc]) (fun y g' => ?_)
      (fun _ _ => rfl) rfl fun _ _ => rfl
    have hless : ¬ WAIT < ACQUIRE_PARENT := by decide
    grind [Pc.waits]
  · by_cases hut : u = t
    · rw [Good, hpc', if_pos hut]
      trivial
    · refine (h.good u).frame (by rw [hpc', if_neg hut]) (fun _ => rfl) (hkeep u) (fun hw => ?_)
        (fun _ _ _ => rfl) (fun _ _ _ _ => rfl) (fun _ _ => id) (fun _ _ => id) (fun _ => rfl)
        fun _ _ => id
      rw [Told, hstatus']
      split
      · exact Or.inr (Or.inl rfl)
      · exact (h.good u).told hw

/-- The thread is the only one of its socket, and leaves. -/
theorem Inv.close (h : Inv s lq gq) (hpc : s.pc t = .cas g) (htail : s.tail g = some t) :
    Inv ((s.setTail g none).goto t .idle) (Function.update lq g []) gq := by
  have hpc' : ∀ y, ((s.setTail g none).goto t .idle).pc y =
      if y = t then .idle else s.pc y := fun y => by
    simp [State.goto, State.setTail, Function.update_apply]
  have htail' : ∀ x, ((s.setTail g none).goto t .idle).tail x =
      if x = g then none else s.tail x := fun x => by
    simp [State.goto, State.setTail, Function.update_apply]
  constructor
  case locals =>
    refine h.locals_update rfl (fun g' hg => ?_) (fun _ _ => ⟨rfl, rfl⟩)
      (fun g' hg => by rw [htail', if_neg hg]) ?_
    · simp [hpc, Pc.waits, Pc.owns, hg.symm]
    have hlocal := h.locals g
    rw [Local, htail] at hlocal
    rw [Local, htail', if_pos rfl]
    refine hlocal.close (by rw [hpc]; rfl) ?_ fun y hy => ?_
    · rw [hpc', if_pos rfl]
      exact ⟨fun hw => (by cases hw), fun ho => (by cases ho)⟩
    · rw [hpc', if_neg hy]
      exact ⟨Iff.rfl, Iff.rfl⟩
  case global =>
    refine h.global.frame rfl (by rw [hpc]; rfl) (by rw [hpc]; rfl) (by simp [hpc]) (fun x g' => ?_)
      (fun _ _ => rfl) rfl fun _ _ => rfl
    show _ ∧ s.status x < _ ↔ _
    grind [Pc.waits]
  case good =>
    intro u
    by_cases hut : u = t
    · rw [Good, hpc', if_pos hut]
      trivial
    · refine (h.good u).frame (by rw [hpc', if_neg hut]) (fun _ => rfl) (fun _ => rfl)
        (h.good u).told (fun _ _ _ => rfl) (fun _ _ _ _ => rfl) (fun g' _ hu => ?_)
        (fun _ _ => id) (fun _ => rfl) fun _ _ => id
      rw [htail'] at hu
      grind

/-! ### The steps on the global queue -/

section Sockets

variable {gq' : List Socket}

omit [DecidableEq Socket]

/-- The thread that is past its local queue says where its socket is in the global one. -/
theorem Inv.socket_self (h : Inv s lq gq) (hpc : s'.pc = Function.update s.pc t p)
    (ht : (s.pc t).owns = some g) (hp : p.owns = some g) (hstatus : s'.status = s.status) :
    (GWaits s' g ↔ p.gwaits = some g) ∧ (GOwns s' g ↔ p.gowns = some g) ∧
      ∀ x, GLate s' g x ↔ p = .glink g x := by
  have hself : s'.pc t = p := by rw [hpc, Function.update_self]
  have hpc' : ∀ u, s'.pc u = if u = t then p else s.pc u := fun u => by
    rw [hpc, Function.update_apply]
  have hunique : ∀ u, (s'.pc u).owns = some g → u = t := by
    intro u hu
    rw [hpc'] at hu
    split at hu
    · assumption
    · exact h.owner_unique hu ht
  refine ⟨⟨?_, fun hw => ⟨t, hself ▸ hw⟩⟩, ⟨?_, fun ho => ⟨t, Or.inl (hself ▸ ho)⟩⟩, fun x =>
    ⟨?_, fun hx => ⟨t, hself.trans hx⟩⟩⟩
  · rintro ⟨u, hu⟩
    rwa [hunique u (Pc.owns_of_gwaits hu), hself] at hu
  · rintro ⟨u, hu | ⟨hu, hless⟩⟩
    · rwa [hunique u (Pc.owns_of_gowns hu), hself] at hu
    · have hut : u ≠ t := by
        rintro rfl
        rw [hself, Pc.waits_of_owns hp] at hu
        cases hu
      rw [hpc', if_neg hut] at hu
      rw [hstatus, h.not_told ht hu] at hless
      exact absurd hless (by decide)
  · rintro ⟨u, hu⟩
    rwa [hunique u (by rw [hu]; rfl), hself] at hu

/-- It says nothing about the others. -/
theorem socket_other (hpc : s'.pc = Function.update s.pc t p) (ht : (s.pc t).owns = some g)
    (hp : p.owns = some g) (hstatus : s'.status = s.status) {x : Socket} (hx : x ≠ g) :
    (GWaits s' x ↔ GWaits s x) ∧ (GOwns s' x ↔ GOwns s x) ∧ ∀ y, GLate s' x y ↔ GLate s x y := by
  have hpc' : ∀ u, s'.pc u = if u = t then p else s.pc u := fun u => by
    rw [hpc, Function.update_apply]
  have hsame : ∀ u, u = t → (s'.pc u).owns ≠ some x ∧ (s.pc u).owns ≠ some x ∧
      (s'.pc u).waits = none ∧ (s.pc u).waits = none := by
    rintro u rfl
    rw [hpc', if_pos rfl, hp, ht]
    have hne : some g ≠ some x := fun heq => hx (Option.some.inj heq).symm
    exact ⟨hne, hne, Pc.waits_of_owns hp, Pc.waits_of_owns ht⟩
  refine ⟨exists_congr fun u => ?_, exists_congr fun u => ?_, fun y => exists_congr fun u => ?_⟩
  all_goals
    by_cases hut : u = t
    · obtain ⟨h₁, h₂, h₃, h₄⟩ := hsame u hut
      grind [Pc.owns_of_gwaits, Pc.owns_of_gowns, Pc.owns]
    · rw [hpc', if_neg hut]
      try rw [hstatus]

/-- A step on the global queue. -/
theorem Inv.socket (h : Inv s lq gq) (hpc : s'.pc = Function.update s.pc t p)
    (ht : (s.pc t).owns = some g) (hp : p.owns = some g) (hnext : s'.next = s.next)
    (htail : s'.tail = s.tail) (hstatus : s'.status = s.status)
    (hgnext : ∀ x, x ≠ g → s'.gnext x ≠ s.gnext x → s.gnext x = none ∧ x ∈ gq)
    (hgstatus : ∀ x, x ≠ g → s'.gstatus x ≠ s.gstatus x → GWaits s x ∧ s'.inRow = 0)
    (hgtail : ∀ x, x ≠ g → s'.gtail = some x → s.gtail = some x)
    (hrow : s'.inRow ≠ s.inRow → ∀ x, gq.head? = some x → x = g) (hglobal : Global s' gq')
    (hgood : Good s' t) : Inv s' lq gq' := by
  have hnot : ∀ {p : Pc Thread Socket}, p.owns = some g → ∀ g' x, p ≠ .link g' x := by
    rintro p hp g' x rfl
    cases hp
  refine ⟨h.locals_same hpc (by rw [Pc.waits_of_owns hp, Pc.waits_of_owns ht]) (by rw [hp, ht])
    (fun g' x => ⟨hnot hp g' x, hnot ht g' x⟩) hnext htail hstatus, hglobal, fun u => ?_⟩
  by_cases hut : u = t
  · exact hut ▸ hgood
  have hother : ∀ x, (s.pc u).owns = some x → x ≠ g := fun x hu hx =>
    hut (h.owner_unique (hx ▸ hu) ht)
  have hsole := fun hne => h.sole ((h.locals g).turn t ht) (hrow hne) hut
  refine (h.good u).frame (by rw [hpc, Function.update_of_ne hut]) (fun _ => by rw [hnext])
    (fun _ => by rw [hstatus]) (fun hw => ?_) (fun x hx hcase => ?_) (fun x hx hw ho => ?_)
    (fun x _ => by rw [htail]; exact id) (fun x hx => hgtail x (hother x hx)) (fun hown => ?_)
    fun x hx hold hgranted => ?_
  · by_cases hne : s'.inRow = s.inRow
    · rw [Told, hstatus, hne]
      exact (h.good u).told hw
    · exact (h.good u).told_of_sole hw ((hsole hne).2.1 hw) (by rw [hstatus])
  · by_contra hne
    obtain ⟨hnone, hmem⟩ := hgnext x (hother x hx) hne
    rcases hcase with hsome | ⟨hw, ho⟩
    · exact hsome hnone
    · exact h.not_queued hx hw ho hmem
  · by_contra hne
    obtain ⟨⟨v, hv⟩, -⟩ := hgstatus x (hother x hx) hne
    rw [h.owner_unique (Pc.owns_of_gwaits hv) hx, hw] at hv
    cases hv
  · by_contra hne
    exact hown (hsole hne).1
  · by_cases hsame : s'.gstatus x = s.gstatus x
    · rw [hsame] at hgranted
      by_cases hne : s'.inRow = s.inRow
      · rw [hne]
        exact hold hgranted
      · exact absurd hgranted ((hsole hne).2.2 x hx)
    · exact (hgstatus x (hother x (Pc.owns_of_gwaits hx)) hsame).2

end Sockets

omit [DecidableEq Socket] in
/-- The global tail is NULL: the socket has the global lock. -/
theorem Inv.gfirst (h : Inv s lq gq) {b : Bool} (hpc : s.pc t = .gxchg b g)
    (hgtail : s.gtail = none) : Inv ((s.setGtail (some g)).newRow.goto t (.gfirst g)) lq [g] := by
  have ht : (s.pc t).owns = some g := by rw [hpc]; rfl
  have hgood : s.status t = COHORT_START ∧ s.gnext g = none ∧ s.gstatus g = false := by
    have := h.good t
    rwa [Good, hpc] at this
  have hpc' : ((s.setGtail (some g)).newRow.goto t (.gfirst g)).pc =
      Function.update s.pc t (.gfirst g) := rfl
  obtain ⟨hw, ho, hl⟩ := h.socket_self hpc' ht rfl rfl
  have hglobal := h.global
  rw [Global, hgtail] at hglobal
  refine h.socket hpc' ht rfl rfl rfl rfl (fun _ _ hne => absurd rfl hne)
    (fun _ _ hne => absurd rfl hne) (fun x hx heq => absurd (Option.some.inj heq).symm hx)
    (fun _ x hx => ?_) ?_ ?_
  · rw [hglobal.linked.eq_nil] at hx
    cases hx
  · refine hglobal.arriveFirst hgood.2.1 (fun x => (hl x).not.mpr (by simp)) ?_ fun y hy => ?_
    · exact ⟨hw.not.mpr (by simp [Pc.gwaits]), ho.mpr rfl⟩
    · obtain ⟨hw, ho, -⟩ := socket_other hpc' ht rfl rfl hy
      exact ⟨hw, ho⟩
  · rw [Good, hpc', Function.update_self]
    exact ⟨hgood.1, rfl⟩

omit [DecidableEq Socket] in
/-- The exchange with the global tail finds another socket. -/
theorem Inv.gbehind (h : Inv s lq gq) (hpc : s.pc t = .gxchg false g) {x : Socket}
    (hgtail : s.gtail = some x) :
    Inv ((s.setGtail (some g)).goto t (.glink g x)) lq (gq ++ [g]) := by
  have ht : (s.pc t).owns = some g := by rw [hpc]; rfl
  have hgood : s.status t = COHORT_START ∧ s.gnext g = none ∧ s.gstatus g = false := by
    have := h.good t
    rwa [Good, hpc] at this
  have hpc' : ((s.setGtail (some g)).goto t (.glink g x)).pc =
      Function.update s.pc t (.glink g x) := rfl
  obtain ⟨hw, ho, hl⟩ := h.socket_self hpc' ht rfl rfl
  have hnot := h.not_queued ht (by rw [hpc]; rfl) (by rw [hpc]; rfl)
  refine h.socket hpc' ht rfl rfl rfl rfl (fun _ _ hne => absurd rfl hne)
    (fun _ _ hne => absurd rfl hne) (fun x hx heq => absurd (Option.some.inj heq).symm hx)
    (fun hne => absurd rfl hne) ?_ ?_
  · have hglobal := h.global
    rw [Global, hgtail] at hglobal
    refine hglobal.arriveBehind (not_or.mp ((h.global.mem g).not.mp hnot)) hgood.2.1 (fun y => ?_)
      (fun y hy => ?_) ?_ (fun y hy => ?_) fun _ _ _ => Iff.rfl
    · rw [hl y]
      simp [eq_comm]
    · exact (socket_other hpc' ht rfl rfl (ne_of_mem_of_not_mem hy hnot)).2.2
    · refine ⟨hw.mpr rfl, ho.not.mpr (by simp [Pc.gowns]), ?_⟩
      show ¬ s.gstatus g = true
      rw [hgood.2.2]
      exact Bool.false_ne_true
    · obtain ⟨hw, ho, -⟩ := socket_other hpc' ht rfl rfl hy
      exact ⟨hw, ho⟩
  · rw [Good, hpc', Function.update_self]
    exact ⟨hgood.1, fun hgranted => absurd (hgood.2.2.symm.trans hgranted) Bool.false_ne_true⟩

/-- The socket's node is written behind the one that was found. -/
theorem Inv.glink (h : Inv s lq gq) {x : Socket} (hpc : s.pc t = .glink g x) :
    Inv ((s.setGnext x (some g)).goto t (.gwait g)) lq gq := by
  have ht : (s.pc t).owns = some g := by rw [hpc]; rfl
  have hgood : s.status t = COHORT_START ∧ (s.gstatus g = true → s.inRow = 0) := by
    have := h.good t
    rwa [Good, hpc] at this
  have hpc' : ((s.setGnext x (some g)).goto t (.gwait g)).pc = Function.update s.pc t (.gwait g) :=
    rfl
  obtain ⟨hw, ho, hl⟩ := h.socket_self hpc' ht rfl rfl
  obtain ⟨hw₀, ho₀, hl₀⟩ := h.socket_self (Function.update_eq_self t s.pc).symm ht ht rfl
  have hsame : ∀ y, (GWaits ((s.setGnext x (some g)).goto t (.gwait g)) y ↔ GWaits s y) ∧
      (GOwns ((s.setGnext x (some g)).goto t (.gwait g)) y ↔ GOwns s y) := by
    intro y
    by_cases hy : y = g
    · subst hy
      rw [hw, ho, hw₀, ho₀, hpc]
      exact ⟨Iff.rfl, Iff.rfl⟩
    · obtain ⟨hw, ho, -⟩ := socket_other hpc' ht rfl rfl hy
      exact ⟨hw, ho⟩
  obtain ⟨hx, hnone, hglobal⟩ : x ∈ gq ∧ s.gnext x = none ∧
      Global ((s.setGnext x (some g)).goto t (.gwait g)) gq := by
    refine h.global.link (hw₀.mpr (by rw [hpc]; rfl)) ((hl₀ x).mpr hpc) (fun y hy => ?_)
      (fun y => (hl y).not.mpr (by simp)) (fun y _ hy => (socket_other hpc' ht rfl rfl hy).2.2)
      (fun y => (hsame y).1) (fun y => (hsame y).2) fun _ _ => Iff.rfl
    rw [hl₀, hpc] at hy
    cases hy
    rfl
  refine h.socket hpc' ht rfl rfl rfl rfl (fun y _ hne => ?_) (fun _ _ hne => absurd rfl hne)
    (fun _ _ => id) (fun hne => absurd rfl hne) hglobal ?_
  · have hyx : y = x := by
      by_contra hyx
      exact hne (Function.update_of_ne hyx ..)
    exact hyx ▸ ⟨hnone, hx⟩
  · rw [Good, hpc', Function.update_self]
    exact hgood

/-- The thread sees that its socket has the global lock. -/
theorem Inv.genter (h : Inv s lq gq) (hpc : s.pc t = .gwait g) (hgstatus : s.gstatus g = true) :
    Inv (s.enter t g) lq gq := by
  have ht : (s.pc t).owns = some g := by rw [hpc]; rfl
  have hgood : s.status t = COHORT_START ∧ (s.gstatus g = true → s.inRow = 0) := by
    have := h.good t
    rwa [Good, hpc] at this
  have hpc' : (s.enter t g).pc = Function.update s.pc t (.holding g) := rfl
  obtain ⟨hw, ho, hl⟩ := h.socket_self hpc' ht rfl rfl
  obtain ⟨hw₀, -, hl₀⟩ := h.socket_self (Function.update_eq_self t s.pc).symm ht ht rfl
  have hwaits : GWaits s g := hw₀.mpr (by rw [hpc]; rfl)
  refine h.socket hpc' ht rfl rfl rfl rfl (fun _ _ hne => absurd rfl hne)
    (fun _ _ hne => absurd rfl hne) (fun _ _ => id)
    (fun _ x hx => Option.some.inj (hx.symm.trans ((h.global.grant g hwaits).mp hgstatus))) ?_ ?_
  · refine h.global.enter hwaits hgstatus (fun y _ z => ?_) ?_ (fun y hy => ?_)
      fun _ _ _ => Iff.rfl
    · by_cases hy : y = g
      · rw [hy, hl, hl₀, hpc]
        exact iff_of_false (by simp) (by simp)
      · exact (socket_other hpc' ht rfl rfl hy).2.2 z
    · exact ⟨hw.not.mpr (by simp [Pc.gwaits]), ho.mpr rfl⟩
    · obtain ⟨hw, ho, -⟩ := socket_other hpc' ht rfl rfl hy
      exact ⟨hw, ho⟩
  · rw [Good, hpc', Function.update_self]
    have hrow : (s.enter t g).inRow = 1 := congrArg (· + 1) (hgood.2 hgstatus)
    rw [Counted, hrow]
    exact ⟨hgood.1, by decide⟩

/-- The thread has found nobody at the global lock, and says so. -/
theorem Inv.gopen (h : Inv s lq gq) (hpc : s.pc t = .gfirst g) :
    Inv ((s.setGstatus g true).enter t g) lq gq := by
  have ht : (s.pc t).owns = some g := by rw [hpc]; rfl
  have hgood : s.status t = COHORT_START ∧ s.inRow = 0 := by
    have := h.good t
    rwa [Good, hpc] at this
  have hpc' : ((s.setGstatus g true).enter t g).pc = Function.update s.pc t (.holding g) := rfl
  obtain ⟨hw, ho, hl⟩ := h.socket_self hpc' ht rfl rfl
  obtain ⟨hw₀, ho₀, hl₀⟩ := h.socket_self (Function.update_eq_self t s.pc).symm ht ht rfl
  have howns : GOwns s g := ho₀.mpr (by rw [hpc]; rfl)
  have hsame : ∀ x, x ≠ g → ((s.setGstatus g true).enter t g).gstatus x = s.gstatus x :=
    fun x hx => Function.update_of_ne hx ..
  refine h.socket hpc' ht rfl rfl rfl rfl (fun _ _ hne => absurd rfl hne)
    (fun x hx hne => absurd (hsame x hx) hne) (fun _ _ => id)
    (fun _ x hx => Option.some.inj (hx.symm.trans (h.global.turn g howns))) ?_ ?_
  · refine Turnstile.congr h.global (fun _ _ => rfl) (fun y _ z => ?_) (fun y => ?_) (fun y => ?_)
      fun y hy => ?_
    · by_cases hy : y = g
      · rw [hy, hl, hl₀, hpc]
        exact iff_of_false (by simp) (by simp)
      · exact (socket_other hpc' ht rfl rfl hy).2.2 z
    · by_cases hy : y = g
      · rw [hy, hw, hw₀, hpc]
        exact Iff.rfl
      · exact (socket_other hpc' ht rfl rfl hy).1
    · by_cases hy : y = g
      · rw [hy, ho, ho₀, hpc]
        exact Iff.rfl
      · exact (socket_other hpc' ht rfl rfl hy).2.1
    · rw [hsame y fun heq => h.global.apart y hy (heq ▸ howns)]
  · rw [Good, hpc', Function.update_self]
    have hrow : ((s.setGstatus g true).enter t g).inRow = 1 := congrArg (· + 1) hgood.2
    rw [Counted, hrow]
    exact ⟨hgood.1, by decide⟩

omit [DecidableEq Socket] in
/-- No other socket wants the global lock, and it is released. -/
theorem Inv.gclose (h : Inv s lq gq) (hpc : s.pc t = .gcas g) (hgtail : s.gtail = some g) :
    Inv ((s.setGtail none).goto t (.test g)) lq [] := by
  have ht : (s.pc t).owns = some g := by rw [hpc]; rfl
  have hpc' : ((s.setGtail none).goto t (.test g)).pc = Function.update s.pc t (.test g) := rfl
  obtain ⟨hw, ho, hl⟩ := h.socket_self hpc' ht rfl rfl
  obtain ⟨-, ho₀, -⟩ := h.socket_self (Function.update_eq_self t s.pc).symm ht ht rfl
  refine h.socket hpc' ht rfl rfl rfl rfl (fun _ _ hne => absurd rfl hne)
    (fun _ _ hne => absurd rfl hne) (fun x hx heq => (by cases heq))
    (fun hne => absurd rfl hne) ?_ ?_
  · have hglobal := h.global
    rw [Global, hgtail] at hglobal
    refine hglobal.close (ho₀.mpr (by rw [hpc]; rfl)) ?_ fun y hy => ?_
    · exact ⟨hw.not.mpr (by simp [Pc.gwaits]), ho.not.mpr (by simp [Pc.gowns])⟩
    · obtain ⟨hw, ho, -⟩ := socket_other hpc' ht rfl rfl hy
      exact ⟨hw, ho⟩
  · rw [Good, hpc', Function.update_self]
    trivial

/-- The global lock is passed to the next socket. -/
theorem Inv.gpass (h : Inv s lq gq) {n : Socket} (hpc : s.pc t = .gpass g)
    (hgnext : s.gnext g = some n) :
    Inv ((s.setGstatus n true).newRow.goto t (.test g)) lq gq.tail := by
  have ht : (s.pc t).owns = some g := by rw [hpc]; rfl
  have hpc' : ((s.setGstatus n true).newRow.goto t (.test g)).pc =
      Function.update s.pc t (.test g) := rfl
  obtain ⟨hw, ho, hl⟩ := h.socket_self hpc' ht rfl rfl
  obtain ⟨-, ho₀, -⟩ := h.socket_self (Function.update_eq_self t s.pc).symm ht ht rfl
  have howns : GOwns s g := ho₀.mpr (by rw [hpc]; rfl)
  have hsame : ∀ x, x ≠ n →
      ((s.setGstatus n true).newRow.goto t (.test g)).gstatus x = s.gstatus x :=
    fun x hx => Function.update_of_ne hx ..
  obtain ⟨-, hng, hwn, -, hglobal⟩ : (∃ q', gq = g :: n :: q') ∧ n ≠ g ∧ GWaits s n ∧
      ¬ s.gstatus n = true ∧ Global ((s.setGstatus n true).newRow.goto t (.test g)) gq.tail := by
    refine h.global.pass howns hgnext (fun y _ hy =>
      (socket_other hpc' ht rfl rfl hy).2.2) ?_ (fun y hy => ?_) (Function.update_self ..)
      fun y hy => by rw [hsame y hy]
    · exact ⟨hw.not.mpr (by simp [Pc.gwaits]), ho.not.mpr (by simp [Pc.gowns])⟩
    · obtain ⟨hw, ho, -⟩ := socket_other hpc' ht rfl rfl hy
      exact ⟨hw, ho⟩
  refine h.socket hpc' ht rfl rfl rfl rfl (fun _ _ hne => absurd rfl hne) (fun x _ hne => ?_)
    (fun _ _ => id) (fun _ x hx => Option.some.inj (hx.symm.trans (h.global.turn g howns)))
    hglobal ?_
  · have hxn : x = n := by
      by_contra hxn
      exact hne (hsame x hxn)
    exact ⟨hxn ▸ hwn, rfl⟩
  · rw [Good, hpc', Function.update_self]
    trivial

/-! ### The steps on a thread's own node -/

omit [DecidableEq Socket] in
/-- A thread that only looks goes on. -/
theorem Inv.goto {p₀ : Pc Thread Socket} (h : Inv s lq gq) (hpc : s.pc t = p₀)
    (hbeside : p₀.Beside p) (hgood : Good (s.goto t p) t) : Inv (s.goto t p) lq gq :=
  h.move rfl (hpc ▸ hbeside) (fun _ _ => rfl) (fun _ _ => rfl) (fun _ _ => rfl) (fun _ _ => rfl)
    rfl rfl rfl hgood

omit [DecidableEq Socket] in
/-- A thread outside the queues writes its `next`. -/
theorem Inv.lock (h : Inv s lq gq) {b : Bool} (hpc : s.pc t = .idle) :
    Inv ((s.setNext t none).goto t (.reset b g)) lq gq := by
  refine h.move (p := .reset b g) rfl (hpc ▸ ⟨rfl, rfl, rfl, rfl, rfl, rfl⟩) (fun x hx => ?_)
    (fun _ _ => rfl) (fun _ _ => rfl) (fun _ _ => rfl) rfl rfl rfl ?_
  · refine Function.update_of_ne (hx.resolve_right ?_) ..
    simp [hpc, Pc.waits, Pc.owns]
  · simp [Good, State.goto, State.setNext]

omit [DecidableEq Socket] in
/-- A thread outside the queues writes its `status`. -/
theorem Inv.reset (h : Inv s lq gq) {b : Bool} (hpc : s.pc t = .reset b g) :
    Inv ((s.setStatus t WAIT).goto t (.xchg b g)) lq gq := by
  have hgood := h.good t
  rw [Good, hpc] at hgood
  refine h.move (p := .xchg b g) rfl (hpc ▸ ⟨rfl, rfl, rfl, rfl, rfl, rfl⟩) (fun _ _ => rfl)
    (fun x hx => ?_) (fun _ _ => rfl) (fun _ _ => rfl) rfl rfl rfl ?_
  · refine Function.update_of_ne (hx.resolve_right ?_) ..
    simp [hpc, Pc.waits]
  · simpa [Good, State.goto, State.setStatus] using hgood

omit [DecidableEq Socket] in
/-- The first thread of its socket writes its `status`. -/
theorem Inv.cohort (h : Inv s lq gq) {b : Bool} (hpc : s.pc t = .cohort b g) :
    Inv ((s.setStatus t COHORT_START).goto t (.gnext b g)) lq gq := by
  refine h.move (p := .gnext b g) rfl (hpc ▸ ⟨rfl, rfl, rfl, rfl, rfl, rfl⟩) (fun _ _ => rfl)
    (fun x hx => ?_) (fun _ _ => rfl) (fun _ _ => rfl) rfl rfl rfl ?_
  · refine Function.update_of_ne (hx.resolve_right ?_) ..
    simp [hpc, Pc.waits]
  · simp [Good, State.goto, State.setStatus]

/-- The first thread of its socket writes the `next` of the socket's node. -/
theorem Inv.gnext (h : Inv s lq gq) {b : Bool} (hpc : s.pc t = .gnext b g) :
    Inv ((s.setGnext g none).goto t (.greset b g)) lq gq := by
  have hgood := h.good t
  rw [Good, hpc] at hgood
  refine h.move (p := .greset b g) rfl (hpc ▸ ⟨rfl, rfl, rfl, rfl, rfl, rfl⟩) (fun _ _ => rfl)
    (fun _ _ => rfl) (fun x hx => ?_) (fun _ _ => rfl) rfl rfl rfl ?_
  · refine Function.update_of_ne ?_ ..
    rintro rfl
    simp [hpc, Pc.owns, Pc.gwaits, Pc.gowns] at hx
  · simpa [Good, State.goto, State.setGnext] using hgood

/-- The first thread of its socket writes the `status` of the socket's node. -/
theorem Inv.greset (h : Inv s lq gq) {b : Bool} (hpc : s.pc t = .greset b g) :
    Inv ((s.setGstatus g false).goto t (.gxchg b g)) lq gq := by
  have hgood := h.good t
  rw [Good, hpc] at hgood
  refine h.move (p := .gxchg b g) rfl (hpc ▸ ⟨rfl, rfl, rfl, rfl, rfl, rfl⟩) (fun _ _ => rfl)
    (fun _ _ => rfl) (fun _ _ => rfl) (fun x hx => ?_) rfl rfl rfl ?_
  · refine Function.update_of_ne ?_ ..
    rintro rfl
    simp [hpc, Pc.owns, Pc.gwaits, Pc.gowns] at hx
  · simpa [Good, State.goto, State.setGstatus] using hgood

/-! ### Whole runs -/

/-- What a step makes of the queues and of the counters. -/
structure Effect (s s' : State Thread Socket) (lq lq' : Socket → List Thread)
    (gq gq' : List Socket) : Prop where
  locals : ∀ g, Moved (lq g) (lq' g)
  global : Moved gq gq'
  counts : (s'.inRow = s.inRow ∧ s'.entered = s.entered) ∨
    (s'.inRow = s.inRow + 1 ∧ s'.inRow ≤ RELEASE_THRESHOLD ∧ s'.entered = s.entered + 1 ∧
      gq' = gq) ∨
    s'.inRow = 0 ∧ s'.entered = s.entered ∧ (gq = [] ∨ gq' = gq.tail)

omit [DecidableEq Thread] [DecidableEq Socket] in
theorem Effect.quiet (hrow : s'.inRow = s.inRow) (hentered : s'.entered = s.entered) :
    Effect s s' lq lq gq gq :=
  ⟨fun _ => Or.inl rfl, Or.inl rfl, Or.inl ⟨hrow, hentered⟩⟩

omit [DecidableEq Thread] in
theorem Effect.local {q : List Thread} (hq : Moved (lq g) q) (hrow : s'.inRow = s.inRow)
    (hentered : s'.entered = s.entered) : Effect s s' lq (Function.update lq g q) gq gq := by
  refine ⟨fun g' => ?_, Or.inl rfl, Or.inl ⟨hrow, hentered⟩⟩
  rw [Function.update_apply]
  split
  · rename_i hg
    exact hg ▸ hq
  · exact Or.inl rfl

omit [DecidableEq Thread] [DecidableEq Socket] in
theorem Effect.row {lq' : Socket → List Thread} {gq' : List Socket}
    (h : Effect s s' lq lq' gq gq') (hrow : s.inRow ≤ RELEASE_THRESHOLD) :
    s'.inRow ≤ RELEASE_THRESHOLD := by
  rcases h.counts with ⟨hrow', -⟩ | ⟨-, hless, -⟩ | ⟨hrow', -⟩
  · exact hrow' ▸ hrow
  · exact hless
  · rw [hrow']
    exact Nat.zero_le _

omit [DecidableEq Thread] [DecidableEq Socket] in
theorem Inv.counted (h : Inv s lq gq) (hpc : s.pc t = .holding g) : Counted s t := by
  have := h.good t
  rwa [Good, hpc] at this

omit [DecidableEq Thread] [DecidableEq Socket] in
theorem Effect.enter (h : Inv s' lq gq) (hpc : s'.pc t = .holding g)
    (hrow : s'.inRow = s.inRow + 1) (hentered : s'.entered = s.entered + 1) :
    Effect s s' lq lq gq gq :=
  ⟨fun _ => Or.inl rfl, Or.inl rfl, Or.inr (Or.inl ⟨hrow, (h.counted hpc).2, hentered, rfl⟩)⟩

/-- There are queues after the step, and it has moved them and the counters as it may. -/
def Tracked (s s' : State Thread Socket) (lq : Socket → List Thread) (gq : List Socket) : Prop :=
  ∃ lq' gq', Inv s' lq' gq' ∧ Effect s s' lq lq' gq gq'

omit [DecidableEq Thread] [DecidableEq Socket] in
theorem Inv.quiet (h : Inv s' lq gq) (hrow : s'.inRow = s.inRow)
    (hentered : s'.entered = s.entered) : Tracked s s' lq gq :=
  ⟨lq, gq, h, .quiet hrow hentered⟩

omit [DecidableEq Thread] [DecidableEq Socket] in
/-- A step with which a thread gets the lock. -/
theorem Inv.entered (h : Inv s' lq gq) (hpc : s'.pc t = .holding g)
    (hrow : s'.inRow = s.inRow + 1) (hentered : s'.entered = s.entered + 1) :
    Tracked s s' lq gq :=
  ⟨lq, gq, h, .enter h hpc hrow hentered⟩

omit [DecidableEq Socket] in
/-- A thread that only looks leaves the queues and the counters alone. -/
theorem Inv.onward {p₀ : Pc Thread Socket} (h : Inv s lq gq) (hpc : s.pc t = p₀)
    (hbeside : p₀.Beside p) (hgood : Good (s.goto t p) t) : Tracked s (s.goto t p) lq gq :=
  (h.goto hpc hbeside hgood).quiet rfl rfl

/-! The steps that acquire the lock -/

/-- The exchange with the local tail. -/
theorem Inv.runXchg (h : Inv s lq gq) {b : Bool} (hpc : s.pc t = .xchg b g)
    (hstep : runThread s t = some s') : Tracked s s' lq gq := by
  simp only [runThread, hpc] at hstep
  cases htail : s.tail g with
  | none =>
      simp only [htail] at hstep
      obtain rfl := Option.some.inj hstep
      have hlocal := h.locals g
      rw [Local, htail] at hlocal
      refine ⟨_, gq, h.arriveFirst hpc htail, .local (Or.inr (Or.inl ⟨t, ?_⟩)) rfl rfl⟩
      rw [hlocal.linked.eq_nil]
      rfl
  | some x =>
      cases b with
      | true =>
          simp only [htail] at hstep
          obtain rfl := Option.some.inj hstep
          refine h.onward hpc ⟨rfl, rfl, rfl, rfl, rfl, rfl⟩ ?_
          rw [Good, State.goto_pc]
          trivial
      | false =>
          simp only [htail] at hstep
          obtain rfl := Option.some.inj hstep
          exact ⟨_, gq, h.arriveBehind hpc htail, .local (Or.inr (Or.inl ⟨t, rfl⟩)) rfl rfl⟩

/-- A look at `me->status`: nothing yet, the lock, or the word to acquire the parent. -/
theorem Inv.runWait (h : Inv s lq gq) (hpc : s.pc t = .wait g)
    (hstep : runThread s t = some s') : Tracked s s' lq gq := by
  have hgood := h.good t
  rw [Good, hpc] at hgood
  simp only [runThread, hpc] at hstep
  split at hstep
  · obtain rfl := Option.some.inj hstep
    exact h.quiet rfl rfl
  split at hstep
  · rename_i hless
    obtain rfl := Option.some.inj hstep
    exact (h.enterTold hpc hless).entered (State.goto_pc ..) rfl rfl
  · rename_i hne hless
    obtain rfl := Option.some.inj hstep
    refine (h.enterParent hpc ?_).quiet rfl rfl
    rcases hgood with hwait | hparent | ⟨hcount, hrow⟩
    · exact absurd hwait hne
    · exact hparent
    · have : s.inRow + 1 < ACQUIRE_PARENT := lt_of_le_of_lt hrow (by decide)
      omega

/-- The exchange with the global tail. -/
theorem Inv.runGxchg (h : Inv s lq gq) {b : Bool} (hpc : s.pc t = .gxchg b g)
    (hstep : runThread s t = some s') : Tracked s s' lq gq := by
  simp only [runThread, hpc] at hstep
  cases hgtail : s.gtail with
  | none =>
      simp only [hgtail] at hstep
      obtain rfl := Option.some.inj hstep
      have hglobal := h.global
      rw [Global, hgtail] at hglobal
      obtain rfl := hglobal.linked.eq_nil
      exact ⟨lq, _, h.gfirst hpc hgtail, fun _ => Or.inl rfl, Or.inr (Or.inl ⟨g, rfl⟩),
        Or.inr (Or.inr ⟨rfl, rfl, Or.inl rfl⟩)⟩
  | some x =>
      cases b with
      | true =>
          simp only [hgtail] at hstep
          obtain rfl := Option.some.inj hstep
          refine h.onward hpc ⟨rfl, rfl, rfl, rfl, rfl, rfl⟩ ?_
          rw [Good, State.goto_pc]
          trivial
      | false =>
          simp only [hgtail] at hstep
          obtain rfl := Option.some.inj hstep
          exact ⟨lq, _, h.gbehind hpc hgtail, fun _ => Or.inl rfl, Or.inr (Or.inl ⟨g, rfl⟩),
            Or.inl ⟨rfl, rfl⟩⟩

/-- A look at the `status` of the socket's node. -/
theorem Inv.runGwait (h : Inv s lq gq) (hpc : s.pc t = .gwait g)
    (hstep : runThread s t = some s') : Tracked s s' lq gq := by
  simp only [runThread, hpc] at hstep
  split at hstep
  · rename_i hgranted
    obtain rfl := Option.some.inj hstep
    exact (h.genter hpc hgranted).entered (State.goto_pc ..) rfl rfl
  · obtain rfl := Option.some.inj hstep
    exact h.quiet rfl rfl

/-! The steps that release it -/

/-- A look at `me->next` in `__hmcs_mutex_local_unlock`. -/
theorem Inv.runSucc (h : Inv s lq gq) {k : Nat} (hpc : s.pc t = .succ g k)
    (hstep : runThread s t = some s') : Tracked s s' lq gq := by
  have hgood := h.good t
  rw [Good, hpc] at hgood
  simp only [runThread, hpc] at hstep
  cases hnext : s.next t with
  | none =>
      simp only [hnext] at hstep
      obtain rfl := Option.some.inj hstep
      refine h.onward hpc ⟨rfl, rfl, rfl, rfl, rfl, rfl⟩ ?_
      rw [Good, State.goto_pc]
      trivial
  | some n =>
      simp only [hnext] at hstep
      obtain rfl := Option.some.inj hstep
      refine h.onward hpc ⟨rfl, rfl, rfl, rfl, rfl, rfl⟩ ?_
      rw [Good, State.goto_pc]
      exact ⟨hgood, hnext⟩

/-- The looks at `me->next` in `__hmcs_release_helper`, before the compare-and-swap and in the loop
after it, for the node of the socket and for that of the thread. -/
theorem Inv.runTest (h : Inv s lq gq)
    (hpc : s.pc t = .gtest g ∨ s.pc t = .gwaitNext g ∨ s.pc t = .test g ∨ s.pc t = .waitNext g)
    (hstep : runThread s t = some s') : Tracked s s' lq gq := by
  rcases hpc with hpc | hpc | hpc | hpc <;> simp only [runThread, hpc, Option.some.injEq] at hstep <;>
    subst hstep <;> split
  case inl.isTrue | inr.inr.inl.isTrue =>
    refine h.onward hpc ⟨rfl, rfl, rfl, rfl, rfl, rfl⟩ ?_
    rw [Good, State.goto_pc]
    trivial
  case inr.inl.isTrue | inr.inr.inr.isTrue => exact h.quiet rfl rfl
  all_goals
    rename_i hnext
    refine h.onward hpc ⟨rfl, rfl, rfl, rfl, rfl, rfl⟩ ?_
    rw [Good, State.goto_pc]
    exact hnext

/-- The compare-and-swap on the global tail. -/
theorem Inv.runGcas (h : Inv s lq gq) (hpc : s.pc t = .gcas g)
    (hstep : runThread s t = some s') : Tracked s s' lq gq := by
  simp only [runThread, hpc] at hstep
  split at hstep
  · rename_i hgtail
    obtain rfl := Option.some.inj hstep
    have hglobal := h.global
    rw [Global, hgtail] at hglobal
    refine ⟨lq, _, h.gclose hpc hgtail, fun _ => Or.inl rfl, Or.inr (Or.inr ?_),
      Or.inl ⟨rfl, rfl⟩⟩
    rw [hglobal.alone ⟨t, Or.inl (by rw [hpc]; rfl)⟩]
    rfl
  · rename_i hgtail
    obtain rfl := Option.some.inj hstep
    refine h.onward hpc ⟨rfl, rfl, rfl, rfl, rfl, rfl⟩ ?_
    rw [Good, State.goto_pc]
    exact hgtail

/-- The next socket is told. -/
theorem Inv.runGpass (h : Inv s lq gq) (hpc : s.pc t = .gpass g)
    (hstep : runThread s t = some s') : Tracked s s' lq gq := by
  have hgood := h.good t
  rw [Good, hpc] at hgood
  simp only [runThread, hpc] at hstep
  cases hnext : s.gnext g with
  | none => exact absurd hnext hgood
  | some n =>
      simp only [hnext] at hstep
      obtain rfl := Option.some.inj hstep
      exact ⟨lq, _, h.gpass hpc hnext, fun _ => Or.inl rfl, Or.inr (Or.inr rfl),
        Or.inr (Or.inr ⟨rfl, rfl, Or.inr rfl⟩)⟩

/-- The compare-and-swap on the local tail. -/
theorem Inv.runCas (h : Inv s lq gq) (hpc : s.pc t = .cas g)
    (hstep : runThread s t = some s') : Tracked s s' lq gq := by
  simp only [runThread, hpc] at hstep
  split at hstep
  · rename_i htail
    obtain rfl := Option.some.inj hstep
    have hlocal := h.locals g
    rw [Local, htail] at hlocal
    refine ⟨_, gq, h.close hpc htail, .local (Or.inr (Or.inr ?_)) rfl rfl⟩
    rw [hlocal.alone (by rw [hpc]; rfl)]
    rfl
  · rename_i htail
    obtain rfl := Option.some.inj hstep
    refine h.onward hpc ⟨rfl, rfl, rfl, rfl, rfl, rfl⟩ ?_
    rw [Good, State.goto_pc]
    exact htail

/-- The next thread of the socket is told to acquire the global lock. -/
theorem Inv.runPass (h : Inv s lq gq) (hpc : s.pc t = .pass g)
    (hstep : runThread s t = some s') : Tracked s s' lq gq := by
  have hgood := h.good t
  rw [Good, hpc] at hgood
  simp only [runThread, hpc] at hstep
  cases hnext : s.next t with
  | none => exact absurd hnext hgood
  | some n =>
      simp only [hnext] at hstep
      obtain rfl := Option.some.inj hstep
      exact ⟨_, gq, h.passParent hpc hnext, .local (Or.inr (Or.inr rfl)) rfl rfl⟩

theorem Inv.run (h : Inv s lq gq) (hstep : runThread s t = some s') : Tracked s s' lq gq := by
  have hstep' := hstep
  rw [runThread] at hstep'
  cases hpc : s.pc t <;> rw [hpc] at hstep'
  case idle | holding | failed => cases hstep'
  case reset b g => exact Option.some.inj hstep' ▸ (h.reset hpc).quiet rfl rfl
  case xchg b g => exact h.runXchg hpc hstep
  case link g x => exact Option.some.inj hstep' ▸ (h.link hpc).quiet rfl rfl
  case wait g => exact h.runWait hpc hstep
  case cohort b g => exact Option.some.inj hstep' ▸ (h.cohort hpc).quiet rfl rfl
  case gnext b g => exact Option.some.inj hstep' ▸ (h.gnext hpc).quiet rfl rfl
  case greset b g => exact Option.some.inj hstep' ▸ (h.greset hpc).quiet rfl rfl
  case gxchg b g => exact h.runGxchg hpc hstep
  case glink g x => exact Option.some.inj hstep' ▸ (h.glink hpc).quiet rfl rfl
  case gwait g => exact h.runGwait hpc hstep
  case gfirst g =>
    exact Option.some.inj hstep' ▸ (h.gopen hpc).entered (State.goto_pc ..) rfl rfl
  case succ g k => exact h.runSucc hpc hstep
  case handOn g k n =>
    obtain rfl := Option.some.inj hstep'
    exact ⟨_, gq, h.handOn hpc, .local (Or.inr (Or.inr rfl)) rfl rfl⟩
  case gtest g => exact h.runTest (Or.inl hpc) hstep
  case gcas g => exact h.runGcas hpc hstep
  case gwaitNext g => exact h.runTest (Or.inr (Or.inl hpc)) hstep
  case gpass g => exact h.runGpass hpc hstep
  case test g => exact h.runTest (Or.inr (Or.inr (Or.inl hpc))) hstep
  case cas g => exact h.runCas hpc hstep
  case waitNext g => exact h.runTest (Or.inr (Or.inr (Or.inr hpc))) hstep
  case pass g => exact h.runPass hpc hstep

theorem Inv.step (h : Inv s lq gq) {a : Action Thread Socket} (hstep : Hmcs.step s a = some s') :
    Tracked s s' lq gq := by
  cases a with
  | lock t g b =>
      rw [Hmcs.step] at hstep
      split at hstep
      · rename_i hpc
        obtain rfl := Option.some.inj hstep
        exact (h.lock hpc).quiet rfl rfl
      · cases hstep
  | unlock t =>
      rw [Hmcs.step] at hstep
      cases hpc : s.pc t <;> simp only [hpc] at hstep
      case holding g =>
        obtain rfl := Option.some.inj hstep
        split
        · refine h.onward hpc ⟨rfl, rfl, rfl, rfl, rfl, rfl⟩ ?_
          rw [Good, State.goto_pc]
          trivial
        · rename_i hlimit
          refine h.onward hpc ⟨rfl, rfl, rfl, rfl, rfl, rfl⟩ ?_
          rw [Good, State.goto_pc]
          exact ⟨h.counted hpc, rfl, hlimit⟩
      all_goals cases hstep
  | run t => exact h.run hstep

end Steps

section Runs

variable {s s' : State Thread Socket}

theorem inv_init (next : Thread → Option Thread) (status : Thread → Nat)
    (gnext : Socket → Option Socket) (gstatus : Socket → Bool) :
    Inv (State.init next status gnext gstatus) (fun _ => []) [] := by
  refine ⟨fun g => .nil ?_ ?_, .nil ?_ ?_, fun _ => trivial⟩
  all_goals simp [State.init, Pc.waits, Pc.owns, GWaits, GOwns, Pc.gwaits, Pc.gowns]

variable [DecidableEq Thread] [DecidableEq Socket]

theorem reachable_inv (h : (@machine Thread Socket _ _).Reachable s) :
    ∃ lq gq, Inv s lq gq ∧ s.inRow ≤ RELEASE_THRESHOLD := by
  refine h.invariant (I := fun s => ∃ lq gq, Inv s lq gq ∧ s.inRow ≤ RELEASE_THRESHOLD) ?_ ?_
  · rintro s ⟨next, status, gnext, gstatus, rfl⟩
    exact ⟨_, _, inv_init next status gnext gstatus, Nat.zero_le _⟩
  · rintro s a s' ⟨lq, gq, hinv, hrow⟩ - hstep
    obtain ⟨lq', gq', hinv', heffect⟩ := hinv.step hstep
    exact ⟨lq', gq', hinv', heffect.row hrow⟩

/-- The thread has the lock, or it has been handed to it. -/
def Holds (s : State Thread Socket) (t : Thread) (g : Socket) : Prop :=
  (s.pc t).gowns = some g ∨ (s.pc t).waits = some g ∧ s.status t < ACQUIRE_PARENT

omit [DecidableEq Thread] [DecidableEq Socket] in
/-- It is the first of its socket, and its socket the first of all. -/
theorem Holds.first {lq : Socket → List Thread} {gq : List Socket} {t : Thread} {g : Socket}
    (ht : Holds s t g) (h : Inv s lq gq) : (lq g).head? = some t ∧ gq.head? = some g := by
  refine ⟨?_, h.global.turn g ⟨t, ht⟩⟩
  rcases ht with ht | ⟨hw, hless⟩
  · exact (h.locals g).turn t (Pc.owns_of_gowns ht)
  · refine ((h.locals g).grant t hw).mp fun heq => ?_
    rw [heq] at hless
    exact absurd hless (by decide)

omit [DecidableEq Thread] [DecidableEq Socket] in
theorem Holds.unique {lq : Socket → List Thread} {gq : List Socket} {t u : Thread} {g g' : Socket}
    (h : Inv s lq gq) (ht : Holds s t g) (hu : Holds s u g') : t = u := by
  obtain ⟨hlocal, hglobal⟩ := ht.first h
  obtain ⟨hlocal', hglobal'⟩ := hu.first h
  obtain rfl : g = g' := Option.some.inj (hglobal.symm.trans hglobal')
  exact Option.some.inj (hlocal.symm.trans hlocal')

/-- **Mutual exclusion over all sockets.**  The lock is with one thread, or on its way to one.  What
is written into the `status` of the thread that has it is how many of its socket have had it since
the global lock came to the socket, never more than RELEASE_THRESHOLD and never taken for one of
the two flags; and no NULL is followed. -/
theorem hmcs_mutual_exclusion (h : (@machine Thread Socket _ _).Reachable s) :
    (∀ t u g g', Holds s t g → Holds s u g' → t = u) ∧
    (∀ t g, s.pc t = .holding g → s.status t = s.inRow ∧ s.inRow ≤ RELEASE_THRESHOLD) ∧
    (∀ t g, (s.pc t).waits = some g → s.status t = WAIT ∨ s.status t = ACQUIRE_PARENT ∨
      s.status t = s.inRow + 1 ∧ s.inRow < RELEASE_THRESHOLD) ∧
    ∀ t, s.pc t ≠ .failed := by
  obtain ⟨lq, gq, hinv, -⟩ := reachable_inv h
  refine ⟨fun t u g g' => Holds.unique hinv, fun t g hpc => hinv.counted hpc, fun t g hw => ?_,
    fun t hpc => ?_⟩
  · exact (hinv.good t).told (by rw [hw]; exact Option.some_ne_none g)
  · have := hinv.good t
    rwa [Good, hpc] at this

def start : State Nat Bool := .init (fun _ => none) (fun _ => 0) (fun _ => none) fun _ => false

/-- Thread 0 has the lock, thread 1 waits behind it, and thread 2 waits on the other socket. -/
def waitingRun : List (Action Nat Bool) :=
  .lock 0 false false :: List.replicate 7 (.run 0) ++ .lock 1 false false ::
    List.replicate 3 (.run 1) ++ .lock 2 true false :: List.replicate 7 (.run 2)

/-- Thread 0 hands the lock to thread 1. -/
def handedRun : List (Action Nat Bool) := [.unlock 0, .run 0, .run 0, .run 1]

theorem hmcs_mutual_exclusion_handed : ∃ s, machine.exec start (waitingRun ++ handedRun) = some s ∧
      s.pc 1 = .holding false ∧ s.status 1 = s.inRow ∧ s.inRow = 2 := by
  refine ⟨_, rfl, rfl, ?_, rfl⟩
  exact ((hmcs_mutual_exclusion ⟨start, ⟨_, _, _, _, rfl⟩,
    System.path_of_exec (waitingRun ++ handedRun) rfl⟩).2.1 1 false rfl).1

/-- **Nobody is overtaken.**  While a thread waits in the queue of its socket, no thread of the
socket that came later gets past it, and while a socket waits for the global lock, no socket that
came later gets it. -/
theorem hmcs_no_overtaking (h : (@machine Thread Socket _ _).Reachable s) :
    (∀ t u g, (s.pc u).waits ≠ some g → (s.pc u).owns ≠ some g →
      machine.Path (fun s _ => (s.pc t).waits = some g) s s' → (s'.pc t).waits = some g →
      (s'.pc u).owns ≠ some g) ∧
    ∀ g g', ¬ GWaits s g' → ¬ GOwns s g' → machine.Path (fun s _ => GWaits s g) s s' →
      GWaits s' g → ¬ GOwns s' g' := by
  obtain ⟨lq, gq, hinv, -⟩ := reachable_inv h
  constructor
  · intro t u g hw ho hpath ht'
    have hall : ∃ lq gq, Inv s' lq gq ∧ ((s'.pc t).waits = some g → Unpassed t u (lq g)) := by
      refine hpath.invariant
        (I := fun s => ∃ lq gq, Inv s lq gq ∧ ((s.pc t).waits = some g → Unpassed t u (lq g)))
        ⟨lq, gq, hinv, fun ht => ?_⟩ ?_
      · exact .of_not_mem (((hinv.locals g).mem t).mpr (Or.inl ht))
          (((hinv.locals g).mem u).not.mpr (not_or.mpr ⟨hw, ho⟩))
      · rintro s₁ a s₂ ⟨lq, gq, hinv, hfirst⟩ ht hstep
        obtain ⟨lq', gq', hinv', heffect⟩ := hinv.step hstep
        refine ⟨lq', gq', hinv', fun ht' => ?_⟩
        exact (hfirst ht).moved (heffect.locals g) (hinv.locals g).linked.nodup
          (((hinv'.locals g).mem t).mpr (Or.inl ht'))
    obtain ⟨lq', gq', hinv', hfirst⟩ := hall
    intro hu
    obtain rfl := (hfirst ht').head ((hinv'.locals g).turn u hu)
    exact (hinv'.locals g).apart u ht' hu
  · intro g g' hw ho hpath hg'
    have hall : ∃ lq gq, Inv s' lq gq ∧ (GWaits s' g → Unpassed g g' gq) := by
      refine hpath.invariant
        (I := fun s => ∃ lq gq, Inv s lq gq ∧ (GWaits s g → Unpassed g g' gq))
        ⟨lq, gq, hinv, fun hg => ?_⟩ ?_
      · exact .of_not_mem ((hinv.global.mem g).mpr (Or.inl hg))
          ((hinv.global.mem g').not.mpr (not_or.mpr ⟨hw, ho⟩))
      · rintro s₁ a s₂ ⟨lq, gq, hinv, hfirst⟩ hg hstep
        obtain ⟨lq', gq', hinv', heffect⟩ := hinv.step hstep
        refine ⟨lq', gq', hinv', fun hg' => ?_⟩
        exact (hfirst hg).moved heffect.global hinv.global.linked.nodup
          ((hinv'.global.mem g).mpr (Or.inl hg'))
    obtain ⟨lq', gq', hinv', hfirst⟩ := hall
    intro hu
    obtain rfl := (hfirst hg').head (hinv'.global.turn g' hu)
    exact hinv'.global.apart g' hg' hu

/-- Thread 3 comes to the socket of threads 0 and 1, and thread 0 unlocks. -/
def laterRun : List (Action Nat Bool) :=
  .lock 3 false false :: List.replicate 3 (.run 3) ++ [.unlock 0, .run 0]

theorem hmcs_no_overtaking_later : ∃ s s', machine.exec start waitingRun = some s ∧
      machine.exec s laterRun = some s' ∧ (s'.pc 3).owns ≠ some false := by
  refine ⟨_, _, rfl, rfl, ?_⟩
  exact (hmcs_no_overtaking ⟨start, ⟨_, _, _, _, rfl⟩, System.path_of_exec waitingRun rfl⟩).1
    1 3 false (by decide) (by decide) (System.path_of_restrict laterRun rfl) rfl

omit [DecidableEq Thread] in
/-- The places in front of the socket are each good for a whole row, and what is left of the row
that is under way does not come on top. -/
theorem Effect.entered {lq lq' : Socket → List Thread} {gq gq' : List Socket} {g : Socket} {b : Nat}
    (h : Effect s s' lq lq' gq gq') (hnodup : gq.Nodup) (hg : g ∈ gq) (hg' : g ∈ gq')
    (hrow : s.inRow ≤ RELEASE_THRESHOLD)
    (hb : s.entered + RELEASE_THRESHOLD * gq.idxOf g ≤ b + s.inRow) :
    s'.entered + RELEASE_THRESHOLD * gq'.idxOf g ≤ b + s'.inRow := by
  rcases h.counts with ⟨hrow', hentered⟩ | ⟨hrow', -, hentered, rfl⟩ | ⟨hrow', hentered, rfl | rfl⟩
  · have hle := Nat.mul_le_mul_left RELEASE_THRESHOLD (h.global.idxOf_le hg hnodup hg')
    omega
  · omega
  · cases hg
  · have hplace := congrArg (RELEASE_THRESHOLD * ·) (idxOf_tail hnodup hg')
    simp only [Nat.mul_add, Nat.mul_one] at hplace
    omega

omit [DecidableEq Thread] in
/-- A socket that waits with none in front of it has not had the lock yet. -/
theorem Inv.row_of_gwaits {lq : Socket → List Thread} {gq : List Socket} {g : Socket}
    (h : Inv s lq gq) (hg : GWaits s g) (hplace : gq.idxOf g = 0) : s.inRow = 0 := by
  have hhead : gq.head? = some g := by
    have hmem := (h.global.mem g).mpr (Or.inl hg)
    cases gq with
    | nil => cases hmem
    | cons x gq =>
        by_contra hne
        rw [List.idxOf_cons_ne _ fun heq => hne (congrArg some heq)] at hplace
        cases hplace
  have hgranted := (h.global.grant g hg).mpr hhead
  obtain ⟨t, ht⟩ := hg
  have hgood := h.good t
  unfold Good at hgood
  cases hpc : s.pc t <;> rw [hpc] at ht hgood <;> cases ht
  · exact hgood.2 hgranted
  · exact hgood.2 hgranted

/-- **A row is bounded, and so is the wait of a socket.**  While a socket waits for the global lock,
the lock is had at most RELEASE_THRESHOLD times for each of the others. -/
theorem hmcs_bounded_wait [Fintype Socket]
    (h : (@machine Thread Socket _ _).Reachable s) {g : Socket}
    (hpath : machine.Path (fun s _ => GWaits s g) s s') (hg : GWaits s' g) :
    s'.entered ≤ s.entered + RELEASE_THRESHOLD * (Fintype.card Socket - 1) := by
  obtain ⟨lq, gq, hinv, hrow⟩ := reachable_inv h
  have hall : ∃ lq gq, Inv s' lq gq ∧ s'.inRow ≤ RELEASE_THRESHOLD ∧ (GWaits s' g →
      s'.entered + RELEASE_THRESHOLD * gq.idxOf g ≤
        s.entered + RELEASE_THRESHOLD * (Fintype.card Socket - 1) + s'.inRow) := by
    refine hpath.invariant (I := fun s₁ => ∃ lq gq, Inv s₁ lq gq ∧ s₁.inRow ≤ RELEASE_THRESHOLD ∧
      (GWaits s₁ g → s₁.entered + RELEASE_THRESHOLD * gq.idxOf g ≤
        s.entered + RELEASE_THRESHOLD * (Fintype.card Socket - 1) + s₁.inRow))
      ⟨lq, gq, hinv, hrow, fun hg => ?_⟩ ?_
    · have hless := List.idxOf_lt_length_of_mem ((hinv.global.mem g).mpr (Or.inl hg))
      have hle := hinv.global.linked.nodup.length_le_card
      have := Nat.mul_le_mul_left RELEASE_THRESHOLD
        (show gq.idxOf g ≤ Fintype.card Socket - 1 by omega)
      omega
    · rintro s₁ a s₂ ⟨lq, gq, hinv, hrow, hb⟩ hg hstep
      obtain ⟨lq', gq', hinv', heffect⟩ := hinv.step hstep
      refine ⟨lq', gq', hinv', heffect.row hrow, fun hg' => ?_⟩
      exact heffect.entered hinv.global.linked.nodup ((hinv.global.mem g).mpr (Or.inl hg))
        ((hinv'.global.mem g).mpr (Or.inl hg')) hrow (hb hg)
  obtain ⟨lq', gq', hinv', hrow', hb⟩ := hall
  have hb := hb hg
  by_cases hplace : gq'.idxOf g = 0
  · have := hinv'.row_of_gwaits hg hplace
    omega
  · have := Nat.mul_le_mul_left RELEASE_THRESHOLD (Nat.one_le_iff_ne_zero.mpr hplace)
    omega

theorem hmcs_bounded_wait_handed : ∃ s s', machine.exec start waitingRun = some s ∧
      machine.exec s handedRun = some s' ∧ s'.entered ≤ s.entered + RELEASE_THRESHOLD * 1 := by
  refine ⟨_, _, rfl, rfl, ?_⟩
  refine hmcs_bounded_wait (g := true)
    ⟨start, ⟨_, _, _, _, rfl⟩, System.path_of_exec waitingRun rfl⟩ ?_ ⟨2, rfl⟩
  refine System.Path.mono (G := fun (s : State Nat Bool) _ => (s.pc 2).gwaits = some true)
    (fun _ _ h => ⟨2, h⟩) ?_
  exact System.path_of_restrict handedRun rfl

end Runs

end Dal.Hmcs
