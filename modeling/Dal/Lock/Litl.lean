/-
The two-level lock over a mutex: `try_lock_addr` and `unlock_addr` in the `LITL` + `HANDOVER`
builds that lock the memory node by compare-and-swap.

The local lock is `pthread_mutex_lock` here, whichever lock is linked in for it, and
`ticket_lock` no longer holds tickets: it counts the threads in front of the mutex.  A thread is
counted before it asks for the mutex and counted out after it has got it, so `can_hand_over` may
see a thread that does not wait yet.  It must not see one that will not come: a lock that is
handed over to nobody stays locked on the memory node for ever.

One action is one access to shared memory.  The mutex lets any of the threads in front of it
in; nothing here depends on an order.
-/
import Dal.Lock.Handover
import Dal.Lock.HandTime
import Mathlib.Algebra.BigOperators.Group.Finset.Basic
import Mathlib.Data.Finset.Card

namespace Dal.Litl

open Handover (Thread)
open HandTime (LocalLock minusOne)

/-! ### The machine -/

/-- Where a thread is between `try_lock_addr(l)` and the end of the release of `l`. -/
inductive Pc
  | idle
  /-- `ticket_lock.fetch_add(1)` is done and `pthread_mutex_lock` called. -/
  | waiting (l : LockAddr)
  /-- The mutex is the thread's, `ticket_lock.fetch_add(-1)` is next. -/
  | entered (l : LockAddr)
  /-- The loop around `cas_dm_sync(lock_addr, 0, tag)`. -/
  | cas (l : LockAddr)
  /-- `try_lock_addr` has returned `handover`. -/
  | holding (l : LockAddr) (handover : Bool)
  /-- `can_hand_over` said yes: only the mutex is left to release. -/
  | handing (l : LockAddr)
  /-- `can_hand_over` said no: the write of 0 is next. -/
  | releasing (l : LockAddr)
  /-- The write of 0 is posted, `sync` if the thread waits for it. -/
  | posted (l : LockAddr) (sync : Bool)
  /-- One of the two assertions on the tag failed. -/
  | failed (l : LockAddr)
  deriving DecidableEq

structure State where
  /-- `local_locks` of each node. -/
  locals : Nat → LockAddr → LocalLockNode
  /-- `litl_lock` of each slot: the thread that has the mutex. -/
  mutex : Nat → LockAddr → Option Thread
  /-- The lock words on the memory nodes. -/
  remote : LockAddr → Nat
  /-- The writes of 0 that were posted and not executed yet. -/
  zeros : List LockAddr
  pc : Thread → Pc

def State.setPc (s : State) (t : Thread) (p : Pc) : State :=
  { s with pc := Function.update s.pc t p }

def State.setLocal (s : State) (n : Nat) (l : LockAddr) (node : LocalLockNode) : State :=
  { s with locals := fun n' l' => if n' = n ∧ l' = l then node else s.locals n' l' }

def State.setMutex (s : State) (n : Nat) (l : LockAddr) (o : Option Thread) : State :=
  { s with mutex := fun n' l' => if n' = n ∧ l' = l then o else s.mutex n' l' }

/-- The state `Tree::Tree` and `DSM::DSM` leave. -/
def State.init : State where
  locals := fun _ _ => LocalLockNode.init
  mutex := fun _ _ => none
  remote := fun _ => 0
  zeros := []
  pc := fun _ => .idle

inductive Action
  /-- An idle thread calls `try_lock_addr(l)` and is counted. -/
  | acquire (t : Thread) (l : LockAddr)
  /-- The thread's next step; `sync` says how a write of 0 is posted. -/
  | run (t : Thread) (sync : Bool)
  /-- The memory node executes a posted write of 0. -/
  | land (l : LockAddr)

/-- `releases_local_lock`. -/
def releaseLocal (s : State) (t : Thread) (l : LockAddr) : State :=
  (s.setMutex t.node l none).setPc t .idle

/-- The next step of a thread that is in `try_lock_addr` or releasing. -/
def runThread (maxHandover : Nat) (s : State) (t : Thread) (sync : Bool) : Option State :=
  match s.pc t with
  | .idle => none
  | .failed _ => none
  | .waiting l =>
      if s.mutex t.node l = none then
        some ((s.setMutex t.node l (some t)).setPc t (.entered l))
      else none
  | .entered l =>
      let node := LocalLock.litl.admitted (s.locals t.node l)
      some ((s.setLocal t.node l node).setPc t
        (if node.handOver then .holding l true else .cas l))
  | .cas l =>
      if t.tag / 2 ^ 32 < MAX_MACHINE ∧ t.tag % 2 ^ 32 < MAX_APP_THREAD then
        if s.remote l = 0 then
          some { s.setPc t (.holding l false) with remote := Function.update s.remote l t.tag }
        else
          some s
      else
        some (s.setPc t (.failed l))
  | .holding l _ =>
      let node := LocalLock.litl.canHandOver maxHandover (s.locals t.node l)
      some ((s.setLocal t.node l node).setPc t
        (if node.handOver then .handing l else .releasing l))
  | .handing l => some (releaseLocal s t l)
  | .releasing l => some { s.setPc t (.posted l sync) with zeros := l :: s.zeros }
  | .posted l sync' =>
      if sync' = true ∧ l ∈ s.zeros then none else some (releaseLocal s t l)

def step (maxHandover : Nat) (s : State) : Action → Option State
  | .acquire t l =>
      match s.pc t with
      | .idle => some ((s.setLocal t.node l ((s.locals t.node l).fetchAdd 1)).setPc t (.waiting l))
      | _ => none
  | .run t sync => runThread maxHandover s t sync
  | .land l =>
      if l ∈ s.zeros then
        some { s with remote := Function.update s.remote l 0, zeros := s.zeros.erase l }
      else none

/-- Any number of nodes and threads, any interleaving. -/
def machine (maxHandover : Nat) : System State Action where
  Init := (· = State.init)
  step := step maxHandover

/-! ### What the program counters say -/

/-- The lock whose count has the thread in it. -/
def Pc.counted : Pc → Option LockAddr
  | .waiting l | .entered l => some l
  | _ => none

/-- The lock whose mutex the thread has. -/
def Pc.inside : Pc → Option LockAddr
  | .entered l | .cas l | .holding l _ | .handing l | .releasing l | .posted l _
  | .failed l => some l
  | .idle | .waiting _ => none

/-- The lock a thread is between the return of `try_lock_addr` and the release of. -/
def Pc.critical : Pc → Option LockAddr
  | .holding l _ | .handing l | .releasing l => some l
  | _ => none

/-- What `hand_over` has to be while a thread is there, where the code settles it. -/
def Pc.flag : Pc → Option (LockAddr × Bool)
  | .handing l | .holding l true => some (l, true)
  | .cas l | .holding l false | .releasing l | .posted l _ | .failed l => some (l, false)
  | .idle | .waiting _ | .entered _ => none

theorem inside_of_critical {p : Pc} {l : LockAddr} (h : p.critical = some l) :
    p.inside = some l := by
  cases p with
  | holding l' b => exact h
  | handing l' => exact h
  | releasing l' => exact h
  | _ => cases h

theorem inside_of_flag {p : Pc} {l : LockAddr} {b : Bool} (h : p.flag = some (l, b)) :
    p.inside = some l := by
  cases p with
  | holding l' b' => cases b' <;> cases h <;> rfl
  | _ => cases h <;> rfl

/-- Node `n` owns the remote lock: a thread of it is critical, or the next one will be. -/
def Owns (s : State) (n : Nat) (l : LockAddr) : Prop :=
  (s.locals n l).handOver = true ∨ ∃ t, t.node = n ∧ (s.pc t).critical = some l

/-- `threads` are the threads of node `n` that the count of `l` has in it. -/
def Counts (s : State) (n : Nat) (l : LockAddr) (threads : Finset Thread) : Prop :=
  ∀ t, t ∈ threads ↔ t.node = n ∧ (s.pc t).counted = some l

/-- What ties the count, the mutex, the flag and the remote word together. -/
structure Inv (s : State) : Prop where
  mutex : ∀ n l t, s.mutex n l = some t ↔ t.node = n ∧ (s.pc t).inside = some l
  count : ∀ n l, ∃ threads, Counts s n l threads ∧ (s.locals n l).ticketLock = threads.card
  flags : ∀ t l b, (s.pc t).flag = some (l, b) → (s.locals t.node l).handOver = b
  /-- The word stays as it was until the posted 0 is executed, and only one 0 is posted. -/
  pending : ∀ l ∈ s.zeros, s.remote l ≠ 0
  once : s.zeros.Nodup
  /-- The owner's tag is in the word and nothing is about to overwrite it. -/
  owned : ∀ n l, Owns s n l → s.remote l ≠ 0 ∧ s.remote l / 2 ^ 32 = n ∧ l ∉ s.zeros
  /-- Who takes the mutex next finds `hand_over` as the last one left it. -/
  handed : ∀ t l, s.pc t = .handing l → ∃ u, u.node = t.node ∧ s.pc u = .waiting l
  taken : ∀ n l, (s.locals n l).handOver = true →
    ∃ t, t.node = n ∧ ((s.pc t).inside = some l ∨ s.pc t = .waiting l)
  /-- A word that is not 0 and stays is somebody's. -/
  kept : ∀ l, s.remote l ≠ 0 → l ∉ s.zeros → ∃ n, Owns s n l

/-! ### The count -/

section Count

variable {s s' : State} {n : Nat} {l : LockAddr} {threads : Finset Thread} {t : Thread}

theorem Counts.congr (h : Counts s n l threads)
    (hsame : ∀ u, u.node = n → ((s'.pc u).counted = some l ↔ (s.pc u).counted = some l)) :
    Counts s' n l threads := by
  intro u
  rw [h u]
  constructor
  · rintro ⟨hn, hu⟩
    exact ⟨hn, (hsame u hn).mpr hu⟩
  · rintro ⟨hn, hu⟩
    exact ⟨hn, (hsame u hn).mp hu⟩

/-- The threads of one node are told apart by their `thread_id`, an `int`. -/
theorem Counts.card_le (h : Counts s n l threads) : threads.card ≤ 2 ^ 31 := by
  have hinj : Set.InjOn Thread.id threads := by
    intro t ht u hu hid
    have htn := ((h t).mp ht).1
    have hun := ((h u).mp hu).1
    cases t
    cases u
    cases htn
    cases hun
    cases hid
    rfl
  calc threads.card = (threads.image Thread.id).card := (Finset.card_image_of_injOn hinj).symm
    _ ≤ (Finset.range (2 ^ 31)).card := by
        refine Finset.card_le_card fun k hk => ?_
        obtain ⟨t, -, rfl⟩ := Finset.mem_image.mp hk
        exact Finset.mem_range.mpr t.id_lt
    _ = 2 ^ 31 := Finset.card_range _

/-- One more thread is counted. -/
theorem Counts.insert (h : Counts s n l threads) (htn : t.node = n)
    (hnew : (s.pc t).counted ≠ some l) :
    Counts (s.setPc t (.waiting l)) n l (Insert.insert t threads) ∧
      (Insert.insert t threads).card = threads.card + 1 := by
  have hnot : t ∉ threads := fun ht => hnew ((h t).mp ht).2
  refine ⟨fun u => ?_, Finset.card_insert_of_notMem hnot⟩
  rw [Finset.mem_insert, h u]
  by_cases hut : u = t
  · subst hut
    simp [State.setPc, Pc.counted, htn]
  · simp [State.setPc, hut]

/-- `fetch_add(-1)` on a count that is positive and does not wrap. -/
theorem litl_counts_out (node : LocalLockNode) {k : Nat} (hk : node.ticketLock = k + 1)
    (hle : k + 1 ≤ 2 ^ 31) : (LocalLock.litl.admitted node).ticketLock = k := by
  rw [LocalLock.admitted, LocalLockNode.countHolder_ticketLock, LocalLockNode.fetchAdd, minusOne]
  show (node.ticketLock + (2 ^ 64 - 1)) % 2 ^ 64 = k
  omega

theorem litl_handOver (node : LocalLockNode) :
    (LocalLock.litl.admitted node).handOver = node.handOver := by
  rw [LocalLock.admitted, LocalLockNode.countHolder_handOver, LocalLockNode.fetchAdd_handOver]

/-- A thread that has the mutex is counted out. -/
theorem Counts.erase (h : Counts s n l threads) (htn : t.node = n)
    (hold : (s.pc t).counted = some l) {p : Pc} (hp : p.counted = none) :
    Counts (s.setPc t p) n l (threads.erase t) ∧
      (threads.erase t).card + 1 = threads.card := by
  have hmem : t ∈ threads := (h t).mpr ⟨htn, hold⟩
  refine ⟨fun u => ?_, Finset.card_erase_add_one hmem⟩
  rw [Finset.mem_erase, h u]
  by_cases hut : u = t
  · subst hut
    simp [State.setPc, hp]
  · simp [State.setPc, hut]

end Count

/-! ### One step keeps it -/

section Steps

variable {s : State} {t : Thread} {l : LockAddr}

/-- A thread that stays on its side of the mutex. -/
theorem Inv.mutex_stay (h : Inv s) {s' : State} {p : Pc} (hin : p.inside = (s.pc t).inside)
    (hpc : s'.pc = Function.update s.pc t p) (hmutex : s'.mutex = s.mutex) (n : Nat)
    (l' : LockAddr) (u : Thread) :
    s'.mutex n l' = some u ↔ u.node = n ∧ (s'.pc u).inside = some l' := by
  rw [hmutex, hpc, h.mutex n l' u, Function.update_apply]
  split
  · rename_i hut
    rw [hut, hin]
  · rfl

/-- A thread that was not counted and is not. -/
theorem Inv.count_stay (h : Inv s) {s' : State} {p : Pc} (hcounted : p.counted = (s.pc t).counted)
    (hpc : s'.pc = Function.update s.pc t p)
    (hticket : ∀ n l', (s'.locals n l').ticketLock = (s.locals n l').ticketLock) (n : Nat)
    (l' : LockAddr) :
    ∃ threads, Counts s' n l' threads ∧ (s'.locals n l').ticketLock = threads.card := by
  obtain ⟨threads, hcounts, hcard⟩ := h.count n l'
  refine ⟨threads, hcounts.congr fun u hu => ?_, (hticket n l').trans hcard⟩
  rw [hpc, Function.update_apply]
  split
  · rename_i hut
    rw [hut, hcounted]
  · rfl

/-- One more thread comes, and is counted. -/
theorem Inv.acquire (h : Inv s) (hpc : s.pc t = .idle) :
    Inv ((s.setLocal t.node l ((s.locals t.node l).fetchAdd 1)).setPc t (.waiting l)) := by
  constructor
  case mutex => exact h.mutex_stay (by rw [hpc]; rfl) rfl rfl
  case count =>
    intro n l'
    obtain ⟨threads, hcounts, hcard⟩ := h.count n l'
    by_cases hn : n = t.node ∧ l' = l
    · obtain ⟨rfl, rfl⟩ := hn
      obtain ⟨hcounts', hcard'⟩ := hcounts.insert rfl (by simp [hpc, Pc.counted])
      refine ⟨_, hcounts', ?_⟩
      have hle := hcounts.card_le
      simp only [State.setPc, State.setLocal, and_self, if_true, LocalLockNode.fetchAdd]
      omega
    · refine ⟨threads, hcounts.congr fun u hu => ?_, ?_⟩
      · simp only [State.setPc, State.setLocal, Function.update_apply]
        grind [Pc.counted]
      · simpa [State.setPc, State.setLocal, hn] using hcard
  case flags =>
    intro u l' b hu
    have := h.flags u l' b
    simp only [State.setPc, State.setLocal, Function.update_apply] at hu ⊢
    grind [Pc.flag, LocalLockNode.fetchAdd_handOver]
  case pending => exact h.pending
  case once => exact h.once
  case owned =>
    intro n l' hn
    refine h.owned n l' ?_
    simp only [Owns, State.setLocal, State.setPc, Function.update_apply] at hn ⊢
    grind [Pc.critical, LocalLockNode.fetchAdd_handOver]
  case handed =>
    intro u l' hu
    have := h.handed u l'
    simp only [State.setPc, State.setLocal, Function.update_apply] at hu ⊢
    grind
  case taken =>
    intro n l' hn
    have := h.taken n l'
    simp only [State.setPc, State.setLocal, Function.update_apply] at hn ⊢
    grind [Pc.inside, LocalLockNode.fetchAdd_handOver]
  case kept =>
    intro l' hl hz
    obtain ⟨n, hn⟩ := h.kept l' hl hz
    refine ⟨n, ?_⟩
    simp only [Owns, State.setLocal, State.setPc, Function.update_apply] at hn ⊢
    grind [Pc.critical, LocalLockNode.fetchAdd_handOver]

/-- The mutex of a node has one thread at most. -/
theorem Inv.inside_unique (h : Inv s) {u : Thread} (ht : (s.pc t).inside = some l)
    (hu : (s.pc u).inside = some l) (hnode : t.node = u.node) : t = u := by
  have htm := (h.mutex t.node l t).mpr ⟨rfl, ht⟩
  have hum := (h.mutex t.node l u).mpr ⟨hnode.symm, hu⟩
  exact Option.some.inj (htm.symm.trans hum)

/-- `pthread_mutex_lock` returns. -/
theorem Inv.enter (h : Inv s) (hpc : s.pc t = .waiting l) (hfree : s.mutex t.node l = none) :
    Inv ((s.setMutex t.node l (some t)).setPc t (.entered l)) := by
  have hnone : ∀ u, u.node = t.node → (s.pc u).inside ≠ some l := fun u hun hu =>
    Option.some_ne_none u (((h.mutex t.node l u).mpr ⟨hun, hu⟩).symm.trans hfree)
  constructor
  case mutex =>
    intro n l' u
    have := h.mutex n l' u
    have := hnone u
    simp only [State.setPc, State.setMutex, Function.update_apply]
    grind [Pc.inside]
  case count => exact h.count_stay (by rw [hpc]; rfl) rfl fun _ _ => rfl
  case flags =>
    intro u l' b hu
    have := h.flags u l' b
    simp only [State.setPc, State.setMutex, Function.update_apply] at hu ⊢
    grind [Pc.flag]
  case pending => exact h.pending
  case once => exact h.once
  case owned =>
    intro n l' hn
    refine h.owned n l' ?_
    simp only [Owns, State.setMutex, State.setPc, Function.update_apply] at hn ⊢
    grind [Pc.critical]
  case handed =>
    intro u l' hu
    have := h.handed u l'
    have := hnone u
    simp only [State.setPc, State.setMutex, Function.update_apply] at hu ⊢
    grind [Pc.inside]
  case taken =>
    intro n l' hn
    have := h.taken n l' hn
    simp only [State.setPc, State.setMutex, Function.update_apply] at hn ⊢
    grind [Pc.inside]
  case kept =>
    intro l' hl hz
    obtain ⟨n, hn⟩ := h.kept l' hl hz
    refine ⟨n, ?_⟩
    simp only [Owns, State.setMutex, State.setPc, Function.update_apply] at hn ⊢
    grind [Pc.critical]

/-- `ticket_lock.fetch_add(-1)`, and `hand_over` is looked at. -/
theorem Inv.countOut (h : Inv s) (hpc : s.pc t = .entered l) :
    Inv ((s.setLocal t.node l (LocalLock.litl.admitted (s.locals t.node l))).setPc t
      (if (LocalLock.litl.admitted (s.locals t.node l)).handOver then .holding l true
        else .cas l)) := by
  have hflag := litl_handOver (s.locals t.node l)
  have hticket := fun k => litl_counts_out (s.locals t.node l) (k := k)
  generalize LocalLock.litl.admitted (s.locals t.node l) = node at *
  constructor
  case mutex => exact h.mutex_stay (by rw [hpc]; split <;> rfl) rfl rfl
  case count =>
    intro n l'
    obtain ⟨threads, hcounts, hcard⟩ := h.count n l'
    by_cases hn : n = t.node ∧ l' = l
    · obtain ⟨rfl, rfl⟩ := hn
      obtain ⟨hcounts', hcard'⟩ := hcounts.erase rfl (by rw [hpc]; rfl)
        (p := if node.handOver then .holding l' true else .cas l') (by split <;> rfl)
      refine ⟨_, hcounts', ?_⟩
      have hle := hcounts.card_le
      simp only [State.setPc, State.setLocal, and_self, if_true]
      exact hticket _ (hcard.trans hcard'.symm) (hcard'.trans_le hle)
    · refine ⟨threads, hcounts.congr fun u hu => ?_, ?_⟩
      · simp only [State.setPc, State.setLocal, Function.update_apply]
        grind [Pc.counted]
      · simpa [State.setPc, State.setLocal, hn] using hcard
  case flags =>
    intro u l' b hu
    have := h.flags u l' b
    simp only [State.setPc, State.setLocal, Function.update_apply] at hu ⊢
    grind [Pc.flag]
  case pending => exact h.pending
  case once => exact h.once
  case owned =>
    intro n l' hn
    refine h.owned n l' ?_
    simp only [Owns, State.setLocal, State.setPc, Function.update_apply] at hn ⊢
    grind [Pc.critical]
  case handed =>
    intro u l' hu
    have := h.handed u l'
    simp only [State.setPc, State.setLocal, Function.update_apply] at hu ⊢
    grind
  case taken =>
    intro n l' hn
    have := h.taken n l'
    simp only [State.setPc, State.setLocal, Function.update_apply] at hn ⊢
    grind [Pc.inside]
  case kept =>
    intro l' hl hz
    obtain ⟨n, hn⟩ := h.kept l' hl hz
    refine ⟨n, ?_⟩
    simp only [Owns, State.setLocal, State.setPc, Function.update_apply] at hn ⊢
    grind [Pc.critical]

/-- A yes of `can_hand_over` is about a thread that waits for the mutex. -/
theorem Inv.someone (h : Inv s) {m : Nat} (hin : (s.pc t).inside = some l)
    (hnot : (s.pc t).counted = none)
    (hyes : (LocalLock.litl.canHandOver m (s.locals t.node l)).handOver = true) :
    ∃ u, u.node = t.node ∧ s.pc u = .waiting l := by
  simp only [LocalLock.canHandOver, Bool.and_eq_true, decide_eq_true_eq] at hyes
  obtain ⟨threads, hcounts, hcard⟩ := h.count t.node l
  obtain ⟨u, hu⟩ := Finset.card_pos.mp (hcard ▸ hyes.1)
  obtain ⟨hun, hcounted⟩ := (hcounts u).mp hu
  refine ⟨u, hun, ?_⟩
  cases hpc : s.pc u with
  | waiting l' =>
      rw [hpc] at hcounted
      exact congrArg Pc.waiting (Option.some.inj hcounted)
  | entered l' =>
      rw [hpc] at hcounted
      have huin : (s.pc u).inside = some l := by rw [hpc]; exact hcounted
      have hut := h.inside_unique huin hin hun
      rw [← hut, hpc] at hnot
      cases hnot
  | _ =>
      rw [hpc] at hcounted
      cases hcounted

/-- `can_hand_over`: only the holder changes the flag, so nobody else relies on it. -/
theorem Inv.decide (h : Inv s) (m : Nat) {b : Bool} (hpc : s.pc t = .holding l b) :
    Inv ((s.setLocal t.node l (LocalLock.litl.canHandOver m (s.locals t.node l))).setPc t
      (if (LocalLock.litl.canHandOver m (s.locals t.node l)).handOver then .handing l
        else .releasing l)) := by
  have hin : (s.pc t).inside = some l := by rw [hpc]; rfl
  have howns : Owns s t.node l := Or.inr ⟨t, rfl, by rw [hpc]; rfl⟩
  have hsomeone := h.someone (m := m) hin (by rw [hpc]; rfl)
  have hticket : (LocalLock.litl.canHandOver m (s.locals t.node l)).ticketLock =
      (s.locals t.node l).ticketLock := rfl
  have hothers : ∀ u b, u ≠ t → u.node = t.node → (s.pc u).flag ≠ some (l, b) :=
    fun u b hne hun hu => hne (h.inside_unique (inside_of_flag hu) hin hun)
  generalize LocalLock.litl.canHandOver m (s.locals t.node l) = node at *
  constructor
  case mutex => exact h.mutex_stay (by rw [hpc]; split <;> rfl) rfl rfl
  case count =>
    refine h.count_stay (by rw [hpc]; split <;> rfl) rfl fun n l' => ?_
    simp only [State.setPc, State.setLocal]
    grind
  case flags =>
    intro u l' b hu
    have := h.flags u l' b
    have := hothers u b
    simp only [State.setPc, State.setLocal, Function.update_apply] at hu ⊢
    grind [Pc.flag]
  case pending => exact h.pending
  case once => exact h.once
  case owned =>
    intro n l' hn
    refine h.owned n l' ?_
    by_cases hn' : n = t.node ∧ l' = l
    · obtain ⟨rfl, rfl⟩ := hn'
      exact howns
    · simp only [Owns, State.setLocal, State.setPc, Function.update_apply] at hn ⊢
      grind [Pc.critical]
  case handed =>
    intro u l' hu
    have := h.handed u l'
    simp only [State.setPc, State.setLocal, Function.update_apply] at hu ⊢
    grind
  case taken =>
    intro n l' hn
    have := h.taken n l'
    simp only [State.setPc, State.setLocal, Function.update_apply] at hn ⊢
    grind [Pc.inside]
  case kept =>
    intro l' hl hz
    obtain ⟨n, hn⟩ := h.kept l' hl hz
    refine ⟨n, ?_⟩
    simp only [Owns, State.setLocal, State.setPc, Function.update_apply] at hn ⊢
    grind [Pc.critical]

/-- A successful `cas_dm_sync`: nobody owned the word it found zero. -/
theorem Inv.cas (h : Inv s) (hpc : s.pc t = .cas l) (hzero : s.remote l = 0) :
    Inv { s.setPc t (.holding l false) with remote := Function.update s.remote l t.tag } := by
  have hnode : t.tag / 2 ^ 32 = t.node := by
    have hid := t.id_lt
    unfold Thread.tag
    omega
  have htag : t.tag ≠ 0 := by unfold Thread.tag; omega
  have hfree : ∀ n, ¬ Owns s n l := fun n hn => (h.owned n l hn).1 hzero
  have hnotPending : l ∉ s.zeros := fun hl => h.pending l hl hzero
  constructor
  case mutex => exact h.mutex_stay (by rw [hpc]; rfl) rfl rfl
  case count => exact h.count_stay (by rw [hpc]; rfl) rfl fun _ _ => rfl
  case flags =>
    intro u l' b hu
    have := h.flags u l' b
    simp only [State.setPc, Function.update_apply] at hu ⊢
    grind [Pc.flag]
  case pending =>
    intro l' hl'
    have := h.pending l' hl'
    simp only [Function.update_apply]
    grind
  case once => exact h.once
  case owned =>
    intro n l' hn
    by_cases hl' : l' = l
    · subst hl'
      have hn' : n = t.node := by
        rcases hn with hn | ⟨u, hun, hu⟩
        · exact absurd (Or.inl hn) (hfree n)
        · by_cases hut : u = t
          · rw [← hun, hut]
          · refine absurd (Or.inr ⟨u, hun, ?_⟩) (hfree n)
            simpa [State.setPc, hut] using hu
      subst hn'
      exact ⟨by simpa using htag, by simpa using hnode, hnotPending⟩
    · have hold : Owns s n l' := by
        simp only [Owns, State.setPc, Function.update_apply] at hn ⊢
        grind [Pc.critical]
      simp only [Function.update_of_ne hl']
      exact h.owned n l' hold
  case handed =>
    intro u l' hu
    have := h.handed u l'
    simp only [State.setPc, Function.update_apply] at hu ⊢
    grind
  case taken =>
    intro n l' hn
    have := h.taken n l' hn
    simp only [State.setPc, Function.update_apply]
    grind [Pc.inside]
  case kept =>
    intro l' hl hz
    by_cases hl' : l' = l
    · subst hl'
      exact ⟨t.node, Or.inr ⟨t, rfl, by simp [State.setPc, Pc.critical]⟩⟩
    · simp only [Function.update_of_ne hl'] at hl
      obtain ⟨n, hn⟩ := h.kept l' hl hz
      refine ⟨n, ?_⟩
      simp only [Owns, State.setPc, Function.update_apply] at hn ⊢
      grind [Pc.critical]

/-- An assertion on the tag fails: the thread keeps the mutex. -/
theorem Inv.fail (h : Inv s) (hpc : s.pc t = .cas l) : Inv (s.setPc t (.failed l)) := by
  constructor
  case mutex => exact h.mutex_stay (by rw [hpc]; rfl) rfl rfl
  case count => exact h.count_stay (by rw [hpc]; rfl) rfl fun _ _ => rfl
  case flags =>
    intro u l' b hu
    have := h.flags u l' b
    simp only [State.setPc, Function.update_apply] at hu ⊢
    grind [Pc.flag]
  case pending => exact h.pending
  case once => exact h.once
  case owned =>
    intro n l' hn
    refine h.owned n l' ?_
    simp only [Owns, State.setPc, Function.update_apply] at hn ⊢
    grind [Pc.critical]
  case handed =>
    intro u l' hu
    have := h.handed u l'
    simp only [State.setPc, Function.update_apply] at hu ⊢
    grind
  case taken =>
    intro n l' hn
    have := h.taken n l' hn
    simp only [State.setPc, Function.update_apply]
    grind [Pc.inside]
  case kept =>
    intro l' hl hz
    obtain ⟨n, hn⟩ := h.kept l' hl hz
    refine ⟨n, ?_⟩
    simp only [Owns, State.setPc, Function.update_apply] at hn ⊢
    grind [Pc.critical]

/-- `pthread_mutex_unlock`, by the thread that hands over or the one whose 0 is posted. -/
theorem Inv.release (h : Inv s)
    (hpc : s.pc t = .handing l ∨ ∃ sync, s.pc t = .posted l sync) : Inv (releaseLocal s t l) := by
  have hin : (s.pc t).inside = some l := by
    rcases hpc with hpc | ⟨sync, hpc⟩ <;> rw [hpc] <;> rfl
  have hcounted : Pc.idle.counted = (s.pc t).counted := by
    rcases hpc with hpc | ⟨sync, hpc⟩ <;> rw [hpc] <;> rfl
  have hcritical : ∀ l', (s.pc t).critical = some l' → l' = l ∧ s.pc t = .handing l := by
    intro l' hl'
    rcases hpc with hpc | ⟨sync, hpc⟩ <;> rw [hpc] at hl' ⊢ <;> cases hl'
    exact ⟨rfl, rfl⟩
  have hflag : s.pc t = .handing l → (s.locals t.node l).handOver = true :=
    fun hh => h.flags t l true (by rw [hh]; rfl)
  have hnext : (s.locals t.node l).handOver = true →
      ∃ u, u.node = t.node ∧ s.pc u = .waiting l := by
    intro hyes
    rcases hpc with hpc | ⟨sync, hpc⟩
    · exact h.handed t l hpc
    · have hno := h.flags t l false (by rw [hpc]; rfl)
      exact absurd (hno.symm.trans hyes) Bool.false_ne_true
  constructor
  case mutex =>
    intro n l' u
    have := h.mutex n l' u
    have := h.inside_unique (u := u) hin
    simp only [releaseLocal, State.setPc, State.setMutex, Function.update_apply]
    grind [Pc.inside]
  case count => exact h.count_stay hcounted rfl fun _ _ => rfl
  case flags =>
    intro u l' b hu
    have := h.flags u l' b
    simp only [releaseLocal, State.setPc, State.setMutex, Function.update_apply] at hu ⊢
    grind [Pc.flag]
  case pending => exact h.pending
  case once => exact h.once
  case owned =>
    intro n l' hn
    refine h.owned n l' ?_
    simp only [Owns, releaseLocal, State.setMutex, State.setPc, Function.update_apply] at hn ⊢
    grind [Pc.critical]
  case handed =>
    intro u l' hu
    have := h.handed u l'
    simp only [releaseLocal, State.setPc, State.setMutex, Function.update_apply] at hu ⊢
    grind
  case taken =>
    intro n l' hn
    have := h.taken n l' hn
    simp only [releaseLocal, State.setPc, State.setMutex, Function.update_apply] at hn ⊢
    by_cases hn' : n = t.node ∧ l' = l
    · obtain ⟨rfl, rfl⟩ := hn'
      obtain ⟨u, hun, hu⟩ := hnext hn
      refine ⟨u, hun, Or.inr ?_⟩
      rwa [if_neg]
      rintro rfl
      rw [hu] at hin
      cases hin
    · grind [Pc.inside]
  case kept =>
    intro l' hl hz
    obtain ⟨n, hn⟩ := h.kept l' hl hz
    refine ⟨n, ?_⟩
    simp only [Owns, releaseLocal, State.setMutex, State.setPc, Function.update_apply] at hn ⊢
    rcases hn with hn | ⟨u, hun, hu⟩
    · exact Or.inl hn
    · by_cases hut : u = t
      · subst hut
        obtain ⟨rfl, hhand⟩ := hcritical l' hu
        exact Or.inl (hun ▸ hflag hhand)
      · exact Or.inr ⟨u, hun, by rwa [if_neg hut]⟩

/-- Posting the write of 0: from here on nobody owns the word. -/
theorem Inv.post (h : Inv s) (hpc : s.pc t = .releasing l) (sync : Bool) :
    Inv { s.setPc t (.posted l sync) with zeros := l :: s.zeros } := by
  have howns : Owns s t.node l := Or.inr ⟨t, rfl, by rw [hpc]; rfl⟩
  obtain ⟨hne, hnode, hnotPending⟩ := h.owned t.node l howns
  have hflag : (s.locals t.node l).handOver = false := h.flags t l false (by rw [hpc]; rfl)
  have hin : (s.pc t).inside = some l := by rw [hpc]; rfl
  constructor
  case mutex => exact h.mutex_stay (by rw [hpc]; rfl) rfl rfl
  case count => exact h.count_stay (by rw [hpc]; rfl) rfl fun _ _ => rfl
  case flags =>
    intro u l' b hu
    have := h.flags u l' b
    simp only [State.setPc, Function.update_apply] at hu ⊢
    grind [Pc.flag]
  case pending =>
    intro l' hl'
    rcases List.mem_cons.mp hl' with rfl | hl'
    · exact hne
    · exact h.pending l' hl'
  case once => exact List.nodup_cons.mpr ⟨hnotPending, h.once⟩
  case owned =>
    intro n l' hn
    have hold : Owns s n l' := by
      simp only [Owns, State.setPc, Function.update_apply] at hn ⊢
      grind [Pc.critical]
    obtain ⟨hr, hd, hz⟩ := h.owned n l' hold
    refine ⟨hr, hd, fun hmem => (List.mem_cons.mp hmem).elim ?_ hz⟩
    -- the word is this node's, where the flag is down and nobody else has the mutex
    rintro rfl
    obtain rfl : n = t.node := hd.symm.trans hnode
    rcases hn with hn | ⟨u, hun, hu⟩
    · exact absurd (hflag.symm.trans hn) Bool.false_ne_true
    · have hut : u ≠ t := by
        rintro rfl
        simp [State.setPc, Pc.critical] at hu
      have hu' : (s.pc u).critical = some l' := by simpa [State.setPc, hut] using hu
      exact hut (h.inside_unique (inside_of_critical hu') hin hun)
  case handed =>
    intro u l' hu
    have := h.handed u l'
    simp only [State.setPc, Function.update_apply] at hu ⊢
    grind
  case taken =>
    intro n l' hn
    have := h.taken n l' hn
    simp only [State.setPc, Function.update_apply]
    grind [Pc.inside]
  case kept =>
    intro l' hl hz
    obtain ⟨hl', hz'⟩ := not_or.mp (fun hor => hz (List.mem_cons.mpr hor))
    obtain ⟨n, hn⟩ := h.kept l' hl hz'
    refine ⟨n, ?_⟩
    simp only [Owns, State.setPc, Function.update_apply] at hn ⊢
    grind [Pc.critical]

/-- The memory node executes a write of 0: nobody owned the word. -/
theorem Inv.land (h : Inv s) (hl : l ∈ s.zeros) :
    Inv { s with remote := Function.update s.remote l 0, zeros := s.zeros.erase l } := by
  obtain ⟨hm, hc, hf, hp, ho, hown, hh, ht, hk⟩ := h
  refine ⟨hm, hc, hf, ?_, ho.erase l, ?_, hh, ht, ?_⟩
  · intro l' hl'
    have hne : l' ≠ l := fun he => (ho.mem_erase_iff.mp (he ▸ hl')).1 rfl
    simp only [Function.update_of_ne hne]
    exact hp l' (List.mem_of_mem_erase hl')
  · intro n l' hn
    obtain ⟨h1, h2, h3⟩ := hown n l' hn
    have hne : l' ≠ l := fun he => h3 (he ▸ hl)
    simp only [Function.update_of_ne hne]
    exact ⟨h1, h2, fun hmem => h3 (List.mem_of_mem_erase hmem)⟩
  · intro l' hr hz
    have hne : l' ≠ l := by
      rintro rfl
      exact hr (Function.update_self ..)
    simp only [Function.update_of_ne hne] at hr
    exact hk l' hr fun hmem => hz ((List.mem_erase_of_ne hne).mpr hmem)

end Steps

/-! ### Every run -/

theorem inv_init : Inv State.init := by
  constructor
  case count => exact fun n l => ⟨∅, fun t => by simp [State.init, Pc.counted], rfl⟩
  case once => exact List.nodup_nil
  all_goals simp [State.init, Pc.inside, Pc.flag, Pc.critical, Owns, LocalLockNode.init]

theorem Inv.step {m : Nat} {s s' : State} {a : Action} (h : Inv s)
    (hstep : step m s a = some s') : Inv s' := by
  cases a with
  | acquire t l =>
      simp only [Litl.step] at hstep
      split at hstep
      · rename_i hpc
        cases hstep
        exact h.acquire hpc
      · cases hstep
  | run t sync =>
      simp only [Litl.step, runThread] at hstep
      cases hpc : s.pc t with
      | idle => simp [hpc] at hstep
      | failed l => simp [hpc] at hstep
      | waiting l =>
          simp only [hpc] at hstep
          split at hstep
          · rename_i hfree
            cases hstep
            exact h.enter hpc hfree
          · cases hstep
      | entered l =>
          simp only [hpc] at hstep
          cases hstep
          exact h.countOut hpc
      | cas l =>
          simp only [hpc] at hstep
          split at hstep
          · split at hstep
            · rename_i hzero
              cases hstep
              exact h.cas hpc hzero
            · cases hstep
              exact h
          · cases hstep
            exact h.fail hpc
      | holding l b =>
          simp only [hpc] at hstep
          cases hstep
          exact h.decide m hpc
      | handing l =>
          simp only [hpc] at hstep
          cases hstep
          exact h.release (Or.inl hpc)
      | releasing l =>
          simp only [hpc] at hstep
          cases hstep
          exact h.post hpc sync
      | posted l sync' =>
          simp only [hpc] at hstep
          split at hstep
          · cases hstep
          · cases hstep
            exact h.release (Or.inr ⟨sync', hpc⟩)
  | land l =>
      simp only [Litl.step] at hstep
      split at hstep
      · rename_i hl
        cases hstep
        exact h.land hl
      · cases hstep

theorem reachable_inv {m : Nat} {s : State} (h : (machine m).Reachable s) : Inv s := by
  refine h.invariant ?_ fun s a s' hs _ hstep => hs.step hstep
  rintro s rfl
  exact inv_init

/-- **Mutual exclusion of the two-level lock over a mutex.**  At most one thread of the cluster is
between the return of `try_lock_addr(l)` and its release of `l`; the remote word is its own node's
tag then, and no posted 0 is about to overwrite it. -/
theorem litl_mutual_exclusion {m : Nat} {s : State} (h : (machine m).Reachable s) :
    (∀ t u l, (s.pc t).critical = some l → (s.pc u).critical = some l → t = u) ∧
    ∀ t l, (s.pc t).critical = some l →
      s.remote l ≠ 0 ∧ s.remote l / 2 ^ 32 = t.node ∧ l ∉ s.zeros := by
  have hinv := reachable_inv h
  have howned : ∀ t l, (s.pc t).critical = some l →
      s.remote l ≠ 0 ∧ s.remote l / 2 ^ 32 = t.node ∧ l ∉ s.zeros :=
    fun t l ht => hinv.owned t.node l (Or.inr ⟨t, rfl, ht⟩)
  refine ⟨fun t u l ht hu => ?_, howned⟩
  have hnode : t.node = u.node := (howned t l ht).2.1.symm.trans (howned u l hu).2.1
  exact hinv.inside_unique (inside_of_critical ht) (inside_of_critical hu) hnode

/-- Two threads of one node: the first takes the lock and hands it to the second. -/
def handoverRun (a b : Thread) (l : LockAddr) : List Action :=
  [.acquire a l, .run a false, .run a false, .run a false, .acquire b l, .run a false,
    .run a false, .run b false, .run b false]

theorem litl_mutual_exclusion_handover : ∃ s,
    (machine 16).exec State.init (handoverRun ⟨0, 0, by decide⟩ ⟨0, 1, by decide⟩ ⟨0, 0⟩) = some s ∧
    s.pc ⟨0, 1, by decide⟩ = .holding ⟨0, 0⟩ true ∧
    (∀ t u l, (s.pc t).critical = some l → (s.pc u).critical = some l → t = u) ∧
    ∀ t l, (s.pc t).critical = some l →
      s.remote l ≠ 0 ∧ s.remote l / 2 ^ 32 = t.node ∧ l ∉ s.zeros := by
  refine ⟨_, rfl, rfl, ?_⟩
  exact litl_mutual_exclusion (m := 16) ⟨_, rfl, System.path_of_exec
    (handoverRun ⟨0, 0, by decide⟩ ⟨0, 1, by decide⟩ ⟨0, 0⟩) rfl⟩

/-! ### Whoever asks for the lock gets it

Without new calls there is an end to all steps but failing compare-and-swaps, and until it comes
there is a step that can be taken.
-/

/-- The assertions on the tag hold. -/
def Known (t : Thread) : Prop := t.tag / 2 ^ 32 < MAX_MACHINE ∧ t.tag % 2 ^ 32 < MAX_APP_THREAD

/-- Only threads that the assertions let through call `try_lock_addr`. -/
def KnownCalls (_ : State) (a : Action) : Prop := ∀ t l, a = .acquire t l → Known t

/-- No new call, and no compare-and-swap that fails. -/
def Onward (s : State) : Action → Prop
  | .acquire _ _ => False
  | .run t _ => ∀ l, s.pc t = .cas l → s.remote l = 0
  | .land _ => True

/-- The steps a thread has left, the landing of its write of 0 included. -/
def Pc.left : Pc → Nat
  | .idle | .failed _ => 0
  | .posted .. | .handing _ => 1
  | .releasing _ => 3
  | .holding .. => 4
  | .cas _ => 5
  | .entered _ => 6
  | .waiting _ => 7

/-- The lock whose `try_lock_addr` the thread is in. -/
def Pc.asks : Pc → Option LockAddr
  | .waiting l | .entered l | .cas l => some l
  | _ => none

/-- All threads that are not idle are among these. -/
structure Busy (s : State) (threads : Finset Thread) : Prop where
  idle : ∀ t, t ∉ threads → s.pc t = .idle
  known : ∀ t ∈ threads, Known t
  passed : ∀ t l, s.pc t ≠ .failed l

section Progress

variable {m : Nat} {s s' : State} {threads : Finset Thread} {t : Thread} {l : LockAddr}

/-- What a step does to the thread that takes it. -/
structure Turn (s s' : State) (t : Thread) (p : Pc) : Prop where
  pc : s'.pc = Function.update s.pc t p
  passed : ∀ l, p ≠ .failed l
  less : (∀ l, s.pc t = .cas l → s.remote l = 0) →
    p.left + s'.zeros.length < (s.pc t).left + s.zeros.length
  asks : ∀ l, (s.pc t).asks = some l → p.asks = some l ∨ ∃ b, p = .holding l b

theorem run_turn (hknown : Known t) {sync : Bool} (hstep : runThread m s t sync = some s') :
    ∃ p, Turn s s' t p := by
  simp only [runThread] at hstep
  cases hpc : s.pc t with
  | idle => simp [hpc] at hstep
  | failed l => simp [hpc] at hstep
  | waiting l =>
      simp only [hpc] at hstep
      split at hstep
      · cases hstep
        refine ⟨.entered l, rfl, fun l' => by simp, fun _ => ?_, fun l' hl' => ?_⟩
        · simp [hpc, Pc.left, State.setPc, State.setMutex]
        · rw [hpc] at hl'
          exact Or.inl hl'
      · cases hstep
  | entered l =>
      simp only [hpc] at hstep
      cases hstep
      refine ⟨_, rfl, fun l' => by split <;> simp, fun _ => ?_, fun l' hl' => ?_⟩
      · split <;> simp [hpc, Pc.left, State.setPc, State.setLocal]
      · rw [hpc] at hl'
        cases hl'
        split
        · exact Or.inr ⟨true, rfl⟩
        · exact Or.inl rfl
  | cas l =>
      simp only [hpc, if_pos (And.intro hknown.1 hknown.2)] at hstep
      split at hstep
      · cases hstep
        refine ⟨.holding l false, rfl, fun l' => by simp, fun _ => ?_, fun l' hl' => ?_⟩
        · simp [hpc, Pc.left, State.setPc]
        · rw [hpc] at hl'
          cases hl'
          exact Or.inr ⟨false, rfl⟩
      · rename_i hbusy
        cases hstep
        refine ⟨.cas l, by rw [← hpc, Function.update_eq_self], fun l' => by simp,
          fun hcas => absurd (hcas l hpc) hbusy, fun l' hl' => ?_⟩
        rw [hpc] at hl'
        exact Or.inl hl'
  | holding l b =>
      simp only [hpc] at hstep
      cases hstep
      refine ⟨_, rfl, fun l' => by split <;> simp, fun _ => ?_, fun l' hl' => ?_⟩
      · split <;> simp [hpc, Pc.left, State.setPc, State.setLocal]
      · rw [hpc] at hl'
        cases hl'
  | handing l =>
      simp only [hpc] at hstep
      cases hstep
      refine ⟨.idle, rfl, fun l' => by simp, fun _ => ?_, fun l' hl' => ?_⟩
      · simp [hpc, Pc.left, releaseLocal, State.setPc, State.setMutex]
      · rw [hpc] at hl'
        cases hl'
  | releasing l =>
      simp only [hpc] at hstep
      cases hstep
      refine ⟨.posted l sync, rfl, fun l' => by simp, fun _ => ?_, fun l' hl' => ?_⟩
      · simp only [hpc, Pc.left, List.length_cons]
        omega
      · rw [hpc] at hl'
        cases hl'
  | posted l sync' =>
      simp only [hpc] at hstep
      split at hstep
      · cases hstep
      · cases hstep
        refine ⟨.idle, rfl, fun l' => by simp, fun _ => ?_, fun l' hl' => ?_⟩
        · simp [hpc, Pc.left, releaseLocal, State.setPc, State.setMutex]
        · rw [hpc] at hl'
          cases hl'

/-- A thread that runs is a busy one. -/
theorem Busy.mem_of_run (h : Busy s threads) {sync : Bool}
    (hstep : runThread m s t sync = some s') : t ∈ threads := by
  by_contra hnot
  simp [runThread, h.idle t hnot] at hstep

theorem Busy.run (h : Busy s threads) {p : Pc} (hturn : Turn s s' t p) (ht : t ∈ threads) :
    Busy s' threads := by
  refine ⟨fun u hu => ?_, h.known, fun u l => ?_⟩
  · have hut : u ≠ t := by
      rintro rfl
      exact hu ht
    rw [hturn.pc, Function.update_of_ne hut]
    exact h.idle u hu
  · rw [hturn.pc, Function.update_apply]
    split
    · exact hturn.passed l
    · exact h.passed u l

theorem reachable_busy (h : (machine m).ReachableBy KnownCalls s) : ∃ threads, Busy s threads := by
  refine h.invariant (I := fun s => ∃ threads, Busy s threads) ?_ ?_
  · rintro s rfl
    exact ⟨∅, fun _ _ => rfl, fun t ht => absurd ht (Finset.notMem_empty t), fun t l => by
      simp [State.init]⟩
  · rintro s a s' ⟨threads, hbusy⟩ hknown hstep
    cases a with
    | acquire t l =>
        simp only [machine, step] at hstep
        split at hstep
        · cases hstep
          refine ⟨insert t threads, fun u hu => ?_, fun u hu => ?_, fun u l' => ?_⟩
          · obtain ⟨hut, hu⟩ := not_or.mp (fun hor => hu (Finset.mem_insert.mpr hor))
            simp only [State.setPc, Function.update_of_ne hut]
            exact hbusy.idle u hu
          · rcases Finset.mem_insert.mp hu with rfl | hu
            · exact hknown _ _ rfl
            · exact hbusy.known u hu
          · simp only [State.setPc, Function.update_apply]
            split
            · simp
            · exact hbusy.passed u l'
        · cases hstep
    | run t sync =>
        have ht := hbusy.mem_of_run hstep
        obtain ⟨p, hturn⟩ := run_turn (hbusy.known t ht) hstep
        exact ⟨threads, hbusy.run hturn ht⟩
    | land l =>
        simp only [machine, step] at hstep
        split at hstep
        · cases hstep
          exact ⟨threads, hbusy.idle, hbusy.known, hbusy.passed⟩
        · cases hstep

/-- A thread past the mutex can go on, unless it waits for the word or for its write of 0. -/
theorem can_run (hin : (s.pc t).inside = some l) (hknown : Known t) (hzeros : s.zeros = [])
    (hpassed : s.pc t ≠ .failed l) (hcas : s.pc t = .cas l → s.remote l = 0) :
    ∃ s', Litl.step m s (.run t false) = some s' := by
  show ∃ s', runThread m s t false = some s'
  simp only [runThread]
  cases hpc : s.pc t with
  | idle => rw [hpc] at hin; cases hin
  | waiting l' => rw [hpc] at hin; cases hin
  | failed l' =>
      rw [hpc] at hin
      cases hin
      exact absurd hpc hpassed
  | cas l' =>
      rw [hpc] at hin
      cases hin
      simp only [if_pos (And.intro hknown.1 hknown.2), if_pos (hcas hpc)]
      exact ⟨_, rfl⟩
  | posted l' sync =>
      simp only [hzeros, List.not_mem_nil, and_false, if_false]
      exact ⟨_, rfl⟩
  | _ => exact ⟨_, rfl⟩

/-- If all threads past the mutexes wait for words that are not 0, a thread that waits for a mutex
can have it: one on the node that the word was left to. -/
theorem Inv.free_waiting (h : Inv s)
    (hall : ∀ u l', (s.pc u).inside = some l' → s.pc u = .cas l' ∧ s.remote l' ≠ 0)
    (hzeros : s.zeros = []) (hasks : (s.pc t).asks = some l) :
    ∃ u l', s.pc u = .waiting l' ∧ s.mutex u.node l' = none := by
  have hflag : ∀ u l', (s.pc u).inside = some l' → (s.locals u.node l').handOver = false := by
    intro u l' hin
    exact h.flags u l' false (by rw [(hall u l' hin).1]; rfl)
  -- the thread that waits for the word of `l`, unless `t` can have the mutex
  have hword : s.remote l ≠ 0 ∨ (s.pc t = .waiting l ∧ s.mutex t.node l = none) := by
    cases hpc : s.pc t with
    | waiting l' =>
        rw [hpc] at hasks
        cases hasks
        cases hm : s.mutex t.node l with
        | none => exact Or.inr ⟨rfl, rfl⟩
        | some v => exact Or.inl (hall v l ((h.mutex _ _ _).mp hm).2).2
    | entered l' =>
        rw [hpc] at hasks
        cases hasks
        exact Or.inl (hall t l (by rw [hpc]; rfl)).2
    | cas l' =>
        rw [hpc] at hasks
        cases hasks
        exact Or.inl (hall t l (by rw [hpc]; rfl)).2
    | _ =>
        rw [hpc] at hasks
        cases hasks
  rcases hword with hword | ⟨hpc, hfree⟩
  · obtain ⟨n, hyes | ⟨u, -, hcritical⟩⟩ := h.kept l hword (hzeros ▸ List.not_mem_nil)
    · have hnobody : ∀ u, u.node = n → (s.pc u).inside ≠ some l := by
        rintro u rfl hin
        exact Bool.false_ne_true ((hflag u l hin).symm.trans hyes)
      obtain ⟨u, hun, hin | hwaiting⟩ := h.taken n l hyes
      · exact absurd hin (hnobody u hun)
      · refine ⟨u, l, hwaiting, ?_⟩
        cases hm : s.mutex u.node l with
        | none => rfl
        | some v =>
            obtain ⟨hvn, hin⟩ := (h.mutex _ _ _).mp hm
            exact absurd hin (hnobody v (hvn.trans hun))
    · have hin := inside_of_critical hcritical
      rw [(hall u l hin).1] at hcritical
      cases hcritical
  · exact ⟨t, l, hpc, hfree⟩

/-- As long as a thread asks for a lock, somebody can go on. -/
theorem Inv.can_go_on (h : Inv s) (hbusy : Busy s threads) (hasks : (s.pc t).asks = some l) :
    ∃ a s', Onward s a ∧ Litl.step m s a = some s' := by
  have hknown : ∀ u, s.pc u ≠ .idle → Known u := fun u hu =>
    hbusy.known u (Classical.byContradiction fun hnot => hu (hbusy.idle u hnot))
  -- a write of 0 that is posted can be executed
  by_cases hzeros : s.zeros = []
  · -- so can a thread past the mutex that does not wait for a word
    by_cases hrun : ∃ u l', (s.pc u).inside = some l' ∧ (s.pc u = .cas l' → s.remote l' = 0)
    · obtain ⟨u, l', hin, hcas⟩ := hrun
      have hu : s.pc u ≠ .idle := by
        intro hidle
        rw [hidle] at hin
        cases hin
      obtain ⟨s', hs'⟩ := can_run (m := m) hin (hknown u hu) hzeros (hbusy.passed u l') hcas
      have hgo : Onward s (.run u false) := by
        intro l'' hl''
        rw [hl''] at hin
        cases hin
        exact hcas hl''
      exact ⟨_, s', hgo, hs'⟩
    · have hall : ∀ u l', (s.pc u).inside = some l' → s.pc u = .cas l' ∧ s.remote l' ≠ 0 := by
        intro u l' hin
        by_contra hnot
        exact hrun ⟨u, l', hin, fun hcas => Classical.byContradiction fun hne => hnot ⟨hcas, hne⟩⟩
      obtain ⟨u, l', hu, hfree⟩ := h.free_waiting hall hzeros hasks
      have hgo : Onward s (.run u false) := by
        intro l'' hl''
        rw [hu] at hl''
        cases hl''
      have henter : Litl.step m s (.run u false) =
          some ((s.setMutex u.node l' (some u)).setPc u (.entered l')) := by
        simp only [Litl.step, runThread, hu, if_pos hfree]
      exact ⟨_, _, hgo, henter⟩
  · obtain ⟨l', hl'⟩ := List.exists_mem_of_ne_nil _ hzeros
    exact ⟨.land l', _, trivial, if_pos hl'⟩

end Progress

section Acquisition

variable {m : Nat} {s s' : State} {t : Thread} {l : LockAddr}

/-- The thread asks for the lock, and `k` bounds the steps that all threads together have left. -/
def Waits (t : Thread) (l : LockAddr) (s : State) (k : Nat) : Prop :=
  Inv s ∧ ((s.pc t).asks = some l ∨ ∃ b, s.pc t = .holding l b) ∧ ∃ threads, Busy s threads ∧
    k = ∑ u ∈ threads, (s.pc u).left + s.zeros.length

theorem Waits.step {k : Nat} (h : Waits t l s k) (hask : (s.pc t).asks = some l) {a : Action}
    (hgo : Onward s a) (hstep : Litl.step m s a = some s') : ∃ k', Waits t l s' k' ∧ k' < k := by
  obtain ⟨hinv, -, threads, hbusy, rfl⟩ := h
  have hinv' := hinv.step hstep
  cases a with
  | acquire u l' => exact hgo.elim
  | land l' =>
      simp only [Litl.step] at hstep
      split at hstep
      · rename_i hl'
        cases hstep
        refine ⟨_, ⟨hinv', Or.inl hask, threads, ⟨hbusy.idle, hbusy.known, hbusy.passed⟩, rfl⟩, ?_⟩
        have hlen := List.length_erase_of_mem hl'
        have hpos := List.length_pos_of_mem hl'
        simp only [hlen]
        omega
      · cases hstep
  | run u sync =>
      have hu := hbusy.mem_of_run hstep
      obtain ⟨p, hturn⟩ := run_turn (hbusy.known u hu) hstep
      refine ⟨_, ⟨hinv', ?_, threads, hbusy.run hturn hu, rfl⟩, ?_⟩
      · rw [hturn.pc, Function.update_apply]
        split
        · rename_i htu
          subst htu
          exact hturn.asks l hask
        · exact Or.inl hask
      · have hless := hturn.less hgo
        have hsame : ∑ v ∈ threads.erase u, (s'.pc v).left =
            ∑ v ∈ threads.erase u, (s.pc v).left :=
          Finset.sum_congr rfl fun v hv => by
            rw [hturn.pc, Function.update_of_ne (Finset.ne_of_mem_erase hv)]
        rw [← Finset.add_sum_erase _ _ hu, ← Finset.add_sum_erase _ _ hu, hsame, hturn.pc,
          Function.update_self]
        omega

/-- **Whoever asks for the lock gets it.**  Once no new calls come in, whatever order the threads
take their steps in and the posted writes land in, a thread in `try_lock_addr(l)` has the lock after
finitely many steps, failing compare-and-swaps not counted; and until then some thread, or a posted
write, can go on. -/
theorem litl_acquires (h : (machine m).ReachableBy KnownCalls s) (hasks : (s.pc t).asks = some l) :
    (machine m).Inevitable Onward (fun s => ∃ b, s.pc t = .holding l b) s := by
  have hinv : Inv s := reachable_inv (h.imp fun s₀ hs => ⟨hs.1, hs.2.mono fun _ _ _ => trivial⟩)
  obtain ⟨threads, hbusy⟩ := reachable_busy h
  refine System.inevitable_of_rank Nat.lt_wfRel.wf (Waits t l) ?_ ?_ _ s
    ⟨hinv, Or.inl hasks, threads, hbusy, rfl⟩
  · rintro s k ⟨hinv, hask, threads, hbusy, -⟩ hnot
    exact hinv.can_go_on hbusy (hask.resolve_right hnot)
  · intro s k a s' hw hnot hgo hstep
    exact hw.step (hw.2.1.resolve_right hnot) hgo hstep

/-- Thread 0 of node 0 has the lock, thread 0 of node 1 has the mutex of its node and tries the
word. -/
def contendedRun : List Action :=
  [.acquire ⟨0, 0, by decide⟩ ⟨0, 0⟩, .run ⟨0, 0, by decide⟩ false, .run ⟨0, 0, by decide⟩ false,
    .run ⟨0, 0, by decide⟩ false, .acquire ⟨1, 0, by decide⟩ ⟨0, 0⟩, .run ⟨1, 0, by decide⟩ false,
    .run ⟨1, 0, by decide⟩ false, .run ⟨1, 0, by decide⟩ false]

theorem litl_acquires_contended : ∃ s, (machine 16).exec State.init contendedRun = some s ∧
    s.remote ⟨0, 0⟩ ≠ 0 ∧ (machine 16).Inevitable Onward
      (fun s => ∃ b, s.pc ⟨1, 0, by decide⟩ = .holding ⟨0, 0⟩ b) s := by
  refine ⟨_, rfl, by decide, litl_acquires ⟨_, rfl, ?_⟩ rfl⟩
  refine System.path_of_exec_of contendedRun (fun s a ha t l heq => ?_) rfl
  subst heq
  simp only [contendedRun, List.mem_cons, Action.acquire.injEq, reduceCtorEq, false_or,
    List.not_mem_nil, or_false] at ha
  rcases ha with ⟨rfl, -⟩ | ⟨rfl, -⟩ <;> exact ⟨by decide, by decide⟩

end Acquisition

end Dal.Litl
