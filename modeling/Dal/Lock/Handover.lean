/-
The two-level lock with handover: `try_lock_addr`, `unlock_addr` and
`write_page_and_unlock` in the `SHERMAN_LOCK` + `HANDOVER` builds that lock the
memory node by compare-and-swap.

A thread first takes the slot's local lock.  If the previous local holder left
`hand_over` set, the thread owns the remote lock too; otherwise it retries
`cas_dm_sync(lock_addr, 0, tag)`.  On release `can_hand_over` decides whether the
remote lock stays with the node: if so only the local lock is released, if not a
write of 0 to the remote word is posted, and the local lock is released without
waiting for that write unless it was a synchronous one.

One action is one access to shared memory.  `zeros` are the writes of 0 that were
posted and not executed yet; the memory node executes them in its own time.
`acquisitions` counts what `acquire_local_lock` did and is read by no step: it is
there to say "fewer than `2 ^ 32` acquisitions".
-/
import Dal.Lock.Local
import Dal.Lib.Transition
import Mathlib.Logic.Function.Basic

namespace Dal.Handover

/-- An application thread of some node; `DSM::thread_id` is an `int`. -/
structure Thread where
  node : Nat
  id : Nat
  id_lt : id < 2 ^ 31
  deriving DecidableEq

/-- `DSM::getThreadTag()`. -/
def Thread.tag (t : Thread) : Nat := t.id + t.node * 2 ^ 32 + 1

/-- Where a thread is between `try_lock_addr(l)` and the end of the release of `l`. -/
inductive Pc
  | idle
  /-- The loop of `acquire_local_lock`, with the counter it loaded last. -/
  | spin (l : LockAddr) (ticket current : Nat)
  /-- The loop around `cas_dm_sync(lock_addr, 0, tag)`. -/
  | cas (l : LockAddr) (ticket : Nat)
  /-- `try_lock_addr` has returned `handover`. -/
  | holding (l : LockAddr) (ticket : Nat) (handover : Bool)
  /-- `can_hand_over` said yes: only the local lock is left to release. -/
  | handing (l : LockAddr) (ticket : Nat)
  /-- `can_hand_over` said no: the write of 0 is next. -/
  | releasing (l : LockAddr) (ticket : Nat)
  /-- The write of 0 is posted, `sync` if the thread waits for it. -/
  | posted (l : LockAddr) (ticket : Nat) (sync : Bool)
  /-- One of the two assertions on the tag failed. -/
  | failed (l : LockAddr)

structure State where
  /-- `local_locks` of each node. -/
  locals : Nat → LockAddr → LocalLockNode
  /-- The lock words on the memory nodes. -/
  remote : LockAddr → Nat
  zeros : List LockAddr
  pc : Thread → Pc
  acquisitions : Nat → LockAddr → Nat

def State.setPc (s : State) (t : Thread) (p : Pc) : State :=
  { s with pc := Function.update s.pc t p }

def State.setLocal (s : State) (n : Nat) (l : LockAddr) (node : LocalLockNode) : State :=
  { s with locals := fun n' l' => if n' = n ∧ l' = l then node else s.locals n' l' }

/-- The state `Tree::Tree` and `DSM::DSM` leave: all words zero. -/
def State.init : State where
  locals := fun _ _ => LocalLockNode.init
  remote := fun _ => 0
  zeros := []
  pc := fun _ => .idle
  acquisitions := fun _ _ => 0

inductive Action
  /-- An idle thread calls `try_lock_addr(l)` and takes a ticket. -/
  | acquire (t : Thread) (l : LockAddr)
  /-- The thread's next step; `sync` says how a write of 0 is posted. -/
  | run (t : Thread) (sync : Bool)
  /-- The memory node executes a posted write of 0. -/
  | land (l : LockAddr)

/-- `acquire_local_lock` up to its loop. -/
def takeTicket (s : State) (t : Thread) (l : LockAddr) : State :=
  let node := s.locals t.node l
  { (s.setLocal t.node l (node.fetchAdd 1)).setPc t
      (.spin l (ticketOf node.ticketLock) (currentOf node.ticketLock)) with
    acquisitions := fun n' l' =>
      if n' = t.node ∧ l' = l then s.acquisitions n' l' + 1 else s.acquisitions n' l' }

/-- `releases_local_lock`, after which the thread is done with the lock. -/
def releaseLocal (s : State) (t : Thread) (l : LockAddr) : State :=
  (s.setLocal t.node l ((s.locals t.node l).fetchAdd (2 ^ 32))).setPc t .idle

/-- The next step of a thread that is in `try_lock_addr` or releasing. -/
def runThread (maxHandover : Nat) (s : State) (t : Thread) (sync : Bool) : Option State :=
  match s.pc t with
  | .idle => none
  | .failed _ => none
  | .spin l ticket current =>
      let node := s.locals t.node l
      if ticket = current then
        some ((s.setLocal t.node l node.countHolder).setPc t
          (if node.handOver then .holding l ticket true else .cas l ticket))
      else
        some (s.setPc t (.spin l ticket (currentOf node.ticketLock)))
  | .cas l ticket =>
      if t.tag / 2 ^ 32 < MAX_MACHINE ∧ t.tag % 2 ^ 32 < MAX_APP_THREAD then
        if s.remote l = 0 then
          some { s.setPc t (.holding l ticket false) with
            remote := Function.update s.remote l t.tag }
        else
          some s
      else
        some (s.setPc t (.failed l))
  | .holding l ticket _ =>
      let node := (s.locals t.node l).canHandOver maxHandover
      some ((s.setLocal t.node l node).setPc t
        (if node.handOver then .handing l ticket else .releasing l ticket))
  | .handing l _ => some (releaseLocal s t l)
  | .releasing l ticket => some { s.setPc t (.posted l ticket sync) with zeros := l :: s.zeros }
  | .posted l _ sync' =>
      if sync' = true ∧ l ∈ s.zeros then none else some (releaseLocal s t l)

def step (maxHandover : Nat) (s : State) : Action → Option State
  | .acquire t l =>
      match s.pc t with
      | .idle => some (takeTicket s t l)
      | _ => none
  | .run t sync => runThread maxHandover s t sync
  | .land l =>
      if l ∈ s.zeros then
        some { s with remote := Function.update s.remote l 0, zeros := s.zeros.erase l }
      else none

/-- Any number of nodes and threads, any interleaving. -/
def machine (maxHandover : Nat) : System State Action where
  Init := (· = State.init)
  step := step maxHandover

/-! ### What the program counters say -/

/-- The lock and the ticket a thread is queued with, from the ticket to the local release. -/
def Pc.queued : Pc → Option (LockAddr × Nat)
  | .spin l ticket _ | .cas l ticket | .holding l ticket _ | .handing l ticket
  | .releasing l ticket | .posted l ticket _ => some (l, ticket)
  | .idle | .failed _ => none

/-- The same, for a thread that has left the loop of `acquire_local_lock`. -/
def Pc.admitted : Pc → Option (LockAddr × Nat)
  | .cas l ticket | .holding l ticket _ | .handing l ticket | .releasing l ticket
  | .posted l ticket _ => some (l, ticket)
  | .idle | .spin .. | .failed _ => none

/-- The lock a thread is between the return of `try_lock_addr` and the release of. -/
def Pc.critical : Pc → Option LockAddr
  | .holding l _ _ | .handing l _ | .releasing l _ => some l
  | .idle | .spin .. | .cas .. | .posted .. | .failed _ => none

/-- What `hand_over` has to be while a thread is there, where the code settles it. -/
def Pc.flag : Pc → Option (LockAddr × Bool)
  | .handing l _ => some (l, true)
  | .holding l _ true => some (l, true)
  | .cas l _ | .holding l _ false | .releasing l _ | .posted l _ _ => some (l, false)
  | .idle | .spin .. | .failed _ => none

theorem queued_of_admitted {p : Pc} {l : LockAddr} {k : Nat} (h : p.admitted = some (l, k)) :
    p.queued = some (l, k) := by
  cases p <;> simp_all [Pc.admitted, Pc.queued]

theorem admitted_of_flag {p : Pc} {l : LockAddr} {b : Bool} (h : p.flag = some (l, b)) :
    ∃ k, p.admitted = some (l, k) := by
  cases p with
  | holding l' k b' => cases b' <;> simp_all [Pc.admitted, Pc.flag]
  | _ => simp_all [Pc.admitted, Pc.flag]

theorem admitted_of_critical {p : Pc} {l : LockAddr} (h : p.critical = some l) :
    ∃ k, p.admitted = some (l, k) := by
  cases p <;> simp_all [Pc.admitted, Pc.critical]

/-- Node `n` owns the remote lock: a thread of it is critical, or the next one will be. -/
def Owns (s : State) (n : Nat) (l : LockAddr) : Prop :=
  (s.locals n l).handOver = true ∨ ∃ t, t.node = n ∧ (s.pc t).critical = some l

/-- Which ticket of the slot is being served. -/
def State.serving (s : State) (n : Nat) (l : LockAddr) : Nat :=
  currentOf (s.locals n l).ticketLock

/-- What ties the two levels together. -/
structure Inv (s : State) : Prop where
  counts : ∀ n l, (s.locals n l).Counts (s.acquisitions n l) (s.serving n l)
  /-- A queued thread's ticket was taken and is not past. -/
  range : ∀ t l k, (s.pc t).queued = some (l, k) →
    s.serving t.node l ≤ k ∧ k < s.acquisitions t.node l
  /-- No two threads of a node hold the same ticket. -/
  distinct : ∀ t u l k, t.node = u.node → (s.pc t).queued = some (l, k) →
    (s.pc u).queued = some (l, k) → t = u
  served : ∀ t l k, (s.pc t).admitted = some (l, k) → k = s.serving t.node l
  loaded : ∀ t l k c, s.pc t = .spin l k c → c ≤ s.serving t.node l
  flags : ∀ t l b, (s.pc t).flag = some (l, b) → (s.locals t.node l).handOver = b
  /-- The word stays as it was until the posted 0 is executed, and only one 0 is posted. -/
  pending : ∀ l ∈ s.zeros, s.remote l ≠ 0
  once : s.zeros.Nodup
  /-- The owner's tag is in the word and nothing is about to overwrite it. -/
  owned : ∀ n l, Owns s n l → s.remote l ≠ 0 ∧ s.remote l / 2 ^ 32 = n ∧ l ∉ s.zeros

/-! ### One step keeps it -/

theorem serving_takeTicket {s : State} (h : Inv s) (t : Thread) (l : LockAddr)
    (hroom : s.acquisitions t.node l + 1 < 2 ^ 32) (n : Nat) (l' : LockAddr) :
    (takeTicket s t l).serving n l' = s.serving n l' := by
  by_cases hn : n = t.node ∧ l' = l
  · obtain ⟨rfl, rfl⟩ := hn
    have := ((h.counts t.node l').take hroom).current
    simpa [takeTicket, State.serving, State.setLocal, State.setPc] using this
  · simp [takeTicket, State.serving, State.setLocal, State.setPc, hn]

theorem Inv.take {s : State} (h : Inv s) {t : Thread} {l : LockAddr}
    (hroom : s.acquisitions t.node l + 1 < 2 ^ 32) : Inv (takeTicket s t l) := by
  have hcur := serving_takeTicket h t l hroom
  have hticket := (h.counts t.node l).ticket
  have hcurrent : currentOf (s.locals t.node l).ticketLock = s.serving t.node l := rfl
  constructor
  case counts =>
    intro n l'
    rw [hcur]
    by_cases hn : n = t.node ∧ l' = l
    · obtain ⟨rfl, rfl⟩ := hn
      simpa [takeTicket, State.setLocal, State.setPc] using (h.counts t.node l').take hroom
    · simpa [takeTicket, State.setLocal, State.setPc, hn] using h.counts n l'
  case range =>
    intro u l' k hk
    rw [hcur]
    have := h.range u l' k
    have := (h.counts t.node l).le
    simp only [takeTicket, State.setLocal, State.setPc, Function.update_apply] at hk ⊢
    grind [Pc.queued]
  case distinct =>
    intro u v l' k huv hu hv
    have := h.distinct u v l' k huv
    have := h.range u l' k
    have := h.range v l' k
    simp only [takeTicket, State.setLocal, State.setPc, Function.update_apply] at hu hv
    grind [Pc.queued]
  case served =>
    intro u l' k hk
    rw [hcur]
    have := h.served u l' k
    simp only [takeTicket, State.setLocal, State.setPc, Function.update_apply] at hk
    grind [Pc.admitted]
  case loaded =>
    intro u l' k c hk
    rw [hcur]
    have := h.loaded u l' k c
    simp only [takeTicket, State.setLocal, State.setPc, Function.update_apply] at hk
    grind
  case flags =>
    intro u l' b hk
    have := h.flags u l' b
    simp only [takeTicket, State.setLocal, State.setPc, Function.update_apply] at hk ⊢
    grind [Pc.flag, LocalLockNode.fetchAdd_handOver]
  case pending => exact h.pending
  case once => exact h.once
  case owned =>
    intro n l' hn
    refine h.owned n l' ?_
    simp only [Owns, takeTicket, State.setLocal, State.setPc, Function.update_apply] at hn ⊢
    grind [Pc.critical, LocalLockNode.fetchAdd_handOver]

/-- A step that only moves `t` and rewrites the slot of `l` it stands on, counters apart. -/
theorem Inv.move {s : State} (h : Inv s) (t : Thread) (l : LockAddr) {node : LocalLockNode}
    {p : Pc} (hcounts : node.Counts (s.acquisitions t.node l) (s.serving t.node l))
    (hqueued : ∀ l' k, p.queued = some (l', k) → (s.pc t).queued = some (l', k))
    (hserved : ∀ l' k, p.admitted = some (l', k) → k = s.serving t.node l')
    (hloaded : ∀ l' k c, p = .spin l' k c → c ≤ s.serving t.node l')
    (hflag : ∀ l' b, p.flag = some (l', b) → l' = l ∧ node.handOver = b)
    (hothers : ∀ u b, u ≠ t → u.node = t.node → (s.pc u).flag = some (l, b) →
      node.handOver = b)
    (howns : node.handOver = true → Owns s t.node l)
    (hcritical : ∀ l', p.critical = some l' → Owns s t.node l') :
    Inv ((s.setLocal t.node l node).setPc t p) := by
  have hcur : ∀ n l', ((s.setLocal t.node l node).setPc t p).serving n l' = s.serving n l' := by
    intro n l'
    have := hcounts.current
    simp only [State.serving, State.setLocal, State.setPc] at this ⊢
    grind
  constructor
  case counts =>
    intro n l'
    rw [hcur]
    by_cases hn : n = t.node ∧ l' = l
    · obtain ⟨rfl, rfl⟩ := hn
      simpa [State.setLocal, State.setPc] using hcounts
    · simpa [State.setLocal, State.setPc, hn] using h.counts n l'
  case range =>
    intro u l' k hk
    rw [hcur]
    have := h.range u l' k
    simp only [State.setLocal, State.setPc, Function.update_apply] at hk ⊢
    grind
  case distinct =>
    intro u v l' k huv hu hv
    have := h.distinct u v l' k huv
    simp only [State.setLocal, State.setPc, Function.update_apply] at hu hv
    grind
  case served =>
    intro u l' k hk
    rw [hcur]
    have := h.served u l' k
    simp only [State.setLocal, State.setPc, Function.update_apply] at hk
    grind
  case loaded =>
    intro u l' k c hk
    rw [hcur]
    have := h.loaded u l' k c
    simp only [State.setLocal, State.setPc, Function.update_apply] at hk
    grind
  case flags =>
    intro u l' b hk
    have := h.flags u l' b
    simp only [State.setLocal, State.setPc, Function.update_apply] at hk ⊢
    grind
  case pending => exact h.pending
  case once => exact h.once
  case owned =>
    intro n l' hn
    refine h.owned n l' ?_
    have hkeep : ∀ u, u ≠ t → (s.pc u).critical = some l' → u.node = n → Owns s n l' :=
      fun u _ hu hun => Or.inr ⟨u, hun, hu⟩
    simp only [Owns, State.setLocal, State.setPc, Function.update_apply] at hn howns hcritical hkeep ⊢
    grind

/-- The thread admitted to a slot is the only one: its ticket is the one being served. -/
theorem Inv.admitted_unique {s : State} (h : Inv s) {t u : Thread} {l : LockAddr} {k k' : Nat}
    (ht : (s.pc t).admitted = some (l, k)) (hu : (s.pc u).admitted = some (l, k'))
    (hnode : t.node = u.node) : t = u := by
  have hk := h.served t l k ht
  have hk' := h.served u l k' hu
  refine h.distinct t u l k hnode (queued_of_admitted ht) ?_
  rw [hk, hnode, ← hk']
  exact queued_of_admitted hu

/-- Leaving the loop of `acquire_local_lock` with the node's flag. -/
theorem Inv.leave {s : State} (h : Inv s) {t : Thread} {l : LockAddr} {k : Nat}
    (hpc : s.pc t = .spin l k k) :
    Inv ((s.setLocal t.node l (s.locals t.node l).countHolder).setPc t
      (if (s.locals t.node l).handOver then .holding l k true else .cas l k)) := by
  have hk : k = s.serving t.node l := by
    have hle := (h.range t l k (by rw [hpc]; rfl)).1
    have hge := h.loaded t l k k hpc
    omega
  have hothers : ∀ u b, u ≠ t → u.node = t.node → (s.pc u).flag = some (l, b) →
      (s.locals t.node l).countHolder.handOver = b := by
    intro u b _ hun hb
    rw [← h.flags u l b hb, hun]
    rfl
  cases hflag : (s.locals t.node l).handOver with
  | true =>
      refine h.move t l (h.counts t.node l).countHolder ?_ ?_ (by simp) ?_ hothers
        (fun _ => Or.inl hflag) ?_
      · simp [Pc.queued, hpc]
      · simp [Pc.admitted, hk]
      · simp [Pc.flag, hflag]
      · intro l' hl'
        simp only [if_true, Pc.critical, Option.some.injEq] at hl'
        exact hl' ▸ Or.inl hflag
  | false =>
      refine h.move t l (h.counts t.node l).countHolder ?_ ?_ (by simp) ?_ hothers
        (fun hy => Or.inl hy) (by simp [Pc.critical])
      · simp [Pc.queued, hpc]
      · simp [Pc.admitted, hk]
      · simp [Pc.flag, hflag]

/-- `can_hand_over`: only the holder changes the flag, so nobody else relies on it. -/
theorem Inv.decide {s : State} (h : Inv s) (m : Nat) {t : Thread} {l : LockAddr} {k : Nat}
    {b : Bool} (hpc : s.pc t = .holding l k b) :
    Inv ((s.setLocal t.node l ((s.locals t.node l).canHandOver m)).setPc t
      (if ((s.locals t.node l).canHandOver m).handOver then .handing l k
        else .releasing l k)) := by
  have hadm : (s.pc t).admitted = some (l, k) := by rw [hpc]; rfl
  have howns : Owns s t.node l := Or.inr ⟨t, rfl, by rw [hpc]; rfl⟩
  have hothers : ∀ u b, u ≠ t → u.node = t.node → (s.pc u).flag = some (l, b) →
      ((s.locals t.node l).canHandOver m).handOver = b := by
    intro u b hne hun hb
    obtain ⟨k', hk'⟩ := admitted_of_flag hb
    exact absurd (h.admitted_unique hk' hadm hun) hne
  refine h.move t l ((h.counts t.node l).canHandOver m) ?_ ?_ ?_ ?_ hothers (fun _ => howns) ?_
  · intro l' k' hq
    rw [hpc]
    split at hq <;> exact hq
  · intro l' k' ha
    have hk := h.served t l k hadm
    split at ha <;> simp only [Pc.admitted, Option.some.injEq, Prod.mk.injEq] at ha <;>
      (obtain ⟨rfl, rfl⟩ := ha; exact hk)
  · intro l' k' c hc
    split at hc <;> cases hc
  · intro l' b' hf
    split at hf <;> simp only [Pc.flag, Option.some.injEq, Prod.mk.injEq] at hf <;>
      (obtain ⟨rfl, rfl⟩ := hf; refine ⟨rfl, ?_⟩) <;> simp_all
  · intro l' hl'
    split at hl' <;> simp only [Pc.critical, Option.some.injEq] at hl' <;> exact hl' ▸ howns

/-- A successful `cas_dm_sync`: nobody owned the word it found zero. -/
theorem Inv.cas {s : State} (h : Inv s) {t : Thread} {l : LockAddr} {k : Nat}
    (hpc : s.pc t = .cas l k) (htag : t.tag / 2 ^ 32 < MAX_MACHINE ∧ t.tag % 2 ^ 32 < MAX_APP_THREAD)
    (hzero : s.remote l = 0) :
    Inv { s.setPc t (.holding l k false) with remote := Function.update s.remote l t.tag } := by
  have hnode : t.tag / 2 ^ 32 = t.node := by
    have hid := t.id_lt
    unfold Thread.tag
    omega
  have htagNe : t.tag ≠ 0 := by unfold Thread.tag; omega
  have hfree : ∀ n, ¬ Owns s n l := fun n hn => (h.owned n l hn).1 hzero
  have hnotPending : l ∉ s.zeros := fun hl => h.pending l hl hzero
  obtain ⟨hc, hr, hd, hs, hlo, hf, hp, ho, hown⟩ := h
  constructor
  case counts => exact hc
  case range =>
    intro u l' k' hk
    have := hr u l' k'
    simp only [State.setPc, Function.update_apply] at hk
    show s.serving u.node l' ≤ k' ∧ k' < s.acquisitions u.node l'
    grind [Pc.queued]
  case distinct =>
    intro u v l' k' huv hu hv
    have := hd u v l' k' huv
    simp only [State.setPc, Function.update_apply] at hu hv
    grind [Pc.queued]
  case served =>
    intro u l' k' hk
    have := hs u l' k'
    simp only [State.setPc, Function.update_apply] at hk
    show k' = s.serving u.node l'
    grind [Pc.admitted]
  case loaded =>
    intro u l' k' c hk
    have := hlo u l' k' c
    simp only [State.setPc, Function.update_apply] at hk
    show c ≤ s.serving u.node l'
    grind
  case flags =>
    intro u l' b hk
    have := hf u l' b
    simp only [State.setPc, Function.update_apply] at hk ⊢
    grind [Pc.flag]
  case pending =>
    intro l' hl'
    have := hp l' hl'
    simp only [Function.update_apply]
    grind
  case once => exact ho
  case owned =>
    intro n l' hn
    by_cases hl' : l' = l
    · subst hl'
      have hn' : n = t.node := by
        rcases hn with hn | ⟨u, hun, hu⟩
        · exact absurd (Or.inl hn) (hfree n)
        · by_cases hut : u = t
          · rw [← hun, hut]
          · refine absurd (Or.inr ⟨u, hun, ?_⟩) (hfree n)
            simpa [State.setPc, hut] using hu
      subst hn'
      exact ⟨by simpa using htagNe, by simpa using hnode, hnotPending⟩
    · have hold : Owns s n l' := by
        rcases hn with hn | ⟨u, hun, hu⟩
        · exact Or.inl hn
        · refine Or.inr ⟨u, hun, ?_⟩
          by_cases hut : u = t
          · subst hut
            simp only [State.setPc, Function.update_self, Pc.critical, Option.some.injEq] at hu
            exact absurd hu.symm hl'
          · simpa [State.setPc, hut] using hu
      show Function.update s.remote l t.tag l' ≠ 0 ∧ Function.update s.remote l t.tag l' / 2 ^ 32 = n ∧ _
      rw [Function.update_of_ne hl']
      exact hown n l' hold

/-- `releases_local_lock`, by the thread that hands over or the one whose 0 is posted. -/
theorem Inv.release {s : State} (h : Inv s) {t : Thread} {l : LockAddr} {k : Nat}
    (hadm : (s.pc t).admitted = some (l, k)) : Inv (releaseLocal s t l) := by
  have hk := h.served t l k hadm
  have hcounts := h.counts t.node l
  have hlt := (h.range t l k (queued_of_admitted hadm)).2
  have hserve := hcounts.serve (by omega)
  have hcur : ∀ n l', (releaseLocal s t l).serving n l' =
      if n = t.node ∧ l' = l then s.serving n l' + 1 else s.serving n l' := by
    intro n l'
    have := hserve.current
    simp only [releaseLocal, State.serving, State.setLocal, State.setPc] at this ⊢
    grind
  have hunique : ∀ u k', (s.pc u).queued = some (l, k') → u.node = t.node → u ≠ t →
      s.serving t.node l < k' := by
    intro u k' hu hun hne
    have hle := (h.range u l k' hu).1
    rw [hun] at hle
    rcases Nat.lt_or_ge (s.serving t.node l) k' with hlt | hge
    · exact hlt
    · have hkk : k' = k := by omega
      exact absurd (h.distinct u t l k' hun hu (hkk ▸ queued_of_admitted hadm)) hne
  constructor
  case counts =>
    intro n l'
    rw [hcur]
    by_cases hn : n = t.node ∧ l' = l
    · obtain ⟨rfl, rfl⟩ := hn
      simpa [releaseLocal, State.setLocal, State.setPc] using hserve
    · simpa [releaseLocal, State.setLocal, State.setPc, hn] using h.counts n l'
  case range =>
    intro u l' k' hk'
    rw [hcur]
    have := h.range u l' k'
    have := hunique u k'
    simp only [releaseLocal, State.setLocal, State.setPc, Function.update_apply] at hk' ⊢
    grind [Pc.queued]
  case distinct =>
    intro u v l' k' huv hu hv
    have := h.distinct u v l' k' huv
    simp only [releaseLocal, State.setLocal, State.setPc, Function.update_apply] at hu hv
    grind [Pc.queued]
  case served =>
    intro u l' k' hk'
    rw [hcur]
    have hold := h.served u l' k'
    have := @Inv.admitted_unique s h u t l k' k
    simp only [releaseLocal, State.setLocal, State.setPc, Function.update_apply] at hk'
    grind [Pc.admitted]
  case loaded =>
    intro u l' k' c hk'
    rw [hcur]
    have := h.loaded u l' k' c
    simp only [releaseLocal, State.setLocal, State.setPc, Function.update_apply] at hk'
    grind
  case flags =>
    intro u l' b hb
    have := h.flags u l' b
    simp only [releaseLocal, State.setLocal, State.setPc, Function.update_apply] at hb ⊢
    grind [Pc.flag, LocalLockNode.fetchAdd_handOver]
  case pending => exact h.pending
  case once => exact h.once
  case owned =>
    intro n l' hn
    refine h.owned n l' ?_
    simp only [Owns, releaseLocal, State.setLocal, State.setPc, Function.update_apply] at hn ⊢
    grind [Pc.critical, LocalLockNode.fetchAdd_handOver]

/-- Posting the write of 0: from here on nobody owns the word. -/
theorem Inv.post {s : State} (h : Inv s) {t : Thread} {l : LockAddr} {k : Nat}
    (hpc : s.pc t = .releasing l k) (sync : Bool) :
    Inv { s.setPc t (.posted l k sync) with zeros := l :: s.zeros } := by
  have howns : Owns s t.node l := Or.inr ⟨t, rfl, by rw [hpc]; rfl⟩
  obtain ⟨hne, hnode, hnotPending⟩ := h.owned t.node l howns
  have hflag : (s.locals t.node l).handOver = false := h.flags t l false (by rw [hpc]; rfl)
  have hadm : (s.pc t).admitted = some (l, k) := by rw [hpc]; rfl
  constructor
  case counts => exact h.counts
  case range =>
    intro u l' k' hk
    have := h.range u l' k'
    simp only [State.setPc, Function.update_apply] at hk
    show s.serving u.node l' ≤ k' ∧ k' < s.acquisitions u.node l'
    grind [Pc.queued]
  case distinct =>
    intro u v l' k' huv hu hv
    have := h.distinct u v l' k' huv
    simp only [State.setPc, Function.update_apply] at hu hv
    grind [Pc.queued]
  case served =>
    intro u l' k' hk
    have := h.served u l' k'
    simp only [State.setPc, Function.update_apply] at hk
    show k' = s.serving u.node l'
    grind [Pc.admitted]
  case loaded =>
    intro u l' k' c hk
    have := h.loaded u l' k' c
    simp only [State.setPc, Function.update_apply] at hk
    show c ≤ s.serving u.node l'
    grind
  case flags =>
    intro u l' b hb
    have := h.flags u l' b
    simp only [State.setPc, Function.update_apply] at hb ⊢
    grind [Pc.flag]
  case pending =>
    intro l' hl'
    rcases List.mem_cons.mp hl' with rfl | hl'
    · exact hne
    · exact h.pending l' hl'
  case once => exact List.nodup_cons.mpr ⟨hnotPending, h.once⟩
  case owned =>
    intro n l' hn
    have hold : Owns s n l' ∧ l' ≠ l := by
      rcases hn with hn | ⟨u, hun, hu⟩
      · refine ⟨Or.inl hn, ?_⟩
        rintro rfl
        have := (h.owned n l' (Or.inl hn)).2.1
        have hnt : n = t.node := this.symm.trans hnode
        subst hnt
        exact absurd (hflag.symm.trans hn) Bool.false_ne_true
      · have hut : u ≠ t := by
          rintro rfl
          simp [State.setPc, Pc.critical] at hu
        have hu' : (s.pc u).critical = some l' := by simpa [State.setPc, hut] using hu
        refine ⟨Or.inr ⟨u, hun, hu'⟩, ?_⟩
        rintro rfl
        have hnt : u.node = t.node :=
          (h.owned u.node l' (Or.inr ⟨u, rfl, hu'⟩)).2.1.symm.trans hnode
        obtain ⟨k', hk'⟩ := admitted_of_critical hu'
        exact hut (h.admitted_unique hk' hadm hnt)
    obtain ⟨hr, hd, hz⟩ := h.owned n l' hold.1
    exact ⟨hr, hd, fun hmem => (List.mem_cons.mp hmem).elim hold.2 hz⟩

/-- The memory node executes a write of 0: nobody owned the word. -/
theorem Inv.land {s : State} (h : Inv s) {l : LockAddr} (hl : l ∈ s.zeros) :
    Inv { s with remote := Function.update s.remote l 0, zeros := s.zeros.erase l } := by
  obtain ⟨hc, hr, hd, hs, hlo, hf, hp, ho, hown⟩ := h
  refine ⟨hc, hr, hd, hs, hlo, hf, ?_, ho.erase l, ?_⟩
  · intro l' hl'
    have hne : l' ≠ l := fun he => (ho.mem_erase_iff.mp (he ▸ hl')).1 rfl
    show Function.update s.remote l 0 l' ≠ 0
    rw [Function.update_of_ne hne]
    exact hp l' (List.mem_of_mem_erase hl')
  · intro n l' hn
    obtain ⟨h1, h2, h3⟩ := hown n l' hn
    have hne : l' ≠ l := fun he => h3 (he ▸ hl)
    simp only [Function.update_of_ne hne]
    exact ⟨h1, h2, fun hmem => h3 (List.mem_of_mem_erase hmem)⟩

/-- A step that touches only `t`'s own counter and ends nowhere it has to own anything. -/
theorem Inv.setPc {s : State} (h : Inv s) (t : Thread) {p : Pc}
    (hqueued : ∀ l k, p.queued = some (l, k) → (s.pc t).queued = some (l, k))
    (hadmitted : p.admitted = none) (hloaded : ∀ l k c, p = .spin l k c →
      c ≤ s.serving t.node l) : Inv (s.setPc t p) := by
  have hflag : p.flag = none := by
    cases hf : p.flag with
    | none => rfl
    | some lb =>
        obtain ⟨k, hk⟩ := admitted_of_flag (l := lb.1) (b := lb.2) hf
        rw [hk] at hadmitted
        exact absurd hadmitted (Option.some_ne_none _)
  have hcritical : p.critical = none := by
    cases hf : p.critical with
    | none => rfl
    | some l =>
        obtain ⟨k, hk⟩ := admitted_of_critical hf
        rw [hk] at hadmitted
        exact absurd hadmitted (Option.some_ne_none _)
  have hself : s.setLocal t.node ⟨0, 0⟩ (s.locals t.node ⟨0, 0⟩) = s := by
    simp only [State.setLocal]
    congr
    funext n l
    split
    · rename_i hn
      rw [hn.1, hn.2]
    · rfl
  have hmove : Inv ((s.setLocal t.node ⟨0, 0⟩ (s.locals t.node ⟨0, 0⟩)).setPc t p) := h.move t
    ⟨0, 0⟩ (h.counts _ _) hqueued (by simp [hadmitted]) hloaded (by simp [hflag])
    (fun u b _ hun hb => by rw [← h.flags u _ b hb, hun]) (fun hy => Or.inl hy)
    (by simp [hcritical])
  rwa [hself] at hmove

theorem inv_init : Inv State.init := by
  constructor <;> simp [State.init, State.serving, Pc.queued, Pc.admitted, Pc.flag, Pc.critical,
    Owns, LocalLockNode.init, currentOf]
  exact fun _ => ⟨rfl, Nat.le_refl _, by decide⟩

theorem acquisitions_le_step {m : Nat} {s s' : State} {a : Action} (hstep : step m s a = some s')
    (n : Nat) (l : LockAddr) :
    s.acquisitions n l ≤ s'.acquisitions n l ∧ s'.acquisitions n l ≤ s.acquisitions n l + 1 := by
  cases a with
  | acquire t l' =>
      simp only [step] at hstep
      split at hstep
      · cases hstep
        simp only [takeTicket]
        split <;> omega
      · cases hstep
  | run t sync =>
      simp only [step, runThread] at hstep
      have hsame : s'.acquisitions = s.acquisitions := by
        repeat' split at hstep
        all_goals first | cases hstep; done | (cases hstep; rfl)
      rw [hsame]
      omega
  | land l' =>
      simp only [step] at hstep
      split at hstep
      · cases hstep
        exact ⟨Nat.le_refl _, Nat.le_succ _⟩
      · cases hstep

theorem Inv.step {m : Nat} {s s' : State} {a : Action} (h : Inv s)
    (hstep : step m s a = some s') (hfew : ∀ n l, s'.acquisitions n l < 2 ^ 32) : Inv s' := by
  cases a with
  | acquire t l =>
      simp only [Handover.step] at hstep
      split at hstep
      · cases hstep
        refine h.take ?_
        have := hfew t.node l
        simpa [takeTicket] using this
      · cases hstep
  | run t sync =>
      simp only [Handover.step, runThread] at hstep
      cases hpc : s.pc t with
      | idle => simp [hpc] at hstep
      | failed l => simp [hpc] at hstep
      | spin l k c =>
          simp only [hpc] at hstep
          split at hstep
          · rename_i hkc
            cases hstep
            exact h.leave (hkc ▸ hpc)
          · cases hstep
            refine h.setPc t (by simp [Pc.queued, hpc]) rfl ?_
            rintro l' k' c' hp
            cases hp
            exact Nat.le_refl _
      | cas l k =>
          simp only [hpc] at hstep
          split at hstep
          · rename_i htag
            split at hstep
            · rename_i hzero
              cases hstep
              exact h.cas hpc htag hzero
            · cases hstep
              exact h
          · cases hstep
            exact h.setPc t (by simp [Pc.queued]) rfl (by simp)
      | holding l k b =>
          simp only [hpc] at hstep
          cases hstep
          exact h.decide m hpc
      | handing l k =>
          simp only [hpc] at hstep
          cases hstep
          exact h.release (k := k) (by rw [hpc]; rfl)
      | releasing l k =>
          simp only [hpc] at hstep
          cases hstep
          exact h.post hpc sync
      | posted l k sync' =>
          simp only [hpc] at hstep
          split at hstep
          · cases hstep
          · cases hstep
            exact h.release (k := k) (by rw [hpc]; rfl)
  | land l =>
      simp only [Handover.step] at hstep
      split at hstep
      · rename_i hl
        cases hstep
        exact h.land hl
      · cases hstep

/-- Every state reached before a slot saw its `2 ^ 32`-th acquisition satisfies the invariant. -/
theorem inv_of_reachable {m : Nat} {s : State} (h : (machine m).Reachable s)
    (hfew : ∀ n l, s.acquisitions n l < 2 ^ 32) : Inv s := by
  have hall : (∀ n l, s.acquisitions n l < 2 ^ 32) → Inv s := by
    refine h.invariant (I := fun s => (∀ n l, s.acquisitions n l < 2 ^ 32) → Inv s) ?_ ?_
    · rintro s rfl _
      exact inv_init
    · intro s a s' ih _ hstep hfew'
      refine (ih fun n l => ?_).step hstep hfew'
      exact Nat.lt_of_le_of_lt (acquisitions_le_step hstep n l).1 (hfew' n l)
  exact hall hfew

/--
**Mutual exclusion of the two-level lock.**  At most one thread of the cluster is
between the return of `try_lock_addr(l)` and its release of `l`; and a thread whose
`try_lock_addr` returned true holds a remote word that is its own node's tag and
that no posted 0 is about to overwrite.
-/
theorem mutual_exclusion {m : Nat} {s : State} (h : (machine m).Reachable s)
    (hfew : ∀ n l, s.acquisitions n l < 2 ^ 32) :
    (∀ t u l, (s.pc t).critical = some l → (s.pc u).critical = some l → t = u) ∧
    (∀ t l k, s.pc t = .holding l k true →
      s.remote l ≠ 0 ∧ s.remote l / 2 ^ 32 = t.node ∧ l ∉ s.zeros) := by
  have hinv := inv_of_reachable h hfew
  constructor
  · intro t u l ht hu
    have hnt := (hinv.owned t.node l (Or.inr ⟨t, rfl, ht⟩)).2.1
    have hnu := (hinv.owned u.node l (Or.inr ⟨u, rfl, hu⟩)).2.1
    obtain ⟨k, hk⟩ := admitted_of_critical ht
    obtain ⟨k', hk'⟩ := admitted_of_critical hu
    exact hinv.admitted_unique hk hk' (hnt.symm.trans hnu)
  · intro t l k hpc
    exact hinv.owned t.node l (Or.inr ⟨t, rfl, by rw [hpc]; rfl⟩)

/-- A run whose slots were acquired no more often than it has actions. -/
theorem acquisitions_le_exec {m : Nat} (as : List Action) {s s' : State}
    (h : (machine m).exec s as = some s') (n : Nat) (l : LockAddr) :
    s'.acquisitions n l ≤ s.acquisitions n l + as.length :=
  System.count_le_exec (f := fun s => s.acquisitions n l)
    (fun _ _ _ hstep => (acquisitions_le_step hstep n l).2) as h

/-- Thread 0 of node 0 takes the lock and hands it to thread 1, which queued meanwhile. -/
def handoverRun (a b : Thread) (l : LockAddr) : List Action :=
  [.acquire a l, .run a false, .run a false, .acquire b l, .run a false, .run a false,
    .run b false, .run b false]

theorem mutual_exclusion_handover : ∃ s,
    (machine 16).exec State.init (handoverRun ⟨0, 0, by decide⟩ ⟨0, 1, by decide⟩ ⟨0, 0⟩) = some s ∧
    s.pc ⟨0, 1, by decide⟩ = .holding ⟨0, 0⟩ 1 true ∧
    (∀ t u l, (s.pc t).critical = some l → (s.pc u).critical = some l → t = u) ∧
    s.remote ⟨0, 0⟩ ≠ 0 ∧ s.remote ⟨0, 0⟩ / 2 ^ 32 = 0 ∧ (⟨0, 0⟩ : LockAddr) ∉ s.zeros := by
  refine ⟨_, rfl, rfl, ?_⟩
  have hreach : (machine 16).Path _ State.init _ := System.path_of_exec
    (handoverRun ⟨0, 0, by decide⟩ ⟨0, 1, by decide⟩ ⟨0, 0⟩) rfl
  have hall := mutual_exclusion (m := 16) ⟨_, rfl, hreach⟩ (fun n l => by
    have := acquisitions_le_exec (m := 16) (s := State.init)
      (handoverRun ⟨0, 0, by decide⟩ ⟨0, 1, by decide⟩ ⟨0, 0⟩) rfl n l
    have h0 : State.init.acquisitions n l = 0 := rfl
    have h8 : (handoverRun ⟨0, 0, by decide⟩ ⟨0, 1, by decide⟩ ⟨0, 0⟩).length = 8 := rfl
    omega)
  exact ⟨hall.1, hall.2 ⟨0, 1, by decide⟩ ⟨0, 0⟩ 1 rfl⟩

end Dal.Handover
