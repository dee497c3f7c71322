/-
How often a node hands a lock to itself.

`acquire_local_lock` counts the holder in `hand_time`, `can_hand_over` compares the
count with `maxHandover` and clears it when the global lock is given back.  The count
is a `uint8_t` and the limit a `uint16_t`, so the comparison can say no only if the
limit is one the count can reach.

Both local locks are here: the ticket lock of `SHERMAN_LOCK`, whose word is read as
two counters, and `LITL`, where the word counts the threads in front of a mutex.  The
mutex lets one thread in at a time; the ticket lock lets in whoever has loaded its own
ticket, and that this is one thread at a time holds only while the tickets do not carry
into the other half of the word.  `holders` counts the threads that have had the lock
since the global lock was last given back, and no step reads it.
-/
import Dal.Lock.Local
import Dal.Lib.Transition

namespace Dal.HandTime

/-- Which local lock is compiled in. -/
inductive LocalLock
  | sherman
  | litl
  deriving DecidableEq, Repr

/-- `node.ticket_lock.fetch_add(-1)`. -/
def minusOne : Nat := 2 ^ 64 - 1

/-- `acquire_local_lock` from the admission on. -/
def LocalLock.admitted (b : LocalLock) (node : LocalLockNode) : LocalLockNode :=
  match b with
  | .sherman => node.countHolder
  | .litl => (node.fetchAdd minusOne).countHolder

/-- `can_hand_over`. -/
def LocalLock.canHandOver (b : LocalLock) (maxHandover : Nat) (node : LocalLockNode) :
    LocalLockNode :=
  match b with
  | .sherman => node.canHandOver maxHandover
  | .litl =>
      let handOver := decide (node.ticketLock > 0) && decide (node.handTime < maxHandover)
      { node with handOver := handOver, handTime := if handOver then node.handTime else 0 }

/-- `releases_local_lock`. -/
def LocalLock.released (b : LocalLock) (node : LocalLockNode) : LocalLockNode :=
  match b with
  | .sherman => node.fetchAdd (2 ^ 32)
  | .litl => node

/-- A thread in `acquire_local_lock`: its ticket, and `current` as it loaded it last. -/
structure Waiter where
  ticket : Nat
  current : Nat
  deriving DecidableEq, Repr

/-- The end of the loop of `acquire_local_lock`, or what the mutex waits for. -/
def LocalLock.lets (b : LocalLock) (inside : Nat) (w : Waiter) : Bool :=
  match b with
  | .sherman => decide (w.ticket = w.current)
  | .litl => decide (inside = 0)

structure State where
  node : LocalLockNode
  /-- The threads that have not been let in. -/
  waiting : List Waiter
  /-- How many threads are between their admission and their release. -/
  inside : Nat
  holders : Nat

def State.init : State := ⟨.init, [], 0, 0⟩

inductive Action
  /-- A thread calls `acquire_local_lock`. -/
  | arrive
  /-- One round of the loop of a waiting thread. -/
  | load (w : Waiter)
  /-- A waiting thread is let in. -/
  | enter (w : Waiter)
  /-- A thread that was let in calls `can_hand_over`, gives the global lock back unless the answer
  is yes, and lets the local lock go. -/
  | release

def step (b : LocalLock) (maxHandover : Nat) (s : State) : Action → Option State
  | .arrive =>
      some { s with
        node := s.node.fetchAdd 1
        waiting := ⟨ticketOf s.node.ticketLock, currentOf s.node.ticketLock⟩ :: s.waiting }
  | .load w =>
      if w ∈ s.waiting ∧ b = .sherman ∧ w.ticket ≠ w.current then
        some { s with waiting := ⟨w.ticket, currentOf s.node.ticketLock⟩ :: s.waiting.erase w }
      else none
  | .enter w =>
      if w ∈ s.waiting ∧ b.lets s.inside w then
        some
          { node := b.admitted s.node
            waiting := s.waiting.erase w
            inside := s.inside + 1
            holders := s.holders + 1 }
      else none
  | .release =>
      if 0 < s.inside then
        let node := b.canHandOver maxHandover s.node
        some
          { s with
            node := b.released node
            inside := s.inside - 1
            holders := if node.handOver then s.holders else 0 }
      else none

def machine (b : LocalLock) (maxHandover : Nat) : System State Action where
  Init := (· = State.init)
  step := step b maxHandover

/-! ### What the two functions do to the count -/

section

variable (b : LocalLock) (m : Nat) (node : LocalLockNode)

theorem fetchAdd_handTime (x : Nat) : (node.fetchAdd x).handTime = node.handTime := rfl

theorem admitted_handTime : (b.admitted node).handTime = (node.handTime + 1) % 256 := by
  cases b with
  | sherman => rfl
  | litl =>
      show ((node.fetchAdd minusOne).handTime + 1) % 256 = _
      rw [fetchAdd_handTime]

theorem released_handTime : (b.released node).handTime = node.handTime := by
  cases b with
  | sherman => exact fetchAdd_handTime node _
  | litl => rfl

/-- The count stays when the answer is yes and is cleared when it is no. -/
theorem canHandOver_handTime : (b.canHandOver m node).handTime =
    if (b.canHandOver m node).handOver then node.handTime else 0 := by
  cases b <;> rfl

/-- A yes means that the count is below the limit. -/
theorem handTime_lt (h : (b.canHandOver m node).handOver = true) : node.handTime < m := by
  cases b with
  | sherman =>
      simp only [LocalLock.canHandOver, LocalLockNode.canHandOver] at h
      split at h
      · cases h
      · exact of_decide_eq_true h
  | litl =>
      simp only [LocalLock.canHandOver, Bool.and_eq_true, decide_eq_true_eq] at h
      exact h.2

end

/-! ### One at a time -/

/-- With the ticket lock, the `fetch_add(1)` of `acquire_local_lock` does not find the low half of
the word full. -/
def Roomy (b : LocalLock) (s : State) : Action → Prop
  | .arrive => b = .sherman → ticketOf s.node.ticketLock + 1 < 2 ^ 32
  | _ => True

/-- `taken` tickets are out and `served` given back; who is inside has the next one. -/
structure Turns (s : State) (taken served : Nat) : Prop where
  counts : s.node.Counts taken served
  nodup : (s.waiting.map Waiter.ticket).Nodup
  waits : ∀ w ∈ s.waiting, served ≤ w.ticket ∧ w.ticket < taken ∧ w.current ≤ served
  one : s.inside ≤ 1
  held : 0 < s.inside → served < taken ∧ ∀ w ∈ s.waiting, w.ticket ≠ served

section

variable {m : Nat} {s s' : State} {taken served : Nat} {w : Waiter}

theorem turns_init : Turns .init 0 0 :=
  ⟨⟨rfl, Nat.le_refl _, Nat.two_pow_pos 32⟩, List.nodup_nil, fun _ h => (by cases h),
    Nat.zero_le _, fun h => absurd h (Nat.not_lt_zero _)⟩

theorem Turns.arrive (h : Turns s taken served)
    (hroom : ticketOf s.node.ticketLock + 1 < 2 ^ 32) :
    Turns { s with
      node := s.node.fetchAdd 1
      waiting := ⟨ticketOf s.node.ticketLock, currentOf s.node.ticketLock⟩ :: s.waiting }
      (taken + 1) served := by
  have hle := h.counts.le
  rw [h.counts.ticket, h.counts.current]
  rw [h.counts.ticket] at hroom
  refine ⟨h.counts.take hroom, ?_, fun w hw => ?_, h.one, fun hin => ?_⟩
  · refine List.nodup_cons.mpr ⟨fun hmem => ?_, h.nodup⟩
    obtain ⟨w, hw, heq⟩ := List.mem_map.mp hmem
    exact absurd heq (Nat.ne_of_lt (h.waits w hw).2.1)
  · rcases List.mem_cons.mp hw with rfl | hw
    · exact ⟨hle, Nat.lt_succ_self _, Nat.le_refl _⟩
    · obtain ⟨h₁, h₂, h₃⟩ := h.waits w hw
      exact ⟨h₁, Nat.lt_succ_of_lt h₂, h₃⟩
  · obtain ⟨hlt, hne⟩ := h.held hin
    refine ⟨Nat.lt_succ_of_lt hlt, fun w hw => ?_⟩
    rcases List.mem_cons.mp hw with rfl | hw
    · exact Nat.ne_of_gt hlt
    · exact hne w hw

/-- A thread that loads the counter again keeps its ticket. -/
theorem Turns.load (h : Turns s taken served) (hw : w ∈ s.waiting) :
    Turns { s with waiting := ⟨w.ticket, currentOf s.node.ticketLock⟩ :: s.waiting.erase w }
      taken served := by
  rw [h.counts.current]
  have hperm : ((w :: s.waiting.erase w).map Waiter.ticket).Perm (s.waiting.map Waiter.ticket) :=
    (List.perm_cons_erase hw).symm.map _
  have hsame : ∀ x ∈ (⟨w.ticket, served⟩ : Waiter) :: s.waiting.erase w, ∃ y ∈ s.waiting, y.ticket = x.ticket ∧
      (x.current = served ∨ x.current = y.current) := by
    intro x hx
    rcases List.mem_cons.mp hx with rfl | hx
    · exact ⟨w, hw, rfl, Or.inl rfl⟩
    · exact ⟨x, List.mem_of_mem_erase hx, rfl, Or.inr rfl⟩
  refine ⟨h.counts, hperm.nodup_iff.mpr h.nodup, fun x hx => ?_, h.one, fun hin => ?_⟩
  · obtain ⟨y, hy, hticket, hcurrent⟩ := hsame x hx
    have := h.waits y hy
    omega
  · refine ⟨(h.held hin).1, fun x hx => ?_⟩
    obtain ⟨y, hy, hticket, -⟩ := hsame x hx
    rw [← hticket]
    exact (h.held hin).2 y hy

/-- Whoever has loaded its own ticket has the one that is served, and finds nobody inside. -/
theorem Turns.turn (h : Turns s taken served) (hw : w ∈ s.waiting) (heq : w.ticket = w.current) :
    w.ticket = served ∧ s.inside = 0 := by
  obtain ⟨hge, -, hle⟩ := h.waits w hw
  have hserved : w.ticket = served := by omega
  refine ⟨hserved, Nat.eq_zero_of_not_pos fun hin => ?_⟩
  exact (h.held hin).2 w hw hserved

theorem Turns.enter (h : Turns s taken served) (hw : w ∈ s.waiting) (heq : w.ticket = w.current) :
    Turns
      { node := LocalLock.sherman.admitted s.node
        waiting := s.waiting.erase w
        inside := s.inside + 1
        holders := s.holders + 1 } taken served := by
  obtain ⟨hserved, hfree⟩ := h.turn hw heq
  have hmem : ∀ x ∈ s.waiting.erase w, x ∈ s.waiting := fun x hx => List.mem_of_mem_erase hx
  have hnodup : (w.ticket :: (s.waiting.erase w).map Waiter.ticket).Nodup :=
    ((List.perm_cons_erase hw).map Waiter.ticket).nodup_iff.mp h.nodup
  obtain ⟨hnot, hnodup⟩ := List.nodup_cons.mp hnodup
  refine ⟨h.counts.countHolder, hnodup, fun x hx => h.waits x (hmem x hx), ?_, fun _ => ?_⟩
  · show s.inside + 1 ≤ 1
    omega
  · refine ⟨hserved ▸ (h.waits w hw).2.1, fun x hx hx' => hnot ?_⟩
    rw [hserved, ← hx']
    exact List.mem_map_of_mem hx

theorem Turns.release (h : Turns s taken served) (hin : 0 < s.inside) (holders : Nat) :
    Turns
      { s with
        node := LocalLock.sherman.released (LocalLock.sherman.canHandOver m s.node)
        inside := s.inside - 1
        holders := holders } taken (served + 1) := by
  obtain ⟨hlt, hne⟩ := h.held hin
  have hone := h.one
  refine ⟨(h.counts.canHandOver m).serve hlt, h.nodup, fun w hw => ?_, ?_, fun hin' => ?_⟩
  · have := h.waits w hw
    have := hne w hw
    omega
  · show s.inside - 1 ≤ 1
    omega
  · have : 0 < s.inside - 1 := hin'
    omega

/-- While the tickets do not carry, the ticket lock lets in one thread at a time. -/
theorem Turns.step (h : Turns s taken served) {a : Action} (hroom : Roomy .sherman s a)
    (hstep : HandTime.step .sherman m s a = some s') : ∃ taken served, Turns s' taken served := by
  cases a with
  | arrive =>
      cases hstep
      exact ⟨_, _, h.arrive (hroom rfl)⟩
  | load w =>
      simp only [HandTime.step] at hstep
      split at hstep
      · rename_i hload
        cases hstep
        exact ⟨_, _, h.load hload.1⟩
      · cases hstep
  | enter w =>
      simp only [HandTime.step] at hstep
      split at hstep
      · rename_i hlets
        cases hstep
        exact ⟨_, _, h.enter hlets.1 (of_decide_eq_true hlets.2)⟩
      · cases hstep
  | release =>
      rw [HandTime.step] at hstep
      split at hstep
      · rename_i hin
        obtain rfl := Option.some.inj hstep
        exact ⟨taken, served + 1, h.release hin _⟩
      · cases hstep

end

/-! ### The bound -/

section

variable {b : LocalLock} {m : Nat} {s s' : State}

/-- `hand_time` is what eight bits keep of the number of holders. -/
theorem handTime_eq {G : State → Action → Prop} (h : (machine b m).ReachableBy G s) :
    s.node.handTime = s.holders % 256 := by
  refine h.invariant (I := fun s => s.node.handTime = s.holders % 256) ?_ ?_
  · intro s hs
    rw [hs]
    rfl
  · intro s a s' hs _ hstep
    cases a with
    | arrive =>
        cases hstep
        exact hs
    | load w =>
        simp only [machine, step] at hstep
        split at hstep
        · cases hstep
          exact hs
        · cases hstep
    | enter w =>
        simp only [machine, step] at hstep
        split at hstep
        · cases hstep
          show (b.admitted s.node).handTime = (s.holders + 1) % 256
          rw [admitted_handTime, hs, Nat.mod_add_mod]
        · cases hstep
    | release =>
        simp only [machine, step] at hstep
        split at hstep
        · cases hstep
          rw [released_handTime, canHandOver_handTime]
          split
          · exact hs
          · rfl
        · cases hstep

/-- Nobody is inside when a thread is let in. -/
theorem enter_free (h : (machine b m).ReachableBy (Roomy b) s) {w : Waiter}
    (hw : w ∈ s.waiting) (hlets : b.lets s.inside w = true) : s.inside = 0 := by
  cases b with
  | litl => exact of_decide_eq_true hlets
  | sherman =>
      have hturns : ∃ taken served, Turns s taken served := by
        refine h.invariant (I := fun s => ∃ taken served, Turns s taken served) ?_ ?_
        · intro s hs
          rw [hs]
          exact ⟨0, 0, turns_init⟩
        · rintro s a s' ⟨taken, served, hturns⟩ hroom hstep
          exact hturns.step hroom hstep
      obtain ⟨taken, served, hturns⟩ := hturns
      exact (hturns.turn hw (of_decide_eq_true hlets)).2

/-- While the count has not wrapped it is the number of holders, and the limit is kept. -/
theorem holders_le (hm : m ≤ 255) (h : (machine b m).ReachableBy (Roomy b) s) :
    s.holders ≤ max 1 m ∧ (s.inside = 0 → s.holders = 0 ∨ s.holders < m) := by
  obtain ⟨s₀, h₀, hpath⟩ := h
  induction hpath with
  | refl =>
      rw [h₀]
      exact ⟨Nat.zero_le _, fun _ => Or.inl rfl⟩
  | tail a hpath _ hstep ih =>
      have hreach : (machine b m).ReachableBy (Roomy b) _ := ⟨s₀, h₀, hpath⟩
      have hcount := handTime_eq hreach
      obtain ⟨hle, hfree⟩ := ih
      cases a with
      | arrive =>
          cases hstep
          exact ⟨hle, hfree⟩
      | load w =>
          simp only [machine, step] at hstep
          split at hstep
          · cases hstep
            exact ⟨hle, hfree⟩
          · cases hstep
      | enter w =>
          simp only [machine, step] at hstep
          split at hstep
          · rename_i hlets
            cases hstep
            refine ⟨?_, fun hin => absurd hin (Nat.succ_ne_zero _)⟩
            show _ + 1 ≤ max 1 m
            rcases hfree (enter_free hreach hlets.1 hlets.2) with h0 | hlt <;> omega
          · cases hstep
      | release =>
          simp only [machine, step] at hstep
          split at hstep
          · cases hstep
            split
            · rename_i hyes
              have hlt := handTime_lt b m _ hyes
              refine ⟨hle, fun _ => Or.inr ?_⟩
              rwa [hcount, Nat.mod_eq_of_lt (by omega)] at hlt
            · exact ⟨Nat.zero_le _, fun _ => Or.inl rfl⟩
          · cases hstep

/-! ### A limit the count cannot reach -/

/-- What the word says when one thread has the lock, `k` came before it and nobody waits. -/
def LocalLock.Alone (b : LocalLock) (k : Nat) (node : LocalLockNode) : Prop :=
  match b with
  | .sherman => node.Counts (k + 1) k
  | .litl => node.ticketLock = 0

/-- With a second thread waiting, and a limit above every count, the lock is handed over. -/
theorem LocalLock.Alone.hands {node : LocalLockNode} {k : Nat} (h : b.Alone k node)
    (hk : k + 2 < 2 ^ 32) (hcount : node.handTime < m) :
    (b.canHandOver m (node.fetchAdd 1)).handOver = true := by
  cases b with
  | sherman =>
      have hcounts : (node.fetchAdd 1).Counts (k + 2) k := LocalLockNode.Counts.take h hk
      simp only [LocalLock.canHandOver, LocalLockNode.canHandOver, hcounts.ticket, hcounts.current]
      rw [Nat.mod_eq_of_lt (by omega), if_neg (by omega), fetchAdd_handTime]
      exact decide_eq_true hcount
  | litl =>
      have hword : node.ticketLock = 0 := h
      simp only [LocalLock.canHandOver, LocalLockNode.fetchAdd, hword, Bool.and_eq_true,
        decide_eq_true_eq]
      exact ⟨by decide, hcount⟩

/-- The word once the lock is handed to the second thread, before that thread is admitted. -/
theorem LocalLock.Alone.turn {node : LocalLockNode} {k : Nat} (h : LocalLock.sherman.Alone k node)
    (hk : k + 2 < 2 ^ 32) :
    (LocalLock.sherman.released
      (LocalLock.sherman.canHandOver m (node.fetchAdd 1))).Counts (k + 2) (k + 1) := by
  have hcounts : (node.fetchAdd 1).Counts (k + 2) k := LocalLockNode.Counts.take h hk
  exact (hcounts.canHandOver m).serve (by omega)

/-- The thread that waited then has it. -/
theorem LocalLock.Alone.next {node : LocalLockNode} {k : Nat} (h : b.Alone k node)
    (hk : k + 2 < 2 ^ 32) :
    b.Alone (k + 1) (b.admitted (b.released (b.canHandOver m (node.fetchAdd 1)))) := by
  cases b with
  | sherman => exact (h.turn (m := m) hk).countHolder
  | litl =>
      have hword : node.ticketLock = 0 := h
      show ((node.ticketLock + 1) % 2 ^ 64 + minusOne) % 2 ^ 64 = 0
      rw [hword]
      decide

/-- The holder is joined by a second thread and hands it the lock. -/
theorem LocalLock.Alone.step (hm : 256 ≤ m) {k : Nat} (hk : k + 2 < 2 ^ 32)
    (hs : (machine b m).ReachableBy (Roomy b) s) (hinside : s.inside = 1) (hwaiting : s.waiting = [])
    (h : b.Alone k s.node) :
    (machine b m).ReachableBy (Roomy b)
      { node := b.admitted (b.released (b.canHandOver m (s.node.fetchAdd 1)))
        waiting := []
        inside := 1
        holders := s.holders + 1 } := by
  have hcount : s.node.handTime < m := by
    have heq := handTime_eq hs
    omega
  have hyes := h.hands hk hcount
  have hroom : Roomy b s .arrive := by
    rintro rfl
    have hold : s.node.Counts (k + 1) k := h
    rw [hold.ticket]
    exact hk
  have hreleased : (machine b m).ReachableBy (Roomy b)
      { node := b.released (b.canHandOver m (s.node.fetchAdd 1))
        waiting := [⟨ticketOf s.node.ticketLock, currentOf s.node.ticketLock⟩]
        inside := 0
        holders := s.holders } := by
    refine (hs.tail .arrive hroom rfl).tail .release trivial ?_
    simp only [machine, HandTime.step, hinside, hwaiting, Nat.one_pos, if_true, hyes, Nat.sub_self]
  cases b with
  | litl =>
      refine hreleased.tail (.enter ⟨ticketOf s.node.ticketLock, currentOf s.node.ticketLock⟩)
        trivial ?_
      simp [machine, HandTime.step, LocalLock.lets]
  | sherman =>
      have hcounts := h.turn (m := m) hk
      have hold : s.node.Counts (k + 1) k := h
      rw [hold.ticket, hold.current] at hreleased
      -- the thread that came second loads its own ticket now
      have hloaded := hreleased.tail (.load ⟨k + 1, k⟩) trivial
        (if_pos ⟨List.mem_singleton_self _, rfl, Nat.succ_ne_self k⟩)
      simp only [hcounts.current, List.erase_cons_head] at hloaded
      refine hloaded.tail (.enter ⟨k + 1, k + 1⟩) trivial ?_
      simp [machine, HandTime.step, LocalLock.lets]

/-- Any number of holders in a row. -/
theorem holders_grow (hm : 256 ≤ m) : ∀ k, k + 1 < 2 ^ 32 →
    ∃ s, (machine b m).ReachableBy (Roomy b) s ∧ s.inside = 1 ∧ s.waiting = [] ∧
      s.holders = k + 1 ∧ b.Alone k s.node := by
  intro k
  induction k with
  | zero =>
      intro _
      have hinit : (machine b m).ReachableBy (Roomy b) State.init := ⟨_, rfl, .refl⟩
      have hfirst : (machine b m).ReachableBy (Roomy b)
          { node := b.admitted (LocalLockNode.init.fetchAdd 1), waiting := [], inside := 1,
            holders := 1 } := by
        refine (hinit.tail .arrive (fun _ => by decide) rfl).tail (.enter ⟨0, 0⟩) trivial ?_
        refine if_pos ⟨List.mem_singleton_self _, ?_⟩
        cases b <;> rfl
      refine ⟨_, hfirst, rfl, rfl, rfl, ?_⟩
      cases b with
      | sherman => exact ⟨rfl, by decide, by decide⟩
      | litl =>
          show ((0 + 1) % 2 ^ 64 + minusOne) % 2 ^ 64 = 0
          decide
  | succ k ih =>
      intro hk
      obtain ⟨s, hs, hinside, hwaiting, hholders, halone⟩ := ih (by omega)
      refine ⟨_, LocalLock.Alone.step hm hk hs hinside hwaiting halone, rfl, rfl, ?_,
        halone.next hk⟩
      show s.holders + 1 = k + 1 + 1
      rw [hholders]

/--
**`maxHandover` bounds the local holders exactly when it fits in `hand_time`**, in the runs in
which the ticket lock does not carry.
-/
theorem bounded_handover_iff (b : LocalLock) {m : Nat} (hm : m < 2 ^ 16) :
    (∀ s, (machine b m).ReachableBy (Roomy b) s → s.holders ≤ max 1 m) ↔ m ≤ 255 := by
  constructor
  · intro hbound
    by_contra hlarge
    obtain ⟨s, hreach, -, -, hholders, -⟩ := holders_grow (b := b) (m := m) (by omega) m (by omega)
    have hle := hbound s hreach
    omega
  · intro hsmall s hs
    exact (holders_le hsmall hs).1

end

/-- Under the default limit. -/
theorem bounded_handover_default :
    (∀ s, (machine .sherman 16).ReachableBy (Roomy .sherman) s → s.holders ≤ max 1 16) ↔
      16 ≤ 255 :=
  bounded_handover_iff .sherman (by decide)

/-- The first limit the count cannot reach: 257 holders in a row. -/
theorem handover_unbounded :
    ¬ ∀ s, (machine .sherman 256).Reachable s → s.holders ≤ max 1 256 := by
  intro hbound
  obtain ⟨s, ⟨s₀, hinit, hpath⟩, -, -, hholders, -⟩ :=
    holders_grow (b := .sherman) (m := 256) (Nat.le_refl _) 256 (by decide)
  have hle := hbound s ⟨s₀, hinit, hpath.mono fun _ _ _ => trivial⟩
  omega

end Dal.HandTime
