/-
The ticket lock alone: `acquire_local_lock`, `can_hand_over` and `releases_local_lock`
of the `SHERMAN_LOCK` builds, called by any number of threads of one node.

`taken` lists the threads in the order of their `fetch_add`, `admitted` in the order
in which the loop of `acquire_local_lock` let them through; no step reads either.

Everything rests on the low half of the word being the number of tickets taken, so
the invariant is about runs in which no `fetch_add(1)` finds that half full.  The
last section shows what happens otherwise: the carry serves a ticket by itself.
-/
import Dal.Lock.Local
import Dal.Lib.Transition
import Mathlib.Logic.Function.Basic
import Mathlib.Data.Fintype.Card

namespace Dal.Ticket

inductive Pc
  | idle
  /-- The loop of `acquire_local_lock`, with the counter it loaded last. -/
  | spin (ticket current : Nat)
  /-- Admitted with this ticket. -/
  | holding (ticket : Nat)
  deriving DecidableEq, Repr

structure State (Thread : Type) where
  node : LocalLockNode
  pc : Thread → Pc
  taken : List Thread
  admitted : List Thread

def State.init (Thread : Type) : State Thread := ⟨.init, fun _ => .idle, [], []⟩

inductive Action (Thread : Type)
  /-- A thread calls `acquire_local_lock` and takes a ticket. -/
  | acquire (t : Thread)
  /-- One round of its loop. -/
  | spin (t : Thread)
  /-- The holder calls `can_hand_over`. -/
  | ask (t : Thread)
  /-- The holder calls `releases_local_lock`. -/
  | release (t : Thread)

section Machine

variable {Thread : Type} [DecidableEq Thread]

def State.setPc (s : State Thread) (t : Thread) (p : Pc) : State Thread :=
  { s with pc := Function.update s.pc t p }

def step (maxHandover : Nat) (s : State Thread) : Action Thread → Option (State Thread)
  | .acquire t =>
      match s.pc t with
      | .idle =>
          some { s.setPc t (.spin (ticketOf s.node.ticketLock) (currentOf s.node.ticketLock)) with
            node := s.node.fetchAdd 1
            taken := s.taken ++ [t] }
      | _ => none
  | .spin t =>
      match s.pc t with
      | .spin ticket current =>
          if ticket = current then
            some { s.setPc t (.holding ticket) with
              node := s.node.countHolder
              admitted := s.admitted ++ [t] }
          else some (s.setPc t (.spin ticket (currentOf s.node.ticketLock)))
      | _ => none
  | .ask t =>
      match s.pc t with
      | .holding _ => some { s with node := s.node.canHandOver maxHandover }
      | _ => none
  | .release t =>
      match s.pc t with
      | .holding _ => some { s.setPc t .idle with node := s.node.fetchAdd (2 ^ 32) }
      | _ => none

def machine (Thread : Type) [DecidableEq Thread] (maxHandover : Nat) :
    System (State Thread) (Action Thread) where
  Init := (· = State.init Thread)
  step := step maxHandover

/-! ### What the lock is for -/

/-- At most one thread is in, tickets are served in the order they were taken, and a yes of
`can_hand_over` means that another thread has a ticket and is not in yet. -/
structure Correct (maxHandover : Nat) (s : State Thread) : Prop where
  exclusive : ∀ t u i j, s.pc t = .holding i → s.pc u = .holding j → t = u
  fifo : s.admitted <+: s.taken
  honest : ∀ t i, s.pc t = .holding i → (s.node.canHandOver maxHandover).handOver = true →
    ∃ u j c, u ≠ t ∧ s.pc u = .spin j c

/-- The `fetch_add(1)` of an `acquire` does not find the low half full. -/
def Roomy (s : State Thread) : Action Thread → Prop
  | .acquire _ => ticketOf s.node.ticketLock + 1 < 2 ^ 32
  | _ => True

/-! ### The invariant -/

def Pc.ticket : Pc → Option Nat
  | .idle => none
  | .spin i _ | .holding i => some i

/-- `served` tickets have been given back.  The next one is in if any thread is. -/
structure Inv (s : State Thread) (served : Nat) : Prop where
  counts : s.node.Counts s.taken.length served
  mine : ∀ t i, (s.pc t).ticket = some i → s.taken[i]? = some t ∧ served ≤ i
  turn : ∀ t i, s.pc t = .holding i → i = served
  seen : ∀ t i c, s.pc t = .spin i c → c ≤ served
  out : ∀ i, served ≤ i → i < s.taken.length → ∃ t, (s.pc t).ticket = some i
  order : (∃ t, s.pc t = .holding served) ∧ s.admitted = s.taken.take (served + 1) ∨
    (∀ t i, s.pc t ≠ .holding i) ∧ s.admitted = s.taken.take served

omit [DecidableEq Thread] in
theorem inv_init : Inv (State.init Thread) 0 where
  counts := ⟨rfl, Nat.le_refl _, Nat.two_pow_pos 32⟩
  mine _ _ h := by cases h
  turn _ _ h := by cases h
  seen _ _ _ h := by cases h
  out _ _ h := absurd h (Nat.not_lt_zero _)
  order := Or.inr ⟨fun _ _ h => (by cases h), rfl⟩

variable {s s' : State Thread} {served : Nat}

@[simp] theorem setPc_self (t : Thread) (p : Pc) : (s.setPc t p).pc t = p := by
  simp [State.setPc]

theorem setPc_other {t u : Thread} {p : Pc} (h : u ≠ t) : (s.setPc t p).pc u = s.pc u := by
  simp [State.setPc, h]

/-- A thread that moves on with its ticket. -/
theorem setPc_ticket {t : Thread} {p : Pc} (h : p.ticket = (s.pc t).ticket) (u : Thread) :
    ((s.setPc t p).pc u).ticket = (s.pc u).ticket := by
  by_cases hu : u = t
  · rw [hu, setPc_self, h]
  · rw [setPc_other hu]

omit [DecidableEq Thread] in
/-- Two threads with the same ticket are the same thread. -/
theorem Inv.ticket_inj (inv : Inv s served) {t u : Thread} {i : Nat}
    (ht : (s.pc t).ticket = some i) (hu : (s.pc u).ticket = some i) : t = u := by
  have h := (inv.mine t i ht).1
  rw [(inv.mine u i hu).1] at h
  exact (Option.some.inj h).symm

theorem Inv.acquire (inv : Inv s served) {t : Thread} (hpc : s.pc t = .idle)
    (hroom : ticketOf s.node.ticketLock + 1 < 2 ^ 32) :
    Inv { s.setPc t (.spin (ticketOf s.node.ticketLock) (currentOf s.node.ticketLock)) with
      node := s.node.fetchAdd 1
      taken := s.taken ++ [t] } served := by
  have hticket := inv.counts.ticket
  have hcurrent := inv.counts.current
  have hle := inv.counts.le
  rw [hticket] at hroom
  rw [hticket, hcurrent]
  refine ⟨?_, ?_, ?_, ?_, ?_, ?_⟩
  · have hcounts := inv.counts.take hroom
    simpa using hcounts
  · intro u i hi
    by_cases hu : u = t
    · subst hu
      simp only [setPc_self, Pc.ticket, Option.some.injEq] at hi
      subst hi
      exact ⟨List.getElem?_concat_length, hle⟩
    · simp only [setPc_other hu] at hi
      obtain ⟨hold, hserved⟩ := inv.mine u i hi
      refine ⟨?_, hserved⟩
      have hlt : i < s.taken.length := (List.getElem?_eq_some_iff.mp hold).1
      show (s.taken ++ [t])[i]? = some u
      rw [List.getElem?_append_left hlt, hold]
  · intro u i hi
    by_cases hu : u = t
    · subst hu
      simp only [setPc_self] at hi
      cases hi
    · simp only [setPc_other hu] at hi
      exact inv.turn u i hi
  · intro u i c hi
    by_cases hu : u = t
    · subst hu
      simp only [setPc_self, Pc.spin.injEq] at hi
      omega
    · simp only [setPc_other hu] at hi
      exact inv.seen u i c hi
  · intro i hi hlt
    simp only [List.length_append, List.length_singleton] at hlt
    by_cases hlast : i = s.taken.length
    · refine ⟨t, ?_⟩
      simp only [setPc_self, Pc.ticket, hlast]
    · obtain ⟨u, hu⟩ := inv.out i hi (by omega)
      have hne : u ≠ t := by
        rintro rfl
        rw [hpc] at hu
        cases hu
      refine ⟨u, ?_⟩
      simp only [setPc_other hne]
      exact hu
  · have hkeep : ∀ n, n ≤ s.taken.length → (s.taken ++ [t]).take n = s.taken.take n :=
      fun n hn => List.take_append_of_le_length hn
    rcases inv.order with ⟨⟨u, hu⟩, hadm⟩ | ⟨hnone, hadm⟩
    · have hne : u ≠ t := by
        rintro rfl
        rw [hpc] at hu
        cases hu
      have hlt : served < s.taken.length := by
        have hmine := (inv.mine u served (by rw [hu]; rfl)).1
        exact (List.getElem?_eq_some_iff.mp hmine).1
      refine Or.inl ⟨⟨u, by simp only [setPc_other hne, hu]⟩, ?_⟩
      simp only [hkeep _ (Nat.succ_le_of_lt hlt)]
      exact hadm
    · refine Or.inr ⟨fun u i hi => ?_, ?_⟩
      · by_cases hu : u = t
        · subst hu
          simp only [setPc_self] at hi
          cases hi
        · simp only [setPc_other hu] at hi
          exact hnone u i hi
      · simp only [hkeep _ hle]
        exact hadm

/-- A round of the loop that only loads the counter again. -/
theorem Inv.reload (inv : Inv s served) {t : Thread} {ticket current : Nat}
    (hpc : s.pc t = .spin ticket current) :
    Inv (s.setPc t (.spin ticket (currentOf s.node.ticketLock))) served := by
  rw [inv.counts.current]
  have hticket := setPc_ticket (s := s) (t := t) (p := .spin ticket served) (by rw [hpc]; rfl)
  have hholding : ∀ u i, (s.setPc t (.spin ticket served)).pc u = .holding i ↔
      s.pc u = .holding i := by
    intro u i
    by_cases hu : u = t
    · rw [hu, setPc_self, hpc]
      exact ⟨fun h => (by cases h), fun h => (by cases h)⟩
    · rw [setPc_other hu]
  refine ⟨inv.counts, ?_, ?_, ?_, ?_, ?_⟩
  · intro u i hi
    exact inv.mine u i (hticket u ▸ hi)
  · intro u i hi
    exact inv.turn u i ((hholding u i).mp hi)
  · intro u i c hi
    by_cases hu : u = t
    · rw [hu, setPc_self] at hi
      cases hi
      exact Nat.le_refl _
    · rw [setPc_other hu] at hi
      exact inv.seen u i c hi
  · intro i hi hlt
    obtain ⟨u, hu⟩ := inv.out i hi hlt
    exact ⟨u, (hticket u).trans hu⟩
  · rcases inv.order with ⟨⟨u, hu⟩, hadm⟩ | ⟨hnone, hadm⟩
    · exact Or.inl ⟨⟨u, (hholding u served).mpr hu⟩, hadm⟩
    · exact Or.inr ⟨fun u i hi => hnone u i ((hholding u i).mp hi), hadm⟩

/-- The thread whose ticket is served gets in. -/
theorem Inv.admit (inv : Inv s served) {t : Thread} {ticket : Nat}
    (hpc : s.pc t = .spin ticket ticket) :
    Inv { s.setPc t (.holding ticket) with
      node := s.node.countHolder
      admitted := s.admitted ++ [t] } served := by
  obtain ⟨hmine, hle⟩ := inv.mine t ticket (by rw [hpc]; rfl)
  have hturn : ticket = served := Nat.le_antisymm (inv.seen t ticket ticket hpc) hle
  subst hturn
  have hticket := setPc_ticket (s := s) (t := t) (p := .holding ticket) (by rw [hpc]; rfl)
  refine ⟨inv.counts.countHolder, ?_, ?_, ?_, ?_, ?_⟩
  · intro u i hi
    exact inv.mine u i (hticket u ▸ hi)
  · intro u i hi
    by_cases hu : u = t
    · simp only [hu, setPc_self, Pc.holding.injEq] at hi
      exact hi.symm
    · simp only [setPc_other hu] at hi
      exact inv.turn u i hi
  · intro u i c hi
    by_cases hu : u = t
    · simp only [hu, setPc_self] at hi
      cases hi
    · simp only [setPc_other hu] at hi
      exact inv.seen u i c hi
  · intro i hi hlt
    obtain ⟨u, hu⟩ := inv.out i hi hlt
    exact ⟨u, (hticket u).trans hu⟩
  · -- Nobody was in: a holder would have the ticket of `t`.
    rcases inv.order with ⟨⟨u, hu⟩, -⟩ | ⟨-, hadm⟩
    · have heq : u = t := inv.ticket_inj (by rw [hu]; rfl) (by rw [hpc]; rfl)
      rw [heq, hpc] at hu
      cases hu
    · refine Or.inl ⟨⟨t, setPc_self t _⟩, ?_⟩
      show s.admitted ++ [t] = s.taken.take (ticket + 1)
      rw [List.take_add_one, hmine, hadm]
      rfl

omit [DecidableEq Thread] in
theorem Inv.ask (inv : Inv s served) (m : Nat) :
    Inv { s with node := s.node.canHandOver m } served :=
  ⟨inv.counts.canHandOver m, inv.mine, inv.turn, inv.seen, inv.out, inv.order⟩

theorem Inv.release (inv : Inv s served) {t : Thread} {ticket : Nat}
    (hpc : s.pc t = .holding ticket) :
    Inv { s.setPc t .idle with node := s.node.fetchAdd (2 ^ 32) } (served + 1) := by
  obtain rfl := inv.turn t ticket hpc
  obtain ⟨hmine, -⟩ := inv.mine t ticket (by rw [hpc]; rfl)
  have hlt : ticket < s.taken.length := (List.getElem?_eq_some_iff.mp hmine).1
  have halone : ∀ u i, u ≠ t → s.pc u ≠ .holding i := by
    intro u i hu hi
    have hi' := inv.turn u i hi
    subst hi'
    exact hu (inv.ticket_inj (by rw [hi]; rfl) (by rw [hpc]; rfl))
  refine ⟨inv.counts.serve hlt, ?_, ?_, ?_, ?_, ?_⟩
  · intro u i hi
    by_cases hu : u = t
    · simp only [hu, setPc_self] at hi
      cases hi
    · simp only [setPc_other hu] at hi
      obtain ⟨hget, hle⟩ := inv.mine u i hi
      refine ⟨hget, Nat.lt_of_le_of_ne hle fun heq => hu ?_⟩
      exact inv.ticket_inj hi (by rw [hpc, heq]; rfl)
  · intro u i hi
    by_cases hu : u = t
    · simp only [hu, setPc_self] at hi
      cases hi
    · simp only [setPc_other hu] at hi
      exact absurd hi (halone u i hu)
  · intro u i c hi
    by_cases hu : u = t
    · simp only [hu, setPc_self] at hi
      cases hi
    · simp only [setPc_other hu] at hi
      exact Nat.le_succ_of_le (inv.seen u i c hi)
  · intro i hi hi'
    obtain ⟨u, hu⟩ := inv.out i (by omega) hi'
    have hne : u ≠ t := by
      rintro rfl
      rw [hpc] at hu
      have heq : ticket = i := Option.some.inj hu
      omega
    refine ⟨u, ?_⟩
    simp only [setPc_other hne]
    exact hu
  · refine Or.inr ⟨fun u i hi => ?_, ?_⟩
    · by_cases hu : u = t
      · simp only [hu, setPc_self] at hi
        cases hi
      · simp only [setPc_other hu] at hi
        exact halone u i hu hi
    · rcases inv.order with ⟨-, hadm⟩ | ⟨hnone, -⟩
      · exact hadm
      · exact absurd hpc (hnone t ticket)

theorem Inv.step {m : Nat} (inv : Inv s served) (a : Action Thread) (hroom : Roomy s a)
    (h : Ticket.step m s a = some s') : ∃ served', Inv s' served' := by
  cases a with
  | acquire t =>
      simp only [Ticket.step] at h
      split at h
      · rename_i hpc
        cases h
        exact ⟨served, inv.acquire hpc hroom⟩
      · cases h
  | spin t =>
      simp only [Ticket.step] at h
      split at h
      · rename_i ticket current hpc
        split at h
        · rename_i heq
          cases h
          exact ⟨served, inv.admit (heq ▸ hpc)⟩
        · cases h
          exact ⟨served, inv.reload hpc⟩
      · cases h
  | ask t =>
      simp only [Ticket.step] at h
      split at h
      · cases h
        exact ⟨served, inv.ask m⟩
      · cases h
  | release t =>
      simp only [Ticket.step] at h
      split at h
      · rename_i hpc
        obtain rfl := Option.some.inj h
        exact ⟨served + 1, inv.release hpc⟩
      · cases h

theorem reachable_inv {m : Nat} (h : (machine Thread m).ReachableBy Roomy s) :
    ∃ served, Inv s served := by
  refine h.invariant (I := fun s => ∃ served, Inv s served) ?_ ?_
  · intro s hs
    exact ⟨0, hs ▸ inv_init⟩
  · intro s a s' ⟨served, inv⟩ hroom hstep
    exact inv.step a hroom hstep

omit [DecidableEq Thread] in
theorem Inv.correct (inv : Inv s served) (m : Nat) : Correct m s where
  exclusive t u i j ht hu := by
    have hi := inv.turn t i ht
    have hj := inv.turn u j hu
    exact inv.ticket_inj (by rw [ht]; rfl) (by rw [hu, hj, ← hi]; rfl)
  fifo := by
    rcases inv.order with ⟨-, hadm⟩ | ⟨-, hadm⟩
    · exact hadm ▸ List.take_prefix _ _
    · exact hadm ▸ List.take_prefix _ _
  honest t i ht hyes := by
    obtain rfl := inv.turn t i ht
    have hheld : i < s.taken.length := by
      have hmine := (inv.mine t i (by rw [ht]; rfl)).1
      exact (List.getElem?_eq_some_iff.mp hmine).1
    have hpending := inv.counts.pending_of_canHandOver hheld hyes
    obtain ⟨u, hu⟩ := inv.out (i + 1) (Nat.le_succ i) hpending
    cases hpc : s.pc u with
    | idle =>
        rw [hpc] at hu
        cases hu
    | spin j c =>
        refine ⟨u, j, c, fun heq => ?_, hpc⟩
        rw [heq, ht] at hpc
        cases hpc
    | holding j =>
        have hj := inv.turn u j hpc
        rw [hpc] at hu
        have : j = i + 1 := Option.some.inj hu
        omega

/-- **The ticket lock is correct as long as no `fetch_add(1)` finds the low half full.** -/
theorem ticket_lock_correct {m : Nat} (h : (machine Thread m).ReachableBy Roomy s) :
    Correct m s := by
  obtain ⟨served, inv⟩ := reachable_inv h
  exact inv.correct m

end Machine

/-! ### Two threads -/

/-- One thread waits for the other, which is asked whether it should hand over. -/
theorem ticket_lock_correct_two : ∃ s : State Bool,
    (machine Bool 16).exec (State.init Bool)
      [.acquire true, .spin true, .acquire false, .spin false, .ask true] = some s ∧
    Correct 16 s := by
  refine ⟨_, rfl, ?_⟩
  have hfirst : ticketOf (State.init Bool).node.ticketLock + 1 < 2 ^ 32 := by decide
  have hsecond : ticketOf ((State.init Bool).node.fetchAdd 1).ticketLock + 1 < 2 ^ 32 := by decide
  have hroomy : (machine Bool 16).ReachableBy Roomy _ :=
    ((((System.ReachableBy.tail ⟨_, rfl, .refl⟩ (.acquire true) hfirst rfl).tail
      (.spin true) trivial rfl).tail (.acquire false) hsecond rfl).tail
      (.spin false) trivial rfl).tail (.ask true) trivial rfl
  exact ticket_lock_correct hroomy

/-! ### The carry

One thread that takes the lock and lets it go `2 ^ 32 - 1` times leaves the word with
all its bits set.  Its next `fetch_add(1)` admits it and clears the word, and now
the ticket 0 of a second thread is the ticket being served.
-/

/-- Fewer than `2 ^ 32` threads are in the loop at once. -/
def FewWaiting {Thread : Type} (s : State Thread) : Prop :=
  ∀ ts : List Thread, ts.Nodup → (∀ t ∈ ts, ∃ i c, s.pc t = .spin i c) → ts.length < 2 ^ 32

theorem fewWaiting_bool (s : State Bool) : FewWaiting s := by
  intro ts hnodup _
  have hcard := hnodup.length_le_card
  rw [Fintype.card_bool] at hcard
  exact lt_of_le_of_lt hcard (by decide)

/-- A thread that finds its ticket being served is in after two steps. -/
theorem enter {m : Nat} {s : State Bool}
    (hs : (machine Bool m).ReachableBy (fun s _ => FewWaiting s) s) {t : Bool} (hidle : s.pc t = .idle)
    (hfree : ticketOf s.node.ticketLock = currentOf s.node.ticketLock) :
    ∃ s', (machine Bool m).ReachableBy (fun s _ => FewWaiting s) s' ∧
      s'.pc = Function.update s.pc t (.holding (ticketOf s.node.ticketLock)) ∧
      s'.node = (s.node.fetchAdd 1).countHolder := by
  have htaken := hs.tail (.acquire t) (fewWaiting_bool s) (by simp only [machine, step, hidle]; rfl)
  have hin : (machine Bool m).ReachableBy (fun s _ => FewWaiting s)
      { node := (s.node.fetchAdd 1).countHolder
        pc := Function.update s.pc t (.holding (ticketOf s.node.ticketLock))
        taken := s.taken ++ [t]
        admitted := s.admitted ++ [t] } := by
    refine htaken.tail (.spin t) (fewWaiting_bool _) ?_
    simp [machine, step, State.setPc, hfree]
  exact ⟨_, hin, rfl, rfl⟩

/-- Taken and let go `k` times, by one thread, while nobody else comes. -/
theorem cycles (m : Nat) : ∀ k, k < 2 ^ 32 → ∃ s : State Bool,
    (machine Bool m).ReachableBy (fun s _ => FewWaiting s) s ∧ (∀ t, s.pc t = .idle) ∧
      s.node.Counts k k := by
  intro k
  induction k with
  | zero =>
      intro _
      exact ⟨State.init Bool, ⟨_, rfl, .refl⟩, fun _ => rfl, rfl, Nat.le_refl _, by decide⟩
  | succ k ih =>
      intro hk
      obtain ⟨s, hs, hidle, hcounts⟩ := ih (by omega)
      have hfree : ticketOf s.node.ticketLock = currentOf s.node.ticketLock := by
        rw [hcounts.ticket, hcounts.current]
      obtain ⟨s', hs', hpc, hnode⟩ := enter hs (hidle true) hfree
      have hin : s'.pc true = .holding (ticketOf s.node.ticketLock) := by
        rw [hpc, Function.update_self]
      have hout : step m s' (.release true) =
          some { s'.setPc true .idle with node := s'.node.fetchAdd (2 ^ 32) } := by
        simp only [step, hin]
      have hidle' : ∀ t, (s'.setPc true .idle).pc t = .idle := by
        intro t
        cases t with
        | true => exact setPc_self true .idle
        | false =>
            rw [setPc_other Bool.false_ne_true, hpc, Function.update_of_ne Bool.false_ne_true]
            exact hidle false
      have hcounts' : (s'.node.fetchAdd (2 ^ 32)).Counts (k + 1) (k + 1) := by
        rw [hnode]
        exact (hcounts.take hk).countHolder.serve (Nat.lt_succ_self k)
      exact ⟨_, hs'.tail (.release true) (fewWaiting_bool s') hout, hidle', hcounts'⟩

/-- After `2 ^ 32 - 1` acquisitions the lock lets two threads in. -/
theorem ticket_lock_overflow : ¬ ∀ s : State Bool,
    (machine Bool 16).ReachableBy (fun s _ => FewWaiting s) s → Correct 16 s := by
  intro hall
  obtain ⟨s, hs, hidle, hcounts⟩ := cycles 16 (2 ^ 32 - 1) (by decide)
  have hword := hcounts.word
  have hfree : ticketOf s.node.ticketLock = currentOf s.node.ticketLock := by
    rw [hcounts.ticket, hcounts.current]
  obtain ⟨s₁, hs₁, hpc₁, hnode₁⟩ := enter hs (hidle true) hfree
  -- The carry: all 64 bits were set.
  have hzero : s₁.node.ticketLock = 0 := by
    rw [hnode₁, LocalLockNode.countHolder_ticketLock]
    show (s.node.ticketLock + 1) % 2 ^ 64 = 0
    omega
  have hout : s₁.pc false = .idle := by
    rw [hpc₁, Function.update_of_ne Bool.false_ne_true, hidle]
  have hfree₁ : ticketOf s₁.node.ticketLock = currentOf s₁.node.ticketLock := by
    rw [hzero]
    decide
  obtain ⟨s₂, hs₂, hpc₂, -⟩ := enter hs₁ hout hfree₁
  have hfalse : s₂.pc false = .holding (ticketOf s₁.node.ticketLock) := by
    rw [hpc₂, Function.update_self]
  have htrue : s₂.pc true = .holding (ticketOf s.node.ticketLock) := by
    rw [hpc₂, Function.update_of_ne (Ne.symm Bool.false_ne_true), hpc₁, Function.update_self]
  have hsame := (hall s₂ hs₂).exclusive true false _ _ htrue hfalse
  cases hsame

end Dal.Ticket
