/-
`DSMKeeper::barrier`: the nodes meet at a counter in the key-value store.

Node 0 sets the counter to 0, every node adds one, and every node polls until it
reads the number of nodes.  The key stays behind, so a name used again starts with
the counter of the last round, and node 0 may reset it while others have added to it
already or are still polling for that round.

What keeps this safe is that a counter that went past the number of nodes is of no
use to anybody until node 0 resets it.  Between two resets the counter is first the
number of distinct nodes that have added to it and are still polling; it reaches the
number of nodes only if every node is polling at once, and while it stays there each
of them may leave.  An addition that a reset wiped out leaves its node polling for
good, and the counter of that name never gets there again: some of the rounds below
may never end, but none ends early.  `passed` is the number of times it got there.
-/
import Dal.Lib.Transition
import Mathlib.Data.Fintype.Card

namespace Dal.Barrier

/-- The key of a barrier in the store. -/
def barrierKey (name : String) : String := "barrier-" ++ name

theorem barrierKey_inj {a b : String} (h : barrierKey a = barrierKey b) : a = b := by
  exact (String.append_right_inj _).mp h

/-- Where a node is in `barrier(name)`. -/
inductive Pc
  | idle
  /-- Node 0, before `memSet`. -/
  | set (name : String)
  /-- In the loop of `memFetchAndAdd`. -/
  | add (name : String)
  /-- In the loop around `memGet`. -/
  | poll (name : String)
  deriving DecidableEq, Repr

structure State (N : Nat) where
  store : String → Option Nat
  pc : Fin N → Pc
  /-- How often a node has called, and has returned from, `barrier(name)`. -/
  started : Fin N → String → Nat
  returned : Fin N → String → Nat

def State.init (N : Nat) : State N where
  store := fun _ => none
  pc := fun _ => .idle
  started := fun _ _ => 0
  returned := fun _ _ => 0

inductive Action (N : Nat)
  | call (n : Fin N) (name : String)
  /-- The node's next operation on the store. -/
  | run (n : Fin N)

variable {N : Nat}

def State.setPc (s : State N) (n : Fin N) (p : Pc) : State N :=
  { s with pc := Function.update s.pc n p }

/-- One more call, or return, of a node for a name. -/
def count (f : Fin N → String → Nat) (n : Fin N) (name : String) : Fin N → String → Nat :=
  fun m other => if m = n ∧ other = name then f m other + 1 else f m other

/-- Where a call begins. -/
def enter (n : Fin N) (name : String) : Pc := if n.val = 0 then .set name else .add name

def call (s : State N) (n : Fin N) (name : String) : State N :=
  { s.setPc n (enter n name) with started := count s.started n name }

def run (s : State N) (n : Fin N) : Option (State N) :=
  match s.pc n with
  | .idle => none
  | .set name =>
      some { s.setPc n (.add name) with
        store := Function.update s.store (barrierKey name) (some 0) }
  | .add name =>
      match s.store (barrierKey name) with
      | none => some s
      | some v =>
          some { s.setPc n (.poll name) with
            store := Function.update s.store (barrierKey name) (some (v + 1)) }
  | .poll name =>
      if s.store (barrierKey name) = some N then
        some { s.setPc n .idle with returned := count s.returned n name }
      else some s

def step (s : State N) : Action N → Option (State N)
  | .call n name => if s.pc n = .idle then some (call s n name) else none
  | .run n => run s n

/-- Every node calls `barrier` with any name at any time. -/
def machine (N : Nat) : System (State N) (Action N) where
  Init := (· = State.init N)
  step := step

/-! ### The invariant of one name -/

def Pc.polls (name : String) : Pc → Bool
  | .poll other => decide (other = name)
  | _ => false

def Pc.inside (name : String) : Pc → Bool
  | .idle => false
  | .set other | .add other | .poll other => decide (other = name)

/-- What the counter of a name is between two resets: the nodes in `added`, all of them still
polling, or a number that every node has had a part in. -/
inductive Phase (s : State N) (name : String) (passed : Nat) : Prop
  | counting (added : Finset (Fin N)) (value : (s.store (barrierKey name)).getD 0 = added.card)
      (few : added.card < N)
      (polling : ∀ n ∈ added, (s.pc n).polls name = true ∧ s.returned n name = passed)
  | reached (v : Nat) (value : s.store (barrierKey name) = some v) (many : N ≤ v)
      (leaving : v = N → ∀ n, (s.pc n).polls name = true → s.returned n name + 1 = passed)

structure Inv (s : State N) (name : String) (passed : Nat) : Prop where
  calls : ∀ n, s.started n name =
    s.returned n name + if (s.pc n).inside name then 1 else 0
  away : ∀ n, (s.pc n).polls name = false → s.returned n name = passed
  polls : ∀ n, (s.pc n).polls name = true →
    s.returned n name = passed ∨ s.returned n name + 1 = passed
  phase : Phase s name passed

@[simp] theorem enter_inside (n : Fin N) (other name : String) :
    (enter n other).inside name = decide (other = name) := by
  unfold enter
  split <;> rfl

@[simp] theorem enter_polls (n : Fin N) (other name : String) :
    (enter n other).polls name = false := by
  unfold enter
  split <;> rfl

theorem inside_of_polls {p : Pc} {name : String} (h : p.polls name = true) :
    p.inside name = true := by
  cases p with
  | poll other => exact h
  | idle => cases h
  | set other => cases h
  | add other => cases h

/-- A node has returned no more often than any other has called. -/
theorem Inv.returned_le {s : State N} {name : String} {passed : Nat} (inv : Inv s name passed)
    (n m : Fin N) : s.returned n name ≤ s.started m name := by
  have hn : s.returned n name ≤ passed := by
    cases h : (s.pc n).polls name with
    | false => exact (inv.away n h).le
    | true => rcases inv.polls n h with h | h <;> omega
  have hm : passed ≤ s.started m name := by
    rw [inv.calls m]
    cases h : (s.pc m).polls name with
    | false =>
        have := inv.away m h
        omega
    | true =>
        rw [inside_of_polls h, if_pos rfl]
        rcases inv.polls m h with h | h <;> omega
  exact hn.trans hm

/-! ### The steps -/

section

variable {s s' : State N} {name other : String} {passed : Nat} {n : Fin N}

theorem inv_init (hN : 0 < N) (name : String) : Inv (State.init N) name 0 where
  calls _ := rfl
  away _ _ := rfl
  polls _ h := by cases h
  phase := .counting ∅ rfl hN fun _ h => absurd h (Finset.notMem_empty _)

/-- A phase is about the counter, who polls and how often each has returned. -/
theorem Phase.congr (h : Phase s name passed)
    (hstore : s'.store (barrierKey name) = s.store (barrierKey name))
    (hpolls : ∀ m, (s'.pc m).polls name = (s.pc m).polls name)
    (hreturned : ∀ m, s'.returned m name = s.returned m name) : Phase s' name passed := by
  cases h with
  | counting added value few polling =>
      refine .counting added (hstore ▸ value) few fun m hm => ?_
      rw [hpolls m, hreturned m]
      exact polling m hm
  | reached v value many leaving =>
      refine .reached v (hstore ▸ value) many fun hv m hm => ?_
      rw [hpolls m] at hm
      rw [hreturned m]
      exact leaving hv m hm

/-- An operation under which nothing of this name changes, or only the counter. -/
theorem Inv.congr (inv : Inv s name passed)
    (hstarted : ∀ m, s'.started m name = s.started m name)
    (hreturned : ∀ m, s'.returned m name = s.returned m name)
    (hinside : ∀ m, (s'.pc m).inside name = (s.pc m).inside name)
    (hpolls : ∀ m, (s'.pc m).polls name = (s.pc m).polls name)
    (hphase : Phase s' name passed) : Inv s' name passed where
  calls m := by
    rw [hstarted m, hreturned m, hinside m]
    exact inv.calls m
  away m h := by
    rw [hpolls m] at h
    rw [hreturned m]
    exact inv.away m h
  polls m h := by
    rw [hpolls m] at h
    rw [hreturned m]
    exact inv.polls m h
  phase := hphase

/-- What a change of one node's place in the code does to a question about places. -/
theorem setPc_congr {p : Pc} (f : Pc → Bool) (h : f p = f (s.pc n)) (m : Fin N) :
    f ((s.setPc n p).pc m) = f (s.pc m) := by
  by_cases hm : m = n
  · simp [State.setPc, hm, h]
  · simp [State.setPc, hm]

theorem Inv.call (inv : Inv s name passed) (hpc : s.pc n = .idle) (other : String) :
    Inv (call s n other) name passed := by
  have hpolls := setPc_congr (s := s) (n := n) (p := enter n other) (Pc.polls name)
    (by rw [hpc, enter_polls]; rfl)
  refine ⟨fun m => ?_, fun m h => ?_, fun m h => ?_, inv.phase.congr rfl hpolls fun _ => rfl⟩
  · have hcalls := inv.calls m
    by_cases hm : m = n
    · subst hm
      have hidle : Pc.idle.inside name = false := rfl
      rw [hpc, hidle] at hcalls
      by_cases hname : other = name
      · simpa [Barrier.call, count, State.setPc, hname] using hcalls
      · simpa [Barrier.call, count, State.setPc, hname, Ne.symm hname] using hcalls
    · simpa [Barrier.call, count, State.setPc, hm] using hcalls
  · exact inv.away m ((hpolls m).symm.trans h)
  · exact inv.polls m ((hpolls m).symm.trans h)

/-- Node 0 resets the counter: whatever was added is forgotten. -/
theorem Inv.set (inv : Inv s name passed) (hpc : s.pc n = .set other) :
    Inv { s.setPc n (.add other) with
      store := Function.update s.store (barrierKey other) (some 0) } name passed := by
  have hN : 0 < N := Nat.lt_of_le_of_lt (Nat.zero_le _) n.isLt
  have hpolls := setPc_congr (s := s) (n := n) (p := .add other) (Pc.polls name) (by rw [hpc]; rfl)
  have hinside := setPc_congr (s := s) (n := n) (p := .add other) (Pc.inside name)
    (by rw [hpc]; rfl)
  refine inv.congr (fun _ => rfl) (fun _ => rfl) hinside hpolls ?_
  by_cases hname : name = other
  · subst hname
    refine .counting ∅ ?_ hN fun _ h => absurd h (Finset.notMem_empty _)
    simp
  · refine inv.phase.congr ?_ hpolls fun _ => rfl
    exact Function.update_of_ne (fun h => hname (barrierKey_inj h)) _ _

/-- What a change of one node's place leaves at the others. -/
theorem setPc_of_ne {p : Pc} {m : Fin N} (h : m ≠ n) : (s.setPc n p).pc m = s.pc m := by
  simp [State.setPc, h]

theorem setPc_self {p : Pc} : (s.setPc n p).pc n = p := by
  simp [State.setPc]

/-- A node adds one to the counter of the name.  If that makes it the number of nodes, all of
them are polling. -/
theorem Inv.add (inv : Inv s name passed) (hpc : s.pc n = .add name) {v : Nat}
    (hstore : s.store (barrierKey name) = some v) :
    ∃ passed', Inv { s.setPc n (.poll name) with
      store := Function.update s.store (barrierKey name) (some (v + 1)) } name passed' := by
  have haway : (s.pc n).polls name = false := by
    rw [hpc]
    rfl
  have hreturned := inv.away n haway
  have hself : ((s.setPc n (.poll name)).pc n).polls name = true := by
    rw [setPc_self]
    exact decide_eq_true rfl
  have hinside := setPc_congr (s := s) (n := n) (p := .poll name) (Pc.inside name)
    (by rw [hpc]; rfl)
  have hcalls : ∀ m, s.started m name =
      s.returned m name + if ((s.setPc n (.poll name)).pc m).inside name then 1 else 0 := by
    intro m
    rw [hinside m]
    exact inv.calls m
  have haway' : ∀ m, ((s.setPc n (.poll name)).pc m).polls name = false →
      s.returned m name = passed := by
    intro m h
    by_cases hm : m = n
    · rw [hm, hself] at h
      cases h
    · rw [setPc_of_ne hm] at h
      exact inv.away m h
  have hpolls' : ∀ m, ((s.setPc n (.poll name)).pc m).polls name = true →
      s.returned m name = passed ∨ s.returned m name + 1 = passed := by
    intro m h
    by_cases hm : m = n
    · exact Or.inl (hm ▸ hreturned)
    · rw [setPc_of_ne hm] at h
      exact inv.polls m h
  have hvalue : Function.update s.store (barrierKey name) (some (v + 1)) (barrierKey name) =
      some (v + 1) := Function.update_self _ _ _
  cases inv.phase with
  | counting added value few polling =>
      have hnew : n ∉ added := fun h => by
        have hp := (polling n h).1
        rw [haway] at hp
        cases hp
      have hv : v = added.card := by
        rw [hstore] at value
        exact value
      have hcard : (insert n added).card = v + 1 := by
        rw [Finset.card_insert_of_notMem hnew, hv]
      have hjoined : ∀ m ∈ insert n added,
          ((s.setPc n (.poll name)).pc m).polls name = true ∧ s.returned m name = passed := by
        intro m hm
        by_cases hmn : m = n
        · exact ⟨hmn ▸ hself, hmn ▸ hreturned⟩
        · rw [setPc_of_ne hmn]
          exact polling m (Finset.mem_of_mem_insert_of_ne hm hmn)
      by_cases hfull : v + 1 = N
      · -- Every node has added, so none has returned since the reset.
        have hall : ∀ m, m ∈ insert n added := by
          have huniv : insert n added = Finset.univ := by
            rw [← Finset.card_eq_iff_eq_univ, hcard, hfull, Fintype.card_fin]
          intro m
          rw [huniv]
          exact Finset.mem_univ m
        refine ⟨passed + 1, hcalls, ?_, ?_, .reached (v + 1) hvalue hfull.ge ?_⟩
        · intro m h
          rw [(hjoined m (hall m)).1] at h
          cases h
        · intro m _
          exact Or.inr (congrArg (· + 1) (hjoined m (hall m)).2)
        · intro _ m _
          exact congrArg (· + 1) (hjoined m (hall m)).2
      · refine ⟨passed, hcalls, haway', hpolls', .counting (insert n added) ?_ ?_ hjoined⟩
        · exact (congrArg (Option.getD · 0) hvalue).trans hcard.symm
        · rw [hcard]
          omega
  | reached w value many leaving =>
      rw [hstore] at value
      obtain rfl := Option.some.inj value
      refine ⟨passed, hcalls, haway', hpolls', .reached (v + 1) hvalue (by omega) ?_⟩
      intro h
      omega

/-- A node that reads the number of nodes returns. -/
theorem Inv.leave (inv : Inv s name passed) (hpc : s.pc n = .poll name)
    (hstore : s.store (barrierKey name) = some N) :
    Inv { s.setPc n .idle with returned := count s.returned n name } name passed := by
  have hself : (s.pc n).polls name = true := by
    rw [hpc]
    exact decide_eq_true rfl
  cases inv.phase with
  | counting added value few polling =>
      rw [hstore] at value
      have : N = added.card := value
      omega
  | reached v value many leaving =>
      rw [hstore] at value
      obtain rfl := Option.some.inj value
      have hmine := leaving rfl n hself
      refine ⟨?_, ?_, ?_, .reached N hstore (Nat.le_refl N) ?_⟩
      · intro m
        have hcalls := inv.calls m
        by_cases hm : m = n
        · subst hm
          rw [inside_of_polls hself] at hcalls
          simpa [State.setPc, count, Pc.inside] using hcalls
        · simpa [State.setPc, count, hm] using hcalls
      · intro m h
        by_cases hm : m = n
        · subst hm
          simpa [count] using hmine
        · rw [setPc_of_ne hm] at h
          simpa [count, hm] using inv.away m h
      · intro m h
        by_cases hm : m = n
        · rw [hm, setPc_self] at h
          cases h
        · rw [setPc_of_ne hm] at h
          simpa [count, hm] using inv.polls m h
      · intro _ m h
        by_cases hm : m = n
        · rw [hm, setPc_self] at h
          cases h
        · rw [setPc_of_ne hm] at h
          simpa [count, hm] using leaving rfl m h

/-- An operation on the counter of another name. -/
theorem Inv.elsewhere (inv : Inv s name passed) {p : Pc}
    (hpolls : p.polls name = (s.pc n).polls name) (hinside : p.inside name = (s.pc n).inside name)
    (store : String → Option Nat) (hstore : store (barrierKey name) = s.store (barrierKey name))
    (returned : Fin N → String → Nat) (hreturned : ∀ m, returned m name = s.returned m name) :
    Inv { s.setPc n p with store := store, returned := returned } name passed :=
  inv.congr (fun _ => rfl) hreturned (setPc_congr _ hinside) (setPc_congr _ hpolls)
    (inv.phase.congr hstore (setPc_congr _ hpolls) hreturned)

theorem Inv.step (inv : Inv s name passed) (a : Action N) (h : Barrier.step s a = some s') :
    ∃ passed', Inv s' name passed' := by
  cases a with
  | call n other =>
      simp only [Barrier.step] at h
      split at h
      · rename_i hpc
        cases h
        exact ⟨passed, inv.call hpc other⟩
      · cases h
  | run n =>
      simp only [Barrier.step, run] at h
      split at h
      · cases h
      · rename_i other hpc
        cases h
        exact ⟨passed, inv.set hpc⟩
      · rename_i other hpc
        split at h
        · cases h
          exact ⟨passed, inv⟩
        · rename_i v hv
          cases h
          by_cases hname : other = name
          · subst hname
            exact inv.add hpc hv
          · refine ⟨passed, inv.elsewhere ?_ ?_ _ ?_ s.returned fun _ => rfl⟩
            · simp [hpc, Pc.polls, hname]
            · simp [hpc, Pc.inside, hname]
            · exact Function.update_of_ne (fun h => hname (barrierKey_inj h).symm) _ _
      · rename_i other hpc
        split at h
        · rename_i hv
          cases h
          by_cases hname : other = name
          · subst hname
            exact ⟨passed, inv.leave hpc hv⟩
          · refine ⟨passed, inv.elsewhere ?_ ?_ s.store rfl _ fun m => ?_⟩
            · simp [hpc, Pc.polls, hname]
            · simp [hpc, Pc.inside, hname]
            · simp [count, Ne.symm hname]
        · cases h
          exact ⟨passed, inv⟩

end

/--
**No node returns from its `r`-th call of a barrier before every node has started its own.**

The nodes need not even agree on the order of the names.
-/
theorem barrier_safe {s : State N} (h : (machine N).Reachable s) (n m : Fin N) (name : String) :
    s.returned n name ≤ s.started m name := by
  have hN : 0 < N := Nat.lt_of_le_of_lt (Nat.zero_le _) n.isLt
  have hinv : ∃ passed, Inv s name passed := by
    refine h.invariant (I := fun s => ∃ passed, Inv s name passed) ?_ ?_
    · intro s hs
      exact ⟨0, hs ▸ inv_init hN name⟩
    · intro s a s' ⟨passed, inv⟩ _ hstep
      exact inv.step a hstep
  obtain ⟨passed, inv⟩ := hinv
  exact inv.returned_le n m

/-- Node 1 comes second, adds one and leaves. -/
theorem barrier_safe_two : ∃ s : State 2,
    (machine 2).exec (State.init 2)
      [.call 0 "fin", .run 0, .run 0, .call 1 "fin", .run 1, .run 1] = some s ∧
    s.returned 1 "fin" = 1 ∧ s.returned 1 "fin" ≤ s.started 0 "fin" := by
  have hrun : ((machine 2).exec (State.init 2)
      [.call 0 "fin", .run 0, .run 0, .call 1 "fin", .run 1, .run 1]).map
        (fun s => s.returned 1 "fin") = some 1 := by
    decide +kernel
  obtain ⟨s, hs, hreturned⟩ := Option.map_eq_some_iff.mp hrun
  exact ⟨s, hs, hreturned, barrier_safe ⟨_, rfl, System.path_of_exec _ hs⟩ 1 0 "fin"⟩

end Dal.Barrier
