/-
One client at work on its own, and what it may expect.

A `Session` is a fresh tree and the calls one client has made of it.  A call is made when
the last one has returned and every directory has processed the `NEW_ROOT` messages it was
sent.  The client's reads and writes of one page go through one queue pair, so a read waits
for a write of the page that the client has posted before it.  The index cache stays off:
`enable_cache` is never set.

The expectation is a map: a search returns what the latest update of its key has left.
-/
import Dal.Tree.Growth

namespace Dal.Tree

structure Session where
  state : State
  /-- The calls so far, the latest first. -/
  calls : List Op

/-- The directories without `enable_cache = true`. -/
def State.cacheOff (s : State) : State :=
  { s with directory := fun n => { s.directory n with enableCache := false } }

/-- The client is about to read a page it has posted a write of. -/
def State.lagging (cfg : Config) (s : State) (c : Client) : Bool :=
  match (s.clients c).pc with
  | .descend p _ =>
      match s.locks (cfg.lockAddr p) with
      | .posted (some (a, _)) => decide (a = p)
      | _ => false
  | _ => false

def Session.step (cfg : Config) (c : Client) (s : Session) : Action → Option Session
  | .call d op =>
      if d = c ∧ s.state.messages = [] then
        (Tree.step cfg s.state (.call c op)).map fun t => ⟨t, op :: s.calls⟩
      else none
  | .run d fresh waiter =>
      if s.state.lagging cfg d = false then
        (Tree.step cfg s.state (.run d fresh waiter)).map fun t => ⟨t, s.calls⟩
      else none
  | .land l => (Tree.step cfg s.state (.land l)).map fun t => ⟨t, s.calls⟩
  | .deliver message => (Tree.step cfg s.state (.deliver message)).map fun t => ⟨t.cacheOff, s.calls⟩
  | .evict _ _ => none

/-- A fresh tree and the calls of client `c`. -/
def sequential (cfg : Config) (c : Client) : System Session Action where
  Init s := ∃ root, root ≠ .Null ∧ s = ⟨State.init root, []⟩
  step := Session.step cfg c

/-- What the calls, the latest first, have left under `k`. -/
def latest (k : Nat) : List Op → Option Nat
  | [] => none
  | op :: calls => if op.updates = true ∧ op.key = k then op.stored else latest k calls

/-- What `search(k)` is to return after the calls. -/
def expected (k : Nat) (calls : List Op) : Response :=
  match latest k calls with
  | some v => .found v
  | none => .notFound

/-- The call has returned, and the directories know the root. -/
def Session.Returned (c : Client) (s : Session) : Prop :=
  (∃ r, (s.state.clients c).pc = .idle r) ∧ s.state.messages = []

/-- Any step but a call. -/
def Serving (_ : Session) (action : Action) : Prop := ∀ c op, action ≠ .call c op

/-! ### What a step of a session is a step of -/

section Step

variable {cfg : Config} {c : Client} {s s' : Session}

/-- A step of the session is a step of the tree, after which the cache may be turned off again. -/
theorem Session.step_cases {action : Action} (h : s.step cfg c action = some s') :
    (∃ op, action = .call c op ∧ s.state.messages = [] ∧ s'.calls = op :: s.calls ∧
      Tree.step cfg s.state action = some s'.state) ∨
    (∃ d fresh waiter, action = .run d fresh waiter ∧ s.state.lagging cfg d = false ∧
      s'.calls = s.calls ∧ runClient cfg s.state d fresh waiter = some s'.state) ∨
    (∃ l, action = .land l ∧ s'.calls = s.calls ∧ Tree.step cfg s.state action = some s'.state) ∨
    ∃ message t, action = .deliver message ∧ s'.calls = s.calls ∧
      Tree.step cfg s.state action = some t ∧ s'.state = t.cacheOff := by
  unfold Session.step at h
  split at h
  · rename_i d op
    split at h
    · rename_i hcall
      obtain ⟨rfl, hmessages⟩ := hcall
      obtain ⟨t, ht, rfl⟩ := Option.map_eq_some_iff.mp h
      exact Or.inl ⟨op, rfl, hmessages, rfl, ht⟩
    · cases h
  · rename_i d fresh waiter
    split at h
    · rename_i hlag
      obtain ⟨t, ht, rfl⟩ := Option.map_eq_some_iff.mp h
      exact Or.inr (Or.inl ⟨d, fresh, waiter, rfl, hlag, rfl, ht⟩)
    · cases h
  · rename_i l
    obtain ⟨t, ht, rfl⟩ := Option.map_eq_some_iff.mp h
    exact Or.inr (Or.inr (Or.inl ⟨l, rfl, rfl, ht⟩))
  · rename_i message
    obtain ⟨t, ht, rfl⟩ := Option.map_eq_some_iff.mp h
    exact Or.inr (Or.inr (Or.inr ⟨message, t, rfl, rfl, ht, rfl⟩))
  · cases h

/-- What the client reads in a descent is what the page holds. -/
theorem content_of_not_lagging {s : State} {p : GlobalAddress} {goal : Goal}
    (h : s.lagging cfg c = false) (hpc : (s.clients c).pc = .descend p goal) :
    s.content cfg p = s.mem p := by
  apply content_of_not_posted
  intro page hposted
  unfold State.lagging at h
  simp only [hpc, hposted, decide_true] at h
  cases h

end Step

end Dal.Tree
