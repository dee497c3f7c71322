/-
The tree without its index cache.

Only three steps of a client ask whether the cache is on: the start of an operation, the
look into the cache of a search, and the reading of a page.  All others are the same with
another cache, on or off, and so are calls, posted writes and messages.  And a client that
has found the page it works on does not come back to those three, if it came from the root.
-/
import Dal.Tree.Solo

namespace Dal.Tree

/-! ### Without the cache -/

/-- The same tree with the cache off, and empty. -/
def State.uncached (s : State) : State := { s.cacheOff with cache := fun _ => [] }

/-- The same tree with another cache, which is on where `enabled` says so. -/
def State.view (s : State) (cache : Nat → IndexCache) (enabled : Nat → Bool) : State :=
  { s with
    cache := cache
    directory := fun n => { s.directory n with enableCache := enabled n } }

/-- The client has found the page it works on. -/
def Pc.past : Pc → Bool
  | .lock _ _ | .read _ _ | .loaded _ _ _ | .linked _ _ _ _ | .unlock _ _ _ | .grow _ _ _ _
  | .casRoot _ _ _ _ _ | .idle _ => true
  | _ => false

section Uncached

variable {cfg : Config} {s s' : State} {c : Client}

variable {cache : Nat → IndexCache} {enabled : Nat → Bool}

theorem loaded_view (p : GlobalAddress) (task : Task) (page : Page) (fresh : GlobalAddress)
    (waiter : Option Client) : loaded cfg (s.view cache enabled) c p task page fresh waiter =
      (loaded cfg s c p task page fresh waiter).map (State.view · cache enabled) := by
  have hrelease : ∀ async, release cfg (s.view cache enabled) c p waiter async =
      release cfg s c p waiter async := fun _ => rfl
  unfold loaded
  rw [show (s.view cache enabled).clients = s.clients from rfl,
    show (s.view cache enabled).mem = s.mem from rfl]
  cases task.outcome (s.clients c).op page with
  | fail why => rfl
  | split left right splitKey =>
      simp only
      split <;> rfl
  | _ =>
      simp only [hrelease, Option.map_map]
      rfl

theorem linked_view (p : GlobalAddress) (task : Task) (page : Page) (sibling : GlobalAddress)
    (waiter : Option Client) : linked cfg (s.view cache enabled) c p task page sibling waiter =
      (linked cfg s c p task page sibling waiter).map (State.view · cache enabled) := by
  have hrelease : ∀ async, release cfg (s.view cache enabled) c p waiter async =
      release cfg s c p waiter async := fun _ => rfl
  unfold linked
  rw [show (s.view cache enabled).clients = s.clients from rfl]
  cases task.outcome (s.clients c).op page with
  | split left right splitKey =>
      simp only [hrelease, Option.map_map]
      congr 1
      funext mode
      cases mode <;> rfl
  | _ => rfl

/-- A step that does not ask for the cache is the same with another one. -/
theorem run_view {fresh : GlobalAddress} {waiter : Option Client}
    (hpc : (s.clients c).pc.past = true ∨ (∃ use, (s.clients c).pc = .getRoot use) ∨
      ∃ use, (s.clients c).pc = .readRoot use) :
    runClient cfg (s.view cache enabled) c fresh waiter =
      (runClient cfg s c fresh waiter).map (State.view · cache enabled) := by
  unfold runClient
  simp only [show (s.view cache enabled).clients = s.clients from rfl,
    show (s.view cache enabled).mem = s.mem from rfl,
    show (s.view cache enabled).locks = s.locks from rfl, loaded_view, linked_view]
  generalize (s.clients c).pc = pc at hpc
  cases pc with
  | idle response | readRoot use | unlock p mode after => rfl
  | loaded p task page | linked p task page sibling => rfl
  | getRoot use =>
      show (if (s.directory c.node).rootPtr = .Null then _ else _) = _
      simp only
      split <;> rfl
  | lock p task =>
      simp only
      cases s.locks (cfg.lockAddr p) with
      | handed n =>
          simp only
          split <;> rfl
      | _ => rfl
  | read p task =>
      simp only
      cases s.mem p <;> rfl
  | grow p task splitKey sibling =>
      simp only
      split <;> rfl
  | casRoot p task splitKey sibling newRoot =>
      simp only [casRoot]
      show some (if s.rootPtr = (s.clients c).root then _ else _) = _
      split <;> rfl
  | _ => rcases hpc with hpast | ⟨use, huse⟩ | ⟨use, huse⟩ <;> contradiction

theorem run_uncached {fresh : GlobalAddress} {waiter : Option Client}
    (hpc : (s.clients c).pc.past = true ∨ (∃ use, (s.clients c).pc = .getRoot use) ∨
      ∃ use, (s.clients c).pc = .readRoot use) :
    runClient cfg s.uncached c fresh waiter =
      (runClient cfg s c fresh waiter).map State.uncached := run_view hpc

theorem call_uncached (op : Op) :
    Tree.step cfg s.uncached (.call c op) = (Tree.step cfg s (.call c op)).map State.uncached := by
  simp only [Tree.step, show s.uncached.clients = s.clients from rfl]
  cases (s.clients c).pc with
  | idle r =>
      simp only
      split <;> rfl
  | _ => rfl

theorem land_uncached (l : LockAddr) :
    Tree.step cfg s.uncached (.land l) = (Tree.step cfg s (.land l)).map State.uncached := by
  simp only [Tree.step, show s.uncached.locks = s.locks from rfl]
  cases s.locks l with
  | posted write => cases write <;> rfl
  | _ => rfl

/-- A message is processed alike, but for turning the cache on. -/
theorem deliver_uncached (message : Nat × GlobalAddress × Nat) :
    (Tree.step cfg s.uncached (.deliver message)).map State.cacheOff =
      (Tree.step cfg s (.deliver message)).map State.uncached := by
  obtain ⟨n, a, l⟩ := message
  have hnew : ∀ d : Directory, { ({ d with enableCache := false } : Directory).newRoot a l with
      enableCache := false } = { d.newRoot a l with enableCache := false } := by
    intro d
    unfold Directory.newRoot
    simp only
    split <;> rfl
  have hdir : ∀ i, { Function.update s.uncached.directory n ((s.uncached.directory n).newRoot a l) i
      with enableCache := false } =
      { Function.update s.directory n ((s.directory n).newRoot a l) i with enableCache := false } := by
    intro i
    by_cases hi : i = n
    · subst hi
      rw [Function.update_self, Function.update_self]
      exact hnew _
    · rw [Function.update_of_ne hi, Function.update_of_ne hi]
      rfl
  simp only [Tree.step, show s.uncached.messages = s.messages from rfl]
  split
  · exact congrArg (fun directory => some { s with
      directory := directory
      cache := fun _ => []
      messages := s.messages.erase (n, a, l) }) (funext hdir)
  · rfl

theorem uncached_eq {s : State} (h : ∀ n, s.cache n = []) : s.uncached = s.cacheOff := by
  have hcache : s.cache = fun _ => [] := funext h
  unfold State.uncached State.cacheOff
  rw [hcache]

end Uncached

/-! ### After the descent -/

section Past

variable {cfg : Config} {c : Client} {s s' : State} {m : Chart} {root : GlobalAddress} {top : Nat}
  {x : Local}

theorem past_postUp {task : Task} {k : Nat} {sibling : GlobalAddress}
    (h : FromRoot root top x task) (hrunning : ∀ why, postUp x task k sibling ≠ .failed why) :
    (postUp x task k sibling).past = true := by
  rcases postUp_cases x task k sibling with ⟨-, hpc⟩ | ⟨-, ⟨entry, rfl⟩, -⟩ | ⟨-, -, why, -, hpc⟩
  · rw [hpc]
    rfl
  · cases h.plain
  · exact absurd hpc (hrunning why)

theorem past_afterUnlock {p : GlobalAddress} {mode : Release} {after : After}
    (h : Straight m root top x (.unlock p mode after))
    (hrunning : ∀ why, afterUnlock x after ≠ .failed why) : (afterUnlock x after).past = true := by
  cases after with
  | done => rfl
  | stale entry => exact h.elim
  | right task sibling =>
      by_cases hnull : sibling = .Null
      · exact absurd (if_pos hnull) (hrunning .sibling)
      · rw [show afterUnlock x (.right task sibling) = .lock sibling task.uncached from if_neg hnull]
        rfl
  | split q task splitKey sibling =>
      by_cases hroot : x.root = q
      · rw [show afterUnlock x (.split q task splitKey sibling) = .grow q task splitKey sibling from
          if_pos hroot]
        rfl
      · have hpost : afterUnlock x (.split q task splitKey sibling) =
            postUp x task splitKey sibling := if_neg hroot
        rw [hpost] at hrunning ⊢
        exact past_postUp h hrunning

/-- A client that has found its page does not look for one again, if it has come from the root. -/
theorem past_run {fresh : GlobalAddress} {waiter : Option Client}
    (hstraight : Straight m root top (s.clients c) (s.clients c).pc)
    (hpast : (s.clients c).pc.past = true) (hrunning : ∀ why, (s'.clients c).pc ≠ .failed why)
    (hstep : runClient cfg s c fresh waiter = some s') : (s'.clients c).pc.past = true := by
  have hturn := run_turned hstep
  generalize (s.clients c).pc = pc at hturn hstraight hpast
  cases hturn with
  | start | toRead use hroot | known use hroot | readRoot use | searchCache | descend p goal
  | cachingError p page goal why herror | caching p page goal result hok | invalidate entry =>
      cases hpast
  | unmapped p task hmem => exact absurd (setPc_self _ _) (hrunning .unmapped)
  | fail p task page why hout => exact absurd (setPc_self _ _) (hrunning why)
  | lock p task hlock | read p task page hmem | grow p task splitKey sibling hmem hnull
  | loaded p task page mode after async hafter hmode
  | split p task page left right splitKey hout hmem hnull
  | linked p task page left right splitKey sibling mode hout hmode
  | installed p task splitKey sibling newRoot hroot =>
      rw [setPc_self]
      rfl
  | posting p task page left right splitKey sibling hout hasync =>
      have hunlock : Straight m root top (s.clients c)
          (.unlock p .async (.split p task splitKey sibling)) := hstraight
      rw [setPc_self] at hrunning ⊢
      exact past_afterUnlock hunlock hrunning
  | unlock p mode after =>
      rw [setPc_self] at hrunning ⊢
      exact past_afterUnlock hstraight hrunning
  | overtaken p task splitKey sibling newRoot hroot =>
      rw [setPc_self] at hrunning ⊢
      exact past_postUp hstraight hrunning

end Past

end Dal.Tree
