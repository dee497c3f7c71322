/-
A call that starts through the cache and ends at a root that is the root no more.

The directory of a node hears late of a new root.  Meanwhile its clients begin at the old one,
and when a page on its level has to be split their `path_stack` has nothing above it.  With a
cache it is the same: a stale copy sends the client to that root as well.

That a client gets there is a matter of counting again: with the old root on level 3 the tree
never has a root above level 4, and there is no room for all keys.
-/
import Dal.Tree.Undisturbed
import Dal.Tree.Uncached

namespace Dal.Tree

/-! ### After the start -/

/-- Where a client asks for the cache, or for the root in memory. -/
def Pc.begins : Pc → Bool
  | .start | .readRoot _ | .searchCache => true
  | _ => false

section Begins

variable {cfg : Config} {s s' : State} {c : Client} {x : Local}

theorem afterSearch_begins (p : GlobalAddress) (goal : Goal) (result : Option SearchResult) :
    (afterSearch x p goal result).begins = false := by
  cases result with
  | none =>
      simp only [afterSearch]
      split <;> rfl
  | some result =>
      simp only [afterSearch]
      repeat' split
      all_goals rfl

theorem pageRead_begins {p : GlobalAddress} {goal : Goal}
    (hpc : (s.clients c).pc = .descend p goal) : (pageRead s c p goal).pc.begins = false := by
  unfold pageRead
  simp only
  split
  · rfl
  · split
    · split
      · rfl
      · split
        · rfl
        · exact afterSearch_begins ..
      · exact afterSearch_begins ..
    · show (s.clients c).pc.begins = false
      rw [hpc]
      rfl

theorem postUp_begins (task : Task) (k : Nat) (sibling : GlobalAddress) :
    (postUp x task k sibling).begins = false := by
  rcases postUp_cases x task k sibling with ⟨-, h⟩ | ⟨-, -, h⟩ | ⟨-, -, _, -, h⟩ <;> rw [h] <;> rfl

theorem afterUnlock_begins (after : After) : (afterUnlock x after).begins = false := by
  cases after with
  | done | stale entry => rfl
  | right task sibling =>
      simp only [afterUnlock]
      split <;> rfl
  | split p task splitKey sibling =>
      simp only [afterUnlock]
      split
      · rfl
      · exact postUp_begins ..

/-- An `insert` or `del` whose node knows a root asks once. -/
theorem run_begins {fresh : GlobalAddress} {waiter : Option Client}
    (hup : (s.clients c).op.updates = true) (hknown : (s.directory c.node).rootPtr ≠ .Null)
    (hbegun : ∀ use, (s.clients c).pc ≠ .readRoot use)
    (hstep : runClient cfg s c fresh waiter = some s') : (s'.clients c).pc.begins = false := by
  have hturn := run_turned hstep
  generalize hpc : (s.clients c).pc = pc at hturn
  have hnot : ∀ k, (s.clients c).op ≠ .search k := by
    intro k hop
    rw [hop] at hup
    cases hup
  cases hturn with
  | start =>
      rw [setPc_self]
      unfold start
      simp only
      split <;> rfl
  | toRead use hroot => exact absurd hroot hknown
  | known use hroot =>
      rw [setClient_self]
      unfold rooted
      split
      · split
        · rename_i k hop
          exact absurd hop (hnot k)
        · rfl
      all_goals rfl
  | readRoot use => exact absurd hpc (hbegun use)
  | searchCache =>
      rw [setPc_self]
      unfold searchCache
      simp only
      split <;> rfl
  | descend p goal =>
      rw [setClient_self]
      exact pageRead_begins hpc
  | caching p page goal result hok =>
      rw [setPc_self]
      exact afterSearch_begins ..
  | invalidate entry =>
      rw [setPc_self]
      unfold restart
      split <;> rfl
  | posting | unlock =>
      rw [setPc_self]
      exact afterUnlock_begins _
  | overtaken =>
      rw [setPc_self]
      exact postUp_begins ..
  | _ =>
      rw [setPc_self]
      rfl

end Begins

/-! ### Another cache -/

section Recached

variable {cfg : Config} {s s' : State} {c : Client}

end Recached

/-! ### From an old root -/

/-- The client has no root yet, or root `r`. -/
def Local.Begun (r : GlobalAddress) (x : Local) : Prop :=
  x.pc = .start ∨ x.pc.begins = false ∧
    ((∃ response, x.pc = .idle response) ∨ (∃ use, x.pc = .getRoot use) ∨ x.root = r)

section Begun

variable {cfg : Config} {s s' : State} {m : Chart} {c : Client} {r : GlobalAddress}

theorem pageRead_root (s : State) (c : Client) (p : GlobalAddress) (goal : Goal) :
    (pageRead s c p goal).root = (s.clients c).root := by
  unfold pageRead
  simp only
  repeat' split
  all_goals rfl

/-- A client keeps its root until it asks again. -/
theorem run_root {fresh : GlobalAddress} {waiter : Option Client}
    (hget : ∀ use, (s.clients c).pc ≠ .getRoot use) (hread : ∀ use, (s.clients c).pc ≠ .readRoot use)
    (hstep : runClient cfg s c fresh waiter = some s') :
    (s'.clients c).root = (s.clients c).root := by
  have hset : ∀ (t : State) (pc : Pc), t.clients = s.clients →
      ((t.setPc c pc).clients c).root = (s.clients c).root := by
    intro t pc ht
    rw [setPc_local, ht]
  have hturn := run_turned hstep
  generalize hpc : (s.clients c).pc = pc at hturn
  cases hturn with
  | toRead use hroot | known use hroot => exact absurd hpc (hget use)
  | readRoot use => exact absurd hpc (hread use)
  | descend p goal =>
      rw [setClient_self]
      exact pageRead_root s c p goal
  | loaded p task page mode after async hafter hmode => exact hset _ _ (by rw [commit_eq])
  | _ => exact hset _ _ rfl

theorem start_getRoot (hins : (s.clients c).op.inserts = true) : ∃ use, start s c = .getRoot use := by
  unfold start
  simp only
  split
  · exact ⟨_, rfl⟩
  · rename_i hop _
    rw [hop] at hins
    cases hins
  · exact ⟨_, rfl⟩

/-- The root of an `insert` is what the directory of its node says. -/
theorem Inv.begun_run (h : Inv cfg s m) (hins : (s.clients c).op.inserts = true)
    (hknown : (s.directory c.node).rootPtr = r) (hnull : r ≠ .Null)
    (hbegun : (s.clients c).Begun r) {fresh : GlobalAddress} {waiter : Option Client}
    (hstep : runClient cfg s c fresh waiter = some s') : (s'.clients c).Begun r := by
  have hno : ∀ use, (s.clients c).pc ≠ .readRoot use := by
    intro use huse
    rcases hbegun with hstart | ⟨hbegins, -⟩
    · rw [huse] at hstart
      cases hstart
    · rw [huse] at hbegins
      cases hbegins
  have hbegins := run_begins (Op.updates_of_inserts hins) (hknown ▸ hnull) hno hstep
  refine Or.inr ⟨hbegins, ?_⟩
  have hok := h.pc c
  have hidle : ∀ response, (s.clients c).pc ≠ .idle response := by
    intro response hresponse
    simp only [runClient, hresponse] at hstep
    cases hstep
  by_cases hget : ∃ use, (s.clients c).pc = .getRoot use
  · obtain ⟨use, huse⟩ := hget
    have hturn := run_turned hstep
    rw [huse] at hok hturn
    cases hturn with
    | toRead use hroot => exact absurd (hknown ▸ hroot) hnull
    | known use hroot =>
        rw [setClient_self, hknown]
        refine Or.inr (Or.inr ?_)
        cases use with
        | operation =>
            simp only [rooted]
            split <;> rfl
        | cachedStore addr entry | parent k v level => rfl
        | retry goal => exact hok.elim
  · by_cases hstart : (s.clients c).pc = .start
    · have hturn := run_turned hstep
      rw [hstart] at hturn
      cases hturn with
      | start =>
          rw [setPc_self]
          exact Or.inr (Or.inl (start_getRoot hins))
    · refine Or.inr (Or.inr ?_)
      rw [run_root (fun use huse => hget ⟨use, huse⟩) hno hstep]
      rcases hbegun with hstart' | ⟨-, ⟨response, hresponse⟩ | huse | hroot⟩
      · exact absurd hstart' hstart
      · exact absurd hresponse (hidle response)
      · exact absurd huse hget
      · exact hroot

end Begun

/-! ### Filling the tree from an old root -/

/-- The root as it was when the first leaf had been split. -/
def rootCopy : InternalPage :=
  InternalPage.setConsistent
    { frontVersion := 0, hdr := { Header.new 1 with leftmostPtr := ⟨0, 8⟩ },
      records := [⟨2800, ⟨0, 16⟩⟩], rearVersion := 0 }

/-- The leaf to the right of the first one. -/
abbrev staleLeaf : GlobalAddress := ⟨0, 16⟩

/-- Client 0 of node 0 inserts keys from `e` on.  The directory has `r` for the root, which is on
level 3; `staleLeaf` ends at `e`.  `map` is what the calls that have returned have left. -/
structure Outdated (r : GlobalAddress) (e : Nat) (map : Nat → Option Nat) (s : State) (m : Chart) :
    Prop where
  reached : (machine sample).Reachable s
  copied : Copied sample s rootCopy
  growing : Growing sample s m
  others : ∀ d, d ≠ ⟨0, 0⟩ → ∃ response, (s.clients d).pc = .idle response
  told : (s.directory 0).rootPtr = r
  enabled : (s.directory 0).enableCache = true
  root : m r = some (3, kKeyMin)
  top : ∀ l, m s.rootPtr = some (l, kKeyMin) → l ≤ 4
  begun : (s.clients ⟨0, 0⟩).Begun r
  leaf : s.leafEnd staleLeaf = some e
  away : (∃ response, (s.clients ⟨0, 0⟩).pc = .idle response) ∨
    (s.clients ⟨0, 0⟩).op.inserts = true ∧ e ≤ (s.clients ⟨0, 0⟩).op.key
  holds : ∀ k v, Holds sample s m k v ↔
    carried (s.clients ⟨0, 0⟩).op (s.clients ⟨0, 0⟩).pc map k = some v

section Outdated

variable {r : GlobalAddress} {e : Nat} {map map' : Nat → Option Nat} {s s' : State} {m m' : Chart}

theorem Outdated.not_null (h : Outdated r e map s m) : r ≠ .Null :=
  ne_null h.growing.inv.shape.null h.root

theorem Outdated.top_kept (h : Outdated r e map s m) (hle : m.Le m') (hroot : s'.rootPtr = s.rootPtr)
    (l : Nat) (hl : m' s'.rootPtr = some (l, kKeyMin)) : l ≤ 4 := by
  obtain ⟨top, htop, -⟩ := h.growing.inv.top
  rw [hroot, hle _ _ htop] at hl
  cases hl
  exact h.top _ htop

/-- What no step of client 0 changes. -/
theorem Outdated.advance (h : Outdated r e map s m) {action : Action} {committed : Option Op}
    (hstep : step sample s action = some s') (hadv : Advance sample s m s' m' committed)
    (hrunning : ∀ why, (s'.clients ⟨0, 0⟩).pc ≠ .failed why)
    (hothers : ∀ d, d ≠ ⟨0, 0⟩ → s'.clients d = s.clients d) (hdir : s'.directory = s.directory)
    (htop : ∀ l, m' s'.rootPtr = some (l, kKeyMin) → l ≤ 4) (hbegun : (s'.clients ⟨0, 0⟩).Begun r)
    (hleaf : s'.mem staleLeaf = s.mem staleLeaf)
    (haway : (∃ response, (s'.clients ⟨0, 0⟩).pc = .idle response) ∨
      (s'.clients ⟨0, 0⟩).op.inserts = true ∧ e ≤ (s'.clients ⟨0, 0⟩).op.key)
    (hholds : ∀ k v, Holds sample s' m' k v ↔
      carried (s'.clients ⟨0, 0⟩).op (s'.clients ⟨0, 0⟩).pc map' k = some v) :
    Outdated r e map' s' m' := by
  have hrun : (machine sample).step s action = some s' := hstep
  refine ⟨h.reached.tail _ trivial hrun, h.copied.path (.single _ trivial hrun),
    h.growing.advance hadv fun d why hwhy => ?_, fun d hd => ?_, ?_, ?_, hadv.le _ _ h.root, htop,
    hbegun, ?_, haway, hholds⟩
  · by_cases hdc : d = ⟨0, 0⟩
    · subst hdc
      exact hrunning why hwhy
    · rw [hothers d hdc] at hwhy
      exact h.growing.running d why hwhy
  · rw [hothers d hd]
    exact h.others d hd
  · rw [hdir]
    exact h.told
  · rw [hdir]
    exact h.enabled
  · unfold State.leafEnd
    rw [hleaf]
    exact h.leaf

/-- The client takes a step, and fails, or the tree is as it should be. -/
theorem Outdated.run (h : Outdated r e map s m) {fresh : GlobalAddress} {waiter : Option Client}
    (hstep : runClient sample s ⟨0, 0⟩ fresh waiter = some s') :
    (∃ m', Outdated r e map s' m') ∨ ∃ why, (s'.clients ⟨0, 0⟩).pc = .failed why := by
  by_cases hfailed : ∃ why, (s'.clients ⟨0, 0⟩).pc = .failed why
  · exact Or.inr hfailed
  have hrunning : ∀ why, (s'.clients ⟨0, 0⟩).pc ≠ .failed why := fun why hwhy => hfailed ⟨why, hwhy⟩
  have hrun : step sample s (.run ⟨0, 0⟩ fresh waiter) = some s' := hstep
  have hinv := h.growing.inv
  obtain ⟨hop, hothers⟩ := run_frame (c := ⟨0, 0⟩) hstep
  obtain ⟨hdir, hshared⟩ := (run_turned hstep).shared
  obtain ⟨hins, hkey⟩ : (s.clients ⟨0, 0⟩).op.inserts = true ∧ e ≤ (s.clients ⟨0, 0⟩).op.key := by
    rcases h.away with ⟨response, hidle⟩ | haway
    · simp only [runClient, hidle] at hstep
      cases hstep
    · exact haway
  obtain ⟨m', hadv⟩ := hinv.run hstep
  obtain ⟨leaf, hleaf, hend⟩ := leafEnd_eq h.leaf
  refine Or.inl ⟨m', h.advance hrun hadv hrunning hothers hdir (fun l hl => ?_)
    (hinv.begun_run hins h.told h.not_null h.begun hstep)
    (hinv.leaf_kept hleaf (hend ▸ hkey) hstep) (Or.inr ?_) fun k v => ?_⟩
  · rcases hshared with ⟨hroot, -⟩ | ⟨p, task, k, sibling, root, hpc, hswap, hroot, hmem, -⟩
    · exact h.top_kept hadv.le hroot l hl
    · -- only the old root can be swapped for a new one
      obtain ⟨hold, hnew⟩ := hinv.install_level hadv.inv hpc hswap hroot hmem
      have hown : (s.clients ⟨0, 0⟩).root = r := by
        rcases h.begun with hstart | ⟨-, ⟨response, hidle⟩ | ⟨use, huse⟩ | hown⟩
        · rw [hpc] at hstart
          cases hstart
        · rw [hpc] at hidle
          cases hidle
        · rw [hpc] at huse
          cases huse
        · exact hown
      rw [hswap, hown, h.root] at hold
      rw [hroot, hnew] at hl
      cases hl
      have hlevel : 3 = task.level := congrArg Prod.fst (Option.some_inj.mp hold)
      omega
  · rw [hop]
    exact ⟨hins, hkey⟩
  · rw [hop]
    exact hinv.carried hstep hadv hrunning h.holds k v

/-- A step of nobody. -/
theorem Outdated.pass (h : Outdated r e map s m) {action : Action}
    (hstep : step sample s action = some s') (hcommits : commits s action = none)
    (hclients : s'.clients = s.clients) (hmem : s'.mem = s.mem) (hroot : s'.rootPtr = s.rootPtr)
    (hdir : s'.directory = s.directory) : ∃ m', Outdated r e map s' m' := by
  obtain ⟨m', hadv⟩ := h.growing.inv.step hstep
  refine ⟨m', h.advance hstep hadv ?_ (fun d _ => by rw [hclients]) hdir
    (h.top_kept hadv.le hroot) ?_ (by rw [hmem]) ?_ fun k v => ?_⟩
  · rw [hclients]
    exact h.growing.running _
  · rw [hclients]
    exact h.begun
  · rw [hclients]
    exact h.away
  · rw [hadv.holds, hcommits, hclients]
    exact h.holds k v

theorem Outdated.land (h : Outdated r e map s m) {l : LockAddr}
    (hstep : step sample s (.land l) = some s') : ∃ m', Outdated r e map s' m' := by
  have hlanded : Landed s := reachable_landed rfl h.reached
  have heq := hlanded.land hstep
  exact h.pass hstep rfl (clients_of_land hstep) (by rw [heq]; rfl) (by rw [heq]; rfl)
    (land_frame hstep).2

/-- The client is called for another key. -/
theorem Outdated.call (h : Outdated r e map s m) {response : Option Response}
    (hidle : (s.clients ⟨0, 0⟩).pc = .idle response) {k : Nat} (hk : e ≤ k)
    (hstep : step sample s (.call ⟨0, 0⟩ (.insert k 7)) = some s') :
    ∃ m', Outdated r e (carried (s.clients ⟨0, 0⟩).op (.idle response) map) s' m' := by
  obtain ⟨m', hadv⟩ := h.growing.inv.step hstep
  obtain ⟨hmem, hroot, -, hdir, hop⟩ := call_frame hstep
  have hothers : ∀ d, d ≠ ⟨0, 0⟩ → s'.clients d = s.clients d := by
    intro d hd
    rcases clients_of_step hstep d with ⟨fresh, waiter, heq⟩ | ⟨op, heq⟩ | hsame
    · cases heq
    · cases heq
      exact absurd rfl hd
    · exact hsame
  have hpc : (s'.clients ⟨0, 0⟩).pc = .start := by
    simp only [step, hidle] at hstep
    split at hstep
    · cases hstep
      rw [setClient_self]
    · cases hstep
  refine ⟨m', h.advance hstep hadv (fun why hwhy => ?_) hothers hdir (h.top_kept hadv.le hroot)
    (Or.inl hpc) (by rw [hmem]) (Or.inr ?_) fun k v => ?_⟩
  · rw [hpc] at hwhy
    cases hwhy
  · rw [hop]
    exact ⟨rfl, hk⟩
  · have hheld := h.holds k v
    rw [hidle] at hheld
    rw [hadv.holds, hpc, carried, if_neg (fun hdone => by cases hdone.2)]
    exact hheld

/-! ### Before the next call -/

/-- The copies of some entries are evicted. -/
theorem Outdated.evicted (h : Outdated r e map s m) (ranges : List (Nat × Nat)) :
    ∃ s' m', Outdated r e map s' m' ∧ s'.clients = s.clients ∧ s'.locks = s.locks ∧
      ∀ x ∈ s'.cache 0, ((x.start, x.last) ∈ ranges → x.ptr = none) ∧
        ∃ y ∈ s.cache 0, y.start = x.start ∧ y.last = x.last := by
  induction ranges with
  | nil => exact ⟨s, m, h, rfl, rfl, fun x hx => ⟨fun hin => (by cases hin), x, hx, rfl, rfl⟩⟩
  | cons range ranges ih =>
      obtain ⟨s₁, m₁, h₁, hclients, hlocks, hcache⟩ := ih
      have hevict : step sample s₁ (.evict 0 range) =
          some (s₁.setCache 0 ((s₁.cache 0).invalidate range.1 range.2)) := rfl
      obtain ⟨m₂, h₂⟩ := h₁.pass hevict rfl rfl rfl rfl rfl
      refine ⟨_, m₂, h₂, hclients, hlocks, fun x hx => ?_⟩
      change x ∈ Function.update s₁.cache 0 _ 0 at hx
      rw [Function.update_self] at hx
      obtain ⟨y, hy, rfl⟩ := List.mem_map.mp hx
      obtain ⟨hcleared, hold⟩ := hcache y hy
      split
      · exact ⟨fun _ => rfl, hold⟩
      · rename_i hother
        refine ⟨fun hin => hcleared ?_, hold⟩
        rcases List.mem_cons.mp hin with heq | hin
        · exact absurd ⟨congrArg Prod.fst heq, congrArg Prod.snd heq⟩ hother
        · exact hin

theorem searchFromCache_cleared {cache : IndexCache} (h : ∀ x ∈ cache, x.ptr = none) (k : Nat) :
    cache.searchFromCache k = none := by
  unfold IndexCache.searchFromCache
  split
  · rfl
  · rename_i x hx
    rw [h x (List.mem_of_find?_eq_some hx)]

/-- The cache is cleared. -/
theorem Outdated.cleared (h : Outdated r e map s m) : ∃ s' m', Outdated r e map s' m' ∧
    s'.clients = s.clients ∧ s'.locks = s.locks ∧
      ∀ k, (s'.cache 0).searchFromCache k = none := by
  obtain ⟨s', m', h', hclients, hlocks, hcache⟩ :=
    h.evicted ((s.cache 0).map fun x => (x.start, x.last))
  refine ⟨s', m', h', hclients, hlocks, searchFromCache_cleared fun x hx => ?_⟩
  obtain ⟨hcleared, y, hy, hstart, hlast⟩ := hcache x hx
  refine hcleared (List.mem_map.mpr ⟨y, hy, ?_⟩)
  rw [hstart, hlast]

/-- No lock is held, and one that is about to be free is freed. -/
theorem Outdated.unlocked (h : Outdated r e map s m)
    (hidle : ∃ response, (s.clients ⟨0, 0⟩).pc = .idle response) (l : LockAddr) :
    ∃ s' m', Outdated r e map s' m' ∧ s'.clients = s.clients ∧ s'.locks l = .free := by
  have hall : ∀ d, ∃ response, (s.clients d).pc = .idle response := by
    intro d
    by_cases hd : d = ⟨0, 0⟩
    · subst hd
      exact hidle
    · exact h.others d hd
  have htended := reachable_tended h.reached
  have hlanded : Landed s := reachable_landed rfl h.reached
  cases hl : s.locks l with
  | free => exact ⟨s, m, h, rfl, hl⟩
  | held d =>
      have hholds := htended.holder l d hl
      obtain ⟨response, hresponse⟩ := hall d
      rw [hresponse] at hholds
      cases hholds
  | handed node =>
      obtain ⟨u, q, task, -, hu, -⟩ := htended.handed l node hl
      obtain ⟨response, hresponse⟩ := hall u
      rw [hresponse] at hu
      cases hu
  | posted w =>
      cases w with
      | some w => exact absurd hl (hlanded l w)
      | none =>
          have hland : step sample s (.land l) = some (s.setLock l .free) := by
            simp only [step, hl]
          obtain ⟨m', h'⟩ := h.land hland
          exact ⟨_, m', h', rfl, Function.update_self ..⟩

/-! ### One key -/

/-- The insert of `k` begins at root `r`. -/
def State.descending (s : State) (r : GlobalAddress) (k : Nat) : State :=
  s.setClient ⟨0, 0⟩ ⟨.insert k 7, fun _ => .Null, r, .descend r (.leaf none)⟩

/-- An insert that the cache knows nothing about begins at the old root. -/
theorem Outdated.descends (h : Outdated r e map s m) {response : Option Response}
    (hidle : (s.clients ⟨0, 0⟩).pc = .idle response) {k : Nat} (hk : e ≤ k) (hmax : k < kKeyMax)
    (hmiss : (s.cache 0).searchFromCache k = none) :
    ∃ m', Outdated r e (carried (s.clients ⟨0, 0⟩).op (.idle response) map) (s.descending r k) m' := by
  have hset : ∀ x y : Local, (s.setClient ⟨0, 0⟩ x).setClient ⟨0, 0⟩ y = s.setClient ⟨0, 0⟩ y :=
    fun x y => congrArg (fun clients => { s with clients := clients }) (Function.update_idem ..)
  have hcall : step sample s (.call ⟨0, 0⟩ (.insert k 7)) = some (s.setClient ⟨0, 0⟩
      { s.clients ⟨0, 0⟩ with op := .insert k 7, path := fun _ => .Null, pc := .start }) := by
    simp only [step, hidle]
    exact if_pos (decide_eq_true ⟨hmax, by decide⟩)
  obtain ⟨m₁, h₁⟩ := h.call hidle hk hcall
  generalize hs₁ : s.setClient ⟨0, 0⟩
    { s.clients ⟨0, 0⟩ with op := .insert k 7, path := fun _ => .Null, pc := .start } = s₁ at h₁
  have hx₁ : s₁.clients ⟨0, 0⟩ = { s.clients ⟨0, 0⟩ with
      op := .insert k 7, path := fun _ => .Null, pc := .start } := by
    rw [← hs₁]
    exact setClient_self ..
  have hstart : runClient sample s₁ ⟨0, 0⟩ .Null none =
      some (s₁.setPc ⟨0, 0⟩ (.getRoot .operation)) := by
    have hnone : start s₁ ⟨0, 0⟩ = .getRoot .operation := by
      simp only [start, hx₁]
      rw [← hs₁, show (Op.insert k 7).key = k from rfl,
        show (s.setClient ⟨0, 0⟩ _).cache = s.cache from rfl, hmiss, ite_self]
    simp only [runClient, hx₁, hnone]
  rcases h₁.run hstart with ⟨m₂, h₂⟩ | ⟨why, hwhy⟩
  · generalize hs₂ : s₁.setPc ⟨0, 0⟩ (.getRoot .operation) = s₂ at h₂
    have hx₂ : s₂.clients ⟨0, 0⟩ = { s.clients ⟨0, 0⟩ with
        op := .insert k 7, path := fun _ => .Null, pc := .getRoot .operation } := by
      rw [← hs₂, setPc_local, hx₁]
    have hknown : runClient sample s₂ ⟨0, 0⟩ .Null none = some (s.descending r k) := by
      have hroot : (s₂.directory 0).rootPtr = r := h₂.told
      simp only [runClient, hx₂]
      rw [if_neg (by rw [hroot]; exact h.not_null), hroot]
      rw [← hs₂, ← hs₁]
      refine congrArg some ?_
      show ((s.setClient ⟨0, 0⟩ _).setClient ⟨0, 0⟩ _).setClient ⟨0, 0⟩ _ = _
      rw [hset, hset]
      rfl
    rcases h₂.run hknown with h₃ | ⟨why, hwhy⟩
    · exact h₃
    · rw [State.descending, setClient_self] at hwhy
      cases hwhy
  · rw [setPc_self] at hwhy
    cases hwhy

/-- The insert comes to its end. -/
theorem Outdated.ends (h : Outdated r e map s m) :
    (∃ t, (machine sample).Path (Own sample ⟨0, 0⟩) s t ∧ ∃ why, (t.clients ⟨0, 0⟩).pc = .failed why) ∨
      ∃ t m' response, Outdated r e map t m' ∧ (t.clients ⟨0, 0⟩).pc = .idle response ∧
        (t.clients ⟨0, 0⟩).op = (s.clients ⟨0, 0⟩).op := by
  obtain ⟨b, hleft⟩ := reachable_left ⟨0, 0⟩ h.reached
  have hfree : Unhindered sample ⟨0, 0⟩ s := ⟨reachable_tended h.reached, fun _ => h.others⟩
  obtain ⟨t, hpath, hended⟩ := (hfree.ends hleft (reachable_posted h.reached)).exists_path
  have hall : (t.clients ⟨0, 0⟩).op = (s.clients ⟨0, 0⟩).op ∧
      ((∃ m', Outdated r e map t m') ∨ ∃ why, (t.clients ⟨0, 0⟩).pc = .failed why) := by
    refine hpath.invariant (I := fun t => (t.clients ⟨0, 0⟩).op = (s.clients ⟨0, 0⟩).op ∧
      ((∃ m', Outdated r e map t m') ∨ ∃ why, (t.clients ⟨0, 0⟩).pc = .failed why))
      ⟨rfl, Or.inl ⟨m, h⟩⟩ ?_
    rintro u action u' ⟨hop, hu⟩ hown hstep
    cases action with
    | run d fresh waiter =>
        obtain ⟨rfl, -⟩ := hown
        refine ⟨(run_frame (c := ⟨0, 0⟩) hstep).1.trans hop, ?_⟩
        rcases hu with ⟨m', hu⟩ | ⟨why, hwhy⟩
        · exact hu.run hstep
        · have hrun : runClient sample u ⟨0, 0⟩ fresh waiter = some u' := hstep
          simp only [runClient, hwhy] at hrun
          cases hrun
    | land l =>
        have hland : step sample u (.land l) = some u' := hstep
        rw [clients_of_land hland]
        refine ⟨hop, hu.imp_left ?_⟩
        rintro ⟨m', hu⟩
        exact hu.land hland
    | _ => exact hown.elim
  obtain ⟨hop, ⟨m', ht⟩ | hfailed⟩ := hall
  · rcases hended with ⟨response, hidle⟩ | ⟨why, -, hwhy⟩
    · exact Or.inr ⟨t, m', response, ht, hidle, hop⟩
    · exact Or.inl ⟨t, hpath, why, hwhy⟩
  · exact Or.inl ⟨t, hpath, hfailed⟩

/-! ### Too many keys -/

/-- The insert of `k`, once it has begun at root `r`, fails. -/
def Stuck (r : GlobalAddress) (s : State) (k : Nat) : Prop :=
  ∃ t, (machine sample).Path (Own sample ⟨0, 0⟩) (s.descending r k) t ∧
    ∃ why, (t.clients ⟨0, 0⟩).pc = .failed why

/-- One insert after another: one of them fails, or all keys are held. -/
theorem Outdated.fill (h : Outdated r e map s m)
    (hidle : ∃ response, (s.clients ⟨0, 0⟩).pc = .idle response) (keys : List Nat)
    (hkeys : ∀ k ∈ keys, e ≤ k ∧ k < kKeyMax) :
    (∃ s' m' map' k, Outdated r e map' s' m' ∧
      (∃ response, (s'.clients ⟨0, 0⟩).pc = .idle response) ∧
        s'.locks (sample.lockAddr staleLeaf) = .free ∧ (e ≤ k ∧ k < kKeyMax) ∧ Stuck r s' k) ∨
    ∃ s' m' map', Outdated r e map' s' m' ∧
      (∃ response, (s'.clients ⟨0, 0⟩).pc = .idle response) ∧
        ∀ k ∈ keys, ∃ v, Holds sample s' m' k v := by
  induction keys with
  | nil => exact Or.inr ⟨s, m, map, h, hidle, fun k hk => by cases hk⟩
  | cons k keys ih =>
      rcases ih fun k' hk' => hkeys k' (List.mem_cons_of_mem _ hk') with
        hstuck | ⟨s₀, m₀, map₀, h₀, hidle₀, hheld⟩
      · exact Or.inl hstuck
      · obtain ⟨hk, hmax⟩ := hkeys k (List.mem_cons_self ..)
        obtain ⟨u₀, m₁, h₁, hclients₁, hfree⟩ := h₀.unlocked hidle₀ (sample.lockAddr staleLeaf)
        obtain ⟨s₁, m₂, h₂, hclients₂, hlocks, hmiss⟩ := h₁.cleared
        obtain ⟨response, hresponse⟩ := hidle₀
        have hclients : s₁.clients = s₀.clients := hclients₂.trans hclients₁
        have hresponse₁ : (s₁.clients ⟨0, 0⟩).pc = .idle response := hclients ▸ hresponse
        obtain ⟨m₃, h₃⟩ := h₂.descends hresponse₁ hk hmax (hmiss k)
        rcases h₃.ends with hfailed | ⟨t, m₄, response', h₄, hresponse₄, hop⟩
        · exact Or.inl ⟨s₁, m₂, map₀, k, h₂, ⟨_, hresponse₁⟩, by rw [hlocks, hfree], ⟨hk, hmax⟩,
            hfailed⟩
        · refine Or.inr ⟨t, m₄, _, h₄, ⟨_, hresponse₄⟩, fun k' hk' => ?_⟩
          have hop' : (t.clients ⟨0, 0⟩).op = .insert k 7 := by
            rw [hop, State.descending, setClient_self]
          have hholds := h₄.holds
          rw [hresponse₄, hop', carried_idle_update rfl] at hholds
          by_cases hkk : k' = k
          · subst hkk
            refine ⟨7, (hholds k' 7).mpr ?_⟩
            exact Function.update_self ..
          · obtain ⟨v, hv⟩ := hheld k' ((List.mem_cons.mp hk').resolve_left hkk)
            refine ⟨v, (hholds k' v).mpr ?_⟩
            rw [show (Op.insert k 7).key = k from rfl, Function.update_of_ne hkk]
            have hbefore := (h₀.holds k' v).mp hv
            rw [hresponse] at hbefore
            rw [hclients]
            exact hbefore

/-- The tree holds no more than one with its root on level 4 has room for. -/
theorem Outdated.card_le (h : Outdated r e map s m)
    (hidle : ∃ response, (s.clients ⟨0, 0⟩).pc = .idle response) (K : Finset Nat)
    (hK : ∀ k ∈ K, ∃ v, Holds sample s m k v) :
    K.card ≤ (kLeafCardinality - 1) * kInternalCardinality ^ 4 := by
  obtain ⟨top, htop, -⟩ := h.growing.inv.top
  have hquiet : ∀ d, (s.clients d).pc.pending = none := by
    intro d
    by_cases hd : d = ⟨0, 0⟩
    · subst hd
      obtain ⟨response, hresponse⟩ := hidle
      rw [hresponse]
      rfl
    · obtain ⟨response, hresponse⟩ := h.others d hd
      rw [hresponse]
      rfl
  refine (h.growing.card_keys htop hquiet K hK).trans (Nat.mul_le_mul_left _ ?_)
  exact Nat.pow_le_pow_right (by decide) (h.top top htop)

end Outdated

/-! ### The same insert, through a stale copy -/

/-- The cache that knows the first root only. -/
def staleCache : IndexCache := IndexCache.addToCache rootCopy []

/-- The insert of `k` at `pc`, with root `root`. -/
def inserting (k : Nat) (root : GlobalAddress) (pc : Pc) : Local :=
  ⟨.insert k 7, fun _ => .Null, root, pc⟩

section Probing

variable {s t : State} {lock lock' : Lock} {cache cache' : IndexCache} {x y : Local} {k : Nat}
  {root r : GlobalAddress} {pc pc' : Pc}

end Probing

section Stale

variable {r : GlobalAddress} {e : Nat} {map : Nat → Option Nat} {s : State} {m : Chart}

/-- The leaf has been split since. -/
theorem Outdated.stale (h : Outdated r e map s m) {k : Nat} (hk : e ≤ k) :
    ∃ leaf : LeafPage, s.mem staleLeaf = some (.leaf leaf) ∧ leaf.store k 7 true = .stale := by
  obtain ⟨leaf, hleaf, hend⟩ := leafEnd_eq h.leaf
  have hinv := h.growing.inv
  obtain ⟨m', hinv', hok⟩ := h.copied.copyOf
  have hcopy := hok.mono (hinv'.chart_le hinv)
  have hat : m staleLeaf = some (0, 2800) := by
    obtain ⟨below, hlevel, hbody⟩ := hcopy.body
    obtain rfl : 0 = below := by omega
    exact hbody.child ⟨2800, staleLeaf⟩ (List.mem_singleton_self _)
  obtain ⟨page, hpage, hpageOk⟩ := hinv.shape.page _ _ _ hat
  rw [hleaf] at hpage
  cases hpage
  refine ⟨leaf, hleaf, ?_⟩
  have hlevel : leaf.hdr.level = 0 := hpageOk.level
  have hconsistent : leaf.rearVersion = leaf.frontVersion := of_decide_eq_true hpageOk.consistent
  unfold LeafPage.store
  rw [if_neg (not_not_intro hlevel), if_neg (not_not_intro hconsistent),
    if_pos ⟨rfl, Or.inr (hend ▸ hk)⟩]

end Stale

/-! ### Such a tree -/

section Example

variable {r : GlobalAddress} {e : Nat} {map : Nat → Option Nat} {s : State} {m : Chart}

theorem Outdated.rootLevel (h : Outdated r e map s m) : 3 ≤ s.rootLevel := by
  obtain ⟨top, htop, -⟩ := h.growing.inv.top
  obtain ⟨page, hpage, hok⟩ := h.growing.inv.shape.page _ _ _ htop
  have hle : 3 ≤ top := h.growing.inv.level_le htop h.root
  unfold State.rootLevel
  rw [hpage]
  show 3 ≤ page.hdr.level
  rw [hok.level]
  exact hle

end Example

end Dal.Tree
