/-
What becomes of a separator when the tree grows.

A client that has split a page posts the separator to the page one level up that it came
through, or it installs a new root.  A client whose root is no longer the root can do
neither: its `path_stack` starts on the level of the page it has split, and the
compare-and-swap of the root pointer finds another root.  That is where the two
assertions `assert(from_cache)` and `assert(false)` are.

`Grows` says of a step that no client gets there.  In runs of such steps no assertion
fails, and every page that was split off is posted one level up or carried there.
-/
import Dal.Tree.Search
import Dal.Tree.Blink
import Dal.Tree.Announce

namespace Dal.Tree

/-- The split was reached through the index cache, and `insert_internal` will look for a page. -/
def Task.searchesParent : Task → Bool
  | .leafStore cached => cached.isSome
  | .leafDel _ | .internalStore .. => false

/-- There is a page to post the separator to, or one is looked for. -/
def HasParent (x : Local) (task : Task) : Prop :=
  x.path (task.level + 1) ≠ .Null ∨ task.searchesParent = true

/-- A client that finishes a split comes from the level above, or from the index cache, or the
page is its root, and then still the root when it swaps the root pointer. -/
def Finishes (cfg : Config) (s : State) (x : Local) (waiter : Option Client) : Pc → Prop
  | .linked p task _ _ =>
      cfg.batched = true → waiter = none → x.root = p ∨ HasParent x task
  | .unlock _ _ (.split p task _ _) => x.root = p ∨ HasParent x task
  | .casRoot _ task _ _ _ => s.rootPtr = x.root ∨ HasParent x task
  | _ => True

/-- The step is none that finishes a split on the level of an old root. -/
def Grows (cfg : Config) (s : State) : Action → Prop
  | .run c _ waiter => Finishes cfg s (s.clients c) waiter (s.clients c).pc
  | _ => True

instance (x : Local) (task : Task) : Decidable (HasParent x task) :=
  inferInstanceAs (Decidable (_ ∨ _))

instance decidableFinishes (cfg : Config) (s : State) (x : Local) (waiter : Option Client) :
    ∀ pc, Decidable (Finishes cfg s x waiter pc)
  | .linked _ _ _ _ => inferInstanceAs (Decidable (_ → _ → _ ∨ _))
  | .unlock _ _ (.split _ _ _ _) => inferInstanceAs (Decidable (_ ∨ _))
  | .casRoot _ _ _ _ _ => inferInstanceAs (Decidable (_ ∨ _))
  | .unlock _ _ .done | .unlock _ _ (.stale _) | .unlock _ _ (.right _ _) | .idle _ | .start
  | .getRoot _ | .readRoot _ | .searchCache | .descend _ _ | .caching _ _ _ | .invalidate _
  | .lock _ _ | .read _ _ | .loaded _ _ _ | .grow _ _ _ _ | .failed _ => isTrue trivial

instance decidableGrows (cfg : Config) (s : State) : ∀ action, Decidable (Grows cfg s action)
  | .run _ _ _ => decidableFinishes ..
  | .call _ _ | .land _ | .deliver _ | .evict _ _ => isTrue trivial

/-- A page one level above leads to `a`, which begins at `x`. -/
def PostedAbove (view : View) (root : GlobalAddress) (l x : Nat) (a : GlobalAddress) : Prop :=
  ∃ u page, Linked view root (l + 1) u ∧ view u = some page ∧ page.Points x a

/-! ### Where the two assertions are -/

/-- The assertions at the end of a split. -/
def Posting (why : Assertion) : Prop := why = .fromCache ∨ why = .noParent

section Failing

variable {x : Local} {p : GlobalAddress} {task : Task} {why : Assertion}

theorem HasParent.postUp (h : HasParent x task) (k : Nat) (sibling : GlobalAddress) :
    postUp x task k sibling ≠ .failed why := by
  intro hfailed
  rcases postUp_cases x task k sibling with ⟨-, hpc⟩ | ⟨-, -, hpc⟩ | ⟨hnull, hnot, -⟩
  · rw [hpc] at hfailed
    cases hfailed
  · rw [hpc] at hfailed
    cases hfailed
  · rcases h with hpath | hsearches
    · exact hpath hnull
    · cases task with
      | leafStore cached =>
          obtain ⟨entry, rfl⟩ := Option.isSome_iff_exists.mp hsearches
          exact hnot entry rfl
      | leafDel cached | internalStore k v level => exact absurd hsearches Bool.false_ne_true

theorem pageSearch_error {page : Page} {k : Nat} {fromCache : Bool} (hwhy : Posting why) :
    pageSearch page k fromCache ≠ .error why := by
  intro herror
  cases page with
  | leaf page =>
      simp only [pageSearch] at herror
      repeat' split at herror
      all_goals rcases hwhy with rfl | rfl <;> cases herror
  | internal page =>
      simp only [pageSearch] at herror
      repeat' split at herror
      all_goals rcases hwhy with rfl | rfl <;> cases herror

theorem afterSearch_failed {goal : Goal} {result : Option SearchResult} (hwhy : Posting why) :
    afterSearch x p goal result ≠ .failed why := by
  intro hfailed
  cases result with
  | none =>
      simp only [afterSearch] at hfailed
      split at hfailed <;> cases hfailed
  | some result =>
      simp only [afterSearch] at hfailed
      repeat' split at hfailed
      all_goals rcases hwhy with rfl | rfl <;> cases hfailed

theorem outcome_fail {op : Op} {page : Page} (hwhy : Posting why) :
    task.outcome op page ≠ .fail why := by
  intro hfail
  have hsplit : ∀ (page : LeafPage) records hsize, page.splitSorted records hsize ≠ .fail why := by
    intro page records hsize hfail
    simp only [LeafPage.splitSorted] at hfail
    split at hfail
    · cases hfail
    · rcases hwhy with rfl | rfl <;> cases hfail
  have hstore : ∀ (page : LeafPage) k v b, page.store k v b ≠ .fail why := by
    intro page k v b hfail
    simp only [LeafPage.store] at hfail
    repeat' split at hfail
    all_goals first | exact hsplit _ _ _ hfail | (rcases hwhy with rfl | rfl <;> cases hfail)
  have hdel : ∀ (page : LeafPage) k b, page.del k b ≠ .fail why := by
    intro page k b hfail
    simp only [LeafPage.del] at hfail
    repeat' split at hfail
    all_goals rcases hwhy with rfl | rfl <;> cases hfail
  have hinternal : ∀ (page : InternalPage) k v l, page.store k v l ≠ .fail why := by
    intro page k v l hfail
    simp only [InternalPage.store, InternalPage.split] at hfail
    repeat' split at hfail
    all_goals rcases hwhy with rfl | rfl <;> cases hfail
  unfold Task.outcome at hfail
  split at hfail
  · exact hstore _ _ _ _ hfail
  · exact hdel _ _ _ hfail
  · exact hinternal _ _ _ _ hfail
  · rcases hwhy with rfl | rfl <;> cases hfail

end Failing

section Step

variable {cfg : Config} {s s' : State} {m : Chart} {c : Client} {why : Assertion}

theorem split_grows {x : Local} {p sibling : GlobalAddress} {task : Task} {k : Nat}
    (h : x.root = p ∨ HasParent x task) :
    afterUnlock x (.split p task k sibling) ≠ .failed why := by
  intro hfailed
  simp only [afterUnlock] at hfailed
  split at hfailed
  · cases hfailed
  · rename_i hne
    rcases h with hroot | hparent
    · exact hne hroot
    · exact hparent.postUp k sibling hfailed

theorem rooted_not_failed (x : Local) {root : GlobalAddress} (use : RootUse) (why : Assertion) :
    (rooted x root use).pc ≠ .failed why := by
  intro hfailed
  unfold rooted at hfailed
  repeat' split at hfailed
  all_goals cases hfailed

theorem pageRead_failed {p : GlobalAddress} {goal : Goal} (hwhy : Posting why)
    (hpc : (s.clients c).pc = .descend p goal) : (pageRead s c p goal).pc ≠ .failed why := by
  intro hfailed
  unfold pageRead at hfailed
  simp only at hfailed
  split at hfailed
  · rcases hwhy with rfl | rfl <;> cases hfailed
  · split at hfailed
    · split at hfailed
      · rename_i herror
        cases hfailed
        exact pageSearch_error hwhy herror
      · split at hfailed
        · cases hfailed
        · exact afterSearch_failed hwhy hfailed
      · exact afterSearch_failed hwhy hfailed
    · rw [show (_ : Pc) = (s.clients c).pc from rfl, hpc] at hfailed
      cases hfailed

/-- **A step that fails one of the two assertions is one of those that `Grows` rules out.** -/
theorem run_grows {fresh : GlobalAddress} {waiter : Option Client} (hwhy : Posting why)
    (hgrows : Grows cfg s (.run c fresh waiter))
    (hstep : runClient cfg s c fresh waiter = some s') : (s'.clients c).pc ≠ .failed why := by
  intro hfailed
  have hturn := run_turned hstep
  generalize hpc : (s.clients c).pc = pc at hturn
  simp only [Grows, hpc] at hgrows
  cases hturn with
  | start =>
      rw [setPc_self] at hfailed
      unfold start at hfailed
      simp only at hfailed
      split at hfailed <;> cases hfailed
  | known use hroot | readRoot use =>
      rw [setClient_self] at hfailed
      exact rooted_not_failed _ use why hfailed
  | searchCache =>
      rw [setPc_self] at hfailed
      unfold searchCache at hfailed
      simp only at hfailed
      split at hfailed <;> cases hfailed
  | descend p goal =>
      rw [setClient_self] at hfailed
      exact pageRead_failed hwhy hpc hfailed
  | cachingError p page goal why' herror =>
      rw [setPc_self] at hfailed
      cases hfailed
      exact pageSearch_error hwhy herror
  | caching p page goal result hok =>
      rw [setPc_self] at hfailed
      exact afterSearch_failed hwhy hfailed
  | invalidate entry =>
      rw [setPc_self] at hfailed
      unfold restart at hfailed
      split at hfailed <;> cases hfailed
  | unmapped p task hmem =>
      rw [setPc_self] at hfailed
      rcases hwhy with rfl | rfl <;> cases hfailed
  | fail p task page why' hout =>
      rw [setPc_self] at hfailed
      cases hfailed
      exact outcome_fail hwhy hout
  | posting p task page left right splitKey sibling hout hasync =>
      rw [setPc_self] at hfailed
      exact split_grows (hgrows hasync.1 hasync.2) hfailed
  | unlock p mode after =>
      rw [setPc_self] at hfailed
      cases after with
      | done | stale entry => cases hfailed
      | right task sibling =>
          simp only [afterUnlock] at hfailed
          split at hfailed
          · rcases hwhy with rfl | rfl <;> cases hfailed
          · cases hfailed
      | split q task splitKey sibling => exact split_grows hgrows hfailed
  | overtaken p task splitKey sibling newRoot hne =>
      rw [setPc_self] at hfailed
      rcases hgrows with hroot | hparent
      · exact hne hroot
      · exact hparent.postUp splitKey sibling hfailed
  | toRead use hroot | lock p task hlock | read p task page hmem
  | loaded p task page mode after async hafter hmode
  | split p task page left right splitKey hout hmem hnull
  | linked p task page left right splitKey sibling mode hout hmode
  | grow p task splitKey sibling hmem hnull
  | installed p task splitKey sibling newRoot hroot =>
      rw [setPc_self] at hfailed
      cases hfailed

/-! ### Runs without a client that gets there -/

/-- Every page of the chart is found in the tree. -/
theorem Inv.linked_of_chart (h : Inv cfg s m) {a : GlobalAddress} {l x : Nat}
    (ha : m a = some (l, x)) : Linked (s.content cfg) s.rootPtr l a := by
  obtain ⟨top, htop, hle⟩ := h.top
  have hview : ViewOk (s.content cfg) s.rootPtr m top :=
    ⟨h.shape.null, htop, fun _ _ _ ha => h.shape.content_ok ha, fun _ _ _ ha hb => h.shape.inj ha hb⟩
  obtain ⟨page, hpage, hok⟩ := h.shape.content_ok ha
  have hrange := hok.range
  obtain ⟨b, u, w, ⟨hb, q, hq, rfl, rfl⟩, hu, hw⟩ :=
    hview.cover (hle a l x ha) (Nat.lt_of_lt_of_le hrange hok.top)
  obtain ⟨z, hz⟩ := hview.linked hb
  have hqok := hview.ok hz hq
  have hab : b = a := by
    refine (h.shape.tiling l).home ⟨hz, q, hq, rfl⟩ ⟨ha, page, hpage, rfl⟩ ?_ hw (Nat.le_refl x) hrange
    rw [← hqok.lowest]
    exact hu
  exact hab ▸ hb

theorem Inv.postedAbove (h : Inv cfg s m) {a : GlobalAddress} {l x : Nat}
    (hposted : Posted cfg s m l x a) : PostedAbove (s.content cfg) s.rootPtr l x a := by
  obtain ⟨u, y, page, hu, hpage, hpoints⟩ := hposted
  exact ⟨u, page, h.linked_of_chart hu, hpage, hpoints⟩

/-- Nobody has failed, and no page was split off and forgotten. -/
structure Growing (cfg : Config) (s : State) (m : Chart) : Prop where
  inv : Inv cfg s m
  running : ∀ c why, (s.clients c).pc ≠ .failed why
  known : ∀ a l x, m a = some (l, x) → x ≠ kKeyMin →
    Posted cfg s m l x a ∨ ∃ c, (s.clients c).pc.pending = some ⟨a, x, l + 1⟩

/-- A step that lets nobody fail loses no separator. -/
theorem Growing.advance (h : Growing cfg s m) {m' : Chart} {committed : Option Op}
    (hadv : Advance cfg s m s' m' committed)
    (hrunning : ∀ c why, (s'.clients c).pc ≠ .failed why) : Growing cfg s' m' := by
  refine ⟨hadv.inv, hrunning, fun a l x ha hx => ?_⟩
  rcases hadv.links a l x ha with hold | hmin | ⟨c, hpending | ⟨why, hfailed⟩⟩
  · rcases h.known a l x hold hx with hposted | ⟨c, hpending⟩
    · exact Or.inl (hadv.keeps l x a hposted)
    · rcases hadv.posts c _ hpending with hstill | ⟨below, hlevel, hposted⟩ | ⟨why, hfailed⟩
      · exact Or.inr ⟨c, hstill⟩
      · cases hlevel
        exact Or.inl hposted
      · exact absurd hfailed (hrunning c why)
  · exact absurd hmin hx
  · exact Or.inr ⟨c, hpending⟩
  · exact absurd hfailed (hrunning c why)

theorem Growing.running_step (h : Growing cfg s m) {action : Action}
    (hgrows : Grows cfg s action) (hstep : step cfg s action = some s') :
    ∀ c why, (s'.clients c).pc ≠ .failed why := by
  intro c why hfailed
  obtain ⟨m', hadv⟩ := h.inv.step hstep
  have hwhy := hadv.inv.pc c
  rw [hfailed] at hwhy
  rcases clients_of_step hstep c with ⟨fresh, waiter, rfl⟩ | ⟨op, rfl⟩ | hsame
  · exact run_grows hwhy hgrows hstep hfailed
  · simp only [step] at hstep
    split at hstep
    · split at hstep
      · cases hstep
        rw [setClient_self] at hfailed
        split at hfailed <;> cases hfailed
      · cases hstep
    · cases hstep
  · exact h.running c why (hsame ▸ hfailed)

theorem Growing.step (h : Growing cfg s m) {action : Action} (hgrows : Grows cfg s action)
    (hstep : step cfg s action = some s') :
    ∃ m', Growing cfg s' m' ∧ Advance cfg s m s' m' (commits s action) := by
  obtain ⟨m', hadv⟩ := h.inv.step hstep
  exact ⟨m', h.advance hadv (h.running_step hgrows hstep), hadv⟩

theorem growing_init (cfg : Config) {root : GlobalAddress} (hroot : root ≠ .Null) :
    Growing cfg (State.init root) (Chart.single root) := by
  refine ⟨inv_init cfg hroot, fun c why hfailed => ?_, fun a l x ha hx => ?_⟩
  · cases hfailed
  · unfold Chart.single at ha
    split at ha
    · cases ha
      exact absurd rfl hx
    · cases ha

theorem reachable_growing (hs : (machine cfg).ReachableBy (Grows cfg) s) :
    ∃ m, Growing cfg s m := by
  refine hs.invariant (I := fun s => ∃ m, Growing cfg s m) ?_ ?_
  · rintro s ⟨root, hroot, rfl⟩
    exact ⟨_, growing_init cfg hroot⟩
  · intro s action s' ⟨m, h⟩ hgrows hstep
    obtain ⟨m', h', -⟩ := h.step hgrows hstep
    exact ⟨m', h'⟩

/--
**Growing loses no separator, as long as nobody finishes a split on the level of a root that is
not the root any more.**

In every run of such steps no assertion fails; every page that was split off is known one level
up, or a client carries its separator there; and a client stops carrying one only when it is
posted, in a page one level up or in the new root.
-/
theorem root_growth (hs : (machine cfg).ReachableBy (Grows cfg) s) :
    (∀ c why, (s.clients c).pc ≠ .failed why) ∧
    (∀ l a page, Linked (s.content cfg) s.rootPtr l a → s.content cfg a = some page →
      page.hdr.lowest ≠ kKeyMin →
        PostedAbove (s.content cfg) s.rootPtr l page.hdr.lowest a ∨
          ∃ c, (s.clients c).pc.pending = some ⟨a, page.hdr.lowest, l + 1⟩) ∧
    ∀ action s', Grows cfg s action → step cfg s action = some s' →
      ∀ c d, (s.clients c).pc.pending = some d → (s'.clients c).pc.pending = some d ∨
        ∃ below, d.level = below + 1 ∧
          PostedAbove (s'.content cfg) s'.rootPtr below d.key d.sibling := by
  obtain ⟨m, h⟩ := reachable_growing hs
  refine ⟨h.running, fun l a page hlinked hpage hlow => ?_, fun action s' hgrows hstep c d hd => ?_⟩
  · obtain ⟨top, hview⟩ := h.inv.viewOk_content
    obtain ⟨x, hx⟩ := hview.linked hlinked
    have hok := hview.ok hx hpage
    rw [hok.lowest] at hlow ⊢
    exact (h.known a l x hx hlow).imp_left h.inv.postedAbove
  · obtain ⟨m', h', hadv⟩ := h.step hgrows hstep
    rcases hadv.posts c d hd with hstill | ⟨below, hlevel, hposted⟩ | ⟨why, hfailed⟩
    · exact Or.inl hstill
    · exact Or.inr ⟨below, hlevel, h'.inv.postedAbove hposted⟩
    · exact absurd hfailed (h'.running c why)

end Step

/-! ### One client, and one with an old root -/

theorem root_growth_split : ∃ s,
    ((machine sample).restrict (Grows sample)).exec (State.init ⟨0, 8⟩)
      (fill 53 ++ splitRoot ⟨0, 16⟩ ⟨0, 24⟩) = some s ∧
    s.rootPtr = ⟨0, 24⟩ ∧ ∀ c why, (s.clients c).pc ≠ .failed why := by
  have hrun : (((machine sample).restrict (Grows sample)).exec (State.init ⟨0, 8⟩)
      (fill 53 ++ splitRoot ⟨0, 16⟩ ⟨0, 24⟩)).map State.rootPtr = some ⟨0, 24⟩ := by
    decide +kernel
  obtain ⟨s, hs, hroot⟩ := Option.map_eq_some_iff.mp hrun
  have hreach : (machine sample).ReachableBy (Grows sample) s :=
    ⟨_, ⟨⟨0, 8⟩, by decide, rfl⟩, System.path_of_restrict _ hs⟩
  exact ⟨s, hs, hroot, (root_growth hreach).1⟩

/-- Client 0 of node 0 inserts the keys one after another. -/
def inserts (keys : List Nat) : List Action :=
  keys.flatMap fun k =>
    .call ⟨0, 0⟩ (.insert k 7) :: List.replicate 8 (.run ⟨0, 0⟩ .Null none)

/-- Client 1 reads the root pointer.  Client 0 splits the root and fills it again; then client 1
splits it, too. -/
def oldRoot : List Action :=
  .call ⟨0, 1⟩ (.insert 50 7) :: List.replicate 3 (.run ⟨0, 1⟩ .Null none) ++
    inserts ((List.range 53).map fun k => 100 * (k + 1)) ++
    .call ⟨0, 0⟩ (.insert 6000 7) :: List.replicate 6 (.run ⟨0, 0⟩ .Null none) ++
    [.run ⟨0, 0⟩ ⟨0, 16⟩ none, .run ⟨0, 0⟩ .Null none, .run ⟨0, 0⟩ .Null none,
      .run ⟨0, 0⟩ ⟨0, 24⟩ none, .run ⟨0, 0⟩ .Null none] ++
    inserts ((List.range 26).map fun k => k + 1) ++ List.replicate 3 (.run ⟨0, 1⟩ .Null none) ++
    [.run ⟨0, 1⟩ ⟨0, 32⟩ none, .run ⟨0, 1⟩ .Null none, .run ⟨0, 1⟩ .Null none,
      .run ⟨0, 1⟩ ⟨0, 40⟩ none, .run ⟨0, 1⟩ .Null none]

/-- The compare-and-swap of client 1 finds another root, and `assert(from_cache)` fails. -/
theorem root_growth_lost : ∃ s, (machine sample).Reachable s ∧
    (s.clients ⟨0, 1⟩).pc = .failed .fromCache := by
  have hrun : ((machine sample).exec (State.init ⟨0, 8⟩) oldRoot).map
      (fun s => (s.clients ⟨0, 1⟩).pc) = some (.failed .fromCache) := by decide +kernel
  obtain ⟨s, hs, hpc⟩ := Option.map_eq_some_iff.mp hrun
  exact ⟨s, ⟨_, ⟨⟨0, 8⟩, by decide, rfl⟩, System.path_of_exec _ hs⟩, hpc⟩

end Dal.Tree
