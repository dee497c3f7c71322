/-
New roots and what the directories hear of them.

`update_new_root` installs a root by compare-and-swap and sends `NEW_ROOT` to every
node.  The messages overtake each other and may never arrive; a directory keeps the
highest level it has heard of.  That this is enough has one reason: no two roots are
installed at one level.  A compare-and-swap only succeeds for a client whose page is
the root of the moment, and the new root goes one level above that page.

`History` is a state of the tree with the list of what was installed, latest first.
The steps of the tree do not read the list.
-/
import Dal.Tree.Step
import Mathlib.Data.List.Nodup

namespace Dal.Tree

/-- What a step installs at the root pointer: the address of the new root and its level. -/
def installs (s : State) : Action → Option (GlobalAddress × Nat)
  | .run c _ _ =>
      match (s.clients c).pc with
      | .casRoot _ task _ _ newRoot =>
          if s.rootPtr = (s.clients c).root then some (newRoot, task.level + 1) else none
      | _ => none
  | _ => none

structure History where
  state : State
  installed : List (GlobalAddress × Nat)

/-- The tree, keeping a list of the roots `update_new_root` installs. -/
def history (cfg : Config) : System History Action where
  Init t := ∃ root, root ≠ .Null ∧ t = ⟨State.init root, []⟩
  step t action := (step cfg t.state action).map fun s =>
    ⟨s, (installs t.state action).toList ++ t.installed⟩

/-! ### What a step changes of all this -/

/-- A step that has nothing to do with roots. -/
structure Quiet (s s' : State) : Prop where
  rootPtr : s'.rootPtr = s.rootPtr
  messages : s'.messages = s.messages
  directory : s'.directory = s.directory

/-- The compare-and-swap of the root pointer, and the broadcast. -/
structure Installs (cfg : Config) (s s' : State) (newRoot : GlobalAddress) (level : Nat) : Prop where
  rootPtr : s'.rootPtr = newRoot
  messages : s'.messages =
    s.messages ++ (List.range cfg.machineNR).map fun n => (n, newRoot, level)
  directory : s'.directory = s.directory
  mem : s'.mem = s.mem

section Step

variable {cfg : Config} {s s' : State} {m : Chart}

/-- A client's step either installs a root or has nothing to do with roots. -/
theorem run_roots {c : Client} {fresh : GlobalAddress} {waiter : Option Client}
    (hstep : runClient cfg s c fresh waiter = some s') :
    (installs s (.run c fresh waiter) = none ∧ Quiet s s') ∨
      ∃ p task splitKey sibling newRoot, (s.clients c).pc = .casRoot p task splitKey sibling newRoot ∧
        s.rootPtr = (s.clients c).root ∧
        installs s (.run c fresh waiter) = some (newRoot, task.level + 1) ∧
        Installs cfg s s' newRoot (task.level + 1) := by
  unfold runClient at hstep
  cases hpc : (s.clients c).pc with
  | idle response | failed why => simp only [hpc] at hstep; cases hstep
  | start | searchCache | invalidate entry | descend p goal | unlock p mode after =>
      simp only [hpc, Option.some.injEq] at hstep
      subst hstep
      exact Or.inl ⟨by simp only [installs, hpc], rfl, rfl, rfl⟩
  | getRoot use =>
      simp only [hpc] at hstep
      refine Or.inl ⟨by simp only [installs, hpc], ?_⟩
      split at hstep <;> cases hstep <;> exact ⟨rfl, rfl, rfl⟩
  | readRoot use =>
      simp only [hpc, Option.some.injEq] at hstep
      subst hstep
      exact Or.inl ⟨by simp only [installs, hpc], rfl, rfl, rfl⟩
  | caching p page goal =>
      simp only [hpc, Option.some.injEq] at hstep
      subst hstep
      refine Or.inl ⟨by simp only [installs, hpc], ?_⟩
      unfold caching
      simp only
      split <;> exact ⟨rfl, rfl, rfl⟩
  | lock p task =>
      simp only [hpc] at hstep
      refine Or.inl ⟨by simp only [installs, hpc], ?_⟩
      split at hstep
      · cases hstep
        exact ⟨rfl, rfl, rfl⟩
      · split at hstep
        · cases hstep
          exact ⟨rfl, rfl, rfl⟩
        · cases hstep
      · cases hstep
  | read p task =>
      simp only [hpc] at hstep
      refine Or.inl ⟨by simp only [installs, hpc], ?_⟩
      split at hstep <;> cases hstep <;> exact ⟨rfl, rfl, rfl⟩
  | loaded p task page =>
      simp only [hpc, loaded] at hstep
      refine Or.inl ⟨by simp only [installs, hpc], ?_⟩
      split at hstep
      · cases hstep
        exact ⟨rfl, rfl, rfl⟩
      · obtain ⟨mode, -, rfl⟩ := Option.map_eq_some_iff.mp hstep
        exact ⟨rfl, rfl, rfl⟩
      · obtain ⟨mode, -, rfl⟩ := Option.map_eq_some_iff.mp hstep
        exact ⟨rfl, rfl, rfl⟩
      · obtain ⟨mode, -, rfl⟩ := Option.map_eq_some_iff.mp hstep
        exact ⟨rfl, rfl, rfl⟩
      · obtain ⟨mode, -, rfl⟩ := Option.map_eq_some_iff.mp hstep
        exact ⟨rfl, rfl, rfl⟩
      · obtain ⟨mode, -, rfl⟩ := Option.map_eq_some_iff.mp hstep
        exact ⟨rfl, rfl, rfl⟩
      · split at hstep
        · cases hstep
          exact ⟨rfl, rfl, rfl⟩
        · cases hstep
  | linked p task page sibling =>
      simp only [hpc, linked] at hstep
      refine Or.inl ⟨by simp only [installs, hpc], ?_⟩
      split at hstep
      · obtain ⟨mode, -, rfl⟩ := Option.map_eq_some_iff.mp hstep
        cases mode <;> exact ⟨rfl, rfl, rfl⟩
      · cases hstep
  | grow p task splitKey sibling =>
      simp only [hpc] at hstep
      refine Or.inl ⟨by simp only [installs, hpc], ?_⟩
      split at hstep
      · cases hstep
        exact ⟨rfl, rfl, rfl⟩
      · cases hstep
  | casRoot p task splitKey sibling newRoot =>
      simp only [hpc, Option.some.injEq] at hstep
      subst hstep
      unfold casRoot
      simp only
      by_cases hroot : s.rootPtr = (s.clients c).root
      · rw [if_pos hroot]
        refine Or.inr ⟨p, task, splitKey, sibling, newRoot, rfl, hroot, ?_, rfl, rfl, rfl, rfl⟩
        simp only [installs, hpc, if_pos hroot]
      · rw [if_neg hroot]
        refine Or.inl ⟨?_, rfl, rfl, rfl⟩
        simp only [installs, hpc, if_neg hroot]

/-- What a directory holds after a message is at least as high as before, and as the message. -/
theorem newRoot_le (d : Directory) (a : GlobalAddress) (l : Nat) :
    d.rootLevel ≤ (d.newRoot a l).rootLevel ∧ (l : Int) ≤ (d.newRoot a l).rootLevel := by
  unfold Directory.newRoot
  split
  · rename_i hlt
    exact ⟨Int.le_of_lt hlt, Int.le_refl _⟩
  · rename_i hge
    exact ⟨Int.le_refl _, Int.not_lt.mp hge⟩

/-- It is what it was, or what the message says. -/
theorem newRoot_cases (d : Directory) (a : GlobalAddress) (l : Nat) :
    d.newRoot a l = d ∨ (d.newRoot a l).rootPtr = a ∧ (d.newRoot a l).rootLevel = l := by
  unfold Directory.newRoot
  split
  · exact Or.inr ⟨rfl, rfl⟩
  · exact Or.inl rfl

/-- No step lowers the level a directory knows. -/
theorem rootLevel_le {action : Action} (hstep : step cfg s action = some s') (n : Nat) :
    (s.directory n).rootLevel ≤ (s'.directory n).rootLevel := by
  cases action with
  | call c op =>
      simp only [step] at hstep
      split at hstep
      · split at hstep
        · cases hstep
          exact Int.le_refl _
        · cases hstep
      · cases hstep
  | run c fresh waiter =>
      rcases run_roots hstep with ⟨-, hquiet⟩ | ⟨p, task, k, sibling, newRoot, -, -, -, hinstalls⟩
      · rw [hquiet.directory]
      · rw [hinstalls.directory]
  | land l =>
      simp only [step] at hstep
      split at hstep <;> cases hstep <;> exact Int.le_refl _
  | deliver message =>
      obtain ⟨i, a, l⟩ := message
      simp only [step] at hstep
      split at hstep
      · cases hstep
        by_cases hn : n = i
        · subst hn
          simp only [Function.update_self]
          exact (newRoot_le _ a l).1
        · simp only [Function.update_of_ne hn]
          exact Int.le_refl _
      · cases hstep
  | evict i entry =>
      cases hstep
      exact Int.le_refl _

theorem Inv.level_le (h : Inv cfg s m) {a : GlobalAddress} {top l x : Nat}
    (hroot : m s.rootPtr = some (top, kKeyMin)) (ha : m a = some (l, x)) : l ≤ top := by
  obtain ⟨top', htop', hle⟩ := h.top
  rw [hroot] at htop'
  cases htop'
  exact hle a l x ha

/-- The page that was split is the root of the moment, and the new root goes one level above it. -/
theorem Inv.install_level (h : Inv cfg s m) {m' : Chart} (hinv : Inv cfg s' m') {c : Client}
    {p sibling newRoot : GlobalAddress} {task : Task} {k : Nat}
    (hpc : (s.clients c).pc = .casRoot p task k sibling newRoot)
    (hswap : s.rootPtr = (s.clients c).root) (hroot : s'.rootPtr = newRoot)
    (hmem : s'.mem = s.mem) :
    m s.rootPtr = some (task.level, kKeyMin) ∧ m' newRoot = some (task.level + 1, kKeyMin) := by
  have hok := h.pc c
  rw [hpc] at hok
  obtain ⟨⟨⟨l, hl⟩, -, ⟨y, hp, -⟩, -⟩, hxp, hwritten⟩ := hok
  constructor
  · rw [hxp, hp] at hl
    cases hl
    rw [hswap, hxp]
    exact hp
  · obtain ⟨top, htop, -⟩ := hinv.top
    obtain ⟨page, hpage, hpageOk⟩ := hinv.shape.page _ _ _ htop
    rw [hroot] at htop
    rw [hroot, hmem, hwritten] at hpage
    cases hpage
    have hlevel : task.level + 1 = top := hpageOk.level
    rw [htop, hlevel]

end Step

/-! ### The invariant -/

/-- The roots installed are pages of their levels, each one level above the last, and every node
has been told of each or will be. -/
structure Announced (cfg : Config) (t : History) (m : Chart) : Prop where
  inv : Inv cfg t.state m
  levels : (t.installed.map (·.2)).reverse = List.range' 1 t.installed.length
  mapped : ∀ a l, (a, l) ∈ t.installed → m a = some (l, kKeyMin)
  current : m t.state.rootPtr = some (t.installed.length, kKeyMin)
  sent : ∀ n, n < cfg.machineNR → ∀ a l, (a, l) ∈ t.installed →
    (n, a, l) ∈ t.state.messages ∨ (l : Int) ≤ (t.state.directory n).rootLevel
  messages : ∀ n a l, (n, a, l) ∈ t.state.messages → (a, l) ∈ t.installed
  directory : ∀ n, (t.state.directory n).rootPtr = .Null ∧ (t.state.directory n).rootLevel = -1 ∨
    ∃ l : Nat, ((t.state.directory n).rootPtr, l) ∈ t.installed ∧
      (t.state.directory n).rootLevel = l

section Announced

variable {cfg : Config} {t t' : History} {m m' : Chart}

/-- No level is above the number of roots. -/
theorem Announced.level_le (h : Announced cfg t m) {a : GlobalAddress} {l : Nat}
    (ha : (a, l) ∈ t.installed) : l ≤ t.installed.length := by
  have hmem : l ∈ (t.installed.map (·.2)).reverse :=
    List.mem_reverse.mpr (List.mem_map_of_mem ha)
  rw [h.levels] at hmem
  have := (List.mem_range'_1.mp hmem).2
  omega

/-- The current root is the latest that was installed. -/
theorem Announced.latest (h : Announced cfg t m) (hne : t.installed ≠ []) :
    (t.state.rootPtr, t.installed.length) ∈ t.installed := by
  have hpos := List.length_pos_iff.mpr hne
  have hmem : t.installed.length ∈ (t.installed.map (·.2)).reverse := by
    rw [h.levels]
    exact List.mem_range'_1.mpr ⟨hpos, by omega⟩
  obtain ⟨⟨a, l⟩, ha, rfl⟩ := List.mem_map.mp (List.mem_reverse.mp hmem)
  have hsame := h.inv.shape.inj (h.mapped a _ ha) h.current
  rwa [hsame] at ha

theorem announced_init (cfg : Config) {root : GlobalAddress} (hroot : root ≠ .Null) :
    Announced cfg ⟨State.init root, []⟩ (Chart.single root) where
  inv := inv_init cfg hroot
  levels := rfl
  mapped _ _ ha := by cases ha
  current := if_pos rfl
  sent _ _ _ _ ha := by cases ha
  messages _ _ _ hm := by cases hm
  directory _ := Or.inl ⟨rfl, rfl⟩

/-- A step that has nothing to do with roots. -/
theorem Announced.quiet (h : Announced cfg t m) {s : State} (hle : m.Le m') (hinv : Inv cfg s m')
    (hq : Quiet t.state s) : Announced cfg ⟨s, t.installed⟩ m' where
  inv := hinv
  levels := h.levels
  mapped a l ha := hle _ _ (h.mapped a l ha)
  current := by
    show m' s.rootPtr = _
    rw [hq.rootPtr]
    exact hle _ _ h.current
  sent n hn a l ha := by
    show _ ∈ s.messages ∨ _ ≤ (s.directory n).rootLevel
    rw [hq.messages, hq.directory]
    exact h.sent n hn a l ha
  messages n a l hm := by
    have hm : _ ∈ s.messages := hm
    rw [hq.messages] at hm
    exact h.messages n a l hm
  directory n := by
    show (s.directory n).rootPtr = _ ∧ _ ∨ ∃ l : Nat, ((s.directory n).rootPtr, l) ∈ _ ∧ _
    rw [hq.directory]
    exact h.directory n

/-- A new root goes on top of the last one. -/
theorem Announced.install (h : Announced cfg t m) {s : State} {newRoot : GlobalAddress}
    (hle : m.Le m') (hinv : Inv cfg s m')
    (hroot : m' newRoot = some (t.installed.length + 1, kKeyMin))
    (hi : Installs cfg t.state s newRoot (t.installed.length + 1)) :
    Announced cfg ⟨s, (newRoot, t.installed.length + 1) :: t.installed⟩ m' where
  inv := hinv
  levels := by
    show (_ :: t.installed.map (·.2)).reverse = List.range' 1 (t.installed.length + 1)
    rw [List.reverse_cons, h.levels, List.range'_concat, Nat.one_mul, Nat.add_comm 1]
  mapped a l ha := by
    rcases List.mem_cons.mp ha with heq | hold
    · cases heq
      exact hroot
    · exact hle _ _ (h.mapped a l hold)
  current := by
    show m' s.rootPtr = _
    rw [hi.rootPtr]
    exact hroot
  sent n hn a l ha := by
    show _ ∈ s.messages ∨ _ ≤ (s.directory n).rootLevel
    rw [hi.messages, hi.directory]
    rcases List.mem_cons.mp ha with heq | hold
    · cases heq
      refine Or.inl (List.mem_append_right _ (List.mem_map.mpr ⟨n, ?_, rfl⟩))
      exact List.mem_range.mpr hn
    · exact (h.sent n hn a l hold).imp_left (List.mem_append_left _)
  messages n a l hm := by
    have hm : _ ∈ s.messages := hm
    rw [hi.messages] at hm
    rcases List.mem_append.mp hm with hold | hnew
    · exact List.mem_cons_of_mem _ (h.messages n a l hold)
    · obtain ⟨_, -, heq⟩ := List.mem_map.mp hnew
      cases heq
      exact List.mem_cons_self
  directory n := by
    show (s.directory n).rootPtr = _ ∧ _ ∨ ∃ l : Nat, ((s.directory n).rootPtr, l) ∈ _ ∧ _
    rw [hi.directory]
    exact (h.directory n).imp_right fun ⟨l, hl, heq⟩ => ⟨l, List.mem_cons_of_mem _ hl, heq⟩

/-- A directory hears of a root. -/
theorem Announced.deliver (h : Announced cfg t m) {s : State} {i : Nat} {a : GlobalAddress}
    {l : Nat} (hmem : (i, a, l) ∈ t.state.messages) (hinv : Inv cfg s m)
    (hroot : s.rootPtr = t.state.rootPtr)
    (hmessages : s.messages = t.state.messages.erase (i, a, l))
    (hdirectory : s.directory =
      Function.update t.state.directory i ((t.state.directory i).newRoot a l)) :
    Announced cfg ⟨s, t.installed⟩ m where
  inv := hinv
  levels := h.levels
  mapped := h.mapped
  current := by
    show m s.rootPtr = _
    rw [hroot]
    exact h.current
  sent n hn b k hb := by
    show _ ∈ s.messages ∨ _ ≤ (s.directory n).rootLevel
    rw [hmessages, hdirectory]
    by_cases hni : n = i
    · subst hni
      rw [Function.update_self]
      rcases h.sent n hn b k hb with hwaiting | hknown
      · by_cases hsame : (n, b, k) = (n, a, l)
        · cases hsame
          exact Or.inr (newRoot_le _ _ _).2
        · exact Or.inl ((List.mem_erase_of_ne hsame).mpr hwaiting)
      · exact Or.inr (hknown.trans (newRoot_le _ a l).1)
    · rw [Function.update_of_ne hni]
      refine (h.sent n hn b k hb).imp_left (List.mem_erase_of_ne ?_).mpr
      exact fun heq => hni (congrArg Prod.fst heq)
  messages n b k hm := by
    have hm : _ ∈ s.messages := hm
    rw [hmessages] at hm
    exact h.messages n b k (List.mem_of_mem_erase hm)
  directory n := by
    show (s.directory n).rootPtr = _ ∧ _ ∨ ∃ l : Nat, ((s.directory n).rootPtr, l) ∈ _ ∧ _
    rw [hdirectory]
    by_cases hni : n = i
    · subst hni
      rw [Function.update_self]
      rcases newRoot_cases (t.state.directory n) a l with heq | ⟨hptr, hlevel⟩
      · rw [heq]
        exact h.directory n
      · exact Or.inr ⟨l, by rw [hptr]; exact h.messages n a l hmem, hlevel⟩
    · rw [Function.update_of_ne hni]
      exact h.directory n

theorem Announced.step (h : Announced cfg t m) {action : Action}
    (hstep : (history cfg).step t action = some t') : ∃ m', Announced cfg t' m' := by
  obtain ⟨s, hs, rfl⟩ := Option.map_eq_some_iff.mp hstep
  obtain ⟨m', hadv⟩ := h.inv.step hs
  cases action with
  | call c op =>
      refine ⟨m', h.quiet hadv.le hadv.inv ?_⟩
      simp only [Tree.step] at hs
      split at hs
      · split at hs
        · cases hs
          exact ⟨rfl, rfl, rfl⟩
        · cases hs
      · cases hs
  | run c fresh waiter =>
      rcases run_roots hs with ⟨hnone, hquiet⟩ | ⟨p, task, k, sibling, newRoot, hpc, hroot, hsome, hi⟩
      · rw [hnone]
        exact ⟨m', h.quiet hadv.le hadv.inv hquiet⟩
      · obtain ⟨hold, hnew⟩ := h.inv.install_level hadv.inv hpc hroot hi.rootPtr hi.mem
        rw [h.current] at hold
        have hlevel : task.level = t.installed.length :=
          (Prod.mk.inj (Option.some.inj hold)).1.symm
        rw [hlevel] at hnew
        rw [hsome, hlevel]
        rw [hlevel] at hi
        exact ⟨m', h.install hadv.le hadv.inv hnew hi⟩
  | land l =>
      refine ⟨m', h.quiet hadv.le hadv.inv ?_⟩
      simp only [Tree.step] at hs
      split at hs <;> cases hs <;> exact ⟨rfl, rfl, rfl⟩
  | deliver message =>
      obtain ⟨i, a, l⟩ := message
      have hadv' := h.inv.deliver hs
      simp only [Tree.step] at hs
      split at hs
      · rename_i hmem
        cases hs
        exact ⟨m, h.deliver hmem hadv'.inv rfl rfl rfl⟩
      · cases hs
  | evict n entry =>
      refine ⟨m', h.quiet hadv.le hadv.inv ?_⟩
      cases hs
      exact ⟨rfl, rfl, rfl⟩

theorem reachable_announced (ht : (history cfg).Reachable t) : ∃ m, Announced cfg t m := by
  refine System.ReachableBy.invariant (I := fun t => ∃ m, Announced cfg t m) ht ?_ ?_
  · rintro t ⟨root, hroot, rfl⟩
    exact ⟨_, announced_init cfg hroot⟩
  · intro t action t' ⟨m, h⟩ _ hstep
    exact h.step hstep

/-- Along a run no directory goes back to a lower level. -/
theorem rootLevel_mono (hpath : (history cfg).Path (fun _ _ => True) t t') (n : Nat) :
    (t.state.directory n).rootLevel ≤ (t'.state.directory n).rootLevel := by
  induction hpath with
  | refl => exact Int.le_refl _
  | tail action _ _ hstep ih =>
      obtain ⟨s, hs, rfl⟩ := Option.map_eq_some_iff.mp hstep
      exact ih.trans (rootLevel_le hs n)

/--
**The announcement of roots does not depend on the order of the messages.**

The roots installed have the levels 1, 2, 3 and so on; a directory never goes back to a
lower level; it holds nothing yet, or a root with its level; and once no message to it is on
its way it holds the current root, if any was installed since the tree was made.
-/
theorem root_announcement (ht : (history cfg).Reachable t) :
    (t.installed.map (·.2)).reverse = List.range' 1 t.installed.length ∧
    (∀ n t', (history cfg).Path (fun _ _ => True) t t' →
      (t.state.directory n).rootLevel ≤ (t'.state.directory n).rootLevel) ∧
    (∀ n, (t.state.directory n).rootPtr = .Null ∧ (t.state.directory n).rootLevel = -1 ∨
      ∃ l : Nat, ((t.state.directory n).rootPtr, l) ∈ t.installed ∧
        (t.state.directory n).rootLevel = l) ∧
    ∀ n, n < cfg.machineNR → t.installed ≠ [] → (∀ a l, (n, a, l) ∉ t.state.messages) →
      (t.state.directory n).rootPtr = t.state.rootPtr ∧
      (t.state.directory n).rootLevel = (t.installed.length : Int) := by
  obtain ⟨m, h⟩ := reachable_announced ht
  refine ⟨h.levels, fun n t' hpath => rootLevel_mono hpath n, h.directory, ?_⟩
  intro n hn hne hdelivered
  have hlatest := h.latest hne
  have hpos := List.length_pos_iff.mpr hne
  have hknown : (t.installed.length : Int) ≤ (t.state.directory n).rootLevel := by
    rcases h.sent n hn _ _ hlatest with hwaiting | hknown
    · exact absurd hwaiting (hdelivered _ _)
    · exact hknown
  rcases h.directory n with ⟨-, hlevel⟩ | ⟨l, hmem, hlevel⟩
  · omega
  · have hle := h.level_le hmem
    have hl : l = t.installed.length := by omega
    subst hl
    exact ⟨h.inv.shape.inj (h.mapped _ _ hmem) h.current, hlevel⟩

end Announced

/-! ### One node, one client -/

/-- The first leaf is split, and node 0 hears of the new root. -/
theorem root_announcement_split : ∃ t,
    (history sample).exec ⟨State.init ⟨0, 8⟩, []⟩
      (fill 53 ++ splitRoot ⟨0, 16⟩ ⟨0, 24⟩ ++ [.deliver (0, ⟨0, 24⟩, 1)]) = some t ∧
    t.installed = [(⟨0, 24⟩, 1)] ∧ t.state.messages = [] ∧
    (t.state.directory 0).rootPtr = t.state.rootPtr := by
  have hrun : ((history sample).exec ⟨State.init ⟨0, 8⟩, []⟩
      (fill 53 ++ splitRoot ⟨0, 16⟩ ⟨0, 24⟩ ++ [.deliver (0, ⟨0, 24⟩, 1)])).map
        (fun t => (t.installed, t.state.messages)) = some ([(⟨0, 24⟩, 1)], []) := by
    decide +kernel
  obtain ⟨t, ht, heq⟩ := Option.map_eq_some_iff.mp hrun
  obtain ⟨hinstalled, hmessages⟩ := Prod.mk.inj heq
  have hreach : (history sample).Reachable t :=
    ⟨_, ⟨⟨0, 8⟩, by decide, rfl⟩, System.path_of_exec _ ht⟩
  obtain ⟨-, -, -, hdelivered⟩ := root_announcement hreach
  refine ⟨t, ht, hinstalled, hmessages, (hdelivered 0 (by decide) ?_ fun a l hm => ?_).1⟩
  · rw [hinstalled]
    exact List.cons_ne_nil _ _
  · rw [hmessages] at hm
    cases hm

/-- Before anything was announced there is nothing to deliver, and a directory holds no root. -/
theorem root_announcement_silent : ∃ t, (history sample).Reachable t ∧ t.state.messages = [] ∧
    (t.state.directory 0).rootPtr ≠ t.state.rootPtr ∧
    ¬ ∃ l : Nat, ((t.state.directory 0).rootPtr, l) ∈ t.installed ∧
      (t.state.directory 0).rootLevel = l := by
  refine ⟨⟨State.init ⟨0, 8⟩, []⟩, ⟨_, ⟨⟨0, 8⟩, by decide, rfl⟩, .refl⟩, rfl, by decide, ?_⟩
  intro ⟨l, hmem, _⟩
  cases hmem

end Dal.Tree
