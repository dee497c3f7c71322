/-
What `getTreeNodeNR` counts.

`treeNodeNR` is raised where the first leaf is installed, where a leaf or an internal page
is split, and in `update_new_root`, there behind the `return true` of the compare-and-swap:
a new root that is linked is not counted, and one that is not linked is.  The latter is
never seen, since an assertion fails next; so the counter is one short for every level above
the leaves.
-/
import Dal.Tree.Descent
import Dal.Tree.UnderRoot
import Mathlib.Data.Finset.Card

namespace Dal.Tree

/-! ### The pages of the tree -/

section Pages

variable {view : View} {root a : GlobalAddress} {m : Chart} {top l : Nat}

theorem ViewOk.inTree_of_leftmost (h : ViewOk view root m top) (ha : Leftmost view root l a) :
    InTree view root a := by
  induction ha with
  | root => exact .refl
  | down hup hpage ih =>
      obtain ⟨ipage, rfl, -⟩ := (h.ok (h.leftmost hup) hpage).internal
      exact ih.tail (.leftmost hpage)

theorem ViewOk.inTree_of_linked (h : ViewOk view root m top) (ha : Linked view root l a) :
    InTree view root a := by
  obtain ⟨first, hfirst, hreach⟩ := ha
  induction hreach with
  | refl => exact h.inTree_of_leftmost hfirst
  | tail _ hbc ih =>
      obtain ⟨page, hpage, rfl, hne⟩ := hbc
      exact ih.tail (.sibling hpage hne)

/-- The chart has the pages of the tree, and no others. -/
theorem Inv.inTree_iff {cfg : Config} {s : State} (h : Inv cfg s m) :
    InTree (s.content cfg) s.rootPtr a ↔ m a ≠ none := by
  obtain ⟨top, hview⟩ := h.viewOk_content
  constructor
  · intro ha
    obtain ⟨l, x, hax⟩ := hview.inTree ha
    rw [hax]
    exact Option.some_ne_none _
  · intro ha
    obtain ⟨⟨l, x⟩, hax⟩ := Option.ne_none_iff_exists'.mp ha
    obtain ⟨page, hpage, hok⟩ := hview.page a l x hax
    have hrange : x < page.hdr.highest := hok.range
    obtain ⟨b, u, w, ⟨hb, q, hq, hlow, hhigh⟩, hu, hw⟩ :=
      hview.cover (h.level_le hview.root hax) (Nat.lt_of_lt_of_le hrange hok.top)
    obtain ⟨z, hz⟩ := hview.linked hb
    have hzu : z = u := (hview.ok hz hq).lowest.symm.trans hlow
    subst hzu
    have hab := (h.shape.tiling l).home ⟨hax, page, hpage, rfl⟩ ⟨hz, q, hq, hhigh⟩
      (Nat.le_refl x) hrange hu hw
    rw [hab]
    exact hview.inTree_of_linked hb

end Pages

/-! ### The counter -/

/-- How often the step of a client at `pc` executes `treeNodeNR++`. -/
def Local.counts (rootPtr : GlobalAddress) (x : Local) : Pc → Nat
  | .loaded _ task page =>
      match task.outcome x.op page with
      | .split .. => 1
      | _ => 0
  | .casRoot .. => if rootPtr = x.root then 0 else 1
  | _ => 0

def counts (s : State) : Action → Nat
  | .run c _ _ => (s.clients c).counts s.rootPtr (s.clients c).pc
  | _ => 0

/-- The tree with its `treeNodeNR`. -/
structure Counted where
  state : State
  treeNodeNR : Nat

/-- A tree whose constructor has installed the first leaf, and counted it. -/
def counting (cfg : Config) : System Counted Action where
  Init t := ∃ root, root ≠ .Null ∧ t = ⟨State.init root, 1⟩
  step t action := (step cfg t.state action).map fun s =>
    ⟨s, t.treeNodeNR + counts t.state action⟩

/-- Nobody but client `c` makes calls. -/
def Action.Of (c : Client) : Action → Prop
  | .call d _ => d = c
  | _ => True

instance (c : Client) : ∀ action : Action, Decidable (action.Of c)
  | .call d _ => inferInstanceAs (Decidable (d = c))
  | .run _ _ _ | .land _ | .deliver _ | .evict _ _ => isTrue trivial

/-- There are `treeNodeNR` pages in the tree. -/
def Counted.Accurate (cfg : Config) (t : Counted) : Prop :=
  ∃ pages : Finset GlobalAddress,
    (∀ a, a ∈ pages ↔ InTree (t.state.content cfg) t.state.rootPtr a) ∧ pages.card = t.treeNodeNR

/-- A sibling that is counted and not yet linked. -/
def Pc.unlinked : Pc → Nat
  | .linked .. => 1
  | _ => 0

section Counting

variable {cfg : Config} {s s' : State} {m m' : Chart} {top : Nat} {c : Client}
  {committed : Option Op}

theorem unlinked_of_fresh {pc : Pc} (h : pc.fresh = none) : pc.unlinked = 0 := by
  cases pc <;> first | rfl | cases h

/-- What is new on the chart is on a new level, or has its separator still to be posted. -/
theorem Advance.new (h : Inv cfg s m) (hadv : Advance cfg s m s' m' committed)
    (hroot : m s.rootPtr = some (top, kKeyMin))
    (hrunning : ∀ d why, (s'.clients d).pc ≠ .failed why) {a : GlobalAddress} {l x : Nat}
    (ha : m a = none) (ha' : m' a = some (l, x)) :
    (x = kKeyMin ∧ top < l) ∨ ∃ d, (s'.clients d).pc.pending = some ⟨a, x, l + 1⟩ := by
  rcases hadv.links a l x ha' with hold | rfl | ⟨d, hpending | ⟨why, hfailed⟩⟩
  · rw [ha] at hold
    cases hold
  · refine Or.inl ⟨rfl, ?_⟩
    by_contra hle
    -- the level has a first page already
    obtain ⟨top', hview⟩ := h.viewOk_mem
    have htop := hview.root
    rw [hroot] at htop
    cases htop
    obtain ⟨b, hb⟩ := hview.exists_leftmost (Nat.le_of_not_lt hle)
    have hbm := hview.leftmost hb
    have hab := hadv.inv.shape.inj ha' (hadv.le _ _ hbm)
    rw [hab, hbm] at ha
    cases ha
  · exact Or.inr ⟨d, hpending⟩
  · exact absurd hfailed (hrunning d why)

/-- A step after which the root is the root, and no separator has become pending. -/
theorem Advance.same (h : Inv cfg s m) (hadv : Advance cfg s m s' m' committed)
    (hroot : s'.rootPtr = s.rootPtr) (hrunning : ∀ d why, (s'.clients d).pc ≠ .failed why)
    (hpending : ∀ d e, (s'.clients d).pc.pending = some e → (s.clients d).pc.pending = some e)
    (a : GlobalAddress) : m' a ≠ none ↔ m a ≠ none := by
  obtain ⟨top, htop, -⟩ := h.top
  constructor
  · intro ha' ha
    obtain ⟨⟨l, x⟩, hax⟩ := Option.ne_none_iff_exists'.mp ha'
    rcases hadv.new h htop hrunning ha hax with ⟨-, hlt⟩ | ⟨d, hd⟩
    · have hle := hadv.inv.level_le (hroot ▸ hadv.le _ _ htop) hax
      omega
    · obtain ⟨below, -, hsib, -⟩ := h.pending d _ (hpending d _ hd)
      rw [ha] at hsib
      cases hsib
  · intro ha
    obtain ⟨e, he⟩ := Option.ne_none_iff_exists'.mp ha
    rw [hadv.le _ _ he]
    exact Option.some_ne_none e

/-- A step that links the page the client has written. -/
theorem Advance.adds (hadv : Advance cfg s m s' m' committed) {b : GlobalAddress}
    (hb : m' b ≠ none) (hnew : ∀ a l x, m a = none → m' a = some (l, x) → a = b)
    (a : GlobalAddress) : m' a ≠ none ↔ m a ≠ none ∨ a = b := by
  constructor
  · intro ha'
    by_cases ha : m a = none
    · obtain ⟨⟨l, x⟩, hax⟩ := Option.ne_none_iff_exists'.mp ha'
      exact Or.inr (hnew a l x ha hax)
    · exact Or.inl ha
  · rintro (ha | rfl)
    · obtain ⟨e, he⟩ := Option.ne_none_iff_exists'.mp ha
      rw [hadv.le _ _ he]
      exact Option.some_ne_none e
    · exact hb

/-- What a step of client `c`, which adds `n` to the counter, does about the pages. -/
inductive Tallied (s s' : State) (c : Client) (n : Nat) : Prop
  /-- It links none. -/
  | calm (hroot : s'.rootPtr = s.rootPtr)
      (hpending : ∀ e, (s'.clients c).pc.pending = some e → (s.clients c).pc.pending = some e)
      (hcount : (s'.clients c).pc.unlinked = (s.clients c).pc.unlinked + n)
  | linked (sibling : GlobalAddress) (k l : Nat) (hroot : s'.rootPtr = s.rootPtr)
      (hfresh : (s.clients c).pc.fresh = some sibling)
      (hpending : (s'.clients c).pc.pending = some ⟨sibling, k, l + 1⟩)
      (hcount : (s'.clients c).pc.unlinked + 1 = (s.clients c).pc.unlinked + n)
  | installed (p sibling newRoot : GlobalAddress) (task : Task) (k : Nat)
      (hpc : (s.clients c).pc = .casRoot p task k sibling newRoot)
      (hswap : s.rootPtr = (s.clients c).root) (hroot : s'.rootPtr = newRoot)
      (hmem : s'.mem = s.mem) (hidle : (s'.clients c).pc = .idle (some .done)) (hcount : n = 0)

theorem Inv.tallied (h : Inv cfg s m) {fresh : GlobalAddress} {waiter : Option Client}
    (hunder : UnderRoot m (s.clients c) (s.clients c).pc)
    (hrunning : ∀ why, (s'.clients c).pc ≠ .failed why)
    (hstep : runClient cfg s c fresh waiter = some s') :
    Tallied s s' c ((s.clients c).counts s.rootPtr (s.clients c).pc) := by
  have hturn := run_turned hstep
  have hok := h.pc c
  -- a step that counts nothing, from and to where no sibling is waiting
  have hcalm : ∀ pc', (s'.clients c).pc = pc' → s'.rootPtr = s.rootPtr →
      (s.clients c).pc.unlinked = 0 → (s.clients c).counts s.rootPtr (s.clients c).pc = 0 →
      pc'.unlinked = 0 →
      (pc'.pending = (s.clients c).pc.pending ∨ pc'.pending = none ∨ ∃ why, pc' = .failed why) →
      Tallied s s' c ((s.clients c).counts s.rootPtr (s.clients c).pc) := by
    rintro pc' rfl hroot hbefore hcount hafter hpending
    refine .calm hroot (fun e he => ?_) ?_
    · rcases hpending with hsame | hnone | ⟨why, hwhy⟩
      · rwa [hsame] at he
      · rw [hnone] at he
        cases he
      · exact absurd hwhy (hrunning why)
    · rw [hbefore, hcount, hafter]
  generalize hpc : (s.clients c).pc = pc at hturn hunder hok hcalm ⊢
  cases hturn with
  | start =>
      have hstart : (start s c).unlinked = 0 ∧ (start s c).pending = none := by
        unfold start
        simp only
        split <;> exact ⟨rfl, rfl⟩
      exact hcalm _ (setPc_self _ _) rfl rfl rfl hstart.1 (Or.inr (Or.inl hstart.2))
  | toRead use hroot =>
      exact hcalm _ (setPc_self _ _) rfl rfl rfl rfl (Or.inl rfl)
  | known use hroot | readRoot use =>
      refine hcalm _ (congrArg Local.pc (setClient_self _ _)) rfl rfl rfl
        (unlinked_of_fresh (rooted_fresh _ _)) (Or.inl ?_)
      exact rooted_pending _ use
  | searchCache =>
      have hsearch : (searchCache s c).unlinked = 0 ∧ (searchCache s c).pending = none := by
        unfold searchCache
        simp only
        split <;> exact ⟨rfl, rfl⟩
      exact hcalm _ (setPc_self _ _) rfl rfl rfl hsearch.1 (Or.inr (Or.inl hsearch.2))
  | descend p goal =>
      refine hcalm _ (congrArg Local.pc (setClient_self _ _)) rfl rfl rfl ?_ ?_
      · rcases pageRead_cases s c p goal with hsame | ⟨why, hwhy⟩ | ⟨page, hread⟩ | ⟨x, result, hread⟩
        · rw [hsame, hpc]
          rfl
        · rw [hwhy]
          rfl
        · rw [hread]
          rfl
        · rw [hread]
          exact unlinked_of_fresh (afterSearch_fresh result)
      · rcases pageRead_cases s c p goal with hsame | ⟨why, hwhy⟩ | ⟨page, hread⟩ | ⟨x, result, hread⟩
        · rw [hsame, hpc]
          exact Or.inl rfl
        · exact Or.inr (Or.inr ⟨why, hwhy⟩)
        · rw [hread]
          exact Or.inl rfl
        · rw [hread]
          exact (afterSearch_pending result).imp_right Or.inr
  | cachingError p page goal why herror | unmapped p task hmem =>
      exact hcalm _ (setPc_self _ _) rfl rfl rfl rfl (Or.inr (Or.inr ⟨_, rfl⟩))
  | fail p task page why hout => exact absurd (setPc_self _ _) (hrunning why)
  | caching p page goal result hresult =>
      exact hcalm _ (setPc_self _ _) rfl rfl rfl (unlinked_of_fresh (afterSearch_fresh _))
        ((afterSearch_pending result).imp_right Or.inr)
  | invalidate entry =>
      have hrestart : (restart (s.clients c)).unlinked = 0 ∧
          (restart (s.clients c)).pending = none := by
        unfold restart
        split <;> exact ⟨rfl, rfl⟩
      exact hcalm _ (setPc_self _ _) rfl rfl rfl hrestart.1 (Or.inl hrestart.2)
  | lock p task hlock | read p task page hmem =>
      exact hcalm _ (setPc_self _ _) rfl rfl rfl rfl (Or.inl rfl)
  | loaded p task page mode after async hafter hmode =>
      have hcount : (s.clients c).counts s.rootPtr (.loaded p task page) = 0 := by
        simp only [Local.counts]
        split
        · rename_i hout
          rw [hout] at hafter
          cases hafter
        · rfl
      refine hcalm _ (setPc_self _ _) (by rw [commit_eq]; rfl) rfl hcount rfl ?_
      cases hout : task.outcome (s.clients c).op page with
      | right sibling =>
          rw [hout] at hafter
          cases hafter
          exact Or.inl rfl
      | stale | entry i r | absent | page page' =>
          rw [hout] at hafter
          cases hafter
          exact Or.inr (Or.inl rfl)
      | fail why | split left right splitKey =>
          rw [hout] at hafter
          cases hafter
  | split p task page left right splitKey hout hmem hnull =>
      refine .calm rfl (fun e he => ?_) ?_
      · rw [setPc_self] at he
        rw [hpc]
        exact he
      · rw [setPc_self, hpc]
        simp only [Local.counts, hout]
        rfl
  | posting p task page left right splitKey sibling hout hasync =>
      refine .linked sibling splitKey task.level rfl (by rw [hpc]; rfl) ?_ ?_
      · rw [setPc_self]
        rcases afterUnlock_pending (x := s.clients c) (.split p task splitKey sibling) with
          hpending | ⟨why, hwhy⟩
        · exact hpending
        · exact absurd ((setPc_self _ _).trans hwhy) (hrunning why)
      · rw [setPc_self, hpc, unlinked_of_fresh (afterUnlock_fresh _)]
        rfl
  | linked p task page left right splitKey sibling mode hout hmode =>
      refine .linked sibling splitKey task.level rfl (by rw [hpc]; rfl) ?_ ?_
      · rw [setPc_self]
        rfl
      · rw [setPc_self, hpc]
        rfl
  | unlock p mode after =>
      exact hcalm _ (setPc_self _ _) rfl rfl rfl (unlinked_of_fresh (afterUnlock_fresh _))
        ((afterUnlock_pending after).imp_right Or.inr)
  | grow p task splitKey sibling hmem hnull =>
      exact hcalm _ (setPc_self _ _) rfl rfl rfl rfl (Or.inl rfl)
  | installed p task splitKey sibling newRoot hroot =>
      exact .installed p sibling newRoot task splitKey hpc hroot rfl rfl (setPc_self _ _)
        (if_pos hroot)
  | overtaken p task splitKey sibling newRoot hroot =>
      obtain ⟨why, hwhy⟩ := overtaken_fails hunder hok.1 hok.2.1 sibling
      exact absurd ((setPc_self _ _).trans hwhy) (hrunning why)

end Counting

/-! ### The count, while one client makes the calls -/

/-- The chart's pages are counted but for one on every level above the leaves, and a sibling
is counted when it is written. -/
structure Numbered (cfg : Config) (c : Client) (t : Counted) (m : Chart) (top : Nat) : Prop where
  inv : Inv cfg t.state m
  root : m t.state.rootPtr = some (top, kKeyMin)
  under : UnderRoot m (t.state.clients c) (t.state.clients c).pc
  others : ∀ d, d ≠ c → ∃ r, (t.state.clients d).pc = .idle r
  count : (∀ why, (t.state.clients c).pc ≠ .failed why) → ∃ pages : Finset GlobalAddress,
    (∀ a, a ∈ pages ↔ m a ≠ none) ∧
      t.treeNodeNR + top = pages.card + (t.state.clients c).pc.unlinked

section Numbered

variable {cfg : Config} {c : Client} {t t' : Counted} {m m' : Chart} {top : Nat} {s : State}
  {committed : Option Op}

/-- A step that links no page. -/
theorem Numbered.keep (h : Numbered cfg c t m top) (hadv : Advance cfg t.state m s m' committed)
    {n : Nat} (hroot : s.rootPtr = t.state.rootPtr)
    (hothers : ∀ d, d ≠ c → s.clients d = t.state.clients d)
    (hunder : UnderRoot m (s.clients c) (s.clients c).pc)
    (hcalm : (∀ why, (s.clients c).pc ≠ .failed why) →
      (∀ why, (t.state.clients c).pc ≠ .failed why) ∧
      (∀ e, (s.clients c).pc.pending = some e → (t.state.clients c).pc.pending = some e) ∧
      (s.clients c).pc.unlinked = (t.state.clients c).pc.unlinked + n) :
    Numbered cfg c ⟨s, t.treeNodeNR + n⟩ m' top := by
  have hidle : ∀ d, d ≠ c → ∃ r, (s.clients d).pc = .idle r := fun d hd => by
    rw [hothers d hd]
    exact h.others d hd
  refine ⟨hadv.inv, ?_, hunder.mono hadv.le, hidle, fun hrunning => ?_⟩
  · show m' s.rootPtr = _
    rw [hroot]
    exact hadv.le _ _ h.root
  · obtain ⟨hwas, hpending, hunlinked⟩ := hcalm hrunning
    obtain ⟨pages, hpages, hcard⟩ := h.count hwas
    refine ⟨pages, fun a => ?_, ?_⟩
    · rw [hpages a]
      refine (hadv.same h.inv hroot (fun d why => ?_) (fun d e he => ?_) a).symm
      · by_cases hdc : d = c
        · rw [hdc]
          exact hrunning why
        · obtain ⟨r, hr⟩ := hidle d hdc
          rw [hr]
          exact fun hf => by cases hf
      · by_cases hdc : d = c
        · subst hdc
          exact hpending e he
        · rwa [hothers d hdc] at he
    · show t.treeNodeNR + n + top = pages.card + (s.clients c).pc.unlinked
      omega

/-- A step that links the page `b`, on top of the tree or below. -/
theorem Numbered.add (h : Numbered cfg c t m top) (hinv : Inv cfg s m') {n top' : Nat}
    {b : GlobalAddress} (hroot : m' s.rootPtr = some (top', kKeyMin))
    (hothers : ∀ d, d ≠ c → s.clients d = t.state.clients d)
    (hunder : UnderRoot m' (s.clients c) (s.clients c).pc)
    (hwas : ∀ why, (t.state.clients c).pc ≠ .failed why) (hb : m b = none)
    (hadds : ∀ a, m' a ≠ none ↔ m a ≠ none ∨ a = b)
    (hcount : top' + n + (t.state.clients c).pc.unlinked = top + (s.clients c).pc.unlinked + 1) :
    Numbered cfg c ⟨s, t.treeNodeNR + n⟩ m' top' := by
  refine ⟨hinv, hroot, hunder, fun d hd => ?_, fun _ => ?_⟩
  · show ∃ r, (s.clients d).pc = .idle r
    rw [hothers d hd]
    exact h.others d hd
  · obtain ⟨pages, hpages, hcard⟩ := h.count hwas
    have hnot : b ∉ pages := fun hin => (hpages b).mp hin hb
    refine ⟨insert b pages, fun a => ?_, ?_⟩
    · rw [Finset.mem_insert, hpages, hadds, or_comm]
    · show t.treeNodeNR + n + top' = (insert b pages).card + (s.clients c).pc.unlinked
      rw [Finset.card_insert_of_notMem hnot]
      omega

theorem Numbered.installs_none (h : Numbered cfg c t m top) {fresh : GlobalAddress}
    {waiter : Option Client} (hstep : runClient cfg t.state c fresh waiter = some s)
    (hroot : s.rootPtr = t.state.rootPtr) : installs t.state (.run c fresh waiter) = none := by
  rcases run_roots hstep with ⟨hnone, -⟩ | ⟨p, task, k, sibling, newRoot, hpc, -, -, hinstalls⟩
  · exact hnone
  · obtain ⟨hfresh, -⟩ := h.inv.fresh c newRoot (by rw [hpc]; rfl)
    rw [← hinstalls.rootPtr, hroot, h.root] at hfresh
    cases hfresh

/-- The client takes a step. -/
theorem Numbered.run (h : Numbered cfg c t m top) {fresh : GlobalAddress} {waiter : Option Client}
    (hstep : runClient cfg t.state c fresh waiter = some s) :
    ∃ m' top', Numbered cfg c ⟨s, t.treeNodeNR + counts t.state (.run c fresh waiter)⟩ m' top' ∧
      (installs t.state (.run c fresh waiter) = none ∧ top' = top ∨
        installs t.state (.run c fresh waiter) ≠ none ∧ top' = top + 1) := by
  obtain ⟨m', hadv⟩ := h.inv.run hstep
  have hothers := (run_frame hstep).2
  have hunder := h.inv.underRoot_run h.under hstep
  have hwas : ∀ why, (t.state.clients c).pc ≠ .failed why := by
    intro why hwhy
    simp only [runClient, hwhy] at hstep
    cases hstep
  by_cases hfailed : ∃ why, (s.clients c).pc = .failed why
  · obtain ⟨why, hwhy⟩ := hfailed
    have hroot : s.rootPtr = t.state.rootPtr := by
      rcases (run_turned hstep).shared.2 with ⟨hroot, -⟩ | ⟨_, _, _, _, _, -, -, -, -, -, hidle⟩
      · exact hroot
      · rw [hwhy] at hidle
        cases hidle
    exact ⟨m', top, h.keep hadv hroot hothers hunder fun hrunning => absurd hwhy (hrunning why),
      Or.inl ⟨h.installs_none hstep hroot, rfl⟩⟩
  have hrunning : ∀ why, (s.clients c).pc ≠ .failed why := fun why hwhy => hfailed ⟨why, hwhy⟩
  have hidle : ∀ d, d ≠ c → (s.clients d).pc.pending = none ∧ ∀ why, (s.clients d).pc ≠ .failed why := by
    intro d hd
    obtain ⟨r, hr⟩ := h.others d hd
    rw [hothers d hd, hr]
    exact ⟨rfl, fun why hf => by cases hf⟩
  have hall : ∀ d why, (s.clients d).pc ≠ .failed why := by
    intro d why
    by_cases hd : d = c
    · rw [hd]
      exact hrunning why
    · exact (hidle d hd).2 why
  cases h.inv.tallied h.under hrunning hstep with
  | calm hroot hpending hcount =>
      exact ⟨m', top, h.keep hadv hroot hothers hunder fun _ => ⟨hwas, hpending, hcount⟩,
        Or.inl ⟨h.installs_none hstep hroot, rfl⟩⟩
  | linked sibling k l hroot hfresh hpending hcount =>
      obtain ⟨hnone, -⟩ := h.inv.fresh c sibling hfresh
      have htop : m' s.rootPtr = some (top, kKeyMin) := by
        rw [hroot]
        exact hadv.le _ _ h.root
      obtain ⟨below, -, hlinked, -⟩ := hadv.inv.pending c _ hpending
      have hsibling : m' sibling ≠ none := by
        rw [hlinked]
        exact Option.some_ne_none _
      refine ⟨m', top, h.add hadv.inv htop hothers (hunder.mono hadv.le) hwas hnone
        (hadv.adds hsibling fun a l' x ha ha' => ?_) ?_, Or.inl ⟨h.installs_none hstep hroot, rfl⟩⟩
      · rcases hadv.new h.inv h.root hall ha ha' with ⟨-, hlt⟩ | ⟨d, hd⟩
        · have hle := hadv.inv.level_le htop ha'
          omega
        · by_cases hdc : d = c
          · subst hdc
            rw [hpending] at hd
            cases hd
            rfl
          · rw [(hidle d hdc).1] at hd
            cases hd
      · simp only [counts]
        omega
  | installed p sibling newRoot task k hpc hswap hroot hmem hreturned hcount =>
      obtain ⟨hnone, -⟩ := h.inv.fresh c newRoot (by rw [hpc]; rfl)
      obtain ⟨hold, hnew⟩ := h.inv.install_level hadv.inv hpc hswap hroot hmem
      rw [h.root] at hold
      obtain rfl : top = task.level := (Prod.mk.inj (Option.some.inj hold)).1
      have htop : m' s.rootPtr = some (task.level + 1, kKeyMin) := by
        rw [hroot]
        exact hnew
      have hnewRoot : m' newRoot ≠ none := by
        rw [hnew]
        exact Option.some_ne_none _
      refine ⟨m', task.level + 1, h.add hadv.inv htop hothers (hunder.mono hadv.le) hwas hnone
        (hadv.adds hnewRoot fun a l x ha ha' => ?_) ?_, Or.inr ⟨?_, rfl⟩⟩
      · rcases hadv.new h.inv h.root hall ha ha' with ⟨rfl, hlt⟩ | ⟨d, hd⟩
        · have hle := hadv.inv.level_le htop ha'
          obtain rfl : l = task.level + 1 := by omega
          exact hadv.inv.shape.inj ha' hnew
        · by_cases hdc : d = c
          · subst hdc
            rw [hreturned] at hd
            cases hd
          · rw [(hidle d hdc).1] at hd
            cases hd
      · simp only [counts]
        rw [hcount, hreturned, hpc]
        simp only [Pc.unlinked]
      · simp only [installs, hpc, if_pos hswap]
        exact Option.some_ne_none _

/-- A step of nobody. -/
theorem Numbered.pass (h : Numbered cfg c t m top) (hadv : Advance cfg t.state m s m' committed)
    (hroot : s.rootPtr = t.state.rootPtr) (hclients : s.clients = t.state.clients) :
    Numbered cfg c ⟨s, t.treeNodeNR⟩ m' top := by
  refine h.keep (n := 0) hadv hroot (fun d _ => by rw [hclients]) ?_ fun hrunning => ?_
  · rw [hclients]
    exact h.under
  · rw [hclients] at hrunning ⊢
    exact ⟨hrunning, fun e he => he, rfl⟩

/-- The client makes a call. -/
theorem Numbered.call (h : Numbered cfg c t m top) {op : Op}
    (hstep : step cfg t.state (.call c op) = some s) : Numbered cfg c ⟨s, t.treeNodeNR⟩ m top := by
  have hadv := h.inv.call hstep
  simp only [step] at hstep
  split at hstep
  · rename_i r hidle
    split at hstep
    · cases hstep
      refine h.keep (n := 0) hadv rfl (fun d hd => Function.update_of_ne hd ..) ?_ fun _ => ?_
      · rw [setClient_self]
        cases op <;> trivial
      · rw [setClient_self, hidle]
        refine ⟨fun why hwhy => (by cases hwhy), fun e he => ?_, ?_⟩
        · cases op <;> cases he
        · cases op <;> rfl
    · cases hstep
  · cases hstep

theorem Numbered.step (h : Numbered cfg c t m top) {action : Action} (hof : action.Of c)
    (hstep : (counting cfg).step t action = some t') : ∃ m' top', Numbered cfg c t' m' top' ∧
      (installs t.state action = none ∧ top' = top ∨
        installs t.state action ≠ none ∧ top' = top + 1) := by
  obtain ⟨s, hs, rfl⟩ := Option.map_eq_some_iff.mp hstep
  cases action with
  | call d op =>
      obtain rfl : d = c := hof
      exact ⟨m, top, h.call hs, Or.inl ⟨rfl, rfl⟩⟩
  | run d fresh waiter =>
      by_cases hd : d = c
      · subst hd
        exact h.run hs
      · obtain ⟨r, hr⟩ := h.others d hd
        simp only [Tree.step, runClient, hr] at hs
        cases hs
  | land l =>
      refine ⟨m, top, h.pass (h.inv.land hs) ?_ (clients_of_land hs), Or.inl ⟨rfl, rfl⟩⟩
      simp only [Tree.step] at hs
      split at hs <;> cases hs <;> rfl
  | deliver message =>
      refine ⟨m, top, h.pass (h.inv.deliver hs) ?_ (clients_of_deliver hs), Or.inl ⟨rfl, rfl⟩⟩
      obtain ⟨n, a, l⟩ := message
      simp only [Tree.step] at hs
      split at hs <;> cases hs
      rfl
  | evict n entry =>
      obtain ⟨m', hadv⟩ := h.inv.step hs
      cases hs
      exact ⟨m', top, h.pass hadv rfl rfl, Or.inl ⟨rfl, rfl⟩⟩

theorem numbered_init (cfg : Config) (c : Client) {root : GlobalAddress} (hroot : root ≠ .Null) :
    Numbered cfg c ⟨State.init root, 1⟩ (Chart.single root) 0 where
  inv := inv_init cfg hroot
  root := if_pos rfl
  under := trivial
  others _ _ := ⟨none, rfl⟩
  count _ := by
    refine ⟨{root}, fun a => ?_, rfl⟩
    rw [Finset.mem_singleton]
    unfold Chart.single
    by_cases ha : a = root
    · rw [if_pos ha]
      exact ⟨fun _ => Option.some_ne_none _, fun _ => ha⟩
    · rw [if_neg ha]
      exact ⟨fun heq => absurd heq ha, fun hne => absurd rfl hne⟩

/-- A step by which client `c` alone makes calls, and that installs no new root. -/
def KeepsRoot (c : Client) (t : Counted) (action : Action) : Prop :=
  action.Of c ∧ installs t.state action = none

instance (c : Client) (t : Counted) (action : Action) : Decidable (KeepsRoot c t action) :=
  inferInstanceAs (Decidable (_ ∧ _))

/-- The height of the tree is the number of new roots; a run to a tree of one level has none. -/
theorem reachable_numbered (ht : (counting cfg).ReachableBy (fun _ action => action.Of c) t) :
    ∃ m top, Numbered cfg c t m top ∧
      (top = 0 → (counting cfg).ReachableBy (KeepsRoot c) t) := by
  refine System.ReachableBy.invariant (I := fun t => ∃ m top, Numbered cfg c t m top ∧
    (top = 0 → (counting cfg).ReachableBy (KeepsRoot c) t)) ht ?_ ?_
  · rintro t ⟨root, hroot, rfl⟩
    exact ⟨_, 0, numbered_init cfg c hroot, fun _ => ⟨_, ⟨root, hroot, rfl⟩, .refl⟩⟩
  · rintro t action t' ⟨m, top, h, hreach⟩ hof hstep
    obtain ⟨m', top', h', ⟨hnone, rfl⟩ | ⟨-, rfl⟩⟩ := h.step hof hstep
    · exact ⟨m', _, h', fun htop => (hreach htop).tail action ⟨hof, hnone⟩ hstep⟩
    · exact ⟨m', _, h', fun htop => absurd htop (Nat.succ_ne_zero top)⟩

theorem keepsRoot_numbered (ht : (counting cfg).ReachableBy (KeepsRoot c) t) :
    ∃ m, Numbered cfg c t m 0 := by
  refine System.ReachableBy.invariant (I := fun t => ∃ m, Numbered cfg c t m 0) ht ?_ ?_
  · rintro t ⟨root, hroot, rfl⟩
    exact ⟨_, numbered_init cfg c hroot⟩
  · rintro t action t' ⟨m, h⟩ ⟨hof, hnone⟩ hstep
    obtain ⟨m', top', h', ⟨-, rfl⟩ | ⟨hsome, -⟩⟩ := h.step hof hstep
    · exact ⟨m', h'⟩
    · exact absurd hnone hsome

/-- Between two calls the counter is one short for every level above the leaves. -/
theorem Numbered.idle (h : Numbered cfg c t m top) (hidle : ∃ r, (t.state.clients c).pc = .idle r) :
    ∃ pages : Finset GlobalAddress,
      (∀ a, a ∈ pages ↔ InTree (t.state.content cfg) t.state.rootPtr a) ∧
        t.treeNodeNR + top = pages.card := by
  obtain ⟨r, hr⟩ := hidle
  obtain ⟨pages, hpages, hcard⟩ := h.count fun why hwhy => by rw [hr] at hwhy; cases hwhy
  rw [hr] at hcard
  exact ⟨pages, fun a => (hpages a).trans h.inv.inTree_iff.symm, hcard⟩

/--
**What `getTreeNodeNR` returns after an operation.**

It is the number of the pages of the tree if and only if no new root has been installed in
the run.
-/
theorem node_count (ht : (counting cfg).ReachableBy (fun _ action => action.Of c) t)
    (hidle : ∃ r, (t.state.clients c).pc = .idle r) :
    t.Accurate cfg ↔ (counting cfg).ReachableBy (KeepsRoot c) t := by
  constructor
  · rintro ⟨pages, hpages, hcard⟩
    obtain ⟨m, top, h, hreach⟩ := reachable_numbered ht
    obtain ⟨pages', hpages', hcard'⟩ := h.idle hidle
    have hsame : pages = pages' := Finset.ext fun a => (hpages a).trans (hpages' a).symm
    refine hreach ?_
    rw [← hsame, hcard] at hcard'
    omega
  · intro hreach
    obtain ⟨m, h⟩ := keepsRoot_numbered hreach
    obtain ⟨pages, hpages, hcard⟩ := h.idle hidle
    exact ⟨pages, hpages, hcard.symm⟩

/-- Fifty-four inserts: there are two leaves and the root over them, and two are counted. -/
theorem node_count_short : ∃ t,
    (counting sample).ReachableBy (fun _ action => action.Of ⟨0, 0⟩) t ∧
    (∃ r, (t.state.clients ⟨0, 0⟩).pc = .idle r) ∧ t.treeNodeNR = 2 ∧ ¬ t.Accurate sample ∧
    ∃ pages : Finset GlobalAddress,
      (∀ a, a ∈ pages ↔ InTree (t.state.content sample) t.state.rootPtr a) ∧ pages.card = 3 := by
  have hrun : ((counting sample).exec ⟨State.init ⟨0, 8⟩, 1⟩
      (fill 53 ++ splitRoot ⟨0, 16⟩ ⟨0, 24⟩)).map
      (fun t => (t.treeNodeNR, (t.state.mem t.state.rootPtr).map fun page => page.hdr.level,
        (t.state.clients ⟨0, 0⟩).pc.isIdle)) = some (2, some 1, true) := by decide +kernel
  obtain ⟨t, ht, heq⟩ := Option.map_eq_some_iff.mp hrun
  simp only [Prod.mk.injEq] at heq
  obtain ⟨hcount, hlevel, hisIdle⟩ := heq
  have hidle := Pc.isIdle_iff.mp hisIdle
  have hof : ∀ action ∈ fill 53 ++ splitRoot ⟨0, 16⟩ ⟨0, 24⟩, action.Of ⟨0, 0⟩ := by decide +kernel
  have hreach : (counting sample).ReachableBy (fun _ action => action.Of ⟨0, 0⟩) t :=
    ⟨_, ⟨⟨0, 8⟩, by decide, rfl⟩, System.path_of_exec_of _ (fun _ action ha => hof action ha) ht⟩
  obtain ⟨m, top, h, -⟩ := reachable_numbered hreach
  obtain ⟨pages, hpages, hcard⟩ := h.idle hidle
  obtain ⟨page, hpage, hok⟩ := h.inv.shape.page _ _ _ h.root
  rw [hpage, Option.map_some, hok.level] at hlevel
  cases hlevel
  rw [hcount] at hcard
  refine ⟨t, hreach, hidle, hcount, ?_, pages, hpages, hcard.symm⟩
  rintro ⟨pages', hpages', hcard'⟩
  have hsame : pages' = pages := Finset.ext fun a => (hpages' a).trans (hpages a).symm
  rw [hsame, hcount, ← hcard] at hcard'
  cases hcard'

/-- An insert that splits nothing. -/
theorem node_count_one : ∃ t : Counted, t.treeNodeNR = 1 ∧ t.Accurate sample := by
  have hrun : (((counting sample).restrict (KeepsRoot ⟨0, 0⟩)).exec ⟨State.init ⟨0, 8⟩, 1⟩
      (fill 1)).map (fun t => (t.treeNodeNR, (t.state.clients ⟨0, 0⟩).pc.isIdle)) =
      some (1, true) := by decide +kernel
  obtain ⟨t, ht, heq⟩ := Option.map_eq_some_iff.mp hrun
  injection heq with hcount hisIdle
  have hpath := System.path_of_restrict _ ht
  have hinit : (counting sample).Init ⟨State.init ⟨0, 8⟩, 1⟩ := ⟨⟨0, 8⟩, by decide, rfl⟩
  exact ⟨t, hcount, (node_count ⟨_, hinit, hpath.mono fun _ _ hkeeps => hkeeps.1⟩
    (Pc.isIdle_iff.mp hisIdle)).mpr ⟨_, hinit, hpath⟩⟩

end Numbered

end Dal.Tree
