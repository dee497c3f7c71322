/-
Every call of a client that is alone returns.

The rank of a client is lowered by each of its steps.  First comes the phase: what is left
to do before the descent, then the descent, then the levels that may still be split, from
the leaf upwards.  Within a phase the client moves down or to the right, so the page it is
at counts, by its level and by where it begins.  Last come the steps at one page.

Posted writes and messages can be waited for as well: there are finitely many, and a client
that is not at work adds none.
-/
import Dal.Tree.Solo
import Mathlib.Algebra.BigOperators.Group.Finset.Basic
import Mathlib.Algebra.Order.BigOperators.Group.Finset
import Mathlib.Order.RelClasses

namespace Dal.Tree

/-- The higher the level and the further left a page begins, the more is left. -/
def place (m : Chart) (p : GlobalAddress) : Nat :=
  match m p with
  | some (l, x) => l * 2 ^ 64 + (kKeyMax - x)
  | none => 0

/-- What is left for a client to do, while the root is on level `top`. -/
def Pc.rank (m : Chart) (top : Nat) : Pc → ℕ × ℕ × ℕ
  | .start => (top + 6, 0, 0)
  | .getRoot _ => (top + 5, 0, 0)
  | .readRoot _ => (top + 4, 0, 0)
  | .searchCache => (top + 3, 0, 0)
  | .descend p _ => (top + 2, place m p, 0)
  | .unlock _ _ (.right task sibling) => (top + 1 - task.level, place m sibling, 7)
  | .lock p task => (top + 1 - task.level, place m p, 6)
  | .read p task => (top + 1 - task.level, place m p, 5)
  | .loaded p task _ => (top + 1 - task.level, place m p, 4)
  | .linked p task _ _ => (top + 1 - task.level, place m p, 3)
  | .unlock _ _ (.split p task _ _) => (top + 1 - task.level, place m p, 2)
  | .grow p task _ _ => (top + 1 - task.level, place m p, 1)
  | .casRoot p task _ _ _ => (top + 1 - task.level, place m p, 0)
  | .unlock _ _ .done | .unlock _ _ (.stale _) => (0, 0, 1)
  | .idle _ | .failed _ | .caching _ _ _ | .invalidate _ => (0, 0, 0)

/-- The phase first, then the place, then the step. -/
def Below : ℕ × ℕ × ℕ → ℕ × ℕ × ℕ → Prop := Prod.Lex (· < ·) (Prod.Lex (· < ·) (· < ·))

section Place

variable {m m' : Chart} {p q : GlobalAddress} {l x y : Nat}

theorem place_of (h : m p = some (l, x)) : place m p = l * 2 ^ 64 + (kKeyMax - x) := by
  unfold place
  rw [h]

theorem place_mono (hle : m.Le m') (h : m p = some (l, x)) : place m' p = place m p := by
  rw [place_of h, place_of (hle _ _ h)]

/-- To the right on one level. -/
theorem place_right (hp : m p = some (l, x)) (hq : m q = some (l, y)) (hxy : x < y)
    (hx : x < kKeyMax) : place m q < place m p := by
  rw [place_of hp, place_of hq]
  omega

/-- Down to a child. -/
theorem place_down (hp : m p = some (l + 1, x)) (hq : m q = some (l, y)) :
    place m q < place m p := by
  rw [place_of hp, place_of hq]
  unfold kKeyMax
  omega

theorem Below.phase {a a' : ℕ} {b b' : ℕ × ℕ} (h : a < a') : Below (a, b) (a', b') :=
  Prod.Lex.left _ _ h

theorem Below.place {a b b' n n' : ℕ} (h : b < b') : Below (a, b, n) (a, b', n') :=
  Prod.Lex.right _ (Prod.Lex.left _ _ h)

theorem Below.step {a b b' n n' : ℕ} (hb : b = b') (h : n < n') : Below (a, b, n) (a, b', n') := by
  subst hb
  exact Prod.Lex.right _ (Prod.Lex.right _ h)

theorem below_wf : WellFounded Below :=
  Nat.lt_wfRel.wf.prod_lex (Nat.lt_wfRel.wf.prod_lex Nat.lt_wfRel.wf)

end Place

section Run

variable {cfg : Config} {c : Client} {s s' : State} {m m' : Chart} {top top' : Nat}

/-- A page of the tree begins below `kKeyMax`. -/
theorem Inv.begin_lt (h : Inv cfg s m) {p : GlobalAddress} {l x : Nat} (hp : m p = some (l, x)) :
    x < kKeyMax := by
  obtain ⟨page, -, hok⟩ := h.shape.page p l x hp
  exact Nat.lt_of_lt_of_le hok.range hok.top

/-- The way from a page goes down, to the right, or ends. -/
theorem Led.rank {x : Local} {l y : Nat} {p : GlobalAddress} {pc : Pc} (h : Led m l y x p pc)
    (hle : m.Le m') (hp : m p = some (l, y)) (hy : y < kKeyMax) :
    Below (pc.rank m' top) (top + 2, place m p, 0) := by
  cases h with
  | returned r => exact Below.phase (by omega)
  | right q z hq hyz =>
      apply Below.place
      rw [place_mono hle hq]
      exact place_right hp hq hyz hy
  | down q below z hl hq hyz =>
      subst hl
      apply Below.place
      rw [place_mono hle hq]
      exact place_down hp hq
  | leaf hl | child q z hl hq => exact Below.phase (by rw [op_task_level]; omega)

/-- A client that has a separator to post is on its way to a level it has not split. -/
theorem Solo.rank_postUp (h : Solo cfg c s m top) {x : Local} {task : Task} {k n b : Nat}
    {sibling root : GlobalAddress} (hfrom : FromRoot root top x task)
    (hpc : (s.clients c).pc = postUp x task k sibling) :
    Below ((s.clients c).pc.rank m top) (top + 1 - task.level, b, n) := by
  rcases postUp_cases x task k sibling with ⟨-, hpost⟩ | ⟨-, ⟨entry, rfl⟩, -⟩ |
    ⟨-, -, why, -, hpost⟩
  · have hok := h.growing.inv.pc c
    rw [hpc, hpost] at hok
    have htask : TaskOk m (s.directory c.node).enableCache (s.clients c) _
      (.internalStore k sibling (task.level + 1)) := hok
    obtain ⟨y, hy⟩ := htask.level
    have hle := h.level_le hy
    rw [hpc, hpost]
    apply Below.phase
    simp only [Task.level] at hle ⊢
    omega
  · cases hfrom.plain
  · exact absurd (hpc.trans hpost) (h.growing.running c why)

/-- A client that has split a page installs a new root or goes up. -/
theorem Solo.rank_afterUnlock (h : Solo cfg c s' m' top) (hle : m.Le m') {x : Local}
    {p sibling root : GlobalAddress} {task : Task} {k n y : Nat}
    (hfrom : FromRoot root top x task) (hp : m p = some (task.level, y)) (hn : 1 < n)
    (hpc : (s'.clients c).pc = afterUnlock x (.split p task k sibling)) :
    Below ((s'.clients c).pc.rank m' top) (top + 1 - task.level, place m p, n) := by
  by_cases hroot : x.root = p
  · rw [hpc, show afterUnlock x (.split p task k sibling) = .grow p task k sibling from
      if_pos hroot]
    exact Below.step (place_mono hle hp) hn
  · exact h.rank_postUp hfrom (hpc.trans (if_neg hroot))

/-- **Every step of the client lowers its rank.** -/
theorem Solo.rank_run (h : Solo cfg c s m top) (h' : Solo cfg c s' m' top') (hle : m.Le m')
    {fresh : GlobalAddress} {waiter : Option Client}
    (hstep : runClient cfg s c fresh waiter = some s') :
    Below ((s'.clients c).pc.rank m' top') ((s.clients c).pc.rank m top) := by
  have hturn := run_turned hstep
  have hstraight := h.current.straight
  have hok := h.growing.inv.pc c
  have hrunning := h'.growing.running c
  have htop : s'.rootPtr = s.rootPtr → top' = top := by
    intro hroot
    have hnew := h'.current.root
    rw [hroot, hle _ _ h.current.root] at hnew
    cases hnew
    rfl
  generalize hpc : (s.clients c).pc = pc at hturn hstraight hok
  cases hturn with
  | start =>
      rw [h.alone.start_off, setPc_self, htop rfl]
      exact Below.phase (by omega)
  | toRead use hroot =>
      rw [setPc_self, htop rfl]
      exact Below.phase (by omega)
  | known use hroot | readRoot use =>
      cases use with
      | operation =>
          rw [setClient_self, htop rfl]
          cases hop : (s.clients c).op <;> simp only [rooted, hop] <;>
            exact Below.phase (by omega)
      | _ => exact hstraight.elim
  | searchCache =>
      rw [h.alone.searchCache_off, setPc_self, htop rfl]
      exact Below.phase (by omega)
  | descend p goal =>
      cases goal with
      | parent k v level => exact hstraight.elim
      | leaf cached =>
          cases cached with
          | some entry => exact hstraight.elim
          | none =>
              obtain ⟨l, y, result, hp, hread, hled⟩ := h.descend hpc
              rw [setClient_self, hread, htop rfl]
              exact hled.rank hle hp (h.growing.inv.begin_lt hp)
  | cachingError p page goal why herror | caching p page goal result hok | invalidate entry =>
      exact hstraight.elim
  | unmapped p task hmem => exact absurd (setPc_self _ _) (hrunning .unmapped)
  | fail p task page why hout => exact absurd (setPc_self _ _) (hrunning why)
  | lock p task hlock =>
      obtain ⟨y, hy⟩ := TaskOk.level hok
      rw [setPc_self, htop rfl]
      exact Below.step (place_mono hle hy) (by omega)
  | read p task page hmem =>
      obtain ⟨y, hy⟩ := TaskOk.level hok
      rw [setPc_self, htop rfl]
      exact Below.step (place_mono hle hy) (by omega)
  | split p task page left right splitKey hout hmem hnull =>
      obtain ⟨y, hy⟩ := TaskOk.level hok.1
      rw [setPc_self, htop rfl]
      exact Below.step (place_mono hle hy) (by omega)
  | linked p task page left right splitKey sibling mode hout hmode =>
      obtain ⟨y, hy⟩ := TaskOk.level hok.1
      rw [setPc_self, htop rfl]
      exact Below.step (place_mono hle hy) (by omega)
  | loaded p task page mode after async hafter hmode =>
      obtain ⟨y, hy⟩ := TaskOk.level hok.1
      have hlevel := h.level_le hy
      rw [setPc_self, htop (by rw [commit_eq]; rfl)]
      rcases h.after hpc hafter with rfl | ⟨x, sibling, z, rfl, hp, hq, hxz⟩
      · exact Below.phase (by omega)
      · apply Below.place
        rw [place_mono hle hq]
        exact place_right hp hq hxz (h.growing.inv.begin_lt hp)
  | posting p task page left right splitKey sibling hout hasync =>
      obtain ⟨y, hy⟩ := TaskOk.level hok.1
      rw [htop rfl] at h' ⊢
      exact h'.rank_afterUnlock hle hstraight hy (by omega) (setPc_self _ _)
  | unlock p mode after =>
      rw [htop rfl] at h' ⊢
      cases after with
      | done =>
          rw [setPc_self]
          exact Below.step rfl (by omega)
      | stale entry => exact hstraight.elim
      | right task sibling =>
          obtain ⟨hnull, htask⟩ := hok
          obtain ⟨y, hy⟩ := htask.level
          rw [uncached_level] at hy
          rw [setPc_self, show afterUnlock (s.clients c) (.right task sibling) =
            .lock sibling task.uncached from if_neg hnull]
          simp only [Pc.rank, uncached_level]
          exact Below.step (place_mono hle hy) (by omega)
      | split q task splitKey sibling =>
          obtain ⟨-, -, ⟨y, hy, -⟩, -⟩ := hok
          exact h'.rank_afterUnlock hle hstraight hy (by omega) (setPc_self _ _)
  | grow p task splitKey sibling hmem hnull =>
      obtain ⟨⟨-, -, ⟨y, hy, -⟩, -⟩, -⟩ := hok
      rw [setPc_self, htop rfl]
      exact Below.step (place_mono hle hy) (by omega)
  | installed p task splitKey sibling newRoot hroot =>
      obtain ⟨⟨-, -, ⟨y, hy, -⟩, -⟩, -⟩ := hok
      have hlevel := h.level_le hy
      rw [setPc_self]
      exact Below.phase (by omega)
  | overtaken p task splitKey sibling newRoot hroot => exact absurd hstraight.root.symm hroot

/-- With no posted write in the way the client can take its next step. -/
theorem Solo.can_run (h : Solo cfg c s m top) (hposted : ∀ l w, s.locks l ≠ .posted w)
    (hbusy : ∀ r, (s.clients c).pc ≠ .idle r) :
    ∃ fresh s', runClient cfg s c fresh none = some s' := by
  obtain ⟨fresh, hfresh⟩ := h.alone.room.exists_fresh
  refine ⟨fresh, Option.ne_none_iff_exists'.mp fun hnone => ?_⟩
  unfold runClient at hnone
  cases hpc : (s.clients c).pc with
  | idle r => exact hbusy r hpc
  | failed why => exact h.growing.running c why hpc
  | getRoot use =>
      simp only [hpc] at hnone
      split at hnone <;> cases hnone
  | lock p task =>
      have hfree : s.locks (cfg.lockAddr p) = .free := by
        rcases h.alone.locks (cfg.lockAddr p) with hfree | ⟨w, hw⟩ | hheld
        · exact hfree
        · exact absurd hw (hposted _ w)
        · rw [hpc] at hheld
          cases hheld
      simp only [hpc, hfree] at hnone
      cases hnone
  | read p task =>
      simp only [hpc] at hnone
      split at hnone <;> cases hnone
  | loaded p task page =>
      simp only [hpc, loaded, release] at hnone
      split at hnone
      any_goals cases hnone
      rw [if_pos hfresh] at hnone
      cases hnone
  | linked p task page sibling =>
      have hok := h.growing.inv.pc c
      rw [hpc] at hok
      obtain ⟨-, -, left, right, splitKey, hout, -⟩ := hok
      simp only [hpc, linked, release, hout] at hnone
      cases hnone
  | grow p task splitKey sibling =>
      simp only [hpc, if_pos hfresh] at hnone
      cases hnone
  | _ =>
      simp only [hpc] at hnone
      cases hnone

end Run

/-! ### Posted writes and messages -/

/-- The writes still to be executed for a lock. -/
def Lock.writes : Lock → Nat
  | .posted (some _) => 2
  | .posted none => 1
  | .free | .held _ | .handed _ => 0

/-- What is still to be executed or delivered. -/
def State.lag (ls : Finset LockAddr) (s : State) : Nat :=
  ∑ l ∈ ls, (s.locks l).writes + s.messages.length

section Lag

variable {cfg : Config} {s s' : State} {ls : Finset LockAddr}

theorem lag_land (hls : PostedIn ls s.locks) {l : LockAddr}
    (hstep : step cfg s (.land l) = some s') : s'.lag ls < s.lag ls ∧ PostedIn ls s'.locks := by
  have hset : ∀ (x : Lock) (w : Option (GlobalAddress × Page)), s.locks l = .posted w →
      x.writes < (s.locks l).writes → s'.locks = Function.update s.locks l x →
      s'.messages = s.messages → s'.lag ls < s.lag ls ∧ PostedIn ls s'.locks := by
    intro x w hw hlt hlocks hmessages
    have hl := hls l w hw
    refine ⟨?_, fun k w' hk => ?_⟩
    · unfold State.lag
      rw [hmessages, hlocks]
      apply Nat.add_lt_add_right
      refine Finset.sum_lt_sum (fun k _ => ?_) ⟨l, hl, ?_⟩
      · by_cases hkl : k = l
        · subst hkl
          rw [Function.update_self]
          exact Nat.le_of_lt hlt
        · rw [Function.update_of_ne hkl]
      · rw [Function.update_self]
        exact hlt
    · by_cases hkl : k = l
      · exact hkl ▸ hl
      · rw [hlocks, Function.update_of_ne hkl] at hk
        exact hls k w' hk
  simp only [step] at hstep
  split at hstep
  · rename_i a page hw
    cases hstep
    exact hset (.posted none) _ hw (by rw [hw]; exact Nat.lt_succ_self 1) rfl rfl
  · rename_i hw
    cases hstep
    exact hset .free _ hw (by rw [hw]; exact Nat.lt_succ_self 0) rfl rfl
  · cases hstep

variable (ls) in
theorem lag_deliver {message : Nat × GlobalAddress × Nat}
    (hstep : step cfg s (.deliver message) = some s') :
    s'.cacheOff.lag ls < s.lag ls ∧ s'.cacheOff.locks = s.locks := by
  obtain ⟨n, a, l⟩ := message
  simp only [step] at hstep
  split at hstep
  · rename_i hm
    cases hstep
    refine ⟨Nat.add_lt_add_left ?_ _, rfl⟩
    show (s.messages.erase (n, a, l)).length < s.messages.length
    have hpos := List.length_pos_of_mem hm
    rw [List.length_erase_of_mem hm]
    omega
  · cases hstep

end Lag

/-! ### The session -/

section Session

variable {cfg : Config} {c : Client} {s s' : Session}

/-- The client's rank, and what is still to be executed or delivered. -/
def Ranked (cfg : Config) (c : Client) (s : Session) (b : (ℕ × ℕ × ℕ) × ℕ) : Prop :=
  ∃ m top ls, Solo cfg c s.state m top ∧ PostedIn ls s.state.locks ∧
    b = ((s.state.clients c).pc.rank m top, s.state.lag ls)

theorem clients_of_land {t t' : State} {l : LockAddr} (hstep : Tree.step cfg t (.land l) = some t') :
    t'.clients = t.clients := by
  funext d
  rcases clients_of_step hstep d with ⟨fresh, waiter, heq⟩ | ⟨op, heq⟩ | hsame
  · cases heq
  · cases heq
  · exact hsame

theorem clients_of_deliver {t t' : State} {message : Nat × GlobalAddress × Nat}
    (hstep : Tree.step cfg t (.deliver message) = some t') : t'.clients = t.clients := by
  funext d
  rcases clients_of_step hstep d with ⟨fresh, waiter, heq⟩ | ⟨op, heq⟩ | hsame
  · cases heq
  · cases heq
  · exact hsame

/-- Only the client itself has steps to take. -/
theorem Alone.eq_of_run {t t' : State} (h : Alone cfg c t) {d : Client} {fresh : GlobalAddress}
    {waiter : Option Client} (hstep : runClient cfg t d fresh waiter = some t') : d = c := by
  by_contra hdc
  obtain ⟨r, hr⟩ := h.others d hdc
  simp only [runClient, hr] at hstep
  cases hstep

theorem Ranked.step {b : (ℕ × ℕ × ℕ) × ℕ} (h : Ranked cfg c s b) {action : Action}
    (hserving : Serving s action) (hstep : s.step cfg c action = some s') :
    ∃ b', Ranked cfg c s' b' ∧ Prod.Lex Below (· < ·) b' b := by
  obtain ⟨m, top, ls, hsolo, hls, rfl⟩ := h
  rcases Session.step_cases hstep with ⟨op, rfl, -⟩ | ⟨d, fresh, waiter, rfl, -, -, hrun⟩ |
    ⟨l, rfl, -, hland⟩ | ⟨message, t, rfl, -, hdeliver, ht⟩
  · exact absurd rfl (hserving c op)
  · have hdc := hsolo.alone.eq_of_run hrun
    subst hdc
    obtain ⟨m', top', hsolo', hadv⟩ := hsolo.run hrun
    obtain ⟨ls', hls'⟩ := hsolo'.alone.posted
    exact ⟨_, ⟨m', top', ls', hsolo', hls', rfl⟩,
      Prod.Lex.left _ _ (hsolo.rank_run hsolo' hadv.le hrun)⟩
  · obtain ⟨hlt, hls'⟩ := lag_land hls hland
    refine ⟨_, ⟨m, top, ls, (hsolo.land hland).1, hls', rfl⟩, ?_⟩
    rw [clients_of_land hland]
    exact Prod.Lex.right _ hlt
  · obtain ⟨hlt, hlocks⟩ := lag_deliver ls hdeliver
    obtain ⟨hsolo', -⟩ := hsolo.deliver hdeliver
    rw [← ht] at hlt hlocks hsolo'
    refine ⟨_, ⟨m, top, ls, hsolo', by rw [hlocks]; exact hls, rfl⟩, ?_⟩
    rw [ht, show t.cacheOff.clients = t.clients from rfl, clients_of_deliver hdeliver, ← ht]
    exact Prod.Lex.right _ hlt

/-- Until the call has returned and the directories know the root, there is a step to take. -/
theorem Ranked.can {b : (ℕ × ℕ × ℕ) × ℕ} (h : Ranked cfg c s b) (hnot : ¬ s.Returned c) :
    ∃ action s', Serving s action ∧ s.step cfg c action = some s' := by
  obtain ⟨m, top, ls, hsolo, -, -⟩ := h
  by_cases hposted : ∃ l w, s.state.locks l = .posted w
  · obtain ⟨l, w, hw⟩ := hposted
    obtain ⟨t, ht⟩ : ∃ t, Tree.step cfg s.state (.land l) = some t := by
      cases w with
      | none => exact ⟨_, by simp only [Tree.step, hw]; rfl⟩
      | some w => exact ⟨_, by simp only [Tree.step, hw]; rfl⟩
    exact ⟨.land l, ⟨t, s.calls⟩, fun d op heq => (by cases heq), by simp only [Session.step, ht]; rfl⟩
  · have hfree : ∀ l w, s.state.locks l ≠ .posted w := fun l w hw => hposted ⟨l, w, hw⟩
    by_cases hidle : ∃ r, (s.state.clients c).pc = .idle r
    · have hmessages : s.state.messages ≠ [] := fun hnil => hnot ⟨hidle, hnil⟩
      obtain ⟨⟨n, a, l⟩, hm⟩ := List.exists_mem_of_ne_nil _ hmessages
      obtain ⟨t, ht⟩ : ∃ t, Tree.step cfg s.state (.deliver (n, a, l)) = some t := ⟨_, if_pos hm⟩
      refine ⟨.deliver (n, a, l), ⟨t.cacheOff, s.calls⟩, fun d op heq => (by cases heq), ?_⟩
      simp only [Session.step, ht]
      rfl
    · have hbusy : ∀ r, (s.state.clients c).pc ≠ .idle r := fun r hr => hidle ⟨r, hr⟩
      obtain ⟨fresh, t, ht⟩ := hsolo.can_run hfree hbusy
      have hlag : s.state.lagging cfg c = false := by
        unfold State.lagging
        split
        · split
          · rename_i a page hw
            exact absurd hw (hfree _ _)
          · rfl
        · rfl
      refine ⟨.run c fresh none, ⟨t, s.calls⟩, fun d op heq => (by cases heq), ?_⟩
      simp only [Session.step, if_pos hlag, Tree.step, ht]
      rfl

/-- **Every call returns**, whatever else happens meanwhile. -/
theorem Solo.returns {m : Chart} {top : Nat} (h : Solo cfg c s.state m top) :
    (sequential cfg c).Inevitable Serving (Session.Returned c) s := by
  obtain ⟨ls, hls⟩ := h.alone.posted
  have hwf : WellFounded (Prod.Lex Below (· < · : ℕ → ℕ → Prop)) :=
    below_wf.prod_lex Nat.lt_wfRel.wf
  exact System.inevitable_of_rank hwf (Ranked cfg c) (fun s b hb hnot => hb.can hnot)
    (fun s b action s' hb _ hserving hstep => hb.step hserving hstep) _ s ⟨m, top, ls, h, hls, rfl⟩

end Session

end Dal.Tree
