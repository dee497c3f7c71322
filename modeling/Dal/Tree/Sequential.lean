/-
One client, call after call: the tree is a map.

What the leaves hold is what the calls have left, with the call being served counted from
the step that carries it out.  A search therefore finds the value of the latest insert of
its key that no later delete has followed, whatever splits there have been.
-/
import Dal.Tree.Return

namespace Dal.Tree

/-- The session, with what the calls have left and what the last one has returned. -/
structure Served (cfg : Config) (c : Client) (s : Session) (m : Chart) (top : Nat) : Prop extends
    Solo cfg c s.state m top where
  serving : (∀ r, (s.state.clients c).pc ≠ .idle r) →
    ∃ rest, s.calls = (s.state.clients c).op :: rest
  holds : ∀ k v, Holds cfg s.state m k v ↔
    latest k (if (s.state.clients c).pc.uncommitted then s.calls.tail else s.calls) = some v
  answered : ∀ r k rest, (s.state.clients c).pc = .idle r → s.calls = .search k :: rest →
    r = some (expected k rest)

section Latest

variable {k : Nat} {op : Op} {rest : List Op}

theorem latest_of_not_updates (h : op.updates = false) : latest k (op :: rest) = latest k rest := by
  rw [latest, if_neg]
  intro hup
  rw [h] at hup
  cases hup.1

/-- A fresh tree holds nothing. -/
theorem not_holds_init {cfg : Config} {root : GlobalAddress} {v : Nat} :
    ¬ Holds cfg (State.init root) (Chart.single root) k v := by
  rintro ⟨a, e, page, ha, hpage, hhas⟩
  unfold Chart.single at ha
  split at ha
  · rename_i har
    subst har
    have hnew : (State.init a).content cfg a = some (.leaf (LeafPage.new 0).setConsistent) :=
      if_pos rfl
    rw [hnew] at hpage
    cases hpage
    obtain ⟨r, hr, hlive, -⟩ := hhas
    rw [List.eq_of_mem_replicate hr, LeafPage.live_new] at hlive
    cases hlive
  · cases ha

/-- What a search is to return is what the tree holds. -/
theorem expected_of_answer {cfg : Config} {s : State} {m : Chart} {r : Option Response}
    (hholds : ∀ v, Holds cfg s m k v ↔ latest k rest = some v) (h : Answer cfg s m k r) :
    r = some (expected k rest) := by
  unfold expected
  cases hlatest : latest k rest with
  | some v =>
      have hv := (hholds v).mpr hlatest
      match r, h with
      | some (.found v'), hfound =>
          have hv' := (hholds v').mp hfound
          rw [hlatest] at hv'
          cases hv'
          rfl
      | some .notFound, hnone => exact absurd hv (hnone v)
  | none =>
      match r, h with
      | some (.found v'), hfound =>
          have hv' := (hholds v').mp hfound
          rw [hlatest] at hv'
          cases hv'
      | some .notFound, hnone => rfl

end Latest

/-! ### What a client's step carries out -/

/-- The map, with `op` carried out when the client that serves it is past that step. -/
def carried (op : Op) (pc : Pc) (map : Nat → Option Nat) : Nat → Option Nat :=
  if op.updates = true ∧ pc.uncommitted = false then Function.update map op.key op.stored else map

section Carried

variable {cfg : Config} {s s' : State} {m m' : Chart} {c : Client} {map : Nat → Option Nat}
  {op : Op} {rest : List Op} {k : Nat}

theorem carried_idle_update {r : Option Response} (hup : op.updates = true) :
    carried op (.idle r) map = Function.update map op.key op.stored := if_pos ⟨hup, rfl⟩

theorem carried_search {pc : Pc} (hup : op.updates = false) : carried op pc map = map :=
  if_neg fun heq => by rw [hup] at heq; cases heq.1

/-- Carrying the operation out is one more call. -/
theorem carried_latest (pc : Pc) : carried op pc (fun k => latest k rest) k =
    latest k (if pc.uncommitted then rest else op :: rest) := by
  cases hup : op.updates with
  | false =>
      rw [carried_search hup]
      split
      · rfl
      · exact (latest_of_not_updates hup).symm
  | true =>
      unfold carried
      cases pc.uncommitted with
      | true => rw [if_neg (fun heq => by cases heq.2), if_pos rfl]
      | false =>
          rw [if_pos ⟨hup, rfl⟩, if_neg Bool.false_ne_true]
          by_cases hk : k = op.key
          · subst hk
            rw [Function.update_self]
            exact (if_pos ⟨hup, rfl⟩).symm
          · rw [Function.update_of_ne hk]
            exact (if_neg fun hkey => hk hkey.2.symm).symm

theorem effect_update {has : Nat → Nat → Prop} (h : ∀ k v, has k v ↔ map k = some v) (k v : Nat) :
    Effect (some op) has k v ↔ Function.update map op.key op.stored k = some v := by
  show (if k = op.key then op.stored = some v else has k v) ↔ _
  by_cases hk : k = op.key
  · subst hk
    rw [if_pos rfl, Function.update_self]
  · rw [if_neg hk, Function.update_of_ne hk]
    exact h k v

/-- What a step of the client carries out is its own operation. -/
theorem Inv.commits_own (h : Inv cfg s m) {fresh : GlobalAddress} {waiter : Option Client} {op : Op}
    (hstep : runClient cfg s c fresh waiter = some s')
    (hcommits : commits s (.run c fresh waiter) = some op) :
    op = (s.clients c).op ∧ (s.clients c).op.updates = true := by
  have hrun : Tree.step cfg s (.run c fresh waiter) = some s' := hstep
  obtain ⟨d, hop, hthreat, hnot⟩ := h.commits_threat hrun hcommits
  by_cases hdc : d = c
  · subst hdc
    exact ⟨hop, hthreat.1⟩
  · rw [(run_frame (c := c) hstep).2 d hdc] at hnot
    exact absurd hthreat hnot

/-- A step of the client carries its operation out, or leaves what the tree holds alone. -/
theorem Inv.carried (h : Inv cfg s m) {fresh : GlobalAddress} {waiter : Option Client}
    (hstep : runClient cfg s c fresh waiter = some s')
    (hadv : Advance cfg s m s' m' (commits s (.run c fresh waiter)))
    (hrunning : ∀ why, (s'.clients c).pc ≠ .failed why)
    (hholds : ∀ k v, Holds cfg s m k v ↔
      carried (s.clients c).op (s.clients c).pc map k = some v) (k v : Nat) :
    Holds cfg s' m' k v ↔ carried (s.clients c).op (s'.clients c).pc map k = some v := by
  rw [hadv.holds]
  cases hup : (s.clients c).op.updates with
  | false =>
      have hnone : commits s (.run c fresh waiter) = none := by
        cases hcommits : commits s (.run c fresh waiter) with
        | none => rfl
        | some op =>
            have hown := (h.commits_own hstep hcommits).2
            rw [hup] at hown
            cases hown
      have hk := hholds k v
      rw [carried_search hup] at hk
      rw [hnone, carried_search hup]
      exact hk
  | true =>
      have hmoved := h.moved hup hstep
      unfold Pc.Moved at hmoved
      split at hmoved
      · rename_i hun
        have hbefore : ∀ k v, Holds cfg s m k v ↔ map k = some v := fun k v => by
          have hk := hholds k v
          rwa [Tree.carried, hun, if_neg fun heq => by cases heq.2] at hk
        cases hcommits : commits s (.run c fresh waiter) with
        | none =>
            rw [hcommits] at hmoved
            rcases hmoved with hun' | ⟨why, hwhy⟩
            · rw [Tree.carried, hun', if_neg fun heq => by cases heq.2]
              exact hbefore k v
            · exact absurd hwhy (hrunning why)
        | some op =>
            rw [hcommits] at hmoved
            have hun' : (s'.clients c).pc.uncommitted = false := hmoved
            rw [(h.commits_own hstep hcommits).1, Tree.carried, if_pos ⟨hup, hun'⟩]
            exact effect_update hbefore k v
      · rename_i hun
        obtain ⟨hnone, hun'⟩ := hmoved
        rw [Option.isSome_eq_false_iff, Option.isNone_iff_eq_none] at hnone
        have hk := hholds k v
        rw [Tree.carried, if_pos ⟨hup, Bool.eq_false_of_not_eq_true hun⟩] at hk
        rw [hnone, Tree.carried, if_pos ⟨hup, hun'⟩]
        exact hk

end Carried

section Served

variable {cfg : Config} {c : Client} {s s' : Session} {m : Chart} {top : Nat}

theorem Served.run (h : Served cfg c s m top) {fresh : GlobalAddress} {waiter : Option Client}
    (hlag : s.state.lagging cfg c = false) (hcalls : s'.calls = s.calls)
    (hstep : runClient cfg s.state c fresh waiter = some s'.state) :
    ∃ m' top', Served cfg c s' m' top' := by
  obtain ⟨m', top', hsolo, hadv⟩ := h.toSolo.run hstep
  have hinv := h.growing.inv
  have hbusy : ∀ r, (s.state.clients c).pc ≠ .idle r := by
    intro r hr
    simp only [runClient, hr] at hstep
    cases hstep
  obtain ⟨rest, hrest⟩ := h.serving hbusy
  have hop := (run_frame (c := c) hstep).1
  have hrunning := hsolo.growing.running c
  have hholds : ∀ k v, Holds cfg s.state m k v ↔ carried (s.state.clients c).op
      (s.state.clients c).pc (fun k => latest k rest) k = some v := by
    intro k v
    have hk := h.holds k v
    rw [hrest] at hk
    rw [carried_latest]
    exact hk
  refine ⟨m', top', hsolo, fun _ => ⟨rest, by rw [hcalls, hrest, hop]⟩, fun k v => ?_, ?_⟩
  · have hk := hinv.carried hstep hadv hrunning hholds k v
    rw [carried_latest] at hk
    rw [hcalls, hrest]
    exact hk
  · intro r k rest' hidle hsearch
    rw [hcalls, hrest] at hsearch
    injection hsearch with hsearch hrest'
    subst hrest'
    refine expected_of_answer (fun v => ?_) (hinv.search_returns hsearch
      (fun p goal hpc => content_of_not_lagging hlag hpc) hstep hidle)
    rw [hholds, carried_search (by rw [hsearch]; rfl)]

theorem Served.call (h : Served cfg c s m top) {op : Op} (hquiet : s.state.messages = [])
    (hcalls : s'.calls = op :: s.calls)
    (hstep : Tree.step cfg s.state (.call c op) = some s'.state) : Served cfg c s' m top := by
  obtain ⟨hsolo, hadv⟩ := h.toSolo.call hquiet hstep
  have hcalled : (∃ r, (s.state.clients c).pc = .idle r) ∧ (s'.state.clients c).op = op ∧
      (s'.state.clients c).pc.uncommitted = true := by
    simp only [Tree.step] at hstep
    split at hstep
    · rename_i r hpc
      split at hstep
      · injection hstep with hstep
        rw [← hstep, setClient_self]
        refine ⟨⟨r, hpc⟩, ?_, ?_⟩ <;> cases op <;> rfl
      · cases hstep
    · cases hstep
  obtain ⟨⟨r, hidle⟩, hop, hun⟩ := hcalled
  refine ⟨hsolo, fun _ => ⟨s.calls, by rw [hcalls, hop]⟩, fun k v => ?_, fun r' k rest hr' => ?_⟩
  · have hk := h.holds k v
    rw [hidle] at hk
    rw [hadv.holds, hun, hcalls]
    exact hk
  · rw [hr'] at hun
    cases hun

/-- A step of nobody. -/
theorem Served.pass (h : Served cfg c s m top) (hsolo : Solo cfg c s'.state m top)
    (hadv : Advance cfg s.state m s'.state m none)
    (hclients : s'.state.clients = s.state.clients) (hcalls : s'.calls = s.calls) :
    Served cfg c s' m top := by
  refine ⟨hsolo, ?_, fun k v => ?_, ?_⟩
  · rw [hclients, hcalls]
    exact h.serving
  · rw [hadv.holds, hclients, hcalls]
    exact h.holds k v
  · rw [hclients, hcalls]
    exact h.answered

theorem Served.step (h : Served cfg c s m top) {action : Action}
    (hstep : s.step cfg c action = some s') : ∃ m' top', Served cfg c s' m' top' := by
  rcases Session.step_cases hstep with ⟨op, rfl, hquiet, hcalls, hcall⟩ |
    ⟨d, fresh, waiter, rfl, hlag, hcalls, hrun⟩ | ⟨l, rfl, hcalls, hland⟩ |
    ⟨message, t, rfl, hcalls, hdeliver, ht⟩
  · exact ⟨m, top, h.call hquiet hcalls hcall⟩
  · have hdc := h.alone.eq_of_run hrun
    subst hdc
    exact h.run hlag hcalls hrun
  · obtain ⟨hsolo, hadv⟩ := h.toSolo.land hland
    exact ⟨m, top, h.pass hsolo hadv (clients_of_land hland) hcalls⟩
  · obtain ⟨hsolo, hadv⟩ := h.toSolo.deliver hdeliver
    rw [← ht] at hsolo hadv
    refine ⟨m, top, h.pass hsolo hadv ?_ hcalls⟩
    rw [ht]
    show t.clients = s.state.clients
    exact clients_of_deliver hdeliver

theorem reachable_served (hs : (sequential cfg c).Reachable s) :
    ∃ m top, Served cfg c s m top := by
  refine System.ReachableBy.invariant (I := fun s => ∃ m top, Served cfg c s m top) hs ?_ ?_
  · rintro s ⟨root, hroot, rfl⟩
    refine ⟨_, 0, solo_init cfg c hroot, fun hbusy => absurd rfl (hbusy none), fun k v => ?_,
      fun r k rest _ hcalls => by cases hcalls⟩
    exact ⟨fun hholds => absurd hholds not_holds_init, fun hv => by cases hv⟩
  · intro s action s' ⟨m, top, h⟩ _ hstep
    exact h.step hstep

/--
**One client's tree is a map.**

In every session of one client no assertion fails; a search that has returned has found the
value of the latest insert of its key that no later delete has followed, and nothing if there
is none; and every call returns, after which the directories get to know the root, so that
the next call can be made.
-/
theorem sequential_map (hs : (sequential cfg c).Reachable s) :
    (∀ d why, (s.state.clients d).pc ≠ .failed why) ∧
    (∀ r k rest, (s.state.clients c).pc = .idle r → s.calls = .search k :: rest →
      r = some (expected k rest)) ∧
    (sequential cfg c).Inevitable Serving (Session.Returned c) s := by
  obtain ⟨m, top, h⟩ := reachable_served hs
  exact ⟨h.growing.running, h.answered, h.toSolo.returns⟩

/-- No call is made but those of a list. -/
def Among (calls : List Op) (_ : Session) (action : Action) : Prop :=
  ∀ d op, action = .call d op → op ∈ calls

/-- Any calls can be made one after another, and each is served. -/
theorem sequential_serves {s₀ : Session} (hs₀ : (sequential cfg c).Reachable s₀)
    (hreturned₀ : s₀.Returned c) (calls : List Op) : (∀ op ∈ calls, op.valid = true) →
    ∃ s, (sequential cfg c).Path (Among calls) s₀ s ∧ s.calls = calls ++ s₀.calls ∧
      s.Returned c := by
  induction calls with
  | nil => exact fun _ => ⟨s₀, .refl, rfl, hreturned₀⟩
  | cons op calls ih =>
      intro hvalid
      obtain ⟨s, hpath, hcalls, ⟨r, hidle⟩, hquiet⟩ :=
        ih fun op hop => hvalid op (List.mem_cons_of_mem _ hop)
      have hbefore : (sequential cfg c).Path (Among (op :: calls)) s₀ s :=
        hpath.mono fun _ _ hamong d op' heq => List.mem_cons_of_mem _ (hamong d op' heq)
      obtain ⟨t, ht⟩ : ∃ t, Tree.step cfg s.state (.call c op) = some t := by
        simp only [Tree.step, hidle, hvalid op (List.mem_cons_self ..), if_true]
        exact ⟨_, rfl⟩
      have hcall : (sequential cfg c).step s (.call c op) = some ⟨t, op :: s.calls⟩ := by
        show Session.step cfg c s (.call c op) = _
        simp only [Session.step, hquiet, and_self, if_true, ht]
        rfl
      have hcalled := hbefore.tail (.call c op) (fun d op' heq => by
        cases heq
        exact List.mem_cons_self ..) hcall
      obtain ⟨m, top, h⟩ :=
        reachable_served (hs₀.path (hcalled.mono fun _ _ _ => trivial))
      obtain ⟨u, hserving, hreturned⟩ := h.toSolo.returns.exists_path
      refine ⟨u, hcalled.trans (hserving.mono fun _ a hserves d op' heq => ?_), ?_, hreturned⟩
      · exact absurd heq (hserves d op')
      · refine hserving.invariant (I := fun s => s.calls = op :: calls ++ s₀.calls) ?_ ?_
        · show op :: s.calls = _
          rw [hcalls]
          rfl
        · intro s action s' hsame hserves hstep
          rcases Session.step_cases hstep with ⟨op, rfl, -⟩ | ⟨d, fresh, waiter, -, -, heq, -⟩ |
            ⟨l, -, heq, -⟩ | ⟨message, t, -, heq, -⟩
          · exact absurd rfl (hserves c op)
          · exact heq.trans hsame
          · exact heq.trans hsame
          · exact heq.trans hsame

/-- The first leaf is split, the directory hears of the new root, and a key that has moved to the
sibling is searched for, deleted, and searched for again. -/
def splitAndDelete : List Action :=
  fill 53 ++ splitRoot ⟨0, 16⟩ ⟨0, 24⟩ ++ [.deliver (0, ⟨0, 24⟩, 1)] ++
    .call ⟨0, 0⟩ (.search 40) :: List.replicate 4 (.run ⟨0, 0⟩ .Null none) ++
    .call ⟨0, 0⟩ (.del 40) :: List.replicate 7 (.run ⟨0, 0⟩ .Null none) ++
    .call ⟨0, 0⟩ (.search 40) :: List.replicate 4 (.run ⟨0, 0⟩ .Null none)

theorem sequential_map_sample : ∃ s, (sequential sample ⟨0, 0⟩).exec ⟨State.init ⟨0, 8⟩, []⟩
      splitAndDelete = some s ∧ s.state.rootPtr = ⟨0, 24⟩ ∧
    (s.state.clients ⟨0, 0⟩).pc = .idle (some .notFound) := by
  have hrun : ((sequential sample ⟨0, 0⟩).exec ⟨State.init ⟨0, 8⟩, []⟩ splitAndDelete).map
      (fun s => (s.calls.take 2, s.state.rootPtr, (s.state.clients ⟨0, 0⟩).pc.isIdle)) =
      some ([.search 40, .del 40], ⟨0, 24⟩, true) := by decide +kernel
  obtain ⟨s, hs, heq⟩ := Option.map_eq_some_iff.mp hrun
  injection heq with hcalls heq
  injection heq with hroot hisIdle
  have hlast : s.calls = .search 40 :: .del 40 :: s.calls.drop 2 := by
    have happend := List.take_append_drop 2 s.calls
    rw [hcalls] at happend
    exact happend.symm
  obtain ⟨r, hidle⟩ := Pc.isIdle_iff.mp hisIdle
  have hreach : (sequential sample ⟨0, 0⟩).Reachable s :=
    ⟨_, ⟨⟨0, 8⟩, by decide, rfl⟩, System.path_of_exec _ hs⟩
  refine ⟨s, hs, hroot, ?_⟩
  rw [hidle, (sequential_map hreach).2.1 r 40 _ hidle hlast]
  rfl

end Served

end Dal.Tree
