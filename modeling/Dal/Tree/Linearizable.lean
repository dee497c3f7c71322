/-
The tree is a linearizable map.

`search_returns` and `Inv.step` say what each single step does to what the tree holds.
Here they are put together for whole histories: what the clients see of a run, calls
and returns in their order, they could see of one map on which `insert`, `del` and
`search` are single steps.  An `insert` or `del` takes effect when it is carried out, a
search when it reads its last page.

The cache may be on, clients may use it or not, and a client that has failed counts as
one that never returns.  Batched writes are left out, since a search may then miss what
was inserted before it began.
-/
import Dal.Tree.Sequential
import Dal.Lib.Atomic

namespace Dal.Tree

/-- The map that a tree stands for. -/
def mapObject : Object (Nat → Option Nat) Op Response where
  Init map := map = fun _ => none
  Apply map op r map' :=
    match op with
    | .insert k v => r = .done ∧ map' = Function.update map k (some v)
    | .del k => r = .done ∧ map' = Function.update map k none
    | .search k => r = ((map k).elim .notFound .found) ∧ map' = map

/-- What the clients see of a step: a call, or that a client is idle again. -/
def visible (_ : State) (action : Action) (s' : State) : List (Event Client Op Response) :=
  match action with
  | .call c op => [.call c op]
  | .run c _ _ =>
      match (s'.clients c).pc with
      | .idle (some r) => [.ret c r]
      | _ => []
  | _ => []

/-- Where the call of a client is, as its program counter has it. -/
def CallAt (x : Local) (phase : CallPhase Op Response) : Prop :=
  match x.pc with
  | .idle _ => phase = .idle
  | .failed _ => True
  | pc => phase = if pc.uncommitted then .called x.op else .done .done

/-- The tree holds what the map has, and every call is where it is in the tree. -/
structure Linearized (cfg : Config) (s : State) (t : Atomic (Nat → Option Nat) Client Op Response) :
    Prop where
  landed : Landed s
  chart : ∃ m, Inv cfg s m ∧ ∀ k v, Holds cfg s m k v ↔ t.object k = some v
  phase : ∀ c, CallAt (s.clients c) (t.phase c)

section CallAt

variable {x : Local} {phase : CallPhase Op Response}

theorem CallAt.idle {r : Option Response} (h : CallAt x phase) (hpc : x.pc = .idle r) :
    phase = .idle := by
  unfold CallAt at h
  rw [hpc] at h
  exact h

/-- A call that was not carried out yet is a call still. -/
theorem CallAt.called (h : CallAt x phase) (hun : x.pc.uncommitted = true) :
    phase = .called x.op := by
  unfold CallAt at h
  split at h
  · rename_i r hpc
    rw [hpc] at hun
    cases hun
  · rename_i why hpc
    rw [hpc] at hun
    cases hun
  · rw [if_pos hun] at h
    exact h

theorem callAt_called (hun : x.pc.uncommitted = true) : CallAt x (.called x.op) := by
  unfold CallAt
  split
  · rename_i r hpc
    rw [hpc] at hun
    cases hun
  · trivial
  · rw [if_pos hun]

theorem callAt_failed (h : ∃ why, x.pc = .failed why) : CallAt x phase := by
  obtain ⟨why, hpc⟩ := h
  unfold CallAt
  rw [hpc]
  trivial

/-- A client that has carried its operation out is done with it, idle, or has failed. -/
theorem callAt_done (hun : x.pc.uncommitted = false) (hidle : ∀ r, x.pc ≠ .idle r) :
    CallAt x (.done .done) := by
  unfold CallAt
  split
  · rename_i r hpc
    exact absurd hpc (hidle r)
  · trivial
  · rw [hun]
    rfl

theorem CallAt.done (h : CallAt x phase) (hun : x.pc.uncommitted = false)
    (hidle : ∀ r, x.pc ≠ .idle r) (hfailed : ∀ why, x.pc ≠ .failed why) : phase = .done .done := by
  unfold CallAt at h
  split at h
  · rename_i r hpc
    exact absurd hpc (hidle r)
  · rename_i why hpc
    exact absurd hpc (hfailed why)
  · rw [hun] at h
    exact h

end CallAt

section Returns

variable {cfg : Config} {s s' : State} {c : Client} {x : Local} {r : Option Response}

/-- An `insert` or `del` goes on after `page_search`. -/
theorem afterSearch_ne_idle (hup : x.op.updates = true) (p : GlobalAddress) (goal : Goal)
    (result : Option SearchResult) : afterSearch x p goal result ≠ .idle r := by
  intro hidle
  cases hop : x.op with
  | search k => rw [hop] at hup; cases hup
  | insert k v | del k =>
      cases result with
      | none => cases goal <;> simp only [afterSearch, hop] at hidle <;> cases hidle
      | some result =>
          cases goal <;> simp only [afterSearch, hop] at hidle <;> repeat' split at hidle
          all_goals cases hidle

theorem pageRead_ne_idle (hup : (s.clients c).op.updates = true)
    (hbusy : ∀ r, (s.clients c).pc ≠ .idle r) (p : GlobalAddress) (goal : Goal) :
    (pageRead s c p goal).pc ≠ .idle r := by
  unfold pageRead
  simp only
  split
  · exact fun hidle => by cases hidle
  · split
    · split
      · exact fun hidle => by cases hidle
      · split
        · exact fun hidle => by cases hidle
        · exact afterSearch_ne_idle (by exact hup) p goal _
      · exact afterSearch_ne_idle (by exact hup) p goal _
    · exact hbusy r

theorem postUp_ne_idle (task : Task) (k : Nat) (sibling : GlobalAddress) :
    postUp x task k sibling ≠ .idle r := by
  rcases postUp_cases x task k sibling with ⟨-, h⟩ | ⟨-, -, h⟩ | ⟨-, -, _, -, h⟩ <;> rw [h] <;>
    exact fun hidle => by cases hidle

/-- A call that ends with the release of a lock returns nothing. -/
theorem afterUnlock_idle {after : After} (hidle : afterUnlock x after = .idle r) :
    r = some .done := by
  cases after with
  | done =>
      cases hidle
      rfl
  | stale entry => cases hidle
  | right task sibling =>
      simp only [afterUnlock] at hidle
      split at hidle <;> cases hidle
  | split p task splitKey sibling =>
      simp only [afterUnlock] at hidle
      split at hidle
      · cases hidle
      · exact absurd hidle (postUp_ne_idle _ _ _)

/-- `insert` and `del` return nothing. -/
theorem run_returns_done {fresh : GlobalAddress} {waiter : Option Client}
    (hup : (s.clients c).op.updates = true) (hstep : runClient cfg s c fresh waiter = some s')
    (hidle : (s'.clients c).pc = .idle r) : r = some .done := by
  have hturn := run_turned hstep
  generalize hpc : (s.clients c).pc = pc at hturn
  cases hturn with
  | start =>
      rw [setPc_self] at hidle
      unfold start at hidle
      simp only at hidle
      split at hidle <;> cases hidle
  | known use hroot | readRoot use =>
      rw [setClient_self] at hidle
      unfold rooted at hidle
      split at hidle <;> (try split at hidle) <;> cases hidle
  | searchCache =>
      rw [setPc_self] at hidle
      unfold searchCache at hidle
      simp only at hidle
      split at hidle <;> cases hidle
  | descend p goal =>
      rw [setClient_self] at hidle
      exact absurd hidle (pageRead_ne_idle hup (fun r hr => by rw [hpc] at hr; cases hr) p goal)
  | caching p page goal result hok =>
      rw [setPc_self] at hidle
      exact absurd hidle (afterSearch_ne_idle hup _ _ _)
  | invalidate entry =>
      rw [setPc_self] at hidle
      unfold restart at hidle
      split at hidle <;> cases hidle
  | posting | unlock =>
      rw [setPc_self] at hidle
      exact afterUnlock_idle hidle
  | installed =>
      rw [setPc_self] at hidle
      cases hidle
      rfl
  | overtaken =>
      rw [setPc_self] at hidle
      exact absurd hidle (postUp_ne_idle _ _ _)
  | _ => rw [setPc_self] at hidle; cases hidle

end Returns

/-! ### One step -/

section Step

variable {cfg : Config} {s s' : State} {m : Chart} {c : Client}
  {t : Atomic (Nat → Option Nat) Client Op Response}

theorem visible_returned {fresh : GlobalAddress} {waiter : Option Client} {r : Response}
    (hidle : (s'.clients c).pc = .idle (some r)) :
    visible s (.run c fresh waiter) s' = [.ret c r] := by
  simp only [visible, hidle]

theorem visible_busy {fresh : GlobalAddress} {waiter : Option Client}
    (hbusy : ∀ r, (s'.clients c).pc ≠ .idle r) : visible s (.run c fresh waiter) s' = [] := by
  simp only [visible]
  split
  · rename_i r hidle
    exact absurd hidle (hbusy _)
  · rfl

/-- One client's call moves on. -/
theorem callAt_update {phase : Client → CallPhase Op Response} {q : CallPhase Op Response}
    (h : ∀ d, CallAt (s.clients d) (phase d)) (hothers : ∀ d, d ≠ c → s'.clients d = s.clients d)
    (hc : CallAt (s'.clients c) q) : ∀ d, CallAt (s'.clients d) (Function.update phase c q d) := by
  intro d
  by_cases hdc : d = c
  · subst hdc
    rw [Function.update_self]
    exact hc
  · rw [Function.update_of_ne hdc, hothers d hdc]
    exact h d

/-- The call of a client stays where it is. -/
theorem callAt_stays {phase : Client → CallPhase Op Response}
    (h : ∀ d, CallAt (s.clients d) (phase d)) (hothers : ∀ d, d ≠ c → s'.clients d = s.clients d)
    (hc : CallAt (s'.clients c) (phase c)) : ∀ d, CallAt (s'.clients d) (phase d) := by
  intro d
  by_cases hdc : d = c
  · subst hdc
    exact hc
  · rw [hothers d hdc]
    exact h d

theorem callAt_returned {x : Local} {r : Option Response} (h : x.pc = .idle r) :
    CallAt x .idle := by
  unfold CallAt
  rw [h]

/-- What an `insert` or a `del` does to the map. -/
theorem apply_update {op : Op} (hup : op.updates = true) (map : Nat → Option Nat) :
    mapObject.Apply map op .done (Function.update map op.key op.stored) := by
  cases op with
  | insert k v | del k => exact ⟨rfl, rfl⟩
  | search k => cases hup

/-- A search may return what is mapped. -/
theorem apply_search {k : Nat} {map : Nat → Option Nat} {r : Option Response}
    (h : ∀ v, Holds cfg s m k v ↔ map k = some v) (hanswer : Answer cfg s m k r) :
    ∃ r', r = some r' ∧ mapObject.Apply map (.search k) r' map := by
  match r, hanswer with
  | some (.found v), hfound => exact ⟨_, rfl, by rw [(h v).mp hfound]; rfl, rfl⟩
  | some .notFound, hnone =>
      refine ⟨_, rfl, ?_, rfl⟩
      cases hmap : map k with
      | none => rfl
      | some v => exact absurd ((h v).mpr hmap) (hnone v)

/-- What a search has read is not carried out before it returns. -/
theorem Pc.reading.uncommitted {pc : Pc} (h : pc.reading) (hidle : ∀ r, pc ≠ .idle r)
    (hfailed : ∀ why, pc ≠ .failed why) : pc.uncommitted = true := by
  cases pc with
  | idle r => exact absurd rfl (hidle r)
  | failed why => exact absurd rfl (hfailed why)
  | searchCache | invalidate _ => rfl
  | getRoot use | readRoot use =>
      cases use with
      | operation => rfl
      | _ => exact h.elim
  | descend p goal =>
      cases goal with
      | leaf cached => rfl
      | parent k v level => exact h.elim
  | caching p page goal =>
      cases goal with
      | leaf cached => rfl
      | parent k v level => exact h.elim
  | _ => exact h.elim

theorem Linearized.search (hb : cfg.batched = false) (h : Linearized cfg s t)
    {fresh : GlobalAddress} {waiter : Option Client} {k : Nat}
    (hop : (s.clients c).op = .search k) (hstep : runClient cfg s c fresh waiter = some s') :
    ∃ t', mapObject.History t (visible s (.run c fresh waiter) s') t' ∧ Linearized cfg s' t' := by
  obtain ⟨m, hinv, hholds⟩ := h.chart
  have hrun : Tree.step cfg s (.run c fresh waiter) = some s' := hstep
  obtain ⟨m', hadv⟩ := hinv.step hrun
  have hlanded := h.landed.step hb hrun
  obtain ⟨hsame, hothers⟩ := run_frame (c := c) hstep
  have hup : (s.clients c).op.updates = false := by rw [hop]; rfl
  have hnone : commits s (.run c fresh waiter) = none := by
    cases hcommits : commits s (.run c fresh waiter) with
    | none => rfl
    | some op =>
        have hown := (hinv.commits_own hstep hcommits).2
        rw [hup] at hown
        cases hown
  have hholds' : ∀ k v, Holds cfg s' m' k v ↔ t.object k = some v := fun k v => by
    rw [hadv.holds, hnone]
    exact hholds k v
  have hcalled : t.phase c = .called (.search k) := by
    rw [← hop]
    refine (h.phase c).called ((PcOk.reading hup (hinv.pc c)).uncommitted (fun r hr => ?_)
      fun why hwhy => ?_)
    · simp only [runClient, hr] at hstep
      cases hstep
    · simp only [runClient, hwhy] at hstep
      cases hstep
  by_cases hreturned : ∃ r, (s'.clients c).pc = .idle r
  · obtain ⟨r, hidle⟩ := hreturned
    have hanswer := hinv.search_returns hop (fun p _ _ => h.landed.content p) hstep hidle
    obtain ⟨r', rfl, happly⟩ := apply_search (hholds k) hanswer
    rw [visible_returned hidle]
    exact ⟨_, .answer hcalled happly, hlanded, ⟨m', hadv.inv, hholds'⟩,
      callAt_update h.phase hothers (callAt_returned hidle)⟩
  · have hbusy : ∀ r, (s'.clients c).pc ≠ .idle r := fun r hr => hreturned ⟨r, hr⟩
    rw [visible_busy hbusy]
    refine ⟨t, .refl, hlanded, ⟨m', hadv.inv, hholds'⟩, callAt_stays h.phase hothers ?_⟩
    by_cases hfailed : ∃ why, (s'.clients c).pc = .failed why
    · exact callAt_failed hfailed
    · have hreading := PcOk.reading (by rw [hsame]; exact hup) (hadv.inv.pc c)
      rw [hcalled, ← hop, ← hsame]
      exact callAt_called (hreading.uncommitted hbusy fun why hwhy => hfailed ⟨why, hwhy⟩)

theorem Linearized.update (hb : cfg.batched = false) (h : Linearized cfg s t)
    {fresh : GlobalAddress} {waiter : Option Client}
    (hup : (s.clients c).op.updates = true) (hstep : runClient cfg s c fresh waiter = some s') :
    ∃ t', mapObject.History t (visible s (.run c fresh waiter) s') t' ∧ Linearized cfg s' t' := by
  obtain ⟨m, hinv, hholds⟩ := h.chart
  have hrun : Tree.step cfg s (.run c fresh waiter) = some s' := hstep
  obtain ⟨m', hadv⟩ := hinv.step hrun
  have hlanded := h.landed.step hb hrun
  obtain ⟨hsame, hothers⟩ := run_frame (c := c) hstep
  have hmoved := hinv.moved hup hstep
  have hreturns : ∀ r, (s'.clients c).pc = .idle r → r = some .done := fun r hidle =>
    run_returns_done hup hstep hidle
  unfold Pc.Moved at hmoved
  split at hmoved
  · rename_i hun
    have hcalled := (h.phase c).called hun
    cases hcommits : commits s (.run c fresh waiter) with
    | none =>
        -- still on its way
        rw [hcommits] at hmoved hadv
        have hbusy : ∀ r, (s'.clients c).pc ≠ .idle r := by
          intro r hr
          rcases hmoved with hun' | ⟨why, hwhy⟩
          · rw [hr] at hun'
            cases hun'
          · rw [hr] at hwhy
            cases hwhy
        rw [visible_busy hbusy]
        refine ⟨t, .refl, hlanded, ⟨m', hadv.inv, fun k v => (hadv.holds k v).trans (hholds k v)⟩,
          callAt_stays h.phase hothers ?_⟩
        rcases hmoved with hun' | hfailed
        · rw [hcalled, ← hsame]
          exact callAt_called hun'
        · exact callAt_failed hfailed
    | some op =>
        obtain ⟨rfl, -⟩ := hinv.commits_own hstep hcommits
        rw [hcommits] at hmoved hadv
        have hun' : (s'.clients c).pc.uncommitted = false := hmoved
        have happly := apply_update hup t.object
        have hholds' : ∀ k v, Holds cfg s' m' k v ↔ Function.update t.object
            (s.clients c).op.key (s.clients c).op.stored k = some v := fun k v =>
          (hadv.holds k v).trans (effect_update hholds k v)
        by_cases hreturned : ∃ r, (s'.clients c).pc = .idle r
        · obtain ⟨r, hidle⟩ := hreturned
          obtain rfl := hreturns r hidle
          rw [visible_returned hidle]
          exact ⟨_, .answer hcalled happly, hlanded, ⟨m', hadv.inv, hholds'⟩,
            callAt_update h.phase hothers (callAt_returned hidle)⟩
        · have hbusy : ∀ r, (s'.clients c).pc ≠ .idle r := fun r hr => hreturned ⟨r, hr⟩
          rw [visible_busy hbusy]
          exact ⟨_, .single (.effect c _ _ _ hcalled happly), hlanded, ⟨m', hadv.inv, hholds'⟩,
            callAt_update h.phase hothers (callAt_done hun' hbusy)⟩
  · rename_i hun
    obtain ⟨hnone, hun'⟩ := hmoved
    rw [Option.isSome_eq_false_iff, Option.isNone_iff_eq_none] at hnone
    rw [hnone] at hadv
    have hdone : t.phase c = .done .done := by
      refine (h.phase c).done (Bool.eq_false_of_not_eq_true hun) (fun r hr => ?_)
        fun why hwhy => ?_
      · simp only [runClient, hr] at hstep
        cases hstep
      · simp only [runClient, hwhy] at hstep
        cases hstep
    have hholds' : ∀ k v, Holds cfg s' m' k v ↔ t.object k = some v := fun k v =>
      (hadv.holds k v).trans (hholds k v)
    by_cases hreturned : ∃ r, (s'.clients c).pc = .idle r
    · obtain ⟨r, hidle⟩ := hreturned
      obtain rfl := hreturns r hidle
      rw [visible_returned hidle]
      exact ⟨_, .single (.ret c _ hdone), hlanded, ⟨m', hadv.inv, hholds'⟩,
        callAt_update h.phase hothers (callAt_returned hidle)⟩
    · have hbusy : ∀ r, (s'.clients c).pc ≠ .idle r := fun r hr => hreturned ⟨r, hr⟩
      rw [visible_busy hbusy]
      refine ⟨t, .refl, hlanded, ⟨m', hadv.inv, hholds'⟩, callAt_stays h.phase hothers ?_⟩
      rw [hdone]
      exact callAt_done hun' hbusy

/-- A step of nobody. -/
theorem Linearized.pass (hb : cfg.batched = false) (h : Linearized cfg s t) {action : Action}
    (hstep : Tree.step cfg s action = some s') (hcommits : commits s action = none)
    (hclients : s'.clients = s.clients) : Linearized cfg s' t := by
  obtain ⟨m, hinv, hholds⟩ := h.chart
  obtain ⟨m', hadv⟩ := hinv.step hstep
  rw [hcommits] at hadv
  refine ⟨h.landed.step hb hstep,
    ⟨m', hadv.inv, fun k v => (hadv.holds k v).trans (hholds k v)⟩, fun c => ?_⟩
  rw [hclients]
  exact h.phase c

theorem Linearized.call (hb : cfg.batched = false) (h : Linearized cfg s t) {op : Op}
    (hstep : Tree.step cfg s (.call c op) = some s') :
    ∃ t', mapObject.History t [.call c op] t' ∧ Linearized cfg s' t' := by
  obtain ⟨m, hinv, hholds⟩ := h.chart
  obtain ⟨m', hadv⟩ := hinv.step hstep
  have hlanded := h.landed.step hb hstep
  simp only [Tree.step] at hstep
  split at hstep
  · rename_i r hidle
    split at hstep
    · injection hstep with hstep
      have hothers : ∀ d, d ≠ c → s'.clients d = s.clients d := fun d hd => by
        rw [← hstep]
        exact Function.update_of_ne hd ..
      have hcalled : (s'.clients c).op = op ∧ (s'.clients c).pc.uncommitted = true := by
        rw [← hstep, setClient_self]
        cases op <;> exact ⟨rfl, rfl⟩
      refine ⟨_, .single (.call c op ((h.phase c).idle hidle)), hlanded,
        ⟨m', hadv.inv, fun k v => (hadv.holds k v).trans (hholds k v)⟩,
        callAt_update h.phase hothers ?_⟩
      have hcall := callAt_called hcalled.2
      rwa [hcalled.1] at hcall
    · cases hstep
  · cases hstep

/-- The map can follow every step. -/
theorem Linearized.step (hb : cfg.batched = false) (h : Linearized cfg s t) {action : Action}
    (hstep : Tree.step cfg s action = some s') :
    ∃ t', mapObject.History t (visible s action s') t' ∧ Linearized cfg s' t' := by
  cases action with
  | call c op => exact h.call hb hstep
  | run c fresh waiter =>
      cases hop : (s.clients c).op with
      | search k => exact h.search hb hop hstep
      | insert k v | del k => exact h.update hb (by rw [hop]; rfl) hstep
  | land l => exact ⟨t, .refl, h.pass hb hstep rfl (clients_of_land hstep)⟩
  | deliver message => exact ⟨t, .refl, h.pass hb hstep rfl (clients_of_deliver hstep)⟩
  | evict n entry =>
      refine ⟨t, .refl, h.pass hb hstep rfl ?_⟩
      cases hstep
      rfl

end Step

/-! ### Runs -/

theorem linearized_init (cfg : Config) {root : GlobalAddress} (hroot : root ≠ .Null) :
    Linearized cfg (State.init root) ⟨fun _ => none, fun _ => .idle⟩ := by
  refine ⟨fun l w hw => (by cases hw), ⟨_, inv_init cfg hroot, fun k v => ?_⟩, fun c => rfl⟩
  exact ⟨fun hholds => absurd hholds not_holds_init, fun hv => by cases hv⟩

/--
**The tree is a linearizable map.**

Without batched writes, whatever any number of clients see of a run could be seen of one
map on which each `insert`, `del` and `search` is a single step between its call and its
return: splits, new roots, stale caches and late messages do not show.
-/
theorem linearizable {cfg : Config} (hb : cfg.batched = false) :
    (machine cfg).Linearizable (fun _ _ => True) visible mapObject := by
  refine System.linearizable_of_simulation (Linearized cfg) ?_ ?_
  · rintro s ⟨root, hroot, rfl⟩
    exact ⟨_, rfl, linearized_init cfg hroot⟩
  · intro s action s' t h _ hstep
    exact h.step hb hstep

theorem linearizable_sample :
    (machine sample).Linearizable (fun _ _ => True) visible mapObject := linearizable rfl

end Dal.Tree
