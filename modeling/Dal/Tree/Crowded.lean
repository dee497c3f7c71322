/-
A crowded leaf in a tall tree.

The index cache is off until the root is on level 3, and a tree as tall as that is out of
reach of an evaluation.  That one client can build it is a matter of counting: a tree with
its root on level 2 holds at most 197213 keys, so of 200000 inserts one puts a root on
level 3.  Up to then the cache is empty, and the session of one client is a run of the
tree itself.

Before that, the first leaf is filled to the brim.  The other inserts are of greater keys,
so nobody works on it again.
-/
import Dal.Tree.Capacity
import Dal.Tree.Sequential

namespace Dal.Tree

/-! ### What a client leaves alone -/

section Kept

variable {cfg : Config} {s s' : State} {m : Chart} {c : Client}

/-- A page that a client writes while it does not split is the one it has locked. -/
theorem commit_kept {p a : GlobalAddress} (hne : a ≠ p) (out : Outcome) :
    (s.commit p out).mem a = s.mem a := by
  cases out with
  | entry i r | page page => exact Function.update_of_ne hne _ _
  | _ => rfl

/-- A client whose key belongs further to the right finds no work on a leaf. -/
theorem Inv.no_work (h : Inv cfg s m) {p : GlobalAddress} {task : Task} {leaf : LeafPage}
    (htask : TaskOk m (s.directory c.node).enableCache (s.clients c) p task)
    (hpending : (s.clients c).pc.pending = task.pending)
    (hheld : s.locks (cfg.lockAddr p) = .held c) (hpage : s.mem p = some (.leaf leaf))
    (hkey : leaf.hdr.highest ≤ (s.clients c).op.key) :
    s.commit p (task.outcome (s.clients c).op (.leaf leaf)) = s ∧
      ∀ left right splitKey, task.outcome (s.clients c).op (.leaf leaf) ≠ .split left right splitKey := by
  rcases h.outcome htask hpending hheld hpage with
    ⟨x, lpage, -, -, heq, -, -, -, hresult⟩ | ⟨x, ipage, below, k, v, -, -, heq, -⟩
  · cases heq
    generalize task.outcome (s.clients c).op (.leaf leaf) = out at hresult
    cases hresult with
    | stale hcached hk | right hcached hk =>
        exact ⟨rfl, fun left right splitKey heq => by cases heq⟩
    | entry i r hk | absent hk | split mid left right splitKey hk => omega
  · cases heq

/-- **A leaf left of the client's key stays as it is.** -/
theorem Inv.leaf_kept (h : Inv cfg s m) {a : GlobalAddress} {leaf : LeafPage}
    (ha : s.mem a = some (.leaf leaf)) (hkey : leaf.hdr.highest ≤ (s.clients c).op.key)
    {fresh : GlobalAddress} {waiter : Option Client}
    (hstep : runClient cfg s c fresh waiter = some s') : s'.mem a = s.mem a := by
  have hturn := run_turned hstep
  have hok := h.pc c
  have hwork : ∀ {p : GlobalAddress} {task : Task} {page : Page},
      TaskOk m (s.directory c.node).enableCache (s.clients c) p task →
      (s.clients c).pc.pending = task.pending → (s.clients c).pc.holds cfg = some (cfg.lockAddr p) →
      s.mem p = some page → p = a →
      s.commit p (task.outcome (s.clients c).op page) = s ∧
        ∀ left right splitKey, task.outcome (s.clients c).op page ≠ .split left right splitKey := by
    intro p task page htask hpending hholds hpage hpa
    subst hpa
    rw [ha] at hpage
    cases hpage
    exact h.no_work htask hpending (h.held c _ hholds) ha hkey
  have hfresh : s.mem fresh = none → a ≠ fresh := by
    rintro hnone rfl
    rw [ha] at hnone
    cases hnone
  generalize hpc : (s.clients c).pc = pc at hturn hok
  cases hturn with
  | loaded p task page mode after async hafter hmode =>
      show (s.commit p _).mem a = s.mem a
      by_cases hpa : p = a
      · rw [(hwork hok.1 (by rw [hpc]; rfl) (by rw [hpc]; rfl) hok.2 hpa).1]
      · exact commit_kept (fun heq => hpa heq.symm) _
  | split p task page left right splitKey hout hmem hnull =>
      exact Function.update_of_ne (hfresh hmem) _ _
  | linked p task page left right splitKey sibling mode hout hmode =>
      by_cases hpa : p = a
      · exact absurd hout ((hwork hok.1 (by rw [hpc]; rfl) (by rw [hpc]; rfl) hok.2.1 hpa).2 _ _ _)
      · exact Function.update_of_ne (fun heq => hpa heq.symm) _ _
  | grow p task splitKey sibling hmem hnull => exact Function.update_of_ne (hfresh hmem) _ _
  | _ => rfl

/-- The cache is filled after a page of level 1 was read, and cleared of what was stale. -/
theorem run_cache {fresh : GlobalAddress} {waiter : Option Client}
    (hstep : runClient cfg s c fresh waiter = some s')
    (hcaching : ∀ p page goal, (s.clients c).pc ≠ .caching p page goal)
    (hinvalidate : ∀ entry, (s.clients c).pc ≠ .invalidate entry) : s'.cache = s.cache := by
  have hturn := run_turned hstep
  generalize hpc : (s.clients c).pc = pc at hturn
  cases hturn with
  | cachingError p page goal why herror | caching p page goal result hok =>
      exact absurd hpc (hcaching p page goal)
  | invalidate entry => exact absurd hpc (hinvalidate entry)
  | loaded p task page mode after async hafter hmode =>
      rw [commit_eq]
      rfl
  | _ => rfl

/-- A client that has come straight from the root leaves the cache alone, which is off. -/
theorem Solo.cache_kept {top : Nat} (h : Solo cfg c s m top) {fresh : GlobalAddress}
    {waiter : Option Client} (hstep : runClient cfg s c fresh waiter = some s') :
    s'.cache = s.cache := by
  have hstraight := h.current.straight
  refine run_cache hstep (fun p page goal hpc => ?_) (fun entry hpc => ?_)
  · rw [hpc] at hstraight
    exact hstraight
  · rw [hpc] at hstraight
    exact hstraight

end Kept

/-! ### A tree too low for the cache -/

/-- The level of the root. -/
def State.rootLevel (s : State) : Nat :=
  match s.mem s.rootPtr with
  | some page => page.hdr.level
  | none => 0

/-- All calls are made by client `c`. -/
def OnlyCalls (c : Client) (_ : State) (action : Action) : Prop :=
  ∀ d op, action = .call d op → d = c

/-- The session so far is a run of the tree from `origin`, and the cache is still empty. -/
structure Shallow (cfg : Config) (c : Client) (origin : State) (s : Session) : Prop where
  session : (sequential cfg c).Reachable s
  run : (machine cfg).Path (OnlyCalls c) origin s.state
  cache : ∀ n, s.state.cache n = []
  directory : ∀ n, (s.state.directory n).rootLevel < 3

section Shallow

variable {cfg : Config} {c : Client} {origin : State} {s s' : Session} {m : Chart} {top : Nat}

theorem Solo.rootLevel_eq {t : State} (h : Solo cfg c t m top) : t.rootLevel = top := by
  obtain ⟨page, hpage, hok⟩ := h.growing.inv.shape.page _ _ _ h.current.root
  unfold State.rootLevel
  rw [hpage]
  exact hok.level

theorem cacheOff_eq {t : State} (h : ∀ n, (t.directory n).enableCache = false) : t.cacheOff = t := by
  have hdir : (fun n => { t.directory n with enableCache := false }) = t.directory := by
    funext n
    have hn := h n
    generalize t.directory n = d at hn
    cases d
    cases hn
    rfl
  unfold State.cacheOff
  rw [hdir]

/-- What a call leaves alone. -/
theorem call_frame {t t' : State} {op : Op} (hstep : Tree.step cfg t (.call c op) = some t') :
    t'.mem = t.mem ∧ t'.rootPtr = t.rootPtr ∧ t'.cache = t.cache ∧ t'.directory = t.directory ∧
      (t'.clients c).op = op := by
  simp only [Tree.step] at hstep
  split at hstep
  · split at hstep
    · cases hstep
      refine ⟨rfl, rfl, rfl, rfl, ?_⟩
      rw [setClient_self]
      split <;> rfl
    · cases hstep
  · cases hstep

/-- What the execution of a posted write leaves alone. -/
theorem land_frame {t t' : State} {l : LockAddr} (hstep : Tree.step cfg t (.land l) = some t') :
    t'.cache = t.cache ∧ t'.directory = t.directory := by
  simp only [Tree.step] at hstep
  split at hstep <;> cases hstep <;> exact ⟨rfl, rfl⟩

theorem Landed.land {t t' : State} (h : Landed t) {l : LockAddr}
    (hstep : Tree.step cfg t (.land l) = some t') : t' = t.setLock l .free := by
  simp only [Tree.step] at hstep
  split at hstep
  · rename_i hposted
    exact absurd hposted (h _ _)
  · injection hstep with hstep
    exact hstep.symm
  · cases hstep

/-- What a directory leaves alone when it is told of a root of level `l`. -/
theorem deliver_frame {t t' : State} {n l : Nat} {a : GlobalAddress}
    (hstep : Tree.step cfg t (.deliver (n, a, l)) = some t') :
    t'.mem = t.mem ∧ t'.rootPtr = t.rootPtr ∧ t'.cache = t.cache ∧
      t'.directory = Function.update t.directory n ((t.directory n).newRoot a l) ∧
      t'.messages = t.messages.erase (n, a, l) := by
  simp only [Tree.step] at hstep
  split at hstep
  · cases hstep
    exact ⟨rfl, rfl, rfl, rfl, rfl⟩
  · cases hstep

/-- A root below level 3 does not turn the cache on. -/
theorem newRoot_low {d : Directory} {a : GlobalAddress} {l : Nat} (hd : d.rootLevel < 3)
    (hoff : d.enableCache = false) (hl : l < 3) :
    (d.newRoot a l).rootLevel < 3 ∧ (d.newRoot a l).enableCache = false := by
  unfold Directory.newRoot
  split
  · refine ⟨Int.ofNat_lt.mpr hl, ?_⟩
    show (d.enableCache || decide (3 ≤ l)) = false
    rw [hoff, decide_eq_false (by omega)]
    rfl
  · exact ⟨hd, hoff⟩

/-- Below level 3 a step of the session is a step of the tree. -/
theorem Shallow.step (h : Shallow cfg c origin s) (hlow : s.state.rootLevel < 3) {action : Action}
    (hstep : s.step cfg c action = some s') : Shallow cfg c origin s' := by
  obtain ⟨m, top, hserved⟩ := reachable_served h.session
  have hsolo := hserved.toSolo
  have hsession := h.session.tail action trivial hstep
  rcases Session.step_cases hstep with ⟨op, rfl, -, -, hcall⟩ |
    ⟨d, fresh, waiter, rfl, -, -, hrun⟩ | ⟨l, rfl, -, hland⟩ | ⟨⟨n, a, l⟩, t, rfl, -, hdeliver, ht⟩
  · obtain ⟨-, -, hcache, hdir, -⟩ := call_frame hcall
    refine ⟨hsession, h.run.tail (.call c op) (fun d op' heq => by cases heq; rfl) hcall, ?_, ?_⟩
    · rw [hcache]
      exact h.cache
    · rw [hdir]
      exact h.directory
  · have hdc := hsolo.alone.eq_of_run hrun
    subst hdc
    refine ⟨hsession, h.run.tail (.run d fresh waiter) (fun _ _ heq => by cases heq) hrun, ?_, ?_⟩
    · rw [hsolo.cache_kept hrun]
      exact h.cache
    · rw [(run_turned hrun).shared.1]
      exact h.directory
  · obtain ⟨hcache, hdir⟩ := land_frame hland
    refine ⟨hsession, h.run.tail (.land l) (fun _ _ heq => by cases heq) hland, ?_, ?_⟩
    · rw [hcache]
      exact h.cache
    · rw [hdir]
      exact h.directory
  · obtain ⟨-, -, hcache, hdir, -⟩ := deliver_frame hdeliver
    have hlevel : l < 3 := by
      have hm : (n, a, l) ∈ s.state.messages := by
        simp only [Tree.step] at hdeliver
        split at hdeliver
        · assumption
        · cases hdeliver
      rw [(hsolo.current.messages n a l hm).2.2, ← hsolo.rootLevel_eq]
      exact hlow
    have hdirs : ∀ i, (t.directory i).rootLevel < 3 ∧ (t.directory i).enableCache = false := by
      intro i
      rw [hdir]
      by_cases hi : i = n
      · subst hi
        rw [Function.update_self]
        exact newRoot_low (h.directory i) (hsolo.alone.cacheOff i) hlevel
      · rw [Function.update_of_ne hi]
        exact ⟨h.directory i, hsolo.alone.cacheOff i⟩
    rw [cacheOff_eq fun i => (hdirs i).2] at ht
    refine ⟨hsession, ?_, ?_, ?_⟩
    · rw [ht]
      exact h.run.tail (.deliver (n, a, l)) (fun _ _ heq => by cases heq) hdeliver
    · rw [ht, hcache]
      exact h.cache
    · rw [ht]
      exact fun i => (hdirs i).1

theorem Shallow.reachable (h : Shallow cfg c origin s) (horigin : (machine cfg).Reachable origin) :
    (machine cfg).Reachable s.state :=
  horigin.path (h.run.mono fun _ _ _ => trivial)

/-- **A step that puts the root on another level installs it, and tells all nodes of it.** -/
theorem Served.announces (h : Served cfg c s m top) {action : Action}
    (hstep : s.step cfg c action = some s')
    (hlevel : s'.state.rootLevel ≠ s.state.rootLevel) :
    (s'.state.clients c).pc = .idle (some .done) ∧ s'.state.rootLevel = s.state.rootLevel + 1 ∧
      (s'.state.messages = (List.range cfg.machineNR).map fun n =>
        (n, s'.state.rootPtr, s'.state.rootLevel)) ∧
      ∃ rest, s'.calls = (s'.state.clients c).op :: rest := by
  rcases Session.step_cases hstep with ⟨op, rfl, hquiet, -, hcall⟩ |
    ⟨d, fresh, waiter, rfl, -, hcalls, hrun⟩ | ⟨l, rfl, -, hland⟩ | ⟨message, t, rfl, -, hdeliver, ht⟩
  · rw [h.rootLevel_eq, (h.toSolo.call hquiet hcall).1.rootLevel_eq] at hlevel
    exact absurd rfl hlevel
  · have hdc := h.alone.eq_of_run hrun
    subst hdc
    obtain ⟨m', top', h', hadv⟩ := h.toSolo.run hrun
    rw [h.rootLevel_eq, h'.rootLevel_eq] at hlevel
    rcases (run_turned hrun).shared.2 with ⟨hroot, -⟩ |
      ⟨p, task, k, sibling, root, hpc, hswap, hroot, hmem, hmessages, hidle⟩
    · have hnew := h'.current.root
      rw [hroot, hadv.le _ _ h.current.root] at hnew
      cases hnew
      exact absurd rfl hlevel
    · obtain ⟨hold, htop⟩ := h.growing.inv.install_level hadv.inv hpc hswap hroot hmem
      have hnew := h'.current.root
      rw [hroot, htop] at hnew
      cases hnew
      have hbefore := h.current.root
      rw [hold] at hbefore
      cases hbefore
      have hquiet : s.state.messages = [] := by
        rcases h.current.quiet with hquiet | ⟨r, hr⟩
        · exact hquiet
        · rw [hr] at hpc
          cases hpc
      refine ⟨hidle, ?_, ?_, ?_⟩
      · rw [h'.rootLevel_eq, h.rootLevel_eq]
      · rw [hmessages, hquiet, hroot, h'.rootLevel_eq]
        rfl
      · rw [hcalls, (run_frame (c := d) hrun).1]
        refine h.serving fun r hr => ?_
        rw [hr] at hpc
        cases hpc
  · rw [h.rootLevel_eq, (h.toSolo.land hland).1.rootLevel_eq] at hlevel
    exact absurd rfl hlevel
  · have h' := (h.toSolo.deliver hdeliver).1
    rw [← ht] at h'
    rw [h.rootLevel_eq, h'.rootLevel_eq] at hlevel
    exact absurd rfl hlevel

end Shallow

/-! ### Many inserts -/

/-- Inserts of the keys, all with one value. -/
def insertAll (keys : List Nat) : List Op := keys.map fun k => .insert k 7

theorem latest_insertAll {keys : List Nat} {k : Nat} (hk : k ∈ keys) :
    latest k (insertAll keys) = some 7 := by
  induction keys with
  | nil => cases hk
  | cons x keys ih =>
      show (if (Op.insert x 7).updates = true ∧ (Op.insert x 7).key = k then some 7
        else latest k (insertAll keys)) = some 7
      split
      · rfl
      · rename_i hne
        rcases List.mem_cons.mp hk with rfl | hk
        · exact absurd ⟨rfl, rfl⟩ hne
        · exact ih hk

/-- What was inserted is there. -/
theorem Served.holds_inserted {cfg : Config} {c : Client} {s : Session} {m : Chart} {top : Nat}
    (h : Served cfg c s m top) (hreturned : s.Returned c) {keys : List Nat}
    (hcalls : s.calls = insertAll keys) {k : Nat} (hk : k ∈ keys) : Holds cfg s.state m k 7 := by
  obtain ⟨⟨r, hidle⟩, -⟩ := hreturned
  rw [h.holds, hidle, if_neg (by exact Bool.false_ne_true), hcalls]
  exact latest_insertAll hk

/-! ### The crowded leaf -/

/-- The first leaf is split at 2800; then it is filled again. -/
def crowdKeys : List Nat :=
  ((List.range 54).map fun i => 100 * (i + 1)) ++ (List.range 26).map fun i => i + 1

def crowd : List Action :=
  inserts ((List.range 53).map fun i => 100 * (i + 1)) ++
    .call ⟨0, 0⟩ (.insert 5400 7) :: List.replicate 6 (.run ⟨0, 0⟩ .Null none) ++
    [.run ⟨0, 0⟩ ⟨0, 16⟩ none, .run ⟨0, 0⟩ .Null none, .run ⟨0, 0⟩ .Null none,
      .run ⟨0, 0⟩ ⟨0, 24⟩ none, .run ⟨0, 0⟩ .Null none, .deliver (0, ⟨0, 24⟩, 1)] ++
    (List.range 26).flatMap fun i =>
      .call ⟨0, 0⟩ (.insert (i + 1) 7) :: List.replicate 7 (.run ⟨0, 0⟩ .Null none)

/-- More keys than a tree with its root on level 2 can hold. -/
def greatKeys : List Nat := (List.range 200000).map fun i => 10000 + i

/-- Where the leaf at `a` ends. -/
def State.leafEnd (s : State) (a : GlobalAddress) : Option Nat :=
  match s.mem a with
  | some (.leaf page) => some page.hdr.highest
  | _ => none

theorem leafEnd_eq {s : State} {a : GlobalAddress} {k : Nat} (h : s.leafEnd a = some k) :
    ∃ leaf : LeafPage, s.mem a = some (.leaf leaf) ∧ leaf.hdr.highest = k := by
  unfold State.leafEnd at h
  split at h
  · rename_i leaf hmem
    exact ⟨leaf, hmem, Option.some_inj.mp h⟩
  · cases h

/-- The leaf at `a` ends at `e`, and is left alone; the keys in `first` were inserted. -/
structure Crowded (a : GlobalAddress) (e : Nat) (first : List Nat) (s : Session) : Prop where
  leaf : s.state.leafEnd a = some e
  away : (∃ r, (s.state.clients ⟨0, 0⟩).pc = .idle r) ∨ e ≤ (s.state.clients ⟨0, 0⟩).op.key
  calls : ∃ keys, s.calls = insertAll keys ∧ ∀ k ∈ first, k ∈ keys

section Crowded

variable {a : GlobalAddress} {e : Nat} {first : List Nat} {s s' : Session}

theorem Crowded.step (h : Crowded a e first s) (he : e ≤ 10000) {m : Chart} {top : Nat}
    (hsolo : Solo sample ⟨0, 0⟩ s.state m top) (hlanded : Landed s.state) {action : Action}
    (hgreat : Among (insertAll greatKeys) s action)
    (hstep : s.step sample ⟨0, 0⟩ action = some s') : Crowded a e first s' := by
  rcases Session.step_cases hstep with ⟨op, rfl, -, hcalls, hcall⟩ |
    ⟨d, fresh, waiter, rfl, -, hcalls, hrun⟩ | ⟨l, rfl, hcalls, hland⟩ |
    ⟨⟨n, b, l⟩, t, rfl, hcalls, hdeliver, ht⟩
  · obtain ⟨hmem, -, -, -, hop⟩ := call_frame hcall
    obtain ⟨k, hk, rfl⟩ := List.mem_map.mp (hgreat _ _ rfl)
    obtain ⟨keys, hkeys, hcrowd⟩ := h.calls
    refine ⟨?_, Or.inr ?_, k :: keys, ?_, fun x hx => List.mem_cons_of_mem _ (hcrowd x hx)⟩
    · unfold State.leafEnd
      rw [hmem]
      exact h.leaf
    · obtain ⟨i, -, rfl⟩ := List.mem_map.mp hk
      rw [hop]
      show e ≤ 10000 + i
      omega
    · rw [hcalls, hkeys]
      rfl
  · have hdc := hsolo.alone.eq_of_run hrun
    subst hdc
    have haway : e ≤ (s.state.clients ⟨0, 0⟩).op.key := by
      rcases h.away with ⟨r, hr⟩ | haway
      · simp only [runClient, hr] at hrun
        cases hrun
      · exact haway
    obtain ⟨leaf, hleaf, hend⟩ := leafEnd_eq h.leaf
    refine ⟨?_, Or.inr ?_, ?_⟩
    · unfold State.leafEnd
      rw [hsolo.growing.inv.leaf_kept hleaf (hend ▸ haway) hrun]
      exact h.leaf
    · rw [(run_frame (c := ⟨0, 0⟩) hrun).1]
      exact haway
    · rw [hcalls]
      exact h.calls
  · refine ⟨?_, ?_, ?_⟩
    · rw [hlanded.land hland]
      exact h.leaf
    · rw [clients_of_land hland]
      exact h.away
    · rw [hcalls]
      exact h.calls
  · obtain ⟨hmem, -⟩ := deliver_frame hdeliver
    refine ⟨?_, ?_, ?_⟩
    · unfold State.leafEnd
      rw [ht, show t.cacheOff.mem = t.mem from rfl, hmem]
      exact h.leaf
    · rw [ht, show t.cacheOff.clients = t.clients from rfl, clients_of_deliver hdeliver]
      exact h.away
    · rw [hcalls]
      exact h.calls

/-- With a root below level 3 there is no room for so many keys. -/
theorem Served.high {c : Client} {m : Chart} {top : Nat} (h : Served sample c s m top)
    (hreturned : s.Returned c) {keys : List Nat} (hcalls : s.calls = insertAll keys)
    (hgreat : ∀ k ∈ greatKeys, k ∈ keys) : 3 ≤ top := by
  by_contra hlow
  have hquiet : ∀ d, (s.state.clients d).pc.pending = none := by
    intro d
    by_cases hdc : d = c
    · subst hdc
      obtain ⟨⟨r, hr⟩, -⟩ := hreturned
      rw [hr]
      rfl
    · obtain ⟨r, hr⟩ := h.alone.others d hdc
      rw [hr]
      rfl
  have hheld : ∀ k ∈ (Finset.range 200000).image fun i => 10000 + i,
      ∃ v, Holds sample s.state m k v := by
    intro k hk
    obtain ⟨i, hi, rfl⟩ := Finset.mem_image.mp hk
    refine ⟨7, h.holds_inserted hreturned hcalls (hgreat _ (List.mem_map_of_mem ?_))⟩
    exact List.mem_range.mpr (Finset.mem_range.mp hi)
  have hcard := h.growing.card_keys h.current.root hquiet _ hheld
  have hinj : Function.Injective fun i : Nat => 10000 + i := fun i j hij => Nat.add_left_cancel hij
  rw [Finset.card_image_of_injective _ hinj, Finset.card_range] at hcard
  have hpow : kInternalCardinality ^ top ≤ kInternalCardinality ^ 2 :=
    Nat.pow_le_pow_right (by decide) (by omega)
  have hmul := Nat.mul_le_mul_left (kLeafCardinality - 1) hpow
  have hroom : (kLeafCardinality - 1) * kInternalCardinality ^ 2 < 200000 := by decide
  omega

/-- The root is not on level 3 yet. -/
def Small (s : Session) (_ : Action) : Prop := s.state.rootLevel < 3

instance (s : Session) (action : Action) : Decidable (Small s action) :=
  inferInstanceAs (Decidable (s.state.rootLevel < 3))

theorem Shallow.path {c : Client} {origin : State} {t : Session} (h : Shallow sample c origin s)
    (hpath : (sequential sample c).Path Small s t) : Shallow sample c origin t :=
  hpath.invariant h fun _ _ _ h hsmall hstep => h.step hsmall hstep

theorem shallow_init : Shallow sample ⟨0, 0⟩ (State.init ⟨0, 8⟩) ⟨State.init ⟨0, 8⟩, []⟩ :=
  ⟨⟨_, ⟨⟨0, 8⟩, by decide, rfl⟩, .refl⟩, .refl, fun n => rfl, fun n => (by decide : (-1 : Int) < 3)⟩

theorem reachable_sample_init : (machine sample).Reachable (State.init ⟨0, 8⟩) :=
  ⟨_, ⟨⟨0, 8⟩, by decide, rfl⟩, .refl⟩

/-- The session that has filled the first leaf. -/
theorem exists_crowded : ∃ s, Shallow sample ⟨0, 0⟩ (State.init ⟨0, 8⟩) s ∧
    Crowded ⟨0, 8⟩ 2800 crowdKeys s ∧ s.Returned ⟨0, 0⟩ ∧ s.state.rootLevel < 3 := by
  have hrun : (((sequential sample ⟨0, 0⟩).restrict Small).exec ⟨State.init ⟨0, 8⟩, []⟩ crowd).map
      (fun s => (s.calls, s.state.leafEnd ⟨0, 8⟩, (s.state.clients ⟨0, 0⟩).pc.isIdle,
        s.state.messages.isEmpty, decide (s.state.rootLevel < 3))) =
      some (insertAll crowdKeys.reverse, some 2800, true, true, true) := by decide +kernel
  obtain ⟨s, hs, heq⟩ := Option.map_eq_some_iff.mp hrun
  injection heq with hcalls heq
  injection heq with hleaf heq
  injection heq with hisIdle heq
  injection heq with hempty hlow
  have hidle := Pc.isIdle_iff.mp hisIdle
  refine ⟨s, shallow_init.path (System.path_of_restrict _ hs),
    ⟨hleaf, Or.inl hidle, _, hcalls, fun k hk => List.mem_reverse.mpr hk⟩,
    ⟨hidle, List.isEmpty_iff.mp hempty⟩, of_decide_eq_true hlow⟩

/-- **One client builds a tree whose root is on level 3 over the crowded leaf**, and the node's
directory is about to hear of it. -/
theorem Shallow.tall {origin : State} {s₀ : Session} (hshallow₀ : Shallow sample ⟨0, 0⟩ origin s₀)
    (horigin : (machine sample).Reachable origin) (hcrowded₀ : Crowded a e first s₀)
    (he : e ≤ 10000) (hreturned₀ : s₀.Returned ⟨0, 0⟩) (hlow₀ : s₀.state.rootLevel < 3) :
    ∃ s, Shallow sample ⟨0, 0⟩ origin s ∧ Crowded a e first s ∧
      (s.state.clients ⟨0, 0⟩).pc = .idle (some .done) ∧ s.state.rootLevel = 3 ∧
      s.state.messages = [(0, s.state.rootPtr, s.state.rootLevel)] ∧
      ∃ rest, s.calls = (s.state.clients ⟨0, 0⟩).op :: rest := by
  obtain ⟨s, hpath, hcalls, hreturned⟩ := sequential_serves hshallow₀.session hreturned₀
    (insertAll greatKeys) (fun op hop => by
      obtain ⟨k, hk, rfl⟩ := List.mem_map.mp hop
      obtain ⟨i, hi, rfl⟩ := List.mem_map.mp hk
      have := List.mem_range.mp hi
      refine decide_eq_true ⟨?_, by decide⟩
      unfold kKeyMax
      omega)
  have hkept : ∀ {t : Session} {action : Action} {t' : Session},
      Shallow sample ⟨0, 0⟩ origin t ∧ Crowded a e first t →
      Among (insertAll greatKeys) t action ∧ ¬ 3 ≤ t.state.rootLevel →
      t.step sample ⟨0, 0⟩ action = some t' →
      Shallow sample ⟨0, 0⟩ origin t' ∧ Crowded a e first t' := by
    rintro t action t' ⟨hshallow, hcrowded⟩ ⟨hgreat, hlow⟩ hstep
    obtain ⟨m, top, hserved⟩ := reachable_served hshallow.session
    have hlanded := @reachable_landed sample _ rfl (hshallow.reachable horigin)
    exact ⟨hshallow.step (Nat.not_le.mp hlow) hstep,
      hcrowded.step he hserved.toSolo hlanded hgreat hstep⟩
  rcases hpath.first (P := fun s => 3 ≤ s.state.rootLevel) (Nat.not_le.mpr hlow₀) with
    ⟨-, hlow⟩ | ⟨u, action, s, hpath, hlow, hgreat, hstep, hhigh⟩
  · -- all the keys are there, but the root is too low
    obtain ⟨keys, hkeys, -⟩ := hcrowded₀.calls
    obtain ⟨m, top, hserved⟩ := reachable_served
      (hshallow₀.session.path (hpath.mono fun _ _ _ => trivial))
    have hall : s.calls = insertAll (greatKeys ++ keys) := by
      rw [hcalls, hkeys]
      exact (List.map_append ..).symm
    rw [hserved.toSolo.rootLevel_eq] at hlow
    exact absurd (hserved.high hreturned hall fun k hk => List.mem_append_left _ hk) hlow
  · obtain ⟨hshallow, hcrowded⟩ := hpath.invariant ⟨hshallow₀, hcrowded₀⟩ fun _ _ _ => hkept
    obtain ⟨hshallow', hcrowded'⟩ := hkept ⟨hshallow, hcrowded⟩ ⟨hgreat, hlow⟩ hstep
    obtain ⟨m, top, hserved⟩ := reachable_served hshallow.session
    obtain ⟨hidle, hlevel, hmessages, hserving⟩ :=
      hserved.announces hstep fun heq => hlow (heq ▸ hhigh)
    exact ⟨s, hshallow', hcrowded', hidle, by omega, hmessages, hserving⟩

/-- The directory hears of the root, and turns the cache on. -/
theorem Shallow.cacheOn {c : Client} {origin : State} {u : Session}
    (h : Shallow sample c origin u) (hhigh : 3 ≤ u.state.rootLevel)
    (hmessages : u.state.messages = [(0, u.state.rootPtr, u.state.rootLevel)]) :
    ∃ v, Tree.step sample u.state (.deliver (0, u.state.rootPtr, u.state.rootLevel)) = some v ∧
      (v.directory 0).rootPtr = u.state.rootPtr ∧ (v.directory 0).enableCache = true ∧
      v.messages = [] := by
  have hm : (0, u.state.rootPtr, u.state.rootLevel) ∈ u.state.messages := by
    rw [hmessages]
    exact List.mem_singleton_self _
  obtain ⟨v, hdeliver⟩ : ∃ v, Tree.step sample u.state
      (.deliver (0, u.state.rootPtr, u.state.rootLevel)) = some v := ⟨_, if_pos hm⟩
  obtain ⟨-, -, -, hdir, hleft⟩ := deliver_frame hdeliver
  have hnew : (v.directory 0).rootPtr = u.state.rootPtr ∧
      (v.directory 0).enableCache = ((u.state.directory 0).enableCache ||
        decide (3 ≤ u.state.rootLevel)) := by
    rw [hdir, Function.update_self]
    unfold Directory.newRoot
    rw [if_pos (lt_of_lt_of_le (h.directory 0) (Int.ofNat_le.mpr hhigh))]
    exact ⟨rfl, rfl⟩
  refine ⟨v, hdeliver, hnew.1, ?_, ?_⟩
  · rw [hnew.2, decide_eq_true hhigh, Bool.or_true]
  · rw [hleft, hmessages]
    exact List.erase_cons_head ..

end Crowded

end Dal.Tree
