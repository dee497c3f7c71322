/-
What a search returns.

A search takes no locks, so what it returns has to be settled by the last page it
reads: the leaf whose range has the key, in the version that was committed.  That is
the page that holds the key if any does, whatever the search went through to get
there, and so a search returns what the tree holds at the moment of that read
(`Inv.search_returns`).

`search_sees_insert` puts this together with the life of an insert.  Batched writes
are the exception: there the new version of a page may be committed and not yet in
memory.
-/
import Dal.Tree.Operation

namespace Dal.Tree

section Returns

variable {cfg : Config} {s s' : State} {m : Chart} {c : Client} {k : Nat}

/-- Where a search may be: it takes no locks and writes nothing. -/
def Pc.reading : Pc → Prop
  | .idle _ | .failed _ | .getRoot .operation | .readRoot .operation | .searchCache
  | .descend _ (.leaf _) | .caching _ _ (.leaf _) | .invalidate _ => True
  | _ => False

theorem PcOk.reading {enabled : Bool} {mem : GlobalAddress → Option Page} {x : Local} {pc : Pc}
    (hup : x.op.updates = false) (h : PcOk m enabled mem x pc) : pc.reading := by
  have hnot : x.op.updates ≠ true := by simp [hup]
  have hins : x.op.inserts ≠ true := fun hi => hnot (Op.updates_of_inserts hi)
  cases pc with
  | idle _ | failed _ | searchCache | invalidate _ => trivial
  | start => exact hnot h.1
  | getRoot use | readRoot use =>
      cases use with
      | operation => trivial
      | cachedStore addr entry => exact hins h.1
      | parent k v level => exact hins h.1
      | retry goal => exact h.elim
  | descend p goal =>
      cases goal with
      | leaf cached => trivial
      | parent k v level => exact hins h.2.1
  | caching p page goal =>
      cases goal with
      | leaf cached => trivial
      | parent k v level => exact hins h.1.2.1
  | lock p task | read p task => exact hnot (TaskOk.updates h)
  | loaded p task page => exact hnot (TaskOk.updates h.1)
  | linked p task page sibling => exact hnot (TaskOk.updates h.1)
  | unlock p mode after =>
      cases after with
      | done => exact hnot h
      | stale entry => exact hnot h.1
      | right task sibling => exact hnot (TaskOk.updates h.2)
      | split p task splitKey sibling => exact hins h.2.1
  | grow p task splitKey sibling => exact hins h.1.2.1
  | casRoot p task splitKey sibling root => exact hins h.1.2.1

/-- What a search for `k` may return. -/
def Answer (cfg : Config) (s : State) (m : Chart) (k : Nat) : Option Response → Prop
  | some (.found v) => Holds cfg s m k v
  | some .notFound => ∀ v, ¬ Holds cfg s m k v
  | _ => False

/-- From the leaf of its key a search returns what the tree holds. -/
theorem Inv.answer (h : Inv cfg s m) {x : Local} {p : GlobalAddress} {cached : Option (Nat × Nat)}
    {l y : Nat} {page : Page} {result : Option SearchResult} {r : Option Response}
    (hop : x.op = .search k) (hp : m p = some (l, y)) (hyk : y ≤ k)
    (hpage : s.content cfg p = some page)
    (hfound : Found m page l y k (Goal.leaf cached).fromCache result)
    (hidle : afterSearch x p (.leaf cached) result = .idle r) : Answer cfg s m k r := by
  cases hfound with
  | stale hcache hk =>
      cases cached with
      | none => cases hcache
      | some entry =>
          simp only [afterSearch, hop] at hidle
          cases hidle
  | right sibling hk hsib =>
      have hne := ne_null h.shape.null hsib
      simp only [afterSearch, hop] at hidle
      rw [if_neg (not_not_intro rfl), if_pos hne] at hidle
      split at hidle <;> cases hidle
  | leaf lpage val hl hk hpage' hval hnone =>
      subst hl hpage'
      simp only [afterSearch, hop, if_true] at hidle
      split at hidle
      · rename_i hv
        cases hidle
        exact ⟨p, _, _, hp, hpage, hval hv⟩
      · rename_i hv
        rw [if_neg (not_not_intro rfl)] at hidle
        cases hidle
        rintro v ⟨a, e, q, ha, hq, hhas⟩
        have hap := h.shape.has_home hp hpage rfl hyk hk ha hq hhas
        subst hap
        rw [hpage] at hq
        cases hq
        exact hnone (not_not.mp hv) v hhas
  | child below z q hl hq hyz hzk =>
      simp only [afterSearch, hop] at hidle
      rw [if_neg Bool.false_ne_true, if_neg (not_not_intro rfl)] at hidle
      cases hidle

/-- **A search returns what the tree holds when it reads its last page**, if that is in memory. -/
theorem Inv.search_returns (h : Inv cfg s m) {fresh : GlobalAddress} {waiter : Option Client}
    {r : Option Response} (hop : (s.clients c).op = .search k)
    (hseen : ∀ p goal, (s.clients c).pc = .descend p goal → s.content cfg p = s.mem p)
    (hstep : runClient cfg s c fresh waiter = some s') (hidle : (s'.clients c).pc = .idle r) :
    Answer cfg s m k r := by
  have hup : (s.clients c).op.updates = false := by rw [hop]; rfl
  have hok := h.pc c
  have hphase := PcOk.reading hup hok
  unfold runClient at hstep
  cases hpc : (s.clients c).pc with
  | idle response | failed why => simp only [hpc] at hstep; cases hstep
  | getRoot use =>
      rw [hpc] at hphase
      cases use with
      | operation =>
          simp only [hpc] at hstep
          split at hstep <;> cases hstep
          · rw [setPc_self] at hidle
            cases hidle
          · rw [setClient_self] at hidle
            simp only [rooted, hop] at hidle
            cases hidle
      | _ => exact hphase.elim
  | readRoot use =>
      rw [hpc] at hphase
      cases use with
      | operation =>
          simp only [hpc, Option.some.injEq] at hstep
          subst hstep
          rw [setClient_self] at hidle
          simp only [rooted, hop] at hidle
          cases hidle
      | _ => exact hphase.elim
  | searchCache =>
      simp only [hpc, Option.some.injEq] at hstep
      subst hstep
      rw [setPc_self] at hidle
      unfold searchCache at hidle
      simp only at hidle
      split at hidle <;> cases hidle
  | invalidate entry =>
      simp only [hpc, Option.some.injEq] at hstep
      subst hstep
      rw [setPc_self, restart, hop] at hidle
      cases hidle
  | descend p goal =>
      rw [hpc] at hphase hok
      cases goal with
      | parent k v level => exact hphase.elim
      | leaf cached =>
          simp only [hpc, Option.some.injEq] at hstep
          subst hstep
          rw [setClient_self] at hidle
          have hgoal : GoalOk m (s.directory c.node).enableCache (s.clients c) p (.leaf cached) := hok
          obtain ⟨l, y, page, hp, hpage, hpageOk⟩ := GoalOk.page h hgoal
          have hspot := hgoal.spot hp
          simp only [Goal.key, hop, Op.key] at hspot
          have hkey := Op.key_lt (h.valid c)
          rw [hop] at hkey
          obtain ⟨result, hresult, hfound⟩ :=
            pageSearch_spec hpageOk h.shape.null hspot.2.1 hkey hspot.2.2.2
          have hcontent : s.content cfg p = some page := (hseen p _ hpc).trans hpage
          simp only [pageRead, hpage, hpageOk.consistent, if_true, Goal.key, hop, Op.key,
            hresult] at hidle
          cases page with
          | leaf lpage =>
              simp only at hidle
              exact h.answer (by rfl) hp hspot.2.1 hcontent hfound hidle
          | internal ipage =>
              simp only at hidle
              split at hidle
              · cases hidle
              · exact h.answer (by rfl) hp hspot.2.1 hcontent hfound hidle
  | caching p page goal =>
      rw [hpc] at hphase hok
      cases goal with
      | parent k v level => exact hphase.elim
      | leaf cached =>
          obtain ⟨hgoal, -, -, y, hp, hpageOk⟩ := hok
          have hspot := GoalOk.spot hgoal hp
          simp only [Goal.key, hop, Op.key] at hspot
          have hkey := Op.key_lt (h.valid c)
          rw [hop] at hkey
          obtain ⟨result, hresult, hfound⟩ :=
            pageSearch_spec hpageOk h.shape.null hspot.2.1 hkey hspot.2.2.2
          simp only [hpc, Option.some.injEq, Tree.caching, Goal.key, hop, Op.key, hresult] at hstep
          subst hstep
          rw [setPc_self] at hidle
          -- the page is internal, so the search is not over
          cases hfound with
          | stale hcache hk => exact absurd (hspot.2.2.2 hcache) (by decide)
          | right sibling hk hsib =>
              have hne := ne_null h.shape.null hsib
              simp only [afterSearch, hop] at hidle
              rw [if_neg (by decide), if_pos hne] at hidle
              cases hidle
          | leaf lpage val hl hk hpage' hval hnone => cases hl
          | child below z q hl hq hyz hzk =>
              simp only [afterSearch, hop] at hidle
              rw [if_neg Bool.false_ne_true, if_neg (not_not_intro rfl)] at hidle
              cases hidle
  | _ =>
      rw [hpc] at hphase
      exact hphase.elim

end Returns

/-! ### Builds that do not batch their writes -/

section Unbatched

variable {cfg : Config} {s s' : State}

/-- No page is on its way to memory. -/
def Landed (s : State) : Prop := ∀ l w, s.locks l ≠ .posted (some w)

theorem Landed.content (h : Landed s) (a : GlobalAddress) : s.content cfg a = s.mem a :=
  content_of_not_posted fun page => h _ (a, page)

theorem Landed.setLock (h : Landed s) (l : LockAddr) {x : Lock} (hx : ∀ w, x ≠ .posted (some w))
    (c : Client) (y : Local) : Landed ((s.setLock l x).setClient c y) := by
  intro k w
  by_cases hk : k = l
  · rw [hk, show ((s.setLock l x).setClient c y).locks l = x from Function.update_self ..]
    exact hx w
  · rw [show ((s.setLock l x).setClient c y).locks k = s.locks k from Function.update_of_ne hk ..]
    exact h k w

theorem Landed.run (hb : cfg.batched = false) (h : Landed s) {c : Client} {fresh : GlobalAddress}
    {waiter : Option Client} (hstep : runClient cfg s c fresh waiter = some s') : Landed s' := by
  have hturn := run_turned hstep
  generalize (s.clients c).pc = pc at hturn
  cases hturn with
  | lock p task hlock => exact h.setLock _ (fun w hw => by cases hw) _ _
  | loaded p task page mode after async hafter hmode =>
      rw [commit_eq]
      exact h
  | posting p task page left right splitKey sibling hout hasync =>
      rw [hb] at hasync
      cases hasync.1
  | unlock p mode after =>
      refine h.setLock _ (fun w => ?_) _ _
      cases mode <;> simp [Release.lock]
  | _ => exact h

theorem Landed.step (hb : cfg.batched = false) (h : Landed s) {action : Action}
    (hstep : step cfg s action = some s') : Landed s' := by
  cases action with
  | call c op =>
      simp only [Tree.step] at hstep
      split at hstep
      · split at hstep
        · cases hstep
          exact h
        · cases hstep
      · cases hstep
  | run c fresh waiter => exact h.run hb hstep
  | land l =>
      simp only [Tree.step] at hstep
      split at hstep
      · rename_i a page hl
        exact absurd hl (h l (a, page))
      · cases hstep
        intro k w
        by_cases hk : k = l
        · rw [hk, show (s.setLock l .free).locks l = .free from Function.update_self ..]
          exact fun hw => by cases hw
        · rw [show (s.setLock l .free).locks k = s.locks k from Function.update_of_ne hk ..]
          exact h k w
      · cases hstep
  | deliver message =>
      obtain ⟨n, a, l⟩ := message
      simp only [Tree.step] at hstep
      split at hstep
      · cases hstep
        exact h
      · cases hstep
  | evict n entry =>
      cases hstep
      exact h

/-- Without batching, what a page holds is what lies in memory. -/
theorem reachable_landed (hb : cfg.batched = false) (hs : (machine cfg).Reachable s) : Landed s := by
  refine System.ReachableBy.invariant (I := Landed) hs ?_ fun s a s' h _ hstep => h.step hb hstep
  rintro s ⟨root, -, rfl⟩ l w
  exact fun hw => by cases hw

end Unbatched

/-! ### Inserts and the searches after them -/

section Sees

variable {cfg : Config} {s s' : State} {m : Chart} {k v : Nat}

/-- The client is not serving a call. -/
def Pc.isIdle : Pc → Bool
  | .idle _ => true
  | _ => false

theorem Pc.isIdle_iff {pc : Pc} : pc.isIdle = true ↔ ∃ r, pc = .idle r := by
  cases pc <;> simp [Pc.isIdle]

/-- The client is serving an `insert` or `del` of `k`. -/
def Updating (k : Nat) (x : Local) : Prop :=
  x.op.updates = true ∧ x.op.key = k ∧ (∀ r, x.pc ≠ .idle r) ∧ ∀ why, x.pc ≠ .failed why

/-- The client may still change what is held under `k`. -/
def Threat (k : Nat) (x : Local) : Prop :=
  x.op.updates = true ∧ x.op.key = k ∧ x.pc.uncommitted = true

theorem Threat.updating {x : Local} (h : Threat k x) : Updating k x := by
  obtain ⟨hup, hkey, hun⟩ := h
  refine ⟨hup, hkey, fun r hr => ?_, fun why hw => ?_⟩
  · rw [hr] at hun
    cases hun
  · rw [hw] at hun
    cases hun

/-- Nobody calls for an `insert` or `del` of `k`. -/
def NoUpdate (k : Nat) (_ : State) : Action → Prop
  | .call _ op => ¬ (op.updates = true ∧ op.key = k)
  | _ => True

/-- The operation a step carries out is one that was not carried out yet. -/
theorem Inv.commits_threat (h : Inv cfg s m) {action : Action} {op : Op}
    (hstep : Tree.step cfg s action = some s') (hcommits : commits s action = some op) :
    ∃ c, op = (s.clients c).op ∧ Threat op.key (s.clients c) ∧ ¬ Threat op.key (s'.clients c) := by
  cases action with
  | run c fresh waiter =>
      have hop : op = (s.clients c).op ∧ (s.clients c).op.updates = true := by
        have hok := h.pc c
        cases hpc : (s.clients c).pc with
        | loaded p task page =>
            rw [hpc] at hok
            simp only [commits, hpc] at hcommits
            refine ⟨?_, TaskOk.updates hok.1⟩
            unfold commitsBy at hcommits
            split at hcommits <;> cases hcommits <;> rfl
        | linked p task page sibling =>
            rw [hpc] at hok
            refine ⟨?_, TaskOk.updates hok.1⟩
            cases task with
            | leafStore cached =>
                simp only [commits, hpc] at hcommits
                cases hcommits
                rfl
            | _ => simp only [commits, hpc] at hcommits; cases hcommits
        | _ => simp only [commits, hpc] at hcommits; cases hcommits
      obtain ⟨rfl, hup⟩ := hop
      have hmoved := h.moved hup hstep
      rw [hcommits] at hmoved
      unfold Pc.Moved at hmoved
      split at hmoved
      · rename_i hun
        refine ⟨c, rfl, ⟨hup, rfl, hun⟩, fun hthreat => ?_⟩
        have hafter : (s'.clients c).pc.uncommitted = false := hmoved
        rw [hthreat.2.2] at hafter
        cases hafter
      · cases hmoved.1
  | _ => cases hcommits

/-- A threat is called for; no other step makes one. -/
theorem Inv.threat_of_step (h : Inv cfg s m) {action : Action} (hk : NoUpdate k s action)
    (hstep : Tree.step cfg s action = some s') {e : Client} (hthreat : Threat k (s'.clients e)) :
    Threat k (s.clients e) ∧ (s'.clients e).op = (s.clients e).op := by
  cases action with
  | call c op =>
      simp only [Tree.step] at hstep
      split at hstep
      · split at hstep
        · cases hstep
          by_cases hec : e = c
          · subst hec
            rw [setClient_self] at hthreat
            cases op <;> exact absurd ⟨hthreat.1, hthreat.2.1⟩ hk
          · rw [show (s.setClient c _).clients e = s.clients e from Function.update_of_ne hec ..]
              at hthreat ⊢
            exact ⟨hthreat, rfl⟩
        · cases hstep
      · cases hstep
  | run c fresh waiter =>
      obtain ⟨hop, hothers⟩ := run_frame (c := c) hstep
      by_cases hec : e = c
      · subst hec
        obtain ⟨hup, hkey, hun⟩ := hthreat
        rw [hop] at hup hkey
        refine ⟨⟨hup, hkey, ?_⟩, hop⟩
        have hmoved := h.moved hup hstep
        unfold Pc.Moved at hmoved
        split at hmoved
        · assumption
        · rw [hun] at hmoved
          cases hmoved.2
      · rw [hothers e hec] at hthreat ⊢
        exact ⟨hthreat, rfl⟩
  | land l =>
      simp only [Tree.step] at hstep
      split at hstep <;> cases hstep <;> exact ⟨hthreat, rfl⟩
  | deliver message =>
      obtain ⟨n, a, l⟩ := message
      simp only [Tree.step] at hstep
      split at hstep <;> cases hstep
      exact ⟨hthreat, rfl⟩
  | evict n entry =>
      cases hstep
      exact ⟨hthreat, rfl⟩

/-- A client moves by its own actions only. -/
theorem clients_of_step {action : Action} (hstep : step cfg s action = some s') (c : Client) :
    (∃ fresh waiter, action = .run c fresh waiter) ∨ (∃ op, action = .call c op) ∨
      s'.clients c = s.clients c := by
  cases action with
  | call d op =>
      by_cases hcd : c = d
      · exact Or.inr (Or.inl ⟨op, by rw [hcd]⟩)
      · simp only [step] at hstep
        split at hstep
        · split at hstep <;> cases hstep
          exact Or.inr (Or.inr (Function.update_of_ne hcd ..))
        · cases hstep
  | run d fresh waiter =>
      by_cases hcd : c = d
      · exact Or.inl ⟨fresh, waiter, by rw [hcd]⟩
      · exact Or.inr (Or.inr ((run_frame (c := d) hstep).2 c hcd))
  | land l =>
      simp only [step] at hstep
      split at hstep <;> cases hstep <;> exact Or.inr (Or.inr rfl)
  | deliver message =>
      obtain ⟨n, a, l⟩ := message
      simp only [step] at hstep
      split at hstep <;> cases hstep
      exact Or.inr (Or.inr rfl)
  | evict n entry =>
      cases hstep
      exact Or.inr (Or.inr rfl)

theorem Inv.holds_unique (h : Inv cfg s m) {v' : Nat} (hv : Holds cfg s m k v)
    (hv' : Holds cfg s m k v') : v = v' := by
  obtain ⟨a, e, page, ha, hpage, hhas⟩ := hv
  obtain ⟨b, e', page', hb, hpage', hhas'⟩ := hv'
  obtain ⟨q, hq, hok⟩ := h.shape.content_ok (l := e.1) (x := e.2) ha
  rw [hpage] at hq
  cases hq
  obtain ⟨hl, hx, hk⟩ := hok.has_within hhas
  have hba := h.shape.has_home (l := e.1) (x := e.2) ha hpage hl hx hk hb hpage' hhas'
  subst hba
  rw [hpage] at hpage'
  cases hpage'
  rw [hl] at hok
  obtain ⟨lpage, rfl, hleaf⟩ := hok.leaf
  exact hleaf.has_unique hhas hhas'

/-- `v` is held under `k`, and nobody is about to change that. -/
def Kept (cfg : Config) (k v : Nat) (s : State) (m : Chart) : Prop :=
  Inv cfg s m ∧ Holds cfg s m k v ∧ ∀ e, ¬ Threat k (s.clients e)

theorem Kept.step (h : Kept cfg k v s m) {action : Action} (hk : NoUpdate k s action)
    (hstep : Tree.step cfg s action = some s') : ∃ m', Kept cfg k v s' m' := by
  obtain ⟨hinv, hholds, hnone⟩ := h
  obtain ⟨m', hadv⟩ := hinv.step hstep
  refine ⟨m', hadv.inv, ?_, fun e hthreat => hnone e (hinv.threat_of_step hk hstep hthreat).1⟩
  rw [hadv.holds]
  cases hcommits : commits s action with
  | none => exact hholds
  | some op =>
      obtain ⟨c, -, hthreat, -⟩ := hinv.commits_threat hstep hcommits
      simp only [Effect]
      rw [if_neg]
      · exact hholds
      · rintro rfl
        exact hnone c hthreat

/-- An `insert` on its way: it is still to come, it has been carried out, or it failed. -/
def Inserting (cfg : Config) (k v : Nat) (c : Client) (s : State) : Prop :=
  (∃ m, Inv cfg s m ∧ (s.clients c).op = .insert k v ∧ (s.clients c).pc.uncommitted = true ∧
    ∀ e, e ≠ c → ¬ Threat k (s.clients e)) ∨
  (∃ m, Kept cfg k v s m) ∨ ∃ why, (s.clients c).pc = .failed why

theorem Inserting.step {c : Client} (h : Inserting cfg k v c s) {action : Action}
    (hk : NoUpdate k s action) (hstep : Tree.step cfg s action = some s') :
    Inserting cfg k v c s' := by
  rcases h with ⟨m, hinv, hop, hun, hothers⟩ | ⟨m, hkept⟩ | ⟨why, hfailed⟩
  · obtain ⟨m', hadv⟩ := hinv.step hstep
    have hothers' : ∀ e, e ≠ c → ¬ Threat k (s'.clients e) := fun e he hthreat =>
      hothers e he (hinv.threat_of_step hk hstep hthreat).1
    have hkept : commits s action = some (.insert k v) → ¬ Threat k (s'.clients c) →
        Inserting cfg k v c s' := by
      intro hcommits hnot
      refine Or.inr (Or.inl ⟨m', hadv.inv, ?_, fun e hthreat => ?_⟩)
      · rw [hadv.holds, hcommits]
        simp only [Effect, Op.key, Op.stored, if_true]
      · by_cases hec : e = c
        · exact hnot (hec ▸ hthreat)
        · exact hothers' e hec hthreat
    rcases clients_of_step hstep c with ⟨fresh, waiter, rfl⟩ | ⟨op, rfl⟩ | hsame
    · have hmoved := hinv.moved (c := c) (by rw [hop]; rfl) hstep
      unfold Pc.Moved at hmoved
      rw [if_pos hun] at hmoved
      have hop' : (s'.clients c).op = .insert k v := (run_frame (c := c) hstep).1.trans hop
      cases hcommits : commits s (.run c fresh waiter) with
      | none =>
          rw [hcommits] at hmoved
          rcases hmoved with hun' | hfailed
          · exact Or.inl ⟨m', hadv.inv, hop', hun', hothers'⟩
          · exact Or.inr (Or.inr hfailed)
      | some op =>
          rw [hcommits] at hmoved
          have hafter : (s'.clients c).pc.uncommitted = false := hmoved
          obtain ⟨d, hopd, hthreat, hnot⟩ := hinv.commits_threat hstep hcommits
          have hdc : d = c := by
            by_contra hdc
            have hsame := (run_frame (c := c) hstep).2 d hdc
            exact hnot (hsame ▸ hthreat)
          subst hdc
          rw [hop] at hopd
          subst hopd
          exact hkept hcommits hnot
    · -- a client that is busy is not called
      simp only [Tree.step] at hstep
      split at hstep
      · rename_i r hpc
        rw [hpc] at hun
        cases hun
      · cases hstep
    · exact Or.inl ⟨m', hadv.inv, hsame ▸ hop, hsame ▸ hun, hothers'⟩
  · exact Or.inr (Or.inl (hkept.step hk hstep))
  · rcases clients_of_step hstep c with ⟨fresh, waiter, rfl⟩ | ⟨op, rfl⟩ | hsame
    · simp only [Tree.step, runClient, hfailed] at hstep
      cases hstep
    · simp only [Tree.step, hfailed] at hstep
      cases hstep
    · exact Or.inr (Or.inr ⟨why, by rw [hsame]; exact hfailed⟩)

/-- A search after an insert: when it returns, it returns the value. -/
def Searching (cfg : Config) (k v : Nat) (d : Client) (s : State) : Prop :=
  (∃ m, Kept cfg k v s m) ∧ Landed s ∧ (s.clients d).op = .search k ∧
    ∀ r, (s.clients d).pc = .idle r → r = some (.found v)

theorem Searching.step (hb : cfg.batched = false) {d : Client} (h : Searching cfg k v d s)
    {action : Action} (hk : NoUpdate k s action) (hd : ∀ op, action ≠ .call d op)
    (hstep : Tree.step cfg s action = some s') : Searching cfg k v d s' := by
  obtain ⟨⟨m, hkept⟩, hlanded, hop, hret⟩ := h
  refine ⟨hkept.step hk hstep, hlanded.step hb hstep, ?_⟩
  rcases clients_of_step hstep d with ⟨fresh, waiter, rfl⟩ | ⟨op, rfl⟩ | hsame
  · refine ⟨(run_frame (c := d) hstep).1.trans hop, fun r hr => ?_⟩
    have hanswer := hkept.1.search_returns (c := d) hop (fun p goal _ => hlanded.content p) hstep hr
    match r, hanswer with
    | some (.found v'), hholds => rw [hkept.1.holds_unique hkept.2.1 hholds]
    | some .notFound, hnone => exact absurd hkept.2.1 (hnone v)
  · exact absurd rfl (hd op)
  · rw [hsame]
    exact ⟨hop, hret⟩

/-- **A search sees the inserts that returned before it.**  The insert of `v` under `k` runs
from `s₀` to `s₂`, the search for `k` from `s₂` to `s₄`, and nobody else inserts or deletes
`k` in that time; whatever else happens, the search returns `v`. -/
theorem search_sees_insert (hb : cfg.batched = false) {s₀ s₁ s₂ s₃ s₄ : State} {c d : Client}
    {r : Option Response} (h₀ : (machine cfg).Reachable s₀)
    (hquiet : ∀ e, ¬ Updating k (s₀.clients e))
    (hinsert : step cfg s₀ (.call c (.insert k v)) = some s₁)
    (hpath : (machine cfg).Path (NoUpdate k) s₁ s₂)
    (hreturned : ∃ r, (s₂.clients c).pc = .idle r)
    (hsearch : step cfg s₂ (.call d (.search k)) = some s₃)
    (hpath' : (machine cfg).Path (fun s a => NoUpdate k s a ∧ ∀ op, a ≠ .call d op) s₃ s₄)
    (hdone : (s₄.clients d).pc = .idle r) : r = some (.found v) := by
  have hreach₂ : (machine cfg).Reachable s₂ :=
    (h₀.tail (.call c (.insert k v)) trivial hinsert).path (hpath.mono fun _ _ _ => trivial)
  have hlanded := reachable_landed hb hreach₂
  obtain ⟨m, hinv⟩ := reachable_inv h₀
  have hcalled : Inserting cfg k v c s₁ := by
    have hadv := hinv.call hinsert
    simp only [step] at hinsert
    split at hinsert
    · split at hinsert
      · cases hinsert
        refine Or.inl ⟨m, hadv.inv, ?_, ?_, fun e he hthreat => ?_⟩
        · rw [setClient_self]
        · rw [setClient_self]
          rfl
        · rw [show (s₀.setClient c _).clients e = s₀.clients e from Function.update_of_ne he ..]
            at hthreat
          exact hquiet e hthreat.updating
      · cases hinsert
    · cases hinsert
  have hafter : Inserting cfg k v c s₂ :=
    hpath.invariant hcalled fun s a s' h hk hstep => Inserting.step h hk hstep
  obtain ⟨r₂, hr₂⟩ := hreturned
  have hkept : ∃ m, Kept cfg k v s₂ m := by
    rcases hafter with ⟨m, -, -, hun, -⟩ | hkept | ⟨why, hfailed⟩
    · rw [hr₂] at hun
      cases hun
    · exact hkept
    · rw [hr₂] at hfailed
      cases hfailed
  have hstart : Searching cfg k v d s₃ := by
    obtain ⟨m, hkept⟩ := hkept
    have hno : NoUpdate k s₂ (.call d (.search k)) := fun h => by cases h.1
    refine ⟨hkept.step hno hsearch, hlanded.step hb hsearch, ?_⟩
    simp only [step] at hsearch
    split at hsearch
    · split at hsearch
      · cases hsearch
        rw [setClient_self]
        exact ⟨rfl, fun r hr => by cases hr⟩
      · cases hsearch
    · cases hsearch
  have hend : Searching cfg k v d s₄ :=
    hpath'.invariant hstart fun s a s' h hg hstep => Searching.step hb h hg.1 hg.2 hstep
  exact hend.2.2.2 r hdone

/-- Client 0 inserts 60, and then fills the leaf. -/
def insertAndFill : List Action := List.replicate 8 (.run ⟨0, 0⟩ .Null none) ++ fill 52

/-- While client 1 of another node searches, client 0 splits the leaf: the search reads the leaf
that 60 has moved from, with the separator not posted yet. -/
def searchInSplit : List Action :=
  List.replicate 3 (.run ⟨1, 1⟩ .Null none) ++ splitLeaf ⟨0, 16⟩ ++
    List.replicate 2 (.run ⟨1, 1⟩ .Null none)

theorem noUpdate_fill {n : Nat} (hk : n < k) (s : State) : ∀ a ∈ fill n, NoUpdate k s a := by
  intro a ha
  obtain ⟨i, hi, ha⟩ := List.mem_flatMap.mp ha
  rcases List.mem_cons.mp ha with rfl | ha
  · rintro ⟨-, hkey⟩
    have hin := List.mem_range.mp hi
    have hsame : i + 1 = k := hkey
    omega
  · rw [List.eq_of_mem_replicate ha]
    trivial

theorem noUpdate_splitLeaf (sibling : GlobalAddress) (hk : k ≠ 100) (s : State) :
    ∀ a ∈ splitLeaf sibling, NoUpdate k s a ∧ ∀ op, a ≠ .call ⟨1, 1⟩ op := by
  intro a ha
  rcases List.mem_append.mp ha with ha | ha
  · rcases List.mem_cons.mp ha with rfl | ha
    · exact ⟨fun hupdate => hk hupdate.2.symm, fun op h => by cases h⟩
    · rw [List.eq_of_mem_replicate ha]
      exact ⟨trivial, fun op h => by cases h⟩
  · rcases List.mem_pair.mp ha with rfl | rfl <;> exact ⟨trivial, fun op h => by cases h⟩

theorem search_sees_insert_sample : ∃ s₁ s₂ s₃ s₄,
    step sample (State.init ⟨0, 8⟩) (.call ⟨0, 0⟩ (.insert 60 8)) = some s₁ ∧
    (machine sample).exec s₁ insertAndFill = some s₂ ∧
    step sample s₂ (.call ⟨1, 1⟩ (.search 60)) = some s₃ ∧
    (machine sample).exec s₃ searchInSplit = some s₄ ∧
    (s₄.clients ⟨0, 0⟩).pc.pending ≠ none ∧ (s₄.clients ⟨1, 1⟩).pc = .idle (some (.found 8)) := by
  have hrun : ((step sample (State.init ⟨0, 8⟩) (.call ⟨0, 0⟩ (.insert 60 8))).bind fun s₁ =>
      ((machine sample).exec s₁ insertAndFill).bind fun s₂ =>
      (step sample s₂ (.call ⟨1, 1⟩ (.search 60))).bind fun s₃ =>
      ((machine sample).exec s₃ searchInSplit).map fun s₄ => ((s₂.clients ⟨0, 0⟩).pc.isIdle,
        (s₄.clients ⟨0, 0⟩).pc.pending.isSome, (s₄.clients ⟨1, 1⟩).pc.isIdle)) =
      some (true, true, true) := by decide +kernel
  simp only [Option.bind_eq_some_iff] at hrun
  obtain ⟨s₁, hinsert, s₂, hs₂, s₃, hsearch, hend⟩ := hrun
  obtain ⟨s₄, hs₄, heq⟩ := Option.map_eq_some_iff.mp hend
  simp only [Prod.mk.injEq] at heq
  obtain ⟨hidle₂, hpending, hidle₄⟩ := heq
  obtain ⟨r, hr⟩ := Pc.isIdle_iff.mp hidle₄
  refine ⟨s₁, s₂, s₃, s₄, hinsert, hs₂, hsearch, hs₄, Option.isSome_iff_ne_none.mp hpending, ?_⟩
  have hpath : (machine sample).Path (NoUpdate 60) s₁ s₂ := by
    refine System.path_of_exec_of insertAndFill (fun s a ha => ?_) hs₂
    rcases List.mem_append.mp ha with ha | ha
    · rw [List.eq_of_mem_replicate ha]
      trivial
    · exact noUpdate_fill (by decide) s a ha
  have hpath' : (machine sample).Path
      (fun s a => NoUpdate 60 s a ∧ ∀ op, a ≠ .call ⟨1, 1⟩ op) s₃ s₄ := by
    refine System.path_of_exec_of searchInSplit (fun s a ha => ?_) hs₄
    rcases List.mem_append.mp ha with ha | ha
    · rcases List.mem_append.mp ha with ha | ha
      · rw [List.eq_of_mem_replicate ha]
        exact ⟨trivial, fun op h => by cases h⟩
      · exact noUpdate_splitLeaf _ (by decide) s a ha
    · rw [List.eq_of_mem_replicate ha]
      exact ⟨trivial, fun op h => by cases h⟩
  have hunbatched : sample.batched = false := rfl
  rw [hr, search_sees_insert hunbatched ⟨State.init ⟨0, 8⟩, ⟨⟨0, 8⟩, by decide, rfl⟩, .refl⟩
    (fun e he => he.2.2.1 none rfl) hinsert hpath (Pc.isIdle_iff.mp hidle₂) hsearch hpath' hr]

end Sees

end Dal.Tree
