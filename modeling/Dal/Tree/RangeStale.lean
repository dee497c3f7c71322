/-
A leaf that is split under a copy of the page above.

From level 3 on the cache is on.  An insert into the crowded leaf reads the page above,
which is copied into the cache, and then splits the leaf; the separator goes up through
`path_stack`, past the cache.  What `range_query` is told of the leaf afterwards is the copy,
and it does not know the new one.

That the insert goes through is known of a session, whose cache is off: the tree with its
cache on does the same, with one more step for the copy.
-/
import Dal.Tree.Crowded
import Dal.Tree.RangeQuery
import Dal.Tree.Uncached

namespace Dal.Tree

/-! ### Where the insert begins -/

/-- The cache of node 0 is on, and still empty; the first leaf is as it was filled. -/
structure Tall (v : State) (m : Chart) : Prop where
  reached : (machine sample).Reachable v
  inv : Inv sample v m
  first : m ⟨0, 8⟩ = some (0, kKeyMin)
  leaf : v.leafEnd ⟨0, 8⟩ = some 2800
  high : 3 ≤ v.rootLevel

section Tall

variable {v : State} {m : Chart}

theorem Tall.root (h : Tall v m) : ∃ l, m v.rootPtr = some (l + 1, kKeyMin) := by
  obtain ⟨top, hroot, -⟩ := h.inv.top
  obtain ⟨page, hpage, hok⟩ := h.inv.shape.page _ _ _ hroot
  have hlevel : v.rootLevel = top := by
    unfold State.rootLevel
    rw [hpage]
    exact hok.level
  have hhigh := h.high
  exact ⟨top - 1, by rw [hroot, show top - 1 + 1 = top by omega]⟩

/-- No other leaf begins before the end of the first. -/
theorem Tall.first_only (h : Tall v m) {a : GlobalAddress} {x : Nat} (ha : m a = some (0, x))
    (hx : x < 2800) : x = kKeyMin := by
  obtain ⟨leaf, hleaf, hend⟩ := leafEnd_eq h.leaf
  have hcontent : v.content sample ⟨0, 8⟩ = some (.leaf leaf) :=
    ((reachable_landed rfl h.reached).content _).trans hleaf
  obtain ⟨y, hcovers⟩ := h.inv.shape.covers ha
  by_contra hne
  have hlt : kKeyMin < x := Nat.pos_of_ne_zero hne
  have hbefore := (h.inv.shape.tiling 0).apart ⟨h.first, _, hcontent, hend⟩ hcovers hlt
  omega

/-- A page of level 1 that begins before the end of the first leaf covers all of it. -/
theorem Tall.covering (h : Tall v m) {p : GlobalAddress} {y : Nat} (hp : m p = some (1, y))
    (hy : y < 2800) : y = kKeyMin ∧ ∃ page : InternalPage, v.mem p = some (.internal page) ∧
      (Page.internal page).Ok m 1 kKeyMin ∧ 2800 ≤ page.hdr.highest := by
  have hchild : ∀ {q : GlobalAddress} {z : Nat}, m q = some (1, z) → z < 2800 → z = kKeyMin := by
    intro q z hq hz
    obtain ⟨page, -, hok⟩ := h.inv.shape.page _ _ _ hq
    obtain ⟨ipage, rfl, hint⟩ := hok.internal
    have hlow : ipage.hdr.lowest = z := hok.lowest
    have hfirst := hint.leftmost
    rw [hlow] at hfirst
    exact h.first_only hfirst hz
  obtain rfl := hchild hp hy
  obtain ⟨page, hpage, hok⟩ := h.inv.shape.page _ _ _ hp
  obtain ⟨ipage, rfl, hint⟩ := hok.internal
  refine ⟨rfl, ipage, hpage, hok, ?_⟩
  by_contra hshort
  have hrange : kKeyMin < ipage.hdr.highest := hok.range
  have hmax : ipage.hdr.highest ≠ kKeyMax := by
    unfold kKeyMax
    omega
  have hnext := hchild (hok.next hmax) (Nat.not_le.mp hshort)
  have hnext : ipage.hdr.highest = kKeyMin := hnext
  omega

/-- From an internal page an insert goes to the right, down, or to the leaf it has found. -/
theorem afterSearch_insert {page : Page} {x : Local} {p : GlobalAddress} {l y k w : Nat}
    {result : Option SearchResult} (hnull : m .Null = none) (hop : x.op = .insert k w)
    (hfound : Found m page (l + 1) y k false result) :
    (∃ q z, afterSearch x p (.leaf none) result = .descend q (.leaf none) ∧
      m q = some (l + 1, z) ∧ z ≤ k ∧ page.hdr.highest ≤ k) ∨
    (∃ q below z, afterSearch x p (.leaf none) result = .descend q (.leaf none) ∧ l = below + 1 ∧
      m q = some (l, z) ∧ z ≤ k) ∨
    (l = 0 ∧ ∃ q, afterSearch x p (.leaf none) result = .lock q (.leafStore none)) := by
  cases hfound with
  | stale hcache hk => cases hcache
  | right sibling hk hsib =>
      refine Or.inl ⟨sibling, _, ?_, hsib, hk, hk⟩
      simp only [afterSearch, hop]
      rw [if_neg (by simp), if_neg (Nat.succ_ne_zero l), if_pos (ne_null hnull hsib)]
  | leaf lpage val hl hk hpage hval hnone => cases hl
  | child below z q hl hq hyz hzk =>
      cases hl
      simp only [afterSearch, hop]
      rw [if_neg Bool.false_ne_true, if_neg (Nat.succ_ne_zero l), if_neg (not_not_intro rfl)]
      cases l with
      | zero => exact Or.inr (Or.inr ⟨rfl, q, if_neg (by decide)⟩)
      | succ below => exact Or.inr (Or.inl ⟨q, below, z, if_pos (by omega), rfl, hq, hzk⟩)

/-- `path_stack` with `p` on level `l`. -/
def Local.noted (x : Local) (l : Nat) (p : GlobalAddress) : Local :=
  { x with path := Function.update x.path l p }

/-- A page that is no leaf is read. -/
theorem pageRead_internal {s : State} {c : Client} {p : GlobalAddress} {goal : Goal}
    {page : InternalPage} {result : Option SearchResult} (hpage : s.mem p = some (.internal page))
    (hconsistent : (Page.internal page).consistent = true)
    (hresult : pageSearch (.internal page) (goal.key (s.clients c).op) goal.fromCache = .ok result) :
    pageRead s c p goal =
      if page.hdr.level = 1 ∧ (s.directory c.node).enableCache then
        { (s.clients c).noted page.hdr.level p with pc := .caching p page goal }
      else { (s.clients c).noted page.hdr.level p with
        pc := afterSearch ((s.clients c).noted page.hdr.level p) p goal result } := by
  simp only [pageRead, hpage, hconsistent, if_true]
  simp only [hresult]
  rfl

end Tall

/-! ### The insert -/

/-- On the way to the leaf of 50, from the root down. -/
def Approach (m : Chart) : Pc → Prop
  | .start | .getRoot .operation | .readRoot .operation => True
  | .descend p (.leaf none) => ∃ l y, m p = some (l + 1, y) ∧ y ≤ 50
  | _ => False

/-- The insert has changed nothing yet, and not come to level 1. -/
structure Seeking (v : State) (m : Chart) (s : State) : Prop where
  mem : s.mem = v.mem
  rootPtr : s.rootPtr = v.rootPtr
  cache : s.cache 0 = []
  enabled : (s.directory 0).enableCache = true
  op : (s.clients ⟨0, 0⟩).op = .insert 50 7
  approach : Approach m (s.clients ⟨0, 0⟩).pc

/-- The insert has found its leaf; the page above was copied as it was before. -/
structure Sought (m : Chart) (s : State) : Prop where
  past : (s.clients ⟨0, 0⟩).pc.past = true
  cache : ∃ page : InternalPage, s.cache 0 = [⟨kKeyMin, page.hdr.highest - 1, some page⟩] ∧
    (Page.internal page).Ok m 1 kKeyMin ∧ 2800 ≤ page.hdr.highest

section Insert

variable {v s : State} {m m' : Chart} {top : Nat}

theorem Seeking.setClient (h : Seeking v m s) {x : Local} (hop : x.op = .insert 50 7)
    (hpc : Approach m x.pc) : Seeking v m (s.setClient ⟨0, 0⟩ x) :=
  ⟨h.mem, h.rootPtr, h.cache, h.enabled, by rw [setClient_self]; exact hop,
    by rw [setClient_self]; exact hpc⟩

/-- The insert has the root. -/
theorem Seeking.rooted (hv : Tall v m) (h : Seeking v m s) {root : GlobalAddress}
    (hroot : root = s.rootPtr) :
    Seeking v m (s.setClient ⟨0, 0⟩ (Tree.rooted (s.clients ⟨0, 0⟩) root .operation)) := by
  obtain ⟨l, hl⟩ := hv.root
  rw [hroot, h.rootPtr]
  unfold Tree.rooted
  rw [h.op]
  exact h.setClient rfl ⟨l, kKeyMin, hl, Nat.zero_le _⟩

/-- The way down goes on, or ends at the leaf, once the page above it is copied. -/
theorem Seeking.descend (hv : Tall v m) (h : Seeking v m s) {p : GlobalAddress}
    (hpc : (s.clients ⟨0, 0⟩).pc = .descend p (.leaf none)) :
    ∃ s', s'.uncached = s.uncached.setClient ⟨0, 0⟩ (pageRead s.uncached ⟨0, 0⟩ p (.leaf none)) ∧
      (machine sample).Path (OnlyCalls ⟨0, 0⟩) s s' ∧ (Seeking v m s' ∨ Sought m s') := by
  have happroach := h.approach
  rw [hpc] at happroach
  obtain ⟨l, y, hp, hy⟩ := happroach
  obtain ⟨page, hpage, hok⟩ := hv.inv.shape.page _ _ _ hp
  obtain ⟨ipage, rfl, hint⟩ := hok.internal
  have hlevel : ipage.hdr.level = l + 1 := hok.level
  rw [← h.mem] at hpage
  have hkey : Goal.key (s.clients ⟨0, 0⟩).op (.leaf none) = 50 := by
    rw [h.op]
    rfl
  obtain ⟨result, hresult, hfound⟩ : ∃ result, pageSearch (.internal ipage) 50 false = .ok result ∧
      Found m (.internal ipage) (l + 1) y 50 false result :=
    pageSearch_spec hok hv.inv.shape.null hy (by decide) (fun heq => by cases heq)
  rw [← hkey] at hresult
  generalize hx : (s.clients ⟨0, 0⟩).noted ipage.hdr.level p = x
  have hop : x.op = .insert 50 7 := hx ▸ h.op
  have hoff : pageRead s.uncached ⟨0, 0⟩ p (.leaf none) =
      { x with pc := afterSearch x p (.leaf none) result } := by
    rw [← hx]
    exact (pageRead_internal (s := s.uncached) hpage hok.consistent hresult).trans
      (if_neg fun hcache => Bool.false_ne_true hcache.2)
  have hon := pageRead_internal (c := ⟨0, 0⟩) (p := p) hpage hok.consistent hresult
  rw [hx] at hon
  rw [hoff]
  have hrun : ∀ waiter, (machine sample).step s (.run ⟨0, 0⟩ .Null waiter) =
      some (s.setClient ⟨0, 0⟩ (pageRead s ⟨0, 0⟩ p (.leaf none))) := by
    intro waiter
    show runClient sample s ⟨0, 0⟩ .Null waiter = _
    simp only [runClient, hpc]
  -- above level 1 nothing is copied
  have hgo : ∀ q, l ≠ 0 → afterSearch x p (.leaf none) result = .descend q (.leaf none) →
      Approach m (.descend q (.leaf none)) → ∃ s', s'.uncached = s.uncached.setClient ⟨0, 0⟩
        { x with pc := afterSearch x p (.leaf none) result } ∧
      (machine sample).Path (OnlyCalls ⟨0, 0⟩) s s' ∧ (Seeking v m s' ∨ Sought m s') := by
    intro q hl hafter happroach
    have hread : pageRead s ⟨0, 0⟩ p (.leaf none) =
        { x with pc := afterSearch x p (.leaf none) result } :=
      hon.trans (if_neg fun hcache => hl (by omega))
    refine ⟨_, ?_, .single (.run ⟨0, 0⟩ .Null none) (fun d op heq => by cases heq) (hrun none),
      Or.inl ?_⟩
    · rw [hread]
      rfl
    · rw [hread, hafter]
      exact h.setClient hop happroach
  rcases afterSearch_insert (p := p) hv.inv.shape.null hop hfound with
    ⟨q, z, hafter, hq, hz, hright⟩ | ⟨q, below, z, hafter, hl, hq, hz⟩ | ⟨rfl, q, hafter⟩
  · refine hgo q ?_ hafter ⟨l, z, hq, hz⟩
    rintro rfl
    obtain ⟨-, page, hpage', -, hlong⟩ := hv.covering hp (by omega)
    rw [← h.mem, hpage] at hpage'
    cases hpage'
    have hright : ipage.hdr.highest ≤ 50 := hright
    omega
  · exact hgo q (by omega) hafter ⟨below, z, hl ▸ hq, hz⟩
  · obtain ⟨rfl, page, hpage', hok', hlong⟩ := hv.covering hp (by omega)
    rw [← h.mem, hpage] at hpage'
    cases hpage'
    -- the page is copied first
    have hread : pageRead s ⟨0, 0⟩ p (.leaf none) = { x with pc := .caching p ipage (.leaf none) } :=
      hon.trans (if_pos ⟨hlevel, h.enabled⟩)
    have hfirst := hrun none
    rw [hread] at hfirst
    generalize hs₁ : s.setClient ⟨0, 0⟩ { x with pc := .caching p ipage (.leaf none) } = s₁ at hfirst
    have hclient : s₁.clients ⟨0, 0⟩ = { x with pc := .caching p ipage (.leaf none) } := by
      rw [← hs₁]
      exact setClient_self ..
    have hcaching : (machine sample).step s₁ (.run ⟨0, 0⟩ .Null none) =
        some ((s₁.setCache 0 ((s₁.cache 0).addToCache ipage)).setPc ⟨0, 0⟩
          (afterSearch x p (.leaf none) result)) := by
      show runClient sample s₁ ⟨0, 0⟩ .Null none = _
      rw [← hx] at hclient
      simp only [runClient, hclient, caching]
      rw [show pageSearch (.internal ipage) (Goal.key ((s.clients ⟨0, 0⟩).noted _ p).op
        (.leaf none)) (Goal.leaf none).fromCache = .ok result from hresult]
      rw [← hx]
      rfl
    refine ⟨_, ?_, (System.Path.single (.run ⟨0, 0⟩ .Null none) (fun d op heq => by cases heq)
      hfirst).tail (.run ⟨0, 0⟩ .Null none) (fun d op heq => by cases heq) hcaching,
      Or.inr ⟨?_, ipage, ?_, hok', hlong⟩⟩
    · subst hs₁
      refine congrArg (fun clients => { s.uncached with clients := clients }) ?_
      show Function.update (Function.update s.clients ⟨0, 0⟩ _) ⟨0, 0⟩
        { (s.setClient ⟨0, 0⟩ { x with pc := .caching p ipage (.leaf none) }).clients ⟨0, 0⟩ with
          pc := _ } = _
      rw [hclient]
      exact Function.update_idem ..
    · rw [setPc_self, hafter]
      rfl
    · have hcache : s₁.cache 0 = [] := by
        rw [← hs₁]
        exact h.cache
      rw [hcache]
      show Function.update s₁.cache 0 _ 0 = _
      rw [Function.update_self]
      have hlow : ipage.hdr.lowest = kKeyMin := hok'.lowest
      rw [← hlow]
      rfl

/-- The insert takes a step towards its leaf. -/
theorem Seeking.run (hv : Tall v m) (h : Seeking v m s)
    (hsolo : Solo sample ⟨0, 0⟩ s.uncached m' top) {fresh : GlobalAddress} {waiter : Option Client}
    {t : State} (hstep : runClient sample s.uncached ⟨0, 0⟩ fresh waiter = some t) :
    ∃ s', s'.uncached = t ∧ (machine sample).Path (OnlyCalls ⟨0, 0⟩) s s' ∧
      (Seeking v m s' ∨ Sought m s') := by
  have happroach := h.approach
  have hown : ∀ {s'}, runClient sample s ⟨0, 0⟩ fresh waiter = some s' →
      (machine sample).Path (OnlyCalls ⟨0, 0⟩) s s' := fun hrun =>
    .single (.run ⟨0, 0⟩ fresh waiter) (fun d op heq => by cases heq) hrun
  cases hpc : (s.clients ⟨0, 0⟩).pc with
  | start =>
      have hstart : start s ⟨0, 0⟩ = .getRoot .operation := by
        simp only [start, h.cache, h.op]
        rw [show IndexCache.searchFromCache [] (Op.insert 50 7).key = none from rfl, ite_self]
      have hoff := hsolo.alone.start_off
      simp only [runClient, show s.uncached.clients = s.clients from rfl, hpc, hoff,
        Option.some.injEq] at hstep
      refine ⟨s.setPc ⟨0, 0⟩ (.getRoot .operation), hstep, hown ?_, Or.inl (h.setClient h.op trivial)⟩
      simp only [runClient, hpc, hstart]
  | getRoot use =>
      rw [hpc] at happroach
      cases use with
      | operation =>
          rw [run_uncached (Or.inr (Or.inl ⟨_, hpc⟩))] at hstep
          obtain ⟨s', hrun, hview⟩ := Option.map_eq_some_iff.mp hstep
          refine ⟨s', hview, hown hrun, Or.inl ?_⟩
          have hturn := run_turned hrun
          rw [hpc] at hturn
          cases hturn with
          | toRead use hroot => exact h.setClient h.op trivial
          | known use hroot =>
              refine h.rooted hv (hsolo.current.known (fun r hr => ?_) 0 hroot)
              rw [show s.uncached.clients = s.clients from rfl, hpc] at hr
              cases hr
      | _ => exact happroach.elim
  | readRoot use =>
      rw [hpc] at happroach
      cases use with
      | operation =>
          rw [run_uncached (Or.inr (Or.inr ⟨_, hpc⟩))] at hstep
          obtain ⟨s', hrun, hview⟩ := Option.map_eq_some_iff.mp hstep
          refine ⟨s', hview, hown hrun, Or.inl ?_⟩
          have hturn := run_turned hrun
          rw [hpc] at hturn
          cases hturn with
          | readRoot use => exact h.rooted hv rfl
      | _ => exact happroach.elim
  | descend p goal =>
      rw [hpc] at happroach
      cases goal with
      | parent k w level => exact happroach.elim
      | leaf cached =>
          cases cached with
          | some entry => exact happroach.elim
          | none =>
              simp only [runClient, show s.uncached.clients = s.clients from rfl, hpc,
                Option.some.injEq] at hstep
              rw [← hstep]
              exact h.descend hv hpc
  | _ =>
      rw [hpc] at happroach
      exact happroach.elim

end Insert

/-! ### With the cache and without it -/

section Mirrored

variable {v s : State} {m m' : Chart} {top : Nat} {t t' : Session}

/-- The cache stays as it is after the descent. -/
theorem Sought.run (h : Sought m s) (hsolo : Solo sample ⟨0, 0⟩ s.uncached m' top)
    {fresh : GlobalAddress} {waiter : Option Client} {u : State}
    (hstep : runClient sample s.uncached ⟨0, 0⟩ fresh waiter = some u) :
    ∃ s', s'.uncached = u ∧ (machine sample).Path (OnlyCalls ⟨0, 0⟩) s s' ∧ Sought m s' := by
  obtain ⟨m'', top', hsolo', -⟩ := hsolo.run hstep
  rw [run_uncached (Or.inl h.past)] at hstep
  obtain ⟨s', hrun, rfl⟩ := Option.map_eq_some_iff.mp hstep
  have hstraight : Straight m' s.rootPtr top (s.clients ⟨0, 0⟩) (s.clients ⟨0, 0⟩).pc :=
    hsolo.current.straight
  have hrunning : ∀ why, (s'.clients ⟨0, 0⟩).pc ≠ .failed why := hsolo'.growing.running ⟨0, 0⟩
  have hcache : s'.cache = s.cache := by
    have hpast := h.past
    refine run_cache hrun (fun p page goal hpc => ?_) (fun entry hpc => ?_) <;>
    · rw [hpc] at hpast
      cases hpast
  exact ⟨s', rfl, .single (.run ⟨0, 0⟩ fresh waiter) (fun d op heq => by cases heq) hrun,
    past_run hstraight h.past hrunning hrun, hcache ▸ h.cache⟩

/-- State `s` of the tree, with its cache on, is where the session is. -/
structure Mirrored (v : State) (m : Chart) (t : Session) (s : State) : Prop where
  view : s.uncached = t.state
  run : (machine sample).Path (OnlyCalls ⟨0, 0⟩) v s
  phase : Seeking v m s ∨ Sought m s

/-- **What the session does, the tree with its cache on does as well.** -/
theorem Mirrored.step (hv : Tall v m) (h : Mirrored v m t s)
    (hsolo : Solo sample ⟨0, 0⟩ t.state m' top) {action : Action} (hserving : Serving t action)
    (hstep : t.step sample ⟨0, 0⟩ action = some t') : ∃ s', Mirrored v m t' s' := by
  obtain ⟨hview, hpath, hphase⟩ := h
  rw [← hview] at hsolo
  rcases Session.step_cases hstep with ⟨op, rfl, -⟩ | ⟨d, fresh, waiter, rfl, -, -, hrun⟩ |
    ⟨l, rfl, -, hland⟩ | ⟨message, u, rfl, -, hdeliver, hu⟩
  · exact absurd rfl (hserving _ op)
  · rw [← hview] at hrun
    have hdc := hsolo.alone.eq_of_run hrun
    subst hdc
    rcases hphase with hseeking | hsought
    · obtain ⟨s', hview', hpath', hphase'⟩ := hseeking.run hv hsolo hrun
      exact ⟨s', hview', hpath.trans hpath', hphase'⟩
    · obtain ⟨s', hview', hpath', hsought'⟩ := hsought.run hsolo hrun
      exact ⟨s', hview', hpath.trans hpath', Or.inr hsought'⟩
  · rw [← hview, land_uncached] at hland
    obtain ⟨s', hs', hview'⟩ := Option.map_eq_some_iff.mp hland
    have hlanded : Landed s := reachable_landed rfl (hv.reached.path (hpath.mono fun _ _ _ => trivial))
    refine ⟨s', hview', hpath.tail (.land l) (fun d op heq => by cases heq) hs', ?_⟩
    rw [hlanded.land hs']
    exact hphase.imp (fun h => ⟨h.mem, h.rootPtr, h.cache, h.enabled, h.op, h.approach⟩)
      fun h => ⟨h.past, h.cache⟩
  · rw [← hview] at hdeliver
    have hmap : (Tree.step sample s (.deliver message)).map State.uncached = some t'.state := by
      rw [← deliver_uncached, hdeliver, hu]
      rfl
    obtain ⟨s', hs', hview'⟩ := Option.map_eq_some_iff.mp hmap
    refine ⟨s', hview', hpath.tail (.deliver message) (fun d op heq => by cases heq) hs', Or.inr ?_⟩
    obtain ⟨n, a, l⟩ := message
    rcases hphase with hseeking | hsought
    · -- there is nothing to be delivered
      have happroach := hseeking.approach
      rcases hsolo.current.quiet with hquiet | ⟨r, hr⟩
      · have hnone : s.messages = [] := hquiet
        simp only [Tree.step, hnone, List.not_mem_nil, if_false] at hs'
        cases hs'
      · rw [show (s.clients ⟨0, 0⟩).pc = .idle r from hr] at happroach
        exact happroach.elim
    · obtain ⟨-, -, hcache, -⟩ := deliver_frame hs'
      exact ⟨clients_of_deliver hs' ▸ hsought.past, hcache ▸ hsought.cache⟩

/-- The session that goes through brings the tree with its cache on to where it gets. -/
theorem Mirrored.path (hv : Tall v m) (h : Mirrored v m t s)
    (ht : (sequential sample ⟨0, 0⟩).Reachable t)
    (hpath : (sequential sample ⟨0, 0⟩).Path Serving t t') :
    (sequential sample ⟨0, 0⟩).Reachable t' ∧ t'.calls = t.calls ∧ ∃ s', Mirrored v m t' s' := by
  refine hpath.invariant (I := fun t' => (sequential sample ⟨0, 0⟩).Reachable t' ∧
    t'.calls = t.calls ∧ ∃ s', Mirrored v m t' s') ⟨ht, rfl, s, h⟩ ?_
  rintro u action u' ⟨hu, hcalls, s', h'⟩ hserving hstep
  obtain ⟨m', top, hserved⟩ := reachable_served hu
  refine ⟨hu.tail action trivial hstep, ?_, h'.step hv hserved.toSolo hserving hstep⟩
  rcases Session.step_cases hstep with ⟨op, rfl, -⟩ | ⟨d, fresh, waiter, -, -, heq, -⟩ |
    ⟨l, -, heq, -⟩ | ⟨message, w, -, heq, -⟩
  · exact absurd rfl (hserving _ op)
  all_goals exact heq.trans hcalls

end Mirrored

/-! ### The split -/

/-- The cache is turned on, while it is empty. -/
theorem exists_cacheOn : ∃ (v : State) (m : Chart) (t : Session), Tall v m ∧
    (machine sample).ReachableBy (OnlyCalls ⟨0, 0⟩) v ∧
    (∃ r, (v.clients ⟨0, 0⟩).pc = .idle r) ∧ (v.directory 0).enableCache = true ∧
    (∀ n, v.cache n = []) ∧ v.messages = [] ∧ (sequential sample ⟨0, 0⟩).Reachable t ∧
    t.state = v.uncached ∧ ∃ keys, t.calls = insertAll keys ∧ ∀ k ∈ crowdKeys, k ∈ keys := by
  obtain ⟨u₀, hshallow₀, hcrowded₀, hreturned₀, hlow₀⟩ := exists_crowded
  obtain ⟨u, hshallow, hcrowded, hidle, hlevel, hmessages, -⟩ :=
    hshallow₀.tall reachable_sample_init hcrowded₀ (by decide) hreturned₀ hlow₀
  have hhigh : 3 ≤ u.state.rootLevel := Nat.le_of_eq hlevel.symm
  obtain ⟨v, hdeliver, -, hon, hquiet⟩ := hshallow.cacheOn hhigh hmessages
  obtain ⟨hmem, hroot, hcache, -, -⟩ := deliver_frame hdeliver
  have hclients := clients_of_deliver hdeliver
  have hrun : (machine sample).Path (OnlyCalls ⟨0, 0⟩) (State.init ⟨0, 8⟩) v :=
    hshallow.run.tail (.deliver (0, u.state.rootPtr, u.state.rootLevel))
      (fun d op heq => by cases heq) hdeliver
  obtain ⟨m, hle, hinv⟩ := (inv_init sample (by decide : (⟨0, 8⟩ : GlobalAddress) ≠ .Null)).path hrun
  have hempty : ∀ n, v.cache n = [] := fun n => by rw [hcache]; exact hshallow.cache n
  have hsession : (sequential sample ⟨0, 0⟩).step u
      (.deliver (0, u.state.rootPtr, u.state.rootLevel)) = some ⟨v.cacheOff, u.calls⟩ := by
    show Session.step sample ⟨0, 0⟩ u (.deliver (0, u.state.rootPtr, u.state.rootLevel)) = _
    simp only [Session.step, hdeliver]
    rfl
  refine ⟨v, m, ⟨v.cacheOff, u.calls⟩, ?_, ⟨_, ⟨⟨0, 8⟩, by decide, rfl⟩, hrun⟩, ?_, hon, hempty, hquiet,
    hshallow.session.tail _ trivial hsession, (uncached_eq hempty).symm, hcrowded.calls⟩
  · refine ⟨⟨_, ⟨⟨0, 8⟩, by decide, rfl⟩, hrun.mono fun _ _ _ => trivial⟩, hinv,
      hle _ _ (if_pos rfl), ?_, ?_⟩
    · unfold State.leafEnd
      rw [hmem]
      exact hcrowded.leaf
    · unfold State.rootLevel
      rw [hmem, hroot]
      exact hhigh
  · exact ⟨_, hclients ▸ hidle⟩

/-- The insert of 50 is made, and returns. -/
theorem exists_sought : ∃ (v : State) (m : Chart) (s : State), Tall v m ∧
    (machine sample).Path (OnlyCalls ⟨0, 0⟩) v s ∧
    (machine sample).ReachableBy (OnlyCalls ⟨0, 0⟩) s ∧
    (∃ r, (s.clients ⟨0, 0⟩).pc = .idle r) ∧ Sought m s ∧
    ∀ k ∈ 50 :: crowdKeys, Pairs (s.content sample) s.rootPtr k 7 := by
  obtain ⟨v, m, t, hv, hrun, ⟨r, hidle⟩, hon, hempty, hquiet, ht, hview, keys, hkeys, hcrowd⟩ :=
    exists_cacheOn
  obtain ⟨v₁, hv₁⟩ : ∃ v₁, v₁ = v.setClient ⟨0, 0⟩ { v.clients ⟨0, 0⟩ with
    op := .insert 50 7, path := fun _ => .Null, pc := .start } := ⟨_, rfl⟩
  have hcall : Tree.step sample v (.call ⟨0, 0⟩ (.insert 50 7)) = some v₁ := by
    simp only [Tree.step, hidle, hv₁]
    exact if_pos (by decide)
  have hsession : (sequential sample ⟨0, 0⟩).step t (.call ⟨0, 0⟩ (.insert 50 7)) =
      some ⟨v₁.uncached, .insert 50 7 :: t.calls⟩ := by
    show Session.step sample ⟨0, 0⟩ t (.call ⟨0, 0⟩ (.insert 50 7)) = _
    have hnone : t.state.messages = [] := by
      rw [hview]
      exact hquiet
    simp only [Session.step, hnone, and_self, if_true]
    rw [hview, call_uncached, hcall]
    rfl
  have ht₁ := ht.tail _ trivial hsession
  have hcalled : (machine sample).Path (OnlyCalls ⟨0, 0⟩) v v₁ :=
    .single (.call ⟨0, 0⟩ (.insert 50 7)) (fun d op heq => by cases heq; rfl) hcall
  have hmirrored : Mirrored v m ⟨v₁.uncached, .insert 50 7 :: t.calls⟩ v₁ := by
    refine ⟨rfl, hcalled, Or.inl ?_⟩
    subst hv₁
    refine ⟨rfl, rfl, hempty 0, hon, ?_, ?_⟩ <;> rw [setClient_self]
    · trivial
  obtain ⟨m₁, top, hserved₁⟩ := reachable_served ht₁
  obtain ⟨t', hpath, hreturned⟩ := hserved₁.toSolo.returns.exists_path
  obtain ⟨ht', hcalls, s, hview', hrun', hphase⟩ := hmirrored.path hv ht₁ hpath
  obtain ⟨m', top', hserved'⟩ := reachable_served ht'
  have hdone := hreturned.1
  rw [← hview'] at hdone
  refine ⟨v, m, s, hv, hrun', hrun.path hrun', hdone, ?_, fun k hk => ?_⟩
  · rcases hphase with hseeking | hsought
    · obtain ⟨r', hr'⟩ := hdone
      have happroach := hseeking.approach
      rw [show (s.clients ⟨0, 0⟩).pc = .idle r' from hr'] at happroach
      exact happroach.elim
    · exact hsought
  · have hall : t'.calls = insertAll (50 :: keys) := by
      rw [hcalls, hkeys]
      rfl
    have hholds := hserved'.holds_inserted hreturned hall (k := k) (by
      rcases List.mem_cons.mp hk with rfl | hk
      · exact List.mem_cons_self ..
      · exact List.mem_cons_of_mem _ (hcrowd k hk))
    have hpairs := (hserved'.growing.inv.pairs_iff k 7).mpr hholds
    rw [← hview'] at hpairs
    exact hpairs

/-- The keys of the first leaf, and one more. -/
def firstKeys : Finset Nat := (50 :: crowdKeys).toFinset.filter (· < 2800)

theorem card_firstKeys : firstKeys.card = kLeafCardinality := by decide +kernel

section Moved

variable {v s : State} {m : Chart}

/-- A key that was in the first leaf is not there any more. -/
theorem exists_moved {m' : Chart} (h : Inv sample s m') (hfirst : m' ⟨0, 8⟩ = some (0, kKeyMin))
    (hheld : ∀ k ∈ firstKeys, Pairs (s.content sample) s.rootPtr k 7) :
    ∃ k ∈ firstKeys, ∃ a e page, a ≠ ⟨0, 8⟩ ∧ m' a = some e ∧ s.content sample a = some page ∧
      page.Has k 7 := by
  obtain ⟨page, hpage, hok⟩ := h.shape.content_ok hfirst
  obtain ⟨leaf, rfl, hleaf⟩ := hok.leaf
  by_contra hnone
  have hin : firstKeys ⊆ ((leaf.records.filter LeafEntry.live).map LeafEntry.key).toFinset := by
    intro k hk
    obtain ⟨a, e, q, ha, hq, hhas⟩ := (h.pairs_iff k 7).mp (hheld k hk)
    have hself : a = ⟨0, 8⟩ := by
      by_contra hne
      exact hnone ⟨k, hk, a, e, q, hne, ha, hq, hhas⟩
    subst hself
    rw [hpage] at hq
    cases hq
    obtain ⟨r, hr, hlive, rfl, -⟩ := hhas
    exact List.mem_toFinset.mpr (List.mem_map_of_mem (List.mem_filter.mpr ⟨hr, hlive⟩))
  have hcard := Finset.card_le_card hin
  have hroom := card_leafKeys hleaf
  rw [card_firstKeys] at hcard
  omega

/-- The copy of the page above does not name the new leaf. -/
theorem Tall.not_named (hv : Tall v m) {m' : Chart} (hle : m.Le m') (h : Inv sample s m')
    {page : InternalPage} (hpage : (Page.internal page).Ok m 1 kKeyMin) {copies : List InternalPage}
    (hcopies : ∀ copy ∈ copies, copy = page) {k : Nat} (hk : k < 2800) {a : GlobalAddress}
    {e : Nat × Nat} {q : Page} (hne : a ≠ ⟨0, 8⟩) (ha : m' a = some e)
    (hq : s.content sample a = some q) (hhas : q.Has k 7) : named (s.seen sample) copies k = 0 := by
  refine List.countP_eq_zero.mpr fun child hchild hleafFor => ?_
  obtain ⟨copy, hcopy, hchild⟩ := List.mem_flatMap.mp hchild
  rw [hcopies copy hcopy] at hchild
  have hlow : page.hdr.lowest = kKeyMin := hpage.lowest
  rw [← hlow] at hpage
  obtain ⟨-, -, -, hstart, -, -⟩ := hv.inv.child_leaf hpage hchild
  obtain ⟨leaf, hcontent, -, hchart, hbegin, -⟩ := h.child_leaf (hpage.mono hle) hchild
  have hseen : (s.seen sample).mem child.ptr = some (.leaf leaf) := hcontent
  rw [leafFor_leaf hseen] at hleafFor
  obtain ⟨hkl, hkr⟩ := of_decide_eq_true hleafFor
  have hzero := hv.first_only hstart (by omega)
  rw [hzero] at hstart
  have hself := hv.inv.shape.inj hstart hv.first
  rw [hself] at hcontent hchart
  exact hne (h.shape.has_home hchart hcontent rfl (hbegin ▸ hkl) hkr ha hq hhas)

end Moved

/-! ### What the range query makes of it -/

/-- The live entries of the cache cover the range. -/
def CoversRange (cache : IndexCache) (start stop : Nat) : Prop :=
  ∀ k, start ≤ k → k ≤ stop → ∃ e ∈ cache, e.ptr ≠ none ∧ e.start ≤ k ∧ k ≤ e.last

open RangeQuery

/-- The records whose values `range_query(from, to)` on node `n` returns, while nobody changes the
tree. -/
def State.rangeTaken (cfg : Config) (s : State) (n start stop : Nat) : List LeafEntry :=
  recordsTaken start stop (fun _ => (s.seen cfg).records)
    ((s.cache n).searchRangeFromCache start stop)

/-- `range_query(from, to)` on node `n` returns the values of the keys of the range, each once. -/
structure RangeExact (cfg : Config) (s : State) (n start stop : Nat) : Prop where
  values : rangeQuery start stop (fun _ => (s.seen cfg).records)
    ((s.cache n).searchRangeFromCache start stop) =
      (s.rangeTaken cfg n start stop).map LeafEntry.value
  once : ((s.rangeTaken cfg n start stop).map LeafEntry.key).Nodup
  all : ∀ k v, (∃ r ∈ s.rangeTaken cfg n start stop, r.key = k ∧ r.value = v) ↔
    start ≤ k ∧ k ≤ stop ∧ Pairs (s.content cfg) s.rootPtr k v

section Exact

variable {cfg : Config} {s : State} {n start stop : Nat}

/-- A key is counted as often as it is repeated. -/
theorem count_repeated (times : Nat → Nat) (k : Nat) : ∀ {ks : List Nat}, ks.Nodup →
    (ks.flatMap fun x => List.replicate (times x) x).count k = if k ∈ ks then times k else 0 := by
  intro ks
  induction ks with
  | nil => exact fun _ => rfl
  | cons x ks ih =>
      intro hnodup
      obtain ⟨hx, hks⟩ := List.nodup_cons.mp hnodup
      rw [List.flatMap_cons, List.count_append, ih hks, List.count_replicate]
      by_cases hxk : x = k
      · subst hxk
        rw [if_neg hx, if_pos (beq_self_eq_true x), if_pos (List.mem_cons_self ..)]
        rfl
      · rw [if_neg (fun h => hxk (beq_iff_eq.mp h)), Nat.zero_add]
        exact if_congr ⟨List.mem_cons_of_mem _, fun h =>
          (List.mem_cons.mp h).resolve_left fun heq => hxk heq.symm⟩ rfl rfl

/-- **What `range_query` returns by way of the cache is exact if and only if the copies it finds
there name the leaf of each key of the range that is in the tree, and none twice.** -/
theorem range_query_cached (hs : (machine cfg).Reachable s) (n start stop : Nat) :
    RangeExact cfg s n start stop ↔ ∀ k v, start ≤ k → k ≤ stop →
      Pairs (s.content cfg) s.rootPtr k v →
        named (s.seen cfg) ((s.cache n).searchRangeFromCache start stop) k = 1 := by
  obtain ⟨m, h⟩ := reachable_inv hs
  obtain ⟨map, hmap⟩ := h.exists_map
  have hcopies : ∀ page ∈ (s.cache n).searchRangeFromCache start stop, CopyOf cfg s page :=
    fun page hpage => (copied_of_cache hs hpage).copyOf
  generalize hcopied : (s.cache n).searchRangeFromCache start stop = copies at hcopies ⊢
  have htaken : s.rangeTaken cfg n start stop =
      recordsTaken start stop (fun _ => (s.seen cfg).records) copies := by
    rw [← hcopied]
    rfl
  -- which records are taken, and how often a key is among them
  have hmem : ∀ k v, (∃ r ∈ s.rangeTaken cfg n start stop, r.key = k ∧ r.value = v) ↔
      start ≤ k ∧ k ≤ stop ∧ named (s.seen cfg) copies k ≠ 0 ∧ map k = some v := by
    intro k v
    have hperm := @taken_copies_perm cfg s start stop copies _ Prod.mk map hmap hcopies
    have hpair := hperm.mem_iff (a := (k, v))
    rw [← htaken, List.mem_map, List.mem_filterMap] at hpair
    constructor
    · rintro ⟨r, hr, rfl, rfl⟩
      obtain ⟨k, hk, hv⟩ := hpair.mp ⟨r, hr, rfl⟩
      obtain ⟨w, hw, heq⟩ := Option.map_eq_some_iff.mp hv
      obtain ⟨hkey, hvalue⟩ := Prod.mk.inj heq
      obtain ⟨x, hx, hk⟩ := List.mem_flatMap.mp hk
      obtain ⟨hcount, rfl⟩ := List.mem_replicate.mp hk
      obtain ⟨hstart, hstop⟩ := mem_keys.mp hx
      rw [← hkey, ← hvalue]
      exact ⟨hstart, hstop, hcount, hw⟩
    · rintro ⟨hstart, hstop, hcount, hv⟩
      obtain ⟨r, hr, heq⟩ := hpair.mpr ⟨k, List.mem_flatMap.mpr ⟨k, mem_keys.mpr ⟨hstart, hstop⟩,
        List.mem_replicate.mpr ⟨hcount, rfl⟩⟩, by rw [hv]; rfl⟩
      exact ⟨r, hr, (Prod.mk.inj heq).1, (Prod.mk.inj heq).2⟩
  have hcount : ∀ k, ((s.rangeTaken cfg n start stop).map LeafEntry.key).count k =
      if (map k).isSome ∧ start ≤ k ∧ k ≤ stop then named (s.seen cfg) copies k else 0 := by
    intro k
    have hperm := @taken_copies_perm cfg s start stop copies _ (fun k _ => k) map hmap hcopies
    have hguard : (fun k => (map k).map fun _ => k) = Option.guard fun k => (map k).isSome := by
      funext k
      cases hk : map k <;> simp [Option.guard, hk]
    rw [hguard, List.filterMap_eq_filter, ← htaken] at hperm
    rw [hperm.count_eq]
    by_cases hsome : (map k).isSome = true
    · have hfilter := List.count_filter (p := fun k => (map k).isSome) hsome
        (l := (keys start stop).flatMap fun x => List.replicate (named (s.seen cfg) copies x) x)
      rw [hfilter, count_repeated _ _ nodup_keys]
      refine if_congr ?_ rfl rfl
      rw [mem_keys]
      exact ⟨fun h => ⟨hsome, h⟩, fun h => h.2⟩
    · rw [if_neg fun h => hsome h.1]
      exact List.count_eq_zero.mpr fun hin => hsome (List.mem_filter.mp hin).2
  constructor
  · intro hexact k v hstart hstop hpairs
    have hv := (hmap k v).mp hpairs
    obtain ⟨-, -, hnamed, -⟩ := (hmem k v).mp ((hexact.all k v).mpr ⟨hstart, hstop, hpairs⟩)
    have honce := List.nodup_iff_count_le_one.mp hexact.once k
    rw [hcount, if_pos ⟨by rw [hv]; rfl, hstart, hstop⟩] at honce
    omega
  · intro hnamed
    refine ⟨?_, List.nodup_iff_count_le_one.mpr fun k => ?_, fun k v => ?_⟩
    · rw [htaken, hcopied]
      exact rangeQuery_taken _
    · rw [hcount]
      split
      · rename_i hk
        obtain ⟨v, hv⟩ := Option.isSome_iff_exists.mp hk.1
        exact Nat.le_of_eq (hnamed k v hk.2.1 hk.2.2 ((hmap k v).mpr hv))
      · exact Nat.zero_le 1
    · rw [hmem, hmap]
      constructor
      · exact fun hk => ⟨hk.1, hk.2.1, hk.2.2.2⟩
      · rintro ⟨hstart, hstop, hv⟩
        have hone := hnamed k v hstart hstop ((hmap k v).mpr hv)
        exact ⟨hstart, hstop, by omega, hv⟩

/-- A tree in which the cache covers a key that is there, and no copy names its leaf. -/
theorem exists_stale : ∃ s k, (machine sample).ReachableBy (OnlyCalls ⟨0, 0⟩) s ∧
    (∃ r, (s.clients ⟨0, 0⟩).pc = .idle r) ∧ k < kKeyMax ∧ CoversRange (s.cache 0) k k ∧
    Pairs (s.content sample) s.rootPtr k 7 ∧
    named (s.seen sample) ((s.cache 0).searchRangeFromCache k k) k = 0 := by
  obtain ⟨v, m, s, hv, hpath, hs, hidle, ⟨-, page, hcache, hpage, hlong⟩, hpairs⟩ := exists_sought
  obtain ⟨m', hle, hinv⟩ := hv.inv.path hpath
  obtain ⟨k, hk, a, e, q, hne, ha, hq, hhas⟩ := exists_moved hinv (hle _ _ hv.first) fun k hk =>
    hpairs k (List.mem_toFinset.mp (Finset.mem_filter.mp hk).1)
  have hlow : k < 2800 := (Finset.mem_filter.mp hk).2
  refine ⟨s, k, hs, hidle, by unfold kKeyMax; omega, fun x hx hxk => ?_,
    (hinv.pairs_iff k 7).mpr ⟨a, e, q, ha, hq, hhas⟩,
    hv.not_named hle hinv hpage (fun copy hcopy => ?_) hlow hne ha hq hhas⟩
  · refine ⟨_, by rw [hcache]; exact List.mem_singleton_self _, Option.some_ne_none _,
      Nat.zero_le x, ?_⟩
    show x ≤ page.hdr.highest - 1
    omega
  · obtain ⟨entry, hentry, hptr⟩ := mem_searchRange hcopy
    rw [hcache, List.mem_singleton] at hentry
    rw [hentry] at hptr
    exact (Option.some_inj.mp hptr).symm

/-- A range of one key, which is in the tree and covered by the cache, and nothing is returned. -/
theorem range_query_stale : ∃ s k, (machine sample).ReachableBy (OnlyCalls ⟨0, 0⟩) s ∧
    (∃ r, (s.clients ⟨0, 0⟩).pc = .idle r) ∧ k < kKeyMax ∧ CoversRange (s.cache 0) k k ∧
    Pairs (s.content sample) s.rootPtr k 7 ∧
    rangeQuery k k (fun _ => (s.seen sample).records)
      ((s.cache 0).searchRangeFromCache k k) = [] := by
  obtain ⟨s, k, hs, hidle, hmax, hcovers, hpairs, hnamed⟩ := exists_stale
  refine ⟨s, k, hs, hidle, hmax, hcovers, hpairs, ?_⟩
  obtain ⟨m, h⟩ := reachable_inv hs.reachable
  obtain ⟨map, hmap⟩ := h.exists_map
  have hperm := @taken_copies_perm sample s k k ((s.cache 0).searchRangeFromCache k k) _
    (fun _ v => v) map hmap fun page hpage => (copied_of_cache hs.reachable hpage).copyOf
  have hkeys : keys k k = [k] := by
    unfold keys
    rw [show k + 1 - k = 1 by omega]
    rfl
  rw [hkeys, List.flatMap_singleton, hnamed] at hperm
  rw [rangeQuery_taken]
  exact hperm.eq_nil

theorem range_query_cached_stale : ∃ s k, (machine sample).ReachableBy (OnlyCalls ⟨0, 0⟩) s ∧
    CoversRange (s.cache 0) k k ∧ ¬ RangeExact sample s 0 k k := by
  obtain ⟨s, k, hs, -, -, hcovers, hpairs, hnamed⟩ := exists_stale
  refine ⟨s, k, hs, hcovers, fun hexact => ?_⟩
  have hone := (range_query_cached hs.reachable 0 k k).mp hexact k 7 (Nat.le_refl k) (Nat.le_refl k) hpairs
  omega

end Exact

end Dal.Tree
