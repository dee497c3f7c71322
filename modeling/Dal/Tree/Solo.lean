/-
The tree and its one client, together.

`Solo` is the invariant of a session: the tree is as it should be and has lost no separator,
the client is alone, it has come straight from the root, and the directories know the root
or have a message of it on its way.  Each step keeps it, and none fails.
-/
import Dal.Tree.Straight

namespace Dal.Tree

/-- The client and the directories know the root, whose level is `top`, or will. -/
structure Current (cfg : Config) (c : Client) (s : State) (m : Chart) (top : Nat) : Prop where
  root : m s.rootPtr = some (top, kKeyMin)
  straight : Straight m s.rootPtr top (s.clients c) (s.clients c).pc
  told : ∀ n, (s.directory n).rootPtr = .Null ∨ (s.directory n).rootPtr = s.rootPtr ∨
    (n, s.rootPtr, top) ∈ s.messages
  messages : ∀ n a l, (n, a, l) ∈ s.messages → n < cfg.machineNR ∧ a = s.rootPtr ∧ l = top
  quiet : s.messages = [] ∨ ∃ r, (s.clients c).pc = .idle r
  machines : ∀ n, cfg.machineNR ≤ n → (s.directory n).rootPtr = .Null

structure Solo (cfg : Config) (c : Client) (s : State) (m : Chart) (top : Nat) : Prop where
  growing : Growing cfg s m
  alone : Alone cfg c s
  current : Current cfg c s m top

section Root

variable {cfg : Config} {c : Client} {s : State} {m : Chart} {top : Nat}

theorem Solo.level_le (h : Solo cfg c s m top) {a : GlobalAddress} {l x : Nat}
    (ha : m a = some (l, x)) : l ≤ top := h.growing.inv.level_le h.current.root ha

/-- Of the pages on the root's level only the root is not waiting for its separator to be posted. -/
theorem Solo.top_page (h : Solo cfg c s m top) {p : GlobalAddress} {y : Nat}
    (hp : m p = some (top, y)) (hpending : (s.clients c).pc.pending ≠ some ⟨p, y, top + 1⟩) :
    p = s.rootPtr := by
  by_cases hy : y = kKeyMin
  · subst hy
    exact h.growing.inv.shape.inj hp h.current.root
  · rcases h.growing.known p top y hp hy with ⟨u, z, page, hu, -, -⟩ | ⟨d, hd⟩
    · exact absurd (h.level_le hu) (Nat.not_succ_le_self top)
    · by_cases hdc : d = c
      · subst hdc
        exact absurd hd hpending
      · obtain ⟨r, hr⟩ := h.alone.others d hdc
        rw [hr] at hd
        cases hd

/-- A page that is split is the root, or the client has come from the level above. -/
theorem Solo.parent (h : Solo cfg c s m top) {p : GlobalAddress} {task : Task} {y : Nat}
    (hfrom : FromRoot s.rootPtr top (s.clients c) task) (hp : m p = some (task.level, y))
    (hpending : (s.clients c).pc.pending ≠ some ⟨p, y, task.level + 1⟩) :
    (s.clients c).root = p ∨ HasParent (s.clients c) task := by
  by_cases hlevel : task.level = top
  · rw [hlevel] at hp hpending
    exact Or.inl (hfrom.root.trans (h.top_page hp hpending).symm)
  · have hle := h.level_le hp
    exact Or.inr (Or.inl (hfrom.path _ (Nat.lt_succ_self _) (by omega)))

theorem task_pending_level {task : Task} {a : GlobalAddress} {k : Nat} :
    task.pending ≠ some ⟨a, k, task.level + 1⟩ := by
  intro h
  cases task with
  | leafStore cached | leafDel cached => cases h
  | internalStore k' v level =>
      have hlevel : level = level + 1 := congrArg Pending.level (Option.some_inj.mp h)
      omega

/-- **One client alone never finishes a split on the level of an old root.** -/
theorem Solo.grows (h : Solo cfg c s m top) (fresh : GlobalAddress) (waiter : Option Client) :
    Grows cfg s (.run c fresh waiter) := by
  have hok := h.growing.inv.pc c
  have hstraight := h.current.straight
  have hparent := @Solo.parent cfg c s m top h
  show Finishes cfg s (s.clients c) waiter (s.clients c).pc
  cases hpc : (s.clients c).pc with
  | linked p task page sibling =>
      rw [hpc] at hok hstraight hparent
      obtain ⟨y, hy⟩ := TaskOk.level hok.1
      exact fun _ _ => hparent hstraight hy task_pending_level
  | unlock p mode after =>
      cases after with
      | split q task splitKey sibling =>
          rw [hpc] at hok hstraight hparent
          obtain ⟨-, -, ⟨y, hy, hyk, -⟩, -⟩ := hok
          refine hparent hstraight hy fun hpending => ?_
          have hkey : splitKey = y := congrArg Pending.key (Option.some_inj.mp hpending)
          omega
      | _ => trivial
  | casRoot p task splitKey sibling newRoot =>
      rw [hpc] at hstraight
      exact Or.inl hstraight.root.symm
  | _ => trivial

end Root

/-! ### One step -/

section Step

variable {cfg : Config} {c : Client} {s s' : State} {m : Chart} {top : Nat}

/-- The client reads a page of its descent, and knows where it leads. -/
theorem Solo.descend (h : Solo cfg c s m top) {p : GlobalAddress}
    (hpc : (s.clients c).pc = .descend p (.leaf none)) :
    ∃ l y result, m p = some (l, y) ∧
      pageRead s c p (.leaf none) = { s.clients c with
        path := Function.update (s.clients c).path l p
        pc := afterSearch { s.clients c with path := Function.update (s.clients c).path l p } p
          (.leaf none) result } ∧
      Led m l y { s.clients c with path := Function.update (s.clients c).path l p } p
        (afterSearch { s.clients c with path := Function.update (s.clients c).path l p } p
          (.leaf none) result) := by
  have hinv := h.growing.inv
  have hgoal : GoalOk m (s.directory c.node).enableCache (s.clients c) p (.leaf none) := by
    have hok := hinv.pc c
    rwa [hpc] at hok
  obtain ⟨l, y, page, hp, hpage, hok⟩ := GoalOk.page hinv hgoal
  have hspot := hgoal.spot hp
  obtain ⟨result, hresult, hfound⟩ := pageSearch_spec hok hinv.shape.null hspot.2.1
    (Op.key_lt (hinv.valid c)) hspot.2.2.2
  refine ⟨l, y, result, hp, ?_, afterSearch_led hinv.shape.null hok.range hfound⟩
  have hlevel := hok.level
  simp only [pageRead, hpage, hok.consistent, if_true, hlevel, hresult]
  cases page with
  | leaf lpage => rfl
  | internal ipage =>
      have hoff : ¬ (ipage.hdr.level = 1 ∧ (s.directory c.node).enableCache = true) := by
        rw [h.alone.cacheOff c.node]
        exact fun hcache => Bool.false_ne_true hcache.2
      exact if_neg hoff

/-- The client has read a page under its lock, and is done with it or goes right. -/
theorem Solo.after (h : Solo cfg c s m top) {p : GlobalAddress} {task : Task} {page : Page}
    {after : After} (hpc : (s.clients c).pc = .loaded p task page)
    (hafter : task.after (task.outcome (s.clients c).op page) = some after) :
    after = .done ∨ ∃ y sibling z, after = .right task sibling ∧ m p = some (task.level, y) ∧
      m sibling = some (task.level, z) ∧ y < z := by
  have hinv := h.growing.inv
  have hok := hinv.pc c
  have hstraight := h.current.straight
  rw [hpc] at hok hstraight
  obtain ⟨htask, hpage⟩ := hok
  have hheld : s.locks (cfg.lockAddr p) = .held c := hinv.held c _ (by rw [hpc]; rfl)
  have hplain : task.cached = false := by
    have hplain := hstraight.plain
    cases task with
    | leafStore cached | leafDel cached =>
        subst hplain
        rfl
    | internalStore k v level => rfl
  rcases hinv.outcome htask (by rw [hpc]; rfl) hheld hpage with
    ⟨x, lpage, hp, hxk, rfl, hpageOk, hlevel, -, hresult⟩ |
    ⟨x, ipage, below, k, v, hp, hxk, rfl, hpageOk, rfl, hresult⟩
  · generalize task.outcome (s.clients c).op (.leaf lpage) = out at hresult hafter
    cases hresult with
    | stale hcached hk =>
        rw [hplain] at hcached
        cases hcached
    | right hcached hk =>
        cases hafter
        have hkey := Op.key_lt (hinv.valid c)
        have hhigh : lpage.hdr.highest ≠ kKeyMax := by omega
        rw [hlevel]
        exact Or.inr ⟨x, _, _, rfl, hp, hpageOk.next hhigh, hpageOk.range⟩
    | entry i r hk hleaf hchanged => exact Or.inl (Option.some_inj.mp hafter).symm
    | absent hk hnone habsent => exact Or.inl (Option.some_inj.mp hafter).symm
    | split mid left right splitKey hk hdr hsplit hchanged hstored => cases hafter
  · obtain ⟨-, -, -, -, hkey, -⟩ := hinv.pending c ⟨v, k, below + 1⟩ (by rw [hpc]; rfl)
    generalize (Task.internalStore k v (below + 1)).outcome (s.clients c).op (.internal ipage) = out
      at hresult hafter
    cases hresult with
    | right hk =>
        cases hafter
        have hhigh : ipage.hdr.highest ≠ kKeyMax := by
          simp only at hk hkey
          omega
        exact Or.inr ⟨x, _, _, rfl, hp, hpageOk.next hhigh, hpageOk.range⟩
    | page page' hk hint hdr hrecords => exact Or.inl (Option.some_inj.mp hafter).symm
    | split left right splitKey hk hsplit => cases hafter

theorem Alone.start_off (h : Alone cfg c s) : start s c = .getRoot .operation := by
  unfold start
  simp only [h.cacheOff c.node]
  cases (s.clients c).op <;> rfl

theorem Alone.searchCache_off (h : Alone cfg c s) :
    searchCache s c = .descend (s.clients c).root (.leaf none) := by
  unfold searchCache
  simp only [h.cacheOff c.node]
  rfl

/-- A client at work has a directory that knows the root, or none. -/
theorem Current.known (h : Current cfg c s m top) (hbusy : ∀ r, (s.clients c).pc ≠ .idle r)
    (n : Nat) (hne : (s.directory n).rootPtr ≠ .Null) : (s.directory n).rootPtr = s.rootPtr := by
  rcases h.told n with hnull | hroot | hmessage
  · exact absurd hnull hne
  · exact hroot
  · rcases h.quiet with hquiet | ⟨r, hr⟩
    · rw [hquiet] at hmessage
      cases hmessage
    · exact absurd hr (hbusy r)

/-- The client stays on its way. -/
theorem Solo.straight (h : Solo cfg c s m top) {fresh : GlobalAddress} {waiter : Option Client}
    (hstep : runClient cfg s c fresh waiter = some s')
    (hrunning : ∀ why, (s'.clients c).pc ≠ .failed why) :
    Straight m s.rootPtr top (s'.clients c) (s'.clients c).pc := by
  have hturn := run_turned hstep
  have hstraight := h.current.straight
  have hset : ∀ (t : State) {pc : Pc}, t.clients = s.clients →
      Straight m s.rootPtr top (s.clients c) pc →
      Straight m s.rootPtr top ((t.setPc c pc).clients c) ((t.setPc c pc).clients c).pc := by
    intro t pc ht hpc
    rw [show (t.setPc c pc).clients c = { t.clients c with pc := pc } from setClient_self .., ht]
    exact hpc.setPc
  generalize hpc : (s.clients c).pc = pc at hturn hstraight
  cases hturn with
  | start =>
      rw [h.alone.start_off]
      exact hset _ rfl trivial
  | toRead use hroot => exact hset _ rfl (by cases use <;> exact hstraight)
  | known use hroot =>
      cases use with
      | operation =>
          rw [setClient_self, h.current.known (fun r hr => by rw [hpc] at hr; cases hr) _ hroot]
          exact straight_rooted h.current.root
      | _ => exact hstraight.elim
  | readRoot use =>
      cases use with
      | operation =>
          rw [setClient_self]
          exact straight_rooted h.current.root
      | _ => exact hstraight.elim
  | searchCache =>
      have hroot : (s.clients c).root = s.rootPtr := hstraight
      rw [h.alone.searchCache_off]
      exact hset _ rfl ⟨hroot, top, kKeyMin, hroot ▸ h.current.root, fun i hi htop => by omega⟩
  | descend p goal =>
      cases goal with
      | parent k v level => exact hstraight.elim
      | leaf cached =>
          cases cached with
          | some entry => exact hstraight.elim
          | none =>
              obtain ⟨l, y, result, hp, hread, hled⟩ := h.descend hpc
              obtain ⟨hroot, l', y', hp', hpath⟩ := hstraight
              rw [hp'] at hp
              cases hp
              rw [setClient_self, hread]
              refine (hled.straight hroot (hpath.record p) ?_).setPc
              show Function.update (s.clients c).path l p l ≠ .Null
              rw [Function.update_self]
              exact ne_null h.growing.inv.shape.null hp'
  | cachingError p page goal why herror | caching p page goal result hok | invalidate entry =>
      exact hstraight.elim
  | unmapped p task hmem => exact absurd (setPc_self _ _) (hrunning .unmapped)
  | fail p task page why hout => exact absurd (setPc_self _ _) (hrunning why)
  | lock p task hlock | read p task page hmem | split p task page left right splitKey hout hmem hnull
  | grow p task splitKey sibling hmem hnull
  | linked p task page left right splitKey sibling mode hout hmode => exact hset _ rfl hstraight
  | loaded p task page mode after async hafter hmode =>
      refine hset _ (by rw [commit_eq]) ?_
      rcases h.after hpc hafter with rfl | ⟨y, sibling, z, rfl, -⟩
      · trivial
      · exact hstraight
  | posting p task page left right splitKey sibling hout hasync =>
      have hunlock : Straight m s.rootPtr top (s.clients c)
          (.unlock p .async (.split p task splitKey sibling)) := hstraight
      refine hset _ rfl (straight_afterUnlock hunlock fun why hwhy => ?_)
      exact hrunning why ((setPc_self _ _).trans hwhy)
  | unlock p mode after =>
      refine hset _ rfl (straight_afterUnlock hstraight fun why hwhy => ?_)
      exact hrunning why ((setPc_self _ _).trans hwhy)
  | installed p task splitKey sibling newRoot hroot => exact hset _ rfl trivial
  | overtaken p task splitKey sibling newRoot hroot =>
      refine hset _ rfl (straight_postUp hstraight fun why hwhy => ?_)
      exact hrunning why ((setPc_self _ _).trans hwhy)

/-- The client takes a step. -/
theorem Solo.run (h : Solo cfg c s m top) {fresh : GlobalAddress} {waiter : Option Client}
    (hstep : runClient cfg s c fresh waiter = some s') :
    ∃ m' top', Solo cfg c s' m' top' ∧ Advance cfg s m s' m' (commits s (.run c fresh waiter)) := by
  have hgrows := h.grows fresh waiter
  have hrunning := h.growing.running_step hgrows hstep
  obtain ⟨m', hgrowing, hadv⟩ := h.growing.step hgrows hstep
  have halone := h.alone.run hstep (hrunning c)
  have hstraight := (h.straight hstep (hrunning c)).mono hadv.le
  obtain ⟨hdir, hshared⟩ := (run_turned hstep).shared
  have hbusy : ∀ r, (s.clients c).pc ≠ .idle r := by
    intro r hr
    simp only [runClient, hr] at hstep
    cases hstep
  have hquiet : s.messages = [] := by
    rcases h.current.quiet with hquiet | ⟨r, hr⟩
    · exact hquiet
    · exact absurd hr (hbusy r)
  rcases hshared with ⟨hroot, hmessages⟩ |
    ⟨p, task, k, sibling, root, hpc, hswap, hroot, hmem, hmessages, hidle⟩
  · refine ⟨m', top, ⟨hgrowing, halone, ?_, ?_, ?_, ?_, ?_, ?_⟩, hadv⟩
    · exact hroot ▸ hadv.le _ _ h.current.root
    · exact hroot ▸ hstraight
    · rw [hdir, hroot, hmessages]
      exact h.current.told
    · rw [hroot, hmessages]
      exact h.current.messages
    · exact Or.inl (hmessages.trans hquiet)
    · rw [hdir]
      exact h.current.machines
  · -- the new root is one level above the old one
    obtain ⟨-, htop'⟩ := h.growing.inv.install_level hadv.inv hpc hswap hroot hmem
    rw [← hroot] at htop'
    refine ⟨m', task.level + 1, ⟨hgrowing, halone, htop', ?_, ?_, ?_, ?_, ?_⟩, hadv⟩
    · rw [hidle]
      trivial
    · intro n
      rw [hdir, hroot, hmessages, hquiet]
      by_cases hn : n < cfg.machineNR
      · exact Or.inr (Or.inr (List.mem_map.mpr ⟨n, List.mem_range.mpr hn, rfl⟩))
      · exact Or.inl (h.current.machines n (Nat.le_of_not_lt hn))
    · intro n a l hm
      rw [hmessages, hquiet] at hm
      obtain ⟨i, hi, heq⟩ := List.mem_map.mp hm
      cases heq
      exact ⟨List.mem_range.mp hi, hroot.symm, rfl⟩
    · exact Or.inr ⟨_, hidle⟩
    · rw [hdir]
      exact h.current.machines

/-- The client makes a call, when all messages are processed. -/
theorem Solo.call (h : Solo cfg c s m top) {op : Op} (hquiet : s.messages = [])
    (hstep : step cfg s (.call c op) = some s') :
    Solo cfg c s' m top ∧ Advance cfg s m s' m none := by
  have hadv := h.growing.inv.call hstep
  have hgrows : Grows cfg s (.call c op) := trivial
  have hrunning := h.growing.running_step hgrows hstep
  refine ⟨⟨h.growing.advance hadv hrunning, h.alone.call hstep, ?_⟩, hadv⟩
  simp only [step] at hstep
  split at hstep
  · split at hstep
    · cases hstep
      refine ⟨h.current.root, ?_, h.current.told, h.current.messages, Or.inl hquiet,
        h.current.machines⟩
      rw [setClient_self]
      cases op <;> trivial
    · cases hstep
  · cases hstep

/-- A posted write is executed. -/
theorem Solo.land (h : Solo cfg c s m top) {l : LockAddr}
    (hstep : step cfg s (.land l) = some s') :
    Solo cfg c s' m top ∧ Advance cfg s m s' m none := by
  have hadv := h.growing.inv.land hstep
  have hgrows : Grows cfg s (.land l) := trivial
  have hrunning := h.growing.running_step hgrows hstep
  refine ⟨⟨h.growing.advance hadv hrunning, h.alone.land hstep, ?_⟩, hadv⟩
  simp only [step] at hstep
  split at hstep <;> cases hstep <;> exact ⟨h.current.root, h.current.straight, h.current.told,
    h.current.messages, h.current.quiet, h.current.machines⟩

/-- A directory processes a message, with the cache off. -/
theorem Inv.deliver_off (h : Inv cfg s m) (hoff : ∀ n, (s.directory n).enableCache = false)
    {message : Nat × GlobalAddress × Nat} (hstep : Tree.step cfg s (.deliver message) = some s') :
    Advance cfg s m s'.cacheOff m none := by
  obtain ⟨n, a, l⟩ := message
  simp only [Tree.step] at hstep
  split at hstep
  · rename_i hm
    cases hstep
    have hdir : ∀ i, DirectoryOk m
        (Function.update s.directory n ((s.directory n).newRoot a l) i) := by
      intro i
      by_cases hi : i = n
      · subst hi
        rw [Function.update_self]
        exact ((h.directory i).newRoot h.shape.null (h.messages _ _ _ hm)).1
      · rw [Function.update_of_ne hi]
        exact h.directory i
    refine h.settle rfl rfl (fun _ _ _ => rfl) (fun _ => Or.inl rfl) (fun _ _ hw => hw)
      (fun _ _ hk => hk) (fun i => ⟨⟨(hdir i).root, fun hen => by cases hen⟩, fun hen => ?_⟩)
      (fun x hx => List.mem_of_mem_erase hx) h.cache
    rw [hoff i] at hen
    cases hen
  · cases hstep

theorem Solo.deliver (h : Solo cfg c s m top) {message : Nat × GlobalAddress × Nat}
    (hstep : step cfg s (.deliver message) = some s') :
    Solo cfg c s'.cacheOff m top ∧ Advance cfg s m s'.cacheOff m none := by
  have hadv := h.growing.inv.deliver_off h.alone.cacheOff hstep
  have hgrows : Grows cfg s (.deliver message) := trivial
  have hrunning := h.growing.running_step hgrows hstep
  refine ⟨⟨h.growing.advance hadv hrunning, h.alone.deliver hstep, ?_⟩, hadv⟩
  obtain ⟨n, a, l⟩ := message
  simp only [step] at hstep
  split at hstep
  · rename_i hm
    cases hstep
    obtain ⟨hn, rfl, rfl⟩ := h.current.messages n a l hm
    refine ⟨h.current.root, h.current.straight, fun i => ?_,
      fun i b k hb => h.current.messages i b k (List.mem_of_mem_erase hb), ?_, fun i hi => ?_⟩
    · show (Function.update s.directory n ((s.directory n).newRoot s.rootPtr l) i).rootPtr = _ ∨
        (Function.update s.directory n ((s.directory n).newRoot s.rootPtr l) i).rootPtr = _ ∨ _
      by_cases hin : i = n
      · subst hin
        rw [Function.update_self]
        unfold Directory.newRoot
        split
        · exact Or.inr (Or.inl rfl)
        · -- the directory already knows a root of this level
          rename_i hle
          by_cases hnull : (s.directory i).rootPtr = .Null
          · exact Or.inl hnull
          · obtain ⟨k, hk, hroot⟩ := (h.growing.inv.directory i).root hnull
            have hkl := h.level_le hroot
            have hlevel : k = l := by omega
            subst hlevel
            exact Or.inr (Or.inl (h.growing.inv.shape.inj hroot h.current.root))
      · rw [Function.update_of_ne hin]
        refine (h.current.told i).imp_right (Or.imp_right fun hmem => ?_)
        exact (List.mem_erase_of_ne (fun heq => hin (congrArg Prod.fst heq))).mpr hmem
    · rcases h.current.quiet with hquiet | hidle
      · rw [hquiet] at hm
        cases hm
      · exact Or.inr hidle
    · show (Function.update s.directory n ((s.directory n).newRoot s.rootPtr l) i).rootPtr = _
      rw [Function.update_of_ne (by omega)]
      exact h.current.machines i hi
  · cases hstep

theorem solo_init (cfg : Config) (c : Client) {root : GlobalAddress} (hroot : root ≠ .Null) :
    Solo cfg c (State.init root) (Chart.single root) 0 where
  growing := growing_init cfg hroot
  alone := by
    refine ⟨fun d _ => ⟨none, rfl⟩, fun l => Or.inl rfl, fun p mode after hpc => (by cases hpc),
      ⟨∅, fun l w hw => by cases hw⟩, ⟨root.offset + 1, fun a ha => ?_⟩, fun n => rfl⟩
    refine if_neg fun har => ?_
    subst har
    omega
  current := by
    refine ⟨if_pos rfl, trivial, fun n => Or.inl rfl, fun n a l hm => ?_, Or.inl rfl, fun n _ => rfl⟩
    cases hm

end Step

end Dal.Tree
