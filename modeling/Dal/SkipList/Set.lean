/-
The skip list is a linearizable set.

What any number of threads see of `InsertConcurrently`, `Seek` and `Next` they could see
of one ordered set on which these are single steps.  An insertion takes effect when its
node is linked on level 0, or when it finds a node with the same key there; a `Seek` when
it reads the link it returns; the levels above are no part of what the list holds.

On the way no assertion fails, and every link that is read, prefetched or written is one
the node was allocated with.
-/
import Dal.SkipList.Step
import Mathlib.Data.Prod.Lex

namespace Dal.SkipList

variable {K Thread : Type} [LinearOrder K] [DecidableEq Thread]

section Levels

omit [LinearOrder K] in
theorem Levels.link_zero (L : Levels K) (x : Node K) : L.link 0 x 0 = Set.insert x (L 0) :=
  Function.update_self ..

omit [LinearOrder K] in
theorem Levels.link_above (L : Levels K) {i : Nat} (hi : i ≠ 0) (x : Node K) :
    L.link i x 0 = L 0 := Function.update_of_ne hi.symm ..

end Levels

section Call

variable {kMaxHeight : Nat} {s s' : State K Thread} {L : Levels K} {t : Thread}

omit [DecidableEq Thread] in
theorem Inv.init (hmin : 1 ≤ kMaxHeight) : Inv kMaxHeight (State.init K Thread) fun _ => ∅ where
  linked := ⟨fun _ => Chain.empty, fun _ _ hx => hx, fun _ _ hx => hx.elim⟩
  allocated _ hx := hx.elim
  height := ⟨Nat.le_refl 1, hmin⟩
  node _ _ hx := by cases hx
  pc _ := trivial
  fresh _ _ hx := by cases hx
  once _ _ _ _ hx := by cases hx

omit [LinearOrder K] in
theorem callThread_idle {pc : Pc K} (hstep : callThread s t pc = some s') :
    (∃ r, s.pc t = .idle r) ∧ s' = s.goto t pc := by
  unfold callThread at hstep
  split at hstep
  · rename_i r hidle
    exact ⟨⟨r, hidle⟩, (Option.some_inj.mp hstep).symm⟩
  · cases hstep

/-- A call that inserts nothing. -/
theorem Inv.call (h : Inv kMaxHeight s L) {pc : Pc K} (hstep : callThread s t pc = some s')
    (hpc : PcOk kMaxHeight s L pc) (hins : pc.inserting = none) : Inv kMaxHeight s' L := by
  obtain ⟨-, rfl⟩ := callThread_idle hstep
  refine h.goto hpc fun x hx => ?_
  rw [hins] at hx
  cases hx

/-- A node is allocated, and its insertion begins. -/
theorem Inv.insertCall (h : Inv kMaxHeight s L) {k : K} {height : Nat}
    (hheight : 1 ≤ height ∧ height ≤ kMaxHeight)
    (hstep : callThread { s with allocated := s.allocated + 1 } t
      (.height ⟨s.allocated, k, height⟩) = some s') : Inv kMaxHeight s' L := by
  obtain ⟨-, rfl⟩ := callThread_idle hstep
  have hnew : LinkedBelow L ⟨s.allocated, k, height⟩ 0 := by
    refine fun j => ⟨fun hj => ?_, fun hj => absurd hj (Nat.not_lt_zero j)⟩
    exact absurd (h.allocated _ (h.linked.subset (Nat.zero_le j) hj)) (Nat.lt_irrefl _)
  refine h.change (t := t) (fun i x hx => hx) ⟨h.linked.chain, h.linked.nested, h.linked.low⟩
    (Nat.le_succ _) (fun x hx => Nat.lt_succ_of_lt (h.allocated x hx)) h.height h.node
    (fun u hut => goto_other _ hut _) (fun u x hut hx => ⟨fun i hi => hi, fun i _ => rfl⟩) ?_
    fun x hx => ?_
  · rw [goto_self]
    exact ⟨hnew, hheight⟩
  · rw [goto_self] at hx
    cases hx
    exact Or.inr ⟨rfl, rfl⟩

end Call

section Run

variable {kMaxHeight : Nat} {s s' : State K Thread} {L : Levels K} {t : Thread}

omit [LinearOrder K] [DecidableEq Thread] in
theorem Pc.phase_idle {pc : Pc K} {r : Option (SetRet (Node K))} (h : pc = .idle r) :
    pc.phase = .idle := by
  rw [h]
  rfl

omit [LinearOrder K] [DecidableEq Thread] in
theorem phase_linking_ne_idle (w : Insertion K) (i : Nat) : (Pc.link w i).phase ≠ .idle := by
  show (if i = 0 then _ else _) ≠ _
  split <;> exact fun heq => by cases heq

/-- **What a step of a thread does to the set and to the thread's call.** -/
theorem Inv.run (hmax : kMaxHeight ≤ kMaxPossibleHeight) (h : Inv kMaxHeight s L) {spurious : Bool}
    (hstep : runThread kMaxHeight s t spurious = some s') :
    ∃ L' returned, Inv kMaxHeight s' L' ∧
      (orderedSet Node.key).Progress (L 0) (s.pc t).phase returned (L' 0) (s'.pc t).phase ∧
      ∀ r, s'.pc t = .idle (some r) ↔ returned = some r := by
  -- the call is where it was
  have hstay : ∀ {phase}, (s.pc t).phase = phase → phase ≠ .idle → ∀ L', L' 0 = L 0 →
      Inv kMaxHeight s' L' → (s'.pc t).phase = phase →
      ∃ L' returned, Inv kMaxHeight s' L' ∧
        (orderedSet Node.key).Progress (L 0) (s.pc t).phase returned (L' 0) (s'.pc t).phase ∧
        ∀ r, s'.pc t = .idle (some r) ↔ returned = some r := by
    rintro phase rfl hbusy L' hL hinv hphase
    refine ⟨L', none, hinv, ?_, fun r => ⟨fun hr => ?_, fun hr => by cases hr⟩⟩
    · rw [hphase, hL]
      exact .stay _
    · exact absurd (hphase.symm.trans (Pc.phase_idle hr)) hbusy
  -- the call is over
  have hover : ∀ {r}, s'.pc t = .idle (some r) → ∀ L', Inv kMaxHeight s' L' →
      (orderedSet Node.key).Progress (L 0) (s.pc t).phase (some r) (L' 0) .idle →
      ∃ L' returned, Inv kMaxHeight s' L' ∧
        (orderedSet Node.key).Progress (L 0) (s.pc t).phase returned (L' 0) (s'.pc t).phase ∧
        ∀ r, s'.pc t = .idle (some r) ↔ returned = some r := by
    intro r hidle L' hinv hprogress
    refine ⟨L', some r, hinv, ?_, fun r' => ?_⟩
    · rw [Pc.phase_idle hidle]
      exact hprogress
    · rw [hidle]
      exact ⟨fun heq => (by cases heq; rfl), fun heq => by cases heq; rfl⟩
  obtain ⟨pc, hpc⟩ : ∃ pc, s.pc t = pc := ⟨_, rfl⟩
  cases pc with
  | idle r | failed why =>
      simp only [runThread, hpc] at hstep
      cases hstep
  | height x =>
      obtain ⟨hinv, hphase⟩ := h.heightStep hmax (Or.inl hpc) hstep
      exact hstay (by rw [hpc]; rfl) (fun heq => by cases heq) L rfl hinv hphase
  | raise x maxHeight =>
      obtain ⟨hinv, hphase⟩ := h.heightStep hmax (Or.inr ⟨maxHeight, hpc⟩) hstep
      exact hstay (by rw [hpc]; rfl) (fun heq => by cases heq) L rfl hinv hphase
  | recompute w level before after =>
      obtain ⟨hinv, hphase⟩ := h.recompute hpc hstep
      exact hstay (by rw [hpc]; rfl) (fun heq => by cases heq) L rfl hinv hphase
  | refind w i before =>
      obtain ⟨hinv, hphase⟩ := h.refind hpc hstep
      exact hstay (by rw [hpc]; rfl) (phase_linking_ne_idle w i) L rfl hinv
        (hphase.trans (by rw [hpc]; rfl))
  | link w i =>
      obtain ⟨hinv, hcas | ⟨hidle, rfl, a, ha, hkey⟩⟩ := h.linkStep hpc hstep
      · exact hstay (by rw [hpc]) (phase_linking_ne_idle w i) L rfl hinv (by rw [hcas]; rfl)
      · refine hover hidle L hinv ?_
        rw [hpc]
        exact .answer (Or.inl ⟨⟨a, ha, hkey⟩, rfl, rfl⟩)
  | cas w i =>
      rcases h.casStep hpc hstep with ⟨hinv, hnew, hnext⟩ | ⟨hinv, hfailed⟩
      · by_cases hi : i = 0
        · subst hi
          have happly : (orderedSet Node.key).Apply (L 0) (.insert w.x) (.inserted true)
              (L.link 0 w.x 0) := Or.inr ⟨hnew, rfl, L.link_zero w.x⟩
          rcases hnext with hlink | hidle
          · refine ⟨_, none, hinv, ?_, fun r => ⟨fun hr => ?_, fun hr => by cases hr⟩⟩
            · rw [hpc, hlink]
              exact .effect happly
            · rw [hlink] at hr
              cases hr
          · refine hover hidle _ hinv ?_
            rw [hpc]
            exact .answer happly
        · have hphase : (s.pc t).phase = .done (.inserted true) := by
            rw [hpc]
            exact if_neg hi
          rcases hnext with hlink | hidle
          · refine hstay hphase (fun heq => by cases heq) _ (L.link_above hi w.x) hinv ?_
            rw [hlink]
            rfl
          · refine hover hidle _ hinv ?_
            rw [hphase, L.link_above hi]
            exact .ret _
      · exact hstay (by rw [hpc]; rfl) (phase_linking_ne_idle w i) L rfl hinv (by rw [hfailed]; rfl)
  | top k =>
      obtain ⟨hinv, hphase⟩ := h.topStep hpc hstep
      exact hstay (by rw [hpc]; rfl) (fun heq => by cases heq) L rfl hinv hphase
  | seek k x level lastBigger =>
      obtain ⟨hinv, ⟨x', level', lastBigger', hseek⟩ | ⟨o, hidle, hfirst⟩⟩ := h.seekStep hpc hstep
      · exact hstay (by rw [hpc]) (fun heq => by cases heq) L rfl hinv
          (by rw [hseek]; rfl)
      · refine hover hidle L hinv ?_
        rw [hpc]
        exact .answer ⟨o, hfirst, rfl, rfl⟩
  | after x =>
      obtain ⟨hinv, o, hidle, hnext⟩ := h.afterStep hpc hstep
      refine hover hidle L hinv ?_
      rw [hpc]
      exact .answer ⟨o, hnext, rfl, rfl⟩

end Run

/-! ### Whole runs -/

section Runs

variable {kMaxHeight : Nat} {s s' : State K Thread} {L : Levels K}

/-- A call on one thread, which was idle. -/
theorem call_history {t : Atomic (Set (Node K)) Thread (SetOp (Node K) K) (SetRet (Node K))}
    {u : Thread} {pc : Pc K} {op : SetOp (Node K) K} (hpc : pc.phase = .called op)
    (hphase : t.phase = fun v => (s.pc v).phase) (hidle : ∃ r, s.pc u = .idle r) :
    (orderedSet Node.key).History t [.call u op]
      { object := t.object, phase := fun v => ((s.goto u pc).pc v).phase } := by
  obtain ⟨r, hr⟩ := hidle
  have hcall : t.phase u = .idle := by
    rw [hphase]
    exact Pc.phase_idle hr
  have hnew : (fun v => ((s.goto u pc).pc v).phase) = Function.update t.phase u (.called op) := by
    funext v
    by_cases hvu : v = u
    · subst hvu
      rw [goto_self, Function.update_self, hpc]
    · rw [goto_other s hvu, Function.update_of_ne hvu, hphase]
  rw [hnew]
  exact .single (.call u op hcall)

omit [LinearOrder K] [DecidableEq Thread] in
/-- What `visible` shows of a step of a thread. -/
theorem visible_run {t : Thread} {spurious : Bool} {returned : Option (SetRet (Node K))}
    (h : ∀ r, s'.pc t = .idle (some r) ↔ returned = some r) :
    visible s (.run t spurious) s' = (returned.map (Event.ret t)).toList := by
  simp only [visible]
  split
  · rename_i r hr
    rw [(h r).mp hr]
    rfl
  · rename_i hbusy
    cases returned with
    | none => rfl
    | some r => exact absurd ((h r).mpr rfl) (hbusy r)

theorem findGreaterOrEqual_others {t u : Thread} (hut : u ≠ t) (k : K)
    (x : Option (Node K)) (level : Nat) (lastBigger next : Option (Node K)) :
    (findGreaterOrEqual s t k x level lastBigger next).pc u = s.pc u := by
  unfold findGreaterOrEqual
  repeat' split
  all_goals exact goto_other _ hut _

theorem run_others {t u : Thread} {spurious : Bool}
    (hstep : runThread kMaxHeight s t spurious = some s') (hut : u ≠ t) : s'.pc u = s.pc u := by
  cases hpc : s.pc t <;> simp only [runThread, hpc] at hstep
  all_goals repeat' split at hstep
  all_goals cases hstep
  all_goals first
    | exact findGreaterOrEqual_others hut ..
    | exact goto_other _ hut _

/-- The set holds what is linked on level 0, and every call is where its thread is. -/
structure Represents (kMaxHeight : Nat) (s : State K Thread)
    (t : Atomic (Set (Node K)) Thread (SetOp (Node K) K) (SetRet (Node K))) : Prop where
  levels : ∃ L, Inv kMaxHeight s L ∧ t.object = L 0
  phase : t.phase = fun u => (s.pc u).phase

theorem Represents.call {t : Atomic (Set (Node K)) Thread (SetOp (Node K) K) (SetRet (Node K))}
    (h : Represents kMaxHeight s t) {u : Thread} {pc : Pc K} {op : SetOp (Node K) K}
    (hstep : callThread s u pc = some s') (hop : pc.phase = .called op)
    (hpc : ∀ L, Inv kMaxHeight s L → PcOk kMaxHeight s L pc) (hins : pc.inserting = none) :
    ∃ t', (orderedSet Node.key).History t [.call u op] t' ∧ Represents kMaxHeight s' t' := by
  obtain ⟨L, hinv, hobject⟩ := h.levels
  have hinv' := hinv.call hstep (hpc L hinv) hins
  obtain ⟨hidle, rfl⟩ := callThread_idle hstep
  exact ⟨_, call_history hop h.phase hidle, ⟨L, hinv', hobject⟩, rfl⟩

/-- Whatever step is taken, the set can follow. -/
theorem Represents.step (hmax : kMaxHeight ≤ kMaxPossibleHeight)
    {t : Atomic (Set (Node K)) Thread (SetOp (Node K) K) (SetRet (Node K))}
    (h : Represents kMaxHeight s t) {action : Action K Thread}
    (hstep : step kMaxHeight s action = some s') :
    ∃ t', (orderedSet Node.key).History t (visible s action s') t' ∧
      Represents kMaxHeight s' t' := by
  cases action with
  | insert u k height =>
      simp only [SkipList.step] at hstep
      split at hstep
      · rename_i hheight
        obtain ⟨L, hinv, hobject⟩ := h.levels
        have hinv' := hinv.insertCall hheight hstep
        obtain ⟨hidle, rfl⟩ := callThread_idle hstep
        exact ⟨_, call_history (s := { s with allocated := s.allocated + 1 }) rfl h.phase hidle,
          ⟨L, hinv', hobject⟩, rfl⟩
      · cases hstep
  | seek u k => exact h.call hstep rfl (fun L _ => trivial) rfl
  | after u =>
      simp only [SkipList.step] at hstep
      split at hstep
      · rename_i x hx
        simp only [visible, hx]
        exact h.call hstep rfl (fun L hinv => hinv.node u x hx) rfl
      · cases hstep
  | run u spurious =>
      obtain ⟨L, hinv, hobject⟩ := h.levels
      obtain ⟨L', returned, hinv', hprogress, hreturned⟩ := hinv.run hmax hstep
      rw [visible_run hreturned]
      rw [← hobject, ← congrFun h.phase u] at hprogress
      refine ⟨_, hprogress.history, ⟨L', hinv', rfl⟩, funext fun v => ?_⟩
      show Function.update t.phase u _ v = _
      by_cases hvu : v = u
      · subst hvu
        rw [Function.update_self]
      · rw [Function.update_of_ne hvu, h.phase, run_others hstep hvu]

omit [DecidableEq Thread] in
theorem represents_init (hmin : 1 ≤ kMaxHeight) : Represents kMaxHeight (State.init K Thread)
    ⟨∅, fun _ => .idle⟩ where
  levels := ⟨fun _ => ∅, Inv.init hmin, rfl⟩
  phase := rfl

/-- Every step keeps the invariant. -/
theorem Inv.step (hmax : kMaxHeight ≤ kMaxPossibleHeight) (h : Inv kMaxHeight s L)
    {action : Action K Thread} (hstep : step kMaxHeight s action = some s') :
    ∃ L', Inv kMaxHeight s' L' := by
  have hrep : Represents kMaxHeight s ⟨L 0, fun u => (s.pc u).phase⟩ := ⟨⟨L, h, rfl⟩, rfl⟩
  obtain ⟨t', -, hrep'⟩ := hrep.step hmax hstep
  obtain ⟨L', hinv, -⟩ := hrep'.levels
  exact ⟨L', hinv⟩

/-- **Any number of threads at once, and still one ordered set.** -/
theorem set_linearizable (hmin : 1 ≤ kMaxHeight) (hmax : kMaxHeight < kMaxPossibleHeight) :
    (machine K Thread kMaxHeight).Linearizable (fun _ _ => True) visible (orderedSet Node.key) := by
  refine System.linearizable_of_simulation (Represents kMaxHeight) ?_ ?_
  · rintro s rfl
    exact ⟨∅, rfl, represents_init hmin⟩
  · intro s action s' t h _ hstep
    exact h.step hmax.le hstep

/-- The list of the index cache: 21 levels, by the end of a range and backwards by its start. -/
theorem set_linearizable_cache : (machine (Nat ×ₗ Natᵒᵈ) Nat 21).Linearizable (fun _ _ => True)
    visible (orderedSet Node.key) := set_linearizable (by decide) (by decide)

end Runs

/-! ### What is accessed -/

section Safe

omit [LinearOrder K] [DecidableEq Thread]

/-- What is read for `PREFETCH` once a search has come to a node; `below` is `prefetch_before`. -/
def prefetch (below : Bool) (level : Nat) : Option (Node K) → List (Option (Node K) × Nat)
  | none => []
  | some n => (some n, level) :: if below = true ∧ 0 < level then [(some n, level - 1)] else []

/-- The links that a thread's next step reads or writes. -/
def Pc.accesses (next : Nat → Option (Node K) → Option (Node K)) :
    Pc K → List (Option (Node K) × Nat)
  | .recompute _ level before _ => (before, level) :: prefetch true level (next level before)
  | .link w i => [(some w.x, i)]
  | .cas w i => [(w.prev i, i)]
  | .refind _ i before => (before, i) :: prefetch false i (next i before)
  | .seek _ x level _ => (x, level) :: prefetch false level (next level x)
  | .after x => [(some x, 0)]
  | _ => []

/-- The splice of an insertion. -/
def Pc.splice : Pc K → Option (Insertion K)
  | .recompute w _ _ _ | .link w _ | .cas w _ | .refind w _ _ => some w
  | _ => none

/-- `Next(level)` is one of the links that `head_` or the node was allocated with. -/
def Allocated (kMaxHeight : Nat) (l : Option (Node K)) (level : Nat) : Prop :=
  level < l.elim kMaxHeight Node.height

/-- What a thread does next is safe: no assertion has failed, the links it is about to access are
there, and so is the part of `prev` and `next` that its splice takes up. -/
structure Pc.Safe (kMaxHeight : Nat) (next : Nat → Option (Node K) → Option (Node K))
    (pc : Pc K) : Prop where
  ok : ∀ why, pc ≠ .failed why
  access : ∀ l level, (l, level) ∈ pc.accesses next → Allocated kMaxHeight l level
  splice : ∀ w, pc.splice = some w → w.height < kMaxPossibleHeight

end Safe

section Safety

variable {kMaxHeight : Nat} {s : State K Thread} {L : Levels K} {t : Thread}

omit [DecidableEq Thread]

theorem Linked.allocated (h : Linked s L) {l : Option (Node K)} {level : Nat}
    (hl : Placed (L level) l) (hlevel : level < kMaxHeight) : Allocated kMaxHeight l level := by
  cases l with
  | none => exact hlevel
  | some x => exact h.low level x (hl x rfl)

/-- One round of a search: the link it reads, and what it prefetches. -/
theorem Linked.searched (h : Linked s L) {below : Bool} {before : Option (Node K)} {i : Nat}
    (hbefore : Placed (L i) before) (hi : i < kMaxHeight) {l : Option (Node K)} {level : Nat}
    (hl : (l, level) ∈ (before, i) :: prefetch below i (s.next i before)) :
    Allocated kMaxHeight l level := by
  rcases List.mem_cons.mp hl with heq | hahead
  · cases heq
    exact h.allocated hbefore hi
  · cases hn : s.next i before with
    | none =>
        rw [hn] at hahead
        cases hahead
    | some n =>
        have hlow : i < n.height := h.low i n ((h.chain i).mem before n hbefore hn)
        rw [hn] at hahead
        rcases List.mem_cons.mp hahead with heq | hbelow
        · cases heq
          exact hlow
        · split at hbelow
          · cases List.mem_singleton.mp hbelow
            exact Nat.lt_of_le_of_lt (Nat.sub_le i 1) hlow
          · cases hbelow

theorem Inv.safe (hmax : kMaxHeight < kMaxPossibleHeight) (h : Inv kMaxHeight s L) :
    (s.pc t).Safe kMaxHeight s.next := by
  have hok := h.pc t
  have hheight : ∀ {w : Insertion K}, w.heightOk kMaxHeight → w.height < kMaxPossibleHeight :=
    fun hw => Nat.lt_of_le_of_lt hw.2.2 hmax
  have hlow : ∀ {w : Insertion K} {i : Nat}, Linking kMaxHeight L w i → i < kMaxHeight := fun hw =>
    Nat.lt_of_lt_of_le hw.level (hw.height.2.1.trans hw.height.2.2)
  generalize s.pc t = pc at hok
  cases pc with
  | failed why => exact hok.elim
  | idle r | height x | raise x maxHeight | top k =>
      exact ⟨fun _ heq => (by cases heq), fun _ _ hl => (by cases hl), fun _ heq => by cases heq⟩
  | recompute w level before after =>
      refine ⟨fun _ heq => (by cases heq), fun l i hl => ?_, fun _ heq => ?_⟩
      · exact h.linked.searched hok.2.2.2.2.1 (Nat.lt_of_lt_of_le hok.2.2.1 hok.2.1.2.2) hl
      · cases heq
        exact hheight hok.2.1
  | link w i =>
      refine ⟨fun _ heq => (by cases heq), fun l j hl => ?_, fun _ heq => ?_⟩
      · cases List.mem_singleton.mp hl
        exact hok.level
      · cases heq
        exact hheight hok.height
  | cas w i =>
      refine ⟨fun _ heq => (by cases heq), fun l j hl => ?_, fun _ heq => ?_⟩
      · cases List.mem_singleton.mp hl
        exact h.linked.allocated (hok.1.splice.bracket i (Nat.zero_le i)
          (Nat.le_of_lt (Nat.lt_of_lt_of_le hok.1.level hok.1.height.2.1))).placed (hlow hok.1)
      · cases heq
        exact hheight hok.1.height
  | refind w i before =>
      refine ⟨fun _ heq => (by cases heq), fun l j hl => ?_, fun _ heq => ?_⟩
      · exact h.linked.searched hok.2.1 (hlow hok.1) hl
      · cases heq
        exact hheight hok.1.height
  | seek k x level lastBigger =>
      refine ⟨fun _ heq => (by cases heq), fun l i hl => ?_, fun _ heq => by cases heq⟩
      exact h.linked.searched hok.1 hok.2.2.1 hl
  | after x =>
      refine ⟨fun _ heq => (by cases heq), fun l i hl => ?_, fun _ heq => by cases heq⟩
      cases List.mem_singleton.mp hl
      exact h.linked.low 0 x hok

/-- **Every level is a sorted chain within the level below, and every step to come is safe.** -/
theorem safe_at_every_step [DecidableEq Thread] (hmin : 1 ≤ kMaxHeight)
    (hmax : kMaxHeight < kMaxPossibleHeight) (hs : (machine K Thread kMaxHeight).Reachable s) :
    (∃ L, Linked s L) ∧ ∀ t, (s.pc t).Safe kMaxHeight s.next := by
  have hinv : ∃ L, Inv kMaxHeight s L := by
    refine hs.invariant (I := fun s => ∃ L, Inv kMaxHeight s L) ?_ ?_
    · rintro s rfl
      exact ⟨_, Inv.init hmin⟩
    · rintro s action s' ⟨L, h⟩ - hstep
      exact h.step hmax.le hstep
  obtain ⟨L, h⟩ := hinv
  exact ⟨⟨L, h.linked⟩, fun t => h.safe hmax⟩

/-- Two threads insert in front, and the second is too late with its compare-and-swap. -/
theorem safe_after_failed_cas : ∃ s : State Nat Nat, (∃ w i before, s.pc 1 = .refind w i before) ∧
    (∃ L, Linked s L) ∧ ∀ t, (s.pc t).Safe 21 s.next := by
  have hrun : ((machine Nat Nat 21).exec (.init Nat Nat)
      ([.insert 0 5 1, .insert 1 3 2] ++ List.replicate 3 (.run 0 false) ++
        List.replicate 5 (.run 1 false) ++ [.run 0 false, .run 1 false])).map
      (fun s => match s.pc 1 with | .refind .. => true | _ => false) = some true := by
    decide +kernel
  obtain ⟨s, hs, hfailed⟩ := Option.map_eq_some_iff.mp hrun
  refine ⟨s, ?_, safe_at_every_step (by decide) (by decide) ⟨_, rfl, System.path_of_exec _ hs⟩⟩
  split at hfailed
  · rename_i w i before hpc
    exact ⟨w, i, before, hpc⟩
  · cases hfailed

end Safety

end Dal.SkipList
