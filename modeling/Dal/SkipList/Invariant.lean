/-
The invariant of the skip list.

`Levels` says which nodes are linked on which level.  Each level is a sorted chain, and a
node is linked from level 0 upwards, so the levels are nested; that is why a search may
drop to the level below at any link.  A thread that inserts a node knows of each level a
link below its key and a node not below it, as they were when it looked: nodes are never
taken out, so they still are.
-/
import Dal.SkipList.Machine

namespace Dal.SkipList

variable {K Thread : Type} [LinearOrder K]

/-- The nodes linked on each level. -/
abbrev Levels (K : Type) := Nat → Set (Node K)

/-- The node is linked on the levels below `i`, and on no other. -/
def LinkedBelow (L : Levels K) (x : Node K) (i : Nat) : Prop := ∀ j, x ∈ L j ↔ j < i

/-- What is known of level `j` of a splice. -/
structure Bracket (L : Levels K) (w : Insertion K) (j : Nat) : Prop where
  placed : Placed (L j) (w.prev j)
  precedes : Precedes Node.key (w.prev j) w.x.key
  mem : ∀ b, w.next j = some b → b ∈ L j
  le : ∀ b, w.next j = some b → w.x.key ≤ b.key
  other : w.next j ≠ some w.x

/-- `o'` is not before `o`, where `none` is before everything. -/
def LeAsPrev (o o' : Option (Node K)) : Prop := ∀ a, o = some a → ∃ b, o' = some b ∧ a.key ≤ b.key

/-- `o` is not after `o'`, where `none` is after everything. -/
def LeAsNext (o o' : Option (Node K)) : Prop := ∀ b, o' = some b → ∃ a, o = some a ∧ a.key ≤ b.key

/-- The bracket of level `j` is inside that of the level above. -/
def Inside (w : Insertion K) (j : Nat) : Prop :=
  LeAsPrev (w.prev (j + 1)) (w.prev j) ∧ LeAsNext (w.next j) (w.next (j + 1))

/-- The splice from `level` upwards. -/
structure Bracketed (L : Levels K) (w : Insertion K) (level : Nat) : Prop where
  top : w.prev w.height = none ∧ w.next w.height = none
  bracket : ∀ j, level ≤ j → j ≤ w.height → Bracket L w j
  inside : w.valid = true → ∀ j, level ≤ j → j < w.height → Inside w j

/-- The node on its way into the list. -/
def Pc.inserting : Pc K → Option (Node K)
  | .height x | .raise x _ => some x
  | .recompute w _ _ _ | .link w _ | .cas w _ | .refind w _ _ => some w.x
  | _ => none

/-- Where the call of a thread is; an insertion has taken effect once level 0 is linked. -/
def Pc.phase : Pc K → CallPhase (SetOp (Node K) K) (SetRet (Node K))
  | .idle _ | .failed _ => .idle
  | .height x | .raise x _ => .called (.insert x)
  | .recompute w _ _ _ => .called (.insert w.x)
  | .link w i | .cas w i | .refind w i _ =>
      if i = 0 then .called (.insert w.x) else .done (.inserted true)
  | .top k | .seek k _ _ _ => .called (.seek k)
  | .after x => .called (.after x)

section PcOk

variable (kMaxHeight : Nat) (s : State K Thread) (L : Levels K)

/-- The heights that a node and a list may have. -/
def Insertion.heightOk (w : Insertion K) : Prop :=
  1 ≤ w.x.height ∧ w.x.height ≤ w.height ∧ w.height ≤ kMaxHeight

/-- A thread is linking its node on level `i`. -/
structure Linking (w : Insertion K) (i : Nat) : Prop where
  linked : LinkedBelow L w.x i
  height : w.heightOk kMaxHeight
  level : i < w.x.height
  splice : Bracketed L w 0

def PcOk : Pc K → Prop
  | .idle _ => True
  | .height x => LinkedBelow L x 0 ∧ 1 ≤ x.height ∧ x.height ≤ kMaxHeight
  | .raise x _ => LinkedBelow L x 0 ∧ 1 ≤ x.height ∧ x.height ≤ kMaxHeight
  | .recompute w level before after => LinkedBelow L w.x 0 ∧ w.heightOk kMaxHeight ∧
      level < w.height ∧ Bracketed L w (level + 1) ∧ Placed (L level) before ∧
      Precedes Node.key before w.x.key ∧ LeAsPrev (w.prev (level + 1)) before ∧
      after = w.next (level + 1)
  | .link w i => Linking kMaxHeight L w i
  | .cas w i => Linking kMaxHeight L w i ∧ s.next i (some w.x) = w.next i ∧
      ∀ b, w.next i = some b → w.x.key < b.key
  | .refind w i before => Linking kMaxHeight L w i ∧ Placed (L i) before ∧
      Precedes Node.key before w.x.key ∧ LeAsPrev (w.prev i) before
  | .top _ => True
  | .seek k x level lastBigger => Placed (L level) x ∧ Precedes Node.key x k ∧
      level < kMaxHeight ∧ ∀ b, lastBigger = some b → k < b.key
  | .after x => x ∈ L 0
  | .failed _ => False

/-- The levels are sorted chains, each within the one below. -/
structure Linked : Prop where
  chain : ∀ i, Chain Node.key (L i) (s.next i)
  nested : ∀ i, L (i + 1) ⊆ L i
  low : ∀ i x, x ∈ L i → i < x.height

structure Inv : Prop where
  linked : Linked s L
  allocated : ∀ x ∈ L 0, x.id < s.allocated
  height : 1 ≤ s.maxHeight ∧ s.maxHeight ≤ kMaxHeight
  node : ∀ t x, s.node t = some x → x ∈ L 0
  pc : ∀ t, PcOk kMaxHeight s L (s.pc t)
  fresh : ∀ t x, (s.pc t).inserting = some x → x.id < s.allocated
  once : ∀ t u x y, (s.pc t).inserting = some x → (s.pc u).inserting = some y → x.id = y.id → t = u

end PcOk

section Linked

variable {s : State K Thread} {L : Levels K}

theorem Linked.subset (h : Linked s L) {i j : Nat} (hij : i ≤ j) : L j ⊆ L i := by
  induction j, hij using Nat.le_induction with
  | base => exact fun _ hx => hx
  | succ j _ ih => exact (h.nested j).trans ih

/-- The lists are sorted. -/
theorem Linked.inOrder (h : Linked s L) {i : Nat} {l : Option (Node K)} (hl : Placed (L i) l) :
    inOrder l (s.next i l) = true := by
  cases l with
  | none => rfl
  | some x =>
      cases hn : s.next i (some x) with
      | none => rfl
      | some n => exact decide_eq_true ((h.chain i).lt _ n hl hn x rfl)

end Linked

theorem isBefore_iff {k : K} {l : Option (Node K)} :
    isBefore k l = true ↔ Precedes Node.key l k := by
  cases l with
  | none => exact iff_of_true rfl precedes_head
  | some x =>
      refine ⟨fun h => precedes_some (of_decide_eq_true h), fun h => ?_⟩
      exact decide_eq_true (h x rfl)

theorem keyIsAfterNode_eq_false {k : K} {o : Option (Node K)} :
    keyIsAfterNode k o = false ↔ ∀ b, o = some b → k ≤ b.key := by
  cases o with
  | none => exact iff_of_true rfl fun b hb => by cases hb
  | some n =>
      constructor
      · intro h b hb
        cases hb
        exact not_lt.mp (of_decide_eq_false h)
      · exact fun h => decide_eq_false (not_lt.mpr (h n rfl))

/-! ### More nodes -/

section Mono

variable {kMaxHeight : Nat} {s s' : State K Thread} {L L' : Levels K} {w : Insertion K} {i : Nat}

theorem Bracket.mono (hle : ∀ i, L i ⊆ L' i) (h : Bracket L w i) : Bracket L' w i where
  placed := h.placed.mono (hle i)
  precedes := h.precedes
  mem b hb := hle i (h.mem b hb)
  le := h.le
  other := h.other

theorem Bracketed.mono (hle : ∀ i, L i ⊆ L' i) (h : Bracketed L w i) : Bracketed L' w i where
  top := h.top
  bracket j hj hjh := (h.bracket j hj hjh).mono hle
  inside := h.inside

/-- A thread's own node is linked by itself only. -/
theorem PcOk.mono {pc : Pc K} (hle : ∀ i, L i ⊆ L' i)
    (hown : ∀ x, pc.inserting = some x → ∀ i, x ∈ L' i → x ∈ L i)
    (hnext : ∀ x, pc.inserting = some x → ∀ i, x ∉ L i → s'.next i (some x) = s.next i (some x))
    (h : PcOk kMaxHeight s L pc) : PcOk kMaxHeight s' L' pc := by
  have hlinked : ∀ {x : Node K} {i : Nat}, pc.inserting = some x → LinkedBelow L x i →
      LinkedBelow L' x i := fun hx hl j => ⟨fun hj => (hl j).mp (hown _ hx j hj),
    fun hj => hle j ((hl j).mpr hj)⟩
  have hlinking : ∀ {w : Insertion K} {i : Nat}, pc.inserting = some w.x →
      Linking kMaxHeight L w i → Linking kMaxHeight L' w i := fun hx hl =>
    ⟨hlinked hx hl.linked, hl.height, hl.level, hl.splice.mono hle⟩
  cases pc with
  | idle result | top k => trivial
  | height x | raise x maxHeight => exact ⟨hlinked rfl h.1, h.2⟩
  | recompute w level before after =>
      obtain ⟨hl, hheight, hlevel, hsplice, hplaced, hrest⟩ := h
      exact ⟨hlinked rfl hl, hheight, hlevel, hsplice.mono hle, hplaced.mono (hle level), hrest⟩
  | link w i => exact hlinking rfl h
  | cas w i =>
      have hnot : w.x ∉ L i := fun hi => Nat.lt_irrefl i ((h.1.linked i).mp hi)
      exact ⟨hlinking rfl h.1, (hnext _ rfl i hnot).trans h.2.1, h.2.2⟩
  | refind w i before => exact ⟨hlinking rfl h.1, h.2.1.mono (hle i), h.2.2⟩
  | seek k x level lastBigger => exact ⟨h.1.mono (hle level), h.2⟩
  | after x => exact hle 0 h
  | failed why => exact h.elim

end Mono

/-! ### One round of a search -/

section Round

variable {kMaxHeight : Nat} {s : State K Thread} {L : Levels K} {i : Nat} {k : K}
  {before after : Option (Node K)}

/-- `FindSpliceForLevel` is done when `next` is not below the key, and goes on otherwise. -/
theorem Linked.round (h : Linked s L) (hplaced : Placed (L i) before)
    (hbefore : Precedes Node.key before k) (hafter : ∀ a, after = some a → k ≤ a.key) :
    (findSpliceForLevel k before (s.next i before) after = .found ∧
      ∀ b, s.next i before = some b → k ≤ b.key) ∨
    (findSpliceForLevel k before (s.next i before) after = .further ∧
      ∃ n, s.next i before = some n ∧ n.key < k) := by
  unfold findSpliceForLevel
  rw [if_neg (by rw [h.inOrder hplaced]; exact Bool.noConfusion),
    if_neg (by rw [isBefore_iff.mpr hbefore]; exact Bool.noConfusion)]
  by_cases hfound : s.next i before = after ∨ keyIsAfterNode k (s.next i before) = false
  · rw [if_pos hfound]
    refine Or.inl ⟨rfl, ?_⟩
    rcases hfound with heq | hnot
    · exact fun b hb => hafter b (heq ▸ hb)
    · exact keyIsAfterNode_eq_false.mp hnot
  · rw [if_neg hfound]
    refine Or.inr ⟨rfl, ?_⟩
    obtain ⟨-, hafterNode⟩ := not_or.mp hfound
    cases hnext : s.next i before with
    | none =>
        rw [hnext] at hafterNode
        exact absurd rfl hafterNode
    | some n =>
        rw [hnext] at hafterNode
        exact ⟨n, rfl, of_decide_eq_true (Bool.eq_true_of_not_eq_false hafterNode)⟩

/-- The first node that is not below the key. -/
theorem Linked.first (h : Linked s L) (hplaced : Placed (L i) before)
    (hbefore : Precedes Node.key before k) (hnext : ∀ b, s.next i before = some b → k ≤ b.key) :
    IsFirst Node.key (L i) k (s.next i before) := (h.chain i).first hplaced hbefore hnext

end Round

/-! ### What a step of one thread leaves to show -/

section Change

variable [DecidableEq Thread] {kMaxHeight : Nat} {s s' : State K Thread} {L L' : Levels K}
  {t : Thread}

/-- Thread `t` moves; the nodes of the others are not touched. -/
theorem Inv.change (h : Inv kMaxHeight s L) (hle : ∀ i, L i ⊆ L' i) (hlinked : Linked s' L')
    (hallocated : s.allocated ≤ s'.allocated) (hids : ∀ x ∈ L' 0, x.id < s'.allocated)
    (hheight : 1 ≤ s'.maxHeight ∧ s'.maxHeight ≤ kMaxHeight)
    (hnode : ∀ u x, s'.node u = some x → x ∈ L' 0)
    (hothers : ∀ u, u ≠ t → s'.pc u = s.pc u)
    (hown : ∀ u x, u ≠ t → (s.pc u).inserting = some x →
      (∀ i, x ∈ L' i → x ∈ L i) ∧ ∀ i, x ∉ L i → s'.next i (some x) = s.next i (some x))
    (hpc : PcOk kMaxHeight s' L' (s'.pc t))
    (hins : ∀ x, (s'.pc t).inserting = some x → (s.pc t).inserting = some x ∨
      x.id = s.allocated ∧ s'.allocated = s.allocated + 1) : Inv kMaxHeight s' L' := by
  -- a node of another thread is older than one that is allocated now
  have holder : ∀ u x y, u ≠ t → (s'.pc t).inserting = some x → (s'.pc u).inserting = some y →
      x.id ≠ y.id := by
    intro u x y hut hx hy heq
    rw [hothers u hut] at hy
    rcases hins x hx with hold | ⟨hnew, -⟩
    · exact hut (h.once t u x y hold hy heq).symm
    · have := h.fresh u y hy
      omega
  refine ⟨hlinked, hids, hheight, hnode, fun u => ?_, fun u x hx => ?_, fun u v x y hx hy heq => ?_⟩
  · by_cases hut : u = t
    · subst hut
      exact hpc
    · rw [hothers u hut]
      exact (h.pc u).mono hle (fun x hx => (hown u x hut hx).1) fun x hx => (hown u x hut hx).2
  · by_cases hut : u = t
    · subst hut
      rcases hins x hx with hold | ⟨hnew, hcount⟩
      · exact Nat.lt_of_lt_of_le (h.fresh u x hold) hallocated
      · omega
    · rw [hothers u hut] at hx
      exact Nat.lt_of_lt_of_le (h.fresh u x hx) hallocated
  · by_cases hut : u = t
    · subst hut
      by_cases hvu : v = u
      · exact hvu.symm
      · exact absurd heq (holder v x y hvu hx hy)
    · by_cases hvt : v = t
      · subst hvt
        exact absurd heq.symm (holder u y x hut hy hx)
      · rw [hothers u hut] at hx
        rw [hothers v hvt] at hy
        exact h.once u v x y hx hy heq

omit [LinearOrder K] in
theorem goto_self (s : State K Thread) (t : Thread) (pc : Pc K) : (s.goto t pc).pc t = pc :=
  Function.update_self ..

omit [LinearOrder K] in
theorem goto_other (s : State K Thread) {t u : Thread} (hut : u ≠ t) (pc : Pc K) :
    (s.goto t pc).pc u = s.pc u := Function.update_of_ne hut ..

/-- A step that writes nothing. -/
theorem Inv.goto (h : Inv kMaxHeight s L) {pc : Pc K} (hpc : PcOk kMaxHeight s L pc)
    (hins : ∀ x, pc.inserting = some x → (s.pc t).inserting = some x) :
    Inv kMaxHeight (s.goto t pc) L := by
  refine h.change (t := t) (fun i x hx => hx) ⟨h.linked.chain, h.linked.nested, h.linked.low⟩
    (Nat.le_refl _) h.allocated h.height h.node (fun u hut => goto_other s hut pc)
    (fun u x hut hx => ⟨fun i hi => hi, fun i _ => rfl⟩) ?_ fun x hx => ?_
  · rw [goto_self]
    exact hpc
  · rw [goto_self] at hx
    exact Or.inl (hins x hx)

/-- An iterator is positioned at a node of the list. -/
theorem Inv.found (h : Inv kMaxHeight s L) {n : Option (Node K)} (hn : Placed (L 0) n) :
    Inv kMaxHeight (s.found t n) L := by
  have hset : Inv kMaxHeight { s with node := Function.update s.node t n } L := by
    refine ⟨⟨h.linked.chain, h.linked.nested, h.linked.low⟩, h.allocated, h.height,
      fun u x hx => ?_, h.pc, h.fresh, h.once⟩
    change Function.update s.node t n u = some x at hx
    by_cases hut : u = t
    · subst hut
      rw [Function.update_self] at hx
      exact hn x hx
    · rw [Function.update_of_ne hut] at hx
      exact h.node u x hx
  exact hset.goto trivial fun x hx => by cases hx

omit [DecidableEq Thread] in
/-- The list becomes as high as the new node. -/
theorem Inv.raise (h : Inv kMaxHeight s L) {maxHeight : Nat} (hmax : 1 ≤ maxHeight ∧
    maxHeight ≤ kMaxHeight) : Inv kMaxHeight { s with maxHeight := maxHeight } L :=
  ⟨⟨h.linked.chain, h.linked.nested, h.linked.low⟩, h.allocated, hmax, h.node, h.pc, h.fresh,
    h.once⟩

omit [DecidableEq Thread] in
theorem setNext_self (s : State K Thread) (i : Nat) (l n : Option (Node K)) :
    (s.setNext i l n).next i = Function.update (s.next i) l n := Function.update_self ..

omit [DecidableEq Thread] in
theorem setNext_other (s : State K Thread) {i j : Nat} (hji : j ≠ i) (l n : Option (Node K)) :
    (s.setNext i l n).next j = s.next j := Function.update_of_ne hji ..

/-- A thread writes where its own node leads, before the node is linked there. -/
theorem Inv.prepare (h : Inv kMaxHeight s L) {x : Node K} {i : Nat} {n : Option (Node K)}
    {pc : Pc K} (hx : (s.pc t).inserting = some x) (hnot : x ∉ L i)
    (hpc : PcOk kMaxHeight (s.setNext i (some x) n) L pc)
    (hins : ∀ y, pc.inserting = some y → (s.pc t).inserting = some y) :
    Inv kMaxHeight ((s.setNext i (some x) n).goto t pc) L := by
  have hnext : ∀ j l, l ≠ some x ∨ j ≠ i → (s.setNext i (some x) n).next j l = s.next j l := by
    intro j l hl
    by_cases hji : j = i
    · subst hji
      rw [setNext_self, Function.update_of_ne (hl.resolve_right (not_not_intro rfl))]
    · rw [setNext_other s hji]
  have hlinked : Linked (s.setNext i (some x) n) L := by
    refine ⟨fun j => (h.linked.chain j).congr fun l hl => hnext j l ?_, h.linked.nested,
      h.linked.low⟩
    by_cases hji : j = i
    · subst hji
      refine Or.inl fun hlx => hnot (hl x hlx)
    · exact Or.inr hji
  refine h.change (t := t) (fun j y hy => hy) ⟨hlinked.chain, hlinked.nested, hlinked.low⟩
    (Nat.le_refl _) h.allocated h.height h.node (fun u hut => goto_other _ hut pc)
    (fun u y hut hy => ⟨fun j hj => hj, fun j _ => hnext j _ (Or.inl fun heq => ?_)⟩) ?_
    fun y hy => ?_
  · cases heq
    exact hut (h.once u t x x hy hx rfl)
  · rw [goto_self]
    exact hpc
  · rw [goto_self] at hy
    exact Or.inl (hins y hy)

/-- The levels once `x` is linked on level `i`. -/
def Levels.link (L : Levels K) (i : Nat) (x : Node K) : Levels K :=
  Function.update L i (Set.insert x (L i))

omit [LinearOrder K] in
theorem Levels.subset_link (L : Levels K) (i : Nat) (x : Node K) (j : Nat) :
    L j ⊆ L.link i x j := by
  unfold Levels.link
  by_cases hji : j = i
  · subst hji
    rw [Function.update_self]
    exact fun y hy => Or.inr hy
  · rw [Function.update_of_ne hji]

omit [LinearOrder K] in
theorem Levels.mem_link {i j : Nat} {x y : Node K} (h : y ∈ L.link i x j) :
    y ∈ L j ∨ (j = i ∧ y = x) := by
  unfold Levels.link at h
  by_cases hji : j = i
  · subst hji
    rw [Function.update_self] at h
    exact h.elim (fun heq => Or.inr ⟨rfl, heq⟩) Or.inl
  · rw [Function.update_of_ne hji] at h
    exact Or.inl h

omit [DecidableEq Thread] in
/-- A level with one more node. -/
theorem Linked.link (h : Linked s L) {w : Insertion K} {i : Nat} (hw : Linking kMaxHeight L w i)
    (hown : s.next i (some w.x) = w.next i) (hstrict : ∀ b, w.next i = some b → w.x.key < b.key)
    (hcas : s.next i (w.prev i) = w.next i) :
    Linked (s.setNext i (w.prev i) (some w.x)) (L.link i w.x) := by
  have hbracket := hw.splice.bracket i (Nat.zero_le i)
    (Nat.le_of_lt (Nat.lt_of_lt_of_le hw.level hw.height.2.1))
  refine ⟨fun j => ?_, fun j y hy => ?_, fun j y hy => ?_⟩
  · by_cases hji : j = i
    · subst hji
      rw [setNext_self, show L.link j w.x j = Set.insert w.x (L j) from Function.update_self ..]
      exact (h.chain j).insert hbracket.placed hbracket.precedes
        (fun b hb => hstrict b (hcas ▸ hb)) (hown.trans hcas.symm)
    · rw [setNext_other s hji, show L.link i w.x j = L j from Function.update_of_ne hji ..]
      exact h.chain j
  · rcases Levels.mem_link hy with hold | ⟨hji, rfl⟩
    · exact L.subset_link i w.x j (h.nested j hold)
    · exact L.subset_link i w.x j ((hw.linked j).mpr (by omega))
  · rcases Levels.mem_link hy with hold | ⟨rfl, rfl⟩
    · exact h.low j y hold
    · exact hw.level

/-- A node is linked on a level. -/
theorem Inv.link (h : Inv kMaxHeight s L) {w : Insertion K} {i : Nat} {pc : Pc K}
    (hx : (s.pc t).inserting = some w.x) (hw : Linking kMaxHeight L w i)
    (hlinked : Linked (s.setNext i (w.prev i) (some w.x)) (L.link i w.x))
    (hpc : PcOk kMaxHeight (s.setNext i (w.prev i) (some w.x)) (L.link i w.x) pc)
    (hins : ∀ y, pc.inserting = some y → (s.pc t).inserting = some y) :
    Inv kMaxHeight ((s.setNext i (w.prev i) (some w.x)).goto t pc) (L.link i w.x) := by
  have hplaced := (hw.splice.bracket i (Nat.zero_le i)
    (Nat.le_of_lt (Nat.lt_of_lt_of_le hw.level hw.height.2.1))).placed
  have hother : ∀ u y, u ≠ t → (s.pc u).inserting = some y → y ≠ w.x := by
    rintro u y hut hy rfl
    exact hut (h.once u t _ _ hy hx rfl)
  refine h.change (t := t) (L.subset_link i w.x) ⟨hlinked.chain, hlinked.nested, hlinked.low⟩
    (Nat.le_refl _) (fun y hy => ?_) h.height (fun u y hy => L.subset_link i w.x 0 (h.node u y hy))
    (fun u hut => goto_other _ hut pc) (fun u y hut hy => ⟨fun j hj => ?_, fun j hj => ?_⟩) ?_
    fun y hy => ?_
  · rcases Levels.mem_link hy with hold | ⟨-, rfl⟩
    · exact h.allocated y hold
    · exact h.fresh t _ hx
  · exact (Levels.mem_link hj).resolve_right fun heq => hother u y hut hy heq.2
  · -- a node that is linked on the level already may be the one before
    by_cases hji : j = i
    · subst hji
      show (s.setNext j (w.prev j) (some w.x)).next j (some y) = s.next j (some y)
      rw [setNext_self]
      exact Function.update_of_ne (fun heq => hj (hplaced y heq.symm)) ..
    · exact congrFun (setNext_other s hji ..) _
  · rw [goto_self]
    exact hpc
  · rw [goto_self] at hy
    exact Or.inl (hins y hy)

end Change

end Dal.SkipList
