/-
Every step keeps the invariant of the skip list.

No assertion fails: what a thread has found out about a level stays true, so the keys it
compares later are where it left them, and two nodes with the same key never get in.
-/
import Dal.SkipList.Invariant

namespace Dal.SkipList

variable {K Thread : Type} [LinearOrder K]

section Splice

variable {kMaxHeight : Nat} {s : State K Thread} {L : Levels K} {w : Insertion K}
  {o o' o'' : Option (Node K)}

theorem LeAsPrev.refl (o : Option (Node K)) : LeAsPrev o o := fun a ha => ⟨a, ha, le_rfl⟩

theorem LeAsPrev.trans (h : LeAsPrev o o') (h' : LeAsPrev o' o'') : LeAsPrev o o'' := by
  intro a ha
  obtain ⟨b, hb, hab⟩ := h a ha
  obtain ⟨c, hc, hbc⟩ := h' b hb
  exact ⟨c, hc, hab.trans hbc⟩

/-- Of two nodes of the list that are in order, the first is the smaller one or the same. -/
theorem Linked.eq_or_lt (h : Linked s L) {i j : Nat} {a b : Node K} (ha : a ∈ L i) (hb : b ∈ L j)
    (hab : a.key ≤ b.key) : a = b ∨ a.key < b.key := by
  rcases hab.lt_or_eq with hlt | heq
  · exact Or.inr hlt
  · exact Or.inl ((h.chain 0).inj (h.subset (Nat.zero_le i) ha) (h.subset (Nat.zero_le j) hb) heq)

/-- What `Insert` asserts of its splice at the end. -/
theorem Linked.spliceOk (h : Linked s L) (hx : w.x ∈ L 0) (hw : Bracketed L w 0)
    (hvalid : w.valid = true) (hheight : w.x.height ≤ w.height) : w.linked.spliceOk = true := by
  have hprev : ∀ i, w.x.height ≤ i → w.linked.prev i = w.prev i := fun i hi =>
    if_neg (Nat.not_lt.mpr hi)
  have hself : ∀ i, i < w.x.height → w.linked.prev i = some w.x := fun i hi => if_pos hi
  have hnext : w.linked.next = w.next := rfl
  have htop : w.linked.prev w.height = none := (hprev _ hheight).trans hw.top.1
  unfold Insertion.spliceOk
  rw [Bool.and_eq_true, Bool.and_eq_true, List.all_eq_true]
  refine ⟨⟨decide_eq_true htop, decide_eq_true hw.top.2⟩, fun i hi => ?_⟩
  have hi : i < w.height := List.mem_range.mp hi
  have hb := hw.bracket i (Nat.zero_le i) hi.le
  have hb' := hw.bracket (i + 1) (Nat.zero_le _) hi
  obtain ⟨hinPrev, hinNext⟩ := hw.inside hvalid i (Nat.zero_le i) hi
  unfold Insertion.levelOk
  rw [Bool.and_eq_true, Bool.and_eq_true, Bool.and_eq_true]
  refine ⟨⟨⟨?_, ?_⟩, ?_⟩, ?_⟩
  · -- the key is before `next_[i]`
    rw [hnext]
    split
    · rfl
    · rename_i n hn
      rcases h.eq_or_lt hx (hb.mem n hn) (hb.le n hn) with rfl | hlt
      · exact absurd hn hb.other
      · exact decide_eq_true hlt
  · -- and not before `prev_[i]`
    split
    · rfl
    · rename_i p hp
      by_cases hlow : i < w.x.height
      · rw [hself i hlow] at hp
        cases hp
        exact decide_eq_true le_rfl
      · rw [hprev i (Nat.not_lt.mp hlow)] at hp
        exact decide_eq_true (hb.precedes p hp).le
  · -- `prev_` does not go back
    rw [Bool.or_eq_true]
    by_cases hup : i + 1 < w.x.height
    · exact Or.inl (decide_eq_true ((hself _ hup).trans (hself i (by omega)).symm))
    · rw [hprev (i + 1) (by omega)]
      cases hp : w.prev (i + 1) with
      | none => exact Or.inr rfl
      | some p =>
          by_cases hlow : i < w.x.height
          · rw [hself i hlow]
            exact Or.inr (decide_eq_true (hb'.precedes p hp))
          · rw [hprev i (by omega)]
            obtain ⟨q, hq, hpq⟩ := hinPrev p hp
            rw [hq]
            rcases h.eq_or_lt (hb'.placed p hp) (hb.placed q hq) hpq with rfl | hlt
            · exact Or.inl (decide_eq_true rfl)
            · exact Or.inr (decide_eq_true hlt)
  · -- nor `next_`
    rw [Bool.or_eq_true]
    rw [hnext]
    cases hn : w.next (i + 1) with
    | none => exact Or.inr rfl
    | some n =>
        obtain ⟨q, hq, hqn⟩ := hinNext n hn
        rw [hq]
        rcases h.eq_or_lt (hb.mem q hq) (hb'.mem n hn) hqn with rfl | hlt
        · exact Or.inl (decide_eq_true rfl)
        · exact Or.inr (decide_eq_true hlt)

/-- A level of the splice is set to what was found there. -/
theorem Bracketed.set (h : Linked s L) {level : Nat} {before : Option (Node K)}
    (hw : Bracketed L w (level + 1)) (hlevel : level < w.height) (hplaced : Placed (L level) before)
    (hbefore : Precedes Node.key before w.x.key)
    (hnext : ∀ b, s.next level before = some b → w.x.key ≤ b.key) (hx : w.x ∉ L level)
    (hprev : w.valid = true → LeAsPrev (w.prev (level + 1)) before) :
    Bracketed L (w.set level before (s.next level before)) level := by
  have hp : ∀ j, level < j → (w.set level before (s.next level before)).prev j = w.prev j :=
    fun j hj => Function.update_of_ne (Nat.ne_of_gt hj) ..
  have hn : ∀ j, level < j → (w.set level before (s.next level before)).next j = w.next j :=
    fun j hj => Function.update_of_ne (Nat.ne_of_gt hj) ..
  have hp0 : (w.set level before (s.next level before)).prev level = before :=
    Function.update_self ..
  have hn0 : (w.set level before (s.next level before)).next level = s.next level before :=
    Function.update_self ..
  have hfirst := h.first hplaced hbefore hnext
  refine ⟨⟨(hp _ hlevel).trans hw.top.1, (hn _ hlevel).trans hw.top.2⟩, fun j hj hjh => ?_,
    fun hvalid j hj hjh => ?_⟩
  · rcases Nat.eq_or_lt_of_le hj with rfl | hlt
    · refine ⟨by rw [hp0]; exact hplaced, by rw [hp0]; exact hbefore,
        fun b hb => hfirst.mem b (hn0 ▸ hb), fun b hb => hfirst.le b (hn0 ▸ hb), fun heq => hx (hfirst.mem _ (hn0 ▸ heq))⟩
    · have hb := hw.bracket j hlt hjh
      refine ⟨hp j hlt ▸ hb.placed, hp j hlt ▸ hb.precedes, fun b hb' => hb.mem b (hn j hlt ▸ hb'),
        fun b hb' => hb.le b (hn j hlt ▸ hb'), fun heq => hb.other (hn j hlt ▸ heq)⟩
  · rcases Nat.eq_or_lt_of_le hj with rfl | hlt
    · have hb := hw.bracket (level + 1) (Nat.le_refl _) hlevel
      refine ⟨?_, ?_⟩
      · rw [hp0, hp _ (Nat.lt_succ_self level)]
        exact hprev hvalid
      · rw [hn0, hn _ (Nat.lt_succ_self level)]
        intro b hb'
        obtain ⟨a, ha, hab⟩ := hfirst.least b (h.nested level (hb.mem b hb')) (hb.le b hb')
        exact ⟨a, ha, hab⟩
    · have hin := hw.inside hvalid j hlt hjh
      unfold Inside at hin ⊢
      rw [hp (j + 1) (by omega), hp j hlt, hn (j + 1) (by omega), hn j hlt]
      exact hin

/-- One level of a splice is found again; above level 0 it is not valid any more. -/
theorem Bracketed.refound (h : Linked s L) {i : Nat} {before : Option (Node K)}
    (hw : Bracketed L w 0) (hi : i < w.height) (hplaced : Placed (L i) before)
    (hbefore : Precedes Node.key before w.x.key)
    (hnext : ∀ b, s.next i before = some b → w.x.key ≤ b.key) (hx : w.x ∉ L i)
    (hprev : LeAsPrev (w.prev i) before) :
    Bracketed L { w.set i before (s.next i before) with valid := w.valid && decide (i = 0) } 0 := by
  have hup : Bracketed L w (i + 1) := ⟨hw.top, fun j _ => hw.bracket j (Nat.zero_le j),
    fun hvalid j _ => hw.inside hvalid j (Nat.zero_le j)⟩
  have hset := hup.set h hi hplaced hbefore hnext hx fun hvalid =>
    (hw.inside hvalid i (Nat.zero_le i) hi).1.trans hprev
  refine ⟨hset.top, fun j _ hjh => ?_, fun hvalid j _ hjh => ?_⟩
  · by_cases hij : i ≤ j
    · have hb := hset.bracket j hij hjh
      exact ⟨hb.placed, hb.precedes, hb.mem, hb.le, hb.other⟩
    · have hb := hw.bracket j (Nat.zero_le j) hjh
      have hp : Function.update w.prev i before j = w.prev j := Function.update_of_ne (by omega) ..
      have hn : Function.update w.next i (s.next i before) j = w.next j :=
        Function.update_of_ne (by omega) ..
      refine ⟨?_, ?_, fun b hb' => hb.mem b (hn ▸ hb'), fun b hb' => hb.le b (hn ▸ hb'),
        fun heq => hb.other (hn ▸ heq)⟩
      · show Placed (L j) (Function.update w.prev i before j)
        rw [hp]
        exact hb.placed
      · show Precedes Node.key (Function.update w.prev i before j) w.x.key
        rw [hp]
        exact hb.precedes
  · obtain ⟨hwas, hzero⟩ := Bool.and_eq_true_iff.mp hvalid
    have hi0 : i = 0 := of_decide_eq_true hzero
    subst hi0
    exact hset.inside hwas j (Nat.zero_le j) hjh

end Splice

section Step

variable [DecidableEq Thread] {kMaxHeight : Nat} {s s' : State K Thread} {L : Levels K} {t : Thread}

omit [DecidableEq Thread] in
/-- `Insert` knows a height of the list that its node fits under. -/
theorem pcOk_begin (hmax : kMaxHeight ≤ kMaxPossibleHeight) {x : Node K} {maxHeight : Nat}
    (hx : LinkedBelow L x 0) (hlow : 1 ≤ x.height) (hle : x.height ≤ maxHeight)
    (hheight : maxHeight ≤ kMaxHeight) :
    PcOk kMaxHeight s L (begin x maxHeight) ∧ (begin x maxHeight).inserting = some x := by
  unfold begin
  rw [if_neg (by omega), if_neg (by omega)]
  have hbracketed : Bracketed L (Insertion.start x maxHeight) (maxHeight - 1 + 1) := by
    refine ⟨⟨rfl, rfl⟩, fun j hj hjh => ?_, fun _ j hj hjh => ?_⟩
    · exact ⟨placed_head, precedes_head, fun b hb => (by cases hb), fun b hb => (by cases hb),
        fun hb => by cases hb⟩
    · have hjh' : j < maxHeight := hjh
      omega
  refine ⟨⟨hx, ⟨hlow, hle, hheight⟩, ?_, hbracketed, placed_head, precedes_head, ?_, rfl⟩, rfl⟩
  · show maxHeight - 1 < maxHeight
    omega
  · exact fun a ha => by cases ha

omit [DecidableEq Thread] in
theorem pcOk_checkHeight (hmax : kMaxHeight ≤ kMaxPossibleHeight) {x : Node K} {maxHeight : Nat}
    (hx : LinkedBelow L x 0) (hlow : 1 ≤ x.height) (hhigh : x.height ≤ kMaxHeight)
    (hheight : maxHeight ≤ kMaxHeight) : PcOk kMaxHeight s L (checkHeight x maxHeight) ∧
      (checkHeight x maxHeight).inserting = some x := by
  unfold checkHeight
  split
  · exact ⟨⟨hx, hlow, hhigh⟩, rfl⟩
  · exact pcOk_begin hmax hx hlow (by omega) hheight

omit [DecidableEq Thread] in
/-- Another node of the level may be before the key. -/
theorem Linked.further (h : Linked s L) {level : Nat} {before : Option (Node K)} {n : Node K}
    {k : K} (hplaced : Placed (L level) before) (hn : s.next level before = some n) (hk : n.key < k) :
    Placed (L level) (some n) ∧ Precedes Node.key (some n) k ∧ LeAsPrev before (some n) := by
  refine ⟨placed_some ((h.chain level).mem _ n hplaced hn), precedes_some hk, fun a ha => ?_⟩
  exact ⟨n, rfl, ((h.chain level).lt _ n hplaced hn a ha).le⟩

/-- A round of `FindSpliceForLevel<true>`. -/
theorem Inv.recompute (h : Inv kMaxHeight s L) {w : Insertion K} {level : Nat}
    {before after : Option (Node K)} (hpc : s.pc t = .recompute w level before after)
    {spurious : Bool} (hstep : runThread kMaxHeight s t spurious = some s') :
    Inv kMaxHeight s' L ∧ (s'.pc t).phase = .called (.insert w.x) := by
  have hok := h.pc t
  rw [hpc] at hok
  obtain ⟨hx, hheight, hlevel, hw, hplaced, hbefore, hprev, rfl⟩ := hok
  have hgo : ∀ {pc : Pc K}, s' = s.goto t pc → PcOk kMaxHeight s L pc → pc.inserting = some w.x →
      pc.phase = .called (.insert w.x) →
      Inv kMaxHeight s' L ∧ (s'.pc t).phase = .called (.insert w.x) := by
    rintro pc rfl hpc' hins hphase
    refine ⟨h.goto hpc' fun y hy => ?_, by rw [goto_self]; exact hphase⟩
    rw [hpc, ← hy, hins]
    rfl
  have habove := hw.bracket (level + 1) (Nat.le_refl _) hlevel
  simp only [runThread, hpc] at hstep
  rcases h.linked.round hplaced hbefore habove.le with
    ⟨hround, hnext⟩ | ⟨hround, n, hn, hk⟩
  · rw [hround] at hstep
    have hnot : w.x ∉ L level := fun hin => Nat.not_lt_zero _ ((hx level).mp hin)
    have hset := hw.set h.linked hlevel hplaced hbefore hnext hnot fun _ => hprev
    cases level with
    | zero => exact hgo (Option.some_inj.mp hstep).symm ⟨hx, hheight, hheight.1, hset⟩ rfl rfl
    | succ level =>
        refine hgo (Option.some_inj.mp hstep).symm ⟨hx, hheight, Nat.lt_of_succ_lt hlevel, hset,
          hplaced.mono (h.linked.nested level), hbefore, ?_, ?_⟩ rfl rfl
        · show LeAsPrev (Function.update w.prev (level + 1) before (level + 1)) before
          rw [Function.update_self]
          exact LeAsPrev.refl before
        · exact (Function.update_self (level + 1) (s.next (level + 1) before) w.next).symm
  · rw [hround, hn] at hstep
    obtain ⟨hplaced', hbefore', hle⟩ := h.linked.further hplaced hn hk
    exact hgo (Option.some_inj.mp hstep).symm
      ⟨hx, hheight, hlevel, hw, hplaced', hbefore', hprev.trans hle, rfl⟩ rfl rfl

/-- A round of `FindSpliceForLevel<false>`. -/
theorem Inv.refind (h : Inv kMaxHeight s L) {w : Insertion K} {i : Nat} {before : Option (Node K)}
    (hpc : s.pc t = .refind w i before) {spurious : Bool}
    (hstep : runThread kMaxHeight s t spurious = some s') :
    Inv kMaxHeight s' L ∧ (s'.pc t).phase = (s.pc t).phase := by
  have hok := h.pc t
  rw [hpc] at hok
  obtain ⟨⟨hx, hheight, hlevel, hw⟩, hplaced, hbefore, hprev⟩ := hok
  have hgo : ∀ {pc : Pc K}, s' = s.goto t pc → PcOk kMaxHeight s L pc → pc.inserting = some w.x →
      pc.phase = (s.pc t).phase →
      Inv kMaxHeight s' L ∧ (s'.pc t).phase = (s.pc t).phase := by
    rintro pc rfl hpc' hins hphase
    refine ⟨h.goto hpc' fun y hy => ?_, by rw [goto_self]; exact hphase⟩
    rw [hpc, ← hy, hins]
    rfl
  have hnone : ∀ a, (none : Option (Node K)) = some a → w.x.key ≤ a.key := fun a ha => by cases ha
  simp only [runThread, hpc] at hstep
  rcases h.linked.round hplaced hbefore hnone with
    ⟨hround, hnext⟩ | ⟨hround, n, hn, hk⟩
  · rw [hround] at hstep
    have hnot : w.x ∉ L i := fun hin => Nat.lt_irrefl _ ((hx i).mp hin)
    have hset := hw.refound h.linked (Nat.lt_of_lt_of_le hlevel hheight.2.1) hplaced hbefore hnext
      hnot hprev
    exact hgo (Option.some_inj.mp hstep).symm ⟨hx, hheight, hlevel, hset⟩ rfl (by rw [hpc]; rfl)
  · rw [hround, hn] at hstep
    obtain ⟨hplaced', hbefore', hle⟩ := h.linked.further hplaced hn hk
    exact hgo (Option.some_inj.mp hstep).symm
      ⟨⟨hx, hheight, hlevel, hw⟩, hplaced', hbefore', hprev.trans hle⟩ rfl (by rw [hpc]; rfl)

omit [DecidableEq Thread] in
/-- On level 0 a duplicate is found out; on the levels above there is none. -/
theorem Linking.checks (h : Linked s L) {w : Insertion K} {i : Nat}
    (hw : Linking kMaxHeight L w i) :
    (linkChecks w i = none ∧ ∀ b, w.next i = some b → w.x.key < b.key) ∨
      (linkChecks w i = some (.idle (some (.inserted false))) ∧ i = 0 ∧
        ∃ a ∈ L 0, a.key = w.x.key) := by
  have hb := hw.splice.bracket i (Nat.zero_le i)
    (Nat.le_of_lt (Nat.lt_of_lt_of_le hw.level hw.height.2.1))
  have hbefore : isBefore w.x.key (w.prev i) = true := isBefore_iff.mpr hb.precedes
  have hpass : (∀ b, w.next i = some b → w.x.key < b.key) → linkChecks w i = none := by
    intro hstrict
    unfold linkChecks
    cases hn : w.next i with
    | none => simp [hbefore]
    | some n => simp [hbefore, hstrict n hn]
  cases hn : w.next i with
  | none =>
      have hstrict : ∀ b, w.next i = some b → w.x.key < b.key := fun b hb' => by
        rw [hn] at hb'
        cases hb'
      exact Or.inl ⟨hpass hstrict, fun b hb' => by cases hb'⟩
  | some n =>
      rcases (hb.le n hn).lt_or_eq with hlt | heq
      · have hstrict : ∀ b, w.next i = some b → w.x.key < b.key := fun b hb' => by
          rw [hn] at hb'
          cases hb'
          exact hlt
        exact Or.inl ⟨hpass hstrict, fun b hb' => by cases hb'; exact hlt⟩
      · have hn0 : n ∈ L 0 := h.subset (Nat.zero_le i) (hb.mem n hn)
        by_cases hi : i = 0
        · subst hi
          refine Or.inr ⟨?_, rfl, n, hn0, heq.symm⟩
          unfold linkChecks
          simp [hn, heq]
        · -- the node itself is in the list already, and it is the only one with its key
          have hx0 : w.x ∈ L 0 := (hw.linked 0).mpr (Nat.pos_of_ne_zero hi)
          have hsame := (h.chain 0).inj hx0 hn0 heq
          exact absurd (hsame ▸ hn) hb.other

/-- The checks before the node is linked on a level, and where its own link goes. -/
theorem Inv.linkStep (h : Inv kMaxHeight s L) {w : Insertion K} {i : Nat}
    (hpc : s.pc t = .link w i) {spurious : Bool}
    (hstep : runThread kMaxHeight s t spurious = some s') :
    Inv kMaxHeight s' L ∧ (s'.pc t = .cas w i ∨
      (s'.pc t = .idle (some (.inserted false)) ∧ i = 0 ∧ ∃ a ∈ L 0, a.key = w.x.key)) := by
  have hw := h.pc t
  rw [hpc] at hw
  have hx : (s.pc t).inserting = some w.x := by
    rw [hpc]
    rfl
  simp only [runThread, hpc] at hstep
  rcases hw.checks h.linked with ⟨hpass, hstrict⟩ | ⟨hdup, hi, hkey⟩
  · rw [hpass] at hstep
    cases hstep
    have hnot : w.x ∉ L i := fun hin => Nat.lt_irrefl _ ((hw.linked i).mp hin)
    refine ⟨h.prepare hx hnot ⟨hw, ?_, hstrict⟩ fun y hy => hx.trans hy, Or.inl (goto_self _ _ _)⟩
    rw [setNext_self, Function.update_self]
  · rw [hdup] at hstep
    cases hstep
    exact ⟨h.goto trivial fun y hy => (by cases hy), Or.inr ⟨goto_self _ _ _, hi, hkey⟩⟩

omit [DecidableEq Thread] in
/-- After a node was linked on level `i`. -/
theorem Linking.linkedLevel {w : Insertion K} {i : Nat} (hw : Linking kMaxHeight L w i)
    (h : Linked s (L.link i w.x)) : PcOk kMaxHeight s (L.link i w.x) (linkedLevel w i) ∧
      (linkedLevel w i = .link w (i + 1) ∨ linkedLevel w i = .idle (some (.inserted true))) := by
  have hsplice := hw.splice.mono (L.subset_link i w.x)
  have hbelow : LinkedBelow (L.link i w.x) w.x (i + 1) := by
    intro j
    constructor
    · intro hj
      rcases Levels.mem_link hj with hold | ⟨rfl, -⟩
      · have := (hw.linked j).mp hold
        omega
      · exact Nat.lt_succ_self j
    · intro hj
      by_cases hji : j = i
      · subst hji
        rw [show L.link j w.x j = Set.insert w.x (L j) from Function.update_self ..]
        exact Or.inl rfl
      · exact L.subset_link i w.x j ((hw.linked j).mpr (by omega))
  unfold Dal.SkipList.linkedLevel
  split
  · rename_i hup
    exact ⟨⟨hbelow, hw.height, hup, hsplice⟩, Or.inl rfl⟩
  · have hok : ¬ (w.valid = true ∧ w.linked.spliceOk = false) := by
      rintro ⟨hvalid, hfalse⟩
      have hx0 : w.x ∈ L.link i w.x 0 := (hbelow 0).mpr (Nat.succ_pos i)
      rw [h.spliceOk hx0 hsplice hvalid hw.height.2.1] at hfalse
      cases hfalse
    unfold finish
    rw [if_neg hok]
    exact ⟨trivial, Or.inr rfl⟩

/-- The compare-and-swap of a level. -/
theorem Inv.casStep (h : Inv kMaxHeight s L) {w : Insertion K} {i : Nat}
    (hpc : s.pc t = .cas w i) {spurious : Bool}
    (hstep : runThread kMaxHeight s t spurious = some s') :
    (Inv kMaxHeight s' (L.link i w.x) ∧ (∀ a ∈ L i, a.key ≠ w.x.key) ∧
      (s'.pc t = .link w (i + 1) ∨ s'.pc t = .idle (some (.inserted true)))) ∨
    (Inv kMaxHeight s' L ∧ s'.pc t = .refind w i (w.prev i)) := by
  have hok := h.pc t
  rw [hpc] at hok
  obtain ⟨hw, hown, hstrict⟩ := hok
  have hx : (s.pc t).inserting = some w.x := by
    rw [hpc]
    rfl
  have hb := hw.splice.bracket i (Nat.zero_le i)
    (Nat.le_of_lt (Nat.lt_of_lt_of_le hw.level hw.height.2.1))
  simp only [runThread, hpc] at hstep
  split at hstep
  · rename_i hcas
    cases hstep
    have hlinked := h.linked.link hw hown hstrict hcas
    obtain ⟨hlevel, hnext⟩ := hw.linkedLevel hlinked
    refine Or.inl ⟨h.link hx hw hlinked hlevel fun y hy => ?_,
      (h.linked.chain i).gap hb.placed hb.precedes fun b hb' => hstrict b (hcas ▸ hb'), ?_⟩
    · rcases hnext with heq | heq <;> rw [heq] at hy
      · exact hx.trans hy
      · cases hy
    · rw [goto_self]
      exact hnext
  · cases hstep
    exact Or.inr ⟨h.goto ⟨hw, hb.placed, hb.precedes, LeAsPrev.refl _⟩ fun y hy => hx.trans hy,
      goto_self _ _ _⟩

/-- A round of `FindGreaterOrEqual`. -/
theorem Inv.seekStep (h : Inv kMaxHeight s L) {k : K} {x lastBigger : Option (Node K)} {level : Nat}
    (hpc : s.pc t = .seek k x level lastBigger) {spurious : Bool}
    (hstep : runThread kMaxHeight s t spurious = some s') :
    Inv kMaxHeight s' L ∧ ((∃ x level lastBigger, s'.pc t = .seek k x level lastBigger) ∨
      ∃ o, s'.pc t = .idle (some (.found o)) ∧ IsFirst Node.key (L 0) k o) := by
  have hok := h.pc t
  rw [hpc] at hok
  obtain ⟨hplaced, hbefore, hlevel, hbigger⟩ := hok
  -- the search goes on, or it is over
  have hgo : ∀ {x lastBigger level}, Placed (L level) x → Precedes Node.key x k →
      level < kMaxHeight → (∀ b, lastBigger = some b → k < b.key) →
      s' = s.goto t (.seek k x level lastBigger) →
      Inv kMaxHeight s' L ∧ ((∃ x level lastBigger, s'.pc t = .seek k x level lastBigger) ∨
        ∃ o, s'.pc t = .idle (some (.found o)) ∧ IsFirst Node.key (L 0) k o) := by
    rintro x lastBigger level hx hk hl hb rfl
    exact ⟨h.goto ⟨hx, hk, hl, hb⟩ fun y hy => (by cases hy), Or.inl ⟨_, _, _, goto_self _ _ _⟩⟩
  have hend : ∀ {o}, IsFirst Node.key (L 0) k o → s' = s.found t o →
      Inv kMaxHeight s' L ∧ ((∃ x level lastBigger, s'.pc t = .seek k x level lastBigger) ∨
        ∃ o, s'.pc t = .idle (some (.found o)) ∧ IsFirst Node.key (L 0) k o) := by
    rintro o hfirst rfl
    exact ⟨h.found hfirst.mem, Or.inr ⟨o, goto_self _ _ _, hfirst⟩⟩
  simp only [runThread, hpc, Option.some.injEq] at hstep
  unfold findGreaterOrEqual at hstep
  rw [if_neg (by rw [h.linked.inOrder hplaced]; exact Bool.noConfusion),
    if_neg (by rw [isBefore_iff.mpr hbefore]; exact Bool.noConfusion)] at hstep
  have hfirst : (∀ b, s.next level x = some b → k ≤ b.key) →
      IsFirst Node.key (L level) k (s.next level x) := h.linked.first hplaced hbefore
  cases hn : s.next level x with
  | none =>
      rw [hn] at hstep hfirst
      cases level with
      | zero => exact hend (hfirst fun b hb => by cases hb) hstep.symm
      | succ level =>
          exact hgo (hplaced.mono (h.linked.nested level)) hbefore (by omega)
            (fun b hb => by cases hb) hstep.symm
  | some n =>
      rw [hn] at hstep hfirst
      have hmem : n ∈ L level := (h.linked.chain level).mem x n hplaced hn
      simp only at hstep
      split at hstep
      · rename_i hless
        exact hgo (placed_some hmem) (precedes_some hless.2) hlevel hbigger hstep.symm
      · rename_i hless
        split at hstep
        · -- a node with the key itself, on whatever level
          rename_i hequal
          refine hend ⟨placed_some (h.linked.subset (Nat.zero_le level) hmem), fun b hb => ?_,
            fun a ha hka => ⟨n, rfl, ?_⟩⟩ hstep.symm
          · cases hb
            exact hequal.2.ge
          · exact hequal.2.trans_le hka
        · rename_i hequal
          have hbigger' : k < n.key := by
            by_cases hlast : lastBigger = some n
            · exact hbigger n hlast
            · have hne : some n ≠ lastBigger := fun heq => hlast heq.symm
              exact lt_of_le_of_ne (not_lt.mp fun hlt => hless ⟨hne, hlt⟩)
                fun heq => hequal ⟨hne, heq.symm⟩
          have hbig : ∀ b, some n = some b → k < b.key := fun b hb => by
            cases hb
            exact hbigger'
          cases level with
          | zero => exact hend (hfirst fun b hb => (hbig b hb).le) hstep.symm
          | succ level =>
              exact hgo (hplaced.mono (h.linked.nested level)) hbefore (by omega) hbig hstep.symm

/-- Where the height of the list is read, and where it is raised. -/
theorem Inv.heightStep (hmax : kMaxHeight ≤ kMaxPossibleHeight) (h : Inv kMaxHeight s L)
    {x : Node K} (hpc : s.pc t = .height x ∨ ∃ maxHeight, s.pc t = .raise x maxHeight)
    {spurious : Bool} (hstep : runThread kMaxHeight s t spurious = some s') :
    Inv kMaxHeight s' L ∧ (s'.pc t).phase = .called (.insert x) := by
  have hok : LinkedBelow L x 0 ∧ 1 ≤ x.height ∧ x.height ≤ kMaxHeight := by
    have := h.pc t
    rcases hpc with hpc | ⟨maxHeight, hpc⟩
    all_goals rw [hpc] at this; exact this
  have hx : (s.pc t).inserting = some x := by
    rcases hpc with hpc | ⟨maxHeight, hpc⟩
    all_goals rw [hpc]; rfl
  obtain ⟨hlinked, hlow, hhigh⟩ := hok
  have hbegin : ∀ maxHeight, (begin x maxHeight).inserting = some x →
      (begin x maxHeight).phase = .called (.insert x) := by
    intro maxHeight hins
    unfold begin at hins ⊢
    split
    · rename_i hlarge
      rw [if_pos hlarge] at hins
      cases hins
    · split
      · rename_i hlarge hzero
        rw [if_neg hlarge, if_pos hzero] at hins
        cases hins
      · rfl
  -- the height was read, and it may have been too small
  have hcheck : Inv kMaxHeight (s.goto t (checkHeight x s.maxHeight)) L ∧
      ((s.goto t (checkHeight x s.maxHeight)).pc t).phase = .called (.insert x) := by
    obtain ⟨hpcOk, hins⟩ := pcOk_checkHeight (s := s) hmax hlinked hlow hhigh h.height.2
    refine ⟨h.goto hpcOk fun y hy => hx.trans (hins ▸ hy), ?_⟩
    rw [goto_self]
    unfold checkHeight at hins ⊢
    split
    · rfl
    · rename_i hle
      rw [if_neg hle] at hins
      exact hbegin _ hins
  rcases hpc with hpc | ⟨maxHeight, hpc⟩
  · simp only [runThread, hpc] at hstep
    rw [if_pos ⟨hlow, hhigh⟩] at hstep
    cases hstep
    exact hcheck
  · simp only [runThread, hpc] at hstep
    split at hstep
    · cases hstep
      have hraised : Inv kMaxHeight { s with maxHeight := x.height } L := h.raise ⟨hlow, hhigh⟩
      obtain ⟨hpcOk, hins⟩ := pcOk_begin (s := { s with maxHeight := x.height }) hmax hlinked hlow
        (Nat.le_refl _) hhigh
      refine ⟨hraised.goto hpcOk fun y hy => hx.trans (hins ▸ hy), ?_⟩
      rw [goto_self]
      exact hbegin _ hins
    · cases hstep
      exact hcheck

/-- `FindGreaterOrEqual` begins at the top. -/
theorem Inv.topStep (h : Inv kMaxHeight s L) {k : K} (hpc : s.pc t = .top k) {spurious : Bool}
    (hstep : runThread kMaxHeight s t spurious = some s') :
    Inv kMaxHeight s' L ∧ (s'.pc t).phase = .called (.seek k) := by
  simp only [runThread, hpc, Option.some.injEq] at hstep
  cases hstep
  refine ⟨h.goto ⟨placed_head, precedes_head, ?_, fun b hb => (by cases hb)⟩
    fun y hy => (by cases hy), ?_⟩
  · have := h.height
    omega
  · rw [goto_self]
    rfl

/-- `Next` of an iterator. -/
theorem Inv.afterStep (h : Inv kMaxHeight s L) {x : Node K} (hpc : s.pc t = .after x)
    {spurious : Bool} (hstep : runThread kMaxHeight s t spurious = some s') :
    Inv kMaxHeight s' L ∧
      ∃ o, s'.pc t = .idle (some (.found o)) ∧ IsNext Node.key (L 0) x.key o := by
  have hx := h.pc t
  rw [hpc] at hx
  have hnext := (h.linked.chain 0).isNext hx
  simp only [runThread, hpc, Option.some.injEq] at hstep
  cases hstep
  exact ⟨h.found hnext.mem, _, goto_self _ _ _, hnext⟩

end Step

end Dal.SkipList
