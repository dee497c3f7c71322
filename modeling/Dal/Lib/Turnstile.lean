/-
A waiting queue whose nodes are let in one at a time.

The first node of a `WaitQueue` has its turn.  A node that waits looks at something of its own,
here `granted`, which is to say yes exactly when the node is the first; once it has looked, it
owns the turn.  `Turnstile` is that invariant, and there is one rule for each thing that may
happen: a node comes to an empty queue and owns the turn at once, or comes behind another; it links
itself in; it sees that it is granted; the last one leaves; one leaves and grants the next.

What waits, owns and is granted is given by predicates, so a lock says with its own states what
they mean, and a lock made of two such queues uses the rules twice.

`Moved` is what any of this does to the list of the nodes, and nobody overtakes in such a list.
-/
import Dal.Lib.WaitQueue

namespace Dal

universe u

variable {α : Type u}

structure Turnstile (next : α → Option α) (late : α → α → Prop) (tail : Option α)
    (waits owns granted : α → Prop) (q : List α) : Prop where
  linked : WaitQueue next late tail q
  mem : ∀ x, x ∈ q ↔ waits x ∨ owns x
  apart : ∀ x, waits x → ¬ owns x
  turn : ∀ x, owns x → q.head? = some x
  grant : ∀ x, waits x → (granted x ↔ q.head? = some x)

namespace Turnstile

variable {next next' : α → Option α} {late late' : α → α → Prop} {tail : Option α}
  {waits waits' owns owns' granted granted' : α → Prop} {q : List α} {a n x y : α}

theorem nil (hwaits : ∀ x, ¬ waits x) (howns : ∀ x, ¬ owns x) :
    Turnstile next late none waits owns granted [] :=
  ⟨.nil, fun x => by simp [hwaits x, howns x], fun x hx => absurd hx (hwaits x),
    fun x hx => absurd hx (howns x), fun x hx => absurd hx (hwaits x)⟩

section Facts

variable (h : Turnstile next late tail waits owns granted q)

include h

/-- Only one node owns the turn. -/
theorem owns_unique (hx : owns x) (hy : owns y) : x = y :=
  Option.some.inj ((h.turn x hx).symm.trans (h.turn y hy))

/-- Nor is another one granted it. -/
theorem granted_unique (hx : waits x) (hgrant : granted x) (hy : owns y) : x = y :=
  Option.some.inj (((h.grant x hx).mp hgrant).symm.trans (h.turn y hy))

theorem cons_of_owns (hx : owns x) : ∃ q', q = x :: q' := by
  have hhead := h.turn x hx
  cases q with
  | nil => cases hhead
  | cons c q' => exact ⟨q', by rw [Option.some.inj hhead]⟩

theorem congr (hnext : ∀ x ∈ q, next' x = next x) (hlate : ∀ x ∈ q, ∀ p, late' x p ↔ late x p)
    (hwaits : ∀ x, waits' x ↔ waits x) (howns : ∀ x, owns' x ↔ owns x)
    (hgrant : ∀ x, waits x → (granted' x ↔ granted x)) :
    Turnstile next' late' tail waits' owns' granted' q := by
  refine ⟨h.linked.congr hnext hlate, fun x => ?_, fun x hx => ?_, fun x hx => ?_,
    fun x hx => ?_⟩
  · rw [hwaits, howns, h.mem]
  · rw [howns]
    exact h.apart x ((hwaits x).mp hx)
  · exact h.turn x ((howns x).mp hx)
  · have hx := (hwaits x).mp hx
    rw [hgrant x hx, h.grant x hx]

end Facts

/-! ### The rules -/

/-- A node that comes to an empty queue owns the turn. -/
theorem arriveFirst (h : Turnstile next late none waits owns granted q) (hnext : next x = none)
    (hlate : ∀ p, ¬ late' x p) (hx : ¬ waits' x ∧ owns' x)
    (hothers : ∀ y, y ≠ x → (waits' y ↔ waits y) ∧ (owns' y ↔ owns y)) :
    Turnstile next late' (some x) waits' owns' granted' [x] := by
  obtain rfl := h.linked.eq_nil
  have hnone : ∀ y, y ≠ x → ¬ waits' y ∧ ¬ owns' y := by
    intro y hy
    rw [(hothers y hy).1, (hothers y hy).2]
    exact not_or.mp ((h.mem y).not.mp List.not_mem_nil)
  refine ⟨.singleton hnext hlate, fun y => ?_, fun y hy => ?_, fun y hy => ?_, fun y hy => ?_⟩
  · rw [List.mem_singleton]
    by_cases hyx : y = x
    · subst hyx
      exact iff_of_true rfl (Or.inr hx.2)
    · exact iff_of_false hyx (not_or.mpr (hnone y hyx))
  · by_cases hyx : y = x
    · exact absurd (hyx ▸ hy) hx.1
    · exact absurd hy (hnone y hyx).1
  · by_cases hyx : y = x
    · rw [hyx]
      rfl
    · exact absurd hy (hnone y hyx).2
  · by_cases hyx : y = x
    · exact absurd (hyx ▸ hy) hx.1
    · exact absurd hy (hnone y hyx).1

/-- A node that comes behind another waits, and is not granted the turn. -/
theorem arriveBehind (h : Turnstile next late (some a) waits owns granted q)
    (hnot : ¬ waits x ∧ ¬ owns x) (hnext : next x = none) (hlate : ∀ p, late' x p ↔ p = a)
    (hsame : ∀ y ∈ q, ∀ p, late' y p ↔ late y p) (hx : waits' x ∧ ¬ owns' x ∧ ¬ granted' x)
    (hothers : ∀ y, y ≠ x → (waits' y ↔ waits y) ∧ (owns' y ↔ owns y))
    (hgrant : ∀ y, y ≠ x → waits y → (granted' y ↔ granted y)) :
    Turnstile next late' (some x) waits' owns' granted' (q ++ [x]) := by
  have hxq : x ∉ q := (h.mem x).not.mpr (not_or.mpr hnot)
  have hne : q ≠ [] := List.ne_nil_of_mem h.linked.tail_mem
  have hhead : (q ++ [x]).head? = q.head? := List.head?_append_of_ne_nil _ hne
  have hfirst : q.head? ≠ some x := fun heq => hxq (List.mem_of_mem_head? heq)
  refine ⟨h.linked.push hxq hnext hlate hsame, fun y => ?_, fun y hy => ?_, fun y hy => ?_,
    fun y hy => ?_⟩
  · rw [List.mem_append, List.mem_singleton]
    by_cases hyx : y = x
    · subst hyx
      exact iff_of_true (Or.inr rfl) (Or.inl hx.1)
    · rw [(hothers y hyx).1, (hothers y hyx).2, ← h.mem y]
      exact or_iff_left hyx
  · by_cases hyx : y = x
    · rw [hyx]
      exact hx.2.1
    · rw [(hothers y hyx).2]
      exact h.apart y ((hothers y hyx).1.mp hy)
  · have hyx : y ≠ x := fun heq => hx.2.1 (heq ▸ hy)
    rw [hhead]
    exact h.turn y ((hothers y hyx).2.mp hy)
  · rw [hhead]
    by_cases hyx : y = x
    · subst hyx
      exact iff_of_false hx.2.2 hfirst
    · have hy := (hothers y hyx).1.mp hy
      rw [hgrant y hyx hy, h.grant y hy]

/-- A waiting node sees that it is granted the turn. -/
theorem enter (h : Turnstile next late tail waits owns granted q) (hw : waits x) (hg : granted x)
    (hsame : ∀ y ∈ q, ∀ p, late' y p ↔ late y p) (hx : ¬ waits' x ∧ owns' x)
    (hothers : ∀ y, y ≠ x → (waits' y ↔ waits y) ∧ (owns' y ↔ owns y))
    (hgrant : ∀ y, y ≠ x → waits y → (granted' y ↔ granted y)) :
    Turnstile next late' tail waits' owns' granted' q := by
  have hhead := (h.grant x hw).mp hg
  refine ⟨h.linked.congr (fun _ _ => rfl) hsame, fun y => ?_, fun y hy => ?_, fun y hy => ?_,
    fun y hy => ?_⟩
  · by_cases hyx : y = x
    · subst hyx
      exact iff_of_true ((h.mem y).mpr (Or.inl hw)) (Or.inr hx.2)
    · rw [(hothers y hyx).1, (hothers y hyx).2, h.mem y]
  · have hyx : y ≠ x := fun heq => hx.1 (heq ▸ hy)
    rw [(hothers y hyx).2]
    exact h.apart y ((hothers y hyx).1.mp hy)
  · by_cases hyx : y = x
    · rw [hyx]
      exact hhead
    · exact h.turn y ((hothers y hyx).2.mp hy)
  · have hyx : y ≠ x := fun heq => hx.1 (heq ▸ hy)
    have hy := (hothers y hyx).1.mp hy
    rw [hgrant y hyx hy, h.grant y hy]

/-- An owner that is the tail is alone. -/
theorem alone (h : Turnstile next late (some x) waits owns granted q) (ho : owns x) : q = [x] := by
  obtain ⟨q', rfl⟩ := h.cons_of_owns ho
  rw [h.linked.alone]

/-- Then it leaves. -/
theorem close (h : Turnstile next late (some x) waits owns granted q) (ho : owns x)
    (hx : ¬ waits' x ∧ ¬ owns' x)
    (hothers : ∀ y, y ≠ x → (waits' y ↔ waits y) ∧ (owns' y ↔ owns y)) :
    Turnstile next' late' none waits' owns' granted' [] := by
  obtain rfl := h.alone ho
  have hnone : ∀ y, ¬ waits' y ∧ ¬ owns' y := by
    intro y
    by_cases hyx : y = x
    · exact hyx ▸ hx
    · rw [(hothers y hyx).1, (hothers y hyx).2]
      exact not_or.mp ((h.mem y).not.mp fun hm => hyx (List.mem_singleton.mp hm))
  exact nil (fun y => (hnone y).1) fun y => (hnone y).2

/-- The owner sees the next one, and grants it the turn. -/
theorem pass (h : Turnstile next late tail waits owns granted q) (ho : owns x)
    (hnext : next x = some n) (hsame : ∀ y ∈ q, y ≠ x → ∀ p, late' y p ↔ late y p)
    (hx : ¬ waits' x ∧ ¬ owns' x)
    (hothers : ∀ y, y ≠ x → (waits' y ↔ waits y) ∧ (owns' y ↔ owns y)) (hn : granted' n)
    (hgrant : ∀ y, y ≠ n → (granted' y ↔ granted y)) :
    (∃ q', q = x :: n :: q') ∧ n ≠ x ∧ waits n ∧ ¬ granted n ∧
      Turnstile next late' tail waits' owns' granted' q.tail := by
  obtain ⟨q', rfl⟩ := h.cons_of_owns ho
  obtain ⟨q'', rfl, hlinked⟩ := h.linked.pop hnext
  obtain ⟨hxq, -⟩ := List.nodup_cons.mp h.linked.nodup
  have hnx : n ≠ x := fun heq => hxq (heq ▸ List.mem_cons_self ..)
  have hwaiting : ∀ y, waits y → ¬ granted y := fun y hy hg =>
    h.apart y hy (h.granted_unique hy hg ho ▸ ho)
  have hwn : waits n := by
    have hmem := (h.mem n).mp (List.mem_cons_of_mem _ (List.mem_cons_self ..))
    exact hmem.resolve_right fun hown => hnx (h.owns_unique hown ho)
  refine ⟨⟨q'', rfl⟩, hnx, hwn, hwaiting n hwn, hlinked.congr (fun _ _ => rfl) fun y hy =>
    hsame y (List.mem_cons_of_mem _ hy) (ne_of_mem_of_not_mem hy hxq), fun y => ?_, fun y hy => ?_,
    fun y hy => ?_, fun y hy => ?_⟩
  · by_cases hyx : y = x
    · subst hyx
      exact iff_of_false hxq (not_or.mpr hx)
    · rw [(hothers y hyx).1, (hothers y hyx).2, ← h.mem y, List.mem_cons]
      exact (or_iff_right hyx).symm
  · have hyx : y ≠ x := fun heq => hx.1 (heq ▸ hy)
    rw [(hothers y hyx).2]
    exact h.apart y ((hothers y hyx).1.mp hy)
  · have hyx : y ≠ x := fun heq => hx.2 (heq ▸ hy)
    exact absurd (h.owns_unique ((hothers y hyx).2.mp hy) ho) hyx
  · have hyx : y ≠ x := fun heq => hx.1 (heq ▸ hy)
    by_cases hyn : y = n
    · subst hyn
      exact iff_of_true hn rfl
    · rw [hgrant y hyn]
      exact iff_of_false (hwaiting y ((hothers y hyx).1.mp hy))
        fun heq => hyn (Option.some.inj heq).symm

/-- A node that waits links itself in behind the one it found. -/
theorem link [DecidableEq α] (h : Turnstile next late tail waits owns granted q) (hx : waits x)
    (hlate : late x a) (honly : ∀ p, late x p → p = a) (hnot : ∀ p, ¬ late' x p)
    (hsame : ∀ y ∈ q, y ≠ x → ∀ p, late' y p ↔ late y p)
    (hwaits : ∀ y, waits' y ↔ waits y) (howns : ∀ y, owns' y ↔ owns y)
    (hgrant : ∀ y, waits y → (granted' y ↔ granted y)) :
    a ∈ q ∧ next a = none ∧
      Turnstile (Function.update next a (some x)) late' tail waits' owns' granted' q := by
  have hmem := (h.mem x).mpr (Or.inl hx)
  have ha : a ∈ q := by
    obtain ⟨l₁, l₂, rfl⟩ := h.linked.late_behind hmem hlate honly
    simp
  have hlinked := h.linked.link hmem hlate honly hnot hsame
  have h' : Turnstile (Function.update next a (some x)) late' tail waits owns granted q :=
    ⟨hlinked, h.mem, h.apart, h.turn, h.grant⟩
  exact ⟨ha, h.linked.next_of_late hmem hlate honly,
    h'.congr (fun _ _ => rfl) (fun _ _ _ => Iff.rfl) hwaits howns hgrant⟩

end Turnstile

/-! ### What becomes of the list -/

/-- One more is in the queue, or the first one has left it, or it is as it was. -/
def Moved (q q' : List α) : Prop := q' = q ∨ (∃ x, q' = q ++ [x]) ∨ q' = q.tail

/-- `x` is in the queue, and `y` is not in front of it. -/
def Unpassed (x y : α) (q : List α) : Prop := ∃ l₁ l₂, q = l₁ ++ x :: l₂ ∧ y ∉ l₁

section List

variable {q q' : List α} {x y : α}

theorem Unpassed.of_not_mem (hx : x ∈ q) (hy : y ∉ q) : Unpassed x y q := by
  obtain ⟨l₁, l₂, rfl⟩ := List.append_of_mem hx
  exact ⟨l₁, l₂, rfl, fun hm => hy (List.mem_append_left _ hm)⟩

theorem Unpassed.head (h : Unpassed x y q) (hhead : q.head? = some y) : y = x := by
  obtain ⟨l₁, l₂, rfl, hy⟩ := h
  cases l₁ with
  | nil => exact (Option.some.inj hhead).symm
  | cons z l₁ => exact absurd (Option.some.inj hhead ▸ List.mem_cons_self ..) hy

/-- While it is in the queue, nobody passes it. -/
theorem Unpassed.moved (h : Unpassed x y q) (hmoved : Moved q q') (hnodup : q.Nodup)
    (hx : x ∈ q') : Unpassed x y q' := by
  obtain ⟨l₁, l₂, rfl, hy⟩ := h
  rcases hmoved with rfl | ⟨z, rfl⟩ | rfl
  · exact ⟨l₁, l₂, rfl, hy⟩
  · exact ⟨l₁, l₂ ++ [z], by simp, hy⟩
  · cases l₁ with
    | nil => exact absurd hx (List.nodup_cons.mp hnodup).1
    | cons z l₁ => exact ⟨l₁, l₂, rfl, fun hm => hy (List.mem_cons_of_mem _ hm)⟩

variable [DecidableEq α]

/-- When the first one leaves, the place of another gets lower. -/
theorem idxOf_tail (hnodup : q.Nodup) (hx : x ∈ q.tail) : q.tail.idxOf x + 1 = q.idxOf x := by
  cases q with
  | nil => cases hx
  | cons y q =>
      rw [List.tail_cons, List.idxOf_cons_ne]
      rintro rfl
      exact (List.nodup_cons.mp hnodup).1 hx

/-- It never gets higher. -/
theorem Moved.idxOf_le (h : Moved q q') (hx : x ∈ q) (hnodup : q.Nodup) (hx' : x ∈ q') :
    q'.idxOf x ≤ q.idxOf x := by
  rcases h with rfl | ⟨z, rfl⟩ | rfl
  · exact Nat.le_refl _
  · rw [List.idxOf_append_of_mem hx]
  · exact Nat.le_of_succ_le (idxOf_tail hnodup hx').le

end List

end Dal
