/-
A queue of waiting nodes that link themselves in.

A node first makes itself the tail, in one exchange, and only then writes itself into the `next`
of the node that was the tail before.  In between it is late: the queue has it, but nobody can
walk to it.  `WaitQueue` says what `next` and the tail are in the meantime, for the list of the
nodes in the order of their exchanges, and has one rule for each thing that is done to such a
queue: the exchange, the late link, the first node's leaving, and the closing of a queue of one.
-/
import Mathlib.Data.List.Chain
import Mathlib.Data.List.Nodup
import Mathlib.Logic.Function.Basic

namespace Dal

universe u

variable {α : Type u}

/-- `b` is behind `a`: `a` leads to `b`, or will once `b` is no longer late. -/
def Behind (next : α → Option α) (late : α → α → Prop) (a b : α) : Prop :=
  (late b a ∧ next a = none) ∨ ((∀ p, ¬ late b p) ∧ next a = some b)

/-- The nodes of the queue are those of `q`, in this order. -/
structure WaitQueue (next : α → Option α) (late : α → α → Prop) (tail : Option α)
    (q : List α) : Prop where
  nodup : q.Nodup
  chain : q.IsChain (Behind next late)
  first : ∀ a ∈ q.head?, ∀ p, ¬ late a p
  last : ∀ a ∈ q.getLast?, next a = none
  tail : q.getLast? = tail

namespace WaitQueue

variable {next next' : α → Option α} {late late' : α → α → Prop} {tail : Option α} {q : List α}
  {a b x : α}

/-! ### What a queue is made of -/

theorem nil : WaitQueue next late none [] :=
  ⟨List.nodup_nil, .nil, by simp, by simp, rfl⟩

theorem singleton (hnext : next x = none) (hlate : ∀ p, ¬ late x p) :
    WaitQueue next late (some x) [x] :=
  ⟨List.nodup_singleton x, .singleton x, by simpa using hlate, by simpa using hnext, rfl⟩

/-- A queue is as its own nodes have it. -/
theorem congr (h : WaitQueue next late tail q) (hnext : ∀ a ∈ q, next' a = next a)
    (hlate : ∀ b ∈ q, ∀ p, late' b p ↔ late b p) : WaitQueue next' late' tail q := by
  refine ⟨h.nodup, h.chain.imp_of_mem_imp fun a b ha hb hab => ?_, fun a ha p => ?_,
    fun a ha => ?_, h.tail⟩
  · rcases hab with ⟨hl, hn⟩ | ⟨hl, hn⟩
    · exact Or.inl ⟨(hlate b hb a).mpr hl, (hnext a ha).trans hn⟩
    · exact Or.inr ⟨fun p hp => hl p ((hlate b hb p).mp hp), (hnext a ha).trans hn⟩
  · rw [hlate a (List.mem_of_mem_head? ha)]
    exact h.first a ha p
  · rw [hnext a (List.mem_of_mem_getLast? ha)]
    exact h.last a ha

theorem eq_nil (h : WaitQueue next late none q) : q = [] := List.getLast?_eq_none_iff.mp h.tail

theorem tail_mem (h : WaitQueue next late (some a) q) : a ∈ q := List.mem_of_mem_getLast? h.tail

/-- The tail leads nowhere. -/
theorem next_tail (h : WaitQueue next late (some a) q) : next a = none := h.last a h.tail

/-- A late node is behind the one it says. -/
theorem late_behind (h : WaitQueue next late tail q) (hb : b ∈ q) (hlate : late b a)
    (honly : ∀ p, late b p → p = a) : ∃ l₁ l₂, q = l₁ ++ a :: b :: l₂ := by
  obtain ⟨l₁, l₂, rfl⟩ := List.append_of_mem hb
  rcases List.eq_nil_or_concat l₁ with rfl | ⟨l₁, c, rfl⟩
  · exact absurd hlate (h.first b rfl a)
  · have hchain := h.chain
    rw [List.concat_eq_append, List.append_assoc, List.singleton_append,
      List.isChain_append_cons_cons] at hchain
    obtain rfl : c = a := by
      rcases hchain.2.1 with ⟨hl, -⟩ | ⟨hnone, -⟩
      · exact honly c hl
      · exact absurd hlate (hnone a)
    exact ⟨l₁, l₂, by simp⟩

theorem next_of_late (h : WaitQueue next late tail q) (hb : b ∈ q) (hlate : late b a)
    (honly : ∀ p, late b p → p = a) : next a = none := by
  obtain ⟨l₁, l₂, rfl⟩ := h.late_behind hb hlate honly
  have hchain := h.chain
  rw [List.isChain_append_cons_cons] at hchain
  exact (hchain.2.1.resolve_right fun hnot => hnot.1 a hlate).2

/-! ### The rules -/

/-- The exchange finds a tail: the new node is the last one, and late. -/
theorem push (h : WaitQueue next late (some a) q) (hx : x ∉ q) (hnext : next x = none)
    (hlate : ∀ p, late' x p ↔ p = a) (hsame : ∀ b ∈ q, ∀ p, late' b p ↔ late b p) :
    WaitQueue next late' (some x) (q ++ [x]) := by
  have h' : WaitQueue next late' (some a) q := h.congr (fun _ _ => rfl) hsame
  have hne : q ≠ [] := List.ne_nil_of_mem h.tail_mem
  refine ⟨?_, ?_, ?_, ?_, by simp⟩
  · exact List.Nodup.append h.nodup (List.nodup_singleton x) (by simpa using hx)
  · refine h'.chain.append (.singleton x) fun b hb y hy => ?_
    obtain rfl : x = y := by simpa using hy
    obtain rfl : a = b := by simpa [h.tail] using hb
    exact Or.inl ⟨(hlate a).mpr rfl, h.next_tail⟩
  · rw [List.head?_append_of_ne_nil _ hne]
    exact h'.first
  · simpa using hnext

variable [DecidableEq α]

/-- The late node links itself in. -/
theorem link (h : WaitQueue next late tail q) (hb : b ∈ q) (hlate : late b a)
    (honly : ∀ p, late b p → p = a) (hnot : ∀ p, ¬ late' b p)
    (hsame : ∀ c ∈ q, c ≠ b → ∀ p, late' c p ↔ late c p) :
    WaitQueue (Function.update next a (some b)) late' tail q := by
  obtain ⟨l₁, l₂, rfl⟩ := h.late_behind hb hlate honly
  have hchain := h.chain
  rw [List.isChain_append_cons_cons, List.isChain_append] at hchain
  obtain ⟨⟨hfront, -, hjoin⟩, -, hback⟩ := hchain
  have hsub : ∀ x y : α, x ≠ a → y ≠ b → y ∈ l₁ ++ a :: b :: l₂ → Behind next late x y →
      Behind (Function.update next a (some b)) late' x y := by
    intro x y hx hy hmem hxy
    unfold Behind at hxy ⊢
    rw [Function.update_of_ne hx]
    rcases hxy with ⟨hl, hn⟩ | ⟨hl, hn⟩
    · exact Or.inl ⟨(hsame y hmem hy x).mpr hl, hn⟩
    · exact Or.inr ⟨fun p hp => hl p ((hsame y hmem hy p).mp hp), hn⟩
  have hdisjoint := List.disjoint_of_nodup_append h.nodup
  have hright := h.nodup.of_append_right
  have ha₁ : a ∉ l₁ := fun hm => hdisjoint hm (List.mem_cons_self ..)
  have hb₁ : b ∉ l₁ := fun hm => hdisjoint hm (by simp)
  have ha₂ : a ∉ b :: l₂ := (List.nodup_cons.mp hright).1
  have hb₂ : b ∉ l₂ := (List.nodup_cons.mp hright.of_cons).1
  have hab : a ≠ b := fun heq => ha₂ (heq ▸ List.mem_cons_self ..)
  refine ⟨h.nodup, ?_, fun c hc p => ?_, fun c hc => ?_, h.tail⟩
  · rw [List.isChain_append_cons_cons, List.isChain_append]
    refine ⟨⟨hfront.imp_of_mem_imp fun x y hx hy => hsub x y (ne_of_mem_of_not_mem hx ha₁)
      (ne_of_mem_of_not_mem hy hb₁) (by simp [hy]), .singleton a, fun x hx y hy => ?_⟩,
      Or.inr ⟨hnot, Function.update_self ..⟩, ?_⟩
    · obtain rfl : a = y := by simpa using hy
      exact hsub x a (ne_of_mem_of_not_mem (List.mem_of_mem_getLast? hx) ha₁) hab (by simp)
        (hjoin x hx a hy)
    · refine hback.imp_of_mem_tail_imp fun x y hx hy => hsub x y (ne_of_mem_of_not_mem hx ha₂)
        (ne_of_mem_of_not_mem hy hb₂) ?_
      simp only [List.tail_cons] at hy
      simp [hy]
  · have hcb : c ≠ b := by
      rintro rfl
      exact absurd hlate (h.first c hc a)
    rw [hsame c (List.mem_of_mem_head? hc) hcb]
    exact h.first c hc p
  · have hca : c ≠ a := by
      rintro rfl
      have hl : c ∈ (b :: l₂).getLast? := by simpa using hc
      exact ha₂ (List.mem_of_mem_getLast? hl)
    rw [Function.update_of_ne hca]
    exact h.last c hc

omit [DecidableEq α]

/-- The first node leaves when it can see the second. -/
theorem pop (h : WaitQueue next late tail (a :: q)) (hnext : next a = some b) :
    ∃ q', q = b :: q' ∧ WaitQueue next late tail q := by
  cases q with
  | nil => exact absurd (h.last a rfl) (by rw [hnext]; exact Option.some_ne_none b)
  | cons c q =>
      obtain ⟨hac, hchain⟩ := List.isChain_cons_cons.mp h.chain
      rcases hac with ⟨-, hn⟩ | ⟨hl, hn⟩
      · exact absurd (hnext.symm.trans hn) (Option.some_ne_none b)
      · obtain rfl : c = b := Option.some.inj (hn.symm.trans hnext)
        refine ⟨q, rfl, h.nodup.of_cons, hchain, ?_, ?_, ?_⟩
        · simpa using hl
        · simpa using h.last
        · simpa using h.tail

/-- The first node is the tail: it is alone. -/
theorem alone (h : WaitQueue next late (some a) (a :: q)) : q = [] := by
  cases q with
  | nil => rfl
  | cons c q =>
      have hmem : a ∈ c :: q := List.mem_of_mem_getLast? (by simpa using h.tail)
      exact absurd hmem (List.nodup_cons.mp h.nodup).1

/-- The first node is not the tail and sees nobody: the second one is late. -/
theorem second_late (h : WaitQueue next late tail (a :: q)) (hnext : next a = none)
    (htail : tail ≠ some a) : ∃ b q', q = b :: q' ∧ late b a := by
  cases q with
  | nil => exact absurd h.tail.symm htail
  | cons c q =>
      rcases (List.isChain_cons_cons.mp h.chain).1 with ⟨hl, -⟩ | ⟨-, hn⟩
      · exact ⟨c, q, rfl, hl⟩
      · exact absurd (hnext.symm.trans hn) (Option.some_ne_none c).symm

end WaitQueue

end Dal
