/-
Who owns what: things that are held at places, waiting in a list, or gone.

A place holds at most one thing.  Things are named by reusable names, as the addresses
of a heap are, so the heap says which allocation a name stands for at the moment:

  * `Accounted` says that a name is held once altogether when it is live and nowhere
    when it is not, whether at a place of the first kind, at a place of the second
    kind or in the list;
  * `Allocations` says that every allocation is either live under one name or has been
    freed once.

Each way of moving a thing keeps the first, and only `alloc` and the two ways of
freeing touch the second.
-/
import Mathlib.Algebra.BigOperators.Group.Finset.Piecewise
import Mathlib.Algebra.BigOperators.Group.Finset.Basic
import Mathlib.Algebra.Ring.Int.Defs
import Mathlib.Algebra.Ring.Nat
import Mathlib.Data.Fintype.Basic
import Mathlib.Tactic.Abel

namespace Dal

universe u v w x

/-- A sum over the values of a function changes in one term when one value changes. -/
theorem sum_update {ι : Type u} {β : Type v} {M : Type w} [DecidableEq ι] [AddCommMonoid M]
    {s : Finset ι} {i : ι} (hi : i ∈ s) (f : ι → β) (v : β) (g : β → M) :
    ∑ j ∈ s, g (Function.update f i v j) + g (f i) = ∑ j ∈ s, g (f j) + g v := by
  rw [← Finset.add_sum_erase s (fun j => g (Function.update f i v j)) hi,
    ← Finset.add_sum_erase s (fun j => g (f j)) hi]
  have hrest : ∑ j ∈ s.erase i, g (Function.update f i v j) = ∑ j ∈ s.erase i, g (f j) := by
    refine Finset.sum_congr rfl fun j hj => ?_
    rw [Function.update_of_ne (Finset.ne_of_mem_erase hj)]
  rw [hrest, Function.update_self]
  abel

/-- A sum over one place more, whatever that place held before. -/
theorem sum_insert_update {ι : Type u} {β : Type v} {M : Type w} [DecidableEq ι]
    [AddCommMonoid M] {s : Finset ι} {i : ι} (hi : i ∉ s) (f : ι → β) (v : β) (g : β → M) :
    ∑ j ∈ insert i s, g (Function.update f i v j) = ∑ j ∈ s, g (f j) + g v := by
  rw [Finset.sum_insert hi, Function.update_self, add_comm]
  refine congrArg (· + g v) (Finset.sum_congr rfl fun j hj => ?_)
  rw [Function.update_of_ne (fun hji : j = i => hi (hji ▸ hj))]

namespace Ownership

variable {ι : Type u} {κ : Type v} {α : Type w} {γ : Type x} [DecidableEq ι] [DecidableEq κ]
  [DecidableEq α]

/-- `1` if `p` is `a`, for counting. -/
def one (p : Option α) (a : α) : Nat := if p = some a then 1 else 0

@[simp] theorem one_none (a : α) : one none a = 0 := rfl

@[simp] theorem one_self (a : α) : one (some a) a = 1 := by
  simp [one]

theorem one_of_ne {a b : α} (h : a ≠ b) : one (some a) b = 0 := by
  simp [one, h]

/-- How many places of `s` hold `a`. -/
def held (s : Finset ι) (f : ι → Option α) (a : α) : Nat := ∑ i ∈ s, one (f i) a

section Held

variable {s : Finset ι} {f : ι → Option α} {i j : ι} {a : α} {p : Option α}

theorem held_update (hi : i ∈ s) :
    held s (Function.update f i p) a + one (f i) a = held s f a + one p a :=
  sum_update hi f p fun q => one q a

theorem held_insert (hi : i ∉ s) :
    held (insert i s) (Function.update f i p) a = held s f a + one p a :=
  sum_insert_update hi f p fun q => one q a

omit [DecidableEq ι] in
theorem held_pos (hi : i ∈ s) (h : f i = some a) : 0 < held s f a := by
  classical
  have hsplit : one (f i) a + ∑ j ∈ s.erase i, one (f j) a = held s f a :=
    Finset.add_sum_erase s (fun j => one (f j) a) hi
  rw [h, one_self] at hsplit
  omega

omit [DecidableEq ι] in
theorem held_eq_zero (h : ∀ i ∈ s, f i = none) : held s f a = 0 := by
  refine Finset.sum_eq_zero fun i hi => ?_
  rw [h i hi, one_none]

/-- How many places of `s` hold anything. -/
def filled (s : Finset ι) (f : ι → Option α) : Nat := ∑ i ∈ s, if (f i).isSome then 1 else 0

omit [DecidableEq α] in
theorem filled_update (hi : i ∈ s) :
    filled s (Function.update f i p) + (if (f i).isSome then 1 else 0)
      = filled s f + if p.isSome then 1 else 0 :=
  sum_update hi f p fun q => if q.isSome then 1 else 0

omit [DecidableEq α] in
theorem filled_insert (hi : i ∉ s) :
    filled (insert i s) (Function.update f i p) = filled s f + if p.isSome then 1 else 0 :=
  sum_insert_update hi f p fun q => if q.isSome then 1 else 0

omit [DecidableEq ι] in
theorem held_eq_card : held s f a = (s.filter fun i => f i = some a).card :=
  (Finset.card_filter _ _).symm

omit [DecidableEq ι] [DecidableEq α] in
theorem filled_eq_card : filled s f = (s.filter fun i => (f i).isSome).card :=
  (Finset.card_filter _ _).symm

end Held

/-- Every name is held once when it is live, and nowhere when it is not. -/
def Accounted (heap : α → Option γ) (s : Finset ι) (f : ι → Option α) (t : Finset κ)
    (g : κ → Option α) (l : List α) : Prop :=
  ∀ a, held s f a + held t g a + l.count a = if (heap a).isSome then 1 else 0

namespace Accounted

variable {heap : α → Option γ} {s : Finset ι} {f : ι → Option α} {t : Finset κ}
  {g : κ → Option α} {l : List α} {i : ι} {k : κ} {a : α} {c : γ}

/-! ### Where a live thing is -/

omit [DecidableEq ι] [DecidableEq κ] in
theorem live_of_pos (h : Accounted heap s f t g l)
    (hpos : 0 < held s f a + held t g a + l.count a) : (heap a).isSome := by
  by_contra hdead
  have hcount := h a
  rw [if_neg hdead] at hcount
  omega

omit [DecidableEq ι] [DecidableEq κ] in
theorem live_of_place (h : Accounted heap s f t g l) (hi : i ∈ s) (hf : f i = some a) :
    (heap a).isSome := by
  refine h.live_of_pos ?_
  have hpos := held_pos hi hf
  omega

omit [DecidableEq ι] [DecidableEq κ] in
theorem live_of_hand (h : Accounted heap s f t g l) (hk : k ∈ t) (hg : g k = some a) :
    (heap a).isSome := by
  refine h.live_of_pos ?_
  have hpos := held_pos hk hg
  omega

omit [DecidableEq ι] [DecidableEq κ] in
theorem live_of_mem (h : Accounted heap s f t g l) (ha : a ∈ l) : (heap a).isSome := by
  refine h.live_of_pos ?_
  have hpos := List.count_pos_iff.mpr ha
  omega

/-! ### Moving things -/

omit [DecidableEq ι] in
theorem alloc (h : Accounted heap s f t g l) (hk : k ∈ t) (hg : g k = none)
    (ha : heap a = none) :
    Accounted (Function.update heap a (some c)) s f t (Function.update g k (some a)) l := by
  intro b
  have hcount := h b
  have hhand := held_update (a := b) (p := some a) (f := g) hk
  rw [hg, one_none] at hhand
  by_cases hb : a = b
  · rw [← hb] at hcount hhand ⊢
    rw [ha, Option.isSome_none, if_neg Bool.false_ne_true] at hcount
    rw [one_self] at hhand
    rw [Function.update_self, Option.isSome_some, if_pos rfl]
    omega
  · rw [one_of_ne hb] at hhand
    rw [Function.update_of_ne (Ne.symm hb)]
    omega

omit [DecidableEq ι] [DecidableEq κ] in
/-- Any move that leaves the heap as it is. -/
theorem move (h : Accounted heap s f t g l) {s' : Finset ι} {f' : ι → Option α}
    {g' : κ → Option α} {l' : List α}
    (hmove : ∀ b, held s' f' b + held t g' b + l'.count b
      = held s f b + held t g b + l.count b) : Accounted heap s' f' t g' l' := by
  intro b
  rw [hmove b]
  exact h b

theorem store (h : Accounted heap s f t g l) (hi : i ∈ s) (hf : f i = none) (hk : k ∈ t)
    (hg : g k = some a) :
    Accounted heap s (Function.update f i (some a)) t (Function.update g k none) l := by
  refine h.move fun b => ?_
  have hplace := held_update (a := b) (p := some a) (f := f) hi
  have hhand := held_update (a := b) (p := none) (f := g) hk
  rw [hf, one_none] at hplace
  rw [hg, one_none] at hhand
  omega

theorem storeNew (h : Accounted heap s f t g l) (hi : i ∉ s) (hk : k ∈ t) (hg : g k = some a) :
    Accounted heap (insert i s) (Function.update f i (some a)) t (Function.update g k none)
      l := by
  refine h.move fun b => ?_
  have hplace := held_insert (a := b) (p := some a) (f := f) hi
  have hhand := held_update (a := b) (p := none) (f := g) hk
  rw [hg, one_none] at hhand
  omega

theorem take (h : Accounted heap s f t g l) (hi : i ∈ s) (hf : f i = some a) (hk : k ∈ t)
    (hg : g k = none) :
    Accounted heap s (Function.update f i none) t (Function.update g k (some a)) l := by
  refine h.move fun b => ?_
  have hplace := held_update (a := b) (p := none) (f := f) hi
  have hhand := held_update (a := b) (p := some a) (f := g) hk
  rw [hf, one_none] at hplace
  rw [hg, one_none] at hhand
  omega

omit [DecidableEq ι] in
theorem push (h : Accounted heap s f t g l) (hk : k ∈ t) (hg : g k = some a) :
    Accounted heap s f t (Function.update g k none) (l ++ [a]) := by
  refine h.move fun b => ?_
  have hhand := held_update (a := b) (p := none) (f := g) hk
  rw [hg, one_none] at hhand
  rw [List.count_append, List.count_singleton]
  simp only [one, Option.some.injEq, beq_iff_eq] at hhand ⊢
  omega

omit [DecidableEq ι] in
/-- What a hand held is freed. -/
theorem free (h : Accounted heap s f t g l) (hk : k ∈ t) (hg : g k = some a) :
    Accounted (Function.update heap a none) s f t (Function.update g k none) l := by
  intro b
  have hcount := h b
  have hhand := held_update (a := b) (p := none) (f := g) hk
  rw [hg, one_none] at hhand
  by_cases hb : a = b
  · rw [← hb] at hcount hhand ⊢
    rw [if_pos (h.live_of_hand hk hg)] at hcount
    rw [one_self] at hhand
    rw [Function.update_self, Option.isSome_none, if_neg Bool.false_ne_true]
    omega
  · rw [one_of_ne hb] at hhand
    rw [Function.update_of_ne (Ne.symm hb)]
    omega

omit [DecidableEq ι] [DecidableEq κ] in
/-- The first of the list is freed. -/
theorem freeHead (h : Accounted heap s f t g (a :: l)) :
    Accounted (Function.update heap a none) s f t g l := by
  intro b
  have hcount := h b
  rw [List.count_cons] at hcount
  by_cases hb : a = b
  · rw [← hb] at hcount ⊢
    rw [if_pos (h.live_of_mem (List.mem_cons_self ..)), if_pos (beq_self_eq_true a)] at hcount
    rw [Function.update_self, Option.isSome_none, if_neg Bool.false_ne_true]
    omega
  · rw [if_neg (by simpa using hb)] at hcount
    rw [Function.update_of_ne (Ne.symm hb)]
    exact hcount

end Accounted

/-- Allocations are numbered; each is live under one name or has been freed once. -/
structure Allocations (heap : α → Option Nat) (next : Nat) (freed : List (Option Nat)) :
    Prop where
  lt_next : ∀ {a c}, heap a = some c → c < next
  unique : ∀ {a b c}, heap a = some c → heap b = some c → a = b
  settled : ∀ c < next, (∃ a, heap a = some c) ∧ some c ∉ freed ∨
    (∀ a, heap a ≠ some c) ∧ freed.count (some c) = 1
  freed_lt : ∀ {c}, some c ∈ freed → c < next
  /-- Only what is live is freed. -/
  freed_live : none ∉ freed

namespace Allocations

variable {heap : α → Option Nat} {next : Nat} {freed : List (Option Nat)} {a : α} {c : Nat}

omit [DecidableEq α] in
theorem start : Allocations (fun _ : α => none) 0 [] where
  lt_next h := by cases h
  unique h := by cases h
  settled c hc := absurd hc (Nat.not_lt_zero c)
  freed_lt h := by cases h
  freed_live h := by cases h

theorem alloc (h : Allocations heap next freed) (ha : heap a = none) :
    Allocations (Function.update heap a (some next)) (next + 1) freed := by
  have hnext : ∀ {b c}, Function.update heap a (some next) b = some c →
      b = a ∧ c = next ∨ heap b = some c := by
    intro b c hb
    by_cases hba : b = a
    · rw [hba, Function.update_self] at hb
      exact Or.inl ⟨hba, (Option.some.inj hb).symm⟩
    · rw [Function.update_of_ne hba] at hb
      exact Or.inr hb
  refine ⟨fun {b c} hb => ?_, fun {b b' c} hb hb' => ?_, fun c hc => ?_,
    fun hc => Nat.lt_succ_of_lt (h.freed_lt hc), h.freed_live⟩
  · rcases hnext hb with ⟨-, hc⟩ | hold
    · omega
    · exact Nat.lt_succ_of_lt (h.lt_next hold)
  · rcases hnext hb with ⟨hba, hc⟩ | hold <;> rcases hnext hb' with ⟨hba', hc'⟩ | hold'
    · rw [hba, hba']
    · exact absurd (h.lt_next hold') (by omega)
    · exact absurd (h.lt_next hold) (by omega)
    · exact h.unique hold hold'
  · by_cases heq : c = next
    · refine Or.inl ⟨⟨a, by rw [Function.update_self, heq]⟩, fun hmem => ?_⟩
      exact absurd (h.freed_lt hmem) (by omega)
    rcases h.settled c (by omega) with ⟨⟨b, hb⟩, hfreed⟩ | ⟨hdead, hfreed⟩
    · have hba : b ≠ a := by
        intro hba
        rw [hba, ha] at hb
        cases hb
      exact Or.inl ⟨⟨b, by rw [Function.update_of_ne hba, hb]⟩, hfreed⟩
    · refine Or.inr ⟨fun b hb => ?_, hfreed⟩
      rcases hnext hb with ⟨-, hc'⟩ | hold
      · exact heq hc'
      · exact hdead b hold

theorem free (h : Allocations heap next freed) (ha : (heap a).isSome) :
    Allocations (Function.update heap a none) next (freed ++ [heap a]) := by
  obtain ⟨d, hd⟩ := Option.isSome_iff_exists.mp ha
  have hleft : ∀ {b c}, Function.update heap a none b = some c → b ≠ a ∧ heap b = some c := by
    intro b c hb
    by_cases hba : b = a
    · rw [hba, Function.update_self] at hb
      cases hb
    · rw [Function.update_of_ne hba] at hb
      exact ⟨hba, hb⟩
  rw [hd]
  refine ⟨fun hb => h.lt_next (hleft hb).2, fun hb hb' => h.unique (hleft hb).2 (hleft hb').2,
    fun c hc => ?_, fun {c} hc => ?_, fun hnone => ?_⟩
  · rw [List.count_append]
    rcases h.settled c hc with ⟨⟨b, hb⟩, hfreed⟩ | ⟨hdead, hfreed⟩
    · by_cases hcd : c = d
      · -- the allocation that goes
        refine Or.inr ⟨fun b' hb' => ?_, ?_⟩
        · obtain ⟨hne, hheap⟩ := hleft hb'
          rw [hcd] at hheap
          exact hne (h.unique hheap hd)
        · rw [List.count_eq_zero.mpr hfreed, hcd, List.count_singleton_self]
      · have hba : b ≠ a := by
          intro hba
          rw [hba, hd] at hb
          exact hcd (Option.some.inj hb).symm
        refine Or.inl ⟨⟨b, by rw [Function.update_of_ne hba, hb]⟩, fun hmem => ?_⟩
        rcases List.mem_append.mp hmem with hold | hnew
        · exact hfreed hold
        · exact hcd (Option.some.inj (List.mem_singleton.mp hnew))
    · have hcd : c ≠ d := fun hcd => hdead a (by rw [hd, hcd])
      refine Or.inr ⟨fun b' hb' => hdead b' (hleft hb').2, ?_⟩
      have hnot : some c ∉ [some d] := fun hmem =>
        hcd (Option.some.inj (List.mem_singleton.mp hmem))
      rw [hfreed, List.count_eq_zero.mpr hnot]
  · rcases List.mem_append.mp hc with hold | hnew
    · exact h.freed_lt hold
    · rw [Option.some.inj (List.mem_singleton.mp hnew)]
      exact h.lt_next hd
  · rcases List.mem_append.mp hnone with hold | hnew
    · exact h.freed_live hold
    · cases List.mem_singleton.mp hnew

end Allocations

section AtRest

variable {heap : α → Option Nat} {next : Nat} {freed : List (Option Nat)} {s : Finset ι}
  {f : ι → Option α} {t : Finset κ} {g : κ → Option α} {l : List α} {a : α} {c : Nat}

omit [DecidableEq ι] in
/-- Names and allocations count the same at places. -/
theorem held_bind (h : Allocations heap next freed) (ha : heap a = some c) :
    held s (fun i => (f i).bind heap) c = held s f a := by
  refine Finset.sum_congr rfl fun i _ => ?_
  show one ((f i).bind heap) c = one (f i) a
  cases f i with
  | none => rfl
  | some b =>
      rw [Option.bind_some]
      by_cases hba : b = a
      · rw [hba, ha, one_self, one_self]
      · rw [one_of_ne hba, one, if_neg]
        exact fun hb => hba (h.unique hb ha)

/-- Names and allocations count the same in the list. -/
theorem count_map (h : Allocations heap next freed) (ha : heap a = some c) :
    (l.map heap).count (some c) = l.count a := by
  induction l with
  | nil => rfl
  | cons b l ih =>
      rw [List.map_cons, List.count_cons, List.count_cons, ih]
      by_cases hba : b = a
      · rw [hba, ha, if_pos (beq_self_eq_true _), if_pos (beq_self_eq_true _)]
      · have hb : heap b ≠ some c := fun hb => hba (h.unique hb ha)
        rw [if_neg (by simpa using hb), if_neg (by simpa using hba)]

omit [DecidableEq ι] [DecidableEq κ] in
/-- With empty hands every allocation is at one place, once in the list, or freed once. -/
theorem settled_once (h : Accounted heap s f t g l) (hmem : Allocations heap next freed)
    (hempty : ∀ k ∈ t, g k = none) (hc : c < next) :
    held s (fun i => (f i).bind heap) c + (l.map heap).count (some c) + freed.count (some c)
      = 1 := by
  rcases hmem.settled c hc with ⟨⟨a, ha⟩, hfreed⟩ | ⟨hdead, hfreed⟩
  · have hcount := h a
    rw [ha, Option.isSome_some, if_pos rfl, held_eq_zero hempty] at hcount
    rw [held_bind hmem ha, count_map hmem ha, List.count_eq_zero.mpr hfreed]
    omega
  · have hplaces : held s (fun i => (f i).bind heap) c = 0 := by
      refine Finset.sum_eq_zero fun i _ => ?_
      rw [one, if_neg]
      intro hi
      obtain ⟨a, -, ha⟩ := Option.bind_eq_some_iff.mp hi
      exact hdead a ha
    have hlist : some c ∉ l.map heap := by
      intro hmap
      obtain ⟨a, -, ha⟩ := List.mem_map.mp hmap
      exact hdead a ha
    rw [hplaces, List.count_eq_zero.mpr hlist, hfreed]

end AtRest

end Ownership

end Dal
