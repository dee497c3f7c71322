/-
How many keys a tree of a given height can hold.

A leaf has room for 53 keys and an internal page for 60 records, so it has at most 61
children.  When no separator is on its way up, every page but the root is the child of a
page one level above.  Counting downwards from the root, a tree whose root is on level
`top` has at most `61 ^ i` pages on the level `i` below it, and `53 * 61 ^ top` keys.
So a tree that is given enough keys grows as high as one likes.
-/
import Dal.Tree.Growth
import Mathlib.Algebra.Order.BigOperators.Group.Finset

namespace Dal.Tree

/-- If each element belongs to something to which at most `n` elements belong, one finds at least
`1 / n` times as many of these things. -/
theorem exists_card_le_mul {α β : Type} [DecidableEq β] {R : α → β → Prop} {P : Finset α} {n : Nat}
    (hR : ∀ a ∈ P, ∃ b, R a b)
    (hfew : ∀ a ∈ P, ∀ b, R a b → ∃ F : Finset α, F.card ≤ n ∧ ∀ a', R a' b → a' ∈ F) :
    ∃ Q : Finset β, (∀ b ∈ Q, ∃ a ∈ P, R a b) ∧ P.card ≤ n * Q.card := by
  classical
  by_cases hempty : P.Nonempty
  · obtain ⟨a₀, ha₀⟩ := hempty
    have hall : ∀ a, ∃ b, a ∈ P → R a b := by
      intro a
      by_cases ha : a ∈ P
      · exact (hR a ha).imp fun _ hb _ => hb
      · exact ⟨(hR a₀ ha₀).choose, fun hin => absurd hin ha⟩
    choose f hf using hall
    refine ⟨P.image f, fun b hb => ?_, Finset.card_le_mul_card_image P n fun b hb => ?_⟩
    · obtain ⟨a, ha, rfl⟩ := Finset.mem_image.mp hb
      exact ⟨a, ha, hf a ha⟩
    · obtain ⟨a, ha, rfl⟩ := Finset.mem_image.mp hb
      obtain ⟨F, hcard, hF⟩ := hfew a ha _ (hf a ha)
      refine (Finset.card_le_card fun a' ha' => ?_).trans hcard
      obtain ⟨hin, heq⟩ := Finset.mem_filter.mp ha'
      exact hF a' (heq ▸ hf a' hin)
  · rw [Finset.not_nonempty_iff_eq_empty.mp hempty]
    exact ⟨∅, fun b hb => absurd hb (Finset.notMem_empty b), Nat.le_refl _⟩

/-- The children of an internal page. -/
def pointers (page : InternalPage) : Finset GlobalAddress :=
  insert page.hdr.leftmostPtr (page.records.map InternalEntry.ptr).toFinset

theorem mem_pointers {page : InternalPage} {a : GlobalAddress} :
    a ∈ pointers page ↔ a = page.hdr.leftmostPtr ∨ ∃ r ∈ page.records, r.ptr = a := by
  unfold pointers
  rw [Finset.mem_insert, List.mem_toFinset, List.mem_map]

theorem card_pointers {m : Chart} {page : InternalPage} {below : Nat} (hok : page.Ok m below) :
    (pointers page).card ≤ kInternalCardinality := by
  have hrecords : (page.records.map InternalEntry.ptr).toFinset.card ≤ page.records.length :=
    (List.toFinset_card_le _).trans_eq (List.length_map _)
  have hinsert := Finset.card_insert_le page.hdr.leftmostPtr
    (page.records.map InternalEntry.ptr).toFinset
  have hroom := hok.room
  unfold pointers
  omega

section Capacity

variable {cfg : Config} {s : State} {m : Chart} {top : Nat}

/-- Page `u` is one level above `a`, whose level is `l`, and leads to it. -/
def ChildOf (cfg : Config) (s : State) (m : Chart) (l : Nat) (a u : GlobalAddress) : Prop :=
  ∃ y page, m u = some (l + 1, y) ∧ s.content cfg u = some (.internal page) ∧ a ∈ pointers page

/-- The pages below the root have a page above them, unless a client is about to post one. -/
theorem Growing.parent (h : Growing cfg s m) (hroot : m s.rootPtr = some (top, kKeyMin))
    (hquiet : ∀ c, (s.clients c).pc.pending = none) {a : GlobalAddress} {l x : Nat}
    (ha : m a = some (l, x)) (hl : l < top) : ∃ u, ChildOf cfg s m l a u := by
  by_cases hx : x = kKeyMin
  · -- the first page of the level above leads to the first of this one
    subst hx
    have hview : ViewOk (s.content cfg) s.rootPtr m top :=
      ⟨h.inv.shape.null, hroot, fun _ _ _ hb => h.inv.shape.content_ok hb,
        fun _ _ _ hb hc => h.inv.shape.inj hb hc⟩
    obtain ⟨u, hu⟩ := hview.exists_leftmost (show l + 1 ≤ top from hl)
    have hmu := hview.leftmost hu
    obtain ⟨page, hpage, hok⟩ := h.inv.shape.content_ok hmu
    obtain ⟨ipage, rfl, hint⟩ := hok.internal
    have hlow : ipage.hdr.lowest = kKeyMin := hok.lowest
    have hfirst := hint.leftmost
    rw [hlow] at hfirst
    exact ⟨u, kKeyMin, ipage, hmu, hpage,
      mem_pointers.mpr (Or.inl (h.inv.shape.inj ha hfirst))⟩
  · rcases h.known a l x ha hx with ⟨u, y, page, hu, hpage, hpoints⟩ | ⟨c, hpending⟩
    · cases page with
      | leaf page => exact hpoints.elim
      | internal page =>
          refine ⟨u, y, page, hu, hpage, mem_pointers.mpr ?_⟩
          rcases hpoints with hr | ⟨-, hleft⟩
          · exact Or.inr ⟨_, hr, rfl⟩
          · exact Or.inl hleft.symm
    · rw [hquiet c] at hpending
      cases hpending

/-- The root is the only page of its level. -/
theorem Growing.top_only (h : Growing cfg s m) (hroot : m s.rootPtr = some (top, kKeyMin))
    (hquiet : ∀ c, (s.clients c).pc.pending = none) {a : GlobalAddress} {x : Nat}
    (ha : m a = some (top, x)) : a = s.rootPtr := by
  by_cases hx : x = kKeyMin
  · subst hx
    exact h.inv.shape.inj ha hroot
  · rcases h.known a top x ha hx with ⟨u, y, page, hu, -, -⟩ | ⟨c, hpending⟩
    · obtain ⟨top', htop', hmax⟩ := h.inv.top
      rw [hroot] at htop'
      cases htop'
      exact absurd (hmax u _ _ hu) (Nat.not_succ_le_self top)
    · rw [hquiet c] at hpending
      cases hpending

/-- **One level below there are at most 61 times as many pages.** -/
theorem Growing.card_pages (h : Growing cfg s m) (hroot : m s.rootPtr = some (top, kKeyMin))
    (hquiet : ∀ c, (s.clients c).pc.pending = none) : ∀ i ≤ top, ∀ P : Finset GlobalAddress,
    (∀ a ∈ P, ∃ x, m a = some (top - i, x)) → P.card ≤ kInternalCardinality ^ i := by
  intro i
  induction i with
  | zero =>
      intro _ P hP
      refine Finset.card_le_one.mpr fun a ha b hb => ?_
      obtain ⟨x, hx⟩ := hP a ha
      obtain ⟨y, hy⟩ := hP b hb
      rw [h.top_only hroot hquiet hx, h.top_only hroot hquiet hy]
  | succ i ih =>
      intro hi P hP
      have hlevel : top - (i + 1) + 1 = top - i := by omega
      have hchild : ∀ a ∈ P, ∃ u, ChildOf cfg s m (top - (i + 1)) a u := by
        intro a ha
        obtain ⟨x, hx⟩ := hP a ha
        exact h.parent hroot hquiet hx (by omega)
      obtain ⟨Q, hQ, hcard⟩ := exists_card_le_mul (n := kInternalCardinality) hchild
        (fun a _ u hu => by
          obtain ⟨y, page, hmu, hpage, -⟩ := hu
          obtain ⟨q, hq, hok⟩ := h.inv.shape.content_ok hmu
          rw [hpage] at hq
          cases hq
          obtain ⟨below, -, hint⟩ := hok.body
          refine ⟨pointers page, card_pointers hint, ?_⟩
          rintro a' ⟨y', page', -, hpage', ha'⟩
          rw [hpage] at hpage'
          cases hpage'
          exact ha')
      have hQcard := ih (by omega) Q fun u hu => by
        obtain ⟨a, -, y, page, hmu, -, -⟩ := hQ u hu
        exact ⟨y, hlevel ▸ hmu⟩
      calc P.card ≤ kInternalCardinality * Q.card := hcard
        _ ≤ kInternalCardinality * kInternalCardinality ^ i := Nat.mul_le_mul_left _ hQcard
        _ = kInternalCardinality ^ (i + 1) := (Nat.pow_succ' ..).symm

/-- The keys of a leaf. -/
theorem card_leafKeys {page : LeafPage} (hok : page.Ok) :
    ((page.records.filter LeafEntry.live).map LeafEntry.key).toFinset.card < kLeafCardinality := by
  refine Nat.lt_of_le_of_lt ((List.toFinset_card_le _).trans_eq (List.length_map _)) ?_
  rw [← List.countP_eq_length_filter]
  exact hok.room

/-- **A tree whose root is on level `top` holds at most `53 * 61 ^ top` keys.** -/
theorem Growing.card_keys (h : Growing cfg s m) (hroot : m s.rootPtr = some (top, kKeyMin))
    (hquiet : ∀ c, (s.clients c).pc.pending = none) (K : Finset Nat)
    (hK : ∀ k ∈ K, ∃ v, Holds cfg s m k v) :
    K.card ≤ (kLeafCardinality - 1) * kInternalCardinality ^ top := by
  -- a key belongs to the leaf that holds it
  have hleaf : ∀ k ∈ K, ∃ a : GlobalAddress, ∃ x leaf v, m a = some (0, x) ∧
      s.content cfg a = some (.leaf leaf) ∧ leaf.Has k v := by
    intro k hk
    obtain ⟨v, a, ⟨l, x⟩, page, ha, hpage, hhas⟩ := hK k hk
    obtain ⟨q, hq, hok⟩ := h.inv.shape.content_ok ha
    rw [hpage] at hq
    cases hq
    cases page with
    | leaf leaf =>
        obtain ⟨hl, -, -⟩ := hok.has_within hhas
        subst hl
        exact ⟨a, x, leaf, v, ha, hpage, hhas⟩
    | internal page => exact hhas.elim
  obtain ⟨Q, hQ, hcard⟩ := exists_card_le_mul (n := kLeafCardinality - 1) hleaf
    (fun k _ a ha => by
      obtain ⟨x, leaf, v, hma, hcontent, -⟩ := ha
      obtain ⟨q, hq, hok⟩ := h.inv.shape.content_ok hma
      rw [hcontent] at hq
      cases hq
      refine ⟨_, Nat.le_pred_of_lt (card_leafKeys hok.body), ?_⟩
      rintro k' ⟨x', leaf', v', -, hcontent', r, hr, hlive, rfl, -⟩
      rw [hcontent] at hcontent'
      cases hcontent'
      exact List.mem_toFinset.mpr
        (List.mem_map_of_mem (List.mem_filter.mpr ⟨hr, hlive⟩)))
  have hQcard := h.card_pages hroot hquiet top (Nat.le_refl top) Q fun a ha => by
    obtain ⟨k, -, x, leaf, v, hma, -, -⟩ := hQ a ha
    exact ⟨x, (Nat.sub_self top).symm ▸ hma⟩
  exact hcard.trans (Nat.mul_le_mul_left _ hQcard)

end Capacity

end Dal.Tree
