/-
The shape of the tree, said of the memory alone.

`Linked` is what one finds going down from the root by `leftmost_ptr` and then right by
`sibling_ptr`, and `Blink` is the list of what a B-link tree promises about that.  It is
proved of the pages as they lie in memory and of the pages with the posted writes
carried out, which differ only where writes are batched: a client under the lock and
a client that reads without one both see a tree.
-/
import Dal.Tree.Step

namespace Dal.Tree

/-- A memory, or the pages it is about to hold. -/
abbrev View := GlobalAddress → Option Page

/-- The first page of each level. -/
inductive Leftmost (view : View) (root : GlobalAddress) : Nat → GlobalAddress → Prop
  | root {page : Page} (h : view root = some page) : Leftmost view root page.hdr.level root
  | down {l : Nat} {a : GlobalAddress} {page : Page} (h : Leftmost view root (l + 1) a)
      (hpage : view a = some page) : Leftmost view root l page.hdr.leftmostPtr

/-- `b` is the sibling of `a`. -/
def Sibling (view : View) (a b : GlobalAddress) : Prop :=
  ∃ page, view a = some page ∧ page.hdr.siblingPtr = b ∧ b ≠ .Null

/-- The pages of a level, as one finds them. -/
def Linked (view : View) (root : GlobalAddress) (l : Nat) (a : GlobalAddress) : Prop :=
  ∃ first, Leftmost view root l first ∧ Relation.ReflTransGen (Sibling view) first a

/-- The pair is in a leaf of the tree. -/
def Pairs (view : View) (root : GlobalAddress) (k v : Nat) : Prop :=
  ∃ a page, Linked view root 0 a ∧ view a = some page ∧ page.Has k v

structure Blink (view : View) (root : GlobalAddress) : Prop where
  /-- Linked pages exist, and are of the level they are linked on. -/
  page : ∀ l a, Linked view root l a → ∃ page, view a = some page ∧ page.hdr.level = l ∧
    page.hdr.lowest < page.hdr.highest ∧ page.hdr.highest ≤ kKeyMax
  /-- A page ends where its sibling begins, and the last page of a level at `kKeyMax`. -/
  fences : ∀ l a page, Linked view root l a → view a = some page →
    (page.hdr.highest = kKeyMax ∧ page.hdr.siblingPtr = .Null) ∨
      (page.hdr.siblingPtr ≠ .Null ∧
        ∃ next, view page.hdr.siblingPtr = some next ∧ page.hdr.highest = next.hdr.lowest)
  /-- On every level up to the root's, each key is in exactly one page. -/
  cover : ∀ rootPage l k, view root = some rootPage → l ≤ rootPage.hdr.level → kKeyMin ≤ k →
    k < kKeyMax → ∃! a, Linked view root l a ∧
      ∃ page, view a = some page ∧ page.hdr.lowest ≤ k ∧ k < page.hdr.highest
  /-- The keys of a leaf lie within its fences, and no two records hold the same. -/
  leaf : ∀ a, Linked view root 0 a → ∃ page, view a = some (.leaf page) ∧
    (∀ r ∈ page.records, r.live = true → page.hdr.lowest ≤ r.key ∧ r.key < page.hdr.highest) ∧
    page.records.Pairwise LeafEntry.Distinct
  /-- Nor do two leaves hold the same. -/
  distinct : ∀ a b page page' k v v', Linked view root 0 a → Linked view root 0 b →
    view a = some page → view b = some page' → page.Has k v → page'.Has k v' → a = b ∧ v = v'
  /-- The separators increase and lie inside the fences, and each child is a page one level
  lower that begins at its separator. -/
  internal : ∀ l a, Linked view root (l + 1) a → ∃ page, view a = some (.internal page) ∧
    page.records.Pairwise (fun r r' => r.key < r'.key) ∧
    (∀ r ∈ page.records, page.hdr.lowest < r.key ∧ r.key < page.hdr.highest) ∧
    (∀ r ∈ page.records, ∃ child, view r.ptr = some child ∧ child.hdr.level = l ∧
      child.hdr.lowest = r.key) ∧
    ∃ child, view page.hdr.leftmostPtr = some child ∧ child.hdr.level = l ∧
      child.hdr.lowest = page.hdr.lowest

section View

variable {view : View} {root : GlobalAddress} {m : Chart} {top : Nat}

/-- The pages of the chart as a view shows them. -/
structure ViewOk (view : View) (root : GlobalAddress) (m : Chart) (top : Nat) : Prop where
  null : m .Null = none
  root : m root = some (top, kKeyMin)
  page : ∀ a l x, m a = some (l, x) → ∃ page, view a = some page ∧ page.Ok m l x
  inj : ∀ a b e, m a = some e → m b = some e → a = b

theorem ViewOk.ok (h : ViewOk view root m top) {a : GlobalAddress} {l x : Nat} {page : Page}
    (ha : m a = some (l, x)) (hpage : view a = some page) : page.Ok m l x := by
  obtain ⟨q, hq, hok⟩ := h.page a l x ha
  rw [hpage] at hq
  cases hq
  exact hok

theorem ViewOk.leftmost (h : ViewOk view root m top) {l : Nat} {a : GlobalAddress}
    (ha : Leftmost view root l a) : m a = some (l, kKeyMin) := by
  induction ha with
  | root hpage => rw [(h.ok h.root hpage).level, h.root]
  | down _ hpage ih =>
      have hok := h.ok ih hpage
      obtain ⟨ipage, rfl, hint⟩ := hok.internal
      have hlow : ipage.hdr.lowest = kKeyMin := hok.lowest
      rw [← hlow]
      exact hint.leftmost

theorem ViewOk.sibling (h : ViewOk view root m top) {a b : GlobalAddress} {l x : Nat}
    (ha : m a = some (l, x)) (hab : Sibling view a b) :
    ∃ page, view a = some page ∧ m b = some (l, page.hdr.highest) := by
  obtain ⟨page, hpage, rfl, hne⟩ := hab
  have hok := h.ok ha hpage
  refine ⟨page, hpage, hok.next fun hmax => hne (hok.last hmax)⟩

/-- What one finds on a level is on the chart. -/
theorem ViewOk.linked (h : ViewOk view root m top) {l : Nat} {a : GlobalAddress}
    (ha : Linked view root l a) : ∃ x, m a = some (l, x) := by
  obtain ⟨first, hfirst, hreach⟩ := ha
  induction hreach with
  | refl => exact ⟨kKeyMin, h.leftmost hfirst⟩
  | tail _ hbc ih =>
      obtain ⟨x, hx⟩ := ih
      obtain ⟨page, -, hc⟩ := h.sibling hx hbc
      exact ⟨_, hc⟩

/-- Every level up to the root's has a first page. -/
theorem ViewOk.exists_leftmost (h : ViewOk view root m top) {l : Nat} (hl : l ≤ top) :
    ∃ a, Leftmost view root l a := by
  induction hl using Nat.decreasingInduction with
  | self =>
      obtain ⟨page, hpage, hok⟩ := h.page root top kKeyMin h.root
      exact ⟨root, hok.level ▸ Leftmost.root hpage⟩
  | of_succ l _ ih =>
      obtain ⟨a, ha⟩ := ih
      obtain ⟨page, hpage, -⟩ := h.page a _ _ (h.leftmost ha)
      exact ⟨_, ha.down hpage⟩

/-- The pages one finds on a level, with their fences. -/
def Tile (view : View) (root : GlobalAddress) (l : Nat) (a : GlobalAddress) (x y : Nat) : Prop :=
  Linked view root l a ∧ ∃ page, view a = some page ∧ page.hdr.lowest = x ∧ page.hdr.highest = y

theorem ViewOk.tile (h : ViewOk view root m top) {l : Nat} {a : GlobalAddress}
    (ha : Linked view root l a) : ∃ x page, m a = some (l, x) ∧ view a = some page ∧
      page.Ok m l x ∧ Tile view root l a x page.hdr.highest := by
  obtain ⟨x, hx⟩ := h.linked ha
  obtain ⟨page, hpage, hok⟩ := h.page a l x hx
  exact ⟨x, page, hx, hpage, hok, ha, page, hpage, hok.lowest, rfl⟩

theorem ViewOk.tiling (h : ViewOk view root m top) (l : Nat) : Tiling (Tile view root l) := by
  by_cases hex : ∃ first, Leftmost view root l first
  · obtain ⟨first, hfirst⟩ := hex
    refine Tiling.of_chain (Sibling view) first ?_ ?_ ?_ ?_ ?_ ?_
    · rintro a b c ⟨page, hpage, rfl, -⟩ ⟨page', hpage', rfl, -⟩
      rw [hpage] at hpage'
      cases hpage'
      rfl
    · rintro a x y ⟨⟨first', hfirst', hreach⟩, -⟩
      rwa [h.inj _ _ _ (h.leftmost hfirst) (h.leftmost hfirst')]
    · rintro a x y ⟨ha, page, hpage, rfl, rfl⟩
      obtain ⟨x, hx⟩ := h.linked ha
      have hok := h.ok hx hpage
      rw [hok.lowest]
      exact hok.range
    · rintro a x y x' y' ⟨-, page, hpage, rfl, -⟩ ⟨-, page', hpage', rfl, -⟩
      rw [hpage] at hpage'
      cases hpage'
      rfl
    · rintro a x y x' y' ⟨-, page, hpage, -, rfl⟩ ⟨-, page', hpage', -, rfl⟩
      rw [hpage] at hpage'
      cases hpage'
      rfl
    · rintro a b x y ⟨ha, page, hpage, -, rfl⟩ hab
      obtain ⟨z, hz⟩ := h.linked ha
      obtain ⟨page', hpage', hb⟩ := h.sibling hz hab
      rw [hpage] at hpage'
      cases hpage'
      obtain ⟨first', hfirst', hreach⟩ := ha
      obtain ⟨u, next, hu, -, -, htile⟩ := h.tile ⟨first', hfirst', hreach.tail hab⟩
      rw [hb] at hu
      cases hu
      exact ⟨_, _, htile, Nat.le_refl _⟩
  · have hnone : ∀ {a x y}, ¬ Tile view root l a x y := fun ⟨⟨first, hfirst, _⟩, _⟩ =>
      hex ⟨first, hfirst⟩
    exact ⟨fun ha => absurd ha hnone, fun ha => absurd ha hnone, fun ha => absurd ha hnone,
      fun ha => absurd ha hnone, fun ha => absurd ha hnone⟩

/-- Each key is in a page of each level. -/
theorem ViewOk.cover (h : ViewOk view root m top) {l k : Nat} (hl : l ≤ top) (hk : k < kKeyMax) :
    ∃ a x y, Tile view root l a x y ∧ x ≤ k ∧ k < y := by
  obtain ⟨first, hfirst⟩ := h.exists_leftmost hl
  have hlinked : Linked view root l first := ⟨first, hfirst, .refl⟩
  obtain ⟨x, page, hx, hpage, hok, htile⟩ := h.tile hlinked
  rw [h.leftmost hfirst] at hx
  cases hx
  obtain ⟨a, u, w, -, ha, hu, hw⟩ := (h.tiling l).cover strictMono_id (P := fun _ => True) (k := k)
    (fun a x y _ ha hyk => by
      obtain ⟨ha, page, hpage, rfl, rfl⟩ := ha
      obtain ⟨z, hz⟩ := h.linked ha
      have hnext := (h.ok hz hpage).next (by omega)
      obtain ⟨first', hfirst', hreach⟩ := ha
      have hsib : Sibling view a page.hdr.siblingPtr :=
        ⟨page, hpage, rfl, ne_null h.null hnext⟩
      obtain ⟨u, q, hu, -, -, htile⟩ := h.tile ⟨first', hfirst', hreach.tail hsib⟩
      rw [hnext] at hu
      cases hu
      exact ⟨_, _, trivial, htile⟩) trivial htile (Nat.zero_le _)
  exact ⟨a, u, w, ha, hu, hw⟩

theorem ViewOk.has_tile (h : ViewOk view root m top) {a : GlobalAddress} {page : Page} {k v : Nat}
    (ha : Linked view root 0 a) (hpage : view a = some page) (hhas : page.Has k v) :
    ∃ x, Tile view root 0 a x page.hdr.highest ∧ x ≤ k ∧ k < page.hdr.highest := by
  obtain ⟨x, q, hx, hq, hok, htile⟩ := h.tile ha
  rw [hpage] at hq
  cases hq
  obtain ⟨-, hxk, hk⟩ := hok.has_within hhas
  exact ⟨x, htile, hxk, hk⟩

theorem ViewOk.blink (h : ViewOk view root m top) : Blink view root where
  page l a ha := by
    obtain ⟨x, page, -, hpage, hok, -⟩ := h.tile ha
    exact ⟨page, hpage, hok.level, by rw [hok.lowest]; exact hok.range, hok.top⟩
  fences l a page ha hpage := by
    obtain ⟨x, hx⟩ := h.linked ha
    have hok := h.ok hx hpage
    by_cases hmax : page.hdr.highest = kKeyMax
    · exact Or.inl ⟨hmax, hok.last hmax⟩
    · have hnext := hok.next hmax
      obtain ⟨next, hnextPage, hnextOk⟩ := h.page _ _ _ hnext
      exact Or.inr ⟨ne_null h.null hnext, next, hnextPage, hnextOk.lowest.symm⟩
  cover rootPage l k hroot hl _ hk := by
    rw [(h.ok h.root hroot).level] at hl
    obtain ⟨a, x, y, ⟨ha, page, hpage, rfl, rfl⟩, hx, hy⟩ := h.cover hl hk
    refine ⟨a, ⟨ha, page, hpage, hx, hy⟩, ?_⟩
    rintro b ⟨hb, page', hpage', hx', hy'⟩
    exact (h.tiling l).home ⟨hb, page', hpage', rfl, rfl⟩ ⟨ha, page, hpage, rfl, rfl⟩ hx' hy' hx hy
  leaf a ha := by
    obtain ⟨x, page, -, hpage, hok, -⟩ := h.tile ha
    obtain ⟨lpage, rfl, hleaf⟩ := hok.leaf
    exact ⟨lpage, hpage, hleaf.within, hleaf.distinct⟩
  distinct a b page page' k v v' ha hb hpage hpage' hhas hhas' := by
    obtain ⟨x, htile, hxk, hk⟩ := h.has_tile ha hpage hhas
    obtain ⟨x', htile', hxk', hk'⟩ := h.has_tile hb hpage' hhas'
    have hab := (h.tiling 0).home htile htile' hxk hk hxk' hk'
    subst hab
    rw [hpage] at hpage'
    cases hpage'
    obtain ⟨z, hz⟩ := h.linked ha
    obtain ⟨lpage, rfl, hleaf⟩ := (h.ok hz hpage).leaf
    exact ⟨rfl, hleaf.has_unique hhas hhas'⟩
  internal l a ha := by
    obtain ⟨x, page, -, hpage, hok, -⟩ := h.tile ha
    obtain ⟨ipage, rfl, hint⟩ := hok.internal
    have hchild : ∀ {b y}, m b = some (l, y) → ∃ child, view b = some child ∧
        child.hdr.level = l ∧ child.hdr.lowest = y := by
      intro b y hb
      obtain ⟨child, hview, hchild⟩ := h.page b l y hb
      exact ⟨child, hview, hchild.level, hchild.lowest⟩
    exact ⟨ipage, hpage, hint.sorted, hint.within, fun r hr => hchild (hint.child r hr),
      hchild hint.leftmost⟩

end View

/-! ### Every reachable tree -/

section Reachable

variable {cfg : Config} {s : State} {m : Chart}

theorem Inv.viewOk_mem (h : Inv cfg s m) : ∃ top, ViewOk s.mem s.rootPtr m top := by
  obtain ⟨top, htop, -⟩ := h.top
  exact ⟨top, h.shape.null, htop, h.shape.page, fun _ _ _ ha hb => h.shape.inj ha hb⟩

theorem Inv.viewOk_content (h : Inv cfg s m) : ∃ top, ViewOk (s.content cfg) s.rootPtr m top := by
  obtain ⟨top, htop, -⟩ := h.top
  exact ⟨top, h.shape.null, htop, fun _ _ _ ha => h.shape.content_ok ha,
    fun _ _ _ ha hb => h.shape.inj ha hb⟩

/-- What one finds in the leaves is what the chart's pages hold. -/
theorem Inv.pairs_iff (h : Inv cfg s m) (k v : Nat) :
    Pairs (s.content cfg) s.rootPtr k v ↔ Holds cfg s m k v := by
  obtain ⟨top, hview⟩ := h.viewOk_content
  constructor
  · rintro ⟨a, page, ha, hpage, hhas⟩
    obtain ⟨x, hx⟩ := hview.linked ha
    exact ⟨a, _, page, hx, hpage, hhas⟩
  · rintro ⟨a, ⟨l, x⟩, page, ha, hpage, hhas⟩
    obtain ⟨hl, hxk, hk⟩ := (hview.ok ha hpage).has_within hhas
    subst hl
    have htop := (hview.ok ha hpage).top
    obtain ⟨b, u, w, ⟨hb, q, hq, rfl, rfl⟩, hu, hw⟩ :=
      hview.cover (Nat.zero_le top) (Nat.lt_of_lt_of_le hk htop)
    obtain ⟨z, hz⟩ := hview.linked hb
    have hab := h.shape.has_home hz hq rfl ((hview.ok hz hq).lowest ▸ hu) hw ha hpage hhas
    subst hab
    exact ⟨a, page, hb, hpage, hhas⟩

/-- **The tree is a B-link tree in every reachable state, and every write changes the pairs
in it as its operation says.**  No assertion fails but those of a root that has moved. -/
theorem blink_invariants (hs : (machine cfg).Reachable s) :
    Blink s.mem s.rootPtr ∧ Blink (s.content cfg) s.rootPtr ∧
    (∀ c why, (s.clients c).pc = .failed why → why = .fromCache ∨ why = .noParent) ∧
    ∀ action s', step cfg s action = some s' → ∀ k v,
      Pairs (s'.content cfg) s'.rootPtr k v ↔
        Effect (commits s action) (Pairs (s.content cfg) s.rootPtr) k v := by
  obtain ⟨m, h⟩ := reachable_inv hs
  obtain ⟨top, hmem⟩ := h.viewOk_mem
  obtain ⟨top', hcontent⟩ := h.viewOk_content
  refine ⟨hmem.blink, hcontent.blink, fun c why hpc => ?_, fun action s' hstep k v => ?_⟩
  · have := h.pc c
    rwa [hpc] at this
  · obtain ⟨m', hadv⟩ := h.step hstep
    rw [hadv.inv.pairs_iff, hadv.holds]
    have hpairs : Holds cfg s m = Pairs (s.content cfg) s.rootPtr :=
      funext fun k => funext fun v => propext (h.pairs_iff k v).symm
    rw [hpairs]

/-- The first leaf is split and its separator not posted yet, and a second client waits for the
lock of the page. -/
theorem blink_invariants_insert : ∃ s,
    (machine sample).exec (State.init ⟨0, 8⟩) (fill 53 ++ splitLeaf ⟨0, 16⟩ ++
      .call ⟨0, 1⟩ (.del 40) :: List.replicate 4 (.run ⟨0, 1⟩ .Null none)) = some s ∧
    (s.clients ⟨0, 0⟩).pc.pending = some ⟨⟨0, 16⟩, 28, 1⟩ ∧
    (s.clients ⟨0, 1⟩).pc = .lock ⟨0, 8⟩ (.leafDel none) ∧ Blink s.mem s.rootPtr := by
  have hrun : ((machine sample).exec (State.init ⟨0, 8⟩) (fill 53 ++ splitLeaf ⟨0, 16⟩ ++
      .call ⟨0, 1⟩ (.del 40) :: List.replicate 4 (.run ⟨0, 1⟩ .Null none))).map
      (fun s => ((s.clients ⟨0, 0⟩).pc.pending, (s.clients ⟨0, 1⟩).pc)) =
      some (some ⟨⟨0, 16⟩, 28, 1⟩, .lock ⟨0, 8⟩ (.leafDel none)) := by decide +kernel
  obtain ⟨s, hs, heq⟩ := Option.map_eq_some_iff.mp hrun
  injection heq with hpending hlock
  have hreach : (machine sample).Reachable s :=
    ⟨State.init ⟨0, 8⟩, ⟨⟨0, 8⟩, by decide, rfl⟩, System.path_of_exec _ hs⟩
  exact ⟨s, hs, hpending, hlock, (blink_invariants hreach).1⟩

end Reachable

end Dal.Tree
