/-
The index cache is the ordered set that its skip list implements.

`Tree/IndexCache.lean` has the cache as a list of entries.  Here that list is shown to be
what `SkipList/Set.lean` says of the skip list: in every reachable state of the tree the
entries are strictly in the order of `CacheEntryComparator`, `find_entry` returns what a
`Seek` of the ordered set may return, and `add_to_cache` does to the ranges what an
`InsertConcurrently` does.  So nothing the tree does rests on how the list is built.

A range that ends earlier comes first and, of those that end at the same key, one that
begins later: the first entry not before `[k, k]` is the tightest that can hold `k`.
-/
import Dal.SkipList.Set
import Dal.Tree.Turn

namespace Dal

/-- `CacheEntryComparator` compares the ends of two ranges, then their starts backwards. -/
abbrev CacheRank := Nat ×ₗ Natᵒᵈ

namespace CacheEntry

def rank (e : CacheEntry) : CacheRank := toLex (e.last, OrderDual.toDual e.start)

theorem before_iff {a b : CacheEntry} : a.before b = true ↔ a.rank < b.rank := by
  unfold before rank
  rw [decide_eq_true_iff, Prod.Lex.toLex_lt_toLex]
  exact Iff.rfl

theorem rank_eq_iff {a b : CacheEntry} :
    a.rank = b.rank ↔ a.start = b.start ∧ a.last = b.last := by
  unfold rank
  rw [toLex_inj, Prod.mk.injEq, OrderDual.toDual_inj, and_comm]

theorem sameRange_iff {a b : CacheEntry} : a.sameRange b = true ↔ a.rank = b.rank := by
  unfold sameRange
  rw [decide_eq_true_iff, rank_eq_iff]

end CacheEntry

namespace IndexCache

variable {cache : IndexCache} {e : CacheEntry}

/-- The ranges that have an entry. -/
def ranks (cache : IndexCache) : Set CacheRank := {r | ∃ e ∈ cache, e.rank = r}

/-- In the order of `CacheEntryComparator`, and no range twice. -/
def Ordered (cache : IndexCache) : Prop := (cache.map CacheEntry.rank).Pairwise (· < ·)

/-! ### The operations on the list -/

/-- `setPtr` touches no range. -/
theorem map_rank_setPtr (start last : Nat) (ptr : Option InternalPage) :
    (cache.setPtr start last ptr).map CacheEntry.rank = cache.map CacheEntry.rank := by
  unfold setPtr
  rw [List.map_map]
  refine List.map_congr_left fun x _ => ?_
  show CacheEntry.rank (if _ then _ else _) = x.rank
  split <;> rfl

theorem ranks_eq_of_map {cache' : IndexCache}
    (h : cache'.map CacheEntry.rank = cache.map CacheEntry.rank) : cache'.ranks = cache.ranks := by
  ext r
  show (∃ e ∈ cache', e.rank = r) ↔ ∃ e ∈ cache, e.rank = r
  rw [← List.mem_map, ← List.mem_map, h]

theorem Ordered.setPtr (h : cache.Ordered) (start last : Nat) (ptr : Option InternalPage) :
    (cache.setPtr start last ptr).Ordered := by
  unfold Ordered
  rw [map_rank_setPtr]
  exact h

theorem map_rank_insertSorted : ∀ {cache : IndexCache} {r : CacheRank},
    r ∈ (cache.insertSorted e).map CacheEntry.rank ↔
      r = e.rank ∨ r ∈ cache.map CacheEntry.rank := by
  intro cache r
  induction cache with
  | nil => exact List.mem_cons
  | cons y ys ih =>
      unfold insertSorted
      split
      · exact List.mem_cons
      · rw [List.map_cons, List.map_cons, List.mem_cons, List.mem_cons, ih]
        exact or_left_comm

/-- A range that has no entry gets one, in its place. -/
theorem Ordered.insertSorted : ∀ {cache : IndexCache}, cache.Ordered → e.rank ∉ cache.ranks →
    (cache.insertSorted e).Ordered := by
  intro cache h hnew
  induction cache with
  | nil => exact List.pairwise_singleton _ _
  | cons y ys ih =>
      obtain ⟨hy, hys⟩ := List.pairwise_cons.mp h
      unfold IndexCache.insertSorted
      split
      · rename_i hbefore
        have hlt := CacheEntry.before_iff.mp hbefore
        refine List.pairwise_cons.mpr ⟨fun r hr => ?_, h⟩
        rcases List.mem_cons.mp hr with rfl | hr
        · exact hlt
        · exact hlt.trans (hy r hr)
      · rename_i hbefore
        have hne : y.rank ≠ e.rank := fun heq => hnew ⟨y, List.mem_cons_self .., heq⟩
        have hlt : y.rank < e.rank :=
          lt_of_le_of_ne (not_lt.mp fun hlt => hbefore (CacheEntry.before_iff.mpr hlt)) hne
        refine List.pairwise_cons.mpr ⟨fun r hr => ?_, ih hys fun ⟨x, hx, heq⟩ =>
          hnew ⟨x, List.mem_cons_of_mem y hx, heq⟩⟩
        rcases map_rank_insertSorted.mp hr with rfl | hr
        · exact hlt
        · exact hy r hr

/-- `iter.Seek` finds the first range that is not before. -/
theorem Ordered.seek : ∀ {cache : IndexCache}, cache.Ordered →
    IsFirst id cache.ranks e.rank ((cache.seek e).map CacheEntry.rank) := by
  intro cache h
  induction cache with
  | nil =>
      exact ⟨fun b hb => (by cases hb), fun b hb => (by cases hb), fun a ⟨x, hx, _⟩ => by cases hx⟩
  | cons y ys ih =>
      obtain ⟨hy, hys⟩ := List.pairwise_cons.mp h
      unfold IndexCache.seek
      by_cases hbefore : y.before e = true
      · rw [List.find?_cons_of_neg (by rw [hbefore]; exact Bool.noConfusion)]
        have hfirst := ih hys
        have hlt := CacheEntry.before_iff.mp hbefore
        refine ⟨fun b hb => ?_, hfirst.le, fun a ⟨x, hx, hxa⟩ ha => ?_⟩
        · obtain ⟨x, hx, hxb⟩ := hfirst.mem b hb
          exact ⟨x, List.mem_cons_of_mem y hx, hxb⟩
        · rcases List.mem_cons.mp hx with rfl | hx
          · exact absurd (hlt.trans_le ha) (hxa ▸ lt_irrefl _)
          · exact hfirst.least a ⟨x, hx, hxa⟩ ha
      · have hfalse : y.before e = false := Bool.eq_false_of_not_eq_true hbefore
        rw [List.find?_cons_of_pos (by rw [hfalse]; rfl)]
        have hle : e.rank ≤ y.rank :=
          not_lt.mp fun hlt => hbefore (CacheEntry.before_iff.mpr hlt)
        refine ⟨fun b hb => ⟨y, List.mem_cons_self .., Option.some_inj.mp hb⟩,
          fun b hb => Option.some_inj.mp hb ▸ hle, fun a ⟨x, hx, hxa⟩ _ => ⟨y.rank, rfl, ?_⟩⟩
        rcases List.mem_cons.mp hx with rfl | hx
        · exact hxa.le
        · exact hxa ▸ (hy x.rank (List.mem_map_of_mem hx)).le

/-- A range that has an entry is found. -/
theorem Ordered.findEntry (h : cache.Ordered) {start stop : Nat}
    (hmem : CacheEntry.rank ⟨start, stop - 1, none⟩ ∈ cache.ranks) :
    ∃ x, cache.findEntry start stop = some x ∧ x.start = start ∧ x.last = stop - 1 := by
  have hfirst := h.seek (e := ⟨start, stop - 1, none⟩)
  obtain ⟨b, hb, hle⟩ := hfirst.least _ hmem le_rfl
  obtain ⟨x, hx, rfl⟩ := Option.map_eq_some_iff.mp hb
  exact ⟨x, hx, CacheEntry.rank_eq_iff.mp (le_antisymm hle (hfirst.le _ hb))⟩

/-! ### `add_to_cache` -/

/-- The range of a page. -/
def pageRank (page : InternalPage) : CacheRank :=
  CacheEntry.rank ⟨page.hdr.lowest, page.hdr.highest - 1, some page⟩

theorem any_sameRange (page : InternalPage) :
    (cache.any (CacheEntry.sameRange ⟨page.hdr.lowest, page.hdr.highest - 1, some page⟩)) = true ↔
      pageRank page ∈ cache.ranks := by
  rw [List.any_eq_true]
  constructor
  · rintro ⟨x, hx, hsame⟩
    exact ⟨x, hx, (CacheEntry.sameRange_iff.mp hsame).symm⟩
  · rintro ⟨x, hx, hrank⟩
    exact ⟨x, hx, CacheEntry.sameRange_iff.mpr hrank.symm⟩

theorem addToCache_old {page : InternalPage} (h : pageRank page ∈ cache.ranks) :
    (cache.addToCache page).map CacheEntry.rank = cache.map CacheEntry.rank := by
  unfold addToCache
  rw [if_pos ((any_sameRange page).mpr h)]
  split
  · split
    · exact map_rank_setPtr ..
    · rfl
  · rfl

theorem addToCache_new {page : InternalPage} (h : pageRank page ∉ cache.ranks) :
    cache.addToCache page =
      cache.insertSorted ⟨page.hdr.lowest, page.hdr.highest - 1, some page⟩ := by
  unfold addToCache
  exact if_neg fun hany => h ((any_sameRange page).mp hany)

theorem Ordered.addToCache (h : cache.Ordered) (page : InternalPage) :
    (cache.addToCache page).Ordered := by
  by_cases hold : pageRank page ∈ cache.ranks
  · unfold Ordered
    rw [addToCache_old hold]
    exact h
  · rw [addToCache_new hold]
    exact h.insertSorted hold

/-- What `add_to_cache` does to the ranges is an insertion. -/
theorem addToCache_apply (page : InternalPage) : ∃ b, (orderedSet id).Apply cache.ranks
    (.insert (pageRank page)) (.inserted b) (cache.addToCache page).ranks := by
  by_cases hold : pageRank page ∈ cache.ranks
  · exact ⟨false, Or.inl ⟨⟨_, hold, rfl⟩, rfl, ranks_eq_of_map (addToCache_old hold)⟩⟩
  · refine ⟨true, Or.inr ⟨fun r hr (heq : r = pageRank page) => hold (heq ▸ hr), rfl, ?_⟩⟩
    rw [addToCache_new hold]
    ext r
    show (∃ x ∈ _, CacheEntry.rank x = r) ↔ r = pageRank page ∨ ∃ x ∈ cache, x.rank = r
    rw [← List.mem_map, map_rank_insertSorted, List.mem_map]
    rfl

/-- The entry of a hit is the tightest of all that hold the key. -/
theorem Ordered.hit (h : cache.Ordered) {k : Nat} {hit : Hit}
    (hhit : cache.searchFromCache k = some hit) {x : CacheEntry} (hx : x ∈ cache)
    (hstart : x.start ≤ k) (hlast : k ≤ x.last) :
    hit.last < x.last ∨ hit.last = x.last ∧ x.start ≤ hit.start := by
  have hfirst := h.seek (e := ⟨k, k + 1 - 1, none⟩)
  have hle : CacheEntry.rank ⟨k, k + 1 - 1, none⟩ ≤ x.rank := by
    rw [CacheEntry.rank, CacheEntry.rank, Prod.Lex.toLex_le_toLex]
    rcases hlast.lt_or_eq with hlt | heq
    · exact Or.inl hlt
    · exact Or.inr ⟨heq, hstart⟩
  obtain ⟨b, hb, hbx⟩ := hfirst.least _ ⟨x, hx, rfl⟩ hle
  obtain ⟨e, he, rfl⟩ := Option.map_eq_some_iff.mp hb
  have hentry : cache.findEntry k (k + 1) = some e := he
  unfold searchFromCache at hhit
  rw [hentry] at hhit
  simp only at hhit
  split at hhit
  · cases hhit
  · split at hhit
    · cases hhit
      exact (Prod.Lex.toLex_le_toLex.mp hbx)
    · cases hhit

/-- The list of entries is the ordered set that the skip list implements. -/
structure IsSet (cache : IndexCache) : Prop where
  ordered : cache.Ordered
  /-- `find_entry`. -/
  seek : ∀ start stop, (orderedSet id).Apply cache.ranks
    (.seek (CacheEntry.rank ⟨start, stop - 1, none⟩))
    (.found ((cache.findEntry start stop).map CacheEntry.rank)) cache.ranks
  /-- `add_to_cache`. -/
  insert : ∀ page, ∃ b, (orderedSet id).Apply cache.ranks (.insert (pageRank page)) (.inserted b)
    (cache.addToCache page).ranks
  /-- After a conflict, `find_entry` finds the entry that there was one with. -/
  conflict : ∀ page, pageRank page ∈ cache.ranks → ∃ x,
    cache.findEntry page.hdr.lowest page.hdr.highest = some x ∧ x.start = page.hdr.lowest ∧
      x.last = page.hdr.highest - 1
  /-- `invalidate` takes no range out. -/
  invalidate : ∀ start last, (cache.invalidate start last).ranks = cache.ranks
  /-- `search_from_cache` goes by the tightest entry. -/
  hit : ∀ k hit, cache.searchFromCache k = some hit → ∀ x ∈ cache, x.start ≤ k → k ≤ x.last →
    hit.last < x.last ∨ hit.last = x.last ∧ x.start ≤ hit.start

theorem Ordered.isSet (h : cache.Ordered) : cache.IsSet where
  ordered := h
  seek _ _ := ⟨_, h.seek, rfl, rfl⟩
  insert := addToCache_apply
  conflict _ hold := h.findEntry hold
  invalidate _ _ := ranks_eq_of_map (map_rank_setPtr ..)
  hit _ _ hhit _ hx := h.hit hhit hx

end IndexCache

namespace Tree

section Cache

variable {cfg : Config} {s s' : State}

theorem ordered_setCache {n : Nat} {cache : IndexCache} (h : ∀ n, (s.cache n).Ordered)
    (hcache : cache.Ordered) : ∀ d, ((s.setCache n cache).cache d).Ordered := by
  intro d
  show (Function.update s.cache n cache d).Ordered
  by_cases hdn : d = n
  · subst hdn
    rw [Function.update_self]
    exact hcache
  · rw [Function.update_of_ne hdn]
    exact h d

/-- Every step keeps the entries in order. -/
theorem ordered_step (h : ∀ n, (s.cache n).Ordered) {action : Action}
    (hstep : step cfg s action = some s') : ∀ n, (s'.cache n).Ordered := by
  cases action with
  | run c fresh waiter =>
      have hturn := run_turned (c := c) hstep
      generalize (s.clients c).pc = pc at hturn
      cases hturn with
      | cachingError p page | caching p page =>
          exact ordered_setCache h ((h c.node).addToCache page)
      | invalidate entry => exact ordered_setCache h ((h c.node).setPtr ..)
      | loaded p task page mode after async =>
          rw [commit_eq]
          exact h
      | _ => exact h
  | evict n entry =>
      cases hstep
      exact ordered_setCache h ((h n).setPtr ..)
  | call c op =>
      simp only [step] at hstep
      split at hstep
      · split at hstep
        · cases hstep
          exact h
        · cases hstep
      · cases hstep
  | land l =>
      simp only [step] at hstep
      split at hstep
      · cases hstep
        exact h
      · cases hstep
        exact h
      · cases hstep
  | deliver d =>
      obtain ⟨n, addr, level⟩ := d
      simp only [step] at hstep
      split at hstep
      · cases hstep
        exact h
      · cases hstep

/-- **In every run of the tree, the cache of every node is the set that its skip list keeps**: in a
run from the start, and in one from any state in which the caches are in order. -/
theorem caches_are_sets (cfg : Config) :
    (∀ s, (machine cfg).Reachable s → ∀ n, (s.cache n).IsSet) ∧
    ∀ s₀ s, (∀ n, (s₀.cache n).Ordered) → (machine cfg).Path (fun _ _ => True) s₀ s →
      ∀ n, (s.cache n).IsSet := by
  have hpath : ∀ s₀ s, (∀ n, (s₀.cache n).Ordered) →
      (machine cfg).Path (fun _ _ => True) s₀ s → ∀ n, (s.cache n).IsSet := by
    intro s₀ s h₀ hpath n
    have hordered : ∀ n, (s.cache n).Ordered :=
      hpath.invariant h₀ fun s a s' h _ hstep => ordered_step h hstep
    exact (hordered n).isSet
  refine ⟨fun s hs => ?_, hpath⟩
  obtain ⟨s₀, ⟨root, -, rfl⟩, hrun⟩ := hs
  exact hpath (State.init root) s (fun n => List.Pairwise.nil) hrun

/-- A level-1 page of the keys from `lowest` to `highest - 1`, with one child. -/
def coveringPage (child : GlobalAddress) (lowest highest : Nat) : InternalPage :=
  { frontVersion := 1
    hdr := { Header.new 1 with leftmostPtr := child, lowest := lowest, highest := highest }
    records := []
    rearVersion := 1 }

/-- Three cached ranges, one in another; the copy of the middle one was evicted, and a client has
just read that page again. -/
def nested : State :=
  let s := State.init ⟨0, 8⟩
  { s with
    directory := fun _ => ⟨⟨0, 16⟩, 3, true⟩
    cache := fun _ =>
      [⟨10, 19, some (coveringPage ⟨0, 24⟩ 10 20)⟩, ⟨0, 19, none⟩,
        ⟨0, 49, some (coveringPage ⟨0, 40⟩ 0 50)⟩]
    clients := fun _ =>
      ⟨.search 12, fun _ => .Null, ⟨0, 16⟩,
        .caching ⟨0, 48⟩ (coveringPage ⟨0, 32⟩ 0 20) (.leaf none)⟩ }.setPc ⟨0, 1⟩ (.idle none)

theorem nested_ordered (n : Nat) : (nested.cache n).Ordered := by
  have hbefore : (nested.cache n).Pairwise fun a b => a.before b = true := by
    show List.Pairwise _ [_, _, _]
    decide
  exact List.pairwise_map.mpr (hbefore.imp CacheEntry.before_iff.mp)

def nestedRun : List Action :=
  [.run ⟨0, 0⟩ .Null none, .call ⟨0, 1⟩ (.search 12), .run ⟨0, 1⟩ .Null none,
    .run ⟨0, 1⟩ .Null none]

/-- The page that is cached again has a range that is there, and a search then goes by the tightest
of the three. -/
theorem caches_are_sets_nested : ∃ s, (machine sample).exec nested nestedRun = some s ∧
    (s.cache 0).map (fun e => (e.start, e.last, e.ptr.isSome)) =
      [(10, 19, true), (0, 19, true), (0, 49, true)] ∧
    (s.clients ⟨0, 1⟩).pc = .descend ⟨0, 24⟩ (.leaf (some (10, 19))) ∧ (s.cache 0).IsSet := by
  refine ⟨_, rfl, by decide, by decide, ?_⟩
  exact (caches_are_sets sample).2 nested _ nested_ordered
    (System.path_of_exec nestedRun rfl) 0

end Cache

end Tree

end Dal
