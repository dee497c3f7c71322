/-
The three loops that pick children of an internal page.

`internal_page_search`, `search_from_cache` and `range_query` each walk over the
separators with an index of their own and treat the leftmost and the last child apart.
They are written here with that index.  What they are compared with is the list of the
children, each with the interval of keys between its separators: the two searches
return the one child whose interval holds the key, and `range_query` filters the list.
-/
import Dal.Tree.IndexCache
import Dal.Tree.Internal

namespace Dal

/-! ### The loops -/

namespace InternalPage

/-- `records[i]`. -/
def record (page : InternalPage) (i : Nat) : InternalEntry := page.records.getD i ⟨0, .Null⟩

/-- `hdr.last_index + 1`. -/
def cnt (page : InternalPage) : Nat := page.records.length

/-- The loop of `internal_page_search` from `records[i]` on, with `n` records to go. -/
def searchFrom (page : InternalPage) (k i : Nat) : Nat → GlobalAddress
  | 0 => (page.record (page.cnt - 1)).ptr
  | n + 1 =>
      if k < (page.record i).key then (page.record (i - 1)).ptr else page.searchFrom k (i + 1) n

/-- `internal_page_search`; `none` when one of its assertions fails. -/
def internalPageSearch (page : InternalPage) (k : Nat) : Option GlobalAddress :=
  if ¬ page.hdr.lowest ≤ k then none
  else if ¬ k < page.hdr.highest then none
  else if k < (page.record 0).key then some page.hdr.leftmostPtr
  else some (page.searchFrom k 1 (page.cnt - 1))

/-- The loop of `search_from_cache` from `records[i]` on: `*addr` when it sets `find`. -/
def findFrom (page : InternalPage) (k i : Nat) : Nat → Option GlobalAddress
  | 0 => none
  | n + 1 =>
      if k < (page.record i).key then some (page.record (i - 1)).ptr else page.findFrom k (i + 1) n

/-- What `search_from_cache` leaves in `*addr` when it hits a copy of the page. -/
def cachedSearch (page : InternalPage) (k : Nat) : GlobalAddress :=
  if k < (page.record 0).key then page.hdr.leftmostPtr
  else
    match page.findFrom k 1 (page.cnt - 1) with
    | some addr => addr
    | none => (page.record (page.cnt - 1)).ptr

/-- The loop of `range_query` from `records[i]` on: what it adds to `leaves`. -/
def rangeFrom (page : InternalPage) (start stop i : Nat) : Nat → List GlobalAddress
  | 0 => []
  | n + 1 =>
      (if start > (page.record i).key ∨ stop < (page.record (i - 1)).key then []
       else [(page.record (i - 1)).ptr]) ++ page.rangeFrom start stop (i + 1) n

/-- The leaves that `range_query(from, to)` fetches for a page. -/
def rangeLeaves (page : InternalPage) (start stop : Nat) : List GlobalAddress :=
  (if start > (page.record 0).key ∨ stop < page.hdr.lowest then [] else [page.hdr.leftmostPtr]) ++
  page.rangeFrom start stop 1 (page.cnt - 1) ++
  (if start > page.hdr.highest ∨ stop < (page.record (page.cnt - 1)).key then []
   else [(page.record (page.cnt - 1)).ptr])

end InternalPage

/-! ### Children and their intervals -/

/-- A child and the keys it is for, from `start` up to but not including `stop`. -/
structure Child where
  ptr : GlobalAddress
  start : Nat
  stop : Nat
  deriving DecidableEq, Repr

namespace Child

def Has (child : Child) (k : Nat) : Prop := child.start ≤ k ∧ k < child.stop

/-- The interval of the child and `[start, stop]` have a key in common. -/
def Meets (child : Child) (start stop : Nat) : Prop := ∃ k, child.Has k ∧ start ≤ k ∧ k ≤ stop

/-- `!no_fetch`, the test that `range_query` makes of every child. -/
def fetched (start stop : Nat) (child : Child) : Bool :=
  decide (¬ (start > child.stop ∨ stop < child.start))

theorem fetched_of_meets {child : Child} {start stop : Nat} (h : child.Meets start stop) :
    fetched start stop child = true := by
  obtain ⟨k, ⟨hk, hk'⟩, hstart, hstop⟩ := h
  refine decide_eq_true ?_
  omega

end Child

/-- The children from `ptr` on, which starts at `start`. -/
def childrenFrom (ptr : GlobalAddress) (start highest : Nat) : List InternalEntry → List Child
  | [] => [⟨ptr, start, highest⟩]
  | r :: rs => ⟨ptr, start, r.key⟩ :: childrenFrom r.ptr r.key highest rs

/-- The children of a page from left to right. -/
def InternalPage.children (page : InternalPage) : List Child :=
  childrenFrom page.hdr.leftmostPtr page.hdr.lowest page.hdr.highest page.records

/-- Separators that increase between the fences, at least one of them. -/
structure InternalPage.Separated (page : InternalPage) : Prop where
  nonempty : page.records ≠ []
  within : ∀ r ∈ page.records, page.hdr.lowest ≤ r.key ∧ r.key < page.hdr.highest
  sorted : page.records.Pairwise fun a b => a.key < b.key

section ChildrenFrom

variable {highest k : Nat}

/-- Every child starts at or after the first one. -/
theorem start_le_of_mem (rs : List InternalEntry) : ∀ (ptr : GlobalAddress) (start : Nat),
    (∀ r ∈ rs, start ≤ r.key) → (rs.Pairwise fun a b => a.key < b.key) →
    ∀ child ∈ childrenFrom ptr start highest rs, start ≤ child.start := by
  induction rs with
  | nil =>
      intro ptr start _ _ child hchild
      rw [List.mem_singleton.mp hchild]
  | cons r rs ih =>
      intro ptr start hrs hsort child hchild
      obtain ⟨hhead, htail⟩ := List.pairwise_cons.mp hsort
      rcases List.mem_cons.mp hchild with heq | hchild
      · rw [heq]
      · have hle := ih r.ptr r.key (fun x hx => Nat.le_of_lt (hhead x hx)) htail child hchild
        exact Nat.le_trans (hrs r (List.mem_cons_self ..)) hle

/-- Every child stops after the start of the first one. -/
theorem lt_stop_of_mem (rs : List InternalEntry) : ∀ (ptr : GlobalAddress) (start : Nat),
    (∀ r ∈ rs, start < r.key ∧ r.key < highest) → start < highest →
    (rs.Pairwise fun a b => a.key < b.key) →
    ∀ child ∈ childrenFrom ptr start highest rs, start < child.stop := by
  induction rs with
  | nil =>
      intro ptr start _ hstart _ child hchild
      rw [List.mem_singleton.mp hchild]
      exact hstart
  | cons r rs ih =>
      intro ptr start hrs _ hsort child hchild
      obtain ⟨hhead, htail⟩ := List.pairwise_cons.mp hsort
      obtain ⟨hr, hr'⟩ := hrs r (List.mem_cons_self ..)
      rcases List.mem_cons.mp hchild with heq | hchild
      · rw [heq]
        exact hr
      · have hlt := ih r.ptr r.key
          (fun x hx => ⟨hhead x hx, (hrs x (List.mem_cons_of_mem _ hx)).2⟩) hr' htail child hchild
        exact Nat.lt_trans hr hlt

/-- The children stop at different keys. -/
theorem childrenFrom_sorted (rs : List InternalEntry) : ∀ (ptr : GlobalAddress) (start : Nat),
    (∀ r ∈ rs, r.key < highest) → (rs.Pairwise fun a b => a.key < b.key) →
    (childrenFrom ptr start highest rs).Pairwise fun a b => a.stop < b.stop := by
  induction rs with
  | nil =>
      intro ptr start _ _
      exact List.pairwise_singleton _ _
  | cons r rs ih =>
      intro ptr start hrs hsort
      obtain ⟨hhead, htail⟩ := List.pairwise_cons.mp hsort
      have hrest : ∀ x ∈ rs, x.key < highest := fun x hx => hrs x (List.mem_cons_of_mem _ hx)
      refine List.pairwise_cons.mpr ⟨?_, ih r.ptr r.key hrest htail⟩
      exact lt_stop_of_mem rs r.ptr r.key (fun x hx => ⟨hhead x hx, hrest x hx⟩)
        (hrs r (List.mem_cons_self ..)) htail

/-- `childFor` returns the only child that has the key. -/
theorem childFor_child (rs : List InternalEntry) : ∀ (ptr : GlobalAddress) (start : Nat),
    start ≤ k → k < highest → (∀ r ∈ rs, start ≤ r.key) →
    (rs.Pairwise fun a b => a.key < b.key) →
    ∃ child ∈ childrenFrom ptr start highest rs, child.Has k ∧ child.ptr = childFor ptr k rs ∧
      ∀ other ∈ childrenFrom ptr start highest rs, other.Has k → other = child := by
  induction rs with
  | nil =>
      intro ptr start hstart hstop _ _
      refine ⟨⟨ptr, start, highest⟩, List.mem_singleton.mpr rfl, ⟨hstart, hstop⟩, rfl, ?_⟩
      intro other hother _
      exact List.mem_singleton.mp hother
  | cons r rs ih =>
      intro ptr start hstart hstop hrs hsort
      obtain ⟨hhead, htail⟩ := List.pairwise_cons.mp hsort
      have hrest : ∀ x ∈ rs, r.key ≤ x.key := fun x hx => Nat.le_of_lt (hhead x hx)
      rw [childFor]
      by_cases hk : k < r.key
      · rw [if_pos hk]
        refine ⟨⟨ptr, start, r.key⟩, List.mem_cons_self .., ⟨hstart, hk⟩, rfl, ?_⟩
        intro other hother hhas
        rcases List.mem_cons.mp hother with heq | hother
        · exact heq
        · have hle := start_le_of_mem rs r.ptr r.key hrest htail other hother
          exact absurd hhas.1 (Nat.not_le.mpr (Nat.lt_of_lt_of_le hk hle))
      · rw [if_neg hk]
        obtain ⟨child, hmem, hhas, hptr, huniq⟩ :=
          ih r.ptr r.key (Nat.le_of_not_lt hk) hstop hrest htail
        refine ⟨child, List.mem_cons_of_mem _ hmem, hhas, hptr, ?_⟩
        intro other hother hothas
        rcases List.mem_cons.mp hother with heq | hother
        · rw [heq] at hothas
          exact absurd hothas.2 hk
        · exact huniq other hother hothas

end ChildrenFrom

/-! ### The loops against the list -/

namespace InternalPage

variable {page : InternalPage} {k start stop : Nat}

theorem record_eq {i : Nat} (hi : i < page.records.length) : page.record i = page.records[i] :=
  List.getD_eq_getElem _ _ hi

theorem drop_eq {i : Nat} (hi : i < page.cnt) :
    page.records.drop i = page.record i :: page.records.drop (i + 1) := by
  rw [record_eq hi]
  exact List.drop_eq_getElem_cons hi

theorem records_eq (h : page.records ≠ []) :
    page.records = page.record 0 :: page.records.drop 1 := drop_eq (List.length_pos_iff.mpr h)

theorem cnt_eq (h : page.records ≠ []) : page.cnt = 0 + 1 + (page.cnt - 1) := by
  have hpos : 0 < page.cnt := List.length_pos_iff.mpr h
  omega

/-- From `records[i + 1]` on the search looks for the key at the right of `records[i]`. -/
theorem searchFrom_eq (n : Nat) : ∀ i, page.cnt = i + 1 + n →
    page.searchFrom k (i + 1) n = childFor (page.record i).ptr k (page.records.drop (i + 1)) := by
  induction n with
  | zero =>
      intro i hi
      rw [searchFrom, List.drop_eq_nil_of_le (Nat.le_of_eq hi), childFor]
      rw [hi, Nat.add_zero, Nat.add_sub_cancel]
  | succ n ih =>
      intro i hi
      have hlt : i + 1 < page.cnt := by omega
      rw [searchFrom, drop_eq hlt, childFor, Nat.add_sub_cancel]
      rw [ih (i + 1) (by omega)]

theorem findFrom_eq (n : Nat) : ∀ i, page.cnt = i + 1 + n →
    (page.findFrom k (i + 1) n).getD (page.record (page.cnt - 1)).ptr =
      childFor (page.record i).ptr k (page.records.drop (i + 1)) := by
  induction n with
  | zero =>
      intro i hi
      rw [findFrom, List.drop_eq_nil_of_le (Nat.le_of_eq hi), childFor]
      rw [hi, Nat.add_zero, Nat.add_sub_cancel]
      rfl
  | succ n ih =>
      intro i hi
      have hlt : i + 1 < page.cnt := by omega
      rw [findFrom, drop_eq hlt, childFor, Nat.add_sub_cancel]
      split
      · rfl
      · exact ih (i + 1) (by omega)

theorem internalPageSearch_eq (h : page.records ≠ []) (hk : page.hdr.lowest ≤ k)
    (hk' : k < page.hdr.highest) :
    page.internalPageSearch k = some (childFor page.hdr.leftmostPtr k page.records) := by
  rw [internalPageSearch, if_neg (not_not_intro hk), if_neg (not_not_intro hk'), records_eq h,
    childFor]
  split
  · rfl
  · exact congrArg some (searchFrom_eq (page.cnt - 1) 0 (cnt_eq h))

theorem cachedSearch_eq (h : page.records ≠ []) :
    page.cachedSearch k = childFor page.hdr.leftmostPtr k page.records := by
  rw [records_eq h, cachedSearch, childFor]
  split
  · rfl
  · rw [← findFrom_eq (page.cnt - 1) 0 (cnt_eq h)]
    cases page.findFrom k 1 (page.cnt - 1) <;> rfl

/-- The children `range_query` fetches, out of a list of children. -/
def fetch (start stop : Nat) (children : List Child) : List GlobalAddress :=
  (children.filter (Child.fetched start stop)).map Child.ptr

theorem fetch_cons (child : Child) (children : List Child) :
    fetch start stop (child :: children) =
      (if start > child.stop ∨ stop < child.start then [] else [child.ptr]) ++
        fetch start stop children := by
  unfold fetch
  by_cases h : start > child.stop ∨ stop < child.start
  · have hfetched : ¬ Child.fetched start stop child = true := fun ht => of_decide_eq_true ht h
    rw [if_pos h, List.filter_cons_of_neg hfetched, List.nil_append]
  · have hfetched : Child.fetched start stop child = true := decide_eq_true h
    rw [if_neg h, List.filter_cons_of_pos hfetched, List.map_cons, List.singleton_append]

/-- The loop and the test after it take every child from that of `records[i]` on. -/
theorem rangeFrom_eq (n : Nat) : ∀ i, page.cnt = i + 1 + n →
    page.rangeFrom start stop (i + 1) n ++
        (if start > page.hdr.highest ∨ stop < (page.record (page.cnt - 1)).key then []
         else [(page.record (page.cnt - 1)).ptr]) =
      fetch start stop (childrenFrom (page.record i).ptr (page.record i).key page.hdr.highest
        (page.records.drop (i + 1))) := by
  induction n with
  | zero =>
      intro i hi
      rw [rangeFrom, List.drop_eq_nil_of_le (Nat.le_of_eq hi), childrenFrom,
        fetch_cons, hi, Nat.add_zero, Nat.add_sub_cancel]
      exact (List.append_nil _).symm
  | succ n ih =>
      intro i hi
      have hlt : i + 1 < page.cnt := by omega
      rw [rangeFrom, drop_eq hlt, childrenFrom, fetch_cons, List.append_assoc,
        ih (i + 1) (by omega), Nat.add_sub_cancel]

theorem rangeLeaves_eq (h : page.records ≠ []) :
    page.rangeLeaves start stop = fetch start stop page.children := by
  rw [rangeLeaves, List.append_assoc, rangeFrom_eq (page.cnt - 1) 0 (cnt_eq h), children]
  conv => rhs; rw [records_eq h]
  rw [childrenFrom, fetch_cons]

end InternalPage

/-! ### The loops agree -/

/-- The two searches of a page choose the same child, the only one for the key.
`range_query` fetches every child whose interval meets `[start, stop]`, and takes the
children in their order from the left, each once at most. -/
theorem child_loops_agree (page : InternalPage) (hpage : page.Separated) :
    (∀ k, page.hdr.lowest ≤ k → k < page.hdr.highest →
      ∃ child ∈ page.children, child.Has k ∧
        (∀ other ∈ page.children, other.Has k → other = child) ∧
        page.internalPageSearch k = some child.ptr ∧ page.cachedSearch k = child.ptr) ∧
    ∀ start stop, start ≤ stop →
      ∃ chosen : List Child, chosen.Sublist page.children ∧ chosen.Nodup ∧
        page.rangeLeaves start stop = chosen.map Child.ptr ∧
        ∀ child ∈ page.children, child.Meets start stop → child ∈ chosen := by
  constructor
  · intro k hk hk'
    obtain ⟨child, hmem, hhas, hptr, huniq⟩ := childFor_child page.records page.hdr.leftmostPtr
      page.hdr.lowest hk hk' (fun r hr => (hpage.within r hr).1) hpage.sorted
    refine ⟨child, hmem, hhas, huniq, ?_, ?_⟩
    · rw [InternalPage.internalPageSearch_eq hpage.nonempty hk hk', hptr]
    · rw [InternalPage.cachedSearch_eq hpage.nonempty, hptr]
  · intro start stop _
    have hsort := childrenFrom_sorted page.records page.hdr.leftmostPtr page.hdr.lowest
      (fun r hr => (hpage.within r hr).2) hpage.sorted
    have hnodup : page.children.Nodup := hsort.imp fun hlt heq => by
      rw [heq] at hlt
      exact Nat.lt_irrefl _ hlt
    refine ⟨page.children.filter (Child.fetched start stop), List.filter_sublist, ?_, ?_, ?_⟩
    · exact hnodup.filter _
    · exact InternalPage.rangeLeaves_eq hpage.nonempty
    · intro child hchild hmeets
      exact List.mem_filter.mpr ⟨hchild, Child.fetched_of_meets hmeets⟩

/-- A page for the keys from 2 to 20 with three children. -/
def threeChildren : InternalPage where
  frontVersion := 0
  hdr := { Header.new 1 with leftmostPtr := ⟨0, 1⟩, lowest := 2, highest := 20 }
  records := [⟨5, ⟨0, 2⟩⟩, ⟨9, ⟨0, 3⟩⟩]
  rearVersion := 0

theorem child_loops_agree_sample :
    threeChildren.Separated ∧
    (∃ child ∈ threeChildren.children, child.Has 6 ∧
      (∀ other ∈ threeChildren.children, other.Has 6 → other = child) ∧
      threeChildren.internalPageSearch 6 = some child.ptr ∧
      threeChildren.cachedSearch 6 = child.ptr) ∧
    ∃ chosen : List Child, chosen.Sublist threeChildren.children ∧ chosen.Nodup ∧
      threeChildren.rangeLeaves 6 9 = chosen.map Child.ptr ∧
      ∀ child ∈ threeChildren.children, child.Meets 6 9 → child ∈ chosen := by
  have hpage : threeChildren.Separated := by
    constructor <;> decide
  have hagree := child_loops_agree threeChildren hpage
  exact ⟨hpage, hagree.1 6 (by decide) (by decide), hagree.2 6 9 (by decide)⟩

/- An interval that ends at `from` is fetched as well, though it has no key of the range. -/
example : threeChildren.rangeLeaves 9 12 = [⟨0, 2⟩, ⟨0, 3⟩] := by decide

end Dal
