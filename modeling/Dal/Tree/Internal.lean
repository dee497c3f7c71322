/-
Internal pages: what their pointers mean, and what storing a separator does.

A pointer means something only relative to a `Chart`: which addresses are pages of the
tree, and for each its level and lowest key.  Both are fixed when a page is linked into
the tree and never change afterwards, so a chart only grows, and a page that is `Ok`
stays `Ok`, however old the copy: its pointers still lead to pages that begin where it
says.  That is all a client with a stale copy needs.
-/
import Dal.Tree.Leaf
import Mathlib.Data.List.GetD

namespace Dal

/-- The pages of the tree: their level and their lowest key. -/
abbrev Chart := GlobalAddress → Option (Nat × Nat)

/-- A later chart. -/
def Chart.Le (m m' : Chart) : Prop := ∀ a e, m a = some e → m' a = some e

theorem Chart.Le.refl (m : Chart) : m.Le m := fun _ _ h => h

theorem Chart.Le.trans {m m' m'' : Chart} (h : m.Le m') (h' : m'.Le m'') : m.Le m'' :=
  fun a e ha => h' a e (h a e ha)

/-- One more page. -/
def Chart.add (m : Chart) (a : GlobalAddress) (level lowest : Nat) : Chart :=
  fun b => if b = a then some (level, lowest) else m b

theorem Chart.add_self (m : Chart) (a : GlobalAddress) (l x : Nat) :
    m.add a l x a = some (l, x) := if_pos rfl

theorem Chart.add_other (m : Chart) {a b : GlobalAddress} (l x : Nat) (h : b ≠ a) :
    m.add a l x b = m b := if_neg h

theorem Chart.add_cases {m : Chart} {a b : GlobalAddress} {l x : Nat} {e : Nat × Nat}
    (h : m.add a l x b = some e) : m b = some e ∨ b = a ∧ e = (l, x) := by
  unfold Chart.add at h
  split at h
  · rename_i hb
    exact Or.inr ⟨hb, (Option.some.inj h).symm⟩
  · exact Or.inl h

theorem Chart.add_of_level {m : Chart} {a b : GlobalAddress} {l x i z : Nat} (hne : i ≠ l)
    (h : m.add a l x b = some (i, z)) : m b = some (i, z) :=
  (Chart.add_cases h).resolve_right fun hnew => hne (congrArg Prod.fst hnew.2)

theorem Chart.le_add {m : Chart} {a : GlobalAddress} (l x : Nat) (h : m a = none) :
    m.Le (m.add a l x) := by
  intro b e hb
  rw [m.add_other l x (by rintro rfl; rw [h] at hb; cases hb)]
  exact hb

/-- The separators of a page; a leaf has none. -/
def Page.separators : Page → List InternalEntry
  | .leaf _ => []
  | .internal page => page.records

/-- The page leads to `a` for the keys from `x` on. -/
def Page.Points (x : Nat) (a : GlobalAddress) : Page → Prop
  | .leaf _ => False
  | .internal page => ⟨x, a⟩ ∈ page.records ∨ page.hdr.lowest = x ∧ page.hdr.leftmostPtr = a

/-- The page holds `v` under `k`; an internal one holds nothing. -/
def Page.Has (k v : Nat) : Page → Prop
  | .leaf page => page.Has k v
  | .internal _ => False

section Link

variable (sibling : GlobalAddress) (page : Page)

@[simp] theorem Page.link_separators : (page.link sibling).separators = page.separators := by
  cases page <;> rfl

@[simp] theorem Page.link_points (x : Nat) (a : GlobalAddress) :
    (page.link sibling).Points x a ↔ page.Points x a := by cases page <;> rfl

@[simp] theorem Page.link_has (k v : Nat) : (page.link sibling).Has k v ↔ page.Has k v := by
  cases page <;> rfl

@[simp] theorem Page.link_hdr : (page.link sibling).hdr = { page.hdr with siblingPtr := sibling } := by
  cases page <;> rfl

end Link

/-- The children are pages one level lower and begin at their separators. -/
structure InternalPage.Ok (m : Chart) (page : InternalPage) (below : Nat) : Prop where
  level : page.hdr.level = below + 1
  consistent : page.rearVersion = page.frontVersion
  range : page.hdr.lowest < page.hdr.highest
  leftmost : m page.hdr.leftmostPtr = some (below, page.hdr.lowest)
  child : ∀ r ∈ page.records, m r.ptr = some (below, r.key)
  within : ∀ r ∈ page.records, page.hdr.lowest < r.key ∧ r.key < page.hdr.highest
  sorted : page.records.Pairwise fun a b => a.key < b.key
  nonempty : page.records ≠ []
  room : page.records.length < kInternalCardinality

/-- The records of a page of level `l`. -/
def Page.BodyOk (m : Chart) (l : Nat) : Page → Prop
  | .leaf page => page.Ok
  | .internal page => ∃ below, l = below + 1 ∧ page.Ok m below

/-- A page of level `l` that begins at `x`. -/
structure Page.Ok (m : Chart) (page : Page) (l x : Nat) : Prop where
  level : page.hdr.level = l
  lowest : page.hdr.lowest = x
  top : page.hdr.highest ≤ kKeyMax
  last : page.hdr.highest = kKeyMax → page.hdr.siblingPtr = .Null
  /-- The sibling begins where the page ends. -/
  next : page.hdr.highest ≠ kKeyMax → m page.hdr.siblingPtr = some (l, page.hdr.highest)
  body : page.BodyOk m l

theorem InternalPage.Ok.mono {m m' : Chart} (hle : m.Le m') {page : InternalPage} {below : Nat}
    (h : page.Ok m below) : page.Ok m' below :=
  { h with
    leftmost := hle _ _ h.leftmost
    child := fun r hr => hle _ _ (h.child r hr) }

theorem Page.Ok.mono {m m' : Chart} (hle : m.Le m') {page : Page} {l x : Nat}
    (h : page.Ok m l x) : page.Ok m' l x := by
  refine ⟨h.level, h.lowest, h.top, h.last, fun hne => hle _ _ (h.next hne), ?_⟩
  have hbody := h.body
  cases page with
  | leaf page => exact hbody
  | internal page =>
      obtain ⟨below, hl, hok⟩ := hbody
      exact ⟨below, hl, hok.mono hle⟩

/-- Being `Ok` does not depend on the sibling pointer. -/
theorem LeafPage.Ok.link {page : LeafPage} (h : page.Ok) (sibling : GlobalAddress) :
    LeafPage.Ok { page with hdr := { page.hdr with siblingPtr := sibling } } :=
  ⟨⟨h.level, h.leftmost, h.consistent, h.range, h.versions, h.within, h.distinct⟩, h.room⟩

theorem InternalPage.Ok.link {m : Chart} {page : InternalPage} {below : Nat} (h : page.Ok m below)
    (sibling : GlobalAddress) :
    InternalPage.Ok m { page with hdr := { page.hdr with siblingPtr := sibling } } below :=
  ⟨h.level, h.consistent, h.range, h.leftmost, h.child, h.within, h.sorted, h.nonempty, h.room⟩

theorem Page.Ok.range {m : Chart} {page : Page} {l x : Nat} (h : page.Ok m l x) :
    x < page.hdr.highest := by
  have hbody := h.body
  rw [← h.lowest]
  cases page with
  | leaf page => exact hbody.range
  | internal page =>
      obtain ⟨below, hl, hok⟩ := hbody
      exact hok.range

theorem Page.Ok.consistent {m : Chart} {page : Page} {l x : Nat} (h : page.Ok m l x) :
    page.consistent = true := by
  have hbody := h.body
  cases page with
  | leaf page => exact decide_eq_true hbody.consistent
  | internal page =>
      obtain ⟨below, hl, hok⟩ := hbody
      exact decide_eq_true hok.consistent

/-- A page of level 0 is a leaf. -/
theorem Page.Ok.leaf {m : Chart} {page : Page} {x : Nat} (h : page.Ok m 0 x) :
    ∃ lpage : LeafPage, page = .leaf lpage ∧ lpage.Ok := by
  have hbody := h.body
  cases page with
  | leaf page => exact ⟨page, rfl, hbody⟩
  | internal page =>
      obtain ⟨below, hl, -⟩ := hbody
      cases hl

/-- A page of a higher level is internal. -/
theorem Page.Ok.internal {m : Chart} {page : Page} {l x : Nat} (h : page.Ok m (l + 1) x) :
    ∃ ipage : InternalPage, page = .internal ipage ∧ ipage.Ok m l := by
  have hbody := h.body
  cases page with
  | leaf page =>
      have hlevel := h.level
      have hzero := hbody.level
      simp only [Page.hdr] at hlevel
      omega
  | internal page =>
      obtain ⟨below, hl, hok⟩ := hbody
      cases hl
      exact ⟨page, rfl, hok⟩

/-- A page holds keys of its own range only. -/
theorem Page.Ok.has_within {m : Chart} {page : Page} {l x k v : Nat} (hok : page.Ok m l x) (h : page.Has k v) :
    l = 0 ∧ x ≤ k ∧ k < page.hdr.highest := by
  cases page with
  | internal page => exact h.elim
  | leaf page =>
      obtain ⟨r, hr, hlive, rfl, -⟩ := h
      have hbody : page.Ok := hok.body
      have hlevel : page.hdr.level = l := hok.level
      have hlow : page.hdr.lowest = x := hok.lowest
      obtain ⟨hge, hlt⟩ := hbody.within r hr hlive
      exact ⟨hlevel ▸ hbody.level, hlow ▸ hge, hlt⟩

/-! ### Finding the child of a key -/

theorem childFor_spec {m : Chart} {below k : Nat} : ∀ {rs : List InternalEntry}
    {ptr : GlobalAddress} {y : Nat}, m ptr = some (below, y) → y ≤ k →
    (∀ r ∈ rs, m r.ptr = some (below, r.key) ∧ y ≤ r.key) → rs.Pairwise (fun a b => a.key < b.key) →
    ∃ y', m (childFor ptr k rs) = some (below, y') ∧ y ≤ y' ∧ y' ≤ k := by
  intro rs
  induction rs with
  | nil => intro ptr y hm hy _ _; exact ⟨y, hm, Nat.le_refl _, hy⟩
  | cons r rs ih =>
      intro ptr y hm hy hrs hsort
      obtain ⟨hr, hyr⟩ := hrs r (List.mem_cons_self ..)
      obtain ⟨hhead, htail⟩ := List.pairwise_cons.mp hsort
      rw [childFor]
      split
      · exact ⟨y, hm, Nat.le_refl _, hy⟩
      · rename_i hk
        obtain ⟨y', hm', hle, hk'⟩ := ih hr (Nat.le_of_not_lt hk)
          (fun x hx => ⟨(hrs x (List.mem_cons_of_mem _ hx)).1, Nat.le_of_lt (hhead x hx)⟩) htail
        exact ⟨y', hm', Nat.le_trans hyr hle, hk'⟩

/-- The child an internal page has for a key it covers begins between the two. -/
theorem InternalPage.Ok.childFor {m : Chart} {page : InternalPage} {below k : Nat}
    (h : page.Ok m below) (hk : page.hdr.lowest ≤ k) :
    ∃ y, m (childFor page.hdr.leftmostPtr k page.records) = some (below, y) ∧
      page.hdr.lowest ≤ y ∧ y ≤ k :=
  childFor_spec h.leftmost hk
    (fun r hr => ⟨h.child r hr, Nat.le_of_lt (h.within r hr).1⟩) h.sorted

/-! ### Storing a separator -/

namespace InternalPage

variable {m : Chart} {page : InternalPage} {below k : Nat} {v : GlobalAddress}

/-- The loop of `internal_page_store`, for a key that is not there: everything from the
slot on is larger, everything before it smaller. -/
theorem findSlot_spec (hsort : page.records.Pairwise fun a b => a.key < b.key)
    (hnew : ∀ r ∈ page.records, r.key ≠ k) : ∀ n, n ≤ page.records.length →
    (∀ r ∈ page.records.drop n, k < r.key) →
    ∃ i, findSlot k page.records n = (false, i) ∧ i ≤ n ∧
      (∀ r ∈ page.records.take i, r.key < k) ∧ ∀ r ∈ page.records.drop i, k < r.key := by
  intro n
  induction n with
  | zero => intro _ hdrop; exact ⟨0, rfl, Nat.le_refl _, by simp, hdrop⟩
  | succ n ih =>
      intro hn hdrop
      have hget : page.records.getD n ⟨0, .Null⟩ = page.records[n] :=
        List.getD_eq_getElem _ _ hn
      have hmem : page.records[n] ∈ page.records := List.getElem_mem hn
      have hcons : page.records.drop n = page.records[n] :: page.records.drop (n + 1) :=
        List.drop_eq_getElem_cons hn
      rw [findSlot, hget]
      rw [if_neg (hnew _ hmem)]
      split
      · rename_i hlt
        refine ⟨n + 1, rfl, Nat.le_refl _, fun r hr => ?_, hdrop⟩
        have hsplit := List.take_append_drop n page.records
        rw [← hsplit, hcons, List.pairwise_append] at hsort
        rw [List.take_succ_eq_append_getElem hn, List.mem_append, List.mem_singleton] at hr
        rcases hr with hr | rfl
        · exact Nat.lt_trans (hsort.2.2 r hr _ (List.mem_cons_self ..)) hlt
        · exact hlt
      · rename_i hlt
        have hne := hnew _ hmem
        obtain ⟨i, heq, hi, htake, hdrop'⟩ := ih (by omega) (by
          intro r hr
          rw [hcons] at hr
          rcases List.mem_cons.mp hr with rfl | hr
          · omega
          · exact hdrop r hr)
        exact ⟨i, heq, by omega, htake, hdrop'⟩

theorem insertIdx_eq {α : Type} (x : α) : ∀ (l : List α) (i : Nat), i ≤ l.length →
    l.insertIdx i x = l.take i ++ x :: l.drop i
  | _, 0, _ => by simp
  | [], i + 1, h => by simp at h
  | a :: l, i + 1, h => by
      rw [List.insertIdx_succ_cons, insertIdx_eq x l i (Nat.le_of_succ_le_succ h)]
      rfl

/-- What the split of a full page leaves: the middle separator goes up. -/
structure IsSplit (m : Chart) (page left right : InternalPage) (below splitKey : Nat)
    (gained : InternalEntry) : Prop where
  inside : page.hdr.lowest < splitKey ∧ splitKey < page.hdr.highest
  leftOk : left.Ok m below
  rightOk : right.Ok m below
  leftHdr : left.hdr = { page.hdr with highest := splitKey }
  rightLowest : right.hdr.lowest = splitKey
  rightHighest : right.hdr.highest = page.hdr.highest
  rightSibling : right.hdr.siblingPtr = page.hdr.siblingPtr
  /-- No separator is lost, and none is gained but the one that was stored. -/
  records : ∀ r, r = gained ∨ r ∈ page.records ↔
    r ∈ left.records ∨ r ∈ right.records ∨ r = ⟨splitKey, right.hdr.leftmostPtr⟩

/-- What may become of an internal page under its lock. -/
inductive Result (m : Chart) (page : InternalPage) (below : Nat) (gained : InternalEntry) :
    Outcome → Prop
  | right (hk : page.hdr.highest ≤ gained.key) : Result m page below gained (.right page.hdr.siblingPtr)
  | page (page' : InternalPage) (hk : gained.key < page.hdr.highest) (hok : page'.Ok m below)
      (hdr : page'.hdr = page.hdr)
      (hrecords : ∀ r, r ∈ page'.records ↔ r = gained ∨ r ∈ page.records) :
      Result m page below gained (.page page')
  | split (left right : InternalPage) (splitKey : Nat) (hk : gained.key < page.hdr.highest)
      (hsplit : IsSplit m page left right below splitKey gained) :
      Result m page below gained (.split (.internal left) (.internal right) splitKey)

/-- `Ok`, of a page with one separator too many. -/
theorem Ok.split (hok : page.Ok m below) {rs : List InternalEntry} {gained : InternalEntry}
    (hrs : ∀ r, r ∈ rs ↔ r = gained ∨ r ∈ page.records)
    (hgained : m gained.ptr = some (below, gained.key))
    (hk : page.hdr.lowest < gained.key ∧ gained.key < page.hdr.highest)
    (hsort : rs.Pairwise fun a b => a.key < b.key) (hlen : rs.length = kInternalCardinality) :
    ∃ left right splitKey, InternalPage.split { page with records := rs } =
      .split (.internal left) (.internal right) splitKey ∧
      IsSplit m page left right below splitKey gained := by
  have hchild : ∀ r ∈ rs, m r.ptr = some (below, r.key) := fun r hr => by
    rcases (hrs r).mp hr with rfl | hr
    · exact hgained
    · exact hok.child r hr
  have hwithin : ∀ r ∈ rs, page.hdr.lowest < r.key ∧ r.key < page.hdr.highest := fun r hr => by
    rcases (hrs r).mp hr with rfl | hr
    · exact hk
    · exact hok.within r hr
  have h30 : 30 < rs.length := by rw [hlen]; decide
  have hget : rs.getD 30 ⟨0, .Null⟩ = rs[30] := List.getD_eq_getElem _ _ h30
  have hmem : rs[30] ∈ rs := List.getElem_mem h30
  have hcons : rs.drop 30 = rs[30] :: rs.drop 31 := List.drop_eq_getElem_cons h30
  have hcut : rs = rs.take 30 ++ rs[30] :: rs.drop 31 := by
    rw [← hcons, List.take_append_drop]
  have hsort' := hsort
  rw [hcut, List.pairwise_append, List.pairwise_cons] at hsort'
  obtain ⟨htake, ⟨hhead, hdrop⟩, hcross⟩ := hsort'
  simp only [InternalPage.split, show kInternalCardinality / 2 = 30 from rfl, hget]
  rw [if_pos (hwithin _ hmem)]
  have htaken : ∀ r ∈ rs.take 30, r ∈ rs := fun r hr => List.mem_of_mem_take hr
  have hdropped : ∀ r ∈ rs.drop 31, r ∈ rs := fun r hr => List.mem_of_mem_drop hr
  refine ⟨_, _, _, rfl, hwithin _ hmem, ?_, ?_, rfl, rfl, rfl, rfl, fun r => ?_⟩
  · refine ⟨hok.level, rfl, (hwithin _ hmem).1, hok.leftmost, fun r hr => hchild r (htaken r hr),
      fun r hr => ⟨(hwithin r (htaken r hr)).1, hcross r hr _ (List.mem_cons_self ..)⟩, htake,
      ?_, ?_⟩
    · exact List.ne_nil_of_length_pos (by simp [setConsistent]; omega)
    · simp [setConsistent, hlen]
      decide
  · refine ⟨hok.level, rfl, (hwithin _ hmem).2, hchild _ hmem, fun r hr => hchild r (hdropped r hr),
      fun r hr => ⟨hhead r hr, (hwithin r (hdropped r hr)).2⟩, hdrop, ?_, ?_⟩
    · refine List.ne_nil_of_length_pos ?_
      simp [setConsistent, hlen]
      decide
    · simp [setConsistent, hlen]
      decide
  · have hmemcut : r ∈ rs ↔ r ∈ rs.take 30 ∨ r = rs[30] ∨ r ∈ rs.drop 31 := by
      conv_lhs => rw [hcut]
      rw [List.mem_append, List.mem_cons]
    rw [← hrs, hmemcut]
    exact or_congr_right or_comm

theorem Ok.store (hok : page.Ok m below) (hv : m v = some (below, k))
    (hlow : page.hdr.lowest < k) (hnew : ∀ r ∈ page.records, r.key ≠ k) :
    Result m page below ⟨k, v⟩ (page.store k v (below + 1)) := by
  unfold InternalPage.store
  rw [if_neg (not_not_intro hok.level), if_neg (not_not_intro hok.consistent)]
  by_cases hk : page.hdr.highest ≤ k
  · rw [if_pos hk]
    exact .right hk
  rw [if_neg hk, if_neg (by omega), if_neg (by have := hok.room; omega)]
  replace hk : k < page.hdr.highest := Nat.lt_of_not_le hk
  obtain ⟨i, heq, hi, htake, hdrop⟩ :=
    findSlot_spec hok.sorted hnew page.records.length (Nat.le_refl _) (by simp)
  rw [heq]
  simp only
  have hinsert : page.records.insertIdx i ⟨k, v⟩ =
      page.records.take i ++ ⟨k, v⟩ :: page.records.drop i := insertIdx_eq _ _ _ hi
  have hcut := List.take_append_drop i page.records
  have hmem : ∀ r, r ∈ page.records.insertIdx i ⟨k, v⟩ ↔ r = ⟨k, v⟩ ∨ r ∈ page.records := by
    intro r
    rw [List.mem_insertIdx hi]
  have hsort : (page.records.insertIdx i ⟨k, v⟩).Pairwise fun a b => a.key < b.key := by
    have hs := hok.sorted
    rw [← hcut, List.pairwise_append] at hs
    rw [hinsert, List.pairwise_append, List.pairwise_cons]
    refine ⟨hs.1, ⟨hdrop, hs.2.1⟩, fun a ha b hb => ?_⟩
    rcases List.mem_cons.mp hb with rfl | hb
    · exact htake a ha
    · exact hs.2.2 a ha b hb
  split
  · rename_i hfull
    obtain ⟨left, right, splitKey, hsplit, his⟩ := hok.split hmem hv ⟨hlow, hk⟩ hsort hfull
    rw [hsplit]
    exact .split left right splitKey hk his
  · rename_i hfull
    refine .page _ hk ⟨hok.level, rfl, hok.range, hok.leftmost, fun r hr => ?_, fun r hr => ?_,
      hsort, ?_, ?_⟩ rfl hmem
    · rcases (hmem r).mp hr with rfl | hr
      · exact hv
      · exact hok.child r hr
    · rcases (hmem r).mp hr with rfl | hr
      · exact ⟨hlow, hk⟩
      · exact hok.within r hr
    · exact List.ne_nil_of_mem ((hmem ⟨k, v⟩).mpr (Or.inl rfl))
    · have hroom := hok.room
      simp only [setConsistent, List.length_insertIdx_of_le_length hi] at hfull ⊢
      omega

end InternalPage

end Dal
