/-
`range_query`: the values of a range of keys, by way of the index cache.

The cache names the leaves, which are read 32 at a time into one buffer, each with a read
of its own; what is in the buffer is looked through before it is used again.  `read i a`
is what the `i`-th read, of the page at `a`, brings: other clients may write between two
reads.

`rangeQuery_eq` is that the batches make no difference.  What the function returns then
depends on how often the cached copies name the leaf of a key: once, and the value is
returned; not at all, because the leaf was split off after the copy was taken, and it is
missing; twice, because two copies overlap, and it is there twice.
-/
import Dal.Tree.Announce
import Dal.Tree.Blink
import Dal.Tree.Children
import Dal.Tree.Search
import Mathlib.Data.List.Perm.Basic

namespace Dal

/-! ### The function -/

namespace IndexCache

/-- The loop of `search_range_from_cache`. -/
def copiesUpTo (stop : Nat) : IndexCache → List InternalPage
  | [] => []
  | e :: es =>
      match e.ptr with
      | none => copiesUpTo stop es
      | some page => if e.start > stop then [] else page :: copiesUpTo stop es

/-- `search_range_from_cache(from, to)`; the entry it seeks has `from` for both its ends. -/
def searchRangeFromCache (cache : IndexCache) (start stop : Nat) : List InternalPage :=
  copiesUpTo stop (cache.dropWhile fun x => x.before ⟨start, start, none⟩)

end IndexCache

namespace RangeQuery

def kParaFetch : Nat := 32

/-- What is taken of one record. -/
def take (start stop : Nat) (r : LeafEntry) : Option Nat :=
  if r.value ≠ kValueNull ∧ r.fVersion = r.rVersion then
    if start ≤ r.key ∧ r.key ≤ stop then some r.value else none
  else none

/-- What is taken of one page. -/
def collect (start stop : Nat) (records : List LeafEntry) : List Nat :=
  records.filterMap (take start stop)

/-- The records it is taken of. -/
def taken (start stop : Nat) (records : List LeafEntry) : List LeafEntry :=
  records.filter fun r => (take start stop r).isSome

/-- The variables of the loop over the leaves. -/
structure Fetch where
  /-- The pages of `range_buffer`. -/
  buffer : Nat → List LeafEntry
  cqCnt : Nat
  /-- `value_buffer`, as far as it is filled. -/
  values : List Nat

section Loop

variable (start stop : Nat) (read : Nat → GlobalAddress → List LeafEntry)

/-- `poll_rdma_cq(n)`, and the first `n` pages of the buffer are looked through. -/
def Fetch.poll (n : Nat) (f : Fetch) : Fetch :=
  { f with
    cqCnt := f.cqCnt - n
    values := f.values ++ (List.range n).flatMap fun k => collect start stop (f.buffer k) }

/-- The round of the loop for `leaves[i]`. -/
def Fetch.round (f : Fetch) (leaf : GlobalAddress × Nat) : Fetch :=
  let f := if 0 < leaf.2 ∧ leaf.2 % kParaFetch = 0 then f.poll start stop kParaFetch else f
  { f with
    buffer := Function.update f.buffer (leaf.2 % kParaFetch) (read leaf.2 leaf.1)
    cqCnt := f.cqCnt + 1 }

/-- `range_query(from, to)` with the copies that the cache has: what it leaves in
`value_buffer`, whose length it returns. -/
def rangeQuery (result : List InternalPage) : List Nat :=
  if result = [] then []
  else
    let leaves := result.flatMap fun page => page.rangeLeaves start stop
    let f := leaves.zipIdx.foldl (Fetch.round start stop read) ⟨fun _ => [], 0, []⟩
    if f.cqCnt ≠ 0 then (f.poll start stop f.cqCnt).values else f.values

/-! ### The batches -/

/-- After `i` reads: `done` was looked through, and `pending` lies in the buffer. -/
structure Batched (i : Nat) (f : Fetch) (done pending : List (List LeafEntry)) : Prop where
  count : done.length + pending.length = i
  whole : done.length % kParaFetch = 0
  fits : pending.length ≤ kParaFetch
  used : 0 < i → 0 < pending.length
  cqCnt : f.cqCnt = pending.length
  buffer : ∀ k records, pending[k]? = some records → f.buffer k = records
  values : f.values = done.flatMap (collect start stop)

variable {start stop}
variable {i : Nat} {f : Fetch} {done pending : List (List LeafEntry)}

omit read in
/-- What lies in the buffer is looked through. -/
theorem Batched.poll (h : Batched start stop i f done pending) :
    (f.poll start stop pending.length).values = (done ++ pending).flatMap (collect start stop) := by
  have hbuffer : (List.range pending.length).flatMap (fun k => collect start stop (f.buffer k)) =
      pending.flatMap (collect start stop) := by
    have hlist : (List.range pending.length).map f.buffer = pending := by
      refine List.ext_getElem? fun k => ?_
      rw [List.getElem?_map]
      by_cases hk : k < pending.length
      · rw [List.getElem?_range hk, List.getElem?_eq_getElem hk]
        exact congrArg some (h.buffer k _ (List.getElem?_eq_getElem hk))
      · rw [List.getElem?_eq_none (by rw [List.length_range]; omega),
          List.getElem?_eq_none (by omega)]
        rfl
    conv => rhs; rw [← hlist, List.flatMap_map]
  show f.values ++ _ = _
  rw [hbuffer, h.values, List.flatMap_append]

/-- One more page is read. -/
theorem Batched.round (h : Batched start stop i f done pending) (a : GlobalAddress) :
    ∃ done' pending', done' ++ pending' = done ++ pending ++ [read i a] ∧
      Batched start stop (i + 1) (f.round start stop read (a, i)) done' pending' := by
  have hcount := h.count
  have hwhole := h.whole
  have hfits := h.fits
  by_cases hfull : 0 < i ∧ i % kParaFetch = 0
  · -- the buffer is full
    have hlen : pending.length = kParaFetch := by
      have := h.used hfull.1
      have := hfull.2
      simp only [kParaFetch] at *
      omega
    refine ⟨done ++ pending, [read i a], rfl, ?_, ?_, ?_, fun _ => Nat.one_pos, ?_, ?_, ?_⟩
    · rw [List.length_append]
      exact congrArg (· + 1) hcount
    · rw [List.length_append, hcount]
      exact hfull.2
    · exact Nat.succ_le_of_lt (by decide)
    · unfold Fetch.round
      rw [if_pos hfull]
      show f.cqCnt - kParaFetch + 1 = 1
      rw [h.cqCnt, hlen, Nat.sub_self]
    · intro k records hk
      unfold Fetch.round
      rw [if_pos hfull]
      cases k with
      | zero =>
          show Function.update f.buffer (i % kParaFetch) (read i a) 0 = records
          rw [hfull.2, Function.update_self]
          exact Option.some_inj.mp hk
      | succ k => cases hk
    · unfold Fetch.round
      rw [if_pos hfull, ← h.poll, hlen]
  · have hlen : pending.length < kParaFetch := by
      refine lt_of_le_of_ne hfits fun heq => hfull ⟨?_, ?_⟩
      all_goals simp only [kParaFetch] at *; omega
    have hslot : i % kParaFetch = pending.length := by
      simp only [kParaFetch] at *
      omega
    refine ⟨done, pending ++ [read i a], (List.append_assoc ..).symm, ?_, hwhole, ?_, fun _ => ?_,
      ?_, ?_, ?_⟩
    · rw [List.length_append, ← Nat.add_assoc]
      exact congrArg (· + 1) hcount
    · rw [List.length_append]
      exact hlen
    · rw [List.length_append]
      exact Nat.succ_pos _
    · unfold Fetch.round
      rw [if_neg hfull, List.length_append]
      exact congrArg (· + 1) h.cqCnt
    · intro k records hk
      unfold Fetch.round
      rw [if_neg hfull]
      show Function.update f.buffer (i % kParaFetch) (read i a) k = records
      rw [hslot]
      by_cases hkl : k = pending.length
      · subst hkl
        rw [List.getElem?_append_right (Nat.le_refl _), Nat.sub_self] at hk
        rw [Function.update_self]
        exact Option.some_inj.mp hk
      · rw [Function.update_of_ne hkl]
        refine h.buffer k records ?_
        have hlt : k < pending.length := by
          have := (List.getElem?_eq_some_iff.mp hk).1
          rw [List.length_append] at this
          have : k < pending.length + 1 := this
          omega
        rwa [List.getElem?_append_left hlt] at hk
    · unfold Fetch.round
      rw [if_neg hfull]
      exact h.values

theorem Batched.run (h : Batched start stop i f done pending) (leaves : List GlobalAddress) :
    ∃ done' pending', done' ++ pending' =
        done ++ pending ++ (leaves.zipIdx i).map (fun leaf => read leaf.2 leaf.1) ∧
      Batched start stop (i + leaves.length)
        ((leaves.zipIdx i).foldl (Fetch.round start stop read) f) done' pending' := by
  induction leaves generalizing i f done pending with
  | nil => exact ⟨done, pending, (List.append_nil _).symm, h⟩
  | cons a leaves ih =>
      obtain ⟨done₁, pending₁, heq₁, h₁⟩ := h.round read a
      obtain ⟨done₂, pending₂, heq₂, h₂⟩ := ih h₁
      refine ⟨done₂, pending₂, ?_, ?_⟩
      · rw [heq₂, heq₁, List.zipIdx_cons, List.map_cons, List.append_assoc]
        rfl
      · rw [List.length_cons, Nat.add_comm leaves.length, ← Nat.add_assoc]
        exact h₂

/-- **All pages that were read are looked through once, in their order.** -/
theorem rangeQuery_eq (result : List InternalPage) : rangeQuery start stop read result =
    ((result.flatMap fun page => page.rangeLeaves start stop).zipIdx).flatMap
      fun leaf => collect start stop (read leaf.2 leaf.1) := by
  unfold rangeQuery
  split
  · rename_i hnil
    rw [hnil]
    rfl
  · have hstart : Batched start stop 0 ⟨fun _ => [], 0, []⟩ [] [] :=
      ⟨rfl, rfl, Nat.zero_le _, fun h => absurd h (Nat.lt_irrefl 0), rfl,
        fun k _ hk => (by cases hk), rfl⟩
    obtain ⟨done, pending, heq, h⟩ := hstart.run read
      (result.flatMap fun page => page.rangeLeaves start stop)
    have hall : (done ++ pending).flatMap (collect start stop) =
        ((result.flatMap fun page => page.rangeLeaves start stop).zipIdx).flatMap
          fun leaf => collect start stop (read leaf.2 leaf.1) := by
      rw [heq, List.nil_append, List.nil_append, List.flatMap_map]
    rw [← hall]
    simp only
    split
    · rw [h.cqCnt]
      exact h.poll
    · rename_i hnone
      have hpending : pending = [] :=
        List.length_eq_zero_iff.mp (h.cqCnt.symm.trans (not_not.mp hnone))
      rw [hpending, List.append_nil]
      exact h.values

end Loop

/-! ### The keys that are taken of one leaf -/

section Leaf

variable {start stop : Nat} {map : Nat → Option Nat}

/-- The keys of the range. -/
def keys (start stop : Nat) : List Nat := List.range' start (stop + 1 - start)

theorem mem_keys {k : Nat} : k ∈ keys start stop ↔ start ≤ k ∧ k ≤ stop := by
  unfold keys
  rw [List.mem_range'_1]
  omega

theorem nodup_keys : (keys start stop).Nodup := List.nodup_range' ..

theorem collect_eq_taken (records : List LeafEntry) :
    collect start stop records = (taken start stop records).map LeafEntry.value := by
  have htake : ∀ r, take start stop r =
      if (take start stop r).isSome then some r.value else none := by
    intro r
    unfold take
    split
    · split <;> rfl
    · rfl
  unfold collect taken
  induction records with
  | nil => rfl
  | cons r records ih =>
      have hr := htake r
      by_cases hsome : (take start stop r).isSome = true
      · rw [if_pos hsome] at hr
        rw [List.filterMap_cons_some hr, List.filter_cons, if_pos hsome, List.map_cons, ih]
      · rw [if_neg hsome] at hr
        rw [List.filterMap_cons_none hr, List.filter_cons, if_neg hsome, ih]

theorem mem_taken {page : LeafPage} (hok : page.Ok) {r : LeafEntry} :
    r ∈ taken start stop page.records ↔
      r ∈ page.records ∧ r.live = true ∧ start ≤ r.key ∧ r.key ≤ stop := by
  unfold taken
  rw [List.mem_filter]
  refine and_congr_right fun hr => ?_
  have hversion := hok.versions r hr
  unfold take LeafEntry.live
  by_cases hlive : r.value ≠ kValueNull
  · rw [if_pos ⟨hlive, hversion⟩, decide_eq_true hlive]
    by_cases hin : start ≤ r.key ∧ r.key ≤ stop
    · rw [if_pos hin]
      exact iff_of_true rfl ⟨rfl, hin⟩
    · rw [if_neg hin]
      exact iff_of_false Bool.false_ne_true fun h => hin h.2
  · rw [if_neg fun h => hlive h.1, decide_eq_false hlive]
    exact iff_of_false Bool.false_ne_true fun h => Bool.false_ne_true h.1

/-- A leaf gives a record for each key of the range that it holds, once; `g` is whatever is looked
at of key and value. -/
theorem taken_perm {β : Type} (g : Nat → Nat → β) {page : LeafPage} (hok : page.Ok)
    (hmap : ∀ k v, page.hdr.lowest ≤ k → k < page.hdr.highest →
      (map k = some v ↔ page.Has k v)) :
    ((taken start stop page.records).map fun r => g r.key r.value).Perm
      ((keys start stop).filterMap fun k =>
        if page.hdr.lowest ≤ k ∧ k < page.hdr.highest then (map k).map (g k) else none) := by
  generalize hf : (fun k =>
    if page.hdr.lowest ≤ k ∧ k < page.hdr.highest then (map k).map (g k) else none) = f
  have hvalue : ∀ r ∈ taken start stop page.records, f r.key = some (g r.key r.value) := by
    intro r hr
    obtain ⟨hmem, hlive, -⟩ := (mem_taken hok).mp hr
    have hin := hok.within r hmem hlive
    rw [← hf]
    refine (if_pos hin).trans ?_
    rw [(hmap _ _ hin.1 hin.2).mpr ⟨r, hmem, hlive, rfl, rfl⟩]
    rfl
  have hnodup : ((taken start stop page.records).map LeafEntry.key).Nodup := by
    refine List.pairwise_map.mpr (List.Pairwise.imp_of_mem ?_ (hok.distinct.filter _))
    intro a b ha hb hab
    exact hab ((mem_taken hok).mp ha).2.1 ((mem_taken hok).mp hb).2.1
  have hkeys : ((taken start stop page.records).map LeafEntry.key).Perm
      ((keys start stop).filter fun k => (f k).isSome) := by
    refine (List.perm_ext_iff_of_nodup hnodup (nodup_keys.filter _)).mpr fun k => ?_
    rw [List.mem_map, List.mem_filter, mem_keys]
    constructor
    · rintro ⟨r, hr, rfl⟩
      rw [hvalue r hr]
      exact ⟨((mem_taken hok).mp hr).2.2, rfl⟩
    · rintro ⟨hk, hsome⟩
      rw [← hf] at hsome
      simp only at hsome
      split at hsome
      · rename_i hin
        rw [Option.isSome_map] at hsome
        obtain ⟨v, hv⟩ := Option.isSome_iff_exists.mp hsome
        obtain ⟨r, hr, hlive, rfl, -⟩ := (hmap _ _ hin.1 hin.2).mp hv
        exact ⟨r, (mem_taken hok).mpr ⟨hr, hlive, hk⟩, rfl⟩
      · cases hsome
  calc (taken start stop page.records).map (fun r => g r.key r.value)
      = ((taken start stop page.records).map LeafEntry.key).filterMap f := by
        rw [List.filterMap_map]
        exact (List.filterMap_eq_map_iff_forall_eq_some.mpr hvalue).symm
    _ |>.Perm (((keys start stop).filter fun k => (f k).isSome).filterMap f) := hkeys.filterMap f
    _ = (keys start stop).filterMap f := by
        rw [List.filterMap_filter]
        refine List.filterMap_congr fun k _ => ?_
        cases f k <;> rfl

end Leaf

/-! ### How often a key is named -/

section Named

variable {β : Type} {map : Nat → Option β}

/-- A key counts as often as the children that answer for it. -/
theorem flatMap_answers (answers : Nat → Child → Bool) (ks : List Nat) : ∀ children : List Child,
    (children.flatMap fun child => ks.filterMap fun k =>
      if answers k child then map k else none).Perm
    ((ks.flatMap fun k => List.replicate (children.countP (answers k)) k).filterMap map) := by
  intro children
  induction children with
  | nil =>
      have hnil : (ks.flatMap fun k => List.replicate (List.countP (answers k) []) k) = [] :=
        List.flatMap_eq_nil_iff.mpr fun k _ => rfl
      rw [hnil]
      exact List.Perm.refl _
  | cons child children ih =>
      have hone : (ks.filterMap fun k => if answers k child then map k else none) =
          (ks.flatMap fun k => List.replicate (if answers k child then 1 else 0) k).filterMap
            map := by
        rw [List.filterMap_flatMap, List.filterMap_eq_flatMap_toList]
        refine List.flatMap_congr fun k _ => ?_
        by_cases hk : answers k child = true
        · rw [if_pos hk, if_pos hk]
          cases hmap : map k <;> simp [hmap]
        · rw [if_neg hk, if_neg hk]
          rfl
      have hsum : (ks.flatMap fun k =>
          List.replicate ((child :: children).countP (answers k)) k).Perm
          ((ks.flatMap fun k => List.replicate (if answers k child then 1 else 0) k) ++
            ks.flatMap fun k => List.replicate (children.countP (answers k)) k) := by
        refine List.Perm.trans (List.Perm.of_eq ?_) (List.flatMap_append_perm ..).symm
        refine List.flatMap_congr fun k _ => ?_
        rw [List.countP_cons, Nat.add_comm, List.replicate_add]
      rw [List.flatMap_cons, hone]
      refine List.Perm.trans (List.Perm.append_left _ ih) ?_
      rw [← List.filterMap_append]
      exact (hsum.filterMap map).symm

end Named

end RangeQuery

/-! ### What is read of the tree -/

namespace Tree

open RangeQuery

/-- What a read of the leaf at `a` brings. -/
def State.records (s : State) (a : GlobalAddress) : List LeafEntry :=
  match s.mem a with
  | some (.leaf page) => page.records
  | _ => []

/-- The leaf at `a` is the one for `k`. -/
def State.leafFor (s : State) (k : Nat) (a : GlobalAddress) : Bool :=
  match s.mem a with
  | some (.leaf page) => decide (page.hdr.lowest ≤ k ∧ k < page.hdr.highest)
  | _ => false

/-- What the client sees that has posted the writes on their way: its reads come after them. -/
def State.seen (cfg : Config) (s : State) : State := { s with mem := s.content cfg }

/-- How many children in the copies are the leaf for `k`. -/
def named (s : State) (copies : List InternalPage) (k : Nat) : Nat :=
  (copies.flatMap InternalPage.children).countP fun child => s.leafFor k child.ptr

section Children

variable {cfg : Config} {s : State} {m : Chart}

/-- The children of a page of level 1 are leaves that begin where their intervals do. -/
theorem childrenFrom_chart {highest : Nat} (rs : List InternalEntry) :
    ∀ (ptr : GlobalAddress) (x : Nat), m ptr = some (0, x) → (∀ r ∈ rs, m r.ptr = some (0, r.key)) →
    x < highest → (∀ r ∈ rs, x < r.key ∧ r.key < highest) →
    (rs.Pairwise fun a b => a.key < b.key) →
    ∀ child ∈ childrenFrom ptr x highest rs, m child.ptr = some (0, child.start) ∧
      child.start < child.stop ∧ (child.stop = highest ∨ ∃ b, m b = some (0, child.stop)) := by
  induction rs with
  | nil =>
      intro ptr x hptr _ hx _ _ child hchild
      rw [List.mem_singleton.mp hchild]
      exact ⟨hptr, hx, Or.inl rfl⟩
  | cons r rs ih =>
      intro ptr x hptr hrs _ hwithin hsort child hchild
      obtain ⟨hhead, htail⟩ := List.pairwise_cons.mp hsort
      have hr := hrs r (List.mem_cons_self ..)
      have hrx := hwithin r (List.mem_cons_self ..)
      rcases List.mem_cons.mp hchild with rfl | hchild
      · exact ⟨hptr, hrx.1, Or.inr ⟨r.ptr, hr⟩⟩
      · exact ih r.ptr r.key hr (fun r' hr' => hrs r' (List.mem_cons_of_mem _ hr')) hrx.2
          (fun r' hr' => ⟨hhead r' hr', (hwithin r' (List.mem_cons_of_mem _ hr')).2⟩) htail child
          hchild

/-- The leaf of a child begins where the child's interval does, and ends with it or before. -/
theorem Inv.child_leaf (h : Inv cfg s m) {page : InternalPage}
    (hpage : (Page.internal page).Ok m 1 page.hdr.lowest) {child : Child}
    (hchild : child ∈ page.children) :
    ∃ leaf : LeafPage, s.content cfg child.ptr = some (.leaf leaf) ∧ leaf.Ok ∧
      m child.ptr = some (0, child.start) ∧ leaf.hdr.lowest = child.start ∧
      leaf.hdr.highest ≤ child.stop := by
  obtain ⟨below, hbelow, hok⟩ := hpage.body
  obtain rfl : below = 0 := Nat.succ.inj hbelow.symm
  obtain ⟨hchart, hlt, hstop⟩ := childrenFrom_chart page.records page.hdr.leftmostPtr
    page.hdr.lowest hok.leftmost hok.child hok.range hok.within hok.sorted child hchild
  obtain ⟨leafPage, hcontent, hleafOk⟩ := h.shape.content_ok hchart
  obtain ⟨leaf, rfl, hleaf⟩ := hleafOk.leaf
  refine ⟨leaf, hcontent, hleaf, hchart, hleafOk.lowest, ?_⟩
  -- a leaf that begins at the stop ends the leaf there at the latest
  have hnext : ∀ b, m b = some (0, child.stop) → leaf.hdr.highest ≤ child.stop := by
    intro b hb
    obtain ⟨y, hcovers⟩ := h.shape.covers hb
    exact (h.shape.tiling 0).apart ⟨hchart, _, hcontent, rfl⟩ hcovers hlt
  rcases hstop with heq | ⟨b, hb⟩
  · by_cases hmax : page.hdr.highest = kKeyMax
    · rw [heq, hmax]
      exact hleafOk.top
    · obtain ⟨sibling, -, hsibling⟩ := h.shape.content_ok (hpage.next hmax)
      have hlow := hsibling.lowest
      obtain ⟨ipage, rfl, hinternal⟩ := hsibling.internal
      have hfirst := hinternal.leftmost
      rw [show ipage.hdr.lowest = page.hdr.highest from hlow, ← heq] at hfirst
      exact hnext _ hfirst
  · exact hnext b hb

/-- What the leaf of a key holds under it is what the tree does. -/
theorem Inv.leaf_pairs (h : Inv cfg s m) {a : GlobalAddress} {x : Nat} {leaf : LeafPage}
    (ha : m a = some (0, x)) (hcontent : s.content cfg a = some (.leaf leaf)) {k : Nat}
    (hk : leaf.hdr.lowest ≤ k) (hk' : k < leaf.hdr.highest) (v : Nat) :
    Pairs (s.content cfg) s.rootPtr k v ↔ leaf.Has k v := by
  rw [h.pairs_iff]
  constructor
  · rintro ⟨b, e, q, hb, hq, hhas⟩
    obtain ⟨page, hpage, hok⟩ := h.shape.content_ok ha
    rw [hcontent] at hpage
    cases hpage
    have hba := h.shape.has_home ha hcontent rfl (hok.lowest ▸ hk) hk' hb hq hhas
    subst hba
    rw [hcontent] at hq
    cases hq
    exact hhas
  · exact fun hhas => ⟨a, _, _, ha, hcontent, hhas⟩

/-- Without writes on their way the client sees the memory. -/
theorem Landed.seen (hl : Landed s) : s.seen cfg = s := by
  have hmem : s.content cfg = s.mem := funext hl.content
  unfold State.seen
  rw [hmem]

theorem records_leaf {a : GlobalAddress} {leaf : LeafPage} (h : s.mem a = some (.leaf leaf)) :
    s.records a = leaf.records := by
  unfold State.records
  rw [h]

theorem leafFor_leaf {a : GlobalAddress} {leaf : LeafPage} (h : s.mem a = some (.leaf leaf))
    (k : Nat) : s.leafFor k a = decide (leaf.hdr.lowest ≤ k ∧ k < leaf.hdr.highest) := by
  unfold State.leafFor
  rw [h]

end Children

section Values

variable {cfg : Config} {s : State} {m : Chart} {start stop : Nat} {copies : List InternalPage}

/-- The page may be a copy of one of level 1. -/
def CopyOf (cfg : Config) (s : State) (page : InternalPage) : Prop :=
  ∃ m, Inv cfg s m ∧ (Page.internal page).Ok m 1 page.hdr.lowest

/-- The leaves that are read, of the children of all copies. -/
theorem leaves_eq (hcopies : ∀ page ∈ copies, CopyOf cfg s page) :
    (copies.flatMap fun page => page.rangeLeaves start stop) =
      ((copies.flatMap InternalPage.children).filter (Child.fetched start stop)).map Child.ptr := by
  rw [List.filter_flatMap, List.map_flatMap]
  refine List.flatMap_congr fun page hpage => ?_
  obtain ⟨m, -, hcopy⟩ := hcopies page hpage
  obtain ⟨below, -, hok⟩ := hcopy.body
  exact InternalPage.rangeLeaves_eq hok.nonempty

/-- What is left out gives nothing. -/
theorem filter_flatMap_perm {α β : Type} (p : α → Bool) (f g : α → List β) : ∀ l : List α,
    (∀ a ∈ l, p a = true → (f a).Perm (g a)) → (∀ a ∈ l, p a = false → g a = []) →
    ((l.filter p).flatMap f).Perm (l.flatMap g) := by
  intro l
  induction l with
  | nil => exact fun _ _ => List.Perm.refl _
  | cons a l ih =>
      intro hin hout
      have ih := ih (fun b hb => hin b (List.mem_cons_of_mem _ hb))
        (fun b hb => hout b (List.mem_cons_of_mem _ hb))
      by_cases hp : p a = true
      · rw [List.filter_cons_of_pos hp, List.flatMap_cons, List.flatMap_cons]
        exact (hin a (List.mem_cons_self ..) hp).append ih
      · rw [List.filter_cons_of_neg hp, List.flatMap_cons,
          hout a (List.mem_cons_self ..) (Bool.eq_false_of_not_eq_true hp)]
        exact ih

/-- The records `range_query` takes values of, in their order. -/
def recordsTaken (start stop : Nat) (read : Nat → GlobalAddress → List LeafEntry)
    (copies : List InternalPage) : List LeafEntry :=
  ((copies.flatMap fun page => page.rangeLeaves start stop).zipIdx).flatMap
    fun leaf => taken start stop (read leaf.2 leaf.1)

theorem rangeQuery_taken (read : Nat → GlobalAddress → List LeafEntry) :
    rangeQuery start stop read copies =
      (recordsTaken start stop read copies).map LeafEntry.value := by
  rw [rangeQuery_eq, recordsTaken, List.map_flatMap]
  exact List.flatMap_congr fun leaf _ => collect_eq_taken _

/-- In a tree that nobody changes, `range_query` finds each key of the range that is there as
often as the copies name the leaf of the key. -/
theorem taken_copies_perm {β : Type} (g : Nat → Nat → β) {map : Nat → Option Nat}
    (hmap : ∀ k v, Pairs (s.content cfg) s.rootPtr k v ↔ map k = some v)
    (hcopies : ∀ page ∈ copies, CopyOf cfg s page) :
    ((recordsTaken start stop (fun _ => (s.seen cfg).records) copies).map
      fun r => g r.key r.value).Perm
      (((keys start stop).flatMap fun k =>
        List.replicate (named (s.seen cfg) copies k) k).filterMap fun k => (map k).map (g k)) := by
  have hreads : (recordsTaken start stop (fun _ => (s.seen cfg).records) copies).map
        (fun r => g r.key r.value) =
      ((copies.flatMap InternalPage.children).filter (Child.fetched start stop)).flatMap
        fun child => (taken start stop ((s.seen cfg).records child.ptr)).map
          fun r => g r.key r.value := by
    rw [recordsTaken, List.map_flatMap, ← List.flatMap_map Prod.fst (fun a =>
      (taken start stop ((s.seen cfg).records a)).map fun r => g r.key r.value),
      List.zipIdx_map_fst, leaves_eq hcopies, List.flatMap_map]
  rw [hreads]
  refine List.Perm.trans (filter_flatMap_perm _ _
    (fun child => (keys start stop).filterMap fun k =>
      if (s.seen cfg).leafFor k child.ptr then (map k).map (g k) else none) _ ?_ ?_)
    (flatMap_answers (fun k child => (s.seen cfg).leafFor k child.ptr) _ _)
  · intro child hchild _
    obtain ⟨page, hpage, hchild⟩ := List.mem_flatMap.mp hchild
    obtain ⟨m, h, hcopy⟩ := hcopies page hpage
    obtain ⟨leaf, hcontent, hok, hchart, -, -⟩ := h.child_leaf hcopy hchild
    have hseen : (s.seen cfg).mem child.ptr = some (.leaf leaf) := hcontent
    have hleaf : ∀ k v, leaf.hdr.lowest ≤ k → k < leaf.hdr.highest →
        (map k = some v ↔ leaf.Has k v) := fun k v hk hk' =>
      (hmap k v).symm.trans (h.leaf_pairs hchart hcontent hk hk' v)
    simp only [records_leaf hseen, leafFor_leaf hseen, decide_eq_true_eq]
    exact taken_perm g hok hleaf
  · intro child hchild hnot
    obtain ⟨page, hpage, hchild⟩ := List.mem_flatMap.mp hchild
    obtain ⟨m, h, hcopy⟩ := hcopies page hpage
    obtain ⟨leaf, hcontent, -, -, hlow, hhigh⟩ := h.child_leaf hcopy hchild
    have hseen : (s.seen cfg).mem child.ptr = some (.leaf leaf) := hcontent
    refine List.filterMap_eq_nil_iff.mpr fun k hk => if_neg fun hleaf => ?_
    obtain ⟨hstart, hstop⟩ := mem_keys.mp hk
    rw [leafFor_leaf hseen] at hleaf
    have hin := of_decide_eq_true hleaf
    have hout := of_decide_eq_false hnot
    omega

/-- The copies that are collected are in the cache. -/
theorem mem_copiesUpTo {page : InternalPage} : ∀ {cache : IndexCache},
    page ∈ cache.copiesUpTo stop → ∃ e ∈ cache, e.ptr = some page := by
  intro cache
  induction cache with
  | nil => exact fun h => by cases h
  | cons e es ih =>
      intro h
      have hlater : page ∈ IndexCache.copiesUpTo stop es → ∃ e' ∈ e :: es, e'.ptr = some page :=
        fun h => (ih h).imp fun _ he => ⟨List.mem_cons_of_mem _ he.1, he.2⟩
      unfold IndexCache.copiesUpTo at h
      split at h
      · exact hlater h
      · rename_i copy hptr
        split at h
        · cases h
        · rcases List.mem_cons.mp h with rfl | h
          · exact ⟨e, List.mem_cons_self .., hptr⟩
          · exact hlater h

theorem mem_searchRange {page : InternalPage} {cache : IndexCache}
    (h : page ∈ cache.searchRangeFromCache start stop) : ∃ e ∈ cache, e.ptr = some page := by
  obtain ⟨e, he, hptr⟩ := mem_copiesUpTo h
  exact ⟨e, (List.dropWhile_sublist _).subset he, hptr⟩

/-- The map that a tree holds. -/
theorem Inv.exists_map (h : Inv cfg s m) : ∃ map : Nat → Option Nat,
    ∀ k v, Pairs (s.content cfg) s.rootPtr k v ↔ map k = some v := by
  classical
  refine ⟨fun k => if hk : ∃ v, Holds cfg s m k v then some hk.choose else none, fun k v => ?_⟩
  rw [h.pairs_iff]
  by_cases hk : ∃ v, Holds cfg s m k v
  · simp only [dif_pos hk, Option.some.injEq]
    exact ⟨fun hv => h.holds_unique hk.choose_spec hv, fun heq => heq ▸ hk.choose_spec⟩
  · simp only [dif_neg hk]
    exact ⟨fun hv => absurd ⟨v, hv⟩ hk, fun heq => by cases heq⟩

/-- The chart grows along a path. -/
theorem Inv.path {G : State → Action → Prop} {s' : State} (h : Inv cfg s m)
    (hpath : (machine cfg).Path G s s') : ∃ m', m.Le m' ∧ Inv cfg s' m' := by
  refine hpath.invariant (I := fun s => ∃ m', m.Le m' ∧ Inv cfg s m') ⟨m, .refl m, h⟩ ?_
  rintro t action t' ⟨m', hle, hinv⟩ - hstep
  obtain ⟨m'', hadv⟩ := hinv.step hstep
  exact ⟨m'', hle.trans hadv.le, hadv.inv⟩

/-- A copy of a page of level 1, out of a cache or of the tree itself, taken now or earlier. -/
def Copied (cfg : Config) (s : State) (page : InternalPage) : Prop :=
  ∃ t, (machine cfg).Reachable t ∧ (machine cfg).Path (fun _ _ => True) t s ∧
    ((∃ n, ∃ e ∈ t.cache n, e.ptr = some page) ∨
      ∃ a, Linked t.mem t.rootPtr 1 a ∧ t.mem a = some (.internal page))

/-- What `search_range_from_cache` collects. -/
theorem copied_of_cache (hs : (machine cfg).Reachable s) {n : Nat} {page : InternalPage}
    (hpage : page ∈ (s.cache n).searchRangeFromCache start stop) : Copied cfg s page := by
  obtain ⟨e, he, hptr⟩ := mem_searchRange hpage
  exact ⟨s, hs, .refl, Or.inl ⟨n, e, he, hptr⟩⟩

theorem Copied.path {s' : State} {page : InternalPage} (h : Copied cfg s page)
    (hpath : (machine cfg).Path (fun _ _ => True) s s') : Copied cfg s' page := by
  obtain ⟨t, ht, hts, hfrom⟩ := h
  exact ⟨t, ht, hts.trans hpath, hfrom⟩

/-- A copy is what it should be, however old it is. -/
theorem Copied.copyOf {page : InternalPage} (h : Copied cfg s page) : CopyOf cfg s page := by
  obtain ⟨t, ht, hpath, hfrom⟩ := h
  obtain ⟨m₀, h₀⟩ := reachable_inv ht
  obtain ⟨m, hle, hinv⟩ := h₀.path hpath
  refine ⟨m, hinv, Page.Ok.mono hle ?_⟩
  rcases hfrom with ⟨n, e, he, hptr⟩ | ⟨a, hlinked, hmem⟩
  · exact (h₀.cache n e page he hptr).1
  · obtain ⟨top, hview⟩ := h₀.viewOk_mem
    obtain ⟨x, hx⟩ := hview.linked hlinked
    have hok := hview.ok hx hmem
    rw [show page.hdr.lowest = x from hok.lowest]
    exact hok

end Values

/-! ### While others write -/

section Moving

variable {cfg : Config} {s s' : State} {m : Chart} {start stop : Nat} {copies : List InternalPage}

end Moving

end Tree

end Dal
