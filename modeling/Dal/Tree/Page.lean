/-
The pages of the tree and what the code computes on one page it has in a buffer.

Pages are those of `include/Tree.h` without their padding and lock words.  An
`InternalPage` keeps only the live prefix of its records, so `last_index + 1` is the
length of the list; a `LeafPage` keeps all `kLeafCardinality` records, because a
deleted one stays behind as a hole (its `last_index` is only printed and left out).

`LeafPage.store`, `LeafPage.del` and `InternalPage.store` are the bodies of
`leaf_page_store`, `leaf_page_del` and `internal_page_store` between the read of the
locked page and the write that releases it.  They compute an `Outcome`, which the
machine then carries out step by step.
-/
import Dal.Common
import Mathlib.Data.List.Sort
import Mathlib.Data.Fin.Basic

namespace Dal

structure Header where
  leftmostPtr : GlobalAddress
  siblingPtr : GlobalAddress
  level : Nat
  lowest : Nat
  highest : Nat
  deriving DecidableEq, Repr

/-- `Header()`, with the level the page constructors set. -/
def Header.new (level : Nat) : Header :=
  { leftmostPtr := .Null, siblingPtr := .Null, level := level, lowest := kKeyMin,
    highest := kKeyMax }

structure InternalEntry where
  key : Nat
  ptr : GlobalAddress
  deriving DecidableEq, Repr

structure LeafEntry where
  fVersion : Fin 16
  key : Nat
  value : Nat
  rVersion : Fin 16
  deriving DecidableEq, Repr

/-- `LeafEntry()`. -/
def LeafEntry.new : LeafEntry := { fVersion := 0, key := 0, value := kValueNull, rVersion := 0 }

/-- The record holds a key: `value != kValueNull`. -/
def LeafEntry.live (r : LeafEntry) : Bool := decide (r.value ≠ kValueNull)

/-- `(kInternalPageSize - sizeof(Header) - 2 - 8) / sizeof(InternalEntry)`. -/
def kInternalCardinality : Nat := (1024 - 35 - 2 - 8) / 16

/-- `(kLeafPageSize - sizeof(Header) - 2 - 8) / sizeof(LeafEntry)`. -/
def kLeafCardinality : Nat := (1024 - 35 - 2 - 8) / 18

structure InternalPage where
  frontVersion : Nat
  hdr : Header
  /-- `records[0 .. last_index]`. -/
  records : List InternalEntry
  rearVersion : Nat
  deriving DecidableEq, Repr

structure LeafPage where
  frontVersion : Nat
  hdr : Header
  records : List LeafEntry
  rearVersion : Nat
  size : records.length = kLeafCardinality
  deriving DecidableEq, Repr

/-- A page as it lies in memory. -/
inductive Page
  | leaf (page : LeafPage)
  | internal (page : InternalPage)
  deriving DecidableEq, Repr

def Page.hdr : Page → Header
  | .leaf page => page.hdr
  | .internal page => page.hdr

/-- `check_consistent`. -/
def Page.consistent : Page → Bool
  | .leaf page => decide (page.rearVersion = page.frontVersion)
  | .internal page => decide (page.rearVersion = page.frontVersion)

/-- `set_consistent`; the versions are `uint8_t`. -/
def LeafPage.setConsistent (page : LeafPage) : LeafPage :=
  { page with
    frontVersion := (page.frontVersion + 1) % 256
    rearVersion := (page.frontVersion + 1) % 256 }

def InternalPage.setConsistent (page : InternalPage) : InternalPage :=
  { page with
    frontVersion := (page.frontVersion + 1) % 256
    rearVersion := (page.frontVersion + 1) % 256 }

/-- `LeafPage(level)`. -/
def LeafPage.new (level : Nat) : LeafPage :=
  { frontVersion := 0, hdr := .new level, records := List.replicate kLeafCardinality .new,
    rearVersion := 0, size := List.length_replicate }

/-- `InternalPage(left, key, right, level)`, which `update_new_root` writes. -/
def newRoot (left : GlobalAddress) (k : Nat) (right : GlobalAddress) (level : Nat) : Page :=
  .internal (InternalPage.setConsistent
    { frontVersion := 0, hdr := { Header.new level with leftmostPtr := left },
      records := [⟨k, right⟩], rearVersion := 0 })

/-- The assertions of the tree code. -/
inductive Assertion
  /-- `page->hdr.level == level`, or a level-0 page that is no leaf and the like. -/
  | level
  /-- `page->check_consistent()`. -/
  | consistent
  /-- `k >= page->hdr.lowest`. -/
  | lowest
  /-- `page->hdr.sibling_ptr != GlobalAddress::Null()` before going there. -/
  | sibling
  /-- `cnt != kLeafCardinality`, `cnt != kInternalCardinality`, or no empty record found. -/
  | full
  /-- `split_key > page->hdr.lowest` and `split_key < page->hdr.highest`. -/
  | splitKey
  /-- `assert(!from_cache)` of `page_search`. -/
  | cachedInternal
  /-- A page was read that nobody has written. -/
  | unmapped
  /-- `assert(from_cache)` of `leaf_page_store`. -/
  | fromCache
  /-- `assert(false)` of `internal_page_store`. -/
  | noParent
  deriving DecidableEq, Repr

/-! ### Searching one page -/

/-- The loops of `internal_page_search` and `search_from_cache`: the pointer before the
first record whose key exceeds `k`. -/
def childFor (leftmost : GlobalAddress) (k : Nat) : List InternalEntry → GlobalAddress
  | [] => leftmost
  | r :: rs => if k < r.key then leftmost else childFor r.ptr k rs

/-- `leaf_page_search`: what it leaves in `result.val`. -/
def leafPageSearch (k : Nat) : List LeafEntry → Nat
  | [] => kValueNull
  | r :: rs =>
      if r.key = k ∧ r.value ≠ kValueNull ∧ r.fVersion = r.rVersion then r.value
      else leafPageSearch k rs

structure SearchResult where
  isLeaf : Bool
  level : Nat
  slibing : GlobalAddress
  nextLevel : GlobalAddress
  val : Nat
  deriving DecidableEq, Repr

/-- `page_search` on a consistent copy; `none` when it returns false.  The bytes of a page
are taken for a leaf's when its `leftmost_ptr` is `Null`. -/
def pageSearch (page : Page) (k : Nat) (fromCache : Bool) :
    Except Assertion (Option SearchResult) :=
  match page with
  | .leaf page =>
      let result : SearchResult := ⟨true, page.hdr.level, .Null, .Null, kValueNull⟩
      if page.hdr.leftmostPtr ≠ .Null then .error .level
      else if fromCache ∧ (k < page.hdr.lowest ∨ page.hdr.highest ≤ k) then .ok none
      else if page.hdr.level ≠ 0 then .error .level
      else if page.hdr.highest ≤ k then .ok (some { result with slibing := page.hdr.siblingPtr })
      else if k < page.hdr.lowest then .error .lowest
      else .ok (some { result with val := leafPageSearch k page.records })
  | .internal page =>
      let result : SearchResult := ⟨false, page.hdr.level, .Null, .Null, kValueNull⟩
      if page.hdr.leftmostPtr = .Null then .error .level
      else if page.hdr.level = 0 then .error .level
      else if fromCache then .error .cachedInternal
      else if page.hdr.highest ≤ k then .ok (some { result with slibing := page.hdr.siblingPtr })
      else if k < page.hdr.lowest then .ok none
      else .ok (some { result with nextLevel := childFor page.hdr.leftmostPtr k page.records })

/-! ### Storing into one page -/

/-- What is to be done with a page that was read under its lock. -/
inductive Outcome
  | fail (why : Assertion)
  /-- A stale cache hit: unlock and return false. -/
  | stale
  /-- Unlock and go on at the sibling. -/
  | right (sibling : GlobalAddress)
  /-- `write_page_and_unlock` of one `LeafEntry`. -/
  | entry (i : Nat) (r : LeafEntry)
  /-- There is nothing to delete: unlock and return. -/
  | absent
  /-- `write_page_and_unlock` of the whole page. -/
  | page (page : InternalPage)
  /-- Write the new sibling, then this page linked to it, then post the key upwards. -/
  | split (left right : Page) (splitKey : Nat)
  deriving DecidableEq, Repr

/-- What the loop of `leaf_page_store` leaves in `cnt`, `empty_index` and `update_addr`. -/
structure Scan where
  cnt : Nat
  emptyIndex : Option Nat
  updateIndex : Option Nat
  deriving DecidableEq, Repr

/-- The loop of `leaf_page_store` over the records from index `i` on. -/
def scan (k : Nat) : Nat → List LeafEntry → Scan → Scan
  | _, [], acc => acc
  | i, r :: rs, acc =>
      if r.live then
        if r.key = k then { acc with cnt := acc.cnt + 1, updateIndex := some i }
        else scan k (i + 1) rs { acc with cnt := acc.cnt + 1 }
      else
        scan k (i + 1) rs
          (if acc.emptyIndex = none then { acc with emptyIndex := some i } else acc)

/-- `r.key = k; r.value = v; r.f_version++; r.r_version = r.f_version`. -/
def LeafEntry.write (r : LeafEntry) (k : Nat) (v : Nat) : LeafEntry :=
  { fVersion := r.fVersion + 1, key := k, value := v, rVersion := r.fVersion + 1 }

def LeafPage.set (page : LeafPage) (i : Nat) (r : LeafEntry) : LeafPage :=
  { page with records := page.records.set i r, size := List.length_set.trans page.size }

/-- The page a leaf split keeps: `records[m ..]` are emptied, versions stay. -/
def LeafEntry.clear (r : LeafEntry) : LeafEntry := { r with key := 0, value := kValueNull }

/-- A record as the split copies it into the sibling: key and value only. -/
def LeafEntry.moved (r : LeafEntry) : LeafEntry := { LeafEntry.new with key := r.key, value := r.value }

/-- The split of a leaf whose records are `records` once sorted; `sibling_ptr` of the left
half is set by `Page.link`. -/
def LeafPage.splitSorted (page : LeafPage) (records : List LeafEntry)
    (hsize : records.length = kLeafCardinality) : Outcome :=
  let m := kLeafCardinality / 2
  let splitKey := (records.getD m .new).key
  if page.hdr.lowest < splitKey ∧ splitKey < page.hdr.highest then
    let sibling : LeafPage :=
      { LeafPage.new page.hdr.level with
        hdr := { Header.new page.hdr.level with
          lowest := splitKey, highest := page.hdr.highest, siblingPtr := page.hdr.siblingPtr }
        records := (records.drop m).map LeafEntry.moved ++ List.replicate m .new
        size := by simp [hsize]; decide }
    let left : LeafPage :=
      { page with
        hdr := { page.hdr with highest := splitKey }
        records := records.take m ++ (records.drop m).map LeafEntry.clear
        size := by simp [hsize]; decide }
    .split (.leaf left.setConsistent) (.leaf sibling.setConsistent) splitKey
  else
    .fail .splitKey

/-- The split of a full leaf: `std::sort`, then the upper half moves. -/
def LeafPage.split (page : LeafPage) : Outcome :=
  page.splitSorted (page.records.insertionSort fun a b => a.key ≤ b.key)
    ((List.length_insertionSort _ _).trans page.size)

/-- `leaf_page_store` between the read of the page and its write. -/
def LeafPage.store (page : LeafPage) (k : Nat) (v : Nat) (fromCache : Bool) : Outcome :=
  if page.hdr.level ≠ 0 then .fail .level
  else if page.rearVersion ≠ page.frontVersion then .fail .consistent
  else if fromCache ∧ (k < page.hdr.lowest ∨ page.hdr.highest ≤ k) then .stale
  else if page.hdr.highest ≤ k then .right page.hdr.siblingPtr
  else if k < page.hdr.lowest then .fail .lowest
  else
    let sc := scan k 0 page.records ⟨0, none, none⟩
    if sc.cnt = kLeafCardinality then .fail .full
    else
      match sc.updateIndex, sc.emptyIndex with
      | some i, _ => .entry i ((page.records.getD i .new).write k v)
      | none, none => .fail .full
      | none, some i =>
          let r := (page.records.getD i .new).write k v
          if sc.cnt + 1 = kLeafCardinality then (page.set i r).split else .entry i r

/-- The loop of `leaf_page_del`: the first live record of the key. -/
def findLive (k : Nat) : Nat → List LeafEntry → Option Nat
  | _, [] => none
  | i, r :: rs => if r.key = k ∧ r.live then some i else findLive k (i + 1) rs

/-- `leaf_page_del` between the read of the page and its write. -/
def LeafPage.del (page : LeafPage) (k : Nat) (fromCache : Bool) : Outcome :=
  if page.hdr.level ≠ 0 then .fail .level
  else if page.rearVersion ≠ page.frontVersion then .fail .consistent
  else if fromCache ∧ (k < page.hdr.lowest ∨ page.hdr.highest ≤ k) then .stale
  else if page.hdr.highest ≤ k then .right page.hdr.siblingPtr
  else if k < page.hdr.lowest then .fail .lowest
  else
    match findLive k 0 page.records with
    | some i => .entry i ((page.records.getD i .new).write k kValueNull)
    | none => .absent

/-- The loop of `internal_page_store` from index `i - 1` down: the record with the key
`k` (`true`), or where a new one goes. -/
def findSlot (k : Nat) (records : List InternalEntry) : Nat → Bool × Nat
  | 0 => (false, 0)
  | i + 1 =>
      let r := records.getD i ⟨0, .Null⟩
      if r.key = k then (true, i)
      else if r.key < k then (false, i + 1)
      else findSlot k records i

/-- The split of a full internal page; `records[m]` goes up. -/
def InternalPage.split (page : InternalPage) : Outcome :=
  let m := kInternalCardinality / 2
  let middle := page.records.getD m ⟨0, .Null⟩
  if page.hdr.lowest < middle.key ∧ middle.key < page.hdr.highest then
    let sibling : InternalPage :=
      { frontVersion := 0
        hdr := { leftmostPtr := middle.ptr, siblingPtr := page.hdr.siblingPtr,
                 level := page.hdr.level, lowest := middle.key, highest := page.hdr.highest }
        records := page.records.drop (m + 1)
        rearVersion := 0 }
    let left : InternalPage :=
      { page with
        hdr := { page.hdr with highest := middle.key }
        records := page.records.take m }
    .split (.internal left.setConsistent) (.internal sibling.setConsistent) middle.key
  else
    .fail .splitKey

/-- `internal_page_store` between the read of the page and its write. -/
def InternalPage.store (page : InternalPage) (k : Nat) (v : GlobalAddress) (level : Nat) :
    Outcome :=
  if page.hdr.level ≠ level then .fail .level
  else if page.rearVersion ≠ page.frontVersion then .fail .consistent
  else if page.hdr.highest ≤ k then .right page.hdr.siblingPtr
  else if k < page.hdr.lowest then .fail .lowest
  else if page.records.length = kInternalCardinality then .fail .full
  else
    match findSlot k page.records page.records.length with
    | (true, i) => .page { page with records := page.records.set i ⟨k, v⟩ }.setConsistent
    | (false, i) =>
        let page' := { page with records := page.records.insertIdx i ⟨k, v⟩ }
        if page'.records.length = kInternalCardinality then page'.split
        else .page page'.setConsistent

/-- `page->hdr.sibling_ptr = sibling_addr`. -/
def Page.link (sibling : GlobalAddress) : Page → Page
  | .leaf page => .leaf { page with hdr := { page.hdr with siblingPtr := sibling } }
  | .internal page => .internal { page with hdr := { page.hdr with siblingPtr := sibling } }

/-- The write of one `LeafEntry` into the page. -/
def Page.setEntry (i : Nat) (r : LeafEntry) : Page → Page
  | .leaf page => .leaf (page.set i r)
  | .internal page => .internal page

end Dal
