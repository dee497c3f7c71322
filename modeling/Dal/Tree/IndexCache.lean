/-
The index cache of one node: copies of level-1 pages, by the range of keys they cover.

The skip list below the cache is an ordered set that any number of threads may use at
once, as the modules of `Dal.SkipList` show: the entries are in the order of
`CacheEntryComparator`, by `to` upwards and, for equal `to`, by `from` downwards.  So it
is a list here, kept in that order by `InsertConcurrently`, and `Seek` finds the first
entry that is not smaller; `Dal.Tree.CacheOrder` shows that this list is that set.

Entries are never taken out; `invalidate` and the eviction of `add_to_cache` only
clear the pointer, and `add_to_cache` may set it again.  The counters that decide
when to evict are left out: an eviction may happen at any time.
-/
import Dal.Tree.Page

namespace Dal

structure CacheEntry where
  start : Nat
  /-- `to`, the last key of the range. -/
  last : Nat
  ptr : Option InternalPage
  deriving DecidableEq, Repr

namespace CacheEntry

/-- `CacheEntryComparator`: `a` comes before `b`. -/
def before (a b : CacheEntry) : Bool :=
  decide (a.last < b.last ∨ a.last = b.last ∧ b.start < a.start)

/-- The comparator tells them apart. -/
def sameRange (a b : CacheEntry) : Bool := decide (a.start = b.start ∧ a.last = b.last)

end CacheEntry

abbrev IndexCache := List CacheEntry

namespace IndexCache

/-- `skiplist->InsertConcurrently`, of an entry whose range is not there. -/
def insertSorted (e : CacheEntry) : IndexCache → IndexCache
  | [] => [e]
  | x :: xs => if e.before x then e :: x :: xs else x :: insertSorted e xs

/-- `iter.Seek`: the first entry that is not before `e`. -/
def seek (e : CacheEntry) (cache : IndexCache) : Option CacheEntry :=
  cache.find? fun x => !x.before e

/-- `find_entry(from, to)`. -/
def findEntry (cache : IndexCache) (start stop : Nat) : Option CacheEntry :=
  cache.seek ⟨start, stop - 1, none⟩

/-- Set the pointer of the entry with a given range. -/
def setPtr (start last : Nat) (ptr : Option InternalPage) (cache : IndexCache) : IndexCache :=
  cache.map fun x => if x.start = start ∧ x.last = last then { x with ptr := ptr } else x

/-- `add_to_cache`: a new entry, or a new copy for an entry that has lost its own. -/
def addToCache (page : InternalPage) (cache : IndexCache) : IndexCache :=
  let e : CacheEntry := ⟨page.hdr.lowest, page.hdr.highest - 1, some page⟩
  if cache.any e.sameRange then
    match cache.findEntry page.hdr.lowest page.hdr.highest with
    | some x =>
        if x.start = e.start ∧ x.last = e.last ∧ x.ptr = none then
          cache.setPtr e.start e.last (some page)
        else cache
    | none => cache
  else cache.insertSorted e

/-- `invalidate` of the entry with a given range. -/
def invalidate (start last : Nat) (cache : IndexCache) : IndexCache :=
  cache.setPtr start last none

/-- A hit of `search_from_cache`: the child's address and which entry it came from. -/
structure Hit where
  addr : GlobalAddress
  start : Nat
  last : Nat
  deriving DecidableEq, Repr

/-- `search_from_cache`. -/
def searchFromCache (cache : IndexCache) (k : Nat) : Option Hit :=
  match cache.findEntry k (k + 1) with
  | none => none
  | some e =>
      match e.ptr with
      | none => none
      | some page =>
          if e.start ≤ k ∧ k ≤ e.last then
            some ⟨childFor page.hdr.leftmostPtr k page.records, e.start, e.last⟩
          else none

end IndexCache

end Dal
