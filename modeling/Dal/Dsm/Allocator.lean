/-
The two allocators of the distributed memory, `include/GlobalAllocator.h` and
`include/LocalAllocator.h`.

A directory hands out whole chunks of its node's memory, in order, and never the
first one.  A thread cuts the regions it is asked for off the chunk it was given
last, and asks for another when the next region would cross the end of that chunk.
Nothing is ever given back: `free_` does nothing and nobody calls `free_chunk`.

Offsets have 48 bits and every addition to one wraps there.  What keeps an addition
from wrapping is that a chunk ends before `2 ^ 48`; that is part of what a chunk is
below, and it is all the arithmetic the rest needs.
-/
import Dal.Common
import Mathlib.Data.Set.Disjoint
import Mathlib.Data.Set.BooleanAlgebra
import Mathlib.Order.CompletePartialOrder

namespace Dal

def MB : Nat := 1024 * 1024
def GB : Nat := 1024 * MB

/-- `define::kChunkSize`. -/
def kChunkSize : Nat := 32 * MB

/-- `define::kRootPointerStoreOffest`. -/
def kRootPointerStoreOffest : Nat := kChunkSize / 2

/-- `addr.offset += n`, on a field of 48 bits. -/
def GlobalAddress.advance (a : GlobalAddress) (n : Nat) : GlobalAddress :=
  { a with offset := (a.offset + n) % 2 ^ 48 }

/-- `Tree::get_root_ptr_ptr`. -/
def getRootPtrPtr (treeId : Nat) : GlobalAddress := ⟨0, kRootPointerStoreOffest + 8 * treeId⟩

/-! ### Regions -/

/-- `size` bytes from `addr` on. -/
structure Region where
  addr : GlobalAddress
  size : Nat
  deriving DecidableEq, Repr

def Region.bytes (r : Region) : Set GlobalAddress :=
  {b | b.nodeID = r.addr.nodeID ∧ r.addr.offset ≤ b.offset ∧ b.offset < r.addr.offset + r.size}

/-- Chunk `i` of a node's memory. -/
def chunk (n i : Nat) : Region := ⟨⟨n, i * kChunkSize⟩, kChunkSize⟩

namespace Region

/-- One region lies inside another. -/
structure Within (r r' : Region) : Prop where
  node : r.addr.nodeID = r'.addr.nodeID
  le : r'.addr.offset ≤ r.addr.offset
  fits : r.addr.offset + r.size ≤ r'.addr.offset + r'.size

theorem Within.subset {r r' : Region} (h : Within r r') : r.bytes ⊆ r'.bytes := by
  intro b hb
  have hle := h.le
  have hfits := h.fits
  exact ⟨hb.1.trans h.node, hle.trans hb.2.1, by have := hb.2.2; omega⟩

theorem disjoint_of_node {r r' : Region} (h : r.addr.nodeID ≠ r'.addr.nodeID) :
    Disjoint r.bytes r'.bytes := by
  refine Set.disjoint_left.mpr fun b hb hb' => ?_
  exact h (hb.1.symm.trans hb'.1)

/-- A region that ends where the other has not begun yet. -/
theorem disjoint_of_le {r r' : Region} (h : r.addr.offset + r.size ≤ r'.addr.offset) :
    Disjoint r.bytes r'.bytes := by
  refine Set.disjoint_left.mpr fun b hb hb' => ?_
  have := hb.2.2
  have := hb'.2.1
  omega

/-- Two chunks of the system share no byte. -/
theorem chunk_disjoint {n m i j : Nat} (h : n ≠ m ∨ i ≠ j) :
    Disjoint (chunk n i).bytes (chunk m j).bytes := by
  rcases h with hnode | hindex
  · exact disjoint_of_node hnode
  rcases Nat.lt_or_gt_of_ne hindex with hlt | hgt
  · refine disjoint_of_le ?_
    show i * kChunkSize + kChunkSize ≤ j * kChunkSize
    have := Nat.mul_le_mul_right kChunkSize (Nat.succ_le_of_lt hlt)
    rwa [Nat.succ_mul] at this
  · refine (disjoint_of_le ?_).symm
    show j * kChunkSize + kChunkSize ≤ i * kChunkSize
    have := Nat.mul_le_mul_right kChunkSize (Nat.succ_le_of_lt hgt)
    rwa [Nat.succ_mul] at this

theorem Within.disjoint {r r' c c' : Region} (h : Within r c) (h' : Within r' c')
    (hc : Disjoint c.bytes c'.bytes) : Disjoint r.bytes r'.bytes :=
  Set.disjoint_of_subset h.subset h'.subset hc

end Region

/-- Every root pointer is kept in the first chunk of node 0. -/
theorem rootSlot_within {treeId : Nat} (h : treeId < 2 ^ 16) :
    Region.Within ⟨getRootPtrPtr treeId, 8⟩ (chunk 0 0) where
  node := rfl
  le := by
    show 0 * kChunkSize ≤ _
    omega
  fits := by
    show kRootPointerStoreOffest + 8 * treeId + 8 ≤ 0 * kChunkSize + kChunkSize
    have : kRootPointerStoreOffest + 8 * 2 ^ 16 ≤ kChunkSize := by decide
    omega

/-! ### `GlobalAllocator` -/

structure GlobalAllocator where
  start : GlobalAddress
  size : Nat
  bitmap : List Bool
  bitmapLen : Nat
  bitmapTail : Nat

/-- The constructor: the first chunk is taken. -/
def GlobalAllocator.new (start : GlobalAddress) (size : Nat) : GlobalAllocator where
  start := start
  size := size
  bitmap := (List.replicate (size / kChunkSize) false).set 0 true
  bitmapLen := size / kChunkSize
  bitmapTail := 1

/-- `alloc_chunck`; `none` where it asserts. -/
def GlobalAllocator.allocChunck (g : GlobalAllocator) : Option (GlobalAddress × GlobalAllocator) :=
  if g.bitmapLen ≤ g.bitmapTail then none
  else if g.bitmap[g.bitmapTail]? = some false then
    some (g.start.advance (g.bitmapTail * kChunkSize),
      { g with bitmap := g.bitmap.set g.bitmapTail true, bitmapTail := g.bitmapTail + 1 })
  else none

/-- What an allocator for `size` bytes of node `n` is between two requests. -/
structure GlobalAllocator.Ok (g : GlobalAllocator) (n size : Nat) : Prop where
  start : g.start = ⟨n, 0⟩
  len : g.bitmapLen = size / kChunkSize
  pos : 0 < g.bitmapTail

theorem GlobalAllocator.ok_new (n size : Nat) : (GlobalAllocator.new ⟨n, 0⟩ size).Ok n size :=
  ⟨rfl, rfl, Nat.one_pos⟩

/-- A chunk that is handed out is the next one, and lies in the node's memory. -/
theorem GlobalAllocator.Ok.allocChunck {g g' : GlobalAllocator} {n size : Nat} {a : GlobalAddress}
    (h : g.Ok n size) (hsize : size < 2 ^ 48) (ha : g.allocChunck = some (a, g')) :
    a = ⟨n, g.bitmapTail * kChunkSize⟩ ∧ (g.bitmapTail + 1) * kChunkSize ≤ size ∧
      g'.bitmapTail = g.bitmapTail + 1 ∧ g'.Ok n size := by
  unfold GlobalAllocator.allocChunck at ha
  split at ha
  · cases ha
  rename_i hroom
  split at ha
  · have hfits : (g.bitmapTail + 1) * kChunkSize ≤ size := by
      have hlen := h.len
      exact (Nat.mul_le_mul_right _ (by omega)).trans (Nat.div_mul_le_self size kChunkSize)
    have hlt : g.bitmapTail * kChunkSize < 2 ^ 48 := by
      rw [Nat.succ_mul] at hfits
      omega
    simp only [Option.some.injEq, Prod.mk.injEq] at ha
    obtain ⟨rfl, rfl⟩ := ha
    refine ⟨?_, hfits, rfl, ⟨h.start, h.len, Nat.succ_pos _⟩⟩
    simp only [GlobalAddress.advance, h.start, Nat.zero_add, Nat.mod_eq_of_lt hlt]
  · cases ha

/-! ### `LocalAllocator` -/

structure LocalAllocator where
  head : GlobalAddress
  cur : GlobalAddress
  logHeads : List GlobalAddress

def LocalAllocator.new : LocalAllocator := ⟨.Null, .Null, []⟩

/-- `malloc`: the address it returns, `need_chunck`, and what it leaves. -/
def LocalAllocator.malloc (l : LocalAllocator) (size : Nat) :
    GlobalAddress × Bool × LocalAllocator :=
  if l.logHeads.isEmpty ∨ l.cur.offset + size > l.head.offset + kChunkSize then (l.cur, true, l)
  else (l.cur, false, { l with cur := l.cur.advance size })

/-- `set_chunck`. -/
def LocalAllocator.setChunck (l : LocalAllocator) (addr : GlobalAddress) : LocalAllocator where
  head := addr
  cur := addr
  logHeads := l.logHeads ++ [addr]

/-- The current chunk is the one in use, and `cur` is inside it or at its end. -/
structure LocalAllocator.Ok (l : LocalAllocator) : Prop where
  head_mem : l.logHeads ≠ [] → l.head ∈ l.logHeads
  node : l.cur.nodeID = l.head.nodeID
  le : l.head.offset ≤ l.cur.offset
  fits : l.cur.offset ≤ l.head.offset + kChunkSize

namespace LocalAllocator

theorem ok_new : LocalAllocator.new.Ok where
  head_mem := by
    intro h
    exact absurd rfl h
  node := rfl
  le := Nat.le_refl _
  fits := Nat.le_add_right _ _

theorem ok_setChunck (l : LocalAllocator) (a : GlobalAddress) : (l.setChunck a).Ok where
  head_mem _ := by simp [setChunck]
  node := rfl
  le := Nat.le_refl _
  fits := Nat.le_add_right _ _

@[simp] theorem setChunck_logHeads (l : LocalAllocator) (a : GlobalAddress) :
    (l.setChunck a).logHeads = l.logHeads ++ [a] := rfl

@[simp] theorem setChunck_head (l : LocalAllocator) (a : GlobalAddress) :
    (l.setChunck a).head = a := rfl

@[simp] theorem setChunck_cur (l : LocalAllocator) (a : GlobalAddress) :
    (l.setChunck a).cur = a := rfl

variable {l : LocalAllocator} {size : Nat}

/-- `malloc` either wants a chunk and changes nothing, or takes the next bytes of the one it has. -/
theorem malloc_cases (l : LocalAllocator) (size : Nat) :
    l.malloc size = (l.cur, true, l) ∨
      l.logHeads ≠ [] ∧ l.cur.offset + size ≤ l.head.offset + kChunkSize ∧
        l.malloc size = (l.cur, false, { l with cur := l.cur.advance size }) := by
  unfold malloc
  split
  · exact Or.inl rfl
  · rename_i h
    simp only [not_or, List.isEmpty_iff, Nat.not_lt] at h
    exact Or.inr ⟨h.1, h.2, rfl⟩

/-- On a chunk just set there is room for anything no larger than a chunk. -/
theorem malloc_setChunck (l : LocalAllocator) (a : GlobalAddress) (hsize : size ≤ kChunkSize) :
    (l.setChunck a).malloc size = (a, false, { l.setChunck a with cur := a.advance size }) := by
  unfold malloc
  rw [if_neg]
  · rfl
  · simp only [setChunck_logHeads, setChunck_cur, setChunck_head, List.isEmpty_iff]
    simp only [List.append_eq_nil_iff, List.cons_ne_self, and_false, false_or]
    omega

end LocalAllocator

end Dal
