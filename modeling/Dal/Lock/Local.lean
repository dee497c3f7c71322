/-
The local lock of one slot, `LocalLockNode`, in the `SHERMAN_LOCK` builds.

One 64-bit word holds both counters of a ticket lock: the next ticket in its low
half, the ticket being served in its high half.  `acquire_local_lock` takes a
ticket with `fetch_add(1)`, `releases_local_lock` serves the next with
`fetch_add(1ull << 32)`, and `can_hand_over` compares the two halves as `uint32_t`.
-/
import Dal.Common

namespace Dal

/-- The fields of `LocalLockNode` the lock itself uses. -/
structure LocalLockNode where
  /-- `std::atomic<uint64_t> ticket_lock`. -/
  ticketLock : Nat
  handOver : Bool
  /-- `uint8_t hand_time`. -/
  handTime : Nat

/-- As `Tree::Tree` leaves it. -/
def LocalLockNode.init : LocalLockNode := ⟨0, false, 0⟩

/-- `uint32_t ticket = lock_val << 32 >> 32`. -/
def ticketOf (lockVal : Nat) : Nat := lockVal % 2 ^ 32

/-- `uint32_t current = lock_val >> 32`. -/
def currentOf (lockVal : Nat) : Nat := lockVal / 2 ^ 32

/-- `ticket_lock.fetch_add(x)`, without the value it returns. -/
def LocalLockNode.fetchAdd (node : LocalLockNode) (x : Nat) : LocalLockNode :=
  { node with ticketLock := (node.ticketLock + x) % 2 ^ 64 }

/-- `node.hand_time++`, on a `uint8_t`. -/
def LocalLockNode.countHolder (node : LocalLockNode) : LocalLockNode :=
  { node with handTime := (node.handTime + 1) % 256 }

/-- `Tree::can_hand_over`; what it returns is the `handOver` it leaves. -/
def LocalLockNode.canHandOver (maxHandover : Nat) (node : LocalLockNode) : LocalLockNode :=
  let ticket := ticketOf node.ticketLock
  let current := currentOf node.ticketLock
  let handOver := if ticket ≤ (current + 1) % 2 ^ 32 then false
    else decide (node.handTime < maxHandover)
  { node with handOver := handOver, handTime := if handOver then node.handTime else 0 }

namespace LocalLockNode

variable (node : LocalLockNode)

@[simp] theorem fetchAdd_handOver (x : Nat) : (node.fetchAdd x).handOver = node.handOver := rfl

@[simp] theorem countHolder_handOver : node.countHolder.handOver = node.handOver := rfl

@[simp] theorem countHolder_ticketLock : node.countHolder.ticketLock = node.ticketLock := rfl

/-! ### The two halves of the word

As long as fewer than `2 ^ 32` tickets were taken the low half does not carry into
the high one, and the word reads back as the pair of counters it is meant to be.
-/

/-- `taken` tickets were taken and `served` released, and neither half has wrapped. -/
structure Counts (taken served : Nat) : Prop where
  word : node.ticketLock = taken + served * 2 ^ 32
  le : served ≤ taken
  lt : taken < 2 ^ 32

variable {node} {taken served : Nat}

theorem Counts.ticket (h : node.Counts taken served) : ticketOf node.ticketLock = taken := by
  have hword := h.word
  have hlt := h.lt
  unfold ticketOf
  omega

theorem Counts.current (h : node.Counts taken served) : currentOf node.ticketLock = served := by
  have hword := h.word
  have hlt := h.lt
  unfold currentOf
  omega

/-- Taking a ticket counts one more taken, while the low half has room. -/
theorem Counts.take (h : node.Counts taken served) (hroom : taken + 1 < 2 ^ 32) :
    (node.fetchAdd 1).Counts (taken + 1) served := by
  have hword := h.word
  have hle := h.le
  refine ⟨?_, by omega, hroom⟩
  show (node.ticketLock + 1) % 2 ^ 64 = taken + 1 + served * 2 ^ 32
  omega

/-- Releasing serves one more ticket, if one that was taken is not served yet. -/
theorem Counts.serve (h : node.Counts taken served) (hpending : served < taken) :
    (node.fetchAdd (2 ^ 32)).Counts taken (served + 1) := by
  have hword := h.word
  have hlt := h.lt
  refine ⟨?_, by omega, hlt⟩
  show (node.ticketLock + 2 ^ 32) % 2 ^ 64 = taken + (served + 1) * 2 ^ 32
  omega

theorem Counts.countHolder (h : node.Counts taken served) :
    node.countHolder.Counts taken served := ⟨h.word, h.le, h.lt⟩

theorem Counts.canHandOver (h : node.Counts taken served) (m : Nat) :
    (node.canHandOver m).Counts taken served := ⟨h.word, h.le, h.lt⟩

/-- Asked by a holder, `can_hand_over` answers true only if another ticket is out. -/
theorem Counts.pending_of_canHandOver (h : node.Counts taken served) (hheld : served < taken)
    {m : Nat} (hyes : (node.canHandOver m).handOver = true) : served + 1 < taken := by
  have hlt := h.lt
  simp only [LocalLockNode.canHandOver, h.ticket, h.current] at hyes
  split at hyes
  · exact absurd hyes Bool.false_ne_true
  · rename_i hmore
    rw [Nat.mod_eq_of_lt (by omega)] at hmore
    omega

end LocalLockNode

end Dal
