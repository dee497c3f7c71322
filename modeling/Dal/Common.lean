/-
The words shared by every part of the system.

Addresses are what `include/GlobalAddress.h` calls them.  Integers, and with them the
`Key` and `Value` of `include/Common.h`, are natural numbers: nothing here depends on
an address or a key wrapping, and where a counter of the code does wrap the module
that models it says so with an explicit remainder.
-/
import Mathlib.Data.Nat.Notation
import Mathlib.Algebra.Group.Nat.Defs

namespace Dal

/-- `GlobalAddress`: a byte of some node's memory. -/
structure GlobalAddress where
  nodeID : Nat
  offset : Nat
  deriving DecidableEq, Repr

/-- `GlobalAddress::Null()`. -/
def GlobalAddress.Null : GlobalAddress := ⟨0, 0⟩


def kKeyMin : Nat := 0
def kKeyMax : Nat := 2 ^ 64 - 1
def kValueNull : Nat := 0

/-- Machines the code is compiled for. -/
def MAX_MACHINE : Nat := 8
/-- Application threads of one machine. -/
def MAX_APP_THREAD : Nat := 64

/--
The address of a lock.  Every caller builds it from a node and a slot of that
node's lock table, `lock_addr.offset = lock_index * sizeof(uint64_t)`, so the slot
is kept and the offset derived.
-/
structure LockAddr where
  nodeID : Nat
  index : Nat
  deriving DecidableEq, Repr

def LockAddr.offset (l : LockAddr) : Nat := l.index * 8

end Dal
