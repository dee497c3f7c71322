/-
From the index that a benchmark worker draws to the lock it takes and the page it writes.

`empty_cs_worker` and `mlocks_worker` divide the index by `lockNR` for the node, and then
the same index by `mnNR` for the slot.  Both cannot be right at once: the quotients are a
pair of digits only when one of the two numbers is 1, and otherwise the indices 0 and 1
already share a lock.  `lock_map_iff` says so for every configuration.

A memory node maps the `GB(dsmSize)` bytes it serves, and an address has 48 bits for the
offset, so the results are about nodes of at most that size.
-/
import Dal.Bench.Worker
import Mathlib.Data.Set.Function
import Mathlib.Data.Set.Prod
import Mathlib.Order.Interval.Set.Defs

namespace Dal.Bench

/-- An address as the bit fields of `GlobalAddress` keep it. -/
def stored (nodeID offset : Nat) : GlobalAddress := ⟨nodeID % 2 ^ 16, offset % 2 ^ 48⟩

/-- What a worker computes from the index it draws. -/
structure Draw where
  baseAddr : GlobalAddress
  lockAddr : GlobalAddress
  /-- `lock_idx`, after it was overwritten. -/
  lockIdx : Nat
  deriving DecidableEq, Repr

/-- The lock as the counters of the workers name it. -/
def Draw.slot (draw : Draw) : Nat × Nat := (draw.lockAddr.nodeID, draw.lockIdx)

namespace Config

variable (cfg : Config)

/-- `GB(dsmSize)`. -/
def nodeBytes : Nat := cfg.dsmSize * 2 ^ 30

/-- `empty_cs_worker`, which has no data. -/
def emptyCsDraw (lockIdx : Nat) : Draw :=
  let l := cfg.lockAddr lockIdx
  { baseAddr := ⟨0, 0⟩, lockAddr := stored l.nodeID l.offset, lockIdx := l.index }

/-- `mlocks_worker`. -/
def mlocksDraw (lockIdx : Nat) : Draw :=
  let l := cfg.lockAddr lockIdx
  { baseAddr := stored (cfg.baseAddr l).nodeID (cfg.baseAddr l).offset
    lockAddr := stored l.nodeID l.offset, lockIdx := l.index }

/-- The indices that can be drawn. -/
def indices : Set Nat := Set.Iio (cfg.lockNR * cfg.mnNR)

/-- The locks there are. -/
def slots : Set (Nat × Nat) := Set.Iio cfg.mnNR ×ˢ Set.Iio cfg.lockNR

/-- Every lock is drawn by one index, and its word is in the lock memory of its node. -/
structure MapsLocks (draw : Nat → Draw) : Prop where
  bijection : Set.BijOn (fun i => (draw i).slot) cfg.indices cfg.slots
  inLockMemory : ∀ i ∈ cfg.indices, (draw i).lockAddr.offset + 8 ≤ cfg.lockNR * 8

/-- The pages of the indices are disjoint, and in the memory of their nodes. -/
structure MapsPages (draw : Nat → Draw) : Prop where
  apart : ∀ i ∈ cfg.indices, ∀ j ∈ cfg.indices, i ≠ j →
    (draw i).baseAddr.nodeID ≠ (draw j).baseAddr.nodeID ∨
    (draw i).baseAddr.offset + pageSize ≤ (draw j).baseAddr.offset ∨
    (draw j).baseAddr.offset + pageSize ≤ (draw i).baseAddr.offset
  inMemory : ∀ i ∈ cfg.indices, (draw i).baseAddr.offset + pageSize ≤ cfg.nodeBytes

end Config

section LockMap

variable {cfg : Config} {i j : Nat}

/-! ### One memory node -/

theorem lockAddr_of_one_node (hnodes : cfg.mnNR = 1) (hi : i ∈ cfg.indices) :
    i < cfg.lockNR ∧ cfg.lockAddr i = ⟨0, i⟩ := by
  have hlt : i < cfg.lockNR := by
    have hlt : i < cfg.lockNR * cfg.mnNR := hi
    rwa [hnodes, Nat.mul_one] at hlt
  refine ⟨hlt, ?_⟩
  unfold Config.lockAddr
  rw [Nat.div_eq_of_lt hlt, hnodes, Nat.div_one]

/-- The chunks of the slots lie one after the other in the node. -/
theorem chunk_end_le (hi : i < cfg.lockNR) : cfg.chunkSize * (i + 1) ≤ cfg.nodeBytes :=
  calc cfg.chunkSize * (i + 1)
      ≤ cfg.chunkSize * cfg.lockNR := Nat.mul_le_mul_left _ hi
    _ ≤ cfg.nodeBytes := Nat.div_mul_le_self _ _

theorem lock_offset_lt (hroom : pageSize ≤ cfg.chunkSize) (haddr : cfg.nodeBytes ≤ 2 ^ 48)
    (hi : i < cfg.lockNR) : i * 8 < 2 ^ 48 := by
  have hend := chunk_end_le hi
  have hpages : pageSize * (i + 1) ≤ cfg.chunkSize * (i + 1) := Nat.mul_le_mul_right _ hroom
  unfold pageSize at hpages
  omega

theorem mlocksDraw_of_one_node (hnodes : cfg.mnNR = 1) (hroom : pageSize ≤ cfg.chunkSize)
    (haddr : cfg.nodeBytes ≤ 2 ^ 48) (hi : i ∈ cfg.indices) :
    cfg.mlocksDraw i = ⟨⟨0, cfg.chunkSize * i⟩, ⟨0, i * 8⟩, i⟩ := by
  obtain ⟨hlt, haddr_eq⟩ := lockAddr_of_one_node hnodes hi
  have hend := chunk_end_le hlt
  have hpos : 0 < cfg.chunkSize := Nat.lt_of_lt_of_le (by decide) hroom
  have hbase : cfg.chunkSize * i < 2 ^ 48 := by
    rw [Nat.mul_succ] at hend
    omega
  have hlock := lock_offset_lt hroom haddr hlt
  unfold Config.mlocksDraw
  simp only [haddr_eq, Config.baseAddr, LockAddr.offset, stored, Nat.zero_mod,
    Nat.mod_eq_of_lt hbase, Nat.mod_eq_of_lt hlock]

theorem mapsLocks_of_one_node (hnodes : cfg.mnNR = 1) (hroom : pageSize ≤ cfg.chunkSize)
    (haddr : cfg.nodeBytes ≤ 2 ^ 48) : cfg.MapsLocks cfg.mlocksDraw := by
  have hdraw : ∀ i ∈ cfg.indices, cfg.mlocksDraw i = ⟨⟨0, cfg.chunkSize * i⟩, ⟨0, i * 8⟩, i⟩ :=
    fun i hi => mlocksDraw_of_one_node hnodes hroom haddr hi
  refine ⟨⟨?_, ?_, ?_⟩, ?_⟩
  · intro i hi
    show (cfg.mlocksDraw i).slot ∈ cfg.slots
    rw [hdraw i hi]
    refine ⟨?_, (lockAddr_of_one_node hnodes hi).1⟩
    show 0 < cfg.mnNR
    omega
  · intro i hi j hj hij
    have hslots : (cfg.mlocksDraw i).slot = (cfg.mlocksDraw j).slot := hij
    rw [hdraw i hi, hdraw j hj] at hslots
    exact congrArg Prod.snd hslots
  · intro slot hslot
    obtain ⟨node, index⟩ := slot
    have hnode : node < cfg.mnNR := hslot.1
    have hindex : index < cfg.lockNR := hslot.2
    have hmem : index ∈ cfg.indices := by
      show index < cfg.lockNR * cfg.mnNR
      rwa [hnodes, Nat.mul_one]
    refine ⟨index, hmem, ?_⟩
    show (cfg.mlocksDraw index).slot = (node, index)
    rw [hdraw index hmem, show node = 0 by omega]
    rfl
  · intro i hi
    have hlt := (lockAddr_of_one_node hnodes hi).1
    rw [hdraw i hi]
    show i * 8 + 8 ≤ cfg.lockNR * 8
    omega

theorem mapsPages_of_one_node (hnodes : cfg.mnNR = 1) (hroom : pageSize ≤ cfg.chunkSize)
    (haddr : cfg.nodeBytes ≤ 2 ^ 48) : cfg.MapsPages cfg.mlocksDraw := by
  have hdraw : ∀ i ∈ cfg.indices, cfg.mlocksDraw i = ⟨⟨0, cfg.chunkSize * i⟩, ⟨0, i * 8⟩, i⟩ :=
    fun i hi => mlocksDraw_of_one_node hnodes hroom haddr hi
  have hnext : ∀ i j, i < j → cfg.chunkSize * i + pageSize ≤ cfg.chunkSize * j := by
    intro i j hij
    calc cfg.chunkSize * i + pageSize
        ≤ cfg.chunkSize * i + cfg.chunkSize := Nat.add_le_add_left hroom _
      _ = cfg.chunkSize * (i + 1) := (Nat.mul_succ _ _).symm
      _ ≤ cfg.chunkSize * j := Nat.mul_le_mul_left _ hij
  constructor
  · intro i hi j hj hij
    rw [hdraw i hi, hdraw j hj]
    rcases Nat.lt_or_gt_of_ne hij with hlt | hlt
    · exact Or.inr (Or.inl (hnext i j hlt))
    · exact Or.inr (Or.inr (hnext j i hlt))
  · intro i hi
    have hend := chunk_end_le (lockAddr_of_one_node hnodes hi).1
    rw [hdraw i hi]
    exact Nat.le_trans (hnext i (i + 1) (Nat.lt_succ_self i)) hend

/-! ### One lock for each memory node -/

theorem mlocksDraw_of_one_lock (hlocks : cfg.lockNR = 1) (hbits : cfg.mnNR ≤ 2 ^ 16)
    (hi : i ∈ cfg.indices) : i < cfg.mnNR ∧ cfg.mlocksDraw i = ⟨⟨i, 0⟩, ⟨i, 0⟩, 0⟩ := by
  have hlt : i < cfg.mnNR := by
    have hlt : i < cfg.lockNR * cfg.mnNR := hi
    rwa [hlocks, Nat.one_mul] at hlt
  have hlock : cfg.lockAddr i = ⟨i, 0⟩ := by
    unfold Config.lockAddr
    rw [hlocks, Nat.div_one, Nat.div_eq_of_lt hlt]
  refine ⟨hlt, ?_⟩
  unfold Config.mlocksDraw
  simp only [hlock, Config.baseAddr, LockAddr.offset, stored, Nat.mul_zero, Nat.zero_mul,
    Nat.zero_mod, Nat.mod_eq_of_lt (Nat.lt_of_lt_of_le hlt hbits)]

theorem mapsLocks_of_one_lock (hlocks : cfg.lockNR = 1) (hbits : cfg.mnNR ≤ 2 ^ 16) :
    cfg.MapsLocks cfg.mlocksDraw := by
  have hdraw : ∀ i ∈ cfg.indices, cfg.mlocksDraw i = ⟨⟨i, 0⟩, ⟨i, 0⟩, 0⟩ :=
    fun i hi => (mlocksDraw_of_one_lock hlocks hbits hi).2
  refine ⟨⟨?_, ?_, ?_⟩, ?_⟩
  · intro i hi
    show (cfg.mlocksDraw i).slot ∈ cfg.slots
    rw [hdraw i hi]
    refine ⟨(mlocksDraw_of_one_lock hlocks hbits hi).1, ?_⟩
    show 0 < cfg.lockNR
    omega
  · intro i hi j hj hij
    have hslots : (cfg.mlocksDraw i).slot = (cfg.mlocksDraw j).slot := hij
    rw [hdraw i hi, hdraw j hj] at hslots
    exact congrArg Prod.fst hslots
  · intro slot hslot
    obtain ⟨node, index⟩ := slot
    have hnode : node < cfg.mnNR := hslot.1
    have hindex : index < cfg.lockNR := hslot.2
    have hmem : node ∈ cfg.indices := by
      show node < cfg.lockNR * cfg.mnNR
      rwa [hlocks, Nat.one_mul]
    refine ⟨node, hmem, ?_⟩
    show (cfg.mlocksDraw node).slot = (node, index)
    rw [hdraw node hmem, show index = 0 by omega]
    rfl
  · intro i hi
    rw [hdraw i hi, hlocks]

theorem mapsPages_of_one_lock (hlocks : cfg.lockNR = 1) (hbits : cfg.mnNR ≤ 2 ^ 16)
    (hroom : pageSize ≤ cfg.chunkSize) : cfg.MapsPages cfg.mlocksDraw := by
  constructor
  · intro i hi j hj hij
    rw [(mlocksDraw_of_one_lock hlocks hbits hi).2, (mlocksDraw_of_one_lock hlocks hbits hj).2]
    exact Or.inl hij
  · intro i hi
    rw [(mlocksDraw_of_one_lock hlocks hbits hi).2]
    show 0 + pageSize ≤ cfg.nodeBytes
    rw [Nat.zero_add]
    exact Nat.le_trans hroom (Nat.div_le_self _ _)

/-! ### Both workers -/

/-- The two workers compute the same lock. -/
theorem mapsLocks_emptyCs : cfg.MapsLocks cfg.emptyCsDraw ↔ cfg.MapsLocks cfg.mlocksDraw :=
  ⟨fun h => ⟨h.bijection, h.inLockMemory⟩, fun h => ⟨h.bijection, h.inLockMemory⟩⟩

/-- With two nodes and two locks the indices 0 and 1 share a lock. -/
theorem slot_zero_one (hnodes : 1 < cfg.mnNR) (hlocks : 1 < cfg.lockNR) :
    (cfg.mlocksDraw 0).slot = (cfg.mlocksDraw 1).slot := by
  have hlock : cfg.lockAddr 1 = cfg.lockAddr 0 := by
    unfold Config.lockAddr
    rw [Nat.div_eq_of_lt hlocks, Nat.div_eq_of_lt hnodes, Nat.zero_div, Nat.zero_div]
  unfold Config.mlocksDraw
  rw [hlock]

theorem few_of_mapsLocks (h : cfg.MapsLocks cfg.mlocksDraw) (hnodes : 0 < cfg.mnNR)
    (hlocks : 0 < cfg.lockNR) : cfg.mnNR = 1 ∨ cfg.lockNR = 1 := by
  by_cases hone : cfg.mnNR = 1
  · exact Or.inl hone
  by_cases hlock : cfg.lockNR = 1
  · exact Or.inr hlock
  have hnodes' : 2 ≤ cfg.mnNR := by omega
  have hlocks' : 2 ≤ cfg.lockNR := by omega
  have htotal : 2 * 2 ≤ cfg.lockNR * cfg.mnNR := Nat.mul_le_mul hlocks' hnodes'
  have hzero : 0 ∈ cfg.indices := show 0 < _ by omega
  have hfirst : 1 ∈ cfg.indices := show 1 < _ by omega
  exact absurd (h.bijection.injOn hzero hfirst (slot_zero_one hnodes' hlocks')) (by decide)

theorem bits_of_mapsLocks (h : cfg.MapsLocks cfg.mlocksDraw) (hlocks : cfg.lockNR = 1) :
    cfg.mnNR ≤ 2 ^ 16 := by
  refine Nat.le_of_not_lt fun hbits => ?_
  have htotal : cfg.lockNR * cfg.mnNR = cfg.mnNR := by rw [hlocks, Nat.one_mul]
  have hzero : 0 ∈ cfg.indices := show 0 < _ by omega
  have hlast : 2 ^ 16 ∈ cfg.indices := show 2 ^ 16 < _ by omega
  have hslot : (cfg.mlocksDraw 0).slot = (cfg.mlocksDraw (2 ^ 16)).slot := by
    unfold Config.mlocksDraw Config.lockAddr Draw.slot stored
    simp only [hlocks, Nat.div_one, Nat.div_eq_of_lt hbits, Nat.zero_div, Nat.mod_self,
      Nat.zero_mod]
  exact absurd (h.bijection.injOn hzero hlast hslot) (by decide)

end LockMap

/-- The indices name the locks one to one, and the pages do not overlap, exactly when there
is one memory node, or one lock for each of at most 2^16 nodes. -/
theorem lock_map_iff (cfg : Config) (hnodes : 0 < cfg.mnNR) (hlocks : 0 < cfg.lockNR)
    (hroom : pageSize ≤ cfg.chunkSize) (haddr : cfg.nodeBytes ≤ 2 ^ 48) :
    (cfg.MapsLocks cfg.emptyCsDraw ∧ cfg.MapsLocks cfg.mlocksDraw ∧
        cfg.MapsPages cfg.mlocksDraw) ↔
      cfg.mnNR = 1 ∨ (cfg.lockNR = 1 ∧ cfg.mnNR ≤ 2 ^ 16) := by
  constructor
  · intro h
    obtain ⟨-, hmaps, -⟩ := h
    rcases few_of_mapsLocks hmaps hnodes hlocks with hone | hone
    · exact Or.inl hone
    · exact Or.inr ⟨hone, bits_of_mapsLocks hmaps hone⟩
  · intro h
    rcases h with hone | ⟨hone, hbits⟩
    · have hmaps := mapsLocks_of_one_node hone hroom haddr
      exact ⟨mapsLocks_emptyCs.mpr hmaps, hmaps, mapsPages_of_one_node hone hroom haddr⟩
    · have hmaps := mapsLocks_of_one_lock hone hbits
      exact ⟨mapsLocks_emptyCs.mpr hmaps, hmaps, mapsPages_of_one_lock hone hbits hroom⟩

/-- A run of the benchmark with `mnNR` nodes of 4 GB and `lockNR` locks for each. -/
def benchRun (mnNR lockNR : Nat) : Config where
  mnNR := mnNR
  lockNR := lockNR
  dsmSize := 4
  maxHandover := 16
  handover := false
  handoverData := false
  batched := false
  workers := ∅

theorem lock_map_one_node :
    (benchRun 1 512).MapsLocks (benchRun 1 512).emptyCsDraw ∧
    (benchRun 1 512).MapsLocks (benchRun 1 512).mlocksDraw ∧
    (benchRun 1 512).MapsPages (benchRun 1 512).mlocksDraw :=
  (lock_map_iff (benchRun 1 512) (by decide) (by decide) (by decide) (by decide)).mpr (Or.inl rfl)

/-- Two nodes with 512 locks each: the indices 0 and 1 both get the first lock of node 0. -/
theorem lock_map_collides :
    pageSize ≤ (benchRun 2 512).chunkSize ∧ 0 ∈ (benchRun 2 512).indices ∧
    1 ∈ (benchRun 2 512).indices ∧
    ((benchRun 2 512).mlocksDraw 0).slot = ((benchRun 2 512).mlocksDraw 1).slot ∧
    ¬ (benchRun 2 512).MapsLocks (benchRun 2 512).mlocksDraw := by
  have hzero : 0 ∈ (benchRun 2 512).indices := show 0 < 512 * 2 by decide
  have hfirst : 1 ∈ (benchRun 2 512).indices := show 1 < 512 * 2 by decide
  have hslot : ((benchRun 2 512).mlocksDraw 0).slot = ((benchRun 2 512).mlocksDraw 1).slot := by
    decide
  refine ⟨by decide, hzero, hfirst, hslot, fun hmaps => ?_⟩
  exact absurd (hmaps.bijection.injOn hzero hfirst hslot) (by decide)

end Dal.Bench
