/-
The ring of page buffers of one thread, `include/RdmaBuffer.h`, and how long a page that
was handed over in one of its buffers stays there.

With `HANDOVER_DATA` a thread that hands its lock over leaves the page in its own ring,
and goes on to other operations while the receiver has not copied it yet.  A ring has 128
page buffers.  `get_page_buffer` draws them in turn, so one comes up again at the 128th
draw; `get_range_buffer` is the first of them whatever the cursor says, and
`range_query` fills up to 32 from there; and `get_bufs` of the benchmark draws from a
copy of the `RdmaBuffer`, so the cursor stays and it is the same buffer every time.

`Spares` is what follows for the operations of the releaser: what they may draw and fetch
before the receiver is done.  Contents are of any type; nothing looks into them.
-/
import Mathlib.Data.Nat.Notation
import Mathlib.Logic.Function.Basic
import Mathlib.Data.Nat.Basic

namespace Dal

/-- `kPageBufferCnt`. -/
def kPageBufferCnt : Nat := 128

/-- `kParaFetch`. -/
def kParaFetch : Nat := 32

/-- The cursor and the page buffers of an `RdmaBuffer`. -/
structure RdmaBuffer (α : Type*) where
  pageBufferCur : Nat
  pageBuffer : Nat → α

namespace RdmaBuffer

variable {α β : Type*}

/-- `get_page_buffer`: the ring with its cursor moved, which is at the buffer drawn. -/
def getPageBuffer (b : RdmaBuffer α) : RdmaBuffer α :=
  { b with pageBufferCur := (b.pageBufferCur + 1) % kPageBufferCnt }

/-- Something is read, copied or built in a buffer. -/
def fill (b : RdmaBuffer α) (i : Nat) (x : α) : RdmaBuffer α :=
  { b with pageBuffer := Function.update b.pageBuffer i x }

/-- The loop of `range_query` over the leaves from `i` on, in the buffers from
`get_range_buffer` on. -/
def fetch (b : RdmaBuffer α) (i : Nat) : List α → RdmaBuffer α
  | [] => b
  | x :: xs => (b.fill (i % kParaFetch) x).fetch (i + 1) xs

/-- What one function of the tree does to the ring. -/
inductive Use (α : Type*)
  /-- A buffer is drawn, and used unless it is `none`. -/
  | page (x : Option α)
  | range (leaves : List α)
  /-- The buffer that is drawn from a copy. -/
  | bench (x : α)

/-- It puts nothing but `y` into the buffers. -/
def Use.Only (y : α) : Use α → Prop
  | .page x => ∀ z, x = some z → z = y
  | .range leaves => ∀ x ∈ leaves, x = y
  | .bench x => x = y

def use (b : RdmaBuffer α) : Use α → RdmaBuffer α
  | .page none => b.getPageBuffer
  | .page (some x) => b.getPageBuffer.fill b.getPageBuffer.pageBufferCur x
  | .range leaves => b.fetch 0 leaves
  | .bench x => b.fill b.getPageBuffer.pageBufferCur x

def run (b : RdmaBuffer α) (us : List (Use α)) : RdmaBuffer α := us.foldl use b

/-- An operation, with what it puts into the buffers. -/
inductive Operation (α : Type*)
  /-- A buffer for the root pointer if it is not known, and one for each `page_search`. -/
  | search (pages : List α)
  /-- `insert` and `del`: also one for each page that is locked, one for each new root, and one
  more where the page handed over is not the one wanted; the one before that is used only if
  the page has to be written. -/
  | insert (pages : List (Option α))
  | rangeQuery (leaves : List α)
  | mbLock (page : α)

def Operation.uses : Operation α → List (Use α)
  | .search pages => pages.map fun x => .page (some x)
  | .insert pages => pages.map .page
  | .rangeQuery leaves => [.range leaves]
  | .mbLock x => [.bench x]

/-! ### What spares a buffer -/

/-- After how many draws buffer `i` comes up. -/
def distance (b : RdmaBuffer α) (i : Nat) : Nat :=
  (i + (kPageBufferCnt - 1) - b.pageBufferCur) % kPageBufferCnt + 1

/-- Nothing is put into buffer `i`, which comes up after `d` draws: no buffer is used when it
comes up, it is not what the benchmark draws, and no range query fetches more than `i` leaves
if `i` is below 32. -/
def Spares (i : Nat) : Nat → List (Use α) → Prop
  | _, [] => True
  | d, .page x :: us =>
      (x.isSome = true → d ≠ 1) ∧ Spares i (if d = 1 then kPageBufferCnt else d - 1) us
  | d, .range leaves :: us => min leaves.length kParaFetch ≤ i ∧ Spares i d us
  | d, .bench _ :: us => d ≠ 1 ∧ Spares i d us

/-! ### One use -/

section

variable {b : RdmaBuffer α} {i : Nat}

theorem fill_other {j : Nat} (h : j ≠ i) (x : α) : (b.fill j x).pageBuffer i = b.pageBuffer i :=
  Function.update_of_ne h.symm _ b.pageBuffer

theorem fill_self (x : α) : (b.fill i x).pageBuffer i = x := Function.update_self i _ b.pageBuffer

theorem getPageBuffer_lt : b.getPageBuffer.pageBufferCur < kPageBufferCnt :=
  Nat.mod_lt _ (by decide)

/-- The buffer drawn next is the one that comes up after one draw. -/
theorem drawn_iff (hcur : b.pageBufferCur < kPageBufferCnt) (hi : i < kPageBufferCnt) :
    b.getPageBuffer.pageBufferCur = i ↔ b.distance i = 1 := by
  simp only [getPageBuffer, distance, kPageBufferCnt] at *
  omega

theorem distance_getPageBuffer (hcur : b.pageBufferCur < kPageBufferCnt)
    (hi : i < kPageBufferCnt) : b.getPageBuffer.distance i =
      if b.distance i = 1 then kPageBufferCnt else b.distance i - 1 := by
  by_cases hone : b.distance i = 1
  · rw [if_pos hone]
    simp only [getPageBuffer, distance, kPageBufferCnt] at *
    omega
  · rw [if_neg hone]
    simp only [getPageBuffer, distance, kPageBufferCnt] at *
    omega

theorem fetch_pageBufferCur : ∀ (leaves : List α) (b : RdmaBuffer α) (j : Nat),
    (b.fetch j leaves).pageBufferCur = b.pageBufferCur := by
  intro leaves
  induction leaves with
  | nil => intro b j; rfl
  | cons x leaves ih => intro b j; exact ih _ _

/-- A range query leaves alone what it does not get to. -/
theorem fetch_other : ∀ (leaves : List α) (b : RdmaBuffer α) (j : Nat),
    min (j + leaves.length) kParaFetch ≤ i → (b.fetch j leaves).pageBuffer i = b.pageBuffer i := by
  intro leaves
  induction leaves with
  | nil => intro b j _; rfl
  | cons x leaves ih =>
      intro b j h
      rw [List.length_cons] at h
      have hrest : min (j + 1 + leaves.length) kParaFetch ≤ i := by omega
      have hne : j % kParaFetch ≠ i := by
        simp only [kParaFetch] at *
        omega
      exact (ih (b.fill (j % kParaFetch) x) (j + 1) hrest).trans (fill_other hne x)

/-- Once a buffer holds `y` a range query that fetches nothing else keeps it there. -/
theorem fetch_keep {y : α} : ∀ (leaves : List α) (b : RdmaBuffer α) (j : Nat),
    (∀ x ∈ leaves, x = y) → b.pageBuffer i = y → (b.fetch j leaves).pageBuffer i = y := by
  intro leaves
  induction leaves with
  | nil => intro b j _ hy; exact hy
  | cons x leaves ih =>
      intro b j hall hy
      refine ih _ _ (fun z hz => hall z (List.mem_cons_of_mem _ hz)) ?_
      by_cases hji : j % kParaFetch = i
      · subst hji
        rw [fill_self]
        exact hall x (List.mem_cons_self ..)
      · rw [fill_other hji, hy]

/-- It overwrites what it gets to. -/
theorem fetch_self {y : α} : ∀ (leaves : List α) (b : RdmaBuffer α) (j : Nat),
    (∀ x ∈ leaves, x = y) → j ≤ i → i < min (j + leaves.length) kParaFetch →
    (b.fetch j leaves).pageBuffer i = y := by
  intro leaves
  induction leaves with
  | nil =>
      intro b j _ hj h
      rw [List.length_nil] at h
      omega
  | cons x leaves ih =>
      intro b j hall hj h
      have hrest : ∀ z ∈ leaves, z = y := fun z hz => hall z (List.mem_cons_of_mem _ hz)
      rw [List.length_cons] at h
      by_cases hji : j = i
      · subst hji
        refine fetch_keep leaves _ _ hrest ?_
        rw [Nat.mod_eq_of_lt (Nat.lt_of_lt_of_le h (Nat.min_le_right ..)), fill_self]
        exact hall x (List.mem_cons_self ..)
      · exact ih _ _ hrest (by omega) (by omega)

end

/-! ### Any number of uses -/

section

variable {i : Nat}

/-- What is spared stays. -/
theorem run_spared (hi : i < kPageBufferCnt) : ∀ (us : List (Use α)) (b : RdmaBuffer α),
    b.pageBufferCur < kPageBufferCnt → Spares i (b.distance i) us →
    (b.run us).pageBuffer i = b.pageBuffer i := by
  intro us
  induction us with
  | nil => intro b _ _; rfl
  | cons u us ih =>
      intro b hcur hspares
      show ((b.use u).run us).pageBuffer i = b.pageBuffer i
      cases u with
      | page x =>
          obtain ⟨hunused, hrest⟩ := hspares
          rw [← distance_getPageBuffer hcur hi] at hrest
          cases x with
          | none => exact ih b.getPageBuffer getPageBuffer_lt hrest
          | some x =>
              have hne : b.getPageBuffer.pageBufferCur ≠ i :=
                fun heq => hunused rfl ((drawn_iff hcur hi).mp heq)
              exact (ih (b.getPageBuffer.fill _ x) getPageBuffer_lt hrest).trans (fill_other hne x)
      | range leaves =>
          obtain ⟨hfew, hrest⟩ := hspares
          have hcur' : (b.fetch 0 leaves).pageBufferCur = b.pageBufferCur :=
            fetch_pageBufferCur leaves b 0
          have hdistance : (b.fetch 0 leaves).distance i = b.distance i := by
            rw [distance, hcur', distance]
          have hkeep : (b.fetch 0 leaves).pageBuffer i = b.pageBuffer i :=
            fetch_other leaves b 0 (by rwa [Nat.zero_add])
          exact (ih (b.fetch 0 leaves) (hcur' ▸ hcur) (hdistance ▸ hrest)).trans hkeep
      | bench x =>
          obtain ⟨hnext, hrest⟩ := hspares
          have hne : b.getPageBuffer.pageBufferCur ≠ i :=
            fun heq => hnext ((drawn_iff hcur hi).mp heq)
          exact (ih (b.fill _ x) hcur hrest).trans (fill_other hne x)

/-- Once the buffer holds `y`, uses that put nothing else anywhere keep it there. -/
theorem use_keep {y : α} {u : Use α} (hu : u.Only y) {b : RdmaBuffer α}
    (hy : b.pageBuffer i = y) : (b.use u).pageBuffer i = y := by
  have hfill : ∀ (b : RdmaBuffer α) j, b.pageBuffer i = y → (b.fill j y).pageBuffer i = y := by
    intro b j hb
    by_cases hji : j = i
    · rw [hji, fill_self]
    · rw [fill_other hji, hb]
  cases u with
  | page x =>
      cases x with
      | none => exact hy
      | some x =>
          obtain rfl := hu x rfl
          exact hfill b.getPageBuffer _ hy
  | range leaves => exact fetch_keep leaves b 0 hu hy
  | bench x =>
      obtain rfl : x = y := hu
      exact hfill b _ hy

theorem run_keep {y : α} : ∀ (us : List (Use α)) (b : RdmaBuffer α), (∀ u ∈ us, u.Only y) →
    b.pageBuffer i = y → (b.run us).pageBuffer i = y := by
  intro us
  induction us with
  | nil => intro b _ hy; exact hy
  | cons u us ih =>
      intro b hall hy
      exact ih (b.use u) (fun v hv => hall v (List.mem_cons_of_mem _ hv))
        (use_keep (hall u (List.mem_cons_self ..)) hy)

/-- What is not spared is overwritten. -/
theorem run_overwritten {y : α} (hi : i < kPageBufferCnt) : ∀ (us : List (Use α))
    (b : RdmaBuffer α), b.pageBufferCur < kPageBufferCnt → (∀ u ∈ us, u.Only y) →
    ¬ Spares i (b.distance i) us → (b.run us).pageBuffer i = y := by
  intro us
  induction us with
  | nil => intro b _ _ hnot; exact absurd trivial hnot
  | cons u us ih =>
      intro b hcur hall hnot
      have hfirst := hall u (List.mem_cons_self ..)
      have hrest : ∀ v ∈ us, v.Only y := fun v hv => hall v (List.mem_cons_of_mem _ hv)
      show ((b.use u).run us).pageBuffer i = y
      cases u with
      | page x =>
          rw [Spares, ← distance_getPageBuffer hcur hi] at hnot
          cases x with
          | none => exact ih b.getPageBuffer getPageBuffer_lt hrest fun h => hnot ⟨nofun, h⟩
          | some x =>
              obtain rfl := hfirst x rfl
              by_cases hdrawn : b.getPageBuffer.pageBufferCur = i
              · refine run_keep us _ hrest ?_
                show (b.getPageBuffer.fill b.getPageBuffer.pageBufferCur x).pageBuffer i = x
                rw [hdrawn, fill_self]
              · refine ih (b.getPageBuffer.fill _ x) getPageBuffer_lt hrest fun h => hnot ⟨?_, h⟩
                exact fun _ hone => hdrawn ((drawn_iff hcur hi).mpr hone)
      | range leaves =>
          by_cases hfew : min leaves.length kParaFetch ≤ i
          · have hcur' : (b.fetch 0 leaves).pageBufferCur = b.pageBufferCur :=
              fetch_pageBufferCur leaves b 0
            have hdistance : (b.fetch 0 leaves).distance i = b.distance i := by
              rw [distance, hcur', distance]
            refine ih (b.fetch 0 leaves) (hcur' ▸ hcur) hrest fun h => hnot ⟨hfew, ?_⟩
            exact hdistance ▸ h
          · refine run_keep us _ hrest (fetch_self leaves b 0 hfirst (Nat.zero_le i) ?_)
            rw [Nat.zero_add]
            exact Nat.lt_of_not_le hfew
      | bench x =>
          obtain rfl : x = y := hfirst
          by_cases hdrawn : b.getPageBuffer.pageBufferCur = i
          · refine run_keep us _ hrest ?_
            show (b.fill b.getPageBuffer.pageBufferCur x).pageBuffer i = x
            rw [hdrawn, fill_self]
          · refine ih (b.fill _ x) hcur hrest fun h => hnot ⟨?_, h⟩
            exact fun hone => hdrawn ((drawn_iff hcur hi).mpr hone)

end

/-! ### The operations of the releaser -/

def Use.map (f : α → β) : Use α → Use β
  | .page x => .page (x.map f)
  | .range leaves => .range (leaves.map f)
  | .bench x => .bench (f x)

def Operation.map (f : α → β) : Operation α → Operation β
  | .search pages => .search (pages.map f)
  | .insert pages => .insert (pages.map (Option.map f))
  | .rangeQuery leaves => .rangeQuery (leaves.map f)
  | .mbLock x => .mbLock (f x)

/-- The operation without what it puts into the buffers. -/
def Operation.shape (op : Operation α) : Operation Unit := op.map fun _ => ()

theorem Operation.uses_map (f : α → β) (op : Operation α) :
    (op.map f).uses = op.uses.map (Use.map f) := by
  cases op with
  | search pages => simp [Operation.map, Operation.uses, Use.map]
  | insert pages => simp [Operation.map, Operation.uses, Use.map]
  | rangeQuery leaves => rfl
  | mbLock x => rfl

/-- What is spared does not depend on the contents. -/
theorem spares_map (f : α → β) (i : Nat) : ∀ (us : List (Use α)) (d : Nat),
    Spares i d (us.map (Use.map f)) ↔ Spares i d us := by
  intro us
  induction us with
  | nil => intro d; rfl
  | cons u us ih =>
      intro d
      cases u with
      | page x =>
          show (_ ∧ _) ↔ (_ ∧ _)
          rw [Option.isSome_map, ih]
      | range leaves =>
          show (_ ∧ _) ↔ (_ ∧ _)
          rw [List.length_map, ih]
      | bench x =>
          show (_ ∧ _) ↔ (_ ∧ _)
          rw [ih]

theorem spares_shape (i d : Nat) (ops : List (Operation α)) :
    Spares i d (ops.flatMap Operation.uses) ↔
      Spares i d ((ops.map Operation.shape).flatMap Operation.uses) := by
  rw [← spares_map (fun _ => ()), List.map_flatMap, List.flatMap_map]
  simp only [Operation.shape, Operation.uses_map]

theorem Use.only_map (y : α) (u : Use β) : (u.map fun _ => y).Only y := by
  cases u with
  | page x =>
      intro z hz
      obtain ⟨w, -, hw⟩ := Option.map_eq_some_iff.mp hz
      exact hw.symm
  | range leaves =>
      intro z hz
      obtain ⟨w, -, hw⟩ := List.mem_map.mp hz
      exact hw.symm
  | bench x => rfl

/-- The operations, with `y` in all the buffers they use. -/
theorem only_refill (y : α) (ops : List (Operation β)) :
    ∀ u ∈ (ops.map (Operation.map fun _ => y)).flatMap Operation.uses, u.Only y := by
  intro u hu
  obtain ⟨op, hop, hu⟩ := List.mem_flatMap.mp hu
  obtain ⟨op', -, rfl⟩ := List.mem_map.mp hop
  rw [Operation.uses_map] at hu
  obtain ⟨v, -, rfl⟩ := List.mem_map.mp hu
  exact Use.only_map y v

theorem shape_refill (y : α) (ops : List (Operation β)) :
    (ops.map (Operation.map fun _ => y)).map Operation.shape = ops.map Operation.shape := by
  rw [List.map_map]
  refine List.map_congr_left fun op _ => ?_
  cases op <;> simp [Operation.shape, Operation.map]

/--
**The receiver takes what the releaser left, whatever that one's operations put into its
buffers, exactly when they spare the buffer.**
-/
theorem handed_over_intact_iff [Nontrivial α] {b : RdmaBuffer α}
    (hcur : b.pageBufferCur < kPageBufferCnt) {i : Nat} (hi : i < kPageBufferCnt)
    (ops : List (Operation β)) :
    (∀ ops' : List (Operation α), ops'.map Operation.shape = ops.map Operation.shape →
      (b.run (ops'.flatMap Operation.uses)).pageBuffer i = b.pageBuffer i) ↔
      Spares i (b.distance i) (ops.flatMap Operation.uses) := by
  constructor
  · intro hintact
    by_contra hnot
    obtain ⟨y, hy⟩ := exists_ne (b.pageBuffer i)
    have hsame := shape_refill y ops
    rw [spares_shape, ← hsame, ← spares_shape] at hnot
    have hlost := run_overwritten hi _ b hcur (only_refill y ops) hnot
    exact hy (hlost.symm.trans (hintact _ hsame))
  · intro hspares ops' hsame
    rw [spares_shape, ← hsame, ← spares_shape] at hspares
    exact run_spared hi _ b hcur hspares

/-- Fewer draws than it takes for the buffer to come up, and nothing else. -/
theorem spares_of_draws {i : Nat} : ∀ (xs : List (Option α)) (d : Nat), xs.length < d →
    Spares i d (xs.map .page) := by
  intro xs
  induction xs with
  | nil => intro d _; trivial
  | cons x xs ih =>
      intro d h
      rw [List.length_cons] at h
      refine ⟨fun _ => by omega, ?_⟩
      rw [if_neg (by omega)]
      exact ih (d - 1) (by omega)

/-! ### A ring that starts over -/

/-- The ring after one draw, which the page handed over is in. -/
def ring : RdmaBuffer Nat := ⟨1, fun _ => 0⟩

/-- Three searches that read five pages each. -/
theorem handed_over_intact_search :
    (ring.run (([[11, 12, 13, 14, 15], [21, 22, 23, 24, 25], [31, 32, 33, 34, 35]].map
      Operation.search).flatMap Operation.uses)).pageBuffer 1 = ring.pageBuffer 1 := by
  refine (handed_over_intact_iff (b := ring) (by decide) (by decide) _).mpr ?_ _ rfl
  exact spares_of_draws [some 11, some 12, some 13, some 14, some 15, some 21, some 22, some 23,
    some 24, some 25, some 31, some 32, some 33, some 34, some 35] 128 (by decide)

/-- A range query over two leaves. -/
theorem handed_over_lost : ∃ (b : RdmaBuffer Nat) (i : Nat) (ops : List (Operation Nat)),
    b.pageBufferCur < kPageBufferCnt ∧ i = b.pageBufferCur ∧
      (b.run (ops.flatMap Operation.uses)).pageBuffer i ≠ b.pageBuffer i :=
  ⟨ring, 1, [.rangeQuery [41, 42]], by decide, rfl, by decide⟩

end RdmaBuffer

end Dal
