/-
Where the buffers of `include/RdmaBuffer.h` lie: what `set_buffer` computes from the page
size and what the `get_` functions hand out, as offsets into the memory of a coroutine.

A coroutine has `kPerCoroRdmaBuf` bytes, and the memory of the next one follows.  The
assertion of `set_buffer` looks at the first three fields only, which never change, so it
lets every page size pass; what has to fit are the two rings of pages behind them and the
entry buffer at the end.  `separate_iff` says for which page sizes it does.

Sizes are computed in `int`, as the source does.  Nothing in the repository draws an entry
buffer, so how long one is stays a parameter.
-/
import Dal.Dsm.RdmaBuffer
import Mathlib.Algebra.Ring.Int.Defs
import Mathlib.Algebra.Ring.Nat

namespace Dal.RdmaLayout

/-- `kSiblingBufferCnt`. -/
def kSiblingBufferCnt : Nat := 128

/-- `kCasBufferCnt`. -/
def kCasBufferCnt : Nat := 32

def kPerCoroRdmaBuf : Int := 128 * 1024

def kMaxCoro : Nat := 8

/-- `12 * define::MB`, the memory of one thread. -/
def threadBytes : Int := 12 * 2 ^ 20

/-- A result of `int` arithmetic. -/
def int32 (n : Int) : Int := n.bmod (2 ^ 32)

theorem int32_eq {n : Int} (h : -2 ^ 31 ≤ n) (h' : n < 2 ^ 31) : int32 n = n :=
  Int.bmod_eq_of_le (by omega) (by omega)

/-- The functions that hand a buffer out. -/
inductive Kind
  | cas
  | page
  | sibling
  | unlock
  | zero64bit
  | entry
  | range
  deriving DecidableEq, Repr

/-- The fields of an `RdmaBuffer`, the pointers as offsets from `buffer`. -/
structure Fields where
  casBuffer : Int
  unlockBuffer : Int
  zero64bit : Int
  pageBuffer : Int
  siblingBuffer : Int
  entryBuffer : Int
  kPageSize : Int
  deriving DecidableEq, Repr

/-- `set_buffer`; `none` when its assertion fails. -/
def setBuffer (pageSize : Int) : Option Fields :=
  let casBuffer := 0
  let unlockBuffer := casBuffer + 8 * (kCasBufferCnt : Int)
  let zero64bit := unlockBuffer + 8
  let pageBuffer := zero64bit + 8
  let siblingBuffer := pageBuffer + int32 (pageSize * kPageBufferCnt)
  let entryBuffer := siblingBuffer + int32 (pageSize * kSiblingBufferCnt)
  if zero64bit + 8 < kPerCoroRdmaBuf then
    some ⟨casBuffer, unlockBuffer, zero64bit, pageBuffer, siblingBuffer, entryBuffer, pageSize⟩
  else none

/-- The cursors of the three rings. -/
structure Cursors where
  pageBufferCur : Nat
  siblingBufferCur : Nat
  casBufferCur : Nat
  deriving DecidableEq, Repr

/-- A buffer that was handed out, and how many bytes of it are used. -/
structure Buffer where
  kind : Kind
  offset : Int
  size : Nat
  deriving DecidableEq, Repr

def Buffer.Apart (b b' : Buffer) : Prop :=
  b.offset + b.size ≤ b'.offset ∨ b'.offset + b'.size ≤ b.offset

section HandOut

variable (f : Fields) (entrySize : Nat)

/-- The `get_` functions. -/
def get (cur : Cursors) : Kind → Cursors × Buffer
  | .cas =>
      let i := (cur.casBufferCur + 1) % kCasBufferCnt
      ({ cur with casBufferCur := i }, ⟨.cas, f.casBuffer + 8 * i, 8⟩)
  | .page =>
      let i := (cur.pageBufferCur + 1) % kPageBufferCnt
      ({ cur with pageBufferCur := i },
        ⟨.page, f.pageBuffer + int32 (i * f.kPageSize), f.kPageSize.toNat⟩)
  | .sibling =>
      let i := (cur.siblingBufferCur + 1) % kSiblingBufferCnt
      ({ cur with siblingBufferCur := i },
        ⟨.sibling, f.siblingBuffer + int32 (i * f.kPageSize), f.kPageSize.toNat⟩)
  | .unlock => (cur, ⟨.unlock, f.unlockBuffer, 8⟩)
  | .zero64bit => (cur, ⟨.zero64bit, f.zero64bit, 8⟩)
  | .entry => (cur, ⟨.entry, f.entryBuffer, entrySize⟩)
  | .range => (cur, ⟨.range, f.pageBuffer, kParaFetch * f.kPageSize.toNat⟩)

/-- What a sequence of calls hands out. -/
def handOut (cur : Cursors) : List Kind → List Buffer
  | [] => []
  | kind :: kinds => (get f entrySize cur kind).2 :: handOut (get f entrySize cur kind).1 kinds

end HandOut

/-- Some sequence of calls hands the buffer out. -/
def Handed (pageSize : Int) (entrySize : Nat) (b : Buffer) : Prop :=
  ∃ f kinds, setBuffer pageSize = some f ∧ b ∈ handOut f entrySize ⟨0, 0, 0⟩ kinds

/-- Where a buffer of a coroutine is in the cache, by `registerThread`. -/
def address (threadId coroId : Nat) (b : Buffer) : Int :=
  threadId * threadBytes + coroId * kPerCoroRdmaBuf + b.offset

/-- The buffers of a coroutine are inside its memory and those of different kinds are apart,
but for the range buffer, which is in the ring of pages. -/
structure Separate (pageSize : Int) (entrySize : Nat) : Prop where
  inside : ∀ b, Handed pageSize entrySize b →
    0 ≤ b.offset ∧ b.offset + b.size ≤ kPerCoroRdmaBuf
  kinds : ∀ b b', Handed pageSize entrySize b → Handed pageSize entrySize b' →
    b.kind ≠ b'.kind → ¬ (b.kind = .range ∧ b'.kind = .page) →
    ¬ (b.kind = .page ∧ b'.kind = .range) → b.Apart b'
  area : ∀ i b, i < kMaxCoro → Handed pageSize entrySize b →
    0 ≤ i * kPerCoroRdmaBuf + b.offset ∧ i * kPerCoroRdmaBuf + b.offset + b.size ≤ threadBytes
  coroutines : ∀ t i t' i' b b', i < kMaxCoro → i' < kMaxCoro → (t, i) ≠ (t', i') →
    Handed pageSize entrySize b → Handed pageSize entrySize b' →
    address t i b + b.size ≤ address t' i' b' ∨ address t' i' b' + b'.size ≤ address t i b

/-! ### The slots of the rings -/

/-- How many different buffers there are of a kind. -/
def ring : Kind → Nat
  | .cas => kCasBufferCnt
  | .page => kPageBufferCnt
  | .sibling => kSiblingBufferCnt
  | _ => 1

def Cursors.pos (cur : Cursors) : Kind → Nat
  | .cas => cur.casBufferCur
  | .page => cur.pageBufferCur
  | .sibling => cur.siblingBufferCur
  | _ => 0

/-- Buffer `i` of a kind. -/
def slot (f : Fields) (entrySize : Nat) (kind : Kind) (i : Nat) : Buffer :=
  match kind with
  | .cas => ⟨.cas, f.casBuffer + 8 * i, 8⟩
  | .page => ⟨.page, f.pageBuffer + int32 (i * f.kPageSize), f.kPageSize.toNat⟩
  | .sibling => ⟨.sibling, f.siblingBuffer + int32 (i * f.kPageSize), f.kPageSize.toNat⟩
  | .unlock => ⟨.unlock, f.unlockBuffer, 8⟩
  | .zero64bit => ⟨.zero64bit, f.zero64bit, 8⟩
  | .entry => ⟨.entry, f.entryBuffer, entrySize⟩
  | .range => ⟨.range, f.pageBuffer, kParaFetch * f.kPageSize.toNat⟩

section Slots

variable {f : Fields} {entrySize : Nat} {cur : Cursors} {kind : Kind} {b : Buffer}

theorem ring_pos (kind : Kind) : 0 < ring kind := by
  cases kind <;> decide

/-- A call moves the cursor of its kind by one and hands out the slot it is at. -/
theorem get_slot : (get f entrySize cur kind).2 =
    slot f entrySize kind ((cur.pos kind + 1) % ring kind) := by
  cases kind <;> rfl

theorem get_pos : (get f entrySize cur kind).1.pos kind = (cur.pos kind + 1) % ring kind := by
  cases kind with
  | cas | page | sibling => rfl
  | unlock | zero64bit | entry | range => exact (Nat.mod_one _).symm

theorem slot_kind (i : Nat) : (slot f entrySize kind i).kind = kind := by
  cases kind <;> rfl

theorem slot_of_handOut (kinds : List Kind) : ∀ cur, b ∈ handOut f entrySize cur kinds →
    ∃ i < ring b.kind, b = slot f entrySize b.kind i := by
  induction kinds with
  | nil =>
      intro cur hb
      cases hb
  | cons kind kinds ih =>
      intro cur hb
      rcases List.mem_cons.mp hb with heq | hb
      · rw [get_slot] at heq
        have hkind : b.kind = kind := by rw [heq, slot_kind]
        rw [hkind]
        exact ⟨_, Nat.mod_lt _ (ring_pos kind), heq⟩
      · exact ih _ hb

/-- The `n`-th further call for a kind gets the slot `n` places on. -/
theorem handOut_replicate (n : Nat) : ∀ cur : Cursors,
    slot f entrySize kind ((cur.pos kind + n + 1) % ring kind) ∈
      handOut f entrySize cur (List.replicate (n + 1) kind) := by
  induction n with
  | zero =>
      intro cur
      refine List.mem_cons.mpr (Or.inl ?_)
      rw [get_slot, Nat.add_zero]
  | succ n ih =>
      intro cur
      refine List.mem_cons.mpr (Or.inr ?_)
      have hnext := ih (get f entrySize cur kind).1
      rw [get_pos, Nat.add_assoc, Nat.mod_add_mod] at hnext
      rw [show cur.pos kind + (n + 1) + 1 = cur.pos kind + 1 + (n + 1) by omega]
      exact hnext

end Slots

section Handed

variable {pageSize : Int} {entrySize : Nat} {b : Buffer}

/-- The fields that `set_buffer` computes. -/
def fields (pageSize : Int) : Fields where
  casBuffer := 0
  unlockBuffer := 256
  zero64bit := 264
  pageBuffer := 272
  siblingBuffer := 272 + int32 (pageSize * 128)
  entryBuffer := 272 + int32 (pageSize * 128) + int32 (pageSize * 128)
  kPageSize := pageSize

/-- The assertion of `set_buffer` holds for every page size. -/
theorem setBuffer_eq (pageSize : Int) : setBuffer pageSize = some (fields pageSize) := rfl

/-- The buffers that can be handed out are the slots. -/
theorem handed_iff : Handed pageSize entrySize b ↔
    ∃ kind, ∃ i < ring kind, b = slot (fields pageSize) entrySize kind i := by
  constructor
  · intro hb
    obtain ⟨f, kinds, hf, hb⟩ := hb
    rw [setBuffer_eq] at hf
    rw [← Option.some.inj hf] at hb
    exact ⟨b.kind, slot_of_handOut kinds _ hb⟩
  · intro hb
    obtain ⟨kind, i, hi, heq⟩ := hb
    have hstart : Cursors.pos ⟨0, 0, 0⟩ kind = 0 := by cases kind <;> rfl
    have hpos := ring_pos kind
    obtain ⟨n, hn⟩ : ∃ n, (Cursors.pos ⟨0, 0, 0⟩ kind + n + 1) % ring kind = i := by
      refine ⟨i + ring kind - 1, ?_⟩
      rw [hstart, show 0 + (i + ring kind - 1) + 1 = i + ring kind by omega, Nat.add_mod_right,
        Nat.mod_eq_of_lt hi]
    have hmem : slot (fields pageSize) entrySize kind ((Cursors.pos ⟨0, 0, 0⟩ kind + n + 1) %
        ring kind) ∈ handOut (fields pageSize) entrySize ⟨0, 0, 0⟩ (List.replicate (n + 1) kind) :=
      handOut_replicate n _
    rw [hn, ← heq] at hmem
    exact ⟨_, _, setBuffer_eq pageSize, hmem⟩

theorem handed_slot (kind : Kind) {i : Nat} (hi : i < ring kind) :
    Handed pageSize entrySize (slot (fields pageSize) entrySize kind i) :=
  handed_iff.mpr ⟨kind, i, hi, rfl⟩

/-! ### When it fits -/

/-- Where the buffers of a kind start, when nothing overflows. -/
def start (pageSize : Int) : Kind → Int
  | .cas => 0
  | .unlock => 256
  | .zero64bit => 264
  | .page | .range => 272
  | .sibling => 272 + 128 * pageSize
  | .entry => 272 + 256 * pageSize

/-- Where they end. -/
def stop (pageSize : Int) (entrySize : Nat) : Kind → Int
  | .cas => 256
  | .unlock => 264
  | .zero64bit => 272
  | .page | .range => 272 + 128 * pageSize
  | .sibling => 272 + 256 * pageSize
  | .entry => 272 + 256 * pageSize + entrySize

/-- A page of a ring that starts at `o`. -/
theorem page_within {o : Int} {i : Nat} (hi : i < 128) (hpos : 0 ≤ pageSize)
    (hfit : 256 * pageSize ≤ kPerCoroRdmaBuf) :
    o ≤ o + int32 (i * pageSize) ∧
      o + int32 (i * pageSize) + pageSize.toNat ≤ o + 128 * pageSize := by
  have hnonneg : 0 ≤ (i : Int) * pageSize := Int.mul_nonneg (Int.natCast_nonneg i) hpos
  have hlast : ((i : Int) + 1) * pageSize ≤ 128 * pageSize :=
    Int.mul_le_mul_of_nonneg_right (by omega) hpos
  rw [Int.add_mul, Int.one_mul] at hlast
  unfold kPerCoroRdmaBuf at hfit
  rw [int32_eq (by omega) (by omega), Int.toNat_of_nonneg hpos]
  omega

theorem handed_within (hpos : 0 ≤ pageSize)
    (hfit : 272 + 256 * pageSize + entrySize ≤ kPerCoroRdmaBuf) (hb : Handed pageSize entrySize b) :
    start pageSize b.kind ≤ b.offset ∧ b.offset + b.size ≤ stop pageSize entrySize b.kind := by
  have hfit' : 256 * pageSize ≤ kPerCoroRdmaBuf := by omega
  have hring : int32 (pageSize * 128) = pageSize * 128 := by
    unfold kPerCoroRdmaBuf at hfit'
    exact int32_eq (by omega) (by omega)
  obtain ⟨kind, i, hi, heq⟩ := handed_iff.mp hb
  rw [heq, slot_kind]
  cases kind with
  | cas =>
      have hi : i < 32 := hi
      show (0 : Int) ≤ 0 + 8 * i ∧ (0 : Int) + 8 * i + 8 ≤ 256
      omega
  | page => exact page_within hi hpos hfit'
  | sibling =>
      have hpage := page_within (o := 272 + int32 (pageSize * 128)) hi hpos hfit'
      rw [hring] at hpage
      show 272 + 128 * pageSize ≤ 272 + int32 (pageSize * 128) + int32 (i * pageSize) ∧
        272 + int32 (pageSize * 128) + int32 (i * pageSize) + pageSize.toNat ≤ 272 + 256 * pageSize
      rw [hring]
      omega
  | unlock | zero64bit => exact ⟨Int.le_refl _, Int.le_refl _⟩
  | entry =>
      show 272 + 256 * pageSize ≤ 272 + int32 (pageSize * 128) + int32 (pageSize * 128) ∧
        272 + int32 (pageSize * 128) + int32 (pageSize * 128) + entrySize ≤
          272 + 256 * pageSize + entrySize
      rw [hring]
      omega
  | range =>
      have hsize : ((kParaFetch * pageSize.toNat : Nat) : Int) = 32 * pageSize := by
        rw [Int.natCast_mul, Int.toNat_of_nonneg hpos]
        rfl
      show (272 : Int) ≤ 272 ∧ 272 + ((kParaFetch * pageSize.toNat : Nat) : Int) ≤ 272 + 128 * pageSize
      rw [hsize]
      omega

theorem separate_of_fits (hpos : 0 ≤ pageSize)
    (hfit : 272 + 256 * pageSize + entrySize ≤ kPerCoroRdmaBuf) : Separate pageSize entrySize := by
  have hinside : ∀ b, Handed pageSize entrySize b →
      0 ≤ b.offset ∧ b.offset + b.size ≤ kPerCoroRdmaBuf := by
    intro b hb
    have hwithin := handed_within hpos hfit hb
    generalize b.kind = kind at hwithin
    cases kind <;> simp only [start, stop] at hwithin <;> omega
  refine ⟨hinside, ?_, ?_, ?_⟩
  · intro b b' hb hb' hne hrange hrange'
    have hwithin := handed_within hpos hfit hb
    have hwithin' := handed_within hpos hfit hb'
    unfold Buffer.Apart
    generalize b.kind = kind at hwithin hne hrange hrange'
    generalize b'.kind = kind' at hwithin' hne hrange hrange'
    cases kind <;> cases kind' <;> simp only [start, stop] at hwithin hwithin' <;>
      first
        | omega
        | exact absurd rfl hne
        | exact absurd ⟨rfl, rfl⟩ hrange
        | exact absurd ⟨rfl, rfl⟩ hrange'
  · intro i b hi hb
    have hb := hinside b hb
    unfold kMaxCoro at hi
    unfold kPerCoroRdmaBuf threadBytes at *
    omega
  · intro t i t' i' b b' hi hi' hne hb hb'
    have hb := hinside b hb
    have hb' := hinside b' hb'
    have hne : t = t' → i ≠ i' := fun ht hi => hne (Prod.ext ht hi)
    unfold kMaxCoro at hi hi'
    unfold address kPerCoroRdmaBuf threadBytes at *
    omega

/-- No negative page size: pages would lie before the memory, or an entry on the words. -/
theorem Separate.nonneg (h : Separate pageSize entrySize) (hint : int32 pageSize = pageSize)
    (hentry : 0 < entrySize) : 0 ≤ pageSize := by
  refine Int.not_lt.mp fun hneg => ?_
  have hnext : 0 ≤ 272 + int32 ((1 : Nat) * pageSize) :=
    (h.inside _ (handed_slot .page (show 1 < 128 by decide))).1
  rw [Int.natCast_one, Int.one_mul, hint] at hnext
  have hlast : 0 ≤ 272 + int32 ((127 : Nat) * pageSize) :=
    (h.inside _ (handed_slot .page (show 127 < 128 by decide))).1
  have hsmall : int32 (pageSize * 128) = pageSize * 128 := int32_eq (by omega) (by omega)
  have hsmall' : int32 (((127 : Nat) : Int) * pageSize) = 127 * pageSize :=
    int32_eq (by omega) (by omega)
  have hend : 0 ≤ 272 + int32 (pageSize * 128) + int32 (pageSize * 128) :=
    (h.inside _ (handed_slot .entry (show 0 < 1 by decide))).1
  have hcas := h.kinds _ _ (handed_slot .entry (show 0 < 1 by decide))
    (handed_slot .cas (show 2 < 32 by decide)) (show Kind.entry ≠ .cas by decide)
    (show ¬ (Kind.entry = .range ∧ Kind.cas = .page) by decide)
    (show ¬ (Kind.entry = .page ∧ Kind.cas = .range) by decide)
  have hcas : 272 + int32 (pageSize * 128) + int32 (pageSize * 128) + entrySize ≤
      0 + 8 * ((2 : Nat) : Int) ∨
    0 + 8 * ((2 : Nat) : Int) + 8 ≤ 272 + int32 (pageSize * 128) + int32 (pageSize * 128) := hcas
  rw [hsmall'] at hlast
  rw [hsmall] at hend hcas
  omega

theorem Separate.fits (h : Separate pageSize entrySize) (hpos : 0 ≤ pageSize) :
    272 + 256 * pageSize + entrySize ≤ kPerCoroRdmaBuf := by
  have hpage : 272 + int32 ((0 : Nat) * pageSize) + pageSize.toNat ≤ kPerCoroRdmaBuf :=
    (h.inside _ (handed_slot .page (show 0 < 128 by decide))).2
  have hzero : int32 ((0 : Nat) * pageSize) = 0 := by
    rw [Int.natCast_zero, Int.zero_mul]
    rfl
  rw [hzero, Int.toNat_of_nonneg hpos] at hpage
  have hentry : 272 + int32 (pageSize * 128) + int32 (pageSize * 128) + entrySize ≤
      kPerCoroRdmaBuf := (h.inside _ (handed_slot .entry (show 0 < 1 by decide))).2
  unfold kPerCoroRdmaBuf at *
  rw [int32_eq (by omega) (by omega)] at hentry
  omega

end Handed

/-- The buffers are separate exactly when two rings of 128 pages and an entry fit behind the
272 bytes at the start, whatever the assertion of `set_buffer` says. -/
theorem separate_iff (pageSize : Int) (entrySize : Nat) (hint : int32 pageSize = pageSize)
    (hentry : 0 < entrySize) : Separate pageSize entrySize ↔
      0 ≤ pageSize ∧ 272 + 256 * pageSize + entrySize ≤ kPerCoroRdmaBuf := by
  constructor
  · intro h
    have hpos := h.nonneg hint hentry
    exact ⟨hpos, h.fits hpos⟩
  · intro h
    exact separate_of_fits h.1 h.2

/-- Pages of half a kilobyte less two bytes leave room for an entry of 18 bytes. -/
theorem separate_small_page : Separate 510 18 :=
  (separate_iff 510 18 (by decide) (by decide)).mpr (by decide)

/-- With the default of 1024 bytes the second ring ends 128 kilobytes too late: its first
buffer is at `0x20110`, in the memory of the next coroutine. -/
theorem not_separate_default : setBuffer 1024 = some (fields 1024) ∧
    Handed 1024 18 ⟨.sibling, 131344, 1024⟩ ∧ kPerCoroRdmaBuf < 131344 ∧ ¬ Separate 1024 18 := by
  have hslot : slot (fields 1024) 18 .sibling 0 = ⟨.sibling, 131344, 1024⟩ := by decide +kernel
  have hhanded : Handed 1024 18 ⟨.sibling, 131344, 1024⟩ :=
    hslot ▸ handed_slot .sibling (show 0 < 128 by decide)
  refine ⟨setBuffer_eq 1024, hhanded, by decide, fun h => ?_⟩
  exact absurd (h.inside _ hhanded).2 (by decide)

end Dal.RdmaLayout
