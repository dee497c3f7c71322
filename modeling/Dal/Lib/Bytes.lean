/-
Words of 64 bits as the bytes they are in memory, lowest first.

`byte` takes a word apart and `word` puts eight bytes together.  The two are inverse to
each other on words below `2 ^ 64`, and a word determines its bytes, which is what a
reader that sees some bytes of one word and some of another needs.
-/
import Mathlib.Data.Nat.Digits.Defs

namespace Dal.Bytes

/-- Byte `j` of a word in memory, lowest first. -/
def byte (x j : Nat) : Nat := x / 256 ^ j % 256

/-- The word that eight bytes make. -/
def word (b : Nat → Nat) : Nat := Nat.ofDigits 256 ((List.range 8).map b)

theorem word_eq (b : Nat → Nat) : word b = b 0 + 256 * (b 1 + 256 * (b 2 + 256 * (b 3 +
    256 * (b 4 + 256 * (b 5 + 256 * (b 6 + 256 * b 7)))))) := by
  simp [word, List.range_succ, Nat.ofDigits_cons]

theorem byte_lt (x j : Nat) : byte x j < 256 := Nat.mod_lt _ (by decide)

theorem word_byte {x : Nat} (hx : x < 2 ^ 64) : word (byte x) = x := by
  rw [word_eq]
  simp only [byte]
  omega

theorem word_congr {b b' : Nat → Nat} (h : ∀ j < 8, b j = b' j) : word b = word b' := by
  unfold word
  rw [List.map_congr_left fun j hj => h j (List.mem_range.mp hj)]

/-- A word determines its bytes. -/
theorem word_inj {b b' : Nat → Nat} (hb : ∀ j < 8, b j < 256) (hb' : ∀ j < 8, b' j < 256) :
    word b = word b' ↔ ∀ j < 8, b j = b' j := by
  refine ⟨fun h j hj => ?_, word_congr⟩
  have hlist := Nat.ofDigits_inj_of_len_eq (by decide) (by simp) (by simpa using hb)
    (by simpa using hb') h
  exact List.map_inj_left.mp hlist j (List.mem_range.mpr hj)

end Dal.Bytes
