import Mathlib.Data.BitVec
import Mathlib.Data.List.Basic

/-!
# Integers in a buffer of bytes

A buffer is a function from the index to the byte. An `int` is four bytes of it, the
least significant first, in two's complement, and an array of them is one after the
other. What was written is read back, modulo `2 ^ 32`.
-/

namespace Midsm.Lib

/-- Byte `k` of a word. -/
def wordByte (w : BitVec 32) (k : Nat) : BitVec 8 := w.extractLsb' (8 * k) 8

def readWord (b : Nat → BitVec 8) (off : Nat) : BitVec 32 :=
  b (off + 3) ++ b (off + 2) ++ b (off + 1) ++ b off

def intByte (v : Int) (k : Nat) : BitVec 8 := wordByte (BitVec.ofInt 32 v) k

/-- The bytes of an array. -/
def intsBytes (f : Nat → Int) (k : Nat) : BitVec 8 := intByte (f (k / 4)) (k % 4)

def readInt (b : Nat → BitVec 8) (off : Nat) : Int := (readWord b off).toInt

/-- The values of an `int`. -/
def IsInt (v : Int) : Prop := -2 ^ 31 ≤ v ∧ v < 2 ^ 31

instance (v : Int) : Decidable (IsInt v) := inferInstanceAs (Decidable (_ ∧ _))

section

variable {b b' : Nat → BitVec 8} {off i c : Nat} {w : BitVec 32} {v : Int} {f : Nat → Int}

theorem wordByte_join (w : BitVec 32) :
    wordByte w 3 ++ wordByte w 2 ++ wordByte w 1 ++ wordByte w 0 = w := by
  apply BitVec.eq_of_getLsbD_eq
  intro i hi
  simp only [wordByte, BitVec.getLsbD_append, BitVec.getLsbD_extractLsb']
  split_ifs with h0 h1 h2
  · simp [h0]
  · rw [show 8 * 1 + (i - 8) = i by omega]
    simp [show i - 8 < 8 by omega]
  · rw [show 8 * 2 + (i - 8 - 8) = i by omega]
    simp [h2]
  · rw [show 8 * 3 + (i - 8 - 8 - 8) = i by omega]
    simp [show i - 8 - 8 - 8 < 8 by omega]

theorem readWord_congr (h : ∀ k < 4, b (off + k) = b' (off + k)) :
    readWord b off = readWord b' off := by
  have h0 := h 0 (by decide)
  rw [Nat.add_zero] at h0
  rw [readWord, readWord, h0, h 1 (by decide), h 2 (by decide), h 3 (by decide)]

theorem readWord_of (h : ∀ k < 4, b (off + k) = wordByte w k) : readWord b off = w := by
  have h0 := h 0 (by decide)
  rw [Nat.add_zero] at h0
  rw [readWord, h0, h 1 (by decide), h 2 (by decide), h 3 (by decide), wordByte_join]

theorem IsInt.bmod (h : IsInt v) : v.bmod (2 ^ 32) = v := by
  obtain ⟨hlo, hhi⟩ := h
  exact Int.bmod_eq_of_le (by omega) (by omega)

theorem readInt_of (h : ∀ k < 4, b (off + k) = intByte v k) (hv : IsInt v) :
    readInt b off = v := by
  rw [readInt, readWord_of h, BitVec.toInt_ofInt, hv.bmod]

/-- An element of an array. -/
theorem readInt_ints (h : ∀ k < 4 * c, b (off + k) = intsBytes f k) (hi : i < c)
    (hv : IsInt (f i)) : readInt b (off + 4 * i) = f i := by
  refine readInt_of (fun k hk => ?_) hv
  rw [Nat.add_assoc, h (4 * i + k) (by omega), intsBytes, Nat.mul_add_div (by decide),
    Nat.mul_add_mod, Nat.div_eq_of_lt hk, Nat.mod_eq_of_lt hk, Nat.add_zero]

end

end Midsm.Lib
