import Mathlib.Data.Nat.Digits.Defs
import Mathlib.Data.Nat.Digits.Lemmas
import Mathlib.Data.BitVec

/-!
# Decimal numbers in text

A number is written as a minus sign where it needs one and its digits, and read by
taking in digits up to the first byte that is none.
-/

namespace Midsm.Lib

def digitByte (d : Nat) : BitVec 8 := BitVec.ofNat 8 (48 + d)

def isDigit (b : BitVec 8) : Bool := 48 ≤ b.toNat ∧ b.toNat ≤ 57

/-- The digits of a number, the first one first. -/
def decimalNat (v : Nat) : List (BitVec 8) :=
  if v = 0 then [digitByte 0] else ((Nat.digits 10 v).map digitByte).reverse

def decimal (v : Int) : List (BitVec 8) :=
  if v < 0 then 45 :: decimalNat v.natAbs else decimalNat v.natAbs

/-- The number that the digits in front stand for. -/
def scanNat (bs : List (BitVec 8)) : Nat :=
  (bs.takeWhile isDigit).foldl (fun v b => 10 * v + (b.toNat - 48)) 0

section

variable {d v : Nat} {bs rest : List (BitVec 8)}

theorem digitByte_toNat (h : d < 10) : (digitByte d).toNat = 48 + d := by
  rw [digitByte, BitVec.toNat_ofNat, Nat.mod_eq_of_lt (by omega)]

theorem isDigit_digitByte (h : d < 10) : isDigit (digitByte d) = true := by
  rw [isDigit, digitByte_toNat h]
  exact decide_eq_true ⟨by omega, by omega⟩

theorem decimalNat_isDigit (v : Nat) : ∀ b ∈ decimalNat v, isDigit b = true := by
  intro b hb
  unfold decimalNat at hb
  split at hb
  · rw [List.mem_singleton.mp hb]
    rfl
  · obtain ⟨d, hd, rfl⟩ := List.mem_map.mp (List.mem_reverse.mp hb)
    exact isDigit_digitByte (Nat.digits_lt_base (by decide) hd)

theorem foldl_digits (ds : List Nat) (h : ∀ d ∈ ds, d < 10) :
    ((ds.map digitByte).reverse).foldl (fun v b => 10 * v + (b.toNat - 48)) 0 =
      Nat.ofDigits 10 ds := by
  induction ds with
  | nil => rfl
  | cons d ds ih =>
      rw [List.map_cons, List.reverse_cons, List.foldl_append, List.foldl_cons, List.foldl_nil,
        ih fun d hd => h d (List.mem_cons_of_mem _ hd), digitByte_toNat (h d List.mem_cons_self),
        Nat.ofDigits_cons]
      omega

theorem scanNat_decimalNat (v : Nat) (hr : ∀ b ∈ rest.head?, isDigit b = false) :
    scanNat (decimalNat v ++ rest) = v := by
  have htake : rest.takeWhile isDigit = [] := by
    cases rest with
    | nil => rfl
    | cons b rest => exact List.takeWhile_cons_of_neg (by rw [hr b rfl]; exact Bool.false_ne_true)
  rw [scanNat, List.takeWhile_append_of_pos (decimalNat_isDigit v), htake, List.append_nil]
  unfold decimalNat
  split
  · next hv => rw [hv]; rfl
  · rw [foldl_digits _ fun d hd => Nat.digits_lt_base (by decide) hd, Nat.ofDigits_digits]

theorem length_decimalNat (hv : v < 10 ^ d) (hd : 0 < d) : (decimalNat v).length ≤ d := by
  unfold decimalNat
  split
  · exact hd
  · rw [List.length_reverse, List.length_map]
    exact (Nat.digits_length_le_iff (by decide) v).mpr hv

end

end Midsm.Lib
