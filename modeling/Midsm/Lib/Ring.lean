import Mathlib.Data.List.Nodup
import Mathlib.Data.List.Range
import Mathlib.Data.Nat.ModEq
import Mathlib.Tactic.Common

/-!
# The cells of a ring

A ring of `cap` cells with a head, a tail and a size that are kept apart. The cells
in use are those from the head on, `size` of them and round the end; the tail is the
cell after them, which is free as long as the ring is not full.
-/

namespace Midsm.Lib

/-- The cells in use, oldest first. -/
def indices (cap head size : Nat) : List Nat :=
  (List.range size).map fun i => (head + i) % cap

variable {cap head tail size : Nat}

theorem length_indices : (indices cap head size).length = size := by
  rw [indices, List.length_map, List.length_range]

/-- One more cell at the end. -/
theorem indices_push :
    indices cap head (size + 1) = indices cap head size ++ [(head + size) % cap] := by
  rw [indices, List.range_succ, List.map_append]
  rfl

/-- One cell less at the front. -/
theorem indices_pop : indices cap head (size + 1) =
    head % cap :: indices cap ((head + 1) % cap) size := by
  rw [indices, List.range_succ_eq_map, List.map_cons, List.map_map, Nat.add_zero]
  refine congrArg _ (List.map_congr_left fun i _ => ?_)
  show (head + (i + 1)) % cap = ((head + 1) % cap + i) % cap
  rw [Nat.mod_add_mod, Nat.add_assoc, Nat.add_comm 1 i]

theorem indices_nodup (h : size ≤ cap) : (indices cap head size).Nodup := by
  refine List.Nodup.map_on (fun i hi j hj he => ?_) List.nodup_range
  have hmod : i ≡ j [MOD cap] := Nat.ModEq.add_left_cancel' head he
  rw [List.mem_range] at hi hj
  exact hmod.eq_of_lt_of_lt (by omega) (by omega)

/-- The cell after those in use is free. -/
theorem next_not_mem (h : size < cap) : (head + size) % cap ∉ indices cap head size := by
  have hnd : (indices cap head (size + 1)).Nodup := indices_nodup h
  rw [indices_push, List.nodup_append] at hnd
  intro hm
  exact hnd.2.2 _ hm _ List.mem_cons_self rfl

/-- Head, tail and size agree. -/
structure Layout (cap head tail size : Nat) : Prop where
  head_lt : head < cap
  size_le : size ≤ cap
  tail_eq : tail = (head + size) % cap

namespace Layout

theorem empty (h : 0 < cap) : Layout cap 0 0 0 :=
  ⟨h, Nat.zero_le _, (Nat.zero_mod _).symm⟩

theorem tail_lt (h : Layout cap head tail size) : tail < cap := by
  rw [h.tail_eq]
  exact Nat.mod_lt _ (Nat.zero_lt_of_lt h.head_lt)

theorem tail_not_mem (h : Layout cap head tail size) (hlt : size < cap) :
    tail ∉ indices cap head size := by
  rw [h.tail_eq]
  exact next_not_mem hlt

theorem push (h : Layout cap head tail size) (hlt : size < cap) :
    Layout cap head ((tail + 1) % cap) (size + 1) := by
  refine ⟨h.head_lt, hlt, ?_⟩
  rw [h.tail_eq, Nat.mod_add_mod, Nat.add_assoc]

theorem pop (h : Layout cap head tail (size + 1)) :
    Layout cap ((head + 1) % cap) tail size := by
  refine ⟨Nat.mod_lt _ (Nat.zero_lt_of_lt h.head_lt), (Nat.lt_succ_self _).le.trans h.size_le, ?_⟩
  rw [h.tail_eq, Nat.mod_add_mod, Nat.add_assoc, Nat.add_comm 1 size]

theorem indices_push (h : Layout cap head tail size) :
    indices cap head (size + 1) = indices cap head size ++ [tail] := by
  rw [Lib.indices_push, ← h.tail_eq]

theorem indices_pop (h : Layout cap head tail (size + 1)) :
    indices cap head (size + 1) = head :: indices cap ((head + 1) % cap) size := by
  rw [Lib.indices_pop, Nat.mod_eq_of_lt h.head_lt]

end Layout

end Midsm.Lib
