import Mathlib.Data.List.Basic
import Mathlib.Tactic.Common

/-!
# A list in chunks

`chunk k i l` is the `i`-th run of `k` elements of a list. A buffer that takes
one element at a time and is emptied when it holds `k` of them has emptied
`l.length / k` chunks after the elements `l` and holds the next one, which is
what the lemmas about `l ++ [x]` are for.
-/

namespace Midsm.Lib

variable {α β : Type} {k i : Nat} {l : List α} {x : α}

def chunk (k i : Nat) (l : List α) : List α := (l.drop (k * i)).take k

theorem length_chunk (k i : Nat) (l : List α) :
    (chunk k i l).length = min k (l.length - k * i) := by
  rw [chunk, List.length_take, List.length_drop]

/-- A full chunk does not change when the list grows. -/
theorem chunk_append (h : k * i + k ≤ l.length) : chunk k i (l ++ [x]) = chunk k i l := by
  rw [chunk, chunk, List.drop_append_of_le_length (by omega),
    List.take_append_of_le_length (by rw [List.length_drop]; omega)]

/-- The chunk that is not full takes the element. -/
theorem chunk_push (h : k * i ≤ l.length) (h' : l.length < k * i + k) :
    chunk k i (l ++ [x]) = chunk k i l ++ [x] := by
  rw [chunk, chunk, List.drop_append_of_le_length h, List.take_of_length_le,
    List.take_of_length_le]
  · rw [List.length_drop]
    omega
  · rw [List.length_append, List.length_drop, List.length_singleton]
    omega

theorem chunk_end (h : l.length ≤ k * i) : chunk k i l = [] := by
  rw [chunk, List.drop_of_length_le h, List.take_nil]

/-- The first chunks are the beginning of the list. -/
theorem flatMap_chunk (k : Nat) (l : List α) (c : Nat) :
    ((List.range c).flatMap fun i => chunk k i l) = l.take (k * c) := by
  induction c with
  | zero => rfl
  | succ c ih =>
      rw [List.range_succ, List.flatMap_append, List.flatMap_singleton, ih, chunk,
        Nat.mul_succ, List.take_add]

/-- The number of chunks, with one for the empty list. -/
def chunkCount (k len : Nat) : Nat :=
  if len = 0 then 1 else (len + (k - 1)) / k

theorem flatMap_all_chunks (hk : 0 < k) (l : List α) :
    ((List.range (chunkCount k l.length)).flatMap fun i => chunk k i l) = l := by
  rw [flatMap_chunk, List.take_of_length_le]
  unfold chunkCount
  split
  · next h => omega
  · have hdiv := Nat.div_add_mod (l.length + (k - 1)) k
    have hmod := Nat.mod_lt (l.length + (k - 1)) hk
    omega

end Midsm.Lib
