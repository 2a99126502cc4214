import Mathlib.Tactic.Common

/-!
# The words of a list

A list is cut at the elements that satisfy a predicate, and what is not empty between
two cuts is a word. So the words are the maximal runs of elements that do not satisfy
it, in order.
-/

namespace Midsm.Lib

variable {α : Type} {p : α → Bool} {a : α} {l w : List α}

def words (p : α → Bool) (l : List α) : List (List α) :=
  (l.splitOnP p).filter fun w => !w.isEmpty

theorem words_sep (h : p a = true) : words p (a :: l) = words p l := by
  rw [words, List.splitOnP_cons_eq_if_modifyHead, if_pos h]
  rfl

/-- Separators in front make no word. -/
theorem words_dropWhile : words p (l.dropWhile p) = words p l := by
  induction l with
  | nil => rfl
  | cons a l ih =>
      by_cases h : p a = true
      · rw [List.dropWhile_cons_of_pos h, words_sep h, ih]
      · rw [List.dropWhile_cons_of_neg h]

theorem words_single (hne : w ≠ []) (hw : ∀ a ∈ w, p a = false) : words p w = [w] := by
  rw [words, List.splitOnP_eq_singleton fun a ha => hw a ha]
  simp [hne]

/-- A run that a separator ends is the first word. -/
theorem words_run (hne : w ≠ []) (hw : ∀ a ∈ w, p a = false) (h : p a = true) :
    words p (w ++ a :: l) = w :: words p l := by
  rw [words, List.splitOnP_append_cons_of_forall_mem hw a h, List.filter_cons_of_pos]
  · rfl
  · simp [hne]

end Midsm.Lib
