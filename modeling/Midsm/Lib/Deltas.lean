import Mathlib.Algebra.BigOperators.Group.List.Basic
import Mathlib.Algebra.Group.Pi.Basic

/-!
# Deltas

A change of a value that is kept as a difference, so that applying it is an
addition. Deltas may be applied in any order, the deltas between consecutive
versions lead from the first version to the last, and the deltas of several
writers who changed different cells of one array merge their changes.
-/

namespace Midsm.Lib

variable {G ι : Type}

/-! ## Applying deltas -/

section

variable [AddCommGroup G]

/-- The deltas applied one after the other. -/
def applyAll (base : G) (deltas : List G) : G := deltas.foldl (· + ·) base

theorem applyAll_cons (base delta : G) (deltas : List G) :
    applyAll base (delta :: deltas) = applyAll (base + delta) deltas := rfl

theorem applyAll_eq (base : G) (deltas : List G) :
    applyAll base deltas = base + deltas.sum := by
  induction deltas generalizing base with
  | nil => rw [List.sum_nil, add_zero, applyAll, List.foldl_nil]
  | cons delta deltas ih => rw [applyAll_cons, ih, List.sum_cons, add_assoc]

/-- The deltas of a chain of versions telescope. -/
theorem applyAll_chain (version : Nat → G) (n : Nat) :
    applyAll (version 0) ((List.range n).map fun k => version (k + 1) - version k) =
      version n := by
  rw [applyAll_eq]
  induction n with
  | zero => rw [List.range_zero, List.map_nil, List.sum_nil, add_zero]
  | succ n ih =>
      rw [List.range_succ, List.map_append, List.sum_append, ← add_assoc, ih,
        List.map_singleton, List.sum_singleton, add_sub_cancel]

end

/-! ## Merging -/

/-- The cells of an array that a version does not share with the base. -/
def Changes (base version : ι → G) (i : ι) : Prop := version i ≠ base i

/-- No cell is changed by both versions. -/
def Apart (base v w : ι → G) : Prop := ∀ i, ¬ (Changes base v i ∧ Changes base w i)

/-- A cell has the value of the writer that changed it, and its old value when none
did. -/
structure Merges (base : ι → G) (versions : List (ι → G)) (result : ι → G) : Prop where
  written : ∀ v ∈ versions, ∀ i, Changes base v i → result i = v i
  kept : ∀ i, (∀ v ∈ versions, ¬ Changes base v i) → result i = base i

theorem Merges.nil (base : ι → G) : Merges base [] base where
  written _ hv := absurd hv List.not_mem_nil
  kept _ _ := rfl

variable [AddCommGroup G]

/-- One more writer, whose changes lie apart from all the others'. -/
theorem Merges.cons {base result v : ι → G} {versions : List (ι → G)}
    (h : Merges base versions result) (hv : ∀ w ∈ versions, Apart base v w) :
    Merges base (v :: versions) (result + (v - base)) where
  written w hw i hi := by
    rw [Pi.add_apply, Pi.sub_apply]
    rcases List.mem_cons.mp hw with rfl | hw
    · rw [h.kept i fun u hu hc => hv u hu i ⟨hi, hc⟩, add_sub_cancel]
    · have hsame : v i = base i := by
        by_contra hc
        exact hv w hw i ⟨hc, hi⟩
      rw [h.written w hw i hi, hsame, sub_self, add_zero]
  kept i hi := by
    have hsame : v i = base i := by
      by_contra hc
      exact hi v List.mem_cons_self hc
    rw [Pi.add_apply, Pi.sub_apply, hsame, sub_self, add_zero]
    exact h.kept i fun w hw => hi w (List.mem_cons_of_mem v hw)

/-- Writers who keep apart: the deltas to the base merge their versions. -/
theorem merges_applyAll (base : ι → G) {versions : List (ι → G)}
    (h : versions.Pairwise (Apart base)) :
    Merges base versions (applyAll base (versions.map (· - base))) := by
  rw [applyAll_eq]
  induction h with
  | nil =>
      rw [List.map_nil, List.sum_nil, add_zero]
      exact .nil base
  | @cons v versions hv _ ih =>
      have h := ih.cons hv
      rw [List.map_cons, List.sum_cons]
      rwa [add_assoc, add_comm _ (v - base)] at h

end Midsm.Lib
