import Mathlib.Data.List.Basic
import Mathlib.Data.List.Nodup
import Mathlib.Data.List.Perm.Subperm
import Mathlib.Tactic.Common

/-!
# A lock with a FIFO queue

An owner, the parties that wait in the order they came, and the party that released
last. A party that waits does not ask again, so nobody is in the queue twice, the
owner is not in it, and there are fewer waiting parties than parties.
-/

namespace Midsm.Lib

structure FifoLock (α : Type) where
  owner : Option α
  queue : List α
  last : Option α

namespace FifoLock

variable {α : Type} [DecidableEq α] {k : FifoLock α} {x y : α}

def unused : FifoLock α := ⟨none, [], none⟩

/-- `x` asks for the lock. -/
def acquire (x : α) (k : FifoLock α) : FifoLock α :=
  match k.owner with
  | none => { k with owner := some x }
  | some y => if y = x then k else { k with queue := k.queue ++ [x] }

/-- `x` gives the lock back: it goes to the party that has waited longest. -/
def release (x : α) (k : FifoLock α) : FifoLock α :=
  if k.owner = some x then ⟨k.queue.head?, k.queue.tail, some x⟩ else k

structure Fair (k : FifoLock α) : Prop where
  nodup : k.queue.Nodup
  owner : ∀ x, k.owner = some x → x ∉ k.queue
  free : k.owner = none → k.queue = []

omit [DecidableEq α] in
theorem Fair.unused : (unused : FifoLock α).Fair where
  nodup := List.nodup_nil
  owner _ h := nomatch h
  free _ := rfl

theorem acquire_free (h : k.owner = none) (x : α) :
    k.acquire x = { k with owner := some x } := by
  rw [acquire, h]

theorem acquire_own (h : k.owner = some x) : k.acquire x = k := by
  rw [acquire, h]
  exact if_pos rfl

theorem acquire_busy (h : k.owner = some y) (hne : y ≠ x) :
    k.acquire x = { k with queue := k.queue ++ [x] } := by
  rw [acquire, h]
  exact if_neg hne

theorem Fair.acquire (hk : k.Fair) (hx : x ∉ k.queue) : (k.acquire x).Fair := by
  cases ho : k.owner with
  | none =>
      rw [acquire_free ho]
      exact ⟨hk.nodup, fun y hy => (by cases hy; exact hx), nofun⟩
  | some y =>
      by_cases hne : y = x
      · rw [acquire_own (ho.trans (congrArg some hne))]
        exact hk
      · rw [acquire_busy ho hne]
        refine ⟨?_, fun z hz => ?_, fun hn => ?_⟩
        · rw [← List.concat_eq_append]
          exact hk.nodup.concat hx
        · rw [List.mem_append, List.mem_singleton, not_or]
          refine ⟨hk.owner z hz, ?_⟩
          rw [ho, Option.some.injEq] at hz
          rwa [← hz]
        · rw [ho] at hn
          cases hn

theorem release_other (h : k.owner ≠ some x) : k.release x = k := if_neg h

theorem release_own (h : k.owner = some x) :
    k.release x = ⟨k.queue.head?, k.queue.tail, some x⟩ := if_pos h

theorem Fair.release (hk : k.Fair) (x : α) : (k.release x).Fair := by
  by_cases ho : k.owner = some x
  · rw [release_own ho]
    have hnd := hk.nodup
    refine ⟨hnd.tail, fun y hy => ?_, fun hn => ?_⟩
    · obtain ⟨rest, hq⟩ := List.head?_eq_some_iff.mp hy
      rw [hq, List.nodup_cons] at hnd
      dsimp only
      rw [hq]
      exact hnd.1
    · dsimp only at hn ⊢
      rw [List.head?_eq_none_iff.mp hn]
      rfl
  · rw [release_other ho]
    exact hk

omit [DecidableEq α] in
/-- The owner and the waiting parties are different ones. -/
theorem Fair.length_lt (hk : k.Fair) (parties : List α) (hne : parties ≠ [])
    (hq : ∀ x ∈ k.queue, x ∈ parties) (ho : ∀ x, k.owner = some x → x ∈ parties) :
    k.queue.length < parties.length := by
  cases hown : k.owner with
  | none =>
      rw [hk.free hown]
      exact List.length_pos_of_ne_nil hne
  | some x =>
      have hnd : (x :: k.queue).Nodup := List.nodup_cons.mpr ⟨hk.owner x hown, hk.nodup⟩
      have hsub : x :: k.queue ⊆ parties :=
        List.cons_subset.mpr ⟨ho x hown, hq⟩
      exact (List.subperm_of_subset hnd hsub).length_le

end FifoLock

end Midsm.Lib
