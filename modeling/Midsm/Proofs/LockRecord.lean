import Midsm.Ref.Syn
import Midsm.Lib.TokenQueue

/-!
# A lock record is an owner and a queue

`graspLock` and `freeLock` work on a `milock_t`: a state, an owner, and the
first `waitingListCount` cells of an array. `RecordRel` relates such a record
to the owner and the queue of the token protocol, and the lemmas of this file
say that the two functions compute `grasp` and `free` there. The loop that
moves the waiting hosts up is read off once, in `shiftList_apply`.
-/

namespace Midsm

open Midsm.Lib Midsm.Lib.TokenQueue

/-- The waiting hosts of a record, in the order of the array. -/
def Lock.queue (lock : Lock) : List Int :=
  (List.range lock.waitingListCount).map lock.waitingList

/-- A record and the manager's part of the protocol state. Besides, the host
that released last is a host, or -1. -/
structure RecordRel (n : Nat) (lock : Lock) (owner : Option Nat)
    (queue : List Nat) : Prop where
  free : owner = none → lock.locked = false
  busy : ∀ x, owner = some x → lock.locked = true ∧ lock.owner = x
  queue : lock.queue = queue.map fun x : Nat => (x : Int)
  last : -1 ≤ lock.lasthostid ∧ lock.lasthostid < n

theorem RecordRel.fresh (n : Nat) : RecordRel n freshLock none [] where
  free _ := rfl
  busy _ h := by cases h
  queue := rfl
  last := ⟨by decide, by simp only [freshLock]; omega⟩

/-- The last host to release is read by nothing in the relation. -/
theorem RecordRel.reset {n : Nat} {lock : Lock} {owner : Option Nat}
    {queue : List Nat} (h : RecordRel n lock owner queue) :
    RecordRel n { lock with lasthostid := -1 } owner queue :=
  ⟨h.free, h.busy, h.queue, by dsimp only; omega, by dsimp only; omega⟩

theorem shiftList_apply (list : Nat → Int) (k i : Nat) :
    shiftList list k i = if i < k then list (i + 1) else list i := by
  induction k generalizing i with
  | zero => rw [if_neg (by omega)]; rfl
  | succ k ih =>
      by_cases hik : i = k
      · subst hik
        rw [shiftList, upd_self, ih, if_neg (by omega), if_pos (by omega)]
      · rw [shiftList, upd_ne hik, ih]
        by_cases hlt : i < k
        · rw [if_pos hlt, if_pos (by omega)]
        · rw [if_neg hlt, if_neg (by omega)]

theorem queue_push (lock : Lock) (x : Int) :
    Lock.queue { lock with
      waitingList := upd lock.waitingList lock.waitingListCount x
      waitingListCount := lock.waitingListCount + 1 } = lock.queue ++ [x] := by
  simp only [Lock.queue, List.range_succ, List.map_append, List.map_cons,
    List.map_nil, upd_self]
  congr 1
  refine List.map_congr_left fun i hi => upd_ne ?_
  have := List.mem_range.mp hi
  omega

/-- The queue after the loop is the tail of the queue before it. -/
theorem queue_shift (lock : Lock) (owner last : Int) {k : Nat}
    (hk : lock.waitingListCount = k + 1) :
    lock.queue = lock.waitingList 0 :: Lock.queue { lock with
      owner := owner
      lasthostid := last
      waitingList := upd (shiftList lock.waitingList k) k (-1)
      waitingListCount := k } := by
  simp only [Lock.queue, hk, List.range_succ_eq_map, List.map_cons, List.map_map]
  congr 1
  refine List.map_congr_left fun i hi => ?_
  have hi := List.mem_range.mp hi
  rw [upd_ne (by omega), shiftList_apply, if_pos hi]
  rfl

/-! ## `graspLock` -/

section

variable {n me : Nat} {l : Int} {x : Nat} {s : Syn} {owner : Option Nat}
  {queue : List Nat}

theorem graspLock_free (hl : 0 ≤ l) (hl' : l < lockNum) (hx : x < n)
    (hm : l % n = me) (hr : RecordRel n (s.locks l) none queue) :
    graspLock n me l x s = ((s.locks l).lasthostid,
      s.setLock l { s.locks l with locked := true, owner := x }) := by
  simp only [graspLock]
  rw [if_neg (by omega), if_neg (by simpa using hm), if_pos (hr.free rfl)]

theorem graspLock_own (hl : 0 ≤ l) (hl' : l < lockNum) (hx : x < n)
    (hm : l % n = me) (hr : RecordRel n (s.locks l) (some x) queue) :
    graspLock n me l x s = (-4, s) := by
  simp only [graspLock]
  rw [if_neg (by omega), if_neg (by simpa using hm),
    if_neg (by simp [(hr.busy x rfl).1]), if_pos (hr.busy x rfl).2]

theorem graspLock_busy {y : Nat} (hl : 0 ≤ l) (hl' : l < lockNum) (hx : x < n)
    (hm : l % n = me) (hr : RecordRel n (s.locks l) (some y) queue) (hne : y ≠ x) :
    graspLock n me l x s = (-3, s.setLock l { s.locks l with
      waitingList := upd (s.locks l).waitingList (s.locks l).waitingListCount x
      waitingListCount := (s.locks l).waitingListCount + 1 }) := by
  simp only [graspLock]
  rw [if_neg (by omega), if_neg (by simpa using hm),
    if_neg (by simp [(hr.busy y rfl).1]),
    if_neg (by rw [(hr.busy y rfl).2]; exact_mod_cast hne)]

/-- On a lock of another manager nothing happens. -/
theorem graspLock_other (x : Int) (s : Syn) (hm : l % n ≠ me) :
    (graspLock n me l x s).2 = s ∧ (graspLock n me l x s).1 < -1 := by
  simp only [graspLock]
  split
  · exact ⟨rfl, by dsimp only; omega⟩
  · exact ⟨rfl, by dsimp only; omega⟩

theorem RecordRel.grasp_free (hr : RecordRel n (s.locks l) none queue) :
    RecordRel n { s.locks l with locked := true, owner := (x : Int) } (some x)
      queue where
  free h := by cases h
  busy y h := by cases h; exact ⟨rfl, rfl⟩
  queue := hr.queue
  last := hr.last

theorem RecordRel.grasp_busy (hr : RecordRel n (s.locks l) owner queue) :
    RecordRel n { s.locks l with
      waitingList := upd (s.locks l).waitingList (s.locks l).waitingListCount (x : Int)
      waitingListCount := (s.locks l).waitingListCount + 1 } owner (queue ++ [x]) where
  free := hr.free
  busy := hr.busy
  queue := by rw [queue_push, hr.queue, List.map_append]; rfl
  last := hr.last

/-! ## `freeLock` -/

theorem freeLock_empty (hl : 0 ≤ l) (hl' : l < lockNum) (hx : x < n)
    (hm : l % n = me) (hr : RecordRel n (s.locks l) (some x) []) :
    freeLock n me l x s = (-5, s.setLock l { s.locks l with
      locked := false, owner := -1, lasthostid := x }) := by
  have hc : (s.locks l).waitingListCount = 0 := by
    have := congrArg List.length hr.queue
    simpa [Lock.queue] using this
  simp only [freeLock]
  rw [if_neg (by omega), if_neg (by simpa using hm),
    if_neg (by simp [(hr.busy x rfl).1]), if_neg (by simp [(hr.busy x rfl).2]),
    if_pos hc]

/-- The lock of an owner with waiting hosts, handed to the first of them. -/
theorem freeLock_hand {y : Nat} {q : List Nat} (hl : 0 ≤ l) (hl' : l < lockNum)
    (hx : x < n) (hm : l % n = me)
    (hr : RecordRel n (s.locks l) (some x) (y :: q)) :
    ∃ k, (s.locks l).waitingListCount = k + 1 ∧
      freeLock n me l x s = ((y : Int), s.setLock l { s.locks l with
        owner := y
        lasthostid := x
        waitingList := upd (shiftList (s.locks l).waitingList k) k (-1)
        waitingListCount := k }) ∧
      RecordRel n { s.locks l with
        owner := y
        lasthostid := x
        waitingList := upd (shiftList (s.locks l).waitingList k) k (-1)
        waitingListCount := k } (some y) q := by
  obtain ⟨k, hk⟩ : ∃ k, (s.locks l).waitingListCount = k + 1 := by
    have := congrArg List.length hr.queue
    simp only [Lock.queue, List.length_map, List.length_range,
      List.length_cons] at this
    exact ⟨_, this⟩
  have hq := queue_shift (s.locks l) (y : Int) (x : Int) hk
  rw [hr.queue, List.map_cons, List.cons.injEq] at hq
  refine ⟨k, hk, ?_, ?_⟩
  · simp only [freeLock]
    rw [if_neg (by omega), if_neg (by simpa using hm),
      if_neg (by simp [(hr.busy x rfl).1]), if_neg (by simp [(hr.busy x rfl).2]),
      if_neg (by omega), hk, ← hq.1]
    rfl
  · exact ⟨fun h => (by cases h), fun z h => (by cases h; exact ⟨(hr.busy x rfl).1, rfl⟩),
      hq.2.symm, by dsimp only; omega, by dsimp only; exact_mod_cast hx⟩

theorem freeLock_next {y : Nat} {q : List Nat} (hl : 0 ≤ l) (hl' : l < lockNum)
    (hx : x < n) (hm : l % n = me)
    (hr : RecordRel n (s.locks l) (some x) (y :: q)) :
    ∃ lock', freeLock n me l x s = ((y : Int), s.setLock l lock') ∧
      lock'.lasthostid = x ∧ RecordRel n lock' (some y) q := by
  obtain ⟨k, -, he, hr'⟩ := freeLock_hand hl hl' hx hm hr
  exact ⟨_, he, rfl, hr'⟩

/-- On a lock of another manager nothing happens. -/
theorem freeLock_other (x : Int) (s : Syn) (hm : l % n ≠ me) :
    (freeLock n me l x s).2 = s ∧ (freeLock n me l x s).1 < 0 := by
  simp only [freeLock]
  split
  · exact ⟨rfl, by dsimp only; omega⟩
  · exact ⟨rfl, by dsimp only; omega⟩

theorem RecordRel.free_empty (hx : x < n)
    (hr : RecordRel n (s.locks l) (some x) []) :
    RecordRel n { s.locks l with
      locked := false, owner := -1, lasthostid := (x : Int) } none [] where
  free _ := rfl
  busy _ h := by cases h
  queue := hr.queue
  last := ⟨by dsimp only; omega, by dsimp only; exact_mod_cast hx⟩

end

@[simp] theorem setLock_locks_self (s : Syn) (l : Int) (lock : Lock) :
    (s.setLock l lock).locks l = lock := upd_self _ _ _

theorem setLock_locks_ne {s : Syn} {l l' : Int} {lock : Lock} (h : l' ≠ l) :
    (s.setLock l lock).locks l' = s.locks l' := upd_ne h

end Midsm
