import Midsm.Lib.Reach
import Midsm.Lib.Ring
import Midsm.Ref.Net

/-!
# The message queues are bounded FIFO queues

`nextFreeMsgInQueue`, writes through the pointer it returned, `msgEnqueue`, `queueTop`
and `msgDequeue`, in any order and with any type. Beside the two rings go two abstract
queues that follow the reported results and know a slot by the name the call gave it;
the invariant says that each ring holds what its abstract queue does.
-/

namespace Midsm

open Midsm.Lib

/-! ## The calls -/

inductive QueueCall where
  | nextFree (type : Int)
  /-- The slot that a `nextFreeMsgInQueue` returned is written. -/
  | write (type : Int) (slot : Nat) (msg : Mimsg)
  | enqueue (type : Int)
  | top (type : Int)
  | dequeue (type : Int)

def QueueCall.type : QueueCall → Int
  | .nextFree t | .write t _ _ | .enqueue t | .top t | .dequeue t => t

/-- The ring that a type names. -/
def Net.ring (type : Int) (s : Net) : Queue := if type = 0 then s.sndQueue else s.recvQueue

def Net.setRing (type : Int) (q : Queue) (s : Net) : Net :=
  if type = 0 then s.setSnd q else s.setRecv q

abbrev IsQueue (type : Int) : Prop := type = 0 ∨ type = 1

def queueStep (s : Net) : QueueCall → Option Net
  | .nextFree t => some (nextFreeMsgInQueue t s).2
  | .write t slot msg =>
      if IsQueue t then some (s.setRing t ((s.ring t).setSlot slot msg)) else none
  | .enqueue t => some (msgEnqueue t s).2
  | .top _ => some s
  | .dequeue t => some (msgDequeue t s).2

/-! ## The abstract queues -/

/-- The message that is being built, and the messages that wait, oldest first; each
with the slot its builder was given. -/
structure Fifo where
  building : Option (Nat × Mimsg)
  queue : List (Nat × Mimsg)

namespace Fifo

def empty : Fifo := ⟨none, []⟩

def rewrite (slot : Nat) (msg : Mimsg) (e : Nat × Mimsg) : Nat × Mimsg :=
  if e.1 = slot then (slot, msg) else e

def build (slot : Nat) (f : Fifo) : Fifo := { f with building := some (slot, blankMsg) }

/-- The messages that a builder still has a pointer to. -/
def write (slot : Nat) (msg : Mimsg) (f : Fifo) : Fifo :=
  ⟨f.building.map (rewrite slot msg), f.queue.map (rewrite slot msg)⟩

def enqueue (f : Fifo) : Fifo := ⟨none, f.queue ++ f.building.toList⟩

def dequeue (f : Fifo) : Fifo := { f with queue := f.queue.tail }

def slots (f : Fifo) : List Nat := (f.building.toList ++ f.queue).map Prod.fst

end Fifo

/-- The abstract queues follow what the calls report. -/
def fifoNext (g : Int → Fifo) (s : Net) : QueueCall → Int → Fifo
  | .nextFree t => ((nextFreeMsgInQueue t s).1).elim g fun slot => upd g t ((g t).build slot)
  | .write t slot msg => upd g t ((g t).write slot msg)
  | .enqueue t => if (msgEnqueue t s).1 = 0 then upd g t (g t).enqueue else g
  | .top _ => g
  | .dequeue t => if (msgDequeue t s).1 = 0 then upd g t (g t).dequeue else g

/-- A write goes to the slot of a message that is being built or waits, and a
`msgEnqueue` that succeeds has a slot that was returned since the last one. -/
def Paired (s : Net × (Int → Fifo)) : QueueCall → Prop
  | .write t slot _ => slot ∈ (s.2 t).slots
  | .enqueue t => (msgEnqueue t s.1).1 = 0 → (s.2 t).building.isSome = true
  | _ => True

instance (s : Net × (Int → Fifo)) (call : QueueCall) : Decidable (Paired s call) := by
  cases call <;> unfold Paired <;> infer_instance

/-! ## The invariant of a ring -/

structure RingOk (q : Queue) (f : Fifo) : Prop where
  layout : Layout maxQueueSize q.head q.tail q.size
  queue : f.queue = (indices maxQueueSize q.head q.size).map fun i => (i, q.slots i)
  building : ∀ e, f.building = some e → e = (q.tail, q.slots q.tail) ∧ q.size < maxQueueSize

namespace RingOk

variable {q : Queue} {f : Fifo}

theorem initial (slots : Nat → Mimsg) : RingOk ⟨slots, 0, 0, 0⟩ .empty where
  layout := .empty (by decide)
  queue := rfl
  building _ h := nomatch h

theorem length (h : RingOk q f) : f.queue.length = q.size := by
  rw [h.queue, List.length_map, length_indices]

theorem fst_queue (h : RingOk q f) :
    f.queue.map Prod.fst = indices maxQueueSize q.head q.size := by
  rw [h.queue, List.map_map]
  exact List.map_id _

theorem ne_full (h : RingOk q f) (hne : q.size ≠ maxQueueSize) : q.size < maxQueueSize :=
  lt_of_le_of_ne h.layout.size_le hne

/-- The contents of a ring after its cell `slot` was given `msg`. -/
theorem setSlot_queue (h : RingOk q f) (slot : Nat) (msg : Mimsg) :
    f.queue.map (Fifo.rewrite slot msg) =
      (indices maxQueueSize q.head q.size).map fun i => (i, (q.setSlot slot msg).slots i) := by
  rw [h.queue, List.map_map]
  refine List.map_congr_left fun i _ => ?_
  show Fifo.rewrite slot msg (i, q.slots i) = (i, upd q.slots slot msg i)
  by_cases hi : i = slot
  · rw [Fifo.rewrite, if_pos hi, hi, upd_self]
  · rw [Fifo.rewrite, if_neg hi, upd_ne hi]

theorem write (h : RingOk q f) (slot : Nat) (msg : Mimsg) :
    RingOk (q.setSlot slot msg) (f.write slot msg) := by
  refine ⟨h.layout, h.setSlot_queue slot msg, fun e he => ?_⟩
  obtain ⟨e, hb, rfl⟩ := Option.map_eq_some_iff.mp he
  obtain ⟨rfl, hlt⟩ := h.building e hb
  refine ⟨?_, hlt⟩
  show Fifo.rewrite slot msg (q.tail, q.slots q.tail) = (q.tail, upd q.slots slot msg q.tail)
  by_cases hi : q.tail = slot
  · rw [Fifo.rewrite, if_pos hi, hi, upd_self]
  · rw [Fifo.rewrite, if_neg hi, upd_ne hi]

/-- The slot that is handed out is not one of a message that waits. -/
theorem tail_not_mem (h : RingOk q f) (hlt : q.size < maxQueueSize) :
    q.tail ∉ f.queue.map Prod.fst := by
  rw [h.fst_queue]
  exact h.layout.tail_not_mem hlt

/-- Clearing the free slot leaves the messages that wait alone. -/
theorem clear (h : RingOk q f) (hlt : q.size < maxQueueSize) :
    f.queue.map (Fifo.rewrite q.tail blankMsg) = f.queue := by
  refine (List.map_congr_left fun e he => ?_).trans (List.map_id _)
  exact if_neg fun hslot => h.tail_not_mem hlt (List.mem_map.mpr ⟨e, he, hslot⟩)

theorem build (h : RingOk q f) (hlt : q.size < maxQueueSize) :
    RingOk (q.setSlot q.tail blankMsg) (f.build q.tail) := by
  refine ⟨h.layout, (h.clear hlt).symm.trans (h.setSlot_queue q.tail blankMsg), ?_⟩
  rintro e ⟨⟩
  exact ⟨Prod.ext rfl (upd_self ..).symm, hlt⟩

theorem enqueue (h : RingOk q f) (hlt : q.size < maxQueueSize)
    (hb : f.building.isSome = true) : RingOk
      { q with tail := (q.tail + 1) % maxQueueSize, size := q.size + 1 } f.enqueue := by
  obtain ⟨e, he⟩ := Option.isSome_iff_exists.mp hb
  obtain ⟨rfl, -⟩ := h.building e he
  refine ⟨h.layout.push hlt, ?_, fun e h => nomatch h⟩
  show f.queue ++ f.building.toList = _
  rw [h.layout.indices_push, List.map_append, ← h.queue, he]
  rfl

theorem dequeue (h : RingOk q f) (hne : q.size ≠ 0) : RingOk
    { q with head := (q.head + 1) % maxQueueSize, size := q.size - 1 } f.dequeue := by
  obtain ⟨size, hs⟩ := Nat.exists_eq_succ_of_ne_zero hne
  have hl := h.layout
  rw [hs] at hl
  refine ⟨?_, ?_, fun e he => ?_⟩
  · dsimp only
    rw [hs]
    exact hl.pop
  · show f.queue.tail = _
    dsimp only
    rw [h.queue, hs, hl.indices_pop]
    rfl
  · obtain ⟨he, hlt⟩ := h.building e he
    exact ⟨he, (Nat.sub_le _ _).trans_lt hlt⟩

end RingOk

/-! ## The calls on the ring that a type names -/

section

variable {s s' : Net} {g : Int → Fifo} {t t' : Int} {q : Queue} {f : Fifo}

theorem ring_setRing_self : (s.setRing t q).ring t = q := by
  by_cases ht : t = 0 <;> simp [Net.ring, Net.setRing, Net.setSnd, Net.setRecv, ht]

theorem ring_setRing_ne (ht : IsQueue t) (ht' : IsQueue t') (hne : t' ≠ t) :
    (s.setRing t q).ring t' = s.ring t' := by
  rcases ht with rfl | rfl <;> rcases ht' with rfl | rfl <;>
    first | exact absurd rfl hne | rfl

theorem setRing_ring : s.setRing t (s.ring t) = s := by
  by_cases ht : t = 0 <;> simp [Net.ring, Net.setRing, Net.setSnd, Net.setRecv, ht]

theorem not_isQueue (ht : ¬ IsQueue t) : t ≠ 0 ∧ t ≠ 1 := not_or.mp ht

theorem nextFreeMsgInQueue_refused (ht : ¬ IsQueue t) : nextFreeMsgInQueue t s = (none, s) :=
  if_pos (not_isQueue ht)

theorem msgEnqueue_refused (ht : ¬ IsQueue t) : msgEnqueue t s = (-1, s) :=
  if_pos (not_isQueue ht)

theorem queueTop_refused (ht : ¬ IsQueue t) : queueTop t s = none :=
  if_pos (not_isQueue ht)

theorem msgDequeue_refused (ht : ¬ IsQueue t) : msgDequeue t s = (-1, s) :=
  if_pos (not_isQueue ht)

theorem nextFreeMsgInQueue_ring (ht : IsQueue t) : nextFreeMsgInQueue t s =
    ((s.ring t).nextFree.1, s.setRing t (s.ring t).nextFree.2) := by
  rcases ht with rfl | rfl <;> rfl

theorem msgEnqueue_ring (ht : IsQueue t) : msgEnqueue t s =
    ((s.ring t).enqueue.1, s.setRing t (s.ring t).enqueue.2) := by
  rcases ht with rfl | rfl <;> rfl

theorem queueTop_ring (ht : IsQueue t) : queueTop t s = (s.ring t).top := by
  rcases ht with rfl | rfl <;> rfl

theorem msgDequeue_ring (ht : IsQueue t) : msgDequeue t s =
    ((s.ring t).dequeue.1, s.setRing t (s.ring t).dequeue.2) := by
  rcases ht with rfl | rfl <;> rfl

theorem nextFreeMsgInQueue_full (ht : IsQueue t) (hfull : (s.ring t).size = maxQueueSize) :
    nextFreeMsgInQueue t s = (none, s) := by
  rw [nextFreeMsgInQueue_ring ht, Queue.nextFree, if_pos hfull, setRing_ring]

theorem nextFreeMsgInQueue_room (ht : IsQueue t) (hroom : (s.ring t).size ≠ maxQueueSize) :
    nextFreeMsgInQueue t s = (some (s.ring t).tail,
      s.setRing t ((s.ring t).setSlot (s.ring t).tail blankMsg)) := by
  rw [nextFreeMsgInQueue_ring ht, Queue.nextFree, if_neg hroom]

theorem msgEnqueue_full (ht : IsQueue t) (hfull : (s.ring t).size = maxQueueSize) :
    msgEnqueue t s = (-2, s) := by
  rw [msgEnqueue_ring ht, Queue.enqueue, if_pos hfull, setRing_ring]

theorem msgEnqueue_room (ht : IsQueue t) (hroom : (s.ring t).size ≠ maxQueueSize) :
    (msgEnqueue t s).1 = 0 ∧ ((msgEnqueue t s).2.ring t) =
      { s.ring t with
        tail := ((s.ring t).tail + 1) % maxQueueSize
        size := (s.ring t).size + 1 } := by
  rw [msgEnqueue_ring ht, Queue.enqueue, if_neg hroom]
  exact ⟨rfl, ring_setRing_self⟩

theorem msgDequeue_empty (ht : IsQueue t) (hempty : (s.ring t).size = 0) :
    msgDequeue t s = (-2, s) := by
  rw [msgDequeue_ring ht, Queue.dequeue, if_pos hempty, setRing_ring]

theorem msgDequeue_some (ht : IsQueue t) (hne : (s.ring t).size ≠ 0) :
    (msgDequeue t s).1 = 0 ∧ ((msgDequeue t s).2.ring t) =
      { s.ring t with
        head := ((s.ring t).head + 1) % maxQueueSize
        size := (s.ring t).size - 1 } := by
  rw [msgDequeue_ring ht, Queue.dequeue, if_neg hne]
  exact ⟨rfl, ring_setRing_self⟩

theorem nextFreeMsgInQueue_isSome : (nextFreeMsgInQueue t s).1.isSome = true ↔
    IsQueue t ∧ (s.ring t).size ≠ maxQueueSize := by
  by_cases ht : IsQueue t
  · by_cases hfull : (s.ring t).size = maxQueueSize
    · simp [nextFreeMsgInQueue_full ht hfull, hfull]
    · simp [nextFreeMsgInQueue_room ht hfull, ht, hfull]
  · simp [nextFreeMsgInQueue_refused ht, ht]

theorem nextFreeMsgInQueue_failed (h : (nextFreeMsgInQueue t s).1 = none) :
    (nextFreeMsgInQueue t s).2 = s := by
  by_cases ht : IsQueue t
  · by_cases hfull : (s.ring t).size = maxQueueSize
    · rw [nextFreeMsgInQueue_full ht hfull]
    · rw [nextFreeMsgInQueue_room ht hfull] at h
      cases h
  · rw [nextFreeMsgInQueue_refused ht]

theorem msgEnqueue_succeeds : (msgEnqueue t s).1 = 0 ↔
    IsQueue t ∧ (s.ring t).size ≠ maxQueueSize := by
  by_cases ht : IsQueue t
  · by_cases hfull : (s.ring t).size = maxQueueSize
    · simp [msgEnqueue_full ht hfull, hfull]
    · simp [(msgEnqueue_room ht hfull).1, ht, hfull]
  · simp [msgEnqueue_refused ht, ht]

theorem msgEnqueue_failed (h : (msgEnqueue t s).1 ≠ 0) : (msgEnqueue t s).2 = s := by
  by_cases ht : IsQueue t
  · by_cases hfull : (s.ring t).size = maxQueueSize
    · rw [msgEnqueue_full ht hfull]
    · exact absurd (msgEnqueue_room ht hfull).1 h
  · rw [msgEnqueue_refused ht]

theorem msgDequeue_succeeds : (msgDequeue t s).1 = 0 ↔
    IsQueue t ∧ (s.ring t).size ≠ 0 := by
  by_cases ht : IsQueue t
  · by_cases hempty : (s.ring t).size = 0
    · simp [msgDequeue_empty ht hempty, hempty]
    · simp [(msgDequeue_some ht hempty).1, ht, hempty]
  · simp [msgDequeue_refused ht, ht]

theorem msgDequeue_failed (h : (msgDequeue t s).1 ≠ 0) : (msgDequeue t s).2 = s := by
  by_cases ht : IsQueue t
  · by_cases hempty : (s.ring t).size = 0
    · rw [msgDequeue_empty ht hempty]
    · exact absurd (msgDequeue_some ht hempty).1 h
  · rw [msgDequeue_refused ht]

/-- A call with one type leaves the other ring alone. -/
theorem queueStep_other {call : QueueCall} (h : queueStep s call = some s')
    (ht' : IsQueue t') (hne : t' ≠ call.type) : s'.ring t' = s.ring t' := by
  cases call with
  | nextFree t =>
      cases h
      by_cases ht : IsQueue t
      · rw [nextFreeMsgInQueue_ring ht]
        exact ring_setRing_ne ht ht' hne
      · rw [nextFreeMsgInQueue_refused ht]
  | write t slot msg =>
      rw [queueStep] at h
      split at h
      · next ht =>
          cases h
          exact ring_setRing_ne ht ht' hne
      · cases h
  | enqueue t =>
      cases h
      by_cases ht : IsQueue t
      · rw [msgEnqueue_ring ht]
        exact ring_setRing_ne ht ht' hne
      · rw [msgEnqueue_refused ht]
  | top t =>
      cases h
      rfl
  | dequeue t =>
      cases h
      by_cases ht : IsQueue t
      · rw [msgDequeue_ring ht]
        exact ring_setRing_ne ht ht' hne
      · rw [msgDequeue_refused ht]

/-! ## One call -/

def QueuesOk (s : Net × (Int → Fifo)) : Prop :=
  ∀ t, IsQueue t → RingOk (s.1.ring t) (s.2 t)

/-- The ring that a call names holds what its abstract queue does, and the other one is
as it was. -/
theorem QueuesOk.set {call : QueueCall} (h : QueuesOk (s, g)) (hs : queueStep s call = some s')
    (hr : RingOk (s'.ring call.type) f) : QueuesOk (s', upd g call.type f) := by
  intro t ht
  dsimp only
  by_cases hne : t = call.type
  · rw [hne, upd_self]
    exact hr
  · rw [upd_ne hne, queueStep_other hs ht hne]
    exact h t ht

theorem QueuesOk.step {call : QueueCall} (h : QueuesOk (s, g)) (hok : Paired (s, g) call)
    (hs : queueStep s call = some s') : QueuesOk (s', fifoNext g s call) := by
  cases call with
  | nextFree t =>
      dsimp only [fifoNext]
      cases hfree : (nextFreeMsgInQueue t s).1 with
      | none =>
          cases hs
          rw [nextFreeMsgInQueue_failed hfree]
          exact h
      | some slot =>
          obtain ⟨ht, hroom⟩ := nextFreeMsgInQueue_isSome.mp (Option.isSome_of_mem hfree)
          refine h.set hs ?_
          cases hs
          rw [nextFreeMsgInQueue_room ht hroom] at hfree ⊢
          cases hfree
          dsimp only [QueueCall.type]
          rw [ring_setRing_self]
          exact (h t ht).build ((h t ht).ne_full hroom)
  | write t slot msg =>
      refine h.set hs ?_
      rw [queueStep] at hs
      split at hs
      · next ht =>
          cases hs
          dsimp only [QueueCall.type]
          rw [ring_setRing_self]
          exact (h t ht).write slot msg
      · cases hs
  | enqueue t =>
      dsimp only [fifoNext]
      split
      · next hsucc =>
          obtain ⟨ht, hroom⟩ := msgEnqueue_succeeds.mp hsucc
          refine h.set hs ?_
          cases hs
          dsimp only [QueueCall.type]
          rw [(msgEnqueue_room ht hroom).2]
          exact (h t ht).enqueue ((h t ht).ne_full hroom) (hok hsucc)
      · next hfail =>
          cases hs
          rw [msgEnqueue_failed hfail]
          exact h
  | top t =>
      cases hs
      exact h
  | dequeue t =>
      dsimp only [fifoNext]
      split
      · next hsucc =>
          obtain ⟨ht, hne⟩ := msgDequeue_succeeds.mp hsucc
          refine h.set hs ?_
          cases hs
          dsimp only [QueueCall.type]
          rw [(msgDequeue_some ht hne).2]
          exact (h t ht).dequeue hne
      · next hfail =>
          cases hs
          rw [msgDequeue_failed hfail]
          exact h

/-! ## Every sequence of calls -/

/-- A ring is a FIFO queue of at most `maxQueueSize` messages. -/
structure BoundedFifo (t : Int) (s : Net) (f : Fifo) : Prop where
  bound : f.queue.length ≤ maxQueueSize
  /-- Every message that waits is in a slot of its own, as its builder left it. -/
  nodup : (f.queue.map Prod.fst).Nodup
  content : ∀ e ∈ f.queue, (s.ring t).slots e.1 = e.2
  oldest : queueTop t s = f.queue.head?.map Prod.fst
  topContent : (queueTop t s).map (s.ring t).slots = f.queue.head?.map Prod.snd
  topNull : queueTop t s = none ↔ f.queue = []
  freeNull : (nextFreeMsgInQueue t s).1 = none ↔ f.queue.length = maxQueueSize
  freeSlot : ∀ slot, (nextFreeMsgInQueue t s).1 = some slot →
    slot < maxQueueSize ∧ slot ∉ f.queue.map Prod.fst ∧
    ((nextFreeMsgInQueue t s).2.ring t).slots slot = blankMsg ∧
    ∀ e ∈ f.queue, ((nextFreeMsgInQueue t s).2.ring t).slots e.1 = e.2
  enqueue : (msgEnqueue t s).1 = 0 ↔ f.queue.length < maxQueueSize
  dequeue : (msgDequeue t s).1 = 0 ↔ f.queue ≠ []

theorem RingOk.content (h : RingOk q f) : ∀ e ∈ f.queue, q.slots e.1 = e.2 := by
  rw [h.queue]
  intro e he
  obtain ⟨i, -, rfl⟩ := List.mem_map.mp he
  rfl

theorem RingOk.eq_nil (h : RingOk q f) : f.queue = [] ↔ q.size = 0 := by
  rw [← h.length, List.length_eq_zero_iff]

theorem RingOk.top (h : RingOk q f) : q.top = f.queue.head?.map Prod.fst := by
  rw [Queue.top]
  split
  · next hempty =>
      rw [h.eq_nil.mpr hempty]
      rfl
  · next hne =>
      obtain ⟨size, hs⟩ := Nat.exists_eq_succ_of_ne_zero hne
      have hl := h.layout
      rw [hs] at hl
      rw [h.queue, hs, hl.indices_pop]
      rfl

theorem RingOk.boundedFifo (ht : IsQueue t) (h : RingOk (s.ring t) f) : BoundedFifo t s f where
  bound := h.length.trans_le h.layout.size_le
  nodup := by
    rw [h.fst_queue]
    exact indices_nodup h.layout.size_le
  content := h.content
  oldest := (queueTop_ring ht).trans h.top
  topContent := by
    rw [queueTop_ring ht, h.top]
    cases hq : f.queue with
    | nil => rfl
    | cons e queue =>
        have hmem : e ∈ f.queue := by rw [hq]; exact List.mem_cons_self
        exact congrArg some (h.content e hmem)
  topNull := by
    rw [queueTop_ring ht, h.top, Option.map_eq_none_iff, List.head?_eq_none_iff]
  freeNull := by
    rw [← Option.not_isSome_iff_eq_none, nextFreeMsgInQueue_isSome, h.length]
    simp [ht]
  freeSlot slot hslot := by
    obtain ⟨-, hroom⟩ := nextFreeMsgInQueue_isSome.mp (Option.isSome_of_mem hslot)
    have hlt := h.ne_full hroom
    rw [nextFreeMsgInQueue_room ht hroom] at hslot ⊢
    cases hslot
    dsimp only
    rw [ring_setRing_self]
    exact ⟨h.layout.tail_lt, h.tail_not_mem hlt, upd_self .., (h.build hlt).content⟩
  enqueue := by
    rw [msgEnqueue_succeeds, h.length]
    exact ⟨fun hs => h.ne_full hs.2, fun hlt => ⟨ht, hlt.ne⟩⟩
  dequeue := by
    rw [msgDequeue_succeeds]
    exact ⟨fun hs hq => hs.2 (h.eq_nil.mp hq), fun hne => ⟨ht, fun hz => hne (h.eq_nil.mpr hz)⟩⟩

theorem queuesOk_of_reach
    (h : Reach (withGhost queueStep fun g s call _ => fifoNext g s call) Paired
      (initnet, fun _ => .empty) (s, g)) : QueuesOk (s, g) := by
  refine h.invariant (P := QueuesOk) (fun t ht => ?_) fun {u v call} hu hok he => ?_
  · rcases ht with rfl | rfl <;> exact .initial _
  · obtain ⟨hs, hg⟩ := withGhost_eq_some.mp he
    obtain ⟨s', g'⟩ := v
    dsimp only at hs hg
    rw [hg]
    exact hu.step hok hs

/-- In every sequence of calls each ring is a bounded FIFO queue; a call that reports an
error, `NULL` included, changes nothing, and no call changes the other ring. -/
theorem message_queues_are_fifo
    (h : Reach (withGhost queueStep fun g s call _ => fifoNext g s call) Paired
      (initnet, fun _ => .empty) (s, g)) :
    BoundedFifo 0 s (g 0) ∧ BoundedFifo 1 s (g 1) ∧
    (∀ t, ¬ IsQueue t → (nextFreeMsgInQueue t s).1 = none ∧ (msgEnqueue t s).1 = -1 ∧
      queueTop t s = none ∧ (msgDequeue t s).1 = -1) ∧
    (∀ t, (nextFreeMsgInQueue t s).1 = none → (nextFreeMsgInQueue t s).2 = s) ∧
    (∀ t, (msgEnqueue t s).1 ≠ 0 → (msgEnqueue t s).2 = s) ∧
    (∀ t, (msgDequeue t s).1 ≠ 0 → (msgDequeue t s).2 = s) ∧
    (∀ call s' t, queueStep s call = some s' → IsQueue t → t ≠ call.type →
      s'.ring t = s.ring t) := by
  have hok : QueuesOk (s, g) := queuesOk_of_reach h
  refine ⟨(hok 0 (.inl rfl)).boundedFifo (.inl rfl), (hok 1 (.inr rfl)).boundedFifo (.inr rfl),
    fun t ht => ?_, fun t => nextFreeMsgInQueue_failed, fun t => msgEnqueue_failed,
    fun t => msgDequeue_failed, fun call s' t => queueStep_other⟩
  rw [nextFreeMsgInQueue_refused ht, msgEnqueue_refused ht, queueTop_refused ht,
    msgDequeue_refused ht]
  exact ⟨rfl, rfl, rfl, rfl⟩

end

/-- Two messages are sent, one of them is taken out, and a third waits to be built. -/
theorem message_queues_are_fifo_three : ∃ s g,
    Reach (withGhost queueStep fun g s call _ => fifoNext g s call) Paired
      (initnet, fun _ => .empty) (s, g) ∧
    (g 0).queue.map Prod.fst = [1] ∧ queueTop 0 s = some 1 ∧ BoundedFifo 0 s (g 0) := by
  obtain ⟨⟨s, g⟩, hreach, hp⟩ := exists_reach
    (withGhost queueStep fun g s call _ => fifoNext g s call)
    (fun s call => decide (Paired s call)) (fun _ _ => of_decide_eq_true)
    (initnet, fun _ => .empty)
    [.nextFree 0, .write 0 0 { blankMsg with command := 7 }, .enqueue 0, .enqueue 5,
      .nextFree 0, .nextFree 0, .enqueue 0, .dequeue 1, .dequeue 0, .nextFree 0]
    (fun s => decide ((s.2 0).queue.map Prod.fst = [1])) (by decide)
  have hqueue : (g 0).queue.map Prod.fst = [1] := of_decide_eq_true hp
  have hfifo := (message_queues_are_fifo hreach).1
  refine ⟨s, g, hreach, hqueue, ?_, hfifo⟩
  rw [hfifo.oldest, ← List.head?_map, hqueue]
  rfl

end Midsm
