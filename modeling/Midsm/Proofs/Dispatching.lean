import Midsm.Lib.Ring
import Midsm.Ref.Net

/-!
# What is acknowledged is dispatched

`sigio_handler` takes the results of `nextFreeMsgInQueue` and `msgEnqueue` for granted.
Between two of its runs the receive queue is empty, and one run reads each socket once:
there are as many places in the ring as sockets, so no run fills it. What it has read
it then hands to `dispatchMsg`, oldest first, until the ring is empty again.
-/

namespace Midsm

open Midsm.Lib

/-- What `select` finds and what `recvfrom` then reads: for each socket that is ready a
datagram, or an error. -/
abbrev Sockets : Type := Nat → Option (Option Mimsg)

/-- The ready sockets in the order of the loop. -/
def readySockets (sockets : Sockets) : List (Nat × Option Mimsg) :=
  (List.range maxHostNum).filterMap fun i => (sockets i).map fun datagram => (i, datagram)

/-- The datagrams that are read, in order. The socket of the host itself is left out. -/
def received (me : Nat) (ready : List (Nat × Option Mimsg)) : List Mimsg :=
  ready.filterMap fun socket => if socket.1 = me then none else socket.2

/-- The states between the runs of `sigio_handler`. What else a host does changes nothing
in its receive queue. -/
inductive SigioRun (me : Nat) : Net → Prop
  | init : SigioRun me initnet
  | sigio {s : Net} (sockets : Sockets) : SigioRun me s →
      SigioRun me (sigioHandler me (readySockets sockets) s).1
  | other {s s' : Net} : SigioRun me s → s'.recvQueue = s.recvQueue → SigioRun me s'

/-- What one run of `sigio_handler` does. `before` are the sockets that are read before
socket `i`, and `msg` is what `recvfrom` writes to the slot. -/
structure Dispatches (me : Nat) (ready : List (Nat × Option Mimsg)) (s : Net) : Prop where
  start : s.recvQueue.size = 0
  room : ∀ before i datagram after, ready = before ++ (i, datagram) :: after → i ≠ me →
    ∃ slot s', nextFreeMsgInQueue 1 (receiveAll me before s).1 = (some slot, s') ∧
      ∀ msg, (msgEnqueue 1 (s'.setRecv (s'.recvQueue.setSlot slot msg))).1 = 0
  acknowledged : (sigioHandler me ready s).2.1 =
    (received me ready).map fun msg => (msg.fromHost, msg.seqno)
  dispatched : (sigioHandler me ready s).2.2 = received me ready
  done : (sigioHandler me ready s).1.recvQueue.size = 0

/-- The messages that wait, oldest first. -/
def Queue.contents (q : Queue) : List Mimsg :=
  (indices maxQueueSize q.head q.size).map q.slots

abbrev Queue.Regular (q : Queue) : Prop := Layout maxQueueSize q.head q.tail q.size

section

variable {me i k : Nat} {q : Queue} {s : Net} {msg : Mimsg} {datagram : Option Mimsg}
  {ready before after : List (Nat × Option Mimsg)}

/-! ## The ring -/

theorem Queue.length_contents : q.contents.length = q.size := by
  rw [contents, List.length_map, length_indices]

/-- A message is built in a slot that no waiting message has. -/
theorem Queue.Regular.contents_setSlot (h : q.Regular) (hlt : q.size < maxQueueSize) :
    (q.setSlot q.tail msg).contents = q.contents := by
  refine List.map_congr_left fun j hj => upd_ne ?_
  rintro rfl
  exact h.tail_not_mem hlt hj

theorem Queue.Regular.contents_enqueue (h : q.Regular) (hlt : q.size < maxQueueSize) :
    q.enqueue.1 = 0 ∧ q.enqueue.2.Regular ∧
      q.enqueue.2.contents = q.contents ++ [q.slots q.tail] := by
  rw [Queue.enqueue, if_neg (Nat.ne_of_lt hlt)]
  refine ⟨rfl, h.push hlt, ?_⟩
  rw [contents, contents]
  dsimp only
  rw [h.indices_push, List.map_append]
  rfl

theorem Queue.Regular.contents_dequeue (h : q.Regular) (hk : q.size = k + 1) :
    q.dequeue.2.Regular ∧ q.dequeue.2.size = k ∧
      (q.top.map q.slots).toList ++ q.dequeue.2.contents = q.contents := by
  have hne : ¬ q.size = 0 := by omega
  rw [Queue.dequeue, if_neg hne, Queue.top, if_neg hne]
  unfold Queue.Regular at h
  rw [hk] at h
  dsimp only
  refine ⟨?_, by omega, ?_⟩
  · rw [Queue.Regular, hk]
    exact h.pop
  · rw [contents, contents, hk, h.indices_pop]
    rfl

/-! ## Reading the sockets -/

theorem nextFree_recv (hlt : s.recvQueue.size < maxQueueSize) :
    nextFreeMsgInQueue 1 s = (some s.recvQueue.tail,
      s.setRecv (s.recvQueue.setSlot s.recvQueue.tail blankMsg)) := by
  have hfree : s.recvQueue.nextFree =
      (some s.recvQueue.tail, s.recvQueue.setSlot s.recvQueue.tail blankMsg) :=
    if_neg (Nat.ne_of_lt hlt)
  rw [nextFreeMsgInQueue, if_neg (by decide), if_neg (by decide), hfree]

/-- One socket, with room in the ring. -/
theorem receiveFrom_room (h : s.recvQueue.Regular) (hlt : s.recvQueue.size < maxQueueSize)
    (i : Nat) (datagram : Option Mimsg) :
    ∃ s', receiveFrom i datagram s =
        (s', datagram.map fun msg => (msg.fromHost, msg.seqno)) ∧
      s'.recvQueue.Regular ∧
      s'.recvQueue.contents = s.recvQueue.contents ++ datagram.toList := by
  rw [receiveFrom, nextFree_recv hlt]
  dsimp only
  cases datagram with
  | none =>
      refine ⟨_, rfl, h, ?_⟩
      rw [Option.toList_none, List.append_nil]
      exact h.contents_setSlot hlt
  | some msg =>
      have hset : (s.recvQueue.setSlot s.recvQueue.tail blankMsg).setSlot s.recvQueue.tail msg =
          s.recvQueue.setSlot s.recvQueue.tail msg := by
        simp [Queue.setSlot, upd_upd]
      obtain ⟨-, hreg, hcont⟩ :=
        Queue.Regular.contents_enqueue (q := s.recvQueue.setSlot s.recvQueue.tail msg) h hlt
      refine ⟨_, rfl, ?_, ?_⟩
      · simp only [msgEnqueue, Net.setRecv, hset]
        exact hreg
      · simp only [msgEnqueue, Net.setRecv, hset]
        refine hcont.trans ?_
        rw [h.contents_setSlot hlt]
        congr 1
        exact congrArg (fun msg => [msg]) (upd_self _ _ _)

theorem received_cons (socket : Nat × Option Mimsg) (ready : List (Nat × Option Mimsg)) :
    received me (socket :: ready) = received me [socket] ++ received me ready := by
  rw [received, ← List.singleton_append, List.filterMap_append]
  rfl

theorem received_ne (h : i ≠ me) : received me [(i, datagram)] = datagram.toList := by
  rw [received, List.filterMap_cons]
  dsimp only
  rw [if_neg h]
  cases datagram <;> rfl

theorem received_self : received me [(me, datagram)] = [] := by
  rw [received, List.filterMap_cons]
  dsimp only
  rw [if_pos rfl]
  rfl

theorem length_received (me : Nat) (ready : List (Nat × Option Mimsg)) :
    (received me ready).length ≤ ready.length := List.length_filterMap_le _ _

/-- The sockets one after the other: as long as there are not more of them than free
places, every datagram is stored and acknowledged. -/
theorem receiveAll_room (me : Nat) (h : s.recvQueue.Regular)
    (hroom : s.recvQueue.size + ready.length ≤ maxQueueSize) :
    ∃ s', receiveAll me ready s =
        (s', (received me ready).map fun msg => (msg.fromHost, msg.seqno)) ∧
      s'.recvQueue.Regular ∧
      s'.recvQueue.contents = s.recvQueue.contents ++ received me ready := by
  induction ready generalizing s with
  | nil => exact ⟨s, rfl, h, (List.append_nil _).symm⟩
  | cons socket ready ih =>
      obtain ⟨i, datagram⟩ := socket
      rw [List.length_cons] at hroom
      rw [receiveAll, received_cons]
      by_cases hi : i = me
      · subst hi
        rw [if_pos rfl, received_self]
        exact ih h (by omega)
      · obtain ⟨s₁, hread, hreg, hcont⟩ := receiveFrom_room h (by omega) i datagram
        have hsize : s₁.recvQueue.size ≤ s.recvQueue.size + 1 := by
          have hlen := congrArg List.length hcont
          rw [List.length_append, Queue.length_contents, Queue.length_contents] at hlen
          have : datagram.toList.length ≤ 1 := by cases datagram <;> simp
          omega
        obtain ⟨s₂, hrest, hreg₂, hcont₂⟩ := ih hreg (by omega)
        refine ⟨s₂, ?_, hreg₂, ?_⟩
        · rw [if_neg hi, hread]
          dsimp only
          rw [hrest, received_ne hi, List.map_append]
          cases datagram <;> rfl
        · rw [hcont₂, hcont, received_ne hi, List.append_assoc]

/-! ## Emptying the ring -/

theorem dispatchAll_contents (h : s.recvQueue.Regular) (hk : s.recvQueue.size = k) :
    ∃ s', dispatchAll k s = (s', s.recvQueue.contents) ∧ s'.recvQueue.Regular ∧
      s'.recvQueue.size = 0 := by
  induction k generalizing s with
  | zero =>
      refine ⟨s, ?_, h, hk⟩
      rw [dispatchAll, Queue.contents, hk]
      rfl
  | succ k ih =>
      obtain ⟨hreg, hsize, hcont⟩ := h.contents_dequeue hk
      have hdeq : ((msgDequeue 1 s).2).recvQueue = s.recvQueue.dequeue.2 := rfl
      obtain ⟨s', hrest, hreg', hsize'⟩ :=
        ih (s := (msgDequeue 1 s).2) (by rw [hdeq]; exact hreg) (by rw [hdeq]; exact hsize)
      refine ⟨s', ?_, hreg', hsize'⟩
      rw [dispatchAll, hrest, hdeq]
      dsimp only
      rw [← hcont]
      rfl

/-! ## A run of the handler, and all of them -/

theorem sigioHandler_drains (me : Nat) (h : s.recvQueue.Regular) (h₀ : s.recvQueue.size = 0)
    (hready : ready.length ≤ maxQueueSize) :
    ∃ s', sigioHandler me ready s = (s', (received me ready).map
        (fun msg => (msg.fromHost, msg.seqno)), received me ready) ∧
      s'.recvQueue.Regular ∧ s'.recvQueue.size = 0 := by
  obtain ⟨s₁, hread, hreg, hcont⟩ := receiveAll_room me h (by omega : _ + ready.length ≤ _)
  obtain ⟨s₂, hdisp, hreg₂, hsize₂⟩ := dispatchAll_contents hreg rfl
  refine ⟨s₂, ?_, hreg₂, hsize₂⟩
  have hempty : s.recvQueue.contents = [] := by rw [Queue.contents, h₀]; rfl
  rw [sigioHandler, hread]
  dsimp only
  rw [hdisp, hcont, hempty, List.nil_append]

theorem length_readySockets (sockets : Sockets) :
    (readySockets sockets).length ≤ maxQueueSize := by
  refine (List.length_filterMap_le _ _).trans ?_
  rw [List.length_range]

theorem SigioRun.drained (h : SigioRun me s) : s.recvQueue.Regular ∧ s.recvQueue.size = 0 := by
  induction h with
  | init => exact ⟨Layout.empty (by decide), rfl⟩
  | sigio sockets _ ih =>
      obtain ⟨s', hrun, hreg, hsize⟩ :=
        sigioHandler_drains me ih.1 ih.2 (length_readySockets sockets)
      rw [hrun]
      exact ⟨hreg, hsize⟩
  | other _ he ih =>
      rw [he]
      exact ih

/-- Before each socket that is read there is a free place. -/
theorem receiveAll_before (me : Nat) (h : s.recvQueue.Regular) (h₀ : s.recvQueue.size = 0)
    (hready : ready.length ≤ maxQueueSize) (hsplit : ready = before ++ (i, datagram) :: after) :
    (receiveAll me before s).1.recvQueue.size < maxQueueSize := by
  rw [hsplit, List.length_append, List.length_cons] at hready
  obtain ⟨s₁, hread, -, hcont⟩ := receiveAll_room me h (by omega : _ + before.length ≤ _)
  have hlen := congrArg List.length hcont
  rw [List.length_append, Queue.length_contents, Queue.length_contents, h₀] at hlen
  have := length_received me before
  rw [hread]
  dsimp only
  omega

/-- **What is acknowledged is dispatched**, once, in order and before the handler ends, and
nothing else is: in every run of the handler of every sequence of runs. -/
theorem acknowledged_is_dispatched (h : SigioRun me s) (sockets : Sockets) :
    Dispatches me (readySockets sockets) s := by
  obtain ⟨hreg, h₀⟩ := h.drained
  have hready := length_readySockets sockets
  obtain ⟨s', hrun, -, hsize⟩ := sigioHandler_drains me hreg h₀ hready
  refine ⟨h₀, fun before i datagram after hsplit _ => ?_, ?_, ?_, ?_⟩
  · have hlt := receiveAll_before me hreg h₀ hready hsplit
    refine ⟨_, _, nextFree_recv hlt, fun msg => ?_⟩
    rw [msgEnqueue, if_neg (by decide), if_neg (by decide), Queue.enqueue]
    exact congrArg Prod.fst (if_neg (Nat.ne_of_lt hlt))
  · rw [hrun]
  · rw [hrun]
  · rw [hrun]
    exact hsize

end

/-- The second run of host 2, with datagrams of hosts 0 and 1. -/
theorem acknowledged_is_dispatched_two :
    Dispatches 2 (readySockets fun i => if i < 2 then some (some blankMsg) else none)
      (sigioHandler 2 (readySockets fun i => if i = 1 then some none else none) initnet).1 :=
  acknowledged_is_dispatched (.sigio _ .init) _

end Midsm
