import Midsm.Ref.Net

/-!
# The rings, empty and with one message

Between two calls of `sendMsg` the sending ring is empty, and between two runs
of `sigio_handler` the receiving one is. The lemmas of this file say what the
queue functions do to a ring that is empty or holds one message.
-/

namespace Midsm

def Queue.Empty (q : Queue) : Prop := q.size = 0 ∧ q.head = q.tail

/-- One message, at the head. -/
structure Queue.Single (q : Queue) (msg : Mimsg) : Prop where
  size : q.size = 1
  head : q.slots q.head = msg
  tail : q.tail = (q.head + 1) % maxQueueSize

section

variable {q : Queue} {s : Net} {msg : Mimsg}

theorem Queue.Empty.setSlot (h : q.Empty) (slot : Nat) (msg : Mimsg) :
    (q.setSlot slot msg).Empty := h

theorem Queue.Empty.ne_full (h : q.Empty) : q.size ≠ maxQueueSize := by
  rw [h.1]
  decide

theorem Queue.Empty.nextFree (h : q.Empty) :
    q.nextFree = (some q.tail, q.setSlot q.tail blankMsg) := if_neg h.ne_full

theorem Queue.Empty.enqueue (h : q.Empty) : q.enqueue =
    (0, { q with tail := (q.tail + 1) % maxQueueSize, size := q.size + 1 }) :=
  if_neg h.ne_full

/-- The slot at the tail is filled and taken in. -/
theorem Queue.Empty.single (h : q.Empty) (hm : q.slots q.tail = msg) :
    q.enqueue.2.Single msg := by
  rw [h.enqueue]
  exact ⟨by dsimp only; rw [h.1], by dsimp only; rw [h.2, hm], by dsimp only; rw [h.2]⟩

theorem Queue.Single.top (h : q.Single msg) : q.top.map q.slots = some msg := by
  rw [Queue.top, if_neg (by rw [h.size]; decide), Option.map_some, h.head]

theorem Queue.Single.dequeue (h : q.Single msg) : q.dequeue.2.Empty := by
  rw [Queue.dequeue, if_neg (by rw [h.size]; decide)]
  exact ⟨by dsimp only; rw [h.size], h.tail.symm⟩

/-! ## `sigio_handler` -/

theorem receiveFrom_single (hq : s.recvQueue.Empty) (i : Nat) (msg : Mimsg) :
    ∃ s', receiveFrom i (some msg) s = (s', some (msg.fromHost, msg.seqno)) ∧
      s'.recvQueue.Single msg := by
  have hfree : nextFreeMsgInQueue 1 s =
      (some s.recvQueue.tail, s.setRecv (s.recvQueue.setSlot s.recvQueue.tail blankMsg)) := by
    show (s.recvQueue.nextFree.1, s.setRecv s.recvQueue.nextFree.2) = _
    rw [hq.nextFree]
  unfold receiveFrom
  rw [hfree]
  refine ⟨_, rfl, ?_⟩
  exact ((hq.setSlot _ blankMsg).setSlot s.recvQueue.tail msg).single (upd_self ..)

/-- One datagram is acknowledged and dispatched. -/
theorem sigioHandler_one {src dst : Nat} (hne : src ≠ dst) (hq : s.recvQueue.Empty)
    (msg : Mimsg) :
    ∃ s', sigioHandler dst [(src, some msg)] s = (s', [(msg.fromHost, msg.seqno)], [msg]) ∧
      s'.recvQueue.Empty := by
  obtain ⟨s', hr, hs⟩ := receiveFrom_single hq src msg
  have hall : receiveAll dst [(src, some msg)] s = (s', [(msg.fromHost, msg.seqno)]) := by
    rw [receiveAll, if_neg hne, hr]
    rfl
  have htop : (queueTop 1 s').map s'.recvQueue.slots = some msg := hs.top
  unfold sigioHandler
  rw [hall]
  dsimp only
  rw [hs.size, dispatchAll, dispatchAll, htop]
  exact ⟨_, rfl, hs.dequeue⟩

theorem Queue.Empty.nextFree_snd (h : s.sndQueue.Empty) : nextFreeMsgInQueue 0 s =
    (some s.sndQueue.tail, s.assign s.sndQueue.tail fun _ => blankMsg) := by
  show (s.sndQueue.nextFree.1, s.setSnd s.sndQueue.nextFree.2) = _
  rw [h.nextFree]
  rfl

/-! ## `sendMsg` -/

/-- What `sendMsg` does to the message before it is transmitted. -/
def Net.numbered (s : Net) (msg : Mimsg) : Mimsg :=
  { msg with seqno := s.sndSeqs msg.toHost }

/-- A message in the slot at the tail is handed to `sendMsg`. -/
theorem sendMsgEnter_single {me : Int} (hq : s.sndQueue.Empty) (hs : s.isSendingMsg = false)
    (hm : s.sndQueue.slots s.sndQueue.tail = msg) (hfrom : msg.fromHost = me)
    (hto : msg.toHost ≠ -1) (hcommand : msg.command ≠ -1) :
    ∃ s', sendMsgEnter me s.sndQueue.tail s = some (false, s') ∧
      s'.sndQueue.Single (s.numbered msg) ∧ s'.sndQueue.head = s.sndQueue.tail ∧
      s'.isSendingMsg = true ∧ s'.sndSeqs = s.sndSeqs := by
  have hassign : (s.assign s.sndQueue.tail s.numbered).sndQueue.Empty := hq.setSlot ..
  have hsingle : (s.assign s.sndQueue.tail s.numbered).sndQueue.enqueue.2.Single
      (s.numbered msg) := by
    refine hassign.single ?_
    show upd _ _ _ _ = _
    rw [← hm]
    exact upd_self ..
  have hhead : (s.assign s.sndQueue.tail s.numbered).sndQueue.enqueue.2.head =
      s.sndQueue.tail := by
    rw [hassign.enqueue]
    exact hq.2
  have hflag : (msgEnqueue 0 (s.assign s.sndQueue.tail s.numbered)).2.isSendingMsg = false := hs
  unfold sendMsgEnter
  rw [hm]
  dsimp only
  rw [if_neg (by rintro (h | h | h) <;> contradiction)]
  refine ⟨_, if_neg ?_, hsingle, hhead, rfl, rfl⟩
  rw [Bool.not_eq_true]
  exact hflag

/-- The message being sent is the one in flight. -/
theorem Queue.Single.sending {s : Net} (h : s.sndQueue.Single msg) : s.sending = some msg :=
  h.top

/-- `sendMsg` with an empty ring transmits its message and nothing else. -/
theorem sendMsg_single {me : Int} (hq : s.sndQueue.Empty) (hs : s.isSendingMsg = false)
    (hm : s.sndQueue.slots s.sndQueue.tail = msg) (hfrom : msg.fromHost = me)
    (hto : msg.toHost ≠ -1) (hcommand : msg.command ≠ -1) :
    ∃ s', sendMsg me s.sndQueue.tail s = (0, s', [s.numbered msg]) ∧ s'.sndQueue.Empty ∧
      s'.isSendingMsg = false := by
  obtain ⟨s', he, hsingle, -⟩ := sendMsgEnter_single hq hs hm hfrom hto hcommand
  unfold sendMsg
  rw [he]
  dsimp only
  rw [hsingle.size, sendMsgLoop, sendMsgLoop, hsingle.sending]
  exact ⟨_, rfl, hsingle.dequeue, rfl⟩

end

end Midsm
