import Midsm.Ref.Mem

/-!
# `net.c`

Message slots, the two rings they stand in, sending and receiving. A slot is
known by its index, since the pointer that `nextFreeMsgInQueue` returns is one
into the ring. Sockets are not modelled: what `sendto` is given is returned, in
order, and what `recvfrom` finds is an argument, `none` being an error.
-/

namespace Midsm

abbrev maxQueueSize : Nat := maxHostNum
abbrev maxRetryNum : Nat := 64

/-- `mimsg_t`; `from` and `to` are keywords here. Of `data` only the first `msgDataSize` cells are the array. -/
structure Mimsg where
  fromHost : Int
  toHost : Int
  command : Int
  size : Nat
  seqno : Int
  timestamp : Timestamp
  data : Nat → Byte

/-- A slot as `nextFreeMsgInQueue` leaves it. -/
def blankMsg : Mimsg := ⟨-1, -1, -1, 0, -1, blankTimestamp, fun _ => 0⟩

/-- The bytes that are transmitted after the header. -/
def Mimsg.bytes (msg : Mimsg) : List Byte := (List.range msg.size).map msg.data

/-- `sndQueue` or `recvQueue` with its head, tail and size. -/
structure Queue where
  slots : Nat → Mimsg
  head : Nat
  tail : Nat
  size : Nat

/-- The globals of `net.c`. -/
structure Net where
  sndQueue : Queue
  recvQueue : Queue
  sndSeqs : Int → Int
  recvSeqs : Nat → Int
  isSendingMsg : Bool

def zeroMsg : Mimsg := ⟨0, 0, 0, 0, 0, fun _ => 0, fun _ => 0⟩

def initnet : Net :=
  ⟨⟨fun _ => zeroMsg, 0, 0, 0⟩, ⟨fun _ => zeroMsg, 0, 0, 0⟩, fun _ => 0, fun _ => 0, false⟩

/-! ## The rings -/

def Queue.setSlot (slot : Nat) (msg : Mimsg) (q : Queue) : Queue :=
  { q with slots := upd q.slots slot msg }

def Net.setSnd (q : Queue) (s : Net) : Net := { s with sndQueue := q }

def Net.setRecv (q : Queue) (s : Net) : Net := { s with recvQueue := q }

def Queue.enqueue (q : Queue) : Int × Queue :=
  if q.size = maxQueueSize then (-2, q)
  else (0, { q with tail := (q.tail + 1) % maxQueueSize, size := q.size + 1 })

def Queue.nextFree (q : Queue) : Option Nat × Queue :=
  if q.size = maxQueueSize then (none, q)
  else (some q.tail, q.setSlot q.tail blankMsg)

def Queue.top (q : Queue) : Option Nat :=
  if q.size = 0 then none else some q.head

def Queue.dequeue (q : Queue) : Int × Queue :=
  if q.size = 0 then (-2, q)
  else (0, { q with head := (q.head + 1) % maxQueueSize, size := q.size - 1 })

def msgEnqueue (type : Int) (s : Net) : Int × Net :=
  if type ≠ 0 ∧ type ≠ 1 then (-1, s)
  else if type = 0 then (s.sndQueue.enqueue.1, s.setSnd s.sndQueue.enqueue.2)
  else (s.recvQueue.enqueue.1, s.setRecv s.recvQueue.enqueue.2)

def nextFreeMsgInQueue (type : Int) (s : Net) : Option Nat × Net :=
  if type ≠ 0 ∧ type ≠ 1 then (none, s)
  else if type = 0 then (s.sndQueue.nextFree.1, s.setSnd s.sndQueue.nextFree.2)
  else (s.recvQueue.nextFree.1, s.setRecv s.recvQueue.nextFree.2)

def queueTop (type : Int) (s : Net) : Option Nat :=
  if type ≠ 0 ∧ type ≠ 1 then none
  else if type = 0 then s.sndQueue.top
  else s.recvQueue.top

def msgDequeue (type : Int) (s : Net) : Int × Net :=
  if type ≠ 0 ∧ type ≠ 1 then (-1, s)
  else if type = 0 then (s.sndQueue.dequeue.1, s.setSnd s.sndQueue.dequeue.2)
  else (s.recvQueue.dequeue.1, s.setRecv s.recvQueue.dequeue.2)

/-! ## Building a message -/

/-- `memcpy(&dest[offset], src, len)`. -/
def memcpyAt (dest : Nat → Byte) (offset : Nat) (src : Nat → Byte) (len : Nat) : Nat → Byte :=
  fun i => if offset ≤ i ∧ i < offset + len then src (i - offset) else dest i

/-- The result and the message afterwards; `none` is a `NULL` pointer. -/
def apendMsgData (msg : Option Mimsg) (data : Option (Nat → Byte)) (len : Int) :
    Int × Option Mimsg :=
  match msg, data with
  | some msg, some data =>
      if len ≤ 0 then (-1, some msg)
      else if len > msgDataSize then (-2, some msg)
      else (0, some { msg with
        data := memcpyAt msg.data msg.size data len.toNat
        size := msg.size + len.toNat })
  | msg, _ => (-1, msg)

/-! ## Sending -/

/-- A statement that changes the message in a slot of `sndQueue`. -/
def Net.assign (slot : Nat) (f : Mimsg → Mimsg) (s : Net) : Net :=
  s.setSnd (s.sndQueue.setSlot slot (f (s.sndQueue.slots slot)))

/-- What comes before the loop of `sendMsg`: `none` when the message is refused,
otherwise whether the loop is left to a `sendMsg` that is running already. -/
def sendMsgEnter (me : Int) (slot : Nat) (s : Net) : Option (Bool × Net) :=
  let msg := s.sndQueue.slots slot
  if msg.fromHost ≠ me ∨ msg.toHost = -1 ∨ msg.command = -1 then none
  else
    let s := s.assign slot fun msg => { msg with seqno := s.sndSeqs msg.toHost }
    let s := (msgEnqueue 0 s).2
    if s.isSendingMsg then some (true, s) else some (false, { s with isSendingMsg := true })

/-- The message that the loop of `sendMsg` transmits. -/
def Net.sending (s : Net) : Option Mimsg := (queueTop 0 s).map s.sndQueue.slots

/-- The acknowledgement of that message; the number that is counted up is the one
for the destination of the message in `slot`. -/
def sendMsgAcked (slot : Nat) (s : Net) : Net :=
  let dest := (s.sndQueue.slots slot).toHost
  (msgDequeue 0 { s with sndSeqs := upd s.sndSeqs dest (s.sndSeqs dest + 1) }).2

/-- `k` rounds of the loop, each message being acknowledged. -/
def sendMsgLoop (slot : Nat) : Nat → Net → Net × List Mimsg
  | 0, s => (s, [])
  | k + 1, s =>
      let (s', sent) := sendMsgLoop slot k (sendMsgAcked slot s)
      (s', s.sending.toList ++ sent)

/-- `sendMsg`, each message being acknowledged: its result, and the messages it
transmits. -/
def sendMsg (me : Int) (slot : Nat) (s : Net) : Int × Net × List Mimsg :=
  match sendMsgEnter me slot s with
  | none => (-1, s, [])
  | some (true, s) => (0, s, [])
  | some (false, s) =>
      let (s, sent) := sendMsgLoop slot s.sndQueue.size s
      (0, { s with isSendingMsg := false }, sent)

/-! ## Receiving -/

/-- One socket that `select` has found ready: the acknowledgement that is sent, if
any, with the host it goes to. -/
def receiveFrom (i : Nat) (datagram : Option Mimsg) (s : Net) : Net × Option (Int × Int) :=
  match nextFreeMsgInQueue 1 s with
  | (none, s) => (s, none)
  | (some slot, s) =>
      match datagram with
      | none => (s, none)
      | some msg =>
          let s := s.setRecv (s.recvQueue.setSlot slot msg)
          let s := (msgEnqueue 1 s).2
          ({ s with recvSeqs := upd s.recvSeqs i (s.recvSeqs i + 1) },
            some (msg.fromHost, msg.seqno))

def receiveAll (me : Nat) : List (Nat × Option Mimsg) → Net → Net × List (Int × Int)
  | [], s => (s, [])
  | (i, datagram) :: rest, s =>
      if i = me then receiveAll me rest s
      else
        let (s, ack) := receiveFrom i datagram s
        let (s, acks) := receiveAll me rest s
        (s, ack.toList ++ acks)

/-- `k` rounds of the loop that empties `recvQueue`: what `dispatchMsg` is given. -/
def dispatchAll : Nat → Net → Net × List Mimsg
  | 0, s => (s, [])
  | k + 1, s =>
      let (s', msgs) := dispatchAll k (msgDequeue 1 s).2
      (s', ((queueTop 1 s).map s.recvQueue.slots).toList ++ msgs)

/-- `sigio_handler` with the ready sockets, in order: the acknowledgements it sends
and the messages it passes to `dispatchMsg`. -/
def sigioHandler (me : Nat) (ready : List (Nat × Option Mimsg)) (s : Net) :
    Net × List (Int × Int) × List Mimsg :=
  let (s, acks) := receiveAll me ready s
  let (s, msgs) := dispatchAll s.recvQueue.size s
  (s, acks, msgs)

end Midsm
