import Midsm.Lib.Buffer
import Midsm.Lib.Decimal
import Midsm.Ref.Net
import Midsm.Ref.System

/-!
# Messages as bytes

What the functions that send put into a message, byte by byte, and what the handlers
read out of it. `Mimsg.read` is `dispatchMsg` up to where each handler has read its
message; from there on a handler is its namesake of `System`.

Two things in a message come from nowhere: `buffer` of `mi_lock` and `mi_unlock` is not
initialised, and the number is given by `sendMsg`. `Unread` is both.
-/

namespace Midsm

open Midsm.Lib

abbrev msgHeadSize : Nat := 100
abbrev maxMsgSize : Nat := 40960

/-- What no handler reads. -/
structure Unread where
  buffer : Nat → Byte
  seqno : Int

/-! ## The C library -/

/-- `isspace` -/
def isSpace (b : Byte) : Bool := b = 32 ∨ 9 ≤ b.toNat ∧ b.toNat ≤ 13

/-- `strtol(bytes, NULL, 10)` -/
def strtol (bytes : List Byte) : Int :=
  let v : Int := match bytes.dropWhile isSpace with
    | [] => 0
    | b :: rest => if b = 45 then -(scanNat rest : Int)
        else if b = 43 then scanNat rest
        else scanNat (b :: rest)
  max (-2 ^ 63) (min (2 ^ 63 - 1) v)

/-- `buffer` after `sprintf(buffer, "%d", v)`. -/
def sprintfInt (v : Int) (buffer : Nat → Byte) : Nat → Byte :=
  fun i => ((decimal v ++ [0])[i]?).getD (buffer i)

/-! ## Data as bytes -/

def timestampInts (timestamp : Timestamp) (i : Nat) : Int :=
  if h : i < maxHostNum then timestamp ⟨i, h⟩ else 0

def contentBytes (content : Content) (i : Nat) : Byte :=
  if h : i < pageSize then content ⟨i, h⟩ else 0

/-- `wnPacket_t` as `addWNIIntoPacketForHost` leaves it. -/
def packetInts (packet : WnPacket) (i : Nat) : Int :=
  if i = 0 then packet.hostid
  else if i < 1 + maxHostNum then timestampInts packet.timestamp (i - 1)
  else if i = 1 + maxHostNum then packet.wnArray.length
  else ((packet.wnArray[i - (2 + maxHostNum)]?).map Int.ofNat).getD (-1)

/-! ## Building -/

/-- `msg = nextFreeMsgInQueue(0)` with `from`, `to` and `command` set. -/
def newMsg (me dest command : Int) : Mimsg :=
  { blankMsg with fromHost := me, toHost := dest, command := command }

/-- `apendMsgData(msg, data, len);` -/
def Mimsg.append (data : Option (Nat → Byte)) (len : Nat) (msg : Mimsg) : Mimsg :=
  ((apendMsgData (some msg) data len).2).getD msg

def Mimsg.appendInt (v : Int) (msg : Mimsg) : Mimsg := msg.append (some (intByte v)) 4

def Mimsg.appendTimestamp (timestamp : Timestamp) (msg : Mimsg) : Mimsg :=
  msg.append (some (intsBytes (timestampInts timestamp))) (4 * maxHostNum)

def Mimsg.appendPacket (packet : WnPacket) (msg : Mimsg) : Mimsg :=
  msg.append (some (intsBytes (packetInts packet))) wnPacketSize

/-- `memcpy(msg->data, &packetNum, sizeof(int))` -/
def Mimsg.setCount (packetNum : Int) (msg : Mimsg) : Mimsg :=
  { msg with data := memcpyAt msg.data 0 (intByte packetNum) 4 }

/-- The messages of `mi_lock` and `mi_unlock`. -/
def lockMsg (u : Unread) (me dest command lockno : Int) : Mimsg :=
  (newMsg me dest command).append (some (sprintfInt lockno u.buffer)) 4

def packetsMsg (me dest command : Int) (timestamp : Timestamp) (packetNum : Nat)
    (packets : List WnPacket) : Mimsg :=
  let msg := { newMsg me dest command with timestamp := timestamp }.appendInt 0
  (packets.foldl (fun msg packet => msg.appendPacket packet) msg).setCount packetNum

/-- A message with its number, in the slot of its sender. -/
def Msg.build (u : Unread) (me dest : Int) (msg : Msg) : Mimsg :=
  let built := match msg with
    | .acqLock lockno => lockMsg u me dest 1 lockno
    | .rlsLock lockno => lockMsg u me dest 2 lockno
    | .grantLock lockno last => ((newMsg me dest 3).appendInt lockno).appendInt last
    | .enterBarrier => newMsg me dest 4
    | .exitBarrier => newMsg me dest 5
    | .grantWnI ts k packets => packetsMsg me dest 6 ts k packets
    | .grantDiff ts p diff =>
        (((newMsg me dest 7).appendTimestamp ts).appendInt p).append
          (some (contentBytes diff)) pageSize
    | .grantPage p page => ((newMsg me dest 8).appendInt p).append (some (contentBytes page)) pageSize
    | .fetchPage p => (newMsg me dest 9).appendInt p
    | .fetchWnI ts => (newMsg me dest 10).appendTimestamp ts
    | .fetchDiff p ts => ((newMsg me dest 11).appendInt p).appendTimestamp ts
    | .grantEnterBarrierInfo ts k packets => packetsMsg me dest 12 ts k packets
    | .grantExitBarrierInfo ts k packets => packetsMsg me dest 13 ts k packets
  { built with seqno := u.seqno }

/-! ## The two barrier encoders -/

/-- `sendEnterBarrierInfo`, or `returnAllBarrierInfo` for one client, between two packets. -/
structure ByteEncoder where
  sent : List Mimsg
  msg : Mimsg
  packetNum : Int
  firstMsgSent : Bool

/-- One packet; a message without room for another one is sent, and the slot for the count
of the next one first holds that of this one. The comparison is one of `size_t`. -/
def ByteEncoder.add (me command : Int) (next : Nat) (e : ByteEncoder) (packet : WnPacket) :
    ByteEncoder :=
  let msg := e.msg.appendPacket packet
  let packetNum := e.packetNum + 1
  if (wnPacketSize : Int) > ((msgDataSize : Int) - msg.size) % 2 ^ 64 then
    { sent := e.sent ++ [msg.setCount packetNum]
      msg := (newMsg me next command).appendInt packetNum
      packetNum := 0
      firstMsgSent := true }
  else { e with msg := msg, packetNum := packetNum }

def ByteEncoder.addInterval (me command : Int) (next : Nat) (e : ByteEncoder)
    (packets : List WnPacket) : ByteEncoder :=
  match packets with
  | [] => e
  | packet :: left => left.foldl (ByteEncoder.add me command 0) (e.add me command next packet)

def ByteEncoder.finish (e : ByteEncoder) : List Mimsg :=
  if e.packetNum ≠ 0 ∨ e.firstMsgSent = false then e.sent ++ [e.msg.setCount e.packetNum]
  else e.sent

def encodeBytes (me command : Int) (dest : Nat) (timestamp : Timestamp)
    (intervals : List (List WnPacket)) : List Mimsg :=
  let msg := { newMsg me dest command with timestamp := timestamp }.appendInt 0
  (intervals.foldl (ByteEncoder.addInterval me command dest) ⟨[], msg, 0, false⟩).finish

/-! ## Datagrams -/

def Mimsg.headerInts (msg : Mimsg) (i : Nat) : Int :=
  match i with
  | 0 => msg.fromHost
  | 1 => msg.toHost
  | 2 => msg.command
  | 3 => msg.size
  | 4 => msg.seqno
  | i + 5 => timestampInts msg.timestamp i

/-- `mimsg_t` as it stands in memory. -/
def Mimsg.struct (msg : Mimsg) (i : Nat) : Byte :=
  if i < msgHeadSize then intsBytes msg.headerInts i else msg.data (i - msgHeadSize)

/-- What `sendto` is given. -/
def Mimsg.datagram (msg : Mimsg) : List Byte :=
  (List.range (msg.size + msgHeadSize)).map msg.struct

def readTimestamp (data : Nat → Byte) (off : Nat) : Timestamp :=
  fun i => readInt data (off + 4 * i.val)

/-- `recvfrom(fd, msg, sizeof(mimsg_t), …)` into a slot from `nextFreeMsgInQueue(1)`. -/
def receiveDatagram (datagram : List Byte) : Mimsg :=
  let slot := fun i => ((datagram.take maxMsgSize)[i]?).getD (blankMsg.struct i)
  { fromHost := readInt slot 0
    toHost := readInt slot 4
    command := readInt slot 8
    size := (readInt slot 12).toNat
    seqno := readInt slot 16
    timestamp := readTimestamp slot 20
    data := fun i => slot (msgHeadSize + i) }

/-! ## Reading -/

/-- An `int` that is used as an index. -/
def readIndex (data : Nat → Byte) (off : Nat) : Option Nat :=
  if readInt data off < 0 then none else some (readInt data off).toNat

def readContent (data : Nat → Byte) (off : Nat) : Content := fun i => data (off + i.val)

/-- `incorporateWnPacket` reading its packet. -/
def readPacket (data : Nat → Byte) (off : Nat) : Option WnPacket :=
  match readIndex data off, (List.range (readInt data (off + 84)).toNat).mapM fun i =>
      readIndex data (off + 88 + 4 * i) with
  | some hostid, some wnArray => some ⟨hostid, readTimestamp data (off + 4), wnArray⟩
  | _, _ => none

/-- `packetNum` and the packets of a message. -/
def Mimsg.readPackets (msg : Mimsg) : Option (Nat × List WnPacket) :=
  let packetNum := (readInt msg.data 0).toNat
  ((List.range packetNum).mapM fun i => readPacket msg.data (4 + wnPacketSize * i)).map
    fun packets => (packetNum, packets)

/-- `strtol(msg->data, NULL, 10)`, narrowed to `int`. -/
def Mimsg.readLockno (msg : Mimsg) : Int :=
  (strtol ((List.range msgDataSize).map msg.data)).bmod (2 ^ 32)

/-- What a handler reads of its message; `none` is a command without a handler that does
anything, or a negative index, which the handlers refuse or follow outside their arrays. -/
def Mimsg.read (msg : Mimsg) : Option Msg :=
  match msg.command with
  | 1 => some (.acqLock msg.readLockno)
  | 2 => some (.rlsLock msg.readLockno)
  | 3 => some (.grantLock (readInt msg.data 0) (readInt msg.data 4))
  | 4 => some .enterBarrier
  | 5 => some .exitBarrier
  | 6 => msg.readPackets.map fun x => .grantWnI msg.timestamp x.1 x.2
  | 7 => (readIndex msg.data 80).map fun p =>
      .grantDiff (readTimestamp msg.data 0) p (readContent msg.data 84)
  | 8 => (readIndex msg.data 0).map fun p => .grantPage p (readContent msg.data 4)
  | 9 => (readIndex msg.data 0).map fun p => .fetchPage p
  | 10 => some (.fetchWnI (readTimestamp msg.data 0))
  | 11 => (readIndex msg.data 0).map fun p => .fetchDiff p (readTimestamp msg.data 4)
  | 12 => msg.readPackets.map fun x => .grantEnterBarrierInfo msg.timestamp x.1 x.2
  | 13 => msg.readPackets.map fun x => .grantExitBarrierInfo msg.timestamp x.1 x.2
  | _ => none

/-- `dispatchMsg` on a message in a slot. -/
def dispatchBytes (n me : Nat) (msg : Mimsg) (h : Host) : Host × Out :=
  match msg.read with
  | none => (h, [])
  | some read => dispatchMsg n me msg.fromHost.toNat read h

/-! ## The system -/

/-- The hosts, and the datagrams between them. -/
structure ByteSys where
  host : Nat → Host
  net : Nat → Nat → List (List Byte)

/-- What a function sends, as datagrams for host `b`; `u` is for the `k`-th message. -/
def byteOut (u : Nat → Unread) (a : Nat) (out : Out) (b : Nat) : List (List Byte) :=
  (out.zipIdx.filter fun x => x.1.1 = b).map fun x =>
    (x.1.2.build (u x.2) a b).datagram

def ByteSys.put (u : Nat → Unread) (s : ByteSys) (a : Nat) (r : Host × Out) : ByteSys :=
  ⟨upd s.host a r.1, upd s.net a fun b => s.net a b ++ byteOut u a r.2 b⟩

def ByteSys.pop (s : ByteSys) (a b : Nat) : ByteSys :=
  { s with net := upd s.net a (upd (s.net a) b (s.net a b).tail) }

def byteStep (n : Nat) (s : ByteSys) (e : Event × (Nat → Unread)) : Option ByteSys :=
  match e.1 with
  | .op h op =>
      if h < n ∧ (s.host h).hung = false then ((s.host h).exec n h op).map (s.put e.2 h)
      else none
  | .deliver a b =>
      if a < n ∧ b < n ∧ a ≠ b ∧ (s.host b).hung = false then
        match s.net a b with
        | [] => none
        | datagram :: _ =>
            some ((s.pop a b).put e.2 b (dispatchBytes n b (receiveDatagram datagram) (s.host b)))
      else none

def initByteSys : ByteSys := ⟨initSys.host, fun _ _ => []⟩

end Midsm
