import Midsm.Proofs.Encode
import Midsm.Proofs.WireMessages

/-!
# The barrier encoders, byte by byte

The loops of `sendEnterBarrierInfo` and `returnAllBarrierInfo` append one packet after
the other and look at the room that is left. The slot for the count holds any number
until the message is sent, so a message under construction is a built one but for its
first four bytes.
-/

namespace Midsm

open Midsm.Lib

/-- A message with these packets before its count is set. -/
def openMsg (me : Int) (dest : Nat) (command : Int) (timestamp : Timestamp)
    (packets : List WnPacket) : Mimsg :=
  packets.foldl (fun msg packet => msg.appendPacket packet)
    ({ newMsg me dest command with timestamp := timestamp }.appendInt 0)

/-- The two encoders between two packets. -/
structure SameEncoder (me command : Int) (f : Nat × Msg → Mimsg) (e : Encoder)
    (b : ByteEncoder) : Prop where
  sent : b.sent = e.sent.map f
  count : e.packetNum = e.packets.length
  packetNum : b.packetNum = e.packetNum
  firstMsgSent : b.firstMsgSent = !e.sent.isEmpty
  msg : ∃ v, b.msg = (openMsg me e.dest command e.timestamp e.packets).setCount v
  room : e.packets.length < 9

section

variable {me command : Int} {mk : Timestamp → Nat → List WnPacket → Msg}
  {f : Nat × Msg → Mimsg} {e : Encoder} {b : ByteEncoder} {dest : Nat} {ts : Timestamp}

theorem Mimsg.setCount_setCount (v w : Int) (msg : Mimsg) :
    (msg.setCount v).setCount w = msg.setCount w := by
  unfold Mimsg.setCount
  dsimp only
  congr 1
  funext i
  unfold memcpyAt
  split_ifs <;> rfl

theorem Mimsg.setCount_appendPacket (v : Int) {msg : Mimsg} (h : 4 ≤ msg.size)
    (packet : WnPacket) :
    (msg.setCount v).appendPacket packet = (msg.appendPacket packet).setCount v := by
  rw [Mimsg.appendPacket_eq, Mimsg.appendPacket_eq]
  unfold Mimsg.setCount
  dsimp only
  congr 1
  funext i
  unfold memcpyAt
  split_ifs <;> first | rfl | omega

theorem openMsg_size (me : Int) (dest : Nat) (command : Int) (ts : Timestamp)
    (packets : List WnPacket) :
    (openMsg me dest command ts packets).size = 4 + wnPacketSize * packets.length := by
  obtain ⟨data, he, -⟩ := foldl_appendPacket packets
    ({ newMsg me dest command with timestamp := ts }.appendInt 0)
  unfold openMsg
  rw [he, Mimsg.appendInt_eq]
  show 0 + 4 + wnPacketSize * packets.length = _
  omega

theorem openMsg_snoc (me : Int) (dest : Nat) (command : Int) (ts : Timestamp)
    (packets : List WnPacket) (packet : WnPacket) :
    openMsg me dest command ts (packets ++ [packet]) =
      (openMsg me dest command ts packets).appendPacket packet := by
  unfold openMsg
  rw [List.foldl_append]
  rfl

/-- A new message whose slot for the count holds that of the last one. -/
theorem newMsg_appendInt (me : Int) (dest : Nat) (command : Int) (v : Int) :
    (newMsg me dest command).appendInt v =
      (openMsg me dest command blankTimestamp []).setCount v := by
  unfold openMsg
  rw [List.foldl_nil, Mimsg.appendInt_eq, Mimsg.appendInt_eq]
  unfold Mimsg.setCount newMsg
  dsimp only
  congr 1
  funext i
  show memcpyAt _ 0 _ 4 i = memcpyAt (memcpyAt _ 0 _ 4) 0 _ 4 i
  unfold memcpyAt
  split_ifs <;> rfl

theorem setCount_openMsg (v : Int) (packetNum : Nat) (packets : List WnPacket) :
    ((openMsg me dest command ts packets).setCount v).setCount packetNum =
      packetsMsg me dest command ts packetNum packets := Mimsg.setCount_setCount ..

/-- The comparison in bytes, as long as the message is not over-full. -/
theorem full_bytes_iff {k : Nat} (h : k ≤ 9) :
    ((wnPacketSize : Int) > ((msgDataSize : Int) - (4 + wnPacketSize * k : Nat)) % 2 ^ 64) ↔
      k = 9 := by
  simp only [wnPacketSize, msgDataSize]
  rw [Int.emod_eq_of_lt (by omega) (by omega)]
  omega

theorem SameEncoder.add (hf : ∀ d ts k packets,
      f (d, mk ts k packets) = packetsMsg me (d : Nat) command ts k packets)
    (h : SameEncoder me command f e b) (next : Nat) (packet : WnPacket) :
    SameEncoder me command f (e.add mk next packet) (b.add me command next packet) := by
  obtain ⟨v, hv⟩ := h.msg
  have hroom := h.room
  have hmsg : b.msg.appendPacket packet =
      (openMsg me e.dest command e.timestamp (e.packets ++ [packet])).setCount v := by
    rw [hv, Mimsg.setCount_appendPacket v (by rw [openMsg_size]; omega), openMsg_snoc]
  have hsize : (b.msg.appendPacket packet).size =
      4 + wnPacketSize * (e.packets ++ [packet]).length := by
    rw [hmsg]
    exact openMsg_size ..
  have hlen : (e.packets ++ [packet]).length = e.packets.length + 1 := by
    rw [List.length_append, List.length_singleton]
  have hnum : b.packetNum + 1 = ((e.packetNum + 1 : Nat) : Int) := by
    rw [h.packetNum]
    rfl
  unfold Encoder.add ByteEncoder.add
  dsimp only
  rw [hsize, hnum]
  by_cases hfull : (e.packets ++ [packet]).length = 9
  · rw [if_pos ((full_iff _).mpr hfull), if_pos ((full_bytes_iff hfull.le).mpr hfull)]
    refine ⟨?_, rfl, rfl, ?_, ⟨_, newMsg_appendInt ..⟩, Nat.succ_pos 8⟩
    · dsimp only
      rw [h.sent, List.map_append, List.map_singleton, hf, hmsg, setCount_openMsg]
    · simp
  · rw [if_neg fun hc => hfull ((full_iff _).mp hc),
      if_neg fun hc => hfull ((full_bytes_iff (by omega)).mp hc)]
    refine ⟨h.sent, ?_, rfl, h.firstMsgSent, ⟨v, hmsg⟩, by dsimp only; omega⟩
    dsimp only
    rw [hlen, h.count]

theorem SameEncoder.addAll (hf : ∀ d ts k packets,
      f (d, mk ts k packets) = packetsMsg me (d : Nat) command ts k packets)
    (next : Nat) (packets : List WnPacket) (h : SameEncoder me command f e b) :
    SameEncoder me command f (packets.foldl (Encoder.add mk next) e)
      (packets.foldl (ByteEncoder.add me command next) b) := by
  induction packets generalizing e b with
  | nil => exact h
  | cons packet packets ih =>
      rw [List.foldl_cons, List.foldl_cons]
      exact ih (h.add hf next packet)

theorem SameEncoder.addInterval (hf : ∀ d ts k packets,
      f (d, mk ts k packets) = packetsMsg me (d : Nat) command ts k packets)
    (h : SameEncoder me command f e b) (next : Nat) (packets : List WnPacket) :
    SameEncoder me command f (e.addInterval mk next packets)
      (b.addInterval me command next packets) := by
  cases packets with
  | nil => exact h
  | cons packet left => exact (h.add hf next packet).addAll hf 0 left

theorem SameEncoder.foldl (hf : ∀ d ts k packets,
      f (d, mk ts k packets) = packetsMsg me (d : Nat) command ts k packets)
    (next : Nat) (intervals : List (List WnPacket)) (h : SameEncoder me command f e b) :
    SameEncoder me command f (intervals.foldl (Encoder.addInterval mk next) e)
      (intervals.foldl (ByteEncoder.addInterval me command next) b) := by
  induction intervals generalizing e b with
  | nil => exact h
  | cons packets intervals ih => exact ih (h.addInterval hf next packets)

theorem SameEncoder.finish (hf : ∀ d ts k packets,
      f (d, mk ts k packets) = packetsMsg me (d : Nat) command ts k packets)
    (h : SameEncoder me command f e b) : b.finish = (e.finish mk).map f := by
  obtain ⟨v, hv⟩ := h.msg
  have hcond : (b.packetNum ≠ 0 ∨ b.firstMsgSent = false) ↔
      (e.packetNum ≠ 0 ∨ e.sent.isEmpty = true) := by
    rw [h.packetNum, h.firstMsgSent]
    simp
  unfold ByteEncoder.finish Encoder.finish
  by_cases hc : e.packetNum ≠ 0 ∨ e.sent.isEmpty = true
  · rw [if_pos (hcond.mpr hc), if_pos hc, List.map_append, List.map_singleton, hf, h.sent, hv,
      h.packetNum, setCount_openMsg]
  · rw [if_neg fun hb => hc (hcond.mp hb), if_neg hc, h.sent]

/-- The loops build the messages of the encoder. -/
theorem encodeBytes_eq (hf : ∀ d ts k packets,
      f (d, mk ts k packets) = packetsMsg me (d : Nat) command ts k packets)
    (dest : Nat) (ts : Timestamp) (intervals : List (List WnPacket)) :
    encodeBytes me command dest ts intervals = (encode mk dest ts intervals).map f := by
  refine SameEncoder.finish hf (SameEncoder.foldl hf dest intervals ?_)
  refine ⟨rfl, rfl, rfl, rfl, ⟨0, ?_⟩, Nat.succ_pos 8⟩
  show _ = ((openMsg me dest command ts []).setCount 0)
  unfold openMsg
  rw [List.foldl_nil, Mimsg.appendInt_eq]
  unfold Mimsg.setCount
  dsimp only
  congr 1
  funext i
  show memcpyAt _ 0 _ 4 i = memcpyAt (memcpyAt _ 0 _ 4) 0 _ 4 i
  unfold memcpyAt
  split_ifs <;> rfl

/-- **The loops over the packets of a barrier build the messages that are sent**, each with
its own count, for any intervals. -/
theorem barrier_loops_build (buffer : Nat → Byte) (me : Int) (dest : Nat) (ts : Timestamp)
    (intervals : List (List WnPacket)) :
    encodeBytes me 12 dest ts intervals = (encode .grantEnterBarrierInfo dest ts intervals).map
        (fun x => x.2.build ⟨buffer, -1⟩ me x.1) ∧
      encodeBytes me 13 dest ts intervals = (encode .grantExitBarrierInfo dest ts intervals).map
        (fun x => x.2.build ⟨buffer, -1⟩ me x.1) := by
  have hseq : ∀ {command ts k packets} (d : Nat),
      { packetsMsg me d command ts k packets with seqno := -1 } =
        packetsMsg me d command ts k packets := by
    intro command ts k packets d
    obtain ⟨data, he, -⟩ := packetsMsg_eq me d command ts k packets
    rw [he]
    rfl
  exact ⟨encodeBytes_eq (fun d _ _ _ => hseq d) dest ts intervals,
    encodeBytes_eq (fun d _ _ _ => hseq d) dest ts intervals⟩

end

end Midsm
