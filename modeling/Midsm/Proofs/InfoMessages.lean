import Midsm.Proofs.Notices

/-!
# The messages that carry packets

A message has room for nine packets. The two barrier encoders begin a new message
when one is full, so each of theirs fits and together they carry every packet once
and in order; but `returnAllBarrierInfo` addresses a message that it begins behind
a later packet of an interval to host 0, so a client gets all that is meant for it
exactly when each cut falls behind the first packet of an interval. `grantWNI`
never begins a new message, so what it grants fits exactly when there are nine
packets at most; a longer message is built behind the end of its slot.
-/

namespace Midsm

open Midsm.Lib

/-- What `apendMsgData` has put into `msg->data` of a message with packets. -/
def Msg.dataSize : Msg → Nat
  | .grantWnI _ _ packets | .grantEnterBarrierInfo _ _ packets
  | .grantExitBarrierInfo _ _ packets => 4 + wnPacketSize * packets.length
  | _ => 0

theorem nine_fit {k : Nat} : 4 + wnPacketSize * k ≤ msgDataSize ↔ k ≤ 9 := by
  simp only [wnPacketSize, msgDataSize]
  omega

/-! ## The messages of an encoder -/

/-- A message in parts: each part fits, the count of each is the number of its
packets, the first carries the timestamp and the others the blank one. -/
structure InfoMessages (mk : Timestamp → Nat → List WnPacket → Msg) (timestamp : Timestamp)
    (all : List WnPacket) (msgs : List Msg) : Prop where
  packets : msgs.flatMap Msg.packets = all
  first : ∃ packets, msgs.head? = some (mk timestamp packets.length packets)
  later : ∀ msg ∈ msgs.tail, ∃ packets, msg = mk blankTimestamp packets.length packets
  fits : ∀ msg ∈ msgs, msg.dataSize ≤ msgDataSize

theorem length_blockAt (dest : Nat) (ts : Timestamp) (all : List (WnPacket × Nat)) (k : Nat) :
    (blockAt dest ts all k).packets.length ≤ 9 := by
  dsimp only [blockAt]
  rw [length_chunk]
  exact Nat.min_le_left ..

theorem encode_messages {mk : Timestamp → Nat → List WnPacket → Msg}
    (hmk : ∀ ts packets, (mk ts packets.length packets).packets = packets)
    (hsize : ∀ ts k packets, (mk ts k packets).dataSize = 4 + wnPacketSize * packets.length)
    (dest : Nat) (timestamp : Timestamp) (intervals : List (List WnPacket)) :
    InfoMessages mk timestamp intervals.flatten
      ((encode mk dest timestamp intervals).map Prod.snd) := by
  obtain ⟨blocks, hne, he, hb⟩ := encode_blocks mk dest timestamp intervals
  have hmsgs : (encode mk dest timestamp intervals).map Prod.snd =
      blocks.map fun b => mk b.timestamp b.packets.length b.packets := by
    rw [he, List.map_map]
    rfl
  refine ⟨?_, ?_, ?_, ?_⟩
  · rw [hmsgs, List.flatMap_map, ← hb.packets]
    exact congrArg (List.flatMap · blocks) (funext fun b => hmk ..)
  · rw [hmsgs]
    cases blocks with
    | nil => exact absurd rfl hne
    | cons b bs => exact ⟨b.packets, by rw [← (hb.first b rfl).2]; rfl⟩
  · rw [hmsgs, ← List.map_tail]
    intro msg hm
    obtain ⟨b, hmem, rfl⟩ := List.mem_map.mp hm
    exact ⟨b.packets, by rw [(hb.later b hmem).2]⟩
  · rw [encode_eq, List.map_map]
    intro msg hm
    obtain ⟨k, -, rfl⟩ := List.mem_map.mp hm
    show (mk _ _ _).dataSize ≤ msgDataSize
    rw [hsize, nine_fit]
    exact length_blockAt ..

/-- An interval without packets changes nothing. -/
theorem encode_congr {mk : Timestamp → Nat → List WnPacket → Msg} {dest : Nat}
    {timestamp : Timestamp} {intervals intervals' : List (List WnPacket)}
    (h : intervals.flatMap (route dest) = intervals'.flatMap (route dest)) :
    encode mk dest timestamp intervals = encode mk dest timestamp intervals' := by
  rw [encode, encode, foldl_addInterval_eq, foldl_addInterval_eq, h]

/-! ## Where the messages go -/

/-- Whenever nine packets, or a multiple of nine, are followed by another one, the
last of them is the first packet of its interval. -/
def CutsAtFirst (intervals : List (List WnPacket)) : Prop :=
  ∀ k, 9 * (k + 1) < intervals.flatten.length →
    ∃ before packets after, intervals = before ++ packets :: after ∧ packets ≠ [] ∧
      before.flatten.length + 1 = 9 * (k + 1)

/-- A cut behind a packet sends the next message to `dest` when the packet is the
first one of its interval. -/
theorem route_dest_iff {dest : Nat} (hdest : dest ≠ 0) (intervals : List (List WnPacket))
    (i : Nat) :
    ((intervals.flatMap (route dest))[i]?).map Prod.snd = some dest ↔
      ∃ before packets after, intervals = before ++ packets :: after ∧ packets ≠ [] ∧
        before.flatten.length = i := by
  induction intervals generalizing i with
  | nil => simp
  | cons ps intervals ih =>
      have hlen : (route dest ps).length = ps.length := by
        rw [← List.length_map (f := Prod.fst), route_fst]
      rw [List.flatMap_cons]
      by_cases hi : i < ps.length
      · rw [List.getElem?_append_left (by omega)]
        have hhere : ((route dest ps)[i]?).map Prod.snd = some dest ↔ i = 0 := by
          cases ps with
          | nil => cases hi
          | cons p left =>
              cases i with
              | zero => simp [route]
              | succ i =>
                  rw [List.length_cons] at hi
                  simp [route, show i < left.length by omega, hdest.symm]
        rw [hhere]
        constructor
        · rintro rfl
          exact ⟨[], ps, intervals, rfl, List.ne_nil_of_length_pos hi, rfl⟩
        · rintro ⟨before, packets, after, he, -, rfl⟩
          cases before with
          | nil => rfl
          | cons b before =>
              obtain ⟨rfl, -⟩ := List.cons.inj he
              rw [List.flatten_cons, List.length_append] at hi
              omega
      · rw [List.getElem?_append_right (by omega), hlen, ih]
        constructor
        · rintro ⟨before, packets, after, rfl, hne, hl⟩
          refine ⟨ps :: before, packets, after, rfl, hne, ?_⟩
          rw [List.flatten_cons, List.length_append]
          omega
        · rintro ⟨before, packets, after, he, hne, rfl⟩
          cases before with
          | nil =>
              obtain ⟨rfl, -⟩ := List.cons.inj he
              exact absurd (List.length_pos_of_ne_nil hne) hi
          | cons b before =>
              obtain ⟨rfl, hrest⟩ := List.cons.inj he
              refine ⟨before, packets, after, hrest, hne, ?_⟩
              rw [List.flatten_cons, List.length_append]
              omega

theorem lt_chunkCount {k len : Nat} : k + 1 < chunkCount 9 len ↔ 9 * (k + 1) < len := by
  unfold chunkCount
  split <;> omega

/-- All messages of an encoder go to its host if and only if no cut falls behind a
later packet of an interval. -/
theorem encode_own_iff {mk : Timestamp → Nat → List WnPacket → Msg} {dest : Nat}
    (hdest : dest ≠ 0) (timestamp : Timestamp) (intervals : List (List WnPacket)) :
    (∀ x ∈ encode mk dest timestamp intervals, x.1 = dest) ↔ CutsAtFirst intervals := by
  have hat : ∀ k, 9 * (k + 1) < intervals.flatten.length →
      ((blockAt dest timestamp (intervals.flatMap (route dest)) (k + 1)).dest = dest ↔
        ∃ before packets after, intervals = before ++ packets :: after ∧ packets ≠ [] ∧
          before.flatten.length + 1 = 9 * (k + 1)) := by
    intro k hk
    have hlt : 9 * (k + 1) - 1 < (intervals.flatMap (route dest)).length := by
      rw [length_routes]
      omega
    have hroute := route_dest_iff hdest intervals (9 * (k + 1) - 1)
    rw [List.getElem?_eq_getElem hlt, Option.map_some, Option.some.injEq] at hroute
    dsimp only [blockAt]
    rw [if_neg (Nat.succ_ne_zero k), List.getElem?_eq_getElem hlt, Option.map_some,
      Option.getD_some, hroute]
    clear hroute
    constructor
    · rintro ⟨before, packets, after, he, hne, hl⟩
      exact ⟨before, packets, after, he, hne, by omega⟩
    · rintro ⟨before, packets, after, he, hne, hl⟩
      exact ⟨before, packets, after, he, hne, by omega⟩
  rw [encode_eq]
  constructor
  · intro h k hk
    refine (hat k hk).mp (h _ (List.mem_map.mpr ⟨k + 1, ?_, rfl⟩))
    exact List.mem_range.mpr (lt_chunkCount.mpr hk)
  · intro h x hx
    obtain ⟨k, hk, rfl⟩ := List.mem_map.mp hx
    have hk := List.mem_range.mp hk
    cases k with
    | zero => rfl
    | succ k =>
        have hk := lt_chunkCount.mp hk
        exact (hat k hk).mpr (h k hk)

/-! ## What a host has missed -/

/-- The intervals after a timestamp that have notices, host by host and oldest
first, each with its host. -/
def Mem.missed (n : Nat) (ts : Timestamp) (m : Mem) : List (Nat × Interval) :=
  (List.range n).flatMap fun j =>
    ((m.procArray j).reverse.filter fun interval =>
      isAfterInterval n interval.timestamp ts && !interval.notices.isEmpty).map (j, ·)

/-- The packets they split into, one list for each of them. -/
def Mem.missedSplit (n : Nat) (ts : Timestamp) (m : Mem) : List (List WnPacket) :=
  (m.missed n ts).map fun x => intervalPackets x.1 x.2

/-- An interval without notices is passed over, though it is after the timestamp. -/
theorem packetsAfter_flatMap {β : Type} {f : List WnPacket → List β} (hf : f [] = [])
    (n : Nat) (ts : Timestamp) (m : Mem) :
    ((List.range n).flatMap fun j => packetsAfter n ts j m).flatMap f =
      (m.missedSplit n ts).flatMap f := by
  have hfilter : ∀ (j : Nat) (list : List Interval),
      ((list.filter fun interval => isAfterInterval n interval.timestamp ts).map
          (intervalPackets j)).flatMap f =
        ((list.filter fun interval =>
          isAfterInterval n interval.timestamp ts && !interval.notices.isEmpty).map
            (intervalPackets j)).flatMap f := by
    intro j list
    induction list with
    | nil => rfl
    | cons interval list ih =>
        rw [List.filter_cons, List.filter_cons]
        cases isAfterInterval n interval.timestamp ts with
        | false => exact ih
        | true =>
            cases hnotices : interval.notices with
            | nil =>
                have hnone : intervalPackets j interval = [] := by
                  rw [intervalPackets, hnotices]
                  rfl
                simpa [hnone, hf] using ih
            | cons p ps => simpa using ih
  unfold Mem.missedSplit Mem.missed packetsAfter
  rw [List.flatMap_assoc, List.map_flatMap, List.flatMap_assoc]
  refine List.flatMap_congr fun j _ => ?_
  rw [hfilter, List.map_map]
  rfl

/-- A new own interval has no notices yet. -/
theorem missed_pushNow {interval : Interval} (hn : interval.notices = []) (me n : Nat)
    (ts : Timestamp) (m : Mem) : (m.pushNow me interval).missed n ts = m.missed n ts := by
  unfold Mem.missed
  refine List.flatMap_congr fun j _ => ?_
  by_cases hj : j = me
  · rw [hj, pushNow_procArray_self, List.reverse_cons, List.filter_append]
    simp [hn]
  · rw [pushNow_procArray_ne hj]

/-! ## `returnAllBarrierInfo` -/

/-- Client `i` gets what it has missed, and nobody else gets any of it. The
second field is about the messages built for `i`. -/
structure ExitInfoReaches (n : Nat) (m : Mem) (i : Nat) : Prop where
  messages : InfoMessages .grantExitBarrierInfo (cut n (-1) (barrierTimestamp n m))
    (m.missedSplit n (m.barrierTimestamps i)).flatten (outTo (returnAllBarrierInfo n m).2 i)
  own : ∀ x ∈ exitBarrierInfo n (barrierTimestamp n m)
    (m.pushNow 0 ⟨barrierTimestamp n m, [], true⟩) i, x.1 = i

/-- The information of a barrier reaches a client if and only if each message for
it is cut behind the first packet of an interval. -/
theorem barrier_info_reaches_iff (n : Nat) (m : Mem) (i : Nat) (h0 : 0 < i) (hi : i < n) :
    ExitInfoReaches n m i ↔ CutsAtFirst (m.missedSplit n (m.barrierTimestamps i)) := by
  have hencode : exitBarrierInfo n (barrierTimestamp n m)
      (m.pushNow 0 ⟨barrierTimestamp n m, [], true⟩) i =
      encode .grantExitBarrierInfo i (cut n (-1) (barrierTimestamp n m))
        (m.missedSplit n (m.barrierTimestamps i)) := by
    refine encode_congr ?_
    rw [packetsAfter_flatMap rfl, Mem.missedSplit, missed_pushNow rfl]
    rfl
  have hown : (∀ x ∈ encode .grantExitBarrierInfo i (cut n (-1) (barrierTimestamp n m))
      (m.missedSplit n (m.barrierTimestamps i)), x.1 = i) ↔
      CutsAtFirst (m.missedSplit n (m.barrierTimestamps i)) := encode_own_iff h0.ne' ..
  rw [← hown, ← hencode]
  refine ⟨fun h => h.own, fun h => ⟨?_, h⟩⟩
  rw [returnAllBarrierInfo_outTo m h0 hi, outTo_all h, hencode]
  exact encode_messages exitInfo_packets (fun _ _ _ => rfl) ..

/-- Host 0 before its first barrier, with intervals of host 1 that have these
notices, oldest first. -/
def stateAfter (notices : List (List Nat)) : Mem :=
  { initmem 0 with
    procArray := fun j =>
      if j = 1 then
        (notices.zipIdx.map fun x =>
          ⟨fun i => if i.val = 1 then (x.2 : Int) + 1 else 0, x.1, false⟩).reverse
      else (initmem 0).procArray j }

/-- Ten intervals of one packet each go out in two messages, both to client 1. -/
theorem barrier_info_reaches_iff_ten :
    let m := stateAfter ((List.range 10).map fun p => [p])
    ExitInfoReaches 2 m 1 ∧ (outTo (returnAllBarrierInfo 2 m).2 1).length = 2 := by
  intro m
  have hlen : (m.missedSplit 2 (m.barrierTimestamps 1)).flatten.length = 10 := by
    decide +kernel
  refine ⟨(barrier_info_reaches_iff 2 m 1 (by decide) (by decide)).mpr fun k hk => ?_,
    by decide +kernel⟩
  obtain rfl : k = 0 := by omega
  have hlt : 8 < (m.missedSplit 2 (m.barrierTimestamps 1)).length := by decide +kernel
  refine ⟨(m.missedSplit 2 (m.barrierTimestamps 1)).take 8,
    (m.missedSplit 2 (m.barrierTimestamps 1))[8],
    (m.missedSplit 2 (m.barrierTimestamps 1)).drop 9, ?_, ?_, by decide +kernel⟩
  · rw [List.getElem_cons_drop, List.take_append_drop]
  · have hfull : ∀ packets ∈ m.missedSplit 2 (m.barrierTimestamps 1), packets.length = 1 := by
      decide +kernel
    refine List.ne_nil_of_length_pos ?_
    rw [hfull _ (List.getElem_mem hlt)]
    exact Nat.one_pos

/-- Behind seven such intervals, one that takes three packets is cut behind its
second packet, and the third one goes to host 0. -/
theorem barrier_info_astray :
    ¬ ExitInfoReaches 2
      (stateAfter (((List.range 7).map fun p => [p]) ++ [List.range 2049])) 1 := by
  intro h
  have hall := List.all_eq_true.mpr fun x hx => decide_eq_true (h.own x hx)
  exact absurd hall (by decide +kernel)

/-! ## `grantWNI` -/

/-- Where the last notice of the `i`-th packet of a message ends in `msg->data`. -/
def WnPacket.readEnd (packet : WnPacket) (i : Nat) : Nat :=
  4 + wnPacketSize * i + 88 + 4 * packet.wnArray.length

/-- What `handleGrantWNIMsg` finds: as many packets as the message counts. Its slot has room
for `MAX_MSG_SIZE` bytes, and of a longer datagram `recvfrom` takes no more than that; so a
packet is read as it was built when its last notice still lies within `msg->data`. -/
def Msg.granted : Msg → List WnPacket
  | .grantWnI _ k packets =>
      ((packets.take k).zipIdx.filter fun x => x.1.readEnd x.2 ≤ msgDataSize).map Prod.fst
  | _ => []

/-- Nine packets are read as they were built, however full they are. -/
theorem granted_of_le_nine {ts : Timestamp} {packets : List WnPacket}
    (hlen : packets.length ≤ 9) (hfull : ∀ packet ∈ packets, packet.wnArray.length ≤ maxWnNum) :
    (Msg.grantWnI ts packets.length packets).granted = packets := by
  have hall : packets.zipIdx.filter (fun x => x.1.readEnd x.2 ≤ msgDataSize) =
      packets.zipIdx := by
    refine List.filter_eq_self.mpr fun x hx => decide_eq_true ?_
    have hi := List.snd_lt_of_mem_zipIdx hx
    have hw := hfull _ (List.fst_mem_of_mem_zipIdx hx)
    unfold WnPacket.readEnd
    simp only [wnPacketSize, msgDataSize, maxWnNum] at hw ⊢
    omega
  rw [Msg.granted, List.take_length, hall, List.zipIdx_map_fst]

/-- A granter passes on what the requester has missed. -/
structure GrantInfoReaches (n me hostid : Nat) (ts : Timestamp) (m : Mem) : Prop where
  fits : ∀ x ∈ (grantWNI n me hostid ts m).2, x.1 = hostid ∧ x.2.dataSize ≤ msgDataSize
  packets : ((grantWNI n me hostid ts m).2.flatMap fun x => x.2.granted) =
    (m.missedSplit n ts).flatten
  notices : ∀ x ∈ m.missed n ts,
    (∀ packet ∈ intervalPackets x.1 x.2, packet.Names x.1 x.2.timestamp) ∧
      (intervalPackets x.1 x.2).flatMap WnPacket.wnArray = x.2.notices

theorem grantWNI_sends {n me hostid : Nat} (hh : hostid < n) (hne : hostid ≠ me)
    (ts : Timestamp) (m : Mem) :
    (grantWNI n me hostid ts m).2 = [(hostid, .grantWnI (m.now me).timestamp
      (m.missedSplit n ts).flatten.length (m.missedSplit n ts).flatten)] := by
  have hpackets := packetsAfter_flatMap (f := id) rfl n ts m
  rw [List.flatMap_id, List.flatMap_id] at hpackets
  rw [grantWNI, if_neg (by omega), if_neg hne, hpackets]

/-- A grant fits into its message and brings all that the requester has missed if and only if
that is nine packets at most. -/
theorem grant_info_reaches_iff (n me hostid : Nat) (hh : hostid < n) (hne : hostid ≠ me)
    (ts : Timestamp) (m : Mem) :
    GrantInfoReaches n me hostid ts m ↔ (m.missedSplit n ts).flatten.length ≤ 9 := by
  have hout := grantWNI_sends hh hne ts m
  constructor
  · intro h
    have hfits := (h.fits _ (hout ▸ List.mem_singleton_self _)).2
    exact nine_fit.mp hfits
  · intro h
    refine ⟨?_, ?_, fun x _ => splitNotices_spec _ _ _ _ (Nat.le_refl _)⟩
    · rw [hout]
      intro x hx
      rw [List.mem_singleton.mp hx]
      exact ⟨rfl, nine_fit.mpr h⟩
    · rw [hout, List.flatMap_singleton]
      refine granted_of_le_nine h fun packet hm => ?_
      obtain ⟨packets, hp, hm⟩ := List.mem_flatten.mp hm
      obtain ⟨x, -, rfl⟩ := List.mem_map.mp hp
      exact splitNotices_made _ _ _ _ packet hm

/-- Of nine packets nothing is lost. -/
theorem grant_info_reaches_iff_nine :
    GrantInfoReaches 2 1 0 (fun _ => 0) (stateAfter ((List.range 9).map fun p => [p])) :=
  (grant_info_reaches_iff 2 1 0 (by decide) (by decide) _ _).mpr (by decide +kernel)

/-- Host 0 takes lock 0 ten times and stores to another page each time. The answer to host
1, which then asks for all of it, has ten packets: the tenth begins within `msg->data` and
ends 984 bytes behind it, in whatever follows the slot of the send queue. -/
theorem grant_info_cut_off :
    ∃ s, Reach (step 2) anyStep initSys s ∧
      ¬ GrantInfoReaches 2 0 1 (fun _ => 0) (s.host 0).mem := by
  obtain ⟨s, hrun, hp⟩ := exists_reach_any (step 2) initSys
    (.op 0 (.alloc (19 * 4096)) :: (List.range 10).flatMap fun k =>
      [.op 0 (.lock 0), .op 0 (.store (2 * k) 0 [1]), .op 0 (.unlock 0)])
    (fun s => (grantWNI 2 0 1 (fun _ => 0) (s.host 0).mem).2.any fun x =>
      msgDataSize < x.2.dataSize)
    (by decide +kernel)
  refine ⟨s, hrun, fun h => ?_⟩
  obtain ⟨x, hx, hsize⟩ := List.any_eq_true.mp hp
  exact absurd (h.fits x hx).2 (Nat.not_le.mpr (of_decide_eq_true hsize))

end Midsm
