import Midsm.Ref.Wire

/-!
# What is sent is what is read

A message is built by appending its fields and read by looking them up at fixed places.
Each field has a lemma that says where it stands and that later fields leave it alone,
and a message is put together from these. A message is read back if its numbers are
those of an `int` and it fits into its buffer.
-/

namespace Midsm

open Midsm.Lib

/-! ## What fits -/

def Timestamp.Fits (timestamp : Timestamp) : Prop := ∀ i, IsInt (timestamp i)

structure WnPacket.Fits (packet : WnPacket) : Prop where
  hostid : IsInt packet.hostid
  timestamp : packet.timestamp.Fits
  wnCount : packet.wnArray.length ≤ maxWnNum
  wnArray : ∀ p ∈ packet.wnArray, IsInt p

structure PacketsFit (timestamp : Timestamp) (packetNum : Nat) (packets : List WnPacket) :
    Prop where
  timestamp : timestamp.Fits
  packetNum : packetNum = packets.length
  room : 4 + wnPacketSize * packets.length ≤ msgDataSize
  packets : ∀ packet ∈ packets, packet.Fits

/-- Of the text of a lock number there are four bytes. -/
def Msg.Fits : Msg → Prop
  | .acqLock lockno | .rlsLock lockno => -1000 < lockno ∧ lockno < 10000
  | .grantLock lockno last => IsInt lockno ∧ IsInt last
  | .enterBarrier | .exitBarrier => True
  | .grantWnI ts k packets | .grantEnterBarrierInfo ts k packets
  | .grantExitBarrierInfo ts k packets => PacketsFit ts k packets
  | .grantDiff ts p _ | .fetchDiff p ts => ts.Fits ∧ IsInt p
  | .grantPage p _ | .fetchPage p => IsInt p
  | .fetchWnI ts => ts.Fits

/-- A message of `k` bytes so far: what is behind them is zero. -/
structure Mimsg.Blank (k : Nat) (msg : Mimsg) : Prop where
  size : msg.size = k
  zero : ∀ i, k ≤ i → msg.data i = 0

section

variable {b b' d src : Nat → Byte} {off off' len i k : Nat} {v : Int} {msg : Mimsg}
  {ts : Timestamp} {packet : WnPacket} {packets : List WnPacket}

/-! ## Fields of a buffer -/

theorem memcpyAt_at (h : k < len) : memcpyAt d off src len (off + k) = src k := by
  unfold memcpyAt
  rw [if_pos ⟨by omega, by omega⟩, Nat.add_sub_cancel_left]

theorem memcpyAt_before (h : i < off) : memcpyAt d off src len i = d i :=
  if_neg fun hc => by omega

theorem memcpyAt_behind (h : off + len ≤ i) : memcpyAt d off src len i = d i :=
  if_neg fun hc => by omega

theorem readInt_congr (h : ∀ k < 4, b (off + k) = b' (off + k)) :
    readInt b off = readInt b' off := by
  rw [readInt, readInt, readWord_congr h]

theorem readInt_memcpyAt (hv : IsInt v) : readInt (memcpyAt d off (intByte v) 4) off = v :=
  readInt_of (fun _ hk => memcpyAt_at hk) hv

theorem readInt_memcpyAt_before (h : off + 4 ≤ off') :
    readInt (memcpyAt d off' src len) off = readInt d off :=
  readInt_congr fun _ _ => memcpyAt_before (by omega)

theorem timestampInts_val (i : Fin maxHostNum) : timestampInts ts i.val = ts i :=
  dif_pos i.isLt

/-- A timestamp among the numbers of an array. -/
theorem readTimestamp_of {f : Nat → Int} (count first : Nat)
    (h : ∀ k < 4 * count, b (off + k) = intsBytes f k) (hc : first + maxHostNum ≤ count)
    (hf : ∀ i : Fin maxHostNum, f (first + i.val) = ts i) (hts : ts.Fits) :
    readTimestamp b (off + 4 * first) = ts := by
  funext i
  have hi := i.isLt
  unfold readTimestamp
  rw [Nat.add_assoc, ← Nat.mul_add, readInt_ints h (by omega) (by rw [hf]; exact hts i), hf]

theorem readTimestamp_memcpyAt (hts : ts.Fits) :
    readTimestamp (memcpyAt d off (intsBytes (timestampInts ts)) (4 * maxHostNum)) off = ts := by
  have h := readTimestamp_of (b := memcpyAt d off (intsBytes (timestampInts ts)) (4 * maxHostNum))
    maxHostNum 0 (fun k hk => memcpyAt_at hk) (Nat.zero_add _).le
    (fun i => by rw [Nat.zero_add, timestampInts_val]) hts
  exact h

theorem readTimestamp_memcpyAt_before (h : off + 4 * maxHostNum ≤ off') :
    readTimestamp (memcpyAt d off' src len) off = readTimestamp d off := by
  funext i
  have hi := i.isLt
  exact readInt_memcpyAt_before (by omega)

theorem readContent_memcpyAt (c : Content) :
    readContent (memcpyAt d off (contentBytes c) pageSize) off = c := by
  funext i
  unfold readContent
  rw [memcpyAt_at i.isLt]
  exact dif_pos i.isLt

theorem readIndex_of {p : Nat} (h : readInt b off = p) : readIndex b off = some p := by
  unfold readIndex
  rw [h, if_neg (by omega), Int.toNat_natCast]

/-! ## One call of `apendMsgData` -/

theorem Mimsg.append_eq (src : Nat → Byte) (h : 0 < len) (h' : len ≤ msgDataSize)
    (msg : Mimsg) : msg.append (some src) len =
      { msg with data := memcpyAt msg.data msg.size src len, size := msg.size + len } := by
  unfold Mimsg.append apendMsgData
  dsimp only
  rw [if_neg (by omega), if_neg (by omega), Int.toNat_natCast]
  rfl

theorem Mimsg.appendInt_eq (v : Int) (msg : Mimsg) : msg.appendInt v =
    { msg with data := memcpyAt msg.data msg.size (intByte v) 4, size := msg.size + 4 } :=
  Mimsg.append_eq _ (by decide) (by decide) msg

theorem Mimsg.appendTimestamp_eq (ts : Timestamp) (msg : Mimsg) : msg.appendTimestamp ts =
    { msg with
      data := memcpyAt msg.data msg.size (intsBytes (timestampInts ts)) (4 * maxHostNum)
      size := msg.size + 4 * maxHostNum } :=
  Mimsg.append_eq _ (by decide) (by decide) msg

theorem Mimsg.appendPacket_eq (packet : WnPacket) (msg : Mimsg) : msg.appendPacket packet =
    { msg with
      data := memcpyAt msg.data msg.size (intsBytes (packetInts packet)) wnPacketSize
      size := msg.size + wnPacketSize } :=
  Mimsg.append_eq _ (by decide) (by decide) msg

/-! ## Lock numbers -/

theorem isSpace_digit {c : Byte} (h : isDigit c = true) :
    isSpace c = false ∧ c ≠ 45 ∧ c ≠ 43 := by
  unfold isDigit at h
  have hc := of_decide_eq_true h
  refine ⟨decide_eq_false fun hs => ?_, ?_, ?_⟩
  · rcases hs with rfl | ⟨-, hs⟩
    · exact absurd hc.1 (by decide)
    · omega
  · rintro rfl
    exact absurd hc.1 (by decide)
  · rintro rfl
    exact absurd hc.1 (by decide)

theorem decimalNat_head (v : Nat) : ∃ c rest, decimalNat v = c :: rest ∧ isDigit c = true := by
  have hd := decimalNat_isDigit v
  cases hv : decimalNat v with
  | nil =>
      unfold decimalNat at hv
      split at hv
      · cases hv
      · next hne =>
          rw [List.reverse_eq_nil_iff, List.map_eq_nil_iff, Nat.digits_eq_nil_iff_eq_zero] at hv
          exact absurd hv hne
  | cons c rest => exact ⟨c, rest, rfl, hd c (hv ▸ List.mem_cons_self)⟩

theorem strtol_decimal {rest : List Byte} (hv : -2 ^ 63 ≤ v ∧ v < 2 ^ 63)
    (hr : ∀ c ∈ rest.head?, isDigit c = false) : strtol (decimal v ++ rest) = v := by
  obtain ⟨c, cs, hcs, hc⟩ := decimalNat_head v.natAbs
  obtain ⟨hspace, hminus, hplus⟩ := isSpace_digit hc
  have hscan := scanNat_decimalNat v.natAbs hr
  rw [hcs] at hscan
  unfold strtol decimal
  rw [hcs]
  by_cases hneg : v < 0
  · rw [if_pos hneg, List.cons_append, List.dropWhile_cons_of_neg (by decide)]
    dsimp only
    rw [if_pos rfl, hscan]
    omega
  · rw [if_neg hneg, List.cons_append, List.dropWhile_cons_of_neg (by rw [hspace]; decide)]
    dsimp only
    rw [if_neg hminus, if_neg hplus, ← List.cons_append, hscan]
    omega

theorem length_decimal (hv : -1000 < v ∧ v < 10000) : (decimal v).length ≤ 4 := by
  unfold decimal
  split
  · exact Nat.succ_le_succ (length_decimalNat (d := 3) (by omega) (by decide))
  · exact length_decimalNat (by omega) (by decide)

/-- The text of a number that has four bytes at most, in an array of zeros. -/
theorem readLockno_lockMsg (u : Unread) (me dest command : Int)
    (hrange : -1000 < v ∧ v < 10000) : (lockMsg u me dest command v).readLockno = v := by
  have hv := length_decimal hrange
  have hi : IsInt v := ⟨by omega, by omega⟩
  have hdata : ∀ i, (lockMsg u me dest command v).data i =
      if i < 4 then sprintfInt v u.buffer i else 0 := by
    intro i
    unfold lockMsg
    rw [Mimsg.append_eq _ (by decide) (by decide)]
    by_cases hi : i < 4
    · rw [if_pos hi]
      exact (congrArg _ (Nat.zero_add i)).symm.trans (memcpyAt_at hi)
    · rw [if_neg hi]
      exact memcpyAt_behind (by show 0 + 4 ≤ i; omega)
  generalize lockMsg u me dest command v = msg at hdata
  have htext : ∀ i (hi : i < (decimal v).length), msg.data i = (decimal v)[i] := fun i hi => by
    rw [hdata, if_pos (by omega)]
    unfold sprintfInt
    rw [List.getElem?_append_left hi, List.getElem?_eq_getElem hi]
    rfl
  have hend : msg.data (decimal v).length = 0 := by
    rw [hdata]
    by_cases hlen : (decimal v).length < 4
    · rw [if_pos hlen]
      unfold sprintfInt
      rw [List.getElem?_concat_length]
      rfl
    · rw [if_neg hlen]
  generalize hbytes : (List.range msgDataSize).map msg.data = bytes
  have hlength : bytes.length = msgDataSize := by
    rw [← hbytes, List.length_map, List.length_range]
  have hget : ∀ i, i < msgDataSize → bytes[i]? = some (msg.data i) := fun i hi => by
    rw [← hbytes, List.getElem?_map, List.getElem?_range hi]
    rfl
  have htake : bytes.take (decimal v).length = decimal v := by
    refine List.ext_getElem? fun i => ?_
    by_cases hi : i < (decimal v).length
    · rw [List.getElem?_take_of_lt hi, hget i (by simp only [msgDataSize]; omega),
        htext i hi, List.getElem?_eq_getElem hi]
    · rw [List.getElem?_eq_none (by rw [List.length_take]; omega),
        List.getElem?_eq_none (by omega)]
  have hdrop : ∀ c ∈ (bytes.drop (decimal v).length).head?, isDigit c = false := by
    intro c hc
    rw [List.head?_drop, hget _ (by simp only [msgDataSize]; omega), hend] at hc
    cases hc
    decide
  unfold Mimsg.readLockno
  rw [hbytes, ← List.take_append_drop (decimal v).length bytes, htake,
    strtol_decimal ⟨by have := hi.1; omega, by have := hi.2; omega⟩ hdrop, hi.bmod]

/-! ## Packets -/

theorem mapM_range {α : Type} (l : List α) {f : Nat → Option α}
    (h : ∀ i (hi : i < l.length), f i = some l[i]) : (List.range l.length).mapM f = some l := by
  induction l using List.reverseRecOn with
  | nil => rfl
  | append_singleton l a ih =>
      have hlast := h l.length (by simp)
      have hl : (List.range l.length).mapM f = some l := ih fun i hi => by
        rw [h i (by simp; omega), List.getElem_append_left hi]
      rw [List.length_append, List.length_singleton, List.range_succ, List.mapM_append, hl]
      simp [hlast]

theorem packetInts_isInt (hp : packet.Fits) (i : Nat) : IsInt (packetInts packet i) := by
  unfold packetInts
  split_ifs with h0 h1 h2
  · exact hp.hostid
  · unfold timestampInts
    split_ifs
    · exact hp.timestamp _
    · decide
  · have := hp.wnCount
    constructor <;> simp only [maxWnNum] at this <;> omega
  · cases hg : packet.wnArray[i - (2 + maxHostNum)]? with
    | none => decide
    | some p => exact hp.wnArray p (List.mem_of_getElem? hg)

/-- A packet is read where its bytes stand. -/
theorem readPacket_of (hp : packet.Fits)
    (h : ∀ k < wnPacketSize, b (off + k) = intsBytes (packetInts packet) k) :
    readPacket b off = some packet := by
  have hint : ∀ i < 1046, readInt b (off + 4 * i) = packetInts packet i := fun i hi =>
    readInt_ints (c := 1046) h hi (packetInts_isInt hp i)
  have hcount := hp.wnCount
  have hhost : readIndex b off = some packet.hostid :=
    readIndex_of (hint 0 (by decide))
  have hnum : readInt b (off + 84) = packet.wnArray.length := hint 21 (by decide)
  have hts : readTimestamp b (off + 4) = packet.timestamp := by
    refine readTimestamp_of 1046 1 h (by decide) (fun i => ?_) hp.timestamp
    have hi := i.isLt
    unfold packetInts
    rw [if_neg (by omega), if_pos (by omega), Nat.add_sub_cancel_left, timestampInts_val]
  have hwns : (List.range packet.wnArray.length).mapM (fun i => readIndex b (off + 88 + 4 * i)) =
      some packet.wnArray := by
    refine mapM_range packet.wnArray fun i hi => readIndex_of ?_
    simp only [maxWnNum] at hcount
    have := hint (22 + i) (by omega)
    rw [Nat.mul_add, ← Nat.add_assoc] at this
    rw [this]
    unfold packetInts
    simp only [maxHostNum]
    rw [if_neg (by omega), if_neg (by omega), if_neg (by omega),
      show 22 + i - (2 + 20) = i by omega, List.getElem?_eq_getElem hi]
    rfl
  unfold readPacket
  rw [hhost, hnum, Int.toNat_natCast, hwns, hts]

theorem foldl_appendPacket (packets : List WnPacket) (msg : Mimsg) :
    ∃ data, packets.foldl (fun msg packet => msg.appendPacket packet) msg =
        { msg with data := data, size := msg.size + wnPacketSize * packets.length } ∧
      (∀ i, i < msg.size ∨ msg.size + wnPacketSize * packets.length ≤ i → data i = msg.data i) ∧
      ∀ i (hi : i < packets.length), ∀ k < wnPacketSize,
        data (msg.size + wnPacketSize * i + k) = intsBytes (packetInts packets[i]) k := by
  induction packets using List.reverseRecOn with
  | nil => exact ⟨msg.data, rfl, fun _ _ => rfl, fun i hi => absurd hi (Nat.not_lt_zero i)⟩
  | append_singleton packets packet ih =>
      obtain ⟨data, he, hout, hin⟩ := ih
      refine ⟨memcpyAt data (msg.size + wnPacketSize * packets.length)
        (intsBytes (packetInts packet)) wnPacketSize, ?_, ?_, ?_⟩
      · rw [List.foldl_append, he, List.foldl_cons, List.foldl_nil, Mimsg.appendPacket_eq,
          List.length_append, List.length_singleton, Nat.mul_add, Nat.mul_one, Nat.add_assoc]
      · intro i hi
        rw [List.length_append, List.length_singleton, Nat.mul_add, Nat.mul_one,
          ← Nat.add_assoc] at hi
        rcases hi with hi | hi
        · rw [memcpyAt_before (by omega)]
          exact hout i (Or.inl hi)
        · rw [memcpyAt_behind hi]
          exact hout i (Or.inr (by omega))
      · intro i hi k hk
        rw [List.length_append, List.length_singleton] at hi
        by_cases hlast : i = packets.length
        · subst hlast
          rw [memcpyAt_at hk, List.getElem_concat_length rfl]
        · have hlt : i < packets.length := by omega
          have := Nat.mul_le_mul_left wnPacketSize (Nat.succ_le_of_lt hlt)
          rw [Nat.mul_succ] at this
          rw [memcpyAt_before (by omega), hin i hlt k hk, List.getElem_append_left hlt]

/-! ## Datagrams -/

/-- A message that a datagram brings over as it is. -/
structure Mimsg.Tidy (msg : Mimsg) : Prop where
  room : msg.size ≤ msgDataSize
  zero : ∀ i, msg.size ≤ i → msg.data i = 0
  header : ∀ i, IsInt (msg.headerInts i)

/-- What was sent is what is in the slot. -/
theorem Mimsg.Tidy.receive (ht : msg.Tidy) : receiveDatagram msg.datagram = msg := by
  have hroom := ht.room
  simp only [msgDataSize] at hroom
  have hslot : ∀ i, ((msg.datagram.take maxMsgSize)[i]?).getD (blankMsg.struct i) =
      msg.struct i := by
    intro i
    unfold Mimsg.datagram
    by_cases hi : i < msg.size + msgHeadSize
    · rw [List.getElem?_take_of_lt (by simp only [maxMsgSize, msgHeadSize] at hi ⊢; omega),
        List.getElem?_map, List.getElem?_range hi]
      rfl
    · have hlen : (((List.range (msg.size + msgHeadSize)).map msg.struct).take
          maxMsgSize).length ≤ i := by
        rw [List.length_take, List.length_map, List.length_range]
        omega
      have hhead : ¬ i < msgHeadSize := by omega
      rw [List.getElem?_eq_none hlen]
      unfold Mimsg.struct
      rw [Option.getD_none, if_neg hhead, if_neg hhead, ht.zero _ (by omega)]
      rfl
  have hint : ∀ i < 25, readInt msg.struct (0 + 4 * i) = msg.headerInts i := fun i hi =>
    readInt_ints (c := 25) (fun k hk => by
      rw [Nat.zero_add]
      exact if_pos hk) hi (ht.header i)
  have hts : readTimestamp msg.struct 20 = msg.timestamp := by
    funext i
    have hlt := i.isLt
    have := hint (5 + i.val) (by simp only [maxHostNum] at hlt; omega)
    rw [Nat.zero_add, Nat.mul_add] at this
    refine this.trans ?_
    rw [Nat.add_comm]
    exact timestampInts_val i
  have hdata : (fun i => msg.struct (msgHeadSize + i)) = msg.data := by
    funext i
    unfold Mimsg.struct
    rw [if_neg (by omega), Nat.add_sub_cancel_left]
  unfold receiveDatagram
  simp only [hslot]
  rw [hts, hdata]
  have h0 : readInt msg.struct 0 = msg.fromHost := hint 0 (by decide)
  have h1 : readInt msg.struct 4 = msg.toHost := hint 1 (by decide)
  have h2 : readInt msg.struct 8 = msg.command := hint 2 (by decide)
  have h3 : readInt msg.struct 12 = msg.size := hint 3 (by decide)
  have h4 : readInt msg.struct 16 = msg.seqno := hint 4 (by decide)
  rw [h0, h1, h2, h3, h4, Int.toNat_natCast]

theorem headerInts_isInt (h0 : IsInt msg.fromHost) (h1 : IsInt msg.toHost)
    (h2 : IsInt msg.command) (h3 : msg.size ≤ msgDataSize) (h4 : IsInt msg.seqno)
    (hts : msg.timestamp.Fits) (i : Nat) : IsInt (msg.headerInts i) := by
  match i with
  | 0 => exact h0
  | 1 => exact h1
  | 2 => exact h2
  | 3 =>
      simp only [msgDataSize] at h3
      exact ⟨by show -2 ^ 31 ≤ (msg.size : Int); omega, by show (msg.size : Int) < 2 ^ 31; omega⟩
  | 4 => exact h4
  | i + 5 =>
      show IsInt (timestampInts msg.timestamp i)
      unfold timestampInts
      split_ifs
      · exact hts _
      · decide

/-! ## The messages -/

theorem newMsg_blank (me dest command : Int) : (newMsg me dest command).Blank 0 :=
  ⟨rfl, fun _ _ => rfl⟩

theorem Mimsg.Blank.append (hb : msg.Blank k) (src : Nat → Byte) (h : 0 < len)
    (h' : len ≤ msgDataSize) : (msg.append (some src) len).Blank (k + len) := by
  rw [Mimsg.append_eq src h h']
  refine ⟨by rw [hb.size], fun i hi => ?_⟩
  dsimp only
  rw [memcpyAt_behind (by rw [hb.size]; exact hi)]
  exact hb.zero i (by omega)

theorem Mimsg.Blank.appendInt (hb : msg.Blank k) (v : Int) : (msg.appendInt v).Blank (k + 4) :=
  hb.append (intByte v) (by decide) (by decide)

theorem Mimsg.Blank.appendTimestamp (hb : msg.Blank k) (ts : Timestamp) :
    (msg.appendTimestamp ts).Blank (k + 80) :=
  hb.append (intsBytes (timestampInts ts)) (by decide) (by decide)

theorem Mimsg.Blank.appendContent (hb : msg.Blank k) (c : Content) :
    (msg.append (some (contentBytes c)) pageSize).Blank (k + 4096) :=
  hb.append (contentBytes c) (by decide) (by decide)

theorem lockMsg_blank (u : Unread) (me dest command lockno : Int) :
    (lockMsg u me dest command lockno).Blank 4 :=
  (newMsg_blank me dest command).append (sprintfInt lockno u.buffer) (Nat.succ_pos 3)
    (by decide)

/-- The header of a message under construction. -/
structure Mimsg.From (me dest command : Int) (ts : Timestamp) (msg : Mimsg) : Prop where
  fromHost : msg.fromHost = me
  toHost : msg.toHost = dest
  command : msg.command = command
  timestamp : msg.timestamp = ts

theorem newMsg_from (me dest command : Int) :
    (newMsg me dest command).From me dest command blankTimestamp := ⟨rfl, rfl, rfl, rfl⟩

theorem Mimsg.From.append {me dest command : Int} (hf : msg.From me dest command ts)
    (src : Option (Nat → Byte)) (len : Nat) : (msg.append src len).From me dest command ts := by
  unfold Mimsg.append apendMsgData
  cases src with
  | none => exact hf
  | some src =>
      dsimp only
      split_ifs
      · exact hf
      · exact hf
      · exact ⟨hf.fromHost, hf.toHost, hf.command, hf.timestamp⟩

/-- The messages that carry packets. -/
theorem packetsMsg_eq (me dest command : Int) (ts : Timestamp) (packetNum : Nat)
    (packets : List WnPacket) :
    ∃ data, packetsMsg me dest command ts packetNum packets =
        { newMsg me dest command with
          timestamp := ts
          data := data
          size := 4 + wnPacketSize * packets.length } ∧
      (∀ k < 4, data k = intByte packetNum k) ∧
      (∀ i, 4 + wnPacketSize * packets.length ≤ i → data i = 0) ∧
      ∀ i (hi : i < packets.length), ∀ k < wnPacketSize,
        data (4 + wnPacketSize * i + k) = intsBytes (packetInts packets[i]) k := by
  unfold packetsMsg
  dsimp only
  rw [Mimsg.appendInt_eq]
  obtain ⟨data, he, hout, hin⟩ := foldl_appendPacket packets
    { newMsg me dest command with
      timestamp := ts
      data := memcpyAt (newMsg me dest command).data 0 (intByte 0) 4
      size := 4 }
  dsimp only at he hout hin
  refine ⟨memcpyAt data 0 (intByte packetNum) 4, ?_, fun k hk => ?_, fun i hi => ?_,
    fun i hi k hk => ?_⟩
  · exact congrArg (Mimsg.setCount packetNum) he
  · exact (congrArg _ (Nat.zero_add k)).symm.trans (memcpyAt_at hk)
  · rw [memcpyAt_behind (by omega), hout i (Or.inr hi), memcpyAt_behind (by omega)]
    rfl
  · rw [memcpyAt_behind (by omega), hin i hi k hk]

theorem readPackets_of {packetNum : Nat} (hf : PacketsFit ts packetNum packets)
    (hnum : ∀ k < 4, msg.data k = intByte packetNum k)
    (h : ∀ i (hi : i < packets.length), ∀ k < wnPacketSize,
      msg.data (4 + wnPacketSize * i + k) = intsBytes (packetInts packets[i]) k) :
    msg.readPackets = some (packetNum, packets) := by
  have hroom := hf.room
  simp only [wnPacketSize, msgDataSize] at hroom
  have hcount : readInt msg.data 0 = packetNum :=
    readInt_of (fun k hk => (congrArg _ (Nat.zero_add k)).trans (hnum k hk))
      ⟨by omega, by rw [hf.packetNum]; omega⟩
  have hread : (List.range packets.length).mapM
      (fun i => readPacket msg.data (4 + wnPacketSize * i)) = some packets :=
    mapM_range packets fun i hi => readPacket_of (hf.packets _ (List.getElem_mem hi)) (h i hi)
  unfold Mimsg.readPackets
  dsimp only
  rw [hcount, Int.toNat_natCast, hf.packetNum, hread]
  rfl

theorem build_blank (u : Unread) (me dest : Int) {m : Msg} (hf : m.Fits) :
    ∃ k ≤ msgDataSize, (m.build u me dest).Blank k := by
  have hnew := fun command => newMsg_blank me dest command
  have hseq : ∀ {k : Nat} {built : Mimsg}, built.Blank k →
      Mimsg.Blank k { built with seqno := u.seqno } := fun hb => ⟨hb.size, hb.zero⟩
  have hpackets : ∀ {ts packetNum packets} (command : Int), PacketsFit ts packetNum packets →
      ∃ k ≤ msgDataSize, (packetsMsg me dest command ts packetNum packets).Blank k := by
    intro ts packetNum packets command hp
    obtain ⟨data, he, -, hzero, -⟩ := packetsMsg_eq me dest command ts packetNum packets
    rw [he]
    exact ⟨_, hp.room, rfl, hzero⟩
  cases m with
  | acqLock lockno => exact ⟨4, by decide, hseq (lockMsg_blank u me dest 1 lockno)⟩
  | rlsLock lockno => exact ⟨4, by decide, hseq (lockMsg_blank u me dest 2 lockno)⟩
  | grantLock lockno last => exact ⟨8, by decide, hseq (((hnew 3).appendInt lockno).appendInt last)⟩
  | enterBarrier => exact ⟨0, by decide, hseq (hnew 4)⟩
  | exitBarrier => exact ⟨0, by decide, hseq (hnew 5)⟩
  | grantWnI ts k packets =>
      obtain ⟨k, hk, hb⟩ := hpackets 6 hf
      exact ⟨k, hk, hseq hb⟩
  | grantDiff ts p diff =>
      exact ⟨4180, by decide,
        hseq ((((hnew 7).appendTimestamp ts).appendInt p).appendContent diff)⟩
  | grantPage p page =>
      exact ⟨4100, by decide, hseq (((hnew 8).appendInt p).appendContent page)⟩
  | fetchPage p => exact ⟨4, by decide, hseq ((hnew 9).appendInt p)⟩
  | fetchWnI ts => exact ⟨80, by decide, hseq ((hnew 10).appendTimestamp ts)⟩
  | fetchDiff p ts => exact ⟨84, by decide, hseq (((hnew 11).appendInt p).appendTimestamp ts)⟩
  | grantEnterBarrierInfo ts k packets =>
      obtain ⟨k, hk, hb⟩ := hpackets 12 hf
      exact ⟨k, hk, hseq hb⟩
  | grantExitBarrierInfo ts k packets =>
      obtain ⟨k, hk, hb⟩ := hpackets 13 hf
      exact ⟨k, hk, hseq hb⟩

theorem packetsMsg_from (me dest command : Int) (ts : Timestamp) (packetNum : Nat)
    (packets : List WnPacket) :
    (packetsMsg me dest command ts packetNum packets).From me dest command ts := by
  obtain ⟨data, he, -⟩ := packetsMsg_eq me dest command ts packetNum packets
  rw [he]
  exact ⟨rfl, rfl, rfl, rfl⟩

/-- `command_t` -/
def Msg.command : Msg → Int
  | .acqLock _ => 1
  | .rlsLock _ => 2
  | .grantLock _ _ => 3
  | .enterBarrier => 4
  | .exitBarrier => 5
  | .grantWnI _ _ _ => 6
  | .grantDiff _ _ _ => 7
  | .grantPage _ _ => 8
  | .fetchPage _ => 9
  | .fetchWnI _ => 10
  | .fetchDiff _ _ => 11
  | .grantEnterBarrierInfo _ _ _ => 12
  | .grantExitBarrierInfo _ _ _ => 13

/-- The timestamp in the header. -/
def Msg.header : Msg → Timestamp
  | .grantWnI ts _ _ | .grantEnterBarrierInfo ts _ _ | .grantExitBarrierInfo ts _ _ => ts
  | _ => blankTimestamp

theorem build_from (u : Unread) (me dest : Int) (m : Msg) :
    (m.build u me dest).From me dest m.command m.header := by
  have hnew := fun command => newMsg_from me dest command
  have hseq : ∀ {command ts} {built : Mimsg}, built.From me dest command ts →
      Mimsg.From me dest command ts { built with seqno := u.seqno } := fun hb =>
    ⟨hb.fromHost, hb.toHost, hb.command, hb.timestamp⟩
  cases m with
  | acqLock lockno => exact hseq ((hnew 1).append _ _)
  | rlsLock lockno => exact hseq ((hnew 2).append _ _)
  | grantLock lockno last => exact hseq (((hnew 3).append _ _).append _ _)
  | enterBarrier => exact hseq (hnew 4)
  | exitBarrier => exact hseq (hnew 5)
  | grantWnI ts k packets => exact hseq (packetsMsg_from me dest 6 ts k packets)
  | grantDiff ts p diff => exact hseq ((((hnew 7).append _ _).append _ _).append _ _)
  | grantPage p page => exact hseq (((hnew 8).append _ _).append _ _)
  | fetchPage p => exact hseq ((hnew 9).append _ _)
  | fetchWnI ts => exact hseq ((hnew 10).append _ _)
  | fetchDiff p ts => exact hseq (((hnew 11).append _ _).append _ _)
  | grantEnterBarrierInfo ts k packets => exact hseq (packetsMsg_from me dest 12 ts k packets)
  | grantExitBarrierInfo ts k packets => exact hseq (packetsMsg_from me dest 13 ts k packets)

/-- A handler reads what was built. -/
theorem build_read (u : Unread) (me dest : Int) {m : Msg} (hf : m.Fits) :
    (m.build u me dest).read = some m := by
  have hcommand := (build_from u me dest m).command
  have hheader := (build_from u me dest m).timestamp
  have hpackets : ∀ {ts packetNum packets} (command : Int), PacketsFit ts packetNum packets →
      (packetsMsg me dest command ts packetNum packets).readPackets = some (packetNum, packets) := by
    intro ts packetNum packets command hp
    obtain ⟨data, he, hnum, -, hin⟩ := packetsMsg_eq me dest command ts packetNum packets
    rw [he]
    exact readPackets_of hp hnum hin
  unfold Mimsg.read
  rw [hcommand, hheader]
  cases m with
  | acqLock lockno =>
      exact congrArg (fun l => some (Msg.acqLock l)) (readLockno_lockMsg u me dest 1 hf)
  | rlsLock lockno =>
      exact congrArg (fun l => some (Msg.rlsLock l)) (readLockno_lockMsg u me dest 2 hf)
  | grantLock lockno last =>
      have hdata : (Msg.build u me dest (.grantLock lockno last)).data = memcpyAt
          (memcpyAt (fun _ => 0) 0 (intByte lockno) 4) 4 (intByte last) 4 := by
        show (((newMsg me dest 3).appendInt lockno).appendInt last).data = _
        rw [Mimsg.appendInt_eq, Mimsg.appendInt_eq]
        rfl
      show some (Msg.grantLock (readInt _ 0) (readInt _ 4)) = _
      rw [hdata, readInt_memcpyAt_before (by decide), readInt_memcpyAt hf.1,
        readInt_memcpyAt hf.2]
  | enterBarrier => rfl
  | exitBarrier => rfl
  | grantWnI ts k packets => exact congrArg (Option.map _) (hpackets 6 hf)
  | grantDiff ts p diff =>
      have hdata : (Msg.build u me dest (.grantDiff ts p diff)).data = memcpyAt (memcpyAt
          (memcpyAt (fun _ => 0) 0 (intsBytes (timestampInts ts)) (4 * maxHostNum))
            80 (intByte p) 4) 84 (contentBytes diff) pageSize := by
        show ((((newMsg me dest 7).appendTimestamp ts).appendInt p).append
          (some (contentBytes diff)) pageSize).data = _
        rw [Mimsg.appendTimestamp_eq, Mimsg.appendInt_eq,
          Mimsg.append_eq _ (by decide) (by decide)]
        rfl
      show (readIndex _ 80).map (fun p => Msg.grantDiff (readTimestamp _ 0) p (readContent _ 84)) = _
      rw [hdata, readIndex_of ((readInt_memcpyAt_before (by decide)).trans
        (readInt_memcpyAt hf.2)), readContent_memcpyAt,
        readTimestamp_memcpyAt_before (by decide), readTimestamp_memcpyAt_before (by decide),
        readTimestamp_memcpyAt hf.1]
      rfl
  | grantPage p page =>
      have hdata : (Msg.build u me dest (.grantPage p page)).data = memcpyAt
          (memcpyAt (fun _ => 0) 0 (intByte p) 4) 4 (contentBytes page) pageSize := by
        show (((newMsg me dest 8).appendInt p).append (some (contentBytes page)) pageSize).data = _
        rw [Mimsg.appendInt_eq, Mimsg.append_eq _ (by decide) (by decide)]
        rfl
      show (readIndex _ 0).map (fun p => Msg.grantPage p (readContent _ 4)) = _
      rw [hdata, readIndex_of ((readInt_memcpyAt_before (by decide)).trans
        (readInt_memcpyAt hf)), readContent_memcpyAt]
      rfl
  | fetchPage p =>
      have hdata : (Msg.build u me dest (.fetchPage p)).data =
          memcpyAt (fun _ => 0) 0 (intByte p) 4 := by
        show ((newMsg me dest 9).appendInt p).data = _
        rw [Mimsg.appendInt_eq]
        rfl
      show (readIndex _ 0).map Msg.fetchPage = _
      rw [hdata, readIndex_of (readInt_memcpyAt hf)]
      rfl
  | fetchWnI ts =>
      have hdata : (Msg.build u me dest (.fetchWnI ts)).data =
          memcpyAt (fun _ => 0) 0 (intsBytes (timestampInts ts)) (4 * maxHostNum) := by
        show ((newMsg me dest 10).appendTimestamp ts).data = _
        rw [Mimsg.appendTimestamp_eq]
        rfl
      show some (Msg.fetchWnI (readTimestamp _ 0)) = _
      rw [hdata, readTimestamp_memcpyAt hf]
  | fetchDiff p ts =>
      have hdata : (Msg.build u me dest (.fetchDiff p ts)).data = memcpyAt
          (memcpyAt (fun _ => 0) 0 (intByte p) 4) 4
            (intsBytes (timestampInts ts)) (4 * maxHostNum) := by
        show (((newMsg me dest 11).appendInt p).appendTimestamp ts).data = _
        rw [Mimsg.appendInt_eq, Mimsg.appendTimestamp_eq]
        rfl
      show (readIndex _ 0).map (fun p => Msg.fetchDiff p (readTimestamp _ 4)) = _
      rw [hdata, readIndex_of ((readInt_memcpyAt_before (by decide)).trans
        (readInt_memcpyAt hf.2)), readTimestamp_memcpyAt hf.1]
      rfl
  | grantEnterBarrierInfo ts k packets => exact congrArg (Option.map _) (hpackets 12 hf)
  | grantExitBarrierInfo ts k packets => exact congrArg (Option.map _) (hpackets 13 hf)

theorem Msg.command_isInt (m : Msg) : IsInt m.command := by
  cases m <;> simp [IsInt, Msg.command]

theorem Msg.header_fits {m : Msg} (hf : m.Fits) : m.header.Fits := by
  have hblank : Timestamp.Fits blankTimestamp := fun _ =>
    show IsInt (-1) from ⟨by decide, by decide⟩
  cases m with
  | grantWnI | grantEnterBarrierInfo | grantExitBarrierInfo => exact PacketsFit.timestamp hf
  | _ => exact hblank

/-- The datagram of a message that fits holds all of it. -/
theorem build_received (u : Unread) {me dest : Int} (hme : IsInt me) (hdest : IsInt dest)
    (hu : IsInt u.seqno) {m : Msg} (hf : m.Fits) :
    receiveDatagram (m.build u me dest).datagram = m.build u me dest := by
  obtain ⟨k, hk, hblank⟩ := build_blank u me dest hf
  have hfrom := build_from u me dest m
  have hroom : (m.build u me dest).size ≤ msgDataSize := hblank.size ▸ hk
  have htidy : (m.build u me dest).Tidy := by
    refine ⟨hroom, fun i hi => hblank.zero i (hblank.size ▸ hi), ?_⟩
    refine headerInts_isInt ?_ ?_ ?_ hroom hu ?_
    · rw [hfrom.fromHost]
      exact hme
    · rw [hfrom.toHost]
      exact hdest
    · rw [hfrom.command]
      exact m.command_isInt
    · rw [hfrom.timestamp]
      exact Msg.header_fits hf
  exact htidy.receive

/-- **A message that fits is read as it was sent**, from the bytes of its datagram. -/
theorem message_round_trip (u : Unread) {me dest : Int} (hme : IsInt me) (hdest : IsInt dest)
    (hu : IsInt u.seqno) {m : Msg} (hf : m.Fits) :
    (receiveDatagram (m.build u me dest).datagram).read = some m ∧
      (receiveDatagram (m.build u me dest).datagram).fromHost = me := by
  rw [build_received u hme hdest hu hf]
  exact ⟨build_read u me dest hf, (build_from u me dest m).fromHost⟩

theorem message_round_trip_two :
    (receiveDatagram ((Msg.grantWnI (fun _ => 4) 1 [⟨2, fun _ => 3, [0, 32767]⟩]).build
      ⟨fun _ => 57, 9⟩ 1 0).datagram).read =
      some (.grantWnI (fun _ => 4) 1 [⟨2, fun _ => 3, [0, 32767]⟩]) := by
  have hpacket : WnPacket.Fits ⟨2, fun _ => 3, [0, 32767]⟩ := by
    refine ⟨by decide, fun _ => ?_, by decide, by decide⟩
    show IsInt 3
    decide
  have hfits : (Msg.grantWnI (fun _ => 4) 1 [⟨2, fun _ => 3, [0, 32767]⟩]).Fits := by
    refine ⟨fun _ => ?_, rfl, by decide, fun packet hm => ?_⟩
    · show IsInt 4
      decide
    · rw [List.mem_singleton.mp hm]
      exact hpacket
  exact (message_round_trip ⟨fun _ => 57, 9⟩ (by decide) (by decide) (by decide) hfits).1

end

end Midsm
