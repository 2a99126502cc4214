import Midsm.Ref.Mem
import Midsm.Lib.Chunks

/-!
# What the barrier encoders send

Both barrier messages are cut while they are built: a message that holds nine
packets has no room for a tenth and is sent. So the messages are the chunks of
the packets, nine each, and only their addresses depend on the intervals: the
message after a cut goes where the message is meant to go when the cut fell
behind the first packet of an interval, and to host 0 otherwise. `encode_eq` says
so in one equation, and `Blocks` is what most of the development needs of it.
-/

namespace Midsm

open Midsm.Lib

/-- One message of an encoder, with its count left to its packets. -/
structure Block where
  dest : Nat
  timestamp : Timestamp
  packets : List WnPacket

def Block.msg (mk : Timestamp → Nat → List WnPacket → Msg) (b : Block) : Nat × Msg :=
  (b.dest, mk b.timestamp b.packets.length b.packets)

/-- A message is full with nine packets. -/
theorem full_iff (k : Nat) :
    (4 + wnPacketSize * k ≤ msgDataSize ∧
      wnPacketSize > msgDataSize - (4 + wnPacketSize * k)) ↔ k = 9 := by
  simp only [wnPacketSize, msgDataSize]
  omega

/-- The packets of an interval, each with the host that the next message goes to
if it is begun behind this packet. -/
def route (dest : Nat) : List WnPacket → List (WnPacket × Nat)
  | [] => []
  | packet :: left => (packet, dest) :: left.map fun packet => (packet, 0)

/-- Message `k` of an encoder that is given these packets. -/
def blockAt (dest : Nat) (timestamp : Timestamp) (all : List (WnPacket × Nat))
    (k : Nat) : Block where
  dest := if k = 0 then dest else ((all[9 * k - 1]?).map Prod.snd).getD dest
  timestamp := if k = 0 then timestamp else blankTimestamp
  packets := chunk 9 k (all.map Prod.fst)

section

variable {mk : Timestamp → Nat → List WnPacket → Msg} {dest : Nat}
  {timestamp : Timestamp} {all : List (WnPacket × Nat)}

theorem route_fst (dest : Nat) (packets : List WnPacket) :
    (route dest packets).map Prod.fst = packets := by
  cases packets with
  | nil => rfl
  | cons packet left => simp [route, Function.comp_def]

theorem routes_fst (dest : Nat) (intervals : List (List WnPacket)) :
    (intervals.flatMap (route dest)).map Prod.fst = intervals.flatten := by
  induction intervals with
  | nil => rfl
  | cons packets intervals ih =>
      rw [List.flatMap_cons, List.map_append, route_fst, ih, List.flatten_cons]

theorem length_routes (dest : Nat) (intervals : List (List WnPacket)) :
    (intervals.flatMap (route dest)).length = intervals.flatten.length := by
  rw [← routes_fst dest, List.length_map]

theorem route_snd {packets : List WnPacket} {x : WnPacket × Nat} (h : x ∈ route dest packets) :
    x.2 = dest ∨ x.2 = 0 := by
  cases packets with
  | nil => cases h
  | cons packet left =>
      rcases List.mem_cons.mp h with rfl | h
      · exact Or.inl rfl
      · obtain ⟨y, -, rfl⟩ := List.mem_map.mp h
        exact Or.inr rfl

/-! ## The encoder, one packet at a time -/

theorem addInterval_eq (e : Encoder) (packets : List WnPacket) :
    e.addInterval mk dest packets =
      (route dest packets).foldl (fun e x => e.add mk x.2 x.1) e := by
  cases packets with
  | nil => rfl
  | cons packet left =>
      rw [Encoder.addInterval, route, List.foldl_cons, List.foldl_map]

theorem foldl_addInterval_eq (intervals : List (List WnPacket)) (e : Encoder) :
    intervals.foldl (Encoder.addInterval mk dest) e =
      (intervals.flatMap (route dest)).foldl (fun e x => e.add mk x.2 x.1) e := by
  induction intervals generalizing e with
  | nil => rfl
  | cons packets intervals ih =>
      rw [List.foldl_cons, List.flatMap_cons, List.foldl_append, ih, addInterval_eq]

/-- The block under construction. -/
def Encoder.current (e : Encoder) : Block := ⟨e.dest, e.timestamp, e.packets⟩

/-- An encoder that has taken the packets `all`. -/
structure Encoder.Took (mk : Timestamp → Nat → List WnPacket → Msg) (dest : Nat)
    (timestamp : Timestamp) (all : List (WnPacket × Nat)) (e : Encoder) : Prop where
  sent : e.sent = (List.range (all.length / 9)).map fun k =>
    (blockAt dest timestamp all k).msg mk
  current : e.current = blockAt dest timestamp all (all.length / 9)
  packetNum : e.packetNum = e.packets.length

theorem Encoder.took_nil :
    Encoder.Took mk dest timestamp [] ⟨[], dest, timestamp, 0, []⟩ := ⟨rfl, rfl, rfl⟩

/-- A message that was cut off does not change when another packet comes. -/
theorem blockAt_append {x : WnPacket × Nat} {k : Nat}
    (h : 9 * k + 9 ≤ all.length) :
    blockAt dest timestamp (all ++ [x]) k = blockAt dest timestamp all k := by
  unfold blockAt
  rw [List.map_append, List.map_singleton, chunk_append (by rwa [List.length_map])]
  congr 1
  split
  · rfl
  · rw [List.getElem?_append_left (by omega)]

/-- The current message takes the packet. -/
theorem blockAt_push {x : WnPacket × Nat} {k : Nat} (h : 9 * k ≤ all.length)
    (h' : all.length < 9 * k + 9) :
    blockAt dest timestamp (all ++ [x]) k =
      { blockAt dest timestamp all k with
        packets := (blockAt dest timestamp all k).packets ++ [x.1] } := by
  unfold blockAt
  rw [List.map_append, List.map_singleton,
    chunk_push (by rwa [List.length_map]) (by rwa [List.length_map])]
  congr 1
  split
  · rfl
  · rw [List.getElem?_append_left (by omega)]

/-- The message that is begun behind the ninth packet of another one. -/
theorem blockAt_cut {x : WnPacket × Nat} {k : Nat} (h : all.length + 1 = 9 * k) :
    blockAt dest timestamp (all ++ [x]) k = ⟨x.2, blankTimestamp, []⟩ := by
  unfold blockAt
  rw [if_neg (by omega), if_neg (by omega), chunk_end (by simp [h]),
    show 9 * k - 1 = all.length by omega, List.getElem?_concat_length]
  rfl

theorem Encoder.Took.add {e : Encoder} (h : e.Took mk dest timestamp all)
    (x : WnPacket × Nat) :
    (e.add mk x.2 x.1).Took mk dest timestamp (all ++ [x]) := by
  obtain ⟨hsent, hcurrent, hnum⟩ := h
  have hdiv := Nat.div_add_mod all.length 9
  have hmod := Nat.mod_lt all.length (show 0 < 9 by decide)
  generalize hq : all.length / 9 = q at hsent hcurrent hdiv
  have hpush : blockAt dest timestamp (all ++ [x]) q =
      ⟨e.dest, e.timestamp, e.packets ++ [x.1]⟩ := by
    rw [blockAt_push (by omega) (by omega), ← hcurrent]
    rfl
  have hlen : e.packets.length = all.length % 9 := by
    have := congrArg (fun b => b.packets.length) hcurrent
    dsimp only [Encoder.current, blockAt] at this
    rw [this, length_chunk, List.length_map]
    omega
  have hbefore : ((List.range q).map fun k =>
      (blockAt dest timestamp (all ++ [x]) k).msg mk) = e.sent := by
    rw [hsent]
    refine List.map_congr_left fun k hk => ?_
    have hk := List.mem_range.mp hk
    have := Nat.mul_le_mul_left 9 (show k + 1 ≤ q by omega)
    rw [blockAt_append (by omega)]
  unfold Encoder.add
  dsimp only
  rw [List.length_append, List.length_singleton]
  by_cases hfull : e.packets.length + 1 = 9
  · rw [if_pos ((full_iff _).mpr hfull)]
    have hnext : (all ++ [x]).length / 9 = q + 1 := by
      rw [List.length_append, List.length_singleton]
      omega
    refine ⟨?_, ?_, rfl⟩
    · rw [hnext, List.range_succ, List.map_append, hbefore, List.map_singleton, hpush]
      simp [Block.msg, hnum]
    · rw [hnext, blockAt_cut (by omega)]
      rfl
  · rw [if_neg fun hc => hfull ((full_iff _).mp hc)]
    have hnext : (all ++ [x]).length / 9 = q := by
      rw [List.length_append, List.length_singleton]
      omega
    refine ⟨?_, ?_, ?_⟩
    · rw [hnext, hbefore]
    · rw [hnext, hpush]
      rfl
    · dsimp only
      rw [hnum, List.length_append, List.length_singleton]

theorem Encoder.Took.foldl {e : Encoder} (h : e.Took mk dest timestamp all)
    (more : List (WnPacket × Nat)) :
    (more.foldl (fun e x => e.add mk x.2 x.1) e).Took mk dest timestamp (all ++ more) := by
  induction more generalizing e all with
  | nil => rw [List.append_nil]; exact h
  | cons x more ih =>
      rw [List.foldl_cons, List.append_cons]
      exact ih (h.add x)

/-- The last message is left out when it is empty and not the only one. -/
theorem Encoder.Took.finish {e : Encoder} (h : e.Took mk dest timestamp all) :
    e.finish mk = (List.range (chunkCount 9 all.length)).map fun k =>
      (blockAt dest timestamp all k).msg mk := by
  obtain ⟨hsent, hcurrent, hnum⟩ := h
  have hlen : e.packets.length = all.length % 9 := by
    have := congrArg (fun b => b.packets.length) hcurrent
    dsimp only [Encoder.current, blockAt] at this
    rw [this, length_chunk, List.length_map]
    omega
  have hlast : (e.dest, mk e.timestamp e.packetNum e.packets) =
      (blockAt dest timestamp all (all.length / 9)).msg mk := by
    rw [← hcurrent, hnum]
    rfl
  have hempty : e.sent.isEmpty = true ↔ all.length / 9 = 0 := by
    rw [hsent, List.isEmpty_iff, List.map_eq_nil_iff, List.range_eq_nil]
  unfold Encoder.finish chunkCount
  split
  · next hc =>
      rw [hempty, hnum, hlen] at hc
      have hcount : (if all.length = 0 then 1 else (all.length + (9 - 1)) / 9) =
          all.length / 9 + 1 := by
        split <;> omega
      rw [hlast, hsent, hcount, List.range_succ, List.map_append, List.map_singleton]
  · next hc =>
      rw [hempty, hnum, hlen] at hc
      rw [hsent]
      congr 2
      split <;> omega

end

/-- The messages of an encoder. -/
theorem encode_eq (mk : Timestamp → Nat → List WnPacket → Msg) (dest : Nat)
    (timestamp : Timestamp) (intervals : List (List WnPacket)) :
    encode mk dest timestamp intervals =
      (List.range (chunkCount 9 intervals.flatten.length)).map fun k =>
        (blockAt dest timestamp (intervals.flatMap (route dest)) k).msg mk := by
  have hnil : Encoder.Took mk dest timestamp [] ⟨[], dest, timestamp, 0, []⟩ :=
    Encoder.took_nil
  have h := hnil.foldl (intervals.flatMap (route dest))
  rw [encode, foldl_addInterval_eq, h.finish, List.nil_append, length_routes]

/-! ## Blocks -/

/-- The first block of a message, and one that a cut began. -/
def Block.First (dest : Nat) (timestamp : Timestamp) (b : Block) : Prop :=
  b.dest = dest ∧ b.timestamp = timestamp

def Block.Later (dest : Nat) (b : Block) : Prop :=
  (b.dest = dest ∨ b.dest = 0) ∧ b.timestamp = blankTimestamp

/-- A sequence of blocks for `dest` that carries the packets `all`. -/
structure Blocks (dest : Nat) (timestamp : Timestamp) (all : List WnPacket)
    (blocks : List Block) : Prop where
  first : ∀ b ∈ blocks.head?, b.First dest timestamp
  later : ∀ b ∈ blocks.tail, b.Later dest
  packets : blocks.flatMap Block.packets = all

theorem blockAt_dest {dest : Nat} {timestamp : Timestamp} (intervals : List (List WnPacket))
    (k : Nat) :
    (blockAt dest timestamp (intervals.flatMap (route dest)) k).dest = dest ∨
      (blockAt dest timestamp (intervals.flatMap (route dest)) k).dest = 0 := by
  dsimp only [blockAt]
  split
  · exact Or.inl rfl
  · cases hx : (intervals.flatMap (route dest))[9 * k - 1]? with
    | none => exact Or.inl rfl
    | some x =>
        obtain ⟨packets, -, hmem⟩ := List.mem_flatMap.mp (List.mem_of_getElem? hx)
        exact route_snd hmem

theorem chunkCount_pos (len : Nat) : 0 < chunkCount 9 len := by
  unfold chunkCount
  split <;> omega

/-- The messages of an encoder are a sequence of blocks for its host. -/
theorem encode_blocks (mk : Timestamp → Nat → List WnPacket → Msg) (dest : Nat)
    (timestamp : Timestamp) (intervals : List (List WnPacket)) :
    ∃ blocks, blocks ≠ [] ∧
      encode mk dest timestamp intervals = blocks.map (Block.msg mk) ∧
      Blocks dest timestamp intervals.flatten blocks := by
  obtain ⟨c, hc⟩ : ∃ c, chunkCount 9 intervals.flatten.length = c + 1 :=
    Nat.exists_eq_succ_of_ne_zero (chunkCount_pos intervals.flatten.length).ne'
  refine ⟨(List.range (c + 1)).map (blockAt dest timestamp (intervals.flatMap (route dest))),
    by simp, ?_, ?_, ?_, ?_⟩
  · rw [encode_eq, hc, List.map_map]
    rfl
  · rw [List.range_succ_eq_map]
    rintro b ⟨rfl⟩
    exact ⟨rfl, rfl⟩
  · rw [List.range_succ_eq_map, List.map_cons, List.tail_cons, List.map_map]
    intro b hb
    obtain ⟨k, -, rfl⟩ := List.mem_map.mp hb
    exact ⟨blockAt_dest intervals (k + 1), rfl⟩
  · have hall := flatMap_all_chunks (show 0 < 9 by decide) intervals.flatten
    rw [hc, ← routes_fst dest] at hall
    rw [List.flatMap_map, ← routes_fst dest]
    exact hall

end Midsm
