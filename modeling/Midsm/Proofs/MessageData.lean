import Midsm.Ref.Net

/-!
# Building a message

`apendMsgData` compares the length of what it appends, not the place where it ends, with
the room in `msg->data`. So it never refuses a call because of the ones before it: what
a message holds is the sum of what was appended, and the message is well built exactly
when that sum fits.
-/

namespace Midsm

/-- The arguments of `apendMsgData` behind the message. -/
abbrev AppendCall : Type := Option (Nat → Byte) × Int

/-- The message after a sequence of calls. -/
def appends (msg : Mimsg) (calls : List AppendCall) : Mimsg :=
  calls.foldl (fun msg call => ((apendMsgData (some msg) call.1 call.2).2).getD msg) msg

/-- The bytes that the calls that return 0 were given, in order. -/
def acceptedBytes : Mimsg → List AppendCall → List Byte
  | _, [] => []
  | msg, call :: calls =>
      (if (apendMsgData (some msg) call.1 call.2).1 = 0 then
        (List.range call.2.toNat).map (call.1.getD fun _ => 0) else []) ++
      acceptedBytes (appends msg [call]) calls

/-- The bytes of the calls with data and a length that fits into an empty message. -/
def requested (calls : List AppendCall) : Nat :=
  (calls.map fun call : AppendCall =>
    if call.1.isSome ∧ 0 < call.2 ∧ call.2 ≤ (msgDataSize : Int) then call.2.toNat
    else (0 : Nat)).sum

/-- What building a message is for. -/
structure BuildsData (msg : Mimsg) (calls : List AppendCall) : Prop where
  size : (appends msg calls).size = (acceptedBytes msg calls).length
  bytes : (appends msg calls).bytes = acceptedBytes msg calls
  bound : ∀ before after, calls = before ++ after → (appends msg before).size ≤ msgDataSize
  outside : ∀ i, msgDataSize ≤ i → (appends msg calls).data i = msg.data i
  refused : ∀ before data, ∀ len : Int, ∀ after, calls = before ++ (some data, len) :: after → 0 < len →
    msgDataSize < (appends msg before).size + len →
    apendMsgData (some (appends msg before)) (some data) len =
      (-2, some (appends msg before))

/-- The message in a slot of one of the rings. -/
def Net.slot (type : Int) (slot : Nat) (s : Net) : Mimsg :=
  if type = 0 then s.sndQueue.slots slot else s.recvQueue.slots slot

section

variable {msg : Mimsg} {call : AppendCall} {calls before after : List AppendCall}
  {data : Nat → Byte} {len : Int}

/-! ## One call -/

/-- A call is refused, or it appends its data. -/
theorem append_cases (msg : Mimsg) (call : AppendCall) :
    (requested [call] = 0 ∧ appends msg [call] = msg ∧ acceptedBytes msg [call] = []) ∨
    ∃ data, ∃ len : Nat, call = (some data, (len : Int)) ∧ requested [call] = len ∧
      appends msg [call] =
        { msg with data := memcpyAt msg.data msg.size data len, size := msg.size + len } ∧
      acceptedBytes msg [call] = (List.range len).map data := by
  obtain ⟨data, len⟩ := call
  cases data with
  | none => exact Or.inl ⟨rfl, rfl, rfl⟩
  | some data =>
      simp only [requested, appends, acceptedBytes, apendMsgData, List.map_cons, List.map_nil,
        List.foldl_cons, List.foldl_nil, List.append_nil, List.sum_cons, List.sum_nil]
      by_cases h₀ : len ≤ 0
      · left
        rw [if_pos h₀, if_neg (by omega)]
        exact ⟨rfl, rfl, rfl⟩
      · rw [if_neg h₀]
        by_cases h₁ : len > msgDataSize
        · left
          rw [if_pos h₁, if_neg (by omega)]
          exact ⟨rfl, rfl, rfl⟩
        · right
          rw [if_neg h₁, if_pos ⟨rfl, by omega, by omega⟩]
          exact ⟨data, len.toNat, by rw [Int.toNat_of_nonneg (by omega)], rfl, rfl, rfl⟩

theorem appends_cons : appends msg (call :: calls) = appends (appends msg [call]) calls := rfl

theorem acceptedBytes_cons : acceptedBytes msg (call :: calls) =
    acceptedBytes msg [call] ++ acceptedBytes (appends msg [call]) calls := by
  rw [acceptedBytes, acceptedBytes, acceptedBytes, List.append_nil]

theorem requested_append (before after : List AppendCall) :
    requested (before ++ after) = requested before + requested after := by
  rw [requested, List.map_append, List.sum_append]
  rfl

theorem requested_cons (call : AppendCall) (calls : List AppendCall) :
    requested (call :: calls) = requested [call] + requested calls :=
  requested_append [call] calls

/-- What was in the message stays, and the new data stand behind it. -/
theorem bytes_append (msg : Mimsg) (data : Nat → Byte) (len : Nat) :
    Mimsg.bytes { msg with
      data := memcpyAt msg.data msg.size data len, size := msg.size + len } =
      msg.bytes ++ (List.range len).map data := by
  rw [Mimsg.bytes, List.range_add, List.map_append, List.map_map]
  congr 1
  · refine List.map_congr_left fun i hi => ?_
    rw [List.mem_range] at hi
    exact if_neg (by omega)
  · refine List.map_congr_left fun i hi => ?_
    rw [List.mem_range] at hi
    dsimp only [Function.comp_apply, memcpyAt]
    rw [if_pos (by omega), Nat.add_sub_cancel_left]

/-! ## A sequence of calls -/

theorem appends_size (msg : Mimsg) (calls : List AppendCall) :
    (appends msg calls).size = msg.size + requested calls := by
  induction calls generalizing msg with
  | nil => rfl
  | cons call calls ih =>
      rw [appends_cons, ih, requested_cons]
      rcases append_cases msg call with ⟨hreq, happ, -⟩ | ⟨data, len, -, hreq, happ, -⟩
      · rw [happ, hreq, Nat.zero_add]
      · rw [happ, hreq, Nat.add_assoc]

theorem appends_bytes (msg : Mimsg) (calls : List AppendCall) :
    (appends msg calls).bytes = msg.bytes ++ acceptedBytes msg calls := by
  induction calls generalizing msg with
  | nil => exact (List.append_nil _).symm
  | cons call calls ih =>
      rw [appends_cons, ih, acceptedBytes_cons, ← List.append_assoc]
      congr 1
      rcases append_cases msg call with ⟨-, happ, hacc⟩ | ⟨data, len, -, -, happ, hacc⟩
      · rw [happ, hacc, List.append_nil]
      · rw [happ, hacc, bytes_append]

/-- A byte behind the end of the message is not written. -/
theorem appends_outside {i : Nat} (hi : msg.size + requested calls ≤ i) :
    (appends msg calls).data i = msg.data i := by
  induction calls generalizing msg with
  | nil => rfl
  | cons call calls ih =>
      rw [requested_cons] at hi
      rw [appends_cons]
      rcases append_cases msg call with ⟨hreq, happ, -⟩ | ⟨data, len, -, hreq, happ, -⟩
      · rw [happ]
        exact ih (by omega)
      · rw [happ, ih (by dsimp only; omega)]
        exact if_neg (by omega)

theorem buildsData_iff (hsize : msg.size = 0) :
    BuildsData msg calls ↔ requested calls ≤ msgDataSize := by
  constructor
  · intro h
    have := h.bound calls [] (List.append_nil _).symm
    rwa [appends_size, hsize, Nat.zero_add] at this
  · intro hfit
    have hbytes : (appends msg calls).bytes = acceptedBytes msg calls := by
      rw [appends_bytes, Mimsg.bytes, hsize]
      rfl
    refine ⟨?_, hbytes, ?_, fun i hi => appends_outside (by omega), ?_⟩
    · rw [← hbytes, Mimsg.bytes, List.length_map, List.length_range]
    · rintro before after rfl
      rw [appends_size]
      rw [requested_append] at hfit
      omega
    · rintro before data len after rfl hpos hlong
      rw [requested_append, requested_cons] at hfit
      rw [appends_size] at hlong
      have hbig : len > msgDataSize := by
        by_contra hle
        have hreq : requested [(some data, len)] = len.toNat := by
          simp only [requested, List.map_cons, List.map_nil, List.sum_cons, List.sum_nil]
          rw [if_pos ⟨rfl, hpos, by omega⟩, Nat.add_zero]
        omega
      rw [apendMsgData, if_neg (by omega), if_pos hbig]

theorem nextFreeMsgInQueue_slot {type : Int} {slot : Nat} {s s' : Net}
    (h : nextFreeMsgInQueue type s = (some slot, s')) : s'.slot type slot = blankMsg := by
  have hfree : ∀ {q q' : Queue}, q.nextFree = (some slot, q') → q'.slots slot = blankMsg := by
    intro q q' hq
    unfold Queue.nextFree at hq
    split at hq
    · cases hq
    · cases hq
      exact upd_self _ _ _
  unfold nextFreeMsgInQueue at h
  unfold Net.slot
  split at h
  · cases h
  · split at h
    · next htype =>
        rw [if_pos htype]
        rw [Prod.mk.injEq] at h
        rw [← h.2]
        exact hfree (Prod.ext h.1 rfl)
    · next htype =>
        rw [if_neg htype]
        rw [Prod.mk.injEq] at h
        rw [← h.2]
        exact hfree (Prod.ext h.1 rfl)

end

/-- **A message is well built exactly when what is appended to it fits**, for every slot
that `nextFreeMsgInQueue` hands out and every sequence of calls. -/
theorem apendMsgData_builds_iff {type : Int} {slot : Nat} {s s' : Net}
    (h : nextFreeMsgInQueue type s = (some slot, s')) (calls : List AppendCall) :
    BuildsData (s'.slot type slot) calls ↔ requested calls ≤ msgDataSize := by
  rw [nextFreeMsgInQueue_slot h]
  exact buildsData_iff rfl

/-- A full message takes one byte more. -/
theorem apendMsgData_overflows :
    nextFreeMsgInQueue 0 initnet = (some 0, (nextFreeMsgInQueue 0 initnet).2) ∧
      ¬ BuildsData ((nextFreeMsgInQueue 0 initnet).2.slot 0 0)
        [(some fun _ => 1, 40860), (some fun _ => 1, 1)] := by
  have hslot : nextFreeMsgInQueue 0 initnet = (some 0, (nextFreeMsgInQueue 0 initnet).2) := rfl
  refine ⟨hslot, ?_⟩
  rw [nextFreeMsgInQueue_slot hslot, buildsData_iff rfl]
  decide

theorem apendMsgData_builds_two :
    BuildsData ((nextFreeMsgInQueue 0 initnet).2.slot 0 0)
      [(some fun _ => 1, 40859), (some fun _ => 2, 1)] := by
  have hslot : nextFreeMsgInQueue 0 initnet = (some 0, (nextFreeMsgInQueue 0 initnet).2) := rfl
  exact (apendMsgData_builds_iff hslot _).mpr (by decide)

end Midsm
