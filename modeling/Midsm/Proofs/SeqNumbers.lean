import Midsm.Proofs.Building

/-!
# Sequence numbers

`sendMsg` gives a message the next number of its destination when it queues it, and
counts that number up when a message is acknowledged, but for the destination of the
message it was called with. The two agree as long as `sendMsg` is not called again
while it runs: a handler that sends something in the meantime is given a number that
is still in use, or has another destination's number counted up for it.
-/

namespace Midsm

open Midsm.Lib

/-- A host that sends, and what it has transmitted. -/
structure Sender where
  net : Net
  /-- The slot of the message that the running `sendMsg` was called with. -/
  running : Option Nat
  sent : List Mimsg
  /-- The messages whose acknowledgement has come, in order. -/
  acked : List Mimsg

def initSender : Sender := ⟨initnet, none, [], []⟩

inductive SendEvent where
  /-- A message is built in the slot that `nextFreeMsgInQueue(0)` returns and handed
  to `sendMsg`, by the program or by a handler that runs while `sendMsg` waits. -/
  | call (msg : Mimsg)
  /-- The acknowledgement that the running `sendMsg` waits for. -/
  | ack

/-- The test of the loop of `sendMsg`: the next message goes out, or the call returns. -/
def Sender.loop (slot : Nat) (s : Sender) : Sender :=
  match s.net.sending with
  | some msg => { s with running := some slot, sent := s.sent ++ [msg] }
  | none => { s with net := { s.net with isSendingMsg := false }, running := none }

def sendStep (me : Int) (s : Sender) : SendEvent → Option Sender
  | .call msg =>
      match nextFreeMsgInQueue 0 s.net with
      | (none, _) => some s
      | (some slot, net) =>
          let net := net.assign slot fun _ => msg
          match sendMsgEnter me slot net with
          | none => some { s with net := net }
          | some (true, net) => some { s with net := net }
          | some (false, net) => some ({ s with net := net }.loop slot)
  | .ack =>
      s.running.map fun slot =>
        { s with
          net := sendMsgAcked slot s.net
          acked := s.acked ++ s.net.sending.toList }.loop slot

/-- `sendMsg` takes no message while it is running. -/
def NotNested (me : Int) (s : Sender) : SendEvent → Prop
  | .call msg => s.net.isSendingMsg = true → ¬ msg.Proper me
  | .ack => True

instance (me : Int) (s : Sender) (e : SendEvent) : Decidable (NotNested me s e) := by
  cases e <;> unfold NotNested <;> infer_instance

/-- The numbers of the messages to `d`, in order. -/
def numbersTo (d : Int) (msgs : List Mimsg) : List Int :=
  (msgs.filter fun msg => msg.toHost = d).map Mimsg.seqno

def Sender.ackedBy (d : Int) (s : Sender) : Nat := (numbersTo d s.acked).length

/-- 0, 1, 2, … -/
def firstNumbers (k : Nat) : List Int := (List.range k).map fun i : Nat => (i : Int)

structure NumbersOk (s : Sender) : Prop where
  numbers : ∀ d, numbersTo d s.sent = firstNumbers (numbersTo d s.sent).length
  drained : s.net.sndQueue.size = 0 → ∀ d, s.net.sndSeqs d = s.ackedBy d

section

variable {me d : Int} {s s' : Sender} {msg : Mimsg} {msgs : List Mimsg} {q : Queue} {slot : Nat}

theorem firstNumbers_succ (k : Nat) : firstNumbers (k + 1) = firstNumbers k ++ [(k : Int)] := by
  rw [firstNumbers, List.range_succ, List.map_append]
  rfl

theorem length_firstNumbers (k : Nat) : (firstNumbers k).length = k := by
  rw [firstNumbers, List.length_map, List.length_range]

theorem numbersTo_self : numbersTo msg.toHost (msgs ++ [msg]) =
    numbersTo msg.toHost msgs ++ [msg.seqno] := by
  simp [numbersTo]

theorem numbersTo_other (h : msg.toHost ≠ d) :
    numbersTo d (msgs ++ [msg]) = numbersTo d msgs := by
  simp [numbersTo, h]

/-! ## The invariant -/

/-- The counters and what has been transmitted before the message that is waited for. -/
structure Counted (s : Sender) (sent : List Mimsg) : Prop where
  numbers : ∀ d, numbersTo d sent = firstNumbers (s.ackedBy d)
  counters : ∀ d, s.net.sndSeqs d = s.ackedBy d

structure Idle (s : Sender) : Prop where
  running : s.running = none
  empty : s.net.sndQueue.Empty
  quiet : s.net.isSendingMsg = false
  counted : Counted s s.sent

structure Waiting (s : Sender) (msg : Mimsg) (before : List Mimsg) : Prop where
  running : s.running = some s.net.sndQueue.head
  single : s.net.sndQueue.Single msg
  busy : s.net.isSendingMsg = true
  sent : s.sent = before ++ [msg]
  number : msg.seqno = s.ackedBy msg.toHost
  counted : Counted s before

inductive SenderOk (s : Sender) : Prop
  | idle (h : Idle s)
  | waiting (msg : Mimsg) (before : List Mimsg) (h : Waiting s msg before)

theorem Idle.init : Idle initSender where
  running := rfl
  empty := ⟨rfl, rfl⟩
  quiet := rfl
  counted := ⟨fun _ => rfl, fun _ => rfl⟩

theorem Waiting.numbers (h : Waiting s msg msgs) (d : Int) :
    ∃ k, numbersTo d s.sent = firstNumbers k := by
  rw [h.sent]
  by_cases hd : msg.toHost = d
  · subst hd
    refine ⟨s.ackedBy msg.toHost + 1, ?_⟩
    rw [numbersTo_self, h.counted.numbers, h.number, firstNumbers_succ]
  · exact ⟨s.ackedBy d, by rw [numbersTo_other hd, h.counted.numbers]⟩

theorem SenderOk.numbersOk (h : SenderOk s) : NumbersOk s := by
  have hnumbers : ∀ d, ∃ k, numbersTo d s.sent = firstNumbers k := by
    intro d
    cases h with
    | idle h => exact ⟨_, h.counted.numbers d⟩
    | waiting msg before h => exact h.numbers d
  refine ⟨fun d => ?_, fun hz d => ?_⟩
  · obtain ⟨k, hk⟩ := hnumbers d
    rw [hk, length_firstNumbers]
  · cases h with
    | idle h => exact h.counted.counters d
    | waiting msg before h =>
        rw [h.single.size] at hz
        cases hz

/-! ## One step -/

/-- A message in the slot behind the one that is waited for. -/
theorem Queue.Single.setTail (h : q.Single msg) (msg' : Mimsg) :
    (q.setSlot q.tail msg').Single msg := by
  refine ⟨h.size, ?_, h.tail⟩
  have hne : q.head ≠ q.tail := by
    rw [h.tail, maxQueueSize, maxHostNum]
    omega
  show upd q.slots q.tail msg' q.head = msg
  rw [upd_ne hne, h.head]

theorem Queue.Single.nextFree_snd {net : Net} (h : net.sndQueue.Single msg) :
    nextFreeMsgInQueue 0 net =
      (some net.sndQueue.tail, net.assign net.sndQueue.tail fun _ => blankMsg) := by
  show (net.sndQueue.nextFree.1, net.setSnd net.sndQueue.nextFree.2) = _
  rw [Queue.nextFree, if_neg (by rw [h.size]; decide)]
  rfl

theorem assign_self {net : Net} {f : Mimsg → Mimsg} :
    (net.assign slot f).sndQueue.slots slot = f (net.sndQueue.slots slot) := upd_self ..

theorem sendMsgEnter_refused {net : Net} (hm : net.sndQueue.slots slot = msg)
    (h : ¬ msg.Proper me) : sendMsgEnter me slot net = none := by
  rw [sendMsgEnter, hm]
  exact if_pos (by rw [Mimsg.Proper] at h; tauto)

/-- A message is sent while `sendMsg` is not running. -/
theorem Idle.call (h : Idle s) (hs : sendStep me s (.call msg) = some s') : SenderOk s' := by
  dsimp only [sendStep] at hs
  rw [h.empty.nextFree_snd] at hs
  dsimp only at hs
  have hblank : ((s.net.assign s.net.sndQueue.tail fun _ => blankMsg).assign
      s.net.sndQueue.tail fun _ => msg).sndQueue.Empty := (h.empty.setSlot ..).setSlot ..
  generalize hnet : (s.net.assign s.net.sndQueue.tail fun _ => blankMsg).assign
    s.net.sndQueue.tail (fun _ => msg) = net at hs hblank
  have hslot : net.sndQueue.tail = s.net.sndQueue.tail := by rw [← hnet]; rfl
  have hmsg : net.sndQueue.slots net.sndQueue.tail = msg := by
    rw [hslot, ← hnet]
    exact assign_self
  have hquiet : net.isSendingMsg = false := by rw [← hnet]; exact h.quiet
  have hseqs : net.sndSeqs = s.net.sndSeqs := by rw [← hnet]; rfl
  have hcounters : ∀ d, net.sndSeqs d = s.ackedBy d := by
    rw [hseqs]
    exact h.counted.counters
  rw [← hslot] at hs
  by_cases hp : msg.Proper me
  · obtain ⟨net', he, hsingle, hhead, hbusy, hseqs'⟩ :=
      sendMsgEnter_single hblank hquiet hmsg hp.1 hp.2.1 hp.2.2
    rw [he] at hs
    cases hs
    rw [Sender.loop, hsingle.sending, ← hhead]
    refine .waiting (net.numbered msg) s.sent ⟨rfl, hsingle, hbusy, rfl, hcounters msg.toHost,
      h.counted.numbers, ?_⟩
    dsimp only
    rw [hseqs']
    exact hcounters
  · rw [sendMsgEnter_refused hmsg hp] at hs
    cases hs
    exact .idle ⟨h.running, hblank, hquiet, h.counted.numbers, hcounters⟩

/-- A message that `sendMsg` refuses while it is running. -/
theorem Waiting.refused {m : Mimsg} (h : Waiting s msg msgs) (hp : ¬ m.Proper me)
    (hs : sendStep me s (.call m) = some s') : SenderOk s' := by
  dsimp only [sendStep] at hs
  rw [h.single.nextFree_snd] at hs
  dsimp only at hs
  rw [sendMsgEnter_refused assign_self hp] at hs
  cases hs
  exact .waiting msg msgs ⟨h.running, (h.single.setTail _).setTail _, h.busy, h.sent, h.number,
    h.counted.numbers, h.counted.counters⟩

/-- The acknowledgement of a message is counted for its destination. -/
theorem Sender.ackedBy_snoc {s₁ : Sender} (h : s₁.acked = s.acked ++ [msg]) (d : Int) :
    s₁.ackedBy d = s.ackedBy d + if msg.toHost = d then 1 else 0 := by
  rw [Sender.ackedBy, h]
  split
  · next hd =>
      subst hd
      rw [numbersTo_self, List.length_append]
      rfl
  · next hd => rw [numbersTo_other hd]; rfl

/-- The message that is waited for is acknowledged, and the call returns. -/
theorem Waiting.acked (h : Waiting s msg msgs) (hs : sendStep me s .ack = some s') :
    SenderOk s' := by
  dsimp only [sendStep] at hs
  rw [h.running, Option.map_some, h.single.sending] at hs
  cases hs
  have hempty : (sendMsgAcked s.net.sndQueue.head s.net).sndQueue.Empty := h.single.dequeue
  have hnone : (sendMsgAcked s.net.sndQueue.head s.net).sending = none := by
    show Option.map _ (Queue.top _) = none
    rw [Queue.top, if_pos hempty.1]
    rfl
  have hseqs : (sendMsgAcked s.net.sndQueue.head s.net).sndSeqs =
      upd s.net.sndSeqs msg.toHost (s.net.sndSeqs msg.toHost + 1) := by
    show upd s.net.sndSeqs (s.net.sndQueue.slots s.net.sndQueue.head).toHost _ = _
    rw [h.single.head]
  rw [Sender.loop, hnone]
  refine .idle ⟨rfl, hempty, rfl, fun d => ?_, fun d => ?_⟩
  · dsimp only
    rw [Sender.ackedBy_snoc rfl d, h.sent]
    by_cases hd : msg.toHost = d
    · subst hd
      rw [if_pos rfl, numbersTo_self, h.counted.numbers, h.number, firstNumbers_succ]
    · rw [if_neg hd, numbersTo_other hd, h.counted.numbers]
      rfl
  · dsimp only
    rw [Sender.ackedBy_snoc rfl d, hseqs]
    by_cases hd : msg.toHost = d
    · subst hd
      rw [if_pos rfl, upd_self, h.counted.counters]
      rfl
    · rw [if_neg hd, upd_ne (Ne.symm hd), h.counted.counters]
      rfl

theorem SenderOk.step {e : SendEvent} (h : SenderOk s) (hok : NotNested me s e)
    (hs : sendStep me s e = some s') : SenderOk s' := by
  cases h with
  | idle h =>
      cases e with
      | call msg => exact h.call hs
      | ack =>
          dsimp only [sendStep] at hs
          rw [h.running] at hs
          cases hs
  | waiting msg before h =>
      cases e with
      | call m => exact h.refused (hok h.busy) hs
      | ack => exact h.acked hs

/-- In every run in which `sendMsg` is not called while it is running, the messages to
each destination carry the numbers 0, 1, 2, … in the order of transmission, and with
the queue drained each counter is the number of acknowledged messages. -/
theorem numbers_consecutive_unless_nested (me : Int) {s : Sender}
    (h : Reach (sendStep me) (NotNested me) initSender s) : NumbersOk s :=
  (h.invariant (.idle .init) SenderOk.step).numbersOk

end

/-- A message from host 0. -/
def msgTo (toHost : Int) : Mimsg := { blankMsg with
  fromHost := 0
  toHost := toHost
  command := 0 }

theorem numbers_consecutive_unless_nested_two : ∃ s,
    Reach (sendStep 0) (NotNested 0) initSender s ∧ numbersTo 1 s.sent = [0, 1] ∧
    NumbersOk s := by
  obtain ⟨s, hreach, hp⟩ := exists_reach (sendStep 0)
    (fun s e => decide (NotNested 0 s e)) (fun _ _ => of_decide_eq_true) initSender
    [.call (msgTo 1), .call blankMsg, .ack, .call (msgTo 2), .ack, .call (msgTo 1), .ack]
    (fun s => decide (numbersTo 1 s.sent = [0, 1])) (by decide)
  exact ⟨s, hreach, of_decide_eq_true hp, numbers_consecutive_unless_nested 0 hreach⟩

/-- While host 0 waits for the acknowledgement of host 1, a handler sends a message to
host 2. Its acknowledgement is counted for host 1, and the next message to host 2
carries the same number again. -/
theorem nested_send_reuses_number : ∃ s, Reach (sendStep 0) anyStep initSender s ∧
    s.net.sndQueue.size = 0 ∧ numbersTo 2 s.sent = [0, 0] ∧
    s.net.sndSeqs 1 = 2 ∧ s.ackedBy 1 = 1 ∧ ¬ NumbersOk s := by
  obtain ⟨s, hreach, hp⟩ := exists_reach_any (sendStep 0) initSender
    [.call (msgTo 1), .call (msgTo 2), .ack, .ack, .call (msgTo 2), .ack]
    (fun s => decide (s.net.sndQueue.size = 0 ∧ numbersTo 2 s.sent = [0, 0] ∧
      s.net.sndSeqs 1 = 2 ∧ s.ackedBy 1 = 1)) (by decide)
  obtain ⟨hsize, hnumbers, hseqs, hacked⟩ := of_decide_eq_true hp
  refine ⟨s, hreach, hsize, hnumbers, hseqs, hacked, fun hok => ?_⟩
  have hfirst := hok.numbers 2
  rw [hnumbers] at hfirst
  exact absurd hfirst (by decide)

end Midsm
