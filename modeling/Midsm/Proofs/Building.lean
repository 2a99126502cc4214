import Midsm.Proofs.Rings
import Midsm.Lib.Reach

/-!
# Messages that are built while a handler runs

A message is built in the free slot behind the tail of the sending ring, and the
slot is taken in by `sendMsg` only. A handler that runs before and sends something
is given the same slot. It overwrites what has been built and moves the tail on, so
the message that `sendMsg` then transmits is whatever the next slot holds. As
long as no handler sends between the two calls, each message goes out as it was
built.
-/

namespace Midsm

open Midsm.Lib

/-- A host that sends: what the main thread is building, and what has been handed
to `sendMsg` and transmitted so far. -/
structure Builder where
  net : Net
  /-- The slot that the main thread got from `nextFreeMsgInQueue`. -/
  slot : Option Nat
  draft : Mimsg
  handed : List Mimsg
  sent : List Mimsg

def initBuilder : Builder := ⟨initnet, none, blankMsg, [], []⟩

/-- A message that `sendMsg` does not refuse. -/
def Mimsg.Proper (me : Int) (msg : Mimsg) : Prop :=
  msg.fromHost = me ∧ msg.toHost ≠ -1 ∧ msg.command ≠ -1

instance (me : Int) (msg : Mimsg) : Decidable (msg.Proper me) :=
  inferInstanceAs (Decidable (_ ∧ _ ∧ _))

inductive BuildEvent where
  /-- `msg = nextFreeMsgInQueue(0)` in the main thread. -/
  | take
  /-- An assignment to a field of `msg`, or an `apendMsgData`. -/
  | assign (f : Mimsg → Mimsg)
  | send
  /-- `sigio_handler` runs, and builds and sends these messages. -/
  | handler (msgs : List (Mimsg → Mimsg))

/-- A message built and sent without interruption. -/
def Builder.post (me : Int) (f : Mimsg → Mimsg) (b : Builder) : Option Builder :=
  match nextFreeMsgInQueue 0 b.net with
  | (none, _) => none
  | (some slot, net) =>
      if (f blankMsg).Proper me then
        let (_, net, sent) := sendMsg me slot (net.assign slot f)
        some { b with net := net, handed := b.handed ++ [f blankMsg], sent := b.sent ++ sent }
      else none

def Builder.postAll (me : Int) : List (Mimsg → Mimsg) → Builder → Option Builder
  | [], b => some b
  | f :: rest, b => (b.post me f).bind (Builder.postAll me rest)

def buildStep (me : Int) (b : Builder) : BuildEvent → Option Builder
  | .take =>
      match b.slot, nextFreeMsgInQueue 0 b.net with
      | none, (some slot, net) => some { b with net := net, slot := some slot, draft := blankMsg }
      | _, _ => none
  | .assign f =>
      b.slot.map fun slot => { b with net := b.net.assign slot f, draft := f b.draft }
  | .send =>
      match b.slot with
      | none => none
      | some slot =>
          if b.draft.Proper me then
            let (_, net, sent) := sendMsg me slot b.net
            some { b with
              net := net
              slot := none
              handed := b.handed ++ [b.draft]
              sent := b.sent ++ sent }
          else none
  | .handler msgs => b.postAll me msgs

/-- No handler sends while the main thread has a slot that it has not handed to
`sendMsg`. -/
def Undisturbed (b : Builder) : BuildEvent → Prop
  | .handler msgs => b.slot = none ∨ msgs = []
  | _ => True

/-- A message but for the number that `sendMsg` gives it. -/
def Mimsg.unnumbered (msg : Mimsg) : Mimsg := { msg with seqno := -1 }

/-- Each message handed to `sendMsg` has been transmitted, once and as it was built,
and nothing else has. -/
def Intact (b : Builder) : Prop :=
  b.sent.map Mimsg.unnumbered = b.handed.map Mimsg.unnumbered

structure BuilderInv (b : Builder) : Prop where
  empty : b.net.sndQueue.Empty
  quiet : b.net.isSendingMsg = false
  /-- The slot of the main thread is the one at the tail, with what it has built. -/
  draft : ∀ slot, b.slot = some slot → slot = b.net.sndQueue.tail ∧
    b.net.sndQueue.slots slot = b.draft
  intact : Intact b

section

variable {me : Int} {b b' : Builder}

theorem BuilderInv.init : BuilderInv initBuilder where
  empty := ⟨rfl, rfl⟩
  quiet := rfl
  draft _ h := nomatch h
  intact := rfl

theorem Intact.send (h : Intact b) (msg : Mimsg) {net : Net} {slot : Option Nat}
    {draft : Mimsg} (s : Net) :
    Intact ⟨net, slot, draft, b.handed ++ [msg], b.sent ++ [s.numbered msg]⟩ := by
  unfold Intact
  rw [List.map_append, List.map_append, h]
  rfl

theorem BuilderInv.take (h : BuilderInv b) (hs : buildStep me b .take = some b') :
    BuilderInv b' := by
  dsimp only [buildStep] at hs
  rw [h.empty.nextFree_snd] at hs
  split at hs
  · next hslot hfree =>
      cases hfree
      cases hs
      refine ⟨h.empty.setSlot .., h.quiet, fun slot he => ?_, h.intact⟩
      cases he
      exact ⟨rfl, upd_self ..⟩
  · cases hs

theorem BuilderInv.assign (h : BuilderInv b) {f : Mimsg → Mimsg}
    (hs : buildStep me b (.assign f) = some b') : BuilderInv b' := by
  obtain ⟨slot, hslot, rfl⟩ := Option.map_eq_some_iff.mp hs
  obtain ⟨htail, hdraft⟩ := h.draft slot hslot
  refine ⟨h.empty.setSlot .., h.quiet, fun slot' he => ?_, h.intact⟩
  obtain rfl : slot = slot' := Option.some.inj (hslot.symm.trans he)
  refine ⟨htail, ?_⟩
  show upd _ slot (f (b.net.sndQueue.slots slot)) slot = f b.draft
  rw [upd_self, hdraft]

theorem BuilderInv.send (h : BuilderInv b) (hs : buildStep me b .send = some b') :
    BuilderInv b' := by
  dsimp only [buildStep] at hs
  split at hs
  · cases hs
  · next slot hslot =>
      obtain ⟨rfl, hdraft⟩ := h.draft slot hslot
      split at hs
      · next hproper =>
          obtain ⟨net, he, hempty, hquiet⟩ := sendMsg_single h.empty h.quiet hdraft
            hproper.1 hproper.2.1 hproper.2.2
          rw [he] at hs
          cases hs
          exact ⟨hempty, hquiet, fun _ he => (nomatch he), h.intact.send b.draft b.net⟩
      · cases hs

/-- A message of a handler, while the main thread has no slot. -/
theorem BuilderInv.post (h : BuilderInv b) (hslot : b.slot = none) {f : Mimsg → Mimsg}
    (hs : b.post me f = some b') : BuilderInv b' ∧ b'.slot = none := by
  unfold Builder.post at hs
  rw [h.empty.nextFree_snd] at hs
  dsimp only at hs
  split at hs
  · next hproper =>
      have hm : ((b.net.assign b.net.sndQueue.tail fun _ => blankMsg).assign
          b.net.sndQueue.tail f).sndQueue.slots b.net.sndQueue.tail = f blankMsg := by
        show upd _ _ (f (upd _ _ _ _)) _ = _
        rw [upd_self, upd_self]
      obtain ⟨net, he, hempty, hquiet⟩ := sendMsg_single
        (s := (b.net.assign b.net.sndQueue.tail fun _ => blankMsg).assign
          b.net.sndQueue.tail f) ((h.empty.setSlot _ blankMsg).setSlot ..) h.quiet hm
        hproper.1 hproper.2.1 hproper.2.2
      rw [show sendMsg me b.net.sndQueue.tail _ = _ from he] at hs
      cases hs
      refine ⟨⟨hempty, hquiet, fun _ he => ?_, h.intact.send (f blankMsg) _⟩, hslot⟩
      rw [hslot] at he
      cases he
  · cases hs

theorem BuilderInv.postAll (msgs : List (Mimsg → Mimsg)) (h : BuilderInv b)
    (hslot : b.slot = none) (hs : b.postAll me msgs = some b') : BuilderInv b' := by
  induction msgs generalizing b with
  | nil =>
      cases hs
      exact h
  | cons f rest ih =>
      obtain ⟨b₁, hb₁, hs⟩ := Option.bind_eq_some_iff.mp hs
      obtain ⟨h₁, hslot₁⟩ := h.post hslot hb₁
      exact ih h₁ hslot₁ hs

theorem BuilderInv.step (h : BuilderInv b) {e : BuildEvent} (hok : Undisturbed b e)
    (hs : buildStep me b e = some b') : BuilderInv b' := by
  cases e with
  | take => exact h.take hs
  | assign f => exact h.assign hs
  | send => exact h.send hs
  | handler msgs =>
      rcases hok with hslot | rfl
      · exact h.postAll msgs hslot hs
      · cases hs
        exact h

/-- While no handler sends between the main thread's `nextFreeMsgInQueue` and its
`sendMsg`, every message is transmitted as it was built, and nothing else is. -/
theorem messages_intact (me : Int) {b : Builder}
    (h : Reach (buildStep me) Undisturbed initBuilder b) : Intact b := by
  have hinv : BuilderInv b := h.invariant BuilderInv.init fun ht hok hs => ht.step hok hs
  exact hinv.intact

def undisturbed (b : Builder) : BuildEvent → Bool
  | .handler msgs => b.slot.isNone || msgs.isEmpty
  | _ => true

theorem undisturbed_of_check (b : Builder) (e : BuildEvent) (h : undisturbed b e = true) :
    Undisturbed b e := by
  cases e with
  | handler msgs =>
      rw [undisturbed, Bool.or_eq_true, Option.isNone_iff_eq_none, List.isEmpty_iff] at h
      exact h
  | _ => trivial

/-- The fields of a message of host 0. -/
def header (dest command : Int) (msg : Mimsg) : Mimsg :=
  { msg with fromHost := 0, toHost := dest, command := command }

/-- A handler answers before the main thread builds and after it has sent. -/
theorem messages_intact_three :
    ∃ b : Builder, Intact b ∧ b.sent.map Mimsg.toHost = [2, 1, 2] := by
  obtain ⟨b, hrun, hp⟩ := exists_reach (buildStep 0) undisturbed undisturbed_of_check
    initBuilder [.handler [header 2 8], .take, .assign (header 1 9), .handler [], .send,
      .handler [header 2 8]]
    (fun b : Builder => b.sent.map Mimsg.toHost = [2, 1, 2]) (by decide +kernel)
  exact ⟨b, messages_intact 0 hrun, of_decide_eq_true hp⟩

/-- A handler answers host 2 while the main thread builds a message for host 1.
That message is never transmitted; an empty slot is. -/
theorem message_overwritten :
    ∃ b, Reach (buildStep 0) anyStep initBuilder b ∧ ¬ Intact b := by
  obtain ⟨b, hrun, hp⟩ := exists_reach_any (buildStep 0) initBuilder
    [.take, .assign (header 1 9), .handler [header 2 8], .send]
    (fun b : Builder => b.sent.map Mimsg.toHost = [2, 0] && b.handed.map Mimsg.toHost = [2, 1])
    (by decide +kernel)
  rw [Bool.and_eq_true, decide_eq_true_eq, decide_eq_true_eq] at hp
  refine ⟨b, hrun, fun h => ?_⟩
  have hto := congrArg (List.map Mimsg.toHost) h
  rw [List.map_map, List.map_map] at hto
  have hsame : b.sent.map Mimsg.toHost = b.handed.map Mimsg.toHost := hto
  rw [hp.1, hp.2] at hsame
  exact absurd hsame (by decide)

end

end Midsm
