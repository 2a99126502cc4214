import Midsm.Proofs.Rings
import Midsm.Lib.Reach

/-!
# One channel of datagrams

`sendMsg` transmits a message until its acknowledgement comes or the attempts are
used up, and `sigio_handler` acknowledges and dispatches whatever arrives. `Link`
is one sender, one receiver and the two streams between them, from which any
datagram can be lost and in which any can be late. The receiver counts what it
reads but does not look at the numbers, so a message that has arrived and whose
acknowledgement is lost or late arrives again and is dispatched again. As long
as that does not happen, each message is dispatched once and in order.
-/

namespace Midsm

open Midsm.Lib

structure Link where
  snd : Net
  /-- The slot of the message that `sendMsg` was called with, until it returns. -/
  slot : Option Nat
  retryNum : Nat
  rcv : Net
  data : List Mimsg
  acks : List Int
  handed : List Mimsg
  dispatched : List Mimsg

def initLink : Link := ⟨initnet, none, 0, initnet, [], [], [], []⟩

inductive LinkEvent where
  /-- A message is built and handed to `sendMsg`, which transmits it. -/
  | call (msg : Mimsg)
  /-- No acknowledgement in time. -/
  | again
  /-- `sigio_handler` runs. -/
  | arrive
  | loseData
  /-- `sendMsg` reads an acknowledgement. -/
  | ack
  | loseAck

def linkCall (src dst : Nat) (msg : Mimsg) (w : Link) : Option Link :=
  if w.slot = none ∧ msg.fromHost = src ∧ msg.toHost = dst ∧ msg.command ≠ -1 then
    match nextFreeMsgInQueue 0 w.snd with
    | (none, _) => none
    | (some slot, snd) =>
        match sendMsgEnter src slot (snd.assign slot fun _ => msg) with
        | some (false, snd) => some { w with
            snd := snd
            slot := some slot
            retryNum := 1
            data := w.data ++ snd.sending.toList
            handed := w.handed ++ snd.sending.toList }
        | _ => none
  else none

def linkStep (src dst : Nat) (w : Link) : LinkEvent → Option Link
  | .call msg => linkCall src dst msg w
  | .again =>
      if w.slot.isSome ∧ w.retryNum < maxRetryNum then
        some { w with
          retryNum := w.retryNum + 1
          data := w.data ++ w.snd.sending.toList }
      else none
  | .arrive =>
      match w.data with
      | [] => none
      | datagram :: rest =>
          let (rcv, acks, msgs) := sigioHandler dst [(src, some datagram)] w.rcv
          some { w with
            rcv := rcv
            data := rest
            acks := w.acks ++ acks.map Prod.snd
            dispatched := w.dispatched ++ msgs }
  | .loseData => if w.data = [] then none else some { w with data := w.data.tail }
  | .ack =>
      match w.slot, w.acks with
      | some slot, seqno :: rest =>
          if w.snd.sending.map Mimsg.seqno = some seqno then
            some { w with
              snd := { sendMsgAcked slot w.snd with isSendingMsg := false }
              slot := none
              acks := rest }
          else some { w with acks := rest }
      | _, _ => none
  | .loseAck => if w.acks = [] then none else some { w with acks := w.acks.tail }

/-- What arrives has not arrived before. -/
def FirstArrival (w : Link) : LinkEvent → Prop
  | .arrive => ∀ datagram ∈ w.data.head?, ∀ msg ∈ w.dispatched, msg.seqno ≠ datagram.seqno
  | _ => True

/-- The messages handed to `sendMsg` are dispatched once and in order, each before
`sendMsg` returns. -/
structure ExactlyOnce (w : Link) : Prop where
  order : w.dispatched <+: w.handed
  all : w.slot = none → w.dispatched = w.handed

/-! ## The invariant -/

/-- Whether `sendMsg` is running. If it is, for the message `top`, those before it
have been acknowledged. -/
inductive LinkTurn (dst : Nat) (w : Link) : Prop
  | idle : w.slot = none → w.snd.sndQueue.Empty → w.snd.isSendingMsg = false →
      w.snd.sndSeqs dst = w.handed.length → w.dispatched = w.handed →
      (∀ msg ∈ w.handed, msg.seqno < w.handed.length) → LinkTurn dst w
  | busy (top : Mimsg) (done : List Mimsg) : w.slot = some w.snd.sndQueue.head →
      w.snd.sndQueue.Single top → top.toHost = dst → top.seqno = done.length →
      w.snd.sndSeqs dst = done.length → w.handed = done ++ [top] →
      (w.dispatched = done ∨ w.dispatched = w.handed) →
      (∀ msg ∈ done, msg.seqno < done.length) → LinkTurn dst w

structure LinkInv (dst : Nat) (w : Link) : Prop where
  rcv : w.rcv.recvQueue.Empty
  data : ∀ datagram ∈ w.data, datagram ∈ w.handed
  acks : ∀ seqno ∈ w.acks, ∃ msg ∈ w.dispatched, msg.seqno = seqno
  turn : LinkTurn dst w

section

variable {src dst : Nat} {w w' : Link}

theorem LinkInv.init (dst : Nat) : LinkInv dst initLink where
  rcv := ⟨rfl, rfl⟩
  data _ h := nomatch h
  acks _ h := nomatch h
  turn := .idle rfl ⟨rfl, rfl⟩ rfl rfl rfl fun _ h => nomatch h

theorem LinkInv.exactlyOnce (h : LinkInv dst w) : ExactlyOnce w := by
  cases h.turn with
  | idle hslot _ _ _ hd => exact ⟨by rw [hd], fun _ => hd⟩
  | busy top done hslot _ _ _ _ hh hd =>
      refine ⟨?_, fun hn => ?_⟩
      · rcases hd with hd | hd
        · rw [hd, hh]
          exact List.prefix_append ..
        · rw [hd]
      · rw [hn] at hslot
        cases hslot

theorem LinkInv.call (h : LinkInv dst w) {msg : Mimsg}
    (hs : linkCall src dst msg w = some w') : LinkInv dst w' := by
  unfold linkCall at hs
  split at hs
  · next hok =>
      obtain ⟨hslot, hfrom, hto, hcommand⟩ := hok
      cases h.turn with
      | busy top done hb =>
          rw [hslot] at hb
          cases hb
      | idle _ hq hflag hseq hd hlt =>
          have hdst : msg.toHost ≠ -1 := by
            rw [hto]
            omega
          have hbuilt : ((w.snd.assign w.snd.sndQueue.tail fun _ => blankMsg).assign
              w.snd.sndQueue.tail fun _ => msg).sndQueue.slots w.snd.sndQueue.tail = msg :=
            upd_self ..
          obtain ⟨snd, he, hsingle, hhead, -, hseqs⟩ := sendMsgEnter_single
            (s := (w.snd.assign w.snd.sndQueue.tail fun _ => blankMsg).assign
              w.snd.sndQueue.tail fun _ => msg)
            ((hq.setSlot _ blankMsg).setSlot ..) hflag hbuilt hfrom hdst hcommand
          rw [hq.nextFree_snd] at hs
          dsimp only at hs
          rw [show sendMsgEnter src w.snd.sndQueue.tail _ = some (false, snd) from he] at hs
          dsimp only at hs
          rw [hsingle.sending] at hs
          obtain rfl := Option.some.inj hs
          refine ⟨h.rcv, fun datagram hm => ?_, h.acks, ?_⟩
          · rcases List.mem_append.mp hm with hm | hm
            · exact List.mem_append_left _ (h.data datagram hm)
            · exact List.mem_append_right _ hm
          · refine .busy _ w.handed (by dsimp only; rw [hhead]; rfl) hsingle hto ?_ ?_ rfl
              (Or.inl hd) hlt
            · show w.snd.sndSeqs msg.toHost = w.handed.length
              rw [hto]
              exact hseq
            · dsimp only
              rw [hseqs]
              exact hseq
  · cases hs

theorem LinkInv.arrive (hne : src ≠ dst) (h : LinkInv dst w) (hok : FirstArrival w .arrive)
    (hs : linkStep src dst w .arrive = some w') : LinkInv dst w' := by
  cases hdata : w.data with
  | nil =>
      simp only [linkStep, hdata] at hs
      cases hs
  | cons datagram rest =>
      obtain ⟨rcv, he, hempty⟩ := sigioHandler_one hne h.rcv datagram
      simp only [linkStep, hdata, he] at hs
      obtain rfl := Option.some.inj hs
      have hfirst : ∀ msg ∈ w.dispatched, msg.seqno ≠ datagram.seqno :=
        hok datagram (by rw [hdata]; rfl)
      have hmem : datagram ∈ w.handed := h.data datagram (by
        rw [hdata]
        exact List.mem_cons_self)
      refine ⟨hempty, fun d hd => h.data d ?_, fun seqno hm => ?_, ?_⟩
      · rw [hdata]
        exact List.mem_cons_of_mem _ hd
      · rcases List.mem_append.mp hm with hm | hm
        · obtain ⟨msg, hmsg, hq⟩ := h.acks seqno hm
          exact ⟨msg, List.mem_append_left _ hmsg, hq⟩
        · exact ⟨datagram, List.mem_append_right _ (List.mem_singleton_self _),
            (List.mem_singleton.mp hm).symm⟩
      · cases h.turn with
        | idle _ _ _ _ hd =>
            rw [← hd] at hmem
            exact absurd rfl (hfirst datagram hmem)
        | busy top done hslot hq hto hseq hseqs hh hd hlt =>
            rcases hd with hd | hd
            · rw [hh] at hmem
              rcases List.mem_append.mp hmem with hm | hm
              · rw [← hd] at hm
                exact absurd rfl (hfirst datagram hm)
              · obtain rfl := List.mem_singleton.mp hm
                refine .busy datagram done hslot hq hto hseq hseqs hh (Or.inr ?_) hlt
                dsimp only
                rw [hd, hh]
            · rw [← hd] at hmem
              exact absurd rfl (hfirst datagram hmem)

theorem LinkInv.ack (h : LinkInv dst w) (hs : linkStep src dst w .ack = some w') :
    LinkInv dst w' := by
  cases h.turn with
  | idle hslot =>
      simp only [linkStep, hslot] at hs
      cases hs
  | busy top done hslot hq hto hseq hseqs hh hd hlt =>
      cases hacks : w.acks with
      | nil =>
          simp only [linkStep, hslot, hacks] at hs
          cases hs
      | cons seqno rest =>
          have hrest : ∀ x ∈ rest, ∃ msg ∈ w.dispatched, msg.seqno = x := fun x hx =>
            h.acks x (by rw [hacks]; exact List.mem_cons_of_mem _ hx)
          simp only [linkStep, hslot, hacks, hq.sending] at hs
          split at hs
          · next hmatch =>
              obtain rfl := Option.some.inj hs
              refine ⟨h.rcv, h.data, hrest, ?_⟩
              -- the acknowledged message was dispatched, and no earlier one has its number
              have hall : w.dispatched = w.handed := by
                refine hd.resolve_left fun hd => ?_
                obtain ⟨msg, hm, hmsg⟩ := h.acks seqno (by rw [hacks]; exact List.mem_cons_self)
                rw [hd] at hm
                have hnum := hlt msg hm
                rw [hmsg, ← Option.some.inj hmatch, hseq] at hnum
                exact absurd hnum (lt_irrefl _)
              have hlen : w.handed.length = done.length + 1 := by
                rw [hh, List.length_append, List.length_singleton]
              refine .idle rfl hq.dequeue rfl ?_ hall fun msg hm => ?_
              · show upd w.snd.sndSeqs (w.snd.sndQueue.slots w.snd.sndQueue.head).toHost _ dst = _
                rw [hq.head, hto, upd_self, hseqs, hlen]
                rfl
              · dsimp only at hm ⊢
                rw [hlen]
                rw [hh] at hm
                rcases List.mem_append.mp hm with hm | hm
                · have := hlt msg hm
                  push_cast
                  omega
                · rw [List.mem_singleton.mp hm, hseq]
                  push_cast
                  omega
          · obtain rfl := Option.some.inj hs
            exact ⟨h.rcv, h.data, hrest, .busy top done rfl hq hto hseq hseqs hh hd hlt⟩

theorem LinkTurn.congr (h : LinkTurn dst w) (hsnd : w'.snd = w.snd) (hslot : w'.slot = w.slot)
    (hh : w'.handed = w.handed) (hd : w'.dispatched = w.dispatched) : LinkTurn dst w' := by
  cases h with
  | idle h₁ h₂ h₃ h₄ h₅ h₆ =>
      refine .idle ?_ ?_ ?_ ?_ ?_ ?_ <;> (try rw [hslot]) <;> (try rw [hsnd]) <;>
        (try rw [hd]) <;> (try rw [hh]) <;> assumption
  | busy top done h₁ h₂ h₃ h₄ h₅ h₆ h₇ h₈ =>
      refine .busy top done ?_ ?_ h₃ h₄ ?_ ?_ ?_ h₈ <;> (try rw [hslot]) <;>
        (try rw [hsnd]) <;> (try rw [hd]) <;> (try rw [hh]) <;> assumption

theorem LinkInv.step (hne : src ≠ dst) (h : LinkInv dst w) {e : LinkEvent}
    (hok : FirstArrival w e) (hs : linkStep src dst w e = some w') : LinkInv dst w' := by
  cases e with
  | call msg => exact h.call hs
  | arrive => exact h.arrive hne hok hs
  | ack => exact h.ack hs
  | again =>
      dsimp only [linkStep] at hs
      split at hs
      · next hagain =>
          obtain rfl := Option.some.inj hs
          refine ⟨h.rcv, fun datagram hm => ?_, h.acks, h.turn.congr rfl rfl rfl rfl⟩
          rcases List.mem_append.mp hm with hm | hm
          · exact h.data datagram hm
          · cases h.turn with
            | idle hslot =>
                rw [hslot] at hagain
                exact absurd hagain.1 Bool.false_ne_true
            | busy top done _ hq _ _ _ hh =>
                rw [hq.sending] at hm
                dsimp only
                rw [hh]
                exact List.mem_append_right _ hm
      · cases hs
  | loseData =>
      dsimp only [linkStep] at hs
      split at hs
      · cases hs
      · obtain rfl := Option.some.inj hs
        exact ⟨h.rcv, fun d hd => h.data d (List.mem_of_mem_tail hd), h.acks,
          h.turn.congr rfl rfl rfl rfl⟩
  | loseAck =>
      dsimp only [linkStep] at hs
      split at hs
      · cases hs
      · obtain rfl := Option.some.inj hs
        exact ⟨h.rcv, h.data, fun x hx => h.acks x (List.mem_of_mem_tail hx),
          h.turn.congr rfl rfl rfl rfl⟩

/-- While no message arrives that has arrived before, each is dispatched once and
in order, whatever is lost or late. -/
theorem dispatched_exactly_once (src dst : Nat) (hne : src ≠ dst) {w : Link}
    (h : Reach (linkStep src dst) FirstArrival initLink w) : ExactlyOnce w := by
  have hinv : LinkInv dst w :=
    h.invariant (LinkInv.init dst) fun ht hok hs => ht.step hne hok hs
  exact hinv.exactlyOnce

def firstArrival (w : Link) : LinkEvent → Bool
  | .arrive => w.data.head?.all fun datagram =>
      w.dispatched.all fun msg => msg.seqno ≠ datagram.seqno
  | _ => true

theorem firstArrival_of_check (w : Link) (e : LinkEvent) (h : firstArrival w e = true) :
    FirstArrival w e := by
  cases e with
  | arrive =>
      intro datagram hd msg hm
      rw [firstArrival, Option.mem_def.mp hd, Option.all_some] at h
      exact of_decide_eq_true (List.all_eq_true.mp h msg hm)
  | _ => trivial

/-- A message with nothing but a header. -/
def plainMsg (src dst command : Int) : Mimsg := { blankMsg with
  fromHost := src
  toHost := dst
  command := command }

/-- The first datagram of one message is lost, and the second one of the next. -/
theorem dispatched_exactly_once_two :
    ∃ w : Link, ExactlyOnce w ∧ w.slot = none ∧ w.dispatched.map Mimsg.command = [1, 2] := by
  obtain ⟨w, hrun, hp⟩ := exists_reach (linkStep 0 1) firstArrival firstArrival_of_check
    initLink
    [.call (plainMsg 0 1 1), .loseData, .again, .arrive, .ack,
      .call (plainMsg 0 1 2), .again, .arrive, .ack, .loseData]
    (fun w : Link => w.slot = none && w.dispatched.map Mimsg.command = [1, 2])
    (by decide +kernel)
  rw [Bool.and_eq_true, decide_eq_true_eq, decide_eq_true_eq] at hp
  exact ⟨w, dispatched_exactly_once 0 1 (by decide) hrun, hp⟩

/-- The acknowledgement is lost after the message has been dispatched: it comes
again, and is dispatched again. -/
theorem dispatched_twice :
    ∃ w, Reach (linkStep 0 1) anyStep initLink w ∧ ¬ ExactlyOnce w := by
  obtain ⟨w, hrun, hp⟩ := exists_reach_any (linkStep 0 1) initLink
    [.call (plainMsg 0 1 1), .arrive, .loseAck, .again, .arrive, .ack]
    (fun w : Link => w.handed.length = 1 && w.dispatched.length = 2) (by decide +kernel)
  rw [Bool.and_eq_true, decide_eq_true_eq, decide_eq_true_eq] at hp
  refine ⟨w, hrun, fun h => ?_⟩
  have hle := h.order.length_le
  omega

end

end Midsm
