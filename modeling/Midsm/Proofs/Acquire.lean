import Midsm.Proofs.Requests

/-!
# What an acquire brings

A host that takes over a lock asks its last holder for notices, and the last
holder answers with those of the intervals that are after the timestamp in the
request. The answer is all there is: it stays in flight until it is read, and
the flag that keeps `mi_lock` spinning is not lowered by anything else. So on
return the host has recorded every notice of the holder that passed the filter.

The filter compares whole vectors. An interval whose timestamp is concurrent
with the requester's, or equal to it, does not pass, and its notices do not
arrive.
-/

namespace Midsm

open Midsm.Lib

/-- From the moment `g` processes the request of `h` to the return of `h`'s
`mi_lock`. -/
def Acquires (n h g : Nat) (ts : Timestamp) (s₁ s₄ : Sys) : Prop :=
  ∃ s₂ s₃ rest, s₁.net h g = .fetchWnI ts :: rest ∧
    step n s₁ (.deliver h g) = some s₂ ∧
    Reach (step n) (fun _ e => e ≠ .op h .resume) s₂ s₃ ∧
    step n s₃ (.op h .resume) = some s₄

section

variable {n h g : Nat} {s s' : Sys} {req : Nat → Timestamp → Nat → Prop}

/-- The notices `req` are on their way from `g` to `h`, or have arrived, and `h`
spins in `mi_lock`. -/
structure Passing (h g : Nat) (req : Nat → Timestamp → Nat → Prop) (s : Sys) : Prop where
  spins : (s.host h).pc.fetches = true
  notices : (∃ msg ∈ s.net g h, wniExchange.isReply msg = true ∧
      ∀ j ts p, req j ts p → SaidNotice msg.packets j ts p) ∨
    ∀ j ts p, req j ts p → (s.host h).mem.Noted j ts p

theorem mem_put_of_mem {a u v : Nat} {r : Host × Out} {msg : Msg} (hm : msg ∈ s.net u v) :
    msg ∈ (s.put a r).net u v := by
  by_cases hu : u = a
  · subst hu
    rw [put_net_self]
    exact List.mem_append_left _ hm
  · rw [put_net_ne hu]
    exact hm

/-- A host that spins in `mi_lock` only leaves the loop. -/
theorem exec_fetches {me : Nat} {op : Op} {h : Host} {r : Host × Out}
    (hf : h.pc.fetches = true) (he : h.exec n me op = some r) : op = .resume := by
  cases hpc : h.pc <;> rw [hpc] at hf <;> cases hf
  cases op <;> simp only [Host.exec, hpc] at he <;> first | rfl | cases he

theorem Passing.step (hs : Sound n s) (hp : Passing h g req s) {e : Event}
    (hne : e ≠ .op h .resume) (he : Midsm.step n s e = some s') : Passing h g req s' := by
  obtain ⟨a, op, r, rfl, ha, hx, rfl⟩ |
    ⟨a, b, msg, rest, rfl, ha, hb, hab, hnet, rfl⟩ := step_cases he
  · -- another host's main thread
    have hah : h ≠ a := by
      rintro rfl
      exact hne (by rw [exec_fetches hp.spins hx])
    refine ⟨by rw [put_host_ne hah]; exact hp.spins, ?_⟩
    rcases hp.notices with ⟨msg, hm, hrep, hreq⟩ | hdone
    · exact Or.inl ⟨msg, mem_put_of_mem hm, hrep, hreq⟩
    · rw [put_host_ne hah]
      exact Or.inr hdone
  · have hread : MemStep n b msg.packets (s.host b) (dispatchMsg n b a msg (s.host b)) :=
      hs.read hb msg
    have hpc : (dispatchMsg n b a msg (s.host b)).1.pc = (s.host b).pc :=
      (dispatch_mem n b a msg (s.host b)).pc
    refine ⟨?_, ?_⟩
    · by_cases hbh : h = b
      · subst hbh
        rw [put_host_self, hpc]
        exact hp.spins
      · rw [put_host_ne hbh]
        exact hp.spins
    · rcases hp.notices with ⟨m, hm, hrep, hreq⟩ | hdone
      · by_cases hch : g = a ∧ h = b
        · obtain ⟨rfl, rfl⟩ := hch
          rw [hnet] at hm
          rcases List.mem_cons.mp hm with rfl | hm
          · -- the answer is read
            refine Or.inr fun j ts p hr => ?_
            rw [put_host_self]
            exact hread.grows.learns (hs.linked h hb) (hs.nowTop h hb) (hreq j ts p hr)
          · refine Or.inl ⟨m, mem_put_of_mem ?_, hrep, hreq⟩
            rw [pop_net_self, hnet]
            exact hm
        · refine Or.inl ⟨m, mem_put_of_mem ?_, hrep, hreq⟩
          rw [pop_net_ne (by omega)]
          exact hm
      · refine Or.inr fun j ts p hr => ?_
        by_cases hbh : h = b
        · subst hbh
          rw [put_host_self]
          exact hread.grows.noted_mono (hdone j ts p hr)
        · rw [put_host_ne hbh]
          exact hdone j ts p hr

/-- The answer to a request carries the notices after its timestamp. -/
theorem Passing.start (ha : Answered n s) {ts : Timestamp} {rest : List Msg}
    (hnet : s.net h g = .fetchWnI ts :: rest)
    (hstep : Midsm.step n s (.deliver h g) = some s') :
    Passing h g (fun j t p => (s.host g).mem.Noted j t p ∧
      isAfterInterval n t ts = true) s' := by
  obtain ⟨a, op, r, he, -⟩ |
    ⟨a, b, msg, rest', he, hh, hg, hne, hnet', rfl⟩ := step_cases hstep
  · cases he
  · cases he
    rw [hnet, List.cons.injEq] at hnet'
    obtain ⟨rfl, rfl⟩ := hnet'
    -- the request is in flight, so `h` spins
    have hup : (s.host h).mem.fetchWNIWaitFlag = true := by
      by_contra hdown
      rw [Bool.not_eq_true] at hdown
      have h0 := (ha.wni h).idle hdown g
      rw [Exchange.traffic, hnet, List.countP_cons] at h0
      simp only [wniExchange, if_true] at h0
      omega
    obtain ⟨packets, hout, hsaid⟩ := grantWNI_answers hh hne ts (s.host g).mem
    refine ⟨?_, Or.inl ⟨.grantWnI ((s.host g).mem.now g).timestamp packets.length packets,
      ?_, rfl, ?_⟩⟩
    · rw [put_host_ne hne]
      exact (ha.wni h).waits hup
    · rw [put_net_self, dispatchMsg, hout, outTo_cons_self]
      exact List.mem_append_right _ List.mem_cons_self
    · rintro j t p ⟨hnoted, hafter⟩
      obtain ⟨hj, -⟩ := ha.sound.noted g hg hnoted
      rw [Msg.packets, List.take_length, hsaid]
      exact ⟨hj, hafter, (ha.sound.linked g hg j t p).mp hnoted⟩

/-- When the flag is down, the answer has been read. -/
theorem Passing.arrived (hp : Passing h g req s) (hw : wniExchange.Settled s h)
    (hdown : (s.host h).mem.fetchWNIWaitFlag = false) :
    ∀ j ts p, req j ts p → (s.host h).mem.Noted j ts p := by
  rcases hp.notices with ⟨msg, hm, hrep, -⟩ | hdone
  · have h0 := hw.idle hdown g
    have h1 : 0 < (s.net g h).countP wniExchange.isReply :=
      List.countP_pos_iff.mpr ⟨msg, hm, hrep⟩
    rw [Exchange.traffic] at h0
    omega
  · exact hdone

/-- `mi_lock` returns only when the flag is down. -/
theorem resume_fetches {me : Nat} {h : Host} {r : Host × Out} (hf : h.pc.fetches = true)
    (he : h.exec n me .resume = some r) :
    h.mem.fetchWNIWaitFlag = false ∧ r.1.mem = h.mem := by
  cases hpc : h.pc <;> rw [hpc] at hf <;> cases hf
  simp only [Host.exec, Host.resume, hpc] at he
  split at he
  · cases he
  · next hflag =>
      cases he
      exact ⟨by simpa using hflag, (lockReturn_mem _ _ _).1⟩

/-- On return from `mi_lock` a host has recorded every notice of the last holder
whose interval is after the timestamp the host sent. -/
theorem acquire_brings_later_notices (n : Nat) {h g : Nat} {ts : Timestamp} {s₁ s₄ : Sys}
    (hrun : Reach (Midsm.step n) anyStep initSys s₁) (hacq : Acquires n h g ts s₁ s₄)
    (j : Nat) (t : Timestamp) (p : Nat) (hnoted : (s₁.host g).mem.Noted j t p)
    (hafter : isAfterInterval n t ts = true) : (s₄.host h).mem.Noted j t p := by
  obtain ⟨s₂, s₃, rest, hnet, hstep, hseg, hret⟩ := hacq
  have ha := answered_of_reach hrun
  obtain ⟨ha₃, hp₃⟩ := hseg.invariant (P := fun s => Answered n s ∧
      Passing h g (fun j t p =>
        (s₁.host g).mem.Noted j t p ∧ isAfterInterval n t ts = true) s)
    ⟨ha.step hstep, .start ha hnet hstep⟩
    fun hs hne he => ⟨hs.1.step he, hs.2.step hs.1.sound hne he⟩
  obtain ⟨a, op, r, he, hh, hexec, rfl⟩ | ⟨a, b, msg, rest', he, -⟩ := step_cases hret
  · cases he
    obtain ⟨hdown, hmem⟩ := resume_fetches hp₃.spins hexec
    rw [put_host_self, hmem]
    exact hp₃.arrived (ha₃.wni h) hdown j t p ⟨hnoted, hafter⟩
  · cases he

/-! ## Two runs -/

def notResume (h : Nat) : Event → Bool
  | .op x .resume => x ≠ h
  | _ => true

/-- The timestamp of a request for notices at the head of a channel. -/
def headRequest : List Msg → Option Timestamp
  | .fetchWnI ts :: _ => some ts
  | _ => none

/-- An acquisition given by its events: those before `g` processes the request,
and those after it up to the return. -/
theorem exists_acquires (n h g : Nat) (before after : List Event)
    (p : Timestamp → Sys → Sys → Bool)
    (hp : ((runFrom (Midsm.step n) (fun _ _ => true) initSys before).any fun s₁ =>
      (headRequest (s₁.net h g)).any fun ts =>
        ((Midsm.step n s₁ (.deliver h g)).bind fun s₂ =>
          (runFrom (Midsm.step n) (fun _ => notResume h) s₂ after).bind fun s₃ =>
            Midsm.step n s₃ (.op h .resume)).any (p ts s₁)) = true) :
    ∃ ts s₁ s₄, Reach (Midsm.step n) anyStep initSys s₁ ∧ Acquires n h g ts s₁ s₄ ∧
      p ts s₁ s₄ = true := by
  obtain ⟨s₁, h₁, hp⟩ := (Option.any_eq_true ..).mp hp
  obtain ⟨ts, hts, hp⟩ := (Option.any_eq_true ..).mp hp
  obtain ⟨s₄, h₄, hp⟩ := (Option.any_eq_true ..).mp hp
  obtain ⟨s₂, h₂, h₄⟩ := Option.bind_eq_some_iff.mp h₄
  obtain ⟨s₃, h₃, h₄⟩ := Option.bind_eq_some_iff.mp h₄
  refine ⟨ts, s₁, s₄, reach_of_runFrom (fun _ _ _ => trivial) h₁, ?_, hp⟩
  have hnet : ∃ rest, s₁.net h g = .fetchWnI ts :: rest := by
    unfold headRequest at hts
    split at hts
    · next hnet =>
        cases hts
        exact ⟨_, hnet⟩
    · cases hts
  obtain ⟨rest, hnet⟩ := hnet
  refine ⟨s₂, s₃, rest, hnet, h₂, reach_of_runFrom (fun _ e hc => ?_) h₃, h₄⟩
  rintro rfl
  exact of_decide_eq_true hc rfl

/-- The timestamp with these components, and 0 beyond them. -/
def vector (components : List Int) : Timestamp := fun i => (components[i.val]?).getD 0

/-- Host 1 acquires lock 0 from host 0 and learns of its store. -/
theorem acquire_brings_later_notices_two :
    ∃ s₁ s₄, (s₄.host 1).mem.Noted 0 (vector [1]) 0 ∧
      Reach (Midsm.step 2) anyStep initSys s₁ ∧ Acquires 2 1 0 (vector []) s₁ s₄ := by
  obtain ⟨ts, s₁, s₄, hrun, hacq, hp⟩ := exists_acquires 2 1 0
    [.op 0 (.alloc 4096), .op 0 (.lock 0), .op 0 (.store 0 0 [7]), .op 0 (.unlock 0),
      .op 1 (.lock 0), .deliver 1 0, .deliver 0 1, .op 1 .resume]
    [.deliver 0 1]
    (fun ts s₁ _ => decide (ts = vector [] ∧
      vector [1] ∈ ((s₁.host 0).mem.pageArray 0).keys 0))
    (by decide +kernel)
  obtain ⟨rfl, hnoted⟩ := of_decide_eq_true hp
  exact ⟨s₁, s₄, acquire_brings_later_notices 2 hrun hacq 0 (vector [1]) 0 hnoted
    (by decide +kernel), hrun, hacq⟩

/-- Host 1 has used another lock before, so host 0's interval is concurrent with
its timestamp, and the notice is kept from it. -/
theorem acquire_misses_concurrent_notice :
    ∃ ts s₁ s₄, Reach (Midsm.step 2) anyStep initSys s₁ ∧ Acquires 2 1 0 ts s₁ s₄ ∧
      (s₁.host 0).mem.Noted 0 (vector [1]) 0 ∧ ¬ (s₄.host 1).mem.Noted 0 (vector [1]) 0 := by
  obtain ⟨ts, s₁, s₄, hrun, hacq, hp⟩ := exists_acquires 2 1 0
    [.op 0 (.alloc 4096), .op 0 (.lock 0), .op 0 (.store 0 0 [7]), .op 0 (.unlock 0),
      .op 1 (.lock 1), .op 1 (.lock 0), .deliver 1 0, .deliver 0 1, .op 1 .resume]
    [.deliver 0 1]
    (fun _ s₁ s₄ => decide (vector [1] ∈ ((s₁.host 0).mem.pageArray 0).keys 0 ∧
      vector [1] ∉ ((s₄.host 1).mem.pageArray 0).keys 0))
    (by decide +kernel)
  obtain ⟨hnoted, hmissed⟩ := of_decide_eq_true hp
  exact ⟨ts, s₁, s₄, hrun, hacq, hnoted, hmissed⟩

end

end Midsm
