import Mathlib.Data.Int.Range
import Midsm.Proofs.GrantedPages
import Midsm.Proofs.Turns
import Midsm.Proofs.LockSafety
import Midsm.Proofs.WireData

/-!
# Who waits for whom

When every message has been delivered, a host that can not go on waits for another one:
for the holder of a lock, or for a host that has not entered the barrier. No request, no
reply and no wake-up has been lost on the way. So a system that stands still does so
because of its program, and it does not if the program takes its locks in order and holds
none at a barrier.

One thing comes from outside of the programs: a handler that copies an `INVALID` page out
and waits there for a diff. Nothing is said of a system in which this has happened.
-/

namespace Midsm

open Midsm.Lib Midsm.Lib.TokenQueue

/-! ## What to wait for -/

/-- Nothing can be delivered; what is in flight to a host that hangs can not. -/
def Sys.Delivered (n : Nat) (s : Sys) : Prop := ∀ a b, step n s (.deliver a b) = none

/-- The main thread is in the program, or leaves the loop it spins in. -/
def Sys.Moves (n : Nat) (s : Sys) (x : Nat) : Prop :=
  (s.host x).pc = .run ∨ (step n s (.op x .resume)).isSome

def Host.Holds (l : Int) (h : Host) : Prop :=
  h.syn.myLocks l = true ∨ h.pc = .wniWait l .grasped

/-- Asleep in `mi_barrier`. -/
def Host.AtBarrier (h : Host) : Prop := h.pc = .barrierWait ∧ h.syn.waitFlag = true

inductive Sys.WaitsFor (s : Sys) (x y : Nat) : Prop
  | lock (l : Int) : (s.host x).BlockedOn l → (s.host y).Holds l → s.WaitsFor x y
  | barrier : (s.host x).AtBarrier → (s.host 0).syn.barrierFlags y = false →
      ¬ (s.host y).AtBarrier → s.WaitsFor x y

section

variable {n : Nat} {s s' : Sys} {x : Nat} {h : Host} {l : Int}

/-- A channel is empty, or its receiver hangs. -/
theorem Sys.Delivered.empty_or_hung (h : s.Delivered n) {a b : Nat}
    (ha : a < n) (hb : b < n) (hne : a ≠ b) :
    s.net a b = [] ∨ (s.host b).hung = true := by
  cases hh : (s.host b).hung with
  | true => exact Or.inr rfl
  | false =>
      have hstep := h a b
      simp only [Midsm.step] at hstep
      rw [if_pos ⟨ha, hb, hne, hh⟩] at hstep
      cases hnet : s.net a b with
      | nil => exact Or.inl rfl
      | cons msg rest =>
          rw [hnet] at hstep
          cases hstep

theorem Host.Holds.of_phase (hp : phaseOf l h = .holding) : h.Holds l := by
  unfold phaseOf at hp
  split at hp
  · next hc =>
      rw [Bool.or_eq_true] at hc
      refine hc.imp id fun hg => ?_
      cases hpc : h.pc with
      | wniWait l' path =>
          rw [hpc] at hg
          cases path with
          | grasped => rw [of_decide_eq_true hg]
          | waited | remote => cases hg
      | run | lockWait | barrierWait | pageWait | diffWait =>
          rw [hpc] at hg
          cases hg
  · split at hp <;> cases hp

/-! ## The flags of the barrier -/

/-- The barrier is still open for some host. -/
def Host.Open (n : Nat) (h : Host) : Prop := ∃ i < n, h.syn.barrierFlags i = false

theorem release_open (hn : 0 < n) (h : Host) : (h.release n).1.Open n := ⟨0, hn, if_pos hn⟩

theorem miBarrier_open (hn : 0 < n) (h : Host) : (miBarrier n 0 h).1.Open n := by
  unfold miBarrier
  rw [if_pos rfl]
  dsimp only
  rcases checkBarrierFlags_cases n 0 { h with
      mem := { h.mem with
        barrierTimestamps := upd h.mem.barrierTimestamps 0 fun i =>
          if i.val < n then (h.mem.now 0).timestamp i
          else h.mem.barrierTimestamps 0 i }
      syn := { h.syn with barrierFlags := upd h.syn.barrierFlags 0 true } }
    with ⟨he, hopen⟩ | ⟨-, -, he⟩ <;> rw [he]
  · exact hopen rfl
  · exact release_open hn _

theorem handleEnterBarrierMsg_open (hn : 0 < n) (x : Nat) (h : Host) :
    (handleEnterBarrierMsg n 0 x h).1.Open n := by
  unfold handleEnterBarrierMsg
  dsimp only
  rcases checkBarrierFlags_cases n 0 { h with
      syn := { h.syn with barrierFlags := upd h.syn.barrierFlags x true } }
    with ⟨he, hopen⟩ | ⟨-, -, he⟩ <;> rw [he]
  · exact hopen rfl
  · exact release_open hn _

theorem Host.Open.of_flags {h' : Host} (ho : h.Open n)
    (hf : h'.syn.barrierFlags = h.syn.barrierFlags) : h'.Open n := by
  obtain ⟨i, hi, hflag⟩ := ho
  exact ⟨i, hi, by rw [hf]; exact hflag⟩

theorem Host.Open.exec {op : Op} {r : Host × Out} (ho : h.Open n) (hn : 0 < n)
    (he : h.exec n 0 op = some r) : r.1.Open n := by
  cases exec_cases he with
  | quiet _ _ hq => exact ho.of_flags (by rw [hq.syn])
  | lock l hpc => exact ho.of_flags ((miLock_cases n 0 l h).barrierFrame hpc).flags
  | unlock l hpc => exact ho.of_flags ((miUnlock_cases n 0 l h).barrierFrame hpc).flags
  | lockWait l hpc => exact ho.of_flags ((miLockResume_cases n 0 l h).barrierFrame hpc).flags
  | wniWait l path hpc => exact ho.of_flags (lockReturn_barrierFrame hpc).flags
  | barrierWait => exact ho.of_flags rfl
  | barrier => exact miBarrier_open hn h

theorem Control.open_read (hc : Control n s) (ho : (s.host 0).Open n) {a : Nat} (ha : a < n)
    (hne : a ≠ 0) {msg : Msg} {rest : List Msg} (hnet : s.net a 0 = msg :: rest) :
    (dispatchMsg n 0 a msg (s.host 0)).1.Open n := by
  have hn : 0 < n := by omega
  cases msg with
  | acqLock | rlsLock | grantLock =>
      exact ho.of_flags (hc.lock_barrierFrame ha hn hne hnet rfl).flags
  | enterBarrier => exact handleEnterBarrierMsg_open hn a (s.host 0)
  | exitBarrier =>
      refine ho.of_flags ?_
      dsimp only [dispatchMsg]
      unfold handleExitBarrierMsg
      split <;> rfl
  | _ => exact ho.of_flags rfl

/-! ## The invariant -/

structure Unlost (n : Nat) (s : Sys) : Prop where
  control : Control n s
  pages : PageInfo n s
  made : AllMade n s
  waits : ∀ x, Waits (s.host x)
  barrier : 0 < n → (s.host 0).Open n

theorem Unlost.init (n : Nat) : Unlost n initSys where
  control := Control.init n
  pages := PageInfo.init n
  made := AllMade.init n
  waits _ := .of_run rfl
  barrier hn := ⟨0, hn, rfl⟩

theorem Unlost.step (h : Unlost n s) {e : Event} (hok : ReadAllocated s e)
    (he : Midsm.step n s e = some s') (hawake : ∀ x, (s'.host x).hung = false) :
    Unlost n s' := by
  refine ⟨h.control.step he, h.pages.step hok he hawake,
    h.made.step h.pages.awaited.answered.sound he, ?_, ?_⟩
  · obtain ⟨a, op, r, rfl, ha, hr, rfl⟩ |
      ⟨a, b, msg, rest, rfl, ha, hb, hne, hnet, rfl⟩ := step_cases he
    · exact waits_put h.waits ((h.waits a).exec hr)
    · exact waits_put h.waits ((h.waits b).read (h.control.read_cases ha hb hne hnet))
  · intro hn
    obtain ⟨a, op, r, rfl, ha, hr, rfl⟩ |
      ⟨a, b, msg, rest, rfl, ha, hb, hne, hnet, rfl⟩ := step_cases he
    · by_cases h0 : a = 0
      · subst h0
        rw [put_host_self]
        exact (h.barrier hn).exec hn hr
      · rw [put_host_ne (Ne.symm h0)]
        exact h.barrier hn
    · by_cases h0 : b = 0
      · subst h0
        rw [put_host_self]
        exact h.control.open_read (h.barrier hn) ha hne hnet
      · rw [put_host_ne (Ne.symm h0)]
        exact h.barrier hn

/-- In any run, unless a handler hangs. -/
theorem unlost_or_hangs (h : Unlost n s ∨ s.Hangs n) {e : Event} (hok : ReadAllocated s e)
    (he : Midsm.step n s e = some s') : Unlost n s' ∨ s'.Hangs n := by
  rcases h with h | h
  · rcases hangs_or_awake h.pages.awake he with hh | hawake
    · exact Or.inr hh
    · exact Or.inl (h.step hok he hawake)
  · exact Or.inr (h.step he)

/-! ## A state in which everything is delivered -/

/-- No message is in a channel between two hosts. -/
theorem Unlost.empty (h : Unlost n s) (hd : s.Delivered n) {a b : Nat} (hne : a ≠ b) :
    s.net a b = [] := by
  cases hnet : s.net a b with
  | nil => rfl
  | cons msg rest =>
      obtain ⟨ha, hb⟩ := h.made.ends a b msg (by rw [hnet]; exact List.mem_cons_self)
      rcases hd.empty_or_hung ha hb hne with hempty | hh
      · exact hnet.symm.trans hempty
      · rw [h.pages.awake b] at hh
        cases hh

/-- Who spins for a reply has been sent it. -/
theorem Unlost.answered (h : Unlost n s) (hd : s.Delivered n) {X : Exchange}
    (hX : X.Settled s x) : X.flag (s.host x).mem = false := by
  cases hflag : X.flag (s.host x).mem with
  | false => rfl
  | true =>
      obtain ⟨g, hg, htraffic, -⟩ := hX.busy hflag
      rw [Exchange.traffic, h.empty hd (Ne.symm hg), h.empty hd hg] at htraffic
      cases htraffic

/-- Who waits for a lock waits for its holder. -/
theorem Unlost.holder (h : Unlost n s) (hd : s.Delivered n) (hx : x < n)
    (hb : (s.host x).BlockedOn l) : ∃ y < n, y ≠ x ∧ s.WaitsFor x y := by
  obtain ⟨hpc, hw⟩ := hb
  obtain ⟨hl, hl', hmy⟩ := (h.waits x).asleep l hpc
  rw [hw] at hmy
  obtain ⟨t, hr, hi⟩ := h.control.locks l hl hl'
  have hquiet : ∀ y, t.reqs y = [] ∧ t.grants y = 0 := by
    intro y
    by_cases hy : y < n
    · by_cases hm : y = manager n l
      · rw [hm]
        exact ⟨hr.reqs_self, hr.grants_self⟩
      · rw [hr.reqs y hy hm, hr.grants y hy hm, h.empty hd hm, h.empty hd (Ne.symm hm)]
        exact ⟨rfl, rfl⟩
    · exact ⟨(hr.outside y (by omega)).1, (hr.outside y (by omega)).2.1⟩
  have hwait : t.phase x = .waiting := by
    rw [hr.phase x hx]
    exact phase_of_lockWait hpc hmy hw
  obtain ⟨y, hne, hhold⟩ := hi.holder_of_waiting hquiet hwait
  have hy : y < n := by
    by_contra hge
    rw [(hr.outside y (by omega)).2.2] at hhold
    cases hhold
  rw [hr.phase y hy] at hhold
  exact ⟨y, hy, hne, .lock l ⟨hpc, hw⟩ (.of_phase hhold)⟩

theorem ClientView.flag_of_quiet {flag : Bool} {up down : List Msg}
    (h : ClientView true true flag up down) (hup : up = []) (hdown : down = []) :
    flag = true := by
  cases h with
  | entering infos => exact absurd hup (List.append_ne_nil_of_right_ne_nil _ (List.cons_ne_nil _ _))
  | released infos =>
      exact absurd hdown (List.append_ne_nil_of_right_ne_nil _ (List.cons_ne_nil _ _))
  | flagged => rfl

/-- The manager knows of everyone who is asleep at the barrier. -/
theorem Unlost.entered (h : Unlost n s) (hd : s.Delivered n) (hx : x < n)
    (hb : (s.host x).AtBarrier) : (s.host 0).syn.barrierFlags x = true := by
  obtain ⟨hpc, hw⟩ := hb
  have hin : (s.host x).pc.inBarrier = true := by rw [hpc]; rfl
  by_cases h0 : x = 0
  · subst h0
    have hm := h.control.barrier.manager
    rw [Sys.Manager, hin, hw] at hm
    generalize (s.host 0).syn.barrierFlags 0 = flag at hm ⊢
    cases hm
    rfl
  · have hc := h.control.barrier.client x (by omega) hx
    rw [Sys.Client, hin, hw, h.empty hd h0, h.empty hd (Ne.symm h0)] at hc
    exact hc.flag_of_quiet rfl rfl

/-- Who waits at the barrier waits for a host that has not come to it. -/
theorem Unlost.missing (h : Unlost n s) (hd : s.Delivered n) (hx : x < n)
    (hb : (s.host x).AtBarrier) : ∃ y < n, y ≠ x ∧ s.WaitsFor x y := by
  obtain ⟨y, hy, hflag⟩ := h.barrier (by omega)
  have hnot : ¬ (s.host y).AtBarrier := by
    intro hb'
    rw [h.entered hd hy hb'] at hflag
    cases hflag
  refine ⟨y, hy, fun he => hnot ?_, .barrier hb hflag hnot⟩
  rw [he]
  exact hb

theorem resume_moves (hx : x < n) (hh : (s.host x).hung = false)
    (he : ((s.host x).resume n x).isSome) : s.Moves n x := by
  refine Or.inr ?_
  simp only [step, Host.exec]
  rw [if_pos ⟨hx, hh⟩, Option.isSome_map]
  exact he

theorem Unlost.waitsFor (h : Unlost n s) (hd : s.Delivered n) (hx : x < n) :
    s.Moves n x ∨ ∃ y < n, y ≠ x ∧ s.WaitsFor x y := by
  cases hpc : (s.host x).pc with
  | run => exact Or.inl (Or.inl hpc)
  | lockWait l =>
      cases hw : (s.host x).syn.waitFlag with
      | false =>
          refine Or.inl (resume_moves hx (h.pages.awake x) ?_)
          simp [Host.resume, hpc, hw]
      | true => exact Or.inr (h.holder hd hx ⟨hpc, hw⟩)
  | barrierWait =>
      cases hw : (s.host x).syn.waitFlag with
      | false =>
          refine Or.inl (resume_moves hx (h.pages.awake x) ?_)
          simp [Host.resume, hpc, hw]
      | true => exact Or.inr (h.missing hd hx ⟨hpc, hw⟩)
  | wniWait l path =>
      have hf : (s.host x).mem.fetchWNIWaitFlag = false :=
        h.answered hd (h.pages.awaited.answered.wni x)
      refine Or.inl (resume_moves hx (h.pages.awake x) ?_)
      simp [Host.resume, hpc, hf]
  | pageWait p =>
      have hf : (s.host x).mem.fetchPageWaitFlag = false := h.answered hd (h.pages.page x)
      refine Or.inl (resume_moves hx (h.pages.awake x) ?_)
      simp [Host.resume, hpc, hf]
  | diffWait p ts i rest =>
      have hf : (s.host x).mem.fetchDiffWaitFlag = false :=
        h.answered hd (h.pages.awaited.answered.diff x)
      refine Or.inl (resume_moves hx (h.pages.awake x) ?_)
      simp [Host.resume, hpc, hf]

/-- **Who can not move waits for another host**, once everything is delivered and where no
handler hangs. -/
theorem stuck_waits_for_another
    (h : Reach (Midsm.step n) ReadAllocated initSys s) (hd : s.Delivered n) (hx : x < n) :
    s.Moves n x ∨ (∃ y < n, y ≠ x ∧ s.WaitsFor x y) ∨ s.Hangs n := by
  rcases h.invariant (P := fun s => Unlost n s ∨ s.Hangs n) (Or.inl (Unlost.init n))
    fun hi hok he => unlost_or_hangs hi hok he with hi | hh
  · exact (hi.waitsFor hd hx).imp id Or.inl
  · exact Or.inr (Or.inr hh)

theorem delivered_two (h01 : (s.net 0 1).isEmpty = true) (h10 : (s.net 1 0).isEmpty = true) :
    s.Delivered 2 := by
  intro a b
  simp only [step]
  split
  · next hab =>
      obtain ⟨ha, hb, hne, -⟩ := hab
      have hnet : s.net a b = [] := by
        obtain ⟨rfl, rfl⟩ | ⟨rfl, rfl⟩ : (a = 0 ∧ b = 1) ∨ (a = 1 ∧ b = 0) := by omega
        · exact List.isEmpty_iff.mp h01
        · exact List.isEmpty_iff.mp h10
      rw [hnet]
  · rfl

theorem awake_two (h0 : (s.host 0).hung = false) (h1 : (s.host 1).hung = false) :
    ¬ s.Hangs 2 := by
  rintro ⟨x, hx, hh⟩
  obtain rfl | rfl : x = 0 ∨ x = 1 := by omega
  · exact Bool.false_ne_true (h0.symm.trans hh)
  · exact Bool.false_ne_true (h1.symm.trans hh)

/-- Host 1 holds lock 0, and host 0, which manages it, waits. -/
theorem stuck_waits_for_another_two :
    ∃ s : Sys, (s.host 0).BlockedOn 0 ∧ ∃ y < 2, y ≠ 0 ∧ s.WaitsFor 0 y := by
  obtain ⟨s, hrun, hp⟩ := exists_reach (Midsm.step 2)
    (fun t e => decide (ReadAllocated t e)) (fun _ _ => of_decide_eq_true) initSys
    [.op 1 (.lock 0), .deliver 1 0, .deliver 0 1, .op 1 .resume, .op 0 (.lock 0)]
    (fun s => (s.net 0 1).isEmpty && (s.net 1 0).isEmpty && (s.host 0).pc.waitsFor 0 &&
      (s.host 0).syn.waitFlag && !(s.host 0).hung && !(s.host 1).hung) (by decide +kernel)
  simp only [Bool.and_eq_true, Bool.not_eq_true'] at hp
  obtain ⟨⟨⟨⟨⟨h01, h10⟩, hpc⟩, hw⟩, h0⟩, h1⟩ := hp
  have hpc : (s.host 0).pc = .lockWait 0 := by
    cases hc : (s.host 0).pc with
    | lockWait l =>
        rw [hc] at hpc
        rw [of_decide_eq_true hpc]
    | run | wniWait | barrierWait | pageWait | diffWait =>
        rw [hc] at hpc
        cases hpc
  refine ⟨s, ⟨hpc, hw⟩, ?_⟩
  rcases stuck_waits_for_another hrun (delivered_two h01 h10) (show 0 < 2 by decide)
    with (hrun | hres) | hwait | hh
  · rw [hpc] at hrun
    cases hrun
  · simp [step, Host.exec, Host.resume, hpc, hw] at hres
  · exact hwait
  · exact absurd hh (awake_two h0 h1)

/-! ## Locks in order -/

def Host.LocksUpTo (l : Int) (h : Host) : Prop :=
  ∀ l', 0 ≤ l' → l' < lockNum → h.syn.myLocks l' = true → l' ≤ l

def Host.LocksFree (h : Host) : Prop :=
  ∀ l, 0 ≤ l → l < lockNum → h.syn.myLocks l = false

/-- A program that takes its locks in the order of their numbers, and holds none when it
enters the barrier. -/
def InOrder (s : Sys) : Event → Prop
  | .op x (.lock l) => (s.host x).LocksUpTo l
  | .op x .barrier => (s.host x).LocksFree
  | _ => True

instance (l : Int) (h : Host) : Decidable (h.LocksUpTo l) :=
  inferInstanceAs (Decidable (∀ l', 0 ≤ l' → l' < lockNum → _))

instance (h : Host) : Decidable h.LocksFree :=
  inferInstanceAs (Decidable (∀ l, 0 ≤ l → l < lockNum → _))

instance (s : Sys) (e : Event) : Decidable (InOrder s e) :=
  match e with
  | .op x (.lock l) => inferInstanceAs (Decidable ((s.host x).LocksUpTo l))
  | .op x .barrier => inferInstanceAs (Decidable (s.host x).LocksFree)
  | .op _ (.alloc _) | .op _ (.load _ _ _) | .op _ (.store _ _ _) | .op _ (.unlock _)
  | .op _ .resume | .deliver _ _ => inferInstanceAs (Decidable True)

structure Host.Ordered (h : Host) : Prop where
  lockWait : ∀ l, h.pc = .lockWait l → h.LocksUpTo l
  barrierWait : h.pc = .barrierWait → h.LocksFree

theorem Host.Ordered.of_pc (h1 : ∀ l, h.pc ≠ .lockWait l) (h2 : h.pc ≠ .barrierWait) :
    h.Ordered := ⟨fun l hl => absurd hl (h1 l), fun hb => absurd hb h2⟩

theorem Host.Ordered.of_run (hpc : h.pc = .run) : h.Ordered := by
  refine .of_pc (fun l hl => ?_) fun hb => ?_
  · rw [hpc] at hl
    cases hl
  · rw [hpc] at hb
    cases hb

theorem Host.Ordered.of_syn {h' : Host} (ho : h.Ordered) (hp : h'.pc = h.pc)
    (hm : h'.syn.myLocks = h.syn.myLocks) : h'.Ordered := by
  refine ⟨fun l hl => ?_, fun hb => ?_⟩
  · unfold Host.LocksUpTo
    rw [hm]
    exact ho.lockWait l (hp.symm.trans hl)
  · unfold Host.LocksFree
    rw [hm]
    exact ho.barrierWait (hp.symm.trans hb)

theorem LockCase.ordered {me : Nat} {r : Host × Out} (hc : LockCase n me l h r)
    (hpc : h.pc = .run)
    (hok : h.LocksUpTo l) : r.1.Ordered := by
  have hwait : ∀ {h' : Host}, h'.pc = .lockWait l → h'.syn.myLocks = h.syn.myLocks →
      h'.Ordered := by
    intro h' hp hm
    refine ⟨fun l' hl => ?_, fun hb => ?_⟩
    · rw [hp] at hl
      cases hl
      unfold Host.LocksUpTo
      rw [hm]
      exact hok
    · rw [hp] at hb
      cases hb
  cases hc with
  | refused => exact .of_run hpc
  | reject => exact .of_run hpc
  | ask => exact hwait rfl rfl
  | queue syn _ he => exact hwait rfl (Syn.OnlyLock.ofGrasp he).myLocks
  | fetch => exact .of_pc (fun _ hl => by cases hl) fun hb => by cases hb
  | skip => exact .of_run rfl
  | fresh => exact .of_run rfl

theorem ResumeCase.ordered {me : Nat} {r : Host × Out} (hc : ResumeCase n me l h r) :
    r.1.Ordered := by
  cases hc with
  | fetch => exact .of_pc (fun _ hl => by cases hl) fun hb => by cases hb
  | skip => exact .of_run (lockReturn_pc ..)
  | back => exact .of_run rfl
  | fresh => exact .of_run rfl

theorem miBarrier_ordered {me : Nat} (hpc : h.pc = .run)
    (hok : h.LocksFree) : (miBarrier n me h).1.Ordered := by
  have hwait : ∀ {h' : Host}, h'.pc = .barrierWait → h'.syn.myLocks = h.syn.myLocks →
      h'.Ordered := by
    intro h' hp hm
    refine ⟨fun l' hl => ?_, fun _ => ?_⟩
    · rw [hp] at hl
      cases hl
    · unfold Host.LocksFree
      rw [hm]
      exact hok
  by_cases h0 : me = 0
  · subst h0
    rcases miBarrier_zero_cases n h with he | ⟨-, he⟩ <;> rw [he]
    · exact hwait rfl rfl
    · exact .of_run hpc
  · unfold miBarrier
    rw [if_neg h0]
    exact hwait rfl rfl

theorem Host.Ordered.exec {me : Nat} {op : Op} {r : Host × Out} (ho : h.Ordered)
    (he : h.exec n me op = some r)
    (hlock : ∀ l, op = .lock l → h.LocksUpTo l) (hbarrier : op = .barrier → h.LocksFree) :
    r.1.Ordered := by
  cases exec_cases he with
  | quiet _ _ hq =>
      rcases hq.pc with hp | ⟨-, hp⟩
      · exact ho.of_syn hp (by rw [hq.syn])
      · refine .of_pc (fun l hl => ?_) fun hb => ?_
        · rw [hl] at hp
          exact hp
        · rw [hb] at hp
          exact hp
  | lock l hpc => exact (miLock_cases n me l h).ordered hpc (hlock l rfl)
  | unlock l hpc => exact .of_run ((miUnlock_cases n me l h).pc.trans hpc)
  | barrier hpc => exact miBarrier_ordered hpc (hbarrier rfl)
  | lockWait l hpc => exact (miLockResume_cases n me l h).ordered
  | wniWait l path => exact .of_run (lockReturn_pc ..)
  | barrierWait => exact .of_run rfl

/-- A lock that is granted is the one its host waits for. -/
theorem Host.Ordered.read {h' : Host} (ho : h.Ordered) (hc : ReadCase h h') : h'.Ordered := by
  cases hc with
  | keep hp hm => exact ho.of_syn hp hm
  | wakeLock l hpc hp hm =>
      refine ⟨fun l' hl k hk hk' hmy => ?_, fun hb => ?_⟩
      · rw [hp] at hl
        cases hl
        by_cases hkl : k = l
        · exact hkl.le
        · rw [hm, upd_ne hkl] at hmy
          exact ho.lockWait l hpc k hk hk' hmy
      · rw [hp] at hb
        cases hb
  | wakeBarrier hpc hp hm => exact ho.of_syn (hp.trans hpc.symm) hm

theorem ordered_step (hc : Control n s) (ho : ∀ x, (s.host x).Ordered) {e : Event}
    (hok : InOrder s e) (he : Midsm.step n s e = some s') : ∀ x, (s'.host x).Ordered := by
  obtain ⟨a, op, r, rfl, ha, hr, rfl⟩ |
    ⟨a, b, msg, rest, rfl, ha, hb, hne, hnet, rfl⟩ := step_cases he
  · refine put_host_forall (P := fun _ h => h.Ordered) ?_ fun x _ => ho x
    refine (ho a).exec hr (fun l hl => ?_) fun hb => ?_
    · subst hl
      exact hok
    · subst hb
      exact hok
  · exact put_host_forall (P := fun _ h => h.Ordered)
      ((ho b).read (hc.read_cases ha hb hne hnet)) fun x _ => ho x

/-- What a host waits for, as a number: a lock, or the barrier, which comes first. -/
def Host.waitRank (h : Host) : Int :=
  match h.pc with
  | .lockWait l => l
  | _ => -1

/-- In order, who is waited for waits for something of a higher rank. -/
theorem waitRank_lt (h : Unlost n s) (ho : ∀ x, (s.host x).Ordered) {x y : Nat}
    (hw : s.WaitsFor x y) (hy : (s.host y).AtBarrier ∨ ∃ l, (s.host y).BlockedOn l) :
    (s.host x).waitRank < (s.host y).waitRank := by
  cases hw with
  | lock l hb hhold =>
      obtain ⟨hl, hl', -⟩ := (h.waits x).asleep l hb.1
      have hrank : (s.host x).waitRank = l := by
        rw [Host.waitRank, hb.1]
      rcases hy with ⟨hpc, -⟩ | ⟨l', hpc, hsleep⟩
      · rcases hhold with hmy | hgrasp
        · rw [(ho y).barrierWait hpc l hl hl'] at hmy
          cases hmy
        · rw [hpc] at hgrasp
          cases hgrasp
      · obtain ⟨-, -, hnot⟩ := (h.waits y).asleep l' hpc
        rw [hsleep] at hnot
        rcases hhold with hmy | hgrasp
        · have hle := (ho y).lockWait l' hpc l hl hl' hmy
          have hne : l ≠ l' := by
            intro he
            rw [he, hnot] at hmy
            cases hmy
          rw [hrank, Host.waitRank, hpc]
          dsimp only
          omega
        · rw [hpc] at hgrasp
          cases hgrasp
  | barrier hb _ hnot =>
      rcases hy with hy | ⟨l', hpc, -⟩
      · exact absurd hy hnot
      · have hl := ((h.waits y).asleep l' hpc).1
        rw [Host.waitRank, Host.waitRank, hb.1, hpc]
        dsimp only
        omega

/-- **A program that takes its locks in order never stands still**: in every state it
reaches a message can be delivered or some host moves, unless a handler hangs. -/
theorem ordered_locks_never_stuck (hn : 0 < n)
    (h : Reach (Midsm.step n) (fun s e => ReadAllocated s e ∧ InOrder s e) initSys s) :
    (∃ a b, (step n s (.deliver a b)).isSome) ∨ (∃ x < n, s.Moves n x) ∨ s.Hangs n := by
  have hinv := h.invariant
    (P := fun s => (Unlost n s ∧ ∀ x, (s.host x).Ordered) ∨ s.Hangs n)
    (Or.inl ⟨Unlost.init n, fun _ => .of_run rfl⟩) fun hs hok he => by
      rcases hs with ⟨hi, ho⟩ | hh
      · exact (unlost_or_hangs (Or.inl hi) hok.1 he).imp
          (fun hi' => ⟨hi', ordered_step hi.control ho hok.2 he⟩) id
      · exact Or.inr (hh.step he)
  by_contra hstuck
  push Not at hstuck
  obtain ⟨hnone, hstill, hawake⟩ := hstuck
  obtain ⟨hi, ho⟩ := hinv.resolve_right hawake
  have hd : s.Delivered n := fun a b => by simpa using hnone a b
  -- the host that waits for the highest lock waits for no other one
  obtain ⟨x, hx, hmax⟩ := Finset.exists_max_image (Finset.range n)
    (fun x => (s.host x).waitRank) ⟨0, Finset.mem_range.mpr hn⟩
  have hx := Finset.mem_range.mp hx
  have hnext : ∀ x < n, ∃ y < n, y ≠ x ∧ s.WaitsFor x y := fun x hx =>
    (hi.waitsFor hd hx).resolve_left (hstill x hx)
  obtain ⟨y, hy, -, hw⟩ := hnext x hx
  obtain ⟨z, -, -, hw'⟩ := hnext y hy
  have hsleep : (s.host y).AtBarrier ∨ ∃ l, (s.host y).BlockedOn l := by
    cases hw' with
    | lock l hb => exact Or.inr ⟨l, hb⟩
    | barrier hb => exact Or.inl hb
  have hlt := waitRank_lt hi ho hw hsleep
  have hle := hmax y (Finset.mem_range.mpr hy)
  omega

/-- Host 1 holds locks 0 and 1, and host 0 waits for lock 0. -/
theorem ordered_locks_never_stuck_two : ∃ s : Sys, (s.host 0).syn.waitFlag = true ∧
    ((∃ a b, (step 2 s (.deliver a b)).isSome) ∨ ∃ x < 2, s.Moves 2 x) := by
  obtain ⟨s, hrun, hp⟩ := exists_reach (Midsm.step 2)
    (fun t e => decide (ReadAllocated t e ∧ InOrder t e)) (fun _ _ => of_decide_eq_true) initSys
    [.op 1 (.lock 0), .deliver 1 0, .deliver 0 1, .op 1 .resume, .op 0 (.lock 0),
      .op 1 (.lock 1)]
    (fun s => (s.host 0).syn.waitFlag && !(s.host 0).hung && !(s.host 1).hung)
    (by decide +kernel)
  simp only [Bool.and_eq_true, Bool.not_eq_true'] at hp
  obtain ⟨⟨hw, h0⟩, h1⟩ := hp
  refine ⟨s, hw, (ordered_locks_never_stuck (by decide) hrun).imp id fun hmoves => ?_⟩
  exact hmoves.resolve_right (awake_two h0 h1)

end

end Midsm
