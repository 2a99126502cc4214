import Mathlib.Data.DFinsupp.WellFounded
import Midsm.Proofs.Draining

/-!
# Every fault comes to its end

The main threads that wait go on when they can, and messages are delivered, but no program
makes a new call or access. Then everything comes to rest, in whatever order it happens: a
main thread that goes on is nearer to its program, and between two such steps the channels
run empty. `fetchDiff` is why this needs an argument. It visits the hosts in their order and
the notices of a host from the newest to the oldest; what it still has to visit gets less
with every diff, also when new notices come in at the head of a list.

And nobody has come to rest in a fault: the handlers of the other hosts have served it,
whatever their main threads wait for. But a handler may have come upon an `INVALID` page
and hang.
-/

namespace Midsm

open Midsm.Lib

/-- A delivery, or a main thread that leaves the loop it spins in. -/
def Event.Goes (e : Event) : Prop := (∃ a b, e = .deliver a b) ∨ ∃ a, e = .op a .resume

/-- How far the main thread is from its program: the hosts that are left to visit, and the
notices of this one. -/
def Pc.away (n : Nat) : Pc → Nat ×ₗ Nat
  | .run => toLex (0, 0)
  | .wniWait _ _ | .barrierWait | .pageWait _ => toLex (0, 1)
  | .lockWait _ => toLex (0, 2)
  | .diffWait _ _ i rest => toLex (n - i + 1, rest)

section

variable {n me : Nat} {h : Host} {r : Host × Out}

/-! ## The main thread -/

theorem nextDiff_lt {pageTimestamp : Option Timestamp} {list : List WriteNotice}
    {ts : Timestamp} {rest : Nat} (h : nextDiff n pageTimestamp list = some (ts, rest)) :
    rest < list.length := by
  induction list with
  | nil => cases h
  | cons wn list ih =>
      rw [nextDiff] at h
      split at h
      · cases h
      · split at h
        · cases h
          exact Nat.lt_succ_self _
        · exact Nat.lt_succ_of_lt (ih h)

theorem fetchDiffResume_away {p i rest : Nat} {pageTimestamp : Option Timestamp} {m : Mem} :
    (fetchDiffResume n me p pageTimestamp i rest m).2.2.away n <
      (Pc.diffWait p pageTimestamp i rest).away n := by
  unfold fetchDiffResume
  dsimp only
  cases hnext : nextDiff n pageTimestamp (((m.pageArray p).notices i).drop
      (((m.pageArray p).notices i).length - rest)) with
  | some x =>
      obtain ⟨ts, rest'⟩ := x
      have hlt := nextDiff_lt hnext
      rw [List.length_drop] at hlt
      exact Prod.Lex.toLex_lt_toLex.mpr (Or.inr ⟨rfl, by dsimp only; omega⟩)
  | none =>
      dsimp only
      cases hhost : nextDiffHost n me pageTimestamp (m.pageArray p)
          (List.range' (i + 1) (n - (i + 1))) with
      | some x =>
          obtain ⟨i', ts, rest'⟩ := x
          have hmem := List.mem_range'_1.mp (nextDiffHost_mem hhost).1
          exact Prod.Lex.toLex_lt_toLex.mpr (Or.inl (by dsimp only at hmem ⊢; omega))
      | none => exact Prod.Lex.toLex_lt_toLex.mpr (Or.inl (Nat.succ_pos _))

theorem fetchDiffResume_no_page {p i rest : Nat} {pageTimestamp : Option Timestamp} {m : Mem} :
    ∀ x ∈ (fetchDiffResume n me p pageTimestamp i rest m).2.1, ∀ q, x.2 ≠ .fetchPage q := by
  intro x hx q
  unfold fetchDiffResume requestDiff at hx
  dsimp only at hx
  split at hx
  · rw [List.mem_singleton.mp hx]
    exact nofun
  · cases hx

/-- The main thread goes on: it is nearer to the program, and has asked for no page. -/
theorem resume_goes (he : h.exec n me .resume = some r) :
    r.1.pc.away n < h.pc.away n ∧ ∀ x ∈ r.2, ∀ q, x.2 ≠ .fetchPage q := by
  have hrun : ∀ {h' : Host} {i : Nat}, h'.pc = .run → 0 < i →
      h'.pc.away n < (toLex (0, i) : Nat ×ₗ Nat) := by
    intro h' i hp hi
    rw [hp]
    exact Prod.Lex.toLex_lt_toLex.mpr (Or.inr ⟨rfl, hi⟩)
  have hnone : ∀ x ∈ ([] : Out), ∀ q, x.2 ≠ .fetchPage q := by simp
  cases hpc : h.pc with
  | run => simp [Host.exec, Host.resume, hpc] at he
  | lockWait l =>
      simp only [Host.exec, Host.resume, hpc] at he
      split at he
      · cases he
      · cases he
        have hcase := miLockResume_cases n me l h
        generalize miLockResume n me l h = r at hcase ⊢
        cases hcase with
        | fetch =>
            refine ⟨Prod.Lex.toLex_lt_toLex.mpr (Or.inr ⟨rfl, Nat.lt_succ_self 1⟩),
              fun x hx q => ?_⟩
            rw [List.mem_singleton.mp hx]
            simp
        | skip => exact ⟨hrun (lockReturn_pc ..) (Nat.succ_pos 1), hnone⟩
        | back | fresh => exact ⟨hrun rfl (Nat.succ_pos 1), hnone⟩
  | wniWait l path =>
      simp only [Host.exec, Host.resume, hpc] at he
      split at he
      · cases he
      · cases he
        exact ⟨hrun (lockReturn_pc ..) Nat.one_pos, hnone⟩
  | barrierWait | pageWait p =>
      simp only [Host.exec, Host.resume, hpc] at he
      split at he
      · cases he
      · cases he
        exact ⟨hrun rfl Nat.one_pos, hnone⟩
  | diffWait p pageTimestamp i rest =>
      simp only [Host.exec, Host.resume, hpc] at he
      split at he
      · cases he
      · cases he
        exact ⟨fetchDiffResume_away, fetchDiffResume_no_page⟩

end

/-! ## The system -/

/-- How far the hosts are from their programs, and what is left to be delivered. -/
def Sys.away (n : Nat) (s : Sys) : (Fin n → Nat ×ₗ Nat) ×ₗ (Nat ×ₗ Nat ×ₗ Nat) :=
  toLex (fun x => (s.host x).pc.away n, s.backlog n)

/-- Each request for a page that is on its way finds the page allocated. -/
def Sys.Allocated (s : Sys) : Prop :=
  ∀ a b p, .fetchPage p ∈ s.net a b → p < (s.host b).mem.pagenum

section

variable {n : Nat} {s s' : Sys} {e : Event}

theorem away_lt (hgo : e.Goes) (he : step n s e = some s') : s'.away n < s.away n := by
  obtain ⟨a, op, r, rfl, ha, hr, rfl⟩ |
    ⟨a, b, msg, rest, rfl, ha, hb, hne, hnet, rfl⟩ := step_cases he
  · rcases hgo with ⟨_, _, he⟩ | ⟨_, he⟩
    · cases he
    · cases he
      refine Prod.Lex.toLex_lt_toLex.mpr (Or.inl (Pi.lt_def.mpr ⟨fun x => ?_, ⟨a, ha⟩, ?_⟩))
      · by_cases hx : x.val = a
        · dsimp only
          rw [hx, put_host_self]
          exact (resume_goes hr).1.le
        · dsimp only
          rw [put_host_ne hx]
      · dsimp only
        rw [put_host_self]
        exact (resume_goes hr).1
  · refine Prod.Lex.toLex_lt_toLex.mpr (Or.inr ⟨funext fun x => ?_, backlog_lt he⟩)
    dsimp only
    by_cases hx : x.val = b
    · rw [hx, put_host_self, (dispatch_mem n b a msg (s.host b)).pc]
    · rw [put_host_ne hx]
      rfl

theorem Sys.Allocated.read (hs : s.Allocated) (e : Event) : ReadAllocated s e := by
  intro x hx
  cases e with
  | op => cases hx
  | deliver a b =>
      dsimp only [pageRead] at hx
      cases hnet : s.net a b with
      | nil =>
          rw [hnet] at hx
          cases hx
      | cons msg rest =>
          rw [hnet] at hx
          cases msg with
          | fetchPage p =>
              cases hx
              exact hs a b p (by rw [hnet]; exact List.mem_cons_self)
          | _ => cases hx

theorem Sys.Allocated.step (hs : s.Allocated) (hsound : Sound n s) (hgo : e.Goes)
    (he : Midsm.step n s e = some s') (hawake : ∀ x, (s'.host x).hung = false) :
    s'.Allocated := by
  intro x y p hm
  obtain ⟨a, op, r, rfl, ha, hr, rfl⟩ |
    ⟨a, b, msg, rest, rfl, ha, hb, hne, hnet, rfl⟩ := step_cases he
  · rcases hgo with ⟨_, _, he⟩ | ⟨_, he⟩
    · cases he
    · cases he
      have hold : .fetchPage p ∈ s.net x y := by
        rcases mem_put_net hm with hm | ⟨-, ho⟩
        · exact hm
        · exact absurd rfl ((resume_goes hr).2 _ ho p)
      by_cases hy : y = a
      · rw [hy, put_host_self]
        exact (hs x a p (hy ▸ hold)).trans_le (hsound.exec ha hr).grows.pagenum
      · rw [put_host_ne hy]
        exact hs x y p hold
  · have hold : .fetchPage p ∈ s.net x y := by
      rcases mem_put_net hm with hm | ⟨-, ho⟩
      · exact mem_of_mem_pop hm
      · have hh := hawake b
        rw [put_host_self] at hh
        cases dispatch_noRequest msg hh _ ho
    by_cases hy : y = b
    · rw [hy, put_host_self]
      exact (hs x b p (hy ▸ hold)).trans_le (hsound.read hb msg).grows.pagenum
    · rw [put_host_ne hy]
      exact hs x y p hold

/-- **Everything comes to rest** when no program makes a new call or access, in whatever
order messages are delivered and main threads go on; and then each host is in its program,
or waits in `mi_lock` or `mi_barrier` for another one, unless a handler hangs. -/
theorem faults_end (n : Nat) :
    WellFounded (fun s' s : Sys => ∃ e : Event, e.Goes ∧ step n s e = some s') ∧
      ∀ s t : Sys, Reach (step n) ReadAllocated initSys s → s.Allocated →
        Reach (step n) (fun _ e => e.Goes) s t →
        (∀ e : Event, e.Goes → step n t e = none) →
        ∀ x < n, (t.host x).pc = .run ∨ (∃ y < n, y ≠ x ∧ t.WaitsFor x y) ∨ t.Hangs n := by
  refine ⟨Subrelation.wf (fun ⟨_, hgo, he⟩ => away_lt hgo he)
    (InvImage.wf (Sys.away n) wellFounded_lt), fun s t hreach halloc hrun hrest x hx => ?_⟩
  have hs := hreach.invariant (P := fun s => Unlost n s ∨ s.Hangs n) (Or.inl (Unlost.init n))
    fun hi hok he => unlost_or_hangs hi hok he
  have ht := hrun.invariant (P := fun t => Unlost n t ∧ t.Allocated ∨ t.Hangs n)
    (hs.imp (fun hi => ⟨hi, halloc⟩) id) fun {t _ e} hi hgo he => by
      rcases hi with ⟨hi, hall⟩ | hh
      · refine (hangs_or_awake hi.pages.awake he).symm.imp (fun hawake => ?_) id
        exact ⟨hi.step (hall.read e) he hawake,
          hall.step hi.pages.awaited.answered.sound hgo he hawake⟩
      · exact Or.inr (hh.step he)
  rcases ht with ⟨ht, -⟩ | hh
  · have hd : t.Delivered n := fun a b => hrest _ (Or.inl ⟨a, b, rfl⟩)
    refine (ht.waitsFor hd hx).imp (fun hmoves => hmoves.resolve_right fun hres => ?_) Or.inl
    rw [hrest _ (Or.inr ⟨x, rfl⟩)] at hres
    cases hres
  · exact Or.inr (Or.inr hh)

instance : DecidablePred Event.Goes := fun e =>
  match e with
  | .deliver a b => isTrue (Or.inl ⟨a, b, rfl⟩)
  | .op a .resume => isTrue (Or.inr ⟨a, rfl⟩)
  | .op _ (.alloc _) | .op _ (.load _ _ _) | .op _ (.store _ _ _) | .op _ (.lock _)
  | .op _ (.unlock _) | .op _ .barrier => isFalse (by rintro (⟨_, _, he⟩ | ⟨_, he⟩) <;> cases he)

def Sys.allocated (n : Nat) (s : Sys) : Bool :=
  (List.range n).all fun a => (List.range n).all fun b => (s.net a b).all fun msg =>
    match msg with
    | .fetchPage p => p < (s.host b).mem.pagenum
    | _ => true

theorem allocated_of_reach (h : Reach (step n) ReadAllocated initSys s)
    (hall : s.allocated n = true) : s.Allocated := by
  intro a b p hm
  obtain ⟨ha, hb⟩ := (allMade_of_reach h).2.ends a b _ hm
  have hab := List.all_eq_true.mp (List.all_eq_true.mp
    (List.all_eq_true.mp hall a (List.mem_range.mpr ha)) b (List.mem_range.mpr hb)) _ hm
  exact of_decide_eq_true hab

theorem resting_two {t : Sys} (h01 : (t.net 0 1).isEmpty = true)
    (h10 : (t.net 1 0).isEmpty = true) (h0 : (step 2 t (.op 0 .resume)).isNone = true)
    (h1 : (step 2 t (.op 1 .resume)).isNone = true) (e : Event) (hgo : e.Goes) :
    step 2 t e = none := by
  rcases hgo with ⟨a, b, rfl⟩ | ⟨a, rfl⟩
  · exact delivered_two h01 h10 a b
  · by_cases ha : a < 2
    · obtain rfl | rfl : a = 0 ∨ a = 1 := by omega
      · exact Option.isNone_iff_eq_none.mp h0
      · exact Option.isNone_iff_eq_none.mp h1
    · exact if_neg fun h => ha h.1

/-- Host 0 waits at the barrier, and serves the fault of host 1. -/
theorem faults_end_two : ∃ s t : Sys, (s.host 1).mem.fetchPageWaitFlag = true ∧
    Reach (step 2) (fun _ e => e.Goes) s t ∧ (t.host 0).AtBarrier ∧
    ∀ x < 2, (t.host x).pc = .run ∨ ∃ y < 2, y ≠ x ∧ t.WaitsFor x y := by
  obtain ⟨s, hrun, hp⟩ := exists_reach (step 2)
    (fun t e => decide (ReadAllocated t e)) (fun _ _ => of_decide_eq_true) initSys
    [.op 0 (.alloc 4096), .op 1 (.alloc 4096), .op 0 .barrier, .op 1 (.load 0 0 1)]
    (fun s : Sys => (s.host 1).mem.fetchPageWaitFlag && s.allocated 2 &&
      (runFrom (step 2) (fun _ e => decide e.Goes) s
        [.deliver 1 0, .deliver 0 1, .op 1 .resume]).any fun t : Sys =>
          (t.net 0 1).isEmpty && (t.net 1 0).isEmpty && (step 2 t (.op 0 .resume)).isNone &&
            (step 2 t (.op 1 .resume)).isNone && (t.host 0).pc.inBarrier &&
            (t.host 0).syn.waitFlag && !(t.host 0).hung && !(t.host 1).hung) (by decide +kernel)
  rw [Bool.and_eq_true, Bool.and_eq_true] at hp
  obtain ⟨⟨hflag, hall⟩, hany⟩ := hp
  obtain ⟨t, hgo, ht⟩ := exists_reach (step 2) (fun _ e => decide e.Goes)
    (fun _ _ => of_decide_eq_true) s _ _ hany
  simp only [Bool.and_eq_true, Bool.not_eq_true'] at ht
  obtain ⟨⟨⟨⟨⟨⟨⟨h01, h10⟩, h0⟩, h1⟩, hin⟩, hw⟩, hup0⟩, hup1⟩ := ht
  have hall := allocated_of_reach hrun hall
  refine ⟨s, t, hflag, hgo, ⟨Pc.eq_barrierWait hin, hw⟩, fun x hx => ?_⟩
  have hrest := (faults_end 2).2 s t hrun hall hgo (resting_two h01 h10 h0 h1) x hx
  exact hrest.imp id fun h => h.resolve_right (awake_two hup0 hup1)

end

end Midsm
