import Midsm.Proofs.LockSafety
import Midsm.Proofs.MemCases

/-!
# What `mi_lock` and `mi_unlock` return

Both functions have a local path for a lock that the host manages itself, and declare
`result` there once more: what the local path computes is assigned to the inner variable,
and the outer one is returned as it was declared. So a call that is not refused has its
effect on both paths and its result on the remote one only.
-/

namespace Midsm

open Midsm.Lib

/-! ## A call of `mi_lock` -/

/-- The main thread of `a` is in `mi_lock(l)`. -/
def InLockCall (a : Nat) (l : Int) (s : Sys) (_ : Event) : Prop :=
  (s.host a).pc.locking = some l

instance (a : Nat) (l : Int) (s : Sys) (e : Event) : Decidable (InLockCall a l s e) :=
  inferInstanceAs (Decidable (_ = _))

/-- Host `a` calls `mi_lock(l)` in `s`, and `t` is the state in which the call returns. -/
def LockReturns (n a : Nat) (l : Int) (s t : Sys) : Prop :=
  ∃ s₁, step n s (.op a (.lock l)) = some s₁ ∧ Reach (step n) (InLockCall a l) s₁ t ∧
    (t.host a).pc.locking = none

/-- The state with a result for host `a` and no other change. -/
def Sys.answer (a : Nat) (ret : Int) (s : Sys) : Sys :=
  { s with host := upd s.host a { s.host a with ret := some ret } }

/-- The host has the lock, as the API sees it. -/
def Sys.Has (s : Sys) (a : Nat) (l : Int) : Prop := (s.host a).syn.myLocks l = true

/-- What `mi_lock` is for. -/
structure LockResult (a : Nat) (l : Int) (s t : Sys) : Prop where
  range : l < 0 ∨ lockNum ≤ l → t = s.answer a (-1)
  owned : 0 ≤ l → l < lockNum → s.Has a l → t = s.answer a (-2)
  taken : 0 ≤ l → l < lockNum → ¬ s.Has a l → (t.host a).ret = some 0 ∧ t.Has a l

/-- What `mi_unlock` is for. -/
structure UnlockResult (a : Nat) (l : Int) (s t : Sys) : Prop where
  range : l < 0 ∨ lockNum ≤ l → t = s.answer a (-1)
  unowned : 0 ≤ l → l < lockNum → ¬ s.Has a l → t = s.answer a (-2)
  freed : 0 ≤ l → l < lockNum → s.Has a l → (t.host a).ret = some 0 ∧ ¬ t.Has a l

section

variable {n a : Nat} {l : Int} {s s₁ t u : Sys} {h : Host} {r : Host × Out}

/-- The path of `mi_lock` that the main thread is on. -/
def OnPath (n a : Nat) (l : Int) (pc : Pc) : Prop :=
  pc = .lockWait l ∨ ∃ path, pc = .wniWait l path ∧ (path = .remote ↔ l % n ≠ a)

/-- What the call returns when it is not refused. -/
def lockAnswer (n a : Nat) (l : Int) : Option Int := if l % n = a then none else some 0

theorem answer_eq_put (a : Nat) (ret : Int) (s : Sys) :
    s.answer a ret = s.put a ({ s.host a with ret := some ret }, []) := by
  have hnet : (upd s.net a fun b => s.net a b ++ outTo [] b) = s.net := by
    refine Eq.trans ?_ (upd_eta s.net a)
    congr 1
    funext b
    exact List.append_nil _
  rw [Sys.answer, Sys.put, hnet]

/-! ## Each segment of the call -/

theorem lock_step (hs : step n s (.op a (.lock l)) = some s₁) :
    a < n ∧ (s.host a).pc = .run ∧ s₁ = s.put a (miLock n a l (s.host a)) := by
  obtain ⟨a', op, r, he, ha, hr, rfl⟩ | ⟨_, _, _, _, he, -⟩ := step_cases hs
  · cases he
    have hpc := exec_run (fun h => by cases h) hr
    simp only [Host.exec, hpc, Option.some.injEq] at hr
    exact ⟨ha, hpc, by rw [hr]⟩
  · cases he

theorem miLock_refused_range (hl : l < 0 ∨ lockNum ≤ l) :
    miLock n a l h = ({ h with ret := some (-1) }, []) := by
  rw [miLock, if_pos hl]

theorem miLock_refused_owned (h₀ : 0 ≤ l) (h₁ : l < lockNum) (hmy : h.syn.myLocks l = true) :
    miLock n a l h = ({ h with ret := some (-2) }, []) := by
  rw [miLock, if_neg (by omega), if_pos hmy]

theorem LockCase.onPath (hc : LockCase n a l h r) (hpc : h.pc = .run)
    (hl : r.1.pc.locking = some l) : OnPath n a l r.1.pc := by
  cases hc with
  | refused | reject =>
      dsimp only at hl
      rw [hpc] at hl
      cases hl
  | ask | queue => exact Or.inl rfl
  | fetch syn last _ he hge =>
      obtain ⟨-, -, hm⟩ := graspLock_valid he (by omega) (by omega)
      exact Or.inr ⟨.grasped, rfl, iff_of_false (fun h => by cases h) (not_not.mpr hm)⟩
  | skip | fresh => cases hl

theorem LockCase.answer (hc : LockCase n a l h r) (h₀ : 0 ≤ l) (h₁ : l < lockNum)
    (hmy : h.syn.myLocks l = false) (hret : r.1.pc.locking = none) :
    r.1.ret = lockAnswer n a l := by
  have hnone : l % n = a → (none : Option Int) = lockAnswer n a l := fun hm =>
    (if_pos hm).symm
  cases hc with
  | refused ret hr =>
      rw [hmy] at hr
      rcases hr with hr | hr | hr
      · omega
      · omega
      · cases hr
  | reject _ _ _ _ _ hm => exact hnone hm
  | ask | queue | fetch => cases hret
  | skip syn last _ he hge => exact hnone (graspLock_valid he (by omega) (by omega)).2.2
  | fresh syn last _ he hge => exact hnone (graspLock_valid he (by omega) (by omega)).2.2

theorem lockReturn_answer {path : LockPath} (hp : path = .remote ↔ l % n ≠ a) (h : Host) :
    (lockReturn l path h).ret = lockAnswer n a l := by
  cases path with
  | grasped | waited =>
      have hm : l % n = a := by
        by_contra hne
        cases hp.mpr hne
      exact (if_pos hm).symm
  | remote => exact (if_neg (hp.mp rfl)).symm

theorem resumePath_remote (n a : Nat) (l : Int) : Syn.resumePath n a l = .remote ↔ l % n ≠ a := by
  unfold Syn.resumePath
  split
  · next hm => exact iff_of_false (fun h => by cases h) (not_not.mpr hm)
  · next hm => exact iff_of_true rfl hm

/-- After a wait the call waits again on its path, or returns what its path returns. -/
theorem ResumeCase.answer (hc : ResumeCase n a l h r) :
    OnPath n a l r.1.pc ∨ r.1.pc.locking = none ∧ r.1.ret = lockAnswer n a l := by
  cases hc with
  | fetch => exact Or.inl (Or.inr ⟨_, rfl, resumePath_remote n a l⟩)
  | skip =>
      refine Or.inr ⟨?_, lockReturn_answer (resumePath_remote n a l) h⟩
      rw [lockReturn_pc]
      rfl
  | back _ hm => exact Or.inr ⟨rfl, (if_pos hm).symm⟩
  | fresh _ hm => exact Or.inr ⟨rfl, (if_neg hm).symm⟩

theorem OnPath.resume (hp : OnPath n a l h.pc) (hr : h.resume n a = some r) :
    OnPath n a l r.1.pc ∨ r.1.pc.locking = none ∧ r.1.ret = lockAnswer n a l := by
  rcases hp with hpc | ⟨path, hpc, hpath⟩
  · simp only [Host.resume, hpc] at hr
    split at hr
    · cases hr
    · cases hr
      exact (miLockResume_cases n a l h).answer
  · simp only [Host.resume, hpc] at hr
    split at hr
    · cases hr
    · cases hr
      refine Or.inr ⟨?_, lockReturn_answer hpath h⟩
      rw [lockReturn_pc]
      rfl

/-! ## The whole call -/

/-- A call in progress is on one of its paths, and one that returned had its effect. -/
structure LockProgress (n a : Nat) (l : Int) (s : Sys) : Prop where
  path : (s.host a).pc.locking = some l → OnPath n a l (s.host a).pc
  answer : (s.host a).pc.locking = none →
    (s.host a).ret = lockAnswer n a l ∧ s.Has a l

theorem LockProgress.congr (hp : LockProgress n a l s) (hpc : (t.host a).pc = (s.host a).pc)
    (hl : (s.host a).pc.locking = some l) : LockProgress n a l t := by
  refine ⟨fun _ => ?_, fun hn => ?_⟩
  · rw [hpc]
    exact hp.path hl
  · rw [hpc, hl] at hn
    cases hn

theorem LockProgress.step (hp : LockProgress n a l s) (hl : (s.host a).pc.locking = some l)
    (hw : Waits (s.host a)) {e : Event} (hs : step n s e = some t) : LockProgress n a l t := by
  obtain ⟨b, op, r, rfl, hb, he, rfl⟩ | ⟨b, c, msg, rest, rfl, hb, hc, -, -, rfl⟩ :=
    step_cases hs
  · by_cases hab : a = b
    · subst hab
      have hop : op = .resume := by
        by_contra hop
        rw [exec_run hop he] at hl
        cases hl
      subst hop
      have hr : (s.host a).resume n a = some r := he
      rcases (hp.path hl).resume hr with hpath | ⟨hnone, hret⟩
      · refine ⟨fun _ => ?_, fun hn => ?_⟩
        · rw [put_host_self]
          exact hpath
        · rw [put_host_self] at hn
          rcases hpath with hpc | ⟨path, hpc, -⟩ <;> rw [hpc] at hn <;> cases hn
      · refine ⟨fun hl' => ?_, fun _ => ?_⟩
        · rw [put_host_self, hnone] at hl'
          cases hl'
        · rw [Sys.Has, put_host_self]
          exact ⟨hret, hw.returns hr hl hnone⟩
    · refine hp.congr ?_ hl
      rw [put_host_ne hab]
  · refine hp.congr ?_ hl
    by_cases hac : a = c
    · subst hac
      rw [put_host_self]
      exact (dispatch_mem n a b msg (s.host a)).pc
    · rw [put_host_ne hac]
      rfl

/-- What the hosts that wait in `mi_lock` have, in every reachable state. -/
theorem waits_of_reach {ok : Sys → Event → Prop} (h : Reach (step n) ok initSys s) (x : Nat) :
    Waits (s.host x) := by
  have hinv : Control n s ∧ ∀ x, Waits (s.host x) := by
    refine h.invariant (P := fun s => Control n s ∧ ∀ x, Waits (s.host x))
      ⟨Control.init n, fun _ => .of_run rfl⟩ ?_
    rintro s s' e ⟨hc, hw⟩ - hs
    refine ⟨hc.step hs, ?_⟩
    obtain ⟨a, op, r, -, ha, he, rfl⟩ | ⟨a, b, msg, rest, -, ha, hb, hne, hnet, rfl⟩ :=
      step_cases hs
    · exact waits_put hw ((hw a).exec he)
    · exact waits_put hw ((hw b).read (hc.read_cases ha hb hne hnet))
  exact hinv.2 x

/-- A state in which the call has returned is the end of it. -/
theorem Reach.eq_of_returned (h : Reach (step n) (InLockCall a l) s₁ t)
    (hret : (s₁.host a).pc.locking = none) : t = s₁ := by
  induction h with
  | refl => rfl
  | tail _ hok _ ih =>
      rw [ih, InLockCall, hret] at hok
      cases hok

theorem LockReturns.progress (hs : Reach (step n) anyStep initSys s)
    (hr : LockReturns n a l s t) (h₀ : 0 ≤ l) (h₁ : l < lockNum) (hno : ¬ s.Has a l) :
    (t.host a).ret = lockAnswer n a l ∧ t.Has a l := by
  obtain ⟨s₁, hcall, hrun, hret⟩ := hr
  obtain ⟨ha, hpc, rfl⟩ := lock_step hcall
  have hs₁ : Reach (step n) anyStep initSys (s.put a (miLock n a l (s.host a))) :=
    hs.tail trivial hcall
  have hcase := miLock_cases n a l (s.host a)
  have hstart : LockProgress n a l (s.put a (miLock n a l (s.host a))) := by
    refine ⟨fun hl => ?_, fun hn => ?_⟩
    · rw [put_host_self] at hl ⊢
      exact hcase.onPath hpc hl
    · rw [Sys.Has, put_host_self] at *
      exact ⟨hcase.answer h₀ h₁ (Bool.eq_false_of_not_eq_true hno) hn,
        (control_of_reach hs).lock_returns ha h₀ h₁ hpc hn⟩
  have hend : Reach (step n) anyStep initSys t ∧ LockProgress n a l t := by
    refine hrun.invariant (P := fun t => Reach (step n) anyStep initSys t ∧ LockProgress n a l t)
      ⟨hs₁, hstart⟩ ?_
    rintro t u e ⟨ht, hp⟩ hl hu
    exact ⟨ht.tail trivial hu, hp.step hl (waits_of_reach ht a) hu⟩
  exact hend.2.answer hret

/-- A refused call returns at once. -/
theorem LockReturns.refused {ret : Int} (hr : LockReturns n a l s t)
    (hcall : miLock n a l (s.host a) = ({ s.host a with ret := some ret }, [])) :
    t = s.answer a ret := by
  obtain ⟨s₁, hs₁, hrun, -⟩ := hr
  obtain ⟨-, hpc, rfl⟩ := lock_step hs₁
  rw [hcall, ← answer_eq_put] at hrun
  refine Reach.eq_of_returned hrun ?_
  rw [answer_eq_put, put_host_self]
  dsimp only
  rw [hpc]
  rfl

theorem lockAnswer_eq_zero : lockAnswer n a l = some 0 ↔ l % n ≠ a := by
  unfold lockAnswer
  split
  · next hm => exact iff_of_false (fun h => by cases h) (not_not.mpr hm)
  · next hm => exact iff_of_true rfl hm

theorem LockReturns.result_iff (hs : Reach (step n) anyStep initSys s)
    (hr : LockReturns n a l s t) :
    LockResult a l s t ↔ (l < 0 ∨ lockNum ≤ l) ∨ s.Has a l ∨ l % n ≠ a := by
  by_cases hl : l < 0 ∨ lockNum ≤ l
  · refine iff_of_true ⟨fun _ => hr.refused (miLock_refused_range hl), fun _ _ => ?_,
      fun _ _ => ?_⟩ (Or.inl hl) <;> omega
  · rw [or_iff_right hl]
    obtain ⟨h₀, h₁⟩ : 0 ≤ l ∧ l < lockNum := by omega
    by_cases hmy : s.Has a l
    · refine iff_of_true ⟨fun h => absurd h hl, fun _ _ _ => ?_, fun _ _ h => absurd hmy h⟩
        (Or.inl hmy)
      exact hr.refused (miLock_refused_owned h₀ h₁ hmy)
    · obtain ⟨hret, hhas⟩ := hr.progress hs h₀ h₁ hmy
      rw [or_iff_right hmy, ← lockAnswer_eq_zero (n := n), ← hret]
      exact ⟨fun h => (h.taken h₀ h₁ hmy).1,
        fun h => ⟨fun h => absurd h hl, fun _ _ h => absurd h hmy, fun _ _ _ => ⟨h, hhas⟩⟩⟩

/-! ## A call of `mi_unlock` -/

theorem unlock_step (hs : step n s (.op a (.unlock l)) = some s₁) :
    s₁ = s.put a (miUnlock n a l (s.host a)) := by
  obtain ⟨a', op, r, he, ha, hr, rfl⟩ | ⟨_, _, _, _, he, -⟩ := step_cases hs
  · cases he
    have hpc := exec_run (fun h => by cases h) hr
    simp only [Host.exec, hpc, Option.some.injEq] at hr
    rw [hr]
  · cases he

/-- An unlock that is not refused. -/
theorem miUnlock_freed (h₀ : 0 ≤ l) (h₁ : l < lockNum) (hmy : h.syn.myLocks l = true) :
    (miUnlock n a l h).1.ret = lockAnswer n a l ∧
      (miUnlock n a l h).1.syn.myLocks l = false := by
  unfold miUnlock lockAnswer
  rw [if_neg (by omega), if_neg (by simp [hmy])]
  dsimp only
  split
  · refine ⟨rfl, ?_⟩
    dsimp only
    rw [(freeLock_only n a l a _).myLocks]
    exact upd_self _ _ _
  · exact ⟨rfl, upd_self _ _ _⟩

theorem unlock_result_iff (hs : step n s (.op a (.unlock l)) = some t) :
    UnlockResult a l s t ↔ (l < 0 ∨ lockNum ≤ l) ∨ ¬ s.Has a l ∨ l % n ≠ a := by
  obtain rfl := unlock_step hs
  by_cases hl : l < 0 ∨ lockNum ≤ l
  · refine iff_of_true ⟨fun _ => ?_, fun _ _ => ?_, fun _ _ => ?_⟩ (Or.inl hl)
    · rw [miUnlock, if_pos hl, answer_eq_put]
    · omega
    · omega
  · rw [or_iff_right hl]
    obtain ⟨h₀, h₁⟩ : 0 ≤ l ∧ l < lockNum := by omega
    by_cases hmy : s.Has a l
    · obtain ⟨hret, hfree⟩ := miUnlock_freed (n := n) (a := a) h₀ h₁ hmy
      rw [or_iff_right (not_not.mpr hmy), ← lockAnswer_eq_zero (n := n), ← hret]
      constructor
      · intro h
        have hzero := (h.freed h₀ h₁ hmy).1
        rwa [put_host_self] at hzero
      · refine fun h => ⟨fun h => absurd h hl, fun _ _ h => absurd hmy h, fun _ _ _ => ?_⟩
        rw [Sys.Has, put_host_self, hfree]
        exact ⟨h, fun h => by cases h⟩
    · refine iff_of_true ⟨fun h => absurd h hl, fun _ _ _ => ?_, fun _ _ h => absurd h hmy⟩
        (Or.inl hmy)
      rw [miUnlock, if_neg hl, if_pos (Bool.eq_false_of_not_eq_true hmy), answer_eq_put]

end

/-- **The lock calls return what they should unless the host manages the lock itself**: in
every run, at every return of `mi_lock` and at every call of `mi_unlock`. -/
theorem lock_api_results (n : Nat) {s : Sys} (hs : Reach (step n) anyStep initSys s) (a : Nat)
    (l : Int) :
    (∀ t, LockReturns n a l s t →
      (LockResult a l s t ↔ (l < 0 ∨ lockNum ≤ l) ∨ s.Has a l ∨ l % n ≠ a)) ∧
    ∀ t, step n s (.op a (.unlock l)) = some t →
      (UnlockResult a l s t ↔ (l < 0 ∨ lockNum ≤ l) ∨ ¬ s.Has a l ∨ l % n ≠ a) :=
  ⟨fun _ hr => hr.result_iff hs, fun _ hu => unlock_result_iff hu⟩

/-- Host 0 gets lock 0, which it manages, at once. -/
theorem lock_api_no_result : ∃ t, LockReturns 2 0 0 initSys t ∧ ¬ LockResult 0 0 initSys t := by
  refine ⟨_, ⟨_, rfl, .refl, rfl⟩, fun h => ?_⟩
  have hzero := (h.taken (by decide) (by decide) (fun h => by cases h)).1
  revert hzero
  decide

/-- Host 1 gets it from host 0. -/
theorem lock_api_results_remote :
    ∃ t, LockReturns 2 1 0 initSys t ∧ LockResult 1 0 initSys t := by
  obtain ⟨t, hrun, hp⟩ := exists_reach (step 2)
    (fun s e => decide (InLockCall 1 0 s e)) (fun _ _ h => of_decide_eq_true h) (initSys.put 1 (miLock 2 1 0 (initSys.host 1)))
    [.deliver 1 0, .deliver 0 1, .op 1 .resume] (fun t => decide ((t.host 1).pc.locking = none))
    (by decide +kernel)
  have hret : LockReturns 2 1 0 initSys t := ⟨_, rfl, hrun, of_decide_eq_true hp⟩
  exact ⟨t, hret, ((lock_api_results 2 .refl 1 0).1 t hret).mpr (Or.inr (Or.inr (by decide)))⟩

end Midsm
