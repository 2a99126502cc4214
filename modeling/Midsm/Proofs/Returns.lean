import Midsm.Proofs.LockSafety
import Midsm.Proofs.MemCases

/-!
# Whose lock it is

A program has a lock from the return of its `mi_lock` on. The history of `LockSafety` notes
these returns; here the state of a host is said to tell the same: `myLocks` is up and the
main thread is not in `mi_lock` on that lock any more. Every step but those of the two calls
on the lock leaves this as it is.
-/

namespace Midsm

open Midsm.Lib Midsm.Lib.TokenQueue

/-- The program of the host has the lock. -/
def Host.Has (l : Int) (h : Host) : Prop :=
  h.syn.myLocks l = true ∧ h.pc.locking ≠ some l

section

variable {n me : Nat} {l l' : Int} {h : Host} {r : Host × Out}

theorem Pc.Calm.locking {pc : Pc} (hc : pc.Calm) : pc.locking = none := by
  cases pc <;> first | rfl | exact hc.elim

theorem has_congr {h' : Host} (hm : h'.syn.myLocks l = h.syn.myLocks l)
    (hp : h'.pc.locking = some l ↔ h.pc.locking = some l) : h'.Has l ↔ h.Has l := by
  unfold Host.Has
  rw [hm, Ne, Ne, not_congr hp]

/-- A call of `mi_lock` on another lock. -/
theorem LockCase.has_other (hc : LockCase n me l' h r) (hpc : h.pc = .run) (hne : l ≠ l') :
    r.1.Has l ↔ h.Has l := by
  have hout : h.pc.locking ≠ some l := by
    rw [hpc]
    exact nofun
  have hin : ∀ {pc : Pc}, pc.locking = some l' → pc.locking ≠ some l := by
    intro pc hp he
    rw [hp] at he
    exact hne (Option.some.inj he).symm
  cases hc with
  | refused => exact Iff.rfl
  | reject syn _ _ _ _ _ he =>
      exact has_congr (by rw [(Syn.OnlyLock.ofGrasp he).myLocks]) Iff.rfl
  | ask => exact has_congr rfl (iff_of_false (hin rfl) hout)
  | queue syn _ he =>
      exact has_congr (by rw [(Syn.OnlyLock.ofGrasp he).myLocks]) (iff_of_false (hin rfl) hout)
  | fetch syn last _ he =>
      exact has_congr (by rw [← (Syn.OnlyLock.ofGrasp he).myLocks]; rfl)
        (iff_of_false (hin rfl) hout)
  | skip syn last _ he =>
      refine has_congr ?_ (iff_of_false nofun hout)
      rw [← (Syn.OnlyLock.ofGrasp he).myLocks]
      exact upd_ne hne
  | fresh syn last _ he =>
      refine has_congr ?_ (iff_of_false nofun hout)
      rw [← (Syn.OnlyLock.ofGrasp he).myLocks]
      exact upd_ne hne

theorem UnlockCase.has_other (hc : UnlockCase n me l' h r) (hne : l ≠ l') :
    r.1.Has l ↔ h.Has l := by
  cases hc with
  | refused => exact Iff.rfl
  | free syn result _ _ _ _ he =>
      refine has_congr ?_ Iff.rfl
      rw [(Syn.OnlyLock.ofFree he).myLocks]
      exact upd_ne hne
  | tell => exact has_congr (upd_ne hne) Iff.rfl

theorem lockReturn_has (hl : h.pc.locking = some l') (hne : l ≠ l') (path : LockPath) :
    (lockReturn l' path h).Has l ↔ h.Has l := by
  have hout : h.pc.locking ≠ some l := by
    rw [hl]
    exact fun he => hne (Option.some.inj he).symm
  cases path with
  | grasped => exact has_congr (upd_ne hne) (iff_of_false nofun hout)
  | waited | remote => exact has_congr rfl (iff_of_false nofun hout)

theorem ResumeCase.has_other (hc : ResumeCase n me l' h r) (hpc : h.pc = .lockWait l')
    (hne : l ≠ l') : r.1.Has l ↔ h.Has l := by
  have hl : h.pc.locking = some l' := by rw [hpc]; rfl
  have hout : h.pc.locking ≠ some l := by
    rw [hl]
    exact fun he => hne (Option.some.inj he).symm
  cases hc with
  | fetch => exact has_congr rfl (iff_of_false (fun he => hne (Option.some.inj he).symm) hout)
  | skip => exact lockReturn_has hl hne _
  | back | fresh => exact has_congr rfl (iff_of_false nofun hout)

/-- A segment of the main thread that is about another lock, or none. -/
theorem exec_elsewhere {op : Op} (he : h.exec n me op = some r) (hlock : op ≠ .lock l)
    (hunlock : op ≠ .unlock l) (hresume : op = .resume → h.pc.locking ≠ some l) :
    LockFrame l h r ∧ (r.1.Has l ↔ h.Has l) := by
  cases exec_cases he with
  | quiet _ _ hq =>
      refine ⟨hq.lockFrame l, has_congr (by rw [hq.syn]) ?_⟩
      rcases hq.pc with hp | ⟨hc, hc'⟩
      · rw [hp]
      · rw [hc.locking, hc'.locking]
  | lock l' hpc =>
      have hne : l ≠ l' := fun he => hlock (by rw [he])
      have hcase := miLock_cases n me l' h
      exact ⟨hcase.lockFrame hpc hne, hcase.has_other hpc hne⟩
  | unlock l' hpc =>
      have hne : l ≠ l' := fun he => hunlock (by rw [he])
      have hcase := miUnlock_cases n me l' h
      exact ⟨hcase.lockFrame hpc hne, hcase.has_other hne⟩
  | barrier hpc =>
      have hmy : (miBarrier n me h).1.syn.myLocks = h.syn.myLocks ∧
          (miBarrier n me h).1.pc.locking = none := by
        by_cases hme : me = 0
        · subst hme
          rcases miBarrier_zero_cases n h with he | ⟨-, he⟩ <;> rw [he]
          · exact ⟨rfl, rfl⟩
          · exact ⟨rfl, by dsimp only [Host.release, Host.stamped]; rw [hpc]; rfl⟩
        · unfold miBarrier
          rw [if_neg hme]
          exact ⟨rfl, rfl⟩
      refine ⟨miBarrier_lockFrame l hpc, has_congr (by rw [hmy.1]) ?_⟩
      rw [hmy.2, hpc]
      rfl
  | lockWait l' hpc hw =>
      have hne : l ≠ l' := by
        intro he
        have hno := hresume rfl
        rw [hpc, he] at hno
        exact hno rfl
      have hcase := miLockResume_cases n me l' h
      exact ⟨hcase.lockFrame l hpc hw, hcase.has_other hpc hne⟩
  | wniWait l' path hpc hw =>
      have hne : l ≠ l' := by
        intro he
        have hno := hresume rfl
        rw [hpc, he] at hno
        exact hno rfl
      exact ⟨lockReturn_lockFrame l hpc, lockReturn_has (by rw [hpc]; rfl) hne path⟩
  | barrierWait hpc hw =>
      refine ⟨⟨Or.inl rfl, phaseOf_away rfl (Pc.away_run l) (hpc ▸ Pc.away_barrierWait l),
        fun x hx => absurd hx List.not_mem_nil⟩, has_congr rfl ?_⟩
      rw [hpc]
      rfl

/-- The history of a lock after a segment that is about another one, or none. -/
theorem noteHeld_elsewhere {held : Held} {s t : Sys} {a x : Nat} {op : Op}
    (hno : x = a → op ≠ .lock l ∧ op ≠ .unlock l ∧
      (op = .resume → (s.host a).pc.locking ≠ some l)) :
    noteHeld held s (.op a op) t x l = held x l := by
  have htake : ∀ {l' : Int} {pc : Pc}, x ≠ a ∨ l ≠ l' → held.take a l' pc x l = held x l := by
    intro l' pc hne
    unfold Held.take
    split
    · exact Held.set_of_ne hne
    · rfl
  have hcase : ∀ l', (x = a → l ≠ l') → x ≠ a ∨ l ≠ l' := fun l' himp => by
    by_cases hx : x = a
    · exact Or.inr (himp hx)
    · exact Or.inl hx
  cases op with
  | lock l' => exact htake (hcase l' fun hx he => (hno hx).1 (by rw [he]))
  | unlock l' =>
      exact Held.set_of_ne (hcase l' fun hx he => (hno hx).2.1 (by rw [he]))
  | resume =>
      dsimp only [noteHeld]
      cases hl : (s.host a).pc.locking with
      | none => rfl
      | some l' => exact htake (hcase l' fun hx he => (hno hx).2.2 rfl (by rw [hl, he]))
  | alloc | load | store | barrier => rfl

theorem Held.take_self {held : Held} {x : Nat} {pc : Pc} (hl : 0 ≤ l) (hl' : l < lockNum) :
    held.take x l pc x l = true ↔ held x l = true ∨ pc.locking = none := by
  unfold Held.take
  by_cases hp : pc.locking = none
  · rw [if_pos ⟨hl, hl', hp⟩, Held.set_self]
    exact iff_of_true rfl (Or.inr hp)
  · rw [if_neg fun hc => hp hc.2.2]
    exact ⟨Or.inl, fun ho => ho.resolve_right hp⟩

/-- A `mi_lock` on the lock, unless the manager rejects it. -/
theorem LockCase.has (hc : LockCase n me l h r) (hpc : h.pc = .run) (hl : 0 ≤ l)
    (hl' : l < lockNum)
    (hno : ∀ result syn, graspLock n me l me h.syn = (result, syn) → l % n = me →
      h.syn.myLocks l = false → result ≥ -1 ∨ result = -3) :
    r.1.Has l ↔ h.Has l ∨ r.1.pc.locking = none := by
  have hrun : h.pc.locking ≠ some l := by
    rw [hpc]
    exact nofun
  have hmissing : h.syn.myLocks l = false → ¬ h.Has l := by
    intro hmy hhas
    rw [hhas.1] at hmy
    cases hmy
  cases hc with
  | refused ret hr =>
      have hmy : h.syn.myLocks l = true := (hr.resolve_left (by omega)).resolve_left (by omega)
      exact iff_of_true ⟨hmy, hrun⟩ (Or.inl ⟨hmy, hrun⟩)
  | reject syn result _ _ hmy hm he hlt hne =>
      rcases hno result syn he hm hmy with hres | hres
      · exact absurd hres hlt
      · exact absurd hres hne
  | ask _ _ hmy =>
      exact iff_of_false (fun hhas => hhas.2 rfl) (by rintro (hh | hh); exact hmissing hmy hh; cases hh)
  | queue syn hmy =>
      exact iff_of_false (fun hhas => hhas.2 rfl) (by rintro (hh | hh); exact hmissing hmy hh; cases hh)
  | fetch syn last hmy =>
      exact iff_of_false (fun hhas => hhas.2 rfl) (by rintro (hh | hh); exact hmissing hmy hh; cases hh)
  | skip | fresh => exact iff_of_true ⟨upd_self .., nofun⟩ (Or.inr rfl)

theorem miUnlock_myLocks (n me : Nat) (h : Host) (hl : 0 ≤ l) (hl' : l < lockNum) :
    (miUnlock n me l h).1.syn.myLocks l = false := by
  unfold miUnlock
  rw [if_neg (by omega)]
  split
  · next hmy => exact hmy
  · dsimp only
    split
    · have ho := freeLock_only n me l me
        { h.syn with myLocks := upd h.syn.myLocks l false }
      dsimp only
      rw [ho.myLocks]
      exact upd_self ..
    · exact upd_self ..

/-- In `mi_lock` a host waits for the lock or has been given it. -/
theorem Waits.phase (hw : Waits h) (hl : h.pc.locking = some l) :
    phaseOf l h = .holding ∨ phaseOf l h = .waiting := by
  cases hpc : h.pc with
  | lockWait l' =>
      rw [hpc] at hl
      cases hl
      have hmy := (hw.asleep l hpc).2.2
      cases hflag : h.syn.waitFlag with
      | true =>
          rw [hflag] at hmy
          exact Or.inr (phase_of_lockWait hpc hmy hflag)
      | false =>
          rw [hflag] at hmy
          exact Or.inl (phase_holding (Or.inl hmy))
  | wniWait l' path =>
      rw [hpc] at hl
      cases hl
      by_cases hp : path = .grasped
      · subst hp
        refine Or.inl (phase_holding (Or.inr ?_))
        rw [hpc]
        exact decide_eq_true rfl
      · exact Or.inl (phase_holding (Or.inl (hw.fetching l path hpc hp)))
  | run | barrierWait | pageWait | diffWait =>
      rw [hpc] at hl
      cases hl

/-- A host that waits no longer has been given the lock. -/
theorem Waits.granted (hw : Waits h) (he : h.exec n me .resume = some r)
    (hl : h.pc.locking = some l) : phaseOf l h = .holding := by
  refine (hw.phase hl).resolve_right fun hp => ?_
  obtain ⟨-, hpc, hflag⟩ := phase_waiting hp
  simp only [Host.exec, Host.resume, hpc, hflag, if_pos] at he
  cases he

/-- The main thread goes on in `mi_lock`, or it returns with the lock. -/
theorem Waits.resumed (hw : Waits h) (he : h.exec n me .resume = some r)
    (hl : h.pc.locking = some l) : LockFrame l h r ∧
      (r.1.Has l ↔ r.1.pc.locking = none) := by
  have hback : r.1.pc.locking = none → r.1.Has l := by
    intro hp
    refine ⟨hw.returns he hl hp, ?_⟩
    rw [hp]
    exact nofun
  have hin : r.1.pc.locking = some l ∨ r.1.pc.locking = none → LockFrame l h r →
      LockFrame l h r ∧ (r.1.Has l ↔ r.1.pc.locking = none) := by
    intro hp hf
    refine ⟨hf, fun hhas => ?_, hback⟩
    exact hp.resolve_left hhas.2
  cases exec_cases he with
  | quiet hc =>
      rw [hc.locking] at hl
      cases hl
  | lockWait l' hpc hflag =>
      have hcase := miLockResume_cases n me l' h
      refine hin ?_ (hcase.lockFrame l hpc hflag)
      rw [hpc] at hl
      cases hl
      generalize miLockResume n me l h = r at hcase ⊢
      cases hcase with
      | fetch => exact Or.inl rfl
      | skip => exact Or.inr (by rw [lockReturn_pc]; rfl)
      | back | fresh => exact Or.inr rfl
  | wniWait l' path hpc =>
      exact hin (Or.inr (by rw [lockReturn_pc]; rfl)) (lockReturn_lockFrame l hpc)
  | barrierWait hpc =>
      rw [hpc] at hl
      cases hl

end

end Midsm
