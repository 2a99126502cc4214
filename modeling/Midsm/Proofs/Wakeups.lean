import Midsm.Ref.Interrupt
import Midsm.Proofs.Barrier

/-!
# No wake-up is lost, outside the window

`mi_lock` and `mi_barrier` make their request visible to the handlers first and set
`waitFlag` afterwards. A handler that serves the request in between clears a flag that
is not up yet; the main thread then raises it and spins for something that has
already happened. `Asked` names the statements of this window. A run in which no handler
serves the request there keeps `Thread.Awaits`: as long as the main thread
is in the window, or spins with the flag up, its request is still open.

What comes before the window can go wrong in another way. Between the test of the owner in
`graspLock` and the entry into the waiting list, the owner's release finds the list empty and
frees the lock. Then `mi_lock` waits for a lock that is free, until another host takes it and
gives it back. It has not been granted the lock, so no wake-up is lost, and the results here
say nothing about it.
-/

namespace Midsm

open Midsm.Lib

/-- The request for the lock is in the waiting list, or goes there next, and
`waitFlag` is not up yet. -/
def LockStmt.Asked : LockStmt → Prop
  | .enqueue | .count | .flag => True
  | .result code => code = -3
  | _ => False

/-- Flag 0 is up, `waitFlag` is not, and the scan has not found all flags up. -/
def BarrierStmt.Asked (n : Nat) : BarrierStmt → Prop
  | .stamp _ | .flag => True
  | .scan i => i < n
  | _ => False

instance (stmt : LockStmt) : Decidable stmt.Asked := by
  cases stmt <;> unfold LockStmt.Asked <;> infer_instance

instance (n : Nat) (stmt : BarrierStmt) : Decidable (stmt.Asked n) :=
  match stmt with
  | .stamp _ | .flag => instDecidableTrue
  | .scan i => inferInstanceAs (Decidable (i < n))
  | .enter | .info | .exit _ | .clear _ | .spin => instDecidableFalse

/-- A release by `sender` hands the lock to `me`. -/
def Lock.HandsOver (me sender : Nat) (lock : Lock) : Prop :=
  lock.locked = true ∧ lock.owner = sender ∧ lock.waitingListCount ≠ 0 ∧
    lock.waitingList 0 = me

/-- Every host but `sender` has entered the barrier. -/
def Syn.LastToEnter (n sender : Nat) (s : Syn) : Prop :=
  ∀ i < n, i ≠ sender → s.barrierFlags i = true

/-- A host and what it has sent since it entered the barrier last. -/
structure Waiter where
  thread : Thread
  sent : Out

def Waiter.log (w : Waiter) (e : ThreadEvent) (out : Out) : Out :=
  match e, w.thread.stmt with
  | .next, .barrier .enter => out
  | _, _ => w.sent ++ out

def waiterStep (n me : Nat) (w : Waiter) (e : ThreadEvent) : Option Waiter :=
  (threadStep n me w.thread e).map fun (t, out) => ⟨t, w.log e out⟩

def initWaiter (me : Nat) : Waiter := ⟨initThread me, []⟩

/-- The main thread spins with `waitFlag` up, and what it waits for has been
handled: it owns the lock, or the barrier has been released. -/
def Waiter.Lost (n me : Nat) (w : Waiter) : Prop :=
  w.thread.host.syn.waitFlag = true ∧
  ((∃ l, w.thread.stmt = .lock l .spin ∧ (w.thread.host.syn.locks l).owner = me ∧
      w.thread.host.syn.myLocks l = true) ∨
    (w.thread.stmt = .barrier .spin ∧ w.thread.host.syn.barrierFlags 0 = false ∧
      ∀ i, 0 < i → i < n → Msg.exitBarrier ∈ outTo w.sent i))

/-- No handler serves the request of the main thread inside the window. -/
def OutsideWindow (n me : Nat) (w : Waiter) : ThreadEvent → Prop
  | .handler sender (.rlsLock l) =>
      match w.thread.stmt with
      | .lock l' stmt =>
          l = l' → stmt.Asked → ¬ (w.thread.host.syn.locks l).HandsOver me sender
      | _ => True
  | .handler sender .enterBarrier =>
      match w.thread.stmt with
      | .barrier stmt => stmt.Asked n → ¬ w.thread.host.syn.LastToEnter n sender
      | _ => True
  | _ => True

/-- The request of the main thread is open as long as it counts on being woken. -/
def Thread.Awaits (n me : Nat) (t : Thread) : Prop :=
  match t.stmt with
  | .idle => True
  | .lock l stmt => stmt.Asked ∨ (stmt = .spin ∧ t.host.syn.waitFlag = true) →
      (t.host.syn.locks l).owner ≠ me
  | .barrier stmt => stmt.Asked n ∨ (stmt = .spin ∧ t.host.syn.waitFlag = true) →
      t.host.syn.barrierFlags 0 = true

/-- A lock's last holder is a host or -1. -/
def Syn.Holders (s : Syn) : Prop := ∀ l, -1 ≤ (s.locks l).lasthostid

section

variable {n me : Nat}

/-! ## The records -/

theorem Syn.Holders.setLock {s : Syn} (h : s.Holders) {l : Int} {lock : Lock}
    (hl : -1 ≤ lock.lasthostid) : (s.setLock l lock).Holders := by
  intro l'
  show -1 ≤ (upd s.locks l lock l').lasthostid
  unfold upd
  split
  · exact hl
  · exact h l'

theorem Syn.Holders.grasp {s : Syn} (h : s.Holders) (n me : Nat) (l x : Int) :
    (graspLock n me l x s).2.Holders := by
  unfold graspLock
  dsimp only
  split
  · exact h
  · split
    · exact h
    · split
      · exact h.setLock (h l)
      · split
        · exact h
        · exact h.setLock (h l)

theorem Syn.Holders.free {s : Syn} (h : s.Holders) (n me : Nat) (l x : Int) :
    (freeLock n me l x s).2.Holders := by
  unfold freeLock
  dsimp only
  split
  · exact h
  · split
    · exact h
    · split
      · exact h
      · split
        · exact h
        · next hx _ _ _ =>
            have hx : -1 ≤ x := by omega
            split
            · exact h.setLock hx
            · exact h.setLock hx

/-- A lock only becomes `me`'s by `graspLock` if `me` asks. -/
theorem graspLock_owner {s : Syn} {l l' x : Int} (hx : x ≠ me)
    (ho : ((graspLock n me l' x s).2.locks l).owner = me) : (s.locks l).owner = me := by
  by_cases hl : l = l'
  · subst hl
    unfold graspLock at ho
    dsimp only at ho
    split at ho
    · exact ho
    · split at ho
      · exact ho
      · split at ho
        · rw [setLock_locks_self] at ho
          exact absurd ho hx
        · split at ho
          · exact ho
          · rw [setLock_locks_self] at ho
            exact ho
  · rwa [(graspLock_only n me l' x s).locks l hl] at ho

/-- `freeLock` makes a lock `me`'s by handing it over. -/
theorem freeLock_owner {s : Syn} {l l' : Int} {sender : Nat}
    (ho : ((freeLock n me l' sender s).2.locks l).owner = me) :
    (s.locks l).owner = me ∨
      (l = l' ∧ (s.locks l).HandsOver me sender ∧ (freeLock n me l' sender s).1 = me) := by
  by_cases hl : l = l'
  · subst hl
    unfold freeLock at ho
    dsimp only at ho
    split at ho
    · exact Or.inl ho
    · next hrange =>
        split at ho
        · exact Or.inl ho
        · next hmine =>
            split at ho
            · exact Or.inl ho
            · next hlocked =>
                split at ho
                · exact Or.inl ho
                · next howner =>
                    split at ho
                    · rw [setLock_locks_self] at ho
                      exact absurd ho (by dsimp only; omega)
                    · next hcount =>
                        rw [setLock_locks_self] at ho
                        refine Or.inr ⟨rfl, ⟨by simpa using hlocked, not_not.mp howner,
                          hcount, ho⟩, ?_⟩
                        unfold freeLock
                        dsimp only
                        rw [if_neg hrange, if_neg hmine, if_neg hlocked, if_neg howner,
                          if_neg hcount]
                        exact ho
  · rw [(freeLock_only n me l' sender s).locks l hl] at ho
    exact Or.inl ho

/-! ## The handlers -/

/-- What a handler can do to the data of `syn.c`. -/
inductive SynCase (n me sender : Nat) (s : Syn) : Msg → Syn → Prop
  | quiet (msg : Msg) : SynCase n me sender s msg s
  | grasp (l : Int) : SynCase n me sender s (.acqLock l) (graspLock n me l sender s).2
  | free (l : Int) : (freeLock n me l sender s).1 ≠ me →
      SynCase n me sender s (.rlsLock l) (freeLock n me l sender s).2
  | hand (l : Int) : (freeLock n me l sender s).1 = me →
      SynCase n me sender s (.rlsLock l) { (freeLock n me l sender s).2 with
        lasthostid := sender
        waitFlag := false
        myLocks := upd (freeLock n me l sender s).2.myLocks l true }
  | grant (l last : Int) : SynCase n me sender s (.grantLock l last) { s with
      lasthostid := last
      myLocks := upd s.myLocks l true
      waitFlag := false }
  | flag : SynCase n me sender s .enterBarrier
      { s with barrierFlags := upd s.barrierFlags sender true }
  | release : s.LastToEnter n sender → SynCase n me sender s .enterBarrier { s with
      locks := fun l => { s.locks l with lasthostid := -1 }
      barrierFlags := fun i => if i < n then false else upd s.barrierFlags sender true i
      waitFlag := false }
  | exit : SynCase n me sender s .exitBarrier { s with waitFlag := false }

theorem dispatch_syn (n me sender : Nat) (msg : Msg) (h : Host) :
    SynCase n me sender h.syn msg (dispatchMsg n me sender msg h).1.syn := by
  cases msg with
  | acqLock l =>
      show SynCase n me sender h.syn _ (handleAcquireMsg n me sender l h).1.syn
      unfold handleAcquireMsg
      split
      · exact .grasp l
      · exact .quiet _
  | rlsLock l =>
      show SynCase n me sender h.syn _ (handleReleaseMsg n me sender l h).1.syn
      unfold handleReleaseMsg
      split
      · dsimp only
        split
        · split
          · next hme => exact .hand l hme
          · next hme => exact .free l hme
        · next hneg => exact .free l (by omega)
      · exact .quiet _
  | grantLock l last =>
      show SynCase n me sender h.syn _ (handleGrantMsg l last h).syn
      unfold handleGrantMsg
      split
      · exact .grant l last
      · exact .quiet _
  | enterBarrier =>
      show SynCase n me sender h.syn _ (handleEnterBarrierMsg n me sender h).1.syn
      unfold handleEnterBarrierMsg
      rcases checkBarrierFlags_cases n me
        { h with syn := { h.syn with barrierFlags := upd h.syn.barrierFlags sender true } } with
        ⟨he, -⟩ | ⟨-, hall, he⟩
      · simp only [he]
        exact .flag
      · simp only [he]
        refine .release fun i hi hne => ?_
        have hup : upd h.syn.barrierFlags sender true i = true := hall i hi
        rwa [upd_ne hne] at hup
  | exitBarrier =>
      show SynCase n me sender h.syn _ (handleExitBarrierMsg sender h).syn
      unfold handleExitBarrierMsg
      split
      · exact .exit
      · exact .quiet _
  | _ => exact .quiet _

section

variable {s s' : Syn} {sender : Nat} {msg : Msg}

theorem SynCase.holders (hc : SynCase n me sender s msg s') (hh : s.Holders) :
    s'.Holders := by
  cases hc with
  | quiet => exact hh
  | grasp l => exact hh.grasp n me l sender
  | free l _ => exact hh.free n me l sender
  | hand l _ => exact hh.free n me l sender
  | grant => exact hh
  | flag => exact hh
  | release => exact fun _ => Int.le_refl _
  | exit => exact hh

/-- A handler makes a lock `me`'s only by a release that hands it over, and then
it clears `waitFlag`. -/
theorem SynCase.owner {l : Int} (hc : SynCase n me sender s msg s') (hne : sender ≠ me)
    (ho : (s'.locks l).owner = me) : (s.locks l).owner = me ∨
      (msg = .rlsLock l ∧ (s.locks l).HandsOver me sender ∧ s'.waitFlag = false) := by
  cases hc with
  | quiet => exact Or.inl ho
  | grasp l' => exact Or.inl (graspLock_owner (by omega) ho)
  | free l' hres =>
      rcases freeLock_owner ho with hold | ⟨-, -, hme⟩
      · exact Or.inl hold
      · exact absurd hme hres
  | hand l' hres =>
      rcases freeLock_owner ho with hold | ⟨rfl, hover, -⟩
      · exact Or.inl hold
      · exact Or.inr ⟨rfl, hover, rfl⟩
  | grant => exact Or.inl ho
  | flag => exact Or.inl ho
  | release => exact Or.inl ho
  | exit => exact Or.inl ho

/-- A handler lowers flag 0 only by a release of the barrier, and then it clears
`waitFlag`. -/
theorem SynCase.flagUp (hc : SynCase n me sender s msg s') (hf : s.barrierFlags 0 = true) :
    s'.barrierFlags 0 = true ∨
      (msg = .enterBarrier ∧ s.LastToEnter n sender ∧ s'.waitFlag = false) := by
  cases hc with
  | quiet => exact Or.inl hf
  | grasp l =>
      rw [(graspLock_only n me l sender s).barrierFlags]
      exact Or.inl hf
  | free l _ =>
      rw [(freeLock_only n me l sender s).barrierFlags]
      exact Or.inl hf
  | hand l _ => exact Or.inl ((freeLock_only n me l sender s).barrierFlags ▸ hf)
  | grant => exact Or.inl hf
  | flag =>
      left
      show upd s.barrierFlags sender true 0 = true
      unfold upd
      split
      · rfl
      · exact hf
  | release hlast => exact Or.inr ⟨rfl, hlast, rfl⟩
  | exit => exact Or.inl hf

/-- No handler raises `waitFlag`. -/
theorem SynCase.waits (hc : SynCase n me sender s msg s') (hup : s'.waitFlag = true) :
    s.waitFlag = true := by
  cases hc with
  | quiet => exact hup
  | grasp l => rwa [(graspLock_only n me l sender s).waitFlag] at hup
  | free l _ => rwa [(freeLock_only n me l sender s).waitFlag] at hup
  | hand => cases hup
  | grant => cases hup
  | flag => exact hup
  | release => cases hup
  | exit => cases hup

end

/-! ## The calls that are taken whole -/

theorem Syn.Holders.lockReturn {h : Host} (hh : h.syn.Holders) (l : Int) (path : LockPath) :
    (lockReturn l path h).syn.Holders := by
  cases path <;> exact hh

theorem LockCase.holders {l : Int} {h : Host} {r : Host × Out} (hc : LockCase n me l h r)
    (hh : h.syn.Holders) : r.1.syn.Holders := by
  have hg : ∀ code syn, graspLock n me l me h.syn = (code, syn) → syn.Holders := by
    intro code syn he
    have hg := hh.grasp n me l me
    rwa [he] at hg
  cases hc with
  | refused => exact hh
  | ask => exact hh
  | reject syn result _ _ _ _ he => exact hg result syn he
  | queue syn _ he => exact hg (-3) syn he
  | fetch syn last _ he => exact hg last syn he
  | skip syn last _ he => exact hg last syn he
  | fresh syn last _ he => exact hg last syn he

theorem ResumeCase.holders {l : Int} {h : Host} {r : Host × Out}
    (hc : ResumeCase n me l h r) (hh : h.syn.Holders) : r.1.syn.Holders := by
  cases hc with
  | fetch => exact hh
  | skip => exact hh.lockReturn l _
  | back => exact hh
  | fresh => exact hh

theorem UnlockCase.holders {l : Int} {h : Host} {r : Host × Out}
    (hc : UnlockCase n me l h r) (hh : h.syn.Holders) : r.1.syn.Holders := by
  cases hc with
  | refused => exact hh
  | tell => exact hh
  | free syn result _ _ _ _ he =>
      have hr : (h.releasing n me l).syn.Holders := hh
      have hf := hr.free n me l me
      rwa [he] at hf

/-- A segment of a call that is taken whole keeps the last holders. -/
theorem exec_holders {op : Op} {h : Host} {r : Host × Out} (hop : op.Whole n me)
    (hh : h.syn.Holders) (hr : h.exec n me op = some r) : r.1.syn.Holders := by
  cases exec_cases hr with
  | quiet _ _ hq _ _ =>
      rw [hq.syn]
      exact hh
  | lock l _ => exact (miLock_cases n me l h).holders hh
  | unlock l _ => exact (miUnlock_cases n me l h).holders hh
  | barrier _ =>
      unfold miBarrier
      rw [if_neg hop]
      exact hh
  | lockWait l _ _ => exact (miLockResume_cases n me l h).holders hh
  | wniWait l path _ _ => exact hh.lockReturn l path
  | barrierWait _ _ => exact hh

/-! ## The statements -/

/-- What a host keeps while `mi_lock` and `mi_barrier` run in it. -/
structure Thread.Sound (n me : Nat) (t : Thread) : Prop where
  holders : t.host.syn.Holders
  awaits : t.Awaits n me

theorem Thread.Sound.init : (initThread me).Sound n me :=
  ⟨fun _ => Int.le_refl _, trivial⟩

theorem Thread.Sound.idle {h : Host} (hh : h.syn.Holders) : Thread.Sound n me ⟨h, .idle⟩ :=
  ⟨hh, trivial⟩

/-- Statements that count on nothing. -/
theorem Thread.Sound.inLock {h : Host} {l : Int} {stmt : LockStmt} (hh : h.syn.Holders)
    (hask : ¬ stmt.Asked) (hspin : stmt ≠ .spin) :
    Thread.Sound n me ⟨h, .lock l stmt⟩ :=
  ⟨hh, fun hw => (hw.elim hask fun h => hspin h.1).elim⟩

theorem Thread.Sound.inBarrier {h : Host} {stmt : BarrierStmt} (hh : h.syn.Holders)
    (hask : ¬ stmt.Asked n) (hspin : stmt ≠ .spin) :
    Thread.Sound n me ⟨h, .barrier stmt⟩ :=
  ⟨hh, fun hw => (hw.elim hask fun h => hspin h.1).elim⟩

theorem Thread.Sound.lockStmt {l : Int} {stmt : LockStmt} {h : Host} {t : Thread} {out : Out}
    (hs : Thread.Sound n me ⟨h, .lock l stmt⟩)
    (he : lockStmt n me l h stmt = some (t, out)) : t.Sound n me := by
  obtain ⟨hh, hw⟩ := hs
  cases stmt with
  | held =>
      dsimp only [Midsm.lockStmt, Thread.leave] at he
      split at he
      · cases he
        exact .idle hh
      · cases he
        exact .inLock hh id nofun
  | state =>
      cases he
      split
      · exact .inLock hh id nofun
      · exact .inLock hh id nofun
  | setState =>
      cases he
      exact .inLock (hh.setLock (hh l)) id nofun
  | setOwner =>
      cases he
      exact .inLock (hh.setLock (hh l)) id nofun
  | last =>
      cases he
      have hl : -1 ≤ (h.syn.locks l).lasthostid := hh l
      refine .inLock hh (fun hask => ?_) nofun
      replace hask : (h.syn.locks l).lasthostid = -3 := hask
      omega
  | owner =>
      cases he
      split
      · exact .inLock hh (by decide) nofun
      · next hne => exact ⟨hh, fun _ => hne⟩
  | enqueue =>
      cases he
      refine ⟨hh.setLock (hh l), fun _ => ?_⟩
      show ((Syn.setLock l _ h.syn).locks l).owner ≠ me
      rw [setLock_locks_self]
      exact hw (Or.inl trivial)
  | count =>
      cases he
      refine ⟨hh.setLock (hh l), fun _ => ?_⟩
      show ((Syn.setLock l _ h.syn).locks l).owner ≠ me
      rw [setLock_locks_self]
      exact hw (Or.inl trivial)
  | result code =>
      dsimp only [Midsm.lockStmt, Thread.leave] at he
      split at he
      · next hcode =>
          cases he
          exact ⟨hh, fun _ => hw (Or.inl hcode)⟩
      · split at he
        · cases he
          split
          · exact .inLock hh id nofun
          · exact .inLock hh id nofun
        · cases he
          exact .idle hh
  | flag =>
      cases he
      exact ⟨hh, fun _ => hw (Or.inl trivial)⟩
  | spin =>
      dsimp only [Midsm.lockStmt] at he
      split at he
      · cases he
      · cases he
        exact .inLock hh id nofun
  | granted =>
      dsimp only [Midsm.lockStmt, Thread.leave] at he
      split at he
      · cases he
        exact .inLock hh id nofun
      · cases he
        exact .idle hh
  | fetch path hostid =>
      dsimp only [Midsm.lockStmt] at he
      split at he
      · cases he
        exact .inLock hh id nofun
      · cases he
        cases path <;> exact .inLock hh id nofun
  | fetching path =>
      dsimp only [Midsm.lockStmt] at he
      split at he
      · cases he
      · cases he
        cases path <;> exact .inLock hh id nofun
  | forget =>
      cases he
      exact .idle hh
  | interval =>
      cases he
      exact .inLock hh id nofun
  | own =>
      cases he
      exact .idle hh

theorem Thread.Sound.barrierStmt {stmt : BarrierStmt} {h : Host} {t : Thread} {out : Out}
    (hs : Thread.Sound n me ⟨h, .barrier stmt⟩)
    (he : barrierStmt n me h stmt = some (t, out)) : t.Sound n me := by
  obtain ⟨hh, hw⟩ := hs
  cases stmt with
  | enter =>
      cases he
      have hup : upd h.syn.barrierFlags 0 true 0 = true := upd_self ..
      exact ⟨hh, fun _ => hup⟩
  | stamp i =>
      dsimp only [Midsm.barrierStmt] at he
      split at he
      · cases he
        exact ⟨hh, fun _ => hw (Or.inl trivial)⟩
      · cases he
        exact ⟨hh, fun _ => hw (Or.inl trivial)⟩
  | scan i =>
      dsimp only [Midsm.barrierStmt] at he
      split at he
      · next hi =>
          cases he
          have hup : h.syn.barrierFlags 0 = true := hw (Or.inl hi)
          split
          · exact ⟨hh, fun _ => hup⟩
          · exact ⟨hh, fun _ => hup⟩
      · cases he
        exact .inBarrier hh id (fun h => by cases h)
  | info =>
      cases he
      exact .inBarrier (fun _ => Int.le_refl _) id (fun h => by cases h)
  | exit i =>
      dsimp only [Midsm.barrierStmt] at he
      split at he
      · cases he
        exact .inBarrier hh id (fun h => by cases h)
      · cases he
        exact .inBarrier hh id (fun h => by cases h)
  | clear i =>
      dsimp only [Midsm.barrierStmt, Thread.leave] at he
      split at he
      · cases he
        exact .inBarrier hh id (fun h => by cases h)
      · cases he
        exact .idle hh
  | flag =>
      cases he
      exact ⟨hh, fun _ => hw (Or.inl trivial)⟩
  | spin =>
      dsimp only [Midsm.barrierStmt, Thread.leave] at he
      split at he
      · cases he
      · cases he
        exact .idle hh

/-- A handler that runs outside the window. -/
theorem Thread.Sound.handler {h : Host} {stmt : Stmt} {sender : Nat} {msg : Msg} {sent : Out}
    (hs : Thread.Sound n me ⟨h, stmt⟩) (hne : sender ≠ me)
    (hok : OutsideWindow n me ⟨⟨h, stmt⟩, sent⟩ (.handler sender msg)) :
    Thread.Sound n me ⟨(dispatchMsg n me sender msg h).1, stmt⟩ := by
  obtain ⟨hh, hw⟩ := hs
  have hc := dispatch_syn n me sender msg h
  refine ⟨hc.holders hh, ?_⟩
  cases stmt with
  | idle => trivial
  | lock l stmt =>
      intro hask ho
      rcases hc.owner hne ho with hold | ⟨rfl, hover, hflag⟩
      · exact hw (hask.imp_right fun hspin => ⟨hspin.1, hc.waits hspin.2⟩) hold
      · rcases hask with hask | ⟨-, hup⟩
        · exact hok rfl hask hover
        · cases hflag.symm.trans hup
  | barrier stmt =>
      intro hask
      have hup := hw (hask.imp_right fun hspin => ⟨hspin.1, hc.waits hspin.2⟩)
      rcases hc.flagUp hup with hup | ⟨rfl, hlast, hflag⟩
      · exact hup
      · rcases hask with hask | ⟨-, hset⟩
        · exact absurd hlast (hok hask)
        · cases hflag.symm.trans hset

theorem threadStep_event {t : Thread} {e : ThreadEvent} {r : Thread × Out}
    (h : threadStep n me t e = some r) : t.host.hung = false ∧ t.event n me e = some r := by
  unfold threadStep at h
  split at h
  · cases h
  · next hh => exact ⟨Bool.eq_false_iff.mpr hh, h⟩

theorem Thread.Sound.step {w : Waiter} {e : ThreadEvent} {t : Thread} {out : Out}
    (hs : w.thread.Sound n me) (hok : OutsideWindow n me w e)
    (he : threadStep n me w.thread e = some (t, out)) : t.Sound n me := by
  obtain ⟨-, he⟩ := threadStep_event he
  obtain ⟨⟨h, stmt⟩, sent⟩ := w
  cases e with
  | lock l =>
      dsimp only [Thread.event, Thread.leave] at he
      split at he
      · split at he
        · cases he
          exact .idle hs.holders
        · cases he
          exact .inLock hs.holders id nofun
      · cases he
  | barrier =>
      dsimp only [Thread.event] at he
      split at he
      · cases he
        exact .inBarrier hs.holders id nofun
      · cases he
  | op op =>
      dsimp only [Thread.event] at he
      split at he
      · split at he
        · next hop =>
            obtain ⟨r, hr, he⟩ := Option.map_eq_some_iff.mp he
            cases he
            exact .idle (exec_holders hop hs.holders hr)
        · cases he
      · cases he
  | next =>
      cases stmt with
      | idle => cases he
      | lock l stmt => exact hs.lockStmt he
      | barrier stmt => exact hs.barrierStmt he
  | handler sender msg =>
      dsimp only [Thread.event] at he
      split at he
      · next hsender =>
          cases he
          exact hs.handler hsender.2 hok
      · cases he

/-- If no handler hands the lock over, or finds all flags up, between the request of
the main thread and its `waitFlag = 1`, the main thread never spins for something that
has been handled already. -/
theorem no_lost_wakeup (n me : Nat) {w : Waiter}
    (h : Reach (waiterStep n me) (OutsideWindow n me) (initWaiter me) w) :
    ¬ w.Lost n me := by
  have hs : w.thread.Sound n me := by
    refine h.invariant (P := fun w : Waiter => w.thread.Sound n me) .init
      fun hs hok he => ?_
    obtain ⟨r, hr, rfl⟩ := Option.map_eq_some_iff.mp he
    exact hs.step hok hr
  obtain ⟨⟨h, stmt⟩, sent⟩ := w
  rintro ⟨hup, ⟨l, rfl, howner, -⟩ | ⟨rfl, hflag, -⟩⟩
  · exact hs.awaits (Or.inr ⟨rfl, hup⟩) howner
  · cases hflag.symm.trans (hs.awaits (Or.inr ⟨rfl, hup⟩))

instance (me sender : Nat) (lock : Lock) : Decidable (lock.HandsOver me sender) :=
  inferInstanceAs (Decidable (_ ∧ _ ∧ _ ∧ _))

instance (n sender : Nat) (s : Syn) : Decidable (s.LastToEnter n sender) :=
  inferInstanceAs (Decidable (∀ i < n, _))

instance (n me : Nat) (w : Waiter) (e : ThreadEvent) : Decidable (OutsideWindow n me w e) := by
  unfold OutsideWindow
  split
  · split <;> infer_instance
  · split <;> infer_instance
  · infer_instance

/-- Host 0 waits for lock 0, which it manages: host 1 holds it, and releases it while
host 0 spins. -/
theorem no_lost_wakeup_two :
    ∃ w : Waiter, ¬ w.Lost 2 0 ∧ (w.thread.host.syn.locks 0).owner = 0 ∧
      w.thread.host.syn.waitFlag = false := by
  obtain ⟨w, hrun, hp⟩ := exists_reach (waiterStep 2 0) (fun w e => decide (OutsideWindow 2 0 w e))
    (fun _ _ => of_decide_eq_true) (initWaiter 0)
    [.handler 1 (.acqLock 0), .lock 0, .next, .next, .next, .next, .next, .next, .next,
      .handler 1 (.rlsLock 0)]
    (fun w : Waiter => decide ((w.thread.host.syn.locks 0).owner = 0 ∧
      w.thread.host.syn.waitFlag = false)) (by decide +kernel)
  exact ⟨w, no_lost_wakeup 2 0 hrun, of_decide_eq_true hp⟩

/-- The requests the protocol can have on their way to a manager: a host asks for
a lock it does not own, releases one it owns, and enters a barrier it has not
entered. -/
def InFlight (w : Waiter) : ThreadEvent → Prop
  | .handler sender (.acqLock l) => (w.thread.host.syn.locks l).owner ≠ sender
  | .handler sender (.rlsLock l) => (w.thread.host.syn.locks l).owner = sender
  | .handler sender .enterBarrier => w.thread.host.syn.barrierFlags sender = false
  | .handler _ _ => False
  | _ => True

instance (w : Waiter) (e : ThreadEvent) : Decidable (InFlight w e) :=
  match e with
  | .handler sender (.acqLock l) =>
      inferInstanceAs (Decidable ((w.thread.host.syn.locks l).owner ≠ sender))
  | .handler sender (.rlsLock l) =>
      inferInstanceAs (Decidable ((w.thread.host.syn.locks l).owner = sender))
  | .handler sender .enterBarrier =>
      inferInstanceAs (Decidable (w.thread.host.syn.barrierFlags sender = false))
  | .handler _ (.grantLock ..) | .handler _ .exitBarrier | .handler _ (.grantWnI ..)
  | .handler _ (.grantDiff ..) | .handler _ (.grantPage ..) | .handler _ (.fetchPage _)
  | .handler _ (.fetchWnI _) | .handler _ (.fetchDiff ..)
  | .handler _ (.grantEnterBarrierInfo ..) | .handler _ (.grantExitBarrierInfo ..) =>
      instDecidableFalse
  | .lock _ | .barrier | .op _ | .next => instDecidableTrue

def Msg.isExit : Msg → Bool
  | .exitBarrier => true
  | _ => false

theorem mem_exit {q : List Msg} (h : q.any Msg.isExit = true) : Msg.exitBarrier ∈ q := by
  obtain ⟨msg, hm, he⟩ := List.any_eq_true.mp h
  cases msg <;> first | exact hm | cases he

/-- The release of lock 0 by host 1 is handled between `graspLock` and `waitFlag = 1`;
host 0 spins although it owns the lock. And the `ENTER_BARRIER` of host 1 is handled
between the scan of the flags and `waitFlag = 1`; host 0 spins although the barrier has
been released. -/
theorem wakeup_lost :
    (∃ w, Reach (waiterStep 2 0) InFlight (initWaiter 0) w ∧
      w.thread.stmt = .lock 0 .spin ∧ w.Lost 2 0) ∧
    ∃ w, Reach (waiterStep 2 0) InFlight (initWaiter 0) w ∧
      w.thread.stmt = .barrier .spin ∧ w.Lost 2 0 := by
  constructor
  · obtain ⟨w, hrun, hp⟩ := exists_reach (waiterStep 2 0) (fun w e => decide (InFlight w e))
      (fun _ _ => of_decide_eq_true) (initWaiter 0)
      [.handler 1 (.acqLock 0), .lock 0, .next, .next, .next, .next, .next, .next,
        .handler 1 (.rlsLock 0), .next]
      (fun w : Waiter => (match w.thread.stmt with
        | .lock 0 .spin => true
        | _ => false) && decide ((w.thread.host.syn.locks 0).owner = 0 ∧
          w.thread.host.syn.myLocks 0 = true ∧ w.thread.host.syn.waitFlag = true))
      (by decide +kernel)
    rw [Bool.and_eq_true, decide_eq_true_eq] at hp
    obtain ⟨hstmt, howner, hmy, hup⟩ := hp
    have hstmt : w.thread.stmt = .lock 0 .spin := by
      split at hstmt
      · assumption
      · cases hstmt
    exact ⟨w, hrun, hstmt, hup, Or.inl ⟨0, hstmt, howner, hmy⟩⟩
  · obtain ⟨w, hrun, hp⟩ := exists_reach (waiterStep 2 0) (fun w e => decide (InFlight w e))
      (fun _ _ => of_decide_eq_true) (initWaiter 0)
      [.barrier, .next, .next, .next, .next, .next, .next, .handler 1 .enterBarrier, .next]
      (fun w : Waiter => (match w.thread.stmt with
        | .barrier .spin => true
        | _ => false) && (outTo w.sent 1).any Msg.isExit &&
          decide (w.thread.host.syn.barrierFlags 0 = false ∧
            w.thread.host.syn.waitFlag = true))
      (by decide +kernel)
    rw [Bool.and_eq_true, Bool.and_eq_true, decide_eq_true_eq] at hp
    obtain ⟨⟨hstmt, hexit⟩, hflag, hup⟩ := hp
    have hstmt : w.thread.stmt = .barrier .spin := by
      split at hstmt
      · assumption
      · cases hstmt
    refine ⟨w, hrun, hstmt, hup, Or.inr ⟨hstmt, hflag, fun i h0 hi => ?_⟩⟩
    obtain rfl : i = 1 := by omega
    exact mem_exit hexit

end

end Midsm
