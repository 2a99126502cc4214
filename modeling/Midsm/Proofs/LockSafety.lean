import Midsm.Proofs.Protocol

/-!
# Safety of the locks

Three facts about every run. A lock is held by one host at most, from the
return of its `mi_lock` to its next `mi_unlock`. A host that is blocked on a
lock has exactly one of: its request in flight, a place in the manager's
waiting list, a grant in flight. And a grant finds its host blocked on the lock
it grants.

That a host is between the two calls is a matter of history, so it is a ghost:
`noteHeld` watches the calls of `mi_lock` return. `myLocks` agrees with it,
because a host that leaves the wait of `mi_lock` has been granted the lock and
not, say, been woken by a barrier; that is what `Waits` says.
-/

namespace Midsm

open Midsm.Lib Midsm.Lib.TokenQueue

/-! ## Reading a message, for the main thread -/

/-- What reading a message does to the main thread: nothing, or it wakes it
from the wait it is in. -/
inductive ReadCase (h h' : Host) : Prop
  | keep : h'.pc = h.pc → h'.syn.myLocks = h.syn.myLocks →
      h'.syn.waitFlag = h.syn.waitFlag → ReadCase h h'
  | wakeLock (l : Int) : h.pc = .lockWait l → h'.pc = .lockWait l →
      h'.syn.myLocks = upd h.syn.myLocks l true → h'.syn.waitFlag = false →
      ReadCase h h'
  | wakeBarrier : h.pc = .barrierWait → h'.pc = .barrierWait →
      h'.syn.myLocks = h.syn.myLocks → ReadCase h h'

section

variable {n : Nat} {s : Sys} {a b : Nat} {r : Host × Out}

theorem Control.read_cases (hc : Control n s) (ha : a < n) (hb : b < n) (hne : a ≠ b)
    {msg : Msg} {rest : List Msg} (hnet : s.net a b = msg :: rest) :
    ReadCase (s.host b) (dispatchMsg n b a msg (s.host b)).1 := by
  have hn : 0 < n := by omega
  have hquiet : ∀ {r : Host × Out}, Quiet (s.host b) r → r.1.pc = (s.host b).pc →
      ReadCase (s.host b) r.1 := fun hq hp => .keep hp (by rw [hq.syn]) (by rw [hq.syn])
  cases msg with
  | acqLock l =>
      have ho := graspLock_only n b l a (s.host b).syn
      dsimp only [dispatchMsg]
      unfold handleAcquireMsg
      split
      · exact .keep rfl ho.myLocks ho.waitFlag
      · exact .keep rfl rfl rfl
  | rlsLock l =>
      have ho := freeLock_only n b l a (s.host b).syn
      dsimp only [dispatchMsg]
      unfold handleReleaseMsg
      split
      · dsimp only
        split
        · next hge =>
            split
            · next hwake =>
                obtain ⟨h₁, h₂, hm⟩ := freeLock_valid hge
                obtain rfl := (emod_eq_iff hn).mp hm
                have hpc := (phase_waiting ((hc.locks l h₁ h₂).release_wakes ha hne hnet
                  h₁ h₂ hwake)).2.1
                refine .wakeLock l hpc hpc ?_ rfl
                rw [ho.myLocks]
            · exact .keep rfl ho.myLocks ho.waitFlag
        · exact .keep rfl ho.myLocks ho.waitFlag
      · exact .keep rfl rfl rfl
  | grantLock l last =>
      have hmem : Msg.grantLock l last ∈ s.net a b := by
        rw [hnet]
        exact List.mem_cons_self
      obtain ⟨h₁, h₂, rfl⟩ := hc.grants a b l last hmem
      have hpc := (phase_waiting ((hc.locks l h₁ h₂).grant_wakes hb hne.symm hmem)).2.1
      dsimp only [dispatchMsg]
      rw [handleGrantMsg, if_pos ⟨h₁, h₂⟩]
      exact .wakeLock l hpc hpc rfl rfl
  | enterBarrier =>
      dsimp only [dispatchMsg]
      unfold handleEnterBarrierMsg
      dsimp only
      rcases checkBarrierFlags_cases n b { s.host b with
          syn := { (s.host b).syn with
            barrierFlags := upd (s.host b).syn.barrierFlags a true } }
        with ⟨he, -⟩ | ⟨hb0, hall, he⟩ <;> rw [he]
      · exact .keep rfl rfl rfl
      · subst hb0
        have hpc := Pc.eq_barrierWait (hc.barrier.manager_waits
          ((upd_ne (Ne.symm hne)).symm.trans (hall 0 hn)))
        exact .wakeBarrier hpc hpc rfl
  | exitBarrier =>
      dsimp only [dispatchMsg]
      unfold handleExitBarrierMsg
      split
      · next ha0 =>
          subst ha0
          obtain ⟨hin, -⟩ := (hc.barrier.client b (by omega) hb).down_head hnet rfl
          exact .wakeBarrier (Pc.eq_barrierWait hin) (Pc.eq_barrierWait hin) rfl
      · exact .keep rfl rfl rfl
  | fetchDiff p ts => exact .keep rfl rfl rfl
  | _ => exact .keep rfl rfl rfl

end

/-! ## The main thread in `mi_lock` -/

/-- A host that waits for a lock does not have it, and one that no longer waits
has it. -/
structure Waits (h : Host) : Prop where
  asleep : ∀ l, h.pc = .lockWait l →
    0 ≤ l ∧ l < lockNum ∧ h.syn.myLocks l = !h.syn.waitFlag
  fetching : ∀ l path, h.pc = .wniWait l path → path ≠ .grasped →
    h.syn.myLocks l = true

theorem Waits.of_run {h : Host} (hpc : h.pc = .run) : Waits h :=
  ⟨fun l hl => (by rw [hpc] at hl; cases hl), fun l path hl => (by rw [hpc] at hl; cases hl)⟩

theorem Waits.of_barrierWait {h : Host} (hpc : h.pc = .barrierWait) : Waits h :=
  ⟨fun l hl => (by rw [hpc] at hl; cases hl), fun l path hl => (by rw [hpc] at hl; cases hl)⟩

section

variable {n me : Nat} {h : Host} {r : Host × Out}

theorem Waits.lock {l : Int} (hc : LockCase n me l h r) (hpc : h.pc = .run) :
    Waits r.1 := by
  cases hc with
  | refused => exact .of_run hpc
  | reject => exact .of_run hpc
  | ask hl hl' hmy =>
      refine ⟨fun l' he => ?_, fun l' path he => nomatch he⟩
      cases he
      exact ⟨hl, hl', hmy⟩
  | queue syn hmy he =>
      obtain ⟨hl, hl', -⟩ := graspLock_valid he (by omega) (by omega)
      refine ⟨fun l' he' => ?_, fun l' path he => nomatch he⟩
      cases he'
      refine ⟨hl, hl', ?_⟩
      rw [← (Syn.OnlyLock.ofGrasp he).myLocks] at hmy
      exact hmy
  | fetch =>
      refine ⟨fun l' he => (nomatch he), fun l' path he hp => ?_⟩
      cases he
      exact absurd rfl hp
  | skip => exact .of_run rfl
  | fresh => exact .of_run rfl

theorem lockReturn_pc (l : Int) (path : LockPath) (h : Host) :
    (lockReturn l path h).pc = .run := by
  cases path <;> rfl

theorem Waits.resume {l : Int} (hw : Waits h) (hc : ResumeCase n me l h r)
    (hpc : h.pc = .lockWait l) (hflag : h.syn.waitFlag = false) : Waits r.1 := by
  cases hc with
  | fetch =>
      refine ⟨fun l' he => (nomatch he), fun l' path he _ => ?_⟩
      obtain ⟨-, -, hmy⟩ := hw.asleep l hpc
      cases he
      rw [hflag] at hmy
      exact hmy
  | skip => exact .of_run (lockReturn_pc ..)
  | back => exact .of_run rfl
  | fresh => exact .of_run rfl

theorem Waits.exec {op : Op} (hw : Waits h) (he : h.exec n me op = some r) :
    Waits r.1 := by
  cases exec_cases he with
  | quiet _ _ hq _ _ =>
      rcases hq.pc with hp | ⟨-, hp⟩
      · exact ⟨by rw [hp, hq.syn]; exact hw.asleep, by rw [hp, hq.syn]; exact hw.fetching⟩
      · refine ⟨fun l hl => ?_, fun l path hl => ?_⟩ <;> rw [hl] at hp <;> exact hp.elim
  | lock l hpc => exact .lock (miLock_cases n me l h) hpc
  | unlock l hpc =>
      exact .of_run ((miUnlock_cases n me l h).pc.trans hpc)
  | barrier hpc =>
      unfold miBarrier
      split
      · dsimp only
        rcases checkBarrierFlags_cases n me { h with
            mem := { h.mem with
              barrierTimestamps := upd h.mem.barrierTimestamps 0 fun i =>
                if i.val < n then (h.mem.now me).timestamp i
                else h.mem.barrierTimestamps 0 i }
            syn := { h.syn with barrierFlags := upd h.syn.barrierFlags 0 true } }
          with ⟨he, -⟩ | ⟨-, -, he⟩ <;> rw [he]
        · exact .of_barrierWait rfl
        · exact .of_run hpc
      · exact .of_barrierWait rfl
  | lockWait l hpc hflag => exact hw.resume (miLockResume_cases n me l h) hpc hflag
  | wniWait l path => exact .of_run (lockReturn_pc ..)
  | barrierWait => exact .of_run rfl

theorem Waits.read {h' : Host} (hw : Waits h) (hc : ReadCase h h') : Waits h' := by
  cases hc with
  | keep hp hm hf =>
      exact ⟨by rw [hp, hm, hf]; exact hw.asleep, by rw [hp, hm]; exact hw.fetching⟩
  | wakeLock l hpc hp hm hf =>
      refine ⟨fun l' he => ?_, fun l' path he => (by rw [hp] at he; cases he)⟩
      rw [hp] at he
      cases he
      rw [hm, upd_self, hf]
      exact ⟨(hw.asleep l hpc).1, (hw.asleep l hpc).2.1, rfl⟩
  | wakeBarrier _ hp => exact .of_barrierWait hp

end

/-! ## Between `mi_lock` and `mi_unlock` -/

/-- Which locks each host has got by a `mi_lock` that returned and has not
passed to `mi_unlock` since. -/
abbrev Held : Type := Nat → Int → Bool

def Held.set (held : Held) (x : Nat) (l : Int) (b : Bool) : Held :=
  upd held x (upd (held x) l b)

/-- The lock whose `mi_lock` the main thread is in. -/
def Pc.locking : Pc → Option Int
  | .lockWait l | .wniWait l _ => some l
  | _ => none

/-- A `mi_lock` has returned if the main thread is not in it any more. A call on
a number that is no lock gets nothing. -/
def Held.take (held : Held) (x : Nat) (l : Int) (pc : Pc) : Held :=
  if 0 ≤ l ∧ l < lockNum ∧ pc.locking = none then held.set x l true else held

/-- The history of one step. -/
def noteHeld (held : Held) (s : Sys) : Event → Sys → Held
  | .op x (.lock l), t => held.take x l (t.host x).pc
  | .op x .resume, t =>
      match (s.host x).pc.locking with
      | some l => held.take x l (t.host x).pc
      | none => held
  | .op x (.unlock l), _ => held.set x l false
  | _, _ => held

theorem Held.set_of_ne {held : Held} {x y : Nat} {l l' : Int} {b : Bool}
    (h : y ≠ x ∨ l' ≠ l) : held.set x l b y l' = held y l' := by
  unfold Held.set
  by_cases hy : y = x
  · subst hy
    rw [upd_self]
    exact upd_ne (h.resolve_left fun hn => hn rfl)
  · rw [upd_ne hy]

/-- A lock in the history after a `mi_lock` was in it or is the one taken. -/
theorem Held.take_cases {held : Held} {x y : Nat} {l l' : Int} {pc : Pc}
    (h : held.take x l pc y l' = true) :
    held y l' = true ∨
      (y = x ∧ l' = l ∧ 0 ≤ l ∧ l < lockNum ∧ pc.locking = none) := by
  unfold Held.take at h
  split at h
  · next hc =>
      by_cases hxl : y = x ∧ l' = l
      · exact Or.inr ⟨hxl.1, hxl.2, hc⟩
      · rw [Held.set_of_ne (by omega)] at h
        exact Or.inl h
  · exact Or.inl h

@[simp] theorem Held.set_self (held : Held) (x : Nat) (l : Int) (b : Bool) :
    held.set x l b x l = b := by
  rw [Held.set, upd_self, upd_self]

section

variable {n : Nat} {s : Sys} {a : Nat} {l : Int} {r : Host × Out}

/-- Only `mi_unlock` gives a lock away. -/
theorem exec_keeps {me : Nat} {op : Op} {h : Host} (he : h.exec n me op = some r)
    (hop : ∀ l', op = .unlock l' → l ≠ l') (hmy : h.syn.myLocks l = true) :
    r.1.syn.myLocks l = true := by
  have hset : ∀ {f : Int → Bool} (l' : Int), f l = true → upd f l' true l = true := by
    intro f l' hf
    by_cases hl : l = l'
    · rw [hl, upd_self]
    · rw [upd_ne hl, hf]
  have hreturn : ∀ {h : Host} (l' : Int) (path : LockPath),
      h.syn.myLocks l = true → (lockReturn l' path h).syn.myLocks l = true := by
    intro h l' path hf
    cases path
    · exact hset l' hf
    · exact hf
    · exact hf
  cases exec_cases he with
  | quiet _ _ hq _ _ => rw [hq.syn]; exact hmy
  | lock l' hpc =>
      have hcase := miLock_cases n me l' h
      generalize miLock n me l' h = r at hcase ⊢
      cases hcase with
      | refused => exact hmy
      | ask => exact hmy
      | reject syn result _ _ _ _ he => exact (Syn.OnlyLock.ofGrasp he).myLocks ▸ hmy
      | queue syn _ he => exact (Syn.OnlyLock.ofGrasp he).myLocks ▸ hmy
      | fetch syn last _ he => exact (Syn.OnlyLock.ofGrasp he).myLocks ▸ hmy
      | skip syn last _ he =>
          exact hreturn l' _ ((Syn.OnlyLock.ofGrasp he).myLocks ▸ hmy)
      | fresh syn last _ he =>
          exact hreturn l' _ ((Syn.OnlyLock.ofGrasp he).myLocks ▸ hmy)
  | unlock l' hpc =>
      have hcase := miUnlock_cases n me l' h
      generalize miUnlock n me l' h = r at hcase ⊢
      have hne := hop l' rfl
      cases hcase with
      | refused => exact hmy
      | free syn result _ _ _ _ he =>
          rw [(Syn.OnlyLock.ofFree he).myLocks]
          exact (upd_ne hne).trans hmy
      | tell => exact (upd_ne hne).trans hmy
  | barrier hpc =>
      unfold miBarrier
      split
      · dsimp only
        rcases checkBarrierFlags_cases n me { h with
            mem := { h.mem with
              barrierTimestamps := upd h.mem.barrierTimestamps 0 fun i =>
                if i.val < n then (h.mem.now me).timestamp i
                else h.mem.barrierTimestamps 0 i }
            syn := { h.syn with barrierFlags := upd h.syn.barrierFlags 0 true } }
          with ⟨he, -⟩ | ⟨-, -, he⟩ <;> rw [he] <;> exact hmy
      · exact hmy
  | lockWait l' hpc =>
      have hcase := miLockResume_cases n me l' h
      generalize miLockResume n me l' h = r at hcase ⊢
      cases hcase with
      | fetch => exact hmy
      | skip => exact hreturn l' _ hmy
      | back => exact hmy
      | fresh => exact hmy
  | wniWait l' path hpc => exact hreturn l' path hmy
  | barrierWait => exact hmy

/-- A `mi_lock` that returns at once has the lock. -/
theorem Control.lock_returns (hc : Control n s) (ha : a < n) (hl : 0 ≤ l)
    (hl' : l < lockNum) (hpc : (s.host a).pc = .run)
    (hret : (miLock n a l (s.host a)).1.pc.locking = none) :
    (miLock n a l (s.host a)).1.syn.myLocks l = true := by
  have hcase := miLock_cases n a l (s.host a)
  generalize miLock n a l (s.host a) = r at hcase hret ⊢
  cases hcase with
  | refused ret hr => exact hr.resolve_left (by omega) |>.resolve_left (by omega)
  | reject syn result _ _ hmy hm he hlt hne =>
      rcases (hc.locks l hl hl').no_reject ha hpc hl hl' hm hmy he with h | h
      · exact absurd h hlt
      · exact absurd h hne
  | ask => cases hret
  | queue => cases hret
  | fetch => cases hret
  | skip => exact upd_self ..
  | fresh => exact upd_self ..

/-- A `mi_lock` that waited and returns has the lock. -/
theorem Waits.returns {me : Nat} {h : Host} (hw : Waits h)
    (he : h.resume n me = some r) (hl : h.pc.locking = some l)
    (hret : r.1.pc.locking = none) : r.1.syn.myLocks l = true := by
  cases hpc : h.pc with
  | run | barrierWait | pageWait | diffWait => rw [hpc] at hl; cases hl
  | lockWait l' =>
      rw [hpc] at hl
      cases hl
      simp only [Host.resume, hpc] at he
      split at he
      · cases he
      · next hflag =>
          cases he
          have hmy := (hw.asleep l hpc).2.2
          rw [Bool.not_eq_true] at hflag
          rw [hflag] at hmy
          have he : h.exec n me .resume = some (miLockResume n me l h) := by
            simp [Host.exec, Host.resume, hpc, hflag]
          exact exec_keeps he (fun l' h => by cases h) hmy
  | wniWait l' path =>
      rw [hpc] at hl
      cases hl
      simp only [Host.resume, hpc] at he
      split at he
      · cases he
      · cases he
        cases path with
        | grasped => exact upd_self ..
        | waited => exact hw.fetching l .waited hpc (fun h => by cases h)
        | remote => exact hw.fetching l .remote hpc (fun h => by cases h)

end

/-! ## No host sends itself a message about a lock -/

def Out.NotOwn (a : Nat) (out : Out) : Prop := ∀ x ∈ out, x.2.cls = .lock → x.1 ≠ a

theorem Out.NotOwn.of_cls {a : Nat} {out : Out} (h : ∀ x ∈ out, x.2.cls ≠ .lock) :
    Out.NotOwn a out := fun x hx hc => absurd hc (h x hx)

theorem Out.NotOwn.nil (a : Nat) : Out.NotOwn a [] := fun _ hx => nomatch hx

theorem cls_of_foreign {msg : Msg} (h : ∀ l, Foreign l msg) : msg.cls ≠ .lock := by
  cases msg with
  | acqLock l => simpa [Foreign, reqOf] using h l
  | rlsLock l => simpa [Foreign, reqOf] using h l
  | grantLock l last => simpa [Foreign, isGrant] using h l
  | _ => exact fun h => by cases h

theorem LockFrame.notOwn {h : Host} {r : Host × Out} (hf : ∀ l, LockFrame l h r)
    (a : Nat) : Out.NotOwn a r.2 :=
  .of_cls fun x hx => cls_of_foreign fun l => (hf l).out x hx

theorem grantLock_notOwn (n me : Nat) (l x : Int) (syn : Syn) :
    Out.NotOwn me (grantLock n me l x syn) := by
  intro y hy _
  rcases grantLock_out n me l x syn with ho | ⟨-, h0, -, hne, -, ho⟩ <;> rw [ho] at hy
  · cases hy
  · rw [List.mem_singleton.mp hy]
    dsimp only
    omega

section

variable {n : Nat} {s : Sys} {a b : Nat} {l : Int} {r : Host × Out}

theorem toNat_ne_of_emod (hn : 0 < n) (h : l % n ≠ a) : (l % n).toNat ≠ a := by
  have := Int.emod_nonneg l (b := n) (by omega)
  omega

theorem exec_notOwn {op : Op} {h : Host} (ha : a < n) (he : h.exec n a op = some r) :
    Out.NotOwn a r.2 := by
  cases exec_cases he with
  | quiet _ _ hq _ _ => exact LockFrame.notOwn hq.lockFrame a
  | lock l hpc =>
      have hcase := miLock_cases n a l h
      generalize miLock n a l h = r at hcase ⊢
      cases hcase with
      | refused => exact .nil a
      | reject => exact .nil a
      | queue => exact .nil a
      | skip => exact .nil a
      | fresh => exact .nil a
      | ask _ _ _ hm =>
          intro x hx _
          rw [List.mem_singleton.mp hx]
          exact toNat_ne_of_emod (by omega) hm
      | fetch =>
          refine .of_cls fun x hx => ?_
          rw [List.mem_singleton.mp hx]
          exact nofun
  | unlock l hpc =>
      have hcase := miUnlock_cases n a l h
      generalize miUnlock n a l h = r at hcase ⊢
      cases hcase with
      | refused => exact .nil a
      | free =>
          dsimp only
          split
          · exact grantLock_notOwn _ _ _ _ _
          · exact .nil a
      | tell _ _ _ hm =>
          intro x hx _
          rw [List.mem_singleton.mp hx]
          exact toNat_ne_of_emod (by omega) hm
  | barrier hpc => exact LockFrame.notOwn (fun l => miBarrier_lockFrame l hpc) a
  | lockWait l hpc hw =>
      exact LockFrame.notOwn (fun l' => (miLockResume_cases n a l h).lockFrame l' hpc hw) a
  | wniWait l path hpc => exact .nil a
  | barrierWait => exact .nil a

theorem dispatch_notOwn (msg : Msg) (h : Host) :
    Out.NotOwn b (dispatchMsg n b a msg h).2 := by
  cases msg with
  | acqLock l =>
      dsimp only [dispatchMsg]
      unfold handleAcquireMsg
      split
      · dsimp only
        split
        · exact grantLock_notOwn _ _ _ _ _
        · exact .nil b
      · exact .nil b
  | rlsLock l =>
      dsimp only [dispatchMsg]
      unfold handleReleaseMsg
      split
      · dsimp only
        split
        · split
          · exact .nil b
          · exact grantLock_notOwn _ _ _ _ _
        · exact .nil b
      · exact .nil b
  | grantLock | exitBarrier | grantWnI | grantDiff | grantPage | grantEnterBarrierInfo
  | grantExitBarrierInfo => exact .nil b
  | enterBarrier =>
      dsimp only [dispatchMsg]
      unfold handleEnterBarrierMsg
      dsimp only
      rcases checkBarrierFlags_cases n b { h with
          syn := { h.syn with barrierFlags := upd h.syn.barrierFlags a true } }
        with ⟨he, -⟩ | ⟨-, -, he⟩ <;> rw [he]
      · exact .nil b
      · exact .of_cls fun x hx => cls_of_foreign fun l => (release_lockFrame _ l).2.2 x hx
  | fetchPage p =>
      have hq : Quiet h (dispatchMsg n b a (.fetchPage p) h) :=
        dispatch_quiet n b a h (Or.inl rfl)
      exact LockFrame.notOwn hq.lockFrame b
  | fetchWnI ts =>
      have hq : Quiet h (dispatchMsg n b a (.fetchWnI ts) h) :=
        dispatch_quiet n b a h (Or.inl rfl)
      exact LockFrame.notOwn hq.lockFrame b
  | fetchDiff p ts =>
      have hq : Quiet h (dispatchMsg n b a (.fetchDiff p ts) h) :=
        dispatch_quiet n b a h (Or.inl rfl)
      exact LockFrame.notOwn hq.lockFrame b

/-! ## Every run -/

/-- The invariant of the locks with their history. -/
structure LockHist (n : Nat) (s : Sys) (held : Held) : Prop where
  control : Control n s
  waits : ∀ x, Waits (s.host x)
  own : ∀ x, ∀ msg ∈ s.net x x, msg.cls ≠ .lock
  held : ∀ x l, held x l = true →
    x < n ∧ 0 ≤ l ∧ l < lockNum ∧ (s.host x).syn.myLocks l = true

theorem LockHist.init (n : Nat) : LockHist n initSys fun _ _ => false where
  control := Control.init n
  waits _ := .of_run rfl
  own x msg h := by cases h
  held x l h := by cases h

theorem own_put (hown : ∀ x, ∀ msg ∈ s.net x x, msg.cls ≠ .lock)
    (hr : Out.NotOwn a r.2) : ∀ x, ∀ msg ∈ (s.put a r).net x x, msg.cls ≠ .lock := by
  intro x msg hm
  by_cases hx : x = a
  · subst hx
    rw [put_net_self] at hm
    rcases List.mem_append.mp hm with hm | hm
    · exact hown x msg hm
    · exact fun hc => hr _ (mem_outTo.mp hm) hc rfl
  · rw [put_net_ne hx] at hm
    exact hown x msg hm

theorem waits_put (hw : ∀ x, Waits (s.host x)) (hr : Waits r.1) :
    ∀ x, Waits ((s.put a r).host x) := by
  intro x
  by_cases hx : x = a
  · subst hx
    rw [put_host_self]
    exact hr
  · rw [put_host_ne hx]
    exact hw x

/-- The history after a segment of the main thread of `a`. -/
theorem LockHist.held_exec {held : Held} (h : LockHist n s held) {op : Op} (ha : a < n)
    (he : (s.host a).exec n a op = some r) (x : Nat) (l : Int)
    (hh : noteHeld held s (.op a op) (s.put a r) x l = true) :
    x < n ∧ 0 ≤ l ∧ l < lockNum ∧ ((s.put a r).host x).syn.myLocks l = true := by
  have hold : held x l = true → (∀ l', op = .unlock l' → x ≠ a ∨ l ≠ l') →
      x < n ∧ 0 ≤ l ∧ l < lockNum ∧ ((s.put a r).host x).syn.myLocks l = true := by
    intro hx hop
    obtain ⟨hxn, hl, hl', hmy⟩ := h.held x l hx
    refine ⟨hxn, hl, hl', ?_⟩
    by_cases hxa : x = a
    · subst hxa
      rw [put_host_self]
      exact exec_keeps he (fun l' hl => (hop l' hl).resolve_left fun hn => hn rfl) hmy
    · rw [put_host_ne hxa]
      exact hmy
  cases op with
  | lock l' =>
      rcases Held.take_cases hh with hh | ⟨rfl, rfl, hl, hl', hpc'⟩
      · exact hold hh fun _ hl => by cases hl
      · refine ⟨ha, hl, hl', ?_⟩
        rw [put_host_self] at hpc' ⊢
        cases hpc : (s.host x).pc with
        | run =>
            simp only [Host.exec, hpc] at he
            cases he
            exact h.control.lock_returns ha hl hl' hpc hpc'
        | lockWait | wniWait | barrierWait | pageWait | diffWait =>
            simp only [Host.exec, hpc] at he
            cases he
  | resume =>
      dsimp only [noteHeld] at hh
      cases hlock : (s.host a).pc.locking with
      | none =>
          rw [hlock] at hh
          exact hold hh fun _ hl => by cases hl
      | some l' =>
          rw [hlock] at hh
          rcases Held.take_cases hh with hh | ⟨rfl, rfl, hl, hl', hpc'⟩
          · exact hold hh fun _ hl => by cases hl
          · refine ⟨ha, hl, hl', ?_⟩
            rw [put_host_self] at hpc' ⊢
            exact (h.waits x).returns (by simpa [Host.exec] using he) hlock hpc'
  | unlock l' =>
      by_cases hxl : x = a ∧ l = l'
      · rw [hxl.1, hxl.2] at hh
        simp [noteHeld] at hh
      · rw [noteHeld, Held.set_of_ne (by omega)] at hh
        refine hold hh fun l'' hl => ?_
        cases hl
        omega
  | alloc | load | store | barrier => exact hold hh fun _ hl => by cases hl

theorem LockHist.step {held held' : Held} (h : LockHist n s held) {s' : Sys} {e : Event}
    (hs : Midsm.step n s e = some s') (hh : held' = noteHeld held s e s') :
    LockHist n s' held' := by
  have hcontrol := h.control.step hs
  obtain ⟨a, op, r, rfl, ha, he, rfl⟩ |
    ⟨a, b, msg, rest, rfl, ha, hb, hne, hnet, rfl⟩ := step_cases hs
  · refine ⟨hcontrol, waits_put h.waits ((h.waits a).exec he),
      own_put h.own (exec_notOwn ha he), fun x l hx => ?_⟩
    rw [hh] at hx
    exact h.held_exec ha he x l hx
  · have hread := h.control.read_cases ha hb hne hnet
    refine ⟨hcontrol, waits_put h.waits ((h.waits b).read hread),
      own_put (fun x msg hm => h.own x msg (mem_of_mem_pop hm)) (dispatch_notOwn _ _),
      fun x l hx => ?_⟩
    rw [hh] at hx
    obtain ⟨hxn, hl, hl', hmy⟩ := h.held x l hx
    refine ⟨hxn, hl, hl', ?_⟩
    by_cases hxb : x = b
    · subst hxb
      rw [put_host_self]
      cases hread with
      | keep _ hm => rw [hm]; exact hmy
      | wakeBarrier _ _ hm => rw [hm]; exact hmy
      | wakeLock l' _ _ hm =>
          rw [hm]
          by_cases hl : l = l'
          · rw [hl, upd_self]
          · rw [upd_ne hl]
            exact hmy
    · rw [put_host_ne hxb]
      exact hmy

/-- Blocked in `mi_lock` on the lock itself. -/
def Host.BlockedOn (l : Int) (h : Host) : Prop :=
  h.pc = .lockWait l ∧ h.syn.waitFlag = true

def isAcq (l : Int) : Msg → Bool
  | .acqLock l' => l' = l
  | _ => false

/-- What holds of the locks in a system with this history. -/
structure LockSafe (n : Nat) (s : Sys) (held : Held) : Prop where
  exclusive : ∀ l x y, held x l = true → held y l = true → x = y
  accounted : ∀ l, ∀ x < n, (s.host x).BlockedOn l →
    (s.net x (manager n l)).countP (isAcq l) +
      ((s.host (manager n l)).syn.locks l).queue.count (x : Int) +
      (s.net (manager n l) x).countP (isGrant l) = 1
  grants : ∀ l last a b, b < n → .grantLock l last ∈ s.net a b →
    (s.host b).BlockedOn l

theorem count_acq (l : Int) (q : List Msg) :
    (q.filterMap (reqOf l)).count .acq = q.countP (isAcq l) := by
  induction q with
  | nil => rfl
  | cons msg q ih =>
      cases msg with
      | acqLock l' =>
          by_cases hl : l' = l <;> simp [reqOf, isAcq, hl, ih]
      | rlsLock l' =>
          by_cases hl : l' = l <;> simp [reqOf, isAcq, hl, ih]
      | _ =>
          rw [List.filterMap_cons_none rfl, List.countP_cons_of_neg Bool.false_ne_true]
          exact ih

theorem count_cast (x : Nat) (q : List Nat) :
    (q.map fun y : Nat => (y : Int)).count (x : Int) = q.count x :=
  List.count_map_of_injective q _ Nat.cast_injective x

theorem LockHist.safe {held : Held} (h : LockHist n s held) : LockSafe n s held where
  exclusive l x y hx hy := by
    obtain ⟨hxn, hl, hl', hmx⟩ := h.held x l hx
    obtain ⟨hyn, -, -, hmy⟩ := h.held y l hy
    obtain ⟨t, hr, hi⟩ := h.control.locks l hl hl'
    exact hi.exclusive (by rw [hr.phase x hxn, phase_holding (Or.inl hmx)])
      (by rw [hr.phase y hyn, phase_holding (Or.inl hmy)])
  accounted l x hx hb := by
    obtain ⟨hl, hl', hmy⟩ := (h.waits x).asleep l hb.1
    rw [hb.2] at hmy
    obtain ⟨t, hr, hi⟩ := h.control.locks l hl hl'
    have hw := hi.waits x
    rw [hr.phase x hx, phase_of_lockWait hb.1 hmy hb.2] at hw
    rw [hr.record.queue, count_cast]
    by_cases hm : x = manager n l
    · have hself : (s.net x x).countP (isAcq l) = 0 ∧ (s.net x x).countP (isGrant l) = 0 := by
        constructor <;> rw [List.countP_eq_zero] <;> intro msg hmem hacq <;>
          have hcls := h.own x msg hmem <;> cases msg <;>
          first | exact hcls rfl | cases hacq
      rw [hm, hr.reqs_self, hr.grants_self] at hw
      rw [← hm] at hw ⊢
      rw [hself.1, hself.2]
      simpa [Phase.asked] using hw.symm
    · rw [hr.reqs x hx hm, count_acq, hr.grants x hx hm] at hw
      exact hw.symm
  grants l last a b hb hm := by
    obtain ⟨hl, hl', rfl⟩ := h.control.grants a b l last hm
    have hne : b ≠ manager n l := by
      intro he
      rw [he] at hm
      exact h.own _ _ hm rfl
    obtain ⟨-, hpc, hw⟩ := phase_waiting ((h.control.locks l hl hl').grant_wakes hb hne hm)
    exact ⟨hpc, hw⟩

/-- Every run of any number of hosts keeps the locks safe. -/
theorem lock_protocol_safe (n : Nat) {s : Sys} {held : Held}
    (h : Reach (withGhost (Midsm.step n) noteHeld) anyStep
      (initSys, fun _ _ => false) (s, held)) : LockSafe n s held := by
  have hinv : LockHist n (s, held).1 (s, held).2 :=
    h.invariant (P := fun t => LockHist n t.1 t.2) (LockHist.init n)
      fun ht _ hs => ht.step (withGhost_eq_some.mp hs).1 (withGhost_eq_some.mp hs).2
  exact hinv.safe

/-- Host 1 holds lock 0, which host 0 manages and waits for. -/
theorem lock_protocol_safe_two :
    ∃ s held, LockSafe 2 s held ∧ held 1 0 = true ∧ (s.host 0).pc.waitsFor 0 = true ∧
      (s.host 0).syn.waitFlag = true := by
  obtain ⟨⟨s, held⟩, hrun, hp⟩ := exists_reach_any
    (withGhost (Midsm.step 2) noteHeld) (initSys, fun _ _ => false)
    [.op 1 (.lock 0), .deliver 1 0, .deliver 0 1, .op 1 .resume, .op 0 (.lock 0)]
    (fun t => t.2 1 0 && (t.1.host 0).pc.waitsFor 0 && (t.1.host 0).syn.waitFlag)
    (by decide +kernel)
  rw [Bool.and_eq_true, Bool.and_eq_true] at hp
  exact ⟨s, held, lock_protocol_safe 2 hrun, hp.1.1, hp.1.2, hp.2⟩

end

end Midsm
