import Midsm.Proofs.Sections

/-!
# The token changes hands

The steps of `mi_lock` and `mi_unlock` and the handlers of the lock's messages, as steps
of `Scene`. Whoever returns from `mi_lock` ticks, either alone, when it was inside last
or nobody ever was, or with what the host that was inside last has told it. So past
`mi_lock` a host knows everything.
-/

namespace Midsm

open Midsm.Lib Midsm.Lib.TokenQueue

/-! ## The record at the manager -/

section

variable {n me : Nat} {l x result : Int} {s syn : Syn}

theorem graspLock_granted (he : graspLock n me l x s = (result, syn)) (hge : -1 ≤ result) :
    (s.locks l).locked = false ∧ result = (s.locks l).lasthostid ∧
      syn = s.setLock l { s.locks l with locked := true, owner := x } := by
  unfold graspLock at he
  dsimp only at he
  split at he
  · obtain ⟨rfl, rfl⟩ := Prod.mk.inj he
    omega
  split at he
  · obtain ⟨rfl, rfl⟩ := Prod.mk.inj he
    omega
  split at he
  · next hf =>
      obtain ⟨rfl, rfl⟩ := Prod.mk.inj he
      exact ⟨hf, rfl, rfl⟩
  split at he <;>
  · obtain ⟨rfl, rfl⟩ := Prod.mk.inj he
    omega

/-- A request that is refused or queued. -/
theorem graspLock_refused (he : graspLock n me l x s = (result, syn)) (hlt : result < -1)
    (hlast : -1 ≤ (s.locks l).lasthostid) : syn.locks l = s.locks l ∨
      (s.locks l).locked = true ∧ (syn.locks l).locked = true := by
  unfold graspLock at he
  dsimp only at he
  split at he
  · obtain ⟨rfl, rfl⟩ := Prod.mk.inj he
    exact Or.inl rfl
  split at he
  · obtain ⟨rfl, rfl⟩ := Prod.mk.inj he
    exact Or.inl rfl
  split at he
  · obtain ⟨rfl, rfl⟩ := Prod.mk.inj he
    omega
  · next hf =>
      have hlocked : (s.locks l).locked = true := by simpa using hf
      split at he
      · obtain ⟨rfl, rfl⟩ := Prod.mk.inj he
        exact Or.inl rfl
      · obtain ⟨rfl, rfl⟩ := Prod.mk.inj he
        rw [setLock_locks_self]
        exact Or.inr ⟨hlocked, hlocked⟩

end

/-- How the manager takes the lock back from `a`. -/
inductive Frees (n a : Nat) (l : Int) (s : Sys) (syn : Syn) : Int × Syn → Prop
  | last : Frees n a l s syn (-5, syn.setLock l { syn.locks l with
      locked := false, owner := -1, lasthostid := a })
  | next (w : Nat) (lock : Lock) : w < n → phaseOf l (s.host w) = .waiting →
      lock.lasthostid = a → lock.locked = true →
      Frees n a l s syn ((w : Int), syn.setLock l lock)

section

variable {n p : Nat} {l : Int} {y : Story} {holder walker : Option Nat} {fl : Flight} {s s' : Sys}
  {a b x : Nat} {msg : Msg} {rest : List Msg} {r : Host × Out} {path : LockPath}

theorem LockInv.last_ge (h : LockInv n l s) :
    -1 ≤ ((s.host (manager n l)).syn.locks l).lasthostid := by
  obtain ⟨t, hr, -⟩ := h
  exact hr.record.last.1

theorem LockInv.frees (h : LockInv n l s) (hl : 0 ≤ l) (hl' : l < lockNum) (ha : a < n)
    (hown : ∀ t, LockRel n l s t → Inv t → t.owner = some a) {syn : Syn}
    (hsyn : syn.locks l = (s.host (manager n l)).syn.locks l) :
    Frees n a l s syn (freeLock n (manager n l) l a syn) := by
  obtain ⟨t, hr, hi⟩ := h
  have hm : l % n = manager n l := (emod_eq_iff (by omega)).mpr rfl
  have hrecord := hr.record
  rw [hown t hr hi, ← hsyn] at hrecord
  cases hq : t.queue with
  | nil =>
      rw [hq] at hrecord
      rw [freeLock_empty hl hl' ha hm hrecord]
      exact .last
  | cons w q =>
      obtain ⟨hw, hp⟩ := hr.queued hi (y := w) (by rw [hq]; exact List.mem_cons_self)
      rw [hq] at hrecord
      obtain ⟨lock, hf, hlast, hrec⟩ := freeLock_next hl hl' ha hm hrecord
      rw [hf]
      exact .next w lock hw (by rw [← hr.phase w hw]; exact hp) hlast (hrec.busy w rfl).1

/-! ## The host that was inside last -/

theorem Story.last_who (h : y.last ≠ -1) :
    0 < y.time.len ∧ y.last = y.time.who y.time.len := by
  unfold Story.last at h ⊢
  split at h
  · exact absurd rfl h
  · next h0 =>
      rw [if_neg h0]
      exact ⟨Nat.pos_of_ne_zero h0, rfl⟩

theorem Story.last_of_pos (h : 0 < y.time.len) : y.last = y.time.who y.time.len :=
  if_neg (Nat.ne_of_gt h)

/-- Nobody was ever inside, or this host was last. -/
theorem Scene.knows (hs : Scene n l p y holder walker fl s) (ha : a < n)
    (h : y.last = -1 ∨ y.last = a) : (y.view a).clock = y.time.len := by
  unfold Story.last at h
  split at h
  · next h0 =>
      have := hs.world.clock a ha
      omega
  · next h0 =>
      have hw : y.time.who y.time.len = a := by omega
      rw [← hw]
      exact hs.world.last (Nat.pos_of_ne_zero h0)

def Story.tick (a : Nat) (y : Story) : Story :=
  { y with time := y.time.tick a, view := upd y.view a ((y.view a).tick y.time) }

theorem Story.tick_last (a : Nat) (y : Story) : (y.tick a).last = a := by
  rw [Story.last_of_pos (Nat.succ_pos y.time.len)]
  exact congrArg Nat.cast (Timeline.tick_who a y.time)

/-! ## Into a section -/

theorem Stage.of_unlocked {host : Nat → Host} (hs : Stage n l p y host holder walker fl)
    (hf : ((host (manager n l)).syn.locks l).locked = false) :
    holder = none ∧ walker = none ∧ fl = none ∧
      ((host (manager n l)).syn.locks l).lasthostid = y.last := by
  have hno : ((host (manager n l)).syn.locks l).locked ≠ true := by
    rw [hf]
    exact Bool.false_ne_true
  cases hs with
  | free _ hlast => exact ⟨rfl, rfl, rfl, hlast⟩
  | returned _ h | granted _ h | woken _ h => exact absurd h hno
  | asking _ _ h | told _ _ h | informed _ _ h => exact absurd h.locked hno
  | active _ h | pageAsked _ _ h | pageSent _ _ h | pageHere _ h => exact absurd h.locked hno
  | diffAsked _ _ _ _ _ h | diffSent _ _ _ _ _ h | diffHere _ _ _ _ _ h =>
      exact absurd h.locked hno

/-- A host that knows everything enters with an interval of its own. -/
theorem Scene.enter (hs : Scene n l p y holder none none s) (ha : a < n)
    (hknow : (y.view a).clock = y.time.len) (hm : r.1.mem = addNewInterval n a (s.host a).mem)
    (hpc : r.1.pc = .run) (hmine : r.1.syn.myLocks l = true) (hout : r.2 = [])
    (hlocked : ((upd s.host a r.1 (manager n l)).syn.locks l).locked = true)
    (hother : ∀ x ≠ a, holder ≠ some x) :
    Scene n l p (y.tick a) (some a) none none (s.put a r) := by
  refine hs.put_token rfl ?_ (.active a ⟨hlocked, ?_, ?_, Nat.succ_pos _⟩ ?_)
    (hs.transit.silent hout) ?_ (fun _ h => absurd rfl h) fun x hx h => absurd h (hother x hx)
  · rw [hm]
    exact hs.world.addNewInterval ha hknow
  · rw [upd_self]
    exact hmine
  · show (upd y.view a ((y.view a).tick y.time) a).clock = y.time.len + 1
    rw [upd_self]
    rfl
  · rw [upd_self]
    exact hpc
  · intro x hx
    obtain rfl := Option.some.inj hx
    exact ha

/-- A host asks the one that was inside last. -/
theorem Scene.ask (hs : Scene n l p y holder none none s) (ha : a < n) (hne : y.last ≠ -1)
    (hna : y.last ≠ a) {h : Host} (hm : h.mem = (s.host a).mem)
    (hmine : path ≠ .grasped → h.syn.myLocks l = true)
    (hlocked : ((upd s.host a h (manager n l)).syn.locks l).locked = true)
    (hother : ∀ x ≠ a, holder ≠ some x) :
    ∃ fl, Scene n l p y (some a) none fl (s.put a (h.fetching a l path y.last)) := by
  obtain ⟨hpos, hlast⟩ := Story.last_who hne
  have hto : y.last.toNat = y.time.who y.time.len := by
    rw [hlast]
    exact Int.toNat_natCast _
  have hnow := (hs.world.shows a ha).ledger.now
  refine ⟨_, hs.put_token rfl ?_ (.asking a path ⟨?_, ?_, ?_, hpos⟩ ?_ (fun he => hna ?_))
    (hs.transit.send (b := y.time.who y.time.len) ?_ rfl) ?_ (fun _ h => absurd rfl h)
    fun x hx h => absurd h (hother x hx)⟩
  · have hm' : (h.fetching a l path y.last).1.mem =
        { (s.host a).mem with fetchWNIWaitFlag := true } := by
      rw [← hm]
      rfl
    rw [hm']
    exact hs.world.of_eq ha rfl rfl rfl rfl
  · by_cases hma : manager n l = a
    · rw [hma, upd_self] at hlocked ⊢
      exact hlocked
    · rw [upd_ne hma] at hlocked ⊢
      exact hlocked
  · rw [upd_self]
    rfl
  · rw [upd_self]
    exact hmine
  · rw [upd_self]
    rfl
  · rw [hlast, he]
  · show [(y.last.toNat, Msg.fetchWnI (h.mem.now a).timestamp)] = _
    rw [hto, hm, hnow]
  · intro x hx
    obtain rfl := Option.some.inj hx
    exact ha

/-- The system is at some stage of some story. -/
def Coherent (n : Nat) (l : Int) (p : Nat) (granted : Nat → Bool) (total : Content)
    (s : Sys) : Prop :=
  ∃ y holder walker fl, y.granted = granted ∧ y.total = total ∧
    Scene n l p y holder walker fl s

theorem Scene.coherent (hs : Scene n l p y holder walker fl s) :
    Coherent n l p y.granted y.total s := ⟨y, holder, walker, fl, rfl, rfl, hs⟩

/-- `mi_lock` outside of a section. -/
theorem Scene.lock (hs : Scene n l p y holder walker fl s) (hc : LockInv n l s) (ha : a < n)
    (hl : 0 ≤ l) (hl' : l < lockNum) (hoff : holder ≠ some a) (hpc : (s.host a).pc = .run) :
    Coherent n l p y.granted y.total (s.put a (miLock n a l (s.host a))) := by
  have hout := hs.outside a ha hoff
  have hother : ∀ x ≠ a, (none : Option Nat) ≠ some x := fun _ _ h => by cases h
  have hself : ∀ {last : Int} {syn : Syn}, graspLock n a l a (s.host a).syn = (last, syn) →
      -3 ≤ last → last ≠ -2 → manager n l = a := by
    intro last syn he h₁ h₂
    exact (emod_eq_iff (by omega)).mp (graspLock_valid he h₁ h₂).2.2
  have hfree : ∀ {last : Int} {syn : Syn}, graspLock n a l a (s.host a).syn = (last, syn) →
      -1 ≤ last → holder = none ∧ walker = none ∧ fl = none ∧ last = y.last ∧
        (syn.locks l).locked = true ∧ syn.myLocks = (s.host a).syn.myLocks := by
    intro last syn he hge
    obtain rfl := hself he (by omega) (by omega)
    obtain ⟨hf, hlast, hsyn⟩ := graspLock_granted he hge
    obtain ⟨h₁, h₂, h₃, h₄⟩ := hs.stage.of_unlocked hf
    refine ⟨h₁, h₂, h₃, hlast.trans h₄, ?_, (Syn.OnlyLock.ofGrasp he).myLocks⟩
    rw [hsyn, setLock_locks_self]
  have hcase := miLock_cases n a l (s.host a)
  generalize miLock n a l (s.host a) = r at hcase ⊢
  cases hcase with
  | refused ret =>
      exact (hs.put_silent rfl rfl (Or.inl rfl)
        (fun h => absurd h hoff) fun _ h => ⟨h.pc, h.mine⟩).coherent
  | reject syn result h₁ h₂ hmy hm he hlt hne =>
      rcases hc.no_reject ha hpc hl hl' hm hmy he with h | h
      · exact absurd h hlt
      · exact absurd h hne
  | ask h₁ h₂ hmy hm =>
      refine (hs.put_beside rfl (fun x hx => ?_) (Or.inl rfl) (fun h => absurd h hoff)
        fun _ h => ⟨Or.inr ⟨rfl, rfl⟩, h.mine⟩).coherent
      rw [List.mem_singleton.mp hx]
      exact decide_eq_true rfl
  | queue syn hmy he =>
      obtain rfl := hself he (by omega) (by omega)
      have hrec := graspLock_refused he (by decide) hc.last_ge
      refine (hs.put_silent rfl rfl hrec
        (fun h => absurd h hoff) fun _ h => ⟨Or.inr ⟨rfl, rfl⟩, ?_⟩).coherent
      exact (congrFun (Syn.OnlyLock.ofGrasp he).myLocks l).trans h.mine
  | fetch syn last hmy he hge hne hna hlt hna' =>
      obtain rfl := hself he (by omega) (by omega)
      obtain ⟨rfl, rfl, rfl, rfl, hlocked, -⟩ := hfree he hge
      obtain ⟨fl, h⟩ := hs.ask ha hne hna (h := { s.host (manager n l) with syn := syn }) rfl
        (fun h => absurd rfl h) (by rw [upd_self]; exact hlocked) hother
      exact h.coherent
  | skip syn last hmy he hge hne hna hskip =>
      obtain ⟨-, -, -, rfl, -, -⟩ := hfree he hge
      obtain ⟨hpos, hlast⟩ := Story.last_who hne
      have := hs.world.hosted.who _ hpos le_rfl
      omega
  | fresh syn last hmy he hge hback =>
      obtain rfl := hself he (by omega) (by omega)
      obtain ⟨rfl, rfl, rfl, rfl, hlocked, -⟩ := hfree he hge
      refine (hs.enter ha (hs.knows ha hback) rfl rfl ?_ rfl ?_ hother).coherent
      · exact upd_self ..
      · rw [upd_self]
        exact hlocked

/-- `mi_lock` goes on after its wait for the lock. -/
theorem Scene.lockResume (hs : Scene n l p y (some a) none none s)
    (hlocked : ((s.host (manager n l)).syn.locks l).locked = true)
    (hmine : (s.host a).syn.myLocks l = true) (hlast : (s.host a).syn.lasthostid = y.last)
    (hne : a = manager n l → 0 < y.time.len ∧ y.time.who y.time.len ≠ a) :
    Coherent n l p y.granted y.total (s.put a (miLockResume n a l (s.host a))) := by
  have ha := hs.lt a rfl
  have hother : ∀ x ≠ a, (some a : Option Nat) ≠ some x := fun x hx h =>
    hx (Option.some.inj h).symm
  have hlocked' : ∀ h : Host, h.syn.locks = (s.host a).syn.locks →
      ((upd s.host a h (manager n l)).syn.locks l).locked = true := by
    intro h he
    by_cases hma : manager n l = a
    · rw [hma, upd_self, he, ← hma]
      exact hlocked
    · rw [upd_ne hma]
      exact hlocked
  have hcase := miLockResume_cases n a l (s.host a)
  generalize miLockResume n a l (s.host a) = r at hcase ⊢
  cases hcase with
  | fetch h₁ h₂ h₃ h₄ =>
      rw [hlast] at h₁ h₂
      obtain ⟨fl, h⟩ := hs.ask ha h₁ h₂ (h := s.host a) rfl
        (fun _ => hmine) (hlocked' _ rfl) hother
      rw [hlast]
      exact h.coherent
  | skip h₁ h₂ hskip =>
      rw [hlast] at h₁ h₂ hskip
      obtain ⟨hpos, hw⟩ := Story.last_who h₁
      have := hs.world.hosted.who _ hpos le_rfl
      omega
  | back hback hm =>
      obtain ⟨hpos, hw⟩ := hne ((emod_eq_iff (by omega)).mp hm).symm
      rw [hlast, Story.last_of_pos hpos] at hback
      omega
  | fresh hback hm =>
      rw [hlast] at hback
      exact (hs.enter ha (hs.knows ha hback) rfl rfl hmine rfl (hlocked' _ rfl) hother).coherent

/-! ## The manager -/

/-- A request for the lock is read, by the manager or by a host that ignores it. -/
theorem Scene.acquire (hs : Scene n l p y holder walker fl s) (hc : LockInv n l s) (ha : a < n)
    (hb : b < n) (hne : a ≠ b) (hl : 0 ≤ l) (hl' : l < lockNum)
    (hnet : s.net a b = .acqLock l :: rest) :
    Coherent n l p y.granted y.total
      ((s.pop a b).put b (handleAcquireMsg n b a l (s.host b))) := by
  have hacq : isAcq l (.acqLock l) = true := decide_eq_true rfl
  cases he : graspLock n b l a (s.host b).syn with
  | mk result syn =>
    have ho := Syn.OnlyLock.ofGrasp he
    have hread : handleAcquireMsg n b a l (s.host b) = ({ s.host b with syn := syn },
        if result ≥ -1 then grantLock n b l a syn else []) := by
      rw [handleAcquireMsg, if_pos ⟨hl, by omega⟩, he]
    have hkeep : ∀ h : Host, h.syn = syn → h.pc = (s.host b).pc → (s.host b).Outside l →
        h.Outside l := by
      intro h hsyn hpc hout
      refine ⟨?_, ?_⟩
      · rw [hpc, hsyn, ho.waitFlag]
        exact hout.pc
      · rw [hsyn, ho.myLocks]
        exact hout.mine
    by_cases hge : -1 ≤ result
    · obtain ⟨-, -, hm⟩ := graspLock_valid he (by omega) (by omega)
      obtain rfl := (emod_eq_iff (by omega)).mp hm
      obtain ⟨hf, -, hsyn⟩ := graspLock_granted he hge
      obtain ⟨rfl, rfl, rfl, hlast⟩ := hs.stage.of_unlocked hf
      have hlock : syn.locks l = { (s.host (manager n l)).syn.locks l with
          locked := true, owner := a } := by
        rw [hsyn, setLock_locks_self]
      rw [hread, if_pos hge, grantLock_eq hl hl' hm ha hne, hlock]
      dsimp only
      rw [hlast]
      have hst : Stage n l p y (upd s.host (manager n l)
          { s.host (manager n l) with syn := syn }) none none
          (some (manager n l, a, .grantLock l y.last)) := by
        refine .granted a ?_ ha hne
        rw [upd_self, hlock]
      refine (hs.put_token (pop_host s a (manager n l)) ?_ hst
        ((hs.transit.pop_acq hnet hacq).send rfl rfl) (fun _ h => by cases h)
        (fun _ _ => hkeep _ rfl rfl (hs.outside _ hb (Option.some_ne_none _).symm))
        fun x _ h => h).coherent
      dsimp only
      rw [upd_eta (fun h => (s.host h).mem) (manager n l)]
      exact hs.world
    · rw [hread, if_neg hge]
      refine ((hs.pop_acq hnet hacq).put_silent (a := b) rfl rfl ?_ (fun _ => ?_)
        fun _ => hkeep _ rfl rfl).coherent
      · by_cases hm : b = manager n l
        · subst hm
          exact graspLock_refused he (by omega) hc.last_ge
        · obtain ⟨hother, -⟩ := graspLock_other a (s.host b).syn
            fun hm' => hm ((emod_eq_iff (by omega)).mp hm').symm
          rw [he] at hother
          exact Or.inl (congrArg (Syn.locks · l) hother)
      · exact ⟨rfl, congrFun ho.myLocks l, ho.waitFlag, ho.lasthostid, rfl⟩

/-- The grant reaches its host. -/
theorem Scene.woken (hs : Scene n l p y none none (some (manager n l, b, .grantLock l y.last)) s)
    (hc : LockInv n l s) (hl : 0 ≤ l) (hl' : l < lockNum) (hb : b < n) (hne : b ≠ manager n l)
    (hnet : s.net (manager n l) b = .grantLock l y.last :: rest) :
    Coherent n l p y.granted y.total ((s.pop (manager n l) b).put b
      (handleGrantMsg l y.last (s.host b), [])) := by
  have hlocked : ((s.host (manager n l)).syn.locks l).locked = true := by
    cases hs.stage with
    | granted _ h => exact h
  have hmem : Msg.grantLock l y.last ∈ s.net (manager n l) b := by
    rw [hnet]
    exact List.mem_cons_self
  obtain ⟨-, hpc, -⟩ := phase_waiting (hc.grant_wakes hb hne hmem)
  obtain ⟨-, ht⟩ := hs.transit.take hnet rfl
  rw [handleGrantMsg, if_pos ⟨hl, hl'⟩]
  refine (hs.put_token (pop_host s (manager n l) b) ?_
    (.woken b ?_ ?_ ?_ ?_ ?_ fun h => absurd h hne)
    (ht.silent rfl) ?_ (fun _ h => absurd rfl h)
    fun _ _ h => by cases h).coherent
  · dsimp only
    rw [upd_eta (fun h => (s.host h).mem) b]
    exact hs.world
  · rw [upd_ne (Ne.symm hne)]
    exact hlocked
  · rw [upd_self]
    exact hpc
  · rw [upd_self]
  · rw [upd_self]
    exact upd_self ..
  · rw [upd_self]
  · intro x hx
    obtain rfl := Option.some.inj hx
    exact hb

/-- The lock comes back, and goes to the host that waits longest. -/
theorem Scene.release (hs : Scene n l p y none none (some (a, manager n l, .rlsLock l)) s)
    (hc : LockInv n l s) (hl : 0 ≤ l) (hl' : l < lockNum) (hb : manager n l < n)
    (hnet : s.net a (manager n l) = .rlsLock l :: rest) :
    Coherent n l p y.granted y.total ((s.pop a (manager n l)).put (manager n l)
      (handleReleaseMsg n (manager n l) a l (s.host (manager n l)))) := by
  obtain ⟨ha, hne, hpos, hlast⟩ :
      a < n ∧ a ≠ manager n l ∧ 0 < y.time.len ∧ y.last = a := by
    cases hs.stage with
    | returned _ _ ha hne hpos hwho =>
        exact ⟨ha, hne, hpos, (Story.last_of_pos hpos).trans (congrArg Nat.cast hwho)⟩
  have hm : l % n = manager n l := (emod_eq_iff (by omega)).mpr rfl
  have hout := hs.outside _ hb (Option.some_ne_none _).symm
  obtain ⟨-, ht⟩ := hs.transit.take hnet rfl
  have hfrees : Frees n a l s (s.host (manager n l)).syn
      (freeLock n (manager n l) l a (s.host (manager n l)).syn) :=
    hc.frees hl hl' ha (fun t hr hi =>
      hi.owner_of_rls (hr.pop_req ha hne hnet (r := .rls) (if_pos rfl)).1) rfl
  have hworld : World n p none y.granted y.total y.time y.patch y.view
      (upd (fun h => (s.host h).mem) (manager n l) (s.host (manager n l)).mem) := by
    rw [upd_eta (fun h => (s.host h).mem) (manager n l)]
    exact hs.world
  rw [handleReleaseMsg, if_pos ⟨hl, hl'⟩]
  generalize freeLock n (manager n l) l a (s.host (manager n l)).syn = freed at hfrees ⊢
  cases hfrees with
  | last =>
      dsimp only
      rw [if_neg (by omega)]
      refine (hs.put_token (pop_host ..) hworld (.free ?_ ?_)
        (ht.silent rfl) (fun _ h => by cases h)
        (fun _ _ => ⟨hout.pc, hout.mine⟩) fun x _ h => h).coherent
      · rw [upd_self, setLock_locks_self]
      · rw [upd_self, setLock_locks_self, hlast]
  | next w lock hw hph hlast' hlocked =>
      dsimp only
      rw [if_pos (by omega)]
      by_cases hwm : w = manager n l
      · subst hwm
        obtain ⟨-, hpc, -⟩ := phase_waiting hph
        rw [if_pos rfl]
        refine (hs.put_token (pop_host ..) hworld (.woken (manager n l) ?_ ?_ ?_ ?_ ?_ fun _ => ?_)
          (ht.silent rfl) ?_ (fun _ h => absurd rfl h)
          fun _ _ h => by cases h).coherent
        · rw [upd_self, setLock_locks_self]
          exact hlocked
        · rw [upd_self]
          exact hpc
        · rw [upd_self]
        · rw [upd_self]
          exact upd_self ..
        · rw [upd_self, hlast]
        · refine ⟨hpos, fun he => hne ?_⟩
          rw [Story.last_of_pos hpos] at hlast
          omega
        · intro x hx
          obtain rfl := Option.some.inj hx
          exact hb
      · rw [if_neg (by omega), grantLock_eq hl hl' hm hw hwm, setLock_locks_self, hlast',
          ← hlast]
        refine (hs.put_token (pop_host ..) hworld (.granted w ?_ hw hwm) (ht.send rfl rfl)
          (fun _ h => by cases h) (fun _ _ => ⟨hout.pc, hout.mine⟩) fun x _ h => h).coherent
        rw [upd_self, setLock_locks_self]
        exact hlocked

/-! ## Out of a section -/

/-- `mi_unlock` at the end of a section. -/
theorem Scene.unlock (hs : Scene n l p y (some a) none none s) (hi : Inside n l y s.host a)
    (hpc : (s.host a).pc = .run) (hc : LockInv n l s) (hl : 0 ≤ l) (hl' : l < lockNum) :
    Coherent n l p y.granted y.total (s.put a (miUnlock n a l (s.host a))) := by
  have ha := hs.lt a rfl
  have hworld : World n p none (y.tick a).granted (y.tick a).total (y.tick a).time
      (y.tick a).patch (y.tick a).view
      (upd (fun h => (s.host h).mem) a (addNewInterval n a (s.host a).mem)) :=
    hs.world.addNewInterval ha hi.clock
  have hoff : ∀ (h : Host), h.pc = (s.host a).pc →
      h.syn.myLocks = upd (s.host a).syn.myLocks l false → h.Outside l := by
    intro h hp hmy
    exact ⟨Or.inl (hp.trans hpc), by rw [hmy, upd_self]⟩
  have hother : ∀ x ≠ a, (some a : Option Nat) = some x → (none : Option Nat) = some x :=
    fun x hx h => absurd (Option.some.inj h).symm hx
  have hlast := Story.tick_last a y
  have hcase := miUnlock_cases n a l (s.host a)
  generalize miUnlock n a l (s.host a) = r at hcase ⊢
  cases hcase with
  | refused =>
      exact (hs.put_silent rfl rfl (Or.inl rfl)
        (fun _ => ⟨rfl, rfl, rfl, rfl, rfl⟩) fun h => absurd rfl h).coherent
  | tell _ _ _ hm =>
      have hne : a ≠ manager n l := fun he => hm ((emod_eq_iff (by omega)).mpr he.symm)
      refine Scene.coherent (y := y.tick a) (hs.put_token rfl hworld
        (.returned a ?_ ha hne (Nat.succ_pos _) (Timeline.tick_who a y.time))
        (hs.transit.send rfl rfl) (fun _ h => by cases h) (fun _ _ => hoff _ rfl rfl) hother)
      rw [upd_ne (Ne.symm hne)]
      exact hi.locked
  | free syn result _ _ hmy hm he =>
      obtain rfl := (emod_eq_iff (by omega)).mp hm
      have hfree := (Syn.OnlyLock.ofFree he).myLocks
      have hfrees : Frees n (manager n l) l s
          ((s.host (manager n l)).releasing n (manager n l) l).syn
          (freeLock n (manager n l) l (manager n l)
            ((s.host (manager n l)).releasing n (manager n l) l).syn) :=
        hc.frees hl hl' ha (fun t hr hi => owner_of_holding hi (by
          rw [hr.phase _ ha, phase_holding (Or.inl hmy)])) rfl
      have hf : freeLock n (manager n l) l (manager n l)
          ((s.host (manager n l)).releasing n (manager n l) l).syn = (result, syn) := he
      rw [hf] at hfrees
      cases hfrees with
      | last =>
          rw [if_neg (by omega)]
          refine Scene.coherent (y := y.tick (manager n l)) (hs.put_token rfl hworld (.free ?_ ?_)
            (hs.transit.silent rfl) (fun _ h => by cases h)
            (fun _ _ => hoff _ rfl hfree) hother)
          · rw [upd_self, setLock_locks_self]
          · rw [upd_self, setLock_locks_self, hlast]
      | next w lock hw hph hlast' hlocked =>
          have hwm : w ≠ manager n l := by
            rintro rfl
            have := (phase_waiting hph).1
            rw [hmy] at this
            cases this
          rw [if_pos (by omega), grantLock_eq hl hl' hm hw hwm, setLock_locks_self, hlast',
            ← hlast]
          refine Scene.coherent (y := y.tick (manager n l)) (hs.put_token rfl hworld
            (.granted w ?_ hw hwm) (hs.transit.send rfl rfl) (fun _ h => by cases h)
            (fun _ _ => hoff _ rfl hfree) hother)
          rw [upd_self, setLock_locks_self]
          exact hlocked

end

end Midsm
