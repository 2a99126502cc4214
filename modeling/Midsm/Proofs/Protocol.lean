import Midsm.Proofs.Barrier

/-!
# Locks and barriers, together

The wait flag of a host serves both its locks and the barrier, so neither
invariant is preserved without the other: an `EXIT_BARRIER` must not wake a host
that waits for a lock, and a grant must not wake one that waits at the barrier.
`Control` is their conjunction, and every reachable system satisfies it.

For the locks, every call of `syn.c` is a step of the token protocol, or
several; for the barrier, every call moves one host on by one stage.
-/

namespace Midsm

open Midsm.Lib Midsm.Lib.TokenQueue

def LockInv (n : Nat) (l : Int) (s : Sys) : Prop :=
  ∃ t : State Nat, LockRel n l s t ∧ Inv t

/-- The invariant of the synchronisation part, whatever `P` says of a single lock. -/
structure Governed (n : Nat) (P : Int → Sys → Prop) (s : Sys) : Prop where
  locks : ∀ l, 0 ≤ l → l < lockNum → P l s
  grants : ∀ a b l last, .grantLock l last ∈ s.net a b →
    0 ≤ l ∧ l < lockNum ∧ manager n l = a
  barrier : BarrierInv n s

theorem Governed.init {n : Nat} {P : Int → Sys → Prop} (h : ∀ l, P l initSys) :
    Governed n P initSys where
  locks l _ _ := h l
  grants a b l last h := by cases h
  barrier := BarrierInv.init n

abbrev Control (n : Nat) (s : Sys) : Prop := Governed n (LockInv n) s

theorem LockInv.init (n : Nat) (l : Int) : LockInv n l initSys :=
  ⟨start, LockRel.init n l, Inv.start⟩

theorem Control.init (n : Nat) : Control n initSys := Governed.init (LockInv.init n)

/-- What a step asks of the invariant of a lock: one fact for each thing that can happen to
the lock, and that whoever is woken for it waits for it. -/
structure LockRules (n : Nat) (P : Int → Sys → Prop) : Prop where
  put_frame : ∀ {l : Int} {s : Sys} {a : Nat} {r : Host × Out}, P l s →
    LockFrame l (s.host a) r → P l (s.put a r)
  pop_foreign : ∀ {l : Int} {s : Sys} {a b : Nat} {msg : Msg} {rest : List Msg}, P l s →
    s.net a b = msg :: rest → Foreign l msg → P l (s.pop a b)
  pop_stray : ∀ {l : Int} {s : Sys} {a b : Nat} {msg : Msg} {rest : List Msg}, P l s →
    s.net a b = msg :: rest → b ≠ manager n l → isGrant l msg = false → P l (s.pop a b)
  lock : ∀ {l : Int} {s : Sys} {a : Nat} {r : Host × Out}, P l s → a < n →
    (s.host a).pc = .run → LockCase n a l (s.host a) r → P l (s.put a r)
  unlock : ∀ {l : Int} {s : Sys} {a : Nat} {r : Host × Out}, P l s → a < n →
    (s.host a).pc = .run → UnlockCase n a l (s.host a) r → P l (s.put a r)
  acquire : ∀ {l : Int} {s : Sys} {a : Nat} {rest : List Msg}, P l s → 0 ≤ l →
    l < lockNum → a < n → a ≠ manager n l → s.net a (manager n l) = .acqLock l :: rest →
    P l ((s.pop a (manager n l)).put (manager n l)
      (handleAcquireMsg n (manager n l) a l (s.host (manager n l))))
  release : ∀ {l : Int} {s : Sys} {a : Nat} {rest : List Msg}, P l s → 0 ≤ l →
    l < lockNum → a < n → a ≠ manager n l → s.net a (manager n l) = .rlsLock l :: rest →
    P l ((s.pop a (manager n l)).put (manager n l)
      (handleReleaseMsg n (manager n l) a l (s.host (manager n l))))
  release_wakes : ∀ {l : Int} {s : Sys} {a : Nat} {rest : List Msg}, P l s → a < n →
    a ≠ manager n l → s.net a (manager n l) = .rlsLock l :: rest → 0 ≤ l → l < lockNum →
    (freeLock n (manager n l) l a (s.host (manager n l)).syn).1 = manager n l →
    phaseOf l (s.host (manager n l)) = .waiting
  grant : ∀ {l : Int} {s : Sys} {b : Nat} {last : Int} {rest : List Msg}, P l s → 0 ≤ l →
    l < lockNum → b < n → b ≠ manager n l →
    s.net (manager n l) b = .grantLock l last :: rest →
    P l ((s.pop (manager n l) b).put b (handleGrantMsg l last (s.host b), []))
  grant_wakes : ∀ {l : Int} {s : Sys} {b : Nat} {last : Int}, P l s → b < n →
    b ≠ manager n l → .grantLock l last ∈ s.net (manager n l) b →
    phaseOf l (s.host b) = .waiting

theorem phase_waiting {l : Int} {h : Host} (hp : phaseOf l h = .waiting) :
    h.syn.myLocks l = false ∧ h.pc = .lockWait l ∧ h.syn.waitFlag = true := by
  unfold phaseOf at hp
  split at hp
  · cases hp
  · next hh =>
      split at hp
      · next hw =>
          rw [Bool.and_eq_true] at hw
          rw [Bool.or_eq_true, not_or] at hh
          refine ⟨by simpa using hh.1, ?_, hw.2⟩
          cases hpc : h.pc with
          | lockWait l' =>
              have hw := hw.1
              rw [hpc] at hw
              rw [of_decide_eq_true hw]
          | run | wniWait | barrierWait | pageWait | diffWait =>
              rw [hpc] at hw
              cases hw.1
      · cases hp

theorem phase_holding {l : Int} {h : Host}
    (hh : h.syn.myLocks l = true ∨ h.pc.grasping l = true) :
    phaseOf l h = .holding := by
  rw [phaseOf, if_pos (by simpa using hh)]

theorem phase_idle_of_run {l : Int} {h : Host} (hpc : h.pc = .run)
    (hm : h.syn.myLocks l = false) : phaseOf l h = .idle := by
  simp [phaseOf, hpc, hm, Pc.grasping, Pc.waitsFor]

theorem phase_of_lockWait {l : Int} {h : Host} (hpc : h.pc = .lockWait l)
    (hm : h.syn.myLocks l = false) (hw : h.syn.waitFlag = true) :
    phaseOf l h = .waiting := by
  simp [phaseOf, hpc, hm, hw, Pc.grasping, Pc.waitsFor]

section

variable {n : Nat} {l : Int} {s : Sys} {a b : Nat} {r : Host × Out}

theorem LockInv.put_frame (h : LockInv n l s) (hf : LockFrame l (s.host a) r) :
    LockInv n l (s.put a r) := by
  obtain ⟨t, hr, hi⟩ := h
  refine ⟨t, hr.put_foreign (fun hm => ?_) hf.phase hf.out, hi⟩
  rcases hf.record with he | he <;> rw [he, hm]
  · exact hr.record
  · exact hr.record.reset

/-! ## `mi_lock` and `mi_unlock` on the lock itself -/

/-- The manager takes its own free lock. -/
theorem LockInv.grasped (h : LockInv n l s) (hl : 0 ≤ l) (hl' : l < lockNum)
    (hn : manager n l < n) (hpc : (s.host (manager n l)).pc = .run)
    (hmy : (s.host (manager n l)).syn.myLocks l = false) {last : Int} {syn : Syn}
    (he : graspLock n (manager n l) l (manager n l) (s.host (manager n l)).syn =
      (last, syn)) (hge : -1 ≤ last) (hrec : r.1.syn.locks l = syn.locks l)
    (hph : phaseOf l r.1 = .holding) (hout : ∀ x ∈ r.2, Foreign l x.2) :
    LockInv n l (s.put (manager n l) r) := by
  obtain ⟨t, hr, hi⟩ := h
  have hm : l % n = manager n l := (emod_eq_iff (by omega)).mpr rfl
  have hidle := hr.phase _ hn
  rw [phase_idle_of_run hpc hmy] at hidle
  have hrecord := hr.record
  cases ho : t.owner with
  | none =>
      rw [ho] at hrecord
      rw [graspLock_free hl hl' hn hm hrecord, Prod.mk.injEq] at he
      refine ⟨_, ?_, hi.graspSelf_free hidle hr.reqs_self ho hr.grants_self⟩
      refine hr.put_manager ?_ ?_ ?_ rfl ?_ hr.grants_self (by omega)
      · rw [hrec, ← he.2, setLock_locks_self]
        exact RecordRel.grasp_free hrecord
      · rw [hph]
        exact Function.update_self ..
      · intro x hx
        exact Function.update_of_ne hx ..
      · intro x
        rw [outTo_foreign_grants hout, ite_self, Nat.add_zero]
  | some y =>
      rw [ho] at hrecord
      by_cases hy : y = manager n l
      · subst hy
        rw [graspLock_own hl hl' hn hm hrecord, Prod.mk.injEq] at he
        omega
      · rw [graspLock_busy hl hl' hn hm hrecord hy, Prod.mk.injEq] at he
        omega

/-- On a lock it manages and does not have, the call takes the lock or waits:
were the host the owner, it would have the lock. -/
theorem LockInv.no_reject (h : LockInv n l s) (ha : a < n) (hpc : (s.host a).pc = .run)
    (hl : 0 ≤ l) (hl' : l < lockNum) (hm : l % n = a)
    (hmy : (s.host a).syn.myLocks l = false) {result : Int} {syn : Syn}
    (he : graspLock n a l a (s.host a).syn = (result, syn)) :
    result ≥ -1 ∨ result = -3 := by
  obtain ⟨t, hr, hi⟩ := h
  obtain rfl : manager n l = a := (emod_eq_iff (by omega)).mp hm
  have hidle := hr.phase _ ha
  rw [phase_idle_of_run hpc hmy] at hidle
  have hrecord := hr.record
  cases ho : t.owner with
  | none =>
      rw [ho] at hrecord
      rw [graspLock_free hl hl' ha hm hrecord, Prod.mk.injEq] at he
      exact Or.inl (he.1 ▸ hrecord.last.1)
  | some y =>
      rw [ho] at hrecord
      by_cases hy : y = manager n l
      · have hown := hi.owns y
        rw [ho, ownedBy_self, hy, hidle, hr.reqs_self, hr.grants_self] at hown
        cases hown
      · rw [graspLock_busy hl hl' ha hm hrecord hy, Prod.mk.injEq] at he
        exact Or.inr he.1.symm

theorem LockInv.lock (h : LockInv n l s) (ha : a < n) (hpc : (s.host a).pc = .run)
    (hc : LockCase n a l (s.host a) r) : LockInv n l (s.put a r) := by
  have hself : ∀ {last : Int} {syn : Syn},
      graspLock n a l a (s.host a).syn = (last, syn) → -3 ≤ last → last ≠ -2 →
      0 ≤ l ∧ l < lockNum ∧ a = manager n l := by
    intro last syn he h₁ h₂
    obtain ⟨hl, hl', hm⟩ := graspLock_valid he h₁ h₂
    exact ⟨hl, hl', ((emod_eq_iff (by omega)).mp hm).symm⟩
  cases hc with
  | refused ret => exact h.put_frame ⟨Or.inl rfl, rfl, fun x hx => absurd hx List.not_mem_nil⟩
  | reject syn result hl hl' hmy hm he hlt hne =>
      rcases h.no_reject ha hpc hl hl' hm hmy he with h | h
      · exact absurd h hlt
      · exact absurd h hne
  | ask hl hl' hmy hm =>
      obtain ⟨t, hr, hi⟩ := h
      have hne : a ≠ manager n l := fun he => hm ((emod_eq_iff (by omega)).mpr he.symm)
      have hidle := hr.phase a ha
      rw [phase_idle_of_run hpc hmy] at hidle
      refine ⟨_, ?_, hi.ask hidle⟩
      refine hr.put_client ha hne rfl rfl ?_ ?_ rfl
      · exact congrArg (Function.update t.phase a) (phase_of_lockWait (h := { s.host a with
          syn := { (s.host a).syn with waitFlag := true }, pc := .lockWait l })
          rfl hmy rfl).symm
      · rw [← manager, outTo_cons_self]
        simp [State.setReqs, State.setPhase, reqOf]
  | queue syn hmy he =>
      obtain ⟨hl, hl', rfl⟩ := hself he (by omega) (by omega)
      obtain ⟨t, hr, hi⟩ := h
      have hm : l % n = manager n l := (emod_eq_iff (by omega)).mpr rfl
      have hidle := hr.phase _ ha
      rw [phase_idle_of_run hpc hmy] at hidle
      have hrecord := hr.record
      cases ho : t.owner with
      | none =>
          rw [ho] at hrecord
          rw [graspLock_free hl hl' ha hm hrecord, Prod.mk.injEq] at he
          have := hrecord.last.1
          omega
      | some y =>
          rw [ho] at hrecord
          by_cases hy : y = manager n l
          · subst hy
            rw [graspLock_own hl hl' ha hm hrecord, Prod.mk.injEq] at he
            omega
          · rw [graspLock_busy hl hl' ha hm hrecord hy, Prod.mk.injEq] at he
            refine ⟨_, ?_, hi.graspSelf_busy hidle hr.reqs_self ho hy⟩
            refine hr.put_manager ?_ ?_ ?_ rfl ?_ hr.grants_self (by omega)
            · rw [← he.2, ho]
              dsimp only
              rw [setLock_locks_self]
              exact hrecord.grasp_busy
            · rw [phase_of_lockWait rfl (by rw [← he.2]; exact hmy) rfl]
              exact Function.update_self ..
            · intro x hx
              exact Function.update_of_ne hx ..
            · intro x
              simp
  | fetch syn last hmy he hge =>
      obtain ⟨hl, hl', rfl⟩ := hself he (by omega) (by omega)
      refine h.grasped hl hl' ha hpc hmy he hge rfl (phase_holding (Or.inr ?_)) ?_
      · exact decide_eq_true rfl
      · intro x hx
        rw [List.mem_singleton.mp hx]
        exact foreign_fetchWnI l _
  | skip syn last hmy he hge =>
      obtain ⟨hl, hl', rfl⟩ := hself he (by omega) (by omega)
      exact h.grasped hl hl' ha hpc hmy he hge rfl
        (phase_holding (Or.inl (upd_self ..))) fun x hx => absurd hx List.not_mem_nil
  | fresh syn last hmy he hge =>
      obtain ⟨hl, hl', rfl⟩ := hself he (by omega) (by omega)
      exact h.grasped hl hl' ha hpc hmy he hge rfl
        (phase_holding (Or.inl (upd_self ..))) fun x hx => absurd hx List.not_mem_nil

/-- A holder owns the lock. -/
theorem owner_of_holding {t : State Nat} (hi : Inv t)
    (hp : t.phase a = .holding) : t.owner = some a := by
  have ho := hi.owns a
  rw [hp] at ho
  by_contra hne
  rw [ownedBy_of_ne hne, Phase.held] at ho
  omega

/-- A queued host waits, and is a host. -/
theorem LockRel.queued {t : State Nat} (hr : LockRel n l s t) (hi : Inv t) {y : Nat}
    (hy : y ∈ t.queue) : y < n ∧ t.phase y = .waiting := by
  have hw := hi.waits y
  have hc := List.count_pos_iff.mpr hy
  have hp : t.phase y = .waiting := by
    cases hp : t.phase y <;> simp [hp, Phase.asked] at hw ⊢ <;> omega
  refine ⟨?_, hp⟩
  by_contra hn
  rw [(hr.outside y (by omega)).2.2] at hp
  cases hp

/-- A grant of `grantLock` to a remote host. -/
theorem grantLock_eq {me : Nat} {y : Nat} {syn : Syn} (hl : 0 ≤ l) (hl' : l < lockNum)
    (hm : l % n = me) (hy : y < n) (hne : y ≠ me) :
    grantLock n me l y syn = [(y, .grantLock l (syn.locks l).lasthostid)] := by
  unfold grantLock
  rw [if_neg (by omega), if_neg (by omega), Int.tmod_eq_emod_of_nonneg hl,
    if_neg (by simpa using hm), Int.toNat_natCast]

theorem countP_grant_to (l last : Int) (x y : Nat) :
    (outTo [(y, .grantLock l last)] x).countP (isGrant l) = if x = y then 1 else 0 := by
  by_cases hxy : x = y
  · subst hxy
    rw [outTo_cons_self, if_pos rfl]
    simp [isGrant]
  · rw [outTo_cons_ne (Ne.symm hxy), if_neg hxy]
    rfl

theorem LockInv.unlock (h : LockInv n l s) (ha : a < n) (hpc : (s.host a).pc = .run)
    (hc : UnlockCase n a l (s.host a) r) : LockInv n l (s.put a r) := by
  have hphase : ∀ {h : Host}, h.pc = (s.host a).pc →
      h.syn.myLocks = upd (s.host a).syn.myLocks l false → phaseOf l h = .idle := by
    intro h hp hm
    exact phase_idle_of_run (hp.trans hpc) (by rw [hm]; exact upd_self ..)
  cases hc with
  | refused ret => exact h.put_frame ⟨Or.inl rfl, rfl, fun x hx => nomatch hx⟩
  | free syn result hl hl' hmy hm he =>
      obtain ⟨t, hr, hi⟩ := h
      obtain rfl : manager n l = a := (emod_eq_iff (by omega)).mp hm
      have hold := hr.phase _ ha
      rw [phase_holding (Or.inl hmy)] at hold
      have hown := owner_of_holding hi hold
      have hidle : phaseOf l { (s.host (manager n l)).releasing n (manager n l) l with
          syn := syn, ret := none } = .idle :=
        hphase rfl (Syn.OnlyLock.ofFree he).myLocks
      have hrecord := hr.record
      rw [hown] at hrecord
      have hs := hi.freeSelf hold hr.reqs_self
      refine ⟨_, ?_, hs⟩
      cases hq : t.queue with
      | nil =>
          rw [hq] at hrecord
          rw [freeLock_empty hl hl' ha hm (by exact hrecord), Prod.mk.injEq] at he
          rw [if_neg (by omega), free_last (by exact hown) (by exact hq)]
          refine hr.put_manager ?_ ?_ ?_ rfl ?_ hr.grants_self (by omega)
          · rw [← he.2]
            dsimp only [State.setPhase]
            rw [setLock_locks_self, hq]
            exact hrecord.free_empty ha
          · exact (Function.update_self ..).trans hidle.symm
          · intro x hx
            exact Function.update_of_ne hx ..
          · intro x
            simp [State.setPhase]
      | cons y q =>
          obtain ⟨hy, -⟩ := hr.queued hi (y := y) (by rw [hq]; exact List.mem_cons_self)
          have hne : y ≠ manager n l := fun hym =>
            hi.queued _ hown (by rw [hq, ← hym]; exact List.mem_cons_self)
          rw [hq] at hrecord
          obtain ⟨lock', hf, hlast, hrec'⟩ :=
            freeLock_next hl hl' ha hm (s := ((s.host (manager n l)).releasing n
              (manager n l) l).syn) (by exact hrecord)
          rw [hf, Prod.mk.injEq] at he
          obtain ⟨rfl, rfl⟩ := he
          rw [if_pos (by omega), free_pass (by exact hown) (by exact hq)]
          rw [grantLock_eq hl hl' hm hy hne]
          refine hr.put_manager ?_ ?_ ?_ rfl ?_ ?_ (by omega)
          · dsimp only [State.setPhase]
            rw [setLock_locks_self]
            exact hrec'
          · exact (Function.update_self ..).trans hidle.symm
          · intro x hx
            exact Function.update_of_ne hx ..
          · intro x
            dsimp only [State.setPhase]
            rw [countP_grant_to]
            by_cases hxy : x = y
            · subst hxy
              rw [Function.update_self, if_pos hy, if_pos rfl]
            · rw [Function.update_of_ne hxy, if_neg hxy, ite_self, Nat.add_zero]
          · exact (Function.update_of_ne hne.symm ..).trans hr.grants_self
  | tell hl hl' hmy hm =>
      obtain ⟨t, hr, hi⟩ := h
      have hne : a ≠ manager n l := fun he => hm ((emod_eq_iff (by omega)).mpr he.symm)
      have hold := hr.phase a ha
      rw [phase_holding (Or.inl hmy)] at hold
      refine ⟨_, ?_, hi.giveBack hold⟩
      refine hr.put_client ha hne rfl rfl ?_ ?_ rfl
      · exact congrArg (Function.update t.phase a)
          (hphase (h := { (s.host a).releasing n a l with ret := some 0 }) rfl rfl).symm
      · rw [← manager, outTo_cons_self]
        simp [State.setReqs, State.setPhase, reqOf]

/-! ## The handlers on the lock itself -/

/-- A lock request reaches the manager. -/
theorem LockInv.acquire (h : LockInv n l s) (hl : 0 ≤ l) (hl' : l < lockNum)
    (ha : a < n) (hne : a ≠ manager n l) {rest : List Msg}
    (hnet : s.net a (manager n l) = .acqLock l :: rest) :
    LockInv n l ((s.pop a (manager n l)).put (manager n l)
      (handleAcquireMsg n (manager n l) a l (s.host (manager n l)))) := by
  obtain ⟨t, hr, hi⟩ := h
  have hn : 0 < n := by omega
  have hm : l % n = manager n l := (emod_eq_iff hn).mpr rfl
  obtain ⟨hreq, hr'⟩ := hr.pop_req ha hne hnet (r := .acq) (by simp [reqOf])
  have hi' := hi.takeAcq hreq
  have hrecord := hr'.record
  have hrange : 0 ≤ l ∧ l ≤ lockNum := by omega
  refine ⟨_, ?_, hi'⟩
  cases ho : t.owner with
  | none =>
      rw [grasp_none (by exact ho)]
      have hrec0 : RecordRel n ((s.host (manager n l)).syn.locks l) none t.queue :=
        ho ▸ hrecord
      rw [handleAcquireMsg, if_pos hrange, graspLock_free hl hl' ha hm hrec0]
      dsimp only
      rw [if_pos hrec0.last.1, grantLock_eq hl hl' hm ha hne]
      refine hr'.put_manager ?_ (hr'.phase _ (manager_lt hn l)) (fun _ _ => rfl) rfl
        ?_ ?_ hn
      · rw [setLock_locks_self]
        exact hrec0.grasp_free
      · intro x
        rw [countP_grant_to]
        by_cases hx : x = a
        · subst hx
          rw [if_pos ha, if_pos rfl]
          exact Function.update_self ..
        · rw [if_neg hx, ite_self]
          exact Function.update_of_ne hx ..
      · exact (Function.update_of_ne hne.symm ..).trans hr.grants_self
  | some y =>
      have hya : y ≠ a := fun he => hi.not_owner hreq (he ▸ ho)
      rw [grasp_busy (by exact ho) hya]
      have hrec0 : RecordRel n ((s.host (manager n l)).syn.locks l) (some y) t.queue :=
        ho ▸ hrecord
      rw [handleAcquireMsg, if_pos hrange, graspLock_busy hl hl' ha hm hrec0 hya]
      dsimp only
      rw [if_neg (by omega)]
      refine hr'.put_manager ?_ (hr'.phase _ (manager_lt hn l)) (fun _ _ => rfl) rfl
        (fun x => by simp) hr'.grants_self hn
      rw [setLock_locks_self]
      dsimp only [State.setReqs]
      rw [ho]
      exact hrec0.grasp_busy

/-- A release that passes the lock to the manager finds it waiting. -/
theorem LockInv.release_wakes (h : LockInv n l s) (ha : a < n) (hne : a ≠ manager n l)
    {rest : List Msg} (hnet : s.net a (manager n l) = .rlsLock l :: rest)
    (hl : 0 ≤ l) (hl' : l < lockNum)
    (hf : (freeLock n (manager n l) l a (s.host (manager n l)).syn).1 = manager n l) :
    phaseOf l (s.host (manager n l)) = .waiting := by
  obtain ⟨t, hr, hi⟩ := h
  have hn : 0 < n := by omega
  have hm : l % n = manager n l := (emod_eq_iff hn).mpr rfl
  obtain ⟨hreq, -⟩ := hr.pop_req ha hne hnet (r := .rls) (by simp [reqOf])
  have hown := hi.owner_of_rls hreq
  have hrecord := hr.record
  rw [hown] at hrecord
  cases hq : t.queue with
  | nil =>
      rw [hq] at hrecord
      rw [freeLock_empty hl hl' ha hm hrecord] at hf
      dsimp only at hf
      omega
  | cons y q =>
      rw [hq] at hrecord
      obtain ⟨lock', hf', -⟩ := freeLock_next hl hl' ha hm hrecord
      rw [hf'] at hf
      have hy : y = manager n l := Int.ofNat_inj.mp hf
      obtain ⟨hyn, hp⟩ := hr.queued hi (y := y) (by rw [hq]; exact List.mem_cons_self)
      rw [← hy, ← hr.phase y hyn]
      exact hp

/-- A release reaches the manager. -/
theorem LockInv.release (h : LockInv n l s) (hl : 0 ≤ l) (hl' : l < lockNum)
    (ha : a < n) (hne : a ≠ manager n l) {rest : List Msg}
    (hnet : s.net a (manager n l) = .rlsLock l :: rest) :
    LockInv n l ((s.pop a (manager n l)).put (manager n l)
      (handleReleaseMsg n (manager n l) a l (s.host (manager n l)))) := by
  obtain ⟨t, hr, hi⟩ := h
  have hn : 0 < n := by omega
  have hm : l % n = manager n l := (emod_eq_iff hn).mpr rfl
  have hmn := manager_lt hn l
  obtain ⟨hreq, hr'⟩ := hr.pop_req ha hne hnet (r := .rls) (by simp [reqOf])
  have hown := hi.owner_of_rls hreq
  have hi' := hi.takeRls hreq
  have hrecord := hr.record
  rw [hown] at hrecord
  have hrange : 0 ≤ l ∧ l < lockNum := ⟨hl, hl'⟩
  cases hq : t.queue with
  | nil =>
      rw [hq] at hrecord
      rw [free_last (by exact hown) (by exact hq)] at hi'
      refine ⟨_, ?_, hi'⟩
      rw [handleReleaseMsg, if_pos hrange, freeLock_empty hl hl' ha hm hrecord]
      dsimp only
      rw [if_neg (by omega)]
      refine hr'.put_manager ?_ (hr'.phase _ hmn) (fun _ _ => rfl) rfl
        (fun x => by simp) hr'.grants_self hn
      rw [setLock_locks_self]
      dsimp only [State.setReqs]
      rw [hq]
      exact hrecord.free_empty ha
  | cons y q =>
      rw [hq] at hrecord
      obtain ⟨lock', hf, -, hrec'⟩ := freeLock_next hl hl' ha hm hrecord
      obtain ⟨hyn, hyp⟩ := hr.queued hi (y := y) (by rw [hq]; exact List.mem_cons_self)
      by_cases hym : y = manager n l
      · subst hym
        have hi'' := hi.freeTo hreq hq hr.grants_self
        refine ⟨_, ?_, hi''⟩
        rw [handleReleaseMsg, if_pos hrange, hf]
        dsimp only
        rw [if_pos (by omega), if_pos rfl]
        refine hr'.put_manager ?_ ?_ ?_ rfl (fun x => by simp [State.setReqs])
          hr'.grants_self hn
        · dsimp only
          rw [setLock_locks_self]
          exact hrec'
        · rw [phase_holding (Or.inl (upd_self ..))]
          exact Function.update_self ..
        · intro x hx
          exact Function.update_of_ne hx ..
      · rw [free_pass (by exact hown) (by exact hq)] at hi'
        refine ⟨_, ?_, hi'⟩
        rw [handleReleaseMsg, if_pos hrange, hf]
        dsimp only
        rw [if_pos (by omega), if_neg (by omega), grantLock_eq hl hl' hm hyn hym]
        refine hr'.put_manager ?_ (hr'.phase _ hmn) (fun _ _ => rfl) rfl ?_ ?_ hn
        · rw [setLock_locks_self]
          exact hrec'
        · intro x
          rw [countP_grant_to]
          by_cases hx : x = y
          · subst hx
            rw [if_pos hyn, if_pos rfl]
            exact Function.update_self ..
          · rw [if_neg hx, ite_self]
            exact Function.update_of_ne hx ..
        · exact (Function.update_of_ne (Ne.symm hym) ..).trans hr.grants_self

/-- A grant finds its host waiting. -/
theorem LockInv.grant_wakes (h : LockInv n l s) (hb : b < n) (hne : b ≠ manager n l)
    {last : Int} (hmem : .grantLock l last ∈ s.net (manager n l) b) :
    phaseOf l (s.host b) = .waiting := by
  obtain ⟨t, hr, hi⟩ := h
  have hg : 0 < t.grants b := by
    rw [hr.grants b hb hne]
    exact List.countP_pos_iff.mpr ⟨_, hmem, by simp [isGrant]⟩
  rw [← hr.phase b hb]
  exact hi.waiting_of_grant hg

/-- A grant reaches its host. -/
theorem LockInv.grant (h : LockInv n l s) (hl : 0 ≤ l) (hl' : l < lockNum)
    (hb : b < n) (hne : b ≠ manager n l) {last : Int} {rest : List Msg}
    (hnet : s.net (manager n l) b = .grantLock l last :: rest) :
    LockInv n l ((s.pop (manager n l) b).put b
      (handleGrantMsg l last (s.host b), [])) := by
  obtain ⟨t, hr, hi⟩ := h
  obtain ⟨hg, hr'⟩ := hr.pop_grant hb hne hnet (by simp [isGrant])
  refine ⟨_, ?_, hi.takeGrant hg⟩
  have hphase : phaseOf l (handleGrantMsg l last (s.host b)) = .holding := by
    rw [handleGrantMsg, if_pos ⟨hl, hl'⟩]
    exact phase_holding (Or.inl (upd_self ..))
  refine hr'.put_client hb hne rfl rfl ?_ ?_ rfl
  · dsimp only
    rw [hphase]
    rfl
  · simp [State.setPhase, State.setGrants]

theorem LockInv.pop_foreign (h : LockInv n l s) {msg : Msg} {rest : List Msg}
    (hnet : s.net a b = msg :: rest) (hf : Foreign l msg) : LockInv n l (s.pop a b) := by
  obtain ⟨t, hr, hi⟩ := h
  exact ⟨t, hr.pop_foreign hnet hf, hi⟩

/-- A request that does not reach the manager of its lock changes nothing. -/
theorem LockInv.pop_stray (h : LockInv n l s) {msg : Msg} {rest : List Msg}
    (hnet : s.net a b = msg :: rest) (hb : b ≠ manager n l) (hg : isGrant l msg = false) :
    LockInv n l (s.pop a b) := by
  obtain ⟨t, hr, hi⟩ := h
  exact ⟨t, hr.pop_stray hnet hb hg, hi⟩

theorem LockInv.rules (n : Nat) : LockRules n (LockInv n) where
  put_frame h hf := h.put_frame hf
  pop_foreign h hnet hf := h.pop_foreign hnet hf
  pop_stray h hnet hb hg := h.pop_stray hnet hb hg
  lock h ha hpc hc := h.lock ha hpc hc
  unlock h ha hpc hc := h.unlock ha hpc hc
  acquire h hl hl' ha hne hnet := h.acquire hl hl' ha hne hnet
  release h hl hl' ha hne hnet := h.release hl hl' ha hne hnet
  release_wakes h ha hne hnet hl hl' hf := h.release_wakes ha hne hnet hl hl' hf
  grant h hl hl' hb hne hnet := h.grant hl hl' hb hne hnet
  grant_wakes h hb hne hmem := h.grant_wakes hb hne hmem

end

/-! ## Grants -/

/-- The grants among the messages of host `a` are for locks it manages. -/
def GrantOut (n a : Nat) (out : Out) : Prop :=
  ∀ x ∈ out, ∀ l last, x.2 = .grantLock l last →
    0 ≤ l ∧ l < lockNum ∧ manager n l = a

section

variable {n : Nat} {P : Int → Sys → Prop} {l : Int} {s : Sys} {a b : Nat}
  {r : Host × Out}

theorem GrantOut.of_frame (hf : ∀ l, LockFrame l (s.host a) r) : GrantOut n a r.2 := by
  intro x hx l last he
  have hfor := (hf l).out x hx
  rw [he] at hfor
  simp [Foreign, isGrant] at hfor

theorem GrantOut.nil : GrantOut n a [] := fun _ hx => nomatch hx

theorem GrantOut.grantLock (hl : 0 ≤ l) (x : Int) (syn : Syn) :
    GrantOut n a (grantLock n a l x syn) := by
  intro y hy l' last he
  rcases grantLock_out n a l x syn with ho | ⟨hl', hx0, hxn, -, hm, ho⟩ <;> rw [ho] at hy
  · cases hy
  · rw [List.mem_singleton.mp hy] at he
    cases he
    exact ⟨hl, hl', (emod_eq_iff (by omega)).mp hm⟩

theorem LockCase.grantOut (hc : LockCase n a l (s.host a) r) : GrantOut n a r.2 := by
  intro x hx l' last he
  cases hc with
  | refused => cases hx
  | reject => cases hx
  | queue => cases hx
  | skip => cases hx
  | fresh => cases hx
  | ask => rw [List.mem_singleton.mp hx] at he; cases he
  | fetch => rw [List.mem_singleton.mp hx] at he; cases he

theorem UnlockCase.grantOut (hc : UnlockCase n a l (s.host a) r) : GrantOut n a r.2 := by
  cases hc with
  | refused => exact .nil
  | free syn result hl =>
      dsimp only
      split
      · exact .grantLock hl result syn
      · exact .nil
  | tell =>
      intro x hx l' last he
      rw [List.mem_singleton.mp hx] at he
      cases he

theorem handleAcquireMsg_grantOut {x : Nat} (h : Host) :
    GrantOut n a (handleAcquireMsg n a x l h).2 := by
  unfold handleAcquireMsg
  split
  · next hl =>
      dsimp only
      split
      · exact .grantLock hl.1 x _
      · exact .nil
  · exact .nil

theorem handleReleaseMsg_grantOut {x : Nat} (h : Host) :
    GrantOut n a (handleReleaseMsg n a x l h).2 := by
  unfold handleReleaseMsg
  split
  · next hl =>
      dsimp only
      split
      · split
        · exact .nil
        · exact .grantLock hl.1 _ _
      · exact .nil
  · exact .nil

theorem Pc.eq_barrierWait {pc : Pc} (h : pc.inBarrier = true) : pc = .barrierWait := by
  cases pc <;> first | rfl | cases h

/-! ## One step -/

/-- What a host does to the invariant: each lock, the stages, its grants. -/
theorem Governed.put (hc : Governed n P s)
    (hl : ∀ l, 0 ≤ l → l < lockNum → P l (s.put a r))
    (hb : BarrierInv n (s.put a r)) (hg : GrantOut n a r.2) :
    Governed n P (s.put a r) := by
  refine ⟨hl, fun x y l last hm => ?_, hb⟩
  by_cases hx : x = a
  · subst hx
    rw [put_net_self] at hm
    rcases List.mem_append.mp hm with hm | hm
    · exact hc.grants x y l last hm
    · exact hg _ (mem_outTo.mp hm) l last rfl
  · rw [put_net_ne hx] at hm
    exact hc.grants x y l last hm

/-- A step of host `a` that is about no lock and not about the barrier. -/
theorem Governed.put_frame (hP : LockRules n P) (hc : Governed n P s) (hf : ∀ l, LockFrame l (s.host a) r)
    (hb : BarrierFrame (s.host a) r) : Governed n P (s.put a r) :=
  hc.put (fun l h₁ h₂ => hP.put_frame (hc.locks l h₁ h₂) (hf l)) (hc.barrier.put_frame hb)
    (.of_frame hf)

theorem Governed.exec (hP : LockRules n P) (hc : Governed n P s) {op : Op} (ha : a < n)
    (he : (s.host a).exec n a op = some r) : Governed n P (s.put a r) := by
  cases exec_cases he with
  | quiet _ _ hq _ _ => exact hc.put_frame hP hq.lockFrame hq.barrierFrame
  | lock l hpc =>
      have hcase := miLock_cases n a l (s.host a)
      refine hc.put (fun l' h₁ h₂ => ?_) (hc.barrier.put_frame (hcase.barrierFrame hpc))
        hcase.grantOut
      by_cases hll : l' = l
      · subst hll
        exact hP.lock (hc.locks l' h₁ h₂) ha hpc hcase
      · exact hP.put_frame (hc.locks l' h₁ h₂) (hcase.lockFrame hpc hll)
  | unlock l hpc =>
      have hcase := miUnlock_cases n a l (s.host a)
      refine hc.put (fun l' h₁ h₂ => ?_) (hc.barrier.put_frame (hcase.barrierFrame hpc))
        hcase.grantOut
      by_cases hll : l' = l
      · subst hll
        exact hP.unlock (hc.locks l' h₁ h₂) ha hpc hcase
      · exact hP.put_frame (hc.locks l' h₁ h₂) (hcase.lockFrame hpc hll)
  | barrier hpc =>
      have hf : ∀ l, LockFrame l (s.host a) (miBarrier n a (s.host a)) :=
        fun l => miBarrier_lockFrame l hpc
      refine hc.put (fun l h₁ h₂ => hP.put_frame (hc.locks l h₁ h₂) (hf l)) ?_ (.of_frame hf)
      by_cases h0 : a = 0
      · subst h0
        exact hc.barrier.enter_manager ha hpc
      · exact hc.barrier.enter_client (by omega) ha hpc
  | lockWait l hpc hw =>
      have hcase := miLockResume_cases n a l (s.host a)
      exact hc.put_frame hP (fun l' => hcase.lockFrame l' hpc hw) (hcase.barrierFrame hpc)
  | wniWait l path hpc =>
      exact hc.put_frame hP (fun l' => lockReturn_lockFrame l' hpc)
        (lockReturn_barrierFrame hpc)
  | barrierWait hpc hw =>
      have hf : ∀ l, LockFrame l (s.host a)
          ({ s.host a with pc := .run, ret := none }, []) := fun l =>
        ⟨Or.inl rfl, phaseOf_away rfl (Pc.away_run l) (hpc ▸ Pc.away_barrierWait l),
          fun x hx => nomatch hx⟩
      exact hc.put (fun l h₁ h₂ => hP.put_frame (hc.locks l h₁ h₂) (hf l))
        (hc.barrier.leave ha hpc hw) (.of_frame hf)

/-- A message of no lock leaves its channel. -/
theorem Governed.pop_lock (hP : LockRules n P) (hc : Governed n P s) {msg : Msg} {rest : List Msg}
    (hnet : s.net a b = msg :: rest) (hmsg : msg.cls ≠ .lock) :
    ∀ l, 0 ≤ l → l < lockNum → P l (s.pop a b) := by
  intro l h₁ h₂
  exact hP.pop_foreign (hc.locks l h₁ h₂) hnet (foreign_of_cls hmsg)

/-- A host whose messages are no stray grants. -/
theorem Governed.read_grants (hc : Governed n P s) (hg : GrantOut n b r.2) (x y : Nat)
    (l last : Int) (hm : .grantLock l last ∈ ((s.pop a b).put b r).net x y) :
    0 ≤ l ∧ l < lockNum ∧ manager n l = x := by
  by_cases hx : x = b
  · subst hx
    rw [put_net_self] at hm
    rcases List.mem_append.mp hm with hm | hm
    · exact hc.grants x y l last (mem_of_mem_pop hm)
    · exact hg _ (mem_outTo.mp hm) l last rfl
  · rw [put_net_ne hx] at hm
    exact hc.grants x y l last (mem_of_mem_pop hm)

/-- A host reads a message of the locks: the lock the message names by a lemma
of its own, the others by the frame. -/
theorem Governed.read_lock (hP : LockRules n P) (hc : Governed n P s) {msg : Msg} {rest : List Msg}
    (hnet : s.net a b = msg :: rest) (hmsg : msg.cls = .lock) (l : Int)
    (hforeign : ∀ l' ≠ l, Foreign l' msg)
    (hframe : (∀ l' ≠ l, LockFrame l' (s.host b) r) ∧ BarrierFrame (s.host b) r)
    (hl : 0 ≤ l → l < lockNum → P l ((s.pop a b).put b r))
    (hg : GrantOut n b r.2) : Governed n P ((s.pop a b).put b r) := by
  have hb : BarrierInv n (s.pop a b) := hc.barrier.pop_other hnet (by rw [hmsg]; exact nofun)
  refine ⟨fun l' h₁ h₂ => ?_, hc.read_grants hg, hb.put_frame hframe.2⟩
  by_cases hll : l' = l
  · subst hll
    exact hl h₁ h₂
  · have hpop := hP.pop_foreign (hc.locks l' h₁ h₂) hnet (hforeign l' hll)
    exact hP.put_frame hpop (hframe.1 l' hll)

/-- A host reads a message of no lock. -/
theorem Governed.read_other (hP : LockRules n P) (hc : Governed n P s) {msg : Msg} {rest : List Msg}
    (hnet : s.net a b = msg :: rest) (hmsg : msg.cls ≠ .lock)
    (hframe : ∀ l, LockFrame l (s.host b) r)
    (hb : BarrierInv n ((s.pop a b).put b r)) : Governed n P ((s.pop a b).put b r) :=
  ⟨fun l h₁ h₂ => hP.put_frame (hc.pop_lock hP hnet hmsg l h₁ h₂) (hframe l),
    hc.read_grants (.of_frame hframe), hb⟩

theorem foreign_acq {l l' : Int} (h : l' ≠ l) : Foreign l' (.acqLock l) :=
  ⟨if_neg (Ne.symm h), rfl⟩

theorem foreign_rls {l l' : Int} (h : l' ≠ l) : Foreign l' (.rlsLock l) :=
  ⟨if_neg (Ne.symm h), rfl⟩

theorem Governed.readAcquire (hP : LockRules n P) (hc : Governed n P s) (ha : a < n) (hb : b < n) (hne : a ≠ b) {l : Int}
    {rest : List Msg} (hnet : s.net a b = .acqLock l :: rest) :
    Governed n P ((s.pop a b).put b (dispatchMsg n b a (.acqLock l) (s.host b))) := by
  have hframe := handleAcquireMsg_frame n b l a (s.host b)
  refine hc.read_lock hP hnet rfl l (fun l' h => foreign_acq h) hframe (fun h₁ h₂ => ?_)
    (handleAcquireMsg_grantOut _)
  by_cases hm : b = manager n l
  · subst hm
    exact hP.acquire (hc.locks l h₁ h₂) h₁ h₂ ha hne hnet
  · refine hP.put_frame (hP.pop_stray (hc.locks l h₁ h₂) hnet hm rfl) ?_
    obtain ⟨ho, hlt⟩ := graspLock_other a (s.host b).syn
      fun he => hm ((emod_eq_iff (by omega)).mp he).symm
    dsimp only [dispatchMsg]
    rw [handleAcquireMsg, if_pos (by omega)]
    dsimp only
    rw [ho, if_neg (by omega)]
    exact ⟨Or.inl rfl, rfl, fun x hx => absurd hx List.not_mem_nil⟩

theorem Governed.readRelease (hP : LockRules n P) (hc : Governed n P s) (ha : a < n) (hb : b < n) (hne : a ≠ b) {l : Int}
    {rest : List Msg} (hnet : s.net a b = .rlsLock l :: rest) :
    Governed n P ((s.pop a b).put b (dispatchMsg n b a (.rlsLock l) (s.host b))) := by
  have hm : ∀ {result : Int}, 0 ≤ result → (freeLock n b l a (s.host b).syn).1 = result →
      0 ≤ l ∧ l < lockNum ∧ b = manager n l := by
    intro result hr he
    obtain ⟨h₁, h₂, hm⟩ := freeLock_valid (he ▸ hr)
    exact ⟨h₁, h₂, ((emod_eq_iff (by omega)).mp hm).symm⟩
  have hwakes : (freeLock n b l a (s.host b).syn).1 = b → (s.host b).pc = .lockWait l := by
    intro hwake
    obtain ⟨h₁, h₂, rfl⟩ := hm (by omega) hwake
    exact (phase_waiting (hP.release_wakes (hc.locks l h₁ h₂) ha hne hnet h₁ h₂ hwake)).2.1
  have hframe := handleReleaseMsg_frame hwakes
  refine hc.read_lock hP hnet rfl l (fun l' h => foreign_rls h) hframe (fun h₁ h₂ => ?_)
    (handleReleaseMsg_grantOut _)
  by_cases hm : b = manager n l
  · subst hm
    exact hP.release (hc.locks l h₁ h₂) h₁ h₂ ha hne hnet
  · refine hP.put_frame (hP.pop_stray (hc.locks l h₁ h₂) hnet hm rfl) ?_
    obtain ⟨ho, hlt⟩ := freeLock_other a (s.host b).syn
      fun he => hm ((emod_eq_iff (by omega)).mp he).symm
    dsimp only [dispatchMsg]
    rw [handleReleaseMsg, if_pos ⟨h₁, h₂⟩]
    dsimp only
    rw [ho, if_neg (by omega)]
    exact ⟨Or.inl rfl, rfl, fun x hx => absurd hx List.not_mem_nil⟩

theorem Governed.deliver (hP : LockRules n P) (hc : Governed n P s) (ha : a < n) (hb : b < n) (hne : a ≠ b)
    {msg : Msg} {rest : List Msg} (hnet : s.net a b = msg :: rest) :
    Governed n P ((s.pop a b).put b (dispatchMsg n b a msg (s.host b))) := by
  have hn : 0 < n := by omega
  by_cases hdata : msg.cls = .data
  · have hq := dispatch_quiet n b a (s.host b) (Or.inl hdata)
    exact hc.read_other hP hnet (by rw [hdata]; exact nofun) hq.lockFrame
      ((hc.barrier.pop_other hnet (by rw [hdata]; exact nofun)).put_frame hq.barrierFrame)
  cases msg with
  | acqLock l => exact hc.readAcquire hP ha hb hne hnet
  | rlsLock l => exact hc.readRelease hP ha hb hne hnet
  | grantLock l last =>
      obtain ⟨h₁, h₂, rfl⟩ := hc.grants a b l last (by rw [hnet]; exact List.mem_cons_self)
      have hmem : Msg.grantLock l last ∈ s.net (manager n l) b := by
        rw [hnet]
        exact List.mem_cons_self
      have hpc := (phase_waiting (hP.grant_wakes (hc.locks l h₁ h₂) hb hne.symm hmem)).2.1
      exact hc.read_lock hP hnet rfl l
        (fun l' h => ⟨rfl, decide_eq_false (Ne.symm h)⟩) (handleGrantMsg_frame hpc)
        (fun h₁ h₂ => hP.grant (hc.locks l h₁ h₂) h₁ h₂ hb hne.symm hnet) .nil
  | enterBarrier =>
      obtain ⟨ha0, rfl⟩ := hc.barrier.upward hnet rfl hb hne rfl nofun
      refine hc.read_other hP hnet (by exact nofun) (fun l => ?_) (hc.barrier.enter ha0 ha hnet)
      refine handleEnterBarrierMsg_lockFrame l fun _ hall => Pc.eq_barrierWait ?_
      exact hc.barrier.manager_waits
        ((upd_ne (show 0 ≠ a by omega)).symm.trans (hall 0 hn))
  | exitBarrier =>
      obtain ⟨rfl, hb0⟩ := hc.barrier.downward hnet rfl ha hne rfl nofun
      obtain ⟨hin, -⟩ := (hc.barrier.client b hb0 hb).down_head hnet rfl
      exact hc.read_other hP hnet (by exact nofun)
        (fun l => handleExitBarrierMsg_lockFrame l (Pc.eq_barrierWait hin))
        (hc.barrier.exit hb0 hb hnet)
  | grantEnterBarrierInfo ts k ps =>
      have hq := dispatch_quiet n b a (s.host b)
        (Or.inr (Or.inl ⟨ts, k, ps, rfl⟩))
      obtain ⟨ha0, rfl⟩ := hc.barrier.upward hnet rfl hb hne rfl nofun
      exact hc.read_other hP hnet (by exact nofun) hq.lockFrame
        ((hc.barrier.pop_enterInfo ha0 ha hnet rfl).put_frame hq.barrierFrame)
  | grantExitBarrierInfo ts k ps =>
      have hq := dispatch_quiet n b a (s.host b)
        (Or.inr (Or.inr ⟨ts, k, ps, rfl⟩))
      obtain ⟨rfl, hb0⟩ := hc.barrier.downward hnet rfl ha hne rfl nofun
      exact hc.read_other hP hnet (by exact nofun) hq.lockFrame
        ((hc.barrier.pop_exitInfo hb0 hb hnet rfl).put_frame hq.barrierFrame)
  | _ => exact absurd rfl hdata

theorem Control.step (hc : Control n s) {s' : Sys} {e : Event}
    (hs : step n s e = some s') : Control n s' := by
  obtain ⟨a, op, r, -, ha, he, rfl⟩ | ⟨a, b, msg, rest, -, ha, hb, hne, hnet, rfl⟩ :=
    step_cases hs
  · exact hc.exec (LockInv.rules n) ha he
  · exact hc.deliver (LockInv.rules n) ha hb hne hnet

/-- Every reachable system. -/
theorem control_of_reach {ok : Sys → Event → Prop}
    (h : Reach (Midsm.step n) ok initSys s) : Control n s :=
  h.invariant (Control.init n) fun hc _ hs => hc.step hs

end

end Midsm
