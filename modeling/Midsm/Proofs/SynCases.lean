import Midsm.Proofs.LockSim

/-!
# What the calls of `syn.c` can do

`mi_lock`, the rest of it after the wait, and `mi_unlock` each have a handful
of outcomes. They are listed here once, with the conditions under which they
arise and with the memory, the locks, the program counter and the messages they
leave; `Steps` has lifted everything else out of the way. The two frames at the
end say what such a call leaves alone: the other locks, and the barrier.
-/

namespace Midsm

open Midsm.Lib Midsm.Lib.TokenQueue

/-- Two states of `syn.c` that differ in the record of one lock at most. -/
structure Syn.OnlyLock (l : Int) (s s' : Syn) : Prop where
  rest : s' = { s with locks := s'.locks }
  locks : ∀ l' ≠ l, s'.locks l' = s.locks l'

theorem Syn.OnlyLock.refl (l : Int) (s : Syn) : s.OnlyLock l s := ⟨rfl, fun _ _ => rfl⟩

theorem Syn.OnlyLock.setLock (l : Int) (s : Syn) (lock : Lock) :
    s.OnlyLock l (s.setLock l lock) := ⟨rfl, fun _ h => setLock_locks_ne h⟩

section

variable {l : Int} {s s' : Syn}

theorem Syn.OnlyLock.myLocks (h : s.OnlyLock l s') : s'.myLocks = s.myLocks := by
  rw [h.rest]

theorem Syn.OnlyLock.waitFlag (h : s.OnlyLock l s') : s'.waitFlag = s.waitFlag := by
  rw [h.rest]

theorem Syn.OnlyLock.barrierFlags (h : s.OnlyLock l s') :
    s'.barrierFlags = s.barrierFlags := by
  rw [h.rest]

theorem Syn.OnlyLock.lasthostid (h : s.OnlyLock l s') : s'.lasthostid = s.lasthostid := by
  rw [h.rest]

end

theorem graspLock_only (n me : Nat) (l x : Int) (s : Syn) :
    s.OnlyLock l (graspLock n me l x s).2 := by
  unfold graspLock
  dsimp only
  split
  · exact .refl l s
  · split
    · exact .refl l s
    · split
      · exact .setLock l s _
      · split
        · exact .refl l s
        · exact .setLock l s _

theorem freeLock_only (n me : Nat) (l x : Int) (s : Syn) :
    s.OnlyLock l (freeLock n me l x s).2 := by
  unfold freeLock
  dsimp only
  split
  · exact .refl l s
  · split
    · exact .refl l s
    · split
      · exact .refl l s
      · split
        · exact .refl l s
        · split
          · exact .setLock l s _
          · exact .setLock l s _

/-- A call that gets past the checks names a lock this host manages. -/
theorem graspLock_valid {n me : Nat} {l x result : Int} {s syn : Syn}
    (he : graspLock n me l x s = (result, syn)) (hge : -3 ≤ result)
    (hne : result ≠ -2) : 0 ≤ l ∧ l < lockNum ∧ l % n = me := by
  unfold graspLock at he
  dsimp only at he
  split at he
  · cases he
    omega
  · split at he
    · cases he
      exact absurd rfl hne
    · next h₁ h₂ => exact ⟨by omega, by omega, not_not.mp h₂⟩

theorem freeLock_valid {n me : Nat} {l x : Int} {s : Syn}
    (h : 0 ≤ (freeLock n me l x s).1) : 0 ≤ l ∧ l < lockNum ∧ l % n = me := by
  unfold freeLock at h
  dsimp only at h
  split at h
  · omega
  · split at h
    · omega
    · next h₁ h₂ => exact ⟨by omega, by omega, not_not.mp h₂⟩

/-- The remainder of -1 is no host that could grant it. -/
theorem tmod_neg_one_ne {n me : Nat} {x : Int} (h0 : 0 ≤ x) (hx : x < n) (hme : x ≠ me) :
    (-1 : Int).tmod n ≠ me := by
  rw [Int.neg_tmod]
  obtain rfl | hn : n = 1 ∨ 1 < n := by omega
  · rw [Nat.cast_one, Int.tmod_one]
    omega
  · rw [Int.tmod_eq_of_lt (by decide) (by omega)]
    omega

/-- What `grantLock` sends, if anything. -/
theorem grantLock_out (n me : Nat) (l x : Int) (s : Syn) :
    grantLock n me l x s = [] ∨
    (l < lockNum ∧ 0 ≤ x ∧ x < n ∧ x ≠ me ∧ l % n = me ∧
      grantLock n me l x s = [(x.toNat, .grantLock l (s.locks l).lasthostid)]) := by
  unfold grantLock
  split
  · exact Or.inl rfl
  · split
    · exact Or.inl rfl
    · split
      · exact Or.inl rfl
      · next h₁ h₂ h₃ =>
          rw [not_not] at h₃
          have hl : 0 ≤ l := by
            by_contra hneg
            obtain rfl : l = -1 := by omega
            exact tmod_neg_one_ne (by omega) (by omega) h₂ h₃
          rw [Int.tmod_eq_emod_of_nonneg hl] at h₃
          exact Or.inr ⟨by omega, by omega, by omega, h₂, h₃, rfl⟩

/-! ## `mi_lock` -/

/-- The host spins for the notices of `hostid`. -/
def Host.fetching (me : Nat) (l : Int) (path : LockPath) (hostid : Int) (h : Host) :
    Host × Out :=
  ({ h with mem := { h.mem with fetchWNIWaitFlag := true }, pc := .wniWait l path },
    [(hostid.toNat, .fetchWnI (h.mem.now me).timestamp)])

theorem lockFetch_cases (n me : Nat) (l : Int) (path : LockPath) (hostid : Int)
    (h : Host) :
    (hostid.toNat < n ∧ hostid.toNat ≠ me ∧
      lockFetch n me l path hostid h = h.fetching me l path hostid) ∨
    ((n ≤ hostid.toNat ∨ hostid.toNat = me) ∧
      lockFetch n me l path hostid h = (lockReturn l path h, [])) := by
  by_cases hn : n ≤ hostid.toNat
  · refine Or.inr ⟨Or.inl hn, ?_⟩
    rw [lockFetch, fetchWritenoticeAndInterval, if_pos hn]
  · by_cases hme : hostid.toNat = me
    · refine Or.inr ⟨Or.inr hme, ?_⟩
      rw [lockFetch, fetchWritenoticeAndInterval, if_neg hn, if_pos hme]
    · refine Or.inl ⟨by omega, hme, ?_⟩
      rw [lockFetch, fetchWritenoticeAndInterval, if_neg hn, if_neg hme]
      rfl

inductive LockCase (n me : Nat) (l : Int) (h : Host) : Host × Out → Prop
  | refused (ret : Option Int) : l < 0 ∨ lockNum ≤ l ∨ h.syn.myLocks l = true →
      LockCase n me l h ({ h with ret := ret }, [])
  | reject (syn : Syn) (result : Int) : 0 ≤ l → l < lockNum →
      h.syn.myLocks l = false → l % n = me →
      graspLock n me l me h.syn = (result, syn) → ¬ result ≥ -1 → result ≠ -3 →
      LockCase n me l h ({ h with syn := syn, ret := none }, [])
  | ask : 0 ≤ l → l < lockNum → h.syn.myLocks l = false → l % n ≠ me →
      LockCase n me l h ({ h with
        syn := { h.syn with waitFlag := true }, pc := .lockWait l },
        [((l % n).toNat, .acqLock l)])
  | queue (syn : Syn) : h.syn.myLocks l = false →
      graspLock n me l me h.syn = (-3, syn) →
      LockCase n me l h ({ h with
        syn := { syn with waitFlag := true }, pc := .lockWait l }, [])
  | fetch (syn : Syn) (last : Int) : h.syn.myLocks l = false →
      graspLock n me l me h.syn = (last, syn) → -1 ≤ last → last ≠ -1 →
      last ≠ me → last.toNat < n → last.toNat ≠ me →
      LockCase n me l h ({ h with syn := syn }.fetching me l .grasped last)
  | skip (syn : Syn) (last : Int) : h.syn.myLocks l = false →
      graspLock n me l me h.syn = (last, syn) → -1 ≤ last → last ≠ -1 →
      last ≠ me → n ≤ last.toNat ∨ last.toNat = me →
      LockCase n me l h (lockReturn l .grasped { h with syn := syn }, [])
  | fresh (syn : Syn) (last : Int) : h.syn.myLocks l = false →
      graspLock n me l me h.syn = (last, syn) → -1 ≤ last →
      last = -1 ∨ last = me →
      LockCase n me l h (lockReturn l .grasped
        { h with syn := syn, mem := addNewInterval n me h.mem }, [])

theorem miLock_cases (n me : Nat) (l : Int) (h : Host) :
    LockCase n me l h (miLock n me l h) := by
  unfold miLock
  dsimp only
  split
  · next hl => exact .refused _ (by omega)
  · next hl =>
      split
      · next hmy => exact .refused _ (Or.inr (Or.inr hmy))
      · next hmy =>
          have hmy : h.syn.myLocks l = false := by simpa using hmy
          split
          · next hm =>
              cases hg : graspLock n me l me h.syn with
              | mk result syn =>
                dsimp only
                split
                · next hr => exact .queue syn hmy (hr ▸ hg)
                · split
                  · next hge =>
                      split
                      · next hlast =>
                          rcases lockFetch_cases n me l .grasped result
                            { h with syn := syn } with ⟨h₁, h₂, he⟩ | ⟨h₁, he⟩ <;>
                            rw [he]
                          · exact .fetch syn result hmy hg hge hlast.1 hlast.2 h₁ h₂
                          · exact .skip syn result hmy hg hge hlast.1 hlast.2 h₁
                      · next hlast =>
                          exact .fresh syn result hmy hg hge (by omega)
                  · next hne hlt =>
                      exact .reject syn result (by omega) (by omega) hmy hm hg hlt hne
          · next hm => exact .ask (by omega) (by omega) hmy hm

/-! ## The rest of `mi_lock`, and `mi_unlock` -/

/-- How `mi_lock` goes on after its wait. -/
def Syn.resumePath (n me : Nat) (l : Int) : LockPath :=
  if l % n = me then .waited else .remote

inductive ResumeCase (n me : Nat) (l : Int) (h : Host) : Host × Out → Prop
  | fetch : h.syn.lasthostid ≠ -1 → h.syn.lasthostid ≠ me →
      h.syn.lasthostid.toNat < n → h.syn.lasthostid.toNat ≠ me →
      ResumeCase n me l h (h.fetching me l (Syn.resumePath n me l) h.syn.lasthostid)
  | skip : h.syn.lasthostid ≠ -1 → h.syn.lasthostid ≠ me →
      n ≤ h.syn.lasthostid.toNat ∨ h.syn.lasthostid.toNat = me →
      ResumeCase n me l h (lockReturn l (Syn.resumePath n me l) h, [])
  | back : h.syn.lasthostid = -1 ∨ h.syn.lasthostid = me → l % n = me →
      ResumeCase n me l h ({ h with pc := .run, ret := none }, [])
  | fresh : h.syn.lasthostid = -1 ∨ h.syn.lasthostid = me → l % n ≠ me →
      ResumeCase n me l h ({ h with
        mem := addNewInterval n me h.mem, pc := .run, ret := some 0 }, [])

theorem miLockResume_cases (n me : Nat) (l : Int) (h : Host) :
    ResumeCase n me l h (miLockResume n me l h) := by
  have hfetch : ∀ hlast : h.syn.lasthostid ≠ -1 ∧ h.syn.lasthostid ≠ me,
      ResumeCase n me l h
        (lockFetch n me l (Syn.resumePath n me l) h.syn.lasthostid h) := by
    intro hlast
    rcases lockFetch_cases n me l (Syn.resumePath n me l) h.syn.lasthostid h with
      ⟨h₁, h₂, he⟩ | ⟨h₁, he⟩ <;> rw [he]
    · exact .fetch hlast.1 hlast.2 h₁ h₂
    · exact .skip hlast.1 hlast.2 h₁
  unfold miLockResume
  dsimp only
  split
  · next hm =>
      rw [Syn.resumePath, if_pos hm] at hfetch
      split
      · next hlast => exact hfetch hlast
      · exact .back (by omega) hm
  · next hm =>
      rw [Syn.resumePath, if_neg hm] at hfetch
      split
      · next hlast => exact hfetch hlast
      · exact .fresh (by omega) hm

/-- `mi_unlock` once it has looked at `myLocks`. -/
def Host.releasing (n me : Nat) (l : Int) (h : Host) : Host :=
  { h with
    mem := addNewInterval n me h.mem
    syn := { h.syn with myLocks := upd h.syn.myLocks l false } }

inductive UnlockCase (n me : Nat) (l : Int) (h : Host) : Host × Out → Prop
  | refused (ret : Option Int) : UnlockCase n me l h ({ h with ret := ret }, [])
  | free (syn : Syn) (result : Int) : 0 ≤ l → l < lockNum →
      h.syn.myLocks l = true → l % n = me →
      freeLock n me l me (h.releasing n me l).syn = (result, syn) →
      UnlockCase n me l h ({ h.releasing n me l with syn := syn, ret := none },
        if result ≥ 0 ∧ result ≠ me then grantLock n me l result syn else [])
  | tell : 0 ≤ l → l < lockNum → h.syn.myLocks l = true → l % n ≠ me →
      UnlockCase n me l h ({ h.releasing n me l with ret := some 0 },
        [((l % n).toNat, .rlsLock l)])

theorem miUnlock_cases (n me : Nat) (l : Int) (h : Host) :
    UnlockCase n me l h (miUnlock n me l h) := by
  unfold miUnlock
  dsimp only
  split
  · exact .refused _
  · split
    · exact .refused _
    · next hl hmy =>
        have hmy : h.syn.myLocks l = true := by simpa using hmy
        split
        · next hm => exact .free _ _ (by omega) (by omega) hmy hm rfl
        · next hm => exact .tell (by omega) (by omega) hmy hm

/-! ## What such a call leaves alone -/

theorem UnlockCase.pc {n me : Nat} {l : Int} {h : Host} {r : Host × Out}
    (hc : UnlockCase n me l h r) : r.1.pc = h.pc := by
  cases hc <;> rfl

/-- In the wait of `mi_barrier`. -/
def Pc.inBarrier : Pc → Bool
  | .barrierWait => true
  | _ => false

/-- A step of a host that is not about lock `l`. A release of the barrier
forgets the last holder, which the relation does not read. -/
structure LockFrame (l : Int) (h : Host) (r : Host × Out) : Prop where
  record : r.1.syn.locks l = h.syn.locks l ∨
    r.1.syn.locks l = { h.syn.locks l with lasthostid := -1 }
  phase : phaseOf l r.1 = phaseOf l h
  out : ∀ x ∈ r.2, Foreign l x.2

/-- A step of a host that is not about the barrier. -/
structure BarrierFrame (h : Host) (r : Host × Out) : Prop where
  flags : r.1.syn.barrierFlags = h.syn.barrierFlags
  inside : r.1.pc.inBarrier = h.pc.inBarrier
  asleep : h.pc.inBarrier = true → r.1.syn.waitFlag = h.syn.waitFlag
  out : ∀ x ∈ r.2, x.2.cls ≠ .barrier

theorem phaseOf_congr {l : Int} {h h' : Host}
    (hm : h'.syn.myLocks l = h.syn.myLocks l)
    (hg : h'.pc.grasping l = h.pc.grasping l)
    (hw : (h'.pc.waitsFor l && h'.syn.waitFlag) = (h.pc.waitsFor l && h.syn.waitFlag)) :
    phaseOf l h' = phaseOf l h := by
  unfold phaseOf
  rw [hm, hg, hw]

theorem Pc.calm_facts (l : Int) {pc : Pc} (h : pc.Calm) :
    pc.grasping l = false ∧ pc.waitsFor l = false ∧ pc.inBarrier = false := by
  cases pc <;> first | exact ⟨rfl, rfl, rfl⟩ | exact h.elim

section

variable {n me : Nat} {l l' : Int} {h : Host} {r : Host × Out}

theorem Quiet.lockFrame (l : Int) (hq : Quiet h r) : LockFrame l h r := by
  refine ⟨Or.inl (by rw [hq.syn]), ?_, fun x hx =>
    foreign_of_cls (by rw [hq.out x hx]; simp)⟩
  rcases hq.pc with hp | ⟨h₁, h₂⟩
  · exact phaseOf_congr (by rw [hq.syn]) (by rw [hp]) (by rw [hp, hq.syn])
  · obtain ⟨hg₁, hw₁, -⟩ := Pc.calm_facts l h₁
    obtain ⟨hg₂, hw₂, -⟩ := Pc.calm_facts l h₂
    exact phaseOf_congr (by rw [hq.syn]) (by rw [hg₁, hg₂]) (by rw [hw₁, hw₂]; rfl)

theorem Quiet.barrierFrame (hq : Quiet h r) : BarrierFrame h r := by
  refine ⟨by rw [hq.syn], ?_, fun _ => by rw [hq.syn], fun x hx => by
    rw [hq.out x hx]; simp⟩
  rcases hq.pc with hp | ⟨h₁, h₂⟩
  · rw [hp]
  · rw [(Pc.calm_facts 0 h₁).2.2, (Pc.calm_facts 0 h₂).2.2]

theorem foreign_fetchWnI (l : Int) (ts : Timestamp) : Foreign l (.fetchWnI ts) :=
  ⟨rfl, rfl⟩

/-- A host that neither waits for the lock nor is about to take it, before and
after. -/
structure Pc.Away (l : Int) (pc : Pc) : Prop where
  waitsFor : pc.waitsFor l = false
  grasping : pc.grasping l = false

theorem Pc.away_run (l : Int) : Pc.Away l .run := ⟨rfl, rfl⟩

theorem Pc.away_lockWait (h : l ≠ l') : Pc.Away l (.lockWait l') :=
  ⟨decide_eq_false (Ne.symm h), rfl⟩

theorem Pc.away_wniWait (h : l ≠ l') (path : LockPath) :
    Pc.Away l (.wniWait l' path) := by
  refine ⟨rfl, ?_⟩
  cases path
  · exact decide_eq_false (Ne.symm h)
  · rfl
  · rfl

theorem phaseOf_away {h' : Host} (hm : h'.syn.myLocks l = h.syn.myLocks l)
    (ha' : h'.pc.Away l) (ha : h.pc.Away l) : phaseOf l h' = phaseOf l h :=
  phaseOf_congr hm (by rw [ha.grasping, ha'.grasping])
    (by rw [ha.waitsFor, ha'.waitsFor]; rfl)

theorem Syn.OnlyLock.ofGrasp {syn : Syn} {s : Syn} {x result : Int}
    (he : graspLock n me l x s = (result, syn)) : s.OnlyLock l syn := by
  have := graspLock_only n me l x s
  rwa [he] at this

theorem LockCase.lockFrame (hc : LockCase n me l' h r) (hpc : h.pc = .run)
    (hne : l ≠ l') : LockFrame l h r := by
  have hrun : h.pc.Away l := hpc ▸ Pc.away_run l
  cases hc with
  | refused ret => exact ⟨Or.inl rfl, rfl, fun x hx => nomatch hx⟩
  | reject syn result _ _ _ _ he =>
      have ho := Syn.OnlyLock.ofGrasp he
      exact ⟨Or.inl (ho.locks l hne), phaseOf_away (by rw [ho.myLocks]) hrun hrun,
        fun x hx => nomatch hx⟩
  | ask =>
      refine ⟨Or.inl rfl, phaseOf_away rfl (Pc.away_lockWait hne) hrun, fun x hx => ?_⟩
      rw [List.mem_singleton.mp hx]
      simp [Foreign, reqOf, isGrant, Ne.symm hne]
  | queue syn _ he =>
      have ho := Syn.OnlyLock.ofGrasp he
      exact ⟨Or.inl (ho.locks l hne),
        phaseOf_away (by rw [ho.myLocks]) (Pc.away_lockWait hne) hrun,
        fun x hx => nomatch hx⟩
  | fetch syn last _ he =>
      have ho := Syn.OnlyLock.ofGrasp he
      refine ⟨Or.inl (ho.locks l hne), phaseOf_away (by rw [← ho.myLocks]; rfl)
        (Pc.away_wniWait hne _) hrun, fun x hx => ?_⟩
      rw [List.mem_singleton.mp hx]
      exact foreign_fetchWnI l _
  | skip syn last _ he =>
      have ho := Syn.OnlyLock.ofGrasp he
      refine ⟨Or.inl (ho.locks l hne), phaseOf_away ?_ (Pc.away_run l) hrun,
        fun x hx => nomatch hx⟩
      rw [← ho.myLocks]
      exact upd_ne hne
  | fresh syn last _ he =>
      have ho := Syn.OnlyLock.ofGrasp he
      refine ⟨Or.inl (ho.locks l hne), phaseOf_away ?_ (Pc.away_run l) hrun,
        fun x hx => nomatch hx⟩
      rw [← ho.myLocks]
      exact upd_ne hne

/-- Outside the barrier the wait flag does not matter. -/
theorem BarrierFrame.outside (hflags : r.1.syn.barrierFlags = h.syn.barrierFlags)
    (hin : h.pc.inBarrier = false) (hin' : r.1.pc.inBarrier = false)
    (hout : ∀ x ∈ r.2, x.2.cls ≠ .barrier) : BarrierFrame h r :=
  ⟨hflags, hin'.trans hin.symm, fun ht => (by rw [hin] at ht; cases ht), hout⟩

theorem LockCase.barrierFrame (hc : LockCase n me l' h r) (hpc : h.pc = .run) :
    BarrierFrame h r := by
  have hin : h.pc.inBarrier = false := by rw [hpc]; rfl
  cases hc with
  | refused ret => exact .outside rfl hin hin fun x hx => nomatch hx
  | reject syn result _ _ _ _ he =>
      exact .outside (Syn.OnlyLock.ofGrasp he).barrierFlags hin hin fun x hx => nomatch hx
  | ask =>
      refine .outside rfl hin rfl fun x hx => ?_
      rw [List.mem_singleton.mp hx]
      exact nofun
  | queue syn _ he =>
      exact .outside (Syn.OnlyLock.ofGrasp he).barrierFlags hin rfl
        fun x hx => nomatch hx
  | fetch syn last _ he =>
      refine .outside (Syn.OnlyLock.ofGrasp he).barrierFlags hin rfl fun x hx => ?_
      rw [List.mem_singleton.mp hx]
      exact nofun
  | skip syn last _ he =>
      exact .outside (Syn.OnlyLock.ofGrasp he).barrierFlags hin rfl
        fun x hx => nomatch hx
  | fresh syn last _ he =>
      exact .outside (Syn.OnlyLock.ofGrasp he).barrierFlags hin rfl
        fun x hx => nomatch hx

/-- After its wait `mi_lock` has the lock, or `myLocks` says so already; either
way its phase does not change any more. -/
theorem ResumeCase.lockFrame (l : Int) (hc : ResumeCase n me l' h r)
    (hpc : h.pc = .lockWait l') (hw : h.syn.waitFlag = false) : LockFrame l h r := by
  have hphase : ∀ {h' : Host}, h'.syn.myLocks = h.syn.myLocks →
      h'.pc.waitsFor l = false → h'.pc.grasping l = false →
      phaseOf l h' = phaseOf l h := by
    intro h' hm hwf hg
    refine phaseOf_congr (by rw [hm]) (by rw [hg, hpc]; rfl) ?_
    rw [hwf, hw, Bool.and_false]
    rfl
  have hgr : Pc.grasping l (.wniWait l' (Syn.resumePath n me l')) = false := by
    unfold Syn.resumePath
    split <;> rfl
  cases hc with
  | fetch =>
      refine ⟨Or.inl rfl, hphase rfl rfl hgr, fun x hx => ?_⟩
      rw [List.mem_singleton.mp hx]
      exact foreign_fetchWnI l _
  | skip =>
      unfold Syn.resumePath
      split <;> exact ⟨Or.inl rfl, hphase rfl rfl rfl, fun x hx => nomatch hx⟩
  | back => exact ⟨Or.inl rfl, hphase rfl rfl rfl, fun x hx => nomatch hx⟩
  | fresh => exact ⟨Or.inl rfl, hphase rfl rfl rfl, fun x hx => nomatch hx⟩

theorem ResumeCase.barrierFrame (hc : ResumeCase n me l' h r)
    (hpc : h.pc = .lockWait l') : BarrierFrame h r := by
  have hin : h.pc.inBarrier = false := by rw [hpc]; rfl
  cases hc with
  | fetch =>
      refine .outside rfl hin rfl fun x hx => ?_
      rw [List.mem_singleton.mp hx]
      exact nofun
  | skip =>
      unfold Syn.resumePath
      split <;> exact .outside rfl hin rfl fun x hx => nomatch hx
  | back => exact .outside rfl hin rfl fun x hx => nomatch hx
  | fresh => exact .outside rfl hin rfl fun x hx => nomatch hx

theorem lockReturn_lockFrame (l : Int) {path : LockPath}
    (hpc : h.pc = .wniWait l' path) : LockFrame l h (lockReturn l' path h, []) := by
  have hwf : h.pc.waitsFor l = false := by rw [hpc]; rfl
  cases path with
  | grasped =>
      refine ⟨Or.inl rfl, ?_, fun x hx => absurd hx List.not_mem_nil⟩
      by_cases hl : l = l'
      · subst hl
        simp [phaseOf, lockReturn, hpc, Pc.grasping]
      · exact phaseOf_away (upd_ne hl) (Pc.away_run l)
          (hpc ▸ Pc.away_wniWait hl .grasped)
  | waited =>
      exact ⟨Or.inl rfl, phaseOf_away rfl (Pc.away_run l) ⟨hwf, by rw [hpc]; rfl⟩,
        fun x hx => absurd hx List.not_mem_nil⟩
  | remote =>
      exact ⟨Or.inl rfl, phaseOf_away rfl (Pc.away_run l) ⟨hwf, by rw [hpc]; rfl⟩,
        fun x hx => absurd hx List.not_mem_nil⟩

theorem lockReturn_barrierFrame {path : LockPath} (hpc : h.pc = .wniWait l' path) :
    BarrierFrame h (lockReturn l' path h, []) := by
  have hin : h.pc.inBarrier = false := by rw [hpc]; rfl
  cases path <;> exact .outside rfl hin rfl fun x hx => nomatch hx

theorem Syn.OnlyLock.ofFree {syn : Syn} {s : Syn} {x result : Int}
    (he : freeLock n me l x s = (result, syn)) : s.OnlyLock l syn := by
  have := freeLock_only n me l x s
  rwa [he] at this

theorem grantLock_foreign (hne : l ≠ l') (x : Int) (s : Syn) :
    ∀ y ∈ grantLock n me l' x s, Foreign l y.2 := by
  intro y hy
  rcases grantLock_out n me l' x s with ho | ⟨-, -, -, -, -, ho⟩ <;> rw [ho] at hy
  · cases hy
  · rw [List.mem_singleton.mp hy]
    exact ⟨rfl, decide_eq_false (Ne.symm hne)⟩

theorem grantLock_cls (x : Int) (s : Syn) :
    ∀ y ∈ grantLock n me l x s, y.2.cls = .lock := by
  intro y hy
  rcases grantLock_out n me l x s with ho | ⟨-, -, -, -, -, ho⟩ <;> rw [ho] at hy
  · cases hy
  · rw [List.mem_singleton.mp hy]
    rfl

theorem UnlockCase.lockFrame (hc : UnlockCase n me l' h r) (hpc : h.pc = .run)
    (hne : l ≠ l') : LockFrame l h r := by
  have hrun : h.pc.Away l := hpc ▸ Pc.away_run l
  cases hc with
  | refused ret => exact ⟨Or.inl rfl, rfl, fun x hx => nomatch hx⟩
  | free syn result _ _ _ _ he =>
      have ho := Syn.OnlyLock.ofFree he
      refine ⟨Or.inl (ho.locks l hne), phaseOf_away ?_ hrun hrun, fun x hx => ?_⟩
      · rw [ho.myLocks]
        exact upd_ne hne
      · dsimp only at hx
        split at hx
        · exact grantLock_foreign hne result syn x hx
        · cases hx
  | tell =>
      refine ⟨Or.inl rfl, phaseOf_away (upd_ne hne) hrun hrun, fun x hx => ?_⟩
      rw [List.mem_singleton.mp hx]
      simp [Foreign, reqOf, isGrant, Ne.symm hne]

theorem UnlockCase.barrierFrame (hc : UnlockCase n me l' h r) (hpc : h.pc = .run) :
    BarrierFrame h r := by
  have hin : h.pc.inBarrier = false := by rw [hpc]; rfl
  cases hc with
  | refused ret => exact .outside rfl hin hin fun x hx => nomatch hx
  | free syn result _ _ _ _ he =>
      refine .outside (Syn.OnlyLock.ofFree he).barrierFlags hin hin fun x hx => ?_
      dsimp only at hx
      split at hx
      · rw [grantLock_cls result syn x hx]
        exact nofun
      · cases hx
  | tell =>
      refine .outside rfl hin hin fun x hx => ?_
      rw [List.mem_singleton.mp hx]
      exact nofun

/-! ## The handlers -/

theorem handleAcquireMsg_frame (n me : Nat) (l' : Int) (x : Nat) (h : Host) :
    (∀ l ≠ l', LockFrame l h (handleAcquireMsg n me x l' h)) ∧
      BarrierFrame h (handleAcquireMsg n me x l' h) := by
  unfold handleAcquireMsg
  split
  · have ho := graspLock_only n me l' x h.syn
    dsimp only
    refine ⟨fun l hne => ⟨Or.inl (ho.locks l hne), phaseOf_congr (by rw [ho.myLocks]) rfl
      (by rw [ho.waitFlag]), fun y hy => ?_⟩, ho.barrierFlags, rfl, fun _ => ho.waitFlag,
      fun y hy => ?_⟩
    · dsimp only at hy
      split at hy
      · exact grantLock_foreign hne x _ y hy
      · cases hy
    · dsimp only at hy
      split at hy
      · rw [grantLock_cls x _ y hy]
        exact nofun
      · cases hy
  · exact ⟨fun l _ => ⟨Or.inl rfl, rfl, fun y hy => nomatch hy⟩, rfl, rfl, fun _ => rfl,
      fun y hy => nomatch hy⟩

/-- A release wakes at most a host that waits for that lock. -/
theorem handleReleaseMsg_frame {x : Nat} {h : Host}
    (hwake : (freeLock n me l' x h.syn).1 = me → h.pc = .lockWait l') :
    (∀ l ≠ l', LockFrame l h (handleReleaseMsg n me x l' h)) ∧
      BarrierFrame h (handleReleaseMsg n me x l' h) := by
  have ho := freeLock_only n me l' x h.syn
  unfold handleReleaseMsg
  split
  · dsimp only
    split
    · split
      · next hme =>
          have hpc := hwake hme
          refine ⟨fun l hne => ⟨Or.inl (ho.locks l hne), ?_, fun y hy => absurd hy List.not_mem_nil⟩,
            .outside ho.barrierFlags (by rw [hpc]; rfl) (by dsimp only; rw [hpc]; rfl)
              fun y hy => absurd hy List.not_mem_nil⟩
          refine phaseOf_away ?_ ?_ (hpc ▸ Pc.away_lockWait hne)
          · rw [← ho.myLocks]
            exact upd_ne hne
          · exact hpc ▸ Pc.away_lockWait hne
      · refine ⟨fun l hne => ⟨Or.inl (ho.locks l hne), phaseOf_congr (by rw [ho.myLocks])
          rfl (by rw [ho.waitFlag]), fun y hy => grantLock_foreign hne _ _ y hy⟩,
          ho.barrierFlags, rfl, fun _ => ho.waitFlag, fun y hy => ?_⟩
        rw [grantLock_cls _ _ y hy]
        simp
    · exact ⟨fun l hne => ⟨Or.inl (ho.locks l hne), phaseOf_congr (by rw [ho.myLocks])
        rfl (by rw [ho.waitFlag]), fun y hy => absurd hy List.not_mem_nil⟩, ho.barrierFlags, rfl,
        fun _ => ho.waitFlag, fun y hy => absurd hy List.not_mem_nil⟩
  · exact ⟨fun l _ => ⟨Or.inl rfl, rfl, fun y hy => absurd hy List.not_mem_nil⟩, rfl, rfl, fun _ => rfl,
      fun y hy => absurd hy List.not_mem_nil⟩

theorem handleGrantMsg_frame {last : Int} {h : Host} (hpc : h.pc = .lockWait l') :
    (∀ l ≠ l', LockFrame l h (handleGrantMsg l' last h, [])) ∧
      BarrierFrame h (handleGrantMsg l' last h, []) := by
  unfold handleGrantMsg
  split
  · refine ⟨fun l hne => ⟨Or.inl rfl, phaseOf_away (upd_ne hne) ?_ ?_,
      fun y hy => absurd hy List.not_mem_nil⟩, .outside rfl (by rw [hpc]; rfl) (by dsimp only; rw [hpc]; rfl)
        fun y hy => absurd hy List.not_mem_nil⟩
    · exact hpc ▸ Pc.away_lockWait hne
    · exact hpc ▸ Pc.away_lockWait hne
  · exact ⟨fun l _ => ⟨Or.inl rfl, rfl, fun y hy => absurd hy List.not_mem_nil⟩, rfl, rfl, fun _ => rfl,
      fun y hy => absurd hy List.not_mem_nil⟩

end

/-! ## Who hangs -/

section

variable {n me : Nat} {h : Host} {r : Host × Out}

theorem checkBarrierFlags_hung {b : Bool} {h' : Host} {out : Out}
    (hc : checkBarrierFlags n me h = (b, h', out)) : h'.hung = h.hung := by
  unfold checkBarrierFlags at hc
  split at hc
  · cases hc
    rfl
  · split at hc <;> cases hc <;> rfl

theorem lockReturn_hung (l : Int) (path : LockPath) (h : Host) :
    (lockReturn l path h).hung = h.hung := by
  cases path <;> rfl

theorem miBarrier_hung (n me : Nat) (h : Host) : (miBarrier n me h).1.hung = h.hung := by
  unfold miBarrier
  split
  · dsimp only
    split <;> next hc => exact (checkBarrierFlags_hung hc :)
  · rfl

theorem Host.fault_hung {p : Nat} (hr : h.fault n me p = some r) : r.1.hung = h.hung := by
  obtain ⟨x, -, rfl⟩ := Option.map_eq_some_iff.mp hr
  rfl

theorem Host.load_hung {p : Nat} (hr : h.load n me p = some r) : r.1.hung = h.hung := by
  unfold Host.load at hr
  split at hr
  · cases hr
    rfl
  · exact Host.fault_hung hr

theorem Host.store_hung {p o : Nat} {bytes : List Byte}
    (hr : h.store n me p o bytes = some r) : r.1.hung = h.hung := by
  unfold Host.store at hr
  split at hr
  · cases hr
    rfl
  · obtain ⟨x, hx, rfl⟩ := Option.map_eq_some_iff.mp hr
    have hkept := Host.fault_hung hx
    dsimp only
    split <;> exact hkept

theorem miLock_hung (n me : Nat) (l : Int) (h : Host) : (miLock n me l h).1.hung = h.hung := by
  have hc := miLock_cases n me l h
  generalize miLock n me l h = r at hc ⊢
  cases hc with
  | skip => exact lockReturn_hung l _ _
  | _ => rfl

theorem miLockResume_hung (n me : Nat) (l : Int) (h : Host) :
    (miLockResume n me l h).1.hung = h.hung := by
  have hc := miLockResume_cases n me l h
  generalize miLockResume n me l h = r at hc ⊢
  cases hc with
  | skip => exact lockReturn_hung l _ h
  | _ => rfl

theorem miUnlock_hung (n me : Nat) (l : Int) (h : Host) :
    (miUnlock n me l h).1.hung = h.hung := by
  have hc := miUnlock_cases n me l h
  generalize miUnlock n me l h = r at hc ⊢
  cases hc <;> rfl

theorem Host.resume_hung (hr : h.resume n me = some r) : r.1.hung = h.hung := by
  unfold Host.resume at hr
  split at hr
  · cases hr
  · split at hr <;> cases hr
    exact miLockResume_hung n me _ h
  · split at hr <;> cases hr
    exact lockReturn_hung _ _ h
  all_goals
    split at hr <;> cases hr
    rfl

/-- The main thread does not hang. -/
theorem exec_hung {op : Op} (hr : h.exec n me op = some r) : r.1.hung = h.hung := by
  unfold Host.exec at hr
  split at hr
  · exact Host.resume_hung hr
  · cases hr
    rfl
  · exact Host.load_hung hr
  · exact Host.store_hung hr
  · cases hr
    exact miLock_hung n me _ h
  · cases hr
    exact miUnlock_hung n me _ h
  · cases hr
    exact miBarrier_hung n me h
  · cases hr

/-- A handler hangs only over a page it is asked for. -/
theorem dispatch_hung {sender : Nat} {msg : Msg} (hm : ∀ p, msg ≠ .fetchPage p) :
    (dispatchMsg n me sender msg h).1.hung = h.hung := by
  cases msg with
  | fetchPage p => exact absurd rfl (hm p)
  | acqLock l =>
      simp only [dispatchMsg, handleAcquireMsg]
      split <;> rfl
  | rlsLock l =>
      simp only [dispatchMsg, handleReleaseMsg]
      split
      · split
        · split <;> rfl
        · rfl
      · rfl
  | grantLock l last =>
      simp only [dispatchMsg, handleGrantMsg]
      split <;> rfl
  | enterBarrier =>
      simp only [dispatchMsg, handleEnterBarrierMsg]
      split <;> next hc => exact (checkBarrierFlags_hung hc :)
  | exitBarrier =>
      simp only [dispatchMsg, handleExitBarrierMsg]
      split <;> rfl
  | _ => rfl

end

end Midsm
