import Midsm.Proofs.Awaited
import Midsm.Proofs.Replies

/-!
# Inside a section

What the host that is past `mi_lock` does: its loads and stores, the faults they raise,
and its way out of the waits of a fault. A copy that grants access has everything, since
its host knows everything. A store is seen by nobody else before its patch is made, unless
it goes to a page that was sent while it was open.
-/

namespace Midsm

open Midsm.Lib

section

variable {n p : Nat} {l : Int} {y : Story} {walker : Option Nat} {s : Sys} {a : Nat}
  {r : Host × Out} {path : LockPath} {bytes : List Byte} {o : Nat}

/-- A host inside a section moves and stays inside. -/
theorem Scene.act {y' : Story} {walker' : Option Nat} {fl' : Flight} {out : Out}
    (hs : Scene n l p y (some a) walker none s) (h : Host)
    (hw : World n p walker' y'.granted y'.total y'.time y'.patch y'.view
      (upd (fun h => (s.host h).mem) a h.mem))
    (hst : Stage n l p y' (upd s.host a h) (some a) walker' fl')
    (ht : (s.put a (h, out)).InTransit l fl') :
    Scene n l p y' (some a) walker' fl' (s.put a (h, out)) :=
  hs.put_token rfl hw hst ht hs.lt (fun _ h => absurd rfl h) fun _ _ h => h

theorem Inside.act {y' : Story} (hi : Inside n l y s.host a) (h : Host)
    (hsyn : h.syn = (s.host a).syn) (hl : y'.time.len = y.time.len)
    (hc : (y'.view a).clock = (y.view a).clock) : Inside n l y' (upd s.host a h) a := by
  refine hi.move (fun x => ?_) hl hc
  by_cases hx : x = a
  · rw [hx, upd_self, hsyn]
  · rw [upd_ne hx]

/-- `mi_lock` returns with what the host that was inside last knew. -/
theorem Scene.lockReturn (hs : Scene n l p y (some a) none none s)
    (ha : Asks n l y s.host a path) (hc : (y.view a).clock = y.time.len) :
    Coherent n l p y.granted y.total (s.put a (lockReturn l path (s.host a), [])) := by
  have hmem : (Midsm.lockReturn l path (s.host a)).mem = (s.host a).mem := by
    cases path <;> rfl
  have hlocks : (Midsm.lockReturn l path (s.host a)).syn.locks = (s.host a).syn.locks := by
    cases path <;> rfl
  have hmine : (Midsm.lockReturn l path (s.host a)).syn.myLocks l = true := by
    cases path with
    | grasped => exact upd_self ..
    | waited => exact ha.mine nofun
    | remote => exact ha.mine nofun
  refine (hs.act _ ?_ (.active a ⟨?_, ?_, hc, ha.pos⟩ ?_)
    (hs.transit.silent rfl)).coherent
  · rw [hmem, upd_eta (fun h => (s.host h).mem) a]
    exact hs.world
  · by_cases hma : manager n l = a
    · rw [hma, upd_self, hlocks, ← hma]
      exact ha.locked
    · rw [upd_ne hma]
      exact ha.locked
  · rw [upd_self]
    exact hmine
  · rw [upd_self]
    exact lockReturn_pc ..

/-! ## Faults -/

/-- The page is made readable, and the access runs. -/
theorem Scene.validate {h : Host} (hs : Scene n l p y (some a) walker none s)
    (hwalk : ∀ x ≠ a, walker ≠ some x) (hi : Inside n l y s.host a)
    (hst : ((s.host a).mem.pageArray p).state = .invalid ∨
      ((s.host a).mem.pageArray p).state = .miss)
    (hall : (y.view a).has y.time a = y.time.upTo (y.view a).clock)
    (hm : h.mem = (s.host a).mem.setPage p
      { (s.host a).mem.pageArray p with state := .rdonly, prot := .read })
    (hsyn : h.syn = (s.host a).syn) (hpc : h.pc = .run) :
    Coherent n l p y.granted y.total (s.put a (h, [])) := by
  refine (hs.act h ?_ (.active a (hi.act h hsyn rfl rfl) ?_)
    (hs.transit.silent rfl)).coherent
  · rw [hm]
    exact hs.world.validate (hs.lt a rfl) hst hall hwalk
  · rw [upd_self]
    exact hpc

/-- `fetchDiff` sends its next request or is done. -/
theorem Scene.walkOn {res : Mem × Out × Pc} (hs : Scene n l p y (some a) walker none s)
    (hwalk : ∀ x ≠ a, walker ≠ some x) (hi : Inside n l y s.host a)
    (hst : ((s.host a).mem.pageArray p).state = .invalid)
    (hon : WalkOn n y.time p a (y.view a) (s.host a).mem res) :
    Coherent n l p y.granted y.total
      (s.put a ({ s.host a with mem := res.1, pc := res.2.2 }, res.2.1)) := by
  cases hon with
  | finished hall => exact hs.validate hwalk hi (Or.inl hst) hall rfl rfl rfl
  | ask i newer k older hw hk =>
      have ha := hs.lt a rfl
      have hworld : World n p (some a) y.granted y.total y.time y.patch
          (upd y.view a (y.view a)) (upd (fun h => (s.host h).mem) a
            { (s.host a).mem with fetchDiffWaitFlag := true }) :=
        hs.world.move ha rfl (fun _ hd => hd) ((hs.world.shows a ha).of_eq rfl rfl rfl)
          (.of_eq rfl rfl) id (fun _ => id) (fun _ hj _ _ _ => hj) (fun h => absurd rfl h)
          fun x hx _ => hwalk x hx
      rw [upd_eta] at hworld
      refine (hs.act _ hworld (.diffAsked a i k newer older (hi.act _ ?_ rfl rfl) ⟨?_, ?_, hw⟩ ?_ hk)
        (hs.transit.send rfl rfl)).coherent
      · rfl
      · rw [upd_self]
      · rw [upd_self]
        exact hst
      · rw [upd_self]

/-- A load or a store that is not granted. -/
theorem Scene.fault (hs : Scene n l p y (some a) none none s) (hi : Inside n l y s.host a)
    (hst : ((s.host a).mem.pageArray p).state ≠ .rdonly)
    (hst' : ((s.host a).mem.pageArray p).state ≠ .write)
    (hr : (s.host a).fault n a p = some r) : Coherent n l p y.granted y.total (s.put a r) := by
  have ha := hs.lt a rfl
  have hw := hs.world
  have hmapped := (hw.shows a ha).replica.mapped
  unfold Host.fault segvHandler at hr
  rw [if_neg (Nat.not_le.mpr hw.fits)] at hr
  cases hstate : ((s.host a).mem.pageArray p).state with
  | rdonly => exact absurd hstate hst
  | write => exact absurd hstate hst'
  | unmap => exact absurd hstate hmapped
  | invalid =>
      rw [hstate] at hr
      obtain rfl := Option.some.inj hr
      exact hs.walkOn (fun _ _ => (Option.some_ne_none _).symm) hi hstate
        (fetchDiff_walk hw.hosted (hw.shows a ha).replica
          (hw.ordered a ha (Option.some_ne_none _).symm))
  | miss =>
      obtain ⟨b, hb, hne, hdest, hrd, hcon, hcl⟩ := hw.source ha hi.clock hstate
      have hfetch : fetchPage n a p (s.host a).mem =
          some ({ (s.host a).mem with fetchPageWaitFlag := true }, [(b, .fetchPage p)]) := by
        unfold fetchPage
        dsimp only
        rw [if_neg (Nat.not_le.mpr hw.fits), if_neg (not_not.mpr hstate), hdest]
      rw [hstate] at hr
      dsimp only at hr
      rw [hfetch] at hr
      obtain rfl := Option.some.inj hr
      refine (hs.act _ ?_ (.pageAsked a b (hi.act _ ?_ rfl rfl) ?_ ?_ ?_ hb hne ?_ ?_ hcl)
        (hs.transit.send rfl rfl)).coherent
      · exact hw.of_eq ha rfl rfl rfl rfl
      · rfl
      · rw [upd_self]
      · rw [upd_self]
      · rw [upd_self]
        exact hstate
      · rw [upd_ne hne]
        exact hrd
      · rw [upd_ne hne]
        exact hcon

theorem Scene.load (hs : Scene n l p y (some a) none none s) (hi : Inside n l y s.host a)
    (hpc : (s.host a).pc.faulting = none) (hg : Guards (s.host a).mem (s.host a).pc)
    (hr : (s.host a).load n a p = some r) :
    Coherent n l p y.granted y.total (s.put a r) := by
  unfold Host.load at hr
  split at hr
  · obtain rfl := Option.some.inj hr
    exact (hs.put_silent rfl rfl (Or.inl rfl)
      (fun _ => .refl l _) fun h => absurd rfl h).coherent
  · next hno =>
      rw [hg.readable hpc, not_or] at hno
      exact hs.fault hi hno.1 hno.2 hr

/-! ## Stores -/

/-- What a store makes of the ghosts. -/
theorem Scene.store (hs : Scene n l p y (some a) none none s) (hi : Inside n l y s.host a)
    (hpc : (s.host a).pc = .run) (hguards : Guards (s.host a).mem (s.host a).pc)
    (hg : ((s.host a).mem.pageArray p).state = .write → y.granted a = false)
    (hr : (s.host a).store n a p o bytes = some r) :
    Coherent n l p
      (if ((s.host a).mem.pageArray p).state = .rdonly then upd y.granted a false else y.granted)
      (if ((s.host a).mem.pageArray p).Readable then writeBytes y.total o bytes else y.total)
      (s.put a r) := by
  have ha := hs.lt a rfl
  have hw := hs.world
  have hidle : (s.host a).pc.faulting = none := by rw [hpc]; rfl
  have hwritable := hguards.writable (p := p) hidle
  cases hst : ((s.host a).mem.pageArray p).state with
  | write =>
      obtain ⟨patch', hworld⟩ := hw.storeMore ha hi.clock hst (hg hst) o bytes
      have hread : ((s.host a).mem.pageArray p).Readable := Or.inr hst
      unfold Host.store at hr
      rw [if_pos (hwritable.mpr hst)] at hr
      obtain rfl := Option.some.inj hr
      rw [if_neg nofun, if_pos hread]
      refine Scene.coherent (y := { y with
        patch := patch', total := writeBytes y.total o bytes }) (hs.act _ hworld
        (.active a (hi.act _ ?_ rfl rfl) ?_)
        (hs.transit.silent rfl))
      · rfl
      · rw [upd_self]
        exact hpc
  | rdonly =>
      have hread : ((s.host a).mem.pageArray p).Readable := Or.inl hst
      have hclosed : ((s.host a).mem.pageArray p).prot ≠ .readWrite := fun h => by
        rw [hwritable.mp h] at hst
        cases hst
      obtain ⟨m, patch', he, hopen, hworld⟩ :=
        hw.storeFirst ha hi.pos hi.clock hst ((hguards.readable hidle).mpr hread) o bytes
      unfold Host.store Host.fault at hr
      rw [if_neg hclosed, he] at hr
      dsimp only [Option.map_some] at hr
      rw [if_pos hopen] at hr
      obtain rfl := Option.some.inj hr
      rw [if_pos rfl, if_pos hread]
      refine Scene.coherent (y := { y with
        time := y.time.mark hi.pos, patch := patch', granted := upd y.granted a false
        total := writeBytes y.total o bytes }) (hs.act _ hworld
        (.active a (hi.act _ ?_ rfl rfl) ?_)
        (hs.transit.silent rfl))
      · rfl
      · rw [upd_self]
  | unmap | miss | invalid =>
      have hw' : ((s.host a).mem.pageArray p).state ≠ .write := by simp [hst]
      have hr' : ((s.host a).mem.pageArray p).state ≠ .rdonly := by simp [hst]
      have hread : ¬ ((s.host a).mem.pageArray p).Readable := fun h => h.elim hr' hw'
      have hclosed : ((s.host a).mem.pageArray p).prot ≠ .readWrite := fun h =>
        hw' (hwritable.mp h)
      rw [if_neg nofun, if_neg hread]
      rw [Host.store_fault o bytes hclosed hr' hw'] at hr
      exact hs.fault hi hr' hw' hr

end

end Midsm
