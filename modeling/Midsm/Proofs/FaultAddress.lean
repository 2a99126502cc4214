import Midsm.Proofs.Allocation
import Midsm.Proofs.Armed

/-!
# From an address to a page

In every run the page table stays as the calls of `mi_alloc` laid it out: no other
function changes an address, maps a page or unmaps one. `segv_handler` computes the
number of the page from the faulting address and narrows it to an `int`, so what it
looks at is the address modulo `2 ^ 44`, and one that lies a multiple of `2 ^ 44` behind a
shared page is taken for it.
-/

namespace Midsm

open Midsm.Lib

/-- The same pages at the same addresses. -/
structure Mem.SamePlaces (m m' : Mem) : Prop where
  pagenum : m'.pagenum = m.pagenum
  globalAddress : m'.globalAddress = m.globalAddress
  address : ∀ q, (m'.pageArray q).address = (m.pageArray q).address
  unmap : ∀ q, (m'.pageArray q).state = .unmap ↔ (m.pageArray q).state = .unmap

section

variable {n me p : Nat} {m m' m'' : Mem} {page : Page}

theorem Mem.SamePlaces.refl (m : Mem) : m.SamePlaces m :=
  ⟨rfl, rfl, fun _ => rfl, fun _ => Iff.rfl⟩

theorem Mem.SamePlaces.trans (h₁ : m.SamePlaces m') (h₂ : m'.SamePlaces m'') :
    m.SamePlaces m'' where
  pagenum := h₂.pagenum.trans h₁.pagenum
  globalAddress := h₂.globalAddress.trans h₁.globalAddress
  address q := (h₂.address q).trans (h₁.address q)
  unmap q := (h₂.unmap q).trans (h₁.unmap q)

/-- Nothing is changed in the page table. -/
theorem Mem.SamePlaces.of_eq (hp : m'.pageArray = m.pageArray) (hn : m'.pagenum = m.pagenum)
    (hg : m'.globalAddress = m.globalAddress) : m.SamePlaces m' :=
  ⟨hn, hg, fun q => by rw [hp], fun q => by rw [hp]⟩

theorem Mem.SamePlaces.of_page (hp : m'.pageArray = upd m.pageArray p page)
    (hn : m'.pagenum = m.pagenum) (hg : m'.globalAddress = m.globalAddress)
    (ha : page.address = (m.pageArray p).address)
    (hs : page.state = .unmap ↔ (m.pageArray p).state = .unmap) : m.SamePlaces m' := by
  refine ⟨hn, hg, fun q => ?_, fun q => ?_⟩
  · rw [hp]
    by_cases hq : q = p
    · rw [hq, upd_self, ha]
    · rw [upd_ne hq]
  · rw [hp]
    by_cases hq : q = p
    · rw [hq, upd_self, hs]
    · rw [upd_ne hq]

/-- A mapped page changes its state. -/
theorem Mem.SamePlaces.setState (hu : (m.pageArray p).state ≠ .unmap) {state : PageState}
    {prot : Prot} (hs : state ≠ .unmap) :
    m.SamePlaces (m.setPage p { m.pageArray p with state := state, prot := prot }) :=
  .of_page rfl rfl rfl rfl (iff_of_false hs hu)

theorem Mem.LaidOut.same (h : m.LaidOut) (hs : m.SamePlaces m') : m'.LaidOut where
  counters := by
    rw [hs.pagenum, hs.globalAddress]
    exact h.counters
  bound := by
    rw [hs.pagenum]
    exact h.bound
  address k hk := by
    rw [hs.pagenum] at hk
    rw [hs.address]
    exact h.address k hk
  mapped k hk := by
    rw [hs.pagenum] at hk
    rw [ne_eq, hs.unmap]
    exact h.mapped k hk
  unmap k hk := by
    rw [hs.pagenum] at hk
    rw [hs.unmap]
    exact h.unmap k hk

/-! ## The main thread -/

theorem createTwinPage_places (p : Nat) (m : Mem) : m.SamePlaces (createTwinPage p m).2 := by
  unfold createTwinPage
  dsimp only
  repeat' split
  all_goals first
    | exact .refl m
    | exact .of_page rfl rfl rfl rfl Iff.rfl

theorem freeTwinPage_places (p : Nat) (m : Mem) : m.SamePlaces (freeTwinPage p m).2 := by
  unfold freeTwinPage
  dsimp only
  repeat' split
  all_goals first
    | exact .refl m
    | exact .of_page rfl rfl rfl rfl Iff.rfl

theorem createWriteNotice_places (me p : Nat) (m : Mem) :
    m.SamePlaces (createWriteNotice me p m).2 := by
  unfold createWriteNotice
  dsimp only
  repeat' split
  all_goals first
    | exact .refl m
    | exact .of_page rfl rfl rfl rfl Iff.rfl

theorem requestDiff_places (hu : (m.pageArray p).state ≠ .unmap) (pts : Option Timestamp)
    (request : Option (Nat × Timestamp × Nat)) :
    m.SamePlaces (requestDiff p pts request m).1 := by
  cases request with
  | some x => exact .of_eq rfl rfl rfl
  | none => exact .setState hu fun h => by cases h

theorem segvHandler_places {out : Out} {pc : Pc}
    (he : segvHandler n me p m = some (m', out, pc)) : m.SamePlaces m' := by
  by_cases hp : maxPageNum ≤ p
  · rw [segvHandler, if_pos hp] at he
    cases he
  · cases hs : (m.pageArray p).state with
    | rdonly =>
        have hsame := (createTwinPage_places p m).trans (createWriteNotice_places me p _)
        obtain ⟨-, -, -, rfl⟩ := segvHandler_first hs he
        refine hsame.trans (.setState ?_ fun h => by cases h)
        rw [ne_eq, hsame.unmap, hs]
        exact fun h => by cases h
    | miss =>
        simp only [segvHandler, if_neg hp, hs] at he
        split at he
        · next hf =>
            cases he
            obtain ⟨_, -, rfl, -⟩ := fetchPage_eq_some hf
            exact .of_eq rfl rfl rfl
        · cases he
          exact .setState (by simp [hs]) fun h => by cases h
    | write =>
        simp only [segvHandler, if_neg hp, hs] at he
        cases he
        exact .refl m
    | invalid =>
        simp only [segvHandler, if_neg hp, hs] at he
        have hi : m.SamePlaces (fetchDiff n me p m).1 :=
          requestDiff_places (by simp [hs]) _ _
        rw [Option.some.injEq] at he
        rw [he] at hi
        exact hi
    | unmap =>
        simp only [segvHandler, if_neg hp, hs] at he
        cases he

/-! ## A step of a host -/

variable {h : Host} {r : Host × Out} {l : Int}

theorem LockCase.places (hc : LockCase n me l h r) : h.mem.SamePlaces r.1.mem := by
  cases hc <;> exact .of_eq rfl rfl rfl

theorem UnlockCase.places (hc : UnlockCase n me l h r) : h.mem.SamePlaces r.1.mem := by
  cases hc <;> exact .of_eq rfl rfl rfl

theorem ResumeCase.places (hc : ResumeCase n me l h r) : h.mem.SamePlaces r.1.mem := by
  cases hc with
  | skip =>
      rw [(lockReturn_mem l _ h).1]
      exact .refl h.mem
  | fetch | back | fresh => exact .of_eq rfl rfl rfl

theorem miBarrier_places (n me : Nat) (h : Host) :
    h.mem.SamePlaces (miBarrier n me h).1.mem := by
  by_cases hme : me = 0
  · subst hme
    rcases miBarrier_zero_cases n h with he | ⟨-, he⟩
    · rw [he]
      exact .of_eq rfl rfl rfl
    · rw [he]
      exact .of_eq rfl rfl rfl
  · unfold miBarrier
    rw [if_neg hme]
    exact .refl h.mem

theorem fault_places (hr : h.fault n me p = some r) : h.mem.SamePlaces r.1.mem := by
  obtain ⟨x, hx, rfl⟩ := Option.map_eq_some_iff.mp hr
  exact segvHandler_places hx

theorem storeBytes_places (o : Nat) (bytes : List Byte) (m : Mem) :
    m.SamePlaces (m.storeBytes p o bytes) :=
  .of_page rfl rfl rfl rfl Iff.rfl

theorem resume_places (hs : h.pc.Sound n me h.mem) (hr : h.resume n me = some r) :
    h.mem.SamePlaces r.1.mem := by
  unfold Host.resume at hr
  split at hr
  · cases hr
  · split at hr
    · cases hr
    · cases hr
      exact (miLockResume_cases n me _ h).places
  · split at hr
    · cases hr
    · cases hr
      rw [(lockReturn_mem _ _ h).1]
      exact .refl h.mem
  · split at hr
    · cases hr
    · cases hr
      exact .refl h.mem
  · next q hpc =>
      split at hr
      · cases hr
      · cases hr
        exact .setState (hs.mapped q (by rw [hpc]; rfl)) fun h => by cases h
  · next q pts i rest hpc =>
      split at hr
      · cases hr
      · cases hr
        exact requestDiff_places (hs.mapped q (by rw [hpc]; rfl)) _ _

/-- What an allocation is asked for is an `int`. -/
def intSizes (_ : Sys) (e : Event) : Prop :=
  ∀ h size, e = .op h (.alloc size) → - 2 ^ 31 ≤ size ∧ size < 2 ^ 31

theorem exec_laidOut {op : Op} (hl : h.mem.LaidOut) (hs : h.pc.Sound n me h.mem)
    (hsize : ∀ size, op = .alloc size → size < 2 ^ 31) (hr : h.exec n me op = some r) :
    r.1.mem.LaidOut := by
  by_cases hop : op = .resume
  · subst hop
    exact hl.same (resume_places hs hr)
  · have hpc := exec_run hop hr
    cases op <;> simp only [Host.exec, hpc] at hr
    case resume => exact absurd rfl hop
    case alloc size =>
      cases hr
      exact (hl.miAlloc n me (hsize size rfl)).1
    case load p o len =>
      unfold Host.load at hr
      split at hr
      · cases hr
        exact hl
      · exact hl.same (fault_places hr)
    case store p o bytes =>
      unfold Host.store at hr
      split at hr
      · cases hr
        exact hl.same (storeBytes_places o bytes _)
      · obtain ⟨x, hx, rfl⟩ := Option.map_eq_some_iff.mp hr
        have hfault := fault_places hx
        dsimp only
        split
        · exact hl.same (hfault.trans (storeBytes_places o bytes _))
        · exact hl.same hfault
    case lock l =>
      cases hr
      exact hl.same (miLock_cases n me l h).places
    case unlock l =>
      cases hr
      exact hl.same (miUnlock_cases n me l h).places
    case barrier =>
      cases hr
      exact hl.same (miBarrier_places n me h)

/-! ## A message -/

theorem invalidatePage_places (me p : Nat) (m : Mem) :
    m.SamePlaces (invalidatePage me p m) := by
  unfold invalidatePage
  dsimp only
  split
  · next hs => exact .setState (by simp [hs]) fun h => by cases h
  · next hs =>
      refine .trans ?_ ((freeTwinPage_places p _).trans (.of_page rfl rfl rfl rfl Iff.rfl))
      exact .of_page rfl rfl rfl rfl (iff_of_false (fun h => by cases h) (by simp [hs]))
  · exact .refl m

theorem incorporateNotice_places (me j : Nat) (ts : Timestamp) (m : Mem) (p : Nat) :
    m.SamePlaces (incorporateNotice me j ts m p) := by
  rw [incorporateNotice_eq]
  split
  · exact .refl m
  · exact (invalidatePage_places me p m).trans (.of_page rfl rfl rfl rfl Iff.rfl)

theorem incorporateWnPacket_places (me : Nat) (m : Mem) (packet : WnPacket) :
    m.SamePlaces (incorporateWnPacket me m packet) := by
  have hfold : ∀ (pages : List Nat) (m : Mem),
      m.SamePlaces (pages.foldl (incorporateNotice me packet.hostid packet.timestamp) m) := by
    intro pages
    induction pages with
    | nil => exact fun m => .refl m
    | cons p pages ih => exact fun m => (incorporateNotice_places me _ _ m p).trans (ih _)
  refine .trans ?_ (hfold _ _)
  unfold enterInterval
  dsimp only
  split
  · exact .refl m
  · exact .of_eq rfl rfl rfl

theorem incorporatePackets_places (me k : Nat) (packets : List WnPacket) (m : Mem) :
    m.SamePlaces (incorporatePackets me k packets m) := by
  unfold incorporatePackets
  induction packets.take k generalizing m with
  | nil => exact .refl m
  | cons packet packets ih => exact (incorporateWnPacket_places me m packet).trans (ih _)

theorem grantDiff_places (hostid : Nat) (ts : Timestamp) (m : Mem) :
    m.SamePlaces (grantDiff n me hostid ts p m).2.1 := by
  have hset : m.SamePlaces (m.setPage p { m.pageArray p with
      notices := upd (m.pageArray p).notices me
        (setDiff ts (createLocalDiff (m.pageArray p).memory (m.pageArray p).twinPage)
          ((m.pageArray p).notices me)) }) := .of_page rfl rfl rfl rfl Iff.rfl
  have hmake : m.SamePlaces (makeDiff me p ts m) := by
    unfold makeDiff
    dsimp only
    split
    · next hs =>
        refine (hset.trans (freeTwinPage_places p _)).trans (.setState ?_ fun h => by cases h)
        rw [ne_eq, (hset.trans (freeTwinPage_places p _)).unmap, hs]
        exact fun h => by cases h
    · exact hset
  unfold grantDiff
  dsimp only
  repeat' split
  all_goals first | exact .refl m | exact hmake

theorem handleGrantDiffMsg_places (sender : Nat) (ts : Timestamp) (diff : Content) (m : Mem) :
    m.SamePlaces (handleGrantDiffMsg sender ts p diff m) := by
  unfold handleGrantDiffMsg
  dsimp only
  split
  · exact .of_eq rfl rfl rfl
  · exact .of_page rfl rfl rfl rfl Iff.rfl

theorem PageRead.places {sender : Nat} (hc : PageRead n me sender p h r) :
    h.mem.SamePlaces r.1.mem := by
  cases hc with
  | refused | sent | killed => exact .refl h.mem
  | opened _ _ _ _ _ _ _ hseg => exact segvHandler_places hseg
  | hangs _ _ _ _ _ _ hseg => exact segvHandler_places hseg

theorem ReadMem.places {sender : Nat} {msg : Msg} (hc : ReadMem n me sender h msg r) :
    h.mem.SamePlaces r.1.mem := by
  cases hc with
  | keep _ _ hm =>
      rw [hm]
      exact .refl h.mem
  | release _ _ hm =>
      rw [hm]
      exact .of_eq rfl rfl rfl
  | data hmsg =>
      cases msg with
      | acqLock | rlsLock | grantLock | enterBarrier | exitBarrier =>
          rcases hmsg with hmsg | hmsg | hmsg <;> cases hmsg
      | fetchPage p => exact (dispatch_fetchPage n me sender p h).places
      | fetchWnI => exact .refl h.mem
      | grantDiff ts p diff => exact handleGrantDiffMsg_places _ _ _ _
      | grantPage p content => exact .of_page rfl rfl rfl rfl Iff.rfl
      | fetchDiff p ts => exact grantDiff_places _ _ _
      | grantWnI ts k packets =>
          have hpush : h.mem.SamePlaces (h.mem.pushNow me ⟨bump me ts, [], false⟩) :=
            .of_eq rfl rfl rfl
          exact (hpush.trans (incorporatePackets_places me k packets _)).trans
            (.of_eq rfl rfl rfl)
      | grantEnterBarrierInfo ts k packets =>
          refine .trans ?_ (incorporatePackets_places me k packets _)
          split
          · exact .of_eq rfl rfl rfl
          · exact .refl h.mem
      | grantExitBarrierInfo ts k packets =>
          refine .trans ?_ (incorporatePackets_places me k packets _)
          split
          · exact .of_eq rfl rfl rfl
          · exact .refl h.mem

end

/-! ## Every run -/

/-- In every reachable state the pages are where the allocations put them. -/
theorem laidOut_of_reach {n : Nat} {s : Sys} (h : Reach (step n) intSizes initSys s) (x : Nat) :
    (s.host x).mem.LaidOut := by
  have hinv : Sound n s ∧ ∀ x, (s.host x).mem.LaidOut := by
    refine h.invariant (P := fun s => Sound n s ∧ ∀ x, (s.host x).mem.LaidOut)
      ⟨Sound.init n, fun x => initmem_laidOut x⟩ ?_
    rintro s s' e ⟨hsound, hl⟩ hok hs
    refine ⟨hsound.step hs, fun x => ?_⟩
    have hput : ∀ {t : Sys} {a : Nat} {r : Host × Out}, t.host = s.host →
        r.1.mem.LaidOut → ((t.put a r).host x).mem.LaidOut := by
      intro t a r ht hr
      by_cases hx : x = a
      · rw [hx, put_host_self]
        exact hr
      · rw [put_host_ne hx, ht]
        exact hl x
    obtain ⟨a, op, r, rfl, ha, he, rfl⟩ |
      ⟨a, b, msg, rest, rfl, ha, hb, hne, hnet, rfl⟩ := step_cases hs
    · refine hput rfl (exec_laidOut (hl a) (hsound.pc a ha) (fun size hop => ?_) he)
      exact (hok a size (by rw [hop])).2
    · exact hput rfl ((hl b).same (dispatch_mem n b a msg (s.host b)).places)
  exact hinv.2 x

/-! ## The address of a fault -/

/-- The address is in page `k` of the shared region. -/
def InPage (a : Int) (k : Nat) : Prop :=
  startAddress + k * pageSize ≤ a ∧ a < startAddress + (k + 1) * pageSize

/-- `segv_handler` looks at entry `k` and does not end the program. -/
def ActsOn (n me : Nat) (a : Int) (k : Nat) (m : Mem) : Prop :=
  faultPageIndex a = k ∧ (segvHandlerAt n me a m).isSome = true

/-- What `segv_handler` is for: a fault in an allocated page is served for that page, any
other one ends the program. -/
structure DecodesFault (n me : Nat) (a : Int) (m : Mem) : Prop where
  acts : ∀ k, ActsOn n me a k m ↔ k < m.pagenum ∧ InPage a k
  block : ∀ k < m.pagenum, (m.pageArray k).address ≤ a →
    a < (m.pageArray k).address + pageSize → ActsOn n me a k m
  outside : (∀ k < m.pagenum, ¬ InPage a k) → segvHandlerAt n me a m = none

section

variable {n me k p : Nat} {a : Int} {m : Mem}

theorem faultPageIndex_eq (ha : 0 ≤ a) :
    faultPageIndex a = Int.bmod (a / pageSize - 0x60000) (2 ^ 32) := by
  have hpage : (if a.tmod pageSize = 0 then a else a.tdiv pageSize * pageSize) =
      a / pageSize * pageSize := by
    rw [Int.tmod_eq_emod_of_nonneg ha, Int.tdiv_eq_ediv_of_nonneg ha]
    split
    · next h => exact (Int.ediv_mul_cancel (Int.dvd_of_emod_eq_zero h)).symm
    · rfl
  have hstart : (startAddress : Int) = 0x60000 * pageSize := by decide
  rw [faultPageIndex]
  rw [hpage, hstart, ← Int.sub_mul, Int.mul_tdiv_cancel _ (by decide)]

/-- The pages that an address is taken for: those it is in, but for a multiple of
`2 ^ 44`. -/
theorem faultPageIndex_eq_iff (ha : 0 ≤ a) (ha' : a < 2 ^ 47) (hk : k < maxPageNum) :
    faultPageIndex a = k ↔ ∃ j : Nat, InPage (a - j * 2 ^ 44) k := by
  rw [faultPageIndex_eq ha, Int.bmod_def]
  simp only [InPage, pageSize, startAddress, maxPageNum] at *
  constructor
  · intro h
    refine ⟨((a / 4096 - 0x60000) / 2 ^ 32).toNat, ?_⟩
    omega
  · rintro ⟨j, h⟩
    omega

theorem segvHandler_isSome (hg : (m.pageArray p).Guarded) :
    (segvHandler n me p m).isSome = true ↔ p < maxPageNum ∧ (m.pageArray p).state ≠ .unmap := by
  unfold segvHandler
  split
  · next h => simp; omega
  · next h =>
      rw [Nat.not_le] at h
      cases hs : (m.pageArray p).state with
      | rdonly =>
          have hprot : (m.pageArray p).prot = .read := by
            rw [hg.prot_eq (by rw [hs]; exact nofun), hs]
            rfl
          simp [h, hprot]
      | write | invalid => simp [h]
      | unmap => simp
      | miss =>
          dsimp only
          split <;> simp [h]

theorem actsOn_iff (hl : m.LaidOut) (hg : ∀ p, (m.pageArray p).Guarded) (ha : 0 ≤ a) (ha' : a < 2 ^ 47) :
    ActsOn n me a k m ↔ k < m.pagenum ∧ ∃ j : Nat, InPage (a - j * 2 ^ 44) k := by
  have hbound := hl.bound
  have hsome : faultPageIndex a = k → ((segvHandlerAt n me a m).isSome = true ↔
      k < m.pagenum) := by
    intro hidx
    rw [segvHandlerAt, hidx]
    by_cases hmax : k < maxPageNum
    · rw [if_neg (by omega), Int.toNat_natCast, segvHandler_isSome (hg k), and_iff_right hmax]
      constructor
      · intro hu
        by_contra hge
        exact hu (hl.unmap k (Nat.le_of_not_lt hge))
      · exact hl.mapped k
    · rw [if_pos (by omega)]
      exact iff_of_false (fun h => by cases h) (by omega)
  constructor
  · rintro ⟨hidx, hs⟩
    have hlt := (hsome hidx).mp hs
    exact ⟨hlt, (faultPageIndex_eq_iff ha ha' (by omega)).mp hidx⟩
  · rintro ⟨hlt, hj⟩
    have hidx := (faultPageIndex_eq_iff ha ha' (by omega)).mpr hj
    exact ⟨hidx, (hsome hidx).mpr hlt⟩

theorem not_actsOn (h : ∀ k < m.pagenum, ¬ ActsOn n me a k m) (hl : m.LaidOut)
    (hg : ∀ p, (m.pageArray p).Guarded) (ha : 0 ≤ a) (ha' : a < 2 ^ 47) :
    segvHandlerAt n me a m = none := by
  rw [← Option.not_isSome_iff_eq_none]
  intro hs
  have hpos : 0 ≤ faultPageIndex a := by
    by_contra hneg
    rw [segvHandlerAt, if_pos (Or.inl (by omega))] at hs
    cases hs
  obtain ⟨k, hk⟩ := Int.eq_ofNat_of_zero_le hpos
  have hact : ActsOn n me a k m := ⟨hk, hs⟩
  exact h k ((actsOn_iff hl hg ha ha').mp hact).1 hact

/-- A page of the region is no multiple of `2 ^ 44` away from another one. -/
theorem InPage.alias {k' j : Nat} (h : InPage a k) (hk : k < maxPageNum)
    (h' : InPage (a - j * 2 ^ 44) k') (hj : 0 < j) : False := by
  simp only [InPage, pageSize, startAddress, maxPageNum] at *
  omega

theorem decodesFault_iff (hl : m.LaidOut) (hg : ∀ p, (m.pageArray p).Guarded) (ha : 0 ≤ a)
    (ha' : a < 2 ^ 47) :
    DecodesFault n me a m ↔
      ∀ k < m.pagenum, ∀ j : Nat, 0 < j → ¬ InPage (a - j * 2 ^ 44) k := by
  constructor
  · intro h k hk j hj hin
    have hact : ActsOn n me a k m := (actsOn_iff hl hg ha ha').mpr ⟨hk, j, hin⟩
    have hbound := hl.bound
    exact ((h.acts k).mp hact).2.alias (by omega) hin hj
  · intro h
    have hacts : ∀ k, ActsOn n me a k m ↔ k < m.pagenum ∧ InPage a k := by
      intro k
      rw [actsOn_iff hl hg ha ha']
      refine and_congr_right fun hk => ⟨?_, fun hin => ⟨0, by simpa using hin⟩⟩
      rintro ⟨j, hin⟩
      cases j with
      | zero => simpa using hin
      | succ j => exact absurd hin (h k hk _ (Nat.succ_pos j))
    refine ⟨hacts, fun k hk h₁ h₂ => (hacts k).mpr ⟨hk, ?_⟩, fun hno => ?_⟩
    · rw [hl.address k hk] at h₁ h₂
      simp only [InPage, pageSize, startAddress] at *
      omega
    · exact not_actsOn (fun k hk hact => hno k hk ((hacts k).mp hact).2) hl hg ha ha'

end

/-- **A fault is decoded right but for a multiple of `2 ^ 44`**: a wild pointer that lies
such a multiple behind an allocated page is served as if it were in that page. -/
theorem fault_address_iff {n : Nat} {s : Sys} (hs : Reach (step n) intSizes initSys s)
    (h : Nat) {a : Int} (ha : 0 ≤ a) (ha' : a < 2 ^ 47) :
    DecodesFault n h a (s.host h).mem ↔
      ∀ k < (s.host h).mem.pagenum, ∀ j : Nat, 0 < j → ¬ InPage (a - j * 2 ^ 44) k :=
  decodesFault_iff (laidOut_of_reach hs h) ((awaited_of_reach hs).guards h).page ha ha'

/-- Host 0 of two after an allocation of one page. -/
theorem reach_one_page : ∃ s, Reach (step 2) intSizes initSys s ∧ (s.host 0).mem.pagenum = 1 := by
  refine ⟨_, Reach.refl.tail (e := .op 0 (.alloc 1)) ?_ rfl, ?_⟩
  · intro h size he
    cases he
    decide
  · rw [put_host_self]
    exact ((initmem_laidOut 0).miAlloc 2 0 (by decide)).2

theorem fault_address_wild : ∃ s, Reach (step 2) intSizes initSys s ∧
    ¬ DecodesFault 2 0 (0x60000000 + 2 ^ 44) (s.host 0).mem := by
  obtain ⟨s, hs, hnum⟩ := reach_one_page
  refine ⟨s, hs, fun h => ?_⟩
  have hl := laidOut_of_reach hs 0
  have hg := ((awaited_of_reach hs).guards 0).page
  refine (decodesFault_iff hl hg (by decide) (by decide)).mp h 0 (by omega) 1 (by decide) ?_
  exact ⟨by decide, by decide⟩

theorem fault_address_first_page : ∃ s, Reach (step 2) intSizes initSys s ∧
    DecodesFault 2 0 0x60000000 (s.host 0).mem := by
  obtain ⟨s, hs, hnum⟩ := reach_one_page
  refine ⟨s, hs, (fault_address_iff hs 0 (by decide) (by decide)).mpr fun k hk j hj hin => ?_⟩
  simp only [InPage, pageSize, startAddress] at hin
  omega

end Midsm
