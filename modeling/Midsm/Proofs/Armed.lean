import Midsm.Proofs.Awaited
import Midsm.Proofs.EnterInfo
import Midsm.Proofs.PageState

/-!
# Writable pages in the system

`PageState` follows one host that is sent what it asked for, and no packet about
itself. In a run of the whole system a host can be sent its own notices back, and
then an own notice can lack its diff on a page that is not `WRITE`. What remains
true of every reachable host is what `incorporateWnPacket` needs to invalidate a
page: a mapped page has an address, and a `WRITE` page has a twin and an own notice.
No other page has a twin, so what a handler reads to make a diff it may read.
-/

namespace Midsm

open Midsm.Lib

structure Page.Armed (me : Nat) (page : Page) : Prop where
  address : page.state ≠ .unmap → page.address ≠ 0
  twin : page.twinPage ≠ none ↔ page.state = .write
  noted : page.state = .write → page.notices me ≠ []

structure Mem.Armed (me : Nat) (m : Mem) : Prop where
  page : ∀ p, (m.pageArray p).Armed me
  bound : ∀ p, (m.pageArray p).state = .write → p < maxPageNum

section

variable {n me p : Nat} {m m' : Mem} {page page' : Page}

theorem Page.Armed.congr (h : page.Armed me) (ha : page'.address = page.address)
    (hs : page'.state = page.state) (ht : page'.twinPage = page.twinPage)
    (hn : page.notices me ≠ [] → page'.notices me ≠ []) : page'.Armed me where
  address := by
    rw [hs, ha]
    exact h.address
  twin := by
    rw [hs, ht]
    exact h.twin
  noted hw := hn (h.noted (hs.symm.trans hw))

theorem Page.Armed.no_twin (h : page.Armed me) (hw : page.state ≠ .write) :
    page.twinPage = none := by
  by_contra ht
  exact hw (h.twin.mp ht)

/-- A mapped page that is not `WRITE` any more. -/
theorem Page.Armed.close (h : page.Armed me) (hu : page.state ≠ .unmap)
    (ha : page'.address = page.address) (ht : page'.twinPage = none)
    (hw : page'.state ≠ .write) : page'.Armed me where
  address _ := by
    rw [ha]
    exact h.address hu
  twin := ⟨fun hno => absurd ht hno, fun hs => absurd hs hw⟩
  noted hs := absurd hs hw

theorem Mem.Armed.congr (h : m.Armed me) (hp : m'.pageArray = m.pageArray) : m'.Armed me where
  page q := by
    rw [hp]
    exact h.page q
  bound q := by
    rw [hp]
    exact h.bound q

theorem Mem.Armed.setPage (h : m.Armed me) (hp : page.Armed me)
    (hb : page.state = .write → p < maxPageNum) : (m.setPage p page).Armed me where
  page q := by
    by_cases hq : q = p
    · rw [hq, setPage_self]
      exact hp
    · rw [setPage_ne hq]
      exact h.page q
  bound q := by
    by_cases hq : q = p
    · rw [hq, setPage_self]
      exact hb
    · rw [setPage_ne hq]
      exact h.bound q

/-- Only the notices, the start interval and the content of one page change. -/
theorem Mem.Armed.setData (h : m.Armed me) (hm : m'.pageArray = upd m.pageArray p page)
    (ha : page.address = (m.pageArray p).address) (hs : page.state = (m.pageArray p).state)
    (ht : page.twinPage = (m.pageArray p).twinPage)
    (hn : (m.pageArray p).notices me ≠ [] → page.notices me ≠ []) : m'.Armed me :=
  (h.setPage ((h.page p).congr ha hs ht hn) fun hw => h.bound p (hs.symm.trans hw)).congr hm

theorem Mem.Armed.setState (h : m.Armed me) (hu : (m.pageArray p).state ≠ .unmap)
    (hw : (m.pageArray p).state ≠ .write) (state : PageState) (prot : Prot)
    (hw' : state ≠ .write) :
    (m.setPage p { m.pageArray p with state := state, prot := prot }).Armed me :=
  h.setPage ((h.page p).close hu rfl ((h.page p).no_twin hw) hw') fun hs => absurd hs hw'

/-! ## The main thread -/

theorem allocPage_armed (n : Nat) (h : m.Armed me)
    (hu : (m.pageArray m.pagenum).state = .unmap) : (allocPage n me m).Armed me := by
  have hstate : (if m.pagenum % n = me then PageState.rdonly else .miss) ≠ .write := by
    split <;> exact nofun
  have ht := (h.page m.pagenum).no_twin (by rw [hu]; exact nofun)
  have hpage : Page.Armed me { m.pageArray m.pagenum with
      state := if m.pagenum % n = me then .rdonly else .miss
      address := startAddress + m.globalAddress
      prot := if m.pagenum % n = me then .read else (m.pageArray m.pagenum).prot } := by
    refine ⟨fun _ => ?_, ⟨fun hno => absurd ht hno, fun hs => absurd hs hstate⟩,
      fun hs => absurd hs hstate⟩
    have : 0 < startAddress := by decide
    dsimp only
    omega
  exact (h.setPage (p := m.pagenum) hpage fun hs => absurd hs hstate).congr rfl

theorem miAlloc_armed (n : Nat) (size : Int) (h : m.Armed me)
    (hu : ∀ q, m.pagenum ≤ q → (m.pageArray q).state = .unmap) :
    (miAlloc n me size m).2.Armed me := by
  have hpages : ∀ (k : Nat) {m : Mem}, m.Armed me →
      (∀ q, m.pagenum ≤ q → (m.pageArray q).state = .unmap) → (allocPages n me k m).Armed me := by
    intro k
    induction k with
    | zero => exact fun h _ => h
    | succ k ih =>
        intro m h hu
        refine ih (allocPage_armed n h (hu _ (Nat.le_refl _))) fun q hq => ?_
        have hq : m.pagenum + 1 ≤ q := hq
        rw [← hu q (by omega)]
        exact congrArg Page.state (upd_ne (by omega))
  unfold miAlloc
  split
  · exact h
  · dsimp only
    split
    · exact h
    · exact hpages _ h hu

theorem createTwinPage_rdonly (h : m.Armed me) (hp : p < maxPageNum)
    (hs : (m.pageArray p).state = .rdonly) : (createTwinPage p m).2 =
      m.setPage p { m.pageArray p with twinPage := some (m.pageArray p).content } := by
  have ha : (m.pageArray p).address ≠ 0 := (h.page p).address (by rw [hs]; exact nofun)
  have ht := (h.page p).no_twin (by rw [hs]; exact nofun)
  unfold createTwinPage
  dsimp only
  rw [if_neg (by omega), if_neg (by simp [hs]), if_neg (by simp [ha, ht])]

/-- A store to a `RDONLY` page, up to the store itself. -/
theorem segvHandler_rdonly_armed (h : m.Armed me) (hs : (m.pageArray p).state = .rdonly)
    {out : Out} {pc : Pc} (he : segvHandler n me p m = some (m', out, pc)) : m'.Armed me := by
  obtain ⟨hp, -, -, rfl⟩ := segvHandler_first hs he
  have ha : (m.pageArray p).address ≠ 0 := (h.page p).address (by rw [hs]; exact nofun)
  rw [createTwinPage_rdonly h hp hs]
  unfold createWriteNotice
  dsimp only
  rw [if_neg (by omega), if_neg (by rw [setPage_self]; exact not_not.mpr hs)]
  have hpage : Page.Armed me { m.pageArray p with
      twinPage := some (m.pageArray p).content
      notices := upd (m.pageArray p).notices me
        (⟨(m.now me).timestamp, none⟩ :: (m.pageArray p).notices me)
      state := .write
      prot := .readWrite } := by
    refine ⟨fun _ => ha, ⟨fun _ => rfl, fun _ => nofun⟩, fun _ => ?_⟩
    dsimp only
    rw [upd_self]
    exact nofun
  refine (h.setPage (p := p) hpage fun _ => hp).congr ?_
  dsimp only [Mem.setPage]
  simp only [upd_upd, upd_self]
  rfl

theorem requestDiff_armed (h : m.Armed me) (hi : (m.pageArray p).state = .invalid)
    (pts : Option Timestamp) (request : Option (Nat × Timestamp × Nat)) :
    (requestDiff p pts request m).1.Armed me := by
  cases request with
  | some x => exact h.congr rfl
  | none => exact h.setState (by rw [hi]; exact nofun) (by rw [hi]; exact nofun) .rdonly .read nofun

theorem segvHandler_armed (h : m.Armed me) {out : Out} {pc : Pc}
    (he : segvHandler n me p m = some (m', out, pc)) : m'.Armed me := by
  by_cases hp : maxPageNum ≤ p
  · rw [segvHandler, if_pos hp] at he
    cases he
  · cases hs : (m.pageArray p).state with
    | rdonly => exact segvHandler_rdonly_armed h hs he
    | miss =>
        simp only [segvHandler, if_neg hp, hs] at he
        split at he
        · next hf =>
            cases he
            obtain ⟨_, -, rfl, -⟩ := fetchPage_eq_some hf
            exact h.congr rfl
        · cases he
          exact h.setState (by simp [hs]) (by simp [hs]) .rdonly .read (by simp)
    | write =>
        simp only [segvHandler, if_neg hp, hs] at he
        cases he
        exact h
    | invalid =>
        simp only [segvHandler, if_neg hp, hs] at he
        have hi : (fetchDiff n me p m).1.Armed me :=
          requestDiff_armed h hs _ _
        rw [Option.some.injEq] at he
        rw [he] at hi
        exact hi
    | unmap =>
        simp only [segvHandler, if_neg hp, hs] at he
        cases he

/-! ## A step of a host -/

variable {h : Host} {r : Host × Out} {l : Int}

theorem LockCase.pages (hc : LockCase n me l h r) : r.1.mem.pageArray = h.mem.pageArray := by
  cases hc <;> rfl

theorem UnlockCase.pages (hc : UnlockCase n me l h r) :
    r.1.mem.pageArray = h.mem.pageArray := by
  cases hc <;> rfl

theorem ResumeCase.pages (hc : ResumeCase n me l h r) :
    r.1.mem.pageArray = h.mem.pageArray := by
  cases hc with
  | skip => rw [(lockReturn_mem l _ h).1]
  | fetch | back | fresh => rfl

theorem miBarrier_pages (n me : Nat) (h : Host) :
    (miBarrier n me h).1.mem.pageArray = h.mem.pageArray := by
  by_cases hme : me = 0
  · subst hme
    rcases miBarrier_zero_cases n h with he | ⟨-, he⟩
    · rw [he]
      rfl
    · rw [he]
      rfl
  · unfold miBarrier
    rw [if_neg hme]

theorem fault_armed (ha : h.mem.Armed me) (hr : h.fault n me p = some r) :
    r.1.mem.Armed me := by
  obtain ⟨x, hx, rfl⟩ := Option.map_eq_some_iff.mp hr
  exact segvHandler_armed ha hx

theorem storeBytes_armed (ha : m.Armed me) (o : Nat) (bytes : List Byte) :
    (m.storeBytes p o bytes).Armed me :=
  ha.setData rfl rfl rfl rfl id

/-- What follows a wait. -/
theorem resume_armed (ha : h.mem.Armed me) (hg : Guards h.mem h.pc)
    (hr : h.resume n me = some r) : r.1.mem.Armed me := by
  unfold Host.resume at hr
  split at hr
  · cases hr
  · split at hr
    · cases hr
    · cases hr
      exact ha.congr (miLockResume_cases n me _ h).pages
  · split at hr
    · cases hr
    · cases hr
      exact ha.congr (by rw [(lockReturn_mem _ _ h).1])
  · split at hr
    · cases hr
    · cases hr
      exact ha
  · next q hpc =>
      split at hr
      · cases hr
      · cases hr
        have hm := hg.miss q hpc
        exact ha.setState (by simp [hm]) (by simp [hm]) .rdonly .read (by simp)
  · next q pts i rest hpc =>
      split at hr
      · cases hr
      · cases hr
        exact requestDiff_armed ha (hg.invalid q pts i rest hpc) _ _

theorem exec_armed {op : Op} (ha : h.mem.Armed me) (hg : Guards h.mem h.pc)
    (hu : ∀ q, h.mem.pagenum ≤ q → (h.mem.pageArray q).state = .unmap)
    (hr : h.exec n me op = some r) : r.1.mem.Armed me := by
  by_cases hop : op = .resume
  · subst hop
    exact resume_armed ha hg hr
  · have hpc := exec_run hop hr
    cases op <;> simp only [Host.exec, hpc] at hr
    case resume => exact absurd rfl hop
    case alloc size =>
      cases hr
      exact miAlloc_armed n _ ha hu
    case load p o len =>
      unfold Host.load at hr
      split at hr
      · cases hr
        exact ha
      · exact fault_armed ha hr
    case store p o bytes =>
      unfold Host.store at hr
      split at hr
      · cases hr
        exact storeBytes_armed ha o bytes
      · obtain ⟨x, hx, rfl⟩ := Option.map_eq_some_iff.mp hr
        have hfault := fault_armed ha hx
        dsimp only
        split
        · exact storeBytes_armed hfault o bytes
        · exact hfault
    case lock l =>
      cases hr
      exact ha.congr (miLock_cases n me l h).pages
    case unlock l =>
      cases hr
      exact ha.congr (miUnlock_cases n me l h).pages
    case barrier =>
      cases hr
      exact ha.congr (miBarrier_pages n me h)

/-! ## A message -/

theorem setDiff_ne_nil {ts : Timestamp} {diff : Option Content} {list : List WriteNotice}
    (hl : list ≠ []) : setDiff ts diff list ≠ [] := by
  intro he
  have := congrArg (List.map WriteNotice.timestamp) he
  rw [setDiff_keys, List.map_nil, List.map_eq_nil_iff] at this
  exact hl this

theorem upd_ne_nil {lists : Nat → List WriteNotice} {i j : Nat} {list : List WriteNotice}
    (hl : lists i ≠ [] → list ≠ []) (h : lists j ≠ []) : upd lists i list j ≠ [] := by
  by_cases hj : j = i
  · rw [hj] at h ⊢
    rw [upd_self]
    exact hl h
  · rwa [upd_ne hj]

/-- The twin of a `WRITE` page goes, whatever has become of its state meanwhile. -/
theorem Mem.Armed.freeTwinPage (ha : m.Armed me) (hs : (m.pageArray p).state = .write)
    (hadr : page.address = (m.pageArray p).address)
    (ht : page.twinPage = (m.pageArray p).twinPage) (hl : page.Live) :
    (Midsm.freeTwinPage p (m.setPage p page)).2 = m.setPage p { page with twinPage := none } := by
  have hmapped : (m.pageArray p).state ≠ .unmap := by rw [hs]; exact nofun
  rw [freeTwinPage_succeeds (ha.bound p hs), setPage_self, setPage_setPage]
  · rw [setPage_self]
    exact hl
  · rw [setPage_self, hadr]
    exact (ha.page p).address hmapped
  · rw [setPage_self, ht]
    exact (ha.page p).twin.mpr hs

/-- A `WRITE` page that has lost its twin is another one afterwards. -/
theorem Mem.Armed.shut (ha : m.Armed me) (hs : (m.pageArray p).state = .write)
    (hadr : page.address = (m.pageArray p).address) (ht : page.twinPage = none)
    (hw : page.state ≠ .write) : (m.setPage p page).Armed me :=
  ha.setPage ((ha.page p).close (by rw [hs]; exact nofun) hadr ht hw) fun h => absurd h hw

theorem invalidatePage_armed (ha : m.Armed me) : (invalidatePage me p m).Armed me := by
  unfold invalidatePage
  dsimp only
  split
  · next hs => exact ha.setState (by simp [hs]) (by simp [hs]) .invalid .none (by simp)
  · next hs =>
      rw [ha.freeTwinPage hs, setPage_self, setPage_setPage]
      · exact ha.shut hs rfl rfl (by simp)
      · rfl
      · rfl
      · simp [Page.Live]
  · exact ha

theorem incorporateNotice_armed (ha : m.Armed me) (j : Nat) (ts : Timestamp) (p : Nat) :
    (incorporateNotice me j ts m p).Armed me := by
  rw [incorporateNotice_eq]
  split
  · exact ha
  · have hi := invalidatePage_armed (p := p) ha
    exact hi.setData rfl rfl rfl rfl (upd_ne_nil fun _ => List.cons_ne_nil _ _)

theorem incorporateWnPacket_armed (ha : m.Armed me) (packet : WnPacket) :
    (incorporateWnPacket me m packet).Armed me := by
  have hfold : ∀ (pages : List Nat) {m : Mem}, m.Armed me →
      (pages.foldl (incorporateNotice me packet.hostid packet.timestamp) m).Armed me := by
    intro pages
    induction pages with
    | nil => exact fun ha => ha
    | cons p pages ih => exact fun ha => ih (incorporateNotice_armed ha _ _ p)
  refine hfold _ ?_
  unfold enterInterval
  dsimp only
  split
  · exact ha
  · exact ha.congr rfl

theorem incorporatePackets_armed (ha : m.Armed me) (k : Nat) (packets : List WnPacket) :
    (incorporatePackets me k packets m).Armed me := by
  unfold incorporatePackets
  induction packets.take k generalizing m with
  | nil => exact ha
  | cons packet packets ih => exact ih (incorporateWnPacket_armed ha packet)

theorem grantDiff_armed (ha : m.Armed me) (hostid : Nat) (ts : Timestamp) :
    (grantDiff n me hostid ts p m).2.1.Armed me := by
  have hmake : (makeDiff me p ts m).Armed me := by
    unfold makeDiff
    dsimp only
    split
    · next hs =>
        rw [ha.freeTwinPage hs, setPage_self, setPage_setPage]
        · exact ha.shut hs rfl rfl (by simp)
        · rfl
        · rfl
        · simp [Page.Live, hs]
    · exact ha.setData rfl rfl rfl rfl (upd_ne_nil setDiff_ne_nil)
  unfold grantDiff
  dsimp only
  repeat' split
  all_goals first | exact ha | exact hmake

theorem handleGrantDiffMsg_armed (ha : m.Armed me) (sender : Nat) (ts : Timestamp)
    (diff : Content) : (handleGrantDiffMsg sender ts p diff m).Armed me := by
  unfold handleGrantDiffMsg
  dsimp only
  split
  · exact ha.congr rfl
  · refine ha.setData rfl rfl rfl rfl (upd_ne_nil ?_)
    split
    · exact id
    · exact setDiff_ne_nil

theorem PageRead.armed {sender : Nat} (hc : PageRead n me sender p h r)
    (ha : h.mem.Armed me) : r.1.mem.Armed me := by
  cases hc with
  | refused | sent | killed => exact ha
  | opened _ _ _ _ _ _ _ hseg => exact segvHandler_armed ha hseg
  | hangs _ _ _ _ _ _ hseg => exact segvHandler_armed ha hseg

theorem ReadMem.armed {sender : Nat} {msg : Msg} (hc : ReadMem n me sender h msg r)
    (ha : h.mem.Armed me) : r.1.mem.Armed me := by
  cases hc with
  | keep _ _ hm => rwa [hm]
  | release _ _ hm =>
      rw [hm]
      exact ha.congr rfl
  | data hmsg =>
      cases msg with
      | acqLock | rlsLock | grantLock | enterBarrier | exitBarrier =>
          rcases hmsg with hmsg | hmsg | hmsg <;> cases hmsg
      | fetchPage p => exact (dispatch_fetchPage n me sender p h).armed ha
      | fetchWnI => exact ha
      | grantDiff ts p diff => exact handleGrantDiffMsg_armed ha _ _ _
      | grantPage p content =>
          exact ha.setData rfl rfl rfl rfl id
      | fetchDiff p ts => exact grantDiff_armed ha _ _
      | grantWnI ts k packets =>
          have hpush : (h.mem.pushNow me ⟨bump me ts, [], false⟩).Armed me := ha.congr rfl
          exact (incorporatePackets_armed hpush k packets).congr rfl
      | grantEnterBarrierInfo ts k packets =>
          refine incorporatePackets_armed ?_ k packets
          split
          · exact ha.congr rfl
          · exact ha
      | grantExitBarrierInfo ts k packets =>
          refine incorporatePackets_armed ?_ k packets
          split
          · exact ha.congr rfl
          · exact ha

end

/-! ## The system -/

theorem filing_unique : Filing fun list => (list.map Interval.timestamp).Nodup where
  notice {ts p list} h _ := by
    have hkeys : (appendNotice ts p list).map Interval.timestamp =
        list.map Interval.timestamp := by
      have := congrArg (List.map Prod.fst) (appendNotice_shape ts p list)
      rwa [List.map_map, List.map_map] at this
    rwa [hkeys]
  interval {ts list} h hne := by
    rw [List.map_cons, List.nodup_cons]
    refine ⟨fun hm => ?_, h⟩
    obtain ⟨interval, hm, he⟩ := List.mem_map.mp hm
    exact hne interval hm he

/-- What a reachable host knows of the others is kept by timestamp, and its pages are
armed. -/
structure Filled (n : Nat) (s : Sys) : Prop where
  awaited : Awaited n s
  armed : ∀ x, (s.host x).mem.Armed x
  unique : ∀ x j, j ≠ x → (((s.host x).mem.procArray j).map Interval.timestamp).Nodup

theorem Filled.sound {n : Nat} {s : Sys} (h : Filled n s) : Sound n s := h.awaited.answered.sound

theorem Filled.init (n : Nat) : Filled n initSys where
  awaited := Awaited.init n
  armed _ := ⟨fun _ => ⟨fun h => absurd rfl h, ⟨fun h => absurd rfl h, nofun⟩, nofun⟩, nofun⟩
  unique x j hj := by
    simp only [initSys, initmem, upd_ne hj]
    exact List.nodup_nil

theorem Filled.step {n : Nat} {s s' : Sys} (h : Filled n s) {e : Event}
    (hs : Midsm.step n s e = some s') : Filled n s' := by
  refine ⟨h.awaited.step hs, fun x => ?_, filing_unique.step h.sound h.unique hs⟩
  have hput : ∀ {t : Sys} {a : Nat} {r : Host × Out}, t.host = s.host →
      r.1.mem.Armed a → ((t.put a r).host x).mem.Armed x := by
    intro t a r ht hr
    by_cases hx : x = a
    · rw [hx, put_host_self]
      exact hr
    · rw [put_host_ne hx, ht]
      exact h.armed x
  obtain ⟨a, op, r, rfl, ha, he, rfl⟩ |
    ⟨a, b, msg, rest, rfl, ha, hb, hne, hnet, rfl⟩ := step_cases hs
  · exact hput rfl (exec_armed (h.armed a) (h.awaited.guards a) (h.sound.beyond a ha) he)
  · exact hput rfl ((dispatch_mem n b a msg (s.host b)).armed (h.armed b))

theorem filled_of_reach {n : Nat} {s : Sys} (h : Reach (step n) anyStep initSys s) :
    Filled n s := h.invariant (Filled.init n) fun ht _ hs => ht.step hs

/-- A page with a twin is writable: no handler faults when it makes a diff. -/
theorem Filled.twin_writable {n : Nat} {s : Sys} (h : Filled n s) {x p : Nat}
    (ht : ((s.host x).mem.pageArray p).twinPage ≠ none) :
    ((s.host x).mem.pageArray p).prot = .readWrite := by
  have hw := ((h.armed x).page p).twin.mp ht
  rw [((h.awaited.guards x).page p).prot_eq (by rw [hw]; exact nofun), hw]
  rfl

end Midsm
