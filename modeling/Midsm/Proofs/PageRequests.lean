import Midsm.Proofs.Requests

/-!
# Requests for pages

A fault on a `MISS` page asks the page's home, or the owner of a notice, for the
whole page, and spins as for a diff. An owner of a notice has the page. The home
has it once it has allocated it, which its requester may have done long before.
What the main thread and the handlers do about this exchange is said here; what
follows for every run is in `GrantedPages`.
-/

namespace Midsm

open Midsm.Lib

def pageExchange : Exchange where
  isRequest msg := match msg with
    | .fetchPage _ => true
    | _ => false
  isReply msg := match msg with
    | .grantPage _ _ => true
    | _ => false
  flag m := m.fetchPageWaitFlag
  waits h := match h.pc with
    | .pageWait _ => true
    | _ => false

theorem pageExchange_ofData : pageExchange.OfData := by
  intro msg h
  cases msg <;> first | exact ⟨rfl, rfl⟩ | exact absurd rfl h

/-! ## Steps that neither allocate nor ask for a page -/

structure Mem.SamePages (m m' : Mem) : Prop where
  pagenum : m'.pagenum = m.pagenum
  flag : m'.fetchPageWaitFlag = m.fetchPageWaitFlag

section

variable {n me p : Nat} {m m' m'' : Mem} {h : Host} {r : Host × Out}

theorem Mem.SamePages.refl (m : Mem) : m.SamePages m := ⟨rfl, rfl⟩

theorem Mem.SamePages.trans (h₁ : m.SamePages m') (h₂ : m'.SamePages m'') :
    m.SamePages m'' := ⟨h₂.pagenum.trans h₁.pagenum, h₂.flag.trans h₁.flag⟩

theorem setPage_samePages (p : Nat) (page : Page) (m : Mem) :
    m.SamePages (m.setPage p page) := ⟨rfl, rfl⟩

theorem createTwinPage_samePages (p : Nat) (m : Mem) :
    m.SamePages (createTwinPage p m).2 := by
  unfold createTwinPage
  dsimp only
  split
  · exact .refl m
  · split
    · exact .refl m
    · split <;> exact ⟨rfl, rfl⟩

theorem freeTwinPage_samePages (p : Nat) (m : Mem) : m.SamePages (freeTwinPage p m).2 := by
  unfold freeTwinPage
  dsimp only
  split
  · exact .refl m
  · split
    · exact .refl m
    · split <;> exact ⟨rfl, rfl⟩

theorem createWriteNotice_samePages (me p : Nat) (m : Mem) :
    m.SamePages (createWriteNotice me p m).2 := by
  unfold createWriteNotice
  dsimp only
  split
  · exact .refl m
  · split <;> exact ⟨rfl, rfl⟩

theorem makeDiff_samePages (ts : Timestamp) : m.SamePages (makeDiff me p ts m) := by
  unfold makeDiff
  dsimp only
  split
  · exact (setPage_samePages p _ m).trans
      ((freeTwinPage_samePages p _).trans (setPage_samePages p _ _))
  · exact setPage_samePages p _ m

theorem grantDiff_samePages (hostid : Nat) (ts : Timestamp) :
    m.SamePages (grantDiff n me hostid ts p m).2.1 := by
  unfold grantDiff
  dsimp only
  split
  · exact .refl m
  · split
    · exact .refl m
    · split
      · exact .refl m
      · split
        · exact .refl m
        · dsimp only
          split
          · exact .refl m
          · exact makeDiff_samePages ts

theorem handleGrantDiffMsg_samePages (sender : Nat) (ts : Timestamp) (diff : Content) :
    m.SamePages (handleGrantDiffMsg sender ts p diff m) := by
  unfold handleGrantDiffMsg
  dsimp only
  split <;> exact ⟨rfl, rfl⟩

theorem invalidatePage_samePages (me p : Nat) (m : Mem) :
    m.SamePages (invalidatePage me p m) := by
  unfold invalidatePage
  dsimp only
  split
  · exact setPage_samePages p _ m
  · exact (setPage_samePages p _ m).trans
      ((freeTwinPage_samePages p _).trans (setPage_samePages p _ _))
  · exact .refl m

theorem incorporateNotice_samePages (me hostid p : Nat) (ts : Timestamp) (m : Mem) :
    m.SamePages (incorporateNotice me hostid ts m p) := by
  unfold incorporateNotice
  split
  · exact .refl m
  · exact (invalidatePage_samePages me p m).trans ⟨rfl, rfl⟩

/-- What every round of a loop keeps, the loop keeps. -/
theorem Mem.SamePages.foldl {α : Type} {f : Mem → α → Mem}
    (hf : ∀ (m : Mem) x, m.SamePages (f m x)) (list : List α) (m : Mem) :
    m.SamePages (list.foldl f m) := by
  induction list generalizing m with
  | nil => exact .refl m
  | cons x rest ih => exact (hf m x).trans (ih (f m x))

theorem incorporateWnPacket_samePages (me : Nat) (m : Mem) (packet : WnPacket) :
    m.SamePages (incorporateWnPacket me m packet) := by
  refine Mem.SamePages.trans ?_
    (.foldl (fun m p => incorporateNotice_samePages me packet.hostid p packet.timestamp m) _ _)
  unfold enterInterval
  dsimp only
  split <;> exact ⟨rfl, rfl⟩

theorem incorporatePackets_samePages (me k : Nat) (packets : List WnPacket) (m : Mem) :
    m.SamePages (incorporatePackets me k packets m) :=
  .foldl (incorporateWnPacket_samePages me) _ m

theorem lockReturn_samePages (l : Int) (path : LockPath) (h : Host) :
    h.mem.SamePages (lockReturn l path h).mem := by
  rw [(lockReturn_mem l path h).1]
  exact .refl _

/-! ## The main thread -/

/-- What a segment of the main thread does about pages that are asked for. -/
inductive PageCall (n me : Nat) (h : Host) (r : Host × Out) : Prop
  | alloc (size : Int) : h.pc = .run → r.1.mem = (miAlloc n me size h.mem).2 →
      r.1.pc = h.pc → r.2 = [] → PageCall n me h r
  | rest : h.mem.SamePages r.1.mem →
      (pageExchange.waits h = true → h.mem.fetchPageWaitFlag = false) →
      (∀ x ∈ r.2, pageExchange.isRequest x.2 = false ∧ pageExchange.isReply x.2 = false) →
      PageCall n me h r
  | ask (p dest : Nat) : h.pc = .run → p < maxPageNum →
      (h.mem.pageArray p).state = .miss →
      fetchPageDest n me p (h.mem.pageArray p) = some dest →
      r.1.mem = { h.mem with fetchPageWaitFlag := true } → r.1.pc = .pageWait p →
      r.2 = [(dest, .fetchPage p)] → PageCall n me h r

theorem PageCall.quiet (hm : h.mem.SamePages r.1.mem)
    (hpc : pageExchange.waits h = false) (hout : ∀ x ∈ r.2,
      pageExchange.isRequest x.2 = false ∧ pageExchange.isReply x.2 = false) :
    PageCall n me h r :=
  .rest hm (fun hw => (by rw [hpc] at hw; cases hw)) hout

theorem pageExchange_idle (hf : h.pc.faulting = none) : pageExchange.waits h = false := by
  unfold pageExchange
  dsimp only
  split
  · next hpc =>
      rw [hpc] at hf
      cases hf
  · rfl

theorem requestDiff_pages (ts : Option Timestamp)
    (request : Option (Nat × Timestamp × Nat)) (m : Mem) :
    m.SamePages (requestDiff p ts request m).1 ∧ ∀ x ∈ (requestDiff p ts request m).2.1,
      pageExchange.isRequest x.2 = false ∧ pageExchange.isReply x.2 = false := by
  cases request with
  | none => exact ⟨⟨rfl, rfl⟩, fun x hx => nomatch hx⟩
  | some request =>
      refine ⟨⟨rfl, rfl⟩, fun x hx => ?_⟩
      rw [List.mem_singleton.mp hx]
      exact ⟨rfl, rfl⟩

/-- A fault asks for the page if it is `MISS`, and then for nothing else. -/
theorem segvHandler_page {out : Out} {pc : Pc}
    (h : segvHandler n me p m = some (m', out, pc)) :
    (m.SamePages m' ∧ ∀ x ∈ out,
      pageExchange.isRequest x.2 = false ∧ pageExchange.isReply x.2 = false) ∨
    ∃ dest, p < maxPageNum ∧ (m.pageArray p).state = .miss ∧
      fetchPageDest n me p (m.pageArray p) = some dest ∧
      m' = { m with fetchPageWaitFlag := true } ∧ out = [(dest, .fetchPage p)] ∧
      pc = .pageWait p := by
  have hfirst := fun hst => segvHandler_first hst h
  unfold segvHandler at h
  split at h
  · cases h
  · next hp =>
      cases hst : (m.pageArray p).state <;> simp only [hst] at h
      case rdonly =>
        obtain ⟨-, rfl, rfl, rfl⟩ := hfirst hst
        refine Or.inl ⟨?_, fun x hx => nomatch hx⟩
        exact (createTwinPage_samePages p _).trans
          ((createWriteNotice_samePages me p _).trans (setPage_samePages p _ _))
      case miss =>
        split at h
        · next hf =>
            cases h
            obtain ⟨dest, hd, rfl, rfl⟩ := fetchPage_eq_some hf
            exact Or.inr ⟨dest, by omega, rfl, hd, rfl, rfl, rfl⟩
        · cases h
          exact Or.inl ⟨setPage_samePages p _ m, fun x hx => nomatch hx⟩
      case write =>
        cases h
        exact Or.inl ⟨.refl m, fun x hx => nomatch hx⟩
      case invalid =>
        rw [fetchDiff, Option.some.injEq] at h
        have hq := requestDiff_pages (p := p) (m.pageArray p).startInterval
          (nextDiffHost n me (m.pageArray p).startInterval (m.pageArray p)
            (List.range n)) m
        rw [h] at hq
        exact Or.inl hq
      case unmap => cases h

theorem Host.fault_page (hpc : h.pc = .run) (hr : h.fault n me p = some r) :
    PageCall n me h r := by
  obtain ⟨⟨m', out, pc⟩, hx, rfl⟩ := Option.map_eq_some_iff.mp hr
  rcases segvHandler_page hx with ⟨hm, ho⟩ | ⟨dest, hp, hst, hd, rfl, rfl, rfl⟩
  · exact .quiet hm (pageExchange_idle (by rw [hpc]; rfl)) ho
  · exact .ask p dest hpc hp hst hd rfl rfl rfl

theorem Host.load_page (hpc : h.pc = .run) (hr : h.load n me p = some r) :
    PageCall n me h r := by
  have hsame : PageCall n me h (h, []) :=
    .quiet (.refl _) (pageExchange_idle (by rw [hpc]; rfl)) fun x hx => nomatch hx
  unfold Host.load at hr
  split at hr
  · cases hr
    exact hsame
  · exact Host.fault_page hpc hr

theorem Host.store_page {o : Nat} {bytes : List Byte} (hpc : h.pc = .run)
    (hr : h.store n me p o bytes = some r) : PageCall n me h r := by
  have hidle : pageExchange.waits h = false := pageExchange_idle (by rw [hpc]; rfl)
  unfold Host.store at hr
  split at hr
  · cases hr
    exact .quiet (setPage_samePages p _ _) hidle fun x hx => nomatch hx
  · next hprot =>
      obtain ⟨y, hy, rfl⟩ := Option.map_eq_some_iff.mp hr
      have hfault := Host.fault_page hpc hy
      obtain ⟨⟨m', out, pc⟩, hx, rfl⟩ := Option.map_eq_some_iff.mp hy
      dsimp only
      split
      · next hopen =>
          rcases segvHandler_page hx with ⟨hm, ho⟩ | ⟨-, -, -, -, rfl, -, -⟩
          · exact .quiet (hm.trans (setPage_samePages p _ _)) hidle ho
          · exact absurd hopen hprot
      · exact hfault

theorem addNewInterval_samePages (n me : Nat) (m : Mem) :
    m.SamePages (addNewInterval n me m) := ⟨rfl, rfl⟩

theorem LockCase.page {l : Int} (hc : LockCase n me l h r) (hpc : h.pc = .run) :
    PageCall n me h r := by
  have hidle : pageExchange.waits h = false := pageExchange_idle (by rw [hpc]; rfl)
  cases hc with
  | refused => exact .quiet (.refl _) hidle fun x hx => nomatch hx
  | reject => exact .quiet (.refl _) hidle fun x hx => nomatch hx
  | queue => exact .quiet (.refl _) hidle fun x hx => nomatch hx
  | ask =>
      refine .quiet (.refl _) hidle fun x hx => ?_
      rw [List.mem_singleton.mp hx]
      exact ⟨rfl, rfl⟩
  | fetch =>
      refine .quiet ⟨rfl, rfl⟩ hidle fun x hx => ?_
      rw [List.mem_singleton.mp hx]
      exact ⟨rfl, rfl⟩
  | skip => exact .quiet (.refl _) hidle fun x hx => nomatch hx
  | fresh => exact .quiet (addNewInterval_samePages n me _) hidle fun x hx => nomatch hx

theorem ResumeCase.page {l : Int} (hc : ResumeCase n me l h r) (hpc : h.pc = .lockWait l) :
    PageCall n me h r := by
  have hidle : pageExchange.waits h = false := pageExchange_idle (by rw [hpc]; rfl)
  cases hc with
  | fetch =>
      refine .quiet ⟨rfl, rfl⟩ hidle fun x hx => ?_
      rw [List.mem_singleton.mp hx]
      exact ⟨rfl, rfl⟩
  | skip => exact .quiet (lockReturn_samePages l _ h) hidle fun x hx => nomatch hx
  | back => exact .quiet (.refl _) hidle fun x hx => nomatch hx
  | fresh => exact .quiet (addNewInterval_samePages n me _) hidle fun x hx => nomatch hx

theorem UnlockCase.page {l : Int} (hc : UnlockCase n me l h r) (hpc : h.pc = .run) :
    PageCall n me h r := by
  have hidle : pageExchange.waits h = false := pageExchange_idle (by rw [hpc]; rfl)
  cases hc with
  | refused => exact .quiet (.refl _) hidle fun x hx => nomatch hx
  | free syn result =>
      refine .quiet (addNewInterval_samePages n me _) hidle fun x hx => ?_
      dsimp only at hx
      split at hx
      · exact pageExchange_ofData _ (by rw [grantLock_cls _ _ x hx]; exact nofun)
      · cases hx
  | tell =>
      refine .quiet (addNewInterval_samePages n me _) hidle fun x hx => ?_
      rw [List.mem_singleton.mp hx]
      exact ⟨rfl, rfl⟩

theorem miBarrier_page (hpc : h.pc = .run) : PageCall n me h (miBarrier n me h) := by
  have hidle : pageExchange.waits h = false := pageExchange_idle (by rw [hpc]; rfl)
  by_cases hme : me = 0
  · subst hme
    rcases miBarrier_zero_cases n h with he | ⟨-, he⟩
    · rw [he]
      exact .quiet ⟨rfl, rfl⟩ hidle fun x hx => absurd hx List.not_mem_nil
    · rw [he]
      exact .quiet ⟨rfl, rfl⟩ hidle (pageExchange_ofData.out (release_not_data n _))
  · unfold miBarrier
    rw [if_neg hme]
    exact .quiet (.refl _) hidle (pageExchange_ofData.out (enter_cls n me h.mem))

theorem exec_page {op : Op} (hr : h.exec n me op = some r) : PageCall n me h r := by
  cases hpc : h.pc with
  | run =>
      cases op <;> simp only [Host.exec, hpc] at hr
      case alloc size => cases hr; exact .alloc size hpc rfl hpc.symm rfl
      case load p o len => exact Host.load_page hpc hr
      case store p o bytes => exact Host.store_page hpc hr
      case lock l => cases hr; exact (miLock_cases n me l h).page hpc
      case unlock l => cases hr; exact (miUnlock_cases n me l h).page hpc
      case barrier => cases hr; exact miBarrier_page hpc
      case resume => simp [Host.resume, hpc] at hr
  | lockWait l =>
      cases op <;> simp only [Host.exec, hpc, Host.resume] at hr <;> try cases hr
      split at hr
      · cases hr
      · cases hr; exact (miLockResume_cases n me l h).page hpc
  | wniWait l path =>
      cases op <;> simp only [Host.exec, hpc, Host.resume] at hr <;> try cases hr
      split at hr
      · cases hr
      · cases hr
        exact .quiet (lockReturn_samePages l path h) (pageExchange_idle (by rw [hpc]; rfl))
          fun x hx => absurd hx List.not_mem_nil
  | barrierWait =>
      cases op <;> simp only [Host.exec, hpc, Host.resume] at hr <;> try cases hr
      split at hr
      · cases hr
      · cases hr
        exact .quiet (.refl _) (pageExchange_idle (by rw [hpc]; rfl))
          fun x hx => absurd hx List.not_mem_nil
  | pageWait p =>
      cases op <;> simp only [Host.exec, hpc, Host.resume] at hr <;> try cases hr
      split at hr
      · cases hr
      · next hflag =>
          cases hr
          exact .rest (setPage_samePages p _ _) (fun _ => by simpa using hflag)
            fun x hx => absurd hx List.not_mem_nil
  | diffWait p ts i rest =>
      cases op <;> simp only [Host.exec, hpc, Host.resume] at hr <;> try cases hr
      split at hr
      · cases hr
      · cases hr
        obtain ⟨hm, ho⟩ := requestDiff_pages (p := p) ts _ h.mem
        exact .quiet hm (by simp [pageExchange, hpc]) ho

/-! ## The handlers -/

/-- A page that a host reads for another one is not one it asks for itself. -/
theorem PageRead.samePages {sender : Nat} (hc : PageRead n me sender p h r) :
    h.mem.SamePages r.1.mem := by
  have hseg : ∀ {m : Mem} {out : Out} {pc : Pc}, (h.mem.pageArray p).Live →
      segvHandler n me p h.mem = some (m, out, pc) → h.mem.SamePages m := by
    intro m out pc hlive hseg
    rcases segvHandler_page hseg with ⟨hm, -⟩ | ⟨-, -, hmiss, -⟩
    · exact hm
    · exact absurd hmiss hlive.2
  cases hc with
  | refused | sent | killed => exact .refl _
  | opened m _ _ _ hlive _ _ he => exact hseg hlive he
  | hangs m out pc hlive _ _ he => exact hseg hlive he

/-- Only the reply lowers the flag. -/
theorem ReadMem.pages {sender : Nat} {msg : Msg} (hc : ReadMem n me sender h msg r) :
    r.1.mem.pagenum = h.mem.pagenum ∧
      (pageExchange.isReply msg = false → h.mem.SamePages r.1.mem) := by
  suffices hsame : h.mem.SamePages r.1.mem ∨
      r.1.mem.pagenum = h.mem.pagenum ∧ pageExchange.isReply msg = true by
    rcases hsame with hm | ⟨hn, hreply⟩
    · exact ⟨hm.pagenum, fun _ => hm⟩
    · exact ⟨hn, fun hno => by rw [hreply] at hno; cases hno⟩
  cases hc with
  | keep _ _ hm _ _ =>
      rw [hm]
      exact Or.inl (.refl _)
  | release _ _ hm _ _ =>
      rw [hm]
      exact Or.inl ⟨rfl, rfl⟩
  | data hmsg =>
      cases msg with
      | acqLock | rlsLock | grantLock | enterBarrier | exitBarrier =>
          rcases hmsg with hmsg | hmsg | hmsg <;> cases hmsg
      | grantPage p content => exact Or.inr ⟨rfl, rfl⟩
      | grantWnI ts k packets =>
          have hm := incorporatePackets_samePages me k packets
            (h.mem.pushNow me ⟨bump me ts, [], false⟩)
          exact Or.inl ⟨hm.pagenum, hm.flag⟩
      | grantDiff ts p diff => exact Or.inl (handleGrantDiffMsg_samePages sender ts diff)
      | fetchPage p => exact Or.inl (dispatch_fetchPage n me sender p h).samePages
      | fetchWnI ts => exact Or.inl (.refl _)
      | fetchDiff p ts => exact Or.inl (grantDiff_samePages sender ts)
      | grantEnterBarrierInfo ts k packets =>
          refine Or.inl (Mem.SamePages.trans ?_ (incorporatePackets_samePages me k packets _))
          split <;> exact ⟨rfl, rfl⟩
      | grantExitBarrierInfo ts k packets =>
          refine Or.inl (Mem.SamePages.trans ?_ (incorporatePackets_samePages me k packets _))
          split <;> exact ⟨rfl, rfl⟩

/-- A host that has the page and can read it grants it. -/
theorem grantPage_answers {hostid : Nat} (hn : hostid < n) (hne : hostid ≠ me)
    (hp : p < maxPageNum) (hl : (m.pageArray p).Live) (hg : (m.pageArray p).prot ≠ .none)
    (nested : Bool) : grantPage n me hostid p nested m =
      (some 0, m, [(hostid, .grantPage p (m.pageArray p).content)]) := by
  unfold grantPage
  dsimp only
  rw [if_neg (by omega), if_neg hne, if_neg (by omega), if_neg fun h => h.elim hl.1 hl.2,
    if_pos hg]

/-- A host that has the page grants it, unless its handler hangs. -/
theorem dispatch_fetchPage_answers {sender : Nat} (hn : sender < n) (hne : sender ≠ me)
    (hp : p < maxPageNum) (hl : (h.mem.pageArray p).Live)
    (hh : (dispatchMsg n me sender (.fetchPage p) h).1.hung = false) :
    (dispatchMsg n me sender (.fetchPage p) h).2 =
      [(sender, .grantPage p (h.mem.pageArray p).content)] := by
  by_cases hg : (h.mem.pageArray p).prot = .none
  · have hnever : ∀ {m : Mem} {out : Out}, grantPage n me sender p h.pc.faulting.isSome h.mem =
        (none, m, out) → False := by
      intro m out he
      rw [dispatchMsg, he] at hh
      simp at hh
    simp only [dispatchMsg]
    generalize hres : grantPage n me sender p h.pc.faulting.isSome h.mem = res at hnever ⊢
    unfold grantPage at hres
    dsimp only at hres
    rw [if_neg (by omega), if_neg hne, if_neg (by omega), if_neg fun h => h.elim hl.1 hl.2,
      if_neg (not_not.mpr hg)] at hres
    split at hres
    · exact (hnever hres.symm).elim
    · split at hres
      · exact (hnever hres.symm).elim
      · split at hres
        · rw [← hres]
        · exact (hnever hres.symm).elim
      · exact (hnever hres.symm).elim
  · rw [dispatchMsg, grantPage_answers hn hne hp hl hg]

theorem ReadMem.page {sender : Nat} {msg : Msg} (hc : ReadMem n me sender h msg r)
    (hn : sender < n) (hne : sender ≠ me)
    (hk : ∀ p, msg = .fetchPage p → ∃ content, r.2 = [(sender, .grantPage p content)]) :
    pageExchange.Reads sender msg h r := by
  have hX := pageExchange_ofData
  have hpages := hc.pages
  have hkeep : r.1.pc = h.pc → pageExchange.waits h = true → pageExchange.waits r.1 = true :=
    fun hp hw => by
      unfold pageExchange at hw ⊢
      dsimp only at hw ⊢
      rwa [hp]
  cases hc with
  | keep hcls _ hm hp ho =>
      exact .rest (hX _ hcls).1 (hX _ hcls).2 (hpages.2 (hX _ hcls).2).flag (hkeep hp)
        (hX.out (asks_lock ho))
  | release _ _ hm hp ho =>
      exact .rest rfl rfl (hpages.2 rfl).flag (hkeep hp)
        (hX.out (by rw [ho]; exact release_not_data n h))
  | data hmsg =>
      cases msg with
      | acqLock | rlsLock | grantLock | enterBarrier | exitBarrier =>
          rcases hmsg with hmsg | hmsg | hmsg <;> cases hmsg
      | fetchPage p =>
          obtain ⟨content, ho⟩ := hk p rfl
          exact .serve (.grantPage p content) rfl rfl (hpages.2 rfl).flag (hkeep rfl) ho rfl rfl
      | grantPage p content => exact .done rfl rfl rfl rfl
      | fetchWnI ts =>
          obtain ⟨packets, ho, -⟩ := grantWNI_answers hn hne ts h.mem
          refine .rest rfl rfl rfl id fun x hx => ?_
          rw [dispatchMsg, ho] at hx
          rw [List.mem_singleton.mp hx]
          exact ⟨rfl, rfl⟩
      | fetchDiff p ts =>
          refine .rest rfl rfl (hpages.2 rfl).flag id fun x hx => ?_
          rcases grantDiff_out n me sender ts p h.mem with ho | ⟨diff, ho⟩ <;>
            rw [dispatchMsg, ho] at hx
          · cases hx
          · rw [List.mem_singleton.mp hx]
            exact ⟨rfl, rfl⟩
      | _ => exact .rest rfl rfl (hpages.2 rfl).flag id fun _ hx => absurd hx List.not_mem_nil

/-! ## The home of a page -/

/-- A host has the pages it is home to, as far as it has allocated. -/
def Mem.Homed (n me : Nat) (m : Mem) : Prop :=
  ∀ p, p % n = me → p < m.pagenum → (m.pageArray p).Live

theorem Mem.Homed.same (h : m.Homed n me) (hm : m'.pagenum = m.pagenum)
    (hl : ∀ p < m.pagenum, (m.pageArray p).Live → (m'.pageArray p).Live) :
    m'.Homed n me := fun p hp hlt => by
  rw [hm] at hlt
  exact hl p hlt (h p hp hlt)

theorem allocPages_homed (h : m.Homed n me) (k : Nat) :
    (allocPages n me k m).Homed n me := by
  induction k generalizing m with
  | zero => exact h
  | succ k ih =>
      refine ih fun p hp hlt => ?_
      unfold allocPage
      dsimp only
      by_cases hnew : p = m.pagenum
      · subst hnew
        rw [upd_self, if_pos hp]
        exact ⟨nofun, nofun⟩
      · rw [upd_ne hnew]
        have hlt' : p < m.pagenum + 1 := hlt
        exact h p hp (by omega)

theorem miAlloc_homed (h : m.Homed n me) (size : Int) :
    (miAlloc n me size m).2.Homed n me := by
  unfold miAlloc
  split
  · exact h
  · dsimp only
    split
    · exact h
    · exact allocPages_homed h _

theorem allocPages_pageFlag (k : Nat) (m : Mem) :
    (allocPages n me k m).fetchPageWaitFlag = m.fetchPageWaitFlag := by
  induction k generalizing m with
  | zero => rfl
  | succ k ih => exact ih (allocPage n me m)

theorem miAlloc_pageFlag (size : Int) (m : Mem) :
    (miAlloc n me size m).2.fetchPageWaitFlag = m.fetchPageWaitFlag := by
  unfold miAlloc
  split
  · rfl
  · dsimp only
    split
    · rfl
    · exact allocPages_pageFlag ..

theorem PageCall.homed (hc : PageCall n me h r) (hh : h.mem.Homed n me)
    (hl : ∀ p < h.mem.pagenum, (h.mem.pageArray p).Live → (r.1.mem.pageArray p).Live) :
    r.1.mem.Homed n me := by
  cases hc with
  | alloc size _ hm _ _ =>
      rw [hm]
      exact miAlloc_homed hh size
  | rest hm _ _ => exact hh.same hm.pagenum hl
  | ask _ _ _ _ _ _ hm _ _ => exact hh.same (by rw [hm]) hl

theorem PageCall.calls (hc : PageCall n me h r)
    (hd : ∀ p dest, (h.mem.pageArray p).state = .miss →
      fetchPageDest n me p (h.mem.pageArray p) = some dest → dest ≠ me) :
    pageExchange.Calls me h r := by
  have hrun : h.pc = .run → pageExchange.waits h = true →
      pageExchange.flag h.mem = false := fun hpc hw => by
    rw [pageExchange_idle (by rw [hpc]; rfl)] at hw
    cases hw
  cases hc with
  | alloc size hpc hm _ ho =>
      refine .rest ?_ (fun hu hw => ?_) (by rw [ho]; exact fun _ hx => nomatch hx)
      · rw [hm]
        exact miAlloc_pageFlag size h.mem
      · rw [hrun hpc hw] at hu
        cases hu
  | rest hm hidle ho =>
      refine .rest hm.flag (fun hu hw => ?_) ho
      rw [show pageExchange.flag h.mem = h.mem.fetchPageWaitFlag from rfl, hidle hw] at hu
      cases hu
  | ask p dest hpc _ hst hdest hm hpc' ho =>
      exact .ask dest _ (hd p dest hst hdest) (hrun hpc) (by rw [hm]; rfl)
        (by simp [pageExchange, hpc']) ho rfl rfl

/-! ## Where a request goes -/

theorem latestNotice_mem {page : Page} {hosts : List Nat}
    {latest : Option (Nat × Timestamp)} {i : Nat} {ts : Timestamp}
    (h : latestNotice n me page hosts latest = some (i, ts)) :
    latest = some (i, ts) ∨ i ∈ hosts ∧ i ≠ me ∧ ts ∈ page.keys i := by
  induction hosts generalizing latest with
  | nil => exact Or.inl h
  | cons j rest ih =>
      have hlater : ∀ {latest : Option (Nat × Timestamp)},
          latestNotice n me page rest latest = some (i, ts) → latest = some (i, ts) ∨
            i ∈ j :: rest ∧ i ≠ me ∧ ts ∈ page.keys i := fun h =>
        (ih h).imp id fun ⟨hm, hr⟩ => ⟨List.mem_cons_of_mem _ hm, hr⟩
      unfold latestNotice at h
      split at h
      · exact hlater h
      · next hj =>
          -- the head of `j`'s list, if it is taken, is one of its notices
          have htake : ∀ {wn : WriteNotice} {tail : List WriteNotice},
              page.notices j = wn :: tail →
              some (j, wn.timestamp) = some (i, ts) → i ∈ j :: rest ∧ i ≠ me ∧
                ts ∈ page.keys i := by
            intro wn tail hn he
            cases he
            refine ⟨List.mem_cons_self, hj, ?_⟩
            rw [Page.keys, hn]
            exact List.mem_cons_self
          split at h
          · exact hlater h
          · next hn => exact (hlater h).elim (fun he => Or.inr (htake hn he)) Or.inr
          · next hn =>
              split at h
              · exact (hlater h).elim (fun he => Or.inr (htake hn he)) Or.inr
              · exact hlater h

/-- The home of the page, or the owner of a notice. -/
theorem fetchPageDest_cases {page : Page} {dest : Nat}
    (h : fetchPageDest n me p page = some dest) :
    dest = p % n ∨ dest ∈ List.range n ∧ dest ≠ me ∧ ∃ ts, ts ∈ page.keys dest := by
  unfold fetchPageDest at h
  split at h
  · obtain ⟨⟨i, ts⟩, hl, rfl⟩ := Option.map_eq_some_iff.mp h
    rcases latestNotice_mem hl with hl | ⟨hm, hne, hk⟩
    · cases hl
    · exact Or.inr ⟨hm, hne, ts, hk⟩
  · exact Or.inl (Option.some.inj h).symm

end

end Midsm
