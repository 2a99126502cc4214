import Midsm.Proofs.Guards
import Midsm.Proofs.PageRequests

/-!
# What a reply finds

A `GRANT_PAGE` or `GRANT_DIFF` on its way finds its receiver in the fault it is for: the
main thread spins for this page, which is still `MISS`, or for a diff of this page from
this host, and the page is still `INVALID`. A request for a page may be refused, where the
page is not allocated yet; then the host spins on with nothing in flight. So of an exchange
of pages at most one message is in flight, and none when the host does not spin.

All this holds of a host until a handler of its does not return: one that copies an
`INVALID` page out asks for the diffs itself, and nobody reads their replies. That the
protections follow the states is kept everywhere.
-/

namespace Midsm

open Midsm.Lib

def Msg.aboutPage : Msg → Bool
  | .fetchPage _ | .grantPage _ _ | .fetchDiff _ _ | .grantDiff _ _ _ => true
  | _ => false

/-! ## A segment of the main thread -/

/-- A fault on page `p` that finds the page in state `st`, or goes on with the next diff. -/
inductive FaultCase (p : Nat) (st : PageState) (m : Mem) : Mem × Out × Pc → Prop
  | page (dest : Nat) : st = .miss →
      FaultCase p st m ({ m with fetchPageWaitFlag := true }, [(dest, .fetchPage p)],
        .pageWait p)
  | diff (i : Nat) (ts : Timestamp) (pageTimestamp : Option Timestamp) (rest : Nat) :
      st = .invalid →
      FaultCase p st m ({ m with fetchDiffWaitFlag := true }, [(i, .fetchDiff p ts)],
        .diffWait p pageTimestamp i rest)
  | done : st = .miss ∨ st = .invalid →
      FaultCase p st m
        (m.setPage p { m.pageArray p with state := .rdonly, prot := .read }, [], .run)

/-- What a segment does to the pages. -/
inductive PageExec (n me : Nat) (h : Host) : Op → Host × Out → Prop
  | keep {op : Op} {r : Host × Out} : r.1.mem.pageArray = h.mem.pageArray →
      h.pc.faulting = none → r.1.pc.faulting = none → (∀ x ∈ r.2, x.2.aboutPage = false) →
      (∀ p o bytes, op ≠ .store p o bytes) → PageExec n me h op r
  | alloc (size : Int) : h.pc = .run →
      PageExec n me h (.alloc size) ({ h with mem := (miAlloc n me size h.mem).2 }, [])
  | fault {op : Op} (p : Nat) {m : Mem} {out : Out} {pc : Pc} : h.pc = .run →
      (∀ q o bytes, op = .store q o bytes → q = p) →
      FaultCase p (h.mem.pageArray p).state h.mem (m, out, pc) →
      PageExec n me h op ({ h with mem := m, pc := pc }, out)
  | write (p o : Nat) (bytes : List Byte) : h.pc = .run →
      (h.mem.pageArray p).state = .write →
      PageExec n me h (.store p o bytes) ({ h with mem := h.mem.storeBytes p o bytes }, [])
  | first (p o : Nat) (bytes : List Byte) {m : Mem} {out : Out} {pc : Pc} : h.pc = .run →
      (h.mem.pageArray p).state = .rdonly → segvHandler n me p h.mem = some (m, out, pc) →
      PageExec n me h (.store p o bytes)
        ({ h with mem := m.storeBytes p o bytes, pc := pc }, out)
  | pageBack (p : Nat) : h.pc = .pageWait p → h.mem.fetchPageWaitFlag = false →
      PageExec n me h .resume ({ h with mem := fetchPageResume p h.mem, pc := .run }, [])
  | diffBack (p : Nat) (pageTimestamp : Option Timestamp) (i rest : Nat) {m : Mem}
      {out : Out} {pc : Pc} : h.pc = .diffWait p pageTimestamp i rest →
      h.mem.fetchDiffWaitFlag = false → FaultCase p .invalid h.mem (m, out, pc) →
      PageExec n me h .resume ({ h with mem := m, pc := pc }, out)

section

variable {n me p : Nat} {m m' : Mem} {h : Host} {r : Host × Out} {out : Out} {pc : Pc}

theorem Msg.aboutPage_of_cls {msg : Msg} (h : msg.cls ≠ .data) : msg.aboutPage = false := by
  cases msg <;> first | rfl | exact absurd rfl h

theorem requestDiff_case (p : Nat) (ts : Option Timestamp)
    (request : Option (Nat × Timestamp × Nat)) (m : Mem) :
    FaultCase p .invalid m (requestDiff p ts request m) := by
  cases request with
  | none => exact .done (Or.inr rfl)
  | some x => exact .diff x.1 x.2.1 ts x.2.2 rfl

theorem segvHandler_case (hr : (m.pageArray p).state ≠ .rdonly)
    (hw : (m.pageArray p).state ≠ .write) (h : segvHandler n me p m = some (m', out, pc)) :
    FaultCase p (m.pageArray p).state m (m', out, pc) := by
  unfold segvHandler at h
  split at h
  · cases h
  · cases hst : (m.pageArray p).state <;> simp only [hst] at h
    case rdonly => exact absurd hst hr
    case write => exact absurd hst hw
    case unmap => cases h
    case miss =>
      split at h
      · next hf =>
          cases h
          obtain ⟨dest, -, rfl, rfl⟩ := fetchPage_eq_some hf
          exact .page dest rfl
      · cases h
        exact .done (Or.inl rfl)
    case invalid =>
      rw [Option.some.injEq] at h
      rw [← h]
      exact requestDiff_case p _ _ m

theorem LockCase.pageExec {l : Int} {op : Op} (hc : LockCase n me l h r) (hpc : h.pc = .run)
    (hop : ∀ p o bytes, op ≠ .store p o bytes) : PageExec n me h op r := by
  have hidle : h.pc.faulting = none := by rw [hpc]; rfl
  cases hc with
  | refused | reject => exact .keep rfl hidle hidle (by simp) hop
  | queue => exact .keep rfl hidle rfl (by simp) hop
  | ask => exact .keep rfl hidle rfl (by simp [Msg.aboutPage]) hop
  | fetch syn last =>
      refine .keep rfl hidle rfl (fun x hx => ?_) hop
      rw [List.mem_singleton.mp hx]
      rfl
  | skip | fresh => exact .keep rfl hidle rfl (by simp) hop

theorem ResumeCase.pageExec {l : Int} {op : Op} (hc : ResumeCase n me l h r)
    (hidle : h.pc.faulting = none) (hop : ∀ p o bytes, op ≠ .store p o bytes) :
    PageExec n me h op r := by
  cases hc with
  | fetch =>
      refine .keep rfl hidle rfl (fun x hx => ?_) hop
      rw [List.mem_singleton.mp hx]
      rfl
  | skip =>
      obtain ⟨hm, hp⟩ := lockReturn_mem l (Syn.resumePath n me l) h
      exact .keep (by rw [hm]) hidle (by rw [hp]; rfl) (by simp) hop
  | back | fresh => exact .keep rfl hidle rfl (by simp) hop

theorem UnlockCase.pageExec {l : Int} {op : Op} (hc : UnlockCase n me l h r)
    (hpc : h.pc = .run) (hop : ∀ p o bytes, op ≠ .store p o bytes) :
    PageExec n me h op r := by
  have hidle : h.pc.faulting = none := by rw [hpc]; rfl
  cases hc with
  | refused => exact .keep rfl hidle hidle (by simp) hop
  | free syn result =>
      refine .keep rfl hidle hidle (fun x hx => ?_) hop
      dsimp only at hx
      split at hx
      · exact Msg.aboutPage_of_cls (by rw [grantLock_cls _ _ x hx]; simp)
      · cases hx
  | tell => exact .keep rfl hidle hidle (by simp [Msg.aboutPage]) hop

theorem miBarrier_pageExec (hpc : h.pc = .run) : PageExec n me h .barrier (miBarrier n me h) := by
  have hrun : h.pc.faulting = none := by rw [hpc]; rfl
  by_cases hme : me = 0
  · subst hme
    rcases miBarrier_zero_cases n h with he | ⟨-, he⟩ <;> rw [he]
    · exact .keep rfl hrun rfl (by simp) (by simp)
    · have hidle : (h.stamped n).pc.faulting = none := hrun
      exact .keep rfl hrun hidle (fun x hx => Msg.aboutPage_of_cls (release_not_data n _ x hx))
        (by simp)
  · unfold miBarrier
    rw [if_neg hme]
    exact .keep rfl hrun rfl (fun x hx => Msg.aboutPage_of_cls (enter_cls n me h.mem x hx))
      (by simp)

theorem Host.load_pageExec {o len : Nat} (hg : Guards h.mem h.pc) (hpc : h.pc = .run)
    (hr : h.load n me p = some r) : PageExec n me h (.load p o len) r := by
  have hidle : h.pc.faulting = none := by rw [hpc]; rfl
  unfold Host.load at hr
  split at hr
  · cases hr
    exact .keep rfl hidle hidle (by simp) (by simp)
  · next hno =>
      obtain ⟨x, hx, rfl⟩ := Option.map_eq_some_iff.mp hr
      rw [hg.readable hidle, not_or] at hno
      exact .fault p hpc (by simp) (segvHandler_case hno.1 hno.2 hx)

/-- A fault that has to fetch does not make the page writable. -/
theorem FaultCase.not_writable {st : PageState} (hc : FaultCase p st m (m', out, pc))
    (hp : (m.pageArray p).prot ≠ .readWrite) : (m'.pageArray p).prot ≠ .readWrite := by
  cases hc with
  | page | diff => exact hp
  | done =>
      rw [setPage_self]
      exact nofun

/-- A store that faults where it has to fetch is tried again. -/
theorem Host.store_fault (o : Nat) (bytes : List Byte) (hp : (h.mem.pageArray p).prot ≠ .readWrite)
    (hr : (h.mem.pageArray p).state ≠ .rdonly) (hw : (h.mem.pageArray p).state ≠ .write) :
    h.store n me p o bytes = h.fault n me p := by
  unfold Host.store Host.fault
  rw [if_neg hp]
  cases hseg : Midsm.segvHandler n me p h.mem with
  | none => rfl
  | some x =>
      have hclosed := (segvHandler_case hr hw hseg).not_writable hp
      exact congrArg some (if_neg hclosed)

theorem Host.store_pageExec {o : Nat} {bytes : List Byte} (hg : Guards h.mem h.pc)
    (hpc : h.pc = .run) (hr : h.store n me p o bytes = some r) :
    PageExec n me h (.store p o bytes) r := by
  have hidle : h.pc.faulting = none := by rw [hpc]; rfl
  by_cases hprot : (h.mem.pageArray p).prot = .readWrite
  · unfold Host.store at hr
    rw [if_pos hprot] at hr
    cases hr
    exact .write p o bytes hpc ((hg.writable hidle).mp hprot)
  · have hw : (h.mem.pageArray p).state ≠ .write := fun hw => hprot ((hg.writable hidle).mpr hw)
    by_cases hst : (h.mem.pageArray p).state = .rdonly
    · unfold Host.store at hr
      rw [if_neg hprot] at hr
      obtain ⟨x, hx, rfl⟩ := Option.map_eq_some_iff.mp hr
      obtain ⟨⟨m, out, pc⟩, hy, rfl⟩ := Option.map_eq_some_iff.mp hx
      have hopen : (m.pageArray p).prot = .readWrite := by
        obtain ⟨-, -, -, rfl⟩ := segvHandler_first hst hy
        rw [setPage_self]
      dsimp only
      rw [if_pos hopen]
      exact .first p o bytes hpc hst hy
    · rw [Host.store_fault o bytes hprot hst hw] at hr
      obtain ⟨⟨m, out, pc⟩, hy, rfl⟩ := Option.map_eq_some_iff.mp hr
      refine .fault p hpc (fun q o' bytes' he => ?_) (segvHandler_case hst hw hy)
      cases he
      rfl

theorem exec_pageExec {op : Op} (hg : Guards h.mem h.pc) (hr : h.exec n me op = some r) :
    PageExec n me h op r := by
  cases hpc : h.pc with
  | run =>
      cases op <;> simp only [Host.exec, hpc] at hr
      case alloc size => cases hr; exact hpc ▸ .alloc size hpc
      case load p o len => exact Host.load_pageExec hg hpc hr
      case store p o bytes => exact Host.store_pageExec hg hpc hr
      case lock l => cases hr; exact (miLock_cases n me l h).pageExec hpc (by simp)
      case unlock l => cases hr; exact (miUnlock_cases n me l h).pageExec hpc (by simp)
      case barrier => cases hr; exact miBarrier_pageExec hpc
      case resume => simp [Host.resume, hpc] at hr
  | lockWait l =>
      cases op <;> simp only [Host.exec, hpc, Host.resume] at hr <;> try cases hr
      split at hr
      · cases hr
      · cases hr
        exact (miLockResume_cases n me l h).pageExec (by rw [hpc]; rfl) (by simp)
  | wniWait l path =>
      cases op <;> simp only [Host.exec, hpc, Host.resume] at hr <;> try cases hr
      split at hr
      · cases hr
      · cases hr
        obtain ⟨hm, hp⟩ := lockReturn_mem l path h
        exact .keep (by rw [hm]) (by rw [hpc]; rfl) (by rw [hp]; rfl) (by simp) (by simp)
  | barrierWait =>
      cases op <;> simp only [Host.exec, hpc, Host.resume] at hr <;> try cases hr
      split at hr
      · cases hr
      · cases hr
        exact .keep rfl (by rw [hpc]; rfl) rfl (by simp) (by simp)
  | pageWait p =>
      cases op <;> simp only [Host.exec, hpc, Host.resume] at hr <;> try cases hr
      split at hr
      · cases hr
      · next hflag =>
          cases hr
          exact .pageBack p hpc (by simpa using hflag)
  | diffWait p ts i rest =>
      cases op <;> simp only [Host.exec, hpc, Host.resume] at hr <;> try cases hr
      split at hr
      · cases hr
      · next hflag =>
          cases hr
          exact .diffBack p ts i rest hpc (by simpa using hflag) (requestDiff_case p ts _ h.mem)

/-! ## Requests and waits -/

/-- The main thread spins for what `msg`, which goes to or comes from `g`, is about. -/
def Pc.Awaits (pc : Pc) (g : Nat) : Msg → Prop
  | .fetchPage p | .grantPage p _ => pc = .pageWait p
  | .fetchDiff p _ | .grantDiff _ p _ => ∃ pageTimestamp rest, pc = .diffWait p pageTimestamp g rest
  | _ => True

theorem FaultCase.sends {st : PageState} (hc : FaultCase p st m (m', out, pc)) :
    ∀ x ∈ out, (∃ ts, x.2 = .fetchPage p ∨ x.2 = .fetchDiff p ts) ∧ pc.Awaits x.1 x.2 := by
  intro x hx
  cases hc with
  | page dest =>
      rw [List.mem_singleton.mp hx]
      exact ⟨⟨fun _ => 0, Or.inl rfl⟩, rfl⟩
  | diff i ts pageTimestamp rest =>
      rw [List.mem_singleton.mp hx]
      exact ⟨⟨ts, Or.inr rfl⟩, pageTimestamp, rest, rfl⟩
  | done => cases hx

/-- A message about a page that the main thread sends asks for what it then spins for. -/
theorem PageExec.sends {op : Op} (hc : PageExec n me h op r) :
    ∀ x ∈ r.2, x.2.aboutPage = true →
      (∃ p ts, x.2 = .fetchPage p ∨ x.2 = .fetchDiff p ts) ∧ r.1.pc.Awaits x.1 x.2 := by
  intro x hx habout
  cases hc with
  | keep _ _ _ ho =>
      rw [ho x hx] at habout
      cases habout
  | alloc | write | pageBack => cases hx
  | fault p _ _ hf | diffBack p _ _ _ _ _ hf =>
      obtain ⟨hmsg, hwait⟩ := hf.sends x hx
      exact ⟨⟨p, hmsg⟩, hwait⟩
  | first p o bytes _ hs hseg =>
      obtain ⟨-, rfl, -, -⟩ := segvHandler_first hs hseg
      cases hx

theorem FaultCase.guards {st : PageState} (hc : FaultCase p st m (m', out, pc))
    (hst : (m.pageArray p).state = st) {pc₀ : Pc} (hg : Guards m pc₀)
    (hpc₀ : ∀ q, pc₀ ≠ .pageWait q) : Guards m' pc := by
  have hno : ∀ q, (m.pageArray q).state = .miss → (m.pageArray q).prot ≠ .none → False :=
    fun q hm hq => hpc₀ q (hg.arrived q hm hq)
  cases hc with
  | page dest hm =>
      refine ⟨hg.page, fun q hm hq => (hno q hm hq).elim, fun q hq => ?_, nofun⟩
      cases hq
      exact hst.trans hm
  | diff i ts pageTimestamp rest hi =>
      refine ⟨hg.page, fun q hm hq => (hno q hm hq).elim, nofun, fun q _ _ _ hq => ?_⟩
      cases hq
      exact hst.trans hi
  | done => exact hg.validate (fun q _ => hpc₀ q) rfl

theorem PageExec.guards {op : Op} (hc : PageExec n me h op r) (hg : Guards h.mem h.pc)
    (hu : ∀ p, h.mem.pagenum ≤ p → (h.mem.pageArray p).state = .unmap) :
    Guards r.1.mem r.1.pc := by
  cases hc with
  | keep hm hidle hp _ _ => exact (hg.kept (.of_pages hm)).idle hidle hp
  | alloc size hpc =>
      dsimp only
      rw [hpc] at hg ⊢
      exact hg.alloc n me size hu
  | write p o bytes => exact hg.kept (.setPage rfl rfl rfl)
  | fault p hpc _ hf => exact hf.guards rfl hg fun q hq => by rw [hpc] at hq; cases hq
  | first p o bytes hpc hs hseg =>
      exact (hg.segvHandler (by rw [hpc]; rfl) hseg).kept (.setPage rfl rfl rfl)
  | pageBack p hpc =>
      rw [hpc] at hg
      exact hg.pageBack
  | diffBack p ts i rest hpc _ hf =>
      exact hf.guards (hg.invalid p ts i rest hpc) hg fun q hq => by rw [hpc] at hq; cases hq

/-! ## The handlers -/

/-- What a handler makes of a `FETCH_PAGE` where the protections follow the states: the page
that it cannot read is `INVALID`, and it becomes readable unless a diff is missing. -/
inductive PageServed (n me sender p : Nat) (h : Host) : Host × Out → Prop
  | refused : PageServed n me sender p h (h, [])
  | sent : sender < n → sender ≠ me → p < maxPageNum → (h.mem.pageArray p).Live →
      (h.mem.pageArray p).prot ≠ .none →
      PageServed n me sender p h (h, [(sender, .grantPage p (h.mem.pageArray p).content)])
  | opened : sender < n → sender ≠ me → p < maxPageNum →
      (h.mem.pageArray p).state = .invalid → h.pc.faulting = none →
      PageServed n me sender p h
        ({ h with mem :=
             h.mem.setPage p { h.mem.pageArray p with state := .rdonly, prot := .read } },
          [(sender, .grantPage p (h.mem.pageArray p).content)])
  | killed : (h.mem.pageArray p).state = .invalid →
      PageServed n me sender p h ({ h with hung := true }, [])
  | hangs (i : Nat) (ts : Timestamp) : (h.mem.pageArray p).state = .invalid →
      h.pc.faulting = none → i < n → i ≠ me →
      PageServed n me sender p h
        ({ h with mem := { h.mem with fetchDiffWaitFlag := true }, hung := true },
          [(i, .fetchDiff p ts)])

theorem PageRead.served {sender : Nat} (hc : PageRead n me sender p h r)
    (hg : Guards h.mem h.pc) : PageServed n me sender p h r := by
  have hstate : (h.mem.pageArray p).Live → (h.mem.pageArray p).prot = .none →
      (h.mem.pageArray p).state = .invalid := by
    intro hl hp
    have hprot := (hg.page p).prot_eq hl.2
    rw [hp] at hprot
    cases hs : (h.mem.pageArray p).state with
    | invalid => rfl
    | unmap => exact absurd hs hl.1
    | miss => exact absurd hs hl.2
    | rdonly | write =>
        rw [hs] at hprot
        cases hprot
  have hseg : (h.mem.pageArray p).state = .invalid → ∀ {x}, segvHandler n me p h.mem = some x →
      x = (h.mem.setPage p { h.mem.pageArray p with state := .rdonly, prot := .read }, [], .run) ∨
      ∃ i ts pts rest, i < n ∧ i ≠ me ∧ x = ({ h.mem with fetchDiffWaitFlag := true },
        [(i, .fetchDiff p ts)], .diffWait p pts i rest) := by
    intro hs x hx
    unfold segvHandler at hx
    split at hx
    · cases hx
    · simp only [hs, fetchDiff] at hx
      cases hnext : nextDiffHost n me (h.mem.pageArray p).startInterval (h.mem.pageArray p)
          (List.range n) with
      | none =>
          rw [hnext] at hx
          exact Or.inl (Option.some.inj hx).symm
      | some y =>
          rw [hnext] at hx
          obtain ⟨hm, hne, -⟩ := nextDiffHost_mem hnext
          exact Or.inr ⟨y.1, y.2.1, _, y.2.2, List.mem_range.mp hm, hne,
            (Option.some.inj hx).symm⟩
  cases hc with
  | refused => exact .refused
  | sent hn hne hp hl hread => exact .sent hn hne hp hl hread
  | killed hl hp => exact .killed (hstate hl hp)
  | opened m hn hne hp hl hprot hpc he =>
      rcases hseg (hstate hl hprot) he with hx | ⟨_, _, _, _, _, _, hx⟩
      · cases hx
        exact .opened hn hne hp (hstate hl hprot) hpc
      · cases hx
  | hangs m out pc hl hprot hpc he hno =>
      rcases hseg (hstate hl hprot) he with hx | ⟨i, ts, _, _, hi, hne, hx⟩
      · cases hx
        have hread := hno rfl
        rw [setPage_self] at hread
        cases hread
      · cases hx
        exact .hangs i ts (hstate hl hprot) hpc hi hne

theorem PageServed.guards {sender : Nat} (hc : PageServed n me sender p h r)
    (hg : Guards h.mem h.pc) : Guards r.1.mem r.1.pc := by
  cases hc with
  | refused | sent | killed => exact hg
  | opened _ _ _ _ hpc => exact hg.validate (fun q _ => Pc.not_pageWait hpc q) hpc
  | hangs => exact hg.kept (.of_pages rfl)

/-- A reply to what a fault asks for. -/
def Msg.serves : Msg → Bool
  | .grantPage _ _ | .grantDiff _ _ _ => true
  | _ => false

theorem ReadMem.guards {sender : Nat} {msg : Msg} (hc : ReadMem n me sender h msg r)
    (hg : Guards h.mem h.pc) (hw : msg.serves = true → h.pc.Awaits sender msg) :
    Guards r.1.mem r.1.pc := by
  cases hc with
  | keep _ _ hm hp _ =>
      rw [hm, hp]
      exact hg
  | release _ _ hm hp _ =>
      rw [hm, hp]
      exact hg.kept (.of_pages rfl)
  | data hmsg =>
      cases msg with
      | acqLock | rlsLock | grantLock | enterBarrier | exitBarrier =>
          rcases hmsg with hmsg | hmsg | hmsg <;> cases hmsg
      | fetchPage p => exact ((dispatch_fetchPage n me sender p h).served hg).guards hg
      | fetchWnI => exact hg
      | grantPage p content =>
          have hpc : h.pc = .pageWait p := hw rfl
          rw [hpc] at hg
          show Guards _ h.pc
          rw [hpc]
          exact hg.pageReply me content
      | grantDiff ts p diff =>
          obtain ⟨pageTimestamp, rest, hpc⟩ := hw rfl
          have hs := hg.invalid p _ _ _ hpc
          have hprot := (hg.page p).prot_eq (by rw [hs]; exact nofun)
          rw [hs] at hprot
          exact hg.kept (handleGrantDiffMsg_kept hprot ts diff)
      | fetchDiff p ts => exact hg.loses (grantDiff_loses n me sender ts p h.mem)
      | grantWnI ts k packets =>
          have hpush : Guards (h.mem.pushNow me ⟨bump me ts, [], false⟩) h.pc :=
            hg.kept (.of_pages rfl)
          exact (hpush.loses (incorporatePackets_loses me k packets _)).kept (.of_pages rfl)
      | grantEnterBarrierInfo ts k packets =>
          refine Guards.loses (hg.kept (.of_pages ?_)) (incorporatePackets_loses me k packets _)
          split <;> rfl
      | grantExitBarrierInfo ts k packets =>
          refine Guards.loses (hg.kept (.of_pages ?_)) (incorporatePackets_loses me k packets _)
          split <;> rfl

end

/-! ## All hosts -/

/-- At most one message of host `x`'s exchange of pages is in flight. -/
structure PageTurn (s : Sys) (x : Nat) : Prop where
  idle : (s.host x).mem.fetchPageWaitFlag = false → ∀ g, pageExchange.traffic s x g = 0
  once : ∃ g, pageExchange.traffic s x g ≤ 1 ∧ ∀ g' ≠ g, pageExchange.traffic s x g' = 0

structure Awaited (n : Nat) (s : Sys) : Prop where
  answered : Answered n s
  turn : ∀ x, PageTurn s x
  flag : ∀ x, (s.host x).mem.fetchPageWaitFlag = true → ∃ p, (s.host x).pc = .pageWait p
  asked : ∀ {x g msg}, msg ∈ s.net x g → msg.forFault = true → (s.host x).hung = false →
    (s.host x).pc.Awaits g msg
  replied : ∀ {x g msg}, msg ∈ s.net g x → msg.serves = true → (s.host x).hung = false →
    (s.host x).pc.Awaits g msg
  guards : ∀ x, Guards (s.host x).mem (s.host x).pc

section

variable {n a b : Nat} {s s' : Sys} {r : Host × Out} {msg : Msg} {rest : List Msg}

theorem Awaited.init (n : Nat) : Awaited n initSys where
  answered := .init n
  turn x := ⟨fun _ _ => rfl, 0, Nat.zero_le _, fun _ _ => rfl⟩
  flag x h := by cases h
  asked h := by cases h
  replied h := by cases h
  guards x := .init x

theorem Exchange.no_traffic {X : Exchange} {x g : Nat} (h : X.traffic s x g = 0) :
    (∀ msg ∈ s.net x g, X.isRequest msg = false) ∧ ∀ msg ∈ s.net g x, X.isReply msg = false := by
  unfold Exchange.traffic at h
  constructor <;> intro msg hm
  · have h0 : (s.net x g).countP X.isRequest = 0 := by omega
    simpa using List.countP_eq_zero.mp h0 msg hm
  · have h0 : (s.net g x).countP X.isReply = 0 := by omega
    simpa using List.countP_eq_zero.mp h0 msg hm

/-- Nothing about a fault of a host is in flight that is about to move. -/
theorem Awaited.quiet (h : Awaited n s) (hh : (s.host a).hung = false) {op : Op}
    (hr : (s.host a).exec n a op = some r) :
    (s.host a).mem.fetchPageWaitFlag = false ∧
      (∀ g, ∀ msg ∈ s.net a g, msg.forFault = false) ∧
      ∀ g, ∀ msg ∈ s.net g a, msg.serves = false := by
  have hpage : (s.host a).mem.fetchPageWaitFlag = false := by
    cases hf : (s.host a).mem.fetchPageWaitFlag with
    | false => rfl
    | true =>
        obtain ⟨p, hpc⟩ := h.flag a hf
        cases exec_page hr with
        | alloc _ hrun | ask _ _ hrun =>
            rw [hpc] at hrun
            cases hrun
        | rest _ hidle => rw [← hf, hidle (by simp [pageExchange, hpc])]
  have hdiff : (s.host a).mem.fetchDiffWaitFlag = false := by
    cases hf : (s.host a).mem.fetchDiffWaitFlag with
    | false => rfl
    | true =>
        have hw := (h.answered.diff a).waits hf
        rw [diffExchange_waits, hh, Bool.false_or] at hw
        obtain ⟨i, hi⟩ := Option.isSome_iff_exists.mp hw
        have hfault : (s.host a).pc.faulting ≠ none := by
          intro hno
          rw [Pc.diffFrom_of_faulting hno] at hi
          cases hi
        have hrun : (s.host a).pc ≠ .run := fun hrun => hfault (by rw [hrun]; rfl)
        cases exec_mem hr with
        | access _ _ hd => exact hf ▸ hd (by rw [hi]; simp)
        | keep _ _ _ hno | fresh _ _ _ hno | fetch _ _ _ _ _ _ _ _ hno => exact absurd hno hfault
        | enter _ hpc | note _ hpc | release _ hpc => exact absurd hpc hrun
  refine ⟨hpage, fun g msg hm => ?_, fun g msg hm => ?_⟩
  · have h1 := (Exchange.no_traffic ((h.turn a).idle hpage g)).1 msg hm
    have h2 := (Exchange.no_traffic ((h.answered.diff a).idle hdiff g)).1 msg hm
    cases msg <;>
      first
      | rfl
      | exact absurd h1.symm Bool.false_ne_true
      | exact absurd h2.symm Bool.false_ne_true
  · have h1 := (Exchange.no_traffic ((h.turn a).idle hpage g)).2 msg hm
    have h2 := (Exchange.no_traffic ((h.answered.diff a).idle hdiff g)).2 msg hm
    cases msg <;>
      first
      | rfl
      | exact absurd h1.symm Bool.false_ne_true
      | exact absurd h2.symm Bool.false_ne_true

theorem PageTurn.congr {x : Nat} (h : PageTurn s x)
    (hf : (s'.host x).mem.fetchPageWaitFlag = (s.host x).mem.fetchPageWaitFlag)
    (ht : ∀ g, pageExchange.traffic s' x g ≤ pageExchange.traffic s x g) : PageTurn s' x where
  idle hd g := Nat.le_zero.mp (((h.idle (hf ▸ hd)) g) ▸ ht g)
  once := by
    obtain ⟨g, h1, h0⟩ := h.once
    exact ⟨g, (ht g).trans h1, fun g' hg' => Nat.le_zero.mp (h0 g' hg' ▸ ht g')⟩

/-- A segment of the main thread sends no page, and asks for one only if it sets the flag. -/
theorem PageTurn.exec {op : Op} (h : ∀ x, PageTurn s x)
    (hpage : (s.host a).mem.fetchPageWaitFlag = false)
    (hr : (s.host a).exec n a op = some r) (x : Nat) : PageTurn (s.put a r) x := by
  have hcall := exec_page hr
  have hreply : ∀ y ∈ r.2, pageExchange.isReply y.2 = false := by
    cases hcall with
    | alloc _ _ _ _ ho => rw [ho]; simp
    | rest _ _ ho => exact fun y hy => (ho y hy).2
    | ask _ dest _ _ _ _ _ _ ho =>
        rw [ho]
        simp [pageExchange]
  have ht : ∀ g, pageExchange.traffic (s.put a r) x g = pageExchange.traffic s x g +
      if x = a then (outTo r.2 g).countP pageExchange.isRequest else 0 := by
    intro g
    rw [Exchange.traffic_put, Exchange.countP_outTo_none hreply, ite_self, Nat.add_zero]
  by_cases hx : x = a
  · subst hx
    have h0 : ∀ g, pageExchange.traffic (s.put x r) x g =
        (outTo r.2 g).countP pageExchange.isRequest := by
      intro g
      rw [ht, if_pos rfl, (h x).idle hpage, Nat.zero_add]
    have hnone : (∀ y ∈ r.2, pageExchange.isRequest y.2 = false) → PageTurn (s.put x r) x := by
      intro ho
      have hz : ∀ g, pageExchange.traffic (s.put x r) x g = 0 := by
        intro g
        rw [h0, Exchange.countP_outTo_none ho]
      exact ⟨fun _ => hz, 0, (hz 0).le.trans (Nat.zero_le _), fun g _ => hz g⟩
    cases hcall with
    | alloc _ _ _ _ ho => exact hnone (by rw [ho]; simp)
    | rest _ _ ho => exact hnone fun y hy => (ho y hy).1
    | ask p dest _ _ _ _ hm _ ho =>
        refine ⟨fun hf => ?_, dest, ?_, fun g hg => ?_⟩
        · rw [put_host_self, hm] at hf
          cases hf
        · rw [h0, ho, Exchange.countP_outTo_single]
          split <;> simp
        · rw [h0, ho, Exchange.countP_outTo_single, if_neg fun hn => hg hn.1]
  · exact (h x).congr (by rw [put_host_ne hx]) fun g => by rw [ht, if_neg hx, Nat.add_zero]

/-- A handler asks for something only where it hangs, and it sends a page or a diff only to
who asked for it. -/
theorem dispatch_sends (n me sender : Nat) (msg : Msg) {h : Host} (hg : Guards h.mem h.pc) :
    ∀ x ∈ (dispatchMsg n me sender msg h).2,
      (x.2.forFault = true → pageExchange.isRequest x.2 = false ∧
        (dispatchMsg n me sender msg h).1.hung = true) ∧
      (x.2.serves = true → x.1 = sender ∧
        ((∃ p content, msg = .fetchPage p ∧ x.2 = .grantPage p content) ∨
          ∃ p ts diff, msg = .fetchDiff p ts ∧ x.2 = .grantDiff ts p diff)) := by
  intro x hx
  have hother : x.2.cls ≠ .data → x.2.forFault = false ∧ x.2.serves = false := by
    intro hcls
    cases hmsg : x.2 <;> rw [hmsg] at hcls <;> first | exact ⟨rfl, rfl⟩ | exact absurd rfl hcls
  cases dispatch_mem n me sender msg h with
  | keep _ _ _ _ ho =>
      obtain ⟨hf, hs⟩ := hother (by rw [ho x hx]; simp)
      exact ⟨by simp [hf], by simp [hs]⟩
  | release _ _ _ _ ho =>
      rw [ho] at hx
      obtain ⟨hf, hs⟩ := hother (release_not_data n h x hx)
      exact ⟨by simp [hf], by simp [hs]⟩
  | data hmsg =>
      cases msg with
      | acqLock | rlsLock | grantLock | enterBarrier | exitBarrier =>
          rcases hmsg with hmsg | hmsg | hmsg <;> cases hmsg
      | fetchPage p =>
          have hserved := (dispatch_fetchPage n me sender p h).served hg
          generalize dispatchMsg n me sender (.fetchPage p) h = r at hserved hx ⊢
          cases hserved with
          | refused | killed => cases hx
          | sent | opened =>
              rw [List.mem_singleton.mp hx]
              exact ⟨by simp [Msg.forFault], fun _ => ⟨rfl, Or.inl ⟨p, _, rfl, rfl⟩⟩⟩
          | hangs i ts =>
              rw [List.mem_singleton.mp hx]
              exact ⟨fun _ => ⟨rfl, rfl⟩, by simp [Msg.serves]⟩
      | fetchDiff p ts =>
          rcases grantDiff_out n me sender ts p h.mem with ho | ⟨diff, ho⟩ <;>
            rw [dispatchMsg, ho] at hx
          · cases hx
          · rw [List.mem_singleton.mp hx]
            exact ⟨by simp [Msg.forFault], fun _ => ⟨rfl, Or.inr ⟨p, ts, diff, rfl, rfl⟩⟩⟩
      | fetchWnI ts =>
          rcases grantWNI_out n me sender ts h.mem with ho | ⟨-, -, ho⟩ <;>
            rw [dispatchMsg, ho] at hx
          · cases hx
          · rw [List.mem_singleton.mp hx]
            exact ⟨by simp [Msg.forFault], by simp [Msg.serves]⟩
      | _ => cases hx

/-- A handler sends at most one page, to who asked for it. -/
theorem dispatch_pages_sent (n me sender : Nat) (msg : Msg) {h : Host} (hg : Guards h.mem h.pc)
    (u : Nat) : (outTo (dispatchMsg n me sender msg h).2 u).countP pageExchange.isReply ≤
      if u = sender ∧ pageExchange.isRequest msg = true then 1 else 0 := by
  cases msg with
  | fetchPage p =>
      have hserved := (dispatch_fetchPage n me sender p h).served hg
      generalize dispatchMsg n me sender (.fetchPage p) h = r at hserved ⊢
      cases hserved with
      | refused | killed => simp
      | sent | opened | hangs =>
          dsimp only
          rw [Exchange.countP_outTo_single]
          simp [pageExchange]
  | _ =>
      rw [Exchange.countP_outTo_none fun y hy => ?_]
      · exact Nat.zero_le _
      · have hserves := (dispatch_sends n me sender _ hg y hy).2
        cases hmsg : y.2 <;> rw [hmsg] at hserves <;> first | rfl | skip
        obtain ⟨-, ⟨_, _, he, -⟩ | ⟨_, _, _, -, he⟩⟩ := hserves rfl <;> cases he

/-- Reading a message takes a request out of flight, with or without a reply, or takes a
reply out and clears the flag. -/
theorem PageTurn.read (h : ∀ x, PageTurn s x) (hg : Guards (s.host b).mem (s.host b).pc)
    (hnet : s.net a b = msg :: rest) (x : Nat) :
    PageTurn ((s.pop a b).put b (dispatchMsg n b a msg (s.host b))) x := by
  have hsends := dispatch_sends n b a msg hg
  have hrep := dispatch_pages_sent n b a msg hg
  have hpages := (dispatch_mem n b a msg (s.host b)).pages
  generalize dispatchMsg n b a msg (s.host b) = r at hsends hpages hrep ⊢
  have hreq : ∀ y ∈ r.2, pageExchange.isRequest y.2 = false := by
    intro y hy
    cases hmsg : y.2.forFault with
    | true => exact ((hsends y hy).1 hmsg).1
    | false => cases hy : y.2 <;> rw [hy] at hmsg <;> first | rfl | cases hmsg
  have ht : ∀ y g, pageExchange.traffic ((s.pop a b).put b r) y g +
      (if g = a ∧ y = b ∧ pageExchange.isReply msg = true then 1 else 0) ≤
      pageExchange.traffic s y g := by
    intro y g
    rw [Exchange.traffic_pop hnet, Exchange.traffic_put, Exchange.countP_outTo_none hreq, ite_self,
      Nat.add_zero]
    have hle : (if g = b then (outTo r.2 y).countP pageExchange.isReply else 0) ≤
        if y = a ∧ g = b ∧ pageExchange.isRequest msg = true then 1 else 0 := by
      by_cases hg : g = b
      · simpa [hg] using hrep y
      · simp [hg]
    omega
  have hle : ∀ y g, pageExchange.traffic ((s.pop a b).put b r) y g ≤
      pageExchange.traffic s y g := fun y g => (Nat.le_add_right _ _).trans (ht y g)
  by_cases hx : x = b
  · subst hx
    cases hmsg : pageExchange.isReply msg with
    | false => exact (h x).congr (by rw [put_host_self]; exact (hpages.2 hmsg).flag) (hle x)
    | true =>
        -- the reply was the one message in flight
        obtain ⟨g, h1, h0⟩ := (h x).once
        have hone := ht x a
        rw [if_pos ⟨rfl, rfl, hmsg⟩] at hone
        have hg : g = a := by
          by_contra hne
          have := h0 a (Ne.symm hne)
          omega
        have hz : ∀ g', pageExchange.traffic ((s.pop a x).put x r) x g' = 0 := by
          intro g'
          by_cases hg' : g' = a
          · rw [hg] at h1
            rw [hg']
            omega
          · have := h0 g' (by rw [hg]; exact hg')
            have := hle x g'
            omega
        exact ⟨fun _ => hz, 0, (hz 0).le.trans (Nat.zero_le _), fun g' _ => hz g'⟩
  · exact (h x).congr (by rw [put_host_ne hx]; rfl) (hle x)

theorem Awaited.exec (h : Awaited n s) (ha : a < n) (hh : (s.host a).hung = false) {op : Op}
    (hr : (s.host a).exec n a op = some r) : Awaited n (s.put a r) := by
  obtain ⟨hpage, hasked, hreplied⟩ := h.quiet hh hr
  have hc := exec_pageExec (h.guards a) hr
  have hstep : Midsm.step n s (.op a op) = some (s.put a r) := by
    simp [Midsm.step, ha, hh, hr]
  refine ⟨h.answered.step hstep, PageTurn.exec h.turn hpage hr, fun x hf => ?_,
    fun {x g msg} hm hask hx' => ?_, fun {x g msg} hm hserves hx' => ?_,
    put_host_forall (P := fun _ h => Guards h.mem h.pc)
      (hc.guards (h.guards a) (h.answered.sound.beyond a ha)) fun x _ => h.guards x⟩
  · by_cases hx : x = a
    · subst hx
      rw [put_host_self] at hf ⊢
      cases exec_page hr with
      | alloc size _ hm _ _ =>
          rw [hm, miAlloc_pageFlag, hpage] at hf
          cases hf
      | rest hm _ _ =>
          rw [hm.flag, hpage] at hf
          cases hf
      | ask p _ _ _ _ _ _ hpc _ => exact ⟨p, hpc⟩
    · rw [put_host_ne hx] at hf ⊢
      exact h.flag x hf
  · rcases mem_put_net hm with hold | ⟨rfl, ho⟩
    · by_cases hx : x = a
      · subst hx
        rw [hasked g msg hold] at hask
        cases hask
      · rw [put_host_ne hx] at hx' ⊢
        exact h.asked hold hask hx'
    · rw [put_host_self]
      exact (hc.sends _ ho (by cases msg <;> first | rfl | cases hask)).2
  · rcases mem_put_net hm with hold | ⟨rfl, ho⟩
    · by_cases hx : x = a
      · subst hx
        rw [hreplied g msg hold] at hserves
        cases hserves
      · rw [put_host_ne hx] at hx' ⊢
        exact h.replied hold hserves hx'
    · obtain ⟨⟨p, ts, he⟩, -⟩ := hc.sends _ ho (by cases msg <;> first | rfl | cases hserves)
      rcases he with he | he <;> dsimp only at he <;> rw [he] at hserves <;> cases hserves

theorem Awaited.deliver (h : Awaited n s) (ha : a < n) (hb : b < n) (hne : a ≠ b)
    (hh : (s.host b).hung = false) (hnet : s.net a b = msg :: rest) :
    Awaited n ((s.pop a b).put b (dispatchMsg n b a msg (s.host b))) := by
  have hstep : Midsm.step n s (.deliver a b) =
      some ((s.pop a b).put b (dispatchMsg n b a msg (s.host b))) := by
    simp [Midsm.step, ha, hb, hne, hh, hnet]
  have hc := dispatch_mem n b a msg (s.host b)
  have hsends := dispatch_sends n b a msg (h.guards b)
  have hturn := PageTurn.read (n := n) h.turn (h.guards b) hnet
  have hanswered := h.answered.step hstep
  have hguards := hc.guards (h.guards b) fun hs =>
    h.replied (by rw [hnet]; exact List.mem_cons_self) hs hh
  generalize dispatchMsg n b a msg (s.host b) = r at hc hsends hturn hanswered hguards ⊢
  have hpc : ∀ x, (((s.pop a b).put b r).host x).pc = (s.host x).pc := by
    intro x
    by_cases hx : x = b
    · rw [hx, put_host_self, hc.pc]
    · rw [put_host_ne hx]
      rfl
  have hawake : ∀ x, (((s.pop a b).put b r).host x).hung = false → (s.host x).hung = false := by
    intro x hx'
    by_cases hx : x = b
    · rw [hx, hh]
    · rw [put_host_ne hx] at hx'
      exact hx'
  refine ⟨hanswered, hturn, fun x hf => ?_, fun {x g msg'} hm hask hx' => ?_,
    fun {x g msg'} hm hserves hx' => ?_,
    put_host_forall (P := fun _ h => Guards h.mem h.pc) hguards fun x _ => h.guards x⟩
  · rw [hpc]
    by_cases hx : x = b
    · subst hx
      rw [put_host_self] at hf
      refine h.flag x ?_
      cases hrep : pageExchange.isReply msg with
      | false => rw [← (hc.pages.2 hrep).flag, hf]
      | true =>
          cases hup : (s.host x).mem.fetchPageWaitFlag with
          | true => rfl
          | false =>
              have hno := (Exchange.no_traffic ((h.turn x).idle hup a)).2 msg
                (by rw [hnet]; exact List.mem_cons_self)
              rw [hrep] at hno
              cases hno
    · rw [put_host_ne hx] at hf
      exact h.flag x hf
  · rw [hpc]
    rcases mem_put_net hm with hm | ⟨rfl, ho⟩
    · exact h.asked (mem_of_mem_pop hm) hask (hawake x hx')
    · rw [put_host_self, ((hsends _ ho).1 hask).2] at hx'
      cases hx'
  · rw [hpc]
    rcases mem_put_net hm with hm | ⟨rfl, ho⟩
    · exact h.replied (mem_of_mem_pop hm) hserves (hawake x hx')
    · have hhead : msg ∈ s.net a g := by rw [hnet]; exact List.mem_cons_self
      obtain ⟨hto, ⟨p, content, rfl, he⟩ | ⟨p, ts, diff, rfl, he⟩⟩ := (hsends _ ho).2 hserves <;>
        dsimp only at hto he <;> subst hto he
      · have hpc : (s.host x).pc = .pageWait p := h.asked hhead rfl (hawake x hx')
        exact hpc
      · have hpc : (s.host x).pc.Awaits g (.fetchDiff p ts) := h.asked hhead rfl (hawake x hx')
        exact hpc

theorem Awaited.step (h : Awaited n s) {e : Event} (he : Midsm.step n s e = some s') :
    Awaited n s' := by
  obtain ⟨a, op, r, rfl, ha, hr, rfl⟩ |
    ⟨a, b, msg, rest, rfl, ha, hb, hne, hnet, rfl⟩ := step_cases he
  · exact h.exec ha (step_awake he) hr
  · exact h.deliver ha hb hne (step_awake he) hnet

theorem awaited_of_reach {P : Sys → Event → Prop} (h : Reach (Midsm.step n) P initSys s) :
    Awaited n s := h.invariant (Awaited.init n) fun ht _ hs => ht.step hs

/-- The page a host is granted is one it lacks. -/
theorem Awaited.page_missing (h : Awaited n s) (hh : (s.host b).hung = false) {p : Nat}
    {content : Content} (hm : .grantPage p content ∈ s.net a b) :
    ((s.host b).mem.pageArray p).state = .miss :=
  (h.guards b).miss p (h.replied hm rfl hh)

/-- The page of a diff that a host is granted is invalid there. -/
theorem Awaited.page_invalid (h : Awaited n s) (hh : (s.host b).hung = false) {p : Nat}
    {ts : Timestamp} {diff : Content} (hm : .grantDiff ts p diff ∈ s.net a b) :
    ((s.host b).mem.pageArray p).state = .invalid := by
  obtain ⟨pageTimestamp, left, hpc⟩ := h.replied hm rfl hh
  exact (h.guards b).invalid p pageTimestamp a left hpc

end

end Midsm
