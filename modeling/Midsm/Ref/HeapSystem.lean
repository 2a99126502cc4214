import Midsm.Ref.Heap

/-!
# The system, with pointers

The hosts of `System` with the cells and pointers of `Heap` in place of the lists of
`Mem`. The functions of `mem.c` that `Heap` leaves out are here, those of `syn.c`
again, on a host of this kind, and a step is a step of `System`.

`none` is a run that reads through `NULL`, does not come to an end or exits, and a step
that is not enabled.
-/

namespace Midsm

open Midsm.Lib

/-- The globals of `mem.c`: those of `Heap`, and `pageArray[p].startInterval` and the
others that no function of `Heap` uses. -/
structure HeapMem where
  heap : Heap
  startInterval : Nat → Option Ptr
  fetchPageWaitFlag : Bool
  fetchDiffWaitFlag : Bool
  pagenum : Nat
  globalAddress : Nat

/-- `wn->interval->timestamp` -/
def Heap.noticeTime (h : Heap) (wn : Ptr) : Timestamp :=
  (h.intervals (h.writenotices wn).interval).timestamp

def Heap.setDiff (wn : Ptr) (diff : Option Content) (h : Heap) : Heap :=
  { h with
    writenotices := upd h.writenotices wn { h.writenotices wn with diffAddress := diff } }

def HeapMem.setPage (p : Nat) (page : HeapPage) (m : HeapMem) : HeapMem :=
  { m with heap := m.heap.setPage p page }

/-! ## Allocation -/

/-- One round of the loop of `mi_alloc`. -/
def HeapMem.allocPage (n me : Nat) (m : HeapMem) : HeapMem :=
  let page := m.heap.pageArray m.pagenum
  let state := if m.pagenum % n = me then PageState.rdonly else .miss
  let prot := if m.pagenum % n = me then Prot.read else page.prot
  { m with
    heap := m.heap.setPage m.pagenum
      { page with state := state, address := startAddress + m.globalAddress, prot := prot }
    pagenum := m.pagenum + 1
    globalAddress := m.globalAddress + pageSize }

def HeapMem.allocPages (n me : Nat) : Nat → HeapMem → HeapMem
  | 0, m => m
  | k + 1, m => allocPages n me k (m.allocPage n me)

def HeapMem.miAlloc (n me : Nat) (size : Int) (m : HeapMem) : Option Nat × HeapMem :=
  if size ≤ 0 then (none, m)
  else
    let rsize := roundSize size
    if (rsize + m.globalAddress) % 2 ^ 64 > maxMemSize then (none, m)
    else
      let m := m.allocPages n me ((rsize.toNat + pageSize - 1) / pageSize)
      (some (startAddress + m.globalAddress - rsize.toNat), m)

/-! ## Serving a fault -/

def HeapPage.hasWriteNotice (n me : Nat) (page : HeapPage) : Bool :=
  (List.range n).any fun i => i ≠ me ∧ (page.notices i).isSome

/-- The scan for the host whose newest notice is latest: `hostid` and `latestInterval`. -/
def Heap.latestNotice (n me : Nat) (page : HeapPage) (h : Heap) :
    List Nat → Option (Nat × Ptr) → Option (Nat × Ptr)
  | [], latest => latest
  | i :: rest, latest =>
      if i = me then h.latestNotice n me page rest latest
      else match page.notices i, latest with
        | none, latest => h.latestNotice n me page rest latest
        | some wn, none =>
            h.latestNotice n me page rest (some (i, (h.writenotices wn).interval))
        | some wn, some (j, latestInterval) =>
            if isAfterInterval n (h.noticeTime wn) (h.intervals latestInterval).timestamp then
              h.latestNotice n me page rest (some (i, (h.writenotices wn).interval))
            else h.latestNotice n me page rest (some (j, latestInterval))

def Heap.fetchPageDest (n me p : Nat) (h : Heap) : Option Nat :=
  let page := h.pageArray p
  if page.hasWriteNotice n me then
    (h.latestNotice n me page (List.range n) none).map Prod.fst
  else some (p % n)

def HeapMem.fetchPage (n me p : Nat) (m : HeapMem) : Option (HeapMem × Out) :=
  if maxPageNum ≤ p then none
  else if (m.heap.pageArray p).state ≠ .miss then none
  else match m.heap.fetchPageDest n me p with
    | none => none
    | some hostid =>
        some ({ m with fetchPageWaitFlag := true }, [(hostid, .fetchPage p)])

/-- The inner loop of `fetchDiff` from `wn` up to its next request; `pageTimestamp` is a
pointer into `startInterval`. -/
def Heap.nextDiff (n : Nat) (pageTimestamp : Option Ptr) (h : Heap) :
    Nat → Option Ptr → Option (Option Ptr)
  | 0, _ => none
  | _ + 1, none => some none
  | fuel + 1, some wn =>
      if (h.writenotices wn).diffAddress.isSome then some none
      else if pageTimestamp.all fun start =>
          isAfterInterval n (h.noticeTime wn) (h.intervals start).timestamp then
        some (some wn)
      else h.nextDiff n pageTimestamp fuel (h.nextInPage wn)

/-- The outer loop over the hosts still to visit. -/
def Heap.nextDiffHost (n me p : Nat) (pageTimestamp : Option Ptr) (h : Heap) :
    List Nat → Option (Option (Nat × Ptr))
  | [] => some none
  | i :: is =>
      if i = me then h.nextDiffHost n me p pageTimestamp is
      else match h.nextDiff n pageTimestamp (h.noticeNum + 1) (h.pageNotices (p, i)) with
        | none => none
        | some (some wn) => some (some (i, wn))
        | some none => h.nextDiffHost n me p pageTimestamp is

/-- Where the main thread of a host is. -/
inductive HeapPc where
  | run
  | lockWait (lockno : Int)
  | wniWait (lockno : Int) (path : LockPath)
  | barrierWait
  | pageWait (pageIndex : Nat)
  | diffWait (pageIndex : Nat) (pageTimestamp : Option Ptr) (i : Nat) (wn : Ptr)

/-- The page whose fault `segv_handler` is serving. -/
def HeapPc.faulting : HeapPc → Option Nat
  | .pageWait p | .diffWait p _ _ _ => some p
  | _ => none

/-- `fetchDiff` spinning for one diff, or finished. -/
def HeapMem.requestDiff (p : Nat) (pageTimestamp : Option Ptr) (request : Option (Nat × Ptr))
    (m : HeapMem) : HeapMem × Out × HeapPc :=
  match request with
  | some (i, wn) =>
      ({ m with fetchDiffWaitFlag := true }, [(i, .fetchDiff p (m.heap.noticeTime wn))],
        .diffWait p pageTimestamp i wn)
  | none =>
      (m.setPage p { m.heap.pageArray p with state := .rdonly, prot := .read }, [], .run)

/-- `fetchDiff` on an `INVALID` page, from its start. -/
def HeapMem.fetchDiff (n me p : Nat) (m : HeapMem) : Option (HeapMem × Out × HeapPc) :=
  (m.heap.nextDiffHost n me p (m.startInterval p) (List.range n)).map fun request =>
    m.requestDiff p (m.startInterval p) request

/-- `fetchDiff` after a reply, from `wn = wn->nextInPage` on. -/
def HeapMem.fetchDiffResume (n me p : Nat) (pageTimestamp : Option Ptr) (i : Nat) (wn : Ptr)
    (m : HeapMem) : Option (HeapMem × Out × HeapPc) :=
  match m.heap.nextDiff n pageTimestamp (m.heap.noticeNum + 1) (m.heap.nextInPage wn) with
  | none => none
  | some (some wn) => some (m.requestDiff p pageTimestamp (some (i, wn)))
  | some none =>
      (m.heap.nextDiffHost n me p pageTimestamp (List.range' (i + 1) (n - (i + 1)))).map
        fun request => m.requestDiff p pageTimestamp request

/-- `segv_handler` up to where it spins. -/
def HeapMem.segvHandler (n me p : Nat) (m : HeapMem) : Option (HeapMem × Out × HeapPc) :=
  if maxPageNum ≤ p then none
  else match (m.heap.pageArray p).state with
    | .rdonly =>
        if (m.heap.createTwinPage p).1 = 0 ∧ (m.heap.pageArray p).prot = .none then none
        else (m.heap.segvHandler me p).map fun heap => ({ m with heap := heap }, [], .run)
    | .miss =>
        match m.fetchPage n me p with
        | some (m, out) => some (m, out, .pageWait p)
        | none =>
            some (m.setPage p { m.heap.pageArray p with state := .rdonly, prot := .read },
              [], .run)
    | .write => some (m, [], .run)
    | .invalid => m.fetchDiff n me p
    | .unmap => none

/-- `segv_handler` after the page arrived. -/
def HeapMem.fetchPageResume (p : Nat) (m : HeapMem) : HeapMem :=
  m.setPage p { m.heap.pageArray p with state := .rdonly, prot := .read }

/-- `grantPage`, called by a handler; the result `none` says that it does not return. -/
def HeapMem.grantPage (n me hostid p : Nat) (nested : Bool) (m : HeapMem) :
    Option Int × HeapMem × Out :=
  let page := m.heap.pageArray p
  if n ≤ hostid then (some (-1), m, [])
  else if hostid = me then (some (-1), m, [])
  else if maxPageNum ≤ p then (some (-1), m, [])
  else if page.state = .unmap ∨ page.state = .miss then (some (-1), m, [])
  else if page.prot ≠ .none then (some 0, m, [(hostid, .grantPage p page.content)])
  else if nested then (none, m, [])
  else match m.segvHandler n me p with
    | none => (none, m, [])
    | some (m, out, .run) =>
        if (m.heap.pageArray p).prot ≠ .none then
          (some 0, m, [(hostid, .grantPage p page.content)])
        else (none, m, out)
    | some (m, out, _) => (none, m, out)

/-- The first notice of a page and a host with the given timestamp. -/
def Heap.findPageNotice (p j : Nat) (timestamp : Timestamp) (h : Heap) : Option (Option Ptr) :=
  walk h.nextInPage (fun wn => h.noticeTime wn = timestamp) (h.noticeNum + 1)
    (h.pageNotices (p, j))

/-- The diff of a notice; a `WRITE` page is write-protected again. -/
def Heap.makeDiff (p : Nat) (wn : Ptr) (h : Heap) : Heap :=
  let page := h.pageArray p
  let h := h.setDiff wn (createLocalDiff page.memory page.twinPage)
  if page.state = .write then
    let h := (h.freeTwinPage p).2
    h.setPage p { h.pageArray p with state := .rdonly, prot := .read }
  else h

def HeapMem.grantDiff (n me hostid : Nat) (timestamp : Timestamp) (p : Nat) (m : HeapMem) :
    Option (Int × HeapMem × Out) :=
  let page := m.heap.pageArray p
  if n ≤ hostid ∨ hostid = me then some (-1, m, [])
  else if maxPageNum ≤ p then some (-1, m, [])
  else if page.state = .unmap ∨ page.state = .miss then some (-1, m, [])
  else match m.heap.findPageNotice p me timestamp with
    | none => none
    | some none => some (-2, m, [])
    | some (some wn) =>
        let heap := if (m.heap.writenotices wn).diffAddress.isSome then m.heap
          else m.heap.makeDiff p wn
        let diff := (heap.writenotices wn).diffAddress.getD fun _ => 0
        some (0, { m with heap := heap }, [(hostid, .grantDiff timestamp p diff)])

def HeapMem.handleGrantDiffMsg (sender : Nat) (timestamp : Timestamp) (p : Nat)
    (diff : Content) (m : HeapMem) : Option HeapMem :=
  match m.heap.findPageNotice p sender timestamp with
  | none => none
  | some none => some { m with fetchDiffWaitFlag := false }
  | some (some wn) =>
      let heap := if (m.heap.writenotices wn).diffAddress.isSome then m.heap
        else m.heap.setDiff wn (some diff)
      let page := heap.pageArray p
      some { m with
        heap := heap.setPage p { page with
          content := (applyDiff page.memory (some diff)).getD page.content
          prot := .none }
        fetchDiffWaitFlag := false }

def HeapMem.handleGrantPageMsg (p : Nat) (content : Content) (m : HeapMem) : HeapMem :=
  { m with
    heap := m.heap.setPage p { m.heap.pageArray p with content := content, prot := .readWrite }
    startInterval := upd m.startInterval p (some m.heap.intervalNow)
    fetchPageWaitFlag := false }

def HeapMem.storeBytes (p o : Nat) (bytes : List Byte) (m : HeapMem) : HeapMem :=
  let page := m.heap.pageArray p
  m.setPage p { page with content := writeBytes page.content o bytes }

/-! ## Notices on acquiring a lock -/

def HeapMem.fetchWritenoticeAndInterval (n me hostid : Nat) (m : HeapMem) :
    Option (HeapMem × Out) :=
  if n ≤ hostid then none
  else if hostid = me then none
  else some ({ m with heap := { m.heap with fetchWNIWaitFlag := true } },
    [(hostid, .fetchWnI (m.heap.intervals m.heap.intervalNow).timestamp)])

def Heap.grantWNI (n me hostid : Nat) (timestamp : Timestamp) (h : Heap) : Option (Int × Out) :=
  if n ≤ hostid then some (-1, [])
  else if hostid = me then some (-1, [])
  else ((List.range n).mapM h.readIntervals).map fun lists =>
    let packets := (((List.range n).zip lists).flatMap fun (j, intervals) =>
      packetsOf n timestamp j intervals).flatten
    (0, [(hostid, .grantWnI (h.intervals h.intervalNow).timestamp packets.length packets)])

/-! ## `syn.c` -/

structure HeapHost where
  mem : HeapMem
  syn : Syn
  pc : HeapPc
  ret : Option Int
  hung : Bool

def HeapHost.setHeap (heap : Heap) (h : HeapHost) : HeapHost :=
  { h with mem := { h.mem with heap := heap } }

def HeapHost.lockReturn (lockno : Int) (path : LockPath) (h : HeapHost) : HeapHost :=
  match path with
  | .grasped =>
      { h with
        syn := { h.syn with myLocks := upd h.syn.myLocks lockno true }
        pc := .run
        ret := none }
  | .waited =>
      { h with syn := { h.syn with lasthostid := -1 }, pc := .run, ret := none }
  | .remote =>
      { h with syn := { h.syn with lasthostid := -1 }, pc := .run, ret := some 0 }

def HeapHost.lockFetch (n me : Nat) (lockno : Int) (path : LockPath) (hostid : Int)
    (h : HeapHost) : HeapHost × Out :=
  match h.mem.fetchWritenoticeAndInterval n me hostid.toNat with
  | some (mem, out) => ({ h with mem := mem, pc := .wniWait lockno path }, out)
  | none => (h.lockReturn lockno path, [])

def HeapHost.miLock (n me : Nat) (lockno : Int) (h : HeapHost) : Option (HeapHost × Out) :=
  if lockno < 0 ∨ lockNum ≤ lockno then some ({ h with ret := some (-1) }, [])
  else if h.syn.myLocks lockno then some ({ h with ret := some (-2) }, [])
  else if lockno % n = me then
    let (result, syn) := graspLock n me lockno me h.syn
    let h := { h with syn := syn }
    if result = -3 then
      some ({ h with syn := { syn with waitFlag := true }, pc := .lockWait lockno }, [])
    else if result ≥ -1 then
      if result ≠ -1 ∧ result ≠ me then some (h.lockFetch n me lockno .grasped result)
      else (h.mem.heap.addNewInterval n me).map fun heap =>
        ((h.setHeap heap).lockReturn lockno .grasped, [])
    else some ({ h with ret := none }, [])
  else
    some ({ h with syn := { h.syn with waitFlag := true }, pc := .lockWait lockno },
      [((lockno % n).toNat, .acqLock lockno)])

/-- `mi_lock` after its wait for the lock. -/
def HeapHost.miLockResume (n me : Nat) (lockno : Int) (h : HeapHost) :
    Option (HeapHost × Out) :=
  let last := h.syn.lasthostid
  if lockno % n = me then
    if last ≠ -1 ∧ last ≠ me then some (h.lockFetch n me lockno .waited last)
    else some ({ h with pc := .run, ret := none }, [])
  else
    if last ≠ -1 ∧ last ≠ me then some (h.lockFetch n me lockno .remote last)
    else (h.mem.heap.addNewInterval n me).map fun heap =>
      ({ h.setHeap heap with pc := .run, ret := some 0 }, [])

def HeapHost.miUnlock (n me : Nat) (lockno : Int) (h : HeapHost) : Option (HeapHost × Out) :=
  if lockno < 0 ∨ lockNum ≤ lockno then some ({ h with ret := some (-1) }, [])
  else if h.syn.myLocks lockno = false then some ({ h with ret := some (-2) }, [])
  else (h.mem.heap.addNewInterval n me).map fun heap =>
    let h := h.setHeap heap
    let syn := { h.syn with myLocks := upd h.syn.myLocks lockno false }
    if lockno % n = me then
      let (result, syn) := freeLock n me lockno me syn
      ({ h with syn := syn, ret := none },
        if result ≥ 0 ∧ result ≠ me then grantLock n me lockno result syn else [])
    else
      ({ h with syn := syn, ret := some 0 }, [((lockno % n).toNat, .rlsLock lockno)])

def HeapHost.checkBarrierFlags (n me : Nat) (h : HeapHost) : Option (Bool × HeapHost × Out) :=
  if me ≠ 0 then some (false, h, [])
  else if (List.range n).all h.syn.barrierFlags = false then some (false, h, [])
  else (h.mem.heap.returnAllBarrierInfo n).map fun (heap, out) =>
    let syn := { h.syn with
      locks := fun l => { h.syn.locks l with lasthostid := -1 }
      barrierFlags := fun i => if i < n then false else h.syn.barrierFlags i }
    (true, { h.setHeap heap with syn := syn },
      out ++ (List.range' 1 (n - 1)).map fun i => (i, .exitBarrier))

def HeapHost.miBarrier (n me : Nat) (h : HeapHost) : Option (HeapHost × Out) :=
  if me = 0 then
    let heap := h.mem.heap
    let heap := { heap with
      barrierTimestamps := upd heap.barrierTimestamps 0 fun i =>
        if i.val < n then (heap.intervals heap.intervalNow).timestamp i
        else heap.barrierTimestamps 0 i }
    let syn := { h.syn with barrierFlags := upd h.syn.barrierFlags 0 true }
    match ({ h.setHeap heap with syn := syn }).checkBarrierFlags n me with
    | none => none
    | some (true, h, out) => some ({ h with ret := none }, out)
    | some (false, h, out) =>
        some ({ h with syn := { h.syn with waitFlag := true }, pc := .barrierWait }, out)
  else
    (h.mem.heap.sendEnterBarrierInfo n me).map fun out =>
      ({ h with syn := { h.syn with waitFlag := true }, pc := .barrierWait },
        out ++ [(0, .enterBarrier)])

def HeapHost.handleAcquireMsg (n me sender : Nat) (lockno : Int) (h : HeapHost) :
    HeapHost × Out :=
  if 0 ≤ lockno ∧ lockno ≤ lockNum then
    let (result, syn) := graspLock n me lockno sender h.syn
    ({ h with syn := syn },
      if result ≥ -1 then grantLock n me lockno sender syn else [])
  else (h, [])

def HeapHost.handleReleaseMsg (n me sender : Nat) (lockno : Int) (h : HeapHost) :
    HeapHost × Out :=
  if 0 ≤ lockno ∧ lockno < lockNum then
    let (result, syn) := freeLock n me lockno sender h.syn
    if result ≥ 0 then
      if result = me then
        ({ h with syn := { syn with
            lasthostid := sender
            waitFlag := false
            myLocks := upd syn.myLocks lockno true } }, [])
      else ({ h with syn := syn }, grantLock n me lockno result syn)
    else ({ h with syn := syn }, [])
  else (h, [])

def HeapHost.handleGrantMsg (lockno lasthostid : Int) (h : HeapHost) : HeapHost :=
  if 0 ≤ lockno ∧ lockno < lockNum then
    { h with syn := { h.syn with
        lasthostid := lasthostid
        myLocks := upd h.syn.myLocks lockno true
        waitFlag := false } }
  else h

def HeapHost.handleEnterBarrierMsg (n me sender : Nat) (h : HeapHost) :
    Option (HeapHost × Out) :=
  let syn := { h.syn with barrierFlags := upd h.syn.barrierFlags sender true }
  match ({ h with syn := syn }).checkBarrierFlags n me with
  | none => none
  | some (true, h, out) => some ({ h with syn := { h.syn with waitFlag := false } }, out)
  | some (false, h, out) => some (h, out)

def HeapHost.handleExitBarrierMsg (sender : Nat) (h : HeapHost) : HeapHost :=
  if sender = 0 then { h with syn := { h.syn with waitFlag := false } } else h

/-! ## One host -/

def HeapHost.dispatchMsg (n me sender : Nat) (msg : Msg) (h : HeapHost) :
    Option (HeapHost × Out) :=
  match msg with
  | .acqLock lockno => some (h.handleAcquireMsg n me sender lockno)
  | .rlsLock lockno => some (h.handleReleaseMsg n me sender lockno)
  | .grantLock lockno last => some (h.handleGrantMsg lockno last, [])
  | .enterBarrier => h.handleEnterBarrierMsg n me sender
  | .exitBarrier => some (h.handleExitBarrierMsg sender, [])
  | .grantWnI ts k packets =>
      (h.mem.heap.handleGrantWNIMsg me ts k packets).map fun heap => (h.setHeap heap, [])
  | .grantDiff ts p diff =>
      (h.mem.handleGrantDiffMsg sender ts p diff).map fun mem => ({ h with mem := mem }, [])
  | .grantPage p content => some ({ h with mem := h.mem.handleGrantPageMsg p content }, [])
  | .fetchPage p =>
      let (result, mem, out) := h.mem.grantPage n me sender p h.pc.faulting.isSome
      some ({ h with mem := mem, hung := h.hung || result.isNone }, out)
  | .fetchWnI ts => (h.mem.heap.grantWNI n me sender ts).map fun (_, out) => (h, out)
  | .fetchDiff p ts =>
      (h.mem.grantDiff n me sender ts p).map fun (_, mem, out) => ({ h with mem := mem }, out)
  | .grantEnterBarrierInfo ts k packets =>
      (h.mem.heap.handleGrantEnterBarrierMsg me sender ts k packets).map fun heap =>
        (h.setHeap heap, [])
  | .grantExitBarrierInfo ts k packets =>
      (h.mem.heap.handleGrantExitBarrierMsg me ts k packets).map fun heap =>
        (h.setHeap heap, [])

/-- A fault and what the main thread does until it spins. -/
def HeapHost.fault (n me p : Nat) (h : HeapHost) : Option (HeapHost × Out) :=
  (h.mem.segvHandler n me p).map fun (mem, out, pc) => ({ h with mem := mem, pc := pc }, out)

def HeapHost.load (n me p : Nat) (h : HeapHost) : Option (HeapHost × Out) :=
  if (h.mem.heap.pageArray p).prot ≠ .none then some (h, [])
  else h.fault n me p

def HeapHost.store (n me p o : Nat) (bytes : List Byte) (h : HeapHost) :
    Option (HeapHost × Out) :=
  if (h.mem.heap.pageArray p).prot = .readWrite then
    some ({ h with mem := h.mem.storeBytes p o bytes }, [])
  else (h.fault n me p).map fun (h, out) =>
    if (h.mem.heap.pageArray p).prot = .readWrite then
      ({ h with mem := h.mem.storeBytes p o bytes }, out)
    else (h, out)

/-- The main thread leaves the loop it spins in. -/
def HeapHost.resume (n me : Nat) (h : HeapHost) : Option (HeapHost × Out) :=
  match h.pc with
  | .run => none
  | .lockWait lockno => if h.syn.waitFlag then none else h.miLockResume n me lockno
  | .wniWait lockno path =>
      if h.mem.heap.fetchWNIWaitFlag then none else some (h.lockReturn lockno path, [])
  | .barrierWait =>
      if h.syn.waitFlag then none else some ({ h with pc := .run, ret := none }, [])
  | .pageWait p =>
      if h.mem.fetchPageWaitFlag then none
      else some ({ h with mem := h.mem.fetchPageResume p, pc := .run }, [])
  | .diffWait p pageTimestamp i wn =>
      if h.mem.fetchDiffWaitFlag then none
      else (h.mem.fetchDiffResume n me p pageTimestamp i wn).map fun (mem, out, pc) =>
        ({ h with mem := mem, pc := pc }, out)

/-- A segment of the main thread. -/
def HeapHost.exec (n me : Nat) (op : Op) (h : HeapHost) : Option (HeapHost × Out) :=
  match op, h.pc with
  | .resume, _ => h.resume n me
  | .alloc size, .run => some ({ h with mem := (h.mem.miAlloc n me size).2 }, [])
  | .load p _ _, .run => h.load n me p
  | .store p o bytes, .run => h.store n me p o bytes
  | .lock lockno, .run => h.miLock n me lockno
  | .unlock lockno, .run => h.miUnlock n me lockno
  | .barrier, .run => h.miBarrier n me
  | _, _ => none

/-! ## All hosts -/

structure HeapSys where
  host : Nat → HeapHost
  net : Nat → Nat → List Msg

def HeapSys.put (s : HeapSys) (a : Nat) (r : HeapHost × Out) : HeapSys :=
  ⟨upd s.host a r.1, upd s.net a fun b => s.net a b ++ outTo r.2 b⟩

def HeapSys.pop (s : HeapSys) (a b : Nat) : HeapSys :=
  { s with net := upd s.net a (upd (s.net a) b (s.net a b).tail) }

def heapSysStep (n : Nat) (s : HeapSys) : Event → Option HeapSys
  | .op h op =>
      if h < n ∧ (s.host h).hung = false then ((s.host h).exec n h op).map (s.put h) else none
  | .deliver a b =>
      if a < n ∧ b < n ∧ a ≠ b ∧ (s.host b).hung = false then
        match s.net a b with
        | [] => none
        | msg :: _ => ((s.host b).dispatchMsg n b a msg).map ((s.pop a b).put b)
      else none

/-- `initmem`. -/
def initHeapMem (me : Nat) : HeapMem :=
  ⟨initHeap me, fun _ => none, false, false, 0, 0⟩

def initHeapSys : HeapSys :=
  ⟨fun h => ⟨initHeapMem h, initsyn, .run, none, false⟩, fun _ _ => []⟩

end Midsm
