import Midsm.Ref.Syn

/-!
# The system

All hosts and the datagrams between them. A step is one segment of an API call
between two waits, one access to shared memory, or one run of `dispatchMsg` on
the oldest message of a channel; each is atomic. The channels are FIFO and
deliver every message once. `sigio_handler` never reads the socket of its own
host, so a message a host sends to itself stays in its channel.
-/

namespace Midsm

/-! ## One host -/

/-- The messages that `mem.c` handles. -/
def handleGrantEnterBarrierMsg (me sender : Nat) (timestamp : Timestamp)
    (packetNum : Nat) (packets : List WnPacket) (m : Mem) : Mem :=
  let m := if timestamp 0 ≠ -1 ∧ m.barrierTimestamps sender 0 = -1 then
      { m with barrierTimestamps := upd m.barrierTimestamps sender timestamp }
    else m
  incorporatePackets me packetNum packets m

def handleGrantExitBarrierMsg (me : Nat) (timestamp : Timestamp)
    (packetNum : Nat) (packets : List WnPacket) (m : Mem) : Mem :=
  let m := if timestamp 0 ≠ -1 then m.pushNow me ⟨timestamp, [], true⟩ else m
  incorporatePackets me packetNum packets m

def dispatchMsg (n me sender : Nat) (msg : Msg) (h : Host) : Host × Out :=
  match msg with
  | .acqLock lockno => handleAcquireMsg n me sender lockno h
  | .rlsLock lockno => handleReleaseMsg n me sender lockno h
  | .grantLock lockno last => (handleGrantMsg lockno last h, [])
  | .enterBarrier => handleEnterBarrierMsg n me sender h
  | .exitBarrier => (handleExitBarrierMsg sender h, [])
  | .grantWnI ts k packets =>
      ({ h with mem := handleGrantWNIMsg me ts k packets h.mem }, [])
  | .grantDiff ts p diff =>
      ({ h with mem := handleGrantDiffMsg sender ts p diff h.mem }, [])
  | .grantPage p content =>
      ({ h with mem := handleGrantPageMsg me p content h.mem }, [])
  | .fetchPage p =>
      let (result, mem, out) := grantPage n me sender p h.pc.faulting.isSome h.mem
      ({ h with mem := mem, hung := h.hung || result.isNone }, out)
  | .fetchWnI ts => (h, (grantWNI n me sender ts h.mem).2)
  | .fetchDiff p ts =>
      let (_, mem, out) := grantDiff n me sender ts p h.mem
      ({ h with mem := mem }, out)
  | .grantEnterBarrierInfo ts k packets =>
      ({ h with mem := handleGrantEnterBarrierMsg me sender ts k packets h.mem }, [])
  | .grantExitBarrierInfo ts k packets =>
      ({ h with mem := handleGrantExitBarrierMsg me ts k packets h.mem }, [])

/-- The bytes `len` from offset `o` on, and a write of them. -/
def readBytes (content : Content) (o len : Nat) : List Byte :=
  (List.range len).map fun k =>
    if h : o + k < pageSize then content ⟨o + k, h⟩ else 0

def writeBytes (content : Content) (o : Nat) (bytes : List Byte) : Content :=
  fun i => if o ≤ i.val then (bytes[i.val - o]?).getD (content i) else content i

/-- A fault and what the main thread does until it spins. -/
def Host.fault (n me p : Nat) (h : Host) : Option (Host × Out) :=
  (segvHandler n me p h.mem).map fun (mem, out, pc) =>
    ({ h with mem := mem, pc := pc }, out)

/-- A load that does not fault leaves the host as it is. -/
def Host.load (n me p : Nat) (h : Host) : Option (Host × Out) :=
  if (h.mem.pageArray p).prot ≠ .none then some (h, [])
  else h.fault n me p

def Mem.storeBytes (p o : Nat) (bytes : List Byte) (m : Mem) : Mem :=
  let page := m.pageArray p
  m.setPage p { page with content := writeBytes page.content o bytes }

/-- A store; it runs after `segv_handler` has made the page writable, and a fault
that has to fetch leaves it to be tried again. -/
def Host.store (n me p o : Nat) (bytes : List Byte) (h : Host) :
    Option (Host × Out) :=
  if (h.mem.pageArray p).prot = .readWrite then
    some ({ h with mem := h.mem.storeBytes p o bytes }, [])
  else (h.fault n me p).map fun (h, out) =>
    if (h.mem.pageArray p).prot = .readWrite then
      ({ h with mem := h.mem.storeBytes p o bytes }, out)
    else (h, out)

/-- The main thread leaves the loop it spins in. -/
def Host.resume (n me : Nat) (h : Host) : Option (Host × Out) :=
  match h.pc with
  | .run => none
  | .lockWait lockno =>
      if h.syn.waitFlag then none else some (miLockResume n me lockno h)
  | .wniWait lockno path =>
      if h.mem.fetchWNIWaitFlag then none else some (lockReturn lockno path h, [])
  | .barrierWait =>
      if h.syn.waitFlag then none else some ({ h with pc := .run, ret := none }, [])
  | .pageWait p =>
      if h.mem.fetchPageWaitFlag then none
      else some ({ h with mem := fetchPageResume p h.mem, pc := .run }, [])
  | .diffWait p pageTimestamp i rest =>
      if h.mem.fetchDiffWaitFlag then none
      else
        let (mem, out, pc) := fetchDiffResume n me p pageTimestamp i rest h.mem
        some ({ h with mem := mem, pc := pc }, out)

/-! ## All hosts -/

structure Sys where
  host : Nat → Host
  net : Nat → Nat → List Msg

/-- What the main thread of a host does next. -/
inductive Op where
  | alloc (size : Int)
  | load (pageIndex offset len : Nat)
  | store (pageIndex offset : Nat) (bytes : List Byte)
  | lock (lockno : Int)
  | unlock (lockno : Int)
  | barrier
  | resume

inductive Event where
  | op (h : Nat) (op : Op)
  | deliver (sender receiver : Nat)

/-- A segment of the main thread. Everything but `resume` starts in the
program. -/
def Host.exec (n me : Nat) (op : Op) (h : Host) : Option (Host × Out) :=
  match op, h.pc with
  | .resume, _ => h.resume n me
  | .alloc size, .run => some ({ h with mem := (miAlloc n me size h.mem).2 }, [])
  | .load p _ _, .run => h.load n me p
  | .store p o bytes, .run => h.store n me p o bytes
  | .lock lockno, .run => some (miLock n me lockno h)
  | .unlock lockno, .run => some (miUnlock n me lockno h)
  | .barrier, .run => some (miBarrier n me h)
  | _, _ => none

/-- The messages of `out` for host `b`, in order. -/
def outTo (out : Out) (b : Nat) : List Msg :=
  (out.filter fun x => x.1 = b).map Prod.snd

/-- Host `a` is replaced and its messages join its channels. -/
def Sys.put (s : Sys) (a : Nat) (r : Host × Out) : Sys :=
  ⟨upd s.host a r.1, upd s.net a fun b => s.net a b ++ outTo r.2 b⟩

/-- The oldest message from `a` to `b` leaves its channel. -/
def Sys.pop (s : Sys) (a b : Nat) : Sys :=
  { s with net := upd s.net a (upd (s.net a) b (s.net a b).tail) }

/-- A host whose handler does not return does nothing any more. -/
def step (n : Nat) (s : Sys) : Event → Option Sys
  | .op h op =>
      if h < n ∧ (s.host h).hung = false then ((s.host h).exec n h op).map (s.put h) else none
  | .deliver a b =>
      if a < n ∧ b < n ∧ a ≠ b ∧ (s.host b).hung = false then
        match s.net a b with
        | [] => none
        | msg :: _ => some ((s.pop a b).put b (dispatchMsg n b a msg (s.host b)))
      else none

/-- `initmem`. -/
def initmem (me : Nat) : Mem where
  pageArray _ := ⟨0, .unmap, fun _ => [], none, none, fun _ => 0, .none⟩
  procArray := upd (fun _ => []) me [⟨fun _ => 0, [], true⟩]
  intervalNow := 1
  fetchPageWaitFlag := false
  fetchDiffWaitFlag := false
  fetchWNIWaitFlag := false
  pagenum := 0
  globalAddress := 0
  barrierTimestamps _ := blankTimestamp

def initSys : Sys := ⟨fun h => ⟨initmem h, initsyn, .run, none, false⟩, fun _ _ => []⟩

end Midsm
