import Midsm.Lib.Chain
import Midsm.Ref.System

/-!
# The linked lists of `mem.c`

Elsewhere the intervals of a host and the notices of an interval or of a page are
lists. Here they are the cells that `malloc` returns, with the pointers between them,
and the functions that put in a cell set one pointer after the other.

`none` is a run that reads through `NULL` or does not come to an end: a loop along a
list has as fuel one round more than there are cells. `malloc` does not fail, and the
cells of the two types are numbered apart. A cell is written as a whole where `malloc`
is followed by an assignment to each of its fields.
-/

namespace Midsm

open Midsm.Lib

/-- A pointer that is not `NULL`. -/
abbrev Ptr : Type := Nat

/-- `interval_t`. -/
structure IntervalCell where
  timestamp : Timestamp
  notices : Option Ptr
  next : Option Ptr
  prev : Option Ptr
  isBarrier : Bool

/-- `writenotice_t`. -/
structure NoticeCell where
  interval : Ptr
  nextInPage : Option Ptr
  nextInInterval : Option Ptr
  diffAddress : Option Content
  pageIndex : Nat

/-- `page_t` but for `startInterval`, with the memory at `address`. -/
structure HeapPage where
  address : Nat
  state : PageState
  notices : Nat → Option Ptr
  twinPage : Option Content
  content : Content
  prot : Prot

/-- The cells, and the globals of `mem.c` that the functions below use. `procArray` is
its field `intervalList`. -/
structure Heap where
  intervals : Ptr → IntervalCell
  intervalNum : Nat
  writenotices : Ptr → NoticeCell
  noticeNum : Nat
  pageArray : Nat → HeapPage
  procArray : Nat → Option Ptr
  intervalNow : Ptr
  fetchWNIWaitFlag : Bool
  barrierTimestamps : Nat → Timestamp

/-! ## Cells and pointers -/

def Heap.next (h : Heap) (a : Ptr) : Option Ptr := (h.intervals a).next

def Heap.prev (h : Heap) (a : Ptr) : Option Ptr := (h.intervals a).prev

def Heap.firstNotice (h : Heap) (a : Ptr) : Option Ptr := (h.intervals a).notices

def Heap.nextInInterval (h : Heap) (wn : Ptr) : Option Ptr := (h.writenotices wn).nextInInterval

def Heap.nextInPage (h : Heap) (wn : Ptr) : Option Ptr := (h.writenotices wn).nextInPage

/-- `pageArray[p].notices[j]`, for the pair of `p` and `j`. -/
def Heap.pageNotices (h : Heap) (i : Nat × Nat) : Option Ptr := (h.pageArray i.1).notices i.2

def Heap.setPage (p : Nat) (page : HeapPage) (h : Heap) : Heap :=
  { h with pageArray := upd h.pageArray p page }

/-- An interval without notices before the first one of host `j`; the old first one
points back to it unless the list was empty. -/
def Heap.pushInterval (j : Nat) (timestamp : Timestamp) (isBarrier : Bool) (h : Heap) : Heap :=
  let interval := h.intervalNum
  let cells := upd h.intervals interval
    { timestamp := timestamp
      notices := none
      next := h.procArray j
      prev := none
      isBarrier := isBarrier }
  { h with
    intervals := match h.procArray j with
      | none => cells
      | some first => upd cells first { cells first with prev := some interval }
    intervalNum := interval + 1
    procArray := upd h.procArray j (some interval) }

/-- An interval at the head of the own list that `intervalNow` then points to. -/
def Heap.pushNow (me : Nat) (timestamp : Timestamp) (isBarrier : Bool) (h : Heap) : Heap :=
  { h.pushInterval me timestamp isBarrier with intervalNow := h.intervalNum }

/-- `procArray[me].intervalList->prev` is written without a test for `NULL`. -/
def Heap.pushBarrier (me : Nat) (timestamp : Timestamp) (h : Heap) : Option Heap :=
  if (h.procArray me).isNone then none else some (h.pushNow me timestamp true)

/-- A notice for page `p` before those of the page and after `lastwn` in the list of the
interval. -/
def Heap.addNotice (hostid : Nat) (interval : Ptr) (lastwn : Option Ptr) (p : Nat) (h : Heap) :
    Heap :=
  let wn := h.noticeNum
  let page := h.pageArray p
  let cells := upd h.writenotices wn
    { interval := interval
      nextInPage := page.notices hostid
      nextInInterval := none
      diffAddress := none
      pageIndex := p }
  let h := { h with
    noticeNum := wn + 1
    pageArray := upd h.pageArray p { page with notices := upd page.notices hostid (some wn) } }
  match lastwn with
  | none =>
      { h with
        writenotices := cells
        intervals := upd h.intervals interval { h.intervals interval with notices := some wn } }
  | some last =>
      { h with
        writenotices := upd cells last { cells last with nextInInterval := some wn } }

/-- The last notice of an interval; `some none` when it has none. -/
def Heap.lastNotice (interval : Ptr) (h : Heap) : Option (Option Ptr) :=
  walk h.nextInInterval (fun wn => (h.nextInInterval wn).isNone) (h.noticeNum + 1)
    (h.firstNotice interval)

/-! ## `initmem` and the own intervals -/

/-- `initmem`. -/
def initHeap (me : Nat) : Heap where
  intervals a :=
    { timestamp := fun _ => 0
      notices := none
      next := none
      prev := none
      isBarrier := a = 0 }
  intervalNum := 1
  writenotices _ := ⟨0, none, none, none, 0⟩
  noticeNum := 0
  pageArray _ :=
    { address := 0
      state := .unmap
      notices := fun _ => none
      twinPage := none
      content := fun _ => 0
      prot := .none }
  procArray := upd (fun _ => none) me (some 0)
  intervalNow := 0
  fetchWNIWaitFlag := false
  barrierTimestamps _ _ := -1

def Heap.addNewInterval (n me : Nat) (h : Heap) : Option Heap :=
  match h.procArray me with
  | none => none
  | some first => some (h.pushNow me (bump me (cut n 0 (h.intervals first).timestamp)) false)

/-! ## Pages -/

def HeapPage.memory (page : HeapPage) : Option Content :=
  if page.address = 0 then none else some page.content

def Heap.createTwinPage (p : Nat) (h : Heap) : Int × Heap :=
  let page := h.pageArray p
  if maxPageNum ≤ p then (-1, h)
  else if page.state = .unmap ∨ page.state = .miss then (-1, h)
  else if page.address = 0 ∨ page.twinPage.isSome then (-1, h)
  else (0, h.setPage p { page with twinPage := some page.content })

def Heap.freeTwinPage (p : Nat) (h : Heap) : Int × Heap :=
  let page := h.pageArray p
  if maxPageNum ≤ p then (-1, h)
  else if page.state = .unmap ∨ page.state = .miss then (-1, h)
  else if page.address = 0 ∨ page.twinPage = none then (-1, h)
  else (0, h.setPage p { page with twinPage := none })

def Heap.createWriteNotice (me p : Nat) (h : Heap) : Option (Int × Heap) :=
  if maxPageNum ≤ p then some (-1, h)
  else if (h.pageArray p).state ≠ .rdonly then some (-1, h)
  else (h.lastNotice h.intervalNow).map fun temp => (0, h.addNotice me h.intervalNow temp p)

/-- `segv_handler` on a readable page in state `RDONLY`. -/
def Heap.segvHandler (me p : Nat) (h : Heap) : Option Heap :=
  ((h.createTwinPage p).2.createWriteNotice me p).map fun (_, h) =>
    h.setPage p { h.pageArray p with state := .write, prot := .readWrite }

/-- What a new notice does to the page it names. -/
def Heap.invalidatePage (me p : Nat) (h : Heap) : Option Heap :=
  let page := h.pageArray p
  match page.state with
  | .rdonly => some (h.setPage p { page with state := .invalid, prot := .none })
  | .write =>
      let h := h.setPage p { page with state := .invalid }
      match page.notices me with
      | none => none
      | some wn =>
          let diff := createLocalDiff page.memory page.twinPage
          let h := { h with
            writenotices := upd h.writenotices wn { h.writenotices wn with diffAddress := diff } }
          let h := (h.freeTwinPage p).2
          some (h.setPage p { h.pageArray p with prot := .none })
  | _ => some h

/-! ## Incorporating notices -/

/-- The first interval of a host with the given timestamp. -/
def Heap.findInterval (hostid : Nat) (timestamp : Timestamp) (h : Heap) : Option (Option Ptr) :=
  walk h.next (fun interval => (h.intervals interval).timestamp = timestamp)
    (h.intervalNum + 1) (h.procArray hostid)

/-- The interval of a packet, entered at the head of its host's list if it is not there,
and the last of its notices. -/
def Heap.enterInterval (hostid : Nat) (timestamp : Timestamp) (h : Heap) :
    Option (Ptr × Option Ptr × Heap) :=
  match h.findInterval hostid timestamp with
  | none => none
  | some none => some (h.intervalNum, none, h.pushInterval hostid timestamp false)
  | some (some interval) => (h.lastNotice interval).map fun lastwn => (interval, lastwn, h)

/-- The first notice of an interval for page `p`. -/
def Heap.findNotice (interval : Ptr) (p : Nat) (h : Heap) : Option (Option Ptr) :=
  walk h.nextInInterval (fun wn => (h.writenotices wn).pageIndex = p) (h.noticeNum + 1)
    (h.firstNotice interval)

/-- One round of the loop over `wnArray`. -/
def Heap.incorporateNotice (me hostid : Nat) (interval : Ptr) :
    Option Ptr × Heap → Nat → Option (Option Ptr × Heap)
  | (lastwn, h), p =>
      match h.findNotice interval p with
      | none => none
      | some (some _) => some (lastwn, h)
      | some none =>
          (h.invalidatePage me p).map fun h =>
            (some h.noticeNum, h.addNotice hostid interval lastwn p)

def Heap.incorporateWnPacket (me : Nat) (h : Heap) (packet : WnPacket) : Option Heap :=
  match h.enterInterval packet.hostid packet.timestamp with
  | none => none
  | some (interval, lastwn, h) =>
      (packet.wnArray.foldlM (Heap.incorporateNotice me packet.hostid interval)
        (lastwn, h)).map Prod.snd

def Heap.incorporatePackets (me packetNum : Nat) (packets : List WnPacket) (h : Heap) :
    Option Heap :=
  (packets.take packetNum).foldlM (Heap.incorporateWnPacket me) h

def Heap.handleGrantWNIMsg (me : Nat) (timestamp : Timestamp) (packetNum : Nat)
    (packets : List WnPacket) (h : Heap) : Option Heap :=
  ((h.pushNow me (bump me timestamp) false).incorporatePackets me packetNum packets).map
    fun h => { h with fetchWNIWaitFlag := false }

/-! ## Barriers -/

/-- The intervals from one on that the senders read, following `prev`. -/
def Heap.backFrom (interval : Option Ptr) (h : Heap) : Option (List Ptr) :=
  collect h.prev (h.intervalNum + 1) interval

/-- An interval as `addWNIIntoPacketForHost` reads it. -/
def Heap.readInterval (h : Heap) (interval : Ptr) : Option Interval :=
  (collect h.nextInInterval (h.noticeNum + 1) (h.firstNotice interval)).map fun wns =>
    { timestamp := (h.intervals interval).timestamp
      notices := wns.map fun wn => (h.writenotices wn).pageIndex
      isBarrier := (h.intervals interval).isBarrier }

/-- The intervals of a host from the last one of its list on. -/
def Heap.readIntervals (h : Heap) (j : Nat) : Option (List Interval) :=
  match h.procArray j with
  | none => some []
  | some first =>
      match walk h.next (fun a => (h.next a).isNone) (h.intervalNum + 1) (some first) with
      | none => none
      | some last => (h.backFrom last).bind fun as => as.mapM h.readInterval

/-- `while(interval->isBarrier != 1)` in `sendEnterBarrierInfo`; `none` when the loop
reads through `NULL`. -/
def Heap.sinceBarrier (me : Nat) (h : Heap) : Option Ptr :=
  (walk h.next (fun a => (h.intervals a).isBarrier) (h.intervalNum + 1) (h.procArray me)).join

def Heap.sendEnterBarrierInfo (n me : Nat) (h : Heap) : Option Out :=
  if me = 0 then some []
  else match h.sinceBarrier me with
    | none => none
    | some interval =>
        match (h.backFrom (some interval)).bind fun as => as.mapM h.readInterval with
        | none => none
        | some intervals =>
            some (encode .grantEnterBarrierInfo 0
              (cut n (-1) (h.intervals h.intervalNow).timestamp)
              (intervals.map (intervalPackets me)))

/-- The packets of a host's intervals after a timestamp. -/
def packetsOf (n : Nat) (timestamp : Timestamp) (j : Nat) (intervals : List Interval) :
    List (List WnPacket) :=
  (intervals.filter fun interval => isAfterInterval n interval.timestamp timestamp).map
    (intervalPackets j)

/-- `returnAllBarrierInfo`, but for the locks it resets. -/
def Heap.returnAllBarrierInfo (n : Nat) (h : Heap) : Option (Heap × Out) :=
  let timestamp : Timestamp := fun i =>
    if i.val < n then h.barrierTimestamps i.val i + 1 else 0
  match h.pushBarrier 0 timestamp with
  | none => none
  | some h =>
      match (List.range n).mapM h.readIntervals with
      | none => none
      | some lists =>
          some ({ h with
              barrierTimestamps := fun i j =>
                if i < n ∧ j.val < n then -1 else h.barrierTimestamps i j },
            (List.range' 1 (n - 1)).flatMap fun i =>
              encode .grantExitBarrierInfo i (cut n (-1) timestamp)
                (((List.range n).zip lists).flatMap fun (j, intervals) =>
                  packetsOf n (h.barrierTimestamps i) j intervals))

def Heap.handleGrantEnterBarrierMsg (me sender : Nat) (timestamp : Timestamp) (packetNum : Nat)
    (packets : List WnPacket) (h : Heap) : Option Heap :=
  let h := if timestamp 0 ≠ -1 ∧ h.barrierTimestamps sender 0 = -1 then
      { h with barrierTimestamps := upd h.barrierTimestamps sender timestamp }
    else h
  h.incorporatePackets me packetNum packets

def Heap.handleGrantExitBarrierMsg (me : Nat) (timestamp : Timestamp) (packetNum : Nat)
    (packets : List WnPacket) (h : Heap) : Option Heap :=
  (if timestamp 0 ≠ -1 then h.pushBarrier me timestamp else some h).bind
    (Heap.incorporatePackets me packetNum packets)

/-! ## Runs -/

inductive HeapEvent where
  | addNewInterval
  | segvHandler (pageIndex : Nat)
  | grantWNI (timestamp : Timestamp) (packetNum : Nat) (packets : List WnPacket)
  | enterInfo (sender : Nat) (timestamp : Timestamp) (packetNum : Nat) (packets : List WnPacket)
  | exitInfo (timestamp : Timestamp) (packetNum : Nat) (packets : List WnPacket)
  | returnAllBarrierInfo
  /-- Another function writes a page or its entry, but not its lists. -/
  | page (pageIndex address : Nat) (state : PageState) (twinPage : Option Content)
      (content : Content) (prot : Prot)
  /-- Another function stores a diff. -/
  | diff (wn : Ptr) (diff : Option Content)

def heapStep (n me : Nat) (h : Heap) : HeapEvent → Option Heap
  | .addNewInterval => h.addNewInterval n me
  | .segvHandler p => h.segvHandler me p
  | .grantWNI ts k packets => h.handleGrantWNIMsg me ts k packets
  | .enterInfo sender ts k packets => h.handleGrantEnterBarrierMsg me sender ts k packets
  | .exitInfo ts k packets => h.handleGrantExitBarrierMsg me ts k packets
  | .returnAllBarrierInfo => (h.returnAllBarrierInfo n).map Prod.fst
  | .page p address state twinPage content prot =>
      some (h.setPage p { h.pageArray p with
        address := address
        state := state
        twinPage := twinPage
        content := content
        prot := prot })
  | .diff wn diff =>
      some { h with
        writenotices := upd h.writenotices wn { h.writenotices wn with diffAddress := diff } }

/-- The packets of a message come from other hosts and name pages that exist. -/
def PacketsOk (n me packetNum : Nat) (packets : List WnPacket) : Prop :=
  ∀ packet ∈ packets.take packetNum, packet.hostid < n ∧ packet.hostid ≠ me ∧
    packet.wnArray.length ≤ maxWnNum ∧ ∀ p ∈ packet.wnArray, p < maxPageNum

/-- When each function is called. A page becomes `WRITE` in `segv_handler` only. -/
def HeapEvent.Legal (n me : Nat) (h : Heap) : HeapEvent → Prop
  | .addNewInterval => True
  | .segvHandler p => p < maxPageNum ∧ (h.pageArray p).state = .rdonly
  | .grantWNI _ k packets => PacketsOk n me k packets
  | .enterInfo sender _ k packets => sender < n ∧ PacketsOk n me k packets
  | .exitInfo _ k packets => PacketsOk n me k packets
  | .returnAllBarrierInfo => me = 0
  | .page p _ state _ _ _ => state = .write → (h.pageArray p).state = .write
  | .diff wn _ => wn < h.noticeNum

end Midsm
