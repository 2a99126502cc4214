import Midsm.Ref.Types

/-!
# `mem.c`

Pages, twins, diffs, intervals and write notices of one host. `n` is
`hostnum` and `me` is `myhostid` throughout. A function that hands messages to
`sendMsg` returns them as an `Out`; one that blocks in the source is cut at the
point where it starts to spin, and what it does afterwards is a function of its
own.
-/

namespace Midsm

/-! ## Timestamps -/

/-- The array indices below `hostnum`, in loop order. -/
def hostIds (n : Nat) : List (Fin maxHostNum) :=
  (List.finRange maxHostNum).filter fun i => i.val < n

def isAfterLoop (timestamp target : Timestamp) :
    List (Fin maxHostNum) → Bool → Bool
  | [], bigger => bigger
  | i :: rest, bigger =>
      if target i < timestamp i then isAfterLoop timestamp target rest true
      else if timestamp i < target i then false
      else isAfterLoop timestamp target rest bigger

def isAfterInterval (n : Nat) (timestamp target : Timestamp) : Bool :=
  isAfterLoop timestamp target (hostIds n) false

/-- `(timestamp[me])++`. -/
def bump (me : Nat) (timestamp : Timestamp) : Timestamp :=
  fun i => if i.val = me then timestamp i + 1 else timestamp i

/-- The first `hostnum` cells of a timestamp, over an array filled with `fill`. -/
def cut (n : Nat) (fill : Int) (timestamp : Timestamp) : Timestamp :=
  fun i => if i.val < n then timestamp i else fill

/-- A timestamp as `nextFreeMsgInQueue` leaves it. -/
def blankTimestamp : Timestamp := fun _ => -1

/-! ## The interval lists -/

def noInterval : Interval := ⟨fun _ => 0, [], false⟩

/-- The interval `intervalNow` points to. -/
def Mem.now (me : Nat) (m : Mem) : Interval :=
  let list := m.procArray me
  (list.drop (list.length - m.intervalNow)).headD noInterval

/-- A new head of the host's own list that `intervalNow` then points to. -/
def Mem.pushNow (me : Nat) (interval : Interval) (m : Mem) : Mem :=
  { m with
    procArray := upd m.procArray me (interval :: m.procArray me)
    intervalNow := (m.procArray me).length + 1 }

def Mem.setPage (p : Nat) (page : Page) (m : Mem) : Mem :=
  { m with pageArray := upd m.pageArray p page }

def addNewInterval (n me : Nat) (m : Mem) : Mem :=
  let head := (m.procArray me).headD noInterval
  m.pushNow me ⟨bump me (cut n 0 head.timestamp), [], false⟩

/-! ## Twins and diffs -/

/-- The memory at a page's address, when it has one. -/
def Page.memory (page : Page) : Option Content :=
  if page.address = 0 then none else some page.content

def applyDiff (page diff : Option Content) : Option Content :=
  match page, diff with
  | some page, some diff => some fun i => page i + diff i
  | _, _ => none

def createLocalDiff (page twin : Option Content) : Option Content :=
  match page, twin with
  | some page, some twin => some fun i => page i - twin i
  | _, _ => none

def createTwinPage (p : Nat) (m : Mem) : Int × Mem :=
  let page := m.pageArray p
  if maxPageNum ≤ p then (-1, m)
  else if page.state = .unmap ∨ page.state = .miss then (-1, m)
  else if page.address = 0 ∨ page.twinPage.isSome then (-1, m)
  else (0, m.setPage p { page with twinPage := some page.content })

def freeTwinPage (p : Nat) (m : Mem) : Int × Mem :=
  let page := m.pageArray p
  if maxPageNum ≤ p then (-1, m)
  else if page.state = .unmap ∨ page.state = .miss then (-1, m)
  else if page.address = 0 ∨ page.twinPage = none then (-1, m)
  else (0, m.setPage p { page with twinPage := none })

/-- A notice for `p` at the end of `intervalNow`'s list and at the head of the
page's own list. -/
def createWriteNotice (me p : Nat) (m : Mem) : Int × Mem :=
  let page := m.pageArray p
  if maxPageNum ≤ p then (-1, m)
  else if page.state ≠ .rdonly then (-1, m)
  else
    let list := m.procArray me
    let now := m.now me
    let m := m.setPage p { page with
      notices := upd page.notices me
        (⟨now.timestamp, none⟩ :: page.notices me) }
    (0, { m with
      procArray := upd m.procArray me
        (list.modify (list.length - m.intervalNow) fun interval =>
          { interval with notices := interval.notices ++ [p] }) })

/-! ## Allocation -/

/-- One round of the loop of `mi_alloc`. -/
def allocPage (n me : Nat) (m : Mem) : Mem :=
  let page := m.pageArray m.pagenum
  let state := if m.pagenum % n = me then PageState.rdonly else .miss
  -- `mprotect` fails on memory that is not mapped
  let prot := if m.pagenum % n = me then Prot.read else page.prot
  { m with
    pageArray := upd m.pageArray m.pagenum
      { page with state := state, address := startAddress + m.globalAddress, prot := prot }
    pagenum := m.pagenum + 1
    globalAddress := m.globalAddress + pageSize }

def allocPages (n me : Nat) : Nat → Mem → Mem
  | 0, m => m
  | k + 1, m => allocPages n me k (allocPage n me m)

/-- The size rounded up to pages, in `int` arithmetic. -/
def roundSize (size : Int) : Int :=
  if size % pageSize = 0 then size
  else Int.bmod ((size / pageSize + 1) * pageSize) (2 ^ 32)

/-- The capacity test compares pointers, so its left side is unsigned. -/
def miAlloc (n me : Nat) (size : Int) (m : Mem) : Option Nat × Mem :=
  if size ≤ 0 then (none, m)
  else
    let rsize := roundSize size
    if (rsize + m.globalAddress) % 2 ^ 64 > maxMemSize then (none, m)
    else
      let m := allocPages n me ((rsize.toNat + pageSize - 1) / pageSize) m
      (some (startAddress + m.globalAddress - rsize.toNat), m)

/-! ## Serving a fault -/

def hasWriteNotice (n me : Nat) (page : Page) : Bool :=
  (List.range n).any fun i => i ≠ me ∧ (page.notices i).isEmpty = false

/-- The scan for the host whose newest notice is latest. -/
def latestNotice (n me : Nat) (page : Page) :
    List Nat → Option (Nat × Timestamp) → Option (Nat × Timestamp)
  | [], latest => latest
  | i :: rest, latest =>
      if i = me then latestNotice n me page rest latest
      else match page.notices i, latest with
        | [], latest => latestNotice n me page rest latest
        | wn :: _, none =>
            latestNotice n me page rest (some (i, wn.timestamp))
        | wn :: _, some (j, ts) =>
            if isAfterInterval n wn.timestamp ts then
              latestNotice n me page rest (some (i, wn.timestamp))
            else latestNotice n me page rest (some (j, ts))

/-- Where `fetchPage` sends; `none` is the variable `hostid` unassigned. -/
def fetchPageDest (n me p : Nat) (page : Page) : Option Nat :=
  if hasWriteNotice n me page then
    (latestNotice n me page (List.range n) none).map Prod.fst
  else some (p % n)

def fetchPage (n me p : Nat) (m : Mem) : Option (Mem × Out) :=
  let page := m.pageArray p
  if maxPageNum ≤ p then none
  else if page.state ≠ .miss then none
  else match fetchPageDest n me p page with
    | none => none
    | some hostid =>
        some ({ m with fetchPageWaitFlag := true }, [(hostid, .fetchPage p)])

/-- The inner loop of `fetchDiff` up to its next request: the timestamp to ask
for and how many notices follow. -/
def nextDiff (n : Nat) (pageTimestamp : Option Timestamp) :
    List WriteNotice → Option (Timestamp × Nat)
  | [] => none
  | wn :: rest =>
      if wn.diffAddress.isSome then none
      else if pageTimestamp.all (isAfterInterval n wn.timestamp) then
        some (wn.timestamp, rest.length)
      else nextDiff n pageTimestamp rest

/-- The outer loop of `fetchDiff` over the hosts still to visit, up to its next
request. -/
def nextDiffHost (n me : Nat) (pageTimestamp : Option Timestamp) (page : Page) :
    List Nat → Option (Nat × Timestamp × Nat)
  | [] => none
  | i :: is =>
      if i = me then nextDiffHost n me pageTimestamp page is
      else match nextDiff n pageTimestamp (page.notices i) with
        | some (ts, rest) => some (i, ts, rest)
        | none => nextDiffHost n me pageTimestamp page is

/-- `fetchDiff` spinning for one diff, or finished, which lets `segv_handler`
set the page to `RDONLY`. -/
def requestDiff (p : Nat) (pageTimestamp : Option Timestamp)
    (request : Option (Nat × Timestamp × Nat)) (m : Mem) : Mem × Out × Pc :=
  match request with
  | some (i, ts, rest) =>
      ({ m with fetchDiffWaitFlag := true }, [(i, .fetchDiff p ts)],
        .diffWait p pageTimestamp i rest)
  | none =>
      (m.setPage p { m.pageArray p with state := .rdonly, prot := .read }, [], .run)

/-- `fetchDiff` on an `INVALID` page, from its start. -/
def fetchDiff (n me p : Nat) (m : Mem) : Mem × Out × Pc :=
  let page := m.pageArray p
  requestDiff p page.startInterval
    (nextDiffHost n me page.startInterval page (List.range n)) m

/-- `fetchDiff` after a reply: `rest` notices of host `i` are left. -/
def fetchDiffResume (n me p : Nat) (pageTimestamp : Option Timestamp)
    (i rest : Nat) (m : Mem) : Mem × Out × Pc :=
  let page := m.pageArray p
  let list := page.notices i
  let request := match nextDiff n pageTimestamp
      (list.drop (list.length - rest)) with
    | some (ts, rest) => some (i, ts, rest)
    | none => nextDiffHost n me pageTimestamp page
        (List.range' (i + 1) (n - (i + 1)))
  requestDiff p pageTimestamp request m

/-- `segv_handler` for a fault on page `p`, up to where it spins; `none` is
`exit(1)`, or a fault in `createTwinPage`. -/
def segvHandler (n me p : Nat) (m : Mem) : Option (Mem × Out × Pc) :=
  if maxPageNum ≤ p then none
  else match (m.pageArray p).state with
    | .rdonly =>
        if (createTwinPage p m).1 = 0 ∧ (m.pageArray p).prot = .none then none
        else
          let m := (createTwinPage p m).2
          let m := (createWriteNotice me p m).2
          some (m.setPage p { m.pageArray p with state := .write, prot := .readWrite },
            [], .run)
    | .miss =>
        match fetchPage n me p m with
        | some (m, out) => some (m, out, .pageWait p)
        | none => some (m.setPage p { m.pageArray p with state := .rdonly, prot := .read },
            [], .run)
    | .write => some (m, [], .run)
    | .invalid => some (fetchDiff n me p m)
    | .unmap => none

/-- `pageIndex` of `segv_handler`: divisions in `long` truncate, and the result is
narrowed to `int`. -/
def faultPageIndex (faultaddress : Int) : Int :=
  let addr := if faultaddress.tmod pageSize = 0 then faultaddress
    else faultaddress.tdiv pageSize * pageSize
  Int.bmod ((addr - startAddress).tdiv pageSize) (2 ^ 32)

/-- `segv_handler` for a fault at an address. -/
def segvHandlerAt (n me : Nat) (faultaddress : Int) (m : Mem) : Option (Mem × Out × Pc) :=
  let pageIndex := faultPageIndex faultaddress
  if pageIndex < 0 ∨ pageIndex ≥ maxPageNum then none
  else segvHandler n me pageIndex.toNat m

/-- `segv_handler` after the page arrived. -/
def fetchPageResume (p : Nat) (m : Mem) : Mem :=
  m.setPage p { m.pageArray p with state := .rdonly, prot := .read }

/-- `grantPage`, called by a handler; `nested` says that the main thread is inside
`segv_handler`. The result `none` says that it does not return. A copy that
faults is lethal when `SIGSEGV` is blocked. Otherwise `segv_handler` runs inside
the handler, and then the copy is tried again; but where `segv_handler` spins it
spins for ever, since the reply raises `SIGIO`. -/
def grantPage (n me hostid p : Nat) (nested : Bool) (m : Mem) : Option Int × Mem × Out :=
  let page := m.pageArray p
  if n ≤ hostid then (some (-1), m, [])
  else if hostid = me then (some (-1), m, [])
  else if maxPageNum ≤ p then (some (-1), m, [])
  else if page.state = .unmap ∨ page.state = .miss then (some (-1), m, [])
  else if page.prot ≠ .none then (some 0, m, [(hostid, .grantPage p page.content)])
  else if nested then (none, m, [])
  else match segvHandler n me p m with
    | none => (none, m, [])
    | some (m, out, .run) =>
        if (m.pageArray p).prot ≠ .none then (some 0, m, [(hostid, .grantPage p page.content)])
        else (none, m, out)
    | some (m, out, _) => (none, m, out)

/-- The first notice with the given timestamp, and its diff replaced. -/
def setDiff (timestamp : Timestamp) (diff : Option Content) :
    List WriteNotice → List WriteNotice
  | [] => []
  | wn :: rest =>
      if wn.timestamp = timestamp then { wn with diffAddress := diff } :: rest
      else wn :: setDiff timestamp diff rest

def findNotice (timestamp : Timestamp) (list : List WriteNotice) :
    Option WriteNotice :=
  list.find? fun wn => wn.timestamp = timestamp

/-- The diff of a found notice, created now if there is none; a `WRITE` page is
write-protected again. -/
def makeDiff (me p : Nat) (timestamp : Timestamp) (m : Mem) : Mem :=
  let page := m.pageArray p
  let diff := createLocalDiff page.memory page.twinPage
  let m := m.setPage p { page with
    notices := upd page.notices me
      (setDiff timestamp diff (page.notices me)) }
  if page.state = .write then
    let m := (freeTwinPage p m).2
    m.setPage p { m.pageArray p with state := .rdonly, prot := .read }
  else m

/-- A `NULL` diff is refused by `apendMsgData`; its bytes in the message stay
zero. -/
def grantDiff (n me hostid : Nat) (timestamp : Timestamp) (p : Nat) (m : Mem) :
    Int × Mem × Out :=
  let page := m.pageArray p
  if n ≤ hostid ∨ hostid = me then (-1, m, [])
  else if maxPageNum ≤ p then (-1, m, [])
  else if page.state = .unmap ∨ page.state = .miss then (-1, m, [])
  else match findNotice timestamp (page.notices me) with
    | none => (-2, m, [])
    | some wn =>
        let m := if wn.diffAddress.isSome then m
          else makeDiff me p timestamp m
        let diff := ((findNotice timestamp ((m.pageArray p).notices me)).bind
          WriteNotice.diffAddress).getD fun _ => 0
        (0, m, [(hostid, .grantDiff timestamp p diff)])

/-- The page is writable while the diff is applied, and then `PROT_NONE`. -/
def handleGrantDiffMsg (sender : Nat) (timestamp : Timestamp) (p : Nat)
    (diff : Content) (m : Mem) : Mem :=
  let page := m.pageArray p
  let m := match findNotice timestamp (page.notices sender) with
    | none => m
    | some wn =>
        let list := if wn.diffAddress.isSome then page.notices sender
          else setDiff timestamp (some diff) (page.notices sender)
        m.setPage p { page with
          notices := upd page.notices sender list
          content := (applyDiff page.memory (some diff)).getD page.content
          prot := .none }
  { m with fetchDiffWaitFlag := false }

def handleGrantPageMsg (me p : Nat) (content : Content) (m : Mem) : Mem :=
  let page := m.pageArray p
  let m := m.setPage p { page with
    content := content
    startInterval := some (m.now me).timestamp
    prot := .readWrite }
  { m with fetchPageWaitFlag := false }

/-! ## Incorporating notices -/

/-- What a new notice does to the page it names. -/
def invalidatePage (me p : Nat) (m : Mem) : Mem :=
  let page := m.pageArray p
  match page.state with
  | .rdonly => m.setPage p { page with state := .invalid, prot := .none }
  | .write =>
      let diff := createLocalDiff page.memory page.twinPage
      let own := match page.notices me with
        | [] => []
        | wn :: rest => { wn with diffAddress := diff } :: rest
      let m := (freeTwinPage p (m.setPage p { page with
        state := .invalid
        notices := upd page.notices me own })).2
      m.setPage p { m.pageArray p with prot := .none }
  | _ => m

/-- The notices of the interval the packet was matched with: the first one of
its timestamp. -/
def noticesOf (timestamp : Timestamp) (list : List Interval) : List Nat :=
  ((list.find? fun interval => interval.timestamp = timestamp).map
    Interval.notices).getD []

/-- A notice at the end of that interval's list. -/
def appendNotice (timestamp : Timestamp) (p : Nat) :
    List Interval → List Interval
  | [] => []
  | interval :: rest =>
      if interval.timestamp = timestamp then
        { interval with notices := interval.notices ++ [p] } :: rest
      else interval :: appendNotice timestamp p rest

/-- One round of the loop over `wnArray`. -/
def incorporateNotice (me hostid : Nat) (timestamp : Timestamp) (m : Mem)
    (p : Nat) : Mem :=
  if p ∈ noticesOf timestamp (m.procArray hostid) then m
  else
    let m := invalidatePage me p m
    let page := m.pageArray p
    let m := m.setPage p { page with
      notices := upd page.notices hostid
        (⟨timestamp, none⟩ :: page.notices hostid) }
    { m with
      procArray := upd m.procArray hostid
        (appendNotice timestamp p (m.procArray hostid)) }

/-- The interval of a packet, entered at the head of its host's list if it is
not there. -/
def enterInterval (hostid : Nat) (timestamp : Timestamp) (m : Mem) : Mem :=
  let list := m.procArray hostid
  if list.any fun interval => interval.timestamp = timestamp then m
  else { m with
    procArray := upd m.procArray hostid (⟨timestamp, [], false⟩ :: list) }

def incorporateWnPacket (me : Nat) (m : Mem) (packet : WnPacket) : Mem :=
  packet.wnArray.foldl (incorporateNotice me packet.hostid packet.timestamp)
    (enterInterval packet.hostid packet.timestamp m)

/-- The loop over the packets of a message. -/
def incorporatePackets (me packetNum : Nat) (packets : List WnPacket)
    (m : Mem) : Mem :=
  (packets.take packetNum).foldl (incorporateWnPacket me) m

/-! ## Passing notices on -/

/-- The packets one interval splits into: `addWNIIntoPacketForHost`, repeated
on what it leaves. The fuel is the number of notices. -/
def splitNotices (hostid : Nat) (timestamp : Timestamp) :
    Nat → List Nat → List WnPacket
  | 0, _ => []
  | _, [] => []
  | fuel + 1, p :: ps =>
      ⟨hostid, timestamp, (p :: ps).take maxWnNum⟩ ::
        splitNotices hostid timestamp fuel ((p :: ps).drop maxWnNum)

def intervalPackets (hostid : Nat) (interval : Interval) : List WnPacket :=
  splitNotices hostid interval.timestamp interval.notices.length interval.notices

/-- The packets of host `i`'s intervals after a timestamp, oldest first, one
list for each interval. -/
def packetsAfter (n : Nat) (timestamp : Timestamp) (i : Nat) (m : Mem) :
    List (List WnPacket) :=
  ((m.procArray i).reverse.filter fun interval =>
    isAfterInterval n interval.timestamp timestamp).map (intervalPackets i)

def fetchWritenoticeAndInterval (n me hostid : Nat) (m : Mem) :
    Option (Mem × Out) :=
  if n ≤ hostid then none
  else if hostid = me then none
  else some ({ m with fetchWNIWaitFlag := true },
    [(hostid, .fetchWnI (m.now me).timestamp)])

def grantWNI (n me hostid : Nat) (timestamp : Timestamp) (m : Mem) :
    Int × Out :=
  if n ≤ hostid then (-1, [])
  else if hostid = me then (-1, [])
  else
    let packets := ((List.range n).flatMap fun i =>
      packetsAfter n timestamp i m).flatten
    (0, [(hostid, .grantWnI (m.now me).timestamp packets.length packets)])

def handleGrantWNIMsg (me : Nat) (timestamp : Timestamp) (packetNum : Nat)
    (packets : List WnPacket) (m : Mem) : Mem :=
  let m := m.pushNow me ⟨bump me timestamp, [], false⟩
  { incorporatePackets me packetNum packets m with fetchWNIWaitFlag := false }

/-! ## Barrier information -/

/-- A message under construction in one of the two barrier encoders, and the
messages sent before it. -/
structure Encoder where
  sent : Out
  dest : Nat
  timestamp : Timestamp
  packetNum : Nat
  packets : List WnPacket

/-- One packet appended. A message without room for another one is sent and
the next one, addressed to `next`, is begun. -/
def Encoder.add (mk : Timestamp → Nat → List WnPacket → Msg) (next : Nat)
    (e : Encoder) (packet : WnPacket) : Encoder :=
  let packets := e.packets ++ [packet]
  let packetNum := e.packetNum + 1
  let size := 4 + wnPacketSize * packets.length
  if size ≤ msgDataSize ∧ wnPacketSize > msgDataSize - size then
    ⟨e.sent ++ [(e.dest, mk e.timestamp packetNum packets)], next,
      blankTimestamp, 0, []⟩
  else ⟨e.sent, e.dest, e.timestamp, packetNum, packets⟩

/-- The packets of one interval appended: after a split at the first of them
the next message goes to `next`, after a later split it goes to host 0. -/
def Encoder.addInterval (mk : Timestamp → Nat → List WnPacket → Msg)
    (next : Nat) (e : Encoder) (packets : List WnPacket) : Encoder :=
  match packets with
  | [] => e
  | packet :: left => left.foldl (Encoder.add mk 0) (e.add mk next packet)

/-- The last message, unless it is empty and another one was sent. -/
def Encoder.finish (mk : Timestamp → Nat → List WnPacket → Msg)
    (e : Encoder) : Out :=
  if e.packetNum ≠ 0 ∨ e.sent.isEmpty then
    e.sent ++ [(e.dest, mk e.timestamp e.packetNum e.packets)]
  else e.sent

def encode (mk : Timestamp → Nat → List WnPacket → Msg) (dest : Nat)
    (timestamp : Timestamp) (intervals : List (List WnPacket)) : Out :=
  (intervals.foldl (Encoder.addInterval mk dest)
    ⟨[], dest, timestamp, 0, []⟩).finish mk

/-- The own intervals down to the newest one a barrier made. -/
def sinceBarrier : List Interval → List Interval
  | [] => []
  | interval :: rest =>
      if interval.isBarrier then [interval] else interval :: sinceBarrier rest

def sendEnterBarrierInfo (n me : Nat) (m : Mem) : Out :=
  if me = 0 then []
  else encode .grantEnterBarrierInfo 0 (cut n (-1) (m.now me).timestamp)
    ((sinceBarrier (m.procArray me)).reverse.map (intervalPackets me))

/-- The timestamp of the interval a barrier makes. -/
def barrierTimestamp (n : Nat) (m : Mem) : Timestamp :=
  fun i => if i.val < n then m.barrierTimestamps i.val i + 1 else 0

/-- The messages of `returnAllBarrierInfo` for client `i`. -/
def exitBarrierInfo (n : Nat) (timestamp : Timestamp) (m : Mem) (i : Nat) :
    Out :=
  encode .grantExitBarrierInfo i (cut n (-1) timestamp)
    ((List.range n).flatMap fun j =>
      packetsAfter n (m.barrierTimestamps i) j m)

/-- `returnAllBarrierInfo`, but for the locks it resets. -/
def returnAllBarrierInfo (n : Nat) (m : Mem) : Mem × Out :=
  let timestamp := barrierTimestamp n m
  let m := m.pushNow 0 ⟨timestamp, [], true⟩
  ({ m with
      barrierTimestamps := fun i j =>
        if i < n ∧ j.val < n then -1 else m.barrierTimestamps i j },
    (List.range' 1 (n - 1)).flatMap (exitBarrierInfo n timestamp m))

end Midsm
