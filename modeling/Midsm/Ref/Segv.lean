import Midsm.Ref.System

/-!
# A page fault, statement by statement

`segvHandler` serves a fault in one step, or up to where it spins. In the C program
`sigio_handler` runs between any two statements of `segv_handler`. Here a fault on a
page in `RDONLY` or `INVALID` state is served one statement at a time, with
`createTwinPage`, `createWriteNotice` and `fetchDiff`, and a handler that runs in
between takes in the barrier information of a client, serves a request for a diff or
for a page, or takes in the reply to the fault's own request. The requests for intervals
change nothing, and the other messages that bring notices come while the main thread
waits for them in a call of the API.

A pointer into a page's list is the number of notices from there to the end, since
the lists grow at the head. The tests of `pageIndex` are decided when the fault
begins.

The state of a page and its protection change in different statements. `SIGSEGV` is
blocked until `segv_handler` returns, so an access that is not granted, by
`createTwinPage` or by a handler, stops the process.
-/

namespace Midsm

/-- The statement that is next; `i` is the host whose notices `fetchDiff` visits, and
`rest` is `wn`. -/
inductive SegvStmt where
  /-- `if(pageArray[pageIndex].state == RDONLY)`, and the three tests after it. -/
  | isRdonly
  | isMiss
  | isWrite
  | isInvalid
  /-- `createTwinPage`. -/
  | twinState
  | twinAddress
  | twinMalloc
  | twinCopy
  /-- `if(pageArray[pageIndex].state != RDONLY)` in `createWriteNotice`. -/
  | noticeState
  | noticeMalloc
  /-- `wn->nextInPage = pageArray[pageIndex].notices[myhostid]` -/
  | noticeNext (timestamp : Timestamp)
  | noticePage (timestamp : Timestamp)
  /-- `wn` at the end of the list of `intervalNow`. -/
  | noticeInterval
  /-- `pageArray[pageIndex].state = WRITE` -/
  | setWrite
  | protectWrite
  /-- `if(pageArray[pageIndex].state != INVALID)` in `fetchDiff`. -/
  | diffState
  | diffStart
  /-- `i < hostnum` and `if(i == myhostid)` -/
  | host (i : Nat)
  /-- `wn = pageArray[pageIndex].notices[i]` -/
  | head (i : Nat)
  /-- `(wn != NULL) && (wn->diffAddress == NULL)` -/
  | notice (i rest : Nat)
  /-- `isAfterInterval(wn->interval->timestamp, pageTimestamp) == 1` -/
  | after (i rest : Nat)
  | build (i rest : Nat)
  /-- `fetchDiffWaitFlag = 1` -/
  | flag (i rest : Nat) (timestamp : Timestamp)
  | send (i rest : Nat) (timestamp : Timestamp)
  | spin (i rest : Nat)
  /-- `wn = wn->nextInPage` -/
  | next (i rest : Nat)
  /-- `pageArray[pageIndex].state = RDONLY` -/
  | setRdonly
  | protectRdonly
  /-- The end of `segv_handler`. -/
  | leave
  | done
  | killed

/-- A host whose main thread is in `segv_handler`. -/
structure SegvThread where
  mem : Mem
  stmt : SegvStmt
  /-- The local variable of `fetchDiff`. -/
  pageTimestamp : Option Timestamp
  /-- The request for a diff that has not been answered. -/
  request : Option (Nat × Timestamp)
  /-- The replies that have been handled: host, timestamp and diff. -/
  answers : List (Nat × Timestamp × Content)

def SegvThread.start (m : Mem) : SegvThread := ⟨m, .isRdonly, none, none, []⟩

def SegvThread.goto (stmt : SegvStmt) (f : SegvThread) : SegvThread := { f with stmt := stmt }

def SegvThread.setPage (p : Nat) (page : Page) (stmt : SegvStmt) (f : SegvThread) :
    SegvThread :=
  { f with
    mem := f.mem.setPage p page
    stmt := stmt }

/-- The notices of host `i` from `wn` on. -/
def Page.from (i rest : Nat) (page : Page) : List WriteNotice :=
  (page.notices i).drop ((page.notices i).length - rest)

/-- The next statement. The branch for a `MISS` page is not followed, and neither is
`exit(1)`. -/
def SegvThread.next (n me p : Nat) (f : SegvThread) : Option SegvThread :=
  let page := f.mem.pageArray p
  match f.stmt with
  | .isRdonly => some (f.goto (if page.state = .rdonly then .twinState else .isMiss))
  | .isMiss => if page.state = .miss then none else some (f.goto .isWrite)
  | .isWrite => some (f.goto (if page.state = .write then .leave else .isInvalid))
  | .isInvalid => if page.state = .invalid then some (f.goto .diffState) else none
  | .twinState =>
      some (f.goto (if page.state = .unmap ∨ page.state = .miss then .noticeState
        else .twinAddress))
  | .twinAddress =>
      some (f.goto (if page.address = 0 ∨ page.twinPage.isSome then .noticeState
        else .twinMalloc))
  -- what `malloc` returns is not read before it is filled
  | .twinMalloc => some (f.setPage p { page with twinPage := some fun _ => 0 } .twinCopy)
  | .twinCopy =>
      if page.prot = .none then some (f.goto .killed)
      else some (f.setPage p { page with twinPage := some page.content } .noticeState)
  | .noticeState =>
      some (f.goto (if page.state ≠ .rdonly then .setWrite else .noticeMalloc))
  | .noticeMalloc => some (f.goto (.noticeNext (f.mem.now me).timestamp))
  | .noticeNext ts => some (f.goto (.noticePage ts))
  | .noticePage ts =>
      some (f.setPage p { page with
        notices := upd page.notices me (⟨ts, none⟩ :: page.notices me) } .noticeInterval)
  | .noticeInterval =>
      let list := f.mem.procArray me
      some { f with
        mem := { f.mem with
          procArray := upd f.mem.procArray me
            (list.modify (list.length - f.mem.intervalNow) fun interval =>
              { interval with notices := interval.notices ++ [p] }) }
        stmt := .setWrite }
  | .setWrite => some (f.setPage p { page with state := .write } .protectWrite)
  | .protectWrite => some (f.setPage p { page with prot := .readWrite } .leave)
  | .diffState =>
      some (f.goto (if page.state ≠ .invalid then .setRdonly else .diffStart))
  | .diffStart =>
      some { f with
        pageTimestamp := page.startInterval
        stmt := .host 0 }
  | .host i =>
      some (f.goto (if i < n then (if i = me then .host (i + 1) else .head i) else .setRdonly))
  | .head i => some (f.goto (.notice i (page.notices i).length))
  | .notice i rest =>
      match page.from i rest with
      | [] => some (f.goto (.host (i + 1)))
      | wn :: _ =>
          some (f.goto (if wn.diffAddress = none then .after i rest else .host (i + 1)))
  | .after i rest =>
      match page.from i rest with
      | [] => none
      | wn :: _ =>
          some (f.goto (if f.pageTimestamp.all (isAfterInterval n wn.timestamp) then
            .build i rest else .next i rest))
  | .build i rest =>
      match page.from i rest with
      | [] => none
      | wn :: _ => some (f.goto (.flag i rest wn.timestamp))
  | .flag i rest ts =>
      some { f with
        mem := { f.mem with fetchDiffWaitFlag := true }
        stmt := .send i rest ts }
  | .send i rest ts =>
      some { f with
        request := some (i, ts)
        stmt := .spin i rest }
  | .spin i rest =>
      if f.mem.fetchDiffWaitFlag then none else some (f.goto (.next i rest))
  | .next i rest => some (f.goto (.notice i (rest - 1)))
  | .setRdonly => some (f.setPage p { page with state := .rdonly } .protectRdonly)
  | .protectRdonly => some (f.setPage p { page with prot := .read } .leave)
  | .leave => some (f.goto .done)
  | .done | .killed => none

/-! ## The handlers -/

/-- `createLocalDiff` would read the page, which is not granted. -/
def Page.unreadable (page : Page) : Bool :=
  page.memory.isSome && page.twinPage.isSome && page.prot = .none

/-- A notice for a `WRITE` page has its diff made, for the newest own notice. -/
def Page.stops (me : Nat) (page : Page) : Bool :=
  page.state = .write && ((page.notices me).isEmpty || page.unreadable)

/-- The process is stopped while `incorporateWnPacket` goes over `wnArray`. -/
def stopsOver (me hostid : Nat) (timestamp : Timestamp) : List Nat → Mem → Bool
  | [], _ => false
  | p :: rest, m =>
      !(noticesOf timestamp (m.procArray hostid)).contains p && (m.pageArray p).stops me ||
        stopsOver me hostid timestamp rest (incorporateNotice me hostid timestamp m p)

def packetsStop (me : Nat) : List WnPacket → Mem → Bool
  | [], _ => false
  | packet :: rest, m =>
      stopsOver me packet.hostid packet.timestamp packet.wnArray
        (enterInterval packet.hostid packet.timestamp m) ||
      packetsStop me rest (incorporateWnPacket me m packet)

/-- The process is stopped in `grantDiff`, which makes the diff of a notice without one. -/
def grantDiffStops (n me hostid : Nat) (timestamp : Timestamp) (p : Nat) (m : Mem) : Bool :=
  let page := m.pageArray p
  decide (hostid < n ∧ hostid ≠ me ∧ p < maxPageNum ∧ page.state ≠ .unmap ∧
    page.state ≠ .miss) &&
  (findNotice timestamp (page.notices me)).any (fun wn => wn.diffAddress.isNone) &&
  page.unreadable

inductive SegvEvent where
  | next
  /-- `GRANT_ENTER_BARRIER_INFO` is handled. -/
  | enterInfo (sender : Nat) (timestamp : Timestamp) (packetNum : Nat) (packets : List WnPacket)
  /-- `FETCH_DIFF` is handled. -/
  | fetchDiff (sender : Nat) (timestamp : Timestamp) (pageIndex : Nat)
  /-- `FETCH_PAGE` is handled. -/
  | fetchPage (sender pageIndex : Nat)
  /-- The `GRANT_DIFF` that the fault has asked for is handled. -/
  | reply (diff : Content)

/-- A handler runs. Clients send packets about intervals of hosts other than this one. -/
def SegvThread.handle (n me p : Nat) (f : SegvThread) : SegvEvent → Option SegvThread
  | .next => none
  | .enterInfo sender ts k packets =>
      if ∀ packet ∈ packets.take k, packet.hostid < n ∧ packet.hostid ≠ me then
        if packetsStop me (packets.take k) f.mem then some (f.goto .killed)
        else some { f with mem := handleGrantEnterBarrierMsg me sender ts k packets f.mem }
      else none
  | .fetchDiff sender ts q =>
      if grantDiffStops n me sender ts q f.mem then some (f.goto .killed)
      else some { f with mem := (grantDiff n me sender ts q f.mem).2.1 }
  | .fetchPage sender q =>
      match grantPage n me sender q true f.mem with
      | (none, _, _) => some (f.goto .killed)
      | (some _, m, _) => some { f with mem := m }
  | .reply diff =>
      f.request.map fun (i, ts) =>
        { f with
          mem := handleGrantDiffMsg i ts p diff f.mem
          request := none
          answers := f.answers ++ [(i, ts, diff)] }

def segvStep (n me p : Nat) (f : SegvThread) (e : SegvEvent) : Option SegvThread :=
  match f.stmt, e with
  | .done, _ | .killed, _ => none
  | _, .next => f.next n me p
  | _, e => f.handle n me p e

end Midsm
