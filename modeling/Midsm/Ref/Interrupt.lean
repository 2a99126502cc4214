import Midsm.Ref.System

/-!
# One host, statement by statement

`System` runs an API call from one wait to the next in a single step. In the C
program `SIGIO` arrives in the midst of a call, and `sigio_handler` runs to its end
there. Here the main thread takes the two calls that share data with the
handlers one statement at a time: `mi_lock` on a lock that the host manages itself, and
`mi_barrier` on host 0, with `graspLock` and `checkBarrierFlags` called from
them. Any other call stays whole.

A message is built and sent in one step; what a handler does to a message under
construction is the subject of `Building`.
-/

namespace Midsm

/-- The statement of `mi_lock(lockno)` that is next. -/
inductive LockStmt where
  /-- `if(myLocks[lockno] == 1)` -/
  | held
  /-- `if(locks[lockno].state == FREE)` in `graspLock`. -/
  | state
  | setState
  | setOwner
  /-- `return locks[lockno].lasthostid` -/
  | last
  /-- `if(locks[lockno].owner == hostid)` -/
  | owner
  | enqueue
  /-- `(locks[lockno].waitingListCount)++` -/
  | count
  /-- The tests of what `graspLock` returned. -/
  | result (code : Int)
  /-- `waitFlag = 1` -/
  | flag
  | spin
  /-- `if(lasthostid != -1 && lasthostid != myhostid)` -/
  | granted
  | fetch (path : LockPath) (hostid : Int)
  /-- The wait in `fetchWritenoticeAndInterval`. -/
  | fetching (path : LockPath)
  /-- `lasthostid = -1` -/
  | forget
  | interval
  /-- `myLocks[lockno] = 1` -/
  | own

/-- The statement of `mi_barrier` that is next. -/
inductive BarrierStmt where
  /-- `barrierFlags[0] = 1` -/
  | enter
  /-- `barrierTimestamps[0][i] = intervalNow->timestamp[i]` -/
  | stamp (i : Nat)
  /-- `if(barrierFlags[i] != 1)` in `checkBarrierFlags`. -/
  | scan (i : Nat)
  /-- `returnAllBarrierInfo()` -/
  | info
  /-- `EXIT_BARRIER` to host `i`. -/
  | exit (i : Nat)
  /-- `barrierFlags[i] = 0` -/
  | clear (i : Nat)
  /-- `waitFlag = 1` -/
  | flag
  | spin

inductive Stmt where
  /-- In the program, or in a call that is taken whole. -/
  | idle
  | lock (lockno : Int) (stmt : LockStmt)
  | barrier (stmt : BarrierStmt)

/-- A host and where its main thread is. `host.pc` goes on telling where a call that
is taken whole stands. -/
structure Thread where
  host : Host
  stmt : Stmt

def Host.setLock (lockno : Int) (lock : Lock) (h : Host) : Host :=
  { h with syn := h.syn.setLock lockno lock }

/-- The call returns. -/
def Thread.leave (ret : Option Int) (h : Host) : Option (Thread × Out) :=
  some (⟨{ h with ret := ret }, .idle⟩, [])

/-- What follows `fetchWritenoticeAndInterval`. -/
def LockPath.next : LockPath → LockStmt
  | .grasped => .own
  | _ => .forget

/-- One statement of `mi_lock`, on a lock that the host manages. Past the first
test the function returns a variable that was never assigned. -/
def lockStmt (n me : Nat) (lockno : Int) (h : Host) : LockStmt → Option (Thread × Out)
  | .held =>
      if h.syn.myLocks lockno then Thread.leave (some (-2)) h
      else some (⟨h, .lock lockno .state⟩, [])
  | .state =>
      some (⟨h, .lock lockno
        (if (h.syn.locks lockno).locked = false then .setState else .owner)⟩, [])
  | .setState =>
      some (⟨h.setLock lockno { h.syn.locks lockno with locked := true },
        .lock lockno .setOwner⟩, [])
  | .setOwner =>
      some (⟨h.setLock lockno { h.syn.locks lockno with owner := me },
        .lock lockno .last⟩, [])
  | .last => some (⟨h, .lock lockno (.result (h.syn.locks lockno).lasthostid)⟩, [])
  | .owner =>
      some (⟨h, .lock lockno
        (if (h.syn.locks lockno).owner = me then .result (-4) else .enqueue)⟩, [])
  | .enqueue =>
      let lock := h.syn.locks lockno
      some (⟨h.setLock lockno { lock with
          waitingList := upd lock.waitingList lock.waitingListCount me },
        .lock lockno .count⟩, [])
  | .count =>
      let lock := h.syn.locks lockno
      some (⟨h.setLock lockno { lock with
          waitingListCount := lock.waitingListCount + 1 },
        .lock lockno (.result (-3))⟩, [])
  | .result code =>
      if code = -3 then some (⟨h, .lock lockno .flag⟩, [])
      else if code ≥ -1 then
        some (⟨h, .lock lockno (if code ≠ -1 ∧ code ≠ me then .fetch .grasped code
          else .interval)⟩, [])
      else Thread.leave none h
  | .flag =>
      some (⟨{ h with syn := { h.syn with waitFlag := true } }, .lock lockno .spin⟩, [])
  | .spin => if h.syn.waitFlag then none else some (⟨h, .lock lockno .granted⟩, [])
  | .granted =>
      if h.syn.lasthostid ≠ -1 ∧ h.syn.lasthostid ≠ me then
        some (⟨h, .lock lockno (.fetch .waited h.syn.lasthostid)⟩, [])
      else Thread.leave none h
  | .fetch path hostid =>
      match fetchWritenoticeAndInterval n me hostid.toNat h.mem with
      | some (mem, out) => some (⟨{ h with mem := mem }, .lock lockno (.fetching path)⟩, out)
      | none => some (⟨h, .lock lockno path.next⟩, [])
  | .fetching path =>
      if h.mem.fetchWNIWaitFlag then none else some (⟨h, .lock lockno path.next⟩, [])
  | .forget => Thread.leave none { h with syn := { h.syn with lasthostid := -1 } }
  | .interval => some (⟨{ h with mem := addNewInterval n me h.mem }, .lock lockno .own⟩, [])
  | .own =>
      Thread.leave none
        { h with syn := { h.syn with myLocks := upd h.syn.myLocks lockno true } }

/-- `barrierFlags[i] = up` -/
def Host.setFlag (i : Nat) (up : Bool) (h : Host) : Host :=
  { h with syn := { h.syn with barrierFlags := upd h.syn.barrierFlags i up } }

/-- One statement of `mi_barrier` on host 0. -/
def barrierStmt (n me : Nat) (h : Host) : BarrierStmt → Option (Thread × Out)
  | .enter => some (⟨h.setFlag 0 true, .barrier (.stamp 0)⟩, [])
  | .stamp i =>
      if i < n then
        some (⟨{ h with mem := { h.mem with
            barrierTimestamps := upd h.mem.barrierTimestamps 0 fun j =>
              if j.val = i then (h.mem.now me).timestamp j
              else h.mem.barrierTimestamps 0 j } },
          .barrier (.stamp (i + 1))⟩, [])
      else some (⟨h, .barrier (.scan 0)⟩, [])
  | .scan i =>
      if i < n then
        some (⟨h, .barrier (if h.syn.barrierFlags i then .scan (i + 1) else .flag)⟩, [])
      else some (⟨h, .barrier .info⟩, [])
  | .info =>
      let (mem, out) := returnAllBarrierInfo n h.mem
      some (⟨{ h with
          mem := mem
          syn := { h.syn with
            locks := fun l => { h.syn.locks l with lasthostid := -1 } } },
        .barrier (.exit 1)⟩, out)
  | .exit i =>
      if i < n then some (⟨h, .barrier (.exit (i + 1))⟩, [(i, .exitBarrier)])
      else some (⟨h, .barrier (.clear 0)⟩, [])
  | .clear i =>
      if i < n then some (⟨h.setFlag i false, .barrier (.clear (i + 1))⟩, [])
      else Thread.leave none h
  | .flag =>
      some (⟨{ h with syn := { h.syn with waitFlag := true } }, .barrier .spin⟩, [])
  | .spin => if h.syn.waitFlag then none else Thread.leave none h

/-- The next statement of the main thread. -/
def Thread.next (n me : Nat) (t : Thread) : Option (Thread × Out) :=
  match t.stmt with
  | .idle => none
  | .lock lockno stmt => lockStmt n me lockno t.host stmt
  | .barrier stmt => barrierStmt n me t.host stmt

inductive ThreadEvent where
  /-- `mi_lock` is called. -/
  | lock (lockno : Int)
  /-- `mi_barrier` is called. -/
  | barrier
  /-- A segment of a call that is taken whole. -/
  | op (op : Op)
  | next
  /-- A complete run of `sigio_handler`, on one message. -/
  | handler (sender : Nat) (msg : Msg)

/-- A call that is taken whole. -/
def Op.Whole (n me : Nat) : Op → Prop
  | .lock lockno => lockno % n ≠ me
  | .barrier => me ≠ 0
  | _ => True

instance (n me : Nat) (op : Op) : Decidable (op.Whole n me) := by
  cases op <;> unfold Op.Whole <;> infer_instance

/-- Between calls. -/
def Thread.Free (t : Thread) : Bool :=
  match t.stmt, t.host.pc with
  | .idle, .run => true
  | _, _ => false

def Thread.event (n me : Nat) (t : Thread) : ThreadEvent → Option (Thread × Out)
  | .lock lockno =>
      if t.Free ∧ lockno % n = me then
        if lockno < 0 ∨ lockNum ≤ lockno then Thread.leave (some (-1)) t.host
        else some (⟨t.host, .lock lockno .held⟩, [])
      else none
  | .barrier => if t.Free ∧ me = 0 then some (⟨t.host, .barrier .enter⟩, []) else none
  | .op op =>
      match t.stmt with
      | .idle =>
          if op.Whole n me then
            (t.host.exec n me op).map fun (h, out) => (⟨h, .idle⟩, out)
          else none
      | _ => none
  | .next => t.next n me
  | .handler sender msg =>
      if sender < n ∧ sender ≠ me then
        let (h, out) := dispatchMsg n me sender msg t.host
        some (⟨h, t.stmt⟩, out)
      else none

/-- Nothing happens after a handler that does not return. -/
def threadStep (n me : Nat) (t : Thread) (e : ThreadEvent) : Option (Thread × Out) :=
  if t.host.hung then none else t.event n me e

def initThread (me : Nat) : Thread := ⟨initSys.host me, .idle⟩

end Midsm
