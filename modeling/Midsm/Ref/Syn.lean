import Midsm.Ref.Mem

/-!
# `syn.c`

Locks and barriers. A lock is managed by host `lockno % hostnum`, which keeps
its record; barriers are managed by host 0. The functions of this file act on
a whole `Host`, because `mi_lock` and its relatives call into `mem.c`.
-/

namespace Midsm

/-! ## The lock records -/

def freshLock : Lock := ⟨false, -1, -1, fun _ => -1, 0⟩

def initsyn : Syn := ⟨fun _ => freshLock, false, fun _ => false, fun _ => false, -1⟩

def Syn.setLock (lockno : Int) (lock : Lock) (s : Syn) : Syn :=
  { s with locks := upd s.locks lockno lock }

/-- `waitingList` of the source ends after `MAX_HOST_NUM` entries, and nothing looks at its
length before a host is put there; it is unbounded here. -/
def graspLock (n me : Nat) (lockno hostid : Int) (s : Syn) : Int × Syn :=
  let lock := s.locks lockno
  if lockno < 0 ∨ lockNum ≤ lockno ∨ hostid < 0 ∨ (n : Int) ≤ hostid then (-5, s)
  else if lockno % n ≠ me then (-2, s)
  else if lock.locked = false then
    (lock.lasthostid, s.setLock lockno { lock with locked := true, owner := hostid })
  else if lock.owner = hostid then (-4, s)
  else
    (-3, s.setLock lockno { lock with
      waitingList := upd lock.waitingList lock.waitingListCount hostid
      waitingListCount := lock.waitingListCount + 1 })

/-- `k` rounds of the loop that moves the waiting hosts up by one. -/
def shiftList (list : Nat → Int) : Nat → Nat → Int
  | 0 => list
  | k + 1 => upd (shiftList list k) k (shiftList list k (k + 1))

def freeLock (n me : Nat) (lockno hostid : Int) (s : Syn) : Int × Syn :=
  let lock := s.locks lockno
  if lockno < 0 ∨ lockNum ≤ lockno ∨ hostid < 0 ∨ (n : Int) ≤ hostid then (-1, s)
  else if lockno % n ≠ me then (-2, s)
  else if lock.locked = false then (-3, s)
  else if lock.owner ≠ hostid then (-4, s)
  else if lock.waitingListCount = 0 then
    (-5, s.setLock lockno { lock with
      locked := false, owner := -1, lasthostid := hostid })
  else
    let waiting := lock.waitingList 0
    let count := lock.waitingListCount - 1
    (waiting, s.setLock lockno { lock with
      owner := waiting
      lasthostid := hostid
      waitingList := upd (shiftList lock.waitingList count) count (-1)
      waitingListCount := count })

/-- Its first test lets -1 through, for which the remainder is not the one of the other
functions. -/
def grantLock (n me : Nat) (lockno hostid : Int) (s : Syn) : Out :=
  if lockno < -1 ∨ lockNum ≤ lockno ∨ hostid < 0 ∨ (n : Int) ≤ hostid then []
  else if hostid = me then []
  else if lockno.tmod n ≠ me then []
  else [(hostid.toNat, .grantLock lockno (s.locks lockno).lasthostid)]

/-! ## `mi_lock` and `mi_unlock` -/

/-- What `mi_lock` does once `fetchWritenoticeAndInterval` has returned. On the
two self-managed paths the result is assigned to a shadowing variable and the
function returns the outer one. -/
def lockReturn (lockno : Int) (path : LockPath) (h : Host) : Host :=
  match path with
  | .grasped =>
      { h with
        syn := { h.syn with myLocks := upd h.syn.myLocks lockno true }
        pc := .run
        ret := none }
  | .waited =>
      { h with syn := { h.syn with lasthostid := -1 }, pc := .run, ret := none }
  | .remote =>
      { h with syn := { h.syn with lasthostid := -1 }, pc := .run, ret := some 0 }

/-- `fetchWritenoticeAndInterval` called from `mi_lock`. -/
def lockFetch (n me : Nat) (lockno : Int) (path : LockPath) (hostid : Int)
    (h : Host) : Host × Out :=
  match fetchWritenoticeAndInterval n me hostid.toNat h.mem with
  | some (mem, out) => ({ h with mem := mem, pc := .wniWait lockno path }, out)
  | none => (lockReturn lockno path h, [])

def miLock (n me : Nat) (lockno : Int) (h : Host) : Host × Out :=
  if lockno < 0 ∨ lockNum ≤ lockno then ({ h with ret := some (-1) }, [])
  else if h.syn.myLocks lockno then ({ h with ret := some (-2) }, [])
  else if lockno % n = me then
    let (result, syn) := graspLock n me lockno me h.syn
    let h := { h with syn := syn }
    if result = -3 then
      ({ h with syn := { syn with waitFlag := true }, pc := .lockWait lockno }, [])
    else if result ≥ -1 then
      if result ≠ -1 ∧ result ≠ me then lockFetch n me lockno .grasped result h
      else (lockReturn lockno .grasped { h with mem := addNewInterval n me h.mem }, [])
    else ({ h with ret := none }, [])
  else
    ({ h with syn := { h.syn with waitFlag := true }, pc := .lockWait lockno },
      [((lockno % n).toNat, .acqLock lockno)])

/-- `mi_lock` after its wait for the lock. -/
def miLockResume (n me : Nat) (lockno : Int) (h : Host) : Host × Out :=
  let last := h.syn.lasthostid
  if lockno % n = me then
    if last ≠ -1 ∧ last ≠ me then lockFetch n me lockno .waited last h
    else ({ h with pc := .run, ret := none }, [])
  else
    if last ≠ -1 ∧ last ≠ me then lockFetch n me lockno .remote last h
    else ({ h with mem := addNewInterval n me h.mem, pc := .run, ret := some 0 }, [])

def miUnlock (n me : Nat) (lockno : Int) (h : Host) : Host × Out :=
  if lockno < 0 ∨ lockNum ≤ lockno then ({ h with ret := some (-1) }, [])
  else if h.syn.myLocks lockno = false then ({ h with ret := some (-2) }, [])
  else
    let mem := addNewInterval n me h.mem
    let syn := { h.syn with myLocks := upd h.syn.myLocks lockno false }
    if lockno % n = me then
      let (result, syn) := freeLock n me lockno me syn
      ({ h with mem := mem, syn := syn, ret := none },
        if result ≥ 0 ∧ result ≠ me then grantLock n me lockno result syn else [])
    else
      ({ h with mem := mem, syn := syn, ret := some 0 },
        [((lockno % n).toNat, .rlsLock lockno)])

/-! ## Barriers -/

/-- `checkBarrierFlags`; true is its result 0. With all flags up it runs
`returnAllBarrierInfo`, whose last loop forgets the last holder of each lock,
and sends `EXIT_BARRIER` to every client. -/
def checkBarrierFlags (n me : Nat) (h : Host) : Bool × Host × Out :=
  if me ≠ 0 then (false, h, [])
  else if (List.range n).all h.syn.barrierFlags = false then (false, h, [])
  else
    let (mem, out) := returnAllBarrierInfo n h.mem
    let syn := { h.syn with
      locks := fun l => { h.syn.locks l with lasthostid := -1 }
      barrierFlags := fun i => if i < n then false else h.syn.barrierFlags i }
    (true, { h with mem := mem, syn := syn },
      out ++ (List.range' 1 (n - 1)).map fun i => (i, .exitBarrier))

def miBarrier (n me : Nat) (h : Host) : Host × Out :=
  if me = 0 then
    let mem := { h.mem with
      barrierTimestamps := upd h.mem.barrierTimestamps 0 fun i =>
        if i.val < n then (h.mem.now me).timestamp i
        else h.mem.barrierTimestamps 0 i }
    let syn := { h.syn with barrierFlags := upd h.syn.barrierFlags 0 true }
    match checkBarrierFlags n me { h with mem := mem, syn := syn } with
    | (true, h, out) => ({ h with ret := none }, out)
    | (false, h, out) =>
        ({ h with syn := { h.syn with waitFlag := true }, pc := .barrierWait }, out)
  else
    ({ h with syn := { h.syn with waitFlag := true }, pc := .barrierWait },
      sendEnterBarrierInfo n me h.mem ++ [(0, .enterBarrier)])

/-! ## The handlers of `syn.c` -/

def handleAcquireMsg (n me sender : Nat) (lockno : Int) (h : Host) : Host × Out :=
  if 0 ≤ lockno ∧ lockno ≤ lockNum then
    let (result, syn) := graspLock n me lockno sender h.syn
    ({ h with syn := syn },
      if result ≥ -1 then grantLock n me lockno sender syn else [])
  else (h, [])

def handleReleaseMsg (n me sender : Nat) (lockno : Int) (h : Host) : Host × Out :=
  if 0 ≤ lockno ∧ lockno < lockNum then
    let (result, syn) := freeLock n me lockno sender h.syn
    if result ≥ 0 then
      if result = me then
        ({ h with syn := { syn with
            lasthostid := sender
            waitFlag := false
            myLocks := upd syn.myLocks lockno true } }, [])
      else ({ h with syn := syn }, grantLock n me lockno result syn)
    else ({ h with syn := syn }, [])
  else (h, [])

def handleGrantMsg (lockno lasthostid : Int) (h : Host) : Host :=
  if 0 ≤ lockno ∧ lockno < lockNum then
    { h with syn := { h.syn with
        lasthostid := lasthostid
        myLocks := upd h.syn.myLocks lockno true
        waitFlag := false } }
  else h

def handleEnterBarrierMsg (n me sender : Nat) (h : Host) : Host × Out :=
  let syn := { h.syn with barrierFlags := upd h.syn.barrierFlags sender true }
  match checkBarrierFlags n me { h with syn := syn } with
  | (true, h, out) => ({ h with syn := { h.syn with waitFlag := false } }, out)
  | (false, h, out) => (h, out)

def handleExitBarrierMsg (sender : Nat) (h : Host) : Host :=
  if sender = 0 then { h with syn := { h.syn with waitFlag := false } } else h

end Midsm
