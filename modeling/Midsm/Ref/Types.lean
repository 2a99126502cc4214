import Mathlib.Data.BitVec
import Mathlib.Algebra.Group.Pi.Basic

/-!
# The data of a host

The constants and the record types of `mem.h`, `syn.h` and `net.h`, as far as
a modelled function reads or writes them. C arrays that are indexed by a host,
a lock or a page number are functions; linked lists are lists, newest element
first, as the pointers run.

Two pointers are kept by value. A write notice is only ever asked for the
timestamp of its interval, and no interval's timestamp changes once the
interval is on a list, so `WriteNotice` carries that timestamp; the same goes
for `startInterval`. `intervalNow` stays a reference, since notices are
appended to the interval it points to: it is the height of that interval in
the host's own list.

What `mmap` and `mprotect` have made of a page is its `prot`, and an access of
the main thread faults by it. So does the copy that `grantPage` makes inside
`sigio_handler`, where a fault that has to wait waits for good. No other access
of a handler meets a page it may not read: `createLocalDiff` reads a page that
has a twin, and such a page is readable.
-/

namespace Midsm

abbrev maxHostNum : Nat := 20
abbrev lockNum : Int := 1024
abbrev pageSize : Nat := 4096
abbrev maxMemSize : Nat := 0x08000000
abbrev maxPageNum : Nat := 32768
abbrev startAddress : Nat := 0x60000000
abbrev maxWnNum : Nat := 1024

/-- Bytes of `msg->data`: `MAX_MSG_SIZE - MSG_HEAD_SIZE`. -/
abbrev msgDataSize : Nat := 40860

/-- `sizeof(wnPacket_t)`: a host, a timestamp, a count and `MAX_WN_NUM` pages. -/
abbrev wnPacketSize : Nat := 4184

instance : NeZero maxHostNum := ⟨by decide⟩

/-- An update of one cell of an array. -/
def upd {α β : Type} [DecidableEq α] (f : α → β) (a : α) (b : β) : α → β :=
  fun x => if x = a then b else f x

@[simp] theorem upd_self {α β : Type} [DecidableEq α] (f : α → β) (a : α) (b : β) :
    upd f a b a = b := if_pos rfl

theorem upd_ne {α β : Type} [DecidableEq α] {f : α → β} {a x : α} {b : β}
    (h : x ≠ a) : upd f a b x = f x := if_neg h

theorem upd_eta {α β : Type} [DecidableEq α] (f : α → β) (a : α) : upd f a (f a) = f := by
  funext x
  by_cases h : x = a
  · rw [h, upd_self]
  · exact upd_ne h

theorem upd_upd {α β : Type} [DecidableEq α] (f : α → β) (a : α) (b b' : β) :
    upd (upd f a b) a b' = upd f a b' := by
  funext x
  by_cases hx : x = a
  · rw [hx, upd_self, upd_self]
  · rw [upd_ne hx, upd_ne hx, upd_ne hx]

/-- A vector timestamp, `int timestamp[MAX_HOST_NUM]`. -/
abbrev Timestamp : Type := Fin maxHostNum → Int

/-- `char`, with its arithmetic mod 256. -/
abbrev Byte : Type := BitVec 8

/-- The bytes of a page, of a twin or of a diff. -/
abbrev Content : Type := Fin pageSize → Byte

inductive PageState where
  | unmap
  | rdonly
  | write
  | miss
  | invalid
  deriving DecidableEq, Repr

/-- The protection of a page's memory, `none` also before it is mapped. -/
inductive Prot where
  | none
  | read
  | readWrite
  deriving DecidableEq, Repr

/-- `interval_t`. The notices are the page indices along `nextInInterval`. -/
structure Interval where
  timestamp : Timestamp
  notices : List Nat
  isBarrier : Bool

/-- `writenotice_t`, as a page's list holds it. -/
structure WriteNotice where
  timestamp : Timestamp
  diffAddress : Option Content

/-- `page_t` with the memory it describes; address 0 is `NULL`. -/
structure Page where
  address : Nat
  state : PageState
  notices : Nat → List WriteNotice
  twinPage : Option Content
  startInterval : Option Timestamp
  content : Content
  prot : Prot

/-- `wnPacket_t`; `wnCount` is the length of `wnArray`, whose filler beyond it
nothing reads. -/
structure WnPacket where
  hostid : Nat
  timestamp : Timestamp
  wnArray : List Nat

/-- `mimsg_t` without the header fields that the channel knows. The three
messages that carry packets also carry their leading count. -/
inductive Msg where
  | acqLock (lockno : Int)
  | rlsLock (lockno : Int)
  | grantLock (lockno lasthostid : Int)
  | enterBarrier
  | exitBarrier
  | grantWnI (timestamp : Timestamp) (packetNum : Nat) (packets : List WnPacket)
  | grantDiff (timestamp : Timestamp) (pageIndex : Nat) (diff : Content)
  | grantPage (pageIndex : Nat) (page : Content)
  | fetchPage (pageIndex : Nat)
  | fetchWnI (timestamp : Timestamp)
  | fetchDiff (pageIndex : Nat) (timestamp : Timestamp)
  | grantEnterBarrierInfo (timestamp : Timestamp) (packetNum : Nat)
      (packets : List WnPacket)
  | grantExitBarrierInfo (timestamp : Timestamp) (packetNum : Nat)
      (packets : List WnPacket)

/-- What a function hands to `sendMsg`: destination and message, in order. -/
abbrev Out : Type := List (Nat × Msg)

/-- The globals of `mem.c`. -/
structure Mem where
  pageArray : Nat → Page
  procArray : Nat → List Interval
  intervalNow : Nat
  fetchPageWaitFlag : Bool
  fetchDiffWaitFlag : Bool
  fetchWNIWaitFlag : Bool
  pagenum : Nat
  globalAddress : Nat
  barrierTimestamps : Nat → Timestamp

/-- `milock_t`; `state` is true for `LOCKED`. Of `waitingList` only the first
`MAX_HOST_NUM` cells are the array. -/
structure Lock where
  locked : Bool
  owner : Int
  lasthostid : Int
  waitingList : Nat → Int
  waitingListCount : Nat

/-- The globals of `syn.c`. -/
structure Syn where
  locks : Int → Lock
  waitFlag : Bool
  myLocks : Int → Bool
  barrierFlags : Nat → Bool
  lasthostid : Int

/-- Where `mi_lock` called `fetchWritenoticeAndInterval`: on a lock it manages
and got at once, on one it manages and waited for, or on a remote one. -/
inductive LockPath where
  | grasped
  | waited
  | remote
  deriving DecidableEq, Repr

/-- Where the main thread of a host is: in the program, or in one of the five
loops that spin on a flag. -/
inductive Pc where
  | run
  | lockWait (lockno : Int)
  | wniWait (lockno : Int) (path : LockPath)
  | barrierWait
  | pageWait (pageIndex : Nat)
  | diffWait (pageIndex : Nat) (pageTimestamp : Option Timestamp) (i rest : Nat)

/-- The page whose fault `segv_handler` is serving. -/
def Pc.faulting : Pc → Option Nat
  | .pageWait p | .diffWait p _ _ _ => some p
  | _ => none

/-- A host. `ret` is what the last finished API call returned, `none` when it
returned a variable that was never assigned. `hung` is set once a handler does
not return: it spins with `SIGIO` blocked, or it has killed the process. -/
structure Host where
  mem : Mem
  syn : Syn
  pc : Pc
  ret : Option Int
  hung : Bool

end Midsm
