import Midsm.Lib.Reach
import Midsm.Proofs.HeapFetch
import Midsm.Proofs.Notices

/-!
# The system with pointers refines the one with lists

Step for step: an event is enabled in both systems or in neither, sends the same messages
and leaves hosts that represent each other. So nothing is read through `NULL`, no loop
along a list goes on for ever, and what is proved of the lists holds of the program's
cells. The one thing that no host can see by itself is that a packet about its own
intervals names one that it has; `Sound` says so of every message on its way.
-/

namespace Midsm

open Midsm.Lib

/-- A host with pointers and the host it stands for. -/
inductive HeapHost.Represents (me : Nat) : HeapHost → Host → Prop
  | intro {g : Lists} {mem : HeapMem} {syn : Syn} {pc : HeapPc} {pc' : Pc} {ret : Option Int}
      {hung : Bool} (hv : mem.Valid me g) (hp : HeapPc.Same g mem.heap pc pc') :
      Represents me ⟨mem, syn, pc, ret, hung⟩ ⟨mem.abs me g, syn, pc', ret, hung⟩

/-- The same messages, from hosts that stand for each other. -/
structure SameResult (me : Nat) (r : HeapHost × Out) (r' : Host × Out) : Prop where
  host : r.1.Represents me r'.1
  out : r.2 = r'.2

section

variable {n me p : Nat} {g g' : Lists} {mem mem' : HeapMem} {m : Mem} {syn : Syn}
  {pc : HeapPc} {pc' : Pc} {ret : Option Int} {hung : Bool} {h : HeapHost} {h' : Host}

theorem Moves.represents (hm : Moves me g mem g' mem' m)
    (hp : HeapPc.Same g' mem'.heap pc pc') (syn : Syn) (ret : Option Int) (hung : Bool) :
    HeapHost.Represents me ⟨mem', syn, pc, ret, hung⟩ ⟨m, syn, pc', ret, hung⟩ := by
  rw [← hm.abs]
  exact .intro hm.valid hp

/-- The main thread waits or runs on where it was. -/
theorem Mirrors.represents (hm : Mirrors me g mem mem' m) (hp : HeapPc.Same g mem.heap pc pc')
    (syn : Syn) (ret : Option Int) (hung : Bool) :
    HeapHost.Represents me ⟨mem', syn, pc, ret, hung⟩ ⟨m, syn, pc', ret, hung⟩ := by
  obtain ⟨g', hm⟩ := hm
  exact hm.represents (hp.later hm.later) syn ret hung

/-! ## `syn.c` -/

theorem HeapHost.Represents.handleAcquireMsg (hr : h.Represents me h') (sender : Nat)
    (lockno : Int) :
    SameResult me (h.handleAcquireMsg n me sender lockno)
      (Midsm.handleAcquireMsg n me sender lockno h') := by
  cases hr with
  | intro hv hp =>
      unfold HeapHost.handleAcquireMsg Midsm.handleAcquireMsg
      split
      · exact ⟨.intro hv hp, rfl⟩
      · exact ⟨.intro hv hp, rfl⟩

theorem HeapHost.Represents.handleReleaseMsg (hr : h.Represents me h') (sender : Nat)
    (lockno : Int) :
    SameResult me (h.handleReleaseMsg n me sender lockno)
      (Midsm.handleReleaseMsg n me sender lockno h') := by
  cases hr with
  | intro hv hp =>
      unfold HeapHost.handleReleaseMsg Midsm.handleReleaseMsg
      dsimp only
      split_ifs
      · exact ⟨.intro hv hp, rfl⟩
      · exact ⟨.intro hv hp, rfl⟩
      · exact ⟨.intro hv hp, rfl⟩
      · exact ⟨.intro hv hp, rfl⟩

theorem HeapHost.Represents.handleGrantMsg (hr : h.Represents me h') (lockno last : Int) :
    (h.handleGrantMsg lockno last).Represents me (Midsm.handleGrantMsg lockno last h') := by
  cases hr with
  | intro hv hp =>
      unfold HeapHost.handleGrantMsg Midsm.handleGrantMsg
      split
      · exact .intro hv hp
      · exact .intro hv hp

theorem HeapHost.Represents.handleExitBarrierMsg (hr : h.Represents me h') (sender : Nat) :
    (h.handleExitBarrierMsg sender).Represents me (Midsm.handleExitBarrierMsg sender h') := by
  cases hr with
  | intro hv hp =>
      unfold HeapHost.handleExitBarrierMsg Midsm.handleExitBarrierMsg
      split
      · exact .intro hv hp
      · exact .intro hv hp

theorem HeapHost.Represents.lockReturn (hr : h.Represents me h') (lockno : Int)
    (path : LockPath) :
    (h.lockReturn lockno path).Represents me (Midsm.lockReturn lockno path h') := by
  cases hr with
  | intro hv hp => cases path <;> exact .intro hv .run

theorem HeapHost.Represents.lockFetch (hr : h.Represents me h') (n : Nat) (lockno : Int)
    (path : LockPath) (hostid : Int) :
    SameResult me (h.lockFetch n me lockno path hostid)
      (Midsm.lockFetch n me lockno path hostid h') := by
  have hreturn := hr.lockReturn lockno path
  cases hr with
  | @intro g mem syn pc pc' ret hung hv hp =>
      unfold HeapHost.lockFetch Midsm.lockFetch HeapMem.fetchWritenoticeAndInterval
        Midsm.fetchWritenoticeAndInterval
      rw [hv.now_eq]
      dsimp only
      by_cases hn : n ≤ hostid.toNat
      · rw [if_pos hn, if_pos hn]
        exact ⟨hreturn, rfl⟩
      rw [if_neg hn, if_neg hn]
      by_cases hme : hostid.toNat = me
      · rw [if_pos hme, if_pos hme]
        exact ⟨hreturn, rfl⟩
      · rw [if_neg hme, if_neg hme]
        exact ⟨(hv.wniFlag true).represents (.wniWait lockno path) syn ret _, rfl⟩

/-- A new own interval is made on the way to a result. -/
theorem HeapMem.Valid.withNewInterval (hv : mem.Valid me g) (n : Nat) {α : Type}
    {f : Heap → α} {P : α → Prop}
    (hf : ∀ k, Mirrors me g mem { mem with heap := k }
        (Midsm.addNewInterval n me (mem.abs me g)) →
      P (f k)) :
    ∃ r, (mem.heap.addNewInterval n me).map f = some r ∧ P r := by
  obtain ⟨k, he, hm⟩ := hv.addNewInterval n
  rw [he]
  exact ⟨f k, rfl, hf k hm⟩

theorem HeapHost.Represents.miLock (hr : h.Represents me h') (n : Nat) (lockno : Int) :
    ∃ r, h.miLock n me lockno = some r ∧ SameResult me r (Midsm.miLock n me lockno h') := by
  cases hr with
  | @intro g mem syn pc pc' ret hung hv hp =>
      unfold HeapHost.miLock Midsm.miLock
      dsimp only
      by_cases hrange : lockno < 0 ∨ lockNum ≤ lockno
      · rw [if_pos hrange, if_pos hrange]
        exact ⟨_, rfl, .intro hv hp, rfl⟩
      rw [if_neg hrange, if_neg hrange]
      by_cases hmine : syn.myLocks lockno = true
      · rw [if_pos hmine, if_pos hmine]
        exact ⟨_, rfl, .intro hv hp, rfl⟩
      rw [if_neg hmine, if_neg hmine]
      by_cases hmanager : lockno % n = me
      · rw [if_pos hmanager, if_pos hmanager]
        by_cases hqueued : (graspLock n me lockno me syn).1 = -3
        · rw [if_pos hqueued, if_pos hqueued]
          exact ⟨_, rfl, .intro hv (.lockWait lockno), rfl⟩
        rw [if_neg hqueued, if_neg hqueued]
        by_cases hgot : (graspLock n me lockno me syn).1 ≥ -1
        · rw [if_pos hgot, if_pos hgot]
          by_cases hlast : (graspLock n me lockno me syn).1 ≠ -1 ∧
              (graspLock n me lockno me syn).1 ≠ me
          · rw [if_pos hlast, if_pos hlast]
            exact ⟨_, rfl, (HeapHost.Represents.intro hv hp).lockFetch n lockno .grasped _⟩
          · rw [if_neg hlast, if_neg hlast]
            exact hv.withNewInterval n fun k hm =>
              ⟨(hm.represents hp _ ret _).lockReturn lockno .grasped, rfl⟩
        · rw [if_neg hgot, if_neg hgot]
          exact ⟨_, rfl, .intro hv hp, rfl⟩
      · rw [if_neg hmanager, if_neg hmanager]
        exact ⟨_, rfl, .intro hv (.lockWait lockno), rfl⟩

theorem HeapHost.Represents.miLockResume (hr : h.Represents me h') (n : Nat) (lockno : Int) :
    ∃ r, h.miLockResume n me lockno = some r ∧
      SameResult me r (Midsm.miLockResume n me lockno h') := by
  have hfetch := fun path => hr.lockFetch n lockno path
  cases hr with
  | @intro g mem syn pc pc' ret hung hv hp =>
      unfold HeapHost.miLockResume Midsm.miLockResume
      dsimp only
      by_cases hmanager : lockno % n = me
      · rw [if_pos hmanager, if_pos hmanager]
        by_cases hlast : syn.lasthostid ≠ -1 ∧ syn.lasthostid ≠ me
        · rw [if_pos hlast, if_pos hlast]
          exact ⟨_, rfl, hfetch .waited _⟩
        · rw [if_neg hlast, if_neg hlast]
          exact ⟨_, rfl, .intro hv .run, rfl⟩
      · rw [if_neg hmanager, if_neg hmanager]
        by_cases hlast : syn.lasthostid ≠ -1 ∧ syn.lasthostid ≠ me
        · rw [if_pos hlast, if_pos hlast]
          exact ⟨_, rfl, hfetch .remote _⟩
        · rw [if_neg hlast, if_neg hlast]
          exact hv.withNewInterval n fun k hm => ⟨hm.represents .run syn (some 0) _, rfl⟩

theorem HeapHost.Represents.miUnlock (hr : h.Represents me h') (n : Nat) (lockno : Int) :
    ∃ r, h.miUnlock n me lockno = some r ∧ SameResult me r (Midsm.miUnlock n me lockno h') := by
  cases hr with
  | @intro g mem syn pc pc' ret hung hv hp =>
      unfold HeapHost.miUnlock Midsm.miUnlock
      dsimp only
      by_cases hrange : lockno < 0 ∨ lockNum ≤ lockno
      · rw [if_pos hrange, if_pos hrange]
        exact ⟨_, rfl, .intro hv hp, rfl⟩
      rw [if_neg hrange, if_neg hrange]
      by_cases hmine : syn.myLocks lockno = false
      · rw [if_pos hmine, if_pos hmine]
        exact ⟨_, rfl, .intro hv hp, rfl⟩
      rw [if_neg hmine, if_neg hmine]
      refine hv.withNewInterval n fun k hm => ?_
      by_cases hmanager : lockno % n = me
      · rw [if_pos hmanager, if_pos hmanager]
        exact ⟨hm.represents hp _ none _, rfl⟩
      · rw [if_neg hmanager, if_neg hmanager]
        exact ⟨hm.represents hp _ (some 0) _, rfl⟩

/-! ## Barriers -/

theorem HeapHost.Represents.checkBarrierFlags (hr : h.Represents me h') (n : Nat) :
    ∃ all r, h.checkBarrierFlags n me = some (all, r) ∧
      (Midsm.checkBarrierFlags n me h').1 = all ∧
      SameResult me r (Midsm.checkBarrierFlags n me h').2 := by
  cases hr with
  | @intro g mem syn pc pc' ret hung hv hp =>
      unfold HeapHost.checkBarrierFlags Midsm.checkBarrierFlags
      dsimp only
      by_cases hme : me ≠ 0
      · rw [if_pos hme, if_pos hme]
        exact ⟨_, _, rfl, rfl, .intro hv hp, rfl⟩
      rw [if_neg hme, if_neg hme]
      by_cases hflags : (List.range n).all syn.barrierFlags = false
      · rw [if_pos hflags, if_pos hflags]
        exact ⟨_, _, rfl, rfl, .intro hv hp, rfl⟩
      rw [if_neg hflags, if_neg hflags]
      obtain rfl := not_not.mp hme
      obtain ⟨k, he, hm⟩ := hv.returnAllBarrierInfo n
      rw [he]
      exact ⟨_, _, rfl, rfl, hm.represents hp _ ret _, rfl⟩

theorem HeapHost.Represents.miBarrier (hr : h.Represents me h') (n : Nat) :
    ∃ r, h.miBarrier n me = some r ∧ SameResult me r (Midsm.miBarrier n me h') := by
  cases hr with
  | @intro g mem syn pc pc' ret hung hv hp =>
      unfold HeapHost.miBarrier Midsm.miBarrier
      rw [hv.now_eq]
      dsimp only
      by_cases hme : me = 0
      · have hset : Moves me g mem g _ { mem.abs me g with
            barrierTimestamps := upd (mem.abs me g).barrierTimestamps 0 fun i =>
              if i.val < n then (g.interval mem.heap mem.heap.intervalNow).timestamp i
              else (mem.abs me g).barrierTimestamps 0 i } :=
          hv.timestamps (upd mem.heap.barrierTimestamps 0 fun i =>
            if i.val < n then (mem.heap.intervals mem.heap.intervalNow).timestamp i
            else mem.heap.barrierTimestamps 0 i)
        obtain ⟨all, ⟨h, out⟩, he, hall, hres⟩ := (hset.mirrors.represents hp
          { syn with barrierFlags := upd syn.barrierFlags 0 true } ret hung).checkBarrierFlags n
        rw [if_pos hme, if_pos hme]
        dsimp only [HeapHost.setHeap] at he hall hres ⊢
        rw [he]
        generalize Midsm.checkBarrierFlags n me _ = x at hall hres ⊢
        obtain ⟨all', h'', out'⟩ := x
        obtain ⟨hhost, rfl⟩ := hres
        obtain rfl := hall
        cases hhost with
        | intro hv hp =>
            cases all' with
            | false => exact ⟨_, rfl, .intro hv .barrierWait, rfl⟩
            | true => exact ⟨_, rfl, .intro hv hp, rfl⟩
      · rw [if_neg hme, if_neg hme, hv.sendEnterBarrierInfo n]
        exact ⟨_, rfl, .intro hv .barrierWait, rfl⟩

theorem HeapHost.Represents.handleEnterBarrierMsg (hr : h.Represents me h') (n sender : Nat) :
    ∃ r, h.handleEnterBarrierMsg n me sender = some r ∧
      SameResult me r (Midsm.handleEnterBarrierMsg n me sender h') := by
  cases hr with
  | @intro g mem syn pc pc' ret hung hv hp =>
      unfold HeapHost.handleEnterBarrierMsg Midsm.handleEnterBarrierMsg
      dsimp only
      generalize hflags : { syn with barrierFlags := upd syn.barrierFlags sender true } = syn'
      have hr : HeapHost.Represents me ⟨mem, syn', pc, ret, hung⟩ ⟨mem.abs me g, syn', pc', ret, hung⟩ :=
        .intro hv hp
      obtain ⟨all, r, he, hall, hres⟩ := hr.checkBarrierFlags n
      generalize Midsm.checkBarrierFlags n me ⟨mem.abs me g, syn', pc', ret, hung⟩ = x at hall hres ⊢
      obtain ⟨all', h'', out⟩ := x
      obtain ⟨h, out'⟩ := r
      obtain ⟨hhost, rfl⟩ := hres
      obtain rfl := hall
      rw [he]
      cases all' with
      | false => exact ⟨_, rfl, hhost, rfl⟩
      | true =>
          cases hhost with
          | intro hv hp => exact ⟨_, rfl, .intro hv hp, rfl⟩

/-! ## One host -/

/-- A message, of which the receiver has every own interval that it names. -/
theorem HeapHost.Represents.dispatchMsg (hr : h.Represents me h') (n sender : Nat) (msg : Msg)
    (hk : h'.mem.KnowsOwn me msg.packets) :
    ∃ r, h.dispatchMsg n me sender msg = some r ∧
      SameResult me r (Midsm.dispatchMsg n me sender msg h') := by
  cases msg with
  | acqLock lockno => exact ⟨_, rfl, hr.handleAcquireMsg sender lockno⟩
  | rlsLock lockno => exact ⟨_, rfl, hr.handleReleaseMsg sender lockno⟩
  | grantLock lockno last => exact ⟨_, rfl, hr.handleGrantMsg lockno last, rfl⟩
  | enterBarrier => exact hr.handleEnterBarrierMsg n sender
  | exitBarrier => exact ⟨_, rfl, hr.handleExitBarrierMsg sender, rfl⟩
  | grantWnI ts k packets =>
      cases hr with
      | intro hv hp =>
          obtain ⟨heap, he, hm⟩ := hv.handleGrantWNIMsg ts k packets hk
          unfold HeapHost.dispatchMsg
          dsimp only
          rw [he]
          exact ⟨_, rfl, hm.represents hp _ _ _, rfl⟩
  | grantDiff ts p diff =>
      cases hr with
      | intro hv hp =>
          obtain ⟨mem, he, hm⟩ := hv.handleGrantDiffMsg sender ts p diff
          unfold HeapHost.dispatchMsg
          dsimp only
          rw [he]
          exact ⟨_, rfl, hm.mirrors.represents hp _ _ _, rfl⟩
  | grantPage p content =>
      cases hr with
      | intro hv hp =>
          exact ⟨_, rfl, (hv.handleGrantPageMsg p content).mirrors.represents hp _ _ _, rfl⟩
  | fetchPage p =>
      cases hr with
      | intro hv hp =>
          obtain ⟨result, mem, m, out, he, he', hm⟩ := hv.grantPage n sender p
            (HeapPc.faulting _).isSome
          unfold HeapHost.dispatchMsg Midsm.dispatchMsg
          dsimp only
          rw [hp.faulting, he, he']
          exact ⟨_, rfl, hm.represents hp _ _ _, rfl⟩
  | fetchWnI ts =>
      cases hr with
      | intro hv hp =>
          unfold HeapHost.dispatchMsg
          dsimp only
          rw [hv.grantWNI n sender ts]
          exact ⟨_, rfl, .intro hv hp, rfl⟩
  | fetchDiff p ts =>
      cases hr with
      | intro hv hp =>
          obtain ⟨ret, mem, m, out, he, he', hm⟩ := hv.grantDiff n sender ts p
          unfold HeapHost.dispatchMsg Midsm.dispatchMsg
          dsimp only
          rw [he, he']
          exact ⟨_, rfl, hm.mirrors.represents hp _ _ _, rfl⟩
  | grantEnterBarrierInfo ts k packets =>
      cases hr with
      | intro hv hp =>
          obtain ⟨heap, he, hm⟩ := hv.handleGrantEnterBarrierMsg sender ts k packets hk
          unfold HeapHost.dispatchMsg
          dsimp only
          rw [he]
          exact ⟨_, rfl, hm.represents hp _ _ _, rfl⟩
  | grantExitBarrierInfo ts k packets =>
      cases hr with
      | intro hv hp =>
          obtain ⟨heap, he, hm⟩ := hv.handleGrantExitBarrierMsg ts k packets hk
          unfold HeapHost.dispatchMsg
          dsimp only
          rw [he]
          exact ⟨_, rfl, hm.represents hp _ _ _, rfl⟩

theorem HeapHost.Represents.fault (hr : h.Represents me h') (n p : Nat) :
    Option.Rel (SameResult me) (h.fault n me p) (h'.fault n me p) := by
  cases hr with
  | @intro g mem syn pc pc' ret hung hv hp =>
      have hsegv := hv.segvHandler n p
      unfold HeapHost.fault Host.fault
      dsimp only
      generalize mem.segvHandler n me p = x at hsegv ⊢
      generalize Midsm.segvHandler n me p (mem.abs me g) = y at hsegv ⊢
      cases hsegv with
      | none => exact .none
      | @some r r' hs =>
          obtain ⟨g', hm, hout, hpc⟩ := hs
          exact .some ⟨hm.represents hpc syn ret _, hout⟩

theorem HeapHost.Represents.prot (hr : h.Represents me h') (p : Nat) :
    (h'.mem.pageArray p).prot = (h.mem.heap.pageArray p).prot := by
  cases hr with
  | intro hv hp => rfl

theorem HeapHost.Represents.hung_eq (hr : h.Represents me h') : h'.hung = h.hung := by
  cases hr with
  | intro hv hp => rfl

theorem HeapHost.Represents.load (hr : h.Represents me h') (n p : Nat) :
    Option.Rel (SameResult me) (h.load n me p) (h'.load n me p) := by
  unfold HeapHost.load Host.load
  rw [hr.prot p]
  split
  · exact .some ⟨hr, rfl⟩
  · exact hr.fault n p

theorem HeapHost.Represents.storeBytes (hr : h.Represents me h') (p o : Nat)
    (bytes : List Byte) :
    HeapHost.Represents me { h with mem := h.mem.storeBytes p o bytes }
      { h' with mem := h'.mem.storeBytes p o bytes } := by
  cases hr with
  | intro hv hp => exact (hv.storeBytes p o bytes).mirrors.represents hp _ _ _

theorem HeapHost.Represents.store (hr : h.Represents me h') (n p o : Nat) (bytes : List Byte) :
    Option.Rel (SameResult me) (h.store n me p o bytes) (h'.store n me p o bytes) := by
  have hfault := hr.fault n p
  unfold HeapHost.store Host.store
  rw [hr.prot p]
  split
  · exact .some ⟨hr.storeBytes p o bytes, rfl⟩
  · generalize h.fault n me p = x at hfault ⊢
    generalize h'.fault n me p = y at hfault ⊢
    cases hfault with
    | none => exact .none
    | some hs =>
        dsimp only [Option.map_some]
        rw [hs.host.prot p]
        split
        · exact .some ⟨hs.host.storeBytes p o bytes, hs.out⟩
        · exact .some hs

theorem HeapHost.Represents.resume (hr : h.Represents me h') (n : Nat) :
    Option.Rel (SameResult me) (h.resume n me) (h'.resume n me) := by
  cases hr with
  | @intro g mem syn pc pc' ret hung hv hp =>
      unfold HeapHost.resume Host.resume
      cases hp with
      | run => exact .none
      | lockWait lockno =>
          dsimp only
          split
          · exact .none
          · obtain ⟨r, he, hs⟩ :=
              (HeapHost.Represents.intro hv (.lockWait lockno)).miLockResume n lockno
            rw [he]
            exact .some hs
      | wniWait lockno path =>
          have hflag : (mem.abs me g).fetchWNIWaitFlag = mem.heap.fetchWNIWaitFlag := rfl
          dsimp only
          rw [hflag]
          split
          · exact .none
          · exact .some
              ⟨(HeapHost.Represents.intro hv (.wniWait lockno path)).lockReturn lockno path, rfl⟩
      | barrierWait =>
          dsimp only
          split
          · exact .none
          · exact .some ⟨.intro hv .run, rfl⟩
      | pageWait p =>
          have hflag : (mem.abs me g).fetchPageWaitFlag = mem.fetchPageWaitFlag := rfl
          dsimp only
          rw [hflag]
          split
          · exact .none
          · exact .some ⟨(hv.fetchPageResume p).represents .run syn ret _, rfl⟩
      | diffWait hstart hl =>
          have hflag : (mem.abs me g).fetchDiffWaitFlag = mem.fetchDiffWaitFlag := rfl
          dsimp only
          rw [hflag]
          split
          · exact .none
          · obtain ⟨r, he, g', hm, hout, hpc⟩ := hv.fetchDiffResume n hstart hl
            rw [he]
            exact .some ⟨hm.represents hpc syn ret _, hout⟩

theorem HeapHost.Represents.exec (hr : h.Represents me h') (n : Nat) (op : Op) :
    Option.Rel (SameResult me) (h.exec n me op) (h'.exec n me op) := by
  have hload := fun p => hr.load n p
  have hstore := fun p o bytes => hr.store n p o bytes
  have hresume := hr.resume n
  have hlock := fun lockno => hr.miLock n lockno
  have hunlock := fun lockno => hr.miUnlock n lockno
  have hbarrier := hr.miBarrier n
  cases hr with
  | @intro g mem syn pc pc' ret hung hv hp =>
      have hsome : ∀ {x : Option (HeapHost × Out)} {r' : Host × Out},
          (∃ r, x = some r ∧ SameResult me r r') → Option.Rel (SameResult me) x (some r') := by
        rintro x r' ⟨r, rfl, hs⟩
        exact .some hs
      cases op with
      | resume => exact hresume
      | alloc size =>
          cases hp with
          | run => exact .some ⟨(hv.miAlloc n size).2.represents .run syn ret _, rfl⟩
          | lockWait | wniWait | barrierWait | pageWait | diffWait => exact .none
      | load p o len =>
          cases hp with
          | run => exact hload p
          | lockWait | wniWait | barrierWait | pageWait | diffWait => exact .none
      | store p o bytes =>
          cases hp with
          | run => exact hstore p o bytes
          | lockWait | wniWait | barrierWait | pageWait | diffWait => exact .none
      | lock lockno =>
          cases hp with
          | run => exact hsome (hlock lockno)
          | lockWait | wniWait | barrierWait | pageWait | diffWait => exact .none
      | unlock lockno =>
          cases hp with
          | run => exact hsome (hunlock lockno)
          | lockWait | wniWait | barrierWait | pageWait | diffWait => exact .none
      | barrier =>
          cases hp with
          | run => exact hsome hbarrier
          | lockWait | wniWait | barrierWait | pageWait | diffWait => exact .none

/-! ## All hosts -/

structure HeapSys.Represents (s : HeapSys) (s' : Sys) : Prop where
  host : ∀ x, (s.host x).Represents x (s'.host x)
  net : s.net = s'.net

theorem HeapSys.Represents.put {s : HeapSys} {s' : Sys} (hr : s.Represents s') (a : Nat)
    {r : HeapHost × Out} {r' : Host × Out} (hs : SameResult a r r') :
    (s.put a r).Represents (s'.put a r') where
  host x := by
    unfold HeapSys.put Sys.put
    dsimp only
    by_cases hx : x = a
    · subst hx
      rw [upd_self, upd_self]
      exact hs.host
    · rw [upd_ne hx, upd_ne hx]
      exact hr.host x
  net := by
    unfold HeapSys.put Sys.put
    dsimp only
    rw [hr.net, hs.out]

theorem HeapSys.Represents.pop {s : HeapSys} {s' : Sys} (hr : s.Represents s') (a b : Nat) :
    (s.pop a b).Represents (s'.pop a b) where
  host := hr.host
  net := by
    unfold HeapSys.pop Sys.pop
    dsimp only
    rw [hr.net]

/-- A message on its way names own intervals of its receiver that the receiver has. -/
theorem Sound.knowsOwn {s : Sys} {a b : Nat} {msg : Msg} (hs : Sound n s)
    (hm : msg ∈ s.net a b) : (s.host b).mem.KnowsOwn b msg.packets :=
  fun packet hp hid => hid ▸ (hs.told a b msg hm packet hp).1.2

theorem HeapSys.Represents.step {s : HeapSys} {s' : Sys} (hr : s.Represents s')
    (hs : Sound n s') (e : Event) :
    Option.Rel HeapSys.Represents (heapSysStep n s e) (Midsm.step n s' e) := by
  cases e with
  | op x op =>
      unfold heapSysStep Midsm.step
      dsimp only
      rw [(hr.host x).hung_eq]
      by_cases hx : x < n ∧ (s.host x).hung = false
      · rw [if_pos hx, if_pos hx]
        have hexec := (hr.host x).exec n op
        generalize (s.host x).exec n x op = y at hexec ⊢
        generalize (s'.host x).exec n x op = y' at hexec ⊢
        cases hexec with
        | none => exact .none
        | some hres => exact .some (hr.put x hres)
      · rw [if_neg hx, if_neg hx]
        exact .none
  | deliver a b =>
      unfold heapSysStep Midsm.step
      dsimp only
      rw [(hr.host b).hung_eq]
      by_cases hab : a < n ∧ b < n ∧ a ≠ b ∧ (s.host b).hung = false
      · rw [if_pos hab, if_pos hab, hr.net]
        cases hmsgs : s'.net a b with
        | nil => exact .none
        | cons msg rest =>
            have hm : msg ∈ s'.net a b := hmsgs ▸ List.mem_cons_self
            obtain ⟨r, he, hres⟩ := (hr.host b).dispatchMsg n a msg (hs.knowsOwn hm)
            dsimp only
            rw [he]
            exact .some ((hr.pop a b).put b hres)
      · rw [if_neg hab, if_neg hab]
        exact .none

theorem HeapSys.Represents.run {s : HeapSys} {s' : Sys} (hr : s.Represents s')
    (hs : Sound n s') (es : List Event) :
    Option.Rel HeapSys.Represents (runFrom (heapSysStep n) (fun _ _ => true) s es)
      (runFrom (Midsm.step n) (fun _ _ => true) s' es) := by
  induction es generalizing s s' with
  | nil => exact .some hr
  | cons e es ih =>
      have hstep := hr.step hs e
      rw [runFrom, runFrom, if_pos rfl, if_pos rfl]
      generalize heapSysStep n s e = x at hstep ⊢
      cases hnext : Midsm.step n s' e with
      | none =>
          rw [hnext] at hstep
          cases hstep
          exact .none
      | some t' =>
          rw [hnext] at hstep
          cases hstep with
          | some ht => exact ih ht (hs.step hnext)

theorem represents_init : initHeapSys.Represents initSys where
  host x := by
    have hl := linked_init x
    have hv : (initHeapMem x).Valid x _ := ⟨hl, fun _ _ ha => by cases ha⟩
    have habs : (initHeapMem x).abs x
        ⟨Function.update (fun _ => []) x [0], fun _ => [], fun _ => []⟩ = initmem x := by
      refine Mem.eq_of (funext fun q => rfl) (funext fun j => ?_) ?_ rfl rfl rfl rfl rfl rfl
      · unfold HeapMem.abs initmem
        dsimp only
        by_cases hj : j = x
        · subst hj
          rw [upd_self, Function.update_self]
          rfl
        · rw [upd_ne hj, Function.update_of_ne hj]
          rfl
      · unfold HeapMem.abs initmem
        dsimp only
        rw [Function.update_self]
        rfl
    exact Moves.represents ⟨hv, habs, .refl _ _⟩ .run _ _ _
  net := rfl

/-- Every run of the system with pointers is a run of the system with lists, and the other
way round. -/
theorem pointers_refine_lists (n : Nat) (es : List Event) :
    Option.Rel HeapSys.Represents
      (runFrom (heapSysStep n) (fun _ _ => true) initHeapSys es)
      (runFrom (Midsm.step n) (fun _ _ => true) initSys es) :=
  represents_init.run (Sound.init n) es

theorem represents_of_reach {s : HeapSys} (h : Reach (heapSysStep n) anyStep initHeapSys s) :
    ∃ s', Reach (Midsm.step n) anyStep initSys s' ∧ s.Represents s' := by
  induction h with
  | refl => exact ⟨initSys, .refl, represents_init⟩
  | @tail t u e _ _ he ih =>
      obtain ⟨t', ht', hr⟩ := ih
      have hstep := hr.step (sound_of_reach ht') e
      rw [he] at hstep
      cases hnext : Midsm.step n t' e with
      | none => rw [hnext] at hstep; cases hstep
      | some u' =>
          rw [hnext] at hstep
          cases hstep with
          | some hu => exact ⟨u', ht'.tail trivial hnext, hu⟩

/-- In a run of the whole system the lists hold together on every host, with packets that
come back to the host they speak of. -/
theorem system_lists_well_linked (n : Nat) {s : HeapSys}
    (h : Reach (heapSysStep n) anyStep initHeapSys s) (x : Nat) :
    WellLinked x (s.host x).mem.heap ∧
      ∀ p, ∀ a ∈ (s.host x).mem.startInterval p, a < (s.host x).mem.heap.intervalNum := by
  obtain ⟨s', -, hr⟩ := represents_of_reach h
  have hx := hr.host x
  generalize s.host x = host at hx ⊢
  generalize s'.host x = host' at hx
  cases hx with
  | intro hv hp => exact ⟨hv.linked.wellLinked, hv.start⟩

/-- Host 1 stores to its page, and the barrier takes the notice to host 0. -/
theorem system_lists_well_linked_two : ∃ s,
    Reach (heapSysStep 2) anyStep initHeapSys s ∧ (s.host 0).mem.heap.noticeNum = 1 ∧
      WellLinked 0 (s.host 0).mem.heap := by
  obtain ⟨s, hrun, hp⟩ := exists_reach_any (heapSysStep 2) initHeapSys
    [.op 0 (.alloc 8192), .op 1 (.alloc 8192), .op 1 (.store 1 0 [7]), .op 1 .barrier,
      .deliver 1 0, .deliver 1 0, .op 0 .barrier, .deliver 0 1, .deliver 0 1, .op 1 .resume]
    (fun s => decide ((s.host 0).mem.heap.noticeNum = 1)) (by decide +kernel)
  exact ⟨s, hrun, of_decide_eq_true hp, (system_lists_well_linked 2 hrun 0).1⟩

end

end Midsm
