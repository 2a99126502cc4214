import Midsm.Lib.Trace
import Midsm.Proofs.MemCases
import Midsm.Ref.Interrupt

/-!
# A call that nothing interrupts

`System` takes a segment of a call in one step, and `Interrupt` takes one at a time the
statements of `mi_lock` on a lock that the host manages and of `mi_barrier` on host 0; the
other calls are one statement there too. A segment is what its statements do when no
handler runs between them: same sends, in the same order, and the same host in the end.
So every run of a host in `System` is one of its runs in `Interrupt`.
-/

namespace Midsm

open Midsm.Lib

/-! ## One host, seen from outside -/

inductive Obs where
  | sent (dest : Nat) (msg : Msg)
  | handled (sender : Nat) (msg : Msg)

def sends (out : Out) : List Obs := out.map fun x => .sent x.1 x.2

theorem sends_append (a b : Out) : sends (a ++ b) = sends a ++ sends b := List.map_append

inductive HostEvent where
  | op (op : Op)
  | handler (sender : Nat) (msg : Msg)

/-- One host of the system. -/
def hostStep (n me : Nat) (h : Host) (e : HostEvent) : Option (Host × List Obs) :=
  if h.hung then none
  else match e with
    | .op op => (h.exec n me op).map fun r => (r.1, sends r.2)
    | .handler sender msg =>
        if sender < n ∧ sender ≠ me then
          let r := dispatchMsg n me sender msg h
          some (r.1, .handled sender msg :: sends r.2)
        else none

def ThreadEvent.obs : ThreadEvent → List Obs
  | .handler sender msg => [.handled sender msg]
  | _ => []

def observedStep (n me : Nat) (t : Thread) (e : ThreadEvent) : Option (Thread × List Obs) :=
  (threadStep n me t e).map fun r => (r.1, e.obs ++ sends r.2)

/-- The statement at which a host stands that waits. -/
def Host.stmt (n me : Nat) (h : Host) : Stmt :=
  match h.pc with
  | .lockWait l => if l % n = me then .lock l .spin else .idle
  | .wniWait _ .remote => .idle
  | .wniWait l path => if l % n = me then .lock l (.fetching path) else .idle
  | .barrierWait => if me = 0 then .barrier .spin else .idle
  | _ => .idle

/-- A host between two segments, as a thread. -/
def Host.thread (n me : Nat) (h : Host) : Thread :=
  match h.stmt n me with
  | .idle => ⟨h, .idle⟩
  | stmt => ⟨{ h with pc := .run }, stmt⟩

section

variable {n me : Nat} {h : Host} {t u v : Thread} {l : Int} {os : List Obs} {out : Out}

/-! ## Statements -/

theorem observedStep_eq (hh : t.host.hung = false) (e : ThreadEvent) :
    observedStep n me t e = (t.event n me e).map fun r => (r.1, e.obs ++ sends r.2) := by
  unfold observedStep threadStep
  rw [hh, if_neg Bool.false_ne_true]

theorem run_next (hh : t.host.hung = false) (hn : t.next n me = some (u, out)) (hr : Trace (observedStep n me) u os v) :
    Trace (observedStep n me) t (sends out ++ os) v := by
  refine Trace.next (e := .next) ?_ hr
  rw [observedStep_eq hh, Thread.event, hn]
  rfl

theorem run_silent (hh : t.host.hung = false) (hn : t.next n me = some (u, []))
    (hr : Trace (observedStep n me) u os v) : Trace (observedStep n me) t os v := run_next hh hn hr

theorem run_leave (hh : t.host.hung = false) (h : Host) (ret : Option Int)
    (hn : t.next n me = Thread.leave ret h) :
    Trace (observedStep n me) t [] ⟨{ h with ret := ret }, .idle⟩ :=
  run_silent hh hn (.done _)

theorem thread_run (hpc : h.pc = .run) : h.thread n me = ⟨h, .idle⟩ := by
  unfold Host.thread Host.stmt
  rw [hpc]

theorem thread_lockWait (hpc : h.pc = .lockWait l) (hm : l % n = me) :
    h.thread n me = ⟨{ h with pc := .run }, .lock l .spin⟩ := by
  unfold Host.thread Host.stmt
  rw [hpc]
  dsimp only
  rw [if_pos hm]

theorem thread_wniWait {path : LockPath} (hpc : h.pc = .wniWait l path) (hm : l % n = me)
    (hp : path ≠ .remote) :
    h.thread n me = ⟨{ h with pc := .run }, .lock l (.fetching path)⟩ := by
  unfold Host.thread Host.stmt
  rw [hpc]
  cases path with
  | remote => exact absurd rfl hp
  | grasped | waited =>
      dsimp only
      rw [if_pos hm]

theorem thread_barrierWait (hpc : h.pc = .barrierWait) :
    h.thread n 0 = ⟨{ h with pc := .run }, .barrier .spin⟩ := by
  unfold Host.thread Host.stmt
  rw [hpc]
  rfl

/-! ## `mi_lock` -/

theorem setLock_setLock (l : Int) (lock lock' : Lock) (h : Host) :
    (h.setLock l lock).setLock l lock' = h.setLock l lock' := by
  unfold Host.setLock Syn.setLock
  dsimp only
  congr 2
  funext x
  unfold upd
  split <;> rfl

theorem setLock_locks (l : Int) (lock : Lock) (h : Host) :
    (h.setLock l lock).syn.locks l = lock := upd_self _ _ _

/-- The statements of `graspLock`. -/
theorem run_grasp (hh : h.hung = false) (hme : me < n) (hl : 0 ≤ l) (hl' : l < lockNum) (hm : l % n = me)
    (hr : Trace (observedStep n me) ⟨{ h with syn := (graspLock n me l me h.syn).2 },
      .lock l (.result (graspLock n me l me h.syn).1)⟩ os v) :
    Trace (observedStep n me) ⟨h, .lock l .state⟩ os v := by
  refine run_silent hh rfl ?_
  unfold graspLock at hr
  dsimp only at hr
  rw [if_neg (by omega), if_neg (not_not.mpr hm)] at hr
  by_cases hfree : (h.syn.locks l).locked = false
  · rw [if_pos hfree] at hr ⊢
    refine run_silent hh rfl (run_silent hh rfl (run_silent hh rfl ?_))
    rw [setLock_setLock, setLock_locks, setLock_locks]
    exact hr
  · rw [if_neg hfree] at hr ⊢
    refine run_silent hh rfl ?_
    by_cases hown : (h.syn.locks l).owner = me
    · rw [if_pos hown] at hr ⊢
      exact hr
    · rw [if_neg hown] at hr ⊢
      refine run_silent hh rfl (run_silent hh rfl ?_)
      rw [setLock_setLock, setLock_locks]
      exact hr

/-- What follows a wait for notices. -/
theorem run_return (hh : h.hung = false) {path : LockPath} (hp : path ≠ .remote) :
    Trace (observedStep n me) ⟨{ h with pc := .run }, .lock l path.next⟩ []
      ((lockReturn l path h).thread n me) := by
  cases path with
  | remote => exact absurd rfl hp
  | grasped =>
      rw [thread_run rfl]
      exact run_leave hh { h with
        syn := { h.syn with myLocks := upd h.syn.myLocks l true }, pc := .run } none rfl
  | waited =>
      rw [thread_run rfl]
      exact run_leave hh { h with syn := { h.syn with lasthostid := -1 }, pc := .run } none rfl

theorem run_fetch (hh : h.hung = false) (hm : l % n = me) {path : LockPath} (hp : path ≠ .remote) (hostid : Int) :
    Trace (observedStep n me) ⟨{ h with pc := .run }, .lock l (.fetch path hostid)⟩
      (sends (lockFetch n me l path hostid h).2)
      ((lockFetch n me l path hostid h).1.thread n me) := by
  unfold lockFetch
  cases hf : fetchWritenoticeAndInterval n me hostid.toNat h.mem with
  | none =>
      refine run_silent hh (u := ⟨{ h with pc := .run }, .lock l path.next⟩) ?_ (run_return hh hp)
      simp only [Thread.next, lockStmt, hf]
  | some x =>
      obtain ⟨mem, out⟩ := x
      dsimp only
      rw [thread_wniWait rfl hm hp]
      have hstmt : Thread.next n me ⟨{ h with pc := .run }, .lock l (.fetch path hostid)⟩ =
          some (⟨{ h with mem := mem, pc := .run }, .lock l (.fetching path)⟩, out) := by
        simp only [Thread.next, lockStmt, hf]
      have hnext := run_next hh hstmt (.done _)
      rwa [List.append_nil] at hnext

/-- What `mi_lock` does with the result of `graspLock`. -/
def afterGrasp (n me : Nat) (l result : Int) (h : Host) : Host × Out :=
  if result = -3 then
    ({ h with syn := { h.syn with waitFlag := true }, pc := .lockWait l }, [])
  else if result ≥ -1 then
    if result ≠ -1 ∧ result ≠ me then lockFetch n me l .grasped result h
    else (lockReturn l .grasped { h with mem := addNewInterval n me h.mem }, [])
  else ({ h with ret := none }, [])

theorem run_result (hh : h.hung = false) (hm : l % n = me) (hpc : h.pc = .run) (result : Int) :
    Trace (observedStep n me) ⟨h, .lock l (.result result)⟩
      (sends (afterGrasp n me l result h).2) ((afterGrasp n me l result h).1.thread n me) := by
  have heta : h = { h with pc := .run } := by rw [← hpc]
  unfold afterGrasp
  by_cases h3 : result = -3
  · rw [if_pos h3, thread_lockWait rfl hm]
    refine run_silent hh (u := ⟨h, .lock l .flag⟩) ?_ (run_silent hh (u := ⟨{ h with
      syn := { h.syn with waitFlag := true } }, .lock l .spin⟩) rfl ?_)
    · simp only [Thread.next, lockStmt]
      rw [if_pos h3]
    · rw [heta]
      exact .done _
  · rw [if_neg h3]
    by_cases h1 : result ≥ -1
    · rw [if_pos h1]
      by_cases hlast : result ≠ -1 ∧ result ≠ me
      · rw [if_pos hlast]
        refine run_silent hh (u := ⟨h, .lock l (.fetch .grasped result)⟩) ?_ ?_
        · simp only [Thread.next, lockStmt]
          rw [if_neg h3, if_pos h1, if_pos hlast]
        · have hp : LockPath.grasped ≠ .remote := nofun
          have hf := run_fetch hh hm hp result
          rwa [← heta] at hf
      · rw [if_neg hlast]
        refine run_silent hh (u := ⟨h, .lock l .interval⟩) ?_ (run_silent hh (u := ⟨{ h with
          mem := addNewInterval n me h.mem }, .lock l .own⟩) rfl ?_)
        · simp only [Thread.next, lockStmt]
          rw [if_neg h3, if_pos h1, if_neg hlast]
        · have hp : LockPath.grasped ≠ .remote := nofun
          have hr := @run_return n me { h with mem := addNewInterval n me h.mem } l hh _ hp
          rw [show ({ h with mem := addNewInterval n me h.mem, pc := .run } : Host) =
            { h with mem := addNewInterval n me h.mem } by rw [← hpc]] at hr
          exact hr
    · rw [if_neg h1, thread_run (h := { h with ret := none }) hpc]
      refine run_leave hh h none ?_
      simp only [Thread.next, lockStmt]
      rw [if_neg h3, if_neg h1]

theorem miLock_eq (hl : 0 ≤ l) (hl' : l < lockNum) (hm : l % n = me)
    (hmy : h.syn.myLocks l = false) : miLock n me l h =
      afterGrasp n me l (graspLock n me l me h.syn).1
        { h with syn := (graspLock n me l me h.syn).2 } := by
  unfold miLock
  rw [if_neg (by omega), hmy, if_neg Bool.false_ne_true, if_pos hm]
  rfl

theorem run_lock (hh : h.hung = false) (hme : me < n) (hm : l % n = me) (hpc : h.pc = .run) :
    Trace (observedStep n me) ⟨h, .idle⟩ (sends (miLock n me l h).2)
      ((miLock n me l h).1.thread n me) := by
  have hfree : (⟨h, .idle⟩ : Thread).Free = true ∧ l % n = me := by
    refine ⟨?_, hm⟩
    unfold Thread.Free
    rw [hpc]
  by_cases hl : l < 0 ∨ lockNum ≤ l
  · unfold miLock
    rw [if_pos hl, thread_run (h := { h with ret := some (-1) }) hpc]
    refine Trace.silent (e := .lock l) ?_ (.done _)
    rw [observedStep_eq hh, Thread.event, if_pos hfree, if_pos hl]
    rfl
  · refine Trace.silent (t := ⟨h, .lock l .held⟩) (e := .lock l) ?_ ?_
    · rw [observedStep_eq hh, Thread.event, if_pos hfree, if_neg hl]
      rfl
    · cases hmy : h.syn.myLocks l with
      | true =>
          have he : miLock n me l h = ({ h with ret := some (-2) }, []) := by
            unfold miLock
            rw [if_neg hl, hmy, if_pos rfl]
          rw [he, thread_run (h := { h with ret := some (-2) }) hpc]
          refine run_leave hh h (some (-2)) ?_
          simp only [Thread.next, lockStmt, hmy, if_pos]
      | false =>
          rw [miLock_eq (by omega) (by omega) hm hmy]
          refine run_silent hh (u := ⟨h, .lock l .state⟩) ?_ ?_
          · simp only [Thread.next, lockStmt, hmy, if_neg Bool.false_ne_true]
          · exact run_grasp hh hme (by omega) (by omega) hm
              (run_result (h := { h with syn := (graspLock n me l me h.syn).2 }) hh hm hpc _)

/-- `mi_lock` goes on when its wait is over. -/
theorem run_lockResume (hh : h.hung = false) (hm : l % n = me) (hw : h.syn.waitFlag = false) :
    Trace (observedStep n me) ⟨{ h with pc := .run }, .lock l .spin⟩
      (sends (miLockResume n me l h).2) ((miLockResume n me l h).1.thread n me) := by
  refine run_silent hh (u := ⟨{ h with pc := .run }, .lock l .granted⟩) ?_ ?_
  · simp only [Thread.next, lockStmt, hw]
    rfl
  · unfold miLockResume
    dsimp only
    rw [if_pos hm]
    by_cases hlast : h.syn.lasthostid ≠ -1 ∧ h.syn.lasthostid ≠ me
    · rw [if_pos hlast]
      have hp : LockPath.waited ≠ .remote := nofun
      refine run_silent hh (u := ⟨{ h with pc := .run },
        .lock l (.fetch .waited h.syn.lasthostid)⟩) ?_ (run_fetch hh hm hp _)
      simp only [Thread.next, lockStmt]
      rw [if_pos hlast]
    · rw [if_neg hlast, thread_run rfl]
      refine run_leave hh { h with pc := .run } none ?_
      simp only [Thread.next, lockStmt]
      rw [if_neg hlast]

theorem run_wniResume (hh : h.hung = false) {path : LockPath} (hp : path ≠ .remote)
    (hw : h.mem.fetchWNIWaitFlag = false) :
    Trace (observedStep n me) ⟨{ h with pc := .run }, .lock l (.fetching path)⟩ []
      ((lockReturn l path h).thread n me) := by
  refine run_silent hh (u := ⟨{ h with pc := .run }, .lock l path.next⟩) ?_ (run_return hh hp)
  simp only [Thread.next, lockStmt, hw]
  rfl

/-! ## `mi_barrier` on host 0 -/

/-- The timestamps from host `i` on. -/
theorem run_stamp (k : Nat) : ∀ {i : Nat} {h : Host}, h.hung = false → i + k = n →
    Trace (observedStep n 0) ⟨{ h with mem := { h.mem with
      barrierTimestamps := upd h.mem.barrierTimestamps 0 fun j =>
        if i ≤ j.val ∧ j.val < n then (h.mem.now 0).timestamp j
        else h.mem.barrierTimestamps 0 j } }, .barrier (.scan 0)⟩ os v →
    Trace (observedStep n 0) ⟨h, .barrier (.stamp i)⟩ os v := by
  induction k with
  | zero =>
      intro i h hh hi hr
      have hsame : (upd h.mem.barrierTimestamps 0 fun j : Fin maxHostNum =>
          if i ≤ j.val ∧ j.val < n then (h.mem.now 0).timestamp j
          else h.mem.barrierTimestamps 0 j) = h.mem.barrierTimestamps := by
        funext x
        unfold upd
        split
        · next hx =>
            funext j
            rw [if_neg (by omega), hx]
        · rfl
      rw [hsame] at hr
      refine run_silent hh ?_ hr
      simp only [Thread.next, barrierStmt]
      rw [if_neg (by omega)]
  | succ k ih =>
      intro i h hh hi hr
      refine run_silent hh (u := ⟨{ h with mem := { h.mem with
        barrierTimestamps := upd h.mem.barrierTimestamps 0 fun j =>
          if j.val = i then (h.mem.now 0).timestamp j
          else h.mem.barrierTimestamps 0 j } }, .barrier (.stamp (i + 1))⟩) ?_
        (ih hh (by omega) ?_)
      · simp only [Thread.next, barrierStmt]
        rw [if_pos (by omega)]
      · have hsame : (upd (upd h.mem.barrierTimestamps 0 fun j : Fin maxHostNum =>
            if j.val = i then (h.mem.now 0).timestamp j else h.mem.barrierTimestamps 0 j) 0
            fun j : Fin maxHostNum => if i + 1 ≤ j.val ∧ j.val < n then (h.mem.now 0).timestamp j
              else upd h.mem.barrierTimestamps 0 (fun j : Fin maxHostNum =>
                if j.val = i then (h.mem.now 0).timestamp j
                else h.mem.barrierTimestamps 0 j) 0 j) =
            upd h.mem.barrierTimestamps 0 fun j : Fin maxHostNum =>
              if i ≤ j.val ∧ j.val < n then (h.mem.now 0).timestamp j
              else h.mem.barrierTimestamps 0 j := by
          rw [upd_self]
          funext x
          unfold upd
          split
          · funext j
            by_cases hj : j.val = i
            · rw [if_neg (by omega), if_pos hj, if_pos (by omega)]
            · by_cases hlt : i + 1 ≤ j.val ∧ j.val < n
              · rw [if_pos hlt, if_pos (by omega)]
              · rw [if_neg hlt, if_neg hj, if_neg (by omega)]
          · rfl
        rw [← hsame] at hr
        exact hr

/-- The loop of `checkBarrierFlags`. -/
theorem run_scan (hh : h.hung = false) (k : Nat) : ∀ {i : Nat}, i + k = n →
    Trace (observedStep n 0) ⟨h, .barrier
      (if (List.range' i k).all h.syn.barrierFlags then .info else .flag)⟩ os v →
    Trace (observedStep n 0) ⟨h, .barrier (.scan i)⟩ os v := by
  induction k with
  | zero =>
      intro i hi hr
      refine run_silent hh ?_ hr
      simp only [Thread.next, barrierStmt]
      rw [if_neg (by omega)]
      rfl
  | succ k ih =>
      intro i hi hr
      rw [List.range'_succ, List.all_cons] at hr
      cases hflag : h.syn.barrierFlags i with
      | true =>
          rw [hflag, Bool.true_and] at hr
          refine run_silent hh ?_ (ih (i := i + 1) (by omega) hr)
          simp only [Thread.next, barrierStmt]
          rw [if_pos (by omega), hflag, if_pos rfl]
      | false =>
          rw [hflag, Bool.false_and, if_neg Bool.false_ne_true] at hr
          refine run_silent hh ?_ hr
          simp only [Thread.next, barrierStmt]
          rw [if_pos (by omega), hflag, if_neg Bool.false_ne_true]

/-- The messages to the hosts from `i` on. -/
theorem run_exit (hh : h.hung = false) (k : Nat) : ∀ {i : Nat}, i + k = n →
    Trace (observedStep n 0) ⟨h, .barrier (.clear 0)⟩ os v →
    Trace (observedStep n 0) ⟨h, .barrier (.exit i)⟩
      (sends ((List.range' i k).map fun i => (i, .exitBarrier)) ++ os) v := by
  induction k with
  | zero =>
      intro i hi hr
      refine run_silent hh ?_ hr
      simp only [Thread.next, barrierStmt]
      rw [if_neg (by omega)]
  | succ k ih =>
      intro i hi hr
      rw [List.range'_succ, List.map_cons]
      have hstmt : Thread.next n 0 ⟨h, .barrier (.exit i)⟩ =
          some (⟨h, .barrier (.exit (i + 1))⟩, [(i, .exitBarrier)]) := by
        simp only [Thread.next, barrierStmt]
        rw [if_pos (by omega)]
      have hrun := run_next hh hstmt (ih (i := i + 1) (by omega) hr)
      exact hrun

/-- The flags from host `i` on. -/
theorem run_clear (k : Nat) : ∀ {i : Nat} {h : Host}, h.hung = false → i + k = n →
    Trace (observedStep n 0) ⟨h, .barrier (.clear i)⟩ [] ⟨{ h with
      syn := { h.syn with
        barrierFlags := fun j => if i ≤ j ∧ j < n then false else h.syn.barrierFlags j }
      ret := none }, .idle⟩ := by
  induction k with
  | zero =>
      intro i h hh hi
      have hsame : (fun j => if i ≤ j ∧ j < n then false else h.syn.barrierFlags j) =
          h.syn.barrierFlags := funext fun j => if_neg (by omega)
      rw [hsame]
      refine run_leave hh h none ?_
      simp only [Thread.next, barrierStmt]
      rw [if_neg (by omega)]
  | succ k ih =>
      intro i h hh hi
      have hsame : (fun j => if i + 1 ≤ j ∧ j < n then false
          else (h.setFlag i false).syn.barrierFlags j) =
          fun j => if i ≤ j ∧ j < n then false else h.syn.barrierFlags j := by
        funext j
        unfold Host.setFlag upd
        dsimp only
        by_cases hj : j = i
        · rw [if_neg (by omega), if_pos hj, if_pos (by omega)]
        · by_cases hlt : i + 1 ≤ j ∧ j < n
          · rw [if_pos hlt, if_pos (by omega)]
          · rw [if_neg hlt, if_neg hj, if_neg (by omega)]
      have hr := ih (i := i + 1) (h := h.setFlag i false) hh (by omega)
      rw [hsame] at hr
      refine run_silent hh ?_ hr
      simp only [Thread.next, barrierStmt]
      rw [if_pos (by omega)]

/-- What `mi_barrier` does once its own flag is up. -/
def afterFlag (n : Nat) (h : Host) : Host × Out :=
  if (List.range n).all h.syn.barrierFlags then
    ({ (h.release n).1 with ret := none }, (h.release n).2)
  else ({ h with syn := { h.syn with waitFlag := true }, pc := .barrierWait }, [])

theorem miBarrier_eq (n : Nat) (h : Host) : miBarrier n 0 h = afterFlag n (h.stamped n) := by
  unfold miBarrier afterFlag checkBarrierFlags
  rw [if_pos rfl]
  dsimp only
  rw [if_neg (not_not.mpr rfl)]
  cases hall : (List.range n).all (h.stamped n).syn.barrierFlags with
  | true =>
      have hup : ¬ (List.range n).all (upd h.syn.barrierFlags 0 true) = false := by
        intro hdown
        rw [show (List.range n).all (upd h.syn.barrierFlags 0 true) = true from hall] at hdown
        exact nomatch hdown
      rw [if_pos rfl, if_neg hup]
      rfl
  | false =>
      rw [if_neg Bool.false_ne_true]
      rw [show (List.range n).all (upd h.syn.barrierFlags 0 true) = false from hall, if_pos rfl]
      rfl

theorem run_afterFlag (hh : h.hung = false) (hn : 0 < n) (hpc : h.pc = .run) :
    Trace (observedStep n 0) ⟨h, .barrier
      (if (List.range' 0 n).all h.syn.barrierFlags then .info else .flag)⟩
      (sends (afterFlag n h).2) ((afterFlag n h).1.thread n 0) := by
  unfold afterFlag
  rw [List.range_eq_range']
  cases hall : (List.range' 0 n).all h.syn.barrierFlags with
  | true =>
      rw [if_pos rfl, if_pos rfl, thread_run (h := { (h.release n).1 with ret := none }) hpc]
      have hinfo : Thread.next n 0 ⟨h, .barrier .info⟩ = some (⟨{ h with
          mem := (returnAllBarrierInfo n h.mem).1
          syn := { h.syn with locks := fun l => { h.syn.locks l with lasthostid := -1 } } },
        .barrier (.exit 1)⟩, (returnAllBarrierInfo n h.mem).2) := rfl
      have hrun := run_next hh hinfo
        (run_exit (by exact hh) (n - 1) (by omega) (run_clear n (by exact hh) (Nat.zero_add n)))
      simp only [Nat.zero_le, true_and, List.append_nil] at hrun
      show Trace _ _ (sends ((returnAllBarrierInfo n h.mem).2 ++ _)) _
      rw [sends_append]
      exact hrun
  | false =>
      rw [if_neg Bool.false_ne_true, if_neg Bool.false_ne_true, thread_barrierWait rfl]
      refine run_silent hh (u := ⟨{ h with syn := { h.syn with waitFlag := true } },
        .barrier .spin⟩) rfl ?_
      rw [show h = { h with pc := .run } by rw [← hpc]]
      exact .done _

theorem run_barrier (hh : h.hung = false) (hn : 0 < n) (hpc : h.pc = .run) :
    Trace (observedStep n 0) ⟨h, .idle⟩ (sends (miBarrier n 0 h).2)
      ((miBarrier n 0 h).1.thread n 0) := by
  have hfree : (⟨h, .idle⟩ : Thread).Free = true := by
    unfold Thread.Free
    rw [hpc]
  refine Trace.silent (t := ⟨h, .barrier .enter⟩) (e := .barrier) ?_ ?_
  · rw [observedStep_eq hh, Thread.event, if_pos ⟨hfree, rfl⟩]
    rfl
  · rw [miBarrier_eq]
    refine run_silent hh (u := ⟨h.setFlag 0 true, .barrier (.stamp 0)⟩) rfl
      (run_stamp n hh (Nat.zero_add n) (run_scan (by exact hh) n (Nat.zero_add n) ?_))
    have hr := run_afterFlag (h := h.stamped n) hh hn hpc
    have hstamp : { h.setFlag 0 true with mem := { (h.setFlag 0 true).mem with
        barrierTimestamps := upd (h.setFlag 0 true).mem.barrierTimestamps 0
          fun j : Fin maxHostNum => if 0 ≤ j.val ∧ j.val < n then
            ((h.setFlag 0 true).mem.now 0).timestamp j
          else (h.setFlag 0 true).mem.barrierTimestamps 0 j } } = h.stamped n := by
      simp only [Nat.zero_le, true_and]
      rfl
    rw [hstamp]
    exact hr

theorem run_barrierResume (hh : h.hung = false) (hw : h.syn.waitFlag = false) :
    Trace (observedStep n 0) ⟨{ h with pc := .run }, .barrier .spin⟩ []
      (Host.thread n 0 { h with pc := .run, ret := none }) := by
  rw [thread_run rfl]
  refine run_leave hh { h with pc := .run } none ?_
  simp only [Thread.next, barrierStmt, hw]
  rfl

/-! ## Handlers -/

/-- Of where the main thread is a handler reads whether it serves a fault. -/
theorem dispatchMsg_pc (n me sender : Nat) (msg : Msg) (h : Host) (pc : Pc)
    (hpc : pc.faulting = h.pc.faulting) :
    dispatchMsg n me sender msg { h with pc := pc } =
      ({ (dispatchMsg n me sender msg h).1 with pc := pc },
        (dispatchMsg n me sender msg h).2) := by
  cases msg with
  | acqLock l =>
      simp only [dispatchMsg, handleAcquireMsg]
      split <;> rfl
  | rlsLock l =>
      simp only [dispatchMsg, handleReleaseMsg]
      repeat' split
      all_goals rfl
  | grantLock l last =>
      simp only [dispatchMsg, handleGrantMsg]
      split <;> rfl
  | enterBarrier =>
      simp only [dispatchMsg, handleEnterBarrierMsg, checkBarrierFlags]
      by_cases hme : me ≠ 0
      · rw [if_pos hme, if_pos hme]
      · rw [if_neg hme, if_neg hme]
        by_cases hall : (List.range n).all (upd h.syn.barrierFlags sender true) = false
        · rw [if_pos hall, if_pos hall]
        · rw [if_neg hall, if_neg hall]
  | exitBarrier =>
      simp only [dispatchMsg, handleExitBarrierMsg]
      split <;> rfl
  | fetchPage p =>
      simp only [dispatchMsg]
      rw [hpc]
  | _ => rfl

/-- A host that is in a call serves no fault. -/
theorem faulting_of_stmt (hs : h.stmt n me ≠ .idle) : Pc.run.faulting = h.pc.faulting := by
  unfold Host.stmt at hs
  cases hpc : h.pc with
  | run | lockWait | wniWait | barrierWait => rfl
  | pageWait | diffWait =>
      rw [hpc] at hs
      exact absurd rfl hs

theorem stmt_congr {h' : Host} (hpc : h'.pc = h.pc) : h'.stmt n me = h.stmt n me := by
  unfold Host.stmt
  rw [hpc]

theorem run_handler (hh : h.hung = false) {sender : Nat} (hs : sender < n ∧ sender ≠ me) (msg : Msg) :
    Trace (observedStep n me) (h.thread n me)
      (.handled sender msg :: sends (dispatchMsg n me sender msg h).2)
      ((dispatchMsg n me sender msg h).1.thread n me) := by
  have hpc := (dispatch_mem n me sender msg h).pc
  refine Trace.single (e := .handler sender msg) ?_
  have hfaulting : h.stmt n me ≠ .idle → Pc.run.faulting = h.pc.faulting := faulting_of_stmt
  unfold Host.thread
  rw [stmt_congr hpc]
  cases hstmt : h.stmt n me with
  | idle =>
      rw [observedStep_eq hh, Thread.event, if_pos hs]
      rfl
  | lock l stmt =>
      rw [observedStep_eq hh, Thread.event, if_pos hs]
      dsimp only
      rw [dispatchMsg_pc _ _ _ _ _ _ (hfaulting (by rw [hstmt]; exact nofun))]
      rfl
  | barrier stmt =>
      rw [observedStep_eq hh, Thread.event, if_pos hs]
      dsimp only
      rw [dispatchMsg_pc _ _ _ _ _ _ (hfaulting (by rw [hstmt]; exact nofun))]
      rfl

/-! ## Calls taken whole -/

theorem stmt_calm (hc : h.pc.Calm) : h.stmt n me = .idle := by
  unfold Host.stmt
  cases hpc : h.pc with
  | run | pageWait | diffWait => rfl
  | lockWait | wniWait | barrierWait =>
      rw [hpc] at hc
      exact hc.elim

theorem thread_idle (hs : h.stmt n me = .idle) : h.thread n me = ⟨h, .idle⟩ := by
  unfold Host.thread
  rw [hs]

theorem run_whole (hh : h.hung = false) {op : Op} (hop : op.Whole n me) {r : Host × Out}
    (hr : h.exec n me op = some r) (hs : h.stmt n me = .idle) (hs' : r.1.stmt n me = .idle) :
    Trace (observedStep n me) (h.thread n me) (sends r.2) (r.1.thread n me) := by
  rw [thread_idle hs, thread_idle hs']
  refine Trace.single (e := .op op) ?_
  rw [observedStep_eq hh]
  simp only [Thread.event, if_pos hop, hr]
  rfl

theorem run_quiet (hh : h.hung = false) {op : Op} (hop : op.Whole n me) {r : Host × Out}
    (hr : h.exec n me op = some r) (hc : h.pc.Calm) (hq : Quiet h r) :
    Trace (observedStep n me) (h.thread n me) (sends r.2) (r.1.thread n me) := by
  refine run_whole hh hop hr (stmt_calm hc) (stmt_calm ?_)
  rcases hq.pc with hpc | ⟨-, hcalm⟩
  · rwa [hpc]
  · exact hcalm

theorem miLock_stmt (hm : l % n ≠ me) (hpc : h.pc = .run) :
    (miLock n me l h).1.stmt n me = .idle := by
  have hrun : h.stmt n me = .idle := stmt_calm (by rw [hpc]; trivial)
  unfold miLock
  split
  · exact hrun
  · split
    · exact hrun
    · exact if_neg hm

theorem miUnlock_pc (n me : Nat) (l : Int) (h : Host) : (miUnlock n me l h).1.pc = h.pc := by
  unfold miUnlock
  repeat' split
  all_goals rfl

/-! ## Segments -/

theorem run_resume (hh : h.hung = false) {r : Host × Out} (hr : h.exec n me .resume = some r) :
    Trace (observedStep n me) (h.thread n me) (sends r.2) (r.1.thread n me) := by
  have hop : Op.Whole n me .resume := trivial
  cases exec_cases hr with
  | quiet hc _ hq => exact run_quiet hh hop hr hc hq
  | lockWait l hpc hw =>
      by_cases hm : l % n = me
      · rw [thread_lockWait hpc hm]
        exact run_lockResume hh hm hw
      · refine run_whole hh hop hr ?_ ?_
        · unfold Host.stmt
          rw [hpc]
          exact if_neg hm
        · unfold miLockResume lockFetch
          rw [if_neg hm]
          repeat' split
          all_goals rfl
  | wniWait l path hpc hw =>
      have hrun : (lockReturn l path h).stmt n me = .idle :=
        stmt_calm (by rw [(lockReturn_mem l path h).2]; trivial)
      by_cases hp : path = .remote
      · subst hp
        refine run_whole hh hop hr ?_ hrun
        unfold Host.stmt
        rw [hpc]
      · by_cases hm : l % n = me
        · rw [thread_wniWait hpc hm hp]
          exact run_wniResume hh hp hw
        · refine run_whole hh hop hr ?_ hrun
          unfold Host.stmt
          rw [hpc]
          cases path with
          | remote => rfl
          | grasped | waited => exact if_neg hm
  | barrierWait hpc hw =>
      by_cases hme : me = 0
      · subst hme
        rw [thread_barrierWait hpc]
        exact run_barrierResume hh hw
      · refine run_whole hh hop hr ?_ (stmt_calm trivial)
        unfold Host.stmt
        rw [hpc]
        exact if_neg hme

theorem run_exec (hme : me < n) (hh : h.hung = false) {op : Op} {r : Host × Out} (hr : h.exec n me op = some r) :
    Trace (observedStep n me) (h.thread n me) (sends r.2) (r.1.thread n me) := by
  cases op with
  | resume => exact run_resume hh hr
  | alloc size =>
      have hop : Op.Whole n me (.alloc size) := trivial
      cases exec_cases hr with
      | quiet hc _ hq => exact run_quiet hh hop hr hc hq
  | load p o len =>
      have hop : Op.Whole n me (.load p o len) := trivial
      cases exec_cases hr with
      | quiet hc _ hq => exact run_quiet hh hop hr hc hq
  | store p o bytes =>
      have hop : Op.Whole n me (.store p o bytes) := trivial
      cases exec_cases hr with
      | quiet hc _ hq => exact run_quiet hh hop hr hc hq
  | lock l =>
      have hpc := exec_run (by simp) hr
      have hex := hr
      simp only [Host.exec, hpc] at hr
      cases hr
      by_cases hm : l % n = me
      · rw [thread_run hpc]
        exact run_lock hh hme hm hpc
      · have hop : Op.Whole n me (.lock l) := hm
        exact run_whole hh hop hex (stmt_calm (by rw [hpc]; trivial)) (miLock_stmt hm hpc)
  | unlock l =>
      have hop : Op.Whole n me (.unlock l) := trivial
      have hpc := exec_run (by simp) hr
      have hcalm : h.pc.Calm := by rw [hpc]; trivial
      have hex := hr
      simp only [Host.exec, hpc] at hr
      cases hr
      exact run_whole hh hop hex (stmt_calm hcalm) (stmt_calm (by rwa [miUnlock_pc]))
  | barrier =>
      have hpc := exec_run (by simp) hr
      have hex := hr
      simp only [Host.exec, hpc] at hr
      cases hr
      by_cases hz : me = 0
      · subst hz
        rw [thread_run hpc]
        exact run_barrier hh hme hpc
      · have hop : Op.Whole n me .barrier := hz
        refine run_whole hh hop hex (stmt_calm (by rw [hpc]; trivial)) ?_
        unfold miBarrier
        rw [if_neg hz]
        exact if_neg hz

theorem run_hostStep (hme : me < n) {e : HostEvent} {h' : Host} {o : List Obs}
    (hs : hostStep n me h e = some (h', o)) :
    Trace (observedStep n me) (h.thread n me) o (h'.thread n me) := by
  unfold hostStep at hs
  split at hs
  · cases hs
  · next hh =>
      have hh := Bool.eq_false_iff.mpr hh
      cases e with
      | op op =>
          obtain ⟨r, hr, he⟩ := Option.map_eq_some_iff.mp hs
          cases he
          exact run_exec hme hh hr
      | handler sender msg =>
          dsimp only at hs
          split at hs
          · next hsender =>
              cases hs
              exact run_handler hh hsender msg
          · cases hs

/-- A host that takes each segment in one step does, shows and becomes what it can
statement by statement, with no handler inside a segment. -/
theorem uninterrupted_calls (hme : me < n) {h' : Host} {os : List Obs}
    (ht : Trace (hostStep n me) h os h') :
    Trace (observedStep n me) (h.thread n me) os (h'.thread n me) :=
  ht.refines (run_hostStep hme)

end

/-- Host 0 takes lock 0, host 1 asks for it, host 0 gives it back. -/
theorem uninterrupted_calls_two :
    let h₁ := (miLock 2 0 0 (initSys.host 0)).1
    let h₂ := (dispatchMsg 2 0 1 (.acqLock 0) h₁).1
    let h₃ := (miUnlock 2 0 0 h₂).1
    Trace (observedStep 2 0) ((initSys.host 0).thread 2 0)
      [.handled 1 (.acqLock 0), .sent 1 (.grantLock 0 0)] (h₃.thread 2 0) := by
  intro h₁ h₂ h₃
  have hlock : hostStep 2 0 (initSys.host 0) (.op (.lock 0)) = some (h₁, []) := rfl
  have hask : hostStep 2 0 h₁ (.handler 1 (.acqLock 0)) =
      some (h₂, [.handled 1 (.acqLock 0)]) := rfl
  have hgive : hostStep 2 0 h₂ (.op (.unlock 0)) = some (h₃, [.sent 1 (.grantLock 0 0)]) := rfl
  have hrun := (Trace.single hlock).trans ((Trace.single hask).trans (Trace.single hgive))
  exact uninterrupted_calls (by decide) hrun

end Midsm
