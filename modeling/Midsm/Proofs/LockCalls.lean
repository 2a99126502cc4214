import Midsm.Lib.FifoLock
import Midsm.Lib.Reach
import Midsm.Proofs.LockRecord

/-!
# The lock records are FIFO queues

A manager's `graspLock` and `freeLock`, called in any order and with any arguments,
against a lock that is an owner and a queue of hosts. The overloaded results are
told apart by the queue: a call that `graspLock` answers with -1 or a host has given
the lock, one that it answers with -3 has queued the host, and `freeLock` answers -5
or a host when it has taken the lock back.
-/

namespace Midsm

open Midsm.Lib

/-! ## The calls -/

inductive LockCall where
  | grasp (lockno hostid : Int)
  | free (lockno hostid : Int)

def lockCall (n me : Nat) (s : Syn) : LockCall → Int × Syn
  | .grasp l x => graspLock n me l x s
  | .free l x => freeLock n me l x s

def lockCallStep (n me : Nat) (s : Syn) (call : LockCall) : Option Syn :=
  some (lockCall n me s call).2

/-- A lock and a host that the manager's calls accept. -/
def Accepted (n me : Nat) (l x : Int) : Prop :=
  0 ≤ l ∧ l < lockNum ∧ 0 ≤ x ∧ x < n ∧ l % n = me

instance (n me : Nat) (l x : Int) : Decidable (Accepted n me l x) :=
  inferInstanceAs (Decidable (_ ∧ _))

/-- The same calls on abstract locks. -/
def fifoCall (n me : Nat) (ks : Int → FifoLock Nat) : LockCall → Int → FifoLock Nat
  | .grasp l x => if Accepted n me l x then upd ks l ((ks l).acquire x.toNat) else ks
  | .free l x => if Accepted n me l x then upd ks l ((ks l).release x.toNat) else ks

/-- No host asks for a lock that it waits for: `mi_lock` does not return before it is
granted. -/
def NotWaiting (s : Syn × (Int → FifoLock Nat)) : LockCall → Prop
  | .grasp l x => x ∉ (s.1.locks l).queue
  | .free _ _ => True

instance (s : Syn × (Int → FifoLock Nat)) (call : LockCall) :
    Decidable (NotWaiting s call) := by
  cases call <;> unfold NotWaiting <;> infer_instance

/-- A record is that of an abstract lock. -/
structure FifoRecord (n : Nat) (lock : Lock) (k : FifoLock Nat) : Prop where
  /-- `waitingList[0 .. waitingListCount)` is the queue. -/
  queue : (List.range lock.waitingListCount).map lock.waitingList =
    k.queue.map fun x : Nat => (x : Int)
  nodup : k.queue.Nodup
  waiting : ∀ x ∈ k.queue, x < n ∧ k.owner ≠ some x
  filler : ∀ i, lock.waitingListCount ≤ i → lock.waitingList i = -1
  bound : lock.waitingListCount < n
  owner : lock.owner = k.owner.elim (-1) fun x => (x : Int)
  free : lock.locked = false ↔ lock.owner = -1
  empty : lock.owner = -1 → k.queue = []
  last : lock.lasthostid = k.last.elim (-1) fun x => (x : Int)

section

variable {n me : Nat} {l : Int} {lock : Lock} {k : FifoLock Nat} {s : Syn}

theorem elim_eq_neg_one {o : Option Nat} : (o.elim (-1) fun x => (x : Int)) = -1 ↔ o = none := by
  cases o with
  | none => exact ⟨fun _ => rfl, fun _ => rfl⟩
  | some x =>
      refine ⟨fun h => ?_, fun h => nomatch h⟩
      dsimp only [Option.elim] at h
      omega

/-- The invariant: the record of an abstract lock that is fair, among the hosts. -/
structure LockOk (n : Nat) (lock : Lock) (k : FifoLock Nat) : Prop where
  record : RecordRel n lock k.owner k.queue
  fair : k.Fair
  filler : ∀ i, lock.waitingListCount ≤ i → lock.waitingList i = -1
  unowned : k.owner = none → lock.owner = -1
  last : lock.lasthostid = k.last.elim (-1) fun x => (x : Int)
  waiting : ∀ x ∈ k.queue, x < n
  owning : ∀ x, k.owner = some x → x < n

theorem LockOk.fresh (n : Nat) : LockOk n freshLock FifoLock.unused where
  record := .fresh n
  fair := .unused
  filler _ _ := rfl
  unowned _ := rfl
  last := rfl
  waiting _ h := nomatch h
  owning _ h := nomatch h

theorem LockOk.count (h : LockOk n lock k) : lock.waitingListCount = k.queue.length := by
  have := congrArg List.length h.record.queue
  simpa [Lock.queue] using this

theorem LockOk.fifoRecord (h : LockOk n lock k) (hn : 0 < n) : FifoRecord n lock k := by
  have howner : lock.owner = k.owner.elim (-1) fun x => (x : Int) := by
    cases ho : k.owner with
    | none => exact h.unowned ho
    | some x => exact (h.record.busy x ho).2
  refine ⟨h.record.queue, h.fair.nodup, fun x hx => ⟨h.waiting x hx, fun ho => ?_⟩, h.filler, ?_,
    howner, ?_, fun ho => ?_, h.last⟩
  · exact h.fair.owner x ho hx
  · rw [h.count]
    have hlt := h.fair.length_lt (List.range n) (by simpa using hn.ne')
      (fun x hx => List.mem_range.mpr (h.waiting x hx))
      fun x hx => List.mem_range.mpr (h.owning x hx)
    rwa [List.length_range] at hlt
  · rw [howner, elim_eq_neg_one]
    constructor
    · intro hl
      by_contra ho
      obtain ⟨x, ho⟩ := Option.ne_none_iff_exists'.mp ho
      rw [(h.record.busy x ho).1] at hl
      cases hl
    · exact h.record.free
  · rw [howner, elim_eq_neg_one] at ho
    exact h.fair.free ho

/-! ## One call -/

theorem Accepted.host {x : Int} (h : Accepted n me l x) : ∃ y : Nat, x = y ∧ y < n := by
  obtain ⟨-, -, h0, hx, -⟩ := h
  exact ⟨x.toNat, by omega, by omega⟩

theorem LockOk.not_waiting {x : Nat} (h : LockOk n lock k) (hx : (x : Int) ∉ lock.queue) :
    x ∉ k.queue := by
  intro hm
  rw [h.record.queue] at hx
  exact hx (List.mem_map_of_mem hm)

/-- What `graspLock` answers on a lock. -/
def graspAnswer (k : FifoLock Nat) (x : Nat) : Int :=
  match k.owner with
  | none => k.last.elim (-1) fun x => (x : Int)
  | some y => if y = x then -4 else -3

/-- What `freeLock` answers on a lock. -/
def freeAnswer (k : FifoLock Nat) (x : Nat) : Int :=
  match k.owner with
  | none => -3
  | some y => if y = x then k.queue.head?.elim (-5) fun y => (y : Int) else -4

theorem LockOk.grasp {x : Nat} (h : LockOk n (s.locks l) k) (ha : Accepted n me l x)
    (hx : x ∉ k.queue) : ∃ lock', graspLock n me l x s = (graspAnswer k x, s.setLock l lock') ∧
      LockOk n lock' (k.acquire x) := by
  obtain ⟨hl, hl', -, hxn, hm⟩ := ha
  have hxn : x < n := by omega
  have hr := h.record
  have hfair := h.fair.acquire hx
  cases ho : k.owner with
  | none =>
      rw [ho] at hr
      rw [FifoLock.acquire_free ho] at hfair ⊢
      refine ⟨_, by rw [graspLock_free hl hl' hxn hm hr, graspAnswer, ho, h.last], ?_⟩
      exact ⟨hr.grasp_free, hfair, h.filler, nofun, h.last, h.waiting, fun y hy => (by
        cases hy
        exact hxn)⟩
  | some y =>
      rw [ho] at hr
      by_cases hne : y = x
      · subst hne
        rw [FifoLock.acquire_own ho]
        refine ⟨s.locks l, ?_, h⟩
        rw [graspLock_own hl hl' hxn hm hr, graspAnswer, ho]
        dsimp only
        rw [if_pos rfl, Syn.setLock, upd_eta]
      · rw [FifoLock.acquire_busy ho hne] at hfair ⊢
        refine ⟨_, by rw [graspLock_busy hl hl' hxn hm hr hne, graspAnswer, ho]; dsimp only;
                      rw [if_neg hne], ?_⟩
        refine ⟨by dsimp only; rw [ho]; exact hr.grasp_busy, hfair, fun i hi => ?_, fun hn => ?_,
          h.last, fun z hz => ?_, h.owning⟩
        · dsimp only at hi ⊢
          rw [upd_ne (by omega)]
          exact h.filler i (by omega)
        · rw [ho] at hn
          cases hn
        · rcases List.mem_append.mp hz with hz | hz
          · exact h.waiting z hz
          · rw [List.mem_singleton.mp hz]
            exact hxn

theorem LockOk.release {x : Nat} (h : LockOk n (s.locks l) k) (ha : Accepted n me l x) :
    ∃ lock', freeLock n me l x s = (freeAnswer k x, s.setLock l lock') ∧
      LockOk n lock' (k.release x) := by
  obtain ⟨hl, hl', -, hxn, hm⟩ := ha
  have hxn : x < n := by omega
  have hr := h.record
  have hfair := h.fair.release x
  cases ho : k.owner with
  | none =>
      rw [FifoLock.release_other (by simp [ho])]
      refine ⟨s.locks l, ?_, h⟩
      rw [freeAnswer, ho, Syn.setLock, upd_eta]
      simp only [freeLock]
      rw [if_neg (by omega), if_neg (by simpa using hm), if_pos (hr.free ho)]
  | some y =>
      by_cases hne : y = x
      · subst hne
        rw [FifoLock.release_own ho] at hfair ⊢
        rw [freeAnswer, ho]
        dsimp only
        rw [if_pos rfl]
        cases hq : k.queue with
        | nil =>
            rw [ho, hq] at hr
            refine ⟨_, freeLock_empty hl hl' hxn hm hr, ?_⟩
            refine ⟨hr.free_empty hxn, by rw [hq] at hfair; exact hfair, h.filler, fun _ => rfl,
              rfl, (fun _ hx => by cases hx), fun _ hx => by cases hx⟩
        | cons z q =>
            rw [ho, hq] at hr
            obtain ⟨c, hc, he, hr'⟩ := freeLock_hand hl hl' hxn hm hr
            refine ⟨_, he, hr', by rw [hq] at hfair; exact hfair, fun i hi => ?_,
              (fun hn => by cases hn), rfl,
              fun w hw => h.waiting w (by rw [hq]; exact List.mem_cons_of_mem z hw), ?_⟩
            · dsimp only at hi ⊢
              by_cases hic : i = c
              · rw [hic, upd_self]
              · rw [upd_ne hic, shiftList_apply, if_neg (by omega)]
                exact h.filler i (by omega)
            · rintro w ⟨⟩
              exact h.waiting z (by rw [hq]; exact List.mem_cons_self)
      · rw [FifoLock.release_other (by rw [ho, Ne, Option.some.injEq]; exact hne)]
        refine ⟨s.locks l, ?_, h⟩
        rw [ho] at hr
        rw [freeAnswer, ho, Syn.setLock, upd_eta]
        simp only [freeLock]
        rw [if_neg (by omega), if_neg (by simpa using hm), if_neg (by simp [(hr.busy y rfl).1]),
          if_pos (by rw [(hr.busy y rfl).2]; exact_mod_cast hne), if_neg hne]

theorem graspLock_rejected {x : Int} (h : ¬ Accepted n me l x) :
    (graspLock n me l x s).2 = s := by
  unfold graspLock
  dsimp only
  split
  · rfl
  · next hargs =>
      rw [if_pos fun hm => h ⟨by omega, by omega, by omega, by omega, hm⟩]

theorem freeLock_rejected {x : Int} (h : ¬ Accepted n me l x) :
    (freeLock n me l x s).2 = s := by
  unfold freeLock
  dsimp only
  split
  · rfl
  · next hargs =>
      rw [if_pos fun hm => h ⟨by omega, by omega, by omega, by omega, hm⟩]

/-- A negative answer of `graspLock` is a rejection, but for -1 and -3. -/
theorem LockOk.grasp_refused (h : LockOk n (s.locks l) k) {x : Int}
    (hneg : (graspLock n me l x s).1 < 0) (h1 : (graspLock n me l x s).1 ≠ -1)
    (h3 : (graspLock n me l x s).1 ≠ -3) : (graspLock n me l x s).2 = s := by
  have hlast : -1 ≤ (s.locks l).lasthostid := h.record.last.1
  unfold graspLock at hneg h1 h3 ⊢
  dsimp only at hneg h1 h3 ⊢
  split
  · rfl
  · next hargs =>
      rw [if_neg hargs] at hneg h1 h3
      split
      · rfl
      · next hm =>
          rw [if_neg hm] at hneg h1 h3
          split
          · next hfree =>
              rw [if_pos hfree] at hneg h1
              dsimp only at hneg h1
              omega
          · next hbusy =>
              rw [if_neg hbusy] at h3
              split
              · rfl
              · next hown =>
                  rw [if_neg hown] at h3
                  exact absurd rfl h3

/-- An answer of `freeLock` from -1 to -4 is a rejection. -/
theorem LockOk.free_refused (h : LockOk n (s.locks l) k) {x : Int}
    (hneg : (freeLock n me l x s).1 < 0) (h4 : -4 ≤ (freeLock n me l x s).1) :
    (freeLock n me l x s).2 = s := by
  have hwaiting : (s.locks l).waitingListCount ≠ 0 → 0 ≤ (s.locks l).waitingList 0 := by
    intro hc
    have hmem : (s.locks l).waitingList 0 ∈ (s.locks l).queue :=
      List.mem_map_of_mem (List.mem_range.mpr (Nat.pos_of_ne_zero hc))
    rw [h.record.queue] at hmem
    obtain ⟨y, -, hy⟩ := List.mem_map.mp hmem
    omega
  unfold freeLock at hneg h4 ⊢
  dsimp only at hneg h4 ⊢
  split
  · rfl
  · next hargs =>
      rw [if_neg hargs] at hneg h4
      split
      · rfl
      · next hm =>
          rw [if_neg hm] at hneg h4
          split
          · rfl
          · next hbusy =>
              rw [if_neg hbusy] at hneg h4
              split
              · rfl
              · next hown =>
                  rw [if_neg hown] at hneg h4
                  split
                  · next hc =>
                      rw [if_pos hc] at h4
                      dsimp only at h4
                      omega
                  · next hc =>
                      rw [if_neg hc] at hneg
                      have := hwaiting hc
                      dsimp only at hneg
                      omega

/-! ## Every sequence of calls -/

/-- The records of a manager, with the abstract locks beside them. -/
def LocksOk (n : Nat) (s : Syn × (Int → FifoLock Nat)) : Prop :=
  ∀ l, LockOk n (s.1.locks l) (s.2 l)

theorem LocksOk.set {ks : Int → FifoLock Nat} {lock' : Lock} {k' : FifoLock Nat}
    (h : LocksOk n (s, ks)) (hk : LockOk n lock' k') :
    LocksOk n (s.setLock l lock', upd ks l k') := by
  intro l'
  dsimp only
  by_cases hl : l' = l
  · rw [hl, setLock_locks_self, upd_self]
    exact hk
  · rw [setLock_locks_ne hl, upd_ne hl]
    exact h l'

theorem LocksOk.call {ks : Int → FifoLock Nat} (h : LocksOk n (s, ks)) (call : LockCall)
    (hok : NotWaiting (s, ks) call) :
    LocksOk n ((lockCall n me s call).2, fifoCall n me ks call) := by
  cases call with
  | grasp l x =>
      dsimp only [lockCall, fifoCall]
      split
      · next ha =>
          obtain ⟨y, rfl, -⟩ := ha.host
          obtain ⟨lock', he, hlock⟩ := (h l).grasp ha ((h l).not_waiting hok)
          rw [he]
          exact h.set hlock
      · next ha =>
          rw [graspLock_rejected ha]
          exact h
  | free l x =>
      dsimp only [lockCall, fifoCall]
      split
      · next ha =>
          obtain ⟨y, rfl, -⟩ := ha.host
          obtain ⟨lock', he, hlock⟩ := (h l).release ha
          rw [he]
          exact h.set hlock
      · next ha =>
          rw [freeLock_rejected ha]
          exact h

/-- In every sequence of calls each record is that of an abstract lock, calls are answered
as the abstract lock says, and rejected calls change nothing. -/
theorem lock_records_are_fifo (n me : Nat) (hme : me < n) (hn : n ≤ maxHostNum)
    {s : Syn} {ks : Int → FifoLock Nat}
    (h : Reach (withGhost (lockCallStep n me) fun ks _ call _ => fifoCall n me ks call)
      NotWaiting (initsyn, fun _ => .unused) (s, ks)) :
    (∀ l, 0 ≤ l → l < lockNum → l % n = me → FifoRecord n (s.locks l) (ks l) ∧
      (s.locks l).waitingListCount < maxHostNum) ∧
    (∀ l, ∀ x : Nat, Accepted n me l x → x ∉ (ks l).queue →
      (graspLock n me l x s).1 = graspAnswer (ks l) x) ∧
    (∀ l, ∀ x : Nat, Accepted n me l x → (freeLock n me l x s).1 = freeAnswer (ks l) x) ∧
    (∀ l, ∀ x y : Nat, ∀ queue, Accepted n me l x → (ks l).owner = some x →
      (ks l).queue = y :: queue → (freeLock n me l x s).1 = y ∧
        ((freeLock n me l x s).2.locks l).owner = y) ∧
    (∀ l x, (graspLock n me l x s).1 < 0 → (graspLock n me l x s).1 ≠ -1 →
      (graspLock n me l x s).1 ≠ -3 → (graspLock n me l x s).2 = s) ∧
    (∀ l x, (freeLock n me l x s).1 < 0 → -4 ≤ (freeLock n me l x s).1 →
      (freeLock n me l x s).2 = s) := by
  have hok : LocksOk n (s, ks) := h.invariant (P := LocksOk n) (fun _ => .fresh n)
    fun {t u call} ht hguard he => by
      obtain ⟨hs, hg⟩ := withGhost_eq_some.mp he
      obtain ⟨s', ks'⟩ := u
      obtain rfl : (lockCall n me t.1 call).2 = s' := by simpa [lockCallStep] using hs
      dsimp only at hg
      rw [hg]
      exact ht.call call hguard
  refine ⟨fun l _ _ _ => ?_, fun l x ha hx => ?_, fun l x ha => ?_,
    fun l x y queue ha ho hq => ?_, fun l x => (hok l).grasp_refused,
    fun l x => (hok l).free_refused⟩
  · have hrecord := (hok l).fifoRecord (by omega)
    exact ⟨hrecord, hrecord.bound.trans_le hn⟩
  · obtain ⟨lock', he, -⟩ := (hok l).grasp ha hx
    dsimp only at he
    rw [he]
  · obtain ⟨lock', he, -⟩ := (hok l).release ha
    dsimp only at he
    rw [he]
  · obtain ⟨lock', he, hlock⟩ := (hok l).release ha
    dsimp only at he
    have hown : (FifoLock.release x (ks l)).owner = some y := by
      rw [FifoLock.release_own ho, hq]
      rfl
    rw [he]
    refine ⟨?_, ?_⟩
    · rw [freeAnswer, ho, hq]
      exact if_pos rfl
    · rw [setLock_locks_self]
      exact (hlock.record.busy y hown).2

end

/-- A lock whose holder gives it to the first of two waiting hosts. -/
theorem lock_records_are_fifo_three :
    ∃ (s : Syn) (ks : Int → FifoLock Nat), FifoRecord 3 (s.locks 0) (ks 0) ∧
      (ks 0).owner = some 2 ∧ (ks 0).queue = [1] ∧ (ks 0).last = some 0 := by
  obtain ⟨⟨s, ks⟩, hrun, hp⟩ := exists_reach
    (withGhost (lockCallStep 3 0) fun ks _ call _ => fifoCall 3 0 ks call)
    (fun s call => decide (NotWaiting s call)) (fun _ _ => of_decide_eq_true)
    (initsyn, fun _ => .unused) [.grasp 0 0, .grasp 0 2, .grasp 0 1, .free 0 0]
    (fun s => decide ((s.2 0).owner = some 2 ∧ (s.2 0).queue = [1] ∧ (s.2 0).last = some 0))
    (by decide +kernel)
  obtain ⟨ho, hq, hl⟩ := of_decide_eq_true hp
  exact ⟨s, ks, ((lock_records_are_fifo 3 0 (by decide) (by decide) hrun).1 0 (by decide)
    (by decide) (by decide)).1, ho, hq, hl⟩

end Midsm
