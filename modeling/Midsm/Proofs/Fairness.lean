import Midsm.Proofs.Returns
import Midsm.Proofs.Wakeups

/-!
# First come, first served

The calls of `mi_lock` return in the order in which their requests got to the manager of
the lock, across all hosts, as long as no handler runs inside `graspLock`: segments are
atomic here. `LockLog` notes both orders. The requests that have not been
served are those of the owner in the manager's record, as long as its call has not
returned, and of the hosts in the waiting list, in the order of the list.

An owner whose call has returned either holds the lock still or has sent it back; so the
log of what was asked is what was taken, then the owner if it is still to return, then the
waiting list. Every step keeps this.
-/

namespace Midsm

open Midsm.Lib Midsm.Lib.TokenQueue

/-! ## The two orders -/

/-- The hosts whose request for the lock gets to its manager in a step. -/
def askedBy (n : Nat) (l : Int) (s : Sys) : Event → List Nat
  | .op x (.lock l') =>
      if l' = l ∧ x = manager n l ∧ (s.host x).syn.myLocks l = false then [x] else []
  | .deliver x b => if b = manager n l ∧ (s.net x b).head?.any (isAcq l) then [x] else []
  | _ => []

/-- The hosts whose `mi_lock` returns in a step. -/
def returnedTo (l : Int) (held held' : Held) : Event → List Nat
  | .op x _ => if held x l = false ∧ held' x l = true then [x] else []
  | .deliver _ _ => []

/-- The history of a lock. -/
structure LockLog where
  held : Held
  asked : List Nat
  taken : List Nat

def LockLog.start : LockLog := ⟨fun _ _ => false, [], []⟩

def LockLog.note (n : Nat) (l : Int) (g : LockLog) (s : Sys) (e : Event) (t : Sys) : LockLog :=
  let held := noteHeld g.held s e t
  ⟨held, g.asked ++ askedBy n l s e, g.taken ++ returnedTo l g.held held e⟩

/-! ## The account -/

/-- The call of the host that owns the lock has returned: its program has the lock, or has
given it back. -/
def Sys.Served (n : Nat) (l : Int) (s : Sys) (held : Held) (x : Nat) : Prop :=
  held x l = true ∨ .rlsLock l ∈ s.net x (manager n l)

/-- The owner, as long as its call is to return. -/
inductive Due (served : Nat → Prop) : Option Nat → List Nat → Prop
  | free : Due served none []
  | served {x : Nat} : served x → Due served (some x) []
  | due {x : Nat} : ¬ served x → Due served (some x) [x]

structure FirstServed (n : Nat) (l : Int) (s : Sys) (g : LockLog) : Prop where
  hist : LockHist n s g.held
  has : ∀ x, g.held x l = true ↔ (s.host x).Has l
  split : ∃ owner due queue,
    RecordRel n ((s.host (manager n l)).syn.locks l) owner queue ∧
      Due (s.Served n l g.held) owner due ∧ g.asked = g.taken ++ due ++ queue

theorem RecordRel.unique {n : Nat} {lock : Lock} {owner owner' : Option Nat}
    {queue queue' : List Nat} (h : RecordRel n lock owner queue)
    (h' : RecordRel n lock owner' queue') : owner = owner' ∧ queue = queue' := by
  refine ⟨?_, ?_⟩
  · cases owner with
    | none =>
        cases owner' with
        | none => rfl
        | some y =>
            have hb := (h'.busy y rfl).1
            rw [h.free rfl] at hb
            cases hb
    | some x =>
        have hx := h.busy x rfl
        cases owner' with
        | none =>
            rw [h'.free rfl] at hx
            cases hx.1
        | some y =>
            have hy := h'.busy y rfl
            rw [hx.2] at hy
            rw [Int.natCast_inj.mp hy.2]
  · exact List.map_injective_iff.mpr Nat.cast_injective (h.queue.symm.trans h'.queue)

section

variable {n a b x : Nat} {l : Int} {s : Sys} {g : LockLog} {t : State Nat} {r : Host × Out}
  {msg : Msg} {rest : List Msg}

theorem Due.congr {served served' : Nat → Prop} {owner : Option Nat} {due : List Nat}
    (h : Due served owner due) (hs : ∀ x, served' x ↔ served x) : Due served' owner due := by
  cases h with
  | free => exact .free
  | served hx => exact .served ((hs _).mpr hx)
  | due hx => exact .due fun hn => hx ((hs _).mp hn)

/-- The account in the terms of the token protocol. -/
theorem FirstServed.token (h : FirstServed n l s g) (hl : 0 ≤ l) (hl' : l < lockNum) :
    ∃ (t : State Nat) (due : List Nat), LockRel n l s t ∧ Inv t ∧
      Due (s.Served n l g.held) t.owner due ∧ g.asked = g.taken ++ due ++ t.queue := by
  obtain ⟨t, hr, hi⟩ := h.hist.control.locks l hl hl'
  obtain ⟨owner, due, queue, hrec, hdue, hsplit⟩ := h.split
  obtain ⟨rfl, rfl⟩ := hr.record.unique hrec
  exact ⟨t, due, hr, hi, hdue, hsplit⟩

theorem LockHist.count_rls (h : LockHist n s g.held) (hr : LockRel n l s t) (hx : x < n)
    (hm : .rlsLock l ∈ s.net x (manager n l)) : 0 < (t.reqs x).count .rls := by
  have hne : x ≠ manager n l := by
    intro he
    rw [← he] at hm
    exact h.own x _ hm rfl
  rw [hr.reqs x hx hne, List.count_pos_iff, List.mem_filterMap]
  exact ⟨_, hm, if_pos rfl⟩

theorem reqOf_eq_acq (h : reqOf l msg = some .acq) : msg = .acqLock l := by
  cases msg with
  | acqLock l' =>
      rw [reqOf] at h
      split at h
      · next hl => rw [hl]
      · cases h
  | rlsLock l' =>
      rw [reqOf] at h
      split at h <;> cases h
  | _ => cases h

theorem reqOf_eq_rls (h : reqOf l msg = some .rls) : msg = .rlsLock l := by
  cases msg with
  | rlsLock l' =>
      rw [reqOf] at h
      split at h
      · next hl => rw [hl]
      · cases h
  | acqLock l' =>
      rw [reqOf] at h
      split at h <;> cases h
  | _ => cases h

/-- A request in flight is a message in the channel to the manager. -/
theorem LockRel.sent (hr : LockRel n l s t) (hx : x < n) {q : Req} (hq : q ∈ t.reqs x) :
    ∃ msg ∈ s.net x (manager n l), reqOf l msg = some q := by
  have hne : x ≠ manager n l := by
    rintro rfl
    rw [hr.reqs_self] at hq
    cases hq
  rw [hr.reqs x hx hne, List.mem_filterMap] at hq
  exact hq

/-- An owner in `mi_lock` that has the token, or is to get it, has not been served. -/
theorem FirstServed.not_served (h : FirstServed n l s g) (hr : LockRel n l s t) (hi : Inv t)
    (hx : x < n) (hin : (s.host x).pc.locking = some l)
    (htoken : 0 < (t.phase x).held + t.grants x) : ¬ s.Served n l g.held x := by
  rintro (hheld | hm)
  · exact ((h.has x).mp hheld).2 hin
  · have hcount := h.hist.count_rls hr hx hm
    have hle : ownedBy t.owner x ≤ 1 := by
      unfold ownedBy
      split <;> omega
    have ho := hi.owns x
    omega

/-- Nobody but the owner is served. -/
theorem FirstServed.owner_of_served (h : FirstServed n l s g) (hr : LockRel n l s t) (hi : Inv t)
    (hx : x < n) (hs : s.Served n l g.held x) : t.owner = some x := by
  rcases hs with hheld | hm
  · refine owner_of_holding hi ?_
    rw [hr.phase x hx]
    exact phase_holding (Or.inl ((h.has x).mp hheld).1)
  · have hcount := h.hist.count_rls hr hx hm
    by_contra hno
    have ho := hi.owns x
    rw [ownedBy_of_ne hno] at ho
    omega

theorem mem_put_rls {y z : Nat} (hout : ∀ w ∈ r.2, w.2 ≠ .rlsLock l) :
    .rlsLock l ∈ (s.put a r).net y z ↔ .rlsLock l ∈ s.net y z := by
  by_cases hy : y = a
  · subst hy
    rw [put_net_self, List.mem_append, or_iff_left]
    exact fun hm => hout _ (mem_outTo.mp hm) rfl
  · rw [put_net_ne hy]

theorem mem_pop_rls {y z : Nat} (hnet : s.net a b = msg :: rest)
    (hmsg : b = z → msg ≠ .rlsLock l) :
    .rlsLock l ∈ (s.pop a b).net y z ↔ .rlsLock l ∈ s.net y z := by
  by_cases hyz : y = a ∧ z = b
  · obtain ⟨rfl, rfl⟩ := hyz
    rw [pop_net_self, hnet, List.tail_cons, List.mem_cons, or_iff_right]
    exact fun he => hmsg rfl he.symm
  · rw [pop_net_ne (by omega)]

/-- The record keeps its owner and its queue. -/
theorem FirstServed.keep {s' : Sys} {g' : LockLog} (h : FirstServed n l s g)
    (hist : LockHist n s' g'.held) (has : ∀ x, g'.held x l = true ↔ (s'.host x).Has l)
    (hrec : (s'.host (manager n l)).syn.locks l = (s.host (manager n l)).syn.locks l ∨
      (s'.host (manager n l)).syn.locks l =
        { (s.host (manager n l)).syn.locks l with lasthostid := -1 })
    (hserved : ∀ x, s'.Served n l g'.held x ↔ s.Served n l g.held x)
    (hasked : g'.asked = g.asked) (htaken : g'.taken = g.taken) : FirstServed n l s' g' := by
  obtain ⟨owner, due, queue, hr, hdue, hsplit⟩ := h.split
  refine ⟨hist, has, owner, due, queue, ?_, hdue.congr hserved, ?_⟩
  · rcases hrec with he | he <;> rw [he]
    · exact hr
    · exact hr.reset
  · rw [hasked, htaken, hsplit]

/-- A request gets to the manager. -/
theorem FirstServed.pushed {s' : Sys} {g' : LockLog} (h : FirstServed n l s g) (hl : 0 ≤ l)
    (hl' : l < lockNum) (hist : LockHist n s' g'.held)
    (has : ∀ x, g'.held x l = true ↔ (s'.host x).Has l) (hx : x < n)
    (hno : ∀ t, LockRel n l s t → Inv t → t.owner ≠ some x) {result : Int} {syn : Syn}
    (hgrasp : graspLock n (manager n l) l x (s.host (manager n l)).syn = (result, syn))
    (hrec : (s'.host (manager n l)).syn.locks l = syn.locks l)
    (hserved : ∀ y ≠ x, s'.Served n l g'.held y ↔ s.Served n l g.held y)
    (hasked : g'.asked = g.asked ++ [x])
    (htaken : result ≥ -1 ∧ s'.Served n l g'.held x ∧ g'.taken = g.taken ++ [x] ∨
      ¬ s'.Served n l g'.held x ∧ g'.taken = g.taken) : FirstServed n l s' g' := by
  obtain ⟨t, due, hr, hi, hdue, hsplit⟩ := h.token hl hl'
  have hm : l % n = manager n l := (emod_eq_iff (by omega)).mpr rfl
  have hrecord := hr.record
  have hown := hno t hr hi
  refine ⟨hist, has, ?_⟩
  cases ho : t.owner with
  | none =>
      rw [ho] at hrecord hdue
      cases hdue
      rw [hi.empty ho] at hsplit hrecord
      rw [graspLock_free hl hl' hx hm hrecord, Prod.mk.injEq] at hgrasp
      have hnew : RecordRel n ((s'.host (manager n l)).syn.locks l) (some x) [] := by
        rw [hrec, ← hgrasp.2, setLock_locks_self]
        exact hrecord.grasp_free
      rcases htaken with ⟨-, hs, ht⟩ | ⟨hs, ht⟩
      · refine ⟨_, _, _, hnew, .served hs, ?_⟩
        rw [hasked, ht, hsplit]
        simp
      · refine ⟨_, _, _, hnew, .due hs, ?_⟩
        rw [hasked, ht, hsplit]
        simp
  | some y =>
      rw [ho] at hrecord
      have hyx : y ≠ x := fun he => hown (by rw [ho, he])
      rw [graspLock_busy hl hl' hx hm hrecord hyx, Prod.mk.injEq] at hgrasp
      rcases htaken with ⟨hge, -⟩ | ⟨hs, ht⟩
      · omega
      · refine ⟨some y, due, t.queue ++ [x], ?_, ?_, ?_⟩
        · rw [hrec, ← hgrasp.2, setLock_locks_self]
          exact hrecord.grasp_busy
        · rw [← ho]
          refine hdue.congr fun z => ?_
          by_cases hz : z = x
          · subst hz
            exact iff_of_false hs fun hold => hown (h.owner_of_served hr hi hx hold)
          · exact hserved z hz
        · rw [hasked, ht, hsplit]
          simp

/-- The manager takes the lock back from a host that has been served. -/
theorem FirstServed.freed {s' : Sys} {g' : LockLog} (h : FirstServed n l s g) (hl : 0 ≤ l)
    (hl' : l < lockNum) (hist : LockHist n s' g'.held)
    (has : ∀ x, g'.held x l = true ↔ (s'.host x).Has l) (hx : x < n)
    (hs : s.Served n l g.held x) {syn : Syn}
    (hsyn : syn.locks l = (s.host (manager n l)).syn.locks l)
    (hrec : (s'.host (manager n l)).syn.locks l =
      (freeLock n (manager n l) l x syn).2.locks l)
    (hserved : ∀ y, s'.Served n l g'.held y → s.Served n l g.held y)
    (hasked : g'.asked = g.asked) (htaken : g'.taken = g.taken) : FirstServed n l s' g' := by
  obtain ⟨t, due, hr, hi, hdue, hsplit⟩ := h.token hl hl'
  have hm : l % n = manager n l := (emod_eq_iff (by omega)).mpr rfl
  have hown := h.owner_of_served hr hi hx hs
  have hrecord := hr.record
  rw [hown, ← hsyn] at hrecord
  rw [hown] at hdue
  refine ⟨hist, has, ?_⟩
  cases hdue with
  | due hno => exact absurd hs hno
  | served =>
      cases hq : t.queue with
      | nil =>
          rw [hq] at hrecord
          refine ⟨none, [], [], ?_, .free, ?_⟩
          · rw [hrec, freeLock_empty hl hl' hx hm hrecord, setLock_locks_self]
            exact hrecord.free_empty hx
          · rw [hasked, htaken, hsplit, hq]
      | cons y q =>
          rw [hq] at hrecord
          have hmem : y ∈ t.queue := by
            rw [hq]
            exact List.mem_cons_self
          obtain ⟨lock, hf, -, hnew⟩ := freeLock_next hl hl' hx hm hrecord
          refine ⟨some y, [y], q, ?_, .due fun hy => ?_, ?_⟩
          · rw [hrec, hf, setLock_locks_self]
            exact hnew
          · have hey := h.owner_of_served hr hi (hr.queued hi hmem).1 (hserved y hy)
            rw [hown, Option.some.injEq] at hey
            exact hi.queued x hown (by rw [hey]; exact hmem)
          · rw [hasked, htaken, hsplit, hq]
            simp

/-- The call of the owner returns. -/
theorem FirstServed.returned {s' : Sys} {g' : LockLog} (h : FirstServed n l s g) (hl : 0 ≤ l)
    (hl' : l < lockNum) (hist : LockHist n s' g'.held)
    (has : ∀ x, g'.held x l = true ↔ (s'.host x).Has l)
    (hown : ∀ t, LockRel n l s t → Inv t → t.owner = some x)
    (hno : ¬ s.Served n l g.held x) (hs : s'.Served n l g'.held x)
    (hrec : (s'.host (manager n l)).syn.locks l = (s.host (manager n l)).syn.locks l ∨
      (s'.host (manager n l)).syn.locks l =
        { (s.host (manager n l)).syn.locks l with lasthostid := -1 })
    (hasked : g'.asked = g.asked) (htaken : g'.taken = g.taken ++ [x]) : FirstServed n l s' g' := by
  obtain ⟨t, due, hr, hi, hdue, hsplit⟩ := h.token hl hl'
  have hrecord := hr.record
  rw [hown t hr hi] at hdue hrecord
  refine ⟨hist, has, some x, [], t.queue, ?_, .served hs, ?_⟩
  · rcases hrec with he | he <;> rw [he]
    · exact hrecord
    · exact hrecord.reset
  · cases hdue with
    | served hold => exact absurd hold hno
    | due =>
        rw [hasked, htaken, hsplit]
        simp

/-! ## The main thread -/

theorem FirstServed.no_reject (h : FirstServed n l s g) (hl : 0 ≤ l) (hl' : l < lockNum) (ha : a < n)
    (hpc : (s.host a).pc = .run) (result : Int) (syn : Syn)
    (he : graspLock n a l a (s.host a).syn = (result, syn)) (hm : l % n = a)
    (hmy : (s.host a).syn.myLocks l = false) : result ≥ -1 ∨ result = -3 :=
  (h.hist.control.locks l hl hl').no_reject ha hpc hl hl' hm hmy he

theorem FirstServed.has_exec (h : FirstServed n l s g) (hl : 0 ≤ l) (hl' : l < lockNum) (ha : a < n)
    {op : Op} (he : (s.host a).exec n a op = some r) (x : Nat) :
    noteHeld g.held s (.op a op) (s.put a r) x l = true ↔ ((s.put a r).host x).Has l := by
  by_cases hx : x = a
  · subst hx
    rw [put_host_self]
    by_cases hlock : op = .lock l
    · subst hlock
      have hpc := exec_run (by simp) he
      simp only [Host.exec, hpc] at he
      cases he
      dsimp only [noteHeld]
      rw [Held.take_self hl hl', put_host_self, h.has x,
        (miLock_cases n x l (s.host x)).has hpc hl hl' (h.no_reject hl hl' ha hpc)]
    · by_cases hunlock : op = .unlock l
      · subst hunlock
        have hpc := exec_run (by simp) he
        simp only [Host.exec, hpc] at he
        cases he
        dsimp only [noteHeld]
        rw [Held.set_self]
        refine iff_of_false (by simp) fun hhas => ?_
        have hmy := hhas.1
        rw [miUnlock_myLocks n x _ hl hl'] at hmy
        cases hmy
      · by_cases hresume : op = .resume ∧ (s.host x).pc.locking = some l
        · obtain ⟨rfl, hin⟩ := hresume
          dsimp only [noteHeld]
          rw [hin]
          dsimp only
          rw [Held.take_self hl hl', put_host_self, h.has x,
            ((h.hist.waits x).resumed he hin).2]
          exact or_iff_right fun hhas => hhas.2 hin
        · have hno : op = .resume → (s.host x).pc.locking ≠ some l :=
            fun hr hin => hresume ⟨hr, hin⟩
          rw [noteHeld_elsewhere fun _ => ⟨hlock, hunlock, hno⟩, h.has x]
          exact (exec_elsewhere he hlock hunlock hno).2.symm
  · rw [put_host_ne hx, noteHeld_elsewhere fun he => absurd he hx]
    exact h.has x

theorem foreign_ne_rls (h : Foreign l msg) : msg ≠ .rlsLock l := by
  rintro rfl
  have hreq : (some Req.rls : Option Req) = none := (if_pos rfl).symm.trans h.1
  cases hreq

theorem LockFrame.keeps_record (hf : LockFrame l (s.host a) r) :
    ((s.put a r).host (manager n l)).syn.locks l = (s.host (manager n l)).syn.locks l ∨
      ((s.put a r).host (manager n l)).syn.locks l =
        { (s.host (manager n l)).syn.locks l with lasthostid := -1 } := by
  by_cases hm : manager n l = a
  · rw [hm, put_host_self]
    exact hf.record
  · rw [put_host_ne hm]
    exact Or.inl rfl

theorem FirstServed.exec_elsewhere (h : FirstServed n l s g) (hl : 0 ≤ l) (hl' : l < lockNum)
    (ha : a < n) {op : Op} (he : (s.host a).exec n a op = some r)
    (hist : LockHist n (s.put a r) (noteHeld g.held s (.op a op) (s.put a r)))
    (hlock : op ≠ .lock l) (hunlock : op ≠ .unlock l)
    (hresume : op = .resume → (s.host a).pc.locking ≠ some l) :
    FirstServed n l (s.put a r) (g.note n l s (.op a op) (s.put a r)) := by
  have hframe := (Midsm.exec_elsewhere he hlock hunlock hresume).1
  have hheld : ∀ x, noteHeld g.held s (.op a op) (s.put a r) x l = g.held x l :=
    fun x => noteHeld_elsewhere fun _ => ⟨hlock, hunlock, hresume⟩
  refine h.keep hist (h.has_exec hl hl' ha he) hframe.keeps_record (fun x => ?_) ?_ ?_
  · unfold Sys.Served
    dsimp only [LockLog.note]
    rw [hheld, mem_put_rls fun w hw => foreign_ne_rls (hframe.out w hw)]
  · dsimp only [LockLog.note]
    cases op with
    | lock l' =>
        dsimp only [askedBy]
        rw [if_neg fun hc => hlock (by rw [hc.1]), List.append_nil]
    | _ => exact List.append_nil _
  · dsimp only [LockLog.note, returnedTo]
    rw [hheld, if_neg, List.append_nil]
    intro hc
    rw [hc.1] at hc
    cases hc.2

/-- `mi_lock` of a client: the request is sent, or the call is refused. -/
theorem FirstServed.lock_client (h : FirstServed n l s g) (hl : 0 ≤ l) (hl' : l < lockNum)
    (ha : a < n) (hpc : (s.host a).pc = .run) (hne : a ≠ manager n l)
    (he : (s.host a).exec n a (.lock l) = some r)
    (hist : LockHist n (s.put a r) (noteHeld g.held s (.op a (.lock l)) (s.put a r))) :
    FirstServed n l (s.put a r) (g.note n l s (.op a (.lock l)) (s.put a r)) := by
  have hm : l % n ≠ a := fun hm => hne ((emod_eq_iff (by omega)).mp hm).symm
  have hcase := miLock_cases n a l (s.host a)
  have hr : r = miLock n a l (s.host a) := by
    simp only [Host.exec, hpc] at he
    cases he
    rfl
  rw [← hr] at hcase
  have hclient : (r.1.Has l ↔ (s.host a).Has l) ∧ ∀ w ∈ r.2, w.2 ≠ .rlsLock l := by
    refine ⟨?_, ?_⟩
    · rw [hcase.has hpc hl hl' fun _ _ _ hm' _ => absurd hm' hm]
      refine or_iff_left_of_imp fun hback => ?_
      cases hcase with
      | refused ret hret =>
          have hmy := (hret.resolve_left (by omega)).resolve_left (by omega)
          refine ⟨hmy, ?_⟩
          rw [hpc]
          simp [Pc.locking]
      | ask => cases hback
      | queue => cases hback
      | fetch => cases hback
      | reject _ _ _ _ _ hm' => exact absurd hm' hm
      | skip syn last _ hg hge => exact absurd (graspLock_valid hg (by omega) (by omega)).2.2 hm
      | fresh syn last _ hg hge => exact absurd (graspLock_valid hg (by omega) (by omega)).2.2 hm
    · intro w hw
      cases hcase with
      | ask | fetch =>
          rw [List.mem_singleton.mp hw]
          simp
      | refused | reject | queue | skip | fresh => cases hw
  have hheld : ∀ x, noteHeld g.held s (.op a (.lock l)) (s.put a r) x l = g.held x l := by
    intro x
    rw [Bool.eq_iff_iff, h.has_exec hl hl' ha he, h.has x]
    by_cases hx : x = a
    · rw [hx, put_host_self]
      exact hclient.1
    · rw [put_host_ne hx]
  refine h.keep hist (h.has_exec hl hl' ha he) (Or.inl (by rw [put_host_ne (Ne.symm hne)]))
    (fun x => ?_) ?_ ?_
  · unfold Sys.Served
    dsimp only [LockLog.note]
    rw [hheld, mem_put_rls hclient.2]
  · dsimp only [LockLog.note, askedBy]
    rw [if_neg fun hc => hne hc.2.1, List.append_nil]
  · dsimp only [LockLog.note, returnedTo]
    rw [hheld, if_neg, List.append_nil]
    intro hc
    rw [hc.1] at hc
    cases hc.2

/-- `mi_lock` of the manager. -/
theorem FirstServed.lock_manager (h : FirstServed n l s g) (hl : 0 ≤ l) (hl' : l < lockNum)
    (ha : manager n l < n) (hpc : (s.host (manager n l)).pc = .run)
    (he : (s.host (manager n l)).exec n (manager n l) (.lock l) = some r)
    (hist : LockHist n (s.put (manager n l) r)
      (noteHeld g.held s (.op (manager n l) (.lock l)) (s.put (manager n l) r))) :
    FirstServed n l (s.put (manager n l) r)
      (g.note n l s (.op (manager n l) (.lock l)) (s.put (manager n l) r)) := by
  have hm : l % n = manager n l := (emod_eq_iff (by omega)).mpr rfl
  have has := h.has_exec hl hl' ha he
  have hcase := miLock_cases n (manager n l) l (s.host (manager n l))
  have hr : r = miLock n (manager n l) l (s.host (manager n l)) := by
    simp only [Host.exec, hpc] at he
    cases he
    rfl
  rw [← hr] at hcase
  have hiff := hcase.has hpc hl hl' (h.no_reject hl hl' ha hpc)
  have hother : ∀ y ≠ manager n l,
      noteHeld g.held s (.op (manager n l) (.lock l)) (s.put (manager n l) r) y l = g.held y l :=
    fun y hy => noteHeld_elsewhere fun he => absurd he hy
  have hout : ∀ w ∈ r.2, w.2 ≠ .rlsLock l := by
    intro w hw
    cases hcase with
    | ask | fetch =>
        rw [List.mem_singleton.mp hw]
        simp
    | refused | reject | queue | skip | fresh => cases hw
  cases hmy : (s.host (manager n l)).syn.myLocks l with
  | true =>
      have hbefore : (s.host (manager n l)).Has l := by
        refine ⟨hmy, ?_⟩
        rw [hpc]
        simp [Pc.locking]
      have hheld : ∀ x, noteHeld g.held s (.op (manager n l) (.lock l))
          (s.put (manager n l) r) x l = g.held x l := by
        intro x
        by_cases hx : x = manager n l
        · rw [hx, Bool.eq_iff_iff, has, h.has, put_host_self]
          exact iff_of_true (hiff.mpr (Or.inl hbefore)) hbefore
        · exact hother x hx
      have hrefused : r = ({ s.host (manager n l) with ret := some (-2) }, []) := by
        rw [hr]
        unfold miLock
        rw [if_neg (by omega), hmy, if_pos rfl]
      refine h.keep hist has (Or.inl ?_) (fun x => ?_) ?_ ?_
      · rw [put_host_self, hrefused]
      · unfold Sys.Served
        dsimp only [LockLog.note]
        rw [hheld, mem_put_rls hout]
      · dsimp only [LockLog.note, askedBy]
        rw [if_neg, List.append_nil]
        intro hc
        rw [hmy] at hc
        cases hc.2.2
      · dsimp only [LockLog.note, returnedTo]
        rw [hheld, if_neg, List.append_nil]
        intro hc
        rw [hc.1] at hc
        cases hc.2
  | false =>
      have hbefore : g.held (manager n l) l = false := by
        rw [← Bool.not_eq_true, h.has]
        intro hhas
        rw [hhas.1] at hmy
        cases hmy
      have hserved : (s.put (manager n l) r).Served n l (noteHeld g.held s
          (.op (manager n l) (.lock l)) (s.put (manager n l) r)) (manager n l) ↔
          r.1.pc.locking = none := by
        unfold Sys.Served
        rw [has, put_host_self, hiff, or_assoc]
        refine ⟨fun hor => ?_, fun hp => Or.inr (Or.inl hp)⟩
        rcases hor with hhas | hp | hmem
        · rw [(h.has _).mpr hhas] at hbefore
          cases hbefore
        · exact hp
        · exact absurd rfl (hist.own _ _ hmem)
      obtain ⟨result, syn, hgrasp, hrec, hback⟩ : ∃ result syn,
          graspLock n (manager n l) l (manager n l) (s.host (manager n l)).syn =
            (result, syn) ∧ r.1.syn.locks l = syn.locks l ∧
          (r.1.pc.locking = none → result ≥ -1) := by
        cases hcase with
        | refused ret hret =>
            have hmy' := (hret.resolve_left (by omega)).resolve_left (by omega)
            rw [hmy'] at hmy
            cases hmy
        | reject syn result _ _ _ _ hg hlt hne3 =>
            rcases h.no_reject hl hl' ha hpc result syn hg hm hmy with hres | hres
            · exact absurd hres hlt
            · exact absurd hres hne3
        | ask _ _ _ hm' => exact absurd hm hm'
        | queue syn _ hg => exact ⟨_, syn, hg, rfl, by simp [Pc.locking]⟩
        | fetch syn last _ hg hge => exact ⟨_, syn, hg, rfl, fun _ => hge⟩
        | skip syn last _ hg hge => exact ⟨_, syn, hg, rfl, fun _ => hge⟩
        | fresh syn last _ hg hge => exact ⟨_, syn, hg, rfl, fun _ => hge⟩
      refine h.pushed hl hl' hist has ha (fun t hrel hi ho => ?_) hgrasp
        (by rw [put_host_self, hrec]) (fun y hy => ?_) ?_ ?_
      · have hidle := hrel.phase _ ha
        rw [phase_idle_of_run hpc hmy] at hidle
        have hown := hi.owns (manager n l)
        rw [ho, ownedBy_self, hidle, hrel.reqs_self, hrel.grants_self] at hown
        cases hown
      · unfold Sys.Served
        dsimp only [LockLog.note]
        rw [hother y hy, mem_put_rls hout]
      · dsimp only [LockLog.note, askedBy]
        rw [if_pos ⟨rfl, rfl, hmy⟩]
      · dsimp only [LockLog.note, returnedTo]
        by_cases hp : r.1.pc.locking = none
        · have hafter : noteHeld g.held s (.op (manager n l) (.lock l))
              (s.put (manager n l) r) (manager n l) l = true := by
            rw [has, put_host_self]
            exact hiff.mpr (Or.inr hp)
          refine Or.inl ⟨hback hp, hserved.mpr hp, ?_⟩
          rw [if_pos ⟨hbefore, hafter⟩]
        · refine Or.inr ⟨fun hs => hp (hserved.mp hs), ?_⟩
          rw [if_neg, List.append_nil]
          rintro ⟨-, hafter⟩
          exact hp (hserved.mp (Or.inl hafter))

theorem FirstServed.unlock (h : FirstServed n l s g) (hl : 0 ≤ l) (hl' : l < lockNum)
    (ha : a < n) (hpc : (s.host a).pc = .run) (he : (s.host a).exec n a (.unlock l) = some r)
    (hist : LockHist n (s.put a r) (noteHeld g.held s (.op a (.unlock l)) (s.put a r))) :
    FirstServed n l (s.put a r) (g.note n l s (.op a (.unlock l)) (s.put a r)) := by
  have has := h.has_exec hl hl' ha he
  have hr : r = miUnlock n a l (s.host a) := by
    simp only [Host.exec, hpc] at he
    cases he
    rfl
  have hheld : ∀ x ≠ a, noteHeld g.held s (.op a (.unlock l)) (s.put a r) x l = g.held x l :=
    fun x hx => noteHeld_elsewhere fun he => absurd he hx
  have hgone : noteHeld g.held s (.op a (.unlock l)) (s.put a r) a l = false :=
    Held.set_self ..
  have hasked : (g.note n l s (.op a (.unlock l)) (s.put a r)).asked = g.asked :=
    List.append_nil _
  have htaken : (g.note n l s (.op a (.unlock l)) (s.put a r)).taken = g.taken := by
    dsimp only [LockLog.note, returnedTo]
    rw [hgone, if_neg (by simp), List.append_nil]
  cases hmy : (s.host a).syn.myLocks l with
  | false =>
      have hrefused : r = ({ s.host a with ret := some (-2) }, []) := by
        rw [hr]
        unfold miUnlock
        rw [if_neg (by omega), if_pos hmy]
      have hbefore : g.held a l = false := by
        rw [← Bool.not_eq_true, h.has]
        intro hhas
        rw [hhas.1] at hmy
        cases hmy
      refine h.keep hist has ?_ (fun x => ?_) hasked htaken
      · subst hrefused
        exact LockFrame.keeps_record ⟨Or.inl rfl, rfl, fun x hx => absurd hx List.not_mem_nil⟩
      · unfold Sys.Served
        dsimp only [LockLog.note]
        rw [mem_put_rls (by rw [hrefused]; exact fun w hw => absurd hw List.not_mem_nil)]
        by_cases hx : x = a
        · rw [hx, hgone, hbefore]
        · rw [hheld x hx]
  | true =>
      have hbefore : g.held a l = true := by
        refine (h.has a).mpr ⟨hmy, ?_⟩
        rw [hpc]
        simp [Pc.locking]
      by_cases hm : a = manager n l
      · subst hm
        have hmod : l % n = manager n l := (emod_eq_iff (by omega)).mpr rfl
        have hunlock : r.1.syn.locks = (freeLock n (manager n l) l (manager n l)
            ((s.host (manager n l)).releasing n (manager n l) l).syn).2.locks ∧
            ∀ w ∈ r.2, w.2 ≠ .rlsLock l := by
          rw [hr]
          unfold miUnlock
          rw [if_neg (by omega), if_neg (by simp [hmy]), if_pos hmod]
          refine ⟨rfl, fun w hw => ?_⟩
          dsimp only at hw
          split at hw
          · rcases grantLock_out n (manager n l) l _ _ with ho | ⟨-, -, -, -, -, ho⟩
            · rw [ho] at hw
              cases hw
            · rw [ho] at hw
              rw [List.mem_singleton.mp hw]
              simp
          · cases hw
        have hrec : ((s.put (manager n l) r).host (manager n l)).syn.locks l =
            (freeLock n (manager n l) l (manager n l)
              ((s.host (manager n l)).releasing n (manager n l) l).syn).2.locks l := by
          rw [put_host_self, hunlock.1]
        have hsyn : ((s.host (manager n l)).releasing n (manager n l) l).syn.locks l =
            (s.host (manager n l)).syn.locks l := rfl
        refine h.freed hl hl' hist has ha (Or.inl hbefore) hsyn hrec (fun y hy => ?_)
          hasked htaken
        unfold Sys.Served at hy ⊢
        dsimp only [LockLog.note] at hy
        rw [mem_put_rls hunlock.2] at hy
        by_cases hym : y = manager n l
        · rw [hym]
          exact Or.inl hbefore
        · rwa [hheld y hym] at hy
      · have hmod : l % n ≠ a := fun he => hm ((emod_eq_iff (by omega)).mp he).symm
        have htell : r.2 = [(manager n l, .rlsLock l)] := by
          rw [hr]
          unfold miUnlock
          rw [if_neg (by omega), if_neg (by simp [hmy]), if_neg hmod]
          rfl
        refine h.keep hist has (Or.inl (by rw [put_host_ne (Ne.symm hm)])) (fun x => ?_)
          hasked htaken
        unfold Sys.Served
        dsimp only [LockLog.note]
        by_cases hx : x = a
        · subst hx
          refine iff_of_true (Or.inr ?_) (Or.inl hbefore)
          rw [put_net_self, htell, outTo_cons_self]
          exact List.mem_append_right _ List.mem_cons_self
        · rw [hheld x hx, put_net_ne hx]

/-- The main thread goes on in `mi_lock`. -/
theorem FirstServed.resume (h : FirstServed n l s g) (hl : 0 ≤ l) (hl' : l < lockNum)
    (ha : a < n) (hin : (s.host a).pc.locking = some l)
    (he : (s.host a).exec n a .resume = some r)
    (hist : LockHist n (s.put a r) (noteHeld g.held s (.op a .resume) (s.put a r))) :
    FirstServed n l (s.put a r) (g.note n l s (.op a .resume) (s.put a r)) := by
  have has := h.has_exec hl hl' ha he
  obtain ⟨hframe, hback⟩ := (h.hist.waits a).resumed he hin
  have hother : ∀ x ≠ a, noteHeld g.held s (.op a .resume) (s.put a r) x l = g.held x l :=
    fun x hx => noteHeld_elsewhere fun he => absurd he hx
  have hout : ∀ w ∈ r.2, w.2 ≠ .rlsLock l := fun w hw => foreign_ne_rls (hframe.out w hw)
  have hbefore : g.held a l = false := by
    rw [← Bool.not_eq_true, h.has]
    exact fun hhas => hhas.2 hin
  have hasked : (g.note n l s (.op a .resume) (s.put a r)).asked = g.asked :=
    List.append_nil _
  have hown : ∀ t, LockRel n l s t → Inv t → t.owner = some a := by
    intro t hr hi
    refine owner_of_holding hi ?_
    rw [hr.phase a ha]
    exact (h.hist.waits a).granted he hin
  by_cases hp : r.1.pc.locking = none
  · have hafter : noteHeld g.held s (.op a .resume) (s.put a r) a l = true := by
      rw [has, put_host_self]
      exact hback.mpr hp
    refine h.returned hl hl' hist has hown ?_ (Or.inl hafter) hframe.keeps_record hasked ?_
    · obtain ⟨t, hr, hi⟩ := h.hist.control.locks l hl hl'
      refine h.not_served hr hi ha hin ?_
      rw [hr.phase a ha, (h.hist.waits a).granted he hin]
      exact Nat.add_pos_left Nat.one_pos _
    · dsimp only [LockLog.note, returnedTo]
      rw [if_pos ⟨hbefore, hafter⟩]
  · have hafter : noteHeld g.held s (.op a .resume) (s.put a r) a l = false := by
      rw [← Bool.not_eq_true, has, put_host_self]
      exact fun hhas => hp (hback.mp hhas)
    refine h.keep hist has hframe.keeps_record (fun x => ?_) hasked ?_
    · unfold Sys.Served
      dsimp only [LockLog.note]
      rw [mem_put_rls hout]
      by_cases hx : x = a
      · rw [hx, hafter, hbefore]
      · rw [hother x hx]
    · dsimp only [LockLog.note, returnedTo]
      rw [hafter, if_neg (by simp), List.append_nil]

theorem FirstServed.exec (h : FirstServed n l s g) (hl : 0 ≤ l) (hl' : l < lockNum) (ha : a < n)
    {op : Op} (he : (s.host a).exec n a op = some r)
    (hist : LockHist n (s.put a r) (noteHeld g.held s (.op a op) (s.put a r))) :
    FirstServed n l (s.put a r) (g.note n l s (.op a op) (s.put a r)) := by
  by_cases hlock : op = .lock l
  · subst hlock
    have hpc := exec_run (by nofun) he
    by_cases hm : a = manager n l
    · subst hm
      exact h.lock_manager hl hl' ha hpc he hist
    · exact h.lock_client hl hl' ha hpc hm he hist
  · by_cases hunlock : op = .unlock l
    · subst hunlock
      exact h.unlock hl hl' ha (exec_run (by nofun) he) he hist
    · by_cases hresume : op = .resume ∧ (s.host a).pc.locking = some l
      · obtain ⟨rfl, hin⟩ := hresume
        exact h.resume hl hl' ha hin he hist
      · exact h.exec_elsewhere hl hl' ha he hist hlock hunlock
          fun hr hin => hresume ⟨hr, hin⟩

/-! ## The handlers -/

theorem ReadCase.has {h h' : Host} (hc : ReadCase h h') : h'.Has l ↔ h.Has l := by
  cases hc with
  | keep hp hm => exact has_congr (by rw [hm]) (by rw [hp])
  | wakeLock l' hpc hp hm =>
      by_cases hl : l = l'
      · subst hl
        refine iff_of_false (fun hhas => hhas.2 ?_) fun hhas => hhas.2 ?_
        · rw [hp]
          rfl
        · rw [hpc]
          rfl
      · exact has_congr (by rw [hm, upd_ne hl]) (by rw [hp, hpc])
  | wakeBarrier hpc hp hm => exact has_congr (by rw [hm]) (by rw [hp, hpc])

/-- Nobody gives a lock back in a handler. -/
theorem dispatch_no_rls (n me sender : Nat) (msg : Msg) (h : Host) :
    ∀ w ∈ (dispatchMsg n me sender msg h).2, w.2 ≠ .rlsLock l := by
  have hgrant : ∀ (l' x : Int) (syn : Syn), ∀ w ∈ grantLock n me l' x syn,
      w.2 ≠ .rlsLock l := by
    intro l' x syn w hw
    rcases grantLock_out n me l' x syn with ho | ⟨-, -, -, -, -, ho⟩ <;> rw [ho] at hw
    · cases hw
    · rw [List.mem_singleton.mp hw]
      exact nofun
  intro w hw
  cases msg with
  | acqLock l' =>
      dsimp only [dispatchMsg] at hw
      unfold handleAcquireMsg at hw
      split at hw
      · dsimp only at hw
        split at hw
        · exact hgrant l' _ _ w hw
        · cases hw
      · cases hw
  | rlsLock l' =>
      dsimp only [dispatchMsg] at hw
      unfold handleReleaseMsg at hw
      split at hw
      · dsimp only at hw
        split at hw
        · split at hw
          · cases hw
          · exact hgrant l' _ _ w hw
        · cases hw
      · cases hw
  | enterBarrier =>
      dsimp only [dispatchMsg] at hw
      unfold handleEnterBarrierMsg at hw
      dsimp only at hw
      rcases checkBarrierFlags_cases n me { h with
          syn := { h.syn with barrierFlags := upd h.syn.barrierFlags sender true } }
        with ⟨he, -⟩ | ⟨-, -, he⟩ <;> rw [he] at hw
      · cases hw
      · exact foreign_ne_rls ((release_lockFrame _ l).2.2 w hw)
  | fetchPage p =>
      have hq : Quiet h (dispatchMsg n me sender (.fetchPage p) h) :=
        dispatch_quiet n me sender h (Or.inl rfl)
      exact foreign_ne_rls ((hq.lockFrame l).out w hw)
  | fetchWnI ts =>
      have hq : Quiet h (dispatchMsg n me sender (.fetchWnI ts) h) :=
        dispatch_quiet n me sender h (Or.inl rfl)
      exact foreign_ne_rls ((hq.lockFrame l).out w hw)
  | fetchDiff p ts =>
      have hq : Quiet h (dispatchMsg n me sender (.fetchDiff p ts) h) :=
        dispatch_quiet n me sender h (Or.inl rfl)
      exact foreign_ne_rls ((hq.lockFrame l).out w hw)
  | grantLock | exitBarrier | grantWnI | grantDiff | grantPage | grantEnterBarrierInfo
  | grantExitBarrierInfo => cases hw

/-- A handler of another message than a request or a return of the lock. -/
theorem SynCase.record {me sender : Nat} {syn syn' : Syn}
    (hc : SynCase n me sender syn msg syn') (hacq : msg ≠ .acqLock l)
    (hrls : msg ≠ .rlsLock l) : syn'.locks l = syn.locks l ∨
      syn'.locks l = { syn.locks l with lasthostid := -1 } := by
  cases hc with
  | quiet | grant | flag | exit => exact Or.inl rfl
  | grasp l' => exact Or.inl ((graspLock_only ..).locks l fun he => hacq (by rw [he]))
  | free l' => exact Or.inl ((freeLock_only ..).locks l fun he => hrls (by rw [he]))
  | hand l' =>
      exact Or.inl ((freeLock_only n me l' sender syn).locks l fun he => hrls (by rw [he]))
  | release => exact Or.inr rfl

theorem FirstServed.deliver (h : FirstServed n l s g) (hl : 0 ≤ l) (hl' : l < lockNum) (ha : a < n)
    (hb : b < n) (hne : a ≠ b) (hnet : s.net a b = msg :: rest)
    (hist : LockHist n ((s.pop a b).put b (dispatchMsg n b a msg (s.host b))) g.held) :
    FirstServed n l ((s.pop a b).put b (dispatchMsg n b a msg (s.host b)))
      (g.note n l s (.deliver a b)
        ((s.pop a b).put b (dispatchMsg n b a msg (s.host b)))) := by
  have has : ∀ x, g.held x l = true ↔
      (((s.pop a b).put b (dispatchMsg n b a msg (s.host b))).host x).Has l := by
    intro x
    rw [h.has x]
    by_cases hx : x = b
    · rw [hx, put_host_self]
      exact (h.hist.control.read_cases ha hb hne hnet).has.symm
    · rw [put_host_ne hx]
      exact Iff.rfl
  have htaken : (g.note n l s (.deliver a b)
      ((s.pop a b).put b (dispatchMsg n b a msg (s.host b)))).taken = g.taken :=
    List.append_nil _
  have hrls : ∀ x, .rlsLock l ∈ ((s.pop a b).put b (dispatchMsg n b a msg (s.host b))).net x
      (manager n l) ↔ .rlsLock l ∈ (s.pop a b).net x (manager n l) :=
    fun x => mem_put_rls (dispatch_no_rls n b a msg (s.host b))
  by_cases hacq : b = manager n l ∧ msg = .acqLock l
  · obtain ⟨rfl, rfl⟩ := hacq
    have hgrasp : graspLock n (manager n l) l a (s.host (manager n l)).syn =
        ((graspLock n (manager n l) l a (s.host (manager n l)).syn).1,
          (graspLock n (manager n l) l a (s.host (manager n l)).syn).2) := rfl
    have hreq : ∀ t, LockRel n l s t → t.reqs a = .acq :: rest.filterMap (reqOf l) :=
      fun t hr => (hr.pop_req ha hne hnet (if_pos rfl)).1
    have hserved : ∀ y, Sys.Served n l ((s.pop a (manager n l)).put (manager n l)
        (dispatchMsg n (manager n l) a (.acqLock l) (s.host (manager n l)))) g.held y ↔
        s.Served n l g.held y := by
      intro y
      unfold Sys.Served
      rw [hrls, mem_pop_rls hnet fun _ => nofun]
    refine h.pushed hl hl' hist has ha (fun t hr hi => hi.not_owner (hreq t hr)) hgrasp ?_
      (fun y _ => hserved y) ?_ ?_
    · rw [put_host_self]
      dsimp only [dispatchMsg]
      rw [handleAcquireMsg, if_pos (show 0 ≤ l ∧ l ≤ lockNum by omega)]
    · dsimp only [LockLog.note, askedBy]
      rw [if_pos ⟨rfl, by rw [hnet]; exact decide_eq_true rfl⟩]
    · refine Or.inr ⟨fun hs => ?_, htaken⟩
      obtain ⟨t, hr, hi⟩ := h.hist.control.locks l hl hl'
      exact hi.not_owner (hreq t hr) (h.owner_of_served hr hi ha ((hserved a).mp hs))
  · have hasked : (g.note n l s (.deliver a b)
        ((s.pop a b).put b (dispatchMsg n b a msg (s.host b)))).asked = g.asked := by
      dsimp only [LockLog.note, askedBy]
      rw [if_neg, List.append_nil]
      rintro ⟨rfl, hhead⟩
      rw [hnet] at hhead
      refine hacq ⟨rfl, ?_⟩
      cases msg with
      | acqLock l' => rw [of_decide_eq_true hhead]
      | _ => cases hhead
    by_cases hback : b = manager n l ∧ msg = .rlsLock l
    · obtain ⟨rfl, rfl⟩ := hback
      refine h.freed hl hl' hist has ha (Or.inr ?_) rfl ?_ (fun y hy => ?_) hasked htaken
      · rw [hnet]
        exact List.mem_cons_self
      · rw [put_host_self]
        dsimp only [dispatchMsg]
        rw [handleReleaseMsg, if_pos ⟨hl, hl'⟩]
        dsimp only
        repeat' split
        all_goals rfl
      · refine hy.imp_right fun hm => ?_
        rw [hrls] at hm
        exact mem_of_mem_pop hm
    · refine h.keep hist has ?_ (fun x => ?_) hasked htaken
      · by_cases hm : manager n l = b
        · rw [hm, put_host_self]
          exact (dispatch_syn n b a msg (s.host b)).record (fun he => hacq ⟨hm.symm, he⟩)
            fun he => hback ⟨hm.symm, he⟩
        · rw [put_host_ne hm]
          exact Or.inl rfl
      · unfold Sys.Served
        rw [hrls, mem_pop_rls hnet fun hm he => hback ⟨hm, he⟩]
        exact Iff.rfl

theorem FirstServed.step {s' : Sys} {g' : LockLog} {e : Event} (h : FirstServed n l s g) (hl : 0 ≤ l)
    (hl' : l < lockNum) (hs : Midsm.step n s e = some s') (hg : g' = g.note n l s e s') :
    FirstServed n l s' g' := by
  have hist := h.hist.step hs rfl
  subst hg
  obtain ⟨a, op, r, rfl, ha, he, rfl⟩ |
    ⟨a, b, msg, rest, rfl, ha, hb, hne, hnet, rfl⟩ := step_cases hs
  · exact h.exec hl hl' ha he hist
  · exact h.deliver hl hl' ha hb hne hnet hist

/-! ## Every run -/

theorem FirstServed.init (n : Nat) (l : Int) : FirstServed n l initSys LockLog.start where
  hist := .init n
  has _ := iff_of_false nofun fun hhas => nomatch hhas.1
  split := ⟨none, [], [], RecordRel.fresh n, .free, rfl⟩

/-- A host that has the token, or is to get it, waits in the call: it has not been served. -/
theorem FirstServed.locking_of_owner (h : FirstServed n l s g) (hr : LockRel n l s t) (hi : Inv t)
    (ho : t.owner = some x) (hno : ¬ s.Served n l g.held x) :
    x < n ∧ (s.host x).pc.locking = some l := by
  have hown := hi.owns x
  rw [ho, ownedBy_self] at hown
  have hx : x < n := by
    by_contra hout
    obtain ⟨hreqs, hgrants, hphase⟩ := hr.outside x (by omega)
    rw [hreqs, hgrants, hphase] at hown
    cases hown
  refine ⟨hx, ?_⟩
  cases hp : t.phase x with
  | waiting =>
      rw [hr.phase x hx] at hp
      rw [(phase_waiting hp).2.1]
      rfl
  | holding =>
      rw [hr.phase x hx] at hp
      by_contra hout
      cases hmy : (s.host x).syn.myLocks l with
      | true => exact hno (Or.inl ((h.has x).mpr ⟨hmy, hout⟩))
      | false =>
          unfold phaseOf at hp
          rw [hmy, Bool.false_or] at hp
          split at hp
          · next hg =>
              refine hout ?_
              cases hpc : (s.host x).pc with
              | wniWait l' path =>
                  rw [hpc] at hg
                  cases path with
                  | grasped =>
                      rw [of_decide_eq_true hg]
                      rfl
                  | waited | remote => cases hg
              | run | lockWait | barrierWait | pageWait | diffWait =>
                  rw [hpc] at hg
                  cases hg
          · split at hp <;> cases hp
  | idle =>
      rw [hp] at hown
      simp only [Phase.held, Nat.zero_add] at hown
      by_cases hg : 0 < t.grants x
      · rw [hi.waiting_of_grant hg] at hp
        cases hp
      · have hmem : Req.rls ∈ t.reqs x := List.count_pos_iff.mp (by omega)
        obtain ⟨msg, hmsg, hreq⟩ := hr.sent hx hmem
        rw [reqOf_eq_rls hreq] at hmsg
        exact absurd (Or.inr hmsg) hno

/-- In every run the calls of `mi_lock` on a lock return in the order in which the requests
get to the manager. The requests that are left are those of the hosts in the call whose
message is not on its way any more, one for each. -/
theorem locks_first_come_first_served (n : Nat) (hl : 0 ≤ l) (hl' : l < lockNum)
    (h : Reach (withGhost (Midsm.step n) (LockLog.note n l)) anyStep (initSys, LockLog.start)
      (s, g)) :
    ∃ waiting : List Nat, g.asked = g.taken ++ waiting ∧ waiting.Nodup ∧
      (∀ x ∈ waiting, x < n ∧ (s.host x).pc.locking = some l) ∧
      ∀ x < n, (s.host x).pc.locking = some l →
        x ∈ waiting ∨ .acqLock l ∈ s.net x (manager n l) := by
  have hinv : FirstServed n l (s, g).1 (s, g).2 :=
    h.invariant (P := fun t => FirstServed n l t.1 t.2) (FirstServed.init n l)
      fun ht _ hs => ht.step hl hl' (withGhost_eq_some.mp hs).1 (withGhost_eq_some.mp hs).2
  obtain ⟨t, due, hr, hi, hdue, hsplit⟩ := hinv.token hl hl'
  have hqueue : t.queue.Nodup := by
    rw [List.nodup_iff_count_le_one]
    intro y
    have hw := hi.waits y
    cases hp : t.phase y <;> rw [hp] at hw <;> simp only [Phase.asked] at hw <;> omega
  refine ⟨due ++ t.queue, by rw [hsplit, List.append_assoc], ?_, fun x hx => ?_,
    fun x hx hin => ?_⟩
  · cases ho : t.owner with
    | none =>
        rw [ho] at hdue
        cases hdue
        exact hqueue
    | some y =>
        rw [ho] at hdue
        cases hdue with
        | served => exact hqueue
        | due => exact List.nodup_cons.mpr ⟨hi.queued y ho, hqueue⟩
  · rcases List.mem_append.mp hx with hx | hx
    · cases ho : t.owner with
      | none =>
          rw [ho] at hdue
          cases hdue
          cases hx
      | some y =>
          rw [ho] at hdue
          cases hdue with
          | served => cases hx
          | due hno =>
              rw [List.mem_singleton.mp hx]
              exact hinv.locking_of_owner hr hi ho hno
    · obtain ⟨hxn, hp⟩ := hr.queued hi hx
      rw [hr.phase x hxn] at hp
      refine ⟨hxn, ?_⟩
      rw [(phase_waiting hp).2.1]
      rfl
  · have howner : 0 < (t.phase x).held + t.grants x → x ∈ due := by
      intro htoken
      have hown := hi.owns x
      have ho : t.owner = some x := by
        by_contra hne
        rw [ownedBy_of_ne hne] at hown
        omega
      rw [ho] at hdue
      cases hdue with
      | served hs => exact absurd hs (hinv.not_served hr hi hx hin htoken)
      | due => exact List.mem_singleton_self x
    have hw := hi.waits x
    rcases (hinv.hist.waits x).phase hin with hp | hp
    · refine Or.inl (List.mem_append_left _ (howner ?_))
      rw [hr.phase x hx, hp]
      exact Nat.add_pos_left Nat.one_pos _
    · rw [hr.phase x hx, hp] at hw
      simp only [Phase.asked] at hw
      by_cases hg : 0 < t.grants x
      · exact Or.inl (List.mem_append_left _ (howner (by omega)))
      · by_cases hq : 0 < t.queue.count x
        · exact Or.inl (List.mem_append_right _ (List.count_pos_iff.mp hq))
        · have hreq : 0 < (t.reqs x).count .acq := by omega
          obtain ⟨msg, hmsg, he⟩ := hr.sent hx (List.count_pos_iff.mp hreq)
          rw [reqOf_eq_acq he] at hmsg
          exact Or.inr hmsg

end

/-- Host 2 is in, host 1 and then the manager wait. -/
theorem locks_first_come_first_served_three :
    ∃ (s : Sys) (g : LockLog) (waiting : List Nat), g.asked = [2, 1, 0] ∧ g.taken = [2] ∧
      g.asked = g.taken ++ waiting ∧ waiting.Nodup ∧
      ∀ x ∈ waiting, x < 3 ∧ (s.host x).pc.locking = some 0 := by
  obtain ⟨⟨s, g⟩, hrun, hp⟩ := exists_reach_any
    (withGhost (Midsm.step 3) (LockLog.note 3 0)) (initSys, LockLog.start)
    [.op 1 (.lock 0), .op 2 (.lock 0), .deliver 2 0, .deliver 1 0, .op 0 (.lock 0),
      .deliver 0 2, .op 2 .resume]
    (fun t => decide (t.2.asked = [2, 1, 0] ∧ t.2.taken = [2])) (by decide +kernel)
  obtain ⟨hasked, htaken⟩ := of_decide_eq_true hp
  obtain ⟨waiting, hsplit, hnodup, hin, -⟩ :=
    locks_first_come_first_served 3 (l := 0) (by decide) (by decide) hrun
  exact ⟨s, g, waiting, hasked, htaken, hsplit, hnodup, hin⟩

end Midsm
