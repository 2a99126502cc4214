import Midsm.Proofs.LockSafety

/-!
# Requests for a lock that arrive again

A datagram whose acknowledgement is late is sent again, and `sigio_handler` hands it to
`dispatchMsg` again. `Wire` remembers every message that a channel has delivered, and `again`
delivers any one of them once more, right away or long after.

A request that is read again finds its sender the owner, and `graspLock` refuses, or it is
taken for a new one: `graspLock` does not look at the waiting list, nor can it know that the
lock has been given back since. A release that is read again is refused as well, unless its
sender has got the lock once more. Then the lock changes hands under its owner, so two hosts
hold it; but it goes to a host that waits for it. So what such a run keeps is not the token
protocol but one count: what is under way for a host, as a request, as a place in the waiting
list or as a grant, is at most one, and nothing if it does not wait.
-/

namespace Midsm

open Midsm.Lib Midsm.Lib.TokenQueue

/-- A system, and what each channel has delivered, oldest first. -/
structure Wire where
  sys : Sys
  read : Nat → Nat → List Msg

inductive WireEvent where
  | once (e : Event)
  /-- The `k`-th message from `sender` to `receiver` is read again. -/
  | again (sender receiver k : Nat)

def Msg.isLockRequest : Msg → Bool
  | .acqLock _ | .rlsLock _ => true
  | _ => false

/-- What the channels have delivered after an event. -/
def noteRead (read : Nat → Nat → List Msg) (s : Sys) : Event → Nat → Nat → List Msg
  | .op _ _ => read
  | .deliver a b => upd read a (upd (read a) b (read a b ++ (s.net a b).take 1))

def wireStep (n : Nat) (w : Wire) : WireEvent → Option Wire
  | .once e => (step n w.sys e).map fun s => ⟨s, noteRead w.read w.sys e⟩
  | .again a b k =>
      match (w.read a b)[k]? with
      | some msg =>
          if msg.isLockRequest then
            some { w with
              sys := w.sys.put b (dispatchMsg n b a msg (w.sys.host b)) }
          else none
      | none => none

def initWire : Wire := ⟨initSys, fun _ _ => []⟩

/-- A request for a lock that is read again finds its sender the owner. -/
def OwnerAsks (w : Wire) : WireEvent → Prop
  | .once _ => True
  | .again a b k =>
      match (w.read a b)[k]? with
      | some (.acqLock l) =>
          ((w.sys.host b).syn.locks l).locked = true ∧
            ((w.sys.host b).syn.locks l).owner = a
      | _ => True

/-! ## What the calls do to the waiting list -/

section

variable {n me : Nat} {l x result : Int} {s syn : Syn}

theorem graspLock_queue (he : graspLock n me l x s = (result, syn)) :
    (syn.locks l).queue = (s.locks l).queue ∨
      (result = -3 ∧ 0 ≤ x ∧ x < n ∧ (syn.locks l).queue = (s.locks l).queue ++ [x]) := by
  unfold graspLock at he
  dsimp only at he
  split at he
  · cases he
    exact Or.inl rfl
  · next hvalid =>
      split at he
      · cases he
        exact Or.inl rfl
      · split at he
        · cases he
          exact Or.inl (by rw [setLock_locks_self]; rfl)
        · split at he
          · cases he
            exact Or.inl rfl
          · cases he
            refine Or.inr ⟨rfl, by omega, by omega, ?_⟩
            rw [setLock_locks_self]
            exact queue_push (s.locks l) x

/-- A result that is a host comes off the front. -/
theorem freeLock_queue (he : freeLock n me l x s = (result, syn)) :
    (result < 0 ∧ (syn.locks l).queue = (s.locks l).queue) ∨
      (s.locks l).queue = result :: (syn.locks l).queue := by
  unfold freeLock at he
  dsimp only at he
  split at he
  · cases he
    exact Or.inl ⟨by decide, rfl⟩
  · split at he
    · cases he
      exact Or.inl ⟨by decide, rfl⟩
    · split at he
      · cases he
        exact Or.inl ⟨by decide, rfl⟩
      · split at he
        · cases he
          exact Or.inl ⟨by decide, rfl⟩
        · split at he
          · cases he
            exact Or.inl ⟨by decide, by rw [setLock_locks_self]; rfl⟩
          · next hcount =>
              cases he
              obtain ⟨k, hk⟩ : ∃ k, (s.locks l).waitingListCount = k + 1 :=
                Nat.exists_eq_succ_of_ne_zero hcount
              refine Or.inr ?_
              rw [setLock_locks_self, hk]
              exact queue_shift (s.locks l) ((s.locks l).waitingList 0) x hk

theorem grantLock_count (y : Nat) :
    (outTo (grantLock n me l x s) y).countP (isGrant l) ≤ if x = y then 1 else 0 := by
  rcases grantLock_out n me l x s with ho | ⟨-, h0, -, -, -, ho⟩ <;> rw [ho]
  · exact Nat.zero_le _
  · rw [countP_grant_to]
    split
    · rw [if_pos (by omega)]
    · exact Nat.zero_le _

theorem grantLock_acq (y : Nat) :
    (outTo (grantLock n me l x s) y).countP (isAcq l) = 0 := by
  rw [List.countP_eq_zero]
  intro msg hm
  rcases grantLock_out n me l x s with ho | ⟨-, -, -, -, -, ho⟩ <;>
    rw [mem_outTo, ho] at hm
  · cases hm
  · cases List.mem_singleton.mp hm
    exact Bool.false_ne_true

end

theorem foreign_acq_count {l : Int} {out : Out} {b : Nat} (h : ∀ x ∈ out, Foreign l x.2) :
    (outTo out b).countP (isAcq l) = 0 := by
  rw [← count_acq, outTo_foreign_reqs h]
  rfl

/-! ## At most one request under way -/

/-- What is under way for host `x` and lock `l`: requests in flight, places in the waiting
list, grants in flight. -/
def Sys.underWay (s : Sys) (n : Nat) (l : Int) (x : Nat) : Nat :=
  (s.net x (manager n l)).countP (isAcq l) +
    ((s.host (manager n l)).syn.locks l).queue.count (x : Int) +
    (s.net (manager n l) x).countP (isGrant l)

structure OneRequest (n : Nat) (l : Int) (s : Sys) : Prop where
  once : ∀ x < n, s.underWay n l x ≤ (phaseOf l (s.host x)).asked
  hosts : ∀ y ∈ ((s.host (manager n l)).syn.locks l).queue, ∃ x < n, y = (x : Int)

theorem OneRequest.init (n : Nat) (l : Int) : OneRequest n l initSys where
  once _ _ := Nat.zero_le _
  hosts y hy := by cases hy

section

variable {n : Nat} {l : Int} {s : Sys} {a b x : Nat} {r : Host × Out}

theorem put_underWay_client (ha : a ≠ manager n l) :
    (s.put a r).underWay n l x = s.underWay n l x +
      if x = a then (outTo r.2 (manager n l)).countP (isAcq l) else 0 := by
  unfold Sys.underWay
  rw [put_host_ne (Ne.symm ha), put_net_ne (Ne.symm ha)]
  split
  · next hx =>
      rw [hx, put_net_self, List.countP_append]
      omega
  · next hx =>
      rw [put_net_ne hx]
      rfl

theorem put_underWay_manager :
    (s.put (manager n l) r).underWay n l x =
      (s.net x (manager n l)).countP (isAcq l) +
        (if x = manager n l then (outTo r.2 (manager n l)).countP (isAcq l) else 0) +
        (r.1.syn.locks l).queue.count (x : Int) +
        ((s.net (manager n l) x).countP (isGrant l) +
          (outTo r.2 x).countP (isGrant l)) := by
  unfold Sys.underWay
  rw [put_host_self, put_net_self (b := x), List.countP_append]
  split
  · next hx => rw [hx, put_net_self, List.countP_append]
  · next hx => rw [put_net_ne hx, Nat.add_zero]

theorem pop_underWay : (s.pop a b).underWay n l x ≤ s.underWay n l x := by
  have hle : ∀ (p : Msg → Bool) (u v : Nat),
      ((s.pop a b).net u v).countP p ≤ (s.net u v).countP p := by
    intro p u v
    by_cases huv : u = a ∧ v = b
    · rw [huv.1, huv.2, pop_net_self]
      exact (List.tail_sublist _).countP_le
    · rw [pop_net_ne (by omega)]
  have hacq := hle (isAcq l) x (manager n l)
  have hgrant := hle (isGrant l) (manager n l) x
  unfold Sys.underWay
  rw [pop_host]
  omega

/-- Reading a request takes it off the count of its sender. -/
theorem pop_underWay_acq {rest : List Msg}
    (hnet : s.net a (manager n l) = .acqLock l :: rest) :
    (s.pop a (manager n l)).underWay n l a + 1 ≤ s.underWay n l a := by
  have hgrant : ((s.pop a (manager n l)).net (manager n l) a).countP (isGrant l) ≤
      (s.net (manager n l) a).countP (isGrant l) := by
    by_cases ha : a = manager n l
    · rw [ha] at hnet ⊢
      rw [pop_net_self]
      exact (List.tail_sublist _).countP_le
    · rw [pop_net_ne (Or.inl (Ne.symm ha))]
  unfold Sys.underWay
  rw [pop_host, pop_net_self, hnet, List.tail_cons,
    List.countP_cons_of_pos (show isAcq l (.acqLock l) = true from decide_eq_true rfl)]
  omega

theorem pop_underWay_grant {last : Int} {rest : List Msg} (hne : b ≠ manager n l)
    (hnet : s.net (manager n l) b = .grantLock l last :: rest) :
    (s.pop (manager n l) b).underWay n l b + 1 ≤ s.underWay n l b := by
  unfold Sys.underWay
  rw [pop_host, pop_net_self, hnet, List.tail_cons, pop_net_ne (Or.inl hne),
    List.countP_cons_of_pos (show isGrant l (.grantLock l last) = true from
      decide_eq_true rfl)]
  omega

theorem OneRequest.pop (h : OneRequest n l s) : OneRequest n l (s.pop a b) where
  once x hx := pop_underWay.trans (h.once x hx)
  hosts := h.hosts

/-- A host moves, after a message has been read or not: its own count stays within its
phase, no other count grows. -/
theorem OneRequest.put (h : OneRequest n l s) {s₀ : Sys} (hhost : s₀.host = s.host)
    (hself : a < n → (s₀.put a r).underWay n l a ≤ (phaseOf l r.1).asked)
    (hother : ∀ x < n, x ≠ a → (s₀.put a r).underWay n l x ≤ s.underWay n l x)
    (hhosts : a = manager n l → ∀ y ∈ (r.1.syn.locks l).queue, ∃ x < n, y = (x : Int)) :
    OneRequest n l (s₀.put a r) where
  once x hx := by
    by_cases hxa : x = a
    · rw [hxa] at hx ⊢
      rw [put_host_self]
      exact hself hx
    · rw [put_host_ne hxa, hhost]
      exact (hother x hx hxa).trans (h.once x hx)
  hosts y hy := by
    by_cases ha : manager n l = a
    · rw [ha, put_host_self] at hy
      exact hhosts ha.symm y hy
    · rw [put_host_ne ha, hhost] at hy
      exact h.hosts y hy

/-- The count of a host that is idle or holds the lock. -/
theorem OneRequest.none (h : OneRequest n l s) (hx : x < n)
    (hp : (phaseOf l (s.host x)).asked = 0) : s.underWay n l x = 0 := by
  have := h.once x hx
  omega

/-- A host with something under way waits for the lock. -/
theorem OneRequest.waiting (h : OneRequest n l s) (hx : x < n)
    (hpos : 0 < s.underWay n l x) : phaseOf l (s.host x) = .waiting := by
  have hle := hpos.trans_le (h.once x hx)
  cases hp : phaseOf l (s.host x) with
  | waiting => rfl
  | idle | holding =>
      rw [hp] at hle
      exact absurd hle (by decide)

theorem OneRequest.put_frame (h : OneRequest n l s) (hf : LockFrame l (s.host a) r) :
    OneRequest n l (s.put a r) := by
  have hqueue : (r.1.syn.locks l).queue = ((s.host a).syn.locks l).queue := by
    rcases hf.record with he | he <;> rw [he]
    rfl
  have hsame : ∀ x, (s.put a r).underWay n l x = s.underWay n l x := by
    intro x
    by_cases ha : a = manager n l
    · subst ha
      rw [put_underWay_manager, hqueue, foreign_acq_count hf.out, outTo_foreign_grants hf.out,
        ite_self]
      rfl
    · rw [put_underWay_client ha, foreign_acq_count hf.out, ite_self, Nat.add_zero]
  refine h.put rfl (fun ha => ?_) (fun x _ _ => (hsame x).le) fun ha y hy => ?_
  · rw [hsame, hf.phase]
    exact h.once a ha
  · rw [hqueue, ha] at hy
    exact h.hosts y hy

/-! ## The calls -/

/-- A call may change the record, where it sends nothing about the lock and is not put into
the waiting list. -/
theorem OneRequest.grasp (h : OneRequest n l s) (ha : a < n) (hpc : (s.host a).pc = .run)
    (hmy : (s.host a).syn.myLocks l = false) {last : Int} {syn : Syn}
    (he : graspLock n a l a (s.host a).syn = (last, syn)) (hne : last ≠ -3)
    (hrec : r.1.syn.locks l = syn.locks l) (hout : ∀ x ∈ r.2, Foreign l x.2) :
    OneRequest n l (s.put a r) := by
  have hzero : s.underWay n l a = 0 := h.none ha (by rw [phase_idle_of_run hpc hmy]; rfl)
  have hqueue : (r.1.syn.locks l).queue = ((s.host a).syn.locks l).queue := by
    rw [hrec]
    exact (graspLock_queue he).resolve_right fun hq => hne hq.1
  have hsame : ∀ x, (s.put a r).underWay n l x = s.underWay n l x := by
    intro x
    by_cases hm : a = manager n l
    · subst hm
      rw [put_underWay_manager, hqueue, foreign_acq_count hout, outTo_foreign_grants hout,
        ite_self]
      rfl
    · rw [put_underWay_client hm, foreign_acq_count hout, ite_self, Nat.add_zero]
  refine h.put rfl (fun _ => ?_) (fun x _ _ => (hsame x).le) fun hm y hy => ?_
  · rw [hsame, hzero]
    exact Nat.zero_le _
  · rw [hqueue, hm] at hy
    exact h.hosts y hy

/-- The manager itself is put into the waiting list. -/
theorem OneRequest.queue (h : OneRequest n l s) (ha : a < n) (hpc : (s.host a).pc = .run)
    (hmy : (s.host a).syn.myLocks l = false) {syn : Syn}
    (he : graspLock n a l a (s.host a).syn = (-3, syn)) :
    OneRequest n l (s.put a ({ s.host a with
      syn := { syn with waitFlag := true }, pc := .lockWait l }, [])) := by
  obtain ⟨hl, hl', hm⟩ := graspLock_valid he (by omega) (by omega)
  obtain rfl : manager n l = a := (emod_eq_iff (by omega)).mp hm
  have hz : s.underWay n l (manager n l) = 0 :=
    h.none ha (by rw [phase_idle_of_run hpc hmy]; rfl)
  rw [Sys.underWay] at hz
  have hcount : ∀ x : Nat, (syn.locks l).queue.count (x : Int) ≤
      ((s.host (manager n l)).syn.locks l).queue.count (x : Int) +
        if x = manager n l then 1 else 0 := by
    intro x
    rcases graspLock_queue he with hq | ⟨-, -, -, hq⟩
    · rw [hq]
      exact Nat.le_add_right _ _
    · rw [hq, List.count_append, List.count_singleton]
      simp only [beq_iff_eq, Nat.cast_inj]
      split <;> split <;> omega
  refine h.put rfl (fun _ => ?_) (fun x _ hx => ?_) fun _ y hy => ?_
  · have hself := hcount (manager n l)
    rw [if_pos rfl] at hself
    have hmy' : syn.myLocks l = false := by rwa [(Syn.OnlyLock.ofGrasp he).myLocks]
    refine le_of_le_of_eq ?_ (congrArg Phase.asked (phase_of_lockWait rfl hmy' rfl)).symm
    rw [put_underWay_manager]
    simp only [outTo_nil, List.countP_nil, ite_self, Nat.add_zero, Phase.asked]
    omega
  · have hle := hcount x
    rw [if_neg hx] at hle
    rw [put_underWay_manager, Sys.underWay]
    simp only [outTo_nil, List.countP_nil, ite_self, Nat.add_zero]
    omega
  · rcases graspLock_queue he with hq | ⟨-, -, -, hq⟩
    · exact h.hosts y (hq ▸ hy)
    · change y ∈ (syn.locks l).queue at hy
      rw [hq, List.mem_append, List.mem_singleton] at hy
      rcases hy with hy | hy
      · exact h.hosts y hy
      · exact ⟨_, ha, hy⟩

theorem OneRequest.lock (h : OneRequest n l s) (ha : a < n) (hpc : (s.host a).pc = .run)
    (hc : LockCase n a l (s.host a) r) : OneRequest n l (s.put a r) := by
  cases hc with
  | refused ret => exact h.put_frame ⟨Or.inl rfl, rfl, fun x hx => absurd hx List.not_mem_nil⟩
  | reject syn result _ _ hmy _ he _ hne =>
      exact h.grasp ha hpc hmy he hne rfl fun x hx => absurd hx List.not_mem_nil
  | ask hl hl' hmy hm =>
      have hne : a ≠ manager n l := fun he => hm ((emod_eq_iff (by omega)).mpr he.symm)
      refine h.put rfl (fun _ => ?_) (fun x _ hx => ?_) fun he => absurd he hne
      · have hzero : s.underWay n l a = 0 :=
          h.none ha (by rw [phase_idle_of_run hpc hmy]; rfl)
        have hw := phase_of_lockWait (l := l) (h := { s.host a with
          syn := { (s.host a).syn with waitFlag := true }, pc := .lockWait l }) rfl hmy rfl
        refine le_of_le_of_eq ?_ (congrArg Phase.asked hw).symm
        rw [put_underWay_client hne, hzero, if_pos rfl, ← manager, outTo_cons_self]
        simp [isAcq, Phase.asked]
      · rw [put_underWay_client hne, if_neg hx, Nat.add_zero]
  | queue syn hmy he => exact h.queue ha hpc hmy he
  | fetch syn last hmy he hge =>
      refine h.grasp ha hpc hmy he (by omega) rfl fun x hx => ?_
      rw [List.mem_singleton.mp hx]
      exact foreign_fetchWnI l _
  | skip syn last hmy he hge =>
      exact h.grasp ha hpc hmy he (by omega) rfl fun x hx => absurd hx List.not_mem_nil
  | fresh syn last hmy he hge =>
      exact h.grasp ha hpc hmy he (by omega) rfl fun x hx => absurd hx List.not_mem_nil

/-- The manager passes the lock on, by `mi_unlock` or by a release it reads: the next host
gets a grant for its place, or it is the manager itself. -/
theorem OneRequest.pass (h : OneRequest n l s) {y result : Int} {syn₀ syn : Syn}
    (hlocks : (syn₀.locks l) = (s.host (manager n l)).syn.locks l)
    (he : freeLock n (manager n l) l y syn₀ = (result, syn))
    (hrec : r.1.syn.locks l = syn.locks l)
    (hout : ∀ x, (outTo r.2 x).countP (isGrant l) ≤
      if 0 ≤ result ∧ result ≠ manager n l ∧ result = x then 1 else 0)
    (hacq : (outTo r.2 (manager n l)).countP (isAcq l) = 0)
    (hphase : (phaseOf l (s.host (manager n l))).asked -
      (if result = manager n l then 1 else 0) ≤ (phaseOf l r.1).asked) :
    OneRequest n l (s.put (manager n l) r) := by
  have hcount : ∀ x : Nat, (syn.locks l).queue.count (x : Int) +
      (if 0 ≤ result ∧ result = x then 1 else 0) ≤
        ((s.host (manager n l)).syn.locks l).queue.count (x : Int) := by
    intro x
    rw [← hlocks]
    rcases freeLock_queue he with ⟨hlt, hq⟩ | hq
    · rw [hq, if_neg (by omega), Nat.add_zero]
    · rw [hq, List.count_cons]
      simp only [beq_iff_eq]
      split <;> split <;> omega
  refine h.put rfl (fun hm => ?_) (fun x _ hx => ?_) fun _ z hz => ?_
  · have hq := hcount (manager n l)
    have ho := hout (manager n l)
    have hold := h.once _ hm
    rw [if_neg (by omega)] at ho
    rw [put_underWay_manager, hrec, if_pos rfl, hacq]
    rw [Sys.underWay] at hold
    split at hphase <;> split at hq <;> omega
  · have hq := hcount x
    have ho := hout x
    rw [put_underWay_manager, hrec, if_neg hx, Sys.underWay]
    split at ho <;> split at hq <;> omega
  · rw [hrec] at hz
    refine h.hosts z ?_
    rw [← hlocks]
    rcases freeLock_queue he with ⟨-, hq⟩ | hq
    · exact hq ▸ hz
    · rw [hq]
      exact List.mem_cons_of_mem _ hz

theorem OneRequest.unlock (h : OneRequest n l s) (ha : a < n) (hpc : (s.host a).pc = .run)
    (hc : UnlockCase n a l (s.host a) r) : OneRequest n l (s.put a r) := by
  cases hc with
  | refused ret => exact h.put_frame ⟨Or.inl rfl, rfl, fun x hx => absurd hx List.not_mem_nil⟩
  | free syn result hl hl' hmy hm he =>
      obtain rfl : manager n l = a := (emod_eq_iff (by omega)).mp hm
      refine h.pass (by rfl) he rfl (fun x => ?_) ?_ ?_
      · split
        · next hr =>
            refine (grantLock_count x).trans ?_
            split <;> split <;> omega
        · exact Nat.zero_le _
      · split
        · exact grantLock_acq _
        · rfl
      · rw [phase_holding (Or.inl hmy)]
        exact (Nat.sub_le _ _).trans (Nat.zero_le _)
  | tell hl hl' hmy hm =>
      have hne : a ≠ manager n l := fun he => hm ((emod_eq_iff (by omega)).mpr he.symm)
      have hzero := h.none ha (by rw [phase_holding (Or.inl hmy)]; rfl)
      have hsame : ∀ x, (s.put a ({ (s.host a).releasing n a l with ret := some 0 },
          [((l % n).toNat, .rlsLock l)])).underWay n l x = s.underWay n l x := by
        intro x
        rw [put_underWay_client hne, ← manager, outTo_cons_self]
        simp [isAcq]
      refine h.put rfl (fun _ => ?_) (fun x _ _ => (hsame x).le) fun he => absurd he hne
      rw [hsame, hzero]
      exact Nat.zero_le _

/-! ## The handlers -/

theorem OneRequest.acquire (h : OneRequest n l s) (hl : 0 ≤ l) (hl' : l < lockNum)
    (ha : a < n) {rest : List Msg}
    (hnet : s.net a (manager n l) = .acqLock l :: rest) :
    OneRequest n l ((s.pop a (manager n l)).put (manager n l)
      (handleAcquireMsg n (manager n l) a l (s.host (manager n l)))) := by
  have hread := pop_underWay_acq hnet
  rw [handleAcquireMsg, if_pos (by omega)]
  cases he : graspLock n (manager n l) l a (s.host (manager n l)).syn with
  | mk result syn =>
    have ho := Syn.OnlyLock.ofGrasp he
    have hphase : phaseOf l { s.host (manager n l) with syn := syn } =
        phaseOf l (s.host (manager n l)) :=
      phaseOf_congr (by rw [ho.myLocks]) rfl (by rw [ho.waitFlag])
    dsimp only
    generalize hout : (if result ≥ -1 then grantLock n (manager n l) l a syn else []) = out
    have hacq : (outTo out (manager n l)).countP (isAcq l) = 0 := by
      rw [← hout]
      split
      · exact grantLock_acq _
      · rfl
    -- the request becomes a place or a grant, or it is refused
    have hcount : ∀ x : Nat, (syn.locks l).queue.count (x : Int) +
        (outTo out x).countP (isGrant l) ≤
          ((s.host (manager n l)).syn.locks l).queue.count (x : Int) +
            if x = a then 1 else 0 := by
      intro x
      have hgrant : (outTo (grantLock n (manager n l) l a syn) x).countP (isGrant l) ≤
          if (a : Int) = x then 1 else 0 := grantLock_count x
      rcases graspLock_queue he with hq | ⟨hr, -, -, hq⟩ <;> rw [hq, ← hout]
      · split
        · split at hgrant <;> split <;> omega
        · exact Nat.le_add_right _ _
      · rw [if_neg (by omega), List.count_append, List.count_singleton]
        simp only [beq_iff_eq, Nat.cast_inj, outTo_nil, List.countP_nil]
        split <;> split <;> omega
    have hle : ∀ x, (((s.pop a (manager n l)).put (manager n l)
        ({ s.host (manager n l) with syn := syn }, out)).underWay n l x) ≤
          (s.pop a (manager n l)).underWay n l x + if x = a then 1 else 0 := by
      intro x
      have := hcount x
      rw [put_underWay_manager, hacq, ite_self, Sys.underWay, pop_host]
      dsimp only
      omega
    have hbound : ∀ x, (((s.pop a (manager n l)).put (manager n l)
        ({ s.host (manager n l) with syn := syn }, out)).underWay n l x) ≤
          s.underWay n l x := by
      intro x
      refine (hle x).trans ?_
      split
      · next hx => rw [hx]; exact hread
      · exact pop_underWay
    refine h.put (pop_host s a (manager n l)) (fun hm => ?_) (fun x _ _ => hbound x)
      fun _ y hy => ?_
    · rw [hphase]
      exact (hbound _).trans (h.once _ hm)
    · rcases graspLock_queue he with hq | ⟨-, -, -, hq⟩
      · exact h.hosts y (hq ▸ hy)
      · change y ∈ (syn.locks l).queue at hy
        rw [hq, List.mem_append, List.mem_singleton] at hy
        rcases hy with hy | hy
        · exact h.hosts y hy
        · exact ⟨a, ha, hy⟩

/-- A release that a host reads, new or old. -/
theorem OneRequest.release (h : OneRequest n l s) (hl : 0 ≤ l) (hl' : l < lockNum) :
    OneRequest n l (s.put (manager n l)
      (handleReleaseMsg n (manager n l) a l (s.host (manager n l)))) := by
  rw [handleReleaseMsg, if_pos ⟨hl, hl'⟩]
  cases he : freeLock n (manager n l) l a (s.host (manager n l)).syn with
  | mk result syn =>
    have ho := Syn.OnlyLock.ofFree he
    have hphase : phaseOf l { s.host (manager n l) with syn := syn } =
        phaseOf l (s.host (manager n l)) :=
      phaseOf_congr (by rw [ho.myLocks]) rfl (by rw [ho.waitFlag])
    dsimp only
    split
    · split
      · next hme =>
          refine h.pass rfl he rfl (fun x => Nat.zero_le _) rfl ?_
          rw [if_pos hme]
          refine le_trans ?_ (Nat.zero_le _)
          cases phaseOf l (s.host (manager n l)) <;> decide
      · next hme =>
          refine h.pass rfl he rfl (fun x => (grantLock_count x).trans ?_) (grantLock_acq _) ?_
          · split <;> split <;> omega
          · rw [hphase]
            exact Nat.sub_le _ _
    · next hlt =>
        refine h.pass rfl he rfl (fun x => Nat.zero_le _) rfl ?_
        rw [hphase]
        exact Nat.sub_le _ _

/-- A release that passes the lock to the manager finds it waiting. -/
theorem OneRequest.release_wakes (h : OneRequest n l s) (hn : 0 < n)
    (hf : (freeLock n (manager n l) l a (s.host (manager n l)).syn).1 = manager n l) :
    phaseOf l (s.host (manager n l)) = .waiting := by
  refine h.waiting (manager_lt hn l) ?_
  cases he : freeLock n (manager n l) l a (s.host (manager n l)).syn with
  | mk result syn =>
    rw [he] at hf
    dsimp only at hf
    obtain ⟨hlt, -⟩ | hq := freeLock_queue he
    · omega
    · rw [Sys.underWay, hq, hf, List.count_cons_self]
      omega

theorem OneRequest.grant_wakes (h : OneRequest n l s) (hb : b < n) {last : Int}
    (hmem : .grantLock l last ∈ s.net (manager n l) b) : phaseOf l (s.host b) = .waiting := by
  refine h.waiting hb ?_
  have hpos : 0 < (s.net (manager n l) b).countP (isGrant l) :=
    List.countP_pos_iff.mpr ⟨_, hmem, decide_eq_true rfl⟩
  rw [Sys.underWay]
  omega

theorem OneRequest.grant (h : OneRequest n l s) (hb : b < n) (hne : b ≠ manager n l) {last : Int} {rest : List Msg}
    (hnet : s.net (manager n l) b = .grantLock l last :: rest) :
    OneRequest n l ((s.pop (manager n l) b).put b
      (handleGrantMsg l last (s.host b), [])) := by
  have hread := pop_underWay_grant hne hnet
  have hone := h.once b hb
  have hone' : (phaseOf l (s.host b)).asked ≤ 1 := by
    cases phaseOf l (s.host b) <;> decide
  have hsame : ∀ x, ((s.pop (manager n l) b).put b
      (handleGrantMsg l last (s.host b), [])).underWay n l x =
        (s.pop (manager n l) b).underWay n l x := by
    intro x
    rw [put_underWay_client hne]
    simp
  refine h.pop.put rfl (fun _ => ?_) (fun x _ _ => (hsame x).le) fun he => absurd he hne
  rw [hsame]
  omega

end

/-- What is kept of a lock is enough for the stages of the barrier. -/
theorem OneRequest.rules (n : Nat) : LockRules n (OneRequest n) where
  put_frame h hf := h.put_frame hf
  pop_foreign h _ _ := h.pop
  pop_stray h _ _ _ := h.pop
  lock h ha hpc hc := h.lock ha hpc hc
  unlock h ha hpc hc := h.unlock ha hpc hc
  acquire h hl hl' ha _ hnet := h.acquire hl hl' ha hnet
  release h hl hl' _ _ _ := h.pop.release hl hl'
  release_wakes h ha _ _ _ _ hf := h.release_wakes (by omega) hf
  grant h _ _ hb hne hnet := h.grant hb hne hnet
  grant_wakes h hb _ hmem := h.grant_wakes hb hmem

/-! ## A request that is read again -/

section

variable {n me : Nat} {l : Int} {a : Nat} {h : Host}

/-- A request by the owner is refused. -/
theorem acquire_again (hlocked : (h.syn.locks l).locked = true)
    (howner : (h.syn.locks l).owner = a) :
    dispatchMsg n me a (.acqLock l) h = (h, []) := by
  have hgrasp : (graspLock n me l a h.syn).2 = h.syn ∧
      (graspLock n me l a h.syn).1 < -1 := by
    unfold graspLock
    dsimp only
    split
    · exact ⟨rfl, by dsimp only; omega⟩
    · split
      · exact ⟨rfl, by dsimp only; omega⟩
      · rw [if_neg (by simp [hlocked])]
        exact ⟨rfl, by dsimp only; omega⟩
  dsimp only [dispatchMsg]
  unfold handleAcquireMsg
  split
  · dsimp only
    rw [if_neg (by omega), hgrasp.1]
  · rfl

theorem put_same (s : Sys) (b : Nat) : s.put b (s.host b, []) = s := by
  have hhost : upd s.host b (s.host b) = s.host := by
    funext x
    unfold upd
    split
    · next hx => rw [hx]
    · rfl
  have hnet : (upd s.net b fun c => s.net b c ++ outTo [] c) = s.net := by
    funext x
    unfold upd
    split
    · next hx =>
        funext c
        rw [hx]
        exact List.append_nil _
    · rfl
  unfold Sys.put
  rw [hhost, hnet]

/-- A release that is read late, for a lock that its sender may have again. -/
theorem Governed.release_again {s : Sys} (hc : Governed n (OneRequest n) s) (hn : 0 < n)
    {b : Nat} : Governed n (OneRequest n)
      (s.put b (dispatchMsg n b a (.rlsLock l) (s.host b))) := by
  have hwakes : (freeLock n b l a (s.host b).syn).1 = b → (s.host b).pc = .lockWait l := by
    intro hwake
    obtain ⟨hl, hl', hm⟩ := freeLock_valid (by rw [hwake]; omega)
    obtain rfl := (emod_eq_iff hn).mp hm
    exact (phase_waiting ((hc.locks l hl hl').release_wakes hn hwake)).2.1
  have hframe := handleReleaseMsg_frame hwakes
  refine hc.put (fun l' hl hl' => ?_) (hc.barrier.put_frame hframe.2)
    (handleReleaseMsg_grantOut _)
  by_cases hll : l' = l
  · subst hll
    by_cases hm : b = manager n l'
    · subst hm
      exact (hc.locks l' hl hl').release hl hl'
    · -- no host but the manager has a record to change
      obtain ⟨ho, hlt⟩ := freeLock_other a (s.host b).syn
        fun he => hm ((emod_eq_iff hn).mp he).symm
      refine (hc.locks l' hl hl').put_frame ?_
      dsimp only [dispatchMsg]
      rw [handleReleaseMsg, if_pos ⟨hl, hl'⟩]
      dsimp only
      rw [ho, if_neg (by omega)]
      exact ⟨Or.inl rfl, rfl, fun x hx => absurd hx List.not_mem_nil⟩
  · exact (hc.locks l' hl hl').put_frame (hframe.1 l' hll)

end

/-! ## Every run -/

/-- The invariant of a run in which the owner asks. -/
structure RetryInv (n : Nat) (w : Wire) : Prop where
  control : Governed n (OneRequest n) w.sys
  ends : ∀ a b, w.read a b ≠ [] → a < n

/-- The waiting lists have no host twice and fit into the record, and nothing is granted to a
host that is not blocked on the lock. -/
structure LocksTolerant (n : Nat) (s : Sys) : Prop where
  once : ∀ l, 0 ≤ l → l < lockNum → ((s.host (manager n l)).syn.locks l).queue.Nodup
  count : ∀ l, 0 ≤ l → l < lockNum →
    ((s.host (manager n l)).syn.locks l).waitingListCount ≤ maxHostNum
  grants : ∀ l last a b, b < n → .grantLock l last ∈ s.net a b → (s.host b).BlockedOn l

section

variable {n : Nat} {w w' : Wire}

theorem RetryInv.init (n : Nat) : RetryInv n initWire where
  control := Governed.init (OneRequest.init n)
  ends _ _ h := absurd rfl h

theorem RetryInv.once (h : RetryInv n w) {e : Event} {s : Sys}
    (hs : step n w.sys e = some s) : RetryInv n ⟨s, noteRead w.read w.sys e⟩ := by
  obtain ⟨x, op, r, rfl, hx, he, rfl⟩ |
    ⟨c, d, msg, rest, rfl, hc, hd, hcd, hnet, rfl⟩ := step_cases hs
  · exact ⟨h.control.exec (OneRequest.rules n) hx he, h.ends⟩
  · refine ⟨h.control.deliver (OneRequest.rules n) hc hd hcd hnet, fun a b hread => ?_⟩
    by_cases ha : a = c
    · exact ha ▸ hc
    · refine h.ends a b ?_
      dsimp only [noteRead] at hread
      rwa [upd_ne ha] at hread

theorem RetryInv.again (h : RetryInv n w) {a b k : Nat} (hok : OwnerAsks w (.again a b k))
    (hs : wireStep n w (.again a b k) = some w') : RetryInv n w' := by
  dsimp only [wireStep] at hs
  dsimp only [OwnerAsks] at hok
  cases hget : (w.read a b)[k]? with
  | none => rw [hget] at hs; cases hs
  | some msg =>
      rw [hget] at hs hok
      have ha : a < n := h.ends a b fun hnil => by rw [hnil] at hget; cases hget
      cases msg with
      | acqLock l =>
          replace hs : some { w with
              sys := w.sys.put b (dispatchMsg n b a (.acqLock l) (w.sys.host b)) } =
                some w' := hs
          rw [acquire_again hok.1 hok.2, put_same] at hs
          exact Option.some.inj hs ▸ h
      | rlsLock l =>
          replace hs : some { w with
              sys := w.sys.put b (dispatchMsg n b a (.rlsLock l) (w.sys.host b)) } =
                some w' := hs
          rw [← Option.some.inj hs]
          exact ⟨h.control.release_again (by omega), h.ends⟩
      | _ => cases hs

theorem RetryInv.step (h : RetryInv n w) {e : WireEvent} (hok : OwnerAsks w e)
    (hs : wireStep n w e = some w') : RetryInv n w' := by
  cases e with
  | once e =>
      obtain ⟨s, hstep, rfl⟩ := Option.map_eq_some_iff.mp hs
      exact h.once hstep
  | again a b k => exact h.again hok hs

/-- A waiting list has different hosts, so it is no longer than there are hosts. -/
theorem OneRequest.waitingList {l : Int} {s : Sys} (h : OneRequest n l s) :
    ((s.host (manager n l)).syn.locks l).queue.Nodup ∧
      ((s.host (manager n l)).syn.locks l).waitingListCount ≤ n := by
  have hlen : ((s.host (manager n l)).syn.locks l).queue.length =
      ((s.host (manager n l)).syn.locks l).waitingListCount := by
    rw [Lock.queue, List.length_map, List.length_range]
  have hhosts := h.hosts
  have honce : ∀ x < n, ((s.host (manager n l)).syn.locks l).queue.count (x : Int) ≤ 1 := by
    intro x hx
    have hle := h.once x hx
    have hone : (phaseOf l (s.host x)).asked ≤ 1 := by
      cases phaseOf l (s.host x) <;> decide
    rw [Sys.underWay] at hle
    omega
  generalize ((s.host (manager n l)).syn.locks l).queue = queue at hlen hhosts honce ⊢
  have hnodup : queue.Nodup := by
    refine List.nodup_iff_count_le_one.mpr fun y => ?_
    by_cases hy : y ∈ queue
    · obtain ⟨x, hx, rfl⟩ := hhosts y hy
      exact honce x hx
    · rw [List.count_eq_zero_of_not_mem hy]
      exact Nat.zero_le _
  have hsub : queue ⊆ (List.range n).map fun x : Nat => (x : Int) := by
    intro y hy
    obtain ⟨x, hx, rfl⟩ := hhosts y hy
    exact List.mem_map_of_mem (List.mem_range.mpr hx)
  have hle := (List.subperm_of_subset hnodup hsub).length_le
  rw [List.length_map, List.length_range] at hle
  exact ⟨hnodup, by omega⟩

theorem RetryInv.tolerant (h : RetryInv n w) (hn : n ≤ maxHostNum) :
    LocksTolerant n w.sys := by
  refine ⟨fun l hl hl' => (h.control.locks l hl hl').waitingList.1, fun l hl hl' => ?_,
    fun l last a b hb hmem => ?_⟩
  · exact (h.control.locks l hl hl').waitingList.2.trans hn
  · obtain ⟨hl, hl', rfl⟩ := h.control.grants a b l last hmem
    obtain ⟨-, hpc, hw⟩ := phase_waiting ((h.control.locks l hl hl').grant_wakes hb hmem)
    exact ⟨hpc, hw⟩

/-- In a run in which each repeated `ACQ_LOCK` finds its sender the owner, whatever other
lock requests are read again and however late, the waiting lists and the grants are in
order. -/
theorem locks_tolerate_retransmission (n : Nat) (hn : n ≤ maxHostNum) {w : Wire}
    (h : Reach (wireStep n) OwnerAsks initWire w) : LocksTolerant n w.sys := by
  have hinv : RetryInv n w :=
    h.invariant (RetryInv.init n) fun ht hok hs => ht.step hok hs
  exact hinv.tolerant hn

def ownerAsks (w : Wire) : WireEvent → Bool
  | .once _ => true
  | .again a b k =>
      match (w.read a b)[k]? with
      | some (.acqLock l) =>
          ((w.sys.host b).syn.locks l).locked &&
            ((w.sys.host b).syn.locks l).owner = a
      | _ => true

theorem ownerAsks_of_check (w : Wire) (e : WireEvent) (h : ownerAsks w e = true) :
    OwnerAsks w e := by
  cases e with
  | once e => trivial
  | again a b k =>
      dsimp only [OwnerAsks]
      dsimp only [ownerAsks] at h
      split at h
      · rwa [Bool.and_eq_true, decide_eq_true_eq] at h
      · trivial

/-- Host 1 gets lock 0 from host 0, gives it back and gets it again. Its first request and
its release are read once more while it has the lock and host 2 waits: the request is refused,
and the release gives the lock to host 2, which waits for it. -/
theorem locks_tolerate_retransmission_three :
    ∃ w : Wire, LocksTolerant 3 w.sys ∧
      ((w.sys.host 0).syn.locks 0).owner = 2 ∧ (w.sys.host 1).syn.myLocks 0 = true := by
  obtain ⟨w, hrun, hp⟩ := exists_reach (wireStep 3) ownerAsks ownerAsks_of_check initWire
    [.once (.op 1 (.lock 0)), .once (.deliver 1 0), .once (.deliver 0 1),
      .once (.op 1 .resume), .once (.op 1 (.unlock 0)), .once (.deliver 1 0),
      .once (.op 1 (.lock 0)), .once (.deliver 1 0), .once (.deliver 0 1),
      .once (.op 1 .resume), .once (.op 2 (.lock 0)), .once (.deliver 2 0),
      .again 1 0 0, .again 1 0 1]
    (fun w : Wire => decide (((w.sys.host 0).syn.locks 0).owner = 2) &&
      (w.sys.host 1).syn.myLocks 0)
    (by decide +kernel)
  rw [Bool.and_eq_true, decide_eq_true_eq] at hp
  exact ⟨w, locks_tolerate_retransmission 3 (by decide) hrun, hp.1, hp.2⟩

/-- A request that is read again while its sender waits puts it into the waiting
list a second time. -/
theorem retransmission_queued_twice :
    ∃ w : Wire, Reach (wireStep 2) anyStep initWire w ∧ ¬ LocksTolerant 2 w.sys := by
  obtain ⟨w, hrun, hp⟩ := exists_reach_any (wireStep 2) initWire
    [.once (.op 0 (.lock 0)), .once (.op 1 (.lock 0)), .once (.deliver 1 0), .again 1 0 0]
    (fun w : Wire => ((w.sys.host 0).syn.locks 0).queue = [1, 1])
    (by decide +kernel)
  refine ⟨w, hrun, fun h => ?_⟩
  have hnodup := h.once 0 (by decide) (by decide)
  rw [show manager 2 0 = 0 from rfl, of_decide_eq_true hp] at hnodup
  exact absurd hnodup (by decide)

end

end Midsm
