import Midsm.Proofs.Steps
import Midsm.Proofs.LockRecord

/-!
# The lock protocol refines the token protocol

For one lock, `LockRel` reads a system as a state of `TokenQueue`: the
manager's record is the owner and the queue, `myLocks` and the program counter
of a host are its phase, and the lock's messages in the channels to and from
the manager are the requests and grants in flight. The channel of the manager
to itself is read as empty.

The lemmas below say what the functions of `syn.c` do to this picture, one
lemma for each way a call can go. A host that manages the lock itself takes
several protocol steps at once, which is what the compound steps of
`TokenQueue` are for.
-/

namespace Midsm

open Midsm.Lib Midsm.Lib.TokenQueue

/-- `lockno % hostnum`. -/
def manager (n : Nat) (l : Int) : Nat := (l % n).toNat

theorem emod_eq_iff {n me : Nat} {l : Int} (hn : 0 < n) :
    l % n = me ↔ manager n l = me := by
  have := Int.emod_nonneg l (b := n) (by omega)
  unfold manager
  omega

theorem manager_lt {n : Nat} (hn : 0 < n) (l : Int) : manager n l < n := by
  have := Int.emod_lt_of_pos l (b := n) (by omega)
  have := Int.emod_nonneg l (b := n) (by omega)
  unfold manager
  omega

/-! ## The picture -/

def reqOf (l : Int) : Msg → Option Req
  | .acqLock l' => if l' = l then some .acq else none
  | .rlsLock l' => if l' = l then some .rls else none
  | _ => none

def isGrant (l : Int) : Msg → Bool
  | .grantLock l' _ => l' = l
  | _ => false

/-- A message of another lock, or of none. -/
def Foreign (l : Int) (msg : Msg) : Prop := reqOf l msg = none ∧ isGrant l msg = false

theorem foreign_of_cls {l : Int} {msg : Msg} (h : msg.cls ≠ .lock) :
    Foreign l msg := by
  cases msg <;> first | exact ⟨rfl, rfl⟩ | exact absurd rfl h

def Pc.waitsFor (l : Int) : Pc → Bool
  | .lockWait l' => l' = l
  | _ => false

/-- In the wait of `mi_lock` that precedes `myLocks[lockno] = 1`. -/
def Pc.grasping (l : Int) : Pc → Bool
  | .wniWait l' .grasped => l' = l
  | _ => false

def phaseOf (l : Int) (h : Host) : Phase :=
  if h.syn.myLocks l || h.pc.grasping l then .holding
  else if h.pc.waitsFor l && h.syn.waitFlag then .waiting
  else .idle

structure LockRel (n : Nat) (l : Int) (s : Sys) (t : State Nat) : Prop where
  record : RecordRel n ((s.host (manager n l)).syn.locks l) t.owner t.queue
  phase : ∀ x < n, t.phase x = phaseOf l (s.host x)
  reqs : ∀ x < n, x ≠ manager n l →
    t.reqs x = (s.net x (manager n l)).filterMap (reqOf l)
  reqs_self : t.reqs (manager n l) = []
  grants : ∀ x < n, x ≠ manager n l →
    t.grants x = (s.net (manager n l) x).countP (isGrant l)
  grants_self : t.grants (manager n l) = 0
  outside : ∀ x, n ≤ x → t.reqs x = [] ∧ t.grants x = 0 ∧ t.phase x = .idle

theorem LockRel.init (n : Nat) (l : Int) :
    LockRel n l initSys (start : State Nat) where
  record := RecordRel.fresh n
  phase _ _ := rfl
  reqs _ _ _ := rfl
  reqs_self := rfl
  grants _ _ _ := rfl
  grants_self := rfl
  outside _ _ := ⟨rfl, rfl, rfl⟩

variable {n : Nat} {l : Int} {s : Sys} {t : State Nat}

/-! ## Messages that leave a channel -/

theorem LockRel.pop_foreign (hr : LockRel n l s t) {a b : Nat} {msg : Msg}
    {rest : List Msg} (hnet : s.net a b = msg :: rest) (hf : Foreign l msg) :
    LockRel n l (s.pop a b) t := by
  have hreq : ((s.pop a b).net a b).filterMap (reqOf l) =
      (s.net a b).filterMap (reqOf l) := by
    rw [pop_net_self, hnet, List.tail_cons, List.filterMap_cons_none hf.1]
  have hgr : ((s.pop a b).net a b).countP (isGrant l) =
      (s.net a b).countP (isGrant l) := by
    rw [pop_net_self, hnet, List.tail_cons, List.countP_cons_of_neg (by simp [hf.2])]
  refine ⟨hr.record, hr.phase, fun x hx hm => ?_, hr.reqs_self, fun x hx hm => ?_,
    hr.grants_self, hr.outside⟩
  · rw [hr.reqs x hx hm]
    by_cases hab : x = a ∧ manager n l = b
    · rw [hab.1, hab.2, hreq]
    · rw [pop_net_ne (by omega)]
  · rw [hr.grants x hx hm]
    by_cases hab : manager n l = a ∧ x = b
    · rw [hab.1, hab.2, hgr]
    · rw [pop_net_ne (by omega)]

/-- A request that is read by a host other than the manager. -/
theorem LockRel.pop_stray (hr : LockRel n l s t) {a b : Nat} {msg : Msg}
    {rest : List Msg} (hnet : s.net a b = msg :: rest) (hb : b ≠ manager n l)
    (hf : isGrant l msg = false) : LockRel n l (s.pop a b) t := by
  refine ⟨hr.record, hr.phase, fun x hx hm => ?_, hr.reqs_self, fun x hx hm => ?_,
    hr.grants_self, hr.outside⟩
  · rw [hr.reqs x hx hm, pop_net_ne (Or.inr hb.symm)]
  · rw [hr.grants x hx hm]
    by_cases hab : manager n l = a ∧ x = b
    · rw [hab.1, hab.2, pop_net_self, hnet, List.tail_cons,
        List.countP_cons_of_neg (by simp [hf])]
    · rw [pop_net_ne (by omega)]

theorem LockRel.pop_req (hr : LockRel n l s t) {a : Nat} {msg : Msg}
    {rest : List Msg} {r : Req} (ha : a < n) (hne : a ≠ manager n l)
    (hnet : s.net a (manager n l) = msg :: rest) (hreq : reqOf l msg = some r) :
    t.reqs a = r :: rest.filterMap (reqOf l) ∧
      LockRel n l (s.pop a (manager n l))
        (t.setReqs a (rest.filterMap (reqOf l))) := by
  have hta := hr.reqs a ha hne
  rw [hnet, List.filterMap_cons_some hreq] at hta
  refine ⟨hta, hr.record, hr.phase, fun x hx hm => ?_, ?_, fun x hx hm => ?_,
    hr.grants_self, fun x hx => ?_⟩
  · by_cases hxa : x = a
    · subst hxa
      simp [State.setReqs, hnet]
    · simp only [State.setReqs, Function.update_of_ne hxa]
      rw [hr.reqs x hx hm, pop_net_ne (Or.inl hxa)]
  · simp only [State.setReqs, Function.update_of_ne hne.symm]
    exact hr.reqs_self
  · rw [pop_net_ne (Or.inl hne.symm)]
    exact hr.grants x hx hm
  · have hxa : x ≠ a := by omega
    simp only [State.setReqs, Function.update_of_ne hxa]
    exact hr.outside x hx

theorem LockRel.pop_grant (hr : LockRel n l s t) {b : Nat} {msg : Msg}
    {rest : List Msg} (hb : b < n) (hne : b ≠ manager n l)
    (hnet : s.net (manager n l) b = msg :: rest) (hg : isGrant l msg = true) :
    t.grants b = rest.countP (isGrant l) + 1 ∧
      LockRel n l (s.pop (manager n l) b)
        (t.setGrants b (rest.countP (isGrant l))) := by
  have htb := hr.grants b hb hne
  rw [hnet, List.countP_cons_of_pos hg] at htb
  refine ⟨htb, hr.record, hr.phase, fun x hx hm => ?_, hr.reqs_self,
    fun x hx hm => ?_, ?_, fun x hx => ?_⟩
  · rw [pop_net_ne (Or.inl hm)]
    exact hr.reqs x hx hm
  · by_cases hxb : x = b
    · subst hxb
      simp [State.setGrants, hnet]
    · simp only [State.setGrants, Function.update_of_ne hxb]
      rw [hr.grants x hx hm, pop_net_ne (Or.inr hxb)]
  · simp only [State.setGrants, Function.update_of_ne hne.symm]
    exact hr.grants_self
  · have hxb : x ≠ b := by omega
    simp only [State.setGrants, Function.update_of_ne hxb]
    exact hr.outside x hx

/-! ## A host and its messages -/

theorem outTo_foreign_reqs {out : Out} {b : Nat}
    (h : ∀ x ∈ out, Foreign l x.2) : (outTo out b).filterMap (reqOf l) = [] := by
  rw [List.filterMap_eq_nil_iff]
  intro msg hm
  exact (h _ (mem_outTo.mp hm)).1

theorem outTo_foreign_grants {out : Out} {b : Nat}
    (h : ∀ x ∈ out, Foreign l x.2) : (outTo out b).countP (isGrant l) = 0 := by
  rw [List.countP_eq_zero]
  intro msg hm
  simp [(h _ (mem_outTo.mp hm)).2]

/-- A host changes; its messages, if any, are not about the lock. -/
theorem LockRel.put_foreign (hr : LockRel n l s t) {a : Nat} {r : Host × Out}
    (hrec : a = manager n l →
      RecordRel n (r.1.syn.locks l) t.owner t.queue)
    (hph : phaseOf l r.1 = phaseOf l (s.host a))
    (hout : ∀ x ∈ r.2, Foreign l x.2) : LockRel n l (s.put a r) t := by
  refine ⟨?_, fun x hx => ?_, fun x hx hm => ?_, hr.reqs_self, fun x hx hm => ?_,
    hr.grants_self, hr.outside⟩
  · by_cases hm : a = manager n l
    · rw [← hm, put_host_self]
      exact hrec hm
    · rw [put_host_ne (Ne.symm hm)]
      exact hr.record
  · by_cases hxa : x = a
    · subst hxa
      rw [put_host_self, hph]
      exact hr.phase x hx
    · rw [put_host_ne hxa]
      exact hr.phase x hx
  · by_cases hxa : x = a
    · subst hxa
      rw [put_net_self, List.filterMap_append, outTo_foreign_reqs hout,
        List.append_nil]
      exact hr.reqs x hx hm
    · rw [put_net_ne hxa]
      exact hr.reqs x hx hm
  · by_cases hma : manager n l = a
    · rw [hma, put_net_self, List.countP_append, outTo_foreign_grants hout,
        Nat.add_zero, ← hma]
      exact hr.grants x hx hm
    · rw [put_net_ne hma]
      exact hr.grants x hx hm

/-- The manager itself moves: its record and its phase change, and its grants
go out. -/
theorem LockRel.put_manager (hr : LockRel n l s t) {t' : State Nat}
    {r : Host × Out}
    (hrec : RecordRel n (r.1.syn.locks l) t'.owner t'.queue)
    (hph : t'.phase (manager n l) = phaseOf l r.1)
    (hph' : ∀ x ≠ manager n l, t'.phase x = t.phase x)
    (hreqs : t'.reqs = t.reqs)
    (hgr : ∀ x, t'.grants x =
      t.grants x + if x < n then (outTo r.2 x).countP (isGrant l) else 0)
    (hself : t'.grants (manager n l) = 0) (hn : 0 < n) :
    LockRel n l (s.put (manager n l) r) t' := by
  refine ⟨?_, fun x hx => ?_, fun x hx hm => ?_, ?_, fun x hx hm => ?_, hself,
    fun x hx => ?_⟩
  · rw [put_host_self]
    exact hrec
  · by_cases hxm : x = manager n l
    · rw [hxm, put_host_self]
      exact hph
    · rw [put_host_ne hxm, hph' x hxm]
      exact hr.phase x hx
  · rw [put_net_ne hm, hreqs]
    exact hr.reqs x hx hm
  · rw [hreqs]
    exact hr.reqs_self
  · rw [put_net_self, List.countP_append, hgr x, if_pos hx, hr.grants x hx hm]
  · have hxm : x ≠ manager n l := by
      have := manager_lt hn l
      omega
    rw [hreqs, hgr x, if_neg (by omega), hph' x hxm, Nat.add_zero]
    exact hr.outside x hx

/-- A client moves: its phase changes, and its requests go out. -/
theorem LockRel.put_client (hr : LockRel n l s t) {t' : State Nat} {a : Nat}
    {r : Host × Out} (ha : a < n) (hne : a ≠ manager n l)
    (hown : t'.owner = t.owner) (hqueue : t'.queue = t.queue)
    (hph : t'.phase = Function.update t.phase a (phaseOf l r.1))
    (hreqs : t'.reqs = Function.update t.reqs a
      (t.reqs a ++ (outTo r.2 (manager n l)).filterMap (reqOf l)))
    (hgr : t'.grants = t.grants) : LockRel n l (s.put a r) t' := by
  refine ⟨?_, fun x hx => ?_, fun x hx hm => ?_, ?_, fun x hx hm => ?_, ?_,
    fun x hx => ?_⟩
  · rw [put_host_ne hne.symm, hown, hqueue]
    exact hr.record
  · rw [hph]
    by_cases hxa : x = a
    · subst hxa
      rw [put_host_self, Function.update_self]
    · rw [put_host_ne hxa, Function.update_of_ne hxa]
      exact hr.phase x hx
  · rw [hreqs]
    by_cases hxa : x = a
    · subst hxa
      rw [put_net_self, List.filterMap_append, Function.update_self,
        hr.reqs x hx hm]
    · rw [put_net_ne hxa, Function.update_of_ne hxa]
      exact hr.reqs x hx hm
  · rw [hreqs, Function.update_of_ne hne.symm]
    exact hr.reqs_self
  · rw [put_net_ne hne.symm, hgr]
    exact hr.grants x hx hm
  · rw [hgr]
    exact hr.grants_self
  · have hxa : x ≠ a := by omega
    rw [hreqs, hgr, hph, Function.update_of_ne hxa, Function.update_of_ne hxa]
    exact hr.outside x hx

end Midsm
