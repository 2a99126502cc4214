import Midsm.Proofs.World
import Midsm.Proofs.LockSafety

/-!
# Critical sections under one lock

Hosts lock, access one page and unlock, and do nothing else. Then there is one token:
the right to the lock. It is at the manager, in a message, or at a host on its way
through `mi_lock`, inside its section or in a fault there; and next to the requests for
the lock at most one message is in flight, the one that carries the token on. `Stage`
lists where the token can be and what is known there; the host that has it past
`mi_lock` is the one that knows everything.
-/

namespace Midsm

open Midsm.Lib

/-- What has happened so far, seen from outside: the moments and patches of the page, how far
each host has got, whose page was sent, and the page as the last store left it. -/
structure Story where
  time : Timeline Nat
  patch : Nat → Content
  view : Nat → View
  granted : Nat → Bool
  total : Content

/-- `lasthostid` of a lock whose sections these were. -/
def Story.last (y : Story) : Int :=
  if y.time.len = 0 then -1 else y.time.who y.time.len

/-! ## Messages in flight -/

abbrev Flight : Type := Option (Nat × Nat × Msg)

def flightTo : Flight → Nat → Nat → List Msg
  | some (a, b, msg), a', b' => if a = a' ∧ b = b' then [msg] else []
  | none, _, _ => []

/-- Next to requests for the lock there is only this message. -/
def Sys.InTransit (l : Int) (s : Sys) (fl : Flight) : Prop :=
  ∀ a b, ((s.net a b).filter fun msg => !isAcq l msg) = flightTo fl a b

section

variable {n : Nat} {l : Int} {s : Sys} {fl : Flight} {a b : Nat} {msg : Msg} {rest : List Msg}
  {r : Host × Out}

theorem Sys.InTransit.take (hc : s.InTransit l fl) (hnet : s.net a b = msg :: rest)
    (hm : isAcq l msg = false) : fl = some (a, b, msg) ∧ (s.pop a b).InTransit l none := by
  have hab := hc a b
  rw [hnet, List.filter_cons_of_pos (by simp [hm])] at hab
  obtain ⟨rfl, hrest⟩ : fl = some (a, b, msg) ∧ rest.filter (fun msg => !isAcq l msg) = [] := by
    rcases fl with _ | ⟨a', b', msg'⟩
    · cases hab
    · rw [flightTo] at hab
      split at hab
      · next h =>
          obtain ⟨rfl, hrest⟩ := List.cons.inj hab
          rw [h.1, h.2]
          exact ⟨rfl, hrest⟩
      · cases hab
  refine ⟨rfl, fun x y => ?_⟩
  by_cases hxy : x = a ∧ y = b
  · rw [hxy.1, hxy.2, pop_net_self, hnet, List.tail_cons, hrest]
    rfl
  · rw [pop_net_ne (by omega), hc x y, flightTo, if_neg (by omega)]
    rfl

theorem Sys.InTransit.pop_acq (hc : s.InTransit l fl) (hnet : s.net a b = msg :: rest)
    (hm : isAcq l msg = true) : (s.pop a b).InTransit l fl := by
  intro x y
  by_cases hxy : x = a ∧ y = b
  · have hab := hc a b
    rw [hnet, List.filter_cons_of_neg (by simp [hm])] at hab
    rw [hxy.1, hxy.2, pop_net_self, hnet, List.tail_cons, hab]
  · rw [pop_net_ne (by omega), hc x y]

/-- A host moves and sends requests at most. -/
theorem Sys.InTransit.put (hc : s.InTransit l fl) (hout : ∀ x ∈ r.2, isAcq l x.2 = true) :
    (s.put a r).InTransit l fl := by
  intro x y
  by_cases hx : x = a
  · subst hx
    rw [put_net_self, List.filter_append, hc x y, List.filter_eq_nil_iff.mpr fun msg hm => ?_,
      List.append_nil]
    simp [hout _ (mem_outTo.mp hm)]
  · rw [put_net_ne hx, hc x y]

theorem Sys.InTransit.silent (hc : s.InTransit l fl) (hout : r.2 = []) :
    (s.put a r).InTransit l fl := by
  refine hc.put fun x hx => ?_
  rw [hout] at hx
  cases hx

theorem Sys.InTransit.send (hc : s.InTransit l none) (hout : r.2 = [(b, msg)])
    (hm : isAcq l msg = false) : (s.put a r).InTransit l (some (a, b, msg)) := by
  intro x y
  by_cases hx : x = a
  · subst hx
    rw [put_net_self, List.filter_append, hc x y, hout, flightTo, flightTo]
    by_cases hy : b = y
    · subst hy
      rw [outTo_cons_self, outTo_nil, if_pos ⟨rfl, rfl⟩]
      simp [hm]
    · rw [outTo_cons_ne hy, outTo_nil, if_neg (by omega)]
      rfl
  · rw [put_net_ne hx, hc x y, flightTo, flightTo, if_neg (by omega)]

end

/-! ## Where the token is -/

/-- In the program outside of a section, or waiting for the lock. -/
structure Host.Outside (l : Int) (h : Host) : Prop where
  pc : h.pc = .run ∨ h.pc = .lockWait l ∧ h.syn.waitFlag = true
  mine : h.syn.myLocks l = false

/-- Past the interval of `mi_lock`: the host knows everything. -/
structure Inside (n : Nat) (l : Int) (y : Story) (host : Nat → Host) (x : Nat) : Prop where
  locked : ((host (manager n l)).syn.locks l).locked = true
  mine : (host x).syn.myLocks l = true
  clock : (y.view x).clock = y.time.len
  pos : 0 < y.time.len

/-- In `fetchWritenoticeAndInterval`, called for the host that was inside last. -/
structure Asks (n : Nat) (l : Int) (y : Story) (host : Nat → Host) (x : Nat)
    (path : LockPath) : Prop where
  locked : ((host (manager n l)).syn.locks l).locked = true
  pc : (host x).pc = .wniWait l path
  mine : path ≠ .grasped → (host x).syn.myLocks l = true
  pos : 0 < y.time.len

/-- In the wait of `fetchDiff` for the diff of moment `k`. -/
structure Fetches (n p : Nat) (y : Story) (host : Nat → Host) (x i k : Nat)
    (newer older : List Nat) : Prop where
  pc : (host x).pc = .diffWait p ((host x).mem.pageArray p).startInterval i older.length
  state : ((host x).mem.pageArray p).state = .invalid
  walking : Walking n y.time x (y.view x) i newer k older

/-- The token, by the host that is past the wait for the lock, the host inside `fetchDiff` and
the message in flight. -/
inductive Stage (n : Nat) (l : Int) (p : Nat) (y : Story) (host : Nat → Host) :
    Option Nat → Option Nat → Flight → Prop
  | free : ((host (manager n l)).syn.locks l).locked = false →
      ((host (manager n l)).syn.locks l).lasthostid = y.last →
      Stage n l p y host none none none
  | returned (a : Nat) : ((host (manager n l)).syn.locks l).locked = true → a < n →
      a ≠ manager n l → 0 < y.time.len → y.time.who y.time.len = a →
      Stage n l p y host none none (some (a, manager n l, .rlsLock l))
  | granted (x : Nat) : ((host (manager n l)).syn.locks l).locked = true → x < n →
      x ≠ manager n l →
      Stage n l p y host none none (some (manager n l, x, .grantLock l y.last))
  | woken (x : Nat) : ((host (manager n l)).syn.locks l).locked = true →
      (host x).pc = .lockWait l → (host x).syn.waitFlag = false →
      (host x).syn.myLocks l = true → (host x).syn.lasthostid = y.last →
      (x = manager n l → 0 < y.time.len ∧ y.time.who y.time.len ≠ x) →
      Stage n l p y host (some x) none none
  | asking (x : Nat) (path : LockPath) : Asks n l y host x path →
      (host x).mem.fetchWNIWaitFlag = true → y.time.who y.time.len ≠ x →
      Stage n l p y host (some x) none (some (x, y.time.who y.time.len,
        .fetchWnI (y.time.stamp (y.view x).clock)))
  | told (x : Nat) (path : LockPath) : Asks n l y host x path →
      (host x).mem.fetchWNIWaitFlag = true →
      Stage n l p y host (some x) none (some (y.time.who y.time.len, x,
        .grantWnI (y.time.stamp y.time.len)
          (newsPackets n y.time p (y.view x).clock y.time.len).length
          (newsPackets n y.time p (y.view x).clock y.time.len)))
  | informed (x : Nat) (path : LockPath) : Asks n l y host x path →
      (y.view x).clock = y.time.len → Stage n l p y host (some x) none none
  | active (x : Nat) : Inside n l y host x → (host x).pc = .run →
      Stage n l p y host (some x) none none
  | pageAsked (x a : Nat) : Inside n l y host x → (host x).pc = .pageWait p →
      (host x).mem.fetchPageWaitFlag = true → ((host x).mem.pageArray p).state = .miss →
      a < n → a ≠ x → ((host a).mem.pageArray p).Readable →
      ((host a).mem.pageArray p).content = y.total →
      GrantedUpTo y.granted y.time y.view (some a) →
      Stage n l p y host (some x) none (some (x, a, .fetchPage p))
  | pageSent (x a : Nat) : Inside n l y host x → (host x).pc = .pageWait p →
      (host x).mem.fetchPageWaitFlag = true → ((host x).mem.pageArray p).state = .miss →
      GrantedUpTo y.granted y.time y.view none →
      Stage n l p y host (some x) none (some (a, x, .grantPage p y.total))
  | pageHere (x : Nat) : Inside n l y host x → (host x).pc = .pageWait p →
      ((host x).mem.pageArray p).state = .miss →
      (y.view x).has y.time x = y.time.upTo (y.view x).clock →
      Stage n l p y host (some x) none none
  | diffAsked (x i k : Nat) (newer older : List Nat) : Inside n l y host x →
      Fetches n p y host x i k newer older → (host x).mem.fetchDiffWaitFlag = true →
      k ∉ (y.view x).has y.time x →
      Stage n l p y host (some x) (some x) (some (x, i, .fetchDiff p (y.time.stamp k)))
  | diffSent (x i k : Nat) (newer older : List Nat) : Inside n l y host x →
      Fetches n p y host x i k newer older → (host x).mem.fetchDiffWaitFlag = true →
      k ∉ (y.view x).has y.time x → (y.view i).diff k ≠ none →
      Stage n l p y host (some x) (some x)
        (some (i, x, .grantDiff (y.time.stamp k) p (y.patch k)))
  | diffHere (x i k : Nat) (newer older : List Nat) : Inside n l y host x →
      Fetches n p y host x i k newer older → k ∈ (y.view x).has y.time x →
      Stage n l p y host (some x) (some x) none

/-- What `Stage` reads of a host. -/
structure Host.Like (l : Int) (h h' : Host) : Prop where
  pc : h'.pc = h.pc
  mine : h'.syn.myLocks l = h.syn.myLocks l
  waitFlag : h'.syn.waitFlag = h.syn.waitFlag
  last : h'.syn.lasthostid = h.syn.lasthostid
  mem : h'.mem = h.mem

theorem Host.Like.refl (l : Int) (h : Host) : h.Like l h := ⟨rfl, rfl, rfl, rfl, rfl⟩

section

variable {n p : Nat} {l : Int} {y : Story} {host host' : Nat → Host} {holder walker : Option Nat}
  {fl : Flight} {x i k : Nat} {newer older : List Nat}

theorem Inside.congr (hs : Inside n l y host x)
    (hr : ((host (manager n l)).syn.locks l).locked = true →
      ((host' (manager n l)).syn.locks l).locked = true)
    (hx : (host x).Like l (host' x)) : Inside n l y host' x :=
  ⟨hr hs.locked, hx.mine.trans hs.mine, hs.clock, hs.pos⟩

theorem Asks.congr {path : LockPath} (hs : Asks n l y host x path)
    (hr : ((host (manager n l)).syn.locks l).locked = true →
      ((host' (manager n l)).syn.locks l).locked = true)
    (hx : (host x).Like l (host' x)) : Asks n l y host' x path :=
  ⟨hr hs.locked, hx.pc.trans hs.pc, fun hp => hx.mine.trans (hs.mine hp), hs.pos⟩

theorem Fetches.congr (hs : Fetches n p y host x i k newer older)
    (hx : (host x).Like l (host' x)) : Fetches n p y host' x i k newer older :=
  ⟨hx.pc.trans (by rw [hx.mem]; exact hs.pc), by rw [hx.mem]; exact hs.state, hs.walking⟩

/-- What goes on beside the token. -/
theorem Stage.congr (hs : Stage n l p y host holder walker fl)
    (hr : (host' (manager n l)).syn.locks l = (host (manager n l)).syn.locks l ∨
      ((host (manager n l)).syn.locks l).locked = true ∧
        ((host' (manager n l)).syn.locks l).locked = true)
    (hx : ∀ x, holder = some x → (host x).Like l (host' x))
    (hm : ∀ x, (host' x).mem = (host x).mem) : Stage n l p y host' holder walker fl := by
  have hlocked : ((host (manager n l)).syn.locks l).locked = true →
      ((host' (manager n l)).syn.locks l).locked = true := by
    intro h
    rcases hr with hr | hr
    · rw [hr]
      exact h
    · exact hr.2
  cases hs with
  | free hf hl =>
      rcases hr with hr | ⟨hr, -⟩
      · exact .free (by rw [hr]; exact hf) (by rw [hr]; exact hl)
      · rw [hf] at hr
        cases hr
  | returned a h ha hne hp hw => exact .returned a (hlocked h) ha hne hp hw
  | granted x h hxn hne => exact .granted x (hlocked h) hxn hne
  | woken x h hpc hw hmine hlast hne =>
      have hx := hx x rfl
      exact .woken x (hlocked h) (hx.pc.trans hpc) (hx.waitFlag.trans hw) (hx.mine.trans hmine)
        (hx.last.trans hlast) hne
  | asking x path ha hf hne =>
      have hx := hx x rfl
      exact .asking x path (ha.congr hlocked hx) (by rw [hx.mem]; exact hf) hne
  | told x path ha hf =>
      have hx := hx x rfl
      exact .told x path (ha.congr hlocked hx) (by rw [hx.mem]; exact hf)
  | informed x path ha hc => exact .informed x path (ha.congr hlocked (hx x rfl)) hc
  | active x hi hpc => exact .active x (hi.congr hlocked (hx x rfl)) ((hx x rfl).pc.trans hpc)
  | pageAsked x a hi hpc hf hst ha hne hrd hcon hcl =>
      have hx := hx x rfl
      exact .pageAsked x a (hi.congr hlocked hx) (hx.pc.trans hpc) (by rw [hx.mem]; exact hf)
        (by rw [hx.mem]; exact hst) ha hne (by rw [hm]; exact hrd) (by rw [hm]; exact hcon) hcl
  | pageSent x a hi hpc hf hst hcl =>
      have hx := hx x rfl
      exact .pageSent x a (hi.congr hlocked hx) (hx.pc.trans hpc) (by rw [hx.mem]; exact hf)
        (by rw [hx.mem]; exact hst) hcl
  | pageHere x hi hpc hst hall =>
      have hx := hx x rfl
      exact .pageHere x (hi.congr hlocked hx) (hx.pc.trans hpc) (by rw [hx.mem]; exact hst) hall
  | diffAsked x i k newer older hi hw hf hno =>
      have hx := hx x rfl
      exact .diffAsked x i k newer older (hi.congr hlocked hx) (hw.congr hx)
        (by rw [hx.mem]; exact hf) hno
  | diffSent x i k newer older hi hw hf hno hd =>
      have hx := hx x rfl
      exact .diffSent x i k newer older (hi.congr hlocked hx) (hw.congr hx)
        (by rw [hx.mem]; exact hf) hno hd
  | diffHere x i k newer older hi hw hk =>
      have hx := hx x rfl
      exact .diffHere x i k newer older (hi.congr hlocked hx) (hw.congr hx) hk

end

/-! ## The whole system -/

structure Scene (n : Nat) (l : Int) (p : Nat) (y : Story) (holder walker : Option Nat)
    (fl : Flight) (s : Sys) : Prop where
  world : World n p walker y.granted y.total y.time y.patch y.view fun h => (s.host h).mem
  stage : Stage n l p y s.host holder walker fl
  transit : s.InTransit l fl
  lt : ∀ x, holder = some x → x < n
  outside : ∀ x < n, holder ≠ some x → (s.host x).Outside l

section

variable {n p : Nat} {l : Int} {y : Story} {holder walker : Option Nat} {fl : Flight} {s : Sys}
  {a b : Nat} {msg : Msg} {rest : List Msg} {r : Host × Out}

theorem put_mem (s : Sys) (a : Nat) (r : Host × Out) :
    (fun h => ((s.put a r).host h).mem) = upd (fun h => (s.host h).mem) a r.1.mem := by
  funext h
  by_cases hh : h = a
  · rw [hh, put_host_self, upd_self]
  · rw [put_host_ne hh, upd_ne hh]

/-- A host moves that neither touches its memory nor takes the token on. -/
theorem Scene.put_beside (hs : Scene n l p y holder walker fl s) (hm : r.1.mem = (s.host a).mem)
    (hout : ∀ x ∈ r.2, isAcq l x.2 = true)
    (hrec : r.1.syn.locks l = (s.host a).syn.locks l ∨
      ((s.host a).syn.locks l).locked = true ∧ (r.1.syn.locks l).locked = true)
    (hin : holder = some a → (s.host a).Like l r.1)
    (hoff : holder ≠ some a → (s.host a).Outside l → r.1.Outside l) :
    Scene n l p y holder walker fl (s.put a r) := by
  have hmem : ∀ x, ((s.put a r).host x).mem = (s.host x).mem := by
    intro x
    by_cases hx : x = a
    · rw [hx, put_host_self, hm]
    · rw [put_host_ne hx]
  refine ⟨?_, hs.stage.congr ?_ (fun x hx => ?_) hmem, hs.transit.put hout, hs.lt,
    fun x hx hne => ?_⟩
  · rw [funext hmem]
    exact hs.world
  · by_cases hma : manager n l = a
    · rw [hma, put_host_self]
      exact hrec
    · rw [put_host_ne hma]
      exact Or.inl rfl
  · by_cases hxa : x = a
    · subst hxa
      rw [put_host_self]
      exact hin hx
    · rw [put_host_ne hxa]
      exact .refl l _
  · by_cases hxa : x = a
    · subst hxa
      rw [put_host_self]
      exact hoff hne (hs.outside x hx hne)
    · rw [put_host_ne hxa]
      exact hs.outside x hx hne

theorem Scene.put_silent (hs : Scene n l p y holder walker fl s) (hm : r.1.mem = (s.host a).mem)
    (hout : r.2 = [])
    (hrec : r.1.syn.locks l = (s.host a).syn.locks l ∨
      ((s.host a).syn.locks l).locked = true ∧ (r.1.syn.locks l).locked = true)
    (hin : holder = some a → (s.host a).Like l r.1)
    (hoff : holder ≠ some a → (s.host a).Outside l → r.1.Outside l) :
    Scene n l p y holder walker fl (s.put a r) := by
  refine hs.put_beside hm (fun x hx => ?_) hrec hin hoff
  rw [hout] at hx
  cases hx

theorem Scene.pop_acq (hs : Scene n l p y holder walker fl s) (hnet : s.net a b = msg :: rest)
    (hm : isAcq l msg = true) : Scene n l p y holder walker fl (s.pop a b) :=
  ⟨hs.world, hs.stage, hs.transit.pop_acq hnet hm, hs.lt, hs.outside⟩

/-- The token moves on, and one host with it. A message may have been read before. -/
theorem Scene.put_token {s' : Sys} {y' : Story} {holder' walker' : Option Nat} {fl' : Flight}
    (hs : Scene n l p y holder walker fl s) (hh : s'.host = s.host)
    (hw : World n p walker' y'.granted y'.total y'.time y'.patch y'.view
      (upd (fun h => (s.host h).mem) a r.1.mem))
    (hst : Stage n l p y' (upd s.host a r.1) holder' walker' fl')
    (ht : (s'.put a r).InTransit l fl') (hlt : ∀ x, holder' = some x → x < n)
    (hoff : a < n → holder' ≠ some a → r.1.Outside l)
    (hoff' : ∀ x, x ≠ a → holder = some x → holder' = some x) :
    Scene n l p y' holder' walker' fl' (s'.put a r) := by
  refine ⟨?_, ?_, ht, hlt, fun x hx hne => ?_⟩
  · rw [put_mem, hh]
    exact hw
  · have he : (s'.put a r).host = upd s.host a r.1 := by
      rw [← hh]
      rfl
    rw [he]
    exact hst
  · by_cases hxa : x = a
    · subst hxa
      rw [put_host_self]
      exact hoff hx hne
    · rw [put_host_ne hxa, hh]
      exact hs.outside x hx fun h => hne (hoff' x hxa h)

end

end Midsm
