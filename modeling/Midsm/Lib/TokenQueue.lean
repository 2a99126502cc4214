import Mathlib.Data.List.Count
import Mathlib.Logic.Function.Basic
import Mathlib.Tactic.Common

/-!
# One token, a queue at its manager, and messages

Parties of an arbitrary type share one token. A party asks for it and gives it
back by messages to a manager, on a FIFO channel of its own; the manager keeps
the owner and a queue of waiting parties, and sends a grant to each new owner.

The bookkeeping is an accounting of the token and of the requests. Being the
owner is having exactly one of: the token itself, a return in flight, a grant in
flight. Waiting is having exactly one of: a request in flight, a place in the
queue, a grant in flight. `Inv` states both as sums over counts and adds the
one fact about order the protocol needs, that a return is never behind a
request of the same party. Mutual exclusion and the absence of lost or
duplicated requests and grants are read off the sums.
-/

namespace Midsm.Lib.TokenQueue

/-- A message to the manager. -/
inductive Req where
  | acq
  | rls
  deriving DecidableEq, Repr

inductive Phase where
  | idle
  | waiting
  | holding
  deriving DecidableEq, Repr

structure State (α : Type) where
  owner : Option α
  queue : List α
  reqs : α → List Req
  grants : α → Nat
  phase : α → Phase

variable {α : Type} [DecidableEq α]

def start : State α := ⟨none, [], fun _ => [], fun _ => 0, fun _ => .idle⟩

namespace State

/-- The manager reads a request of `x`. -/
def grasp (s : State α) (x : α) : State α :=
  match s.owner with
  | none => { s with
      owner := some x, grants := Function.update s.grants x (s.grants x + 1) }
  | some y => if y = x then s else { s with queue := s.queue ++ [x] }

/-- The manager reads a return of `x`. -/
def free (s : State α) (x : α) : State α :=
  if s.owner = some x then
    match s.queue with
    | [] => { s with owner := none }
    | y :: q => { s with
        owner := some y
        queue := q
        grants := Function.update s.grants y (s.grants y + 1) }
  else s

def setPhase (s : State α) (x : α) (p : Phase) : State α :=
  { s with phase := Function.update s.phase x p }

def setReqs (s : State α) (x : α) (r : List Req) : State α :=
  { s with reqs := Function.update s.reqs x r }

def setGrants (s : State α) (x : α) (k : Nat) : State α :=
  { s with grants := Function.update s.grants x k }

end State

open State

/-- The token at a party, counted. -/
def Phase.held : Phase → Nat
  | .holding => 1
  | _ => 0

/-- A wait of a party, counted. -/
def Phase.asked : Phase → Nat
  | .waiting => 1
  | _ => 0

/-- The ownership, counted. -/
def ownedBy (owner : Option α) (x : α) : Nat := if owner = some x then 1 else 0

@[simp] theorem ownedBy_none (x : α) : ownedBy none x = 0 := rfl

@[simp] theorem ownedBy_self (x : α) : ownedBy (some x) x = 1 := if_pos rfl

theorem ownedBy_ne {x y : α} (h : y ≠ x) : ownedBy (some x) y = 0 :=
  if_neg fun he => h (Option.some.inj he).symm

theorem ownedBy_of_ne {o : Option α} {x : α} (h : o ≠ some x) : ownedBy o x = 0 :=
  if_neg h

/-- The accounting. -/
structure Inv (s : State α) : Prop where
  owns : ∀ x, ownedBy s.owner x =
    (s.phase x).held + (s.reqs x).count .rls + s.grants x
  waits : ∀ x, (s.phase x).asked =
    (s.reqs x).count .acq + s.queue.count x + s.grants x
  order : ∀ x rest, s.reqs x = .acq :: rest → Req.rls ∉ rest
  empty : s.owner = none → s.queue = []
  queued : ∀ x, s.owner = some x → x ∉ s.queue

theorem Inv.start : Inv (start : State α) where
  owns _ := rfl
  waits _ := rfl
  order x rest h := by cases h
  empty _ := rfl
  queued _ _ := List.not_mem_nil

/-! ## Preservation

Each step moves one unit of each sum from one summand to another, at one
party; the two steps of the manager also move the ownership. -/

/-- A message behind the requests of a party that is not waiting keeps their
order. -/
theorem Inv.order_append {s : State α} (h : Inv s) {x : α} {r : Req}
    (hx : (s.phase x).asked = 0) {rest : List Req}
    (hr : s.reqs x ++ [r] = .acq :: rest) : Req.rls ∉ rest := by
  have hw := h.waits x
  cases hq : s.reqs x with
  | nil =>
      rw [hq, List.nil_append, List.cons.injEq] at hr
      rw [← hr.2]
      exact List.not_mem_nil
  | cons a q =>
      rw [hq, List.cons_append, List.cons.injEq] at hr
      rw [hq, hr.1, List.count_cons_self] at hw
      omega

theorem Inv.ask {s : State α} (h : Inv s) {x : α} (hx : s.phase x = .idle) :
    Inv ((s.setPhase x .waiting).setReqs x (s.reqs x ++ [.acq])) := by
  refine ⟨fun y => ?_, fun y => ?_, fun y rest hr => ?_, h.empty, h.queued⟩ <;>
    by_cases hy : y = x
  · subst hy
    have ho := h.owns y
    simpa [setPhase, setReqs, hx, Phase.held] using ho
  · simpa [setPhase, setReqs, hy] using h.owns y
  · subst hy
    have hw := h.waits y
    simp only [hx, Phase.asked] at hw
    simp only [setPhase, setReqs, Function.update_self, Phase.asked,
      List.count_append, List.count_singleton_self]
    omega
  · simpa [setPhase, setReqs, hy] using h.waits y
  · subst hy
    simp only [setPhase, setReqs, Function.update_self] at hr
    exact h.order_append (by rw [hx]; rfl) hr
  · simp only [setPhase, setReqs, Function.update_of_ne hy] at hr
    exact h.order y rest hr

theorem Inv.giveBack {s : State α} (h : Inv s) {x : α} (hx : s.phase x = .holding) :
    Inv ((s.setPhase x .idle).setReqs x (s.reqs x ++ [.rls])) := by
  refine ⟨fun y => ?_, fun y => ?_, fun y rest hr => ?_, h.empty, h.queued⟩ <;>
    by_cases hy : y = x
  · subst hy
    have ho := h.owns y
    simp only [hx, Phase.held] at ho
    simp only [setPhase, setReqs, Function.update_self, Phase.held,
      List.count_append, List.count_singleton_self]
    omega
  · simpa [setPhase, setReqs, hy] using h.owns y
  · subst hy
    have hw := h.waits y
    simpa [setPhase, setReqs, hx, Phase.asked] using hw
  · simpa [setPhase, setReqs, hy] using h.waits y
  · subst hy
    simp only [setPhase, setReqs, Function.update_self] at hr
    exact h.order_append (by rw [hx]; rfl) hr
  · simp only [setPhase, setReqs, Function.update_of_ne hy] at hr
    exact h.order y rest hr

/-- The tail of a channel keeps its order. -/
theorem Inv.order_tail {s : State α} (h : Inv s) {x : α} {r : Req}
    {rest q : List Req} (hr : s.reqs x = r :: rest) (hq : rest = .acq :: q) :
    Req.rls ∉ q := by
  cases r with
  | acq =>
      have := h.order x rest hr
      rw [hq] at this
      exact fun hm => this (List.mem_cons_of_mem _ hm)
  | rls =>
      -- two requests of one party would be two waits
      intro hm
      have ho := h.owns x
      have hle : ownedBy s.owner x ≤ 1 := by unfold ownedBy; split <;> omega
      have hpos : 0 < q.count .rls := List.count_pos_iff.mpr hm
      rw [hr, hq, List.count_cons_self, List.count_cons] at ho
      omega

/-- A party whose request is at the head of its channel owns nothing: a return
of it would be behind the request. -/
theorem Inv.not_owner {s : State α} (h : Inv s) {x : α} {rest : List Req}
    (hr : s.reqs x = .acq :: rest) : s.owner ≠ some x := by
  intro hown
  have ho := h.owns x
  have hw := h.waits x
  have hrls : rest.count .rls = 0 := List.count_eq_zero.mpr (h.order x rest hr)
  rw [hr] at ho hw
  rw [hown, ownedBy_self, List.count_cons, hrls] at ho
  rw [List.count_cons_self] at hw
  cases hp : s.phase x <;> simp [hp, Phase.asked, Phase.held] at ho hw <;> omega

theorem grasp_none {s : State α} {x : α} (h : s.owner = none) :
    s.grasp x = { s with
      owner := some x, grants := Function.update s.grants x (s.grants x + 1) } := by
  rw [grasp, h]

theorem grasp_busy {s : State α} {x y : α} (h : s.owner = some y) (hne : y ≠ x) :
    s.grasp x = { s with queue := s.queue ++ [x] } := by
  rw [grasp, h]
  exact if_neg hne

theorem Inv.takeAcq {s : State α} (h : Inv s) {x : α} {rest : List Req}
    (hr : s.reqs x = .acq :: rest) : Inv ((s.setReqs x rest).grasp x) := by
  have hno := h.not_owner hr
  have hox := h.owns x
  have hwx := h.waits x
  rw [hr, List.count_cons] at hox
  rw [hr, List.count_cons_self] at hwx
  rw [ownedBy_of_ne hno] at hox
  have horder : ∀ y q, Function.update s.reqs x rest y = .acq :: q → Req.rls ∉ q := by
    intro y q hy
    by_cases hyx : y = x
    · subst hyx
      rw [Function.update_self] at hy
      exact h.order_tail hr hy
    · rw [Function.update_of_ne hyx] at hy
      exact h.order y q hy
  cases ho : s.owner with
  | none =>
      rw [grasp_none (s := s.setReqs x rest) ho]
      have hq : s.queue = [] := h.empty ho
      refine ⟨fun y => ?_, fun y => ?_, horder, fun hn => (by cases hn),
        fun y _ => by simp [setReqs, hq]⟩ <;> by_cases hy : y = x
      · subst hy
        simp only [setReqs, Function.update_self, ownedBy_self]
        simp at hox
        omega
      · have hoy := h.owns y
        rw [ho, ownedBy_none] at hoy
        simp only [setReqs, Function.update_of_ne hy, ownedBy_ne hy]
        exact hoy
      · subst hy
        simp only [setReqs, Function.update_self]
        omega
      · simpa [setReqs, hy] using h.waits y
  | some z =>
      have hzx : z ≠ x := fun hz => hno (hz ▸ ho)
      rw [grasp_busy (s := s.setReqs x rest) ho hzx]
      refine ⟨fun y => ?_, fun y => ?_, horder, fun hn => ?_, fun y hy => ?_⟩
      · by_cases hy : y = x
        · subst hy
          simp only [setReqs, Function.update_self, ownedBy_of_ne hno]
          simp at hox
          omega
        · simpa [setReqs, hy] using h.owns y
      · have hwy := h.waits y
        by_cases hy : y = x
        · subst hy
          simp only [setReqs, Function.update_self, List.count_append,
            List.count_singleton_self]
          omega
        · simp only [setReqs, Function.update_of_ne hy, List.count_append,
            List.count_singleton]
          rw [if_neg (by simpa using Ne.symm hy)]
          exact hwy
      · exact absurd (ho.symm.trans hn) (by simp)
      · have hyx : y ≠ x := fun he => hno (he ▸ hy)
        simpa [setReqs, hyx] using h.queued y hy

/-- Only the owner's return is ever at the head of a channel. -/
theorem Inv.owner_of_rls {s : State α} (h : Inv s) {x : α} {rest : List Req}
    (hr : s.reqs x = .rls :: rest) : s.owner = some x := by
  have ho := h.owns x
  rw [hr, List.count_cons_self] at ho
  by_contra hne
  rw [ownedBy_of_ne hne] at ho
  omega

theorem free_last {s : State α} {x : α} (h : s.owner = some x) (hq : s.queue = []) :
    s.free x = { s with owner := none } := by
  rw [free, if_pos h, hq]

theorem free_pass {s : State α} {x y : α} {q : List α} (h : s.owner = some x)
    (hq : s.queue = y :: q) :
    s.free x = { s with
      owner := some y
      queue := q
      grants := Function.update s.grants y (s.grants y + 1) } := by
  rw [free, if_pos h, hq]

theorem Inv.takeRls {s : State α} (h : Inv s) {x : α} {rest : List Req}
    (hr : s.reqs x = .rls :: rest) : Inv ((s.setReqs x rest).free x) := by
  have hown := h.owner_of_rls hr
  have hox := h.owns x
  have hwx := h.waits x
  rw [hr, List.count_cons_self, hown, ownedBy_self] at hox
  rw [hr, List.count_cons] at hwx
  have horder : ∀ y q, Function.update s.reqs x rest y = .acq :: q → Req.rls ∉ q := by
    intro y q hy
    by_cases hyx : y = x
    · subst hyx
      rw [Function.update_self] at hy
      exact h.order_tail hr hy
    · rw [Function.update_of_ne hyx] at hy
      exact h.order y q hy
  have hfree : (s.setReqs x rest).free x = match s.queue with
      | [] => { s.setReqs x rest with owner := none }
      | y :: q => { s.setReqs x rest with
          owner := some y
          queue := q
          grants := Function.update s.grants y (s.grants y + 1) } :=
    if_pos hown
  rw [hfree]
  cases hq : s.queue with
  | nil =>
      refine ⟨fun y => ?_, fun y => ?_, horder, fun _ => hq,
        fun y hy => (by cases hy)⟩ <;> by_cases hy : y = x
      · subst hy
        simp only [setReqs, Function.update_self, ownedBy_none]
        omega
      · have hoy := h.owns y
        rw [hown, ownedBy_ne hy] at hoy
        simpa [setReqs, hy] using hoy
      · subst hy
        simp only [setReqs, Function.update_self]
        simp at hwx
        omega
      · simpa [setReqs, hy] using h.waits y
  | cons z q =>
      have hzx : z ≠ x := fun hz =>
        h.queued x hown (hq ▸ hz ▸ List.mem_cons_self)
      have hzq : z ∉ q := by
        have hzw := h.waits z
        rw [hq, List.count_cons_self] at hzw
        have hle : (s.phase z).asked ≤ 1 := by cases s.phase z <;> simp [Phase.asked]
        exact List.count_eq_zero.mp (by omega)
      refine ⟨fun y => ?_, fun y => ?_, horder, fun hn => (by cases hn),
        fun y hy => Option.some.inj hy ▸ hzq⟩
      · have hoy := h.owns y
        by_cases hyz : y = z
        · subst hyz
          rw [hown, ownedBy_ne hzx] at hoy
          simp only [setReqs, Function.update_of_ne hzx, Function.update_self,
            ownedBy_self]
          omega
        · simp only [setReqs, Function.update_of_ne hyz, ownedBy_ne hyz]
          by_cases hy : y = x
          · subst hy
            simp only [Function.update_self]
            omega
          · rw [hown, ownedBy_ne hy] at hoy
            simpa [hy] using hoy
      · have hwy := h.waits y
        rw [hq] at hwy
        by_cases hyz : y = z
        · subst hyz
          rw [List.count_cons_self] at hwy
          simp only [setReqs, Function.update_of_ne hzx, Function.update_self]
          omega
        · rw [List.count_cons_of_ne (Ne.symm hyz)] at hwy
          simp only [setReqs, Function.update_of_ne hyz]
          by_cases hy : y = x
          · subst hy
            simp only [Function.update_self]
            rw [hr, List.count_cons] at hwy
            simpa using hwy
          · simpa [hy] using hwy

theorem Inv.takeGrant {s : State α} (h : Inv s) {x : α} {k : Nat}
    (hk : s.grants x = k + 1) : Inv ((s.setGrants x k).setPhase x .holding) := by
  have hox := h.owns x
  have hwx := h.waits x
  have hw : s.phase x = .waiting := by
    cases hp : s.phase x <;> simp [hp, Phase.asked] at hwx ⊢ <;> omega
  rw [hw] at hox hwx
  simp only [Phase.held, Phase.asked] at hox hwx
  refine ⟨fun y => ?_, fun y => ?_, h.order, h.empty, h.queued⟩ <;>
    by_cases hy : y = x
  · subst hy
    simp only [setPhase, setGrants, Function.update_self, Phase.held]
    omega
  · simpa [setPhase, setGrants, hy] using h.owns y
  · subst hy
    simp only [setPhase, setGrants, Function.update_self, Phase.asked]
    omega
  · simpa [setPhase, setGrants, hy] using h.waits y

/-! ## A manager that is a party itself

It sends itself no messages: its request, return or grant is made and read in
one go, which is two moves of the protocol on an empty channel. -/

theorem Inv.graspSelf_free {s : State α} (h : Inv s) {x : α}
    (hp : s.phase x = .idle) (hr : s.reqs x = []) (ho : s.owner = none)
    (hg : s.grants x = 0) :
    Inv { s with owner := some x, phase := Function.update s.phase x .holding } := by
  have h₁ := h.ask hp
  have hreq : ((s.setPhase x .waiting).setReqs x (s.reqs x ++ [.acq])).reqs x = [.acq] := by
    simp [setReqs, hr]
  have h₂ := h₁.takeAcq hreq
  rw [grasp_none (by exact ho)] at h₂
  have h₃ := h₂.takeGrant (x := x) (k := 0) (by simp [setReqs, setPhase, hg])
  convert h₃ using 1
  simp [setReqs, setPhase, setGrants, ← hr, ← hg]

theorem Inv.graspSelf_busy {s : State α} (h : Inv s) {x y : α}
    (hp : s.phase x = .idle) (hr : s.reqs x = []) (ho : s.owner = some y)
    (hne : y ≠ x) :
    Inv { s with
      queue := s.queue ++ [x], phase := Function.update s.phase x .waiting } := by
  have h₁ := h.ask hp
  have hreq : ((s.setPhase x .waiting).setReqs x (s.reqs x ++ [.acq])).reqs x = [.acq] := by
    simp [setReqs, hr]
  have h₂ := h₁.takeAcq hreq
  rw [grasp_busy (by exact ho) hne] at h₂
  convert h₂ using 1
  simp [setReqs, setPhase, ← hr]

theorem Inv.freeSelf {s : State α} (h : Inv s) {x : α}
    (hp : s.phase x = .holding) (hr : s.reqs x = []) :
    Inv ((s.setPhase x .idle).free x) := by
  have h₁ := h.giveBack hp
  have hreq : ((s.setPhase x .idle).setReqs x (s.reqs x ++ [.rls])).reqs x = [.rls] := by
    simp [setReqs, hr]
  have h₂ := h₁.takeRls hreq
  convert h₂ using 2
  simp [setReqs, setPhase, ← hr]

/-- A return that passes the token to the manager itself. -/
theorem Inv.freeTo {s : State α} (h : Inv s) {x m : α} {rest : List Req}
    {q : List α} (hr : s.reqs x = .rls :: rest) (hq : s.queue = m :: q)
    (hg : s.grants m = 0) :
    Inv { s with
      owner := some m
      queue := q
      reqs := Function.update s.reqs x rest
      phase := Function.update s.phase m .holding } := by
  have h₁ := h.takeRls hr
  have hfree : (s.setReqs x rest).free x = { s with
      owner := some m
      queue := q
      reqs := Function.update s.reqs x rest
      grants := Function.update s.grants m (s.grants m + 1) } := by
    rw [free, if_pos (by exact h.owner_of_rls hr)]
    simp [setReqs, hq]
  rw [hfree] at h₁
  have h₂ := h₁.takeGrant (x := m) (k := 0) (by simp [hg])
  convert h₂ using 1
  simp [setPhase, setGrants, ← hg]

/-! ## What the accounting says -/

/-- At most one party holds the token. -/
theorem Inv.exclusive {s : State α} (h : Inv s) {x y : α}
    (hx : s.phase x = .holding) (hy : s.phase y = .holding) : x = y := by
  have hox := h.owns x
  have hoy := h.owns y
  rw [hx] at hox
  rw [hy] at hoy
  simp only [Phase.held] at hox hoy
  have h1 : s.owner = some x := by
    by_contra hne
    rw [ownedBy_of_ne hne] at hox
    omega
  have h2 : s.owner = some y := by
    by_contra hne
    rw [ownedBy_of_ne hne] at hoy
    omega
  exact Option.some.inj (h1.symm.trans h2)

/-- With nothing in flight, a party that waits waits for one that holds. -/
theorem Inv.holder_of_waiting {s : State α} (h : Inv s)
    (hquiet : ∀ y, s.reqs y = [] ∧ s.grants y = 0) {x : α} (hx : s.phase x = .waiting) :
    ∃ y ≠ x, s.phase y = .holding := by
  have hqueue : 0 < s.queue.count x := by
    have hw := h.waits x
    rw [hx, (hquiet x).1, (hquiet x).2, List.count_nil] at hw
    simp only [Phase.asked] at hw
    omega
  cases ho : s.owner with
  | none =>
      rw [h.empty ho, List.count_nil] at hqueue
      omega
  | some y =>
      have hy := h.owns y
      rw [ho, ownedBy_self, (hquiet y).1, (hquiet y).2, List.count_nil] at hy
      have hp : s.phase y = .holding := by
        cases hp : s.phase y with
        | holding => rfl
        | idle | waiting => simp [hp, Phase.held] at hy
      refine ⟨y, fun he => ?_, hp⟩
      rw [he, hx] at hp
      cases hp

/-- A grant in flight goes to a party that waits. -/
theorem Inv.waiting_of_grant {s : State α} (h : Inv s) {x : α}
    (hg : 0 < s.grants x) : s.phase x = .waiting := by
  have hw := h.waits x
  cases hp : s.phase x <;> simp [hp, Phase.asked] at hw ⊢ <;> omega

end Midsm.Lib.TokenQueue
