import Midsm.Proofs.Conserve
import Midsm.Proofs.Diffs

/-!
# The diffs that `fetchDiff` asks for

A fault on an `INVALID` page walks the list of each other host down to the first
notice that has its diff, and asks for the diff of every notice on the way that is
after the page's start interval. The walk keeps a pointer into a list that the
handler of its replies searches from the head. The timestamps of a list being
distinct, the search finds the notice that the walk stands on and leaves what is
further down as the walk is going to find it.

`Ends` runs the fault with each request answered by a fixed diff.
-/

namespace Midsm

open Midsm.Lib

/-- A fault cut where it spins, each request being answered at once: `k` replies lead
to the end. -/
def answerDiffs (n me : Nat) (answer : Nat → Timestamp → Content) :
    Nat → Mem × Out × Pc → Option Mem
  | _, (m, _, .run) => some m
  | k + 1, (m, [(hostid, .fetchDiff _ ts)], .diffWait p pageTimestamp i rest) =>
      answerDiffs n me answer k (fetchDiffResume n me p pageTimestamp i rest
        (handleGrantDiffMsg hostid ts p (answer hostid ts) m))
  | _, _ => none

/-- `fetchDiff` with its requests answered: what it returns. -/
def fetchDiffAnswered (n me : Nat) (answer : Nat → Timestamp → Content) (k p : Nat)
    (m : Mem) : Option (Int × Mem) :=
  if maxPageNum ≤ p then some (-1, m)
  else if (m.pageArray p).state ≠ .invalid then some (-1, m)
  else (answerDiffs n me answer k (fetchDiff n me p m)).map fun m => (0, m)

/-! ## One list -/

/-- A notice is asked for: it is after the page's start interval. -/
def asked (n : Nat) (pageTimestamp : Option Timestamp) (wn : WriteNotice) : Bool :=
  pageTimestamp.all (isAfterInterval n wn.timestamp)

/-- The notices whose diffs are fetched: of the longest prefix without diffs those that
are asked for. -/
def missing (n : Nat) (pageTimestamp : Option Timestamp) (list : List WriteNotice) :
    List Timestamp :=
  ((list.takeWhile fun wn => wn.diffAddress.isNone).filter (asked n pageTimestamp)).map
    WriteNotice.timestamp

/-- The list with those diffs. -/
def served (n : Nat) (pageTimestamp : Option Timestamp) (diff : Timestamp → Content) :
    List WriteNotice → List WriteNotice
  | [] => []
  | wn :: rest =>
      if wn.diffAddress.isSome then wn :: rest
      else (if asked n pageTimestamp wn then { wn with diffAddress := some (diff wn.timestamp) }
        else wn) :: served n pageTimestamp diff rest

section

variable {n me p : Nat} {pts : Option Timestamp} {diff : Timestamp → Content}
  {answer : Nat → Timestamp → Content} {list front rest : List WriteNotice} {m : Mem}

theorem missing_cons (wn : WriteNotice) (rest : List WriteNotice) :
    missing n pts (wn :: rest) =
      if wn.diffAddress.isSome then []
      else if asked n pts wn then wn.timestamp :: missing n pts rest
      else missing n pts rest := by
  unfold missing
  rw [List.takeWhile_cons]
  cases hd : wn.diffAddress with
  | some d => rfl
  | none =>
      simp only [Option.isNone_none, if_true, Option.isSome_none, Bool.false_eq_true, if_false]
      rw [List.filter_cons]
      split
      · rw [List.map_cons]
      · rfl

/-- What the walk does at its next notice. -/
theorem nextDiff_cases (n : Nat) (pts : Option Timestamp) (diff : Timestamp → Content)
    (list : List WriteNotice) :
    (nextDiff n pts list = none ∧ missing n pts list = [] ∧ served n pts diff list = list) ∨
    ∃ skipped wn rest, list = skipped ++ wn :: rest ∧
      nextDiff n pts list = some (wn.timestamp, rest.length) ∧
      wn.diffAddress = none ∧
      missing n pts list = wn.timestamp :: missing n pts rest ∧
      served n pts diff list = skipped ++
        { wn with diffAddress := some (diff wn.timestamp) } :: served n pts diff rest := by
  induction list with
  | nil => exact Or.inl ⟨rfl, rfl, rfl⟩
  | cons wn rest ih =>
      rw [nextDiff, missing_cons, served]
      cases hd : wn.diffAddress with
      | some d => exact Or.inl ⟨rfl, rfl, rfl⟩
      | none =>
          simp only [Option.isSome_none, Bool.false_eq_true, if_false]
          by_cases ha : asked n pts wn = true
          · have ha' : (pts.all (isAfterInterval n wn.timestamp)) = true := ha
            rw [if_pos ha', if_pos ha, if_pos ha]
            exact Or.inr ⟨[], wn, rest, rfl, rfl, hd, rfl, rfl⟩
          · have ha' : ¬ (pts.all (isAfterInterval n wn.timestamp)) = true := ha
            rw [if_neg ha', if_neg ha, if_neg ha]
            rcases ih with ⟨h₁, h₂, h₃⟩ | ⟨skipped, wn', rest', rfl, h₁, hd', h₂, h₃⟩
            · exact Or.inl ⟨h₁, h₂, by rw [h₃]⟩
            · exact Or.inr ⟨wn :: skipped, wn', rest', rfl, h₁, hd', h₂, by
                rw [h₃, List.cons_append]⟩

/-- The search of the handler finds the notice that the walk stands on. -/
theorem findNotice_append {wn : WriteNotice}
    (hnd : ((front ++ wn :: rest).map WriteNotice.timestamp).Nodup) :
    findNotice wn.timestamp (front ++ wn :: rest) = some wn :=
  findNotice_of_mem hnd (List.mem_append_right _ List.mem_cons_self)

theorem setDiff_append {wn : WriteNotice} (d : Option Content)
    (hnd : ((front ++ wn :: rest).map WriteNotice.timestamp).Nodup) :
    setDiff wn.timestamp d (front ++ wn :: rest) =
      front ++ { wn with diffAddress := d } :: rest := by
  induction front with
  | nil =>
      rw [List.nil_append, setDiff, if_pos rfl]
      rfl
  | cons w front ih =>
      rw [List.cons_append, List.map_cons, List.nodup_cons] at hnd
      have hne : w.timestamp ≠ wn.timestamp := fun he =>
        hnd.1 (he ▸ List.mem_map_of_mem (List.mem_append_right _ List.mem_cons_self))
      rw [List.cons_append, setDiff, if_neg hne, ih hnd.2]
      rfl

/-! ## The memory on the way -/

/-- The memory while `fetchDiff` runs: diffs are stored in the lists of the page and
added to its content, and the page cannot be accessed. -/
def Mem.walked (p : Nat) (lists : Nat → List WriteNotice) (sum : Content) (flag : Bool)
    (m : Mem) : Mem :=
  { m.setPage p { m.pageArray p with
      notices := lists
      content := (m.pageArray p).patched sum
      prot := .none } with
    fetchDiffWaitFlag := flag }

/-- `segv_handler` after `fetchDiff`. -/
def Mem.readable (p : Nat) (m : Mem) : Mem :=
  m.setPage p { m.pageArray p with state := .rdonly, prot := .read }

@[simp] theorem walked_self (lists : Nat → List WriteNotice) (sum : Content) (flag : Bool) :
    (m.walked p lists sum flag).pageArray p = { m.pageArray p with
      notices := lists
      content := (m.pageArray p).patched sum
      prot := .none } := upd_self ..

theorem Page.patched_zero (page : Page) : page.patched 0 = page.content :=
  Page.patched_eq_self.mpr (Or.inr rfl)

/-- A walk without requests. -/
theorem walked_readable (p : Nat) (m : Mem) :
    (m.walked p (m.pageArray p).notices 0 m.fetchDiffWaitFlag).readable p = m.readable p := by
  unfold Mem.readable
  rw [walked_self, Page.patched_zero]
  unfold Mem.walked Mem.setPage
  dsimp only
  rw [upd_upd]

theorem walked_walked (lists lists' : Nat → List WriteNotice) (sum sum' : Content)
    (flag flag' : Bool) : (m.walked p lists sum flag).walked p lists' sum' flag' =
      m.walked p lists' (sum + sum') flag' := by
  have hpatched : ({ m.pageArray p with
      notices := lists
      content := (m.pageArray p).patched sum
      prot := .none } : Page).patched sum' =
      (m.pageArray p).patched (sum + sum') := by
    unfold Page.patched
    dsimp only
    split
    · rfl
    · rw [add_assoc]
  unfold Mem.walked
  dsimp only
  rw [setPage_self, hpatched]
  unfold Mem.setPage
  dsimp only
  rw [upd_upd]

/-- A reply for the notice that the walk stands on. -/
theorem handleGrantDiffMsg_walked {i : Nat} {wn : WriteNotice} (d : Content)
    (hl : (m.pageArray p).notices i = front ++ wn :: rest) (hd : wn.diffAddress = none)
    (hnd : (((m.pageArray p).notices i).map WriteNotice.timestamp).Nodup) :
    handleGrantDiffMsg i wn.timestamp p d { m with fetchDiffWaitFlag := true } =
      m.walked p (upd (m.pageArray p).notices i
        (front ++ { wn with diffAddress := some d } :: rest)) d false := by
  rw [hl] at hnd
  have hfind : findNotice wn.timestamp ((m.pageArray p).notices i) = some wn := by
    rw [hl]
    exact findNotice_append hnd
  rw [handleGrantDiffMsg_first (m := { m with fetchDiffWaitFlag := true }) hfind hd, hl,
    setDiff_append _ hnd]
  rfl

/-! ## The walk -/

/-- A fault that ends, its requests being answered. -/
def Ends (n me : Nat) (answer : Nat → Timestamp → Content) (r : Mem × Out × Pc)
    (m' : Mem) : Prop :=
  ∃ k, answerDiffs n me answer k r = some m'

theorem Ends.run (out : Out) : Ends n me answer (m, out, .run) m := ⟨0, by rw [answerDiffs]⟩

theorem Ends.reply {m' : Mem} {hostid i left : Nat} {ts : Timestamp}
    (h : Ends n me answer (fetchDiffResume n me p pts i left
      (handleGrantDiffMsg hostid ts p (answer hostid ts) m)) m') :
    Ends n me answer (m, [(hostid, .fetchDiff p ts)], .diffWait p pts i left) m' := by
  obtain ⟨k, hk⟩ := h
  exact ⟨k + 1, by rw [answerDiffs]; exact hk⟩

/-- The lists of a page once the hosts have been visited. -/
def servedLists (n me : Nat) (pts : Option Timestamp) (answer : Nat → Timestamp → Content)
    (hosts : List Nat) (lists : Nat → List WriteNotice) : Nat → List WriteNotice :=
  fun j => if j ∈ hosts ∧ j ≠ me then served n pts (answer j) (lists j) else lists j

/-- The diffs that are fetched from the hosts. -/
def fetchedDiffs (n me : Nat) (pts : Option Timestamp) (answer : Nat → Timestamp → Content)
    (hosts : List Nat) (lists : Nat → List WriteNotice) : List Content :=
  (hosts.filter (· ≠ me)).flatMap fun j => (missing n pts (lists j)).map (answer j)

/-- The memory that a walk over the hosts ends with. -/
def walkEnd (n me p : Nat) (pts : Option Timestamp) (answer : Nat → Timestamp → Content)
    (hosts : List Nat) (flag : Bool) (m : Mem) : Mem :=
  (m.walked p (servedLists n me pts answer hosts (m.pageArray p).notices)
    (fetchedDiffs n me pts answer hosts (m.pageArray p).notices).sum flag).readable p

theorem servedLists_upd {hosts : List Nat} {lists : Nat → List WriteNotice} {i : Nat}
    (hi : i ∉ hosts) (him : i ≠ me) :
    servedLists n me pts answer hosts (upd lists i (served n pts (answer i) (lists i))) =
      servedLists n me pts answer (i :: hosts) lists := by
  funext j
  unfold servedLists
  by_cases hj : j = i
  · subst hj
    rw [if_neg fun h => hi h.1, if_pos ⟨List.mem_cons_self, him⟩, upd_self]
  · rw [upd_ne hj]
    simp only [List.mem_cons, hj, false_or]

theorem fetchedDiffs_upd {hosts : List Nat} {lists : Nat → List WriteNotice} {i : Nat}
    (hi : i ∉ hosts) (list : List WriteNotice) :
    fetchedDiffs n me pts answer hosts (upd lists i list) =
      fetchedDiffs n me pts answer hosts lists := by
  unfold fetchedDiffs
  refine List.flatMap_congr fun j hj => ?_
  have hj : j ≠ i := by
    rintro rfl
    exact hi (List.mem_of_mem_filter hj)
  rw [upd_ne hj]

/-- The next request, the walk standing at `rest` in the list of host `i`. -/
def nextFrom (n me : Nat) (pts : Option Timestamp) (page : Page) (i : Nat)
    (rest : List WriteNotice) (hosts : List Nat) : Option (Nat × Timestamp × Nat) :=
  match nextDiff n pts rest with
  | some (ts, left) => some (i, ts, left)
  | none => nextDiffHost n me pts page hosts

theorem nextFrom_some {page : Page} {i left : Nat} {ts : Timestamp} {hosts : List Nat}
    (h : nextDiff n pts rest = some (ts, left)) :
    nextFrom n me pts page i rest hosts = some (i, ts, left) := by
  rw [nextFrom, h]

theorem nextFrom_none {page : Page} {i : Nat} {hosts : List Nat}
    (h : nextDiff n pts rest = none) :
    nextFrom n me pts page i rest hosts = nextDiffHost n me pts page hosts := by
  rw [nextFrom, h]

theorem nextDiffHost_cons {page : Page} {i : Nat} {hosts : List Nat} (hi : i ≠ me) :
    nextDiffHost n me pts page (i :: hosts) =
      nextFrom n me pts page i (page.notices i) hosts := by
  rw [nextDiffHost, if_neg hi]
  unfold nextFrom
  cases nextDiff n pts (page.notices i) with
  | none => rfl
  | some x => rfl

/-- The walk goes on where it stood. -/
theorem fetchDiffResume_eq {i : Nat}
    (hl : (m.pageArray p).notices i = front ++ rest) :
    fetchDiffResume n me p pts i rest.length m =
      requestDiff p pts (nextFrom n me pts (m.pageArray p) i rest
        (List.range' (i + 1) (n - (i + 1)))) m := by
  have hdrop : (front ++ rest).drop ((front ++ rest).length - rest.length) = rest :=
    List.drop_left' (by simp)
  unfold fetchDiffResume
  dsimp only
  rw [hl, hdrop]
  unfold nextFrom
  cases nextDiff n pts rest with
  | none => rfl
  | some x => rfl

/-- The inner loop, standing at `rest` in the list of host `i`, given what the outer
loop does after it. -/
theorem walk_list {i : Nat} {hosts : List Nat} (hi : i ∉ hosts)
    (hhosts : hosts = List.range' (i + 1) (n - (i + 1)))
    (ih : ∀ m : Mem, (∀ j ∈ hosts, j ≠ me →
        (((m.pageArray p).notices j).map WriteNotice.timestamp).Nodup) →
      ∃ flag, Ends n me answer
        (requestDiff p pts (nextDiffHost n me pts (m.pageArray p) hosts) m)
        (walkEnd n me p pts answer hosts flag m))
    (hl : (m.pageArray p).notices i = front ++ rest)
    (hnd : (((m.pageArray p).notices i).map WriteNotice.timestamp).Nodup)
    (hnds : ∀ j ∈ hosts, j ≠ me →
      (((m.pageArray p).notices j).map WriteNotice.timestamp).Nodup) :
    ∃ flag, Ends n me answer
      (requestDiff p pts (nextFrom n me pts (m.pageArray p) i rest hosts) m)
      ((m.walked p (servedLists n me pts answer hosts (upd (m.pageArray p).notices i
          (front ++ served n pts (answer i) rest)))
        (((missing n pts rest).map (answer i)).sum +
          (fetchedDiffs n me pts answer hosts (m.pageArray p).notices).sum)
        flag).readable p) := by
  induction hlen : rest.length using Nat.strong_induction_on generalizing rest front m with
  | _ len ihl =>
      rcases nextDiff_cases n pts (answer i) rest with
        ⟨hnext, hmiss, hserved⟩ | ⟨skipped, wn, rest', hrest, hnext, hd, hmiss, hserved⟩
      · rw [nextFrom_none hnext, hmiss, hserved, ← hl, upd_eta, List.map_nil, List.sum_nil, zero_add]
        exact ih m hnds
      · rw [nextFrom_some hnext, hmiss, hserved, List.map_cons, List.sum_cons]
        rw [hrest, ← List.append_assoc] at hl
        -- the reply stores the diff; what follows the notice is as it was
        have hreply := handleGrantDiffMsg_walked (answer i wn.timestamp) hl hd hnd
        revert hreply
        generalize hlist : (front ++ skipped) ++
          { wn with diffAddress := some (answer i wn.timestamp) } :: rest' = list
        generalize hm₁ : m.walked p (upd (m.pageArray p).notices i list)
          (answer i wn.timestamp) false = m₁
        intro hreply
        have hlists : (m₁.pageArray p).notices = upd (m.pageArray p).notices i list := by
          rw [← hm₁, walked_self]
        have hkeys : list.map WriteNotice.timestamp =
            ((m.pageArray p).notices i).map WriteNotice.timestamp := by
          rw [← hlist, hl, List.map_append, List.map_append,
            List.map_append, List.map_append]
          rfl
        have hfront : (m₁.pageArray p).notices i = (front ++ skipped ++
            [{ wn with diffAddress := some (answer i wn.timestamp) }]) ++ rest' := by
          rw [hlists, upd_self, ← hlist, ← List.append_cons]
        obtain ⟨flag, hends⟩ := ihl rest'.length (by rw [← hlen, hrest]; simp; omega) hfront
          (by rw [hlists, upd_self, hkeys]; exact hnd)
          (fun j hj hjm => by
            rw [hlists, upd_ne (by rintro rfl; exact hi hj)]
            exact hnds j hj hjm)
          rfl
        refine ⟨flag, Ends.reply ?_⟩
        rw [hreply, fetchDiffResume_eq hfront, ← hhosts]
        rw [hlists, upd_upd, fetchedDiffs_upd hi] at hends
        rw [← hm₁, walked_walked] at hends
        rw [← hm₁]
        simpa only [List.append_assoc, List.singleton_append, add_assoc] using hends

theorem fetchedDiffs_cons {hosts : List Nat} {lists : Nat → List WriteNotice} {i : Nat}
    (hi : i ≠ me) : fetchedDiffs n me pts answer (i :: hosts) lists =
      (missing n pts (lists i)).map (answer i) ++ fetchedDiffs n me pts answer hosts lists := by
  rw [fetchedDiffs, List.filter_cons_of_pos (by simpa using hi), List.flatMap_cons]
  rfl

theorem walkEnd_me (flag : Bool) (hosts : List Nat) :
    walkEnd n me p pts answer (me :: hosts) flag m = walkEnd n me p pts answer hosts flag m := by
  have hlists : ∀ lists, servedLists n me pts answer (me :: hosts) lists =
      servedLists n me pts answer hosts lists := by
    intro lists
    funext j
    unfold servedLists
    by_cases hj : j = me
    · rw [if_neg fun h => h.2 hj, if_neg fun h => h.2 hj]
    · simp only [List.mem_cons, hj, false_or]
  have hdiffs : ∀ lists, fetchedDiffs n me pts answer (me :: hosts) lists =
      fetchedDiffs n me pts answer hosts lists := by
    intro lists
    rw [fetchedDiffs, List.filter_cons_of_neg (by simp)]
    rfl
  rw [walkEnd, hlists, hdiffs]
  rfl

/-- The outer loop, by the number of hosts that it has still to visit. -/
theorem walk_hosts (n me p : Nat) (pts : Option Timestamp)
    (answer : Nat → Timestamp → Content) (c : Nat) : ∀ {a : Nat}, a + c = n → ∀ m : Mem,
      (∀ j ∈ List.range' a c, j ≠ me →
        (((m.pageArray p).notices j).map WriteNotice.timestamp).Nodup) →
      ∃ flag, Ends n me answer
        (requestDiff p pts (nextDiffHost n me pts (m.pageArray p) (List.range' a c)) m)
        (walkEnd n me p pts answer (List.range' a c) flag m) := by
  induction c with
  | zero =>
      intro a _ m _
      refine ⟨m.fetchDiffWaitFlag, ?_⟩
      have hend : walkEnd n me p pts answer [] m.fetchDiffWaitFlag m = m.readable p := by
        have hlists : servedLists n me pts answer [] (m.pageArray p).notices =
            (m.pageArray p).notices := by
          funext j
          exact if_neg fun h => absurd h.1 List.not_mem_nil
        rw [walkEnd, hlists, fetchedDiffs, List.filter_nil, List.flatMap_nil, List.sum_nil,
          walked_readable]
      rw [List.range'_zero, hend]
      exact .run []
  | succ c ih =>
      intro a ha m hnds
      rw [List.range'_succ] at hnds ⊢
      have ih := ih (a := a + 1) (by omega)
      have hnds' : ∀ j ∈ List.range' (a + 1) c, j ≠ me →
          (((m.pageArray p).notices j).map WriteNotice.timestamp).Nodup :=
        fun j hj => hnds j (List.mem_cons_of_mem a hj)
      by_cases hme : a = me
      · subst hme
        obtain ⟨flag, hends⟩ := ih m hnds'
        refine ⟨flag, ?_⟩
        rw [walkEnd_me, nextDiffHost, if_pos rfl]
        exact hends
      · have hnot : a ∉ List.range' (a + 1) c := by
          rw [List.mem_range']
          omega
        have hhosts : List.range' (a + 1) c = List.range' (a + 1) (n - (a + 1)) := by
          rw [show n - (a + 1) = c by omega]
        have hl : (m.pageArray p).notices a = [] ++ (m.pageArray p).notices a := rfl
        obtain ⟨flag, hends⟩ := walk_list hnot hhosts ih hl (hnds a List.mem_cons_self hme) hnds'
        refine ⟨flag, ?_⟩
        rw [nextDiffHost_cons hme, walkEnd, fetchedDiffs_cons hme, List.sum_append,
          ← servedLists_upd hnot hme]
        exact hends

/-! ## The result -/

theorem missing_subset {ts : Timestamp} (h : ts ∈ missing n pts list) :
    ts ∈ list.map WriteNotice.timestamp := by
  obtain ⟨wn, hwn, rfl⟩ := List.mem_map.mp h
  exact List.mem_map_of_mem ((List.takeWhile_prefix _).mem (List.mem_of_mem_filter hwn))

/-- A list's timestamps being distinct, the diffs are stored by timestamp. -/
theorem served_eq_map (hnd : (list.map WriteNotice.timestamp).Nodup) :
    served n pts diff list = list.map fun wn =>
      if wn.timestamp ∈ missing n pts list then
        { wn with diffAddress := some (diff wn.timestamp) }
      else wn := by
  induction list with
  | nil => rfl
  | cons wn rest ih =>
      rw [List.map_cons, List.nodup_cons] at hnd
      obtain ⟨hwn, hnd⟩ := hnd
      rw [served, missing_cons]
      split
      · rw [List.map_congr_left fun wn _ => if_neg List.not_mem_nil, List.map_id']
      · rw [List.map_cons, ih hnd]
        by_cases ha : asked n pts wn = true
        · rw [if_pos ha, if_pos ha, if_pos List.mem_cons_self]
          congr 1
          refine List.map_congr_left fun w hw => ?_
          have hne : w.timestamp ≠ wn.timestamp := fun he => hwn (he ▸ List.mem_map_of_mem hw)
          simp only [List.mem_cons, hne, false_or]
        · rw [if_neg ha, if_neg ha, if_neg fun h => hwn (missing_subset h)]

/-- The memory after `fetchDiff`: each notice of another host that is missing its diff has
its own one, and the page has them all added to it. The last segment of the fault also
makes the page readable. -/
structure MissingFetched (n me : Nat) (answer : Nat → Timestamp → Content) (p : Nat)
    (m m' : Mem) : Prop where
  stored : ∀ i < n, i ≠ me → (m'.pageArray p).notices i =
    ((m.pageArray p).notices i).map fun wn =>
      if wn.timestamp ∈ missing n (m.pageArray p).startInterval ((m.pageArray p).notices i) then
        { wn with diffAddress := some (answer i wn.timestamp) }
      else wn
  applied : (m'.pageArray p).memory = (m.pageArray p).memory.map (· +
    (((List.range n).filter (· ≠ me)).flatMap fun i =>
      (missing n (m.pageArray p).startInterval ((m.pageArray p).notices i)).map
        (answer i)).sum)
  own : (m'.pageArray p).notices me = (m.pageArray p).notices me
  beyond : ∀ i, n ≤ i → (m'.pageArray p).notices i = (m.pageArray p).notices i
  page : m'.pageArray p = { m.pageArray p with
    state := .rdonly
    notices := (m'.pageArray p).notices
    content := (m'.pageArray p).content
    prot := .read }
  pages : ∀ q ≠ p, m'.pageArray q = m.pageArray q
  rest : m' = { m with
    pageArray := m'.pageArray
    fetchDiffWaitFlag := m'.fetchDiffWaitFlag }

theorem walkEnd_page (hosts : List Nat) (flag : Bool) :
    (walkEnd n me p pts answer hosts flag m).pageArray p = { m.pageArray p with
      state := .rdonly
      notices := servedLists n me pts answer hosts (m.pageArray p).notices
      content := (m.pageArray p).patched
        (fetchedDiffs n me pts answer hosts (m.pageArray p).notices).sum
      prot := .read } := by
  rw [walkEnd, Mem.readable, setPage_self, walked_self]

theorem walkEnd_pages (hosts : List Nat) (flag : Bool) {q : Nat} (hq : q ≠ p) :
    (walkEnd n me p pts answer hosts flag m).pageArray q = m.pageArray q := by
  rw [walkEnd, Mem.readable, setPage_ne hq]
  exact upd_ne hq

theorem Page.memory_patched {page page' : Page} {sum : Content}
    (ha : page'.address = page.address) (hc : page'.content = page.patched sum) :
    page'.memory = page.memory.map (· + sum) := by
  unfold Page.memory
  rw [ha, hc]
  unfold Page.patched
  split
  · rfl
  · rfl

theorem walkEnd_fetched (flag : Bool) (hnd : ∀ i < n, i ≠ me →
      (((m.pageArray p).notices i).map WriteNotice.timestamp).Nodup) :
    MissingFetched n me answer p m
      (walkEnd n me p (m.pageArray p).startInterval answer (List.range n) flag m) where
  stored i hi him := by
    rw [walkEnd_page]
    dsimp only
    rw [servedLists, if_pos ⟨List.mem_range.mpr hi, him⟩, served_eq_map (hnd i hi him)]
  applied := Page.memory_patched (by rw [walkEnd_page]) (by rw [walkEnd_page]; rfl)
  own := by
    rw [walkEnd_page]
    exact if_neg fun h => h.2 rfl
  beyond i hi := by
    rw [walkEnd_page]
    exact if_neg fun h => absurd (List.mem_range.mp h.1) (by omega)
  page := by rw [walkEnd_page]
  pages _ hq := walkEnd_pages _ flag hq
  rest := rfl

/-- `fetchDiff` returns 0 and has fetched exactly the diffs that were missing, when each
request is answered with one fixed diff. -/
theorem fetchDiff_fetches_missing (n me p : Nat) (answer : Nat → Timestamp → Content) (m : Mem)
    (hp : p < maxPageNum) (hs : (m.pageArray p).state = .invalid)
    (hnd : ∀ i < n, i ≠ me →
      (((m.pageArray p).notices i).map WriteNotice.timestamp).Nodup) :
    ∃ k m', fetchDiffAnswered n me answer k p m = some (0, m') ∧
      MissingFetched n me answer p m m' := by
  obtain ⟨flag, k, hk⟩ := walk_hosts n me p (m.pageArray p).startInterval answer n
    (Nat.zero_add n) m fun i hi him => hnd i (by
      obtain ⟨j, hj, rfl⟩ := List.mem_range'.mp hi
      omega) him
  rw [← List.range_eq_range'] at hk
  refine ⟨k, _, ?_, walkEnd_fetched flag hnd⟩
  rw [fetchDiffAnswered, if_neg (by omega), if_neg (not_not.mpr hs), fetchDiff, hk]
  rfl

end

/-- Of three notices of host 1, only the newest one misses its diff: the next one is not
after the start interval, and the last one has a diff. -/
def threeNotices : Mem :=
  let stamp (k : Int) : Timestamp := fun j => if j.val = 1 then k else 0
  { initmem 0 with
    pageArray := fun _ => ⟨startAddress, .invalid, fun i =>
      if i = 1 then [⟨stamp 3, none⟩, ⟨stamp 2, none⟩, ⟨stamp 1, some 1⟩] else [],
      none, some (stamp 2), 5, .none⟩ }

theorem fetchDiff_fetches_missing_three :
    ∃ k m', fetchDiffAnswered 2 0 (fun _ _ => 7) k 0 threeNotices = some (0, m') ∧
      ((m'.pageArray 0).notices 1).map (fun wn => wn.diffAddress.map (· 0)) =
        [some 7, none, some 1] ∧
      (m'.pageArray 0).memory.map (· 0) = some 12 := by
  obtain ⟨k, m', hk, hf⟩ := fetchDiff_fetches_missing 2 0 0 (fun _ _ => 7) threeNotices
    (by decide) rfl (by decide)
  refine ⟨k, m', hk, ?_, ?_⟩
  · rw [hf.stored 1 (by decide) (by decide)]
    decide
  · rw [hf.applied]
    decide

end Midsm
