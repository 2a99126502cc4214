import Midsm.Proofs.Armed

/-!
# What a packet changes

`incorporateWnPacket` finds the interval of the packet by its timestamp, or enters
it, and appends the pages that are not on its list yet. A page that is appended gets
a notice, and is invalidated if it could be accessed. A page that occurs again in the
packet is on the list by then, so taking in the packet a second time finds every page
there and changes nothing, and page faults do not touch the lists of other hosts.
-/

namespace Midsm

open Midsm.Lib

/-! ## The list of a host -/

/-- Pages added to the interval with a timestamp. -/
def extend (ts : Timestamp) (pages : List Nat) (list : List Interval) : List Interval :=
  list.map fun interval =>
    if interval.timestamp = ts then { interval with notices := interval.notices ++ pages }
    else interval

section

variable {n me p j : Nat} {ts : Timestamp} {m m' : Mem} {list : List Interval}
  {pages : List Nat}

theorem extend_nil (ts : Timestamp) (list : List Interval) : extend ts [] list = list := by
  unfold extend
  refine (List.map_congr_left fun interval _ => ?_).trans (List.map_id list)
  split
  · rw [List.append_nil]
    rfl
  · rfl

theorem extend_extend (ts : Timestamp) (pages pages' : List Nat) (list : List Interval) :
    extend ts pages' (extend ts pages list) = extend ts (pages ++ pages') list := by
  unfold extend
  rw [List.map_map]
  refine List.map_congr_left fun interval _ => ?_
  by_cases h : interval.timestamp = ts
  · simp only [Function.comp_apply, h, if_true, List.append_assoc]
  · simp only [Function.comp_apply, h, if_false]

theorem extend_timestamps (ts : Timestamp) (pages : List Nat) (list : List Interval) :
    (extend ts pages list).map Interval.timestamp = list.map Interval.timestamp := by
  unfold extend
  rw [List.map_map]
  refine List.map_congr_left fun interval _ => ?_
  by_cases h : interval.timestamp = ts
  · simp only [Function.comp_apply, h, if_true]
  · simp only [Function.comp_apply, h, if_false]

theorem timestamp_ne_of_head {interval i : Interval}
    (h : interval.timestamp ∉ list.map Interval.timestamp) (hi : i ∈ list) :
    i.timestamp ≠ interval.timestamp := by
  intro he
  rw [← he] at h
  exact h (List.mem_map_of_mem hi)

/-- No other interval has the timestamp, so the first one is the one. -/
theorem appendNotice_eq_extend (h : (list.map Interval.timestamp).Nodup) (p : Nat) :
    appendNotice ts p list = extend ts [p] list := by
  induction list with
  | nil => rfl
  | cons interval rest ih =>
      rw [List.map_cons, List.nodup_cons] at h
      rw [appendNotice, extend, List.map_cons]
      split
      · next he =>
          congr 1
          refine ((List.map_congr_left fun i hi => ?_).trans (List.map_id rest)).symm
          rw [if_neg (he ▸ timestamp_ne_of_head h.1 hi)]
          rfl
      · rw [ih h.2]
        rfl

theorem noticesOf_extend (h : ts ∈ list.map Interval.timestamp) (pages : List Nat) :
    noticesOf ts (extend ts pages list) = noticesOf ts list ++ pages := by
  induction list with
  | nil => cases h
  | cons interval rest ih =>
      unfold noticesOf at ih ⊢
      rw [extend, List.map_cons]
      by_cases he : interval.timestamp = ts
      · rw [if_pos he, List.find?_cons_of_pos (by simpa using he),
          List.find?_cons_of_pos (by simpa using he)]
        rfl
      · rw [if_neg he, List.find?_cons_of_neg (by simpa using he),
          List.find?_cons_of_neg (by simpa using he)]
        exact ih ((List.mem_cons.mp h).resolve_left (Ne.symm he))

theorem noticesOf_unknown (h : ts ∉ list.map Interval.timestamp) : noticesOf ts list = [] := by
  unfold noticesOf
  rw [List.find?_eq_none.mpr]
  · rfl
  · intro interval hm he
    exact h (of_decide_eq_true he ▸ List.mem_map_of_mem hm)

/-- The record of a timestamp is one interval. -/
theorem filter_timestamp (hnd : (list.map Interval.timestamp).Nodup)
    (h : ts ∈ list.map Interval.timestamp) :
    ∃ interval, list.filter (fun i => i.timestamp = ts) = [interval] ∧
      interval.notices = noticesOf ts list := by
  induction list with
  | nil => cases h
  | cons interval rest ih =>
      rw [List.map_cons, List.nodup_cons] at hnd
      unfold noticesOf at ih ⊢
      by_cases he : interval.timestamp = ts
      · have hrest : rest.filter (fun i => i.timestamp = ts) = [] := by
          rw [List.filter_eq_nil_iff]
          intro i hi hts
          exact timestamp_ne_of_head hnd.1 hi ((of_decide_eq_true hts).trans he.symm)
        refine ⟨interval, ?_, ?_⟩
        · rw [List.filter_cons_of_pos (by simpa using he), hrest]
        · rw [List.find?_cons_of_pos (by simpa using he)]
          rfl
      · rw [List.filter_cons_of_neg (by simpa using he),
          List.find?_cons_of_neg (by simpa using he)]
        exact ih hnd.2 ((List.mem_cons.mp h).resolve_left (Ne.symm he))

theorem filter_extend (ts : Timestamp) (pages : List Nat) (list : List Interval) :
    (extend ts pages list).filter (fun i => i.timestamp ≠ ts) =
      list.filter fun i => i.timestamp ≠ ts := by
  induction list with
  | nil => rfl
  | cons interval rest ih =>
      rw [extend, List.map_cons]
      by_cases he : interval.timestamp = ts
      · rw [if_pos he, List.filter_cons_of_neg (by simpa using he),
          List.filter_cons_of_neg (by simpa using he)]
        exact ih
      · rw [if_neg he, List.filter_cons_of_pos (by simpa using he),
          List.filter_cons_of_pos (by simpa using he)]
        exact congrArg _ ih

/-! ## One notice -/

/-- The page after a notice of host `j`. -/
structure Page.Noticed (me j : Nat) (ts : Timestamp) (page page' : Page) : Prop where
  head : page'.notices j = ⟨ts, none⟩ :: page.notices j
  others : ∀ i, i ≠ j → i ≠ me → page'.notices i = page.notices i
  state : page'.state =
    if page.state = .rdonly ∨ page.state = .write then .invalid else page.state
  /-- The newest own notice of a `WRITE` page gets the diff to the twin. -/
  closed : page.state = .write → ∃ wn rest twin, page.notices me = wn :: rest ∧
    page.twinPage = some twin ∧ page'.twinPage = none ∧
    page'.notices me = { wn with diffAddress := some fun i => page.content i - twin i } :: rest
  kept : page.state ≠ .write →
    page'.notices me = page.notices me ∧ page'.twinPage = page.twinPage
  content : page'.content = page.content
  address : page'.address = page.address
  startInterval : page'.startInterval = page.startInterval

theorem setPage_eta (p : Nat) (m : Mem) : m.setPage p (m.pageArray p) = m :=
  congrArg (fun pages => { m with pageArray := pages }) (upd_eta ..)

theorem record_setPage (j : Nat) (ts : Timestamp) (page : Page) :
    (m.setPage p page).record j ts p =
      { m.setPage p { page with notices := upd page.notices j (⟨ts, none⟩ :: page.notices j) } with
        procArray := upd m.procArray j (appendNotice ts p (m.procArray j)) } := by
  unfold Mem.record
  rw [setPage_self, setPage_setPage]
  rfl

/-- A notice that the list does not have yet. -/
theorem incorporateNotice_new (hj : j ≠ me) (hp : p < maxPageNum)
    (ha : (m.pageArray p).Armed me) (hnew : p ∉ noticesOf ts (m.procArray j)) :
    ∃ page, incorporateNotice me j ts m p = { m.setPage p page with
        procArray := upd m.procArray j (appendNotice ts p (m.procArray j)) } ∧
      (m.pageArray p).Noticed me j ts page := by
  rw [incorporateNotice_eq, if_neg hnew]
  cases hs : (m.pageArray p).state with
  | rdonly =>
      have hi : invalidatePage me p m =
          m.setPage p { m.pageArray p with state := .invalid, prot := .none } := by
        unfold invalidatePage
        dsimp only
        rw [hs]
      rw [hi, record_setPage]
      refine ⟨_, rfl, upd_self .., fun i hij _ => upd_ne hij, ?_, ?_, ?_, rfl, rfl, rfl⟩
      · rw [if_pos (Or.inl hs)]
      · rw [hs]
        exact nofun
      · exact fun _ => ⟨upd_ne hj.symm, rfl⟩
  | write =>
      obtain ⟨twin, ht⟩ := Option.ne_none_iff_exists'.mp (ha.twin.mpr hs)
      obtain ⟨wn, rest, hl⟩ := List.exists_cons_of_ne_nil (ha.noted hs)
      have haddr := ha.address (by rw [hs]; exact nofun)
      have hdiff : createLocalDiff (m.pageArray p).memory (m.pageArray p).twinPage =
          some fun i => (m.pageArray p).content i - twin i := by
        rw [Page.memory, if_neg haddr, ht]
        rfl
      have hi : invalidatePage me p m = m.setPage p { m.pageArray p with
          state := .invalid
          twinPage := none
          notices := upd (m.pageArray p).notices me
            ({ wn with diffAddress := some fun i => (m.pageArray p).content i - twin i } ::
              rest)
          prot := .none } := by
        unfold invalidatePage
        dsimp only
        rw [hs]
        dsimp only
        rw [hl, hdiff, freeTwinPage_succeeds hp, setPage_self, setPage_setPage, setPage_self, setPage_setPage]
        · rw [setPage_self]
          exact ⟨nofun, nofun⟩
        · rw [setPage_self]
          exact haddr
        · rw [setPage_self]
          exact ha.twin.mpr hs
      rw [hi, record_setPage]
      refine ⟨_, rfl, ?_, fun i hij him => ?_, ?_, fun _ => ?_, fun h => absurd hs h, rfl, rfl,
        rfl⟩
      · dsimp only
        rw [upd_self, upd_ne hj]
      · dsimp only
        rw [upd_ne hij, upd_ne him]
      · rw [if_pos (Or.inr hs)]
      · refine ⟨wn, rest, twin, hl, ht, rfl, ?_⟩
        dsimp only
        rw [upd_ne hj.symm, upd_self]
  | unmap | miss | invalid =>
      have hi : invalidatePage me p m = m.setPage p (m.pageArray p) := by
        rw [setPage_eta]
        unfold invalidatePage
        dsimp only
        rw [hs]
      rw [hi, record_setPage]
      refine ⟨_, rfl, upd_self .., fun i hij _ => upd_ne hij, ?_, ?_, ?_, rfl, rfl, rfl⟩
      · rw [if_neg (by rw [hs]; exact fun h => h.elim nofun nofun)]
      · rw [hs]
        exact nofun
      · exact fun _ => ⟨upd_ne hj.symm, rfl⟩

/-! ## The pages of a packet -/

/-- The pages that a list does not have, in order and each once. -/
def fresh (old pages : List Nat) : List Nat := (pages.filter (· ∉ old)).eraseDups

theorem mem_fresh {old : List Nat} : p ∈ fresh old pages ↔ p ∈ pages ∧ p ∉ old := by
  rw [fresh, List.mem_eraseDups, List.mem_filter, decide_eq_true_eq]

theorem nodup_eraseDups (len : Nat) : ∀ pages : List Nat, pages.length = len →
    pages.eraseDups.Nodup := by
  induction len using Nat.strong_induction_on with
  | _ len ih =>
      intro pages hlen
      cases pages with
      | nil => exact List.nodup_nil
      | cons p rest =>
          rw [List.eraseDups_cons, List.nodup_cons]
          refine ⟨fun hm => ?_, ih _ ?_ _ rfl⟩
          · have := (List.mem_filter.mp (List.mem_eraseDups.mp hm)).2
            simp at this
          · have := List.length_filter_le (fun q => !q == p) rest
            rw [List.length_cons] at hlen
            omega

theorem nodup_fresh (old pages : List Nat) : (fresh old pages).Nodup :=
  nodup_eraseDups _ _ rfl

theorem fresh_cons_old {old : List Nat} (h : p ∈ old) :
    fresh old (p :: pages) = fresh old pages := by
  rw [fresh, List.filter_cons_of_neg (by simpa using h), fresh]

theorem fresh_cons_new {old : List Nat} (h : p ∉ old) :
    fresh old (p :: pages) = p :: fresh (old ++ [p]) pages := by
  rw [fresh, List.filter_cons_of_pos (by simpa using h), List.eraseDups_cons, List.filter_filter,
    fresh]
  congr 2
  refine List.filter_congr fun q _ => ?_
  simp [not_or, and_comm, beq_eq_decide]

/-- The memory after a loop over the pages of a packet of host `j`. -/
structure Mem.TakesIn (me j : Nat) (ts : Timestamp) (added : List Nat) (m m' : Mem) :
    Prop where
  noticed : ∀ p ∈ added, (m.pageArray p).Noticed me j ts (m'.pageArray p)
  others : ∀ q, q ∉ added → m'.pageArray q = m.pageArray q
  rest : m' = { m with
    pageArray := m'.pageArray
    procArray := upd m.procArray j (extend ts added (m.procArray j)) }

theorem foldl_incorporateNotice (hj : j ≠ me) (ha : m.Armed me)
    (hnd : ((m.procArray j).map Interval.timestamp).Nodup)
    (hin : ts ∈ (m.procArray j).map Interval.timestamp) (hp : ∀ p ∈ pages, p < maxPageNum) :
    m.TakesIn me j ts (fresh (noticesOf ts (m.procArray j)) pages)
      (pages.foldl (incorporateNotice me j ts) m) := by
  induction pages generalizing m with
  | nil =>
      refine ⟨fun p hp => absurd hp List.not_mem_nil, fun _ _ => rfl, ?_⟩
      rw [show fresh (noticesOf ts (m.procArray j)) [] = [] from rfl, extend_nil, upd_eta]
      rfl
  | cons p pages ih =>
      have hp' : ∀ q ∈ pages, q < maxPageNum := fun q hq => hp q (List.mem_cons_of_mem p hq)
      rw [List.foldl_cons]
      by_cases hold : p ∈ noticesOf ts (m.procArray j)
      · rw [fresh_cons_old hold, incorporateNotice_eq, if_pos hold]
        exact ih ha hnd hin hp'
      · have ha₁ := incorporateNotice_armed ha j ts p
        obtain ⟨page, he, hpage⟩ := incorporateNotice_new hj (hp p List.mem_cons_self) (ha.page p) hold
        rw [appendNotice_eq_extend hnd] at he
        revert ha₁
        rw [he, fresh_cons_new hold]
        generalize hm₁ : ({ m.setPage p page with
          procArray := upd m.procArray j (extend ts [p] (m.procArray j)) } : Mem) = m₁
        intro ha₁
        have hlist : m₁.procArray = upd m.procArray j (extend ts [p] (m.procArray j)) := by
          rw [← hm₁]
        have hself : m₁.pageArray p = page := by
          rw [← hm₁]
          exact upd_self ..
        have hother : ∀ q, q ≠ p → m₁.pageArray q = m.pageArray q := by
          intro q hq
          rw [← hm₁]
          exact upd_ne hq
        have hold₁ : noticesOf ts (m₁.procArray j) = noticesOf ts (m.procArray j) ++ [p] := by
          rw [hlist, upd_self, noticesOf_extend hin]
        have ih := ih ha₁ (by rw [hlist, upd_self, extend_timestamps]; exact hnd)
          (by rw [hlist, upd_self, extend_timestamps]; exact hin) hp'
        rw [hold₁] at ih
        have hpnot : p ∉ fresh (noticesOf ts (m.procArray j) ++ [p]) pages := fun h =>
          (mem_fresh.mp h).2 (List.mem_append_right _ (List.mem_singleton_self p))
        refine ⟨fun q hq => ?_, fun q hq => ?_, ?_⟩
        · rcases List.mem_cons.mp hq with rfl | hq
          · rw [ih.others q hpnot, hself]
            exact hpage
          · have hqp : q ≠ p := by
              rintro rfl
              exact hpnot hq
            rw [← hother q hqp]
            exact ih.noticed q hq
        · rw [List.mem_cons, not_or] at hq
          rw [ih.others q hq.2, hother q hq.1]
        · rw [ih.rest]
          dsimp only
          rw [hlist, upd_self, upd_upd, extend_extend, List.singleton_append, ← hm₁]
          rfl

/-! ## A packet -/

/-- The pages that a packet adds. -/
def added (m : Mem) (packet : WnPacket) : List Nat :=
  fresh (noticesOf packet.timestamp (m.procArray packet.hostid)) packet.wnArray

structure Incorporated (me : Nat) (packet : WnPacket) (m m' : Mem) : Prop where
  /-- One interval is the record of the packet's interval. -/
  record : ∃ interval,
    (m'.procArray packet.hostid).filter (fun i => i.timestamp = packet.timestamp) = [interval] ∧
    interval.notices =
      noticesOf packet.timestamp (m.procArray packet.hostid) ++ added m packet
  once : (added m packet).Nodup
  intervals : (m'.procArray packet.hostid).filter (fun i => i.timestamp ≠ packet.timestamp) =
    (m.procArray packet.hostid).filter fun i => i.timestamp ≠ packet.timestamp
  hosts : ∀ j, j ≠ packet.hostid → m'.procArray j = m.procArray j
  noticed : ∀ p ∈ added m packet,
    (m.pageArray p).Noticed me packet.hostid packet.timestamp (m'.pageArray p)
  pages : ∀ q, q ∉ added m packet → m'.pageArray q = m.pageArray q
  rest : m' = { m with pageArray := m'.pageArray, procArray := m'.procArray }

/-- The packet's interval entered, if it is not there. -/
theorem enterInterval_list (ts : Timestamp) (m : Mem) :
    ∃ list, enterInterval j ts m = { m with procArray := upd m.procArray j list } ∧
      ts ∈ list.map Interval.timestamp ∧
      noticesOf ts list = noticesOf ts (m.procArray j) ∧
      (((m.procArray j).map Interval.timestamp).Nodup →
        (list.map Interval.timestamp).Nodup) ∧
      list.filter (fun i => i.timestamp ≠ ts) =
        (m.procArray j).filter fun i => i.timestamp ≠ ts := by
  unfold enterInterval
  dsimp only
  split
  · next hany =>
      obtain ⟨interval, hm, he⟩ := List.any_eq_true.mp hany
      refine ⟨m.procArray j, by rw [upd_eta], ?_, rfl, id, rfl⟩
      exact List.mem_map.mpr ⟨interval, hm, of_decide_eq_true he⟩
  · next hany =>
      have hno : ts ∉ (m.procArray j).map Interval.timestamp := by
        intro hm
        obtain ⟨interval, hm, he⟩ := List.mem_map.mp hm
        exact hany (List.any_eq_true.mpr ⟨interval, hm, decide_eq_true he⟩)
      refine ⟨⟨ts, [], false⟩ :: m.procArray j, rfl, List.mem_cons_self, ?_, fun hnd => ?_, ?_⟩
      · rw [noticesOf_unknown hno]
        unfold noticesOf
        rw [List.find?_cons_of_pos (by simp)]
        rfl
      · rw [List.map_cons, List.nodup_cons]
        exact ⟨hno, hnd⟩
      · rw [List.filter_cons_of_neg (by simp)]

theorem incorporateWnPacket_incorporated {packet : WnPacket} (hj : packet.hostid ≠ me)
    (ha : m.Armed me)
    (hnd : ((m.procArray packet.hostid).map Interval.timestamp).Nodup)
    (hp : ∀ p ∈ packet.wnArray, p < maxPageNum) :
    Incorporated me packet m (incorporateWnPacket me m packet) := by
  obtain ⟨list, he, hin, hold, hnd', hfilter⟩ :=
    enterInterval_list (j := packet.hostid) packet.timestamp m
  have htakes := foldl_incorporateNotice (m := { m with
    procArray := upd m.procArray packet.hostid list }) hj (ha.congr rfl)
    (by dsimp only; rw [upd_self]; exact hnd' hnd) (by dsimp only; rw [upd_self]; exact hin) hp
  unfold incorporateWnPacket
  rw [he]
  dsimp only at htakes
  rw [upd_self, hold] at htakes
  revert htakes
  generalize packet.wnArray.foldl (incorporateNotice me packet.hostid packet.timestamp)
    { m with procArray := upd m.procArray packet.hostid list } = m'
  intro htakes
  have hprocs : m'.procArray =
      upd m.procArray packet.hostid (extend packet.timestamp (added m packet) list) := by
    rw [htakes.rest]
    dsimp only
    rw [upd_self, upd_upd]
    rfl
  refine ⟨?_, nodup_fresh _ _, ?_, fun i hi => ?_, htakes.noticed, htakes.others, ?_⟩
  · rw [hprocs, upd_self, ← hold, ← noticesOf_extend hin]
    exact filter_timestamp (by rw [extend_timestamps]; exact hnd' hnd)
      (by rw [extend_timestamps]; exact hin)
  · rw [hprocs, upd_self, filter_extend, hfilter]
  · rw [hprocs, upd_ne hi]
  · rw [htakes.rest]

/-- A packet whose pages are all on the list of its interval. -/
def Mem.HasPacket (m : Mem) (packet : WnPacket) : Prop :=
  packet.timestamp ∈ (m.procArray packet.hostid).map Interval.timestamp ∧
    ∀ p ∈ packet.wnArray, p ∈ noticesOf packet.timestamp (m.procArray packet.hostid)

theorem incorporateWnPacket_again {packet : WnPacket} (h : m.HasPacket packet) :
    incorporateWnPacket me m packet = m := by
  have henter : enterInterval packet.hostid packet.timestamp m = m := by
    obtain ⟨interval, hm, he⟩ := List.mem_map.mp h.1
    unfold enterInterval
    dsimp only
    rw [if_pos (List.any_eq_true.mpr ⟨interval, hm, decide_eq_true he⟩)]
  have hfold : ∀ pages : List Nat,
      (∀ p ∈ pages, p ∈ noticesOf packet.timestamp (m.procArray packet.hostid)) →
      pages.foldl (incorporateNotice me packet.hostid packet.timestamp) m = m := by
    intro pages hpages
    induction pages with
    | nil => rfl
    | cons p pages ih =>
        rw [List.foldl_cons, incorporateNotice_eq, if_pos (hpages p List.mem_cons_self)]
        exact ih fun q hq => hpages q (List.mem_cons_of_mem p hq)
  rw [incorporateWnPacket, henter]
  exact hfold _ h.2

theorem Incorporated.hasPacket {packet : WnPacket} (h : Incorporated me packet m m') :
    m'.HasPacket packet := by
  obtain ⟨interval, hfilter, hnotices⟩ := h.record
  have hmem : interval ∈ (m'.procArray packet.hostid).filter fun i =>
      i.timestamp = packet.timestamp := by
    rw [hfilter]
    exact List.mem_singleton_self interval
  obtain ⟨hm, hts⟩ := List.mem_filter.mp hmem
  have hfind : (m'.procArray packet.hostid).find? (fun i => i.timestamp = packet.timestamp) =
      some interval := by
    rw [← List.head?_filter, hfilter]
    rfl
  refine ⟨List.mem_map.mpr ⟨interval, hm, of_decide_eq_true hts⟩, fun p hp => ?_⟩
  rw [noticesOf, hfind, Option.map_some, Option.getD_some, hnotices, List.mem_append]
  by_cases hold : p ∈ noticesOf packet.timestamp (m.procArray packet.hostid)
  · exact Or.inl hold
  · exact Or.inr (mem_fresh.mpr ⟨hp, hold⟩)

end

/-! ## Page faults -/

/-- What happens while the program of a host accesses its pages: accesses, faults, and
the replies to what they ask for. -/
inductive FaultEvent where
  | load (pageIndex offset len : Nat)
  | store (pageIndex offset : Nat) (bytes : List Byte)
  /-- The main thread leaves the loop of its fault. -/
  | resume
  | pageReply (pageIndex : Nat) (content : Content)
  | diffReply (sender : Nat) (timestamp : Timestamp) (pageIndex : Nat) (diff : Content)

def faultStep (n me : Nat) (h : Host) : FaultEvent → Option Host
  | .load p o len => (h.exec n me (.load p o len)).map Prod.fst
  | .store p o bytes => (h.exec n me (.store p o bytes)).map Prod.fst
  | .resume =>
      if h.pc.faulting.isSome then (h.exec n me .resume).map Prod.fst else none
  | .pageReply p content => some { h with mem := handleGrantPageMsg me p content h.mem }
  | .diffReply sender ts p diff =>
      some { h with mem := handleGrantDiffMsg sender ts p diff h.mem }

section

variable {n me j : Nat} {h h' : Host}

/-- A segment of a fault. -/
theorem Host.FaultStep.keeps {r : Host × Out} (hf : h.FaultStep n me r) (hj : j ≠ me) :
    r.1.pc.Sound n me r.1.mem ∧ r.1.mem.procArray j = h.mem.procArray j := by
  refine ⟨hf.sound, ?_⟩
  rcases hf.mem with hframe | ⟨p, hwrote⟩
  · rw [hframe.procArray]
  · exact hwrote.list_ne hj

theorem faultStep_keeps {e : FaultEvent} (hs : h.pc.Sound n me h.mem) (hj : j ≠ me)
    (he : faultStep n me h e = some h') :
    h'.pc.Sound n me h'.mem ∧ h'.mem.procArray j = h.mem.procArray j := by
  cases e with
  | load p o len =>
      obtain ⟨r, hr, rfl⟩ := Option.map_eq_some_iff.mp he
      have hne : Op.load p o len ≠ .resume := (fun h => by cases h)
      have hpc := exec_run hne hr
      simp only [Host.exec, hpc] at hr
      exact (Host.load_step hpc hr).keeps hj
  | store p o bytes =>
      obtain ⟨r, hr, rfl⟩ := Option.map_eq_some_iff.mp he
      have hne : Op.store p o bytes ≠ .resume := (fun h => by cases h)
      have hpc := exec_run hne hr
      simp only [Host.exec, hpc] at hr
      exact (Host.store_step hpc hr).keeps hj
  | resume =>
      rw [faultStep] at he
      split at he
      · next hf =>
          obtain ⟨r, hr, rfl⟩ := Option.map_eq_some_iff.mp he
          obtain ⟨p, hp⟩ := Option.isSome_iff_exists.mp hf
          exact (Host.resume_step hs hp hr).keeps hj
      · cases he
  | pageReply p content =>
      cases he
      have hframe : h.mem.Frame (handleGrantPageMsg me p content h.mem) :=
        handleGrantPageMsg_frame content
      exact ⟨hs.of_frame hframe, by rw [hframe.procArray]⟩
  | diffReply sender ts p diff =>
      cases he
      have hframe : h.mem.Frame (handleGrantDiffMsg sender ts p diff h.mem) :=
        handleGrantDiffMsg_frame sender ts diff
      exact ⟨hs.of_frame hframe, by rw [hframe.procArray]⟩

/-- Page faults leave the record of a packet as it is. -/
theorem faults_keep (hs : h.pc.Sound n me h.mem) (hj : j ≠ me)
    (hrun : Reach (faultStep n me) anyStep h h') :
    h'.mem.procArray j = h.mem.procArray j := by
  have hinv := hrun.invariant (P := fun h' => h'.pc.Sound n me h'.mem ∧
    h'.mem.procArray j = h.mem.procArray j) ⟨hs, rfl⟩ fun ht _ he => by
      obtain ⟨hs', hlist⟩ := faultStep_keeps ht.1 hj he
      exact ⟨hs', hlist.trans ht.2⟩
  exact hinv.2

theorem Incorporated.sound {packet : WnPacket} {m m' : Mem} {pc : Pc}
    (hi : Incorporated me packet m m') (hs : pc.Sound n me m) : pc.Sound n me m' := by
  refine ⟨fun p hp => ?_, hs.source⟩
  have hu := hs.mapped p hp
  by_cases hadd : p ∈ added m packet
  · rw [(hi.noticed p hadd).state]
    split
    · exact nofun
    · exact hu
  · rw [hi.pages p hadd]
    exact hu

/-- In every reachable state a packet about another host is taken in exactly, and taking
it in again, at once or after page faults, changes nothing. -/
theorem incorporation_exact_idempotent (n : Nat) {s : Sys}
    (hrun : Reach (step n) anyStep initSys s) (me : Nat) (hme : me < n) (packet : WnPacket)
    (hid : packet.hostid ≠ me) (hp : ∀ p ∈ packet.wnArray, p < maxPageNum) :
    Incorporated me packet (s.host me).mem (incorporateWnPacket me (s.host me).mem packet) ∧
      ∀ h, Reach (faultStep n me) anyStep
          { s.host me with mem := incorporateWnPacket me (s.host me).mem packet } h →
        incorporateWnPacket me h.mem packet = h.mem := by
  have hf := filled_of_reach hrun
  have hi : Incorporated me packet (s.host me).mem
      (incorporateWnPacket me (s.host me).mem packet) :=
    incorporateWnPacket_incorporated hid (hf.armed me) (hf.unique me _ hid) hp
  refine ⟨hi, fun h hfaults => incorporateWnPacket_again ?_⟩
  have hlist := faults_keep (hi.sound (hf.sound.pc me hme)) hid hfaults
  unfold Mem.HasPacket
  rw [hlist]
  exact hi.hasPacket

end

/-- A packet that names page 0 twice, and a page that is not allocated. -/
def repeatedPage : WnPacket := ⟨1, fun _ => 0, [0, 3, 0]⟩

/-- It comes while page 0 is `WRITE`. -/
theorem incorporation_exact_idempotent_two :
    ∃ s, Reach (step 2) anyStep initSys s ∧
      ((incorporateWnPacket 0 (s.host 0).mem repeatedPage).pageArray 0).state = .invalid ∧
      ((incorporateWnPacket 0 (s.host 0).mem repeatedPage).pageArray 0).twinPage = none ∧
      incorporateWnPacket 0 (incorporateWnPacket 0 (s.host 0).mem repeatedPage) repeatedPage =
        incorporateWnPacket 0 (s.host 0).mem repeatedPage := by
  obtain ⟨s, hrun, hp⟩ := exists_reach_any (step 2) initSys
    [.op 0 (.alloc 4096), .op 0 (.store 0 0 [7])]
    (fun s : Sys => decide (((s.host 0).mem.pageArray 0).state = .write ∧
      0 ∈ added (s.host 0).mem repeatedPage)) (by decide +kernel)
  obtain ⟨hs, hadd⟩ := of_decide_eq_true hp
  obtain ⟨hi, hagain⟩ := incorporation_exact_idempotent 2 hrun 0 (by decide) repeatedPage
    (by decide) (by decide)
  have hpage := hi.noticed 0 hadd
  obtain ⟨wn, rest, twin, -, -, htwin, -⟩ := hpage.closed hs
  have hsame := hagain _ .refl
  refine ⟨s, hrun, ?_, htwin, hsame⟩
  rw [hpage.state, if_pos (Or.inr hs)]

end Midsm
