import Midsm.Lib.Reach
import Midsm.Proofs.Guards

/-!
# Page, twin and diffs

Several functions of `mem.c` ignore what `createTwinPage`, `freeTwinPage` and
`createLocalDiff` return, and set the page's state all the same. They may,
because the three never fail there: a page has a twin exactly while it is
`WRITE`, and then its newest own notice, and no other, still lacks its diff.
`Page.Tidy` says that of one page, and every operation of one host, cut where it
spins, keeps it.
-/

namespace Midsm

open Midsm.Lib

structure Page.Tidy (me : Nat) (page : Page) : Prop where
  address : page.state ≠ .unmap → page.address ≠ 0
  twin : page.twinPage ≠ none ↔ page.state = .write
  /-- The newest own notice of a `WRITE` page, and no other, lacks its diff. -/
  newest : page.state = .write → ∃ wn rest, page.notices me = wn :: rest ∧
    wn.diffAddress = none ∧ ∀ wn ∈ rest, wn.diffAddress ≠ none
  done : page.state ≠ .write → ∀ wn ∈ page.notices me, wn.diffAddress ≠ none

structure Mem.Tidy (me : Nat) (m : Mem) : Prop where
  beyond : ∀ p, m.pagenum ≤ p → (m.pageArray p).state = .unmap
  page : ∀ p, (m.pageArray p).Tidy me

/-! ## One host's operations -/

/-- What can happen to the memory of one host, a fault being cut where it
spins: the replies are those to its own requests. -/
inductive PageOp where
  | alloc (size : Int)
  | fault (pageIndex : Nat)
  | pageReply (content : Content)
  | diffReply (timestamp : Timestamp) (diff : Content)
  | resume
  | newInterval
  | diffRequest (hostid : Nat) (timestamp : Timestamp) (pageIndex : Nat)
  | packet (packet : WnPacket)

/-- The main thread leaves the loop of its fault. -/
def leaveFault (n me : Nat) (m : Mem) : Pc → Option (Mem × Pc)
  | .pageWait p => if m.fetchPageWaitFlag then none else some (fetchPageResume p m, .run)
  | .diffWait p ts i rest =>
      if m.fetchDiffWaitFlag then none
      else
        let (m, _, pc) := fetchDiffResume n me p ts i rest m
        some (m, pc)
  | _ => none

def pageStep (n me : Nat) (s : Mem × Pc) (op : PageOp) : Option (Mem × Pc) :=
  let (m, pc) := s
  match op, pc with
  | .alloc size, .run => some ((miAlloc n me size m).2, .run)
  | .fault p, .run => (segvHandler n me p m).map fun (m, _, pc) => (m, pc)
  | .newInterval, .run => some (addNewInterval n me m, .run)
  | .pageReply content, .pageWait p => some (handleGrantPageMsg me p content m, pc)
  | .diffReply ts diff, .diffWait p _ i _ => some (handleGrantDiffMsg i ts p diff m, pc)
  | .resume, pc => leaveFault n me m pc
  | .diffRequest hostid ts p, pc => some ((grantDiff n me hostid ts p m).2.1, pc)
  | .packet packet, pc =>
      if packet.hostid ≠ me ∧ ∀ p ∈ packet.wnArray, p < maxPageNum then
        some (incorporateWnPacket me m packet, pc)
      else none
  | _, _ => none

section

variable {n me p : Nat} {m m' : Mem} {page page' : Page}

/-! ## Pages -/

theorem Page.Tidy.congr (h : page.Tidy me) (ha : page'.address = page.address)
    (hs : page'.state = page.state) (ht : page'.twinPage = page.twinPage)
    (hn : page'.notices me = page.notices me) : page'.Tidy me :=
  ⟨by rw [hs, ha]; exact h.address, by rw [ht, hs]; exact h.twin,
    by rw [hs, hn]; exact h.newest, by rw [hs, hn]; exact h.done⟩

/-- A mapped page changes between states other than `WRITE`. -/
theorem Page.Tidy.setState (h : page.Tidy me) {state : PageState} {prot : Prot}
    (hold : page.state ≠ .write) (hu : page.state ≠ .unmap) (hnew : state ≠ .write) :
    { page with state := state, prot := prot }.Tidy me where
  address _ := h.address hu
  twin := ⟨fun ht => absurd (h.twin.mp ht) hold, fun hs => absurd hs hnew⟩
  newest hs := absurd hs hnew
  done _ := h.done hold

theorem Page.Tidy.no_twin (h : page.Tidy me) (hs : page.state ≠ .write) :
    page.twinPage = none := by
  by_contra ht
  exact hs (h.twin.mp ht)

theorem Page.Tidy.has_diff (h : page.Tidy me) (hs : page.state = .write) :
    ∃ diff, createLocalDiff page.memory page.twinPage = some diff := by
  obtain ⟨twin, ht⟩ := Option.ne_none_iff_exists'.mp (h.twin.mpr hs)
  have ha : page.address ≠ 0 := h.address (by rw [hs]; exact nofun)
  unfold Page.memory
  rw [if_neg ha, ht]
  exact ⟨_, rfl⟩

/-- A diff for the newest notice, and the twin freed. -/
theorem Page.Tidy.close (h : page.Tidy me) (hs : page.state = .write)
    {wn : WriteNotice} {rest : List WriteNotice} (hn : page.notices me = wn :: rest)
    {state : PageState} (hnew : state ≠ .write) {diff : Option Content} (hd : diff ≠ none)
    (ha : page'.address = page.address) (hs' : page'.state = state)
    (ht : page'.twinPage = none)
    (hn' : page'.notices me = { wn with diffAddress := diff } :: rest) : page'.Tidy me where
  address _ := by
    rw [ha]
    exact h.address (by rw [hs]; exact nofun)
  twin := by
    rw [ht, hs']
    exact ⟨fun hx => absurd rfl hx, fun hx => absurd hx hnew⟩
  newest hx := by
    rw [hs'] at hx
    exact absurd hx hnew
  done _ w hw := by
    obtain ⟨wn', rest', hl, -, hrest⟩ := h.newest hs
    rw [hn, List.cons.injEq] at hl
    obtain ⟨rfl, rfl⟩ := hl
    rw [hn'] at hw
    rcases List.mem_cons.mp hw with rfl | hw
    · exact hd
    · exact hrest w hw

theorem Mem.Tidy.setPage (h : m.Tidy me) (ht : page.Tidy me)
    (hu : (m.pageArray p).state = .unmap → page.state = .unmap) :
    (m.setPage p page).Tidy me := by
  refine ⟨fun q hq => ?_, fun q => ?_⟩ <;> by_cases hqp : q = p
  · subst hqp
    rw [setPage_self]
    exact hu (h.beyond q hq)
  · rw [setPage_ne hqp]
    exact h.beyond q hq
  · subst hqp
    rw [setPage_self]
    exact ht
  · rw [setPage_ne hqp]
    exact h.page q

theorem setPage_setPage (m : Mem) (p : Nat) (page page' : Page) :
    (m.setPage p page).setPage p page' = m.setPage p page' := by
  unfold Mem.setPage
  rw [upd_upd]

/-- The rest of the memory does not matter. -/
theorem Mem.Tidy.congr (h : m.Tidy me) (hp : m'.pageArray = m.pageArray)
    (hn : m'.pagenum = m.pagenum) : m'.Tidy me :=
  ⟨by rw [hp, hn]; exact h.beyond, by rw [hp]; exact h.page⟩

theorem initmem_tidy (me : Nat) : (initmem me).Tidy me where
  beyond _ _ := rfl
  page p := by
    refine ⟨fun h => absurd rfl h, ⟨fun h => absurd rfl h, fun h => ?_⟩, fun h => ?_,
      fun _ _ hw => ?_⟩
    · cases h
    · cases h
    · cases hw

/-! ## Twins -/

theorem createTwinPage_succeeds (hp : p < maxPageNum) (h : (m.pageArray p).Tidy me)
    (hs : (m.pageArray p).state = .rdonly) : createTwinPage p m =
      (0, m.setPage p { m.pageArray p with
        twinPage := some (m.pageArray p).content }) := by
  have ha : (m.pageArray p).address ≠ 0 := h.address (by rw [hs]; exact nofun)
  have ht : (m.pageArray p).twinPage = none := h.no_twin (by rw [hs]; exact nofun)
  unfold createTwinPage
  dsimp only
  rw [if_neg (by omega), if_neg (by simp [hs]), if_neg (by simp [ha, ht])]

theorem freeTwinPage_succeeds (hp : p < maxPageNum) (hl : (m.pageArray p).Live)
    (ha : (m.pageArray p).address ≠ 0) (ht : (m.pageArray p).twinPage ≠ none) :
    freeTwinPage p m = (0, m.setPage p { m.pageArray p with twinPage := none }) := by
  unfold freeTwinPage
  dsimp only
  rw [if_neg (by omega), if_neg (by simp [hl.1, hl.2]), if_neg (by simp [ha, ht])]

/-! ## Allocation and stores -/

theorem allocPage_tidy (n : Nat) (h : m.Tidy me) : (allocPage n me m).Tidy me := by
  have hu := h.beyond m.pagenum (Nat.le_refl _)
  have hold := h.page m.pagenum
  unfold allocPage
  refine ⟨fun q hq => ?_, fun q => ?_⟩
  · dsimp only at hq ⊢
    rw [upd_ne (by omega)]
    exact h.beyond q (by omega)
  · dsimp only
    by_cases hqp : q = m.pagenum
    · rw [hqp, upd_self]
      have hnew : (if m.pagenum % n = me then PageState.rdonly else .miss) ≠ .write := by
        split <;> exact nofun
      have hno : (m.pageArray m.pagenum).state ≠ .write := by
        rw [hu]
        exact nofun
      refine ⟨fun _ => ?_, ⟨fun ht => absurd (hold.no_twin hno) ht, fun hs => absurd hs hnew⟩,
        fun hs => absurd hs hnew, fun _ => hold.done hno⟩
      exact Nat.ne_of_gt (Nat.lt_add_right _ (by decide))
    · rw [upd_ne hqp]
      exact h.page q

theorem allocPages_tidy (n k : Nat) (h : m.Tidy me) : (allocPages n me k m).Tidy me := by
  induction k generalizing m with
  | zero => exact h
  | succ k ih => exact ih (allocPage_tidy n h)

theorem miAlloc_tidy (n : Nat) (size : Int) (h : m.Tidy me) :
    (miAlloc n me size m).2.Tidy me := by
  unfold miAlloc
  split
  · exact h
  · dsimp only
    split
    · exact h
    · exact allocPages_tidy n _ h

/-- A store to a `RDONLY` page, up to the store itself. -/
theorem segvHandler_rdonly (hp : p < maxPageNum) (h : (m.pageArray p).Tidy me)
    (hs : (m.pageArray p).state = .rdonly) (hread : (m.pageArray p).prot ≠ .none) :
    ∃ m', segvHandler n me p m = some (m', [], .run) ∧
      m'.pagenum = m.pagenum ∧ (∀ q ≠ p, m'.pageArray q = m.pageArray q) ∧
      m'.pageArray p = { m.pageArray p with
        state := .write
        twinPage := some (m.pageArray p).content
        notices := upd (m.pageArray p).notices me
          (⟨(m.now me).timestamp, none⟩ :: (m.pageArray p).notices me)
        prot := .readWrite } := by
  unfold segvHandler
  rw [if_neg (by omega), hs]
  dsimp only
  rw [if_neg fun hk => hread hk.2, createTwinPage_succeeds hp h hs]
  refine ⟨_, rfl, ?_, fun q hq => ?_, ?_⟩
  all_goals
    unfold createWriteNotice
    dsimp only
    rw [if_neg (by omega), if_neg (by rw [setPage_self, hs]; exact not_not.mpr rfl)]
  · rfl
  · rw [setPage_ne hq]
    dsimp only
    rw [setPage_ne hq, setPage_ne hq]
  · rw [setPage_self]
    simp only [setPage_self]
    rfl

theorem Page.Tidy.open (h : page.Tidy me) (hs : page.state = .rdonly) (content : Content)
    (ts : Timestamp) : { page with
      state := .write
      twinPage := some content
      notices := upd page.notices me (⟨ts, none⟩ :: page.notices me)
      prot := .readWrite }.Tidy me where
  address _ := h.address (by rw [hs]; exact nofun)
  twin := ⟨fun _ => rfl, fun _ => nofun⟩
  newest _ := ⟨⟨ts, none⟩, page.notices me, upd_self .., rfl,
    h.done (by rw [hs]; exact nofun)⟩
  done hw := absurd rfl hw

/-! ## What handlers do to pages -/

theorem setState_tidy (h : m.Tidy me) (hu : (m.pageArray p).state ≠ .unmap)
    (hw : (m.pageArray p).state ≠ .write) {state : PageState} {prot : Prot}
    (hnew : state ≠ .write) :
    (m.setPage p { m.pageArray p with state := state, prot := prot }).Tidy me :=
  h.setPage ((h.page p).setState hw hu hnew) fun hn => absurd hn hu

/-- Neither its state nor its own notices. -/
theorem Mem.Tidy.setData (h : m.Tidy me) (ha : page.address = (m.pageArray p).address)
    (hs : page.state = (m.pageArray p).state)
    (ht : page.twinPage = (m.pageArray p).twinPage)
    (hn : page.notices me = (m.pageArray p).notices me) : (m.setPage p page).Tidy me :=
  h.setPage ((h.page p).congr ha hs ht hn) fun hu => hs.trans hu

theorem findNotice_spec {ts : Timestamp} {list : List WriteNotice} {wn : WriteNotice}
    (h : findNotice ts list = some wn) : wn ∈ list ∧ wn.timestamp = ts :=
  ⟨List.mem_of_find?_eq_some h, by simpa using List.find?_some h⟩

/-- Only the newest notice can lack its diff, and only on a `WRITE` page. -/
theorem Page.Tidy.lacking (h : page.Tidy me) {wn : WriteNotice}
    (hm : wn ∈ page.notices me) (hd : wn.diffAddress = none) :
    page.state = .write ∧ ∃ rest, page.notices me = wn :: rest := by
  have hs : page.state = .write := by
    by_contra hs
    exact h.done hs wn hm hd
  obtain ⟨wn', rest, hl, -, hrest⟩ := h.newest hs
  refine ⟨hs, rest, ?_⟩
  rw [hl] at hm ⊢
  rcases List.mem_cons.mp hm with rfl | hm
  · rfl
  · exact absurd hd (hrest wn hm)

/-- `grantDiff` on a notice without a diff: the page is `WRITE` and is write
protected again. -/
theorem makeDiff_eq (hp : p < maxPageNum) (h : (m.pageArray p).Tidy me) {ts : Timestamp}
    {wn : WriteNotice} (hf : findNotice ts ((m.pageArray p).notices me) = some wn)
    (hd : wn.diffAddress = none) :
    ∃ diff rest, (m.pageArray p).notices me = wn :: rest ∧
      createLocalDiff (m.pageArray p).memory (m.pageArray p).twinPage = some diff ∧
      makeDiff me p ts m = m.setPage p { m.pageArray p with
        state := .rdonly
        twinPage := none
        notices := upd (m.pageArray p).notices me
          ({ wn with diffAddress := some diff } :: rest)
        prot := .read } := by
  obtain ⟨hm, hts⟩ := findNotice_spec hf
  obtain ⟨hs, rest, hl⟩ := h.lacking hm hd
  obtain ⟨diff, hdiff⟩ := h.has_diff hs
  refine ⟨diff, rest, hl, hdiff, ?_⟩
  have hset : setDiff ts (some diff) (wn :: rest) =
      { wn with diffAddress := some diff } :: rest := by
    rw [setDiff, if_pos hts]
  unfold makeDiff
  dsimp only
  rw [if_pos hs, hdiff, hl, hset]
  have hfree := freeTwinPage_succeeds (m := m.setPage p { m.pageArray p with
      notices := upd (m.pageArray p).notices me
        ({ wn with diffAddress := some diff } :: rest) }) hp
    (by rw [setPage_self]; unfold Page.Live; rw [hs]; exact ⟨(fun h => by cases h), (fun h => by cases h)⟩)
    (by rw [setPage_self]; exact h.address (by simp [hs]))
    (by rw [setPage_self]; exact h.twin.mpr hs)
  rw [hfree]
  simp only [setPage_self, setPage_setPage]

/-- A `WRITE` page that gets its newest diff and loses its twin. -/
theorem Mem.Tidy.closePage (h : m.Tidy me) (hs : (m.pageArray p).state = .write)
    {wn : WriteNotice} {rest : List WriteNotice} (hl : (m.pageArray p).notices me = wn :: rest)
    {state : PageState} (hnew : state ≠ .write) (diff : Content) (prot : Prot) :
    (m.setPage p { m.pageArray p with
      state := state
      twinPage := none
      notices := upd (m.pageArray p).notices me
        ({ wn with diffAddress := some diff } :: rest)
      prot := prot }).Tidy me := by
  refine h.setPage ((h.page p).close hs hl hnew (Option.some_ne_none diff) rfl rfl rfl
    (upd_self ..)) fun hu => ?_
  rw [hs] at hu
  cases hu

theorem grantDiff_tidy (h : m.Tidy me) (hostid : Nat) (ts : Timestamp) :
    (grantDiff n me hostid ts p m).2.1.Tidy me := by
  unfold grantDiff
  dsimp only
  split
  · exact h
  · split
    · exact h
    · next hp =>
        split
        · exact h
        · split
          · exact h
          · next wn hf =>
              dsimp only
              split
              · exact h
              · next hd =>
                  obtain ⟨diff, rest, hl, -, he⟩ := makeDiff_eq (by omega) (h.page p) hf
                    (by simpa using hd)
                  have hm : wn ∈ (m.pageArray p).notices me := by
                    rw [hl]
                    exact List.mem_cons_self
                  rw [he]
                  refine h.closePage ((h.page p).lacking hm (by simpa using hd)).1 hl ?_ diff _
                  exact nofun

/-- A notice for a `WRITE` page: the newest own notice gets its diff. -/
theorem invalidatePage_eq (hp : p < maxPageNum) (h : (m.pageArray p).Tidy me)
    (hs : (m.pageArray p).state = .write) :
    ∃ diff wn rest, (m.pageArray p).notices me = wn :: rest ∧
      createLocalDiff (m.pageArray p).memory (m.pageArray p).twinPage = some diff ∧
      invalidatePage me p m = m.setPage p { m.pageArray p with
        state := .invalid
        twinPage := none
        notices := upd (m.pageArray p).notices me
          ({ wn with diffAddress := some diff } :: rest)
        prot := .none } := by
  obtain ⟨wn, rest, hl, -, -⟩ := h.newest hs
  obtain ⟨diff, hdiff⟩ := h.has_diff hs
  refine ⟨diff, wn, rest, hl, hdiff, ?_⟩
  unfold invalidatePage
  dsimp only
  rw [hs]
  dsimp only
  rw [hl, hdiff]
  have hfree := freeTwinPage_succeeds (m := m.setPage p { m.pageArray p with
      state := .invalid
      notices := upd (m.pageArray p).notices me
        ({ wn with diffAddress := some diff } :: rest) }) hp
    (by rw [setPage_self]; exact ⟨nofun, nofun⟩)
    (by rw [setPage_self]; exact h.address (by rw [hs]; exact nofun))
    (by rw [setPage_self]; exact h.twin.mpr hs)
  rw [hfree]
  simp only [setPage_self, setPage_setPage]

theorem invalidatePage_tidy (h : m.Tidy me) (hp : p < maxPageNum) :
    (invalidatePage me p m).Tidy me := by
  cases hs : (m.pageArray p).state with
  | rdonly =>
      have he : invalidatePage me p m =
          m.setPage p { m.pageArray p with state := .invalid, prot := .none } := by
        unfold invalidatePage
        dsimp only
        rw [hs]
      rw [he]
      exact setState_tidy h (by rw [hs]; exact nofun) (by rw [hs]; exact nofun) nofun
  | write =>
      obtain ⟨diff, wn, rest, hl, -, he⟩ := invalidatePage_eq hp (h.page p) hs
      rw [he]
      refine h.closePage hs hl ?_ diff _
      exact nofun
  | unmap | miss | invalid =>
      have he : invalidatePage me p m = m := by
        unfold invalidatePage
        dsimp only
        rw [hs]
      rw [he]
      exact h

theorem record_tidy {j : Nat} {ts : Timestamp} (h : m.Tidy me) (hj : j ≠ me) :
    (m.record j ts p).Tidy me := by
  have hset : (m.setPage p { m.pageArray p with
      notices := upd (m.pageArray p).notices j
        (⟨ts, none⟩ :: (m.pageArray p).notices j) }).Tidy me :=
    h.setData rfl rfl rfl (upd_ne hj.symm)
  exact hset.congr rfl rfl

theorem incorporateWnPacket_tidy {packet : WnPacket} (h : m.Tidy me) (hj : packet.hostid ≠ me)
    (hp : ∀ p ∈ packet.wnArray, p < maxPageNum) :
    (incorporateWnPacket me m packet).Tidy me := by
  have hnotice : ∀ {m : Mem} {p : Nat}, m.Tidy me → p < maxPageNum →
      (incorporateNotice me packet.hostid packet.timestamp m p).Tidy me := by
    intro m p h hp
    rw [incorporateNotice_eq]
    split
    · exact h
    · exact record_tidy (invalidatePage_tidy h hp) hj
  have hfold : ∀ {m : Mem} (pages : List Nat), m.Tidy me → (∀ p ∈ pages, p < maxPageNum) →
      (pages.foldl (incorporateNotice me packet.hostid packet.timestamp) m).Tidy me := by
    intro m pages
    induction pages generalizing m with
    | nil => exact fun h _ => h
    | cons p pages ih =>
        intro h hp
        exact ih (hnotice h (hp p List.mem_cons_self))
          fun q hq => hp q (List.mem_cons_of_mem _ hq)
  refine hfold packet.wnArray ?_ hp
  unfold enterInterval
  dsimp only
  split
  · exact h
  · exact h.congr rfl rfl

theorem handleGrantDiffMsg_tidy {i : Nat} (h : m.Tidy me) (hi : i ≠ me) (ts : Timestamp)
    (diff : Content) : (handleGrantDiffMsg i ts p diff m).Tidy me := by
  have hset : ∀ list content prot, (m.setPage p { m.pageArray p with
      notices := upd (m.pageArray p).notices i list
      content := content
      prot := prot }).Tidy me := fun _ _ _ => h.setData rfl rfl rfl (upd_ne hi.symm)
  unfold handleGrantDiffMsg
  dsimp only
  split
  · exact h.congr rfl rfl
  · exact (hset _ _ _).congr rfl rfl

theorem handleGrantPageMsg_tidy (h : m.Tidy me) (content : Content) :
    (handleGrantPageMsg me p content m).Tidy me := by
  have hset : (m.setPage p { m.pageArray p with
      content := content
      startInterval := some (m.now me).timestamp
      prot := .readWrite }).Tidy me := h.setData rfl rfl rfl rfl
  exact hset.congr rfl rfl

/-! ## The invariant -/

/-- The main thread waits for diffs of other hosts. -/
structure PageInv (n me : Nat) (s : Mem × Pc) : Prop where
  tidy : s.1.Tidy me
  guards : Guards s.1 s.2
  source : ∀ i, s.2.diffFrom = some i → i ≠ me

theorem PageInv.init (n me : Nat) : PageInv n me (initmem me, .run) :=
  ⟨initmem_tidy me, .init me, fun _ h => nomatch h⟩

theorem requestDiff_inv {pc : Pc} (h : PageInv n me (m, pc)) (hp : ∀ q, pc ≠ .pageWait q)
    (hs : (m.pageArray p).state = .invalid) {ts : Option Timestamp}
    {request : Option (Nat × Timestamp × Nat)} (hr : ∀ x, request = some x → x.1 ≠ me) :
    PageInv n me ((requestDiff p ts request m).1, (requestDiff p ts request m).2.2) := by
  have hg := h.guards.requestDiff hp hs ts request
  cases request with
  | none =>
      refine ⟨setState_tidy h.tidy ?_ ?_ nofun, hg, fun _ hi => nomatch hi⟩ <;> dsimp only <;>
        rw [hs] <;> exact nofun
  | some x =>
      refine ⟨h.tidy.congr rfl rfl, hg, fun i hi => ?_⟩
      cases hi
      exact hr x rfl

theorem segvHandler_inv (h : PageInv n me (m, .run)) {out : Out} {pc : Pc}
    (he : segvHandler n me p m = some (m', out, pc)) : PageInv n me (m', pc) := by
  have hg := h.guards.segvHandler rfl he
  have hp : p < maxPageNum := by
    by_contra hp
    rw [segvHandler, if_pos (by omega)] at he
    cases he
  cases hs : (m.pageArray p).state with
  | rdonly =>
      have hread := (h.guards.readable rfl).mpr (Or.inl hs)
      obtain ⟨m₁, he₁, hnum, hne, hself⟩ :=
        segvHandler_rdonly (n := n) hp (h.tidy.page p) hs hread
      rw [he₁] at he
      cases he
      refine ⟨⟨fun q hq => ?_, fun q => ?_⟩, hg, fun _ hi => nomatch hi⟩ <;>
        by_cases hqp : q = p
      · subst hqp
        rw [hnum] at hq
        have := h.tidy.beyond q hq
        dsimp only at this
        rw [hs] at this
        cases this
      · dsimp only at hq ⊢
        rw [hne q hqp]
        exact h.tidy.beyond q (hnum ▸ hq)
      · rw [hqp, hself]
        exact (h.tidy.page p).open hs _ _
      · rw [hne q hqp]
        exact h.tidy.page q
  | miss =>
      simp only [segvHandler, if_neg (show ¬ maxPageNum ≤ p by omega), hs] at he
      split at he
      · next hf =>
          cases he
          obtain ⟨_, -, rfl, -⟩ := fetchPage_eq_some hf
          exact ⟨h.tidy.congr rfl rfl, hg, fun _ hi => nomatch hi⟩
      · cases he
        refine ⟨setState_tidy h.tidy ?_ ?_ nofun, hg, fun _ hi => nomatch hi⟩ <;>
          dsimp only <;> rw [hs] <;> exact nofun
  | write =>
      simp only [segvHandler, if_neg (show ¬ maxPageNum ≤ p by omega), hs] at he
      cases he
      exact h
  | invalid =>
      simp only [segvHandler, if_neg (show ¬ maxPageNum ≤ p by omega), hs] at he
      have hi : PageInv n me ((fetchDiff n me p m).1, (fetchDiff n me p m).2.2) :=
        requestDiff_inv h nofun hs fun x hx => (nextDiffHost_mem hx).2.1
      rw [Option.some.injEq] at he
      rw [he] at hi
      exact hi
  | unmap =>
      simp only [segvHandler, if_neg (show ¬ maxPageNum ≤ p by omega), hs] at he
      cases he

theorem leaveFault_inv {pc : Pc} {s' : Mem × Pc} (h : PageInv n me (m, pc))
    (he : leaveFault n me m pc = some s') : PageInv n me s' := by
  cases pc with
  | run | lockWait | wniWait | barrierWait => cases he
  | pageWait p =>
      have hs := h.guards.miss p rfl
      simp only [leaveFault] at he
      split at he
      · cases he
      · cases he
        refine ⟨setState_tidy h.tidy ?_ ?_ nofun, h.guards.pageBack, fun _ hi => nomatch hi⟩ <;>
          dsimp only at hs ⊢ <;> rw [hs] <;> exact nofun
  | diffWait p ts i rest =>
      have hs := h.guards.invalid p ts i rest rfl
      simp only [leaveFault] at he
      split at he
      · cases he
      · cases he
        refine requestDiff_inv h nofun hs fun x hx => ?_
        split at hx
        · cases hx
          exact h.source i rfl
        · exact (nextDiffHost_mem hx).2.1

theorem PageInv.step {s s' : Mem × Pc} {op : PageOp} (h : PageInv n me s)
    (he : pageStep n me s op = some s') : PageInv n me s' := by
  obtain ⟨m, pc⟩ := s
  unfold pageStep at he
  dsimp only at he
  split at he
  · cases he
    exact ⟨miAlloc_tidy n _ h.tidy, h.guards.alloc n me _ h.tidy.beyond, fun _ hi => nomatch hi⟩
  · obtain ⟨x, hx, rfl⟩ := Option.map_eq_some_iff.mp he
    exact segvHandler_inv h hx
  · cases he
    exact ⟨h.tidy.congr rfl rfl, h.guards.kept (.of_pages rfl), fun _ hi => nomatch hi⟩
  · cases he
    exact ⟨handleGrantPageMsg_tidy h.tidy _, h.guards.pageReply me _, fun _ hi => nomatch hi⟩
  · next p ts i rest =>
      cases he
      have hg := (h.guards.page p).prot_eq (by rw [h.guards.invalid p _ _ _ rfl]; exact nofun)
      rw [h.guards.invalid p _ _ _ rfl] at hg
      exact ⟨handleGrantDiffMsg_tidy h.tidy (h.source _ rfl) _ _,
        h.guards.kept (handleGrantDiffMsg_kept hg _ _), h.source⟩
  · exact leaveFault_inv h he
  · cases he
    exact ⟨grantDiff_tidy h.tidy _ _, h.guards.loses (grantDiff_loses n me _ _ _ m), h.source⟩
  · split at he
    · next hp =>
        cases he
        exact ⟨incorporateWnPacket_tidy h.tidy hp.1 hp.2,
          h.guards.loses (incorporateWnPacket_loses me m _), h.source⟩
    · cases he
  · cases he

theorem pageInv_of_reach {pc : Pc}
    (h : Reach (pageStep n me) anyStep (initmem me, .run) (m, pc)) : PageInv n me (m, pc) :=
  h.invariant (P := PageInv n me) (.init n me) fun hs _ he => hs.step he

/-! ## The calls whose results are ignored -/

structure Mem.CallsSucceed (n me : Nat) (m : Mem) : Prop where
  /-- `segv_handler` makes a twin of a `RDONLY` page. -/
  createTwin : ∀ p < maxPageNum, (m.pageArray p).state = .rdonly →
    (createTwinPage p m).1 = 0
  /-- `incorporateWnPacket` makes the diff of a `WRITE` page, whose state it has
  already changed when it frees the twin. -/
  invalidate : ∀ p < maxPageNum, (m.pageArray p).state = .write →
    createLocalDiff (m.pageArray p).memory (m.pageArray p).twinPage ≠ none ∧
    ∀ own, (freeTwinPage p (m.setPage p { m.pageArray p with
      state := .invalid, notices := own })).1 = 0
  /-- `grantDiff` makes a diff for a notice without one. -/
  makeDiff : ∀ p < maxPageNum, ∀ ts wn,
    findNotice ts ((m.pageArray p).notices me) = some wn → wn.diffAddress = none →
    createLocalDiff (m.pageArray p).memory (m.pageArray p).twinPage ≠ none ∧
    ∀ own, (freeTwinPage p (m.setPage p { m.pageArray p with notices := own })).1 = 0
  /-- What `grantDiff` sends is the diff of the notice. -/
  sent : ∀ hostid ts p, (grantDiff n me hostid ts p m).1 = 0 → ∃ wn diff,
    findNotice ts (((grantDiff n me hostid ts p m).2.1.pageArray p).notices me) = some wn ∧
    wn.diffAddress = some diff ∧
    (grantDiff n me hostid ts p m).2.2 = [(hostid, .grantDiff ts p diff)]

theorem Mem.Tidy.freed (h : m.Tidy me) (hp : p < maxPageNum)
    (hs : (m.pageArray p).state = .write) (state : PageState) (hu : state ≠ .unmap)
    (hm : state ≠ .miss) (own : Nat → List WriteNotice) :
    (freeTwinPage p (m.setPage p { m.pageArray p with
      state := state, notices := own })).1 = 0 := by
  rw [freeTwinPage_succeeds hp]
  · rw [setPage_self]
    exact ⟨hu, hm⟩
  · rw [setPage_self]
    exact (h.page p).address (by rw [hs]; exact nofun)
  · rw [setPage_self]
    exact (h.page p).twin.mpr hs

theorem Mem.Tidy.diff_sent (h : m.Tidy me) {hostid : Nat} {ts : Timestamp}
    (hr : (grantDiff n me hostid ts p m).1 = 0) : ∃ wn diff,
      findNotice ts (((grantDiff n me hostid ts p m).2.1.pageArray p).notices me) = some wn ∧
      wn.diffAddress = some diff ∧
      (grantDiff n me hostid ts p m).2.2 = [(hostid, .grantDiff ts p diff)] := by
  unfold grantDiff at hr ⊢
  dsimp only at hr ⊢
  split at hr
  · cases hr
  · next hto =>
      rw [if_neg hto]
      split at hr
      · cases hr
      · next hp =>
          rw [if_neg hp]
          split at hr
          · cases hr
          · next hs =>
              rw [if_neg hs]
              split at hr
              · cases hr
              · next wn hf =>
                  dsimp only
                  cases hd : wn.diffAddress with
                  | some diff =>
                      rw [Option.isSome_some, if_pos rfl, hf]
                      exact ⟨wn, diff, rfl, hd, by rw [Option.bind_some, hd]; rfl⟩
                  | none =>
                      obtain ⟨diff, rest, hl, -, he⟩ := makeDiff_eq (by omega) (h.page p) hf hd
                      have hts := (findNotice_spec hf).2
                      rw [Option.isSome_none, if_neg Bool.false_ne_true, he, setPage_self]
                      dsimp only
                      rw [upd_self]
                      have hfound : findNotice ts
                          ({ wn with diffAddress := some diff } :: rest) =
                          some { wn with diffAddress := some diff } := by
                        rw [findNotice, List.find?_cons_of_pos]
                        exact decide_eq_true hts
                      rw [hfound]
                      exact ⟨_, diff, rfl, rfl, rfl⟩

theorem Mem.Tidy.callsSucceed (n : Nat) (h : m.Tidy me) : m.CallsSucceed n me where
  createTwin p hp hs := by rw [createTwinPage_succeeds hp (h.page p) hs]
  invalidate p hp hs := by
    obtain ⟨diff, hd⟩ := (h.page p).has_diff hs
    exact ⟨by rw [hd]; exact nofun, fun own => h.freed hp hs .invalid nofun nofun own⟩
  makeDiff p hp ts wn hf hd := by
    have hs := ((h.page p).lacking (findNotice_spec hf).1 hd).1
    obtain ⟨diff, hdiff⟩ := (h.page p).has_diff hs
    refine ⟨by rw [hdiff]; exact nofun, fun own => ?_⟩
    refine h.freed hp hs (m.pageArray p).state ?_ ?_ own <;> rw [hs] <;> exact nofun
  sent _ _ _ hr := h.diff_sent hr

/-- Over every sequence of operations of one host: a page has a twin exactly
while it is `WRITE`, its own notices have their diffs but for the newest one of
a `WRITE` page, and so the calls whose results are ignored succeed, also at each
notice of a packet. -/
theorem page_twin_diff_invariant (n me : Nat) {m : Mem} {pc : Pc}
    (h : Reach (pageStep n me) anyStep (initmem me, .run) (m, pc)) :
    (∀ p, (m.pageArray p).Tidy me) ∧ m.CallsSucceed n me ∧
      ∀ packet : WnPacket, packet.hostid ≠ me → (∀ p ∈ packet.wnArray, p < maxPageNum) →
        ∀ k, (incorporateWnPacket me m
          { packet with wnArray := packet.wnArray.take k }).CallsSucceed n me := by
  have hi := pageInv_of_reach h
  refine ⟨hi.tidy.page, hi.tidy.callsSucceed n, fun packet hj hp k => ?_⟩
  have ht : (incorporateWnPacket me m
      { packet with wnArray := packet.wnArray.take k }).Tidy me :=
    incorporateWnPacket_tidy hi.tidy hj fun p hm => hp p (List.mem_of_mem_take hm)
  exact ht.callsSucceed n

/-- A store, a notice of host 1 for the same page, and its diff granted. -/
theorem page_twin_diff_invariant_run :
    ∃ m pc, Reach (pageStep 2 0) anyStep (initmem 0, .run) (m, pc) ∧
      (∀ p, (m.pageArray p).Tidy 0) ∧ (m.pageArray 0).state = .invalid ∧
      ((m.pageArray 0).notices 0).length = 1 := by
  obtain ⟨⟨m, pc⟩, hrun, hp⟩ := exists_reach_any (pageStep 2 0) (initmem 0, .run)
    [.alloc 4096, .fault 0, .packet ⟨1, fun _ => 0, [0]⟩, .diffRequest 1 (fun _ => 0) 0]
    (fun s => decide ((s.1.pageArray 0).state = .invalid ∧
      ((s.1.pageArray 0).notices 0).length = 1)) (by decide +kernel)
  obtain ⟨hs, hl⟩ := of_decide_eq_true hp
  exact ⟨m, pc, hrun, (page_twin_diff_invariant 2 0 hrun).1, hs, hl⟩

end

end Midsm
