import Midsm.Ref.System

/-!
# What `mem.c` leaves alone

Most functions of `mem.c` change contents, twins, diffs and page states, and
nothing of what the consistency protocol knows: the timestamps of the notices
of each page, the interval lists, and the barrier timestamps. `Mem.Frame` says
that. The one local operation that adds knowledge is the write notice of a
store, `Mem.Wrote`; what comes from other hosts comes in packets and is treated
in a module of its own.
-/

namespace Midsm

/-- The timestamps of a page's notices of host `j`. -/
def Page.keys (page : Page) (j : Nat) : List Timestamp :=
  (page.notices j).map WriteNotice.timestamp

def Page.Live (page : Page) : Prop := page.state ≠ .unmap ∧ page.state ≠ .miss

/-- Page `p` has a notice of host `j` with this timestamp. -/
def Mem.Noted (m : Mem) (j : Nat) (ts : Timestamp) (p : Nat) : Prop :=
  ts ∈ (m.pageArray p).keys j

instance (m : Mem) (j : Nat) (ts : Timestamp) (p : Nat) : Decidable (m.Noted j ts p) :=
  inferInstanceAs (Decidable (ts ∈ (m.pageArray p).keys j))

structure Mem.Frame (m m' : Mem) : Prop where
  keys : ∀ p j, (m'.pageArray p).keys j = (m.pageArray p).keys j
  live : ∀ p < m.pagenum, (m.pageArray p).Live → (m'.pageArray p).Live
  unmap : ∀ p, m'.pagenum ≤ p → (m.pageArray p).state = .unmap →
    (m'.pageArray p).state = .unmap
  mapped : ∀ p, (m.pageArray p).state ≠ .unmap → (m'.pageArray p).state ≠ .unmap
  pagenum : m.pagenum ≤ m'.pagenum
  procArray : m'.procArray = m.procArray
  intervalNow : m'.intervalNow = m.intervalNow
  barrierTimestamps : m'.barrierTimestamps = m.barrierTimestamps

/-- A notice at the end of an interval's list. -/
def Interval.addNotice (p : Nat) (interval : Interval) : Interval :=
  { interval with notices := interval.notices ++ [p] }

/-- A store to page `p` made a notice in `intervalNow`. -/
structure Mem.Wrote (me p : Nat) (m m' : Mem) : Prop where
  bound : p < maxPageNum
  rdonly : (m.pageArray p).state = .rdonly
  key : (m'.pageArray p).keys me = (m.now me).timestamp :: (m.pageArray p).keys me
  keys : ∀ q j, q ≠ p ∨ j ≠ me →
    (m'.pageArray q).keys j = (m.pageArray q).keys j
  live : ∀ q < m.pagenum, (m.pageArray q).Live → (m'.pageArray q).Live
  unmap : ∀ q, m'.pagenum ≤ q → (m.pageArray q).state = .unmap →
    (m'.pageArray q).state = .unmap
  mapped : ∀ q, (m.pageArray q).state ≠ .unmap → (m'.pageArray q).state ≠ .unmap
  pagenum : m.pagenum ≤ m'.pagenum
  procArray : m'.procArray = upd m.procArray me ((m.procArray me).modify
    ((m.procArray me).length - m.intervalNow) (Interval.addNotice p))
  intervalNow : m'.intervalNow = m.intervalNow
  barrierTimestamps : m'.barrierTimestamps = m.barrierTimestamps

theorem Page.live_rdonly {page : Page} (h : page.state = .rdonly) : page.Live := by
  simp [Live, h]

section

variable {n me p : Nat} {m m' m'' : Mem} {page : Page}

@[simp] theorem setPage_self (m : Mem) (p : Nat) (page : Page) :
    (m.setPage p page).pageArray p = page := upd_self _ _ _

theorem setPage_ne {q : Nat} (h : q ≠ p) :
    (m.setPage p page).pageArray q = m.pageArray q := upd_ne h

/-! ## Frames -/

theorem Mem.Frame.refl (m : Mem) : m.Frame m :=
  ⟨fun _ _ => rfl, fun _ _ h => h, fun _ _ h => h, fun _ h => h, Nat.le_refl _, rfl, rfl,
    rfl⟩

theorem Mem.Frame.trans (h₁ : m.Frame m') (h₂ : m'.Frame m'') : m.Frame m'' where
  keys p j := (h₂.keys p j).trans (h₁.keys p j)
  live p hp hl := h₂.live p (Nat.lt_of_lt_of_le hp h₁.pagenum) (h₁.live p hp hl)
  unmap p hp hu := h₂.unmap p hp (h₁.unmap p (Nat.le_trans h₂.pagenum hp) hu)
  mapped p h := h₂.mapped p (h₁.mapped p h)
  pagenum := Nat.le_trans h₁.pagenum h₂.pagenum
  procArray := h₂.procArray.trans h₁.procArray
  intervalNow := h₂.intervalNow.trans h₁.intervalNow
  barrierTimestamps := h₂.barrierTimestamps.trans h₁.barrierTimestamps

theorem Mem.Frame.now (h : m.Frame m') : m'.now me = m.now me := by
  unfold Mem.now
  rw [h.procArray, h.intervalNow]

theorem Mem.Frame.noted (h : m.Frame m') {j : Nat} {ts : Timestamp} {p : Nat} :
    m'.Noted j ts p ↔ m.Noted j ts p := by
  unfold Mem.Noted
  rw [h.keys]

/-- The pages are the same. -/
theorem Mem.Frame.of_pages (hp : m'.pageArray = m.pageArray)
    (hn : m'.pagenum = m.pagenum) (ha : m'.procArray = m.procArray)
    (hi : m'.intervalNow = m.intervalNow)
    (hb : m'.barrierTimestamps = m.barrierTimestamps) : m.Frame m' :=
  ⟨fun p j => by rw [hp], fun p _ h => by rw [hp]; exact h,
    fun p _ h => by rw [hp]; exact h, fun p h => by rw [hp]; exact h,
    Nat.le_of_eq hn.symm, ha, hi, hb⟩

/-- A page with the same keys in a state that is as good. -/
theorem Mem.Frame.setPage (hk : ∀ j, page.keys j = (m.pageArray p).keys j)
    (hl : (m.pageArray p).Live → page.Live)
    (hu : (m.pageArray p).state = .unmap ↔ page.state = .unmap) :
    m.Frame (m.setPage p page) := by
  refine ⟨fun q j => ?_, fun q _ h => ?_, fun q _ h => ?_, fun q h => ?_, Nat.le_refl _,
    rfl, rfl, rfl⟩ <;> by_cases hq : q = p
  · subst hq
    rw [setPage_self]
    exact hk j
  · rw [setPage_ne hq]
  · subst hq
    rw [setPage_self]
    exact hl h
  · rw [setPage_ne hq]
    exact h
  · subst hq
    rw [setPage_self]
    exact hu.mp h
  · rw [setPage_ne hq]
    exact h
  · subst hq
    rw [setPage_self]
    exact fun hn => h (hu.mpr hn)
  · rw [setPage_ne hq]
    exact h

/-- A page with the same keys in the same state. -/
theorem Mem.Frame.setData (hk : ∀ j, page.keys j = (m.pageArray p).keys j)
    (hs : page.state = (m.pageArray p).state) : m.Frame (m.setPage p page) :=
  .setPage hk (by unfold Page.Live; rw [hs]; exact id) (by rw [hs])

/-- A mapped page in a state that is not worse. -/
theorem Mem.Frame.setState {state : PageState} {prot : Prot}
    (hu : (m.pageArray p).state ≠ .unmap) (hs : state ≠ .unmap) (hm : state ≠ .miss) :
    m.Frame (m.setPage p { m.pageArray p with state := state, prot := prot }) :=
  .setPage (fun _ => rfl) (fun _ => ⟨hs, hm⟩)
    ⟨fun h => absurd h hu, fun h => absurd h hs⟩

theorem createTwinPage_frame (p : Nat) (m : Mem) : m.Frame (createTwinPage p m).2 := by
  unfold createTwinPage
  dsimp only
  split
  · exact .refl m
  · split
    · exact .refl m
    · split
      · exact .refl m
      · exact .setData (fun _ => rfl) rfl

theorem freeTwinPage_frame (p : Nat) (m : Mem) : m.Frame (freeTwinPage p m).2 := by
  unfold freeTwinPage
  dsimp only
  split
  · exact .refl m
  · split
    · exact .refl m
    · split
      · exact .refl m
      · exact .setData (fun _ => rfl) rfl

theorem createTwinPage_state (p q : Nat) (m : Mem) :
    ((createTwinPage p m).2.pageArray q).state = (m.pageArray q).state := by
  unfold createTwinPage
  dsimp only
  split
  · rfl
  · split
    · rfl
    · split
      · rfl
      · by_cases hq : q = p
        · rw [hq, setPage_self]
        · rw [setPage_ne hq]

/-! ## A write notice -/

theorem createWriteNotice_wrote (hp : p < maxPageNum)
    (hst : (m.pageArray p).state = .rdonly) :
    m.Wrote me p (createWriteNotice me p m).2 := by
  unfold createWriteNotice
  dsimp only
  rw [if_neg (by omega), if_neg (by simp [hst])]
  have hstate : ∀ q, ((m.setPage p { m.pageArray p with
      notices := upd (m.pageArray p).notices me
        (⟨(m.now me).timestamp, none⟩ :: (m.pageArray p).notices me) }).pageArray q).state =
      (m.pageArray q).state := by
    intro q
    by_cases hq : q = p
    · rw [hq, setPage_self]
    · rw [setPage_ne hq]
  refine ⟨hp, hst, ?_, fun q j hqj => ?_, fun q _ h => ?_, fun q _ h => ?_, fun q h => ?_,
    Nat.le_refl _, rfl, rfl, rfl⟩
  · simp [Page.keys]
  · by_cases hq : q = p
    · subst hq
      have hj : j ≠ me := hqj.resolve_left fun h => h rfl
      simp [Page.keys, upd_ne hj]
    · simp [setPage_ne hq]
  · unfold Page.Live at h ⊢
    dsimp only
    rw [hstate q]
    exact h
  · exact (hstate q).trans h
  · exact fun hn => h ((hstate q).symm.trans hn)

theorem Mem.Wrote.trans_frame (h₁ : m.Wrote me p m') (h₂ : m'.Frame m'') :
    m.Wrote me p m'' where
  bound := h₁.bound
  rdonly := h₁.rdonly
  key := (h₂.keys p me).trans h₁.key
  keys q j hqj := (h₂.keys q j).trans (h₁.keys q j hqj)
  live q hq h := h₂.live q (Nat.lt_of_lt_of_le hq h₁.pagenum) (h₁.live q hq h)
  unmap q hq h := h₂.unmap q hq (h₁.unmap q (Nat.le_trans h₂.pagenum hq) h)
  mapped p h := h₂.mapped p (h₁.mapped p h)
  pagenum := Nat.le_trans h₁.pagenum h₂.pagenum
  procArray := h₂.procArray.trans h₁.procArray
  intervalNow := h₂.intervalNow.trans h₁.intervalNow
  barrierTimestamps := h₂.barrierTimestamps.trans h₁.barrierTimestamps

theorem Mem.Frame.trans_wrote (h₁ : m.Frame m') (h₂ : m'.Wrote me p m'')
    (hst : (m.pageArray p).state = .rdonly) : m.Wrote me p m'' where
  bound := h₂.bound
  rdonly := hst
  key := by rw [h₂.key, h₁.now, h₁.keys]
  keys q j hqj := (h₂.keys q j hqj).trans (h₁.keys q j)
  live q hq h := h₂.live q (Nat.lt_of_lt_of_le hq h₁.pagenum) (h₁.live q hq h)
  unmap q hq h := h₂.unmap q hq (h₁.unmap q (Nat.le_trans h₂.pagenum hq) h)
  mapped p h := h₂.mapped p (h₁.mapped p h)
  pagenum := Nat.le_trans h₁.pagenum h₂.pagenum
  procArray := by rw [h₂.procArray, h₁.procArray, h₁.intervalNow]
  intervalNow := h₂.intervalNow.trans h₁.intervalNow
  barrierTimestamps := h₂.barrierTimestamps.trans h₁.barrierTimestamps

/-! ## Allocation -/

theorem allocPage_frame (n me : Nat) (m : Mem) : m.Frame (allocPage n me m) := by
  unfold allocPage
  refine ⟨fun q j => ?_, fun q hq h => ?_, fun q hq h => ?_, fun q h => ?_, Nat.le_succ _,
    rfl, rfl, rfl⟩
  · by_cases hqp : q = m.pagenum
    · subst hqp
      simp [Page.keys]
    · dsimp only
      rw [upd_ne hqp]
  · dsimp only
    rw [upd_ne (by omega)]
    exact h
  · dsimp only at hq ⊢
    rw [upd_ne (by omega)]
    exact h
  · dsimp only
    by_cases hqp : q = m.pagenum
    · subst hqp
      rw [upd_self]
      dsimp only
      split <;> exact nofun
    · rw [upd_ne hqp]
      exact h

theorem allocPages_frame (n me k : Nat) (m : Mem) : m.Frame (allocPages n me k m) := by
  induction k generalizing m with
  | zero => exact .refl m
  | succ k ih => exact (allocPage_frame n me m).trans (ih _)

theorem miAlloc_frame (n me : Nat) (size : Int) (m : Mem) :
    m.Frame (miAlloc n me size m).2 := by
  unfold miAlloc
  split
  · exact .refl m
  · dsimp only
    split
    · exact .refl m
    · exact allocPages_frame n me _ m

theorem allocPages_flags (n me k : Nat) (m : Mem) :
    (allocPages n me k m).fetchDiffWaitFlag = m.fetchDiffWaitFlag ∧
      (allocPages n me k m).fetchWNIWaitFlag = m.fetchWNIWaitFlag := by
  induction k generalizing m with
  | zero => exact ⟨rfl, rfl⟩
  | succ k ih => exact ih (allocPage n me m)

theorem miAlloc_flags (n me : Nat) (size : Int) (m : Mem) :
    (miAlloc n me size m).2.fetchDiffWaitFlag = m.fetchDiffWaitFlag ∧
      (miAlloc n me size m).2.fetchWNIWaitFlag = m.fetchWNIWaitFlag := by
  unfold miAlloc
  split
  · exact ⟨rfl, rfl⟩
  · dsimp only
    split
    · exact ⟨rfl, rfl⟩
    · exact allocPages_flags n me _ m

/-! ## Faults -/

/-- What a memory step of the main thread does: nothing to the notices, or one
of its own. -/
def Mem.Quiet (me : Nat) (m m' : Mem) : Prop := m.Frame m' ∨ ∃ p, m.Wrote me p m'

theorem Mem.Quiet.trans_frame (h₁ : m.Quiet me m') (h₂ : m'.Frame m'') :
    m.Quiet me m'' :=
  h₁.imp (fun h => h.trans h₂) fun ⟨p, h⟩ => ⟨p, h.trans_frame h₂⟩

/-- The host a diff is awaited from. -/
def Pc.diffFrom : Pc → Option Nat
  | .diffWait _ _ i _ => some i
  | _ => none

/-- The main thread faults on a mapped page and awaits diffs of other hosts. -/
structure Pc.Sound (n me : Nat) (m : Mem) (pc : Pc) : Prop where
  mapped : ∀ p, pc.faulting = some p → (m.pageArray p).state ≠ .unmap
  source : ∀ i, pc.diffFrom = some i → i < n ∧ i ≠ me

theorem Pc.Sound.of_none {pc : Pc} (h : pc.faulting = none) : pc.Sound n me m := by
  refine ⟨fun p hp => (by rw [h] at hp; cases hp), fun i hi => ?_⟩
  cases pc with
  | diffWait => cases h
  | run | lockWait | wniWait | barrierWait | pageWait => cases hi

/-- The packets of a message, as far as its reader takes them. -/
def Msg.packets : Msg → List WnPacket
  | .grantWnI _ k packets => packets.take k
  | .grantEnterBarrierInfo _ k packets => packets.take k
  | .grantExitBarrierInfo _ k packets => packets.take k
  | _ => []

/-- What a fault asks for. -/
def Msg.forFault : Msg → Bool
  | .fetchPage _ | .fetchDiff _ _ => true
  | _ => false

theorem Msg.packets_of_forFault {msg : Msg} (h : msg.forFault = true) :
    msg.packets = [] := by
  cases msg <;> first | rfl | cases h

/-- A step in a fault asks for no diff, or for that of one notice the host has
recorded, and then spins for it. -/
inductive AsksDiff (n me : Nat) (m m' : Mem) : Out → Pc → Prop
  | none {out : Out} {pc : Pc} : m'.fetchDiffWaitFlag = m.fetchDiffWaitFlag →
      (∀ j p ts, (j, Msg.fetchDiff p ts) ∉ out) → pc.diffFrom = none →
      AsksDiff n me m m' out pc
  | one (j p : Nat) (ts : Timestamp) (pageTimestamp : Option Timestamp) (rest : Nat) :
      m'.fetchDiffWaitFlag = true → j < n → j ≠ me → m.Noted j ts p →
      AsksDiff n me m m' [(j, .fetchDiff p ts)] (.diffWait p pageTimestamp j rest)

/-- What a step of the main thread in a fault does to the memory, and what it
asks other hosts for. -/
structure FaultSpec (n me : Nat) (m m' : Mem) (out : Out) (pc : Pc) : Prop where
  mem : m.Quiet me m'
  sound : pc.Sound n me m'
  plain : ∀ x ∈ out, x.2.forFault = true
  asks : AsksDiff n me m m' out pc
  wniFlag : m'.fetchWNIWaitFlag = m.fetchWNIWaitFlag

theorem AsksDiff.noted {out : Out} {pc : Pc} (h : AsksDiff n me m m' out pc) {j p : Nat}
    {ts : Timestamp} (hx : (j, Msg.fetchDiff p ts) ∈ out) :
    j < n ∧ j ≠ me ∧ m.Noted j ts p := by
  cases h with
  | none _ hno _ => exact absurd hx (hno j p ts)
  | one _ _ _ _ _ _ hn hne hk =>
      rw [List.mem_singleton] at hx
      cases hx
      exact ⟨hn, hne, hk⟩

theorem AsksDiff.of_flag {out : Out} {pc : Pc} (h : AsksDiff n me m m' out pc)
    (hf : m''.fetchDiffWaitFlag = m'.fetchDiffWaitFlag) : AsksDiff n me m m'' out pc := by
  cases h with
  | none hf' hno hpc => exact .none (hf.trans hf') hno hpc
  | one j p ts pageTs rest hf' hn hne hk =>
      exact .one j p ts pageTs rest (hf.trans hf') hn hne hk

theorem Pc.diffFrom_of_faulting {pc : Pc} (h : pc.faulting = none) : pc.diffFrom = none := by
  cases pc <;> first | rfl | cases h

/-- A step that asks for nothing. -/
theorem FaultSpec.silent {pc : Pc} (hm : m.Quiet me m') (hpc : pc.faulting = none)
    (hd : m'.fetchDiffWaitFlag = m.fetchDiffWaitFlag)
    (hw : m'.fetchWNIWaitFlag = m.fetchWNIWaitFlag) : FaultSpec n me m m' [] pc :=
  ⟨hm, .of_none hpc, fun _ h => (nomatch h),
    .none hd (fun _ _ _ h => nomatch h) (Pc.diffFrom_of_faulting hpc), hw⟩

theorem nextDiff_mem {ts : Option Timestamp} {list : List WriteNotice}
    {x : Timestamp × Nat} (h : nextDiff n ts list = some x) :
    x.1 ∈ list.map WriteNotice.timestamp := by
  induction list with
  | nil => cases h
  | cons wn rest ih =>
      rw [nextDiff] at h
      split at h
      · cases h
      · split at h
        · cases h
          exact List.mem_cons_self
        · exact List.mem_cons_of_mem _ (ih h)

theorem nextDiffHost_mem {ts : Option Timestamp} {page : Page} {hosts : List Nat}
    {x : Nat × Timestamp × Nat} (h : nextDiffHost n me ts page hosts = some x) :
    x.1 ∈ hosts ∧ x.1 ≠ me ∧ x.2.1 ∈ page.keys x.1 := by
  induction hosts with
  | nil => cases h
  | cons i is ih =>
      rw [nextDiffHost] at h
      split at h
      · obtain ⟨hm, hr⟩ := ih h
        exact ⟨List.mem_cons_of_mem _ hm, hr⟩
      · next hi =>
          split at h
          · next hd =>
              cases h
              exact ⟨List.mem_cons_self, hi, nextDiff_mem hd⟩
          · obtain ⟨hm, hr⟩ := ih h
            exact ⟨List.mem_cons_of_mem _ hm, hr⟩

theorem requestDiff_spec {ts : Option Timestamp} {request : Option (Nat × Timestamp × Nat)}
    (hu : (m.pageArray p).state ≠ .unmap)
    (h : ∀ x, request = some x → x.1 < n ∧ x.1 ≠ me ∧ x.2.1 ∈ (m.pageArray p).keys x.1) :
    FaultSpec n me m (requestDiff p ts request m).1 (requestDiff p ts request m).2.1
      (requestDiff p ts request m).2.2 := by
  cases request with
  | none => exact .silent (Or.inl (.setState hu nofun nofun)) rfl rfl rfl
  | some x =>
      obtain ⟨hn, hne, hk⟩ := h x rfl
      refine ⟨Or.inl (.of_pages rfl rfl rfl rfl rfl), ⟨fun q hq => ?_, fun i hi => ?_⟩,
        fun y hy => ?_, .one _ _ _ _ _ rfl hn hne hk, rfl⟩
      · cases hq
        exact hu
      · cases hi
        exact ⟨hn, hne⟩
      · rw [List.mem_singleton.mp hy]
        rfl

theorem fetchDiff_spec (hu : (m.pageArray p).state ≠ .unmap) :
    FaultSpec n me m (fetchDiff n me p m).1 (fetchDiff n me p m).2.1
      (fetchDiff n me p m).2.2 := by
  refine requestDiff_spec hu fun x hx => ?_
  obtain ⟨hm, hne, hk⟩ := nextDiffHost_mem hx
  exact ⟨List.mem_range.mp hm, hne, hk⟩

theorem fetchDiffResume_spec {ts : Option Timestamp} {i rest : Nat}
    (hu : (m.pageArray p).state ≠ .unmap) (hi : i < n) (hne : i ≠ me) :
    FaultSpec n me m (fetchDiffResume n me p ts i rest m).1
      (fetchDiffResume n me p ts i rest m).2.1
      (fetchDiffResume n me p ts i rest m).2.2 := by
  refine requestDiff_spec hu fun x hx => ?_
  split at hx
  · next hd =>
      cases hx
      have hmem := nextDiff_mem hd
      rw [List.map_drop] at hmem
      exact ⟨hi, hne, List.mem_of_mem_drop hmem⟩
  · obtain ⟨hm, hne, hk⟩ := nextDiffHost_mem hx
    rw [List.mem_range'_1] at hm
    exact ⟨by omega, hne, hk⟩

theorem createTwinPage_flags (p : Nat) (m : Mem) :
    (createTwinPage p m).2.fetchDiffWaitFlag = m.fetchDiffWaitFlag ∧
      (createTwinPage p m).2.fetchWNIWaitFlag = m.fetchWNIWaitFlag := by
  unfold createTwinPage
  dsimp only
  split
  · exact ⟨rfl, rfl⟩
  · split
    · exact ⟨rfl, rfl⟩
    · split <;> exact ⟨rfl, rfl⟩

theorem createWriteNotice_flags (me p : Nat) (m : Mem) :
    (createWriteNotice me p m).2.fetchDiffWaitFlag = m.fetchDiffWaitFlag ∧
      (createWriteNotice me p m).2.fetchWNIWaitFlag = m.fetchWNIWaitFlag := by
  unfold createWriteNotice
  dsimp only
  split
  · exact ⟨rfl, rfl⟩
  · split <;> exact ⟨rfl, rfl⟩

/-- What `fetchPage` sends and sets, if it finds a host to ask. -/
theorem fetchPage_eq_some {out : Out} (h : fetchPage n me p m = some (m', out)) :
    ∃ hostid, fetchPageDest n me p (m.pageArray p) = some hostid ∧
      m' = { m with fetchPageWaitFlag := true } ∧
      out = [(hostid, .fetchPage p)] := by
  unfold fetchPage at h
  dsimp only at h
  split at h
  · cases h
  · split at h
    · cases h
    · split at h
      · cases h
      · next hostid hd =>
          rw [Option.some.injEq, Prod.mk.injEq] at h
          exact ⟨hostid, hd, h.1.symm, h.2.symm⟩

/-- A fault on a `RDONLY` page that does not kill the process. -/
theorem segvHandler_first {out : Out} {pc : Pc} (hst : (m.pageArray p).state = .rdonly)
    (h : segvHandler n me p m = some (m', out, pc)) :
    p < maxPageNum ∧ out = [] ∧ pc = .run ∧
      m' = (createWriteNotice me p (createTwinPage p m).2).2.setPage p
        { (createWriteNotice me p (createTwinPage p m).2).2.pageArray p with
          state := .write
          prot := .readWrite } := by
  unfold segvHandler at h
  split at h
  · cases h
  · next hp =>
      simp only [hst] at h
      split at h
      · cases h
      · cases h
        exact ⟨by omega, rfl, rfl, rfl⟩

/-- A store to a `RDONLY` page makes one notice. -/
theorem segvHandler_wrote {out : Out} {pc : Pc} (hst : (m.pageArray p).state = .rdonly)
    (h : segvHandler n me p m = some (m', out, pc)) : m.Wrote me p m' := by
  obtain ⟨hp, -, -, rfl⟩ := segvHandler_first hst h
  have hst' := (createTwinPage_state p p m).trans hst
  have hw : (createTwinPage p m).2.Wrote me p
      (createWriteNotice me p (createTwinPage p m).2).2 := createWriteNotice_wrote hp hst'
  have hu := hw.mapped p (by rw [hst']; exact nofun)
  exact (createTwinPage_frame p m).trans_wrote
    (hw.trans_frame (.setState hu nofun nofun)) hst

theorem segvHandler_spec {out : Out} {pc : Pc}
    (h : segvHandler n me p m = some (m', out, pc)) : FaultSpec n me m m' out pc := by
  have hwrote := fun hst => segvHandler_wrote hst h
  have hfirst := fun hst => segvHandler_first hst h
  unfold segvHandler at h
  split at h
  · cases h
  · next hp =>
      cases hst : (m.pageArray p).state <;> simp only [hst] at h
      case rdonly =>
        obtain ⟨hd, hf⟩ := createTwinPage_flags p m
        obtain ⟨hd', hf'⟩ := createWriteNotice_flags me p (createTwinPage p m).2
        have hq := hwrote hst
        obtain ⟨-, rfl, rfl, rfl⟩ := hfirst hst
        exact .silent (Or.inr ⟨p, hq⟩) rfl (hd'.trans hd) (hf'.trans hf)
      case write =>
        cases h
        exact .silent (Or.inl (.refl m)) rfl rfl rfl
      case miss =>
        split at h
        · next hf =>
            cases h
            obtain ⟨hostid, -, rfl, rfl⟩ := fetchPage_eq_some hf
            refine ⟨Or.inl (.of_pages rfl rfl rfl rfl rfl),
              ⟨fun q hq => ?_, fun i hi => nomatch hi⟩, fun y hy => ?_,
              .none rfl (fun j q t hx => ?_) rfl, rfl⟩
            · cases hq
              rw [hst]
              exact nofun
            · rw [List.mem_singleton.mp hy]
              rfl
            · rw [List.mem_singleton] at hx
              cases hx
        · cases h
          exact .silent (Or.inl (.setState (by rw [hst]; exact nofun) nofun nofun))
            rfl rfl rfl
      case invalid =>
        have hspec : FaultSpec n me m (fetchDiff n me p m).1 (fetchDiff n me p m).2.1
            (fetchDiff n me p m).2.2 := fetchDiff_spec (by rw [hst]; exact nofun)
        rw [Option.some.injEq] at h
        rw [h] at hspec
        exact hspec
      case unmap => cases h

/-! ## Diffs and pages -/

theorem setDiff_keys (ts : Timestamp) (diff : Option Content) (list : List WriteNotice) :
    (setDiff ts diff list).map WriteNotice.timestamp = list.map WriteNotice.timestamp := by
  induction list with
  | nil => rfl
  | cons wn rest ih =>
      rw [setDiff]
      split
      · rfl
      · rw [List.map_cons, ih, List.map_cons]

theorem upd_keys {list : List WriteNotice} {j : Nat}
    (h : list.map WriteNotice.timestamp = (m.pageArray p).keys j) (i : Nat) :
    (upd (m.pageArray p).notices j list i).map WriteNotice.timestamp =
      (m.pageArray p).keys i := by
  by_cases hij : i = j
  · subst hij
    rw [upd_self, h]
  · rw [upd_ne hij]
    rfl

theorem makeDiff_frame (ts : Timestamp) : m.Frame (makeDiff me p ts m) := by
  unfold makeDiff
  dsimp only
  have hf : m.Frame (m.setPage p { m.pageArray p with
      notices := upd (m.pageArray p).notices me
        (setDiff ts (createLocalDiff (m.pageArray p).memory (m.pageArray p).twinPage)
          ((m.pageArray p).notices me)) }) :=
    .setData (upd_keys (setDiff_keys ..)) rfl
  split
  · next hst =>
      have ht := freeTwinPage_frame p (m.setPage p { m.pageArray p with
        notices := upd (m.pageArray p).notices me
          (setDiff ts (createLocalDiff (m.pageArray p).memory (m.pageArray p).twinPage)
            ((m.pageArray p).notices me)) })
      refine (hf.trans ht).trans (.setState ?_ nofun nofun)
      exact (hf.trans ht).mapped p (by rw [hst]; exact nofun)
  · exact hf

theorem grantDiff_frame (hostid : Nat) (ts : Timestamp) :
    m.Frame (grantDiff n me hostid ts p m).2.1 := by
  unfold grantDiff
  dsimp only
  split
  · exact .refl m
  · split
    · exact .refl m
    · split
      · exact .refl m
      · split
        · exact .refl m
        · dsimp only
          split
          · exact .refl m
          · exact makeDiff_frame ts

theorem handleGrantDiffMsg_frame (sender : Nat) (ts : Timestamp) (diff : Content) :
    m.Frame (handleGrantDiffMsg sender ts p diff m) := by
  have hflag : ∀ m : Mem, m.Frame { m with fetchDiffWaitFlag := false } :=
    fun m => .of_pages rfl rfl rfl rfl rfl
  unfold handleGrantDiffMsg
  dsimp only
  split
  · exact hflag m
  · refine Mem.Frame.trans ?_ (hflag _)
    refine .setData (upd_keys ?_) rfl
    split
    · rfl
    · exact setDiff_keys ..

theorem handleGrantPageMsg_frame (content : Content) :
    m.Frame (handleGrantPageMsg me p content m) := by
  have hflag : ∀ m : Mem, m.Frame { m with fetchPageWaitFlag := false } :=
    fun m => .of_pages rfl rfl rfl rfl rfl
  unfold handleGrantPageMsg
  dsimp only
  refine Mem.Frame.trans ?_ (hflag _)
  exact .setData (fun _ => rfl) rfl

theorem storeBytes_frame (o : Nat) (bytes : List Byte) (m : Mem) :
    m.Frame (m.storeBytes p o bytes) := .setData (fun _ => rfl) rfl

/-! ## Accesses and faults of a host -/

variable {h : Host} {r : Host × Out}

/-- What the main thread of a host does in or around a fault. -/
def Host.FaultStep (n me : Nat) (h : Host) (r : Host × Out) : Prop :=
  FaultSpec n me h.mem r.1.mem r.2 r.1.pc

theorem Host.fault_step (hr : h.fault n me p = some r) : h.FaultStep n me r := by
  obtain ⟨x, hx, rfl⟩ := Option.map_eq_some_iff.mp hr
  exact segvHandler_spec hx

theorem Host.load_step (hpc : h.pc = .run) (hr : h.load n me p = some r) :
    h.FaultStep n me r := by
  have hsame : h.FaultStep n me (h, []) :=
    .silent (Or.inl (.refl _)) (by rw [hpc]; rfl) rfl rfl
  unfold Host.load at hr
  split at hr
  · cases hr
    exact hsame
  · exact Host.fault_step hr

theorem Pc.Sound.of_frame {pc : Pc} (hs : pc.Sound n me m) (hf : m.Frame m') :
    pc.Sound n me m' := ⟨fun q hq => hf.mapped q (hs.mapped q hq), hs.source⟩

theorem Host.store_step {o : Nat} {bytes : List Byte} (hpc : h.pc = .run)
    (hr : h.store n me p o bytes = some r) : h.FaultStep n me r := by
  unfold Host.store at hr
  split at hr
  · cases hr
    exact .silent (Or.inl (storeBytes_frame o bytes _)) (by rw [hpc]; rfl) rfl rfl
  · obtain ⟨x, hx, rfl⟩ := Option.map_eq_some_iff.mp hr
    obtain ⟨hm, hs, hp, hd, hwf⟩ := Host.fault_step hx
    dsimp only
    split
    · exact ⟨hm.trans_frame (storeBytes_frame o bytes _),
        hs.of_frame (storeBytes_frame o bytes _), hp, hd.of_flag rfl, hwf⟩
    · exact ⟨hm, hs, hp, hd, hwf⟩

/-- The main thread leaves a page fault's wait, or spins for the next diff. -/
theorem Host.resume_step (hs : h.pc.Sound n me h.mem) {p : Nat}
    (hpc : h.pc.faulting = some p) (hr : h.resume n me = some r) :
    h.FaultStep n me r := by
  have hu := hs.mapped p hpc
  cases hp : h.pc with
  | run | lockWait | wniWait | barrierWait => rw [hp] at hpc; cases hpc
  | pageWait q =>
      rw [hp] at hpc
      cases hpc
      simp only [Host.resume, hp] at hr
      split at hr
      · cases hr
      · cases hr
        exact .silent (Or.inl (.setState hu nofun nofun)) rfl rfl rfl
  | diffWait q ts i rest =>
      obtain ⟨hi, hne⟩ := hs.source i (by rw [hp]; rfl)
      rw [hp] at hpc
      cases hpc
      simp only [Host.resume, hp] at hr
      split at hr
      · cases hr
      · cases hr
        exact fetchDiffResume_spec hu hi hne

end

end Midsm
