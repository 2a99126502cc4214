import Midsm.Proofs.Linked
import Midsm.Ref.HeapSystem

/-!
# What the pointers of a host stand for

`HeapMem.abs` reads the lists off the cells. A change of the cells is a change of the
lists, and this file has one lemma for each way in which the functions of `mem.c` change
a cell: an entry of `pageArray`, a stored diff, a new interval, a new notice. What the
functions make of them is in `HeapSim`.

`Mem` keeps the timestamp of a notice's interval, and that of `startInterval`, where the
program keeps a pointer. `Later` is what makes the two agree: an interval never changes
its timestamp.
-/

namespace Midsm

open Midsm.Lib

/-- A notice, read off its cell. -/
def Heap.notice (h : Heap) (wn : Ptr) : WriteNotice :=
  ⟨h.noticeTime wn, (h.writenotices wn).diffAddress⟩

def HeapMem.page (g : Lists) (m : HeapMem) (p : Nat) : Page where
  address := (m.heap.pageArray p).address
  state := (m.heap.pageArray p).state
  notices j := (g.ofPage (p, j)).map m.heap.notice
  twinPage := (m.heap.pageArray p).twinPage
  startInterval := (m.startInterval p).map fun a => (m.heap.intervals a).timestamp
  content := (m.heap.pageArray p).content
  prot := (m.heap.pageArray p).prot

/-- The lists of a host. -/
def HeapMem.abs (me : Nat) (g : Lists) (m : HeapMem) : Mem where
  pageArray := m.page g
  procArray j := (g.ofHost j).map (g.interval m.heap)
  intervalNow := (g.ofHost me).length
  fetchPageWaitFlag := m.fetchPageWaitFlag
  fetchDiffWaitFlag := m.fetchDiffWaitFlag
  fetchWNIWaitFlag := m.heap.fetchWNIWaitFlag
  pagenum := m.pagenum
  globalAddress := m.globalAddress
  barrierTimestamps := m.heap.barrierTimestamps

structure HeapMem.Valid (me : Nat) (g : Lists) (m : HeapMem) : Prop where
  linked : Linked me g m.heap
  start : ∀ p, ∀ a ∈ m.startInterval p, a < m.heap.intervalNum

/-- What a pointer that a waiting main thread keeps can count on. -/
structure Later (g : Lists) (h : Heap) (g' : Lists) (h' : Heap) : Prop where
  intervalNum : h.intervalNum ≤ h'.intervalNum
  timestamp : ∀ a < h.intervalNum, (h'.intervals a).timestamp = (h.intervals a).timestamp
  ofPage : ∀ i, ∃ front, g'.ofPage i = front ++ g.ofPage i

/-- The cells change to `h'`, and the lists with them to `m`. -/
structure Moves (me : Nat) (g : Lists) (h : HeapMem) (g' : Lists) (h' : HeapMem) (m : Mem) :
    Prop where
  valid : h'.Valid me g'
  abs : h'.abs me g' = m
  later : Later g h.heap g' h'.heap

def Mirrors (me : Nat) (g : Lists) (h h' : HeapMem) (m : Mem) : Prop :=
  ∃ g', Moves me g h g' h' m

section

variable {me j p : Nat} {g g' g'' : Lists} {h h' h'' : HeapMem} {k k' : Heap} {m m' : Mem}
  {a wn : Ptr} {ts : Timestamp} {isBarrier : Bool}

theorem Later.refl (g : Lists) (k : Heap) : Later g k g k :=
  ⟨le_rfl, fun _ _ => rfl, fun _ => ⟨[], rfl⟩⟩

/-- The intervals and the lists are as they were. -/
theorem Later.of_eq (g : Lists) (hi : k'.intervals = k.intervals)
    (hn : k'.intervalNum = k.intervalNum) : Later g k g k' :=
  ⟨hn.ge, fun _ _ => by rw [hi], fun _ => ⟨[], rfl⟩⟩

theorem Later.trans {k'' : Heap} (h₁ : Later g k g' k') (h₂ : Later g' k' g'' k'') :
    Later g k g'' k'' where
  intervalNum := h₁.intervalNum.trans h₂.intervalNum
  timestamp a ha := by
    rw [h₂.timestamp a (ha.trans_le h₁.intervalNum), h₁.timestamp a ha]
  ofPage i := by
    obtain ⟨front, hf⟩ := h₁.ofPage i
    obtain ⟨front', hf'⟩ := h₂.ofPage i
    exact ⟨front' ++ front, by rw [hf', hf, List.append_assoc]⟩

theorem Moves.refl (hv : h.Valid me g) : Moves me g h g h (h.abs me g) :=
  ⟨hv, rfl, .refl g h.heap⟩

theorem Moves.trans (h₁ : Moves me g h g' h' m) (h₂ : Moves me g' h' g'' h'' m') :
    Moves me g h g'' h'' m' :=
  ⟨h₂.valid, h₂.abs, h₁.later.trans h₂.later⟩

theorem Moves.mirrors (h₁ : Moves me g h g' h' m) : Mirrors me g h h' m := ⟨g', h₁⟩

theorem Moves.then (h₁ : Moves me g h g' h' m) (h₂ : Mirrors me g' h' h'' m') :
    Mirrors me g h h'' m' := by
  obtain ⟨g'', h₂⟩ := h₂
  exact ⟨g'', h₁.trans h₂⟩

/-- Lists that are the same field by field. -/
theorem Mem.eq_of (hp : m.pageArray = m'.pageArray) (hl : m.procArray = m'.procArray)
    (hi : m.intervalNow = m'.intervalNow) (hf : m.fetchPageWaitFlag = m'.fetchPageWaitFlag)
    (hd : m.fetchDiffWaitFlag = m'.fetchDiffWaitFlag)
    (hw : m.fetchWNIWaitFlag = m'.fetchWNIWaitFlag) (hn : m.pagenum = m'.pagenum)
    (ha : m.globalAddress = m'.globalAddress)
    (hb : m.barrierTimestamps = m'.barrierTimestamps) : m = m' := by
  cases m
  cases m'
  dsimp only at hp hl hi hf hd hw hn ha hb
  rw [hp, hl, hi, hf, hd, hw, hn, ha, hb]

/-! ## The first own interval -/

/-- `intervalNow` is the first own interval. -/
theorem Linked.exists_now (hl : Linked me g k) :
    ∃ rest, g.ofHost me = k.intervalNow :: rest := by
  have hhead := (hl.intervals.chain me).head_eq
  rw [hl.now] at hhead
  cases hcells : g.ofHost me with
  | nil => rw [hcells] at hhead; cases hhead
  | cons a rest =>
      rw [hcells] at hhead
      cases hhead
      exact ⟨rest, rfl⟩

theorem HeapMem.Valid.now_eq (hv : h.Valid me g) :
    (h.abs me g).now me = g.interval h.heap h.heap.intervalNow := by
  obtain ⟨rest, hr⟩ := hv.linked.exists_now
  unfold Mem.now HeapMem.abs
  dsimp only
  rw [List.length_map, Nat.sub_self, List.drop_zero, hr]
  rfl

/-- The interval of a notice was allocated. -/
theorem Links.interval_of_notice (hl : Links g k) {i : Nat × Nat} (hwn : wn ∈ g.ofPage i) :
    (k.writenotices wn).interval < k.intervalNum :=
  hl.interval_lt i.2 _ (hl.ofPage i.1 i.2 wn hwn).2.1

/-! ## An entry of `pageArray` -/

/-- A page as `setPage` leaves it, the lists being as they were. -/
def Page.with (page : Page) (entry : HeapPage) : Page :=
  { page with
    address := entry.address
    state := entry.state
    twinPage := entry.twinPage
    content := entry.content
    prot := entry.prot }

theorem Linked.setPage (hl : Linked me g k) {page : HeapPage}
    (hn : page.notices = (k.pageArray p).notices)
    (hw : page.state = .write → (k.pageArray p).notices me ≠ none) :
    Linked me g (k.setPage p page) where
  toLinks := hl.toLinks.same (setPage_sameLists k hn)
  now := hl.now
  barrier := hl.barrier
  write q hq := by
    rw [(setPage_sameLists k hn).notices]
    unfold Heap.setPage at hq
    dsimp only at hq
    by_cases hqp : q = p
    · rw [hqp, upd_self] at hq
      rw [hqp]
      exact hw hq
    · rw [upd_ne hqp] at hq
      exact hl.write q hq

theorem HeapMem.Valid.setPage (hv : h.Valid me g) {page : HeapPage}
    (hn : page.notices = (h.heap.pageArray p).notices)
    (hw : page.state = .write → (h.heap.pageArray p).notices me ≠ none) :
    Moves me g h g (h.setPage p page)
      ((h.abs me g).setPage p (((h.abs me g).pageArray p).with page)) where
  valid := ⟨hv.linked.setPage hn hw, hv.start⟩
  abs := by
    refine Mem.eq_of (funext fun q => ?_) rfl rfl rfl rfl rfl rfl rfl rfl
    unfold Mem.setPage HeapMem.abs HeapMem.page HeapMem.setPage Heap.setPage
    dsimp only
    by_cases hq : q = p
    · subst hq
      rw [upd_self, upd_self]
      rfl
    · rw [upd_ne hq, upd_ne hq]
      rfl
  later := .of_eq g rfl rfl

theorem HeapMem.Valid.setState (hv : h.Valid me g) (p : Nat) (state : PageState) (prot : Prot)
    (hw : state = .write → (h.heap.pageArray p).notices me ≠ none) :
    Moves me g h g (h.setPage p { h.heap.pageArray p with state := state, prot := prot })
      ((h.abs me g).setPage p
        { (h.abs me g).pageArray p with state := state, prot := prot }) :=
  hv.setPage rfl hw

theorem HeapMem.Valid.setProt (hv : h.Valid me g) (p : Nat) (prot : Prot) :
    Moves me g h g (h.setPage p { h.heap.pageArray p with prot := prot })
      ((h.abs me g).setPage p { (h.abs me g).pageArray p with prot := prot }) :=
  hv.setPage rfl (hv.linked.write p)

theorem HeapMem.Valid.setContent (hv : h.Valid me g) (p : Nat) (content : Content)
    (prot : Prot) :
    Moves me g h g (h.setPage p { h.heap.pageArray p with content := content, prot := prot })
      ((h.abs me g).setPage p
        { (h.abs me g).pageArray p with content := content, prot := prot }) :=
  hv.setPage rfl (hv.linked.write p)

/-! ## A stored diff -/

/-- The list of the page with the diff of one notice replaced. -/
theorem HeapMem.Valid.setDiff (hv : h.Valid me g) {front back : List Ptr}
    (hl : g.ofPage (p, j) = front ++ wn :: back) (diff : Option Content) :
    Moves me g h g { h with heap := h.heap.setDiff wn diff }
      ((h.abs me g).setPage p { (h.abs me g).pageArray p with
        notices := upd ((h.abs me g).pageArray p).notices j
          (front.map h.heap.notice ++ { h.heap.notice wn with diffAddress := diff } ::
            back.map h.heap.notice) }) where
  valid := ⟨hv.linked.same (setDiff_sameLists h.heap wn diff) fun _ hp => hp, hv.start⟩
  abs := by
    have hwn : wn ∈ g.ofPage (p, j) := by
      rw [hl]
      exact List.mem_append_right _ List.mem_cons_self
    have hother : ∀ b, b ≠ wn → (h.heap.setDiff wn diff).notice b = h.heap.notice b := by
      intro b hb
      unfold Heap.notice Heap.noticeTime Heap.setDiff
      dsimp only
      rw [upd_ne hb]
    have hself : (h.heap.setDiff wn diff).notice wn =
        { h.heap.notice wn with diffAddress := diff } := by
      unfold Heap.notice Heap.noticeTime Heap.setDiff
      dsimp only
      rw [upd_self]
    have hnd := (hv.linked.pages.chain (p, j)).nodup
    rw [hl, List.nodup_append] at hnd
    have hindex : ∀ b, ((h.heap.setDiff wn diff).writenotices b).pageIndex =
        (h.heap.writenotices b).pageIndex := by
      intro b
      obtain ⟨d, hd⟩ := (setDiff_sameLists h.heap wn diff).writenotices b
      exact (congrArg NoticeCell.pageIndex hd).trans rfl
    refine Mem.eq_of (funext fun q => ?_) (funext fun i => ?_) rfl rfl rfl rfl rfl rfl rfl
    · unfold Mem.setPage HeapMem.abs
      dsimp only
      by_cases hq : q = p
      · subst hq
        rw [upd_self]
        unfold HeapMem.page
        dsimp only
        congr 1
        funext i
        by_cases hi : i = j
        · subst hi
          rw [upd_self, hl, List.map_append, List.map_cons, hself]
          congr 1
          · exact List.map_congr_left fun b hb =>
              hother b fun he => hnd.2.2 b hb wn List.mem_cons_self he
          · congr 1
            exact List.map_congr_left fun b hb =>
              hother b fun he => (List.nodup_cons.mp hnd.2.1).1 (he ▸ hb)
        · rw [upd_ne hi]
          exact List.map_congr_left fun b hb => hother b fun he =>
            hi (Prod.mk.inj (hv.linked.pages.disjoint (q, i) (q, j) b hb (he ▸ hwn))).2
      · rw [upd_ne hq]
        unfold HeapMem.page
        dsimp only
        congr 1
        funext i
        exact List.map_congr_left fun b hb => hother b fun he =>
          hq (Prod.mk.inj (hv.linked.pages.disjoint (q, i) (p, j) b hb (he ▸ hwn))).1
    · unfold HeapMem.abs Lists.interval
      dsimp only
      refine List.map_congr_left fun a _ => ?_
      congr 1
      exact List.map_congr_left fun b _ => hindex b
  later := .of_eq g rfl rfl

/-! ## A new interval -/

theorem pushInterval_timestamp (ha : a < k.intervalNum) :
    ((k.pushInterval j ts isBarrier).intervals a).timestamp = (k.intervals a).timestamp := by
  have hproj := pushInterval_proj IntervalCell.timestamp (fun _ _ => rfl) j ts isBarrier k
  rw [congrFun hproj a, Function.update_of_ne (Nat.ne_of_lt ha)]

theorem Linked.pushInterval_interval (hl : Links g k) (j : Nat) (ts : Timestamp)
    (isBarrier : Bool) {i : Nat} (ha : a ∈ g.ofHost i) :
    (g.pushInterval j k.intervalNum).interval (k.pushInterval j ts isBarrier) a =
      g.interval k a := by
  have hlt := hl.interval_lt i a ha
  unfold Lists.interval
  rw [pushInterval_timestamp hlt, pushInterval_isBarrier (Nat.ne_of_lt hlt)]
  rfl

theorem Linked.pushInterval_new (hl : Links g k) (j : Nat) (ts : Timestamp)
    (isBarrier : Bool) :
    (g.pushInterval j k.intervalNum).interval (k.pushInterval j ts isBarrier) k.intervalNum =
      ⟨ts, [], isBarrier⟩ := by
  have htime := pushInterval_proj IntervalCell.timestamp (fun _ _ => rfl) j ts isBarrier k
  have hbar := pushInterval_proj IntervalCell.isBarrier (fun _ _ => rfl) j ts isBarrier k
  unfold Lists.interval
  rw [congrFun htime, congrFun hbar, Function.update_self, Function.update_self]
  show Interval.mk _ (((g.ofInterval k.intervalNum)).map _) _ = _
  rw [hl.ofInterval_eq_nil hl.fresh_interval]
  rfl

/-- The lists with a new interval at the head of those of host `j`; `now` is the height of
the list that `intervalNow` counts. -/
theorem HeapMem.Valid.abs_pushInterval (hv : h.Valid me g) (j : Nat) (ts : Timestamp)
    (isBarrier : Bool) (now : Ptr) :
    ({ h with heap := { h.heap.pushInterval j ts isBarrier with intervalNow := now } }).abs me
        (g.pushInterval j h.heap.intervalNum) =
      { h.abs me g with
        procArray := upd (h.abs me g).procArray j
          (⟨ts, [], isBarrier⟩ :: (h.abs me g).procArray j)
        intervalNow := ((g.pushInterval j h.heap.intervalNum).ofHost me).length } := by
  have hl := hv.linked.toLinks
  refine Mem.eq_of (funext fun q => ?_) (funext fun i => ?_) rfl rfl rfl rfl rfl rfl rfl
  · unfold HeapMem.abs HeapMem.page
    dsimp only
    congr 1
    · funext i
      refine List.map_congr_left fun wn hwn => ?_
      have htime : ((h.heap.pushInterval j ts isBarrier).intervals _).timestamp = _ :=
        pushInterval_timestamp (hl.interval_of_notice hwn)
      exact congrArg (fun ts => WriteNotice.mk ts (h.heap.writenotices wn).diffAddress) htime
    · cases hs : h.startInterval q with
      | none => rfl
      | some a => exact congrArg some (pushInterval_timestamp (hv.start q a hs))
  · unfold HeapMem.abs
    dsimp only
    by_cases hi : i = j
    · subst hi
      rw [upd_self]
      show (Function.update g.ofHost i (h.heap.intervalNum :: g.ofHost i) i).map _ = _
      rw [Function.update_self, List.map_cons]
      congr 1
      · exact Linked.pushInterval_new hl i ts isBarrier
      · exact List.map_congr_left fun a ha => Linked.pushInterval_interval hl i ts isBarrier ha
    · rw [upd_ne hi]
      show (Function.update g.ofHost j (h.heap.intervalNum :: g.ofHost j) i).map _ = _
      rw [Function.update_of_ne hi]
      exact List.map_congr_left fun a ha => Linked.pushInterval_interval hl j ts isBarrier ha

theorem later_pushInterval (g : Lists) (k : Heap) (j : Nat) (ts : Timestamp)
    (isBarrier : Bool) (now : Ptr) :
    Later g k (g.pushInterval j k.intervalNum)
      { k.pushInterval j ts isBarrier with intervalNow := now } :=
  ⟨Nat.le_succ _, fun _ ha => pushInterval_timestamp ha, fun _ => ⟨[], rfl⟩⟩

theorem HeapMem.Valid.pushInterval (hv : h.Valid me g) (hj : j ≠ me) (ts : Timestamp) :
    Moves me g h (g.pushInterval j h.heap.intervalNum)
      { h with heap := h.heap.pushInterval j ts false }
      { h.abs me g with
        procArray := upd (h.abs me g).procArray j (⟨ts, [], false⟩ :: (h.abs me g).procArray j) }
      where
  valid := ⟨hv.linked.pushInterval hj ts, fun p a ha => Nat.lt_succ_of_lt (hv.start p a ha)⟩
  abs := by
    refine (hv.abs_pushInterval j ts false h.heap.intervalNow).trans ?_
    refine Mem.eq_of rfl rfl ?_ rfl rfl rfl rfl rfl rfl
    show (Function.update g.ofHost j _ me).length = _
    rw [Function.update_of_ne hj.symm]
    rfl
  later := later_pushInterval g h.heap j ts false h.heap.intervalNow

theorem HeapMem.Valid.pushNow (hv : h.Valid me g) (ts : Timestamp) (isBarrier : Bool) :
    Moves me g h (g.pushInterval me h.heap.intervalNum)
      { h with heap := h.heap.pushNow me ts isBarrier }
      ((h.abs me g).pushNow me ⟨ts, [], isBarrier⟩) where
  valid := ⟨hv.linked.pushNow ts isBarrier, fun p a ha => Nat.lt_succ_of_lt (hv.start p a ha)⟩
  abs := by
    refine (hv.abs_pushInterval me ts isBarrier h.heap.intervalNum).trans ?_
    refine Mem.eq_of rfl rfl ?_ rfl rfl rfl rfl rfl rfl
    show (Function.update g.ofHost me _ me).length = ((g.ofHost me).map _).length + 1
    rw [Function.update_self, List.length_cons, List.length_map]
  later := later_pushInterval g h.heap me ts isBarrier h.heap.intervalNum

/-! ## A new notice -/

theorem addNotice_timestamp (j : Nat) (a : Ptr) (last : Option Ptr) (p : Nat) (k : Heap)
    (b : Ptr) :
    ((k.addNotice j a last p).intervals b).timestamp = (k.intervals b).timestamp :=
  congrFun (addNotice_interval_proj IntervalCell.timestamp (fun _ _ => rfl) j a last p k) b

/-- The notices that were there. -/
theorem addNotice_notice (j : Nat) (a : Ptr) (last : Option Ptr) (p : Nat) (k : Heap)
    (hwn : wn ≠ k.noticeNum) : (k.addNotice j a last p).notice wn = k.notice wn := by
  have hinterval := congrFun (addNotice_proj NoticeCell.interval (fun _ _ => rfl) j a last p k) wn
  have hdiff := congrFun (addNotice_proj NoticeCell.diffAddress (fun _ _ => rfl) j a last p k) wn
  rw [Function.update_of_ne hwn] at hinterval hdiff
  unfold Heap.notice Heap.noticeTime
  rw [hinterval, hdiff, addNotice_timestamp]

theorem addNotice_new (j : Nat) (a : Ptr) (last : Option Ptr) (p : Nat) (k : Heap) :
    (k.addNotice j a last p).notice k.noticeNum = ⟨(k.intervals a).timestamp, none⟩ := by
  have hinterval := congrFun (addNotice_proj NoticeCell.interval (fun _ _ => rfl) j a last p k)
    k.noticeNum
  have hdiff := congrFun (addNotice_proj NoticeCell.diffAddress (fun _ _ => rfl) j a last p k)
    k.noticeNum
  rw [Function.update_self] at hinterval hdiff
  unfold Heap.notice Heap.noticeTime
  rw [hinterval, hdiff, addNotice_timestamp]
  rfl

/-- An interval with the notice, and the others without. -/
theorem Links.addNotice_interval (hl : Links g k) (j : Nat) (a : Ptr) (p : Nat) (b : Ptr) :
    (g.addNotice j a p k.noticeNum).interval (k.addNotice j a (g.ofInterval a).getLast? p) b =
      if b = a then { g.interval k a with notices := (g.interval k a).notices ++ [p] }
      else g.interval k b := by
  have hindex := addNotice_proj NoticeCell.pageIndex (fun _ _ => rfl) j a
    (g.ofInterval a).getLast? p k
  have hbar := congrFun (addNotice_interval_proj IntervalCell.isBarrier (fun _ _ => rfl) j a
    (g.ofInterval a).getLast? p k) b
  have hmap : ∀ c, (g.ofInterval c).map (fun wn =>
      ((k.addNotice j a (g.ofInterval a).getLast? p).writenotices wn).pageIndex) =
        (g.ofInterval c).map fun wn => (k.writenotices wn).pageIndex := fun c =>
    List.map_congr_left fun wn hwn => by
      have hne : wn ≠ k.noticeNum := fun he => hl.fresh_notice c (he ▸ hwn)
      exact (congrFun hindex wn).trans (Function.update_of_ne hne ..)
  unfold Lists.interval
  rw [addNotice_timestamp, hbar]
  unfold Lists.addNotice
  dsimp only
  by_cases hb : b = a
  · subst hb
    rw [if_pos rfl, Function.update_self, List.map_append, hmap]
    congr 2
    exact congrArg (fun q => [q]) ((congrFun hindex _).trans (Function.update_self ..))
  · rw [if_neg hb, Function.update_of_ne hb, hmap]

theorem HeapMem.Valid.addNotice (hv : h.Valid me g) {front back : List Ptr}
    (hj : g.ofHost j = front ++ a :: back) (p : Nat) :
    Moves me g h (g.addNotice j a p h.heap.noticeNum)
      { h with heap := h.heap.addNotice j a (g.ofInterval a).getLast? p }
      { (h.abs me g).setPage p { (h.abs me g).pageArray p with
          notices := upd ((h.abs me g).pageArray p).notices j
            (⟨(h.heap.intervals a).timestamp, none⟩ :: ((h.abs me g).pageArray p).notices j) } with
        procArray := upd (h.abs me g).procArray j
          (front.map (g.interval h.heap) ++
            { g.interval h.heap a with notices := (g.interval h.heap a).notices ++ [p] } ::
            back.map (g.interval h.heap)) } where
  valid := by
    have ha : a ∈ g.ofHost j := by
      rw [hj]
      exact List.mem_append_right _ List.mem_cons_self
    refine ⟨hv.linked.addNotice ha p, fun q b hb => ?_⟩
    dsimp only
    rw [(addNotice_globals ..).2.1]
    exact hv.start q b hb
  abs := by
    have hl := hv.linked.toLinks
    generalize hk : h.heap.addNotice j a (g.ofInterval a).getLast? p = k
    have hglobals := addNotice_globals j a (g.ofInterval a).getLast? p h.heap
    have htime := addNotice_timestamp j a (g.ofInterval a).getLast? p h.heap
    have hold : ∀ wn, wn ≠ h.heap.noticeNum → k.notice wn = h.heap.notice wn := fun wn hne => by
      rw [← hk]
      exact addNotice_notice j a _ p h.heap hne
    have hnew : k.notice h.heap.noticeNum = ⟨(h.heap.intervals a).timestamp, none⟩ := by
      rw [← hk]
      exact addNotice_new j a _ p h.heap
    have hmap : ∀ i, (g.ofPage i).map k.notice = (g.ofPage i).map h.heap.notice := fun i =>
      List.map_congr_left fun wn hwn => hold wn fun he => hl.fresh_inPage i (he ▸ hwn)
    have hinterval := hl.addNotice_interval j a p
    rw [hk] at hglobals htime hinterval
    refine Mem.eq_of (funext fun q => ?_) (funext fun i => ?_) rfl rfl rfl ?_ rfl rfl ?_
    · have hentry : ∀ entry : Option Ptr, entry.map (fun b => (k.intervals b).timestamp) =
          entry.map fun b => (h.heap.intervals b).timestamp := fun entry => by
        cases entry with
        | none => rfl
        | some b => exact congrArg some (htime b)
      unfold Mem.setPage HeapMem.abs
      dsimp only
      by_cases hq : q = p
      · subst hq
        rw [upd_self]
        unfold HeapMem.page
        dsimp only
        rw [hglobals.2.2.2.2, upd_self, hentry]
        congr 1
        funext i
        by_cases hi : i = j
        · subst hi
          rw [upd_self]
          show (Function.update g.ofPage (q, i) _ (q, i)).map _ = _
          rw [Function.update_self, List.map_cons, hnew, hmap]
        · rw [upd_ne hi]
          show (Function.update g.ofPage (q, j) _ (q, i)).map _ = _
          rw [Function.update_of_ne fun he => hi (Prod.mk.inj he).2, hmap]
      · rw [upd_ne hq]
        unfold HeapMem.page
        dsimp only
        rw [hglobals.2.2.2.2, upd_ne hq, hentry]
        congr 1
        funext i
        show (Function.update g.ofPage (p, j) _ (q, i)).map _ = _
        rw [Function.update_of_ne fun he => hq (Prod.mk.inj he).1, hmap]
    · show (g.ofHost i).map _ = upd (fun i => (g.ofHost i).map (g.interval h.heap)) j _ i
      have hnot : ∀ cells : List Ptr, a ∉ cells →
          cells.map ((g.addNotice j a p h.heap.noticeNum).interval k) =
            cells.map (g.interval h.heap) := fun cells hcells =>
        List.map_congr_left fun b hb => by
          have hne : b ≠ a := fun he => hcells (he ▸ hb)
          rw [hinterval, if_neg hne]
      by_cases hi : i = j
      · subst hi
        have hnd := (hl.intervals.chain i).nodup
        rw [hj, List.nodup_append] at hnd
        rw [upd_self, hj, List.map_append, List.map_cons, hinterval, if_pos rfl,
          hnot front fun hm => hnd.2.2 a hm a List.mem_cons_self rfl,
          hnot back (List.nodup_cons.mp hnd.2.1).1]
      · rw [upd_ne hi]
        refine hnot _ fun hm => hi (hl.intervals.disjoint i j a hm ?_)
        rw [hj]
        exact List.mem_append_right _ List.mem_cons_self
    · rw [← hk]
      unfold Heap.addNotice
      cases (g.ofInterval a).getLast? <;> rfl
    · rw [← hk]
      unfold Heap.addNotice
      cases (g.ofInterval a).getLast? <;> rfl
  later := by
    refine ⟨?_, fun b _ => addNotice_timestamp j a _ p h.heap b, fun i => ?_⟩
    · dsimp only
      rw [(addNotice_globals ..).2.1]
    · show ∃ front, Function.update g.ofPage (p, j) _ i = _
      by_cases hi : i = (p, j)
      · subst hi
        exact ⟨[h.heap.noticeNum], by rw [Function.update_self]; rfl⟩
      · exact ⟨[], by rw [Function.update_of_ne hi]; rfl⟩

end

end Midsm
