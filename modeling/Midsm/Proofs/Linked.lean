import Midsm.Lib.Reach
import Midsm.Proofs.Links

/-!
# Every call keeps the lists together

None of the functions that link intervals and notices reads through `NULL` or follows a
list without end, in any order of calls from `initmem` on, and after each of them the
lists are what their readers expect.
-/

namespace Midsm

open Midsm.Lib

section

variable {me j p : Nat} {g : Lists} {h h' : Heap} {a wn : Ptr}

/-! ## Functions that leave the lists alone -/

structure Heap.SameLists (h h' : Heap) : Prop where
  intervals : h'.intervals = h.intervals
  intervalNum : h'.intervalNum = h.intervalNum
  noticeNum : h'.noticeNum = h.noticeNum
  procArray : h'.procArray = h.procArray
  intervalNow : h'.intervalNow = h.intervalNow
  writenotices : ∀ wn, ∃ diff, h'.writenotices wn =
    { h.writenotices wn with diffAddress := diff }
  notices : ∀ p, (h'.pageArray p).notices = (h.pageArray p).notices

theorem Heap.SameLists.refl (h : Heap) : h.SameLists h :=
  ⟨rfl, rfl, rfl, rfl, rfl, fun _ => ⟨_, rfl⟩, fun _ => rfl⟩

theorem Heap.SameLists.trans {h'' : Heap} (hs : h.SameLists h') (hs' : h'.SameLists h'') :
    h.SameLists h'' where
  intervals := hs'.intervals.trans hs.intervals
  intervalNum := hs'.intervalNum.trans hs.intervalNum
  noticeNum := hs'.noticeNum.trans hs.noticeNum
  procArray := hs'.procArray.trans hs.procArray
  intervalNow := hs'.intervalNow.trans hs.intervalNow
  writenotices wn := by
    obtain ⟨diff, hd⟩ := hs.writenotices wn
    obtain ⟨diff', hd'⟩ := hs'.writenotices wn
    rw [hd] at hd'
    exact ⟨diff', hd'⟩
  notices p := (hs'.notices p).trans (hs.notices p)

theorem setPage_sameLists (h : Heap) {page : HeapPage}
    (hn : page.notices = (h.pageArray p).notices) : h.SameLists (h.setPage p page) where
  __ := Heap.SameLists.refl h
  notices q := by
    unfold Heap.setPage
    dsimp only
    by_cases hq : q = p
    · rw [hq, upd_self, hn]
    · rw [upd_ne hq]

/-- `wn->diffAddress = diff` -/
theorem setDiff_sameLists (h : Heap) (wn : Ptr) (diff : Option Content) :
    h.SameLists { h with
      writenotices := upd h.writenotices wn { h.writenotices wn with diffAddress := diff } } where
  __ := Heap.SameLists.refl h
  writenotices b := by
    by_cases hb : b = wn
    · exact ⟨diff, by rw [hb]; exact upd_self ..⟩
    · exact ⟨_, upd_ne hb⟩

theorem createTwinPage_sameLists (p : Nat) (h : Heap) : h.SameLists (h.createTwinPage p).2 := by
  unfold Heap.createTwinPage
  dsimp only
  split
  · exact .refl h
  · split
    · exact .refl h
    · split
      · exact .refl h
      · exact setPage_sameLists h rfl

theorem freeTwinPage_sameLists (p : Nat) (h : Heap) : h.SameLists (h.freeTwinPage p).2 := by
  unfold Heap.freeTwinPage
  dsimp only
  split
  · exact .refl h
  · split
    · exact .refl h
    · split
      · exact .refl h
      · exact setPage_sameLists h rfl

theorem Links.same (hl : Links g h) (hs : h.SameLists h') : Links g h' := by
  have hinterval : ∀ wn, (h'.writenotices wn).interval = (h.writenotices wn).interval := by
    intro wn
    obtain ⟨diff, hd⟩ := hs.writenotices wn
    rw [hd]
  have hindex : ∀ wn, (h'.writenotices wn).pageIndex = (h.writenotices wn).pageIndex := by
    intro wn
    obtain ⟨diff, hd⟩ := hs.writenotices wn
    rw [hd]
  have hnext : h'.nextInInterval = h.nextInInterval := by
    funext wn
    obtain ⟨diff, hd⟩ := hs.writenotices wn
    unfold Heap.nextInInterval
    rw [hd]
  have hnext' : h'.nextInPage = h.nextInPage := by
    funext wn
    obtain ⟨diff, hd⟩ := hs.writenotices wn
    unfold Heap.nextInPage
    rw [hd]
  have hpages : h'.pageNotices = h.pageNotices := by
    funext i
    unfold Heap.pageNotices
    rw [hs.notices]
  refine ⟨?_, ?_, ?_, ?_, ?_, ?_, fun a wn hwn => ?_, fun p j wn hwn => ?_⟩
  · unfold Heap.next
    rw [hs.intervals, hs.procArray]
    exact hl.intervals
  · unfold Heap.prev
    rw [hs.intervals]
    exact hl.back
  · unfold Heap.firstNotice
    rw [hnext, hs.intervals]
    exact hl.notices
  · rw [hnext', hpages]
    exact hl.pages
  · rw [hs.intervalNum]
    exact hl.interval_lt
  · rw [hs.noticeNum]
    exact hl.notice_lt
  · rw [hinterval, hindex]
    exact hl.ofInterval a wn hwn
  · rw [hinterval, hindex]
    exact hl.ofPage p j wn hwn

/-- A page may not become `WRITE`. -/
theorem Linked.same (hl : Linked me g h) (hs : h.SameLists h')
    (hw : ∀ p, (h'.pageArray p).state = .write → (h.pageArray p).state = .write) :
    Linked me g h' where
  toLinks := hl.toLinks.same hs
  now := by
    rw [hs.procArray, hs.intervalNow]
    exact hl.now
  barrier := by
    rw [hs.intervals]
    exact hl.barrier
  write p hp := by
    rw [hs.notices]
    exact hl.write p (hw p hp)

theorem Heap.setPage_state {page : HeapPage}
    (hw : page.state = .write → (h.pageArray p).state = .write) (q : Nat)
    (hq : ((h.setPage p page).pageArray q).state = .write) : (h.pageArray q).state = .write := by
  unfold Heap.setPage at hq
  dsimp only at hq
  by_cases hqp : q = p
  · rw [hqp, upd_self] at hq
    rw [hqp]
    exact hw hq
  · rwa [upd_ne hqp] at hq

theorem Heap.createTwinPage_state (p : Nat) (h : Heap) (q : Nat) :
    (((h.createTwinPage p).2).pageArray q).state = (h.pageArray q).state := by
  unfold Heap.createTwinPage Heap.setPage
  dsimp only
  split
  · rfl
  · split
    · rfl
    · split
      · rfl
      · dsimp only
        by_cases hq : q = p
        · rw [hq, upd_self]
        · rw [upd_ne hq]

theorem Heap.protect_state {prot : Prot} {q : Nat}
    (hq : ((h.setPage p { h.pageArray p with prot := prot }).pageArray q).state = .write) :
    (h.pageArray q).state = .write := by
  refine Heap.setPage_state ?_ q hq
  exact fun hs => hs

theorem Heap.freeTwinPage_state (p : Nat) (h : Heap) (q : Nat) :
    (((h.freeTwinPage p).2).pageArray q).state = (h.pageArray q).state := by
  unfold Heap.freeTwinPage Heap.setPage
  dsimp only
  split
  · rfl
  · split
    · rfl
    · split
      · rfl
      · dsimp only
        by_cases hq : q = p
        · rw [hq, upd_self]
        · rw [upd_ne hq]

/-! ## Each function succeeds -/

theorem Linked.addNewInterval (hl : Linked me g h) (n : Nat) :
    ∃ h', h.addNewInterval n me = some h' ∧ ∃ g', Linked me g' h' := by
  unfold Heap.addNewInterval
  rw [hl.now]
  exact ⟨_, rfl, _, hl.pushNow ..⟩

theorem Linked.pushBarrier (hl : Linked me g h) (ts : Timestamp) :
    ∃ h', h.pushBarrier me ts = some h' ∧ ∃ g', Linked me g' h' := by
  unfold Heap.pushBarrier
  rw [hl.now]
  exact ⟨_, rfl, _, hl.pushNow ..⟩

theorem Linked.createWriteNotice (hl : Linked me g h) (p : Nat) :
    ∃ ret h', h.createWriteNotice me p = some (ret, h') ∧ (∃ g', Linked me g' h') ∧
      (p < maxPageNum → (h.pageArray p).state = .rdonly → (h'.pageArray p).notices me ≠ none) := by
  unfold Heap.createWriteNotice
  split
  · next hp => exact ⟨_, _, rfl, ⟨g, hl⟩, fun hlt => absurd hp (Nat.not_le.mpr hlt)⟩
  · split
    · next hs => exact ⟨_, _, rfl, ⟨g, hl⟩, fun _ hrd => absurd hrd hs⟩
    · have hmem : h.intervalNow ∈ g.ofHost me := by
        have hhead := (hl.intervals.chain me).head_eq
        rw [hl.now] at hhead
        exact List.mem_of_head? hhead.symm
      rw [hl.lastNotice_eq]
      refine ⟨_, _, rfl, ⟨_, hl.addNotice hmem p⟩, fun _ _ => ?_⟩
      rw [(addNotice_globals ..).2.2.2.2, upd_self]
      dsimp only
      rw [upd_self]
      exact nofun

theorem Linked.segvHandler (hl : Linked me g h) (hp : p < maxPageNum)
    (hs : (h.pageArray p).state = .rdonly) :
    ∃ h', h.segvHandler me p = some h' ∧ ∃ g', Linked me g' h' := by
  unfold Heap.segvHandler
  have htwin := hl.same (createTwinPage_sameLists p h) fun q hq => by
    rwa [Heap.createTwinPage_state] at hq
  obtain ⟨ret, h', he, ⟨g', hl'⟩, hown⟩ := htwin.createWriteNotice p
  have hown := hown hp (by rw [Heap.createTwinPage_state]; exact hs)
  rw [he]
  refine ⟨_, rfl, g', ?_⟩
  -- the page has its notice when it becomes `WRITE`
  have hsame : h'.SameLists (h'.setPage p { h'.pageArray p with
      state := .write, prot := .readWrite }) := setPage_sameLists h' rfl
  refine ⟨hl'.toLinks.same hsame, hl'.now, hl'.barrier, fun q hq => ?_⟩
  rw [hsame.notices]
  by_cases hqp : q = p
  · rw [hqp]
    exact hown
  · refine hl'.write q ?_
    unfold Heap.setPage at hq
    dsimp only at hq
    rwa [upd_ne hqp] at hq

theorem Linked.invalidatePage (hl : Linked me g h) (p : Nat) :
    ∃ h', h.invalidatePage me p = some h' ∧ Linked me g h' := by
  unfold Heap.invalidatePage
  dsimp only
  split
  · exact ⟨_, rfl, hl.same (setPage_sameLists h rfl) (Heap.setPage_state nofun)⟩
  · next hs =>
      cases hwn : (h.pageArray p).notices me with
      | none => exact absurd hwn (hl.write p hs)
      | some wn =>
          have hset : h.SameLists (h.setPage p { h.pageArray p with state := .invalid }) :=
            setPage_sameLists h rfl
          have hne : ({ h.pageArray p with state := .invalid } : HeapPage).state = .write →
              (h.pageArray p).state = .write := nofun
          have hfree := (hset.trans (setDiff_sameLists _ wn
            (createLocalDiff (h.pageArray p).memory (h.pageArray p).twinPage))).trans
            (freeTwinPage_sameLists p _)
          refine ⟨_, rfl, hl.same (hfree.trans (setPage_sameLists _ rfl)) fun q hq => ?_⟩
          have hq := Heap.protect_state hq
          rw [Heap.freeTwinPage_state] at hq
          exact Heap.setPage_state hne q hq
  · exact ⟨h, rfl, hl⟩

/-! ## The loops over packets -/

/-- Between two rounds of the loop over `wnArray`. -/
def Round (me j : Nat) (a : Ptr) (s : Option Ptr × Heap) : Prop :=
  ∃ g, Linked me g s.2 ∧ a ∈ g.ofHost j ∧ s.1 = (g.ofInterval a).getLast?

theorem Round.step {s : Option Ptr × Heap} (hr : Round me j a s) (p : Nat) :
    ∃ s', Heap.incorporateNotice me j a s p = some s' ∧ Round me j a s' := by
  obtain ⟨last, h⟩ := s
  obtain ⟨g, hl, ha, rfl⟩ := hr
  unfold Heap.incorporateNotice
  dsimp only
  rw [hl.findNotice_eq]
  cases (g.ofInterval a).find? fun wn => decide ((h.writenotices wn).pageIndex = p) with
  | some wn => exact ⟨_, rfl, g, hl, ha, rfl⟩
  | none =>
      obtain ⟨h', he, hl'⟩ := hl.invalidatePage p
      dsimp only
      rw [he]
      refine ⟨_, rfl, _, hl'.addNotice ha p, ha, ?_⟩
      unfold Lists.addNotice
      dsimp only
      rw [Function.update_self, List.getLast?_concat]

theorem Round.foldlM (pages : List Nat) {s : Option Ptr × Heap} (hr : Round me j a s) :
    ∃ s', pages.foldlM (Heap.incorporateNotice me j a) s = some s' ∧ Round me j a s' := by
  induction pages generalizing s with
  | nil => exact ⟨s, rfl, hr⟩
  | cons p pages ih =>
      obtain ⟨s', he, hr'⟩ := hr.step p
      rw [List.foldlM_cons, he]
      exact ih hr'

theorem Linked.enterInterval (hl : Linked me g h) (hj : j ≠ me) (ts : Timestamp) :
    ∃ a last h', h.enterInterval j ts = some (a, last, h') ∧ Round me j a (last, h') := by
  unfold Heap.enterInterval
  rw [hl.findInterval_eq]
  cases hf : (g.ofHost j).find? fun a => decide ((h.intervals a).timestamp = ts) with
  | some a =>
      dsimp only
      rw [hl.lastNotice_eq]
      exact ⟨_, _, _, rfl, g, hl, List.mem_of_find?_eq_some hf, rfl⟩
  | none =>
      refine ⟨_, _, _, rfl, _, hl.pushInterval hj ts, ?_, ?_⟩
      · exact mem_pushInterval.mpr (Or.inr ⟨rfl, rfl⟩)
      · show none = (g.ofInterval h.intervalNum).getLast?
        rw [hl.ofInterval_eq_nil hl.fresh_interval]
        rfl

theorem Linked.incorporateWnPacket (hl : Linked me g h) (packet : WnPacket)
    (hid : packet.hostid ≠ me) :
    ∃ h', h.incorporateWnPacket me packet = some h' ∧ ∃ g', Linked me g' h' := by
  obtain ⟨a, last, h₁, he, hr⟩ := hl.enterInterval hid packet.timestamp
  obtain ⟨s, hs, g', hl', -, -⟩ := hr.foldlM packet.wnArray
  unfold Heap.incorporateWnPacket
  rw [he]
  dsimp only
  rw [hs]
  exact ⟨s.2, rfl, g', hl'⟩

theorem Linked.incorporatePackets (hl : Linked me g h) (k : Nat) (packets : List WnPacket)
    (hid : ∀ packet ∈ packets.take k, packet.hostid ≠ me) :
    ∃ h', h.incorporatePackets me k packets = some h' ∧ ∃ g', Linked me g' h' := by
  unfold Heap.incorporatePackets
  generalize packets.take k = list at hid
  induction list generalizing g h with
  | nil => exact ⟨h, rfl, g, hl⟩
  | cons packet list ih =>
      obtain ⟨h', he, g', hl'⟩ := hl.incorporateWnPacket packet (hid _ List.mem_cons_self)
      rw [List.foldlM_cons, he]
      exact ih hl' fun packet hm => hid packet (List.mem_cons_of_mem _ hm)

theorem globals_sameLists (flag : Bool) (ts : Nat → Timestamp) (h : Heap) :
    h.SameLists { h with
      fetchWNIWaitFlag := flag
      barrierTimestamps := ts } := { Heap.SameLists.refl h with }

theorem Linked.globals (hl : Linked me g h) (flag : Bool) (ts : Nat → Timestamp) :
    Linked me g { h with
      fetchWNIWaitFlag := flag
      barrierTimestamps := ts } := hl.same (globals_sameLists flag ts h) fun _ hp => hp

theorem Linked.returnAllBarrierInfo (hl : Linked 0 g h) (n : Nat) :
    ∃ h', (h.returnAllBarrierInfo n).map Prod.fst = some h' ∧ ∃ g', Linked 0 g' h' := by
  unfold Heap.returnAllBarrierInfo
  dsimp only
  obtain ⟨h₁, he, g', hl'⟩ := hl.pushBarrier fun i =>
    if i.val < n then h.barrierTimestamps i.val i + 1 else 0
  have hread : h₁.readIntervals =
      fun j => some ((g'.ofHost j).reverse.map (g'.interval h₁)) := funext hl'.readIntervals_eq
  have hlists : (List.range n).mapM h₁.readIntervals = some
      ((List.range n).map fun j => (g'.ofHost j).reverse.map (g'.interval h₁)) := by
    rw [hread]
    exact List.mapM_pure
  rw [he]
  dsimp only
  rw [hlists]
  exact ⟨_, rfl, g', hl'.globals ..⟩

theorem Linked.handleGrantWNIMsg (hl : Linked me g h) (ts : Timestamp) (k : Nat)
    (packets : List WnPacket) (hid : ∀ packet ∈ packets.take k, packet.hostid ≠ me) :
    ∃ h', h.handleGrantWNIMsg me ts k packets = some h' ∧ ∃ g', Linked me g' h' := by
  unfold Heap.handleGrantWNIMsg
  obtain ⟨h', he, g', hl'⟩ :=
    (hl.pushNow (bump me ts) false).incorporatePackets k packets hid
  rw [he]
  exact ⟨_, rfl, g', hl'.globals false h'.barrierTimestamps⟩

theorem Linked.handleGrantEnterBarrierMsg (hl : Linked me g h) (sender : Nat) (ts : Timestamp)
    (k : Nat) (packets : List WnPacket)
    (hid : ∀ packet ∈ packets.take k, packet.hostid ≠ me) :
    ∃ h', h.handleGrantEnterBarrierMsg me sender ts k packets = some h' ∧
      ∃ g', Linked me g' h' := by
  unfold Heap.handleGrantEnterBarrierMsg
  dsimp only
  split
  · exact (hl.globals h.fetchWNIWaitFlag _).incorporatePackets k packets hid
  · exact hl.incorporatePackets k packets hid

theorem Linked.handleGrantExitBarrierMsg (hl : Linked me g h) (ts : Timestamp) (k : Nat)
    (packets : List WnPacket) (hid : ∀ packet ∈ packets.take k, packet.hostid ≠ me) :
    ∃ h', h.handleGrantExitBarrierMsg me ts k packets = some h' ∧ ∃ g', Linked me g' h' := by
  unfold Heap.handleGrantExitBarrierMsg
  split
  · obtain ⟨h₁, he, g', hl'⟩ := hl.pushBarrier ts
    rw [he]
    exact hl'.incorporatePackets k packets hid
  · exact hl.incorporatePackets k packets hid

/-- A call goes through and keeps the lists together. -/
theorem Linked.step {n : Nat} {e : HeapEvent} (hl : Linked me g h) (hok : e.Legal n me h) :
    ∃ h', heapStep n me h e = some h' ∧ ∃ g', Linked me g' h' := by
  cases e with
  | addNewInterval => exact hl.addNewInterval n
  | segvHandler p => exact hl.segvHandler hok.1 hok.2
  | grantWNI ts k packets =>
      exact hl.handleGrantWNIMsg ts k packets fun packet hm => (hok packet hm).2.1
  | enterInfo sender ts k packets =>
      exact hl.handleGrantEnterBarrierMsg sender ts k packets fun packet hm =>
        (hok.2 packet hm).2.1
  | exitInfo ts k packets =>
      exact hl.handleGrantExitBarrierMsg ts k packets fun packet hm => (hok packet hm).2.1
  | returnAllBarrierInfo =>
      cases hok
      exact hl.returnAllBarrierInfo n
  | page p address state twinPage content =>
      exact ⟨_, rfl, g, hl.same (setPage_sameLists h rfl) (Heap.setPage_state hok)⟩
  | diff wn diff => exact ⟨_, rfl, g, hl.same (setDiff_sameLists h wn diff) fun _ hp => hp⟩

theorem linked_init (me : Nat) :
    Linked me ⟨Function.update (fun _ => []) me [0], fun _ => [], fun _ => []⟩ (initHeap me) where
  intervals :=
    { chain := fun j => by
        show Chain _ (upd (fun _ => none) me (some 0) j) _
        dsimp only
        by_cases hj : j = me
        · rw [hj, upd_self, Function.update_self]
          exact ⟨rfl, rfl⟩
        · rw [upd_ne hj, Function.update_of_ne hj]
          rfl
      disjoint := fun i j a hi hj => by
        have hme : ∀ k, a ∈ Function.update (fun _ => []) me [0] k → k = me := by
          intro k hk
          by_contra hne
          rw [Function.update_of_ne hne] at hk
          cases hk
        rw [hme i hi, hme j hj] }
  back j := by
    dsimp only
    by_cases hj : j = me
    · rw [hj, Function.update_self]
      exact ⟨rfl, trivial⟩
    · rw [Function.update_of_ne hj]
      trivial
  notices := ⟨fun _ => rfl, fun _ _ _ hm => nomatch hm⟩
  pages := ⟨fun _ => rfl, fun _ _ _ hm => nomatch hm⟩
  interval_lt j a ha := by
    dsimp only at ha
    rw [Function.update_apply] at ha
    split at ha
    · rw [List.mem_singleton.mp ha]
      exact Nat.one_pos
    · cases ha
  notice_lt _ _ hm := nomatch hm
  ofInterval _ _ hm := nomatch hm
  ofPage _ _ _ hm := nomatch hm
  now := by
    show upd (fun _ => none) me (some 0) me = some 0
    exact upd_self ..
  barrier := ⟨0, by dsimp only; rw [Function.update_self]; exact List.mem_cons_self, rfl⟩
  write _ hs := nomatch hs

end

/-! ## Runs -/

/-- What the readers of the lists rely on. -/
structure WellLinked (me : Nat) (h : Heap) : Prop where
  now : h.procArray me = some h.intervalNow
  nowPrev : h.prev h.intervalNow = none
  /-- The interval lists end, and `next` and `prev` agree. -/
  intervals : ∀ j, ∃ as, Chain h.next (h.procArray j) as ∧ as.Nodup ∧
    ∀ a b, a ∈ as ∧ h.next a = some b ↔ b ∈ as ∧ h.prev b = some a
  /-- The search of `sendEnterBarrierInfo` ends at an own interval of a barrier. -/
  search : ∃ a, h.sinceBarrier me = some a ∧ (h.intervals a).isBarrier = true ∧
    OnceOn h.next (h.procArray me) a
  /-- A notice in an interval points back to it and is on the page's list. -/
  ofInterval : ∀ j a, OnceOn h.next (h.procArray j) a →
    ∃ wns, Chain h.nextInInterval (h.firstNotice a) wns ∧ ∀ wn ∈ wns, wns.count wn = 1 ∧
      (h.writenotices wn).interval = a ∧
      OnceOn h.nextInPage (h.pageNotices ((h.writenotices wn).pageIndex, j)) wn
  /-- A notice on a page's list is for that page and in exactly one interval of the host. -/
  ofPage : ∀ p j, ∃ wns, Chain h.nextInPage (h.pageNotices (p, j)) wns ∧ ∀ wn ∈ wns,
    (h.writenotices wn).pageIndex = p ∧ ∃! a, OnceOn h.next (h.procArray j) a ∧
      OnceOn h.nextInInterval (h.firstNotice a) wn

section

variable {n me : Nat} {g : Lists} {h : Heap}

/-- The first own interval that a barrier made, and those before it. -/
theorem Linked.exists_sinceBarrier (hl : Linked me g h) :
    ∃ a front back, h.sinceBarrier me = some a ∧ (h.intervals a).isBarrier = true ∧
      g.ofHost me = front ++ a :: back := by
  obtain ⟨b, hb, hbarrier⟩ := hl.barrier
  have hsome : ((g.ofHost me).find? fun a => (h.intervals a).isBarrier).isSome :=
    List.find?_isSome.mpr ⟨b, hb, hbarrier⟩
  obtain ⟨a, ha⟩ := Option.isSome_iff_exists.mp hsome
  obtain ⟨front, back, hcat⟩ := List.append_of_mem (List.mem_of_find?_eq_some ha)
  have hab := List.find?_some (p := fun a => (h.intervals a).isBarrier) ha
  refine ⟨a, front, back, ?_, hab, hcat⟩
  unfold Heap.sinceBarrier
  rw [(hl.intervals.chain me).walk_eq _ (hl.length_ofHost me), ha]
  rfl

theorem Linked.sendEnterBarrierInfo (hl : Linked me g h) (n : Nat) :
    ∃ out, h.sendEnterBarrierInfo n me = some out := by
  obtain ⟨a, front, back, hs, -, hcat⟩ := hl.exists_sinceBarrier
  unfold Heap.sendEnterBarrierInfo
  split
  · exact ⟨_, rfl⟩
  · rw [hs]
    dsimp only
    rw [hl.backFrom_eq hcat, Option.bind_some, hl.mapM_readInterval]
    exact ⟨_, rfl⟩

theorem Linked.wellLinked (hl : Linked me g h) : WellLinked me h := by
  have honHost : ∀ {j a}, OnceOn h.next (h.procArray j) a ↔ a ∈ g.ofHost j := fun {j a} =>
    (hl.intervals.chain j).onceOn
  have honInterval : ∀ {a wn}, OnceOn h.nextInInterval (h.firstNotice a) wn ↔
      wn ∈ g.ofInterval a := fun {a wn} => (hl.notices.chain a).onceOn
  refine ⟨hl.now, ?_, fun j => ?_, ?_, fun j a ha => ?_, fun p j => ?_⟩
  · have hchain := hl.intervals.chain me
    have hback := hl.back me
    rw [hl.now] at hchain
    cases hcells : g.ofHost me with
    | nil => rw [hcells] at hchain; cases hchain
    | cons a as =>
        rw [hcells] at hchain hback
        rw [Option.some.inj hchain.1]
        exact hback.1
  · have hchain := hl.intervals.chain j
    exact ⟨_, hchain, hchain.nodup, fun a b => hchain.next_iff_prev (hl.back j)⟩
  · obtain ⟨a, front, back, hs, hb, hcat⟩ := hl.exists_sinceBarrier
    refine ⟨a, hs, hb, honHost.mpr ?_⟩
    rw [hcat]
    exact List.mem_append_right _ List.mem_cons_self
  · have hchain := hl.notices.chain a
    refine ⟨_, hchain, fun wn hwn => ?_⟩
    obtain ⟨hi, k, hk, hpage⟩ := hl.ofInterval a wn hwn
    -- the interval is on one list only
    have hkj : k = j := hl.intervals.disjoint k j a hk (honHost.mp ha)
    subst hkj
    exact ⟨List.count_eq_one_of_mem hchain.nodup hwn, hi, (hl.pages.chain _).onceOn.mpr hpage⟩
  · refine ⟨_, hl.pages.chain (p, j), fun wn hwn => ?_⟩
    obtain ⟨hp, hj, hi⟩ := hl.ofPage p j wn hwn
    refine ⟨hp, (h.writenotices wn).interval, ⟨honHost.mpr hj, honInterval.mpr hi⟩, ?_⟩
    rintro a ⟨-, ha⟩
    exact (hl.ofInterval a wn (honInterval.mp ha)).1.symm

end

/-- In every order of calls from `initmem` on, the lists are well linked after each call,
every call goes through, and so does `sendEnterBarrierInfo`. -/
theorem lists_well_linked (n me : Nat) {h : Heap}
    (hrun : Reach (heapStep n me) (HeapEvent.Legal n me) (initHeap me) h) :
    WellLinked me h ∧ (∃ out, h.sendEnterBarrierInfo n me = some out) ∧
      ∀ e : HeapEvent, e.Legal n me h → ∃ h', heapStep n me h e = some h' := by
  have hlinked : ∃ g, Linked me g h := by
    refine hrun.invariant (P := fun h => ∃ g, Linked me g h) ⟨_, linked_init me⟩ ?_
    rintro t u e ⟨g, hl⟩ hok he
    obtain ⟨h', he', hl'⟩ := hl.step hok
    rw [he, Option.some.injEq] at he'
    rwa [he']
  obtain ⟨g, hl⟩ := hlinked
  refine ⟨hl.wellLinked, hl.sendEnterBarrierInfo n, fun e hok => ?_⟩
  obtain ⟨h', he, -⟩ := hl.step hok
  exact ⟨h', he⟩

instance (n me k : Nat) (packets : List WnPacket) : Decidable (PacketsOk n me k packets) :=
  inferInstanceAs (Decidable (∀ packet ∈ packets.take k, _))

instance (n me : Nat) (h : Heap) (e : HeapEvent) : Decidable (e.Legal n me h) := by
  cases e <;> unfold HeapEvent.Legal <;> infer_instance

/-- Host 1 writes a page, hears of notices for two pages from host 0 on acquiring a lock
and of one more with the barrier. -/
theorem lists_well_linked_run : ∃ h,
    Reach (heapStep 3 1) (HeapEvent.Legal 3 1) (initHeap 1) h ∧
      h.intervalNum = 5 ∧ h.noticeNum = 4 ∧ WellLinked 1 h := by
  obtain ⟨h, hrun, hq⟩ := exists_reach (heapStep 3 1)
    (fun h e => decide (e.Legal 3 1 h)) (fun _ _ => of_decide_eq_true) (initHeap 1)
    [.page 0 4096 .rdonly none (fun _ => 0) .read, .segvHandler 0,
      .grantWNI (fun _ => 1) 1 [⟨0, fun _ => 1, [0, 5, 0]⟩],
      .exitInfo (fun _ => 2) 2 [⟨0, fun _ => 1, [6]⟩, ⟨2, fun _ => 1, []⟩]]
    (fun h => decide (h.intervalNum = 5 ∧ h.noticeNum = 4)) (by decide +kernel)
  obtain ⟨hi, hw⟩ := of_decide_eq_true hq
  exact ⟨h, hrun, hi, hw, (lists_well_linked 3 1 hrun).1⟩

end Midsm
