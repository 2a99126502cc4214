import Midsm.Ref.Heap

/-!
# The lists of intervals and of notices hold together

Each interval is on the doubly linked list of its host, and each notice on two singly
linked lists, those of its interval and of its page. The invariant names the cells of
every list: the three families share no cell, a notice is on the two lists that its own
fields name, and all cells were allocated. A cell that `malloc` has just returned is then
on no list, and the two ways of putting it in, at the head and after the last cell, are
those of the library.

From the invariant every loop along a list ends where the source expects it to: no
function reads through `NULL`, and `sendEnterBarrierInfo` finds its interval.
-/

namespace Midsm

open Midsm.Lib

/-- The cells of every list. -/
structure Lists where
  ofHost : Nat → List Ptr
  ofInterval : Ptr → List Ptr
  ofPage : Nat × Nat → List Ptr

/-- The lists share no cell, and each notice is on the lists of its interval and page. -/
structure Links (g : Lists) (h : Heap) : Prop where
  intervals : Chains h.next h.procArray g.ofHost
  back : ∀ j, Back h.prev none (g.ofHost j)
  notices : Chains h.nextInInterval h.firstNotice g.ofInterval
  pages : Chains h.nextInPage h.pageNotices g.ofPage
  interval_lt : ∀ j, ∀ a ∈ g.ofHost j, a < h.intervalNum
  notice_lt : ∀ a, ∀ wn ∈ g.ofInterval a, wn < h.noticeNum
  ofInterval : ∀ a, ∀ wn ∈ g.ofInterval a, (h.writenotices wn).interval = a ∧
    ∃ j, a ∈ g.ofHost j ∧ wn ∈ g.ofPage ((h.writenotices wn).pageIndex, j)
  ofPage : ∀ p j, ∀ wn ∈ g.ofPage (p, j), (h.writenotices wn).pageIndex = p ∧
    (h.writenotices wn).interval ∈ g.ofHost j ∧ wn ∈ g.ofInterval (h.writenotices wn).interval

/-- What holds of a host between two calls. -/
structure Linked (me : Nat) (g : Lists) (h : Heap) : Prop extends Links g h where
  now : h.procArray me = some h.intervalNow
  barrier : ∃ a ∈ g.ofHost me, (h.intervals a).isBarrier = true
  write : ∀ p, (h.pageArray p).state = .write → (h.pageArray p).notices me ≠ none

section

variable {me j p : Nat} {g : Lists} {h h' : Heap} {a wn : Ptr}

/-! ## New cells are on no list -/

theorem Links.fresh_interval (hl : Links g h) (j : Nat) : h.intervalNum ∉ g.ofHost j :=
  fun hm => Nat.lt_irrefl _ (hl.interval_lt j _ hm)

theorem Links.fresh_notice (hl : Links g h) (a : Ptr) : h.noticeNum ∉ g.ofInterval a :=
  fun hm => Nat.lt_irrefl _ (hl.notice_lt a _ hm)

theorem Links.fresh_inPage (hl : Links g h) (i : Nat × Nat) : h.noticeNum ∉ g.ofPage i :=
  fun hm => hl.fresh_notice _ (hl.ofPage i.1 i.2 _ hm).2.2

/-- An interval that is on no host's list has no notices. -/
theorem Links.ofInterval_eq_nil (hl : Links g h) (ha : ∀ j, a ∉ g.ofHost j) :
    g.ofInterval a = [] := by
  refine List.eq_nil_iff_forall_not_mem.mpr fun wn hm => ?_
  obtain ⟨-, j, hj, -⟩ := hl.ofInterval a wn hm
  exact ha j hj

theorem length_le_of_lt {as : List Ptr} {k : Nat} (hnd : as.Nodup) (hlt : ∀ a ∈ as, a < k) :
    as.length ≤ k := by
  have hsub : as.Subperm (List.range k) :=
    List.subperm_of_subset hnd fun a ha => List.mem_range.mpr (hlt a ha)
  have hlen := hsub.length_le
  rwa [List.length_range] at hlen

theorem Links.length_ofHost (hl : Links g h) (j : Nat) :
    (g.ofHost j).length < h.intervalNum + 1 :=
  Nat.lt_succ_of_le (length_le_of_lt (hl.intervals.chain j).nodup (hl.interval_lt j))

theorem Links.length_ofInterval (hl : Links g h) (a : Ptr) :
    (g.ofInterval a).length < h.noticeNum + 1 :=
  Nat.lt_succ_of_le (length_le_of_lt (hl.notices.chain a).nodup (hl.notice_lt a))

/-! ## The loops -/

theorem Links.findInterval_eq (hl : Links g h) (j : Nat) (ts : Timestamp) :
    h.findInterval j ts =
      some ((g.ofHost j).find? fun a => decide ((h.intervals a).timestamp = ts)) :=
  (hl.intervals.chain j).walk_eq _ (hl.length_ofHost j)

theorem Links.lastNotice_eq (hl : Links g h) (a : Ptr) :
    h.lastNotice a = some (g.ofInterval a).getLast? :=
  (hl.notices.chain a).walk_last (hl.length_ofInterval a)

theorem Links.findNotice_eq (hl : Links g h) (a : Ptr) (p : Nat) :
    h.findNotice a p =
      some ((g.ofInterval a).find? fun wn => decide ((h.writenotices wn).pageIndex = p)) :=
  (hl.notices.chain a).walk_eq _ (hl.length_ofInterval a)

theorem Links.readInterval_eq (hl : Links g h) (a : Ptr) :
    h.readInterval a = some
      { timestamp := (h.intervals a).timestamp
        notices := (g.ofInterval a).map fun wn => (h.writenotices wn).pageIndex
        isBarrier := (h.intervals a).isBarrier } := by
  unfold Heap.readInterval
  rw [(hl.notices.chain a).collect_eq (hl.length_ofInterval a)]
  rfl

/-- From an interval on, `prev` leads to the first one of the list. -/
theorem Links.backFrom_eq (hl : Links g h) {front back : List Ptr}
    (hj : g.ofHost j = front ++ a :: back) :
    h.backFrom (some a) = some (front ++ [a]).reverse := by
  have hlen := hl.length_ofHost j
  have hback := hl.back j
  rw [hj] at hlen hback
  refine hback.chain.collect_eq ?_
  rw [List.length_append, List.length_cons] at hlen
  rw [List.length_reverse, List.length_append, List.length_singleton]
  omega

/-- An interval, read off its cells. -/
def Lists.interval (g : Lists) (h : Heap) (a : Ptr) : Interval where
  timestamp := (h.intervals a).timestamp
  notices := (g.ofInterval a).map fun wn => (h.writenotices wn).pageIndex
  isBarrier := (h.intervals a).isBarrier

theorem Links.mapM_readInterval (hl : Links g h) (as : List Ptr) :
    as.mapM h.readInterval = some (as.map (g.interval h)) := by
  have hread : h.readInterval = fun a => some (g.interval h a) := funext hl.readInterval_eq
  rw [hread]
  exact List.mapM_pure

/-- The senders read all intervals of a host, oldest first. -/
theorem Links.readIntervals_eq (hl : Links g h) (j : Nat) :
    h.readIntervals j = some ((g.ofHost j).reverse.map (g.interval h)) := by
  have hchain := hl.intervals.chain j
  have hlen := hl.length_ofHost j
  unfold Heap.readIntervals
  cases hp : h.procArray j with
  | none =>
      rw [hp] at hchain
      rw [chain_none.mp hchain]
      rfl
  | some first =>
      rw [hp] at hchain
      dsimp only
      rw [hchain.walk_last hlen]
      dsimp only
      rcases List.eq_nil_or_concat (g.ofHost j) with hnil | ⟨front, last, hcat⟩
      · rw [hnil] at hchain
        cases hchain
      · rw [List.concat_eq_append] at hcat
        rw [hcat, List.getLast?_concat, hl.backFrom_eq hcat, Option.bind_some,
          hl.mapM_readInterval]

/-! ## Links and cells after an update -/

theorem proj_upd {α β γ : Type} [DecidableEq α] (f : β → γ) (cells : α → β) (a : α) (b : β) :
    (fun x => f (upd cells a b x)) = Function.update (fun x => f (cells x)) a (f b) := by
  funext x
  unfold upd
  rw [Function.update_apply]
  split <;> rfl

/-- An update that leaves a field as it was. -/
theorem proj_upd_same {α β γ : Type} [DecidableEq α] {f : β → γ} {cells : α → β} {a : α} {b : β}
    (he : f b = f (cells a)) : (fun x => f (upd cells a b x)) = fun x => f (cells x) := by
  rw [proj_upd, he]
  exact Function.update_eq_self ..

/-! ## A new interval -/

/-- A field that `list->prev = interval` does not touch. -/
theorem pushInterval_proj {γ : Type} (f : IntervalCell → γ)
    (hf : ∀ cell before, f { cell with prev := before } = f cell) (j : Nat) (ts : Timestamp)
    (isBarrier : Bool) (h : Heap) :
    (fun a => f ((h.pushInterval j ts isBarrier).intervals a)) =
      Function.update (fun a => f (h.intervals a)) h.intervalNum
        (f ⟨ts, none, h.procArray j, none, isBarrier⟩) := by
  unfold Heap.pushInterval
  dsimp only
  cases h.procArray j with
  | none => exact proj_upd f ..
  | some first =>
      dsimp only
      rw [proj_upd_same (f := f) (hf _ _)]
      exact proj_upd f ..

theorem pushInterval_next (j : Nat) (ts : Timestamp) (isBarrier : Bool) (h : Heap) :
    (h.pushInterval j ts isBarrier).next =
      Function.update h.next h.intervalNum (h.procArray j) :=
  pushInterval_proj IntervalCell.next (fun _ _ => rfl) j ts isBarrier h

theorem pushInterval_firstNotice (j : Nat) (ts : Timestamp) (isBarrier : Bool) (h : Heap) :
    (h.pushInterval j ts isBarrier).firstNotice =
      Function.update h.firstNotice h.intervalNum none :=
  pushInterval_proj IntervalCell.notices (fun _ _ => rfl) j ts isBarrier h

theorem pushInterval_procArray (j : Nat) (ts : Timestamp) (isBarrier : Bool) (h : Heap) :
    (h.pushInterval j ts isBarrier).procArray =
      Function.update h.procArray j (some h.intervalNum) :=
  proj_upd id ..

theorem pushInterval_prev (j : Nat) (ts : Timestamp) (isBarrier : Bool) (h : Heap) (a : Ptr) :
    (h.pushInterval j ts isBarrier).prev a =
      if h.procArray j = some a then some h.intervalNum
      else if a = h.intervalNum then none else h.prev a := by
  have hcell : ∀ cell, (upd h.intervals h.intervalNum cell a).prev =
      if a = h.intervalNum then cell.prev else h.prev a := by
    intro cell
    unfold upd Heap.prev
    split <;> rfl
  unfold Heap.prev at hcell ⊢
  unfold Heap.pushInterval
  dsimp only
  cases h.procArray j with
  | none =>
      rw [if_neg nofun]
      exact hcell _
  | some first =>
      dsimp only
      by_cases ha : a = first
      · rw [ha, upd_self, if_pos rfl]
      · rw [upd_ne ha, if_neg fun he => ha (Option.some.inj he).symm]
        exact hcell _

/-- The cells after an interval has come to the head of the list of host `j`. -/
def Lists.pushInterval (j : Nat) (interval : Ptr) (g : Lists) : Lists :=
  { g with ofHost := Function.update g.ofHost j (interval :: g.ofHost j) }

theorem mem_pushInterval {k : Nat} {interval : Ptr} :
    a ∈ (g.pushInterval j interval).ofHost k ↔
      a ∈ g.ofHost k ∨ a = interval ∧ k = j := by
  show a ∈ Function.update g.ofHost j (interval :: g.ofHost j) k ↔ _
  rw [Function.update_apply]
  split
  · next hk => rw [hk, List.mem_cons, or_comm, and_iff_left rfl]
  · next hk => exact ⟨Or.inl, fun hm => hm.resolve_right fun hn => hk hn.2⟩

theorem Links.pushInterval (hl : Links g h) (j : Nat) (ts : Timestamp) (isBarrier : Bool) :
    Links (g.pushInterval j h.intervalNum) (h.pushInterval j ts isBarrier) where
  intervals := by
    rw [pushInterval_next, pushInterval_procArray]
    exact hl.intervals.push hl.fresh_interval
  back k := by
    have hne : ∀ i, ∀ a ∈ g.ofHost i, a ≠ h.intervalNum := fun i a ha he =>
      hl.fresh_interval i (he ▸ ha)
    have hfirst := (hl.intervals.chain j).head_eq
    have hback := hl.back k
    unfold Lists.pushInterval
    dsimp only
    rw [Function.update_apply]
    split
    · next hk =>
        subst hk
        refine hback.push ?_ (fun a ha => ?_) fun a ha => ?_
        · rw [pushInterval_prev, if_neg, if_pos rfl]
          rw [hfirst]
          exact fun he => hne k _ (List.mem_of_head? he) rfl
        · rw [pushInterval_prev, if_pos (hfirst.trans ha)]
        · have hnd := (hl.intervals.chain k).nodup
          have ham := List.mem_of_mem_tail ha
          rw [pushInterval_prev, if_neg, if_neg (hne k a ham)]
          rw [hfirst]
          intro he
          cases hcells : g.ofHost k with
          | nil => rw [hcells] at he; cases he
          | cons b as =>
              rw [hcells] at hnd ha he
              cases he
              exact (List.nodup_cons.mp hnd).1 ha
    · next hk =>
        refine hback.congr fun a ha => ?_
        rw [pushInterval_prev, if_neg, if_neg (hne k a ha)]
        rw [hfirst]
        exact fun he => hk (hl.intervals.disjoint k j a ha (List.mem_of_head? he))
  notices := by
    have hnone : h.firstNotice h.intervalNum = none := by
      rw [(hl.notices.chain _).head_eq, hl.ofInterval_eq_nil hl.fresh_interval]
      rfl
    rw [pushInterval_firstNotice, ← hnone, Function.update_eq_self]
    exact hl.notices
  pages := hl.pages
  interval_lt k a ha := by
    rcases mem_pushInterval.mp ha with ha | ⟨rfl, -⟩
    · exact Nat.lt_succ_of_lt (hl.interval_lt k a ha)
    · exact Nat.lt_succ_self _
  notice_lt := hl.notice_lt
  ofInterval a wn hwn := by
    obtain ⟨hi, k, hk, hpage⟩ := hl.ofInterval a wn hwn
    exact ⟨hi, k, mem_pushInterval.mpr (Or.inl hk), hpage⟩
  ofPage p k wn hwn := by
    obtain ⟨hp, hk, hi⟩ := hl.ofPage p k wn hwn
    exact ⟨hp, mem_pushInterval.mpr (Or.inl hk), hi⟩

/-- Intervals that were there keep their barrier mark. -/
theorem pushInterval_isBarrier {ts : Timestamp} {isBarrier : Bool} (ha : a ≠ h.intervalNum) :
    ((h.pushInterval j ts isBarrier).intervals a).isBarrier = (h.intervals a).isBarrier := by
  have hproj := pushInterval_proj IntervalCell.isBarrier (fun _ _ => rfl) j ts isBarrier h
  rw [congrFun hproj a, Function.update_of_ne ha]

/-- An interval of another host. -/
theorem Linked.pushInterval (hl : Linked me g h) (hj : j ≠ me) (ts : Timestamp) :
    Linked me (g.pushInterval j h.intervalNum) (h.pushInterval j ts false) where
  toLinks := hl.toLinks.pushInterval j ts false
  now := by
    rw [pushInterval_procArray, Function.update_of_ne hj.symm]
    exact hl.now
  barrier := by
    obtain ⟨a, ha, hb⟩ := hl.barrier
    refine ⟨a, mem_pushInterval.mpr (Or.inl ha), ?_⟩
    rw [pushInterval_isBarrier fun he => hl.fresh_interval me (he ▸ ha)]
    exact hb
  write := hl.write

/-- An own interval, to which `intervalNow` then points. -/
theorem Linked.pushNow (hl : Linked me g h) (ts : Timestamp) (isBarrier : Bool) :
    Linked me (g.pushInterval me h.intervalNum) (h.pushNow me ts isBarrier) where
  toLinks := { hl.toLinks.pushInterval me ts isBarrier with }
  now := upd_self ..
  barrier := by
    obtain ⟨a, ha, hb⟩ := hl.barrier
    refine ⟨a, mem_pushInterval.mpr (Or.inl ha), ?_⟩
    have hne : a ≠ h.intervalNum := fun he => hl.fresh_interval me (he ▸ ha)
    exact (pushInterval_isBarrier hne).trans hb
  write := hl.write

/-! ## A new notice -/

/-- The cells after a notice has come to the end of an interval and the head of a page. -/
def Lists.addNotice (j : Nat) (a : Ptr) (p : Nat) (wn : Ptr) (g : Lists) : Lists :=
  { g with
    ofInterval := Function.update g.ofInterval a (g.ofInterval a ++ [wn])
    ofPage := Function.update g.ofPage (p, j) (wn :: g.ofPage (p, j)) }

/-- The cell of the notice that `addNotice` puts in. -/
def Heap.newNotice (j : Nat) (a : Ptr) (p : Nat) (h : Heap) : NoticeCell where
  interval := a
  nextInPage := (h.pageArray p).notices j
  nextInInterval := none
  diffAddress := none
  pageIndex := p

/-- A field that `lastwn->nextInInterval = wn` does not touch. -/
theorem addNotice_proj {γ : Type} (f : NoticeCell → γ)
    (hf : ∀ cell after, f { cell with nextInInterval := after } = f cell) (j : Nat) (a : Ptr)
    (last : Option Ptr) (p : Nat) (h : Heap) :
    (fun wn => f ((h.addNotice j a last p).writenotices wn)) =
      Function.update (fun wn => f (h.writenotices wn)) h.noticeNum (f (h.newNotice j a p)) := by
  unfold Heap.addNotice
  cases last with
  | none => exact proj_upd f ..
  | some last =>
      dsimp only
      rw [proj_upd_same (f := f) (hf _ _)]
      exact proj_upd f ..

/-- A field of an interval that `interval->notices = wn` does not touch. -/
theorem addNotice_interval_proj {γ : Type} (f : IntervalCell → γ)
    (hf : ∀ cell first, f { cell with notices := first } = f cell) (j : Nat) (a : Ptr)
    (last : Option Ptr) (p : Nat) (h : Heap) :
    (fun b => f ((h.addNotice j a last p).intervals b)) = fun b => f (h.intervals b) := by
  unfold Heap.addNotice
  cases last with
  | none => exact proj_upd_same (hf _ _)
  | some last => rfl

theorem addNotice_globals (j : Nat) (a : Ptr) (last : Option Ptr) (p : Nat) (h : Heap) :
    (h.addNotice j a last p).procArray = h.procArray ∧
      (h.addNotice j a last p).intervalNum = h.intervalNum ∧
      (h.addNotice j a last p).noticeNum = h.noticeNum + 1 ∧
      (h.addNotice j a last p).intervalNow = h.intervalNow ∧
      (h.addNotice j a last p).pageArray = upd h.pageArray p
        { h.pageArray p with
          notices := upd (h.pageArray p).notices j (some h.noticeNum) } := by
  cases last <;> exact ⟨rfl, rfl, rfl, rfl, rfl⟩

theorem addNotice_pageNotices (j : Nat) (a : Ptr) (last : Option Ptr) (p : Nat) (h : Heap) :
    (h.addNotice j a last p).pageNotices =
      Function.update h.pageNotices (p, j) (some h.noticeNum) := by
  funext i
  obtain ⟨q, k⟩ := i
  unfold Heap.pageNotices
  rw [(addNotice_globals ..).2.2.2.2, Function.update_apply]
  by_cases hq : q = p
  · subst hq
    rw [upd_self]
    dsimp only
    by_cases hk : k = j
    · rw [hk, upd_self, if_pos rfl]
    · rw [upd_ne hk, if_neg fun he => hk (Prod.mk.inj he).2]
  · dsimp only
    rw [upd_ne hq, if_neg fun he => hq (Prod.mk.inj he).1]

/-- The list of the interval, which ends in `last`. -/
theorem Links.addNotice_notices (hl : Links g h) (j : Nat) (a : Ptr) (p : Nat) :
    Chains (h.addNotice j a (g.ofInterval a).getLast? p).nextInInterval
      (h.addNotice j a (g.ofInterval a).getLast? p).firstNotice
      (g.addNotice j a p h.noticeNum).ofInterval := by
  have hcells : (fun wn => (upd h.writenotices h.noticeNum (h.newNotice j a p) wn).nextInInterval) =
      Function.update h.nextInInterval h.noticeNum none := proj_upd NoticeCell.nextInInterval ..
  unfold Lists.addNotice
  dsimp only
  cases hlast : (g.ofInterval a).getLast? with
  | none =>
      have hempty : g.ofInterval a = [] := List.getLast?_eq_none_iff.mp hlast
      have hhead : h.firstNotice a = none := by
        rw [(hl.notices.chain a).head_eq, hempty]
        rfl
      have hnext : (h.addNotice j a none p).nextInInterval =
          Function.update h.nextInInterval h.noticeNum (h.firstNotice a) := by
        rw [hhead]
        exact hcells
      have hfirst : (h.addNotice j a none p).firstNotice =
          Function.update h.firstNotice a (some h.noticeNum) := proj_upd IntervalCell.notices ..
      rw [hnext, hfirst]
      have hpush := hl.notices.push (i := a) hl.fresh_notice
      rwa [hempty] at hpush ⊢
  | some last =>
      have hnext : (h.addNotice j a (some last) p).nextInInterval = Function.update
          (Function.update h.nextInInterval h.noticeNum none) last (some h.noticeNum) := by
        rw [← hcells]
        exact proj_upd NoticeCell.nextInInterval ..
      rw [hnext]
      exact hl.notices.append hl.fresh_notice hlast

theorem mem_addNotice_ofInterval {b : Ptr} {new : Ptr} :
    wn ∈ (g.addNotice j a p new).ofInterval b ↔ wn ∈ g.ofInterval b ∨ wn = new ∧ b = a := by
  show wn ∈ Function.update g.ofInterval a (g.ofInterval a ++ [new]) b ↔ _
  rw [Function.update_apply]
  split
  · next hb => rw [hb, List.mem_append, List.mem_singleton, and_iff_left rfl]
  · next hb => exact ⟨Or.inl, fun hm => hm.resolve_right fun hn => hb hn.2⟩

theorem mem_addNotice_ofPage {i : Nat × Nat} {new : Ptr} :
    wn ∈ (g.addNotice j a p new).ofPage i ↔ wn ∈ g.ofPage i ∨ wn = new ∧ i = (p, j) := by
  show wn ∈ Function.update g.ofPage (p, j) (new :: g.ofPage (p, j)) i ↔ _
  rw [Function.update_apply]
  split
  · next hi => rw [hi, List.mem_cons, or_comm, and_iff_left rfl]
  · next hi => exact ⟨Or.inl, fun hm => hm.resolve_right fun hn => hi hn.2⟩

theorem Links.addNotice (hl : Links g h) (ha : a ∈ g.ofHost j) (p : Nat) :
    Links (g.addNotice j a p h.noticeNum) (h.addNotice j a (g.ofInterval a).getLast? p) := by
  generalize hh : h.addNotice j a (g.ofInterval a).getLast? p = h'
  have hglobals := addNotice_globals j a (g.ofInterval a).getLast? p h
  have hinterval := addNotice_proj NoticeCell.interval (fun _ _ => rfl) j a
    (g.ofInterval a).getLast? p h
  have hindex := addNotice_proj NoticeCell.pageIndex (fun _ _ => rfl) j a
    (g.ofInterval a).getLast? p h
  rw [hh] at hglobals hinterval hindex
  obtain ⟨hproc, hinum, hwnum, -, -⟩ := hglobals
  -- what the new notice and the old ones point to
  have hold : ∀ wn, wn ≠ h.noticeNum →
      (h'.writenotices wn).interval = (h.writenotices wn).interval ∧
        (h'.writenotices wn).pageIndex = (h.writenotices wn).pageIndex := fun wn hne =>
    ⟨(congrFun hinterval wn).trans (Function.update_of_ne hne ..),
      (congrFun hindex wn).trans (Function.update_of_ne hne ..)⟩
  have hnew : (h'.writenotices h.noticeNum).interval = a ∧
      (h'.writenotices h.noticeNum).pageIndex = p :=
    ⟨(congrFun hinterval _).trans (Function.update_self ..),
      (congrFun hindex _).trans (Function.update_self ..)⟩
  refine ⟨?_, fun k => ?_, ?_, ?_, fun k b hb => ?_, fun b wn hwn => ?_, fun b wn hwn => ?_,
    fun q k wn hwn => ?_⟩
  · have hnext : h'.next = h.next := by
      rw [← hh]
      exact addNotice_interval_proj IntervalCell.next (fun _ _ => rfl) ..
    rw [hnext, hproc]
    exact hl.intervals
  · have hprev : h'.prev = h.prev := by
      rw [← hh]
      exact addNotice_interval_proj IntervalCell.prev (fun _ _ => rfl) ..
    rw [hprev]
    exact hl.back k
  · rw [← hh]
    exact hl.addNotice_notices j a p
  · have hnext : h'.nextInPage =
        Function.update h.nextInPage h.noticeNum (h.pageNotices (p, j)) := by
      rw [← hh]
      exact addNotice_proj NoticeCell.nextInPage (fun _ _ => rfl) ..
    rw [hnext, ← hh, addNotice_pageNotices]
    exact hl.pages.push hl.fresh_inPage
  · rw [hinum]
    exact hl.interval_lt k b hb
  · rw [hwnum]
    rcases mem_addNotice_ofInterval.mp hwn with hwn | ⟨rfl, -⟩
    · exact Nat.lt_succ_of_lt (hl.notice_lt b wn hwn)
    · exact Nat.lt_succ_self _
  · rcases mem_addNotice_ofInterval.mp hwn with hwn | ⟨rfl, rfl⟩
    · have hne : wn ≠ h.noticeNum := fun he => hl.fresh_notice b (he ▸ hwn)
      obtain ⟨hi, k, hk, hpage⟩ := hl.ofInterval b wn hwn
      rw [(hold wn hne).1, (hold wn hne).2]
      exact ⟨hi, k, hk, mem_addNotice_ofPage.mpr (Or.inl hpage)⟩
    · rw [hnew.1, hnew.2]
      exact ⟨rfl, j, ha, mem_addNotice_ofPage.mpr (Or.inr ⟨rfl, rfl⟩)⟩
  · rcases mem_addNotice_ofPage.mp hwn with hwn | ⟨rfl, hi⟩
    · have hne : wn ≠ h.noticeNum := fun he => hl.fresh_inPage (q, k) (he ▸ hwn)
      obtain ⟨hq, hk, hi⟩ := hl.ofPage q k wn hwn
      rw [(hold wn hne).1, (hold wn hne).2]
      exact ⟨hq, hk, mem_addNotice_ofInterval.mpr (Or.inl hi)⟩
    · obtain ⟨rfl, rfl⟩ := Prod.mk.inj hi
      rw [hnew.1, hnew.2]
      exact ⟨rfl, ha, mem_addNotice_ofInterval.mpr (Or.inr ⟨rfl, rfl⟩)⟩

theorem Linked.addNotice (hl : Linked me g h) (ha : a ∈ g.ofHost j) (p : Nat) :
    Linked me (g.addNotice j a p h.noticeNum)
      (h.addNotice j a (g.ofInterval a).getLast? p) where
  toLinks := hl.toLinks.addNotice ha p
  now := by
    obtain ⟨hproc, -, -, hnow, -⟩ := addNotice_globals j a (g.ofInterval a).getLast? p h
    rw [hproc, hnow]
    exact hl.now
  barrier := by
    obtain ⟨b, hb, hbarrier⟩ := hl.barrier
    have hproj := addNotice_interval_proj IntervalCell.isBarrier (fun _ _ => rfl) j a
      (g.ofInterval a).getLast? p h
    exact ⟨b, hb, (congrFun hproj b).trans hbarrier⟩
  write q hq := by
    rw [(addNotice_globals ..).2.2.2.2] at hq ⊢
    by_cases hqp : q = p
    · subst hqp
      rw [upd_self] at hq ⊢
      dsimp only
      by_cases hm : me = j
      · rw [hm, upd_self]
        exact nofun
      · rw [upd_ne hm]
        exact hl.write q hq
    · rw [upd_ne hqp] at hq ⊢
      exact hl.write q hq

end

end Midsm
