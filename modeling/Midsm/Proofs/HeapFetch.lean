import Midsm.Proofs.HeapSim

/-!
# Fetching and granting mean the same with pointers

The loops of `fetchPage` and `fetchDiff` read the timestamps of intervals through the
notices of a page, and `fetchDiff` keeps a notice and `startInterval` while it waits.
`HeapPc.Same` says what these pointers stand for; it outlasts whatever a handler does
meanwhile, because a page's list only grows at its head.
-/

namespace Midsm

open Midsm.Lib

/-- The main threads are in the same place. A waiting `fetchDiff` has as many notices
left as follow the one it waits for. -/
inductive HeapPc.Same (g : Lists) (k : Heap) : HeapPc → Pc → Prop
  | run : Same g k .run .run
  | lockWait (lockno : Int) : Same g k (.lockWait lockno) (.lockWait lockno)
  | wniWait (lockno : Int) (path : LockPath) :
      Same g k (.wniWait lockno path) (.wniWait lockno path)
  | barrierWait : Same g k .barrierWait .barrierWait
  | pageWait (p : Nat) : Same g k (.pageWait p) (.pageWait p)
  | diffWait {p i : Nat} {start : Option Ptr} {wn : Ptr} {front back : List Ptr}
      (hstart : ∀ a ∈ start, a < k.intervalNum) (hl : g.ofPage (p, i) = front ++ wn :: back) :
      Same g k (.diffWait p start i wn)
        (.diffWait p (start.map fun a => (k.intervals a).timestamp) i back.length)

/-- A request of `fetchDiff`: none, or for a notice of the page. -/
inductive SameRequest (g : Lists) (k : Heap) (p : Nat) :
    Option (Nat × Ptr) → Option (Nat × Timestamp × Nat) → Prop
  | none : SameRequest g k p none none
  | some {i : Nat} {wn : Ptr} {front back : List Ptr}
      (hl : g.ofPage (p, i) = front ++ wn :: back) :
      SameRequest g k p (some (i, wn)) (some (i, k.noticeTime wn, back.length))

section

variable {n me j p : Nat} {g g' : Lists} {h h' : HeapMem} {k k' : Heap} {m : Mem} {a wn : Ptr}

/-- The pages of the faults are the same. -/
theorem HeapPc.Same.faulting {pc : HeapPc} {pc' : Pc} (hp : HeapPc.Same g k pc pc') :
    pc'.faulting = pc.faulting := by
  cases hp <;> rfl

/-- The main thread is where it was, whatever else has run. -/
theorem HeapPc.Same.later {pc : HeapPc} {pc' : Pc} (hp : HeapPc.Same g k pc pc')
    (hl : Later g k g' k') : HeapPc.Same g' k' pc pc' := by
  cases hp with
  | run => exact .run
  | lockWait lockno => exact .lockWait lockno
  | wniWait lockno path => exact .wniWait lockno path
  | barrierWait => exact .barrierWait
  | pageWait p => exact .pageWait p
  | @diffWait p i start wn front back hstart hcat =>
      obtain ⟨front', hf⟩ := hl.ofPage (p, i)
      have htime : (start.map fun a => (k.intervals a).timestamp) =
          start.map fun a => (k'.intervals a).timestamp := by
        cases start with
        | none => rfl
        | some a => exact congrArg some (hl.timestamp a (hstart a rfl)).symm
      rw [hcat, ← List.append_assoc] at hf
      rw [htime]
      exact .diffWait (fun a ha => (hstart a ha).trans_le hl.intervalNum) hf

/-! ## The lists of a page -/

theorem Links.length_ofPage (hl : Links g k) (i : Nat × Nat) :
    (g.ofPage i).length < k.noticeNum + 1 :=
  Nat.lt_succ_of_le (length_le_of_lt (hl.pages.chain i).nodup fun wn hm =>
    hl.notice_lt _ wn (hl.ofPage i.1 i.2 wn hm).2.2)

/-- The first notice of a page and a host. -/
theorem Links.head_ofPage (hl : Links g k) (p j : Nat) :
    (k.pageArray p).notices j = (g.ofPage (p, j)).head? :=
  (hl.pages.chain (p, j)).head_eq

theorem Heap.nextDiff_eq {next : Option Ptr} {wns : List Ptr} {fuel : Nat}
    (start : Option Ptr) (hc : Chain k.nextInPage next wns) (hf : wns.length < fuel) :
    ∃ found, k.nextDiff n start fuel next = some found ∧
      match found with
      | none => Midsm.nextDiff n (start.map fun a => (k.intervals a).timestamp)
          (wns.map k.notice) = none
      | some wn => ∃ front back, wns = front ++ wn :: back ∧
          Midsm.nextDiff n (start.map fun a => (k.intervals a).timestamp) (wns.map k.notice) =
            some (k.noticeTime wn, back.length) := by
  induction wns generalizing next fuel with
  | nil =>
      obtain ⟨fuel, rfl⟩ := Nat.exists_eq_succ_of_ne_zero (Nat.ne_zero_of_lt hf)
      rw [show next = none from hc]
      exact ⟨none, rfl, rfl⟩
  | cons wn wns ih =>
      obtain ⟨fuel, rfl⟩ := Nat.exists_eq_succ_of_ne_zero (Nat.ne_zero_of_lt hf)
      have hall : (start.map fun a => (k.intervals a).timestamp).all
          (isAfterInterval n (k.notice wn).timestamp) =
        start.all fun a => isAfterInterval n (k.noticeTime wn) (k.intervals a).timestamp := by
        cases start <;> rfl
      rw [hc.1, Heap.nextDiff, List.map_cons, Midsm.nextDiff, hall]
      by_cases hd : (k.writenotices wn).diffAddress.isSome
      · have hd' : (k.notice wn).diffAddress.isSome := hd
        rw [if_pos hd, if_pos hd']
        exact ⟨none, rfl, rfl⟩
      have hd' : ¬ (k.notice wn).diffAddress.isSome := hd
      rw [if_neg hd, if_neg hd']
      split
      · refine ⟨some wn, rfl, [], wns, rfl, ?_⟩
        rw [List.length_map]
        rfl
      · obtain ⟨found, hfound, hsame⟩ := ih hc.2 (Nat.lt_of_succ_lt_succ hf)
        refine ⟨found, hfound, ?_⟩
        cases found with
        | none => exact hsame
        | some wn' =>
            obtain ⟨front, back, hcat, hnext⟩ := hsame
            exact ⟨wn :: front, back, by rw [hcat]; rfl, hnext⟩

theorem HeapMem.Valid.nextDiffHost (hv : h.Valid me g) (p : Nat) (start : Option Ptr)
    (hosts : List Nat) :
    ∃ request, h.heap.nextDiffHost n me p start hosts = some request ∧
      SameRequest g h.heap p request (Midsm.nextDiffHost n me
        (start.map fun a => (h.heap.intervals a).timestamp) (h.page g p) hosts) := by
  induction hosts with
  | nil => exact ⟨none, rfl, .none⟩
  | cons i hosts ih =>
      rw [Heap.nextDiffHost, Midsm.nextDiffHost]
      by_cases hi : i = me
      · rw [if_pos hi, if_pos hi]
        exact ih
      rw [if_neg hi, if_neg hi]
      obtain ⟨found, hfound, hsame⟩ := Heap.nextDiff_eq (n := n) start
        (hv.linked.pages.chain (p, i)) (hv.linked.length_ofPage (p, i))
      have hnotices : (h.page g p).notices i = (g.ofPage (p, i)).map h.heap.notice := rfl
      rw [hfound, hnotices]
      cases found with
      | none =>
          rw [hsame]
          exact ih
      | some wn =>
          obtain ⟨front, back, hcat, hnext⟩ := hsame
          rw [hnext]
          exact ⟨_, rfl, .some hcat⟩

/-! ## Requests -/

/-- What `fetchDiff` and `segv_handler` return. -/
def SameFetch (me : Nat) (g : Lists) (h : HeapMem) (r : HeapMem × Out × HeapPc)
    (r' : Mem × Out × Pc) : Prop :=
  ∃ g', Moves me g h g' r.1 r'.1 ∧ r.2.1 = r'.2.1 ∧ HeapPc.Same g' r.1.heap r.2.2 r'.2.2

theorem HeapMem.Valid.requestDiff (hv : h.Valid me g) {start : Option Ptr}
    {request : Option (Nat × Ptr)} {request' : Option (Nat × Timestamp × Nat)}
    (hstart : ∀ a ∈ start, a < h.heap.intervalNum) (hr : SameRequest g h.heap p request request') :
    SameFetch me g h (h.requestDiff p start request)
      (Midsm.requestDiff p (start.map fun a => (h.heap.intervals a).timestamp) request'
        (h.abs me g)) := by
  cases hr with
  | none => exact ⟨g, hv.setState p .rdonly .read nofun, rfl, .run⟩
  | some hl => exact ⟨g, hv.diffFlag true, rfl, .diffWait hstart hl⟩

theorem HeapMem.Valid.fetchDiff (hv : h.Valid me g) (n p : Nat) :
    ∃ r, h.fetchDiff n me p = some r ∧
      SameFetch me g h r (Midsm.fetchDiff n me p (h.abs me g)) := by
  obtain ⟨request, he, hr⟩ := hv.nextDiffHost (n := n) p (h.startInterval p) (List.range n)
  unfold HeapMem.fetchDiff
  rw [he]
  exact ⟨_, rfl, hv.requestDiff (hv.start p) hr⟩

theorem HeapMem.Valid.fetchDiffResume (hv : h.Valid me g) (n : Nat) {start : Option Ptr}
    {i : Nat} {front back : List Ptr} (hstart : ∀ a ∈ start, a < h.heap.intervalNum)
    (hl : g.ofPage (p, i) = front ++ wn :: back) :
    ∃ r, h.fetchDiffResume n me p start i wn = some r ∧
      SameFetch me g h r (Midsm.fetchDiffResume n me p
        (start.map fun a => (h.heap.intervals a).timestamp) i back.length (h.abs me g)) := by
  have hchain : Chain h.heap.nextInPage (h.heap.nextInPage wn) back := by
    have := hv.linked.pages.chain (p, i)
    rw [hl] at this
    obtain ⟨mid, hc⟩ := this.suffix
    exact hc.2
  have hlen : back.length < h.heap.noticeNum + 1 := by
    have := hv.linked.length_ofPage (p, i)
    rw [hl, List.length_append, List.length_cons] at this
    omega
  have hdrop : (((h.abs me g).pageArray p).notices i).drop
      ((((h.abs me g).pageArray p).notices i).length - back.length) = back.map h.heap.notice := by
    show ((g.ofPage (p, i)).map h.heap.notice).drop
      (((g.ofPage (p, i)).map h.heap.notice).length - back.length) = _
    have hcat : front ++ wn :: back = (front ++ [wn]) ++ back := by simp
    rw [hl, hcat, List.map_append, List.drop_left']
    simp only [List.length_append, List.length_map, List.length_cons, List.length_nil]
    omega
  obtain ⟨found, he, hsame⟩ := Heap.nextDiff_eq (n := n) start hchain hlen
  unfold HeapMem.fetchDiffResume Midsm.fetchDiffResume
  dsimp only
  rw [he, hdrop]
  cases found with
  | none =>
      obtain ⟨request, he', hr⟩ := hv.nextDiffHost (n := n) p start
        (List.range' (i + 1) (n - (i + 1)))
      dsimp only at hsame ⊢
      rw [hsame, he']
      exact ⟨_, rfl, hv.requestDiff hstart hr⟩
  | some wn' =>
      obtain ⟨front', back', hcat, hnext⟩ := hsame
      have hl' : g.ofPage (p, i) = (front ++ wn :: front') ++ wn' :: back' := by
        rw [hl, hcat, List.append_assoc]
        rfl
      dsimp only
      rw [hnext]
      exact ⟨_, rfl, hv.requestDiff hstart (.some hl')⟩

/-! ## `fetchPage` -/

theorem HeapMem.Valid.latestNotice (hv : h.Valid me g) (p : Nat) (hosts : List Nat)
    (latest : Option (Nat × Ptr)) :
    (h.heap.latestNotice n me (h.heap.pageArray p) hosts latest).map Prod.fst =
      (Midsm.latestNotice n me (h.page g p) hosts
        (latest.map fun x => (x.1, (h.heap.intervals x.2).timestamp))).map Prod.fst := by
  induction hosts generalizing latest with
  | nil => cases latest <;> rfl
  | cons i hosts ih =>
      rw [Heap.latestNotice.eq_def, Midsm.latestNotice.eq_def]
      dsimp only
      by_cases hi : i = me
      · rw [if_pos hi, if_pos hi]
        exact ih latest
      rw [if_neg hi, if_neg hi, hv.linked.head_ofPage]
      have hnotices : (h.page g p).notices i = (g.ofPage (p, i)).map h.heap.notice := rfl
      rw [hnotices]
      cases g.ofPage (p, i) with
      | nil => exact ih latest
      | cons wn wns =>
          cases latest with
          | none => exact ih (some (i, (h.heap.writenotices wn).interval))
          | some x =>
              obtain ⟨j, a⟩ := x
              rw [List.map_cons]
              show (if isAfterInterval n (h.heap.noticeTime wn)
                  (h.heap.intervals a).timestamp then _ else _ : Option _).map Prod.fst =
                (if isAfterInterval n (h.heap.noticeTime wn)
                  (h.heap.intervals a).timestamp then _ else _ : Option _).map Prod.fst
              split
              · exact ih (some (i, (h.heap.writenotices wn).interval))
              · exact ih (some (j, a))

theorem HeapMem.Valid.hasWriteNotice (hv : h.Valid me g) (n p : Nat) :
    (h.heap.pageArray p).hasWriteNotice n me = Midsm.hasWriteNotice n me (h.page g p) := by
  have hhead : ∀ i, ((h.heap.pageArray p).notices i).isSome =
      !((h.page g p).notices i).isEmpty := fun i => by
    rw [hv.linked.head_ofPage]
    show _ = !((g.ofPage (p, i)).map h.heap.notice).isEmpty
    cases g.ofPage (p, i) <;> rfl
  unfold HeapPage.hasWriteNotice Midsm.hasWriteNotice
  simp only [hhead, Bool.not_eq_true']

theorem HeapMem.Valid.fetchPageDest (hv : h.Valid me g) (n p : Nat) :
    h.heap.fetchPageDest n me p = Midsm.fetchPageDest n me p (h.page g p) := by
  unfold Heap.fetchPageDest Midsm.fetchPageDest
  dsimp only
  rw [hv.hasWriteNotice n p, hv.latestNotice p (List.range n) none]
  rfl

theorem HeapMem.Valid.fetchPage (hv : h.Valid me g) (n p : Nat) :
    (h.fetchPage n me p = none ∧ Midsm.fetchPage n me p (h.abs me g) = none) ∨
      ∃ h' m out, h.fetchPage n me p = some (h', out) ∧
        Midsm.fetchPage n me p (h.abs me g) = some (m, out) ∧ Moves me g h g h' m := by
  have hstate : ((h.abs me g).pageArray p).state = (h.heap.pageArray p).state := rfl
  unfold HeapMem.fetchPage Midsm.fetchPage
  dsimp only
  rw [hstate, hv.fetchPageDest n p]
  by_cases hp : maxPageNum ≤ p
  · rw [if_pos hp, if_pos hp]
    exact Or.inl ⟨rfl, rfl⟩
  rw [if_neg hp, if_neg hp]
  by_cases hs : (h.heap.pageArray p).state ≠ .miss
  · rw [if_pos hs, if_pos hs]
    exact Or.inl ⟨rfl, rfl⟩
  rw [if_neg hs, if_neg hs]
  have hpage : (h.abs me g).pageArray p = h.page g p := rfl
  rw [hpage]
  cases Midsm.fetchPageDest n me p (h.page g p) with
  | none => exact Or.inl ⟨rfl, rfl⟩
  | some hostid => exact Or.inr ⟨_, _, _, rfl, rfl, hv.pageFlag true⟩

/-! ## `segv_handler` -/

theorem HeapMem.createTwinPage_fst (me : Nat) (g : Lists) (h : HeapMem) (p : Nat) :
    (Midsm.createTwinPage p (h.abs me g)).1 = (h.heap.createTwinPage p).1 := by
  unfold Heap.createTwinPage Midsm.createTwinPage
  dsimp only [HeapMem.abs, HeapMem.page]
  split_ifs <;> rfl

theorem HeapMem.Valid.segvHandler (hv : h.Valid me g) (n p : Nat) :
    Option.Rel (SameFetch me g h) (h.segvHandler n me p)
      (Midsm.segvHandler n me p (h.abs me g)) := by
  have hstate : ((h.abs me g).pageArray p).state = (h.heap.pageArray p).state := rfl
  unfold HeapMem.segvHandler Midsm.segvHandler
  rw [hstate]
  by_cases hp : maxPageNum ≤ p
  · rw [if_pos hp, if_pos hp]
    exact .none
  rw [if_neg hp, if_neg hp]
  cases hs : (h.heap.pageArray p).state with
  | unmap => exact .none
  | rdonly =>
      obtain ⟨k, he, m, rfl, g', hm⟩ := hv.segvRdonly (Nat.not_le.mp hp) hs
      have hprot : ((h.abs me g).pageArray p).prot = (h.heap.pageArray p).prot := rfl
      dsimp only
      rw [he, hprot, HeapMem.createTwinPage_fst]
      split
      · exact .none
      · exact .some ⟨g', hm, rfl, .run⟩
  | write => exact .some ⟨g, .refl hv, rfl, .run⟩
  | miss =>
      dsimp only
      rcases hv.fetchPage n p with ⟨hn, hn'⟩ | ⟨h', m, out, hf, hf', hm⟩
      · rw [hn, hn']
        exact .some ⟨g, hv.setState p .rdonly .read nofun, rfl, .run⟩
      · rw [hf, hf']
        exact .some ⟨g, hm, rfl, .pageWait p⟩
  | invalid =>
      obtain ⟨r, he, hr⟩ := hv.fetchDiff n p
      dsimp only
      rw [he]
      exact .some hr

/-- `grantPage` in a handler, with the fault that it can run into there. -/
theorem HeapMem.Valid.grantPage (hv : h.Valid me g) (n hostid p : Nat) (nested : Bool) :
    ∃ result mem m out, h.grantPage n me hostid p nested = (result, mem, out) ∧
      Midsm.grantPage n me hostid p nested (h.abs me g) = (result, m, out) ∧
      Mirrors me g h mem m := by
  have hpage : ((h.abs me g).pageArray p).state = (h.heap.pageArray p).state ∧
      ((h.abs me g).pageArray p).prot = (h.heap.pageArray p).prot ∧
      ((h.abs me g).pageArray p).content = (h.heap.pageArray p).content := ⟨rfl, rfl, rfl⟩
  obtain ⟨hstate, hprot, hcontent⟩ := hpage
  have hkeep := (Moves.refl hv).mirrors
  have hsegv := hv.segvHandler n p
  unfold HeapMem.grantPage Midsm.grantPage
  dsimp only
  rw [hstate, hprot, hcontent]
  split
  · exact ⟨_, _, _, _, rfl, rfl, hkeep⟩
  · split
    · exact ⟨_, _, _, _, rfl, rfl, hkeep⟩
    · split
      · exact ⟨_, _, _, _, rfl, rfl, hkeep⟩
      · split
        · exact ⟨_, _, _, _, rfl, rfl, hkeep⟩
        · split
          · exact ⟨_, _, _, _, rfl, rfl, hkeep⟩
          · split
            · exact ⟨_, _, _, _, rfl, rfl, hkeep⟩
            · -- the nested fault
              generalize h.segvHandler n me p = x at hsegv ⊢
              generalize Midsm.segvHandler n me p (h.abs me g) = y at hsegv ⊢
              cases hsegv with
              | none => exact ⟨_, _, _, _, rfl, rfl, hkeep⟩
              | @some r r' hs =>
                  obtain ⟨mem, out, pc⟩ := r
                  obtain ⟨m, out', pc'⟩ := r'
                  obtain ⟨g', hm, hout, hpc⟩ := hs
                  dsimp only at hm hout hpc
                  obtain rfl := hout
                  have hprot' : (m.pageArray p).prot = (mem.heap.pageArray p).prot := by
                    rw [← hm.abs]
                    rfl
                  cases hpc with
                  | run =>
                      dsimp only
                      rw [hprot']
                      split
                      · exact ⟨_, _, _, _, rfl, rfl, hm.mirrors⟩
                      · exact ⟨_, _, _, _, rfl, rfl, hm.mirrors⟩
                  | lockWait | wniWait | barrierWait | pageWait | diffWait =>
                      exact ⟨_, _, _, _, rfl, rfl, hm.mirrors⟩

/-! ## Diffs -/

theorem setDiff_split {ts : Timestamp} {front back : List WriteNotice} {wn : WriteNotice}
    (hf : ∀ b ∈ front, b.timestamp ≠ ts) (hwn : wn.timestamp = ts) (diff : Option Content) :
    setDiff ts diff (front ++ wn :: back) =
      front ++ { wn with diffAddress := diff } :: back := by
  induction front with
  | nil => exact if_pos hwn
  | cons b front ih =>
      rw [List.cons_append, setDiff, if_neg (hf b List.mem_cons_self),
        ih fun c hc => hf c (List.mem_cons_of_mem b hc)]
      rfl

theorem Links.findPageNotice_eq (hl : Links g k) (p j : Nat) (ts : Timestamp) :
    k.findPageNotice p j ts =
      some ((g.ofPage (p, j)).find? fun wn => decide (k.noticeTime wn = ts)) :=
  (hl.pages.chain (p, j)).walk_eq _ (hl.length_ofPage (p, j))

theorem findNotice_cells (k : Heap) (ts : Timestamp) (wns : List Ptr) :
    findNotice ts (wns.map k.notice) =
      (wns.find? fun wn => decide (k.noticeTime wn = ts)).map k.notice :=
  List.find?_map

/-- The diff of the first notice of a timestamp is replaced. -/
theorem HeapMem.Valid.setFound (hv : h.Valid me g) {ts : Timestamp}
    (hf : (g.ofPage (p, j)).find? (fun wn => decide (h.heap.noticeTime wn = ts)) = some wn)
    (diff : Option Content) :
    Moves me g h g { h with heap := h.heap.setDiff wn diff }
      ((h.abs me g).setPage p { (h.abs me g).pageArray p with
        notices := upd ((h.abs me g).pageArray p).notices j
          (Midsm.setDiff ts diff (((h.abs me g).pageArray p).notices j)) }) := by
  obtain ⟨hts, front, back, hcat, hbefore⟩ := List.find?_eq_some_iff_append.mp hf
  have hnot : ∀ b ∈ front.map h.heap.notice, b.timestamp ≠ ts := by
    intro b hb he
    obtain ⟨c, hc, rfl⟩ := List.mem_map.mp hb
    have := hbefore c hc
    rw [show decide (h.heap.noticeTime c = ts) = true from decide_eq_true he] at this
    cases this
  have hlist : ((h.abs me g).pageArray p).notices j =
      front.map h.heap.notice ++ h.heap.notice wn :: back.map h.heap.notice := by
    show (g.ofPage (p, j)).map h.heap.notice = _
    rw [hcat, List.map_append, List.map_cons]
  rw [hlist, setDiff_split hnot (of_decide_eq_true hts)]
  exact hv.setDiff hcat diff

theorem Heap.makeDiff_noticeTime (p : Nat) (wn : Ptr) (k : Heap) :
    (k.makeDiff p wn).noticeTime = k.noticeTime := by
  have hset : (k.setDiff wn (createLocalDiff (k.pageArray p).memory
      (k.pageArray p).twinPage)).noticeTime = k.noticeTime := by
    funext b
    unfold Heap.noticeTime Heap.setDiff
    dsimp only
    by_cases hb : b = wn
    · rw [hb, upd_self]
    · rw [upd_ne hb]
  have hfree : ∀ k' : Heap, (k'.freeTwinPage p).2.noticeTime = k'.noticeTime := by
    intro k'
    unfold Heap.freeTwinPage
    dsimp only
    split_ifs <;> rfl
  unfold Heap.makeDiff
  dsimp only
  split_ifs
  · exact (hfree _).trans hset
  · exact hset

theorem HeapMem.Valid.makeDiff (hv : h.Valid me g) {ts : Timestamp}
    (hf : (g.ofPage (p, me)).find? (fun wn => decide (h.heap.noticeTime wn = ts)) = some wn) :
    Moves me g h g { h with heap := h.heap.makeDiff p wn }
      (Midsm.makeDiff me p ts (h.abs me g)) := by
  have hset := hv.setFound hf
    (createLocalDiff (h.heap.pageArray p).memory (h.heap.pageArray p).twinPage)
  unfold Heap.makeDiff Midsm.makeDiff
  have hstate : ((h.abs me g).pageArray p).state = (h.heap.pageArray p).state := rfl
  dsimp only
  rw [hstate]
  by_cases hs : (h.heap.pageArray p).state = .write
  · have hfree := hset.valid.freeTwinPage p
    have hrdonly := hfree.valid.setState p .rdonly .read nofun
    rw [hfree.abs, hset.abs] at hrdonly
    rw [if_pos hs, if_pos hs]
    exact hset.trans (hfree.trans hrdonly)
  · rw [if_neg hs, if_neg hs]
    exact hset

theorem HeapMem.Valid.grantDiff (hv : h.Valid me g) (n hostid : Nat) (ts : Timestamp)
    (p : Nat) :
    ∃ ret h' m out, h.grantDiff n me hostid ts p = some (ret, h', out) ∧
      Midsm.grantDiff n me hostid ts p (h.abs me g) = (ret, m, out) ∧ Moves me g h g h' m := by
  have hstate : ((h.abs me g).pageArray p).state = (h.heap.pageArray p).state := rfl
  have hnotices : ((h.abs me g).pageArray p).notices me =
      (g.ofPage (p, me)).map h.heap.notice := rfl
  unfold HeapMem.grantDiff Midsm.grantDiff
  dsimp only
  rw [hstate, hnotices, hv.linked.findPageNotice_eq, findNotice_cells]
  by_cases hn : n ≤ hostid ∨ hostid = me
  · rw [if_pos hn, if_pos hn]
    exact ⟨_, _, _, _, rfl, rfl, .refl hv⟩
  rw [if_neg hn, if_neg hn]
  by_cases hp : maxPageNum ≤ p
  · rw [if_pos hp, if_pos hp]
    exact ⟨_, _, _, _, rfl, rfl, .refl hv⟩
  rw [if_neg hp, if_neg hp]
  by_cases hs : (h.heap.pageArray p).state = .unmap ∨ (h.heap.pageArray p).state = .miss
  · rw [if_pos hs, if_pos hs]
    exact ⟨_, _, _, _, rfl, rfl, .refl hv⟩
  rw [if_neg hs, if_neg hs]
  cases hf : (g.ofPage (p, me)).find? fun wn => decide (h.heap.noticeTime wn = ts) with
  | none => exact ⟨_, _, _, _, rfl, rfl, .refl hv⟩
  | some wn =>
      have hdiff : (h.heap.notice wn).diffAddress = (h.heap.writenotices wn).diffAddress := rfl
      dsimp only [Option.map_some]
      rw [hdiff]
      by_cases hd : (h.heap.writenotices wn).diffAddress.isSome
      · rw [if_pos hd, if_pos hd, hnotices, findNotice_cells, hf]
        exact ⟨_, _, _, _, rfl, rfl, .refl hv⟩
      · have hmake := hv.makeDiff hf
        have hafter : ((Midsm.makeDiff me p ts (h.abs me g)).pageArray p).notices me =
            (g.ofPage (p, me)).map (h.heap.makeDiff p wn).notice := by
          rw [← hmake.abs]
          rfl
        rw [if_neg hd, if_neg hd, hafter, findNotice_cells, Heap.makeDiff_noticeTime, hf]
        exact ⟨_, _, _, _, rfl, rfl, hmake⟩

theorem HeapMem.Valid.handleGrantDiffMsg (hv : h.Valid me g) (sender : Nat) (ts : Timestamp)
    (p : Nat) (diff : Content) :
    ∃ h', h.handleGrantDiffMsg sender ts p diff = some h' ∧
      Moves me g h g h' (Midsm.handleGrantDiffMsg sender ts p diff (h.abs me g)) := by
  have hnotices : ((h.abs me g).pageArray p).notices sender =
      (g.ofPage (p, sender)).map h.heap.notice := rfl
  unfold HeapMem.handleGrantDiffMsg Midsm.handleGrantDiffMsg
  dsimp only
  rw [hnotices, hv.linked.findPageNotice_eq, findNotice_cells, ← hnotices]
  cases hf : (g.ofPage (p, sender)).find? fun wn => decide (h.heap.noticeTime wn = ts) with
  | none => exact ⟨_, rfl, hv.diffFlag false⟩
  | some wn =>
      have hdiff : (h.heap.notice wn).diffAddress = (h.heap.writenotices wn).diffAddress := rfl
      dsimp only [Option.map_some]
      rw [hdiff]
      by_cases hd : (h.heap.writenotices wn).diffAddress.isSome
      · have hset := hv.setContent p
          ((applyDiff (h.heap.pageArray p).memory (some diff)).getD (h.heap.pageArray p).content)
          .none
        have hflag := hset.valid.diffFlag false
        rw [hset.abs] at hflag
        rw [if_pos hd, if_pos hd]
        rw [upd_eta]
        exact ⟨_, rfl, hset.trans hflag⟩
      · have hset := hv.setFound hf (some diff)
        have hcontent := hset.valid.setContent p
          ((applyDiff (h.heap.pageArray p).memory (some diff)).getD (h.heap.pageArray p).content)
          .none
        have hflag := hcontent.valid.diffFlag false
        rw [hcontent.abs, hset.abs] at hflag
        rw [if_neg hd, if_neg hd]
        have hall := hset.trans (hcontent.trans hflag)
        refine ⟨_, rfl, hall.valid, hall.abs.trans ?_, hall.later⟩
        unfold Mem.setPage
        dsimp only
        rw [upd_upd, upd_self]
        rfl

/-! ## Pages and bytes -/

/-- `startInterval` is set to the own interval. -/
theorem HeapMem.Valid.setStart (hv : h.Valid me g) (p : Nat) :
    Moves me g h g { h with startInterval := upd h.startInterval p (some h.heap.intervalNow) }
      ((h.abs me g).setPage p { (h.abs me g).pageArray p with
        startInterval := some ((h.abs me g).now me).timestamp }) where
  valid := by
    refine ⟨hv.linked, fun q a ha => ?_⟩
    dsimp only at ha
    by_cases hq : q = p
    · obtain ⟨rest, hr⟩ := hv.linked.exists_now
      rw [hq, upd_self] at ha
      cases ha
      exact hv.linked.interval_lt me _ (hr ▸ List.mem_cons_self)
    · rw [upd_ne hq] at ha
      exact hv.start q a ha
  abs := by
    rw [hv.now_eq]
    refine Mem.eq_of (funext fun q => ?_) rfl rfl rfl rfl rfl rfl rfl rfl
    unfold Mem.setPage HeapMem.abs HeapMem.page
    dsimp only
    by_cases hq : q = p
    · subst hq
      rw [upd_self, upd_self]
      rfl
    · rw [upd_ne hq, upd_ne hq]
  later := .refl g h.heap

theorem HeapMem.Valid.handleGrantPageMsg (hv : h.Valid me g) (p : Nat) (content : Content) :
    Moves me g h g (h.handleGrantPageMsg p content)
      (Midsm.handleGrantPageMsg me p content (h.abs me g)) := by
  have hcontent := hv.setContent p content .readWrite
  have hstart := hcontent.valid.setStart p
  have hflag := hstart.valid.pageFlag false
  rw [hstart.abs, hcontent.abs] at hflag
  have hall := hcontent.trans (hstart.trans hflag)
  refine ⟨hall.valid, hall.abs.trans ?_, hall.later⟩
  unfold Midsm.handleGrantPageMsg Mem.setPage
  dsimp only
  rw [upd_upd, upd_self]
  rfl

theorem HeapMem.Valid.storeBytes (hv : h.Valid me g) (p o : Nat) (bytes : List Byte) :
    Moves me g h g (h.storeBytes p o bytes) ((h.abs me g).storeBytes p o bytes) :=
  hv.setContent p (writeBytes (h.heap.pageArray p).content o bytes) (h.heap.pageArray p).prot

theorem HeapMem.Valid.fetchPageResume (hv : h.Valid me g) (p : Nat) :
    Moves me g h g (h.fetchPageResume p) (Midsm.fetchPageResume p (h.abs me g)) :=
  hv.setState p .rdonly .read nofun

/-! ## Allocation -/

theorem HeapMem.Valid.allocPage (hv : h.Valid me g) (n : Nat) :
    Moves me g h g (h.allocPage n me) (Midsm.allocPage n me (h.abs me g)) := by
  have hset : Moves me g h g (h.setPage h.pagenum { h.heap.pageArray h.pagenum with
      state := if h.pagenum % n = me then PageState.rdonly else .miss
      address := startAddress + h.globalAddress
      prot := if h.pagenum % n = me then Prot.read else (h.heap.pageArray h.pagenum).prot }) _ := hv.setPage rfl fun hw => by
    dsimp only at hw
    split at hw <;> cases hw
  exact ⟨⟨hset.valid.linked, hset.valid.start⟩,
    congrArg (fun m : Mem => { m with
      pagenum := h.pagenum + 1
      globalAddress := h.globalAddress + pageSize }) hset.abs, hset.later⟩

theorem HeapMem.Valid.allocPages (hv : h.Valid me g) (n k : Nat) :
    Moves me g h g (h.allocPages n me k) (Midsm.allocPages n me k (h.abs me g)) := by
  induction k generalizing h with
  | zero => exact .refl hv
  | succ k ih =>
      have hfirst := hv.allocPage n
      have hrest := ih hfirst.valid
      rw [hfirst.abs] at hrest
      exact hfirst.trans hrest

theorem HeapMem.Valid.miAlloc (hv : h.Valid me g) (n : Nat) (size : Int) :
    (h.miAlloc n me size).1 = (Midsm.miAlloc n me size (h.abs me g)).1 ∧
      Moves me g h g (h.miAlloc n me size).2 (Midsm.miAlloc n me size (h.abs me g)).2 := by
  have hpages := hv.allocPages n (((roundSize size).toNat + pageSize - 1) / pageSize)
  have haddress : ((h.abs me g).globalAddress) = h.globalAddress := rfl
  unfold HeapMem.miAlloc Midsm.miAlloc
  dsimp only
  rw [haddress]
  by_cases hsize : size ≤ 0
  · rw [if_pos hsize, if_pos hsize]
    exact ⟨rfl, .refl hv⟩
  rw [if_neg hsize, if_neg hsize]
  by_cases hfull : (roundSize size + h.globalAddress) % 2 ^ 64 > maxMemSize
  · rw [if_pos hfull, if_pos hfull]
    exact ⟨rfl, .refl hv⟩
  · rw [if_neg hfull, if_neg hfull]
    refine ⟨?_, hpages⟩
    dsimp only
    rw [← hpages.abs]
    rfl

end

end Midsm
