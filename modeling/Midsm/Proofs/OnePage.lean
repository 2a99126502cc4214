import Midsm.Proofs.Ledger

/-!
# The functions of `mem.c` at one page

`Mem.Shows` puts the copy and the interval lists of a host together. The lemmas
below say what each function of `mem.c` makes of it: which view the host has
afterwards, and which patches are in its copy. They are the only place where the
bodies of these functions are looked into.
-/

namespace Midsm

open Midsm.Lib

structure Mem.Shows (t : Timeline Nat) (patch : Nat → Content) (p h : Nat) (v : View)
    (m : Mem) : Prop where
  ledger : Ledger t p h v.clock v.clock m
  replica : Replica t patch h v (m.pageArray p)

section

variable {n p h c k : Nat} {t t' : Timeline Nat} {patch patch' : Nat → Content}
  {v v' : View} {m m' : Mem} {page : Page}

theorem Mem.Shows.congr (hs : m.Shows t patch p h v) (ha : t.Agrees t' v.clock)
    (hp : ∀ k ∈ v.has t h, patch' k = patch k) : m.Shows t' patch' p h v :=
  ⟨hs.ledger.congr ha le_rfl, hs.replica.congr ha hp⟩

/-- Only the page and the interval lists matter. -/
theorem Mem.Shows.of_eq (hs : m.Shows t patch p h v)
    (hp : m'.pageArray = m.pageArray) (hl : m'.procArray = m.procArray)
    (hi : m'.intervalNow = m.intervalNow) : m'.Shows t patch p h v :=
  ⟨hs.ledger.of_lists hl hi, by rw [hp]; exact hs.replica⟩

theorem Mem.Shows.setPage (hs : m.Shows t patch p h v)
    (hr : Replica t patch' h v' page) (hc : v'.clock = v.clock) :
    (m.setPage p page).Shows t patch' p h v' := by
  refine ⟨?_, ?_⟩
  · rw [hc]
    exact hs.ledger.of_lists rfl rfl
  · rw [setPage_self]
    exact hr

/-! ## Intervals -/

/-- The view after `addNewInterval`. -/
def View.tick (t : Timeline Nat) (v : View) : View := { v with clock := t.len + 1 }

theorem Mem.Shows.addNewInterval (hs : m.Shows t patch p h v) (ht : t.Hosted n)
    (hc : v.clock = t.len) : (v.tick t).has (t.tick h) h = v.has t h ∧
      (addNewInterval n h m).Shows (t.tick h) patch p h (v.tick t) := by
  have hag : t.Agrees (t.tick h) v.clock := (Timeline.agrees_tick h t).mono hc.le
  have hstill : ∀ k ∈ (t.tick h).marked, k ≤ t.len + 1 → k ≤ v.clock := fun k hk _ => by
    rw [hc]
    exact (t.ticks k hk).2
  obtain ⟨hhas, hr⟩ := (hs.replica.congr hag fun _ _ => rfl).extend (c := t.len + 1)
    (by omega) (m.pageArray p).notices (fun j => by
      have hnil : ((t.tick h).of j (t.len + 1)).filter (v.clock < ·) = [] := by
        rw [List.filter_eq_nil_iff]
        intro k hk
        obtain ⟨-, hkc, hm, -⟩ := Timeline.mem_of.mp hk
        simpa using hstill k hm hkc
      rw [hnil]
      rfl)
    (fun k hk hlt hkc => by
      have := hstill k hk hkc
      omega)
    (fun _ => hstill)
  have hl := hs.ledger
  rw [hc] at hl
  exact ⟨hhas.trans (has_agrees hag), hl.addNewInterval ht, hr⟩

/-- The newest own notice of a `WRITE` page. -/
theorem Replica.exists_dirty (hr : Replica t patch h v page) (hs : page.state = .write) :
    ∃ k ∈ t.upTo v.clock, t.who k = h ∧ v.diff k = none ∧
      ∃ rest, page.notices h = ⟨t.stamp k, none⟩ :: rest := by
  obtain ⟨wn, rest, hl, hd, -⟩ := hr.tidy.newest hs
  have hlist := hr.notices h
  rw [hl] at hlist
  cases hof : t.of h v.clock with
  | nil =>
      rw [hof] at hlist
      cases hlist
  | cons k ks =>
      rw [hof, List.map_cons, List.cons.injEq] at hlist
      have hin : k ∈ t.of h v.clock := by
        rw [hof]
        exact List.mem_cons_self
      obtain ⟨-, hkc, hm, hw⟩ := Timeline.mem_of.mp hin
      rw [hlist.1] at hd hl
      have hd : v.diff k = none := hd
      rw [hd] at hl
      exact ⟨k, Timeline.mem_upTo.mpr ⟨hm, hkc⟩, hw, hd, rest, hl⟩

/-- The diff of that notice is its patch. -/
theorem Replica.localDiff (hr : Replica t patch h v page) (hk : k ∈ t.upTo v.clock)
    (hw : t.who k = h) (hd : v.diff k = none) :
    createLocalDiff page.memory page.twinPage = some (patch k) := by
  obtain ⟨twin, htwin, hcontent⟩ := hr.dirty k hk hw hd
  have hmem : page.memory = some page.content := by
    rw [Page.memory, if_neg (hr.tidy.address hr.mapped)]
  rw [hmem, htwin, createLocalDiff, hcontent]
  congr 1
  exact add_sub_cancel_left twin (patch k)

/-- What one view may lose to a later one: nothing. -/
structure View.Grows (v v' : View) : Prop where
  base : v'.base = v.base
  diff : ∀ k, v'.diff k = none → v.diff k = none

theorem Replica.invalidatePage (hp : p < maxPageNum)
    (hr : Replica t patch h v (m.pageArray p)) :
    ∃ v', v'.clock = v.clock ∧ v.Grows v' ∧ v'.has t h = v.has t h ∧
      Replica t patch h v' ((invalidatePage h p m).pageArray p) ∧
      ((invalidatePage h p m).pageArray p).state ≠ .rdonly ∧
      ((invalidatePage h p m).pageArray p).state ≠ .write := by
  cases hst : (m.pageArray p).state with
  | rdonly =>
      have he : Midsm.invalidatePage h p m =
          m.setPage p { m.pageArray p with state := .invalid, prot := .none } := by
        unfold Midsm.invalidatePage
        dsimp only
        rw [hst]
      refine ⟨v, rfl, ⟨rfl, fun _ h => h⟩, rfl, ?_⟩
      rw [he, setPage_self]
      exact ⟨hr.setState (by rw [hst]; exact nofun) nofun nofun nofun, nofun, nofun⟩
  | write =>
      obtain ⟨k, hk, hw, hd, rest, hl⟩ := hr.exists_dirty hst
      obtain ⟨diff, wn, rest', hl', hdiff, he⟩ := invalidatePage_eq hp hr.tidy hst
      rw [hr.localDiff hk hw hd, Option.some.injEq] at hdiff
      rw [hl, List.cons.injEq] at hl'
      obtain ⟨rfl, rfl⟩ := hl'
      obtain ⟨hhas, hr'⟩ := hr.close hk hw hd .invalid .none nofun nofun hl
      refine ⟨v.put k (patch k), rfl, ⟨rfl, fun j hj => ?_⟩, hhas, ?_⟩
      · by_cases hjk : j = k
        · rw [hjk, hd]
        · rwa [put_diff_ne hjk] at hj
      · rw [he, ← hdiff, setPage_self]
        exact ⟨hr', nofun, nofun⟩
  | unmap | miss | invalid =>
      have he : Midsm.invalidatePage h p m = m :=
        invalidatePage_quiet (by rw [hst]; exact nofun) (by rw [hst]; exact nofun)
      refine ⟨v, rfl, ⟨rfl, fun _ h => h⟩, rfl, ?_⟩
      rw [he, hst]
      exact ⟨hr, nofun, nofun⟩

theorem news_nil (ht : t.Hosted n) (h : news n t c t.len = []) :
    ∀ k ∈ t.marked, k ≤ c := by
  intro k hk
  by_contra hlt
  obtain ⟨hpos, hkl⟩ := t.ticks k hk
  have htold := told_news (a := c) ht le_rfl (t.who k)
  rw [h] at htold
  have hin : t.stamp k ∈ ((t.of (t.who k) t.len).filter (c < ·)).map t.stamp :=
    List.mem_map_of_mem (List.mem_filter.mpr ⟨Timeline.mem_of.mpr ⟨hpos, hkl, hk, rfl⟩, by
      simpa using hlt⟩)
  rw [← htold] at hin
  cases hin

/-- A page that is not valid, or no packets: the first packet makes the
difference. -/
theorem foldl_invalidated (xs : List (Nat × Timestamp)) (hne : xs ≠ [])
    (hk : ∀ x ∈ xs, ¬ m.Known x.1 x.2)
    (hs : ((invalidatePage h p m).pageArray p).state ≠ .rdonly)
    (hs' : ((invalidatePage h p m).pageArray p).state ≠ .write) :
    (xs.map fun x => (⟨x.1, x.2, [p]⟩ : WnPacket)).foldl (incorporateWnPacket h) m =
      (xs.map fun x => (⟨x.1, x.2, [p]⟩ : WnPacket)).foldl (incorporateWnPacket h)
        (invalidatePage h p m) := by
  cases xs with
  | nil => exact absurd rfl hne
  | cons x xs =>
      have hx := hk x List.mem_cons_self
      have hx' : ¬ (invalidatePage h p m).Known x.1 x.2 := by
        unfold Mem.Known
        rw [(invalidatePage_frame h p m).procArray]
        exact hx
      rw [List.map_cons, List.foldl_cons, List.foldl_cons, incorporate_unknown hx,
        incorporate_unknown hx', invalidatePage_quiet hs hs']

theorem news_ne_self (hown : ∀ k ∈ t.marked, c < k → t.who k ≠ h) :
    ∀ x ∈ news n t c t.len, x.1 ≠ h := by
  intro x hx
  obtain ⟨k, hk, hlt, -⟩ := mem_news hx
  obtain ⟨-, -, hm, hw⟩ := Timeline.mem_of.mp hk
  rw [← hw]
  exact hown k hm hlt

/-- The intervals a host is told of are new to it. -/
theorem Ledger.news_unknown (hl : Ledger t p h c c m) (ht : t.Hosted n) (hc : c ≤ t.len)
    (hown : ∀ k ∈ t.marked, c < k → t.who k ≠ h) (i : Interval) :
    ∀ x ∈ news n t c t.len, ¬ (m.pushNow h i).Known x.1 x.2 := by
  intro x hx hkn
  obtain ⟨k, hk, hlt, hts⟩ := mem_news hx
  have hne : x.1 ≠ h := news_ne_self hown x hx
  have hkn : m.Known x.1 x.2 := by
    unfold Mem.Known at hkn ⊢
    rwa [pushNow_procArray_ne hne] at hkn
  obtain ⟨j, hj, he⟩ := (hl.known hne).mp hkn
  have hjc := (Timeline.mem_of.mp hj).2.1
  have := stamp_inj ht (hjc.trans hc) (Timeline.mem_of.mp hk).2.1 (he.trans hts)
  omega

/-- The last tick makes no news. -/
theorem of_tick (t : Timeline Nat) (h j : Nat) :
    (t.tick h).of j (t.len + 1) = t.of j t.len :=
  (Timeline.of_still (t := t.tick h) (Nat.le_succ _) fun k hk _ => (t.ticks k hk).2).trans
    ((Timeline.agrees_tick h t).of j le_rfl)

theorem told_tick (ht : t.Hosted n) (c h j : Nat) :
    told (news n t c t.len) j =
      (((t.tick h).of j (t.len + 1)).filter (c < ·)).map (t.tick h).stamp := by
  rw [told_news ht le_rfl, of_tick]
  refine List.map_congr_left fun k hk => ?_
  exact (stamp_agrees (Timeline.agrees_tick h t)
    (Timeline.mem_of.mp (List.mem_filter.mp hk).1).2.1).symm

/-- The packets of one page, each of an interval that is new: the first makes the page
`INVALID`, and then all of them are entered. -/
theorem Replica.foldl_packets (hp : p < maxPageNum) (hr : Replica t patch h v (m.pageArray p))
    (xs : List (Nat × Timestamp)) (hk : ∀ x ∈ xs, ¬ m.Known x.1 x.2) (hd : xs.Nodup) :
    let m' := (xs.map fun x => (⟨x.1, x.2, [p]⟩ : WnPacket)).foldl (incorporateWnPacket h) m
    ∃ v₀ page, v₀.clock = v.clock ∧ v.Grows v₀ ∧ v₀.has t h = v.has t h ∧
      Replica t patch h v₀ page ∧
      (xs ≠ [] → page.state ≠ .rdonly ∧ page.state ≠ .write) ∧
      (xs = [] → page = m.pageArray p) ∧ m'.intervalNow = m.intervalNow ∧
      (∀ j, m'.procArray j = (told xs j).map (⟨·, [p], false⟩) ++ m.procArray j) ∧
      m'.pageArray p = { page with
        notices := fun j => (told xs j).map (⟨·, none⟩) ++ page.notices j } := by
  intro m'
  by_cases hx : xs = []
  · subst hx
    exact ⟨v, m.pageArray p, rfl, ⟨rfl, fun _ h => h⟩, rfl, hr, fun h => absurd rfl h,
      fun _ => rfl, rfl, fun _ => rfl, rfl⟩
  · obtain ⟨v₀, hclock, hgrows, hhas, hr₀, hrd, hwr⟩ := hr.invalidatePage hp
    have hf := invalidatePage_frame h p m
    obtain ⟨hi, hl, hpage⟩ := foldl_hear xs (fun x hx hkn => hk x hx (by
      unfold Mem.Known at hkn ⊢
      rwa [hf.procArray] at hkn)) hd hrd hwr
    have hfold : m' = _ := foldl_invalidated xs hx hk hrd hwr
    refine ⟨v₀, _, hclock, hgrows, hhas, hr₀, fun _ => ⟨hrd, hwr⟩, fun h => absurd h hx, ?_, ?_, ?_⟩
    · rw [hfold, hi, hf.intervalNow]
    · intro j
      rw [hfold, hl j, hf.procArray]
    · rw [hfold, hpage]

/-- A host hears of everything up to the last moment and starts the next one. -/
theorem Mem.Shows.learn (hp : p < maxPageNum) (ht : t.Hosted n) (hs : m.Shows t patch p h v)
    (hc : v.clock ≤ t.len) (hown : ∀ k ∈ t.marked, v.clock < k → t.who k ≠ h) :
    ∃ v', v'.clock = t.len + 1 ∧ v.Grows v' ∧ v'.has (t.tick h) h = v.has t h ∧
      (handleGrantWNIMsg h (t.stamp t.len) (newsPackets n t p v.clock t.len).length
        (newsPackets n t p v.clock t.len) m).Shows (t.tick h) patch p h v' ∧
      ((∀ k ∈ t.marked, k ≤ v.clock) →
        ((handleGrantWNIMsg h (t.stamp t.len) (newsPackets n t p v.clock t.len).length
          (newsPackets n t p v.clock t.len) m).pageArray p).state =
        (m.pageArray p).state) := by
  have hag : t.Agrees (t.tick h) v.clock := (Timeline.agrees_tick h t).mono hc
  -- the new interval comes first, then the packets
  let m₁ := m.pushNow h ⟨bump h (t.stamp t.len), [], false⟩
  have hl₁ : Ledger (t.tick h) p h v.clock (t.len + 1) m₁ :=
    (hs.ledger.congr hag le_rfl).push _ (stamp_tick h t).symm rfl
  have hr₁ : Replica (t.tick h) patch h v (m₁.pageArray p) :=
    hs.replica.congr hag fun _ _ => rfl
  obtain ⟨v₀, page, hclock, hgrows, hhas, hr₀, hquiet, hsame, hi₂, hl₂, hp₂⟩ :=
    hr₁.foldl_packets hp (news n t v.clock t.len)
      (hs.ledger.news_unknown ht hc hown _) (news_nodup ht le_rfl)
  have hself : ((t.tick h).of h (t.len + 1)).filter (v.clock < ·) = [] := by
    rw [List.filter_eq_nil_iff]
    intro k hk
    rw [of_tick] at hk
    obtain ⟨-, -, hm, hw⟩ := Timeline.mem_of.mp hk
    have := fun hlt => hown k hm hlt hw
    simpa using this
  have hmsg : handleGrantWNIMsg h (t.stamp t.len) (newsPackets n t p v.clock t.len).length
      (newsPackets n t p v.clock t.len) m =
      { (newsPackets n t p v.clock t.len).foldl (incorporateWnPacket h) m₁ with
        fetchWNIWaitFlag := false } := by
    unfold handleGrantWNIMsg incorporatePackets
    rw [List.take_length]
  obtain ⟨hhas', hr'⟩ := hr₀.extend (c := t.len + 1) (by omega)
    (fun j => (told (news n t v.clock t.len) j).map (⟨·, none⟩) ++ page.notices j)
    (fun j => by rw [told_tick ht v.clock h, List.map_map, hclock]; rfl)
    (fun k hk hlt hkc hw => by
      have hkl := (t.ticks k hk).2
      rw [(Timeline.agrees_tick h t).who k (t.ticks k hk).1 hkl] at hw
      exact hown k hk (by omega) hw)
    (fun hv k hk _ => by
      rw [hclock]
      by_cases hx : news n t v.clock t.len = []
      · exact news_nil ht hx k hk
      · rcases hv with hv | hv
        · exact absurd hv (hquiet hx).1
        · exact absurd hv (hquiet hx).2)
  refine ⟨{ v₀ with clock := t.len + 1 }, rfl, ⟨hgrows.base, hgrows.diff⟩,
    hhas'.trans (hhas.trans (has_agrees hag)), ?_, fun hall => ?_⟩
  · rw [hmsg]
    refine ⟨?_, hp₂ ▸ hr'⟩
    refine Ledger.hear (m := m₁) (c := v.clock) hl₁ (Nat.le_succ_of_le hc) hi₂ (fun j => ?_) hself
    exact (hl₂ j).trans (by rw [told_tick ht v.clock h, List.map_map]; rfl)
  · have hx : news n t v.clock t.len = [] := by
      rw [List.eq_nil_iff_forall_not_mem]
      intro x hx
      obtain ⟨k, hk, hlt, -⟩ := mem_news hx
      have := hall k (Timeline.mem_of.mp hk).2.2.1
      omega
    rw [hmsg]
    change (((newsPackets n t p v.clock t.len).foldl (incorporateWnPacket h) m₁).pageArray
      p).state = _
    rw [newsPackets, hp₂, hsame hx]
    rfl

/-! ## Stores -/

theorem Mem.Shows.storeFirst (hp : p < maxPageNum) (ht : t.Hosted n)
    (hs : m.Shows t patch p h v) (hl : 0 < t.len) (hc : v.clock = t.len)
    (hw : t.who t.len = h) (hm : t.len ∉ t.marked)
    (hst : (m.pageArray p).state = .rdonly) (hread : (m.pageArray p).prot ≠ .none) (o : Nat)
    (bytes : List Byte) :
    ∃ m', segvHandler n h p m = some (m', [], .run) ∧ (m'.pageArray p).prot = .readWrite ∧
      (m'.storeBytes p o bytes).Shows (t.mark hl) (Function.update patch t.len
        (writeBytes (m.pageArray p).content o bytes - (m.pageArray p).content)) p h v ∧
      ((m'.storeBytes p o bytes).pageArray p).state = .write ∧
      ((m'.storeBytes p o bytes).pageArray p).content =
        writeBytes (m.pageArray p).content o bytes := by
  obtain ⟨m', he, -, -, hpage⟩ := segvHandler_rdonly (n := n) hp hs.replica.tidy hst hread
  have hwrote := segvHandler_wrote hst he
  have hl' := hs.ledger
  rw [hc] at hl'
  have hnow : (m.now h).timestamp = t.stamp t.len := hl'.now
  refine ⟨m', he, by rw [hpage], ⟨?_, ?_⟩, ?_, ?_⟩
  · rw [hc]
    exact (hl'.wrote ht hwrote hw hm).of_lists rfl rfl
  · unfold Mem.storeBytes
    rw [setPage_self, hpage, hnow]
    exact (hs.replica.storeFirst hc hw hm hst _).setProt .readWrite
  · unfold Mem.storeBytes
    rw [setPage_self, hpage]
  · unfold Mem.storeBytes
    rw [setPage_self, hpage]

theorem Mem.Shows.storeMore (hs : m.Shows t patch p h v)
    (hst : (m.pageArray p).state = .write) (o : Nat) (bytes : List Byte) :
    ∃ k ∈ t.upTo v.clock, t.who k = h ∧ v.diff k = none ∧
      (m.storeBytes p o bytes).Shows t (Function.update patch k (patch k +
        (writeBytes (m.pageArray p).content o bytes - (m.pageArray p).content))) p h v := by
  obtain ⟨k, hk, hw, hd, -⟩ := hs.replica.exists_dirty hst
  exact ⟨k, hk, hw, hd, hs.setPage (hs.replica.storeMore hk hw hd _) rfl⟩

/-! ## Diffs -/

theorem findNotice_map (ht : t.Hosted n) {ks : List Nat} (hks : ∀ k ∈ ks, k ≤ t.len)
    (hk : k ∈ ks) (diff : Nat → Option Content) :
    findNotice (t.stamp k) (ks.map fun i => ⟨t.stamp i, diff i⟩) =
      some ⟨t.stamp k, diff k⟩ := by
  induction ks with
  | nil => cases hk
  | cons j ks ih =>
      rw [List.map_cons, findNotice]
      by_cases hj : j = k
      · rw [List.find?_cons_of_pos (by rw [hj]; exact decide_eq_true rfl), hj]
      · have hne : t.stamp j ≠ t.stamp k := fun he =>
          hj (stamp_inj ht (hks j List.mem_cons_self) (hks k hk) he)
        rw [List.find?_cons_of_neg (by simpa using hne)]
        exact ih (fun i hi => hks i (List.mem_cons_of_mem _ hi))
          ((List.mem_cons.mp hk).resolve_left (Ne.symm hj))

theorem setDiff_map (ht : t.Hosted n) {ks : List Nat} (hks : ∀ k ∈ ks, k ≤ t.len)
    (hnd : ks.Nodup) (hk : k ≤ t.len) (diff : Content) (v : View) :
    setDiff (t.stamp k) (some diff) (ks.map fun i => ⟨t.stamp i, v.diff i⟩) =
      ks.map fun i => ⟨t.stamp i, (v.put k diff).diff i⟩ := by
  induction ks with
  | nil => rfl
  | cons j ks ih =>
      have hks' : ∀ i ∈ ks, i ≤ t.len := fun i hi => hks i (List.mem_cons_of_mem _ hi)
      obtain ⟨hj, hnd⟩ := List.nodup_cons.mp hnd
      rw [List.map_cons, List.map_cons, setDiff]
      by_cases hjk : j = k
      · subst hjk
        rw [if_pos rfl, put_diff_self]
        congr 1
        refine List.map_congr_left fun i hi => ?_
        rw [put_diff_ne]
        rintro rfl
        exact hj hi
      · rw [if_neg fun he => hjk (stamp_inj ht (hks j List.mem_cons_self) hk he), ih hks' hnd,
          put_diff_ne hjk]

theorem Replica.find (hr : Replica t patch h v page) (ht : t.Hosted n)
    (hk : k ∈ t.upTo v.clock) : findNotice (t.stamp k) (page.notices (t.who k)) =
      some ⟨t.stamp k, v.diff k⟩ := by
  obtain ⟨hm, hkc⟩ := Timeline.mem_upTo.mp hk
  rw [hr.notices]
  refine findNotice_map ht (fun j hj => ?_)
    (Timeline.mem_of.mpr ⟨(t.ticks k hm).1, hkc, hm, rfl⟩) v.diff
  exact (t.ticks j (Timeline.mem_of.mp hj).2.2.1).2

/-- A diff is asked of the host that wrote it. -/
theorem Mem.Shows.grantDiff (hp : p < maxPageNum) (ht : t.Hosted n)
    (hs : m.Shows t patch p h v) (hlive : (m.pageArray p).Live) {x : Nat} (hx : x < n)
    (hne : x ≠ h) (hk : k ∈ t.upTo v.clock) (hw : t.who k = h) :
    (grantDiff n h x (t.stamp k) p m).2.2 = [(x, .grantDiff (t.stamp k) p (patch k))] ∧
      ∃ v', v'.clock = v.clock ∧ v.Grows v' ∧ v'.diff k ≠ none ∧ v'.has t h = v.has t h ∧
        (grantDiff n h x (t.stamp k) p m).2.1.Shows t patch p h v' ∧
        ((((grantDiff n h x (t.stamp k) p m).2.1.pageArray p).state = (m.pageArray p).state) ∨
          ((m.pageArray p).state = .write ∧
          ((grantDiff n h x (t.stamp k) p m).2.1.pageArray p).state = .rdonly)) := by
  have hr := hs.replica
  have hfind := hr.find ht hk
  rw [hw] at hfind
  unfold Midsm.grantDiff
  dsimp only
  rw [if_neg (by omega), if_neg (by omega), if_neg (by simp [hlive.1, hlive.2]), hfind]
  dsimp only
  cases hd : v.diff k with
  | some diff =>
      have hdiff := hr.diffs k hk diff hd
      rw [Option.isSome_some, if_pos rfl, hfind, hd, hdiff]
      exact ⟨rfl, v, rfl, ⟨rfl, fun _ h => h⟩, by rw [hd]; exact nofun, rfl, hs, Or.inl rfl⟩
  | none =>
      obtain ⟨diff, rest, hl, hdiff, he⟩ := makeDiff_eq hp hr.tidy hfind hd
      rw [hr.localDiff hk hw hd, Option.some.injEq] at hdiff
      rw [hd] at hl
      obtain ⟨hhas, hr'⟩ := hr.close hk hw hd .rdonly .read nofun nofun hl
      have hmake : makeDiff h p (t.stamp k) m = m.setPage p { m.pageArray p with
          state := .rdonly
          twinPage := none
          notices := upd (m.pageArray p).notices h
            (⟨t.stamp k, some (patch k)⟩ :: rest)
          prot := .read } := by
        rw [he, ← hdiff]
      rw [Option.isSome_none, if_neg Bool.false_ne_true, hmake, setPage_self]
      have hfind' := hr'.find ht hk
      rw [hw] at hfind'
      rw [hfind', put_diff_self]
      refine ⟨rfl, v.put k (patch k), rfl, ⟨rfl, fun j hj => ?_⟩, ?_, hhas,
        hs.setPage hr' rfl, Or.inr ⟨(hr.lacking hk hw hd).1, rfl⟩⟩
      · by_cases hjk : j = k
        · rw [hjk, hd]
        · rwa [put_diff_ne hjk] at hj
      · rw [put_diff_self]
        exact nofun

/-- The diff arrives. -/
theorem Mem.Shows.takeDiff (ht : t.Hosted n) (hs : m.Shows t patch p h v)
    (hk : k ∈ t.upTo v.clock) (hw : t.who k ≠ h) (hno : k ∉ v.has t h)
    (hst : (m.pageArray p).state = .invalid) :
    (v.put k (patch k)).has t h = insert k (v.has t h) ∧
      (handleGrantDiffMsg (t.who k) (t.stamp k) p (patch k) m).Shows t patch p h
        (v.put k (patch k)) ∧
      ((handleGrantDiffMsg (t.who k) (t.stamp k) p (patch k) m).pageArray p).state =
        .invalid ∧
      ((handleGrantDiffMsg (t.who k) (t.stamp k) p (patch k) m).pageArray p).startInterval =
        (m.pageArray p).startInterval := by
  have hr := hs.replica
  have hm := Timeline.mem_upTo.mp hk
  have hd : v.diff k = none := by
    by_contra hd
    exact hno (View.mem_has.mpr ⟨hm, Or.inr (Or.inr (Option.isSome_iff_ne_none.mpr hd))⟩)
  have hb : v.base < k := by
    by_contra hle
    exact hno (View.mem_has.mpr ⟨hm, Or.inr (Or.inl (by omega))⟩)
  have hmem : (m.pageArray p).memory = some (m.pageArray p).content := by
    rw [Page.memory, if_neg (hr.tidy.address hr.mapped)]
  have hlist : setDiff (t.stamp k) (some (patch k)) ((m.pageArray p).notices (t.who k)) =
      (t.of (t.who k) v.clock).map fun i => ⟨t.stamp i, (v.put k (patch k)).diff i⟩ := by
    rw [hr.notices]
    exact setDiff_map ht (fun j hj => (t.ticks j (Timeline.mem_of.mp hj).2.2.1).2)
      ((t.of_sorted _ _).imp fun h => Nat.ne_of_gt h) (t.ticks k hm.1).2 _ v
  obtain ⟨hhas, hr'⟩ := hr.takeDiff hk hw hb hd hst hlist
  have he : handleGrantDiffMsg (t.who k) (t.stamp k) p (patch k) m =
      { m.setPage p { m.pageArray p with
          notices := upd (m.pageArray p).notices (t.who k)
            (setDiff (t.stamp k) (some (patch k)) ((m.pageArray p).notices (t.who k)))
          content := (m.pageArray p).content + patch k
          prot := .none } with
        fetchDiffWaitFlag := false } := by
    unfold handleGrantDiffMsg
    dsimp only
    rw [hr.find ht hk, hd, hmem]
    rfl
  rw [he]
  refine ⟨hhas, (hs.setPage (hr'.setProt .none) rfl).of_eq rfl rfl rfl, ?_, ?_⟩
  · dsimp only
    rw [setPage_self]
    exact hst
  · dsimp only
    rw [setPage_self]

/-! ## Pages -/

theorem Mem.Shows.takePage (hs : m.Shows t patch p h v)
    (hst : (m.pageArray p).state = .miss) {content : Content}
    (hc : content = ∑ k ∈ t.upTo v.clock, patch k) :
    { v with base := v.clock }.has t h = t.upTo v.clock ∧
      (handleGrantPageMsg h p content m).Shows t patch p h { v with base := v.clock } ∧
      ((handleGrantPageMsg h p content m).pageArray p).state = .miss := by
  obtain ⟨hhas, hr⟩ := hs.replica.takePage hst hc
  have he : handleGrantPageMsg h p content m = { m.setPage p { m.pageArray p with
      content := content, startInterval := some (t.stamp v.clock), prot := .readWrite } with
        fetchPageWaitFlag := false } := by
    unfold handleGrantPageMsg
    rw [hs.ledger.now]
  rw [he]
  refine ⟨hhas, (hs.setPage (hr.setProt .readWrite) rfl).of_eq rfl rfl rfl, ?_⟩
  dsimp only
  rw [setPage_self]
  exact hst

/-- A copy that has everything is made readable. -/
theorem Mem.Shows.validate (hs : m.Shows t patch p h v)
    (hst : (m.pageArray p).state ≠ .write) (hall : v.has t h = t.upTo v.clock) :
    (m.setPage p { m.pageArray p with state := .rdonly, prot := .read }).Shows t patch p h v :=
  hs.setPage (hs.replica.setState hst nofun nofun fun _ => hall) rfl

end

end Midsm
