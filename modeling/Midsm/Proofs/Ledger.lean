import Midsm.Proofs.Replica

/-!
# Passing the notices on

The interval lists of a host, when one lock guards one page. `Ledger` says that
they hold the notices of every marked moment up to `c`, and no others, and that
the current interval is moment `a`; in the middle of `handleGrantWNIMsg` the two
differ. So what `grantWNI` sends is what the other side has missed (`news`), and
what `handleGrantWNIMsg` makes of it is known exactly: each packet puts one
interval on a list and one notice on the page, and the first one invalidates the
page.
-/

namespace Midsm

open Midsm.Lib

/-! ## The interval lists -/

def Interval.key (interval : Interval) : Timestamp × List Nat :=
  (interval.timestamp, interval.notices)

/-- The intervals with notices. -/
def noted (list : List Interval) : List Interval :=
  list.filter fun interval => interval.notices ≠ []

theorem noted_cons_nil {interval : Interval} (rest : List Interval)
    (h : interval.notices = []) : noted (interval :: rest) = noted rest :=
  List.filter_cons_of_neg (by simp [h])

theorem noted_cons {interval : Interval} (rest : List Interval) (h : interval.notices ≠ []) :
    noted (interval :: rest) = interval :: noted rest :=
  List.filter_cons_of_pos (by simpa using h)

structure Ledger (t : Timeline Nat) (p h c a : Nat) (m : Mem) : Prop where
  top : m.NowTop h
  now : (m.now h).timestamp = t.stamp a
  listed : ∀ j, (noted (m.procArray j)).map Interval.key =
    (t.of j c).map fun k => (t.stamp k, [p])
  /-- Intervals of other hosts come with their notices. -/
  full : ∀ j ≠ h, ∀ interval ∈ m.procArray j, interval.notices ≠ []

section

variable {n p h a b c i j k : Nat} {t t' : Timeline Nat} {m m' : Mem}

theorem Ledger.congr (hl : Ledger t p h c a m) (ha : t.Agrees t' c) (hac : a ≤ c) :
    Ledger t' p h c a m where
  top := hl.top
  now := by rw [stamp_agrees ha hac, hl.now]
  listed j := by
    rw [hl.listed, ha.of j le_rfl]
    refine List.map_congr_left fun k hk => ?_
    rw [stamp_agrees ha (Timeline.mem_of.mp hk).2.1]
  full := hl.full

/-- The ledger reads the interval lists only. -/
theorem Ledger.of_lists (hl : Ledger t p h c a m) (hp : m'.procArray = m.procArray)
    (hi : m'.intervalNow = m.intervalNow) : Ledger t p h c a m' := by
  have hnow : m'.now h = m.now h := by
    unfold Mem.now
    rw [hp, hi]
  exact ⟨⟨by rw [hi, hp]; exact hl.top.top, by rw [hp]; exact hl.top.nonempty⟩,
    by rw [hnow, hl.now], by rw [hp]; exact hl.listed, by rw [hp]; exact hl.full⟩

theorem Ledger.known (hl : Ledger t p h c a m) (hj : j ≠ h) {ts : Timestamp} :
    m.Known j ts ↔ ∃ k ∈ t.of j c, t.stamp k = ts := by
  have hall : noted (m.procArray j) = m.procArray j := by
    rw [noted, List.filter_eq_self]
    intro interval hi
    exact decide_eq_true (hl.full j hj interval hi)
  have hlist := hl.listed j
  rw [hall] at hlist
  have hmem : ∀ q, q ∈ (m.procArray j).map Interval.key ↔
      q ∈ (t.of j c).map fun k => (t.stamp k, [p]) := fun q => by rw [hlist]
  constructor
  · rintro ⟨interval, hi, rfl⟩
    obtain ⟨k, hk, he⟩ := List.mem_map.mp ((hmem _).mp (List.mem_map_of_mem hi))
    exact ⟨k, hk, congrArg Prod.fst he⟩
  · rintro ⟨k, hk, rfl⟩
    obtain ⟨interval, hi, he⟩ := List.mem_map.mp
      ((hmem (t.stamp k, [p])).mpr (List.mem_map.mpr ⟨k, hk, rfl⟩))
    exact ⟨interval, hi, congrArg Prod.fst he⟩

/-- A new own interval. -/
theorem Ledger.push (hl : Ledger t p h c a m) (interval : Interval)
    (hts : interval.timestamp = t.stamp b) (hn : interval.notices = []) :
    Ledger t p h c b (m.pushNow h interval) where
  top := pushNow_nowTop h interval m
  now := by rw [pushNow_now, hts]
  listed j := by
    rw [← hl.listed]
    by_cases hj : j = h
    · subst hj
      rw [pushNow_procArray_self, noted_cons_nil _ hn]
    · rw [pushNow_procArray_ne hj]
  full j hj := by
    rw [pushNow_procArray_ne hj]
    exact hl.full j hj

/-- Hearing of later moments. -/
theorem Ledger.hear (hl : Ledger t p h c a m) (hc : c ≤ b) (hi : m'.intervalNow = m.intervalNow)
    (hp : ∀ j, m'.procArray j = ((t.of j b).filter (c < ·)).map
      (fun k => ⟨t.stamp k, [p], false⟩) ++ m.procArray j)
    (hown : (t.of h b).filter (c < ·) = []) : Ledger t p h b a m' := by
  have hself : m'.procArray h = m.procArray h := by
    rw [hp, hown]
    rfl
  have hnow : m'.now h = m.now h := by
    unfold Mem.now
    rw [hself, hi]
  refine ⟨⟨by rw [hi, hself]; exact hl.top.top, by rw [hself]; exact hl.top.nonempty⟩,
    by rw [hnow, hl.now], fun j => ?_, fun j hj interval hin => ?_⟩
  · have hnew : ∀ ks : List Nat, noted (ks.map fun k => ⟨t.stamp k, [p], false⟩) =
        ks.map fun k => ⟨t.stamp k, [p], false⟩ := by
      intro ks
      rw [noted, List.filter_eq_self]
      intro interval hin
      obtain ⟨k, -, rfl⟩ := List.mem_map.mp hin
      rfl
    have happ : noted (m'.procArray j) = ((t.of j b).filter (c < ·)).map
        (fun k => ⟨t.stamp k, [p], false⟩) ++ noted (m.procArray j) := by
      rw [hp, noted, List.filter_append, ← noted, ← noted, hnew]
    rw [happ, List.map_append, hl.listed, List.map_map]
    conv_rhs => rw [Timeline.of_split hc, List.map_append]
    rfl
  · rw [hp] at hin
    rcases List.mem_append.mp hin with hin | hin
    · obtain ⟨k, -, rfl⟩ := List.mem_map.mp hin
      exact nofun
    · exact hl.full j hj interval hin

theorem Ledger.addNewInterval (hl : Ledger t p h t.len t.len m) (ht : t.Hosted n) :
    Ledger (t.tick h) p h (t.len + 1) (t.len + 1) (addNewInterval n h m) := by
  have hag := Timeline.agrees_tick h t
  obtain ⟨rest, hr⟩ := hl.top.exists_now
  have hpush := (hl.congr hag le_rfl).push (b := t.len + 1) ⟨bump h (cut n 0
    ((m.procArray h).headD noInterval).timestamp), [], false⟩ (by
      rw [hr, List.headD_cons, hl.now, stamp_cut ht le_rfl]
      exact (stamp_tick h t).symm) rfl
  have hof : ∀ j, (t.tick h).of j (t.len + 1) = (t.tick h).of j t.len := fun j =>
    Timeline.of_still (Nat.le_succ _) fun k hk _ => (t.ticks k hk).2
  exact ⟨hpush.top, hpush.now, fun j => by rw [hof]; exact hpush.listed j, hpush.full⟩

/-- A first store in the current interval. -/
theorem Ledger.wrote (hl : Ledger t p h t.len t.len m) (ht : t.Hosted n) (hw : m.Wrote h p m')
    {hpos : 0 < t.len} (hwho : t.who t.len = h) (hm : t.len ∉ t.marked) :
    Ledger (t.mark hpos) p h t.len t.len m' := by
  obtain ⟨rest, hr, hr'⟩ := hw.list hl.top
  have hempty : (m.now h).notices = [] := by
    -- an interval with notices would be on the list under its own moment
    by_contra hne
    have hin : (m.now h).key ∈ (noted (m.procArray h)).map Interval.key := by
      rw [hr]
      rw [noted_cons _ hne]
      exact List.mem_cons_self
    rw [hl.listed] at hin
    obtain ⟨k, hk, he⟩ := List.mem_map.mp hin
    obtain ⟨-, hkl, hkm, -⟩ := Timeline.mem_of.mp hk
    have hts : t.stamp k = t.stamp t.len := (congrArg Prod.fst he).trans hl.now
    exact hm (stamp_inj ht hkl le_rfl hts ▸ hkm)
  have hkey : ((m.now h).addNotice p).key = (t.stamp t.len, [p]) := by
    rw [← hl.now, Interval.key, Interval.addNotice, hempty]
    rfl
  refine ⟨hw.nowTop hl.top, ?_, fun j => ?_, fun j hj => ?_⟩
  · rw [hw.now hl.top, stamp_mark, ← hl.now]
    rfl
  · simp only [stamp_mark]
    by_cases hj : j = h
    · subst hj
      have hold := hl.listed j
      rw [hr, noted_cons_nil _ hempty] at hold
      rw [hr', noted_cons _ (by simp [Interval.addNotice]), List.map_cons, hold, hkey]
      conv_rhs => rw [← hwho, Timeline.of_mark_self hm, List.map_cons, hwho]
    · rw [hw.list_ne hj, hl.listed, Timeline.of_mark_ne (by rw [hwho]; exact hj)]
  · rw [hw.list_ne hj]
    exact hl.full j hj

/-! ## What is sent -/

/-- What was marked after moment `a` and up to moment `c`, in the order in which
`grantWNI` sends it. -/
def news (n : Nat) (t : Timeline Nat) (a c : Nat) : List (Nat × Timestamp) :=
  (List.range n).flatMap fun i =>
    ((t.of i c).filter (a < ·)).reverse.map fun k => (i, t.stamp k)

def newsPackets (n : Nat) (t : Timeline Nat) (p a c : Nat) : List WnPacket :=
  (news n t a c).map fun x => ⟨x.1, x.2, [p]⟩

theorem intervalPackets_single (i : Nat) {interval : Interval} {ts : Timestamp}
    (hk : interval.key = (ts, [p])) : intervalPackets i interval = [⟨i, ts, [p]⟩] := by
  obtain ⟨ts', notices, b⟩ := interval
  rw [Interval.key, Prod.mk.injEq] at hk
  obtain ⟨rfl, rfl⟩ := hk
  rfl

/-- Intervals without notices send nothing. -/
theorem flatten_noted (i : Nat) (list : List Interval) :
    (list.map (intervalPackets i)).flatten = ((noted list).map (intervalPackets i)).flatten := by
  induction list with
  | nil => rfl
  | cons interval rest ih =>
      rw [List.map_cons, List.flatten_cons, ih]
      by_cases hn : interval.notices = []
      · have hnil : intervalPackets i interval = [] := by
          rw [intervalPackets, hn]
          rfl
        rw [noted_cons_nil _ hn, hnil, List.nil_append]
      · rw [noted_cons _ hn, List.map_cons, List.flatten_cons]

theorem Ledger.packetsAfter (hl : Ledger t p h c b m) (ht : t.Hosted n) (hc : c ≤ t.len)
    (a i : Nat) : (packetsAfter n (t.stamp a) i m).flatten =
      ((t.of i c).filter (a < ·)).reverse.map fun k => ⟨i, t.stamp k, [p]⟩ := by
  have hkeys : ∀ (list : List Interval) (ks : List Nat), (∀ k ∈ ks, k ≤ t.len) →
      list.map Interval.key = ks.map (fun k => (t.stamp k, [p])) →
      ((list.filter fun interval =>
        isAfterInterval n interval.timestamp (t.stamp a)).map (intervalPackets i)).flatten =
      (ks.filter (a < ·)).map fun k => ⟨i, t.stamp k, [p]⟩ := by
    intro list
    induction list with
    | nil =>
        intro ks _ he
        cases ks with
        | nil => rfl
        | cons => cases he
    | cons interval rest ih =>
        intro ks hks he
        cases ks with
        | nil => cases he
        | cons k ks =>
            rw [List.map_cons, List.map_cons, List.cons.injEq] at he
            have hrest := ih ks (fun j hj => hks j (List.mem_cons_of_mem _ hj)) he.2
            have hts : interval.timestamp = t.stamp k := congrArg Prod.fst he.1
            have hafter := stamp_after (j := a) ht (hks k List.mem_cons_self)
            by_cases hak : a < k
            · rw [List.filter_cons_of_pos (by rw [hts]; exact hafter.mpr hak),
                List.filter_cons_of_pos (by simpa using hak), List.map_cons,
                List.flatten_cons, intervalPackets_single i he.1, hrest]
              rfl
            · rw [List.filter_cons_of_neg (by rw [hts]; exact fun h => hak (hafter.mp h)),
                List.filter_cons_of_neg (by simpa using hak), hrest]
  unfold Midsm.packetsAfter
  rw [flatten_noted, noted, List.filter_comm, ← noted]
  rw [← List.filter_reverse, hkeys _ (t.of i c).reverse]
  · intro k hk
    have := (Timeline.mem_of.mp (List.mem_reverse.mp hk)).2.1
    omega
  · rw [noted, List.filter_reverse, List.map_reverse, List.map_reverse, ← noted, hl.listed]

theorem Ledger.grantWNI (hl : Ledger t p h c c m) (ht : t.Hosted n) (hc : c ≤ t.len)
    {x : Nat} (hx : x < n) (hne : x ≠ h) (a : Nat) :
    (grantWNI n h x (t.stamp a) m).2 = [(x, .grantWnI (t.stamp c)
      (newsPackets n t p a c).length (newsPackets n t p a c))] := by
  have hnews : ((List.range n).flatMap fun i =>
      Midsm.packetsAfter n (t.stamp a) i m).flatten = newsPackets n t p a c := by
    unfold newsPackets news
    induction List.range n with
    | nil => rfl
    | cons i is ih =>
        rw [List.flatMap_cons, List.flatMap_cons, List.flatten_append, ih,
          hl.packetsAfter ht hc, List.map_append, List.map_map]
        rfl
  unfold Midsm.grantWNI
  rw [if_neg (by omega), if_neg hne]
  dsimp only
  rw [hnews, hl.now]

/-! ## What is heard -/

/-- A new interval with one notice, on both lists. -/
def Mem.hear (p i : Nat) (ts : Timestamp) (m : Mem) : Mem :=
  { m.setPage p { m.pageArray p with
      notices := upd (m.pageArray p).notices i (⟨ts, none⟩ :: (m.pageArray p).notices i) } with
    procArray := upd m.procArray i (⟨ts, [p], false⟩ :: m.procArray i) }

theorem freeTwinPage_lists (lists : Nat → List Interval) :
    (freeTwinPage p { m with procArray := lists }).2 =
      { (freeTwinPage p m).2 with procArray := lists } := by
  unfold freeTwinPage
  dsimp only
  split
  · rfl
  · split
    · rfl
    · split <;> rfl

theorem invalidatePage_lists (lists : Nat → List Interval) :
    invalidatePage h p { m with procArray := lists } =
      { invalidatePage h p m with procArray := lists } := by
  unfold invalidatePage
  dsimp only
  split
  · rfl
  · exact congrArg (fun m : Mem => m.setPage p { m.pageArray p with prot := .none })
      (freeTwinPage_lists (m := m.setPage p _) lists)
  · rfl

theorem incorporate_unknown {ts : Timestamp} (hk : ¬ m.Known i ts) :
    incorporateWnPacket h m ⟨i, ts, [p]⟩ = (invalidatePage h p m).hear p i ts := by
  have hany : ((m.procArray i).any fun interval => interval.timestamp = ts) = false := by
    rw [List.any_eq_false]
    intro interval hi he
    exact hk ⟨interval, hi, of_decide_eq_true he⟩
  have hlists := (invalidatePage_frame h p m).procArray
  unfold incorporateWnPacket
  dsimp only
  rw [List.foldl_cons, List.foldl_nil, enterInterval]
  rw [if_neg (by rw [hany]; exact Bool.false_ne_true), incorporateNotice_eq, if_neg,
    invalidatePage_lists]
  · unfold Mem.record Mem.hear
    dsimp only
    rw [upd_self, upd_upd, hlists, appendNotice, if_pos rfl]
    rfl
  · dsimp only
    rw [upd_self, noticesOf]
    simp

/-- What a list of messages says of host `j`, newest first. -/
def told (xs : List (Nat × Timestamp)) (j : Nat) : List Timestamp :=
  ((xs.filter fun x => x.1 = j).map Prod.snd).reverse

theorem told_cons (x : Nat × Timestamp) (xs : List (Nat × Timestamp)) (j : Nat) :
    told (x :: xs) j = told xs j ++ if x.1 = j then [x.2] else [] := by
  unfold told
  by_cases hx : x.1 = j
  · rw [List.filter_cons_of_pos (by simpa using hx), List.map_cons, List.reverse_cons,
      if_pos hx]
  · rw [List.filter_cons_of_neg (by simpa using hx), if_neg hx, List.append_nil]

theorem invalidatePage_quiet (hs : (m.pageArray p).state ≠ .rdonly)
    (hs' : (m.pageArray p).state ≠ .write) : invalidatePage h p m = m := by
  unfold invalidatePage
  dsimp only
  split
  · next he => exact absurd he hs
  · next he => exact absurd he hs'
  · rfl

theorem hear_known {ts : Timestamp} {j : Nat} {ts' : Timestamp} :
    (m.hear p i ts).Known j ts' ↔ m.Known j ts' ∨ (j = i ∧ ts' = ts) := by
  unfold Mem.hear Mem.Known
  dsimp only
  by_cases hj : j = i
  · subst hj
    rw [upd_self]
    simp only [List.mem_cons, exists_eq_or_imp]
    rw [or_comm]
    simp [eq_comm]
  · rw [upd_ne hj]
    simp [hj]

/-- Packets about unknown intervals, read at a page that is not valid. -/
theorem foldl_hear (xs : List (Nat × Timestamp)) {m : Mem}
    (hk : ∀ x ∈ xs, ¬ m.Known x.1 x.2) (hnd : xs.Nodup)
    (hs : (m.pageArray p).state ≠ .rdonly) (hs' : (m.pageArray p).state ≠ .write) :
    let m' := (xs.map fun x => (⟨x.1, x.2, [p]⟩ : WnPacket)).foldl (incorporateWnPacket h) m
    m'.intervalNow = m.intervalNow ∧
    (∀ j, m'.procArray j = (told xs j).map (⟨·, [p], false⟩) ++ m.procArray j) ∧
    m'.pageArray p = { m.pageArray p with
      notices := fun j => (told xs j).map (⟨·, none⟩) ++ (m.pageArray p).notices j } := by
  induction xs generalizing m with
  | nil => exact ⟨rfl, fun _ => rfl, rfl⟩
  | cons x xs ih =>
      dsimp only
      rw [List.map_cons, List.foldl_cons, incorporate_unknown (hk x List.mem_cons_self),
        invalidatePage_quiet hs hs']
      have hpage : (m.hear p x.1 x.2).pageArray p = { m.pageArray p with
          notices := upd (m.pageArray p).notices x.1
            (⟨x.2, none⟩ :: (m.pageArray p).notices x.1) } := setPage_self ..
      obtain ⟨hi, hl, hp⟩ := ih (m := m.hear p x.1 x.2) (fun y hy hky => by
          rcases hear_known.mp hky with hky | ⟨h₁, h₂⟩
          · exact hk y (List.mem_cons_of_mem _ hy) hky
          · exact (List.nodup_cons.mp hnd).1 (Prod.ext h₁ h₂ ▸ hy))
        (List.nodup_cons.mp hnd).2 (by rw [hpage]; exact hs) (by rw [hpage]; exact hs')
      refine ⟨hi, fun j => ?_, ?_⟩
      · rw [hl, told_cons, List.map_append, List.append_assoc]
        congr 1
        unfold Mem.hear
        dsimp only
        by_cases hj : x.1 = j
        · subst hj
          rw [upd_self, if_pos rfl]
          rfl
        · rw [upd_ne (Ne.symm hj), if_neg hj]
          rfl
      · rw [hp, hpage]
        dsimp only
        congr 1
        funext j
        rw [told_cons, List.map_append, List.append_assoc]
        congr 1
        by_cases hj : x.1 = j
        · subst hj
          rw [upd_self, if_pos rfl]
          rfl
        · rw [upd_ne (Ne.symm hj), if_neg hj]
          rfl

theorem told_append (xs ys : List (Nat × Timestamp)) (j : Nat) :
    told (xs ++ ys) j = told ys j ++ told xs j := by
  unfold told
  rw [List.filter_append, List.map_append, List.reverse_append]

theorem told_news (ht : t.Hosted n) (hc : c ≤ t.len) (j : Nat) :
    told (news n t a c) j = ((t.of j c).filter (a < ·)).map t.stamp := by
  have hone : ∀ i, told (((t.of i c).filter (a < ·)).reverse.map fun k => (i, t.stamp k)) j =
      if i = j then ((t.of j c).filter (a < ·)).map t.stamp else [] := by
    intro i
    unfold told
    by_cases hi : i = j
    · subst hi
      rw [if_pos rfl, List.filter_eq_self.mpr, List.map_map, List.map_reverse,
        List.reverse_reverse]
      · rfl
      · intro x hx
        obtain ⟨k, -, rfl⟩ := List.mem_map.mp hx
        exact decide_eq_true rfl
    · rw [if_neg hi, List.filter_eq_nil_iff.mpr]
      · rfl
      · intro x hx
        obtain ⟨k, -, rfl⟩ := List.mem_map.mp hx
        simpa using hi
  have hall : ∀ b, told ((List.range b).flatMap fun i =>
      ((t.of i c).filter (a < ·)).reverse.map fun k => (i, t.stamp k)) j =
      if j < b then ((t.of j c).filter (a < ·)).map t.stamp else [] := by
    intro b
    induction b with
    | zero => rfl
    | succ b ih =>
        rw [List.range_succ, List.flatMap_append, told_append, ih, List.flatMap_singleton, hone]
        by_cases hb : b = j
        · rw [if_pos hb, if_neg (by omega), if_pos (by omega), List.append_nil]
        · rw [if_neg hb, List.nil_append]
          by_cases hj : j < b
          · rw [if_pos hj, if_pos (by omega)]
          · rw [if_neg hj, if_neg (by omega)]
  rw [news, hall]
  split
  · rfl
  · next hj =>
      have hnil : t.of j c = [] := by
        rw [List.eq_nil_iff_forall_not_mem]
        intro k hk
        obtain ⟨hpos, hkc, -, hw⟩ := Timeline.mem_of.mp hk
        exact hj (hw ▸ ht.who k hpos (hkc.trans hc))
      rw [hnil]
      rfl

theorem mem_news {x : Nat × Timestamp} (hx : x ∈ news n t a c) :
    ∃ k ∈ t.of x.1 c, a < k ∧ x.2 = t.stamp k := by
  obtain ⟨i, -, hi⟩ := List.mem_flatMap.mp hx
  obtain ⟨k, hk, rfl⟩ := List.mem_map.mp hi
  obtain ⟨hk, hak⟩ := List.mem_filter.mp (List.mem_reverse.mp hk)
  exact ⟨k, hk, of_decide_eq_true hak, rfl⟩

theorem news_nodup (ht : t.Hosted n) (hc : c ≤ t.len) : (news n t a c).Nodup := by
  rw [news, List.nodup_flatMap]
  refine ⟨fun i _ => ?_, ?_⟩
  · refine List.Nodup.map_on (fun j hj k hk he => ?_) ?_
    · have hle : ∀ {k}, k ∈ ((t.of i c).filter (a < ·)).reverse → k ≤ t.len := fun hk =>
        ((Timeline.mem_of.mp (List.mem_filter.mp (List.mem_reverse.mp hk)).1).2.1).trans hc
      exact stamp_inj ht (hle hj) (hle hk) (congrArg Prod.snd he)
    · rw [List.nodup_reverse]
      exact ((t.of_sorted i c).imp fun h => Nat.ne_of_gt h).filter _
  · refine List.nodup_range.imp fun {i j} hij => ?_
    intro x hx hy
    obtain ⟨k, -, rfl⟩ := List.mem_map.mp hx
    obtain ⟨k', -, he⟩ := List.mem_map.mp hy
    exact hij (congrArg Prod.fst he).symm

end

end Midsm
