import Midsm.Proofs.OnePage

/-!
# Serving a fault

What `fetchDiff` and `fetchPage` ask for. On each list the patches that a copy
lacks come first, since the host heard of them last, so the inner loop of
`fetchDiff` may stop at the first notice that has its diff. `Walking` is the
middle of the walk: the hosts before the current one are done, the current list
is done down to the notice that was asked for, and what is left is as it was.
`fetchPage` asks the author of the newest notice.
-/

namespace Midsm

open Midsm.Lib

/-- The patches the copy lacks come first. -/
def View.Ordered (t : Timeline Nat) (h : Nat) (v : View) (ks : List Nat) : Prop :=
  ks.Pairwise fun a b => a ∈ v.has t h → b ∈ v.has t h

/-- What is asked for first on such a list, and how many notices follow. -/
def View.request (t : Timeline Nat) (h : Nat) (v : View) :
    List Nat → Option (Timestamp × Nat)
  | [] => none
  | k :: older => if k ∈ v.has t h then none else some (t.stamp k, older.length)

section

variable {n p h i j k : Nat} {newer older : List Nat} {t : Timeline Nat} {patch : Nat → Content} {v : View}
  {m : Mem} {page : Page} {ts : Timestamp}

/-! ## The inner loop -/

theorem nextDiff_eq (ht : t.Hosted n) (hr : Replica t patch h v page) (ks : List Nat)
    (hks : ∀ k ∈ ks, k ∈ t.of i v.clock) (hi : i ≠ h) (hord : v.Ordered t h ks) :
    nextDiff n page.startInterval (ks.map fun k => ⟨t.stamp k, v.diff k⟩) =
      v.request t h ks := by
  induction ks with
  | nil => rfl
  | cons k ks ih =>
      obtain ⟨hpos, hkc, hm, hw⟩ := Timeline.mem_of.mp (hks k List.mem_cons_self)
      have hafter : page.startInterval.all (isAfterInterval n (t.stamp k)) = true ↔
          v.base < k := by
        have hstart := hr.start
        cases hsi : page.startInterval with
        | none =>
            rw [hsi] at hstart
            have hb : v.base = 0 := hstart
            rw [hb]
            exact ⟨fun _ => hpos, fun _ => rfl⟩
        | some start =>
            rw [hsi] at hstart
            have hb : start = t.stamp v.base := hstart
            rw [hb]
            exact stamp_after ht (t.ticks k hm).2
      have hhas : k ∈ v.has t h ↔ k ≤ v.base ∨ (v.diff k).isSome := by
        rw [View.mem_has, or_iff_right (by rw [hw]; exact hi)]
        exact ⟨fun hx => hx.2, fun hx => ⟨⟨hm, hkc⟩, hx⟩⟩
      rw [List.map_cons, nextDiff, View.request]
      dsimp only
      by_cases hd : (v.diff k).isSome = true
      · rw [if_pos hd, if_pos (hhas.mpr (Or.inr hd))]
      · rw [if_neg hd]
        by_cases hb : v.base < k
        · rw [if_pos (hafter.mpr hb), if_neg, List.length_map]
          rw [hhas]
          rintro (hle | hd')
          · omega
          · exact hd hd'
        · have hin : k ∈ v.has t h := hhas.mpr (Or.inl (by omega))
          rw [if_neg (fun h => hb (hafter.mp h)), if_pos hin,
            ih (fun k hk => hks k (List.mem_cons_of_mem _ hk)) (List.Pairwise.of_cons hord)]
          cases ks with
          | nil => rfl
          | cons k' ks' =>
              exact if_pos (List.rel_of_pairwise_cons hord List.mem_cons_self hin)

/-! ## The outer loop -/

/-- Everything host `j` wrote is in the copy. -/
def View.Done (t : Timeline Nat) (h : Nat) (v : View) (j : Nat) : Prop :=
  ∀ k ∈ t.of j v.clock, k ∈ v.has t h

theorem View.Ordered.done_of_head (hord : v.Ordered t h (k :: older)) (hk : k ∈ v.has t h) :
    ∀ j ∈ k :: older, j ∈ v.has t h := by
  intro j hj
  rcases List.mem_cons.mp hj with rfl | hj
  · exact hk
  · exact List.rel_of_pairwise_cons hord hj hk

/-- What the outer loop finds among the hosts still to visit. -/
inductive Visit (t : Timeline Nat) (h : Nat) (v : View) (hosts : List Nat) :
    Option (Nat × Timestamp × Nat) → Prop
  | found (before after : List Nat) (i k : Nat) (older : List Nat) :
      hosts = before ++ i :: after → i ≠ h → t.of i v.clock = k :: older →
      k ∉ v.has t h → (∀ j ∈ before, j ≠ h → v.Done t h j) →
      Visit t h v hosts (some (i, t.stamp k, older.length))
  | done : (∀ j ∈ hosts, j ≠ h → v.Done t h j) → Visit t h v hosts none

theorem nextDiffHost_visit (ht : t.Hosted n) (hr : Replica t patch h v page)
    {hosts : List Nat} (hord : ∀ j ∈ hosts, j ≠ h → v.Ordered t h (t.of j v.clock)) :
    Visit t h v hosts (nextDiffHost n h page.startInterval page hosts) := by
  induction hosts with
  | nil => exact .done fun j hj => nomatch hj
  | cons i is ih =>
      have hrest := ih fun j hj => hord j (List.mem_cons_of_mem _ hj)
      have hskip : (i ≠ h → v.Done t h i) →
          Visit t h v (i :: is) (nextDiffHost n h page.startInterval page is) := by
        intro hdone
        revert hrest
        generalize nextDiffHost n h page.startInterval page is = request
        intro hrest
        cases hrest with
        | found before after i' k older he hi hof hk hb =>
            refine .found (i :: before) after i' k older (by rw [he]; rfl) hi hof hk ?_
            intro j hj
            rcases List.mem_cons.mp hj with rfl | hj
            · exact hdone
            · exact hb j hj
        | done hall =>
            refine .done fun j hj => ?_
            rcases List.mem_cons.mp hj with rfl | hj
            · exact hdone
            · exact hall j hj
      rw [nextDiffHost]
      by_cases hi : i = h
      · rw [if_pos hi]
        exact hskip fun hne => absurd hi hne
      · have hordi := hord i List.mem_cons_self hi
        rw [if_neg hi, hr.notices, nextDiff_eq ht hr _ (fun _ hk => hk) hi hordi]
        cases hof : t.of i v.clock with
        | nil =>
            refine hskip fun _ k hk => ?_
            rw [hof] at hk
            cases hk
        | cons k older =>
            rw [View.request]
            by_cases hk : k ∈ v.has t h
            · rw [if_pos hk]
              refine hskip fun _ j hj => ?_
              rw [hof] at hordi hj
              exact hordi.done_of_head hk j hj
            · rw [if_neg hk]
              exact .found [] is i k older rfl hi hof hk fun j hj => nomatch hj

/-! ## The walk -/

/-- `fetchDiff` has asked host `i` for patch `k`. -/
structure Walking (n : Nat) (t : Timeline Nat) (h : Nat) (v : View) (i : Nat)
    (newer : List Nat) (k : Nat) (older : List Nat) : Prop where
  host : i < n
  other : i ≠ h
  list : t.of i v.clock = newer ++ k :: older
  newer : ∀ j ∈ newer, j ∈ v.has t h
  older : v.Ordered t h older
  before : ∀ j < i, j ≠ h → v.Done t h j
  after : ∀ j, i < j → j ≠ h → v.Ordered t h (t.of j v.clock)

/-- The walk goes on to the next request or is over. -/
inductive WalkOn (n : Nat) (t : Timeline Nat) (p h : Nat) (v : View) (m : Mem) :
    Mem × Out × Pc → Prop
  | finished : v.has t h = t.upTo v.clock → WalkOn n t p h v m
      (m.setPage p { m.pageArray p with state := .rdonly, prot := .read }, [], .run)
  | ask (i : Nat) (newer : List Nat) (k : Nat) (older : List Nat) :
      Walking n t h v i newer k older → k ∉ v.has t h →
      WalkOn n t p h v m ({ m with fetchDiffWaitFlag := true }, [(i, .fetchDiff p (t.stamp k))],
        .diffWait p (m.pageArray p).startInterval i older.length)

theorem Walking.mem (hw : Walking n t h v i newer k older) : k ∈ t.of i v.clock := by
  rw [hw.list]
  exact List.mem_append_right _ List.mem_cons_self

theorem Walking.known (hw : Walking n t h v i newer k older) :
    k ∈ t.upTo v.clock ∧ t.who k = i := by
  obtain ⟨-, hkc, hm, hwho⟩ := Timeline.mem_of.mp hw.mem
  exact ⟨Timeline.mem_upTo.mpr ⟨hm, hkc⟩, hwho⟩

/-- The patch that was asked for joins the copy. -/
theorem View.Ordered.put {ks : List Nat} {v' : View} (ho : v.Ordered t h ks) (hk : k ∉ ks)
    (hh : v'.has t h = insert k (v.has t h)) : v'.Ordered t h ks := by
  refine List.Pairwise.imp_of_mem (fun {a b} ha _ hab hin => ?_) ho
  rw [hh, Finset.mem_insert] at hin ⊢
  have hne : a ≠ k := fun he => hk (he ▸ ha)
  exact Or.inr (hab (hin.resolve_left hne))

theorem Walking.put {diff : Content} (hw : Walking n t h v i newer k older)
    (hh : (v.put k diff).has t h = insert k (v.has t h)) :
    Walking n t h (v.put k diff) i newer k older := by
  have hmono : ∀ j ∈ v.has t h, j ∈ (v.put k diff).has t h := fun j hj => by
    rw [hh]
    exact Finset.mem_insert_of_mem hj
  have hsorted := t.of_sorted i v.clock
  rw [hw.list] at hsorted
  have hold : k ∉ older := fun hin => by
    have := List.rel_of_pairwise_cons (List.pairwise_append.mp hsorted).2.1 hin
    omega
  refine ⟨hw.host, hw.other, hw.list, fun j hj => hmono j (hw.newer j hj),
    hw.older.put hold hh, fun j hj hjh a ha => hmono a (hw.before j hj hjh a ha),
    fun j hj hjh => (hw.after j hj hjh).put (fun hin => ?_) hh⟩
  have hwho := (Timeline.mem_of.mp hin).2.2.2
  rw [hw.known.2] at hwho
  omega

theorem View.has_all (ht : t.Hosted n) (hall : ∀ j < n, j ≠ h → v.Done t h j) :
    v.has t h = t.upTo v.clock := by
  refine Finset.Subset.antisymm View.has_sub fun k hk => ?_
  have hm := Timeline.mem_upTo.mp hk
  obtain ⟨hpos, hkl⟩ := t.ticks k hm.1
  by_cases hw : t.who k = h
  · exact View.mem_has.mpr ⟨hm, Or.inl hw⟩
  · exact hall _ (ht.who k hpos hkl) hw k (Timeline.mem_of.mpr ⟨hpos, hm.2, hm.1, rfl⟩)

/-- The outer loop over a part of the hosts, the earlier ones being done. -/
theorem walkOn_hosts (ht : t.Hosted n) (hr : Replica t patch h v (m.pageArray p)) {hosts : List Nat}
    (hsorted : hosts.Pairwise (· < ·)) (hin : ∀ j ∈ hosts, j < n)
    (hdone : ∀ j < n, j ∉ hosts → j ≠ h → v.Done t h j)
    (hord : ∀ j, j ∈ hosts ∨ n ≤ j → j ≠ h → v.Ordered t h (t.of j v.clock))
    (hlow : ∀ i ∈ hosts, ∀ j, i < j → j < n → j ∈ hosts) :
    WalkOn n t p h v m (requestDiff p (m.pageArray p).startInterval
      (nextDiffHost n h (m.pageArray p).startInterval (m.pageArray p) hosts) m) := by
  have hvisit := nextDiffHost_visit ht hr fun j hj => hord j (Or.inl hj)
  revert hvisit
  generalize nextDiffHost n h (m.pageArray p).startInterval (m.pageArray p) hosts = request
  intro hvisit
  cases hvisit with
  | found before after i k older he hi hof hk hb =>
      have hmem : i ∈ hosts := by
        rw [he]
        exact List.mem_append_right _ List.mem_cons_self
      refine .ask i [] k older ⟨hin i hmem, hi, hof, fun j hj => (nomatch hj), ?_, ?_, ?_⟩ hk
      · have hordi := hord i (Or.inl hmem) hi
        rw [hof] at hordi
        exact List.Pairwise.of_cons hordi
      · intro j hj hjh
        have hjn := hj.trans (hin i hmem)
        by_cases hjm : j ∈ hosts
        · refine hb j ?_ hjh
          rw [he] at hjm hsorted
          rcases List.mem_append.mp hjm with hjb | hja
          · exact hjb
          · have hrel := (List.pairwise_append.mp hsorted).2.1
            rcases List.mem_cons.mp hja with rfl | hja
            · omega
            · have := List.rel_of_pairwise_cons hrel hja
              omega
        · exact hdone j hjn hjm hjh
      · intro j hj hjh
        by_cases hjn : j < n
        · exact hord j (Or.inl (hlow i hmem j hj hjn)) hjh
        · exact hord j (Or.inr (by omega)) hjh
  | done hall =>
      refine .finished (View.has_all ht fun j hj hjh => ?_)
      by_cases hjm : j ∈ hosts
      · exact hall j hjm hjh
      · exact hdone j hj hjm hjh

theorem fetchDiff_walk (ht : t.Hosted n) (hr : Replica t patch h v (m.pageArray p))
    (hord : ∀ j, j ≠ h → v.Ordered t h (t.of j v.clock)) :
    WalkOn n t p h v m (fetchDiff n h p m) := by
  unfold fetchDiff
  refine walkOn_hosts ht hr List.pairwise_lt_range (fun j hj => List.mem_range.mp hj)
    (fun j hj hjm => absurd (List.mem_range.mpr hj) hjm) (fun j _ hjh => hord j hjh)
    fun _ _ j _ hj => List.mem_range.mpr hj

theorem fetchDiffResume_walk (ht : t.Hosted n) (hr : Replica t patch h v (m.pageArray p))
    (hw : Walking n t h v i newer k older) (hk : k ∈ v.has t h) :
    WalkOn n t p h v m
      (fetchDiffResume n h p (m.pageArray p).startInterval i older.length m) := by
  have hdrop : ((m.pageArray p).notices i).drop
      (((m.pageArray p).notices i).length - older.length) =
      older.map fun k => ⟨t.stamp k, v.diff k⟩ := by
    have hsplit : newer ++ k :: older = (newer ++ [k]) ++ older := by simp
    rw [hr.notices, hw.list, hsplit, List.map_append]
    refine List.drop_left' ?_
    simp only [List.length_map, List.length_append, List.length_singleton]
    omega
  have hnext := nextDiff_eq (i := i) ht hr older (fun j hj => by
    rw [hw.list]
    exact List.mem_append_right _ (List.mem_cons_of_mem _ hj)) hw.other hw.older
  unfold fetchDiffResume
  dsimp only
  rw [hdrop, hnext]
  -- the rest of this host's list holds the next request, or nothing is left on it
  have hover : (∀ j ∈ older, j ∈ v.has t h) → WalkOn n t p h v m
      (requestDiff p (m.pageArray p).startInterval (nextDiffHost n h
        (m.pageArray p).startInterval (m.pageArray p)
        (List.range' (i + 1) (n - (i + 1)))) m) := by
    intro hall
    have hi := hw.host
    have hmem : ∀ j, j ∈ List.range' (i + 1) (n - (i + 1)) ↔ i < j ∧ j < n := fun j => by
      rw [List.mem_range'_1]
      omega
    refine walkOn_hosts ht hr List.pairwise_lt_range' (fun j hj => ((hmem j).mp hj).2)
      (fun j hj hjm hjh => ?_) (fun j hj hjh => ?_) fun j hj j' hlt hj' =>
        (hmem j').mpr ⟨((hmem j).mp hj).1.trans hlt, hj'⟩
    · by_cases hji : j = i
      · subst hji
        intro a ha
        rw [hw.list] at ha
        rcases List.mem_append.mp ha with ha | ha
        · exact hw.newer a ha
        · rcases List.mem_cons.mp ha with rfl | ha
          · exact hk
          · exact hall a ha
      · refine hw.before j ?_ hjh
        rw [hmem] at hjm
        omega
    · refine hw.after j ?_ hjh
      rcases hj with hj | hj
      · exact ((hmem j).mp hj).1
      · omega
  cases older with
  | nil => exact hover fun j hj => nomatch hj
  | cons k' older =>
      rw [View.request]
      by_cases hk' : k' ∈ v.has t h
      · rw [if_pos hk']
        exact hover (hw.older.done_of_head hk')
      · rw [if_neg hk']
        refine .ask i (newer ++ [k]) k' older ⟨hw.host, hw.other, ?_, ?_,
          List.Pairwise.of_cons hw.older, hw.before, hw.after⟩ hk'
        · rw [hw.list]
          simp
        · intro j hj
          rcases List.mem_append.mp hj with hj | hj
          · exact hw.newer j hj
          · rw [List.mem_singleton.mp hj]
            exact hk

/-! ## Where a page is asked for -/

/-- The scan finds the host of the newest notice among the others. -/
theorem latestNotice_eq (ht : t.Hosted n) (hr : Replica t patch h v page)
    (hk : k ∈ t.upTo v.clock) (hw : t.who k ≠ h)
    (hmax : ∀ j ∈ t.upTo v.clock, t.who j ≠ h → j ≤ k) {hosts : List Nat}
    {latest : Option (Nat × Timestamp)}
    (hlatest : ∀ x, latest = some x → ∃ j ∈ t.upTo v.clock, t.who j ≠ h ∧
      x = (t.who j, t.stamp j))
    (hin : latest = some (t.who k, t.stamp k) ∨ t.who k ∈ hosts) :
    latestNotice n h page hosts latest = some (t.who k, t.stamp k) := by
  have hm := Timeline.mem_upTo.mp hk
  have hkof : k ∈ t.of (t.who k) v.clock :=
    Timeline.mem_of.mpr ⟨(t.ticks k hm.1).1, hm.2, hm.1, rfl⟩
  induction hosts generalizing latest with
  | nil => exact hin.resolve_right List.not_mem_nil
  | cons i is ih =>
      rw [latestNotice.eq_def]
      dsimp only
      have hskip : i ≠ t.who k → latestNotice n h page is latest =
          some (t.who k, t.stamp k) := fun hi =>
        ih hlatest (hin.imp_right fun hx => (List.mem_cons.mp hx).resolve_left (Ne.symm hi))
      by_cases hi : i = h
      · rw [if_pos hi]
        exact hskip fun he => hw (he.symm.trans hi)
      · rw [if_neg hi, hr.notices]
        cases hof : t.of i v.clock with
        | nil =>
            refine hskip ?_
            rintro rfl
            rw [hof] at hkof
            cases hkof
        | cons j ks =>
            obtain ⟨hpos, hjc, hjm, hjw⟩ := Timeline.mem_of.mp
              (show j ∈ t.of i v.clock by rw [hof]; exact List.mem_cons_self)
            have hj : j ∈ t.upTo v.clock := Timeline.mem_upTo.mpr ⟨hjm, hjc⟩
            have hjk := hmax j hj (by rw [hjw]; exact hi)
            have hhead : i = t.who k → j = k := by
              rintro rfl
              have hsorted := t.of_sorted (t.who k) v.clock
              rw [hof] at hkof hsorted
              rcases List.mem_cons.mp hkof with rfl | hkof
              · rfl
              · have := List.rel_of_pairwise_cons hsorted hkof
                omega
            have hnew : ∀ x, some (i, t.stamp j) = some x → ∃ j ∈ t.upTo v.clock,
                t.who j ≠ h ∧ x = (t.who j, t.stamp j) := by
              rintro x ⟨⟩
              exact ⟨j, hj, by rw [hjw]; exact hi, by rw [hjw]⟩
            have htake : t.who k ∈ i :: is → latestNotice n h page is (some (i, t.stamp j)) =
                some (t.who k, t.stamp k) := by
              intro hx
              refine ih hnew ?_
              rcases List.mem_cons.mp hx with he | hx
              · exact Or.inl (by rw [hhead he.symm, he])
              · exact Or.inr hx
            rw [List.map_cons]
            cases latest with
            | none =>
                exact htake (hin.resolve_left (by simp))
            | some x =>
                obtain ⟨a, ha, haw, rfl⟩ := hlatest x rfl
                have hak := hmax a ha haw
                have hafter := stamp_after (j := a) ht (t.ticks j hjm).2
                dsimp only
                split
                · next haft =>
                    refine htake (hin.resolve_left fun he => ?_)
                    rw [Option.some.injEq, Prod.mk.injEq] at he
                    have := stamp_inj ht (t.ticks a (Timeline.mem_upTo.mp ha).1).2
                      (t.ticks k hm.1).2 he.2
                    have := hafter.mp haft
                    omega
                · next haft =>
                    refine ih hlatest ?_
                    rcases hin with he | hx
                    · exact Or.inl he
                    · rcases List.mem_cons.mp hx with he | hx
                      · -- the newest notice is this one, so the other one was not older
                        have hjk := hhead he.symm
                        have : ¬ a < j := fun hlt => haft (hafter.mpr hlt)
                        obtain rfl : a = k := by omega
                        exact Or.inl rfl
                      · exact Or.inr hx

theorem fetchPageDest_newest (ht : t.Hosted n) (hr : Replica t patch h v page)
    (hk : k ∈ t.upTo v.clock) (hw : t.who k ≠ h)
    (hmax : ∀ j ∈ t.upTo v.clock, t.who j ≠ h → j ≤ k) :
    fetchPageDest n h p page = some (t.who k) := by
  have hm := Timeline.mem_upTo.mp hk
  have hn := ht.who k (t.ticks k hm.1).1 (t.ticks k hm.1).2
  have hhas : hasWriteNotice n h page = true := by
    rw [hasWriteNotice, List.any_eq_true]
    refine ⟨t.who k, List.mem_range.mpr hn, decide_eq_true ⟨hw, ?_⟩⟩
    have hkof : k ∈ t.of (t.who k) v.clock :=
      Timeline.mem_of.mpr ⟨(t.ticks k hm.1).1, hm.2, hm.1, rfl⟩
    rw [hr.notices, List.isEmpty_eq_false_iff]
    exact List.ne_nil_of_mem (List.mem_map_of_mem hkof)
  rw [fetchPageDest, if_pos hhas, latestNotice_eq ht hr hk hw hmax (by rintro x ⟨⟩)
    (Or.inr (List.mem_range.mpr hn))]
  rfl

theorem fetchPageDest_home (hr : Replica t patch h v page)
    (hno : ∀ k ∈ t.upTo v.clock, t.who k = h) : fetchPageDest n h p page = some (p % n) := by
  have hhas : hasWriteNotice n h page = false := by
    rw [hasWriteNotice, List.any_eq_false]
    intro i hi
    rw [decide_eq_true_eq]
    rintro ⟨hih, hne⟩
    rw [hr.notices] at hne
    cases hof : t.of i v.clock with
    | nil =>
        rw [hof] at hne
        cases hne
    | cons k ks =>
        obtain ⟨-, hkc, hkm, hkw⟩ := Timeline.mem_of.mp
          (show k ∈ t.of i v.clock by rw [hof]; exact List.mem_cons_self)
        exact hih (hkw.symm.trans (hno k (Timeline.mem_upTo.mpr ⟨hkm, hkc⟩)))
  rw [fetchPageDest, hhas]
  rfl

end

end Midsm
