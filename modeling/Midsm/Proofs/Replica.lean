import Mathlib.Algebra.BigOperators.Group.Finset.Basic
import Midsm.Lib.Timeline
import Midsm.Proofs.Clocks
import Midsm.Proofs.PageState

/-!
# One page and its diffs

When one lock guards everything, the intervals of all hosts lie on one
`Timeline`: an interval is a tick, its timestamp is the clock of the moment, and
the moments with a write notice for the page are the marked ones. Each marked
moment stands for a patch, what its owner wrote to the page under that notice.

`Replica` says what a host's copy of the page is in these terms. The host has
heard of everything up to some moment, its clock. Its copy is the sum of some of
the patches it has heard of: its own, those that came with a whole page, up to
`startInterval`, and those it fetched as diffs. A valid copy has all of them.
-/

namespace Midsm

open Midsm.Lib

/-! ## Timestamps on a timeline -/

def Lib.Timeline.stamp (t : Timeline Nat) (k : Nat) : Timestamp := fun i => t.clock k i.val

/-- Every tick is a host's. -/
structure Lib.Timeline.Hosted (n : Nat) (t : Timeline Nat) : Prop where
  fits : n ≤ maxHostNum
  who : ∀ k, 0 < k → k ≤ t.len → t.who k < n

section

variable {n h x : Nat} {t t' : Timeline Nat} {c j k : Nat}

theorem stamp_after (ht : t.Hosted n) (hk : k ≤ t.len) :
    isAfterInterval n (t.stamp k) (t.stamp j) = true ↔ j < k := by
  rw [isAfterInterval_iff]
  constructor
  · rintro ⟨-, i, -, hlt⟩
    by_contra hle
    have := t.clock_mono (Nat.le_of_not_lt hle) i.val
    unfold Timeline.stamp at hlt
    omega
  · intro hlt
    have hwho := ht.who k (by omega) hk
    have hfits := ht.fits
    exact ⟨fun i _ => t.clock_mono hlt.le i.val,
      ⟨t.who k, by omega⟩, hwho, Timeline.clock_lt hlt⟩

theorem stamp_inj (ht : t.Hosted n) (hj : j ≤ t.len) (hk : k ≤ t.len)
    (he : t.stamp j = t.stamp k) : j = k := by
  rcases Nat.lt_trichotomy j k with hlt | he' | hlt
  · exact absurd (he ▸ (stamp_after ht hk).mpr hlt) (isAfterInterval_irrefl n _)
  · exact he'
  · exact absurd (he ▸ (stamp_after ht hj).mpr hlt) (isAfterInterval_irrefl n _)

theorem stamp_cut (ht : t.Hosted n) (hk : k ≤ t.len) : cut n 0 (t.stamp k) = t.stamp k := by
  funext i
  unfold cut
  split
  · rfl
  · next hi =>
      refine (Timeline.clock_of_absent fun j hj hjk he => ?_).symm
      have := ht.who j hj (hjk.trans hk)
      omega

theorem stamp_tick (x : Nat) (t : Timeline Nat) :
    (t.tick x).stamp (t.len + 1) = bump x (t.stamp t.len) := by
  funext i
  unfold Timeline.stamp bump
  rw [Timeline.clock_tick]
  dsimp only
  by_cases hi : i.val = x
  · rw [if_pos hi, if_pos hi.symm]
  · rw [if_neg hi, if_neg (Ne.symm hi), add_zero]

theorem stamp_agrees (ha : t.Agrees t' c) (hk : k ≤ c) : t'.stamp k = t.stamp k := by
  funext i
  exact congrFun (ha.clock hk) i.val

theorem stamp_mark {hl : 0 < t.len} (k : Nat) : (t.mark hl).stamp k = t.stamp k := by
  funext i
  exact congrFun (Timeline.clock_mark k) i.val

theorem Lib.Timeline.Hosted.tick (ht : t.Hosted n) (hx : x < n) : (t.tick x).Hosted n where
  fits := ht.fits
  who k hk hkl := by
    by_cases hkt : k ≤ t.len
    · rw [(Timeline.agrees_tick x t).who k hk hkt]
      exact ht.who k hk hkt
    · have hlen : k = t.len + 1 := by
        have hl : k ≤ t.len + 1 := hkl
        omega
      rw [hlen, Timeline.tick_who]
      exact hx

theorem Lib.Timeline.Hosted.mark (ht : t.Hosted n) (hl : 0 < t.len) : (t.mark hl).Hosted n :=
  ⟨ht.fits, ht.who⟩

end

/-! ## A host's copy -/

/-- What a host has heard: everything up to `clock`, a whole page that was good
up to `base`, and the diffs it holds. -/
structure View where
  clock : Nat
  base : Nat
  diff : Nat → Option Content

def View.put (k : Nat) (diff : Content) (v : View) : View :=
  { v with diff := Function.update v.diff k (some diff) }

theorem put_diff_self (k : Nat) (diff : Content) (v : View) :
    (v.put k diff).diff k = some diff := Function.update_self ..

theorem put_diff_ne {j k : Nat} (h : j ≠ k) (diff : Content) (v : View) :
    (v.put k diff).diff j = v.diff j := Function.update_of_ne h ..

/-- The patches in host `h`'s copy. -/
def View.has (t : Timeline Nat) (h : Nat) (v : View) : Finset Nat :=
  (t.upTo v.clock).filter fun k => t.who k = h ∨ k ≤ v.base ∨ (v.diff k).isSome

structure Replica (t : Timeline Nat) (patch : Nat → Content) (h : Nat) (v : View)
    (page : Page) : Prop where
  tidy : page.Tidy h
  mapped : page.state ≠ .unmap
  notices : ∀ j, page.notices j =
    (t.of j v.clock).map fun k => ⟨t.stamp k, v.diff k⟩
  start : page.startInterval.elim (v.base = 0) (· = t.stamp v.base)
  past : v.base ≤ v.clock
  heard : ∀ k, (v.diff k).isSome → k ∈ t.upTo v.clock
  content : page.content = ∑ k ∈ v.has t h, patch k
  diffs : ∀ k ∈ t.upTo v.clock, ∀ diff, v.diff k = some diff → diff = patch k
  /-- The newest own notice of a `WRITE` page. -/
  dirty : ∀ k ∈ t.upTo v.clock, t.who k = h → v.diff k = none →
    ∃ twin, page.twinPage = some twin ∧ page.content = twin + patch k
  valid : page.state = .rdonly ∨ page.state = .write → v.has t h = t.upTo v.clock

section

variable {t t' : Timeline Nat} {patch patch' : Nat → Content} {h c j k : Nat}
  {v : View} {page page' : Page}

theorem View.mem_has : k ∈ v.has t h ↔ (k ∈ t.marked ∧ k ≤ v.clock) ∧
    (t.who k = h ∨ k ≤ v.base ∨ (v.diff k).isSome) := by
  rw [View.has, Finset.mem_filter, Timeline.mem_upTo]

theorem View.has_sub : v.has t h ⊆ t.upTo v.clock := Finset.filter_subset _ _

theorem has_agrees (ha : t.Agrees t' v.clock) : v.has t' h = v.has t h := by
  ext k
  rw [View.mem_has, View.mem_has]
  constructor
  · rintro ⟨⟨hm, hk⟩, hd⟩
    have hm' := (ha.marked k hk).mp hm
    rw [ha.who k (t.ticks k hm').1 hk] at hd
    exact ⟨⟨hm', hk⟩, hd⟩
  · rintro ⟨⟨hm, hk⟩, hd⟩
    rw [← ha.who k (t.ticks k hm).1 hk] at hd
    exact ⟨⟨(ha.marked k hk).mpr hm, hk⟩, hd⟩

/-- Nothing but what the host has heard of and the patches in its copy
matters. -/
theorem Replica.congr (hr : Replica t patch h v page) (ha : t.Agrees t' v.clock)
    (hp : ∀ k ∈ v.has t h, patch' k = patch k) : Replica t' patch' h v page where
  tidy := hr.tidy
  mapped := hr.mapped
  notices j := by
    rw [hr.notices, ha.of j le_rfl]
    refine List.map_congr_left fun k hk => ?_
    rw [stamp_agrees ha (Timeline.mem_of.mp hk).2.1]
  start := by
    rw [stamp_agrees ha hr.past]
    exact hr.start
  past := hr.past
  heard k hk := by
    rw [ha.upTo le_rfl]
    exact hr.heard k hk
  content := by
    rw [hr.content, has_agrees ha]
    exact Finset.sum_congr rfl fun k hk => (hp k hk).symm
  diffs k hk diff hd := by
    rw [ha.upTo le_rfl] at hk
    have hin : k ∈ v.has t h :=
      View.mem_has.mpr ⟨Timeline.mem_upTo.mp hk, Or.inr (Or.inr (by rw [hd]; rfl))⟩
    rw [hp k hin]
    exact hr.diffs k hk diff hd
  dirty k hk hw hd := by
    rw [ha.upTo le_rfl] at hk
    have hm := Timeline.mem_upTo.mp hk
    rw [ha.who k (t.ticks k hm.1).1 hm.2] at hw
    rw [hp k (View.mem_has.mpr ⟨hm, Or.inl hw⟩)]
    exact hr.dirty k hk hw hd
  valid hs := by
    rw [has_agrees ha, ha.upTo le_rfl]
    exact hr.valid hs

/-- The host hears of later moments: nothing new is in its copy, so a copy that
lacks something new may not be valid. -/
theorem Replica.extend (hr : Replica t patch h v page) (hc : v.clock ≤ c)
    (notices : Nat → List WriteNotice)
    (hn : ∀ j, notices j = ((t.of j c).filter (v.clock < ·)).map
      (fun k => ⟨t.stamp k, none⟩) ++ page.notices j)
    (hown : ∀ k ∈ t.marked, v.clock < k → k ≤ c → t.who k ≠ h)
    (hvalid : page.state = .rdonly ∨ page.state = .write →
      ∀ k ∈ t.marked, k ≤ c → k ≤ v.clock) :
    { v with clock := c }.has t h = v.has t h ∧
      Replica t patch h { v with clock := c } { page with notices := notices } := by
  have hnone : ∀ k, v.clock < k → v.diff k = none := fun k hk => by
    by_contra hd
    have := (Timeline.mem_upTo.mp (hr.heard k (Option.isSome_iff_ne_none.mpr hd))).2
    omega
  have hhas : { v with clock := c }.has t h = v.has t h := by
    ext k
    rw [View.mem_has, View.mem_has]
    refine ⟨fun ⟨⟨hm, hk⟩, hd⟩ => ⟨⟨hm, ?_⟩, hd⟩, fun ⟨⟨hm, hk⟩, hd⟩ => ⟨⟨hm, hk.trans hc⟩, hd⟩⟩
    by_contra hlt
    have hlt : v.clock < k := by omega
    rcases hd with hw | hb | hd
    · exact hown k hm hlt hk hw
    · have := hr.past
      dsimp only at hb
      omega
    · rw [hnone k hlt] at hd
      cases hd
  have hme : notices h = page.notices h := by
    have hnil : (t.of h c).filter (v.clock < ·) = [] := by
      rw [List.filter_eq_nil_iff]
      intro k hk
      obtain ⟨-, hkc, hm, hw⟩ := Timeline.mem_of.mp hk
      have := fun hlt => hown k hm hlt hkc hw
      simpa using this
    rw [hn, hnil, List.map_nil, List.nil_append]
  refine ⟨hhas, ?_⟩
  refine ⟨hr.tidy.congr rfl rfl rfl hme, hr.mapped, ?_, hr.start, hr.past.trans hc, ?_, ?_, ?_,
    ?_, ?_⟩
  · intro j
    dsimp only
    rw [hn]
    conv_rhs => rw [Timeline.of_split hc, List.map_append]
    rw [hr.notices]
    congr 1
    refine List.map_congr_left fun k hk => ?_
    rw [hnone k (by simpa using (List.mem_filter.mp hk).2)]
  · intro k hk
    have := Timeline.mem_upTo.mp (hr.heard k hk)
    exact Timeline.mem_upTo.mpr ⟨this.1, this.2.trans hc⟩
  · rw [hhas]
    exact hr.content
  · intro k _ diff hd
    exact hr.diffs k (hr.heard k (by dsimp only at hd; rw [hd]; rfl)) diff hd
  · intro k hk hw hd
    have hm := Timeline.mem_upTo.mp hk
    have hle : k ≤ v.clock := by
      by_contra hlt
      exact hown k hm.1 (by omega) hm.2 hw
    exact hr.dirty k (Timeline.mem_upTo.mpr ⟨hm.1, hle⟩) hw hd
  · intro hs
    rw [hhas, hr.valid hs]
    ext k
    rw [Timeline.mem_upTo, Timeline.mem_upTo]
    exact ⟨fun ⟨hm, hk⟩ => ⟨hm, hk.trans hc⟩, fun ⟨hm, hk⟩ => ⟨hm, hvalid hs k hm hk⟩⟩

/-- A first store under a new notice. -/
theorem Replica.storeFirst (hr : Replica t patch h v page) {hl : 0 < t.len}
    (hc : v.clock = t.len) (hw : t.who t.len = h) (hm : t.len ∉ t.marked)
    (hs : page.state = .rdonly) (content : Content) :
    Replica (t.mark hl) (Function.update patch t.len (content - page.content)) h v
      { page with
        state := .write
        twinPage := some page.content
        notices := upd page.notices h (⟨t.stamp t.len, none⟩ :: page.notices h)
        content := content } := by
  have hnone : v.diff t.len = none := by
    by_contra hd
    exact hm (Timeline.mem_upTo.mp (hr.heard _ (Option.isSome_iff_ne_none.mpr hd))).1
  have hup : (t.mark hl).upTo v.clock = insert t.len (t.upTo v.clock) := by
    ext k
    rw [Finset.mem_insert, Timeline.mem_upTo, Timeline.mem_upTo, Timeline.mem_mark]
    constructor
    · rintro ⟨rfl | hk, hkc⟩
      · exact Or.inl rfl
      · exact Or.inr ⟨hk, hkc⟩
    · rintro (rfl | ⟨hk, hkc⟩)
      · exact ⟨Or.inl rfl, hc.ge⟩
      · exact ⟨Or.inr hk, hkc⟩
  have hhas : v.has (t.mark hl) h = insert t.len (v.has t h) := by
    rw [View.has, hup, Finset.filter_insert]
    exact if_pos (Or.inl hw)
  have hnot : t.len ∉ v.has t h := fun hk => hm (View.mem_has.mp hk).1.1
  have hpatch : ∀ k ∈ v.has t h,
      Function.update patch t.len (content - page.content) k = patch k := fun k hk =>
    Function.update_of_ne (fun he => hnot (by rw [← he]; exact hk)) ..
  refine ⟨(hr.tidy.open hs page.content _).congr rfl rfl rfl rfl, (fun h => by cases h), ?_, ?_, hr.past, ?_, ?_,
    ?_, ?_, ?_⟩
  · intro j
    dsimp only
    by_cases hj : j = h
    · subst hj
      rw [upd_self, hr.notices, hc, ← hw, Timeline.of_mark_self hm, List.map_cons, hnone]
      simp only [stamp_mark]
    · rw [upd_ne hj, hr.notices, hc, Timeline.of_mark_ne (by rw [hw]; exact hj)]
      simp only [stamp_mark]
  · rw [stamp_mark]
    exact hr.start
  · intro k hk
    rw [hup]
    exact Finset.mem_insert_of_mem (hr.heard k hk)
  · rw [hhas, Finset.sum_insert hnot, Finset.sum_congr rfl hpatch, ← hr.content,
      Function.update_self, sub_add_cancel]
  · intro k hk diff hd
    rw [hup, Finset.mem_insert] at hk
    rcases hk with rfl | hk
    · rw [hnone] at hd
      cases hd
    · have hin : k ∈ v.has t h :=
        View.mem_has.mpr ⟨Timeline.mem_upTo.mp hk, Or.inr (Or.inr (by rw [hd]; rfl))⟩
      rw [hpatch k hin]
      exact hr.diffs k hk diff hd
  · intro k hk hwk hd
    rw [hup, Finset.mem_insert] at hk
    rcases hk with rfl | hk
    · refine ⟨page.content, rfl, ?_⟩
      rw [Function.update_self, add_sub_cancel]
    · -- the page was not writable, so no other own notice lacks its diff
      obtain ⟨twin, ht, -⟩ := hr.dirty k hk hwk hd
      rw [hr.tidy.no_twin (by simp [hs])] at ht
      cases ht
  · intro _
    rw [hhas, hup, hr.valid (Or.inl hs)]

/-- Only the newest own notice can lack its diff. -/
theorem Replica.lacking (hr : Replica t patch h v page) (hk : k ∈ t.upTo v.clock)
    (hw : t.who k = h) (hd : v.diff k = none) :
    page.state = .write ∧ ∃ rest, t.of h v.clock = k :: rest := by
  have hm := Timeline.mem_upTo.mp hk
  have hof : k ∈ t.of h v.clock := Timeline.mem_of.mpr ⟨(t.ticks k hm.1).1, hm.2, hm.1, hw⟩
  have hin : (⟨t.stamp k, v.diff k⟩ : WriteNotice) ∈ page.notices h := by
    rw [hr.notices]
    exact List.mem_map_of_mem hof
  have hs := (hr.tidy.lacking hin hd).1
  obtain ⟨wn, rest, hl, -, hrest⟩ := hr.tidy.newest hs
  refine ⟨hs, ?_⟩
  rw [hr.notices] at hl
  cases hlist : t.of h v.clock with
  | nil =>
      rw [hlist] at hof
      cases hof
  | cons j ks =>
      rw [hlist, List.map_cons, List.cons.injEq] at hl
      rw [hlist] at hof
      rcases List.mem_cons.mp hof with rfl | hof
      · exact ⟨ks, rfl⟩
      · refine absurd hd (hrest ⟨t.stamp k, v.diff k⟩ ?_)
        rw [← hl.2]
        exact List.mem_map_of_mem hof

theorem Replica.lacking_unique (hr : Replica t patch h v page) (hj : j ∈ t.upTo v.clock)
    (hwj : t.who j = h) (hdj : v.diff j = none) (hk : k ∈ t.upTo v.clock)
    (hwk : t.who k = h) (hdk : v.diff k = none) : j = k := by
  obtain ⟨-, rest, hlj⟩ := hr.lacking hj hwj hdj
  obtain ⟨-, rest', hlk⟩ := hr.lacking hk hwk hdk
  rw [hlj, List.cons.injEq] at hlk
  exact hlk.1

/-- A store to a page that is `WRITE` already goes to its newest own notice. -/
theorem Replica.storeMore (hr : Replica t patch h v page) (hk : k ∈ t.upTo v.clock)
    (hw : t.who k = h) (hd : v.diff k = none) (content : Content) :
    Replica t (Function.update patch k (patch k + (content - page.content))) h v
      { page with content := content } := by
  obtain ⟨twin, htwin, hcontent⟩ := hr.dirty k hk hw hd
  have hin : k ∈ v.has t h := View.mem_has.mpr ⟨Timeline.mem_upTo.mp hk, Or.inl hw⟩
  refine ⟨hr.tidy.congr rfl rfl rfl rfl, hr.mapped, hr.notices, hr.start, hr.past, hr.heard, ?_,
    ?_, ?_, hr.valid⟩
  · have hrest : ∑ j ∈ (v.has t h).erase k,
          Function.update patch k (patch k + (content - page.content)) j =
        ∑ j ∈ (v.has t h).erase k, patch j :=
      Finset.sum_congr rfl fun j hj => Function.update_of_ne (Finset.ne_of_mem_erase hj) ..
    have hsum := hr.content
    rw [← Finset.add_sum_erase _ _ hin] at hsum ⊢
    rw [hrest, Function.update_self, add_right_comm, ← hsum, add_sub_cancel]
  · intro j hj diff hdj
    have hne : j ≠ k := by
      rintro rfl
      rw [hd] at hdj
      cases hdj
    rw [Function.update_of_ne hne]
    exact hr.diffs j hj diff hdj
  · intro j hj hwj hdj
    obtain rfl := hr.lacking_unique hj hwj hdj hk hw hd
    refine ⟨twin, htwin, ?_⟩
    rw [Function.update_self, ← add_assoc, ← hcontent, add_sub_cancel]

/-- The diff of a host's own notice, and the page no longer writable. -/
theorem Replica.close (hr : Replica t patch h v page) (hk : k ∈ t.upTo v.clock)
    (hw : t.who k = h) (hd : v.diff k = none) (state : PageState) (prot : Prot)
    (hs : state ≠ .write) (hs' : state ≠ .unmap) {rest : List WriteNotice}
    (hn : page.notices h = ⟨t.stamp k, none⟩ :: rest) :
    (v.put k (patch k)).has t h = v.has t h ∧
      Replica t patch h (v.put k (patch k))
        { page with
          state := state
          twinPage := none
          notices := upd page.notices h (⟨t.stamp k, some (patch k)⟩ :: rest)
          prot := prot } := by
  have hm := Timeline.mem_upTo.mp hk
  obtain ⟨hwrite, ks, hof⟩ := hr.lacking hk hw hd
  have hhas : (v.put k (patch k)).has t h =
      v.has t h := by
    ext j
    rw [View.mem_has, View.mem_has]
    by_cases hj : j = k
    · subst hj
      exact ⟨fun hx => ⟨hx.1, Or.inl hw⟩, fun hx => ⟨hx.1, Or.inl hw⟩⟩
    · rw [put_diff_ne hj]
      exact Iff.rfl
  have hks : k ∉ ks := fun hin => by
    have := List.rel_of_pairwise_cons (hof ▸ t.of_sorted h v.clock) hin
    omega
  refine ⟨hhas, ?_⟩
  refine ⟨hr.tidy.close hwrite hn hs (Option.some_ne_none _) rfl rfl rfl (upd_self ..), hs', ?_,
    hr.start, hr.past, ?_, ?_, ?_, ?_, ?_⟩
  · intro j
    dsimp only
    have hother : ∀ ks : List Nat, k ∉ ks → ks.map (fun i => (⟨t.stamp i,
        (v.put k (patch k)).diff i⟩ : WriteNotice)) =
        ks.map fun i => ⟨t.stamp i, v.diff i⟩ := by
      intro ks hks
      refine List.map_congr_left fun i hi => ?_
      rw [put_diff_ne]
      rintro rfl
      exact hks hi
    by_cases hj : j = h
    · subst hj
      rw [hr.notices, hof, List.map_cons, List.cons.injEq] at hn
      have hof' : t.of j (v.put k (patch k)).clock = k :: ks := hof
      rw [upd_self, hof', List.map_cons, put_diff_self, ← hn.2]
      exact congrArg _ (hother ks hks).symm
    · rw [upd_ne hj, hr.notices]
      refine (hother _ fun hin => ?_).symm
      exact hj ((Timeline.mem_of.mp hin).2.2.2.symm.trans hw)
  · intro j hj
    by_cases hjk : j = k
    · exact hjk ▸ hk
    · rw [put_diff_ne hjk] at hj
      exact hr.heard j hj
  · rw [hhas]
    exact hr.content
  · intro j hj diff hdj
    by_cases hjk : j = k
    · subst hjk
      rw [put_diff_self, Option.some.injEq] at hdj
      exact hdj.symm
    · rw [put_diff_ne hjk] at hdj
      exact hr.diffs j hj diff hdj
  · intro j hj hwj hdj
    by_cases hjk : j = k
    · subst hjk
      rw [put_diff_self] at hdj
      cases hdj
    · rw [put_diff_ne hjk] at hdj
      exact absurd (hr.lacking_unique hj hwj hdj hk hw hd) hjk
  · intro _
    rw [hhas]
    exact hr.valid (Or.inr hwrite)

/-- A diff arrives for a page that is not valid. -/
theorem Replica.takeDiff (hr : Replica t patch h v page) (hk : k ∈ t.upTo v.clock)
    (hw : t.who k ≠ h) (hb : v.base < k) (hd : v.diff k = none)
    (hs : page.state = .invalid) {list : List WriteNotice}
    (hl : list = (t.of (t.who k) v.clock).map fun i => ⟨t.stamp i,
      (v.put k (patch k)).diff i⟩) :
    (v.put k (patch k)).has t h =
        insert k (v.has t h) ∧
      Replica t patch h (v.put k (patch k))
        { page with
          notices := upd page.notices (t.who k) list
          content := page.content + patch k } := by
  have hnot : k ∉ v.has t h := fun hin => by
    rcases (View.mem_has.mp hin).2 with h | h | h
    · exact hw h
    · omega
    · rw [hd] at h
      cases h
  have hhas : (v.put k (patch k)).has t h =
      insert k (v.has t h) := by
    ext j
    rw [Finset.mem_insert, View.mem_has, View.mem_has]
    by_cases hj : j = k
    · subst hj
      refine ⟨fun _ => Or.inl rfl, fun _ => ⟨Timeline.mem_upTo.mp hk, Or.inr (Or.inr ?_)⟩⟩
      rw [put_diff_self]
      rfl
    · rw [put_diff_ne hj]
      exact (or_iff_right hj).symm
  have hother : ∀ j, t.who k ≠ j → (t.of j v.clock).map (fun i => (⟨t.stamp i,
      (v.put k (patch k)).diff i⟩ : WriteNotice)) =
      (t.of j v.clock).map fun i => ⟨t.stamp i, v.diff i⟩ := by
    intro j hj
    refine List.map_congr_left fun i hi => ?_
    rw [put_diff_ne]
    rintro rfl
    exact hj (Timeline.mem_of.mp hi).2.2.2
  refine ⟨hhas, ?_⟩
  refine ⟨hr.tidy.congr rfl rfl rfl (upd_ne hw.symm), hr.mapped, ?_, hr.start, hr.past, ?_, ?_, ?_,
    ?_, ?_⟩
  · intro j
    dsimp only
    by_cases hj : j = t.who k
    · rw [hj, upd_self, hl]
      rfl
    · rw [upd_ne hj, hr.notices]
      exact (hother j (Ne.symm hj)).symm
  · intro j hj
    by_cases hjk : j = k
    · exact hjk ▸ hk
    · rw [put_diff_ne hjk] at hj
      exact hr.heard j hj
  · rw [hhas, Finset.sum_insert hnot, ← hr.content, add_comm]
  · intro j hj diff hdj
    by_cases hjk : j = k
    · subst hjk
      rw [put_diff_self, Option.some.injEq] at hdj
      exact hdj.symm
    · rw [put_diff_ne hjk] at hdj
      exact hr.diffs j hj diff hdj
  · intro j hj hwj hdj
    have hjk : j ≠ k := by
      rintro rfl
      exact hw hwj
    rw [put_diff_ne hjk] at hdj
    have hwrite := (hr.lacking hj hwj hdj).1
    rw [hs] at hwrite
    cases hwrite
  · intro hv
    dsimp only at hv
    rw [hs] at hv
    rcases hv with hv | hv <;> cases hv

/-- A whole page arrives that has every patch the host has heard of. -/
theorem Replica.takePage (hr : Replica t patch h v page) (hs : page.state = .miss)
    {content : Content} (hc : content = ∑ k ∈ t.upTo v.clock, patch k) :
    { v with base := v.clock }.has t h = t.upTo v.clock ∧
      Replica t patch h { v with base := v.clock }
        { page with content := content, startInterval := some (t.stamp v.clock) } := by
  have hhas : { v with base := v.clock }.has t h = t.upTo v.clock := by
    ext j
    rw [View.mem_has, Timeline.mem_upTo]
    exact ⟨fun hx => hx.1, fun hx => ⟨hx, Or.inr (Or.inl hx.2)⟩⟩
  refine ⟨hhas, ?_⟩
  refine ⟨hr.tidy.congr rfl rfl rfl rfl, hr.mapped, hr.notices, rfl, le_rfl, hr.heard, ?_,
    hr.diffs, ?_, fun _ => hhas⟩
  · rw [hhas]
    exact hc
  · intro j hj hwj hdj
    have hwrite := (hr.lacking hj hwj hdj).1
    rw [hs] at hwrite
    cases hwrite

/-- What a copy holds does not depend on who may read it. -/
theorem Replica.setProt (hr : Replica t patch h v page) (prot : Prot) :
    Replica t patch h v { page with prot := prot } :=
  ⟨hr.tidy.congr rfl rfl rfl rfl, hr.mapped, hr.notices, hr.start, hr.past, hr.heard, hr.content,
    hr.diffs, hr.dirty, hr.valid⟩

/-- A copy changes its state, to a valid one only if it has everything. -/
theorem Replica.setState (hr : Replica t patch h v page) {state : PageState} {prot : Prot}
    (hold : page.state ≠ .write) (hw : state ≠ .write) (hu : state ≠ .unmap)
    (hall : state = .rdonly → v.has t h = t.upTo v.clock) :
    Replica t patch h v { page with state := state, prot := prot } := by
  refine ⟨hr.tidy.setState hold hr.mapped hw, hu, hr.notices, hr.start, hr.past, hr.heard,
    hr.content, hr.diffs, ?_, fun hs => hall (hs.resolve_right hw)⟩
  intro j hj hwj hdj
  exact absurd (hr.lacking hj hwj hdj).1 hold

end

end Midsm
