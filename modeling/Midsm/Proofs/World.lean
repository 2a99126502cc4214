import Mathlib.Algebra.BigOperators.Group.Finset.Piecewise
import Mathlib.Data.Finset.Max
import Midsm.Proofs.Faults

/-!
# One page at all hosts

The copies of a page at all hosts while one lock goes round. At most one host at a
time is up to date, the one that ticked last; it alone stores to the page, and what
it then has is `total`, the sum of all patches. `World` is the invariant of the
memories, and each lemma below is one way in which a host's memory moves: it ticks,
learns, stores, grants a page or a diff, takes one in, or makes its copy valid.

A patch may still grow while its host has neither made the diff nor granted the page
from `WRITE` state. Until then no other host has it (`sealed`), and this is what a
store to a page that was granted in `WRITE` state would break.
-/

namespace Midsm

open Midsm.Lib

def Page.Readable (page : Page) : Prop := page.state = .rdonly ∨ page.state = .write

instance (page : Page) : Decidable page.Readable :=
  inferInstanceAs (Decidable (page.state = .rdonly ∨ page.state = .write))

theorem Page.Readable.live {page : Page} (h : page.Readable) : page.Live := by
  unfold Page.Live
  rcases h with h | h <;> simp [h]

/-- The page stays allocated, and is not lost again. -/
def Mem.Retains (p : Nat) (m m' : Mem) : Prop :=
  (p < m.pagenum → p < m'.pagenum) ∧
  (p < m.pagenum → (m.pageArray p).Live → (m'.pageArray p).Live)

theorem Mem.Retains.of_frame {p : Nat} {m m' : Mem} (hf : m.Frame m') : m.Retains p m' :=
  ⟨fun hp => lt_of_lt_of_le hp hf.pagenum, hf.live p⟩

theorem Mem.Retains.of_eq {p : Nat} {m m' : Mem} (hp : m'.pageArray = m.pageArray)
    (hn : m'.pagenum = m.pagenum) : m.Retains p m' := by
  unfold Mem.Retains
  rw [hp, hn]
  exact ⟨id, fun _ => id⟩

theorem Mem.Retains.put {p x : Nat} {mem : Nat → Mem} {m : Mem} (hk : (mem x).Retains p m) (h : Nat) :
    (mem h).Retains p (upd mem x m h) := by
  by_cases hx : h = x
  · subst hx
    rwa [upd_self]
  · rw [upd_ne hx]
    exact .of_eq rfl rfl

/-- `walker` is the host inside `fetchDiff`, `granted` tells whose page was sent since it was
last `RDONLY`. -/
structure World (n p : Nat) (walker : Option Nat) (granted : Nat → Bool) (total : Content)
    (t : Timeline Nat) (patch : Nat → Content) (v : Nat → View) (mem : Nat → Mem) : Prop where
  fits : p < maxPageNum
  hosted : t.Hosted n
  shows : ∀ h < n, (mem h).Shows t patch p h (v h)
  clock : ∀ h < n, (v h).clock ≤ t.len
  last : 0 < t.len → (v (t.who t.len)).clock = t.len
  only : ∀ h < n, (v h).clock = t.len → 0 < t.len → t.who t.len = h
  own : ∀ k ∈ t.marked, k ≤ (v (t.who k)).clock
  alloc : ∀ h < n, p < (mem h).pagenum
  live : ∀ k ∈ t.marked, ((mem (t.who k)).pageArray p).Live
  home : t.marked = ∅ → ((mem (p % n)).pageArray p).Readable
  newest : ∀ k ∈ t.marked, (∀ j ∈ t.marked, j ≤ k) → ((mem (t.who k)).pageArray p).Readable
  /-- The page is still open in the interval that made its newest notice. -/
  fresh : t.len ∈ t.marked → ((mem (t.who t.len)).pageArray p).state = .write
  sealed : ∀ k ∈ t.marked, (v (t.who k)).diff k = none → granted (t.who k) = false →
    ∀ h < n, h ≠ t.who k → k ∉ (v h).has t h
  sum : total = ∑ k ∈ t.marked, patch k
  ordered : ∀ h < n, walker ≠ some h → ∀ j ≠ h,
    (v h).Ordered t h (t.of j (v h).clock)

section

variable {n p x k : Nat} {walker : Option Nat} {granted : Nat → Bool} {total : Content}
  {t t' : Timeline Nat} {patch patch' : Nat → Content} {v : Nat → View} {mem : Nat → Mem}
  {m : Mem} {w w' : View} {c : Nat}

theorem View.Ordered.congr {ks : List Nat} {h : Nat} (ho : w.Ordered t h ks)
    (hh : w'.has t' h = w.has t h) : w'.Ordered t' h ks := by
  unfold View.Ordered
  rw [hh]
  exact ho

/-- What a host has heard of and not yet got comes first in the lists. -/
theorem View.Ordered.extend {h j : Nat} (ho : w.Ordered t h (t.of j w.clock))
    (hc : w.clock ≤ c) : w.Ordered t h (t.of j c) := by
  have hnew : ∀ k ∈ (t.of j c).filter (w.clock < ·), k ∉ w.has t h := by
    intro k hk hin
    have hle := (View.mem_has.mp hin).1.2
    have hlt : w.clock < k := by simpa using (List.mem_filter.mp hk).2
    omega
  unfold View.Ordered
  rw [Timeline.of_split hc, List.pairwise_append]
  refine ⟨?_, ho, fun a ha _ _ hin => absurd hin (hnew a ha)⟩
  exact List.pairwise_of_forall_mem_list fun a ha _ _ hin => absurd hin (hnew a ha)

/-- A host whose copy has everything it has heard of. -/
theorem View.Ordered.of_all {h j : Nat} (hall : w.has t h = t.upTo w.clock) :
    w.Ordered t h (t.of j w.clock) := by
  refine List.pairwise_of_forall_mem_list fun a _ b hb _ => ?_
  obtain ⟨-, hle, hm, -⟩ := Timeline.mem_of.mp hb
  rw [hall]
  exact Timeline.mem_upTo.mpr ⟨hm, hle⟩

theorem World.owner_lt (hw : World n p walker granted total t patch v mem)
    (hk : k ∈ t.marked) : t.who k < n :=
  hw.hosted.who k (t.ticks k hk).1 (t.ticks k hk).2

/-- A host's copy changes, and may now have patches that cannot grow any more. -/
theorem World.move (hw : World n p walker granted total t patch v mem)
    {walker' : Option Nat} (hx : x < n) (hc : w.clock = (v x).clock)
    (hd : ∀ k, w.diff k = none → (v x).diff k = none) (hs : m.Shows t patch p x w)
    (hk : (mem x).Retains p m)
    (hr : ((mem x).pageArray p).Readable → (m.pageArray p).Readable)
    (hf : t.who t.len = x → ((mem x).pageArray p).state = .write →
      (m.pageArray p).state = .write)
    (hnew : ∀ k ∈ w.has t x, t.who k ≠ x → (v (t.who k)).diff k = none →
      granted (t.who k) = false → k ∈ (v x).has t x)
    (hord : walker' ≠ some x → ∀ j ≠ x, w.Ordered t x (t.of j w.clock))
    (hwalk : ∀ h ≠ x, walker' ≠ some h → walker ≠ some h) :
    World n p walker' granted total t patch (upd v x w) (upd mem x m) := by
  have hclock : ∀ h, (upd v x w h).clock = (v h).clock := by
    intro h
    by_cases hx' : h = x
    · rw [hx', upd_self, hc]
    · rw [upd_ne hx']
  have hkeep : ∀ h, (mem h).Retains p (upd mem x m h) := fun h => hk.put h
  have hread : ∀ h, ((mem h).pageArray p).Readable → ((upd mem x m h).pageArray p).Readable := by
    intro h hrd
    by_cases hx' : h = x
    · subst hx'
      rw [upd_self]
      exact hr hrd
    · rwa [upd_ne hx']
  refine
    { fits := hw.fits
      hosted := hw.hosted
      shows := fun h hh => ?_
      clock := fun h hh => ?_
      last := fun hl => ?_
      only := fun h hh he => ?_
      own := fun k hk => ?_
      alloc := fun h hh => (hkeep h).1 (hw.alloc h hh)
      live := fun k hkm => (hkeep _).2 (hw.alloc _ (hw.owner_lt hkm)) (hw.live k hkm)
      home := fun he => hread _ (hw.home he)
      newest := fun k hk hmax => hread _ (hw.newest k hk hmax)
      fresh := fun hm => ?_
      sealed := fun k hk hdk hgr h hh hne hin => ?_
      sum := hw.sum
      ordered := fun h hh hwk j hj => ?_ }
  · by_cases hx' : h = x
    · subst hx'
      rw [upd_self, upd_self]
      exact hs
    · rw [upd_ne hx', upd_ne hx']
      exact hw.shows h hh
  · rw [hclock]
    exact hw.clock h hh
  · rw [hclock]
    exact hw.last hl
  · rw [hclock] at he
    exact hw.only h hh he
  · rw [hclock]
    exact hw.own k hk
  · by_cases hx' : t.who t.len = x
    · rw [hx', upd_self]
      refine hf hx' ?_
      rw [← hx']
      exact hw.fresh hm
    · rw [upd_ne hx']
      exact hw.fresh hm
  · have hdk' : (v (t.who k)).diff k = none := by
      by_cases hx' : t.who k = x
      · rw [hx', upd_self] at hdk
        rw [hx']
        exact hd k hdk
      · rwa [upd_ne hx'] at hdk
    refine hw.sealed k hk hdk' hgr h hh hne ?_
    by_cases hx' : h = x
    · subst hx'
      rw [upd_self] at hin
      exact hnew k hin (Ne.symm hne) hdk' hgr
    · rwa [upd_ne hx'] at hin
  · by_cases hx' : h = x
    · subst hx'
      rw [upd_self]
      exact hord hwk j hj
    · rw [upd_ne hx']
      exact hw.ordered h hh (hwalk h hx' hwk) j hj

/-- Only the page and the interval lists matter. -/
theorem World.of_eq (hw : World n p walker granted total t patch v mem) (hx : x < n)
    (hp : m.pageArray = (mem x).pageArray) (hl : m.procArray = (mem x).procArray)
    (hi : m.intervalNow = (mem x).intervalNow) (hn : m.pagenum = (mem x).pagenum) :
    World n p walker granted total t patch v (upd mem x m) := by
  have h : World n p walker granted total t patch (upd v x (v x)) (upd mem x m) :=
    hw.move hx rfl (fun _ hd => hd)
    ((hw.shows x hx).of_eq hp hl hi) (.of_eq hp hn) (by rw [hp]; exact id) (fun _ => by rw [hp]; exact id)
    (fun _ hk _ _ _ => hk) (hw.ordered x hx) (fun _ _ hwk => hwk)
  rwa [upd_eta] at h

/-! ## Ticks -/

/-- A host that now knows everything ticks. -/
theorem World.advance (hw : World n p walker granted total t patch v mem) (hx : x < n)
    (hc : w.clock = t.len + 1) (hg : (v x).Grows w)
    (hh : w.has (t.tick x) x = (v x).has t x) (hs : m.Shows (t.tick x) patch p x w)
    (hkeep : (mem x).Retains p m)
    (hst : (∀ k ∈ t.marked, k ≤ (v x).clock) →
      (m.pageArray p).state = ((mem x).pageArray p).state) :
    World n p walker granted total (t.tick x) patch (upd v x w) (upd mem x m) := by
  have hag : ∀ h < n, t.Agrees (t.tick x) (v h).clock := fun h hh =>
    (Timeline.agrees_tick x t).mono (hw.clock h hh)
  have hwho : ∀ k ∈ t.marked, (t.tick x).who k = t.who k := fun k hk =>
    (Timeline.agrees_tick x t).who k (t.ticks k hk).1 (t.ticks k hk).2
  have hhas : ∀ h < n, (upd v x w h).has (t.tick x) h = (v h).has t h := by
    intro h hhn
    by_cases hx' : h = x
    · subst hx'
      rw [upd_self, hh]
    · rw [upd_ne hx']
      exact has_agrees (hag h hhn)
  have hstate : ∀ h, (h = x → ∀ k ∈ t.marked, k ≤ (v x).clock) →
      ((upd mem x m h).pageArray p).state = ((mem h).pageArray p).state := by
    intro h hall
    by_cases hx' : h = x
    · rw [hx', upd_self, hst (hall hx')]
    · rw [upd_ne hx']
  have hread : ∀ h, (h = x → ∀ k ∈ t.marked, k ≤ (v x).clock) →
      ((mem h).pageArray p).Readable → ((upd mem x m h).pageArray p).Readable := by
    intro h hall hr
    unfold Page.Readable at hr ⊢
    rwa [hstate h hall]
  refine
    { fits := hw.fits
      hosted := hw.hosted.tick hx
      shows := fun h hhn => ?_
      clock := fun h hhn => ?_
      last := fun _ => ?_
      only := fun h hhn he _ => ?_
      own := fun k hk => ?_
      alloc := fun h hhn => (hkeep.put h).1 (hw.alloc h hhn)
      live := fun k hk => ?_
      home := fun he => ?_
      newest := fun k hk hmax => ?_
      fresh := fun hm => ?_
      sealed := fun k hk hd hgr h hhn hne => ?_
      sum := hw.sum
      ordered := fun h hhn hwalk j hj => ?_ }
  · by_cases hx' : h = x
    · subst hx'
      rw [upd_self, upd_self]
      exact hs
    · rw [upd_ne hx', upd_ne hx']
      exact (hw.shows h hhn).congr (hag h hhn) fun _ _ => rfl
  · by_cases hx' : h = x
    · rw [hx', upd_self, hc]
      exact le_rfl
    · rw [upd_ne hx']
      exact Nat.le_succ_of_le (hw.clock h hhn)
  · show (upd v x w ((t.tick x).who (t.len + 1))).clock = t.len + 1
    rw [Timeline.tick_who, upd_self, hc]
  · by_cases hx' : h = x
    · rw [hx']
      exact Timeline.tick_who x t
    · rw [upd_ne hx'] at he
      have hle := hw.clock h hhn
      have hlen : (t.tick x).len = t.len + 1 := rfl
      omega
  · rw [hwho k hk]
    by_cases hx' : t.who k = x
    · rw [hx', upd_self, hc]
      exact Nat.le_succ_of_le (t.ticks k hk).2
    · rw [upd_ne hx']
      exact hw.own k hk
  · rw [hwho k hk]
    exact (hkeep.put _).2 (hw.alloc _ (hw.owner_lt hk)) (hw.live k hk)
  · refine hread _ (fun _ k hk => ?_) (hw.home he)
    rw [show t.marked = ∅ from he] at hk
    exact absurd hk (Finset.notMem_empty k)
  · rw [hwho k hk]
    refine hread _ (fun he j hj => (hmax j hj).trans ?_) (hw.newest k hk hmax)
    rw [← he]
    exact hw.own k hk
  · exact absurd hm (Timeline.not_marked (t := t) (Nat.lt_succ_self t.len))
  · rw [hwho k hk] at hd hgr hne
    rw [hhas h hhn]
    refine hw.sealed k hk ?_ hgr h hhn hne
    by_cases hx' : t.who k = x
    · rw [hx', upd_self] at hd
      rw [hx']
      exact hg.diff k hd
    · rwa [upd_ne hx'] at hd
  · have hof : (t.tick x).of j (upd v x w h).clock = t.of j (if h = x then t.len else (v h).clock) := by
      by_cases hx' : h = x
      · rw [hx', upd_self, if_pos rfl, hc, ← (Timeline.agrees_tick x t).of j le_rfl]
        exact Timeline.of_still (Nat.le_succ _) fun k hk _ => (t.ticks k hk).2
      · rw [upd_ne hx', if_neg hx', (hag h hhn).of j le_rfl]
    rw [hof]
    refine View.Ordered.congr ?_ (hhas h hhn)
    refine (hw.ordered h hhn hwalk j hj).extend ?_
    split
    · exact hw.clock h hhn
    · exact le_rfl

/-- `addNewInterval` at the host that knows everything. -/
theorem World.addNewInterval (hw : World n p walker granted total t patch v mem) (hx : x < n)
    (hc : (v x).clock = t.len) :
    World n p walker granted total (t.tick x) patch (upd v x ((v x).tick t))
      (upd mem x (addNewInterval n x (mem x))) := by
  obtain ⟨hh, hs⟩ := (hw.shows x hx).addNewInterval hw.hosted hc
  exact hw.advance hx rfl ⟨rfl, fun _ hd => hd⟩ hh hs (.of_eq rfl rfl) fun _ => rfl

/-- A `GRANT_WN_I` from the host that ticked last. -/
theorem World.learn (hw : World n p walker granted total t patch v mem) (hx : x < n) :
    ∃ w, w.clock = t.len + 1 ∧
      World n p walker granted total (t.tick x) patch (upd v x w) (upd mem x
        (handleGrantWNIMsg x (t.stamp t.len) (newsPackets n t p (v x).clock t.len).length
          (newsPackets n t p (v x).clock t.len) (mem x))) := by
  have hown : ∀ k ∈ t.marked, (v x).clock < k → t.who k ≠ x := by
    intro k hk hlt he
    have := hw.own k hk
    rw [he] at this
    omega
  obtain ⟨w, hc, hg, hh, hs, hst⟩ :=
    (hw.shows x hx).learn hw.fits hw.hosted (hw.clock x hx) hown
  have hl := incorporatePackets_learned x (newsPackets n t p (v x).clock t.len).length
    (newsPackets n t p (v x).clock t.len)
    ((mem x).pushNow x ⟨bump x (t.stamp t.len), [], false⟩)
  exact ⟨w, hc, hw.advance hx hc hg hh hs
    ⟨fun hp => lt_of_lt_of_le hp hl.pagenum, hl.live p⟩ hst⟩

/-! ## Stores -/

/-- The copy of the host that knows everything, when it grants access. -/
theorem World.content (hw : World n p walker granted total t patch v mem) (hx : x < n)
    (hc : (v x).clock = t.len) (hr : ((mem x).pageArray p).Readable) :
    ((mem x).pageArray p).content = total := by
  have hrep := (hw.shows x hx).replica
  rw [hrep.content, hrep.valid hr, hc, Timeline.upTo_len le_rfl, hw.sum]

/-- What one more patch, or more of a patch, adds up to. -/
theorem sum_grow {s : Finset Nat} (hk : k ∈ s) (δ : Content) :
    ∑ j ∈ s, Function.update patch k (patch k + δ) j = (∑ j ∈ s, patch j) + δ := by
  rw [Finset.sum_update_of_mem hk, Finset.sum_eq_add_sum_sdiff_singleton_of_mem hk, add_right_comm]

theorem World.storeFirst (hw : World n p walker granted total t patch v mem) (hx : x < n)
    (hl : 0 < t.len) (hc : (v x).clock = t.len)
    (hst : ((mem x).pageArray p).state = .rdonly) (hread : ((mem x).pageArray p).prot ≠ .none)
    (o : Nat) (bytes : List Byte) :
    ∃ m patch', segvHandler n x p (mem x) = some (m, [], .run) ∧
      (m.pageArray p).prot = .readWrite ∧
      World n p walker (upd granted x false) (writeBytes total o bytes) (t.mark hl) patch' v
        (upd mem x (m.storeBytes p o bytes)) := by
  have hwho : t.who t.len = x := hw.only x hx hc hl
  have hm : t.len ∉ t.marked := fun hm => by
    have := hw.fresh hm
    rw [hwho, hst] at this
    cases this
  have hcontent := hw.content hx hc (Or.inl hst)
  obtain ⟨m, he, hprot, hs, hst', hcontent'⟩ :=
    (hw.shows x hx).storeFirst hw.fits hw.hosted hl hc hwho hm hst hread o bytes
  have hag : ∀ h < n, h ≠ x → t.Agrees (t.mark hl) (v h).clock := by
    intro h hh hne
    refine Timeline.agrees_mark (lt_of_le_of_ne (hw.clock h hh) fun he => hne ?_)
    exact (hw.only h hh he hl).symm.trans hwho
  have hpatch : ∀ k ∈ t.marked, Function.update patch t.len
      (writeBytes ((mem x).pageArray p).content o bytes - ((mem x).pageArray p).content) k =
        patch k := fun k hk => Function.update_of_ne (fun he => hm (by rwa [← he])) ..
  have hmarked : (t.mark hl).marked = insert t.len t.marked := rfl
  have hwrote := (segvHandler_wrote hst he).trans_frame (storeBytes_frame (p := p) o bytes m)
  have hkeep : (mem x).Retains p (m.storeBytes p o bytes) :=
    ⟨fun hp => lt_of_lt_of_le hp hwrote.pagenum, hwrote.live p⟩
  refine ⟨m, Function.update patch t.len (writeBytes ((mem x).pageArray p).content o bytes -
      ((mem x).pageArray p).content), he, hprot,
    { fits := hw.fits
      hosted := hw.hosted.mark hl
      shows := fun h hh => ?_
      clock := hw.clock
      last := hw.last
      only := hw.only
      own := fun k hk => ?_
      alloc := fun h hh => (hkeep.put h).1 (hw.alloc h hh)
      live := fun k hk => ?_
      home := fun he => ?_
      newest := fun k hk hmax => ?_
      fresh := fun _ => ?_
      sealed := fun k hk hd hgr h hh hne hin => ?_
      sum := ?_
      ordered := fun h hh hwk j hj => ?_ }⟩
  · by_cases hx' : h = x
    · subst hx'
      rw [upd_self]
      exact hs
    · rw [upd_ne hx']
      exact (hw.shows h hh).congr (hag h hh hx') fun k hk => hpatch k (View.mem_has.mp hk).1.1
  · rcases Timeline.mem_mark.mp hk with rfl | hk
    · exact (congrArg (fun h => (v h).clock) hwho).trans hc |>.ge
    · exact hw.own k hk
  · show ((upd mem x (m.storeBytes p o bytes) (t.who k)).pageArray p).Live
    rcases Timeline.mem_mark.mp hk with rfl | hk
    · rw [hwho, upd_self]
      exact Page.Readable.live (Or.inr hst')
    · exact (hkeep.put _).2 (hw.alloc _ (hw.owner_lt hk)) (hw.live k hk)
  · exact absurd he (Finset.insert_ne_empty _ _)
  · have hk' : k = t.len := by
      have hle := hmax t.len (Timeline.mem_mark.mpr (Or.inl rfl))
      have := ((t.mark hl).ticks k hk).2
      exact le_antisymm this hle
    subst hk'
    show (((upd mem x (m.storeBytes p o bytes)) (t.who t.len)).pageArray p).Readable
    rw [hwho, upd_self]
    exact Or.inr hst'
  · show (((upd mem x (m.storeBytes p o bytes)) (t.who t.len)).pageArray p).state = .write
    rw [hwho, upd_self]
    exact hst'
  · have hin' := View.mem_has.mp hin
    rcases Timeline.mem_mark.mp hk with rfl | hk
    · refine hne ((hw.only h hh ?_ hl).symm)
      exact le_antisymm (hw.clock h hh) hin'.1.2
    · by_cases hx' : t.who k = x
      · have hrep := (hw.shows x hx).replica
        have hup : k ∈ t.upTo (v x).clock :=
          Timeline.mem_upTo.mpr ⟨hk, by rw [hc]; exact (t.ticks k hk).2⟩
        have hd' : (v x).diff k = none := by
          rw [← hx']
          exact hd
        have := (hrep.lacking hup hx' hd').1
        rw [hst] at this
        cases this
      · have hgr' : granted (t.who k) = false := by
          rw [← hgr]
          exact (upd_ne hx').symm
        exact hw.sealed k hk hd hgr' h hh hne (View.mem_has.mpr ⟨⟨hk, hin'.1.2⟩, hin'.2⟩)
  · rw [hmarked, Finset.sum_insert hm, Function.update_self, Finset.sum_congr rfl hpatch,
      ← hw.sum, hcontent, sub_add_cancel]
  · by_cases hx' : h = x
    · subst hx'
      exact View.Ordered.of_all (hs.replica.valid (Or.inr hst'))
    · rw [(hag h hh hx').of j le_rfl]
      exact (hw.ordered h hh hwk j hj).congr (has_agrees (hag h hh hx'))

/-- A store to a `WRITE` page that nobody was sent. -/
theorem World.storeMore (hw : World n p walker granted total t patch v mem) (hx : x < n)
    (hc : (v x).clock = t.len) (hst : ((mem x).pageArray p).state = .write)
    (hg : granted x = false) (o : Nat) (bytes : List Byte) :
    ∃ patch', World n p walker granted (writeBytes total o bytes) t patch' v
      (upd mem x ((mem x).storeBytes p o bytes)) := by
  have hcontent := hw.content hx hc (Or.inr hst)
  obtain ⟨k, hk, hwho, hd, hs⟩ := (hw.shows x hx).storeMore hst o bytes
  have hm := (Timeline.mem_upTo.mp hk).1
  have hkeep : (mem x).Retains p ((mem x).storeBytes p o bytes) := .of_frame (storeBytes_frame ..)
  have hstate : ∀ h, ((upd mem x ((mem x).storeBytes p o bytes) h).pageArray p).state =
      ((mem h).pageArray p).state := by
    intro h
    by_cases hx' : h = x
    · rw [hx', upd_self]
      unfold Mem.storeBytes
      rw [setPage_self]
    · rw [upd_ne hx']
  have hread : ∀ h, ((mem h).pageArray p).Readable →
      ((upd mem x ((mem x).storeBytes p o bytes) h).pageArray p).Readable := by
    intro h hr
    unfold Page.Readable at hr ⊢
    rwa [hstate h]
  refine ⟨Function.update patch k (patch k +
      (writeBytes ((mem x).pageArray p).content o bytes - ((mem x).pageArray p).content)), { hw with
    shows := fun h hh => ?_
    alloc := fun h hh => (hkeep.put h).1 (hw.alloc h hh)
    live := fun k hk => (hkeep.put _).2 (hw.alloc _ (hw.owner_lt hk)) (hw.live k hk)
    home := fun he => hread _ (hw.home he)
    newest := fun k hk hmax => hread _ (hw.newest k hk hmax)
    fresh := fun hm => (hstate _).trans (hw.fresh hm)
    sum := ?_ }⟩
  · by_cases hx' : h = x
    · subst hx'
      rw [upd_self]
      exact hs
    · rw [upd_ne hx']
      refine (hw.shows h hh).congr (Timeline.Agrees.refl t _) fun j hj => ?_
      refine Function.update_of_ne (fun he => ?_) ..
      subst hwho he
      exact hw.sealed j hm hd hg h hh hx' hj
  · rw [sum_grow hm, ← hw.sum, hcontent, add_sub_cancel]

/-! ## Diffs -/

/-- The host of a notice is asked for its diff. -/
theorem World.grantDiff (hw : World n p walker granted total t patch v mem) (hx : x < n)
    (hk : k ∈ t.marked) (hne : x ≠ t.who k) (hlast : t.who t.len ≠ t.who k) :
    (grantDiff n (t.who k) x (t.stamp k) p (mem (t.who k))).2.2 =
        [(x, .grantDiff (t.stamp k) p (patch k))] ∧
      ∃ w, w.clock = (v (t.who k)).clock ∧ w.diff k ≠ none ∧
        World n p walker granted total t patch (upd v (t.who k) w) (upd mem (t.who k)
          (grantDiff n (t.who k) x (t.stamp k) p (mem (t.who k))).2.1) := by
  have hy := hw.owner_lt hk
  obtain ⟨hout, w, hc, hg, hd, hh, hs, hst⟩ := (hw.shows _ hy).grantDiff hw.fits hw.hosted
    (hw.live k hk) hx hne (Timeline.mem_upTo.mpr ⟨hk, hw.own k hk⟩) rfl
  refine ⟨hout, w, hc, hd, hw.move hy hc hg.diff hs (.of_frame (grantDiff_frame x _)) ?_
    (fun he => absurd he hlast) (fun j hj _ _ _ => hh ▸ hj) (fun hwk j hj => ?_)
    (fun _ _ hwk => hwk)⟩
  · rintro hr
    rcases hst with hst | ⟨-, hst⟩
    · unfold Page.Readable
      rw [hst]
      exact hr
    · exact Or.inl hst
  · rw [hc]
    exact (hw.ordered _ hy hwk j hj).congr hh

/-- The diff arrives. -/
theorem World.takeDiff (hw : World n p (some x) granted total t patch v mem) (hx : x < n)
    (hk : k ∈ t.marked) (hkc : k ≤ (v x).clock) (hne : t.who k ≠ x) (hno : k ∉ (v x).has t x)
    (hst : ((mem x).pageArray p).state = .invalid) (hd : (v (t.who k)).diff k ≠ none) :
    World n p (some x) granted total t patch (upd v x ((v x).put k (patch k))) (upd mem x
      (handleGrantDiffMsg (t.who k) (t.stamp k) p (patch k) (mem x))) := by
  obtain ⟨hh, hs, -, -⟩ := (hw.shows x hx).takeDiff hw.hosted
    (Timeline.mem_upTo.mpr ⟨hk, hkc⟩) hne hno hst
  refine hw.move hx rfl (fun j hj => ?_) hs (.of_frame (handleGrantDiffMsg_frame ..))
    (fun hr => ?_) (fun _ hw => ?_) (fun j hj _ hdj _ => ?_) (fun h => absurd rfl h)
    (fun _ _ hwk => hwk)
  · by_cases hjk : j = k
    · rw [hjk, put_diff_self] at hj
      cases hj
    · rwa [put_diff_ne hjk] at hj
  · unfold Page.Readable at hr
    rw [hst] at hr
    rcases hr with hr | hr <;> cases hr
  · rw [hst] at hw
    cases hw
  · rw [hh, Finset.mem_insert] at hj
    rcases hj with rfl | hj
    · exact absurd hdj hd
    · exact hj

/-- The copy has everything and is made readable. -/
theorem World.validate (hw : World n p walker granted total t patch v mem) (hx : x < n)
    (hst : ((mem x).pageArray p).state = .invalid ∨ ((mem x).pageArray p).state = .miss)
    (hall : (v x).has t x = t.upTo (v x).clock) (hwalk : ∀ h ≠ x, walker ≠ some h) :
    World n p none granted total t patch v
      (upd mem x ((mem x).setPage p { (mem x).pageArray p with state := .rdonly, prot := .read })) := by
  have hst' : ((mem x).pageArray p).state ≠ .write := by
    rcases hst with hst | hst <;> simp [hst]
  have hs := (hw.shows x hx).validate hst' hall
  have hkeep : (mem x).Retains p
      ((mem x).setPage p { (mem x).pageArray p with state := .rdonly, prot := .read }) := by
    refine ⟨fun h => h, fun _ _ => ?_⟩
    rw [setPage_self]
    exact Page.live_rdonly rfl
  have h : World n p none granted total t patch (upd v x (v x)) (upd mem x
      ((mem x).setPage p { (mem x).pageArray p with state := .rdonly, prot := .read })) :=
    hw.move hx rfl (fun _ hd => hd) hs hkeep
    (fun _ => by rw [setPage_self]; exact Or.inl rfl) (fun _ he => absurd he hst')
    (fun _ hj _ _ _ => hj) (fun _ j _ => .of_all hall) (fun h hne _ => hwalk h hne)
  rwa [upd_eta] at h

/-! ## Pages -/

theorem World.grant (hw : World n p walker granted total t patch v mem) (y : Nat) :
    World n p walker (upd granted y true) total t patch v mem := by
  refine { hw with sealed := fun k hk hd hg => hw.sealed k hk hd ?_ }
  by_cases hy : t.who k = y
  · rw [hy, upd_self] at hg
    cases hg
  · rwa [upd_ne hy] at hg

/-- No patch can grow, but one of `y`'s. -/
def GrantedUpTo (granted : Nat → Bool) (t : Timeline Nat) (v : Nat → View) (y : Option Nat) : Prop :=
  ∀ k ∈ t.marked, some (t.who k) ≠ y → (v (t.who k)).diff k = none → granted (t.who k) = true

theorem GrantedUpTo.grant {y : Nat} (hc : GrantedUpTo granted t v (some y)) :
    GrantedUpTo (upd granted y true) t v none := by
  intro k hk _ hd
  by_cases hy : t.who k = y
  · rw [hy, upd_self]
  · rw [upd_ne hy]
    exact hc k hk (fun he => hy (Option.some.inj he)) hd

/-- Where the host that knows everything fetches a page it never had. -/
theorem World.source (hw : World n p walker granted total t patch v mem) (hx : x < n)
    (hc : (v x).clock = t.len) (hst : ((mem x).pageArray p).state = .miss) :
    ∃ y < n, y ≠ x ∧ fetchPageDest n x p ((mem x).pageArray p) = some y ∧
      ((mem y).pageArray p).Readable ∧ ((mem y).pageArray p).content = total ∧
      GrantedUpTo granted t v (some y) := by
  have hrep := (hw.shows x hx).replica
  have hother : ∀ y, ((mem y).pageArray p).Readable → y ≠ x := by
    rintro y hr rfl
    unfold Page.Readable at hr
    rw [hst] at hr
    rcases hr with hr | hr <;> cases hr
  have hup : t.upTo (v x).clock = t.marked := by rw [hc, Timeline.upTo_len le_rfl]
  by_cases hm : t.marked = ∅
  · have hr := hw.home hm
    have hy : p % n < n := Nat.mod_lt p (Nat.pos_of_ne_zero fun h => by omega)
    have hnone : ∀ k, k ∉ t.marked := fun k => by
      rw [hm]
      exact Finset.notMem_empty k
    refine ⟨p % n, hy, hother _ hr, fetchPageDest_home hrep fun k hk => ?_, hr, ?_,
      fun k hk => absurd hk (hnone k)⟩
    · rw [hup] at hk
      exact absurd hk (hnone k)
    · rw [(hw.shows _ hy).replica.content, hw.sum, hm, Finset.sum_empty]
      exact Finset.sum_eq_zero fun k hk => absurd (View.mem_has.mp hk).1.1 (hnone k)
  · have hne := Finset.nonempty_iff_ne_empty.mpr hm
    have hmem := t.marked.max'_mem hne
    have hmax : ∀ j ∈ t.marked, j ≤ t.marked.max' hne := fun j hj => t.marked.le_max' j hj
    generalize t.marked.max' hne = k at hmem hmax
    have hy := hw.owner_lt hmem
    have hr := hw.newest k hmem hmax
    have hall : (v (t.who k)).has t (t.who k) = t.marked := by
      rw [(hw.shows _ hy).replica.valid hr]
      ext j
      rw [Timeline.mem_upTo]
      exact and_iff_left_of_imp fun hj => (hmax j hj).trans (hw.own k hmem)
    refine ⟨t.who k, hy, hother _ hr, fetchPageDest_newest hw.hosted hrep ?_ (hother _ hr) ?_, hr,
      ?_, fun j hj hjy hd => ?_⟩
    · rw [hup]
      exact hmem
    · rw [hup]
      exact fun j hj _ => hmax j hj
    · rw [(hw.shows _ hy).replica.content, hall, hw.sum]
    · by_contra hg
      refine hw.sealed j hj hd (Bool.not_eq_true _ ▸ hg) _ hy (fun he => hjy (by rw [he])) ?_
      rw [hall]
      exact hj

/-- The page arrives. -/
theorem World.takePage (hw : World n p walker granted total t patch v mem) (hx : x < n)
    (hc : (v x).clock = t.len) (hst : ((mem x).pageArray p).state = .miss)
    (hcl : GrantedUpTo granted t v none) :
    ∃ w, w.clock = (v x).clock ∧ w.has t x = t.upTo w.clock ∧
      ((handleGrantPageMsg x p total (mem x)).pageArray p).state = .miss ∧
      World n p walker granted total t patch (upd v x w) (upd mem x
        (handleGrantPageMsg x p total (mem x))) := by
  obtain ⟨hall, hs, hst'⟩ := (hw.shows x hx).takePage hst
    (by rw [hc, Timeline.upTo_len le_rfl, hw.sum] : total = _)
  refine ⟨{ v x with base := (v x).clock }, rfl, hall, hst',
    hw.move hx rfl (fun _ hd => hd) hs (.of_frame (handleGrantPageMsg_frame ..)) (fun hr => ?_)
      (fun _ hw => ?_) (fun k hk hne hd hg => ?_) (fun _ j _ => .of_all hall) fun _ _ hwk => hwk⟩
  · unfold Page.Readable at hr
    rw [hst] at hr
    rcases hr with hr | hr <;> cases hr
  · rw [hst] at hw
    cases hw
  · rw [hcl k (View.mem_has.mp hk).1.1 (Option.some_ne_none _) hd] at hg
    cases hg

end

end Midsm
