import Mathlib.Data.Finset.Basic
import Mathlib.Data.Finset.Filter
import Mathlib.Logic.Function.Basic
import Mathlib.Tactic.Common

/-!
# Vector clocks on one timeline

Parties of an arbitrary type tick one after the other, never at the same
moment. Moment 0 is the start and moment `k + 1` is a tick of `who (k + 1)`; the
vector clock of a moment counts the ticks of each party so far. The vector
clocks of a timeline are totally ordered, as the moments are.

Some moments are marked. `of i c` lists the marked ticks of party `i` up to
moment `c`, newest first. A party that has heard of everything up to `c` knows
these lists and no more, so what it learns on the way to a later moment is what
`of_split` cuts off.
-/

namespace Midsm.Lib

/-- Only ticks are marked. -/
structure Timeline (ι : Type) where
  who : Nat → ι
  len : Nat
  marked : Finset Nat
  ticks : ∀ k ∈ marked, 0 < k ∧ k ≤ len

namespace Timeline

variable {ι : Type}

def upTo (t : Timeline ι) (c : Nat) : Finset Nat := t.marked.filter (· ≤ c)

/-- One more moment. -/
def tick (i : ι) (t : Timeline ι) : Timeline ι where
  who := Function.update t.who (t.len + 1) i
  len := t.len + 1
  marked := t.marked
  ticks k hk := ⟨(t.ticks k hk).1, Nat.le_succ_of_le (t.ticks k hk).2⟩

/-- A mark on the last moment. -/
def mark (t : Timeline ι) (h : 0 < t.len) : Timeline ι where
  who := t.who
  len := t.len
  marked := insert t.len t.marked
  ticks k hk := by
    rcases Finset.mem_insert.mp hk with rfl | hk
    · exact ⟨h, le_rfl⟩
    · exact t.ticks k hk

/-- Two timelines that do not differ up to a moment. -/
structure Agrees (t t' : Timeline ι) (c : Nat) : Prop where
  who : ∀ k, 0 < k → k ≤ c → t'.who k = t.who k
  marked : ∀ k ≤ c, k ∈ t'.marked ↔ k ∈ t.marked

variable {t t' : Timeline ι} {i : ι} {c c' j k : Nat}

theorem tick_who (i : ι) (t : Timeline ι) : (t.tick i).who (t.len + 1) = i :=
  Function.update_self ..

theorem mem_mark {h : 0 < t.len} : k ∈ (t.mark h).marked ↔ k = t.len ∨ k ∈ t.marked :=
  Finset.mem_insert

theorem mem_upTo : k ∈ t.upTo c ↔ k ∈ t.marked ∧ k ≤ c := Finset.mem_filter

/-- A moment to come has no mark. -/
theorem not_marked (hc : t.len < c) : c ∉ t.marked := fun hm => by
  have := (t.ticks c hm).2
  omega

theorem upTo_len (hc : t.len ≤ c) : t.upTo c = t.marked := by
  ext k
  rw [mem_upTo]
  exact and_iff_left_of_imp fun hk => (t.ticks k hk).2.trans hc

theorem Agrees.refl (t : Timeline ι) (c : Nat) : t.Agrees t c :=
  ⟨fun _ _ _ => rfl, fun _ _ => Iff.rfl⟩

theorem Agrees.mono (h : t.Agrees t' c') (hc : c ≤ c') : t.Agrees t' c :=
  ⟨fun k hk hkc => h.who k hk (hkc.trans hc), fun k hkc => h.marked k (hkc.trans hc)⟩

theorem Agrees.upTo (h : t.Agrees t' c) (hk : k ≤ c) : t'.upTo k = t.upTo k := by
  ext j
  rw [mem_upTo, mem_upTo]
  exact and_congr_left fun hj => h.marked j (hj.trans hk)

theorem agrees_tick (i : ι) (t : Timeline ι) : t.Agrees (t.tick i) t.len where
  who k _ hk := Function.update_of_ne (by omega) ..
  marked _ _ := Iff.rfl

theorem agrees_mark {h : 0 < t.len} (hc : c < t.len) : t.Agrees (t.mark h) c where
  who _ _ _ := rfl
  marked k hk := by
    rw [mem_mark]
    exact or_iff_right (by omega)

variable [DecidableEq ι]

def clock (t : Timeline ι) : Nat → ι → Int
  | 0, _ => 0
  | k + 1, i => t.clock k i + if t.who (k + 1) = i then 1 else 0

def of (t : Timeline ι) (i : ι) : Nat → List Nat
  | 0 => []
  | k + 1 =>
      if k + 1 ∈ t.marked ∧ t.who (k + 1) = i then (k + 1) :: t.of i k else t.of i k

/-! ## The order of the clocks -/

theorem clock_mono (h : j ≤ k) (i : ι) : t.clock j i ≤ t.clock k i := by
  induction h with
  | refl => exact le_refl _
  | step _ ih =>
      rw [clock]
      split <;> omega

theorem clock_lt (h : j < k) : t.clock j (t.who k) < t.clock k (t.who k) := by
  cases k with
  | zero => omega
  | succ k =>
      have := t.clock_mono (Nat.le_of_lt_succ h) (t.who (k + 1))
      rw [clock, if_pos rfl]
      omega

theorem clock_of_absent (h : ∀ k, 0 < k → k ≤ c → t.who k ≠ i) : t.clock c i = 0 := by
  induction c with
  | zero => rfl
  | succ c ih =>
      rw [clock, if_neg (h _ (Nat.succ_pos c) le_rfl),
        ih fun k hk hkc => h k hk (Nat.le_succ_of_le hkc)]
      rfl

/-! ## The marked moments -/

theorem mem_of : k ∈ t.of i c ↔ 0 < k ∧ k ≤ c ∧ k ∈ t.marked ∧ t.who k = i := by
  induction c with
  | zero =>
      rw [of]
      constructor
      · exact nofun
      · omega
  | succ c ih =>
      rw [of]
      split
      · next h =>
          rw [List.mem_cons, ih]
          constructor
          · rintro (rfl | ⟨hk, hkc, hm⟩)
            · exact ⟨Nat.succ_pos c, le_rfl, h⟩
            · exact ⟨hk, by omega, hm⟩
          · rintro ⟨hk, hkc, hm⟩
            rcases Nat.lt_or_eq_of_le hkc with hlt | he
            · exact Or.inr ⟨hk, by omega, hm⟩
            · exact Or.inl he
      · next h =>
          rw [ih]
          constructor
          · rintro ⟨hk, hkc, hm⟩
            exact ⟨hk, by omega, hm⟩
          · rintro ⟨hk, hkc, hm⟩
            refine ⟨hk, ?_, hm⟩
            rcases Nat.lt_or_eq_of_le hkc with hlt | rfl
            · omega
            · exact absurd hm h

theorem of_sorted (t : Timeline ι) (i : ι) (c : Nat) : (t.of i c).Pairwise (· > ·) := by
  induction c with
  | zero => exact .nil
  | succ c ih =>
      rw [of]
      split
      · refine .cons (fun k hk => ?_) ih
        have := (mem_of.mp hk).2.1
        omega
      · exact ih

/-- The later part of a list and the rest of it. -/
theorem of_split (h : c ≤ c') :
    t.of i c' = (t.of i c').filter (c < ·) ++ t.of i c := by
  induction h with
  | refl =>
      have hnil : (t.of i c).filter (c < ·) = [] := by
        rw [List.filter_eq_nil_iff]
        intro k hk
        have := (mem_of.mp hk).2.1
        simpa using this
      rw [hnil, List.nil_append]
  | @step m hm ih =>
      rw [of]
      split
      · rw [List.filter_cons_of_pos (by simpa using Nat.lt_succ_of_le hm), List.cons_append,
          ← ih]
      · exact ih

/-- Without a mark in between a list stays as it is. -/
theorem of_still (h : c ≤ c') (hno : ∀ k ∈ t.marked, k ≤ c' → k ≤ c) :
    t.of i c' = t.of i c := by
  have hnil : (t.of i c').filter (c < ·) = [] := by
    rw [List.filter_eq_nil_iff]
    intro k hk
    obtain ⟨-, hkc, hm, -⟩ := mem_of.mp hk
    simpa using hno k hm hkc
  rw [of_split h, hnil, List.nil_append]

/-! ## Timelines that agree -/

theorem Agrees.clock (h : t.Agrees t' c) (hk : k ≤ c) : t'.clock k = t.clock k := by
  induction k with
  | zero => rfl
  | succ k ih =>
      funext i
      rw [Timeline.clock, Timeline.clock, ih (by omega), h.who _ (Nat.succ_pos k) hk]

theorem Agrees.of (h : t.Agrees t' c) (i : ι) (hk : k ≤ c) : t'.of i k = t.of i k := by
  induction k with
  | zero => rfl
  | succ k ih =>
      rw [Timeline.of, Timeline.of, ih (by omega), h.who _ (Nat.succ_pos k) hk]
      simp only [h.marked _ hk]

/-! ## Ticks and marks -/

theorem clock_tick (i : ι) (t : Timeline ι) : (t.tick i).clock (t.len + 1) =
    fun j => t.clock t.len j + if i = j then 1 else 0 := by
  funext j
  rw [clock, (agrees_tick i t).clock le_rfl, tick_who]

theorem clock_mark {h : 0 < t.len} (k : Nat) : (t.mark h).clock k = t.clock k := by
  induction k with
  | zero => rfl
  | succ k ih =>
      funext i
      rw [clock, clock, ih]
      rfl

theorem of_mark_self {h : 0 < t.len} (hm : t.len ∉ t.marked) :
    (t.mark h).of (t.who t.len) t.len = t.len :: t.of (t.who t.len) t.len := by
  obtain ⟨len, he⟩ := Nat.exists_eq_succ_of_ne_zero (Nat.ne_of_gt h)
  have hag : t.Agrees (t.mark h) len := agrees_mark (by omega)
  have hin : len + 1 ∈ (t.mark h).marked := mem_mark.mpr (Or.inl he.symm)
  have hno : len + 1 ∉ t.marked := fun hin => hm (by rw [he]; exact hin)
  have hnew : (t.mark h).of (t.who (len + 1)) (len + 1) =
      (len + 1) :: t.of (t.who (len + 1)) len := by
    rw [of, hag.of _ le_rfl, if_pos ⟨hin, rfl⟩]
  have hold : t.of (t.who (len + 1)) (len + 1) = t.of (t.who (len + 1)) len := by
    rw [of, if_neg fun h => hno h.1]
  rw [he, hnew, hold]

theorem of_mark_ne {h : 0 < t.len} (hi : i ≠ t.who t.len) :
    (t.mark h).of i t.len = t.of i t.len := by
  obtain ⟨len, he⟩ := Nat.exists_eq_succ_of_ne_zero (Nat.ne_of_gt h)
  have hag : t.Agrees (t.mark h) len := agrees_mark (by omega)
  have hne : t.who (len + 1) ≠ i := fun hw => hi (by rw [he]; exact hw.symm)
  have hne' : (t.mark h).who (len + 1) ≠ i := hne
  rw [he, of, of, hag.of _ le_rfl, if_neg fun h => hne h.2, if_neg fun h => hne' h.2]

end Timeline

end Midsm.Lib
