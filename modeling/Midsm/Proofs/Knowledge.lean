import Midsm.Proofs.MemFrame

/-!
# What a host knows

A host knows intervals and notices: `Known` and `Listed` read its interval
lists, `Noted` its pages. The two ways of recording a notice agree, which is
`Linked`. Knowledge only grows. It grows by a new own interval (`pushNow`), by
an own notice (`Mem.Wrote`), and by packets; what packets do is `Learned`: every
notice in them is recorded afterwards, nothing else is new, and an interval list
gets longer only by an interval that was not on it.
-/

namespace Midsm

def Interval.shape (interval : Interval) : Timestamp × Bool :=
  (interval.timestamp, interval.isBarrier)

/-- The intervals of host `j`, without their notices. -/
def Mem.shape (m : Mem) (j : Nat) : List (Timestamp × Bool) :=
  (m.procArray j).map Interval.shape

def Mem.Known (m : Mem) (j : Nat) (ts : Timestamp) : Prop :=
  ∃ interval ∈ m.procArray j, interval.timestamp = ts

/-- An interval of host `j` with this timestamp has a notice of page `p`. -/
def Mem.Listed (m : Mem) (j : Nat) (ts : Timestamp) (p : Nat) : Prop :=
  ∃ interval ∈ m.procArray j, interval.timestamp = ts ∧ p ∈ interval.notices

def Mem.Linked (m : Mem) : Prop := ∀ j ts p, m.Noted j ts p ↔ m.Listed j ts p

/-- A notice of one of host `j`'s intervals since its last barrier. -/
def Mem.Unsent (m : Mem) (j : Nat) (ts : Timestamp) (p : Nat) : Prop :=
  ∃ interval ∈ sinceBarrier (m.procArray j), interval.timestamp = ts ∧
    p ∈ interval.notices

/-- `intervalNow` points to the head of the own list. -/
structure Mem.NowTop (me : Nat) (m : Mem) : Prop where
  top : m.intervalNow = (m.procArray me).length
  nonempty : m.procArray me ≠ []

section

variable {me j : Nat} {m m' m'' : Mem} {ts : Timestamp} {p : Nat}

theorem known_iff_shape : m.Known j ts ↔ ∃ b, (ts, b) ∈ m.shape j := by
  constructor
  · rintro ⟨interval, hm, rfl⟩
    exact ⟨interval.isBarrier, List.mem_map.mpr ⟨interval, hm, rfl⟩⟩
  · rintro ⟨b, hb⟩
    obtain ⟨interval, hm, he⟩ := List.mem_map.mp hb
    exact ⟨interval, hm, congrArg Prod.fst he⟩

theorem Mem.NowTop.exists_now (h : m.NowTop me) :
    ∃ rest, m.procArray me = m.now me :: rest := by
  cases hl : m.procArray me with
  | nil => exact absurd hl h.nonempty
  | cons interval rest =>
      refine ⟨rest, ?_⟩
      unfold Mem.now
      dsimp only
      rw [h.top, Nat.sub_self, hl]
      rfl

theorem mem_sinceBarrier_cons {interval x : Interval} {rest : List Interval} :
    x ∈ sinceBarrier (interval :: rest) ↔
      x = interval ∨ (interval.isBarrier = false ∧ x ∈ sinceBarrier rest) := by
  rw [sinceBarrier]
  split
  · next hb => simp [hb]
  · next hb =>
      rw [Bool.not_eq_true] at hb
      simp [hb]

/-! ## Frames -/

theorem Mem.Frame.shape (h : m.Frame m') : m'.shape j = m.shape j := by
  unfold Mem.shape
  rw [h.procArray]

theorem Mem.Frame.known (h : m.Frame m') : m'.Known j ts ↔ m.Known j ts := by
  unfold Mem.Known
  rw [h.procArray]

theorem Mem.Frame.listed (h : m.Frame m') : m'.Listed j ts p ↔ m.Listed j ts p := by
  unfold Mem.Listed
  rw [h.procArray]

theorem Mem.Frame.linked (h : m.Frame m') (hl : m.Linked) : m'.Linked := by
  intro j ts p
  rw [h.noted, h.listed]
  exact hl j ts p

theorem Mem.Frame.nowTop (h : m.Frame m') (ht : m.NowTop me) : m'.NowTop me :=
  ⟨by rw [h.intervalNow, h.procArray]; exact ht.top, by rw [h.procArray]; exact ht.nonempty⟩

/-! ## A new own interval -/

section

variable {interval : Interval}

theorem pushNow_procArray_self (me : Nat) (interval : Interval) (m : Mem) :
    (m.pushNow me interval).procArray me = interval :: m.procArray me := upd_self ..

theorem pushNow_procArray_ne (h : j ≠ me) :
    (m.pushNow me interval).procArray j = m.procArray j := upd_ne h

theorem pushNow_nowTop (me : Nat) (interval : Interval) (m : Mem) :
    (m.pushNow me interval).NowTop me := by
  refine ⟨?_, ?_⟩ <;> rw [pushNow_procArray_self]
  · rfl
  · exact nofun

theorem pushNow_now (me : Nat) (interval : Interval) (m : Mem) :
    (m.pushNow me interval).now me = interval := by
  obtain ⟨rest, hr⟩ := (pushNow_nowTop me interval m).exists_now
  rw [pushNow_procArray_self, List.cons.injEq] at hr
  exact hr.1.symm

theorem pushNow_shape_self (me : Nat) (interval : Interval) (m : Mem) :
    (m.pushNow me interval).shape me = interval.shape :: m.shape me := by
  unfold Mem.shape
  rw [pushNow_procArray_self]
  rfl

theorem pushNow_noted : (m.pushNow me interval).Noted j ts p ↔ m.Noted j ts p := Iff.rfl

theorem pushNow_known : (m.pushNow me interval).Known j ts ↔
    m.Known j ts ∨ (j = me ∧ ts = interval.timestamp) := by
  unfold Mem.Known
  by_cases hj : j = me
  · subst hj
    rw [pushNow_procArray_self]
    simp only [List.mem_cons, exists_eq_or_imp, true_and]
    rw [or_comm, eq_comm]
  · rw [pushNow_procArray_ne hj]
    simp [hj]

theorem pushNow_listed (hn : interval.notices = []) :
    (m.pushNow me interval).Listed j ts p ↔ m.Listed j ts p := by
  unfold Mem.Listed
  by_cases hj : j = me
  · subst hj
    rw [pushNow_procArray_self]
    simp [hn]
  · rw [pushNow_procArray_ne hj]

theorem pushNow_linked (hn : interval.notices = []) (hl : m.Linked) :
    (m.pushNow me interval).Linked := by
  intro j ts p
  rw [pushNow_noted, pushNow_listed hn]
  exact hl j ts p

end

/-! ## An own notice -/

theorem Mem.Wrote.list (h : m.Wrote me p m') (ht : m.NowTop me) :
    ∃ rest, m.procArray me = m.now me :: rest ∧
      m'.procArray me = (m.now me).addNotice p :: rest := by
  obtain ⟨rest, hr⟩ := ht.exists_now
  refine ⟨rest, hr, ?_⟩
  rw [h.procArray, upd_self, ht.top, Nat.sub_self, hr]
  rfl

theorem Mem.Wrote.list_ne (h : m.Wrote me p m') (hj : j ≠ me) :
    m'.procArray j = m.procArray j := by
  rw [h.procArray, upd_ne hj]

theorem Mem.Wrote.shape (h : m.Wrote me p m') (ht : m.NowTop me) :
    m'.shape j = m.shape j := by
  unfold Mem.shape
  by_cases hj : j = me
  · subst hj
    obtain ⟨rest, hr, hr'⟩ := h.list ht
    rw [hr', hr]
    rfl
  · rw [h.list_ne hj]

theorem Mem.Wrote.known (h : m.Wrote me p m') (ht : m.NowTop me) :
    m'.Known j ts ↔ m.Known j ts := by
  rw [known_iff_shape, known_iff_shape, h.shape ht]

theorem Mem.Wrote.nowTop (h : m.Wrote me p m') (ht : m.NowTop me) : m'.NowTop me := by
  obtain ⟨rest, hr, hr'⟩ := h.list ht
  refine ⟨?_, ?_⟩
  · rw [h.intervalNow, ht.top, hr', hr]
    rfl
  · rw [hr']
    exact nofun

theorem Mem.Wrote.now (h : m.Wrote me p m') (ht : m.NowTop me) :
    m'.now me = (m.now me).addNotice p := by
  obtain ⟨rest, -, hr'⟩ := h.list ht
  obtain ⟨rest', hr⟩ := (h.nowTop ht).exists_now
  rw [hr', List.cons.injEq] at hr
  exact hr.1.symm

theorem Mem.Wrote.noted {q : Nat} (h : m.Wrote me p m') : m'.Noted j ts q ↔
    m.Noted j ts q ∨ (j = me ∧ ts = (m.now me).timestamp ∧ q = p) := by
  unfold Mem.Noted
  by_cases hqj : q = p ∧ j = me
  · obtain ⟨rfl, rfl⟩ := hqj
    rw [h.key, List.mem_cons]
    simp [or_comm]
  · rw [h.keys q j (by omega)]
    constructor
    · exact Or.inl
    · rintro (h | ⟨hj, -, hq⟩)
      · exact h
      · exact absurd ⟨hq, hj⟩ hqj

theorem Mem.Wrote.listed {q : Nat} (h : m.Wrote me p m') (ht : m.NowTop me) :
    m'.Listed j ts q ↔
      m.Listed j ts q ∨ (j = me ∧ ts = (m.now me).timestamp ∧ q = p) := by
  unfold Mem.Listed
  by_cases hj : j = me
  · subst hj
    obtain ⟨rest, hr, hr'⟩ := h.list ht
    rw [hr', hr]
    simp only [List.mem_cons, exists_eq_or_imp, Interval.addNotice, List.mem_append,
      List.not_mem_nil, or_false, true_and]
    constructor
    · rintro (⟨hts, hq | hq⟩ | h)
      · exact Or.inl (Or.inl ⟨hts, hq⟩)
      · exact Or.inr ⟨hts.symm, hq⟩
      · exact Or.inl (Or.inr h)
    · rintro ((⟨hts, hq⟩ | h) | ⟨hts, hq⟩)
      · exact Or.inl ⟨hts, Or.inl hq⟩
      · exact Or.inr h
      · exact Or.inl ⟨hts.symm, Or.inr hq⟩
  · rw [h.list_ne hj]
    simp [hj]

theorem Mem.Wrote.linked (h : m.Wrote me p m') (ht : m.NowTop me) (hl : m.Linked) :
    m'.Linked := by
  intro j ts q
  rw [h.noted, h.listed ht, hl j ts q]

end

end Midsm
