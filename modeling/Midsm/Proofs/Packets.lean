import Midsm.Proofs.Knowledge

/-!
# Packets

A packet names a host, the timestamp of one of its intervals, and pages with a
notice in that interval. `incorporateWnPacket` records it; this file says what a
sequence of packets adds to a host's knowledge (`Learned`), and that the packets
a host makes of its own lists say what it knows, all of it and nothing else.
-/

namespace Midsm

/-- The host and the timestamp of a packet, as a piece of knowledge. -/
def WnPacket.Names (packet : WnPacket) (j : Nat) (ts : Timestamp) : Prop :=
  packet.hostid = j ∧ packet.timestamp = ts

structure Mem.Learned (packets : List WnPacket) (m m' : Mem) : Prop where
  /-- Every list grows at its head, by intervals that were not on it. -/
  lists : ∀ j, ∃ new, m'.shape j = new ++ m.shape j ∧ ∀ x ∈ new, x.2 = false ∧
    ¬ m.Known j x.1 ∧ ∃ packet ∈ packets, packet.Names j x.1
  known : ∀ packet ∈ packets, m'.Known packet.hostid packet.timestamp
  listed : ∀ {j ts p}, m'.Listed j ts p ↔
    m.Listed j ts p ∨ ∃ packet ∈ packets, packet.Names j ts ∧ p ∈ packet.wnArray
  unsent : ∀ {j ts p}, m'.shape j = m.shape j → m.Unsent j ts p → m'.Unsent j ts p
  noted_mono : ∀ {j ts p}, m.Noted j ts p → m'.Noted j ts p
  linked : m.Linked → m'.Linked
  live : ∀ p < m.pagenum, (m.pageArray p).Live → (m'.pageArray p).Live
  unmap : ∀ p, m'.pagenum ≤ p → (m.pageArray p).state = .unmap →
    (m'.pageArray p).state = .unmap
  mapped : ∀ p, (m.pageArray p).state ≠ .unmap → (m'.pageArray p).state ≠ .unmap
  pagenum : m.pagenum ≤ m'.pagenum
  intervalNow : m'.intervalNow = m.intervalNow
  barrierTimestamps : m'.barrierTimestamps = m.barrierTimestamps
  diffFlag : m'.fetchDiffWaitFlag = m.fetchDiffWaitFlag
  wniFlag : m'.fetchWNIWaitFlag = m.fetchWNIWaitFlag

section

variable {me j : Nat} {m m' m'' : Mem} {ts : Timestamp} {p : Nat}
  {packets packets' : List WnPacket}

theorem Mem.Learned.known_mono (h : m.Learned packets m') (hk : m.Known j ts) :
    m'.Known j ts := by
  obtain ⟨new, hs, -⟩ := h.lists j
  rw [known_iff_shape] at hk ⊢
  obtain ⟨b, hb⟩ := hk
  rw [hs]
  exact ⟨b, List.mem_append_right _ hb⟩

theorem Mem.Learned.known_iff (h : m.Learned packets m') : m'.Known j ts ↔
    m.Known j ts ∨ ∃ packet ∈ packets, packet.Names j ts := by
  constructor
  · intro hk
    obtain ⟨new, hs, hnew⟩ := h.lists j
    rw [known_iff_shape, hs] at hk
    obtain ⟨b, hb⟩ := hk
    rcases List.mem_append.mp hb with hb | hb
    · exact Or.inr (hnew _ hb).2.2
    · exact Or.inl (known_iff_shape.mpr ⟨b, hb⟩)
  · rintro (hk | ⟨packet, hm, rfl, rfl⟩)
    · exact h.known_mono hk
    · exact h.known packet hm

theorem Mem.Learned.refl (m : Mem) : m.Learned [] m where
  lists j := ⟨[], rfl, fun _ h => nomatch h⟩
  known _ h := nomatch h
  listed := by simp
  unsent _ h := h
  noted_mono h := h
  linked h := h
  live _ _ h := h
  unmap _ _ h := h
  mapped _ h := h
  pagenum := Nat.le_refl _
  intervalNow := rfl
  barrierTimestamps := rfl
  diffFlag := rfl
  wniFlag := rfl

theorem Mem.Learned.trans (h₁ : m.Learned packets m') (h₂ : m'.Learned packets' m'') :
    m.Learned (packets ++ packets') m'' where
  lists j := by
    obtain ⟨new₁, hs₁, hn₁⟩ := h₁.lists j
    obtain ⟨new₂, hs₂, hn₂⟩ := h₂.lists j
    refine ⟨new₂ ++ new₁, by rw [hs₂, hs₁, List.append_assoc], fun x hx => ?_⟩
    rcases List.mem_append.mp hx with hx | hx
    · obtain ⟨hb, hk, packet, hm, hp⟩ := hn₂ x hx
      exact ⟨hb, fun hk' => hk (h₁.known_mono hk'), packet,
        List.mem_append_right _ hm, hp⟩
    · obtain ⟨hb, hk, packet, hm, hp⟩ := hn₁ x hx
      exact ⟨hb, hk, packet, List.mem_append_left _ hm, hp⟩
  known packet hm := by
    rcases List.mem_append.mp hm with hm | hm
    · exact h₂.known_mono (h₁.known packet hm)
    · exact h₂.known packet hm
  listed := by
    intro j ts p
    rw [h₂.listed, h₁.listed, or_assoc]
    simp only [List.mem_append, or_and_right, exists_or]
  unsent {j _ _} hs h := by
    -- neither part can have added an interval
    obtain ⟨new₁, hs₁, -⟩ := h₁.lists j
    obtain ⟨new₂, hs₂, -⟩ := h₂.lists j
    rw [hs₂, hs₁, ← List.append_assoc] at hs
    have hnil := List.self_eq_append_left.mp hs.symm
    obtain ⟨rfl, rfl⟩ := List.append_eq_nil_iff.mp hnil
    exact h₂.unsent hs₂ (h₁.unsent hs₁ h)
  noted_mono h := h₂.noted_mono (h₁.noted_mono h)
  linked h := h₂.linked (h₁.linked h)
  live p hp h := h₂.live p (Nat.lt_of_lt_of_le hp h₁.pagenum) (h₁.live p hp h)
  unmap p hp h := h₂.unmap p hp (h₁.unmap p (Nat.le_trans h₂.pagenum hp) h)
  mapped p h := h₂.mapped p (h₁.mapped p h)
  pagenum := Nat.le_trans h₁.pagenum h₂.pagenum
  intervalNow := h₂.intervalNow.trans h₁.intervalNow
  barrierTimestamps := h₂.barrierTimestamps.trans h₁.barrierTimestamps
  diffFlag := h₂.diffFlag.trans h₁.diffFlag
  wniFlag := h₂.wniFlag.trans h₁.wniFlag

/-! ## One notice -/

theorem appendNotice_shape (ts : Timestamp) (p : Nat) (list : List Interval) :
    (appendNotice ts p list).map Interval.shape = list.map Interval.shape := by
  induction list with
  | nil => rfl
  | cons interval rest ih =>
      rw [appendNotice]
      split
      · rfl
      · rw [List.map_cons, ih, List.map_cons]

theorem mem_appendNotice {t : Timestamp} {q : Nat} {list : List Interval} :
    (∃ interval ∈ appendNotice ts p list, interval.timestamp = t ∧ q ∈ interval.notices) ↔
      (∃ interval ∈ list, interval.timestamp = t ∧ q ∈ interval.notices) ∨
        (t = ts ∧ q = p ∧ ∃ interval ∈ list, interval.timestamp = ts) := by
  induction list with
  | nil => simp [appendNotice]
  | cons interval rest ih =>
      rw [appendNotice]
      by_cases hts : interval.timestamp = ts
      · rw [if_pos hts]
        simp only [List.mem_cons, exists_eq_or_imp, List.mem_append, List.not_mem_nil,
          or_false, hts, true_or, and_true]
        constructor
        · rintro (⟨rfl, hq | rfl⟩ | h)
          · exact Or.inl (Or.inl ⟨rfl, hq⟩)
          · exact Or.inr ⟨rfl, rfl⟩
          · exact Or.inl (Or.inr h)
        · rintro ((⟨rfl, hq⟩ | h) | ⟨rfl, rfl⟩)
          · exact Or.inl ⟨rfl, Or.inl hq⟩
          · exact Or.inr h
          · exact Or.inl ⟨rfl, Or.inr rfl⟩
      · rw [if_neg hts]
        simp only [List.mem_cons, exists_eq_or_imp, ih, hts, false_or, or_assoc]

theorem mem_sinceBarrier_appendNotice {t : Timestamp} {q : Nat} {list : List Interval}
    (h : ∃ interval ∈ sinceBarrier list, interval.timestamp = t ∧ q ∈ interval.notices) :
    ∃ interval ∈ sinceBarrier (appendNotice ts p list), interval.timestamp = t ∧
      q ∈ interval.notices := by
  induction list with
  | nil =>
      obtain ⟨_, hm, -⟩ := h
      cases hm
  | cons interval rest ih =>
      obtain ⟨i, hm, ht, hq⟩ := h
      rw [appendNotice]
      split
      · rcases mem_sinceBarrier_cons.mp hm with rfl | ⟨hb, hm⟩
        · exact ⟨_, mem_sinceBarrier_cons.mpr (Or.inl rfl), ht, List.mem_append_left _ hq⟩
        · exact ⟨i, mem_sinceBarrier_cons.mpr (Or.inr ⟨hb, hm⟩), ht, hq⟩
      · rcases mem_sinceBarrier_cons.mp hm with rfl | ⟨hb, hm⟩
        · exact ⟨i, mem_sinceBarrier_cons.mpr (Or.inl rfl), ht, hq⟩
        · obtain ⟨i', hm', hi'⟩ := ih ⟨i, hm, ht, hq⟩
          exact ⟨i', mem_sinceBarrier_cons.mpr (Or.inr ⟨hb, hm'⟩), hi'⟩

theorem noticesOf_listed (h : p ∈ noticesOf ts (m.procArray j)) : m.Listed j ts p := by
  unfold noticesOf at h
  cases hf : (m.procArray j).find? fun interval => interval.timestamp = ts with
  | none => rw [hf] at h; cases h
  | some interval =>
      rw [hf] at h
      exact ⟨interval, List.mem_of_find?_eq_some hf,
        by simpa using List.find?_some hf, h⟩

theorem invalidatePage_frame (me p : Nat) (m : Mem) : m.Frame (invalidatePage me p m) := by
  unfold invalidatePage
  dsimp only
  split
  · next hst => exact .setState (by rw [hst]; exact nofun) nofun nofun
  · next hst =>
      refine (Mem.Frame.trans ?_ (freeTwinPage_frame ..)).trans (.setData (fun _ => rfl) rfl)
      refine .setPage (upd_keys ?_) (fun _ => ⟨nofun, nofun⟩)
        ⟨fun h => (by rw [hst] at h; cases h), nofun⟩
      unfold Page.keys
      split
      · next hn => rw [hn]
      · next hn => rw [hn]; rfl
  · exact .refl m

theorem freeTwinPage_flags (p : Nat) (m : Mem) :
    (freeTwinPage p m).2.fetchDiffWaitFlag = m.fetchDiffWaitFlag ∧
      (freeTwinPage p m).2.fetchWNIWaitFlag = m.fetchWNIWaitFlag := by
  unfold freeTwinPage
  dsimp only
  split
  · exact ⟨rfl, rfl⟩
  · split
    · exact ⟨rfl, rfl⟩
    · split <;> exact ⟨rfl, rfl⟩

theorem invalidatePage_flags (me p : Nat) (m : Mem) :
    (invalidatePage me p m).fetchDiffWaitFlag = m.fetchDiffWaitFlag ∧
      (invalidatePage me p m).fetchWNIWaitFlag = m.fetchWNIWaitFlag := by
  unfold invalidatePage
  dsimp only
  split
  · exact ⟨rfl, rfl⟩
  · exact freeTwinPage_flags ..
  · exact ⟨rfl, rfl⟩

/-- A frame before the packets. -/
theorem Mem.Frame.trans_learned (h₁ : m.Frame m') (h₂ : m'.Learned packets m'')
    (hd : m'.fetchDiffWaitFlag = m.fetchDiffWaitFlag)
    (hw : m'.fetchWNIWaitFlag = m.fetchWNIWaitFlag) : m.Learned packets m'' where
  lists j := by
    obtain ⟨new, hs, hn⟩ := h₂.lists j
    rw [h₁.shape] at hs
    refine ⟨new, hs, fun x hx => ?_⟩
    rw [← h₁.known]
    exact hn x hx
  known := h₂.known
  listed := by
    intro j ts p
    rw [h₂.listed, h₁.listed]
  unsent hs h := by
    rw [← h₁.shape] at hs
    refine h₂.unsent hs ?_
    unfold Mem.Unsent
    rw [h₁.procArray]
    exact h
  noted_mono h := h₂.noted_mono (h₁.noted.mpr h)
  linked h := h₂.linked (h₁.linked h)
  live p hp h := h₂.live p (Nat.lt_of_lt_of_le hp h₁.pagenum) (h₁.live p hp h)
  unmap p hp h := h₂.unmap p hp (h₁.unmap p (Nat.le_trans h₂.pagenum hp) h)
  mapped p h := h₂.mapped p (h₁.mapped p h)
  pagenum := Nat.le_trans h₁.pagenum h₂.pagenum
  intervalNow := h₂.intervalNow.trans h₁.intervalNow
  barrierTimestamps := h₂.barrierTimestamps.trans h₁.barrierTimestamps
  diffFlag := h₂.diffFlag.trans hd
  wniFlag := h₂.wniFlag.trans hw

/-- The notice on both lists, once the page is invalidated. -/
def Mem.record (j : Nat) (ts : Timestamp) (p : Nat) (m : Mem) : Mem :=
  { m.setPage p { m.pageArray p with
      notices := upd (m.pageArray p).notices j
        (⟨ts, none⟩ :: (m.pageArray p).notices j) } with
    procArray := upd m.procArray j (appendNotice ts p (m.procArray j)) }

theorem incorporateNotice_eq (me j : Nat) (ts : Timestamp) (m : Mem) (p : Nat) :
    incorporateNotice me j ts m p = if p ∈ noticesOf ts (m.procArray j) then m
      else (invalidatePage me p m).record j ts p := rfl

theorem record_state (j : Nat) (ts : Timestamp) (p q : Nat) (m : Mem) :
    ((m.record j ts p).pageArray q).state = (m.pageArray q).state := by
  change ((m.setPage p _).pageArray q).state = _
  by_cases hq : q = p
  · rw [hq, setPage_self]
  · rw [setPage_ne hq]

theorem record_shape (i : Nat) : (m.record j ts p).shape i = m.shape i := by
  unfold Mem.shape Mem.record
  by_cases hi : i = j
  · subst hi
    dsimp only
    rw [upd_self, appendNotice_shape]
  · dsimp only
    rw [upd_ne hi]

theorem record_listed {i q : Nat} {t : Timestamp} (hk : m.Known j ts) :
    (m.record j ts p).Listed i t q ↔ m.Listed i t q ∨ (i = j ∧ t = ts ∧ q = p) := by
  unfold Mem.Listed Mem.record
  by_cases hi : i = j
  · subst hi
    dsimp only
    rw [upd_self, mem_appendNotice]
    constructor
    · rintro (h | ⟨ht, hq, -⟩)
      · exact Or.inl h
      · exact Or.inr ⟨rfl, ht, hq⟩
    · rintro (h | ⟨-, ht, hq⟩)
      · exact Or.inl h
      · exact Or.inr ⟨ht, hq, hk⟩
  · dsimp only
    rw [upd_ne hi]
    simp [hi]

theorem record_noted {i q : Nat} {t : Timestamp} :
    (m.record j ts p).Noted i t q ↔ m.Noted i t q ∨ (i = j ∧ t = ts ∧ q = p) := by
  change t ∈ ((m.setPage p _).pageArray q).keys i ↔ t ∈ (m.pageArray q).keys i ∨ _
  by_cases hq : q = p
  · subst hq
    rw [setPage_self]
    unfold Page.keys
    by_cases hi : i = j
    · subst hi
      simp [or_comm]
    · simp [upd_ne hi, hi]
  · rw [setPage_ne hq]
    simp [hq]

theorem record_learned (hk : m.Known j ts) :
    m.Learned [⟨j, ts, [p]⟩] (m.record j ts p) where
  lists i := ⟨[], record_shape i, fun _ h => nomatch h⟩
  known packet hm := by
    rw [List.mem_singleton.mp hm, known_iff_shape, record_shape]
    exact known_iff_shape.mp hk
  listed := by
    intro i t q
    rw [record_listed hk]
    simp [WnPacket.Names, eq_comm, and_assoc]
  unsent {i _ _} _ h := by
    unfold Mem.Unsent Mem.record at *
    by_cases hi : i = j
    · subst hi
      dsimp only
      rw [upd_self]
      exact mem_sinceBarrier_appendNotice h
    · dsimp only
      rw [upd_ne hi]
      exact h
  noted_mono h := record_noted.mpr (Or.inl h)
  linked hl i t q := by rw [record_noted, record_listed hk, hl i t q]
  live q _ h := by
    unfold Page.Live
    rw [record_state]
    exact h
  unmap q _ h := (record_state ..).trans h
  mapped q h hn := h ((record_state ..).symm.trans hn)
  pagenum := Nat.le_refl _
  intervalNow := rfl
  barrierTimestamps := rfl
  diffFlag := rfl
  wniFlag := rfl

/-- A notice of an interval that is on the list. -/
theorem incorporateNotice_learned (hk : m.Known j ts) :
    m.Learned [⟨j, ts, [p]⟩] (incorporateNotice me j ts m p) := by
  rw [incorporateNotice_eq]
  split
  · next hin =>
      refine { Mem.Learned.refl m with
        lists := fun i => ⟨[], rfl, fun _ h => nomatch h⟩
        known := fun packet hm => ?_
        listed := fun {i t q} => ?_ }
      · rw [List.mem_singleton.mp hm]
        exact hk
      · constructor
        · exact Or.inl
        · rintro (h | ⟨packet, hm, ⟨rfl, rfl⟩, hq⟩)
          · exact h
          · rw [List.mem_singleton] at hm
            subst hm
            rw [List.mem_singleton] at hq
            subst hq
            exact noticesOf_listed hin
  · have hf := invalidatePage_frame me p m
    obtain ⟨hd, hw⟩ := invalidatePage_flags me p m
    exact hf.trans_learned (record_learned (hf.known.mpr hk)) hd hw

/-! ## One packet, and a message of them -/

theorem enterInterval_learned (j : Nat) (ts : Timestamp) (m : Mem) :
    m.Learned [⟨j, ts, []⟩] (enterInterval j ts m) := by
  have hnone : ∀ {i : Nat} {t : Timestamp} {q : Nat},
      ¬ ∃ packet ∈ [(⟨j, ts, []⟩ : WnPacket)], packet.Names i t ∧ q ∈ packet.wnArray := by
    rintro i t q ⟨packet, hm, -, hq⟩
    rw [List.mem_singleton] at hm
    subst hm
    cases hq
  unfold enterInterval
  dsimp only
  split
  · next hany =>
      refine { Mem.Learned.refl m with
        lists := fun i => ⟨[], rfl, fun _ h => by cases h⟩
        known := fun packet hm => ?_
        listed := fun {i t q} => ?_ }
      · rw [List.mem_singleton.mp hm]
        obtain ⟨interval, hi, ht⟩ := List.any_eq_true.mp hany
        exact ⟨interval, hi, of_decide_eq_true ht⟩
      · rw [or_iff_left hnone]
  · next hany =>
      have hknown : ¬ m.Known j ts := by
        rintro ⟨interval, hi, ht⟩
        exact hany (List.any_eq_true.mpr ⟨interval, hi, decide_eq_true ht⟩)
      have hlist : ∀ i, upd m.procArray j (⟨ts, [], false⟩ :: m.procArray j) i =
          (if i = j then [⟨ts, [], false⟩] else []) ++ m.procArray i := by
        intro i
        by_cases hi : i = j
        · rw [hi, upd_self, if_pos rfl]
          rfl
        · rw [upd_ne hi, if_neg hi]
          rfl
      have hlisted : ∀ {i : Nat} {t : Timestamp} {q : Nat},
          Mem.Listed { m with
            procArray := upd m.procArray j (⟨ts, [], false⟩ :: m.procArray j) } i t q ↔
          m.Listed i t q := by
        intro i t q
        unfold Mem.Listed
        dsimp only
        rw [hlist i]
        by_cases hi : i = j <;> simp [hi]
      refine { Mem.Learned.refl m with
        lists := fun i => ?_
        known := fun packet hm => ?_
        listed := fun {i t q} => ?_
        unsent := fun {i t q} hs h => ?_
        linked := fun hl i t q => ?_ }
      · refine ⟨(if i = j then [(ts, false)] else []), ?_, fun x hx => ?_⟩
        · unfold Mem.shape
          dsimp only
          rw [hlist i, List.map_append]
          by_cases hi : i = j <;> simp [hi, Interval.shape]
        · split at hx
          · next hi =>
              subst hi
              rw [List.mem_singleton] at hx
              subst hx
              exact ⟨rfl, hknown, _, List.mem_cons_self, rfl, rfl⟩
          · cases hx
      · rw [List.mem_singleton.mp hm]
        exact ⟨⟨ts, [], false⟩, by simp, rfl⟩
      · rw [or_iff_left hnone]
        exact hlisted
      · unfold Mem.Unsent Mem.shape at *
        dsimp only at hs ⊢
        rw [hlist i] at hs ⊢
        by_cases hi : i = j
        · rw [if_pos hi, List.map_append] at hs
          exact absurd (List.self_eq_append_left.mp hs.symm) (List.cons_ne_nil _ _)
        · rw [if_neg hi]
          exact h
      · rw [hlisted]
        exact hl i t q

/-- Only what the packets say matters, not how they are cut. -/
theorem Mem.Learned.congr (h : m.Learned packets m')
    (hn : ∀ j ts, (∃ packet ∈ packets, packet.Names j ts) ↔
      ∃ packet ∈ packets', packet.Names j ts)
    (hp : ∀ j ts p, (∃ packet ∈ packets, packet.Names j ts ∧ p ∈ packet.wnArray) ↔
      ∃ packet ∈ packets', packet.Names j ts ∧ p ∈ packet.wnArray) :
    m.Learned packets' m' :=
  { h with
    lists := fun j => by
      obtain ⟨new, hs, hnew⟩ := h.lists j
      exact ⟨new, hs, fun x hx =>
        ⟨(hnew x hx).1, (hnew x hx).2.1, (hn _ _).mp (hnew x hx).2.2⟩⟩
    known := fun packet hm => by
      obtain ⟨packet', hm', hj, ht⟩ := (hn _ _).mpr ⟨packet, hm, rfl, rfl⟩
      rw [← hj, ← ht]
      exact h.known packet' hm'
    listed := fun {j ts p} => h.listed.trans (or_congr Iff.rfl (hp j ts p)) }

theorem foldl_incorporateNotice_learned (pages done : List Nat)
    (h : m.Learned [⟨j, ts, done⟩] m') :
    m.Learned [⟨j, ts, done ++ pages⟩] (pages.foldl (incorporateNotice me j ts) m') := by
  induction pages generalizing done m' with
  | nil => rw [List.append_nil]; exact h
  | cons p pages ih =>
      rw [List.foldl_cons, List.append_cons]
      have hk : m'.Known j ts := h.known _ List.mem_cons_self
      refine ih (done ++ [p]) ((h.trans (incorporateNotice_learned hk)).congr ?_ ?_)
      · intro i t
        simp [WnPacket.Names]
      · intro i t q
        simp [WnPacket.Names, and_or_left]

theorem incorporateWnPacket_learned (me : Nat) (m : Mem) (packet : WnPacket) :
    m.Learned [packet] (incorporateWnPacket me m packet) := by
  have h := enterInterval_learned packet.hostid packet.timestamp m
  exact foldl_incorporateNotice_learned packet.wnArray [] h

theorem foldl_incorporateWnPacket_learned (me : Nat) (packets : List WnPacket) (m : Mem) :
    m.Learned packets (packets.foldl (incorporateWnPacket me) m) := by
  induction packets generalizing m with
  | nil => exact .refl m
  | cons packet packets ih =>
      exact (incorporateWnPacket_learned me m packet).trans (ih _)

theorem incorporatePackets_learned (me k : Nat) (packets : List WnPacket) (m : Mem) :
    m.Learned (packets.take k) (incorporatePackets me k packets m) :=
  foldl_incorporateWnPacket_learned me _ m

end

/-! ## The packets a host makes -/

theorem splitNotices_spec (i : Nat) (ts : Timestamp) (fuel : Nat) (pages : List Nat)
    (hf : pages.length ≤ fuel) :
    (∀ packet ∈ splitNotices i ts fuel pages, packet.Names i ts) ∧
      (splitNotices i ts fuel pages).flatMap WnPacket.wnArray = pages := by
  induction fuel generalizing pages with
  | zero =>
      rw [List.length_eq_zero_iff.mp (Nat.le_zero.mp hf)]
      exact ⟨fun _ h => (nomatch h), rfl⟩
  | succ fuel ih =>
      cases pages with
      | nil => exact ⟨fun _ h => (nomatch h), rfl⟩
      | cons p ps =>
          have hmax : 0 < maxWnNum := by decide
          have hlen : ((p :: ps).drop maxWnNum).length ≤ fuel := by
            rw [List.length_drop]
            rw [List.length_cons] at hf ⊢
            omega
          obtain ⟨hn, hw⟩ := ih _ hlen
          rw [splitNotices]
          refine ⟨fun packet hm => ?_, ?_⟩
          · rcases List.mem_cons.mp hm with rfl | hm
            · exact ⟨rfl, rfl⟩
            · exact hn packet hm
          · rw [List.flatMap_cons, hw, List.take_append_drop]

/-- A packet has room for `MAX_WN_NUM` notices. -/
theorem splitNotices_made (j : Nat) (ts : Timestamp) (fuel : Nat) (pages : List Nat) :
    ∀ packet ∈ splitNotices j ts fuel pages, packet.wnArray.length ≤ maxWnNum := by
  induction fuel generalizing pages with
  | zero => exact fun _ hm => absurd hm List.not_mem_nil
  | succ fuel ih =>
      cases pages with
      | nil => exact fun _ hm => absurd hm List.not_mem_nil
      | cons p ps =>
          intro packet hm
          rw [splitNotices] at hm
          rcases List.mem_cons.mp hm with rfl | hm
          · exact List.length_take_le ..
          · exact ih _ packet hm

theorem intervalPackets_names {i : Nat} {interval : Interval} {packet : WnPacket}
    (h : packet ∈ intervalPackets i interval) : packet.Names i interval.timestamp :=
  (splitNotices_spec i interval.timestamp _ interval.notices (Nat.le_refl _)).1 packet h

theorem intervalPackets_pages {i p : Nat} {interval : Interval} :
    (∃ packet ∈ intervalPackets i interval, p ∈ packet.wnArray) ↔
      p ∈ interval.notices := by
  have hw := (splitNotices_spec i interval.timestamp _ interval.notices (Nat.le_refl _)).2
  rw [← List.mem_flatMap, intervalPackets, hw]

/-- Packets of what a host knows. -/
def Mem.Tells (m : Mem) (packets : List WnPacket) : Prop :=
  ∀ packet ∈ packets, m.Known packet.hostid packet.timestamp ∧
    ∀ p ∈ packet.wnArray, m.Listed packet.hostid packet.timestamp p

section

variable {n : Nat} {m : Mem} {i j p : Nat} {ts t : Timestamp}

theorem intervalPackets_tells {interval : Interval} (h : interval ∈ m.procArray i) :
    m.Tells (intervalPackets i interval) := by
  intro packet hm
  obtain ⟨rfl, ht⟩ := intervalPackets_names hm
  rw [ht]
  exact ⟨⟨interval, h, rfl⟩, fun p hp =>
    ⟨interval, h, rfl, intervalPackets_pages.mp ⟨packet, hm, hp⟩⟩⟩

theorem Mem.Tells.flatten {intervals : List (List WnPacket)}
    (h : ∀ packets ∈ intervals, m.Tells packets) : m.Tells intervals.flatten := by
  intro packet hm
  obtain ⟨packets, hp, hm⟩ := List.mem_flatten.mp hm
  exact h packets hp packet hm

theorem Mem.Tells.take {packets : List WnPacket} (h : m.Tells packets) (k : Nat) :
    m.Tells (packets.take k) := fun packet hm => h packet (List.mem_of_mem_take hm)

theorem packetsAfter_tells (n : Nat) (t : Timestamp) (i : Nat) (m : Mem) :
    ∀ packets ∈ packetsAfter n t i m, m.Tells packets := by
  intro packets hm
  obtain ⟨interval, hi, rfl⟩ := List.mem_map.mp hm
  exact intervalPackets_tells (List.mem_reverse.mp (List.mem_filter.mp hi).1)

theorem allAfter_tells (n : Nat) (t : Timestamp) (m : Mem) :
    m.Tells ((List.range n).flatMap fun i => packetsAfter n t i m).flatten := by
  refine Mem.Tells.flatten fun packets hm => ?_
  obtain ⟨i, -, hi⟩ := List.mem_flatMap.mp hm
  exact packetsAfter_tells n t i m packets hi

/-- What `packetsAfter` passes on, over all hosts. -/
theorem allAfter_pages :
    (∃ packet ∈ ((List.range n).flatMap fun i => packetsAfter n t i m).flatten,
      packet.Names j ts ∧ p ∈ packet.wnArray) ↔
    j < n ∧ isAfterInterval n ts t = true ∧ m.Listed j ts p := by
  constructor
  · rintro ⟨packet, hm, ⟨rfl, rfl⟩, hp⟩
    obtain ⟨packets, hpk, hm⟩ := List.mem_flatten.mp hm
    obtain ⟨i, hi, hpk⟩ := List.mem_flatMap.mp hpk
    obtain ⟨interval, hint, rfl⟩ := List.mem_map.mp hpk
    obtain ⟨hint, hafter⟩ := List.mem_filter.mp hint
    obtain ⟨rfl, ht⟩ := intervalPackets_names hm
    rw [ht]
    exact ⟨List.mem_range.mp hi, hafter, interval, List.mem_reverse.mp hint, rfl,
      intervalPackets_pages.mp ⟨packet, hm, hp⟩⟩
  · rintro ⟨hj, hafter, interval, hint, rfl, hp⟩
    obtain ⟨packet, hm, hp⟩ := intervalPackets_pages (i := j).mpr hp
    refine ⟨packet, List.mem_flatten.mpr ⟨intervalPackets j interval,
      List.mem_flatMap.mpr ⟨j, List.mem_range.mpr hj, List.mem_map.mpr ⟨interval,
        List.mem_filter.mpr ⟨List.mem_reverse.mpr hint, hafter⟩, rfl⟩⟩, hm⟩,
      intervalPackets_names hm, hp⟩

end

/-! ## Growth

One notion for all the ways in which a step changes what host `me` knows: from
what `m` knows, from what `me` does itself, and from packets it has read. -/

/-- A packet says that host `j` has an interval, or a notice in it. -/
def Said (packets : List WnPacket) (j : Nat) (ts : Timestamp) : Prop :=
  ∃ packet ∈ packets, packet.Names j ts

def SaidNotice (packets : List WnPacket) (j : Nat) (ts : Timestamp) (p : Nat) : Prop :=
  ∃ packet ∈ packets, packet.Names j ts ∧ p ∈ packet.wnArray

theorem SaidNotice.nil {j : Nat} {ts : Timestamp} {p : Nat} {P : Prop}
    (h : SaidNotice [] j ts p) : P := by
  obtain ⟨packet, hm, -⟩ := h
  cases hm

structure Mem.Grows (me : Nat) (packets : List WnPacket) (m m' : Mem) : Prop where
  known_mono : ∀ {j ts}, m.Known j ts → m'.Known j ts
  known : ∀ {j ts}, m'.Known j ts → m.Known j ts ∨ j = me ∨ Said packets j ts
  noted_mono : ∀ {j ts p}, m.Noted j ts p → m'.Noted j ts p
  noted : m.Linked → m.NowTop me → ∀ {j ts p}, m'.Noted j ts p →
    m.Noted j ts p ∨ SaidNotice packets j ts p ∨
      (j = me ∧ p < maxPageNum ∧ (m.pageArray p).state = .rdonly)
  learns : m.Linked → m.NowTop me → ∀ {j ts p}, SaidNotice packets j ts p →
    m'.Noted j ts p
  linked : m.NowTop me → m.Linked → m'.Linked
  nowTop : m.NowTop me → (∀ ts, Said packets me ts → m.Known me ts) → m'.NowTop me
  live : ∀ p < m.pagenum, (m.pageArray p).Live → (m'.pageArray p).Live
  unmap : ∀ p, m'.pagenum ≤ p → (m.pageArray p).state = .unmap →
    (m'.pageArray p).state = .unmap
  mapped : ∀ p, (m.pageArray p).state ≠ .unmap → (m'.pageArray p).state ≠ .unmap
  pagenum : m.pagenum ≤ m'.pagenum

section

variable {me : Nat} {m m' : Mem} {packets : List WnPacket}

theorem Mem.Frame.grows (h : m.Frame m') : m.Grows me [] m' where
  known_mono hk := h.known.mpr hk
  known hk := Or.inl (h.known.mp hk)
  noted_mono hn := h.noted.mpr hn
  noted _ _ _ _ _ hn := Or.inl (h.noted.mp hn)
  learns _ _ _ _ _ hs := hs.nil
  linked _ hl := h.linked hl
  nowTop ht _ := h.nowTop ht
  live := h.live
  unmap := h.unmap
  mapped := h.mapped
  pagenum := h.pagenum

theorem Mem.Wrote.grows {p : Nat} (ht : m.NowTop me) (h : m.Wrote me p m') :
    m.Grows me [] m' where
  known_mono hk := (h.known ht).mpr hk
  known hk := Or.inl ((h.known ht).mp hk)
  noted_mono hn := h.noted.mpr (Or.inl hn)
  noted _ _ _ _ _ hn := by
    rcases h.noted.mp hn with hn | ⟨rfl, rfl, rfl⟩
    · exact Or.inl hn
    · exact Or.inr (Or.inr ⟨rfl, h.bound, h.rdonly⟩)
  learns _ _ _ _ _ hs := hs.nil
  linked ht hl := h.linked ht hl
  nowTop ht _ := h.nowTop ht
  live := h.live
  unmap := h.unmap
  mapped := h.mapped
  pagenum := h.pagenum

theorem Mem.Quiet.grows (ht : m.NowTop me) (h : m.Quiet me m') : m.Grows me [] m' := by
  rcases h with h | ⟨p, h⟩
  · exact h.grows
  · exact h.grows ht

theorem pushNow_grows {interval : Interval} (hn : interval.notices = []) :
    m.Grows me [] (m.pushNow me interval) where
  known_mono hk := pushNow_known.mpr (Or.inl hk)
  known hk := by
    rcases pushNow_known.mp hk with hk | ⟨hj, -⟩
    · exact Or.inl hk
    · exact Or.inr (Or.inl hj)
  noted_mono h := h
  noted _ _ _ _ _ h := Or.inl h
  learns _ _ _ _ _ hs := hs.nil
  linked _ hl := pushNow_linked hn hl
  nowTop _ _ := pushNow_nowTop ..
  live _ _ h := h
  unmap _ _ h := h
  mapped _ h := h
  pagenum := Nat.le_refl _

/-- Packets that say nothing new about host `j` leave its list as long as it is. -/
theorem Mem.Learned.same_shape (h : m.Learned packets m') {j : Nat}
    (hs : ∀ ts, Said packets j ts → m.Known j ts) : m'.shape j = m.shape j := by
  obtain ⟨new, hshape, hnew⟩ := h.lists j
  cases new with
  | nil => exact hshape
  | cons x rest =>
      obtain ⟨-, hk, hsaid⟩ := hnew x List.mem_cons_self
      exact absurd (hs _ hsaid) hk

/-- The same pages and lists; flags and barrier timestamps may differ. -/
structure Mem.Alike (m m' : Mem) : Prop where
  pageArray : m'.pageArray = m.pageArray
  procArray : m'.procArray = m.procArray
  intervalNow : m'.intervalNow = m.intervalNow
  pagenum : m'.pagenum = m.pagenum

theorem Mem.Alike.refl (m : Mem) : m.Alike m := ⟨rfl, rfl, rfl, rfl⟩

theorem Mem.Alike.known {j : Nat} {ts : Timestamp} (h : m.Alike m') :
    m'.Known j ts ↔ m.Known j ts := by
  unfold Mem.Known
  rw [h.procArray]

theorem Mem.Alike.noted {j p : Nat} {ts : Timestamp} (h : m.Alike m') :
    m'.Noted j ts p ↔ m.Noted j ts p := by
  unfold Mem.Noted
  rw [h.pageArray]

theorem Mem.Alike.linked (h : m.Alike m') : m'.Linked ↔ m.Linked := by
  unfold Mem.Linked Mem.Noted Mem.Listed
  rw [h.pageArray, h.procArray]

theorem Mem.Alike.nowTop (h : m.Alike m') : m'.NowTop me ↔ m.NowTop me := by
  have hback : ∀ {m m' : Mem}, m.Alike m' → m.NowTop me → m'.NowTop me := fun h ht =>
    ⟨by rw [h.intervalNow, h.procArray]; exact ht.top,
      by rw [h.procArray]; exact ht.nonempty⟩
  exact ⟨hback ⟨h.1.symm, h.2.symm, h.3.symm, h.4.symm⟩, hback h⟩

theorem Mem.Grows.congr {base base' : Mem} (h : base.Grows me packets base')
    (hm : m.Alike base) (hm' : base'.Alike m') : m.Grows me packets m' where
  known_mono hk := hm'.known.mpr (h.known_mono (hm.known.mpr hk))
  known hk := by
    rw [← hm.known]
    exact h.known (hm'.known.mp hk)
  noted_mono hn := hm'.noted.mpr (h.noted_mono (hm.noted.mpr hn))
  noted hl ht j ts p hn := by
    rw [← hm.noted, ← hm.pageArray]
    exact h.noted (hm.linked.mpr hl) (hm.nowTop.mpr ht) (hm'.noted.mp hn)
  learns hl ht j ts p hs :=
    hm'.noted.mpr (h.learns (hm.linked.mpr hl) (hm.nowTop.mpr ht) hs)
  linked ht hl := hm'.linked.mpr (h.linked (hm.nowTop.mpr ht) (hm.linked.mpr hl))
  nowTop ht hs := by
    refine hm'.nowTop.mpr (h.nowTop (hm.nowTop.mpr ht) fun ts hsaid => ?_)
    exact hm.known.mpr (hs ts hsaid)
  live := by
    rw [hm'.pageArray, ← hm.pageArray, ← hm.pagenum]
    exact h.live
  unmap := by
    rw [hm'.pageArray, hm'.pagenum, ← hm.pageArray]
    exact h.unmap
  mapped := by
    rw [hm'.pageArray, ← hm.pageArray]
    exact h.mapped
  pagenum := by
    rw [hm'.pagenum, ← hm.pagenum]
    exact h.pagenum

theorem Mem.Alike.grows (h : m.Alike m') : m.Grows me [] m' :=
  (Mem.Frame.refl m).grows.congr (.refl m) h

/-- Packets read after a step that is silent about pages, such as a new own
interval or none. -/
theorem Mem.Learned.grows {base : Mem} (hb : m.Grows me [] base)
    (hp : base.pageArray = m.pageArray) (h : base.Learned packets m') :
    m.Grows me packets m' where
  known_mono hk := h.known_mono (hb.known_mono hk)
  known hk := by
    rcases h.known_iff.mp hk with hk | hk
    · rcases hb.known hk with hk | hk | ⟨packet, hm, -⟩
      · exact Or.inl hk
      · exact Or.inr (Or.inl hk)
      · cases hm
    · exact Or.inr (Or.inr hk)
  noted_mono hn := h.noted_mono (hb.noted_mono hn)
  noted hl ht j ts p hn := by
    have hl' := hb.linked ht hl
    rw [h.linked hl' j ts p, h.listed, ← hl' j ts p] at hn
    rcases hn with hn | hn
    · unfold Mem.Noted at hn
      rw [hp] at hn
      exact Or.inl hn
    · exact Or.inr (Or.inl hn)
  learns hl ht j ts p hs := by
    rw [h.linked (hb.linked ht hl) j ts p, h.listed]
    exact Or.inr hs
  linked ht hl := h.linked (hb.linked ht hl)
  nowTop ht hs := by
    have ht' := hb.nowTop ht fun ts hs => (by obtain ⟨packet, hm, -⟩ := hs; cases hm)
    have hshape := h.same_shape fun ts hsaid => hb.known_mono (hs ts hsaid)
    have hlen : (m'.procArray me).length = (base.procArray me).length := by
      have := congrArg List.length hshape
      simpa [Mem.shape] using this
    refine ⟨by rw [h.intervalNow, ht'.top, hlen], fun hn => ?_⟩
    rw [hn] at hlen
    exact ht'.nonempty (List.length_eq_zero_iff.mp hlen.symm)
  live p hp' hl := h.live p (Nat.lt_of_lt_of_le hp' hb.pagenum) (hb.live p hp' hl)
  unmap p hp' hu := h.unmap p hp' (hb.unmap p (Nat.le_trans h.pagenum hp') hu)
  mapped p hu := h.mapped p (hb.mapped p hu)
  pagenum := Nat.le_trans hb.pagenum h.pagenum

end

end Midsm
