import Midsm.Proofs.BarrierInfo

/-!
# Vector clocks

A host counts its intervals in its own component, and it learns the components
of the others from a granter or from the manager. Three ways to a new interval
keep what the host knew: `addNewInterval` counts on, a release takes one more
than every host's own count, and so a client that installs the barrier's
timestamp moves up too. The fourth does not look back: `handleGrantWNIMsg` takes
the granter's vector and counts on from there, whatever the reader had before.
So the results are about runs in which the granter's vector has caught up with
the reader's own count: then no host knows more of another than that host's own
count, or than the barrier timestamp that is on its way there.
-/

namespace Midsm

open Midsm.Lib

/-! ## Comparing timestamps -/

theorem isAfterLoop_iff {timestamp target : Timestamp} {is : List (Fin maxHostNum)}
    {bigger : Bool} : isAfterLoop timestamp target is bigger = true ↔
      (∀ i ∈ is, target i ≤ timestamp i) ∧
        (bigger = true ∨ ∃ i ∈ is, target i < timestamp i) := by
  induction is generalizing bigger with
  | nil => simp [isAfterLoop]
  | cons i is ih =>
      rw [isAfterLoop]
      split
      · next hlt =>
          rw [ih]
          constructor
          · rintro ⟨hall, -⟩
            refine ⟨?_, Or.inr ⟨i, List.mem_cons_self, hlt⟩⟩
            rw [List.forall_mem_cons]
            exact ⟨by omega, hall⟩
          · rintro ⟨hall, -⟩
            exact ⟨(List.forall_mem_cons.mp hall).2, Or.inl rfl⟩
      · next hle =>
          split
          · next hlt =>
              constructor
              · intro h
                cases h
              · rintro ⟨hall, -⟩
                have := hall i List.mem_cons_self
                omega
          · next hge =>
              rw [ih, List.forall_mem_cons]
              simp only [List.mem_cons, exists_eq_or_imp]
              constructor
              · rintro ⟨hall, hb⟩
                exact ⟨⟨by omega, hall⟩, hb.imp id Or.inr⟩
              · rintro ⟨⟨-, hall⟩, hb⟩
                refine ⟨hall, hb.imp id fun h => h.resolve_left hle⟩

theorem mem_hostIds {n : Nat} {i : Fin maxHostNum} : i ∈ hostIds n ↔ i.val < n := by
  simp [hostIds]

/-- At least as large in every component, and larger in one. -/
theorem isAfterInterval_iff {n : Nat} {timestamp target : Timestamp} :
    isAfterInterval n timestamp target = true ↔
      (∀ i : Fin maxHostNum, i.val < n → target i ≤ timestamp i) ∧
        ∃ i : Fin maxHostNum, i.val < n ∧ target i < timestamp i := by
  rw [isAfterInterval, isAfterLoop_iff]
  simp only [mem_hostIds, Bool.false_eq_true, false_or]

theorem isAfterInterval_irrefl (n : Nat) (timestamp : Timestamp) :
    isAfterInterval n timestamp timestamp ≠ true := by
  intro h
  obtain ⟨-, i, -, hlt⟩ := isAfterInterval_iff.mp h
  omega

theorem isAfterInterval_trans {n : Nat} {t u v : Timestamp}
    (h : isAfterInterval n t u = true) (h' : isAfterInterval n u v = true) :
    isAfterInterval n t v = true := by
  obtain ⟨hall, -⟩ := isAfterInterval_iff.mp h
  obtain ⟨hall', i, hi, hlt⟩ := isAfterInterval_iff.mp h'
  refine isAfterInterval_iff.mpr ⟨fun j hj => (hall' j hj).trans (hall j hj), i, hi, ?_⟩
  have := hall i hi
  omega

/-! ## Steps, as they change the clocks -/

/-- The own timestamps of a host, newest first. -/
abbrev Sys.own (s : Sys) (x : Nat) : List (Timestamp × Bool) := (s.host x).mem.shape x

abbrev Sys.last (s : Sys) (x : Nat) : Timestamp := (s.host x).mem.last x

/-- The barrier timestamps on their way to client `x`. -/
abbrev Sys.due (s : Sys) (x : Nat) : List Timestamp := exitStamps (s.net 0 x)

/-- The reader and the timestamp of the `GRANT_WN_I` that the event delivers. -/
def grantRead (s : Sys) : Event → Option (Nat × Timestamp)
  | .op _ _ => none
  | .deliver a b =>
      match s.net a b with
      | .grantWnI ts _ _ :: _ => some (b, ts)
      | _ => none

/-- The manager releases with timestamp `ts`. -/
structure Sys.Restart (n : Nat) (s : Sys) (ts : Timestamp) (s' : Sys) : Prop where
  pos : 0 < n
  counts : ∀ i : Fin maxHostNum, i.val < n → ts i = s.last i.val i + 1
  due : ∀ x, 0 < x → x < n → s.due x = [] ∧ s'.due x = [cut n (-1) ts]
  self : s'.own 0 = (ts, true) :: s.own 0
  other : ∀ x, 0 < x → s'.own x = s.own x

inductive Tick (n : Nat) (s : Sys) (e : Event) (s' : Sys) : Prop
  | still : (∀ x, s'.own x = s.own x) → (∀ x, 0 < x → s'.due x = s.due x) → Tick n s e s'
  | fresh (a : Nat) : a < n → (0 < a → s.due a = []) →
      s'.own a = (bump a (cut n 0 (s.last a)), false) :: s.own a →
      (∀ x, x ≠ a → s'.own x = s.own x) →
      (∀ x, 0 < x → s'.due x = s.due x) → Tick n s e s'
  | granted (a c : Nat) (ts : Timestamp) (k : Nat) (packets : List WnPacket) : a < n →
      grantRead s e = some (a, ts) → .grantWnI ts k packets ∈ s.net c a →
      (0 < a → s.due a = []) → s'.own a = (bump a ts, false) :: s.own a →
      (∀ x, x ≠ a → s'.own x = s.own x) →
      (∀ x, 0 < x → s'.due x = s.due x) → Tick n s e s'
  | install (a : Nat) (ts : Timestamp) : 0 < a → a < n → s.due a = ts :: s'.due a →
      s'.own a = (ts, true) :: s.own a → (∀ x, x ≠ a → s'.own x = s.own x) →
      (∀ x, 0 < x → x ≠ a → s'.due x = s.due x) → Tick n s e s'
  | release (ts : Timestamp) : s.Restart n ts s' → Tick n s e s'

section

variable {n : Nat} {s s₀ s' : Sys} {g : Episodes} {e : Event} {x a : Nat} {r : Host × Out}

theorem Sys.Client.due (h : s.Client x) (hin : (s.host x).pc.inBarrier = false) :
    s.due x = [] := by
  rw [Sys.due, ← exitStamps_barrierMsgs, (h.outside hin).2.2]
  rfl

/-- Nothing is on its way to a client that has entered. -/
theorem Sys.Client.entered_due (h : s.Client x) (hent : s.entered x = true) :
    s.due x = [] := by
  unfold Sys.Client at h
  rw [Sys.entered, ← any_enter_barrierMsgs] at hent
  rw [Sys.due, ← exitStamps_barrierMsgs]
  generalize (s.host x).pc.inBarrier = inside at h
  generalize (s.host x).syn.waitFlag = asleep at h
  generalize (s.host 0).syn.barrierFlags x = flag at h hent
  generalize barrierMsgs (s.net x 0) = up at h hent
  generalize barrierMsgs (s.net 0 x) = down at h ⊢
  cases h <;> first | rfl | cases hent

theorem Tick.other (hs : Steady n s) (ha : a < n) (hhost : s₀.host = s.host)
    (hnet₀ : ∀ u v, barrierMsgs (s₀.net u v) = barrierMsgs (s.net u v))
    (hb : Bystander n s e a r) : Tick n s e (s₀.put a r) := by
  have hframe : BarrierFrame (s₀.host a) r := by rw [hhost]; exact hb.frame
  have hdue : ∀ x, 0 < x → (s₀.put a r).due x = s.due x := fun x _ => by
    rw [Sys.due, ← exitStamps_barrierMsgs, hframe.net, hnet₀, exitStamps_barrierMsgs]
  have hother : ∀ x, x ≠ a → (s₀.put a r).own x = s.own x := fun x hx => by
    rw [Sys.own, put_host_ne hx, hhost]
  have hself : (s₀.put a r).own a = r.1.mem.shape a := by rw [Sys.own, put_host_self]
  have hdue0 : (s.host a).pc.inBarrier = false → 0 < a → s.due a = [] :=
    fun hout h0 => (hs.control.barrier.client a h0 ha).due hout
  cases hb.own with
  | same hshape =>
      refine .still (fun x => ?_) hdue
      by_cases hx : x = a
      · rw [hx, hself, hshape]
      · exact hother x hx
  | fresh hout _ hshape =>
      rw [(hs.answered.sound.nowTop a ha).last] at hshape
      exact .fresh a ha (hdue0 hout) (hself.trans hshape) hother hdue
  | granted c ts k packets rest he hnet hout hshape =>
      refine .granted a c ts k packets ha ?_ ?_ (hdue0 hout) (hself.trans hshape) hother hdue
      · rw [he, grantRead, hnet]
      · rw [hnet]
        exact List.mem_cons_self

/-- Nothing is sent down, and nothing but packets is read. -/
theorem Tick.still_put (hhost : s₀.host = s.host)
    (hshape : r.1.mem.shape a = (s.host a).mem.shape a)
    (hnet : ∀ x, 0 < x → exitStamps ((s₀.put a r).net 0 x) = exitStamps (s.net 0 x)) :
    Tick n s e (s₀.put a r) :=
  .still (put_host_forall (P := fun x h => h.mem.shape x = (s.host x).mem.shape x) hshape
    fun x _ => by rw [hhost]) hnet

theorem Tick.exitInfo (hs : Steady n s) (h0 : 0 < x) (hx : x < n) {ts : Timestamp}
    {k : Nat} {packets : List WnPacket} {rest : List Msg}
    (hnet : s.net 0 x = .grantExitBarrierInfo ts k packets :: rest) :
    Tick n s e ((s.pop 0 x).put x ({ s.host x with
      mem := handleGrantExitBarrierMsg x ts k packets (s.host x).mem }, [])) := by
  obtain ⟨hshape, -⟩ := exitInfo_effect hs.answered.sound
    (show Msg.grantExitBarrierInfo ts k packets ∈ s.net 0 x by
      rw [hnet]; exact List.mem_cons_self)
  generalize handleGrantExitBarrierMsg x ts k packets (s.host x).mem = m' at hshape
  have hself : ((s.pop 0 x).put x ({ s.host x with mem := m' }, [])).own x = m'.shape x := by
    rw [Sys.own, put_host_self]
  have hother : ∀ y, y ≠ x → ((s.pop 0 x).put x ({ s.host x with mem := m' }, [])).own y =
      s.own y := fun y hy => by rw [Sys.own, put_host_ne hy]; rfl
  have hdue : ((s.pop 0 x).put x ({ s.host x with mem := m' }, [])).due x =
      exitStamps rest := by
    rw [Sys.due, put_net_ne (by omega), pop_net_self, hnet, List.tail_cons]
  have hdue' : ∀ y, 0 < y → y ≠ x →
      ((s.pop 0 x).put x ({ s.host x with mem := m' }, [])).due y = s.due y :=
    fun y _ hy => by rw [Sys.due, put_net_ne (by omega), pop_net_ne (by omega)]
  have hold : s.due x = (if ts 0 ≠ -1 then [ts] else []) ++ exitStamps rest := by
    rw [Sys.due, hnet, exitStamps, List.filterMap_cons]
    by_cases hts : ts 0 = -1 <;> simp [Msg.exitStamp, hts, exitStamps]
  by_cases hts : ts 0 = -1
  · rw [if_neg (not_not_intro hts), List.nil_append] at hshape hold
    refine .still (fun y => ?_) fun y hy0 => ?_
    · by_cases hy : y = x
      · rw [hy, hself, hshape]
      · exact hother y hy
    · by_cases hy : y = x
      · rw [hy, hdue, hold]
      · exact hdue' y hy0 hy
  · rw [if_pos hts] at hshape hold
    exact .install x ts h0 hx (by rw [hold, hdue]; rfl) (hself.trans hshape) hother hdue'

theorem Sys.Releases.restart (hs : Steady n s) (hst : Stamps n s) (h : s.Releases n s') :
    ∃ ts, s.Restart n ts s' := by
  have hold : ∀ x, 0 < x → x < n → s.due x = [] := by
    intro x h0 hx
    exact (hs.control.barrier.client x h0 hx).entered_due (h.entered h0 hx).1
  cases h with
  | @intro s₀ h₀ r hn hr _ _ hmem hout _ =>
      refine ⟨barrierTimestamp n h₀.mem, hn, fun i hi => hr.timestamp hi,
        fun x h0 hx => ⟨hold x h0 hx, ?_⟩, ?_, fun x h0 => by
          rw [Sys.own, put_host_ne (by omega), hr.host]⟩
      · have hd := hold x h0 hx
        rw [Sys.due] at hd
        rw [Sys.due, put_net_self, hr.down, exitStamps, List.filterMap_append, hout,
          ← exitStamps, ← exitStamps, hd, exitStamps_release h₀ h0 hx
            (((hst.release_nonNeg hr).cut (-1)).proper hn), List.nil_append]
      · rw [Sys.own, put_host_self, hmem, Sys.own, ← hr.shape]
        exact pushNow_shape_self 0 ⟨barrierTimestamp n h₀.mem, [], true⟩ h₀.mem

theorem Steady.tick (hs : Steady n s) (hst : Stamps n s)
    (he : Midsm.step n s e = some s') : Tick n s e s' := by
  cases hs.turn he with
  | other ha _ _ hhost _ hnet hb => exact .other hs ha hhost hnet hb
  | enter h0 _ _ =>
      exact .still_put rfl rfl fun y _ => by rw [put_net_ne (by omega)]
  | note hn _ =>
      refine .still_put rfl rfl fun y _ => ?_
      rw [put_net_self, outTo_nil, List.append_nil]
  | releaseCall hn _ hall =>
      obtain ⟨ts, hr⟩ := (hst.releases_call hs hn hall).restart hs hst
      exact .release ts hr
  | @leave x hx hpc _ =>
      refine .still_put rfl rfl fun y _ => ?_
      by_cases hx0 : x = 0
      · rw [hx0, put_net_self, outTo_nil, List.append_nil]
      · rw [put_net_ne (by omega)]
  | enterInfo h0 hx hnet =>
      obtain ⟨hshape, -⟩ := enterInfo_effect hs.answered.sound
        (by rw [hnet]; exact List.mem_cons_self)
      refine .still_put rfl hshape fun y _ => ?_
      rw [put_net_self, outTo_nil, List.append_nil, pop_net_ne (by omega)]
  | exitInfo h0 hx hnet => exact .exitInfo hs h0 hx hnet
  | flag h0 hx hnet =>
      refine .still_put rfl rfl fun y _ => ?_
      rw [put_net_self, outTo_nil, List.append_nil, pop_net_ne (by omega)]
  | release h0 hx hnet hall =>
      obtain ⟨ts, hr⟩ := (hst.releases_read hs h0 hx hnet hall).restart hs hst
      exact .release ts hr
  | @wake x rest h0 hx hnet =>
      refine .still_put rfl rfl fun y hy0 => ?_
      rw [put_net_ne (by omega)]
      by_cases hyx : y = x
      · rw [hyx, pop_net_self, hnet]
        rfl
      · rw [pop_net_ne (by omega)]

/-! ## What a grant says -/

/-- A granter sends the timestamp of its newest interval. -/
theorem Steady.grants (hs : Steady n s) (he : Midsm.step n s e = some s') {u v k : Nat}
    {ts : Timestamp} {packets : List WnPacket}
    (hm : .grantWnI ts k packets ∈ s'.net u v) :
    .grantWnI ts k packets ∈ s.net u v ∨ ∃ a < n, ts = s.last a := by
  have hquiet : ∀ {s₀ : Sys} {a : Nat} {r : Host × Out},
      (∀ {u v msg}, msg ∈ s₀.net u v → msg ∈ s.net u v) →
      (∀ y ∈ r.2, y.2.cls ≠ .data) → .grantWnI ts k packets ∈ (s₀.put a r).net u v →
      .grantWnI ts k packets ∈ s.net u v := by
    intro s₀ a r hsub hout hm
    rcases mem_put_net hm with hm | ⟨-, ho⟩
    · exact hsub hm
    · exact absurd rfl (hout _ ho)
  cases hs.turn he with
  | @other _ _ a _ ha _ _ _ hsub _ hb =>
      rcases mem_put_net hm with hm | ⟨-, ho⟩
      · exact Or.inl (hsub hm)
      · refine Or.inr ⟨a, ha, ?_⟩
        rw [hb.grants ho, (hs.answered.sound.nowTop a ha).last]
  | @enter x => exact Or.inl (hquiet id (by exact enter_cls n x _) hm)
  | note => exact Or.inl (hquiet id (by exact fun _ ho => nomatch ho) hm)
  | releaseCall => exact Or.inl (hquiet id (by exact release_not_data n _) hm)
  | leave => exact Or.inl (hquiet id (by exact fun _ ho => nomatch ho) hm)
  | release => exact Or.inl (hquiet mem_of_mem_pop (by exact release_not_data n _) hm)
  | _ => exact Or.inl (hquiet mem_of_mem_pop (by exact fun _ ho => nomatch ho) hm)

/-! ## No host is ahead of another's own count -/

/-- The newest timestamp that host `x` has, or will have when it has read what is
on its way. -/
def Sys.newest (s : Sys) (x : Nat) : Timestamp :=
  if x = 0 then s.last 0 else (s.due x).headD (s.last x)

/-- Every host has counted as far as the timestamp says. -/
def Sys.Counted (s : Sys) (n : Nat) (ts : Timestamp) : Prop :=
  ∀ i : Fin maxHostNum, i.val < n → ts i ≤ s.newest i.val i

/-- A granter's vector that is read has caught up with the reader's own count. -/
def CountKept (s : Sys) (e : Event) : Prop :=
  ∀ x ∈ grantRead s e, ∀ i : Fin maxHostNum, i.val = x.1 →
    ((s.host x.1).mem.now x.1).timestamp i ≤ x.2 i + 1

structure Clocks (n : Nat) (s : Sys) : Prop where
  own : ∀ x < n, ∀ y ∈ s.own x, s.Counted n y.1
  granted : ∀ {a b ts k packets}, .grantWnI ts k packets ∈ s.net a b → s.Counted n ts
  due : ∀ x, 0 < x → x < n → s.due x = [] ∨ ∃ ts, s.due x = [ts] ∧ s.Counted n ts ∧
    ∀ i : Fin maxHostNum, i.val < n → s.last x i < ts i

theorem Clocks.init (n : Nat) : Clocks n initSys where
  own x _ y hy := by
    simp only [Sys.own, initSys, initmem, Mem.shape, upd_self, List.map_cons, List.map_nil,
      List.mem_singleton] at hy
    subst hy
    intro i _
    unfold Sys.newest
    split
    · next h0 => exact Int.le_refl _
    · simp [Sys.last, Sys.due, initSys, initmem, Mem.last, Mem.shape, exitStamps]
  granted h := by cases h
  due _ _ _ := Or.inl rfl

theorem Sys.newest_of_due (h : 0 < x → s.due x = []) : s.newest x = s.last x := by
  unfold Sys.newest
  split
  · next h0 => rw [h0]
  · rw [h (by omega)]
    rfl

theorem Sys.last_cons {ts : Timestamp} {isBarrier : Bool} {rest : List (Timestamp × Bool)}
    (h : s.own x = (ts, isBarrier) :: rest) : s.last x = ts := by
  show ((s.own x).headD _).1 = ts
  rw [h]
  rfl

theorem Sys.last_congr (h : s'.own x = s.own x) : s'.last x = s.last x := by
  show ((s'.own x).headD _).1 = ((s.own x).headD _).1
  rw [h]

theorem Sys.newest_congr (h : s'.own x = s.own x) (hd : 0 < x → s'.due x = s.due x) :
    s'.newest x = s.newest x := by
  unfold Sys.newest
  split
  · next h0 => rw [h0] at h; rw [Sys.last_congr h]
  · rw [hd (by omega), Sys.last_congr h]

theorem bump_self {me : Nat} {ts : Timestamp} {i : Fin maxHostNum} (h : i.val = me) :
    bump me ts i = ts i + 1 := if_pos h

theorem bump_ne {me : Nat} {ts : Timestamp} {i : Fin maxHostNum} (h : i.val ≠ me) :
    bump me ts i = ts i := if_neg h

/-- A release sets every count. -/
theorem Sys.Restart.newest {ts : Timestamp} (hr : s.Restart n ts s') {i : Fin maxHostNum}
    (hi : i.val < n) : s'.newest i.val i = ts i := by
  unfold Sys.newest
  split
  · rw [Sys.last_cons hr.self]
  · rw [(hr.due _ (by omega) hi).2, List.headD_cons, cut_apply hi]

/-- Nothing is on its way at a release, so what is counted is below it. -/
theorem Sys.Restart.lt {ts ts' : Timestamp} (hr : s.Restart n ts s')
    (hc : s.Counted n ts') {i : Fin maxHostNum} (hi : i.val < n) : ts' i < ts i := by
  have hle := hc i hi
  rw [Sys.newest_of_due fun h0 => (hr.due _ h0 hi).1] at hle
  rw [hr.counts i hi]
  omega

/-- The head of an own list is on it. -/
theorem Steady.last_mem (hs : Steady n s) (hx : x < n) :
    ∃ y ∈ s.own x, y.1 = s.last x := by
  obtain ⟨rest, hr⟩ := (hs.answered.sound.nowTop x hx).shape
  refine ⟨_, (?_ : (_, ((s.host x).mem.now x).isBarrier) ∈ s.own x),
    (Sys.last_cons hr).symm⟩
  show _ ∈ (s.host x).mem.shape x
  rw [hr]
  exact List.mem_cons_self

theorem Clocks.last (hs : Steady n s) (h : Clocks n s) (hx : x < n) :
    s.Counted n (s.last x) := by
  obtain ⟨y, hy, he⟩ := hs.last_mem hx
  rw [← he]
  exact h.own x hx y hy

/-- No host's count falls. -/
theorem Clocks.count_mono (hs : Steady n s) (h : Clocks n s) (hok : CountKept s e)
    (ht : Tick n s e s') {i : Fin maxHostNum} (hi : i.val < n) :
    s.newest i.val i ≤ s'.newest i.val i := by
  have hsame : ∀ {x : Nat}, s'.own x = s.own x → (0 < x → s'.due x = s.due x) →
      s.newest x i ≤ s'.newest x i := fun ho hd => by rw [Sys.newest_congr ho hd]
  cases ht with
  | still hown hdue => exact hsame (hown _) (hdue _)
  | fresh a ha hd hself hown hdue =>
      by_cases hx : i.val = a
      · rw [hx, Sys.newest_of_due hd,
          Sys.newest_of_due fun h0 => (hdue a h0).trans (hd h0), Sys.last_cons hself,
          bump_self hx, cut_apply hi]
        omega
      · exact hsame (hown _ hx) (hdue _)
  | granted a c ts k packets ha hread hm hd hself hown hdue =>
      by_cases hx : i.val = a
      · have hkept := hok (a, ts) hread i hx
        rw [(hs.answered.sound.nowTop a ha).last] at hkept
        rw [hx, Sys.newest_of_due hd,
          Sys.newest_of_due fun h0 => (hdue a h0).trans (hd h0), Sys.last_cons hself,
          bump_self hx]
        exact hkept
      · exact hsame (hown _ hx) (hdue _)
  | install a ts h0 ha hd hself hown hdue =>
      by_cases hx : i.val = a
      · -- what was on its way is now the newest
        obtain hnil | ⟨ts', hone, -⟩ := h.due a h0 ha
        · rw [hd] at hnil
          cases hnil
        · rw [hd, List.cons.injEq] at hone
          obtain ⟨rfl, hnil⟩ := hone
          rw [hx, Sys.newest_of_due fun _ => hnil, Sys.last_cons hself, Sys.newest,
            if_neg (by omega), hd]
          exact Int.le_refl _
      · exact hsame (hown _ hx) fun h0 => hdue _ h0 hx
  | release ts hr =>
      rw [hr.newest hi, hr.counts i hi,
        Sys.newest_of_due fun h0 => (hr.due _ h0 hi).1]
      omega

theorem Sys.Counted.mono {ts : Timestamp} (h : s.Counted n ts)
    (hle : ∀ i : Fin maxHostNum, i.val < n → s.newest i.val i ≤ s'.newest i.val i) :
    s'.Counted n ts := fun i hi => (h i hi).trans (hle i hi)

/-- A host that takes on known components and counts its own. -/
theorem Sys.Counted.bump {ts : Timestamp} {isBarrier : Bool}
    {rest : List (Timestamp × Bool)} (h : s'.Counted n ts)
    (hd : 0 < a → s'.due a = []) (hself : s'.own a = (bump a ts, isBarrier) :: rest) :
    s'.Counted n (bump a ts) := by
  intro i hi
  by_cases hx : i.val = a
  · rw [hx, Sys.newest_of_due hd, Sys.last_cons hself]
  · rw [bump_ne hx]
    exact h i hi

theorem Clocks.step (hs : Steady n s) (hst : Stamps n s) (h : Clocks n s)
    (hok : CountKept s e) (he : Midsm.step n s e = some s') : Clocks n s' := by
  have ht := hs.tick hst he
  have hle := fun i hi => h.count_mono hs hok ht (i := i) hi
  have hgranted : ∀ {u v ts k packets}, .grantWnI ts k packets ∈ s'.net u v →
      s'.Counted n ts := by
    intro u v ts k packets hm
    rcases hs.grants he hm with hm | ⟨a, ha, rfl⟩
    · exact (h.granted hm).mono hle
    · exact (h.last hs ha).mono hle
  have hold : ∀ x < n, ∀ y ∈ s.own x, s'.Counted n y.1 :=
    fun x hx y hy => (h.own x hx y hy).mono hle
  -- a host gets one more interval, and its timestamp is counted
  have hgrow : ∀ {a : Nat} {y : Timestamp × Bool}, s'.own a = y :: s.own a →
      s'.Counted n y.1 → (∀ x, x ≠ a → s'.own x = s.own x) →
      ∀ x < n, ∀ z ∈ s'.own x, s'.Counted n z.1 := by
    intro a y hself hy hother x hx z hz
    by_cases hxa : x = a
    · rw [hxa, hself] at hz
      rcases List.mem_cons.mp hz with rfl | hz
      · exact hy
      · exact hold a (hxa ▸ hx) z hz
    · rw [hother x hxa] at hz
      exact hold x hx z hz
  have hkeep : ∀ x, 0 < x → x < n → s'.own x = s.own x → s'.due x = s.due x →
      s'.due x = [] ∨ ∃ ts, s'.due x = [ts] ∧ s'.Counted n ts ∧
        ∀ i : Fin maxHostNum, i.val < n → s'.last x i < ts i := by
    intro x h0 hx ho hd
    rw [hd, Sys.last_congr ho]
    exact (h.due x h0 hx).imp id fun ⟨ts, hone, hc, hlt⟩ => ⟨ts, hone, hc.mono hle, hlt⟩
  cases ht with
  | still hown hdue =>
      refine ⟨fun x hx y hy => hold x hx y (hown x ▸ hy), hgranted, fun x h0 hx => ?_⟩
      exact hkeep x h0 hx (hown x) (hdue x h0)
  | fresh a ha hd hself hown hdue =>
      have hd' : 0 < a → s'.due a = [] := fun h0 => (hdue a h0).trans (hd h0)
      refine ⟨hgrow hself ?_ hown, hgranted, fun x h0 hx => ?_⟩
      · refine Sys.Counted.bump (fun i hi => ?_) hd' hself
        rw [cut_apply hi]
        exact (h.last hs ha).mono hle i hi
      · by_cases hxa : x = a
        · exact Or.inl (hxa ▸ hd' (hxa ▸ h0))
        · exact hkeep x h0 hx (hown x hxa) (hdue x h0)
  | granted a c ts k packets ha hread hm hd hself hown hdue =>
      have hd' : 0 < a → s'.due a = [] := fun h0 => (hdue a h0).trans (hd h0)
      refine ⟨hgrow hself ?_ hown, hgranted, fun x h0 hx => ?_⟩
      · exact ((h.granted hm).mono hle).bump hd' hself
      · by_cases hxa : x = a
        · exact Or.inl (hxa ▸ hd' (hxa ▸ h0))
        · exact hkeep x h0 hx (hown x hxa) (hdue x h0)
  | install a ts ha0 ha hd hself hown hdue =>
      obtain hnil | ⟨ts', hone, hc, -⟩ := h.due a ha0 ha
      · rw [hd] at hnil
        cases hnil
      · rw [hd, List.cons.injEq] at hone
        obtain ⟨rfl, hnil⟩ := hone
        refine ⟨hgrow hself (hc.mono hle) hown, hgranted, fun x h0 hx => ?_⟩
        by_cases hxa : x = a
        · exact Or.inl (hxa ▸ hnil)
        · exact hkeep x h0 hx (hown x hxa) (hdue x h0 hxa)
  | release ts hr =>
      have hnew : s'.Counted n ts := fun i hi => (hr.newest hi).ge
      refine ⟨hgrow hr.self hnew fun x hx => hr.other x (by omega), hgranted,
        fun x h0 hx => ?_⟩
      refine Or.inr ⟨_, (hr.due x h0 hx).2, fun i hi => ?_, fun i hi => ?_⟩
      · rw [cut_apply hi]
        exact hnew i hi
      · rw [cut_apply hi, Sys.last_congr (hr.other x h0)]
        exact hr.lt (h.last hs hx) hi

/-- The timestamp of every recorded interval is counted. -/
theorem Clocks.known (hs : Steady n s) (h : Clocks n s) (hx : x < n) {j : Nat}
    {ts : Timestamp} (hk : (s.host x).mem.Known j ts) : s.Counted n ts := by
  obtain ⟨hj, interval, hm, rfl⟩ := hs.answered.sound.known x hx hk
  exact h.own j hj interval.shape (List.mem_map_of_mem hm)

/-! ## What the manager enters with -/

/-- While the manager waits for its clients its timestamp stays. -/
theorem Turn.manager_last (hs : Steady n s) (hst : Stamps n s) (ht : Turn n s e s')
    (hflag : (s.host 0).syn.barrierFlags 0 = true) :
    s.Releases n s' ∨ s'.last 0 = s.last 0 := by
  have hin := hs.control.barrier.manager_waits hflag
  have hrun : (s.host 0).pc ≠ .run := fun hpc => by rw [hpc] at hin; cases hin
  cases ht with
  | other _ _ _ hhost _ _ hb =>
      exact Or.inr (put_host_forall (P := fun x h => (s.host x).pc.inBarrier = true →
        h.mem.last x = (s.host x).mem.last x) hb.own.last
        (fun x _ _ => by rw [hhost]) 0 hin)
  | note _ hpc => exact absurd hpc hrun
  | releaseCall _ hpc => exact absurd hpc hrun
  | leave =>
      exact Or.inr (put_host_forall (P := fun x h => h.mem.last x = (s.host x).mem.last x)
        rfl (fun _ _ => rfl) 0)
  | enterInfo _ _ hnet =>
      obtain ⟨hshape, -⟩ := enterInfo_effect hs.answered.sound
        (by rw [hnet]; exact List.mem_cons_self)
      refine Or.inr (Sys.last_congr ?_)
      rw [Sys.own, put_host_self]
      exact hshape
  | flag => exact Or.inr (by rw [Sys.last, put_host_self]; rfl)
  | release h0 hx hnet hall => exact Or.inl (hst.releases_read hs h0 hx hnet hall)
  | enter => exact Or.inr (by rw [Sys.last, put_host_ne (by omega)])
  | exitInfo => exact Or.inr (by rw [Sys.last, put_host_ne (by omega)]; rfl)
  | wake => exact Or.inr (by rw [Sys.last, put_host_ne (by omega)]; rfl)

/-- The manager sleeps in an episode with the timestamp it called with. -/
def ManagerStamp (s : Sys) (g : Episodes) : Prop :=
  (s.host 0).syn.barrierFlags 0 = true → ∀ m, (g.entries 0)[s.released]? = some m →
    (m.now 0).timestamp = s.last 0

theorem ManagerStamp.step (hn : 0 < n) (hist : EpisodeHist n s g) (h : ManagerStamp s g)
    (he : Midsm.step n s e = some s') : ManagerStamp s' (noteBarrier g s e s') := by
  intro hflag m hm
  have hs := hist.steady
  have hturn := hs.turn he
  rcases hist.released he with hrel | hr
  · rw [hrel] at hm
    rcases noteBarrier_entries hm with hm | ⟨rfl, -, rfl⟩
    · -- the call is past, and its flag has been up since
      have hold : (s.host 0).syn.barrierFlags 0 = true := by
        by_contra hno
        have hc := hist.episodes.manager
        rw [if_neg hno] at hc
        have := (List.getElem?_eq_some_iff.mp hm).1
        exact absurd this (by rw [← Episodes.calls]; omega)
      rcases hturn.manager_last hs hist.stamps hold with hr | hlast
      · have := hist.episodes.releases hr
        omega
      · rw [hlast]
        exact h hold m hm
    · rw [(hs.answered.sound.nowTop 0 hn).last]
      cases hturn with
      | other _ hcall => exact absurd rfl (hcall 0)
      | enter h0 => cases h0
      | note => rw [Sys.last, put_host_self]; rfl
      | releaseCall hn hpc hall =>
          have := hist.episodes.releases (hist.stamps.releases_call hs hn hall)
          omega
  · cases hr with
    | intro _ _ _ _ _ _ hflags =>
        rw [put_host_self, hflags 0 hn] at hflag
        cases hflag

/-- The timestamps that the hosts entered the episode with that is released now. -/
theorem EpisodeHist.entry (hist : EpisodeHist n s g) (hd : Delivered n s g)
    (hms : ManagerStamp s g) (he : Midsm.step n s e = some s') (hr : s.Releases n s')
    (hx : x < n) : ∃ m, ((noteBarrier g s e s').entries x)[s.released]? = some m ∧
      (m.now x).timestamp = s.last x := by
  have hle := (hist.step he).le_calls hx
  rw [hist.episodes.releases hr, Nat.succ_le_iff] at hle
  refine ⟨_, List.getElem?_eq_getElem hle, ?_⟩
  generalize hm : ((noteBarrier g s e s').entries x)[s.released] = m
  have hget : ((noteBarrier g s e s').entries x)[s.released]? = some m := by
    rw [← hm]
    exact List.getElem?_eq_getElem hle
  rcases noteBarrier_entries hget with hget | ⟨-, -, rfl⟩
  · by_cases h0 : x = 0
    · subst h0
      refine hms ?_ m hget
      by_contra hno
      have hc := hist.episodes.manager
      rw [if_neg hno] at hc
      have := (List.getElem?_eq_some_iff.mp hget).1
      exact absurd this (by rw [← Episodes.calls]; omega)
    · exact hd.stamp x (by omega) hx (hr.entered (by omega) hx).1 hget
  · exact (hist.steady.answered.sound.nowTop x hx).last

/-! ## The barrier's timestamp -/

structure ClockHist (n : Nat) (s : Sys) (g : Episodes) : Prop where
  hist : EpisodeHist n s g
  delivered : Delivered n s g
  manager : 0 < n → ManagerStamp s g
  clocks : Clocks n s

theorem clocks_of_reach (h : Reach (withGhost (Midsm.step n) noteBarrier)
    (fun t e => CountKept t.1 e) (initSys, noEpisodes) (s, g)) : ClockHist n s g :=
  h.invariant (P := fun t => ClockHist n t.1 t.2)
    ⟨EpisodeHist.init n, Delivered.init n, fun _ _ _ hm => (nomatch hm), Clocks.init n⟩
    fun ht hok hs => by
      obtain ⟨he, hg⟩ := withGhost_eq_some.mp hs
      rw [hg]
      exact ⟨ht.hist.step he, ht.delivered.step ht.hist he,
        fun hn => (ht.manager hn).step hn ht.hist he,
        ht.clocks.step ht.hist.steady ht.hist.stamps hok he⟩

/-- When every granter's vector that was read had caught up with the reader's own
count, a release makes a timestamp that is larger in each component than the one
any host entered the episode with, and after every recorded one. -/
theorem barrier_time_dominates (n : Nat) {s s' : Sys} {g : Episodes} {e : Event}
    (h : Reach (withGhost (Midsm.step n) noteBarrier) (fun t e => CountKept t.1 e)
      (initSys, noEpisodes) (s, g)) (he : Midsm.step n s e = some s')
    (hrel : s'.released = s.released + 1) :
    ∃ ts, (s'.host 0).mem.barriers 0 = ts :: (s.host 0).mem.barriers 0 ∧
      (∀ x < n, ∃ m, ((noteBarrier g s e s').entries x)[s.released]? = some m ∧
        (∀ i : Fin maxHostNum, i.val = x → ts i = (m.now x).timestamp i + 1) ∧
        ∀ i : Fin maxHostNum, i.val < n → (m.now x).timestamp i < ts i) ∧
      ∀ x < n, ∀ j ts', (s.host x).mem.Known j ts' → isAfterInterval n ts ts' = true := by
  have hc := clocks_of_reach h
  have hs := hc.hist.steady
  obtain hsame | hr := hc.hist.released he
  · omega
  obtain ⟨ts, hrs⟩ := hr.restart hs hc.hist.stamps
  refine ⟨ts, ?_, fun x hx => ?_, fun x hx j ts' hk => ?_⟩
  · have hcons : (s'.host 0).mem.shape 0 = (ts, true) :: (s.host 0).mem.shape 0 := hrs.self
    unfold Mem.barriers
    rw [hcons]
    rfl
  · obtain ⟨m, hm, hlast⟩ := hc.hist.entry hc.delivered (hc.manager hrs.pos) he hr hx
    refine ⟨m, hm, fun i hi => ?_, fun i hi => ?_⟩
    · subst hi
      rw [hlast, hrs.counts i hx]
    · rw [hlast]
      exact hrs.lt (hc.clocks.last hs hx) hi
  · have hall := fun i hi => hrs.lt (hc.clocks.known hs hx hk) (i := i) hi
    exact isAfterInterval_iff.mpr ⟨fun i hi => (hall i hi).le, 0, hrs.pos, hall 0 hrs.pos⟩

/-- Host 0 uses lock 0, then host 1 does and learns of it. -/
def handOver : List Event :=
  [.op 0 (.lock 0), .op 0 (.unlock 0), .op 1 (.lock 0), .deliver 1 0, .deliver 0 1,
    .op 1 .resume, .deliver 1 0, .deliver 0 1, .op 1 .resume, .op 1 (.unlock 0),
    .deliver 1 0]

instance (s : Sys) (e : Event) : Decidable (CountKept s e) :=
  inferInstanceAs (Decidable (∀ x ∈ grantRead s e, _))

/-- Both hosts enter after a lock has changed hands. -/
theorem barrier_time_dominates_two :
    ∃ (s' : Sys) (ts : Timestamp), (s'.host 0).mem.barriers 0 = [ts, vector []] ∧
      isAfterInterval 2 ts (vector [2, 2]) = true := by
  obtain ⟨⟨s, g⟩, hrun, hp⟩ := exists_reach (withGhost (Midsm.step 2) noteBarrier)
    (fun t e => decide (CountKept t.1 e)) (fun _ _ => of_decide_eq_true)
    (initSys, noEpisodes) (handOver ++ [.op 1 .barrier, .deliver 1 0, .deliver 1 0])
    (fun t => (Midsm.step 2 t.1 (.op 0 .barrier)).any (fun u =>
        decide (u.released = t.1.released + 1)) &&
      decide ((t.1.host 0).mem.barriers 0 = [vector []]) &&
      ((t.1.host 1).mem.procArray 1).any fun interval =>
        decide (interval.timestamp = vector [2, 2]))
    (by decide +kernel)
  simp only [Bool.and_eq_true, decide_eq_true_eq] at hp
  obtain ⟨⟨hstep, hold⟩, hk⟩ := hp
  obtain ⟨s', he, hrel⟩ := (Option.any_eq_true ..).mp hstep
  obtain ⟨interval, hm, hts⟩ := List.any_eq_true.mp hk
  obtain ⟨ts, hb, -, hafter⟩ := barrier_time_dominates 2 hrun he (of_decide_eq_true hrel)
  exact ⟨s', ts, by rw [hb, hold], hafter 1 (by decide) 1 _
    ⟨interval, hm, of_decide_eq_true hts⟩⟩

/-- Two hosts ask each other at once. Host 1 has counted four intervals of its
own and tells host 0 so; the answer it gets is older and takes it back to one. -/
theorem barrier_time_behind :
    ∃ s g ts m, Reach (withGhost (Midsm.step 2) noteBarrier) anyStep
      (initSys, noEpisodes) (s, g) ∧ (s.host 0).mem.barriers 0 = [ts, vector []] ∧
      (g.entries 0)[0]? = some m ∧ ts 1 = 2 ∧ (m.now 0).timestamp 1 = 4 := by
  obtain ⟨⟨s, g⟩, hrun, hp⟩ := exists_reach_any (withGhost (Midsm.step 2) noteBarrier)
    (initSys, noEpisodes)
    [.op 1 (.lock 1), .op 1 (.unlock 1), .op 1 (.lock 1), .op 1 (.unlock 1),
      .op 0 (.lock 0), .op 0 (.unlock 0), .op 0 (.lock 1), .op 1 (.lock 0),
      .deliver 0 1, .deliver 1 0, .deliver 1 0, .deliver 0 1, .op 0 .resume,
      .op 1 .resume, .deliver 0 1, .deliver 1 0, .deliver 1 0, .deliver 0 1,
      .op 0 .resume, .op 1 .resume, .op 1 .barrier, .deliver 1 0, .deliver 1 0,
      .op 0 .barrier]
    (fun t => (t.2.entries 0)[0]?.any (fun m : Mem => decide ((m.now 0).timestamp 1 = 4)) &&
      decide ((t.1.host 0).mem.barriers 0 = [vector [2, 2], vector []]))
    (by decide +kernel)
  simp only [Bool.and_eq_true, decide_eq_true_eq] at hp
  obtain ⟨m, hm, hfour⟩ := (Option.any_eq_true ..).mp hp.1
  exact ⟨s, g, _, m, hrun, hp.2, hm, by decide, of_decide_eq_true hfour⟩

end

end Midsm
