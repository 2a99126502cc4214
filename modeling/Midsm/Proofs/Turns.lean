import Midsm.Proofs.Awaited
import Midsm.Proofs.Protocol

/-!
# A step, seen from the barrier

The barrier invariants speak of stages, of the timestamps that travel with the
barrier messages, and of the lists of own intervals. `Turn` sorts the steps of a
system by what they mean for these: one constructor for each thing a barrier
does, and one for everything else. In everything else a host gets at most one
new interval, which is no barrier interval, and only while it is outside.
-/

namespace Midsm

/-- Control and memory together. -/
structure Steady (n : Nat) (s : Sys) : Prop where
  control : Control n s
  awaited : Awaited n s

theorem Steady.answered {n : Nat} {s : Sys} (h : Steady n s) : Answered n s :=
  h.awaited.answered

/-- What a host has not told the manager is kept, and what is new is untold. -/
structure Mem.Keeps (me : Nat) (m m' : Mem) : Prop where
  unsent : ∀ {ts p}, m.Unsent me ts p → m'.Unsent me ts p
  listed : ∀ {ts p}, m'.Listed me ts p → m.Listed me ts p ∨ m'.Unsent me ts p

/-- How a step that is not about the barrier changes the own list of host `a`. -/
inductive OwnCase (n : Nat) (s : Sys) (e : Event) (a : Nat) (m' : Mem) : Prop
  | same : m'.shape a = (s.host a).mem.shape a → OwnCase n s e a m'
  | fresh : (s.host a).pc.inBarrier = false → (s.host a).pc.fetches = false →
      m'.shape a = (bump a (cut n 0 ((s.host a).mem.now a).timestamp), false) ::
        (s.host a).mem.shape a → OwnCase n s e a m'
  | granted (c : Nat) (ts : Timestamp) (k : Nat) (packets : List WnPacket)
      (rest : List Msg) : e = .deliver c a →
      s.net c a = .grantWnI ts k packets :: rest → (s.host a).pc.inBarrier = false →
      m'.shape a = (bump a ts, false) :: (s.host a).mem.shape a → OwnCase n s e a m'

/-- A step of host `a` that is not about the barrier. -/
structure Bystander (n : Nat) (s : Sys) (e : Event) (a : Nat) (r : Host × Out) : Prop where
  frame : BarrierFrame (s.host a) r
  stamps : r.1.mem.barrierTimestamps = (s.host a).mem.barrierTimestamps
  own : OwnCase n s e a r.1.mem
  keeps : (s.host a).mem.Keeps a r.1.mem
  inside : (s.host a).pc.inBarrier = true →
    ∀ ts p, r.1.mem.Listed a ts p → (s.host a).mem.Listed a ts p
  grants : ∀ {b ts k packets}, (b, .grantWnI ts k packets) ∈ r.2 →
    ts = ((s.host a).mem.now a).timestamp

/-- The manager with the flag of `x` up. -/
def Host.flagged (x : Nat) (h : Host) : Host :=
  { h with syn := { h.syn with barrierFlags := upd h.syn.barrierFlags x true } }

/-- Asleep in the barrier. -/
def Host.parked (h : Host) : Host :=
  { h with syn := { h.syn with waitFlag := true }, pc := .barrierWait }

inductive Turn (n : Nat) (s : Sys) : Event → Sys → Prop
  | other {e : Event} {s₀ : Sys} {a : Nat} {r : Host × Out} : a < n →
      (∀ x, e ≠ .op x .barrier) →
      (∀ x, e = .op x .resume → (s.host x).pc.inBarrier = false) →
      s₀.host = s.host → (∀ {u v msg}, msg ∈ s₀.net u v → msg ∈ s.net u v) →
      (∀ u v, barrierMsgs (s₀.net u v) = barrierMsgs (s.net u v)) →
      Bystander n s e a r → Turn n s e (s₀.put a r)
  | enter {x : Nat} : 0 < x → x < n → (s.host x).pc = .run →
      Turn n s (.op x .barrier) (s.put x ((s.host x).parked,
        sendEnterBarrierInfo n x (s.host x).mem ++ [(0, .enterBarrier)]))
  | note : 0 < n → (s.host 0).pc = .run →
      Turn n s (.op 0 .barrier) (s.put 0 (((s.host 0).stamped n).parked, []))
  | releaseCall : 0 < n → (s.host 0).pc = .run →
      (∀ x, 0 < x → x < n → (s.host 0).syn.barrierFlags x = true) →
      Turn n s (.op 0 .barrier) (s.put 0
        ({ (((s.host 0).stamped n).release n).1 with ret := none },
          (((s.host 0).stamped n).release n).2))
  | leave {x : Nat} : x < n → (s.host x).pc = .barrierWait →
      (s.host x).syn.waitFlag = false →
      Turn n s (.op x .resume) (s.put x ({ s.host x with pc := .run, ret := none }, []))
  | enterInfo {x : Nat} {ts : Timestamp} {k : Nat} {packets : List WnPacket}
      {rest : List Msg} : 0 < x → x < n →
      s.net x 0 = .grantEnterBarrierInfo ts k packets :: rest →
      Turn n s (.deliver x 0) ((s.pop x 0).put 0 ({ s.host 0 with
        mem := handleGrantEnterBarrierMsg 0 x ts k packets (s.host 0).mem }, []))
  | exitInfo {x : Nat} {ts : Timestamp} {k : Nat} {packets : List WnPacket}
      {rest : List Msg} : 0 < x → x < n →
      s.net 0 x = .grantExitBarrierInfo ts k packets :: rest →
      Turn n s (.deliver 0 x) ((s.pop 0 x).put x ({ s.host x with
        mem := handleGrantExitBarrierMsg x ts k packets (s.host x).mem }, []))
  | flag {x : Nat} {rest : List Msg} : 0 < x → x < n →
      s.net x 0 = .enterBarrier :: rest →
      Turn n s (.deliver x 0) ((s.pop x 0).put 0 ((s.host 0).flagged x, []))
  | release {x : Nat} {rest : List Msg} : 0 < x → x < n →
      s.net x 0 = .enterBarrier :: rest →
      (∀ y < n, ((s.host 0).flagged x).syn.barrierFlags y = true) →
      Turn n s (.deliver x 0) ((s.pop x 0).put 0
        ({ (((s.host 0).flagged x).release n).1 with
          syn := { (((s.host 0).flagged x).release n).1.syn with waitFlag := false } },
          (((s.host 0).flagged x).release n).2))
  | wake {x : Nat} {rest : List Msg} : 0 < x → x < n →
      s.net 0 x = .exitBarrier :: rest →
      Turn n s (.deliver 0 x) ((s.pop 0 x).put x ({ s.host x with
        syn := { (s.host x).syn with waitFlag := false } }, []))

/-! ## Own lists -/

section

variable {me : Nat} {m m' m'' : Mem} {packets : List WnPacket}

theorem Mem.Keeps.of_list (h : m'.procArray me = m.procArray me) : m.Keeps me m' := by
  refine ⟨fun hu => ?_, fun hl => Or.inl ?_⟩
  · unfold Mem.Unsent at hu ⊢
    rw [h]
    exact hu
  · unfold Mem.Listed at hl ⊢
    rw [← h]
    exact hl

theorem Mem.Keeps.trans (h₁ : m.Keeps me m') (h₂ : m'.Keeps me m'') : m.Keeps me m'' where
  unsent h := h₂.unsent (h₁.unsent h)
  listed h := by
    rcases h₂.listed h with h | h
    · exact (h₁.listed h).imp id h₂.unsent
    · exact Or.inr h

theorem Mem.Wrote.keeps {p : Nat} (ht : m.NowTop me) (h : m.Wrote me p m') :
    m.Keeps me m' := by
  obtain ⟨rest, hr, hr'⟩ := h.list ht
  refine ⟨fun hu => ?_, fun hl => ?_⟩
  · obtain ⟨i, hm, ht, hq⟩ := hu
    unfold Mem.Unsent
    rw [hr']
    rw [hr] at hm
    rcases mem_sinceBarrier_cons.mp hm with rfl | ⟨hb, hm⟩
    · exact ⟨_, mem_sinceBarrier_cons.mpr (Or.inl rfl), ht, List.mem_append_left _ hq⟩
    · exact ⟨i, mem_sinceBarrier_cons.mpr (Or.inr ⟨hb, hm⟩), ht, hq⟩
  · rcases (h.listed ht).mp hl with hl | ⟨-, rfl, rfl⟩
    · exact Or.inl hl
    · refine Or.inr ?_
      unfold Mem.Unsent
      rw [hr']
      exact ⟨_, mem_sinceBarrier_cons.mpr (Or.inl rfl), rfl,
        List.mem_append_right _ (List.mem_singleton_self _)⟩

theorem Mem.Quiet.keeps (ht : m.NowTop me) (h : m.Quiet me m') : m.Keeps me m' := by
  rcases h with h | ⟨p, h⟩
  · exact .of_list (by rw [h.procArray])
  · exact h.keeps ht

theorem Mem.Quiet.shape (ht : m.NowTop me) (h : m.Quiet me m') :
    m'.shape me = m.shape me := by
  rcases h with h | ⟨p, h⟩
  · exact h.shape
  · exact h.shape ht

theorem Mem.Quiet.barrierTimestamps (h : m.Quiet me m') :
    m'.barrierTimestamps = m.barrierTimestamps := by
  rcases h with h | ⟨p, h⟩
  · exact h.barrierTimestamps
  · exact h.barrierTimestamps

theorem pushNow_keeps {ts : Timestamp} : m.Keeps me (m.pushNow me ⟨ts, [], false⟩) := by
  refine ⟨fun hu => ?_, fun hl => Or.inl ((pushNow_listed rfl).mp hl)⟩
  obtain ⟨i, hm, hi⟩ := hu
  unfold Mem.Unsent
  rw [pushNow_procArray_self]
  exact ⟨i, mem_sinceBarrier_cons.mpr (Or.inr ⟨rfl, hm⟩), hi⟩

/-- Packets of nothing new about `me`. -/
theorem Mem.Learned.keeps (h : m.Learned packets m')
    (hk : ∀ ts, Said packets me ts → m.Known me ts)
    (hl : ∀ ts p, SaidNotice packets me ts p → m.Listed me ts p) : m.Keeps me m' where
  unsent hu := h.unsent (h.same_shape hk) hu
  listed hl' := Or.inl ((h.listed.mp hl').elim id (hl _ _))

theorem Mem.NowTop.shape (h : m.NowTop me) :
    ∃ rest, m.shape me = ((m.now me).timestamp, (m.now me).isBarrier) :: rest := by
  obtain ⟨rest, hr⟩ := h.exists_now
  exact ⟨rest.map Interval.shape, by rw [Mem.shape, hr]; rfl⟩

theorem addNewInterval_eq (h : m.NowTop me) (n : Nat) :
    addNewInterval n me m =
      m.pushNow me ⟨bump me (cut n 0 (m.now me).timestamp), [], false⟩ := by
  obtain ⟨rest, hr⟩ := h.exists_now
  unfold addNewInterval
  dsimp only
  rw [hr, List.headD_cons]

end

/-! ## Sorting the steps -/

section

variable {n : Nat} {s s' : Sys} {a b : Nat} {r : Host × Out}

theorem Pc.outside_of_calm {pc : Pc} (h : pc.Calm) : pc.inBarrier = false :=
  (Pc.calm_facts 0 h).2.2

/-- A segment of the main thread that does not call or leave the barrier. -/
theorem ExecMem.bystander {op : Op} {e : Event} (hc : ExecMem n a (s.host a) op r)
    (ht : (s.host a).mem.NowTop a) (hs : (s.host a).pc.Sound n a (s.host a).mem)
    (hf : BarrierFrame (s.host a) r) (hop : op ≠ .barrier)
    (hout : (s.host a).pc.inBarrier = false) : Bystander n s e a r := by
  have hin : (s.host a).pc.inBarrier = true →
      ∀ ts p, r.1.mem.Listed a ts p → (s.host a).mem.Listed a ts p := by
    intro hin
    rw [hout] at hin
    cases hin
  cases hc with
  | access _ hq _ =>
      obtain ⟨hm, -, hplain, -, -⟩ := hq hs
      exact ⟨hf, hm.barrierTimestamps, .same (hm.shape ht), hm.keeps ht, hin,
        fun hx => by cases hplain _ hx⟩
  | keep hm _ _ _ ho =>
      exact ⟨hf, by rw [hm], .same (by rw [hm]), .of_list (by rw [hm]), hin,
        fun hx => by cases ho _ hx⟩
  | fresh hm _ hfetch _ ho =>
      rw [addNewInterval_eq ht] at hm
      refine ⟨hf, by rw [hm]; rfl, .fresh hout hfetch ?_, by rw [hm]; exact pushNow_keeps, hin,
        fun hx => by cases ho _ hx⟩
      rw [hm]
      exact pushNow_shape_self ..
  | fetch g l path _ _ hm _ _ _ ho =>
      refine ⟨hf, by rw [hm], .same (by rw [hm]; rfl), .of_list (by rw [hm]), hin,
        fun hx => ?_⟩
      rw [ho, List.mem_singleton] at hx
      cases hx
  | enter => exact absurd rfl hop
  | note => exact absurd rfl hop
  | release => exact absurd rfl hop

theorem Turn.exec (hs : Steady n s) {op : Op} (ha : a < n)
    (he : (s.host a).exec n a op = some r) : Turn n s (.op a op) (s.put a r) := by
  have ht := hs.answered.sound.nowTop a ha
  have hp := hs.answered.sound.pc a ha
  have hmem := exec_mem he
  have hother : BarrierFrame (s.host a) r → op ≠ .barrier →
      (s.host a).pc.inBarrier = false → Turn n s (.op a op) (s.put a r) := by
    intro hf hop hout
    refine .other ha (fun x hx => ?_) (fun x hx => ?_) rfl id (fun _ _ => rfl)
      (hmem.bystander ht hp hf hop hout)
    · cases hx
      exact hop rfl
    · cases hx
      exact hout
  cases exec_cases he with
  | quiet hcalm hop hq _ _ =>
      exact hother hq.barrierFrame hop (Pc.outside_of_calm hcalm)
  | lock l hpc =>
      exact hother ((miLock_cases n a l (s.host a)).barrierFrame hpc) (fun h => by cases h)
        (by rw [hpc]; rfl)
  | unlock l hpc =>
      exact hother ((miUnlock_cases n a l (s.host a)).barrierFrame hpc) (fun h => by cases h)
        (by rw [hpc]; rfl)
  | lockWait l hpc _ =>
      exact hother ((miLockResume_cases n a l (s.host a)).barrierFrame hpc) (fun h => by cases h)
        (by rw [hpc]; rfl)
  | wniWait l path hpc _ =>
      exact hother (lockReturn_barrierFrame hpc) (fun h => by cases h) (by rw [hpc]; rfl)
  | barrierWait hpc hw => exact .leave ha hpc hw
  | barrier hpc =>
      by_cases h0 : a = 0
      · subst h0
        rcases miBarrier_zero_cases n (s.host 0) with hc | ⟨hall, hc⟩
        · rw [hc]
          exact .note ha hpc
        · rw [hc]
          refine .releaseCall ha hpc fun x h0 hx => ?_
          exact (upd_ne (show x ≠ 0 by omega)).symm.trans (hall x hx)
      · rw [miBarrier, if_neg h0]
        exact .enter (by omega) ha hpc

/-- A message about a lock is nothing to the barrier. -/
theorem Control.lock_barrierFrame (hc : Control n s) (ha : a < n) (hb : b < n)
    (hne : a ≠ b) {msg : Msg} {rest : List Msg} (hnet : s.net a b = msg :: rest)
    (hmsg : msg.cls = .lock) : BarrierFrame (s.host b) (dispatchMsg n b a msg (s.host b)) := by
  have hn : 0 < n := by omega
  cases msg with
  | acqLock l => exact (handleAcquireMsg_frame n b l a (s.host b)).2
  | rlsLock l =>
      refine (handleReleaseMsg_frame fun hwake => ?_).2
      have hfree : 0 ≤ (freeLock n b l a (s.host b).syn).1 := by omega
      obtain ⟨h₁, h₂, hm⟩ := freeLock_valid hfree
      obtain rfl := (emod_eq_iff hn).mp hm
      exact (phase_waiting ((hc.locks l h₁ h₂).release_wakes ha hne hnet h₁ h₂ hwake)).2.1
  | grantLock l last =>
      have hmem : Msg.grantLock l last ∈ s.net a b := by
        rw [hnet]
        exact List.mem_cons_self
      obtain ⟨h₁, h₂, rfl⟩ := hc.grants a b l last hmem
      exact (handleGrantMsg_frame
        (phase_waiting ((hc.locks l h₁ h₂).grant_wakes hb hne.symm hmem)).2.1).2
  | _ => cases hmsg

/-- A host that is sent notices spins in `mi_lock`. -/
theorem Answered.awaits (h : Answered n s) {ts : Timestamp} {k : Nat}
    {packets : List WnPacket} (hm : .grantWnI ts k packets ∈ s.net a b) :
    (s.host b).pc.fetches = true ∧ (s.host b).mem.fetchWNIWaitFlag = true := by
  have hup : wniExchange.flag (s.host b).mem = true := by
    by_contra hdown
    rw [Bool.not_eq_true] at hdown
    have h0 := (h.wni b).idle hdown a
    have h1 : 0 < (s.net a b).countP wniExchange.isReply :=
      List.countP_pos_iff.mpr ⟨_, hm, rfl⟩
    rw [Exchange.traffic] at h0
    omega
  exact ⟨(h.wni b).waits hup, hup⟩

theorem Pc.outside_of_fetches {pc : Pc} (h : pc.fetches = true) : pc.inBarrier = false := by
  cases pc <;> first | rfl | cases h

theorem Frame.keeps {m m' : Mem} (h : m.Frame m') : m.Keeps a m' :=
  .of_list (by rw [h.procArray])

/-- Reading a message of the memory protocol. -/
theorem Steady.read_data (hs : Steady n s) (hb : b < n)
    {msg : Msg} {rest : List Msg} (hnet : s.net a b = msg :: rest)
    (hmsg : msg.cls = .data) :
    Bystander n s (.deliver a b) b (dispatchMsg n b a msg (s.host b)) := by
  have hframe := (dispatch_quiet n b a (s.host b) (Or.inl hmsg)).barrierFrame
  have hmem : msg ∈ s.net a b := by
    rw [hnet]
    exact List.mem_cons_self
  cases msg with
  | grantWnI ts k packets =>
      have hsound := hs.answered.sound
      obtain ⟨hfetch, -⟩ := hs.answered.awaits hmem
      have hl := incorporatePackets_learned b k packets
        ((s.host b).mem.pushNow b ⟨bump b ts, [], false⟩)
      have hknown : ∀ t, Said (packets.take k) b t →
          ((s.host b).mem.pushNow b ⟨bump b ts, [], false⟩).Known b t := by
        rintro t ⟨packet, hm, hn⟩
        exact pushNow_known.mpr (Or.inl ((hsound.told a b _ hmem packet hm).said hn).2)
      have hlisted : ∀ t p, SaidNotice (packets.take k) b t p →
          ((s.host b).mem.pushNow b ⟨bump b ts, [], false⟩).Listed b t p := by
        rintro t p ⟨packet, hm, ⟨hj, ht⟩, hp⟩
        have hf := (hsound.told a b _ hmem packet hm).2 p hp
        rw [hj, ht] at hf
        exact (pushNow_listed rfl).mpr ((hsound.linked b hb b t p).mp hf.2)
      have hout := Pc.outside_of_fetches hfetch
      refine ⟨hframe, hl.barrierTimestamps, .granted a ts k packets rest rfl hnet hout ?_,
        ?_, fun hin => (by rw [hout] at hin; cases hin), fun hx => nomatch hx⟩
      · exact (hl.same_shape hknown).trans (pushNow_shape_self ..)
      · exact (pushNow_keeps.trans (hl.keeps hknown hlisted)).trans (.of_list rfl)
  | grantDiff ts p diff =>
      have hf : (s.host b).mem.Frame (handleGrantDiffMsg a ts p diff (s.host b).mem) :=
        handleGrantDiffMsg_frame ..
      exact ⟨hframe, hf.barrierTimestamps, .same hf.shape, Frame.keeps hf,
        fun _ _ _ => hf.listed.mp, fun hx => nomatch hx⟩
  | grantPage p content =>
      have hf : (s.host b).mem.Frame (handleGrantPageMsg b p content (s.host b).mem) :=
        handleGrantPageMsg_frame ..
      exact ⟨hframe, hf.barrierTimestamps, .same hf.shape, Frame.keeps hf,
        fun _ _ _ => hf.listed.mp, fun hx => nomatch hx⟩
  | fetchPage p =>
      have hserved := (dispatch_fetchPage n b a p (s.host b)).served (hs.awaited.guards b)
      generalize dispatchMsg n b a (.fetchPage p) (s.host b) = r at hserved hframe ⊢
      cases hserved with
      | refused | killed =>
          exact ⟨hframe, rfl, .same rfl, .of_list rfl, fun _ _ _ h => h, fun hx => nomatch hx⟩
      | sent | opened | hangs =>
          refine ⟨hframe, rfl, .same rfl, .of_list rfl, fun _ _ _ h => h, fun hx => ?_⟩
          rw [List.mem_singleton] at hx
          cases hx
  | fetchWnI ts =>
      refine ⟨hframe, rfl, .same rfl, .of_list rfl, fun _ _ _ h => h, fun hx => ?_⟩
      rcases grantWNI_out n b a ts (s.host b).mem with ho | ⟨-, -, ho⟩ <;>
        rw [dispatchMsg, ho] at hx
      · cases hx
      · rw [List.mem_singleton] at hx
        cases hx
        rfl
  | fetchDiff p ts =>
      have hf : (s.host b).mem.Frame (grantDiff n b a ts p (s.host b).mem).2.1 :=
        grantDiff_frame ..
      refine ⟨hframe, hf.barrierTimestamps, .same hf.shape, Frame.keeps hf,
        fun _ _ _ => hf.listed.mp, fun hx => ?_⟩
      rcases grantDiff_out n b a ts p (s.host b).mem with ho | ⟨diff, ho⟩ <;>
        rw [dispatchMsg, ho] at hx
      · cases hx
      · rw [List.mem_singleton] at hx
        cases hx
  | _ => cases hmsg

theorem Turn.deliver (hs : Steady n s) (ha : a < n) (hb : b < n) (hne : a ≠ b)
    {msg : Msg} {rest : List Msg} (hnet : s.net a b = msg :: rest) :
    Turn n s (.deliver a b) ((s.pop a b).put b (dispatchMsg n b a msg (s.host b))) := by
  have hother : msg.cls ≠ .barrier →
      Bystander n s (.deliver a b) b (dispatchMsg n b a msg (s.host b)) →
      Turn n s (.deliver a b) ((s.pop a b).put b (dispatchMsg n b a msg (s.host b))) :=
    fun hcls hby => .other hb (fun x h => by cases h) (fun x h => by cases h) rfl mem_of_mem_pop
      (barrierMsgs_pop_other hnet hcls) hby
  have hlock : msg.cls = .lock →
      Turn n s (.deliver a b) ((s.pop a b).put b (dispatchMsg n b a msg (s.host b))) := by
    intro hcls
    have hframe := hs.control.lock_barrierFrame ha hb hne hnet hcls
    cases dispatch_mem n b a msg (s.host b) with
    | keep _ _ hm _ ho =>
        exact hother (by simp [hcls])
          ⟨hframe, by rw [hm], .same (by rw [hm]), .of_list (by rw [hm]),
            fun _ _ _ h => by rwa [hm] at h, fun hx => by cases ho _ hx⟩
    | release => cases hcls
    | data hdata =>
        rcases hdata with hdata | hdata | hdata
        · rw [hcls] at hdata
          cases hdata
        · rw [Msg.cls_of_isEnterInfo hdata] at hcls
          cases hcls
        · rw [Msg.cls_of_isExitInfo hdata] at hcls
          cases hcls
  have hbar := hs.control.barrier
  cases msg with
  | acqLock l => exact hlock rfl
  | rlsLock l => exact hlock rfl
  | grantLock l last => exact hlock rfl
  | enterBarrier =>
      obtain ⟨ha0, rfl⟩ := hbar.upward hnet rfl hb hne rfl fun h => by cases h
      show Turn n s _ ((s.pop a 0).put 0 (handleEnterBarrierMsg n 0 a (s.host 0)))
      unfold handleEnterBarrierMsg
      dsimp only
      rcases checkBarrierFlags_cases n 0 ((s.host 0).flagged a) with
        ⟨hc, -⟩ | ⟨-, hall, hc⟩ <;> unfold Host.flagged at hc <;> dsimp only at hc <;> rw [hc]
      · exact .flag ha0 ha hnet
      · exact .release ha0 ha hnet hall
  | exitBarrier =>
      obtain ⟨rfl, hb0⟩ := hbar.downward hnet rfl ha hne rfl fun h => by cases h
      have hcall : dispatchMsg n b 0 .exitBarrier (s.host b) =
          ({ s.host b with syn := { (s.host b).syn with waitFlag := false } }, []) := by
        rw [dispatchMsg, handleExitBarrierMsg, if_pos rfl]
      rw [hcall]
      exact .wake hb0 hb hnet
  | grantEnterBarrierInfo ts k packets =>
      obtain ⟨ha0, rfl⟩ := hbar.upward hnet rfl hb hne rfl fun h => by cases h
      exact .enterInfo ha0 ha hnet
  | grantExitBarrierInfo ts k packets =>
      obtain ⟨rfl, hb0⟩ := hbar.downward hnet rfl ha hne rfl fun h => by cases h
      exact .exitInfo hb0 hb hnet
  | _ => exact hother (fun h => by cases h) (hs.read_data hb hnet rfl)

theorem Steady.turn (hs : Steady n s) {e : Event} (he : step n s e = some s') :
    Turn n s e s' := by
  obtain ⟨a, op, r, rfl, ha, hx, rfl⟩ |
    ⟨a, b, msg, rest, rfl, ha, hb, hne, hnet, rfl⟩ := step_cases he
  · exact .exec hs ha hx
  · exact .deliver hs ha hb hne hnet

theorem Steady.init (n : Nat) : Steady n initSys := ⟨Control.init n, Awaited.init n⟩

theorem Steady.step (hs : Steady n s) {e : Event} (he : Midsm.step n s e = some s') :
    Steady n s' := ⟨hs.control.step he, hs.awaited.step he⟩

end

end Midsm
