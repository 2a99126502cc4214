import Midsm.Proofs.Stamps

/-!
# Barrier episodes

The `k`-th calls of `mi_barrier` at all hosts make up episode `k`. How often a
host has called and returned is history, so it is a ghost, together with what
the host's memory was at each call. How often the manager has released is not:
every release makes one barrier interval. A client that has entered and is not
released is one call ahead of the releases, any other client is level with them,
and that is all the separation of the episodes needs.
-/

namespace Midsm

open Midsm.Lib

/-- The memory of each host at its calls of `mi_barrier`, in order, and how many
of these calls have returned. -/
structure Episodes where
  entries : Nat → List Mem
  rets : Nat → Nat

def noEpisodes : Episodes := ⟨fun _ => [], fun _ => 0⟩

def Episodes.calls (g : Episodes) (x : Nat) : Nat := (g.entries x).length

def Episodes.call (x : Nat) (m : Mem) (g : Episodes) : Episodes :=
  { g with entries := upd g.entries x (g.entries x ++ [m]) }

def Episodes.ret (x : Nat) (g : Episodes) : Episodes :=
  { g with rets := upd g.rets x (g.rets x + 1) }

/-- A call returns at once or sleeps; a sleeping host returns by a segment of its
own. -/
def noteBarrier (g : Episodes) (s : Sys) (e : Event) (s' : Sys) : Episodes :=
  match e with
  | .op x .barrier =>
      let g := g.call x (s.host x).mem
      if (s'.host x).pc.inBarrier then g else g.ret x
  | .op x .resume => if (s.host x).pc.inBarrier then g.ret x else g
  | _ => g

/-- The episodes that the manager has released. -/
def Sys.released (s : Sys) : Nat := ((s.host 0).mem.barriers 0).length - 1

structure EpisodeInv (n : Nat) (s : Sys) (g : Episodes) : Prop where
  /-- One barrier interval is there from the start. -/
  first : ((s.host 0).mem.barriers 0).length = s.released + 1
  client : ∀ x, 0 < x → x < n →
    g.calls x = s.released + if s.entered x then 1 else 0
  manager : g.calls 0 =
    s.released + if (s.host 0).syn.barrierFlags 0 then 1 else 0
  rets : ∀ x < n, g.rets x + (if (s.host x).pc.inBarrier then 1 else 0) = g.calls x

theorem EpisodeInv.init (n : Nat) : EpisodeInv n initSys noEpisodes where
  first := rfl
  client _ _ _ := rfl
  manager := rfl
  rets _ _ := rfl

section

variable {n : Nat} {s s₀ s' : Sys} {g : Episodes} {x a : Nat} {r : Host × Out}

/-! ## The ghost -/

theorem noteBarrier_other {e : Event} (hcall : ∀ x, e ≠ .op x .barrier)
    (hret : ∀ x, e = .op x .resume → (s.host x).pc.inBarrier = false) :
    noteBarrier g s e s' = g := by
  cases e with
  | deliver => rfl
  | op x op =>
      cases op with
      | barrier => exact absurd rfl (hcall x)
      | resume => exact if_neg (by rw [hret x rfl]; exact Bool.false_ne_true)
      | alloc | load | store | lock | unlock => rfl

theorem call_calls_self (x : Nat) (m : Mem) (g : Episodes) :
    (g.call x m).calls x = g.calls x + 1 := by
  simp [Episodes.calls, Episodes.call]

theorem call_calls_ne {y : Nat} (h : y ≠ x) (m : Mem) :
    (g.call x m).calls y = g.calls y := by
  simp [Episodes.calls, Episodes.call, upd_ne h]

theorem ret_rets_self (x : Nat) (g : Episodes) : (g.ret x).rets x = g.rets x + 1 :=
  upd_self ..

theorem ret_rets_ne {y : Nat} (h : y ≠ x) : (g.ret x).rets y = g.rets y := upd_ne h

/-! ## Steps -/

theorem entered_congr {y : Nat}
    (hf : (s'.host 0).syn.barrierFlags y = (s.host 0).syn.barrierFlags y)
    (hn : (s'.net y 0).any Msg.isEnterBarrier = (s.net y 0).any Msg.isEnterBarrier) :
    s'.entered y = s.entered y := by
  rw [Sys.entered, Sys.entered, hf, hn]

/-- Nothing that the episodes are about has changed. -/
structure Sys.Level (n : Nat) (s s' : Sys) : Prop where
  barriers : (s'.host 0).mem.barriers 0 = (s.host 0).mem.barriers 0
  entered : ∀ x, 0 < x → x < n → s'.entered x = s.entered x
  flag : (s'.host 0).syn.barrierFlags 0 = (s.host 0).syn.barrierFlags 0
  inside : ∀ x, (s'.host x).pc.inBarrier = (s.host x).pc.inBarrier

theorem Sys.Level.released (hl : s.Level n s') : s'.released = s.released := by
  rw [Sys.released, hl.barriers, Sys.released]

theorem EpisodeInv.level (h : EpisodeInv n s g) (hl : s.Level n s') :
    EpisodeInv n s' g := by
  have hrel := hl.released
  refine ⟨by rw [hl.barriers, hrel]; exact h.first, fun x h0 hx => ?_, ?_, fun x hx => ?_⟩
  · rw [hrel, hl.entered x h0 hx]
    exact h.client x h0 hx
  · rw [hrel, hl.flag]
    exact h.manager
  · rw [hl.inside]
    exact h.rets x hx

theorem Sys.Level.other {e : Event} (hhost : s₀.host = s.host)
    (hnet₀ : ∀ u v, barrierMsgs (s₀.net u v) = barrierMsgs (s.net u v))
    (hb : Bystander n s e a r) : s.Level n (s₀.put a r) := by
  have hframe : BarrierFrame (s₀.host a) r := by rw [hhost]; exact hb.frame
  have hflags : ((s₀.put a r).host 0).syn.barrierFlags = (s.host 0).syn.barrierFlags := by
    rw [(hframe.host 0).1, hhost]
  refine ⟨?_, fun x _ _ => entered_congr (by rw [hflags]) ?_, by rw [hflags],
    fun x => by rw [(hframe.host x).2.1, hhost]⟩
  · exact put_host_forall (P := fun x h => h.mem.barriers x = (s.host x).mem.barriers x)
      hb.own.barriers (fun x _ => by rw [hhost]) 0
  · rw [← any_enter_barrierMsgs, hframe.net, hnet₀, any_enter_barrierMsgs]

theorem inBarrier_put (hr : r.1.pc.inBarrier = (s.host a).pc.inBarrier) (x : Nat) :
    ((s.put a r).host x).pc.inBarrier = (s.host x).pc.inBarrier :=
  put_host_forall (P := fun y h => h.pc.inBarrier = (s.host y).pc.inBarrier) hr
    (fun _ _ => rfl) x

/-- The manager reads enter information: its client stays entered. -/
theorem Sys.Level.enterInfo (hs : Sound n s) {ts : Timestamp} {k : Nat}
    {packets : List WnPacket} {rest : List Msg}
    (hnet : s.net x 0 = .grantEnterBarrierInfo ts k packets :: rest) :
    s.Level n ((s.pop x 0).put 0 ({ s.host 0 with
      mem := handleGrantEnterBarrierMsg 0 x ts k packets (s.host 0).mem }, [])) := by
  refine ⟨?_, fun y hy0 _ => entered_congr (by rw [put_host_self]) ?_, by rw [put_host_self],
    inBarrier_put rfl⟩
  · have hm := enterInfo_effect hs (by rw [hnet]; exact List.mem_cons_self)
    rw [put_host_self]
    unfold Mem.barriers
    dsimp only
    rw [hm.1]
  · rw [put_net_ne (by omega)]
    by_cases hyx : y = x
    · subst hyx
      rw [pop_net_self, hnet]
      rfl
    · rw [pop_net_ne (by omega)]

/-- A client reads what the manager sent it. -/
theorem Sys.Level.down (h0 : 0 < x) (hin : r.1.pc.inBarrier = (s.host x).pc.inBarrier)
    (hout : r.2 = []) : s.Level n ((s.pop 0 x).put x r) := by
  refine ⟨by rw [put_host_ne (by omega)]; rfl,
    fun y hy0 hy => entered_congr (by rw [put_host_ne (by omega)]; rfl) ?_,
    by rw [put_host_ne (by omega)]; rfl, inBarrier_put hin⟩
  by_cases hyx : y = x
  · subst hyx
    rw [put_net_self, hout, outTo_nil, List.append_nil, pop_net_ne (by omega)]
  · rw [put_net_ne hyx, pop_net_ne (by omega)]

/-- Entered is entered, whether its message is in flight or its flag is up. -/
theorem Sys.Level.flagged (h0 : 0 < x) {rest : List Msg}
    (hnet : s.net x 0 = .enterBarrier :: rest) :
    s.Level n ((s.pop x 0).put 0 ((s.host 0).flagged x, [])) := by
  refine ⟨by rw [put_host_self]; rfl, fun y hy0 hy => ?_,
    by rw [put_host_self]; exact upd_ne (by omega), inBarrier_put rfl⟩
  by_cases hyx : y = x
  · subst hyx
    have hself : ((s.host 0).flagged y).syn.barrierFlags y = true :=
      upd_self (s.host 0).syn.barrierFlags y true
    rw [Sys.entered, put_host_self, hself, Bool.true_or, Sys.entered, hnet, List.any_cons]
    simp [Msg.isEnterBarrier]
  · refine entered_congr (by rw [put_host_self]; exact upd_ne hyx) ?_
    rw [put_net_ne (by omega), pop_net_ne (by omega)]

theorem EpisodeInv.enter (hc : BarrierInv n s) (h : EpisodeInv n s g) (h0 : 0 < x)
    (hx : x < n) (hpc : (s.host x).pc = .run) (m : Mem) :
    EpisodeInv n (s.put x ((s.host x).parked,
      sendEnterBarrierInfo n x (s.host x).mem ++ [(0, .enterBarrier)])) (g.call x m) := by
  have hz : (s.put x ((s.host x).parked, sendEnterBarrierInfo n x (s.host x).mem ++
      [(0, .enterBarrier)])).host 0 = s.host 0 := put_host_ne (by omega)
  have hrel : (s.put x ((s.host x).parked, sendEnterBarrierInfo n x (s.host x).mem ++
      [(0, .enterBarrier)])).released = s.released := by rw [Sys.released, hz, Sys.released]
  have hin : (s.host x).pc.inBarrier = false := by rw [hpc]; rfl
  refine ⟨by rw [hz, hrel]; exact h.first, fun y hy0 hy => ?_, ?_, fun y hy => ?_⟩
  · rw [hrel]
    by_cases hyx : y = x
    · subst hyx
      have hent : (s.put y ((s.host y).parked, sendEnterBarrierInfo n y (s.host y).mem ++
          [(0, .enterBarrier)])).entered y = true := by
        rw [Sys.entered, put_net_self, outTo_append, List.any_append, List.any_append,
          outTo_cons_self]
        simp [Msg.isEnterBarrier]
      have hold := h.client y h0 hx
      rw [(hc.client y h0 hx).not_entered hin] at hold
      rw [hent, call_calls_self, hold]
      rfl
    · rw [call_calls_ne hyx, entered_congr (s := s) (by rw [hz]) (by rw [put_net_ne hyx])]
      exact h.client y hy0 hy
  · rw [hrel, hz, call_calls_ne (by omega)]
    exact h.manager
  · by_cases hyx : y = x
    · subst hyx
      have hold := h.rets y hx
      rw [hin] at hold
      rw [put_host_self, call_calls_self]
      exact congrArg (· + 1) hold
    · rw [put_host_ne hyx, call_calls_ne hyx]
      exact h.rets y hy

theorem BarrierInv.manager_outside (hc : BarrierInv n s)
    (hin : (s.host 0).pc.inBarrier = false) : (s.host 0).syn.barrierFlags 0 = false := by
  cases hf : (s.host 0).syn.barrierFlags 0 with
  | false => rfl
  | true => rw [hc.manager_waits hf] at hin; cases hin

theorem EpisodeInv.note (hc : BarrierInv n s) (h : EpisodeInv n s g)
    (hpc : (s.host 0).pc = .run) (m : Mem) :
    EpisodeInv n (s.put 0 (((s.host 0).stamped n).parked, [])) (g.call 0 m) := by
  have hin : (s.host 0).pc.inBarrier = false := by rw [hpc]; rfl
  have hrel : (s.put 0 (((s.host 0).stamped n).parked, [])).released = s.released := by
    rw [Sys.released, put_host_self]
    rfl
  refine ⟨?_, fun y hy0 hy => ?_, ?_, fun y hy => ?_⟩
  · rw [put_host_self, hrel]
    exact h.first
  · have hflag : ((s.host 0).stamped n).parked.syn.barrierFlags y =
        (s.host 0).syn.barrierFlags y := upd_ne (by omega)
    rw [hrel, call_calls_ne (by omega), entered_congr (s := s)
      (by rw [put_host_self]; exact hflag) (by rw [put_net_ne (by omega)])]
    exact h.client y hy0 hy
  · have hold := h.manager
    rw [hc.manager_outside hin] at hold
    have hflag : ((s.host 0).stamped n).parked.syn.barrierFlags 0 = true :=
      upd_self (s.host 0).syn.barrierFlags 0 true
    rw [hrel, put_host_self, call_calls_self, hold]
    dsimp only
    rw [hflag]
    rfl
  · by_cases hy0 : y = 0
    · subst hy0
      have hold := h.rets 0 hy
      rw [hin] at hold
      rw [put_host_self, call_calls_self]
      exact congrArg (· + 1) hold
    · rw [put_host_ne hy0, call_calls_ne hy0]
      exact h.rets y hy

/-- A release: every client has entered, and the manager stays where it is. -/
inductive Sys.Releases (n : Nat) (s : Sys) : Sys → Prop
  | intro {s₀ : Sys} {h₀ : Host} {r : Host × Out} : 0 < n → s.Ready n s₀ h₀ →
      (∀ x, 0 < x → x < n → s.entered x = true) → r.1.pc = (s.host 0).pc →
      r.1.mem = (h₀.release n).1.mem → r.2 = (h₀.release n).2 →
      (∀ x < n, r.1.syn.barrierFlags x = false) → Releases n s (s₀.put 0 r)

theorem Sys.Releases.host (h : s.Releases n s') {y : Nat} (hy : 0 < y) :
    s'.host y = s.host y := by
  cases h with
  | intro _ hr => rw [put_host_ne (by omega), hr.host]

theorem Sys.Releases.inside (h : s.Releases n s') :
    (s'.host 0).pc.inBarrier = (s.host 0).pc.inBarrier := by
  cases h with
  | intro _ _ _ hpc => rw [put_host_self, hpc]

theorem Sys.Releases.entered (h : s.Releases n s') (h0 : 0 < x) (hx : x < n) :
    s.entered x = true ∧ s'.entered x = false := by
  cases h with
  | intro _ hr hall _ _ _ hflags =>
      refine ⟨hall x h0 hx, ?_⟩
      rw [Sys.entered, put_host_self, hflags x hx, put_net_ne (by omega),
        ← any_enter_barrierMsgs, hr.up x h0 hx]
      rfl

theorem Sys.Releases.barriers (h : s.Releases n s') :
    ∃ ts, (s'.host 0).mem.barriers 0 = ts :: (s.host 0).mem.barriers 0 := by
  cases h with
  | @intro s₀ h₀ r _ hr _ _ hmem =>
      refine ⟨barrierTimestamp n h₀.mem, ?_⟩
      rw [put_host_self, hmem]
      unfold Mem.barriers
      rw [← hr.shape]
      exact congrArg (fun l => ((l.filter Prod.snd).map Prod.fst))
        (pushNow_shape_self 0 ⟨barrierTimestamp n h₀.mem, [], true⟩ h₀.mem)

theorem EpisodeInv.releases (h : EpisodeInv n s g) (hr : s.Releases n s') :
    s'.released = s.released + 1 := by
  obtain ⟨ts, hb⟩ := hr.barriers
  have := h.first
  rw [Sys.released, hb, List.length_cons, this]
  rfl

/-- Every client was one ahead, and is level now. -/
theorem EpisodeInv.release (h : EpisodeInv n s g) (hr : s.Releases n s')
    {g' : Episodes} (hcalls : ∀ x, 0 < x → g'.calls x = g.calls x)
    (hzero : g'.calls 0 = s.released + 1)
    (hrets : ∀ x < n, g'.rets x + (if (s'.host x).pc.inBarrier then 1 else 0) =
      g'.calls x) : EpisodeInv n s' g' := by
  have hrel := h.releases hr
  refine ⟨?_, fun x h0 hx => ?_, ?_, hrets⟩
  · obtain ⟨ts, hb⟩ := hr.barriers
    rw [hrel, hb, List.length_cons, h.first]
  · obtain ⟨hent, hno⟩ := hr.entered h0 hx
    have hold := h.client x h0 hx
    rw [hent] at hold
    rw [hcalls x h0, hrel, hno, hold]
    rfl
  · have hflag : (s'.host 0).syn.barrierFlags 0 = false := by
      cases hr with
      | intro hn _ _ _ _ _ hflags =>
          rw [put_host_self]
          exact hflags 0 hn
    rw [hzero, hrel, hflag]
    rfl

/-- The manager calls when every client has entered. -/
theorem Stamps.releases_call (hs : Steady n s) (h : Stamps n s) (hn : 0 < n)
    (hall : ∀ x, 0 < x → x < n → (s.host 0).syn.barrierFlags x = true) :
    s.Releases n (s.put 0 ({ (((s.host 0).stamped n).release n).1 with ret := none },
      (((s.host 0).stamped n).release n).2)) :=
  .intro hn (h.ready_call hs hn hall)
    (fun x h0 hx => by rw [Sys.entered, hall x h0 hx, Bool.true_or]) rfl rfl rfl
    fun _ hx => if_pos hx

/-- The manager reads the last `ENTER_BARRIER`. -/
theorem Stamps.releases_read (hs : Steady n s) (h : Stamps n s) (h0 : 0 < x) (hx : x < n)
    {rest : List Msg} (hnet : s.net x 0 = .enterBarrier :: rest)
    (hall : ∀ y < n, ((s.host 0).flagged x).syn.barrierFlags y = true) :
    s.Releases n ((s.pop x 0).put 0 ({ (((s.host 0).flagged x).release n).1 with
      syn := { (((s.host 0).flagged x).release n).1.syn with waitFlag := false } },
        (((s.host 0).flagged x).release n).2)) := by
  refine .intro (by omega) (h.ready_read hs h0 hx hnet hall) (fun y _ hy => ?_) rfl rfl rfl
    fun _ hy => if_pos hy
  by_cases hyx : y = x
  · subst hyx
    rw [Sys.entered, hnet, List.any_cons]
    simp [Msg.isEnterBarrier]
  · have hflag : (s.host 0).syn.barrierFlags y = true :=
      (upd_ne hyx).symm.trans (hall y hy)
    rw [Sys.entered, hflag, Bool.true_or]

theorem EpisodeInv.leave (h : EpisodeInv n s g) (hpc : (s.host x).pc = .barrierWait) :
    EpisodeInv n (s.put x ({ s.host x with pc := .run, ret := none }, [])) (g.ret x) := by
  have hmem : ∀ y, ((s.put x ({ s.host x with pc := .run, ret := none }, [])).host y).mem =
      (s.host y).mem :=
    put_host_forall (P := fun y h => h.mem = (s.host y).mem) rfl fun _ _ => rfl
  have hsyn : ((s.put x ({ s.host x with pc := .run, ret := none }, [])).host 0).syn =
      (s.host 0).syn :=
    put_host_forall (P := fun y h => h.syn = (s.host y).syn) rfl (fun _ _ => rfl) 0
  have hnet : ∀ u v, (s.put x ({ s.host x with pc := .run, ret := none }, [])).net u v =
      s.net u v := by
    intro u v
    by_cases hu : u = x
    · subst hu
      rw [put_net_self, outTo_nil, List.append_nil]
    · rw [put_net_ne hu]
  have hrel : (s.put x ({ s.host x with pc := .run, ret := none }, [])).released =
      s.released := by rw [Sys.released, hmem, Sys.released]
  refine ⟨by rw [hmem, hrel]; exact h.first, fun y hy0 hy => ?_, ?_, fun y hy => ?_⟩
  · rw [hrel, entered_congr (s := s) (by rw [hsyn]) (by rw [hnet])]
    exact h.client y hy0 hy
  · rw [hrel, hsyn]
    exact h.manager
  · have hold := h.rets y hy
    by_cases hyx : y = x
    · subst hyx
      rw [hpc] at hold
      rw [put_host_self, ret_rets_self]
      exact hold
    · rw [put_host_ne hyx, ret_rets_ne hyx]
      exact hold

/-- A step, seen from the episodes. -/
inductive Act (n : Nat) (s : Sys) : Event → Sys → Prop
  | level {e : Event} {s' : Sys} : (∀ x, e ≠ .op x .barrier) →
      (∀ x, e = .op x .resume → (s.host x).pc.inBarrier = false) →
      s.Level n s' → Act n s e s'
  | enter {x : Nat} : 0 < x → x < n → (s.host x).pc = .run →
      Act n s (.op x .barrier) (s.put x ((s.host x).parked,
        sendEnterBarrierInfo n x (s.host x).mem ++ [(0, .enterBarrier)]))
  | note : (s.host 0).pc = .run →
      Act n s (.op 0 .barrier) (s.put 0 (((s.host 0).stamped n).parked, []))
  | leave {x : Nat} : x < n → (s.host x).pc = .barrierWait →
      Act n s (.op x .resume) (s.put x ({ s.host x with pc := .run, ret := none }, []))
  | releaseCall {s' : Sys} : (s.host 0).pc = .run → s.Releases n s' →
      Act n s (.op 0 .barrier) s'
  | release {x : Nat} {s' : Sys} : (s.host 0).syn.barrierFlags 0 = true →
      s.Releases n s' → Act n s (.deliver x 0) s'

theorem Turn.act (hs : Steady n s) (hst : Stamps n s) {e : Event} (ht : Turn n s e s') :
    Act n s e s' := by
  cases ht with
  | other _ hcall hret hhost _ hnet hb => exact .level hcall hret (.other hhost hnet hb)
  | enter h0 hx hpc => exact .enter h0 hx hpc
  | note _ hpc => exact .note hpc
  | releaseCall hn hpc hall => exact .releaseCall hpc (hst.releases_call hs hn hall)
  | leave hx hpc _ => exact .leave hx hpc
  | enterInfo _ _ hnet =>
      exact .level nofun (fun _ he => nomatch he) (.enterInfo hs.answered.sound hnet)
  | exitInfo h0 _ _ => exact .level nofun (fun _ he => nomatch he) (.down h0 rfl rfl)
  | flag h0 _ hnet => exact .level nofun (fun _ he => nomatch he) (.flagged h0 hnet)
  | release h0 hx hnet hall =>
      exact .release ((upd_ne (by omega)).symm.trans (hall 0 (by omega)))
        (hst.releases_read hs h0 hx hnet hall)
  | wake h0 _ _ => exact .level nofun (fun _ he => nomatch he) (.down h0 rfl rfl)

theorem EpisodeInv.step (hs : Steady n s) (h : EpisodeInv n s g) {e : Event}
    (ht : Act n s e s') : EpisodeInv n s' (noteBarrier g s e s') := by
  have hb := hs.control.barrier
  cases ht with
  | level hcall hret hl =>
      rw [noteBarrier_other hcall hret]
      exact h.level hl
  | @enter x h0 hx hpc =>
      have hin : ((s.put x ((s.host x).parked, sendEnterBarrierInfo n x (s.host x).mem ++
          [(0, .enterBarrier)])).host x).pc.inBarrier = true := by
        rw [put_host_self]
        rfl
      rw [noteBarrier, if_pos hin]
      exact h.enter hb h0 hx hpc _
  | note hpc =>
      have hin : ((s.put 0 (((s.host 0).stamped n).parked, [])).host 0).pc.inBarrier =
          true := by
        rw [put_host_self]
        rfl
      rw [noteBarrier, if_pos hin]
      exact h.note hb hpc _
  | leave hx hpc =>
      rw [noteBarrier, if_pos (by rw [hpc]; rfl)]
      exact h.leave hpc
  | releaseCall hpc hr =>
      have hin : (s.host 0).pc.inBarrier = false := by rw [hpc]; rfl
      rw [noteBarrier, hr.inside, if_neg (by rw [hin]; exact Bool.false_ne_true)]
      have hzero := h.manager
      rw [hb.manager_outside hin] at hzero
      refine h.release hr (fun x h0 => ?_) ?_ fun x hx => ?_
      · exact call_calls_ne (show x ≠ 0 by omega) (s.host 0).mem
      · exact (call_calls_self 0 _ g).trans (congrArg (· + 1) hzero)
      · have hold := h.rets x hx
        by_cases hx0 : x = 0
        · subst hx0
          rw [hin] at hold
          rw [hr.inside, hin, ret_rets_self]
          exact (congrArg (· + 1) hold).trans (call_calls_self 0 _ g).symm
        · rw [hr.host (by omega), ret_rets_ne hx0]
          exact hold.trans (call_calls_ne hx0 _).symm
  | release hflag hr =>
      have hzero := h.manager
      rw [hflag] at hzero
      refine h.release hr (fun _ _ => rfl) hzero fun y hy => ?_
      have hold := h.rets y hy
      by_cases hy0 : y = 0
      · subst hy0
        rw [hr.inside]
        exact hold
      · rw [hr.host (by omega)]
        exact hold

/-! ## Every run -/

structure EpisodeHist (n : Nat) (s : Sys) (g : Episodes) : Prop where
  steady : Steady n s
  stamps : Stamps n s
  episodes : EpisodeInv n s g

theorem EpisodeHist.init (n : Nat) : EpisodeHist n initSys noEpisodes :=
  ⟨Steady.init n, Stamps.init n, EpisodeInv.init n⟩

theorem EpisodeHist.act (h : EpisodeHist n s g) {e : Event}
    (he : Midsm.step n s e = some s') : Act n s e s' :=
  (h.steady.turn he).act h.steady h.stamps

theorem EpisodeHist.step (h : EpisodeHist n s g) {e : Event}
    (he : Midsm.step n s e = some s') : EpisodeHist n s' (noteBarrier g s e s') :=
  ⟨h.steady.step he, h.stamps.step h.steady he,
    h.episodes.step h.steady (h.act he)⟩

theorem episodes_of_reach
    (h : Reach (withGhost (Midsm.step n) noteBarrier) anyStep (initSys, noEpisodes) (s, g)) :
    EpisodeHist n s g :=
  h.invariant (P := fun t => EpisodeHist n t.1 t.2) (EpisodeHist.init n) fun ht _ hs => by
    obtain ⟨he, hg⟩ := withGhost_eq_some.mp hs
    rw [hg]
    exact ht.step he

/-- No host returns before its episode is released, and none is released before
every host has called. -/
theorem EpisodeHist.rets_le (h : EpisodeHist n s g) (hx : x < n) :
    g.rets x ≤ s.released := by
  have hr := h.episodes.rets x hx
  by_cases h0 : x = 0
  · subst h0
    have hm := h.episodes.manager
    cases hin : (s.host 0).pc.inBarrier with
    | true =>
        rw [hin, if_pos rfl] at hr
        split at hm <;> omega
    | false =>
        rw [h.steady.control.barrier.manager_outside hin,
          if_neg Bool.false_ne_true] at hm
        rw [hin, if_neg Bool.false_ne_true] at hr
        omega
  · have hc := h.episodes.client x (by omega) hx
    cases hin : (s.host x).pc.inBarrier with
    | true =>
        rw [hin, if_pos rfl] at hr
        split at hc <;> omega
    | false =>
        rw [(h.steady.control.barrier.client x (by omega) hx).not_entered hin,
          if_neg Bool.false_ne_true] at hc
        rw [hin, if_neg Bool.false_ne_true] at hr
        omega

theorem EpisodeHist.le_calls (h : EpisodeHist n s g) (hx : x < n) :
    s.released ≤ g.calls x := by
  by_cases h0 : x = 0
  · rw [h0, h.episodes.manager]
    exact Nat.le_add_right ..
  · rw [h.episodes.client x (by omega) hx]
    exact Nat.le_add_right ..

/-- A client that is woken, or outside, has read everything. -/
theorem Sys.Client.settled (h : s.Client x)
    (hw : (s.host x).pc.inBarrier = true → (s.host x).syn.waitFlag = false) :
    s.entered x = false ∧ barrierMsgs (s.net 0 x) = [] := by
  cases hin : (s.host x).pc.inBarrier with
  | false => exact ⟨h.not_entered hin, (h.outside hin).2.2⟩
  | true =>
      unfold Sys.Client at h
      rw [hin, hw hin] at h
      rw [Sys.entered, ← any_enter_barrierMsgs]
      generalize (s.host 0).syn.barrierFlags x = flag at h ⊢
      generalize barrierMsgs (s.net x 0) = up at h ⊢
      generalize barrierMsgs (s.net 0 x) = down at h ⊢
      cases h
      exact ⟨rfl, rfl⟩

theorem mem_barrierMsgs {q : List Msg} {msg : Msg} (hc : msg.cls = .barrier)
    (hm : msg ∈ q) : msg ∈ barrierMsgs q := List.mem_filter.mpr ⟨hm, decide_eq_true hc⟩

theorem isExitInfo_barrierMsgs {q : List Msg} (h : barrierMsgs q = []) :
    ∀ msg ∈ q, msg.isExitInfo = false := by
  intro msg hm
  cases he : msg.isExitInfo with
  | false => rfl
  | true =>
      have hmem := mem_barrierMsgs (Msg.cls_of_isExitInfo he) hm
      rw [h] at hmem
      cases hmem

theorem isEnterInfo_barrierMsgs {q : List Msg} (h : barrierMsgs q = []) :
    ∀ msg ∈ q, msg.isEnterInfo = false := by
  intro msg hm
  cases he : msg.isEnterInfo with
  | false => rfl
  | true =>
      have hmem := mem_barrierMsgs (Msg.cls_of_isEnterInfo he) hm
      rw [h] at hmem
      cases hmem

/-- The barrier intervals of a settled client are those of the manager. -/
theorem EpisodeHist.settled_length (h : EpisodeHist n s g) (h0 : 0 < x) (hx : x < n)
    (hw : (s.host x).pc.inBarrier = true → (s.host x).syn.waitFlag = false) :
    ((s.host x).mem.barriers x).length = s.released + 1 := by
  obtain ⟨-, hdown⟩ := (h.steady.control.barrier.client x h0 hx).settled hw
  have hlen := (h.stamps.agree x h0 hx).length_eq
  rw [← exitStamps_barrierMsgs, hdown, h.episodes.first] at hlen
  simpa [exitStamps] using hlen.symm

/-- Each list of barrier intervals, oldest first, is a prefix of the manager's. -/
theorem EpisodeHist.agree_manager (h : EpisodeHist n s g) (hx : x < n) {k : Nat}
    {ts : Timestamp} (hk : ((s.host x).mem.barriers x).reverse[k]? = some ts) :
    ∃ ts₀, ((s.host 0).mem.barriers 0).reverse[k]? = some ts₀ ∧ AgreeBelow n ts₀ ts := by
  by_cases h0 : x = 0
  · subst h0
    exact ⟨ts, hk, fun _ _ => rfl⟩
  · have hall := List.forall₂_reverse_iff.mpr (h.stamps.agree x (by omega) hx)
    rw [List.reverse_append] at hall
    obtain ⟨hlt, rfl⟩ := List.getElem?_eq_some_iff.mp hk
    have hlt₂ := hlt
    rw [List.length_reverse] at hlt₂
    have hget := (List.forall₂_iff_get.mp hall).2 k
    have hlen := hall.length_eq
    rw [List.length_append, List.length_reverse, List.length_reverse] at hlen
    have hlt₀ : k < ((s.host 0).mem.barriers 0).reverse.length := by
      rw [List.length_reverse]
      omega
    refine ⟨((s.host 0).mem.barriers 0).reverse[k], List.getElem?_eq_getElem hlt₀, ?_⟩
    have hr := hget hlt₀ (by rw [List.length_append]; omega)
    rw [List.get_eq_getElem, List.get_eq_getElem] at hr
    rwa [List.getElem_append_left hlt] at hr

/-- What holds of the barrier in a system with this history. -/
structure BarrierSeparated (n : Nat) (s : Sys) (g : Episodes) : Prop where
  /-- Whoever has returned `k` times, every host has called `k` times. -/
  separated : ∀ x < n, ∀ y < n, g.rets x ≤ g.calls y
  /-- When episode `k` is released, every client has made its `k`-th call and
  what it sent with it has been read. -/
  release : ∀ e s', step n s e = some s' → s'.released = s.released + 1 →
    ∀ x, 0 < x → x < n → g.calls x = s'.released ∧
      ∀ msg ∈ s'.net x 0, msg.isEnterInfo = false
  /-- When a client returns from its `k`-th call, episode `k` has been released,
  and what the manager sent it then has been read. -/
  ret : ∀ x s', 0 < x → x < n → step n s (.op x .resume) = some s' →
    (s.host x).pc.inBarrier = true → g.calls x ≤ s.released ∧
      (∀ msg ∈ s.net 0 x, msg.isExitInfo = false) ∧
      ((s.host x).mem.barriers x).length = g.calls x + 1
  /-- A host outside has one barrier interval for each episode and one more. -/
  installed : ∀ x < n, (s.host x).pc.inBarrier = false →
    ((s.host x).mem.barriers x).length = g.rets x + 1
  /-- The `k`-th barrier intervals of any two hosts have the same timestamp. -/
  agree : ∀ x < n, ∀ y < n, ∀ (k : Nat) (ts ts' : Timestamp),
    ((s.host x).mem.barriers x).reverse[k]? = some ts →
    ((s.host y).mem.barriers y).reverse[k]? = some ts' → AgreeBelow n ts ts'

/-- Any step but a release leaves the count of releases. -/
theorem EpisodeHist.released (h : EpisodeHist n s g) {e : Event}
    (he : Midsm.step n s e = some s') : s'.released = s.released ∨ s.Releases n s' := by
  cases h.act he with
  | level _ _ hl => exact Or.inl hl.released
  | enter h0 => exact Or.inl (by rw [Sys.released, put_host_ne (by omega), Sys.released])
  | note => exact Or.inl (by rw [Sys.released, put_host_self]; rfl)
  | leave =>
      exact Or.inl (put_host_forall
        (P := fun x h => (h.mem.barriers x).length - 1 =
          ((s.host x).mem.barriers x).length - 1) rfl (fun _ _ => rfl) 0)
  | releaseCall _ hr => exact Or.inr hr
  | release _ hr => exact Or.inr hr

theorem Sys.Releases.read (h : s.Releases n s') (h0 : 0 < x) (hx : x < n) :
    ∀ msg ∈ s'.net x 0, msg.isEnterInfo = false := by
  cases h with
  | intro _ hr _ _ _ _ _ =>
      rw [put_net_ne (by omega)]
      exact isEnterInfo_barrierMsgs (hr.up x h0 hx)

theorem EpisodeHist.release_calls (h : EpisodeHist n s g) (hr : s.Releases n s')
    (h0 : 0 < x) (hx : x < n) : g.calls x = s.released + 1 := by
  rw [h.episodes.client x h0 hx, (hr.entered h0 hx).1]
  rfl

theorem EpisodeHist.separated (h : EpisodeHist n s g) : BarrierSeparated n s g where
  separated x hx y hy := Nat.le_trans (h.rets_le hx) (h.le_calls hy)
  release e s' he hrel x h0 hx := by
    rcases h.released he with hsame | hr
    · omega
    · exact ⟨by rw [hrel, h.release_calls hr h0 hx], hr.read h0 hx⟩
  ret x s' h0 hx he hin := by
    have hpc := Pc.eq_barrierWait hin
    have hw : (s.host x).syn.waitFlag = false := by
      cases hf : (s.host x).syn.waitFlag with
      | false => rfl
      | true => simp [Midsm.step, Host.exec, Host.resume, hpc, hf] at he
    obtain ⟨hent, hdown⟩ := (h.steady.control.barrier.client x h0 hx).settled fun _ => hw
    have hcalls := h.episodes.client x h0 hx
    rw [hent, if_neg Bool.false_ne_true, Nat.add_zero] at hcalls
    refine ⟨by omega, isExitInfo_barrierMsgs hdown, ?_⟩
    rw [h.settled_length h0 hx fun _ => hw]
    omega
  installed x hx hin := by
    have hr := h.episodes.rets x hx
    rw [hin, if_neg Bool.false_ne_true] at hr
    by_cases h0 : x = 0
    · subst h0
      have hm := h.episodes.manager
      rw [h.steady.control.barrier.manager_outside hin, if_neg Bool.false_ne_true] at hm
      rw [h.episodes.first]
      omega
    · have hc := h.episodes.client x (by omega) hx
      rw [(h.steady.control.barrier.client x (by omega) hx).not_entered hin,
        if_neg Bool.false_ne_true] at hc
      rw [h.settled_length (by omega) hx fun ht => by rw [hin] at ht; cases ht]
      omega
  agree x hx y hy k ts ts' hk hk' := by
    obtain ⟨ts₀, h₀, hxa⟩ := h.agree_manager hx hk
    obtain ⟨ts₀', h₀', hya⟩ := h.agree_manager hy hk'
    rw [h₀] at h₀'
    cases h₀'
    exact fun i hi => (hxa i hi).symm.trans (hya i hi)

/-- Every run of any number of hosts keeps the barrier episodes apart. -/
theorem barrier_separation (n : Nat) {s : Sys} {g : Episodes}
    (h : Reach (withGhost (Midsm.step n) noteBarrier) anyStep
      (initSys, noEpisodes) (s, g)) : BarrierSeparated n s g :=
  (episodes_of_reach h).separated

/-- Host 1 enters first, host 0 releases at once and is in episode 2 while host 1
has not left episode 1. -/
theorem barrier_separation_two :
    ∃ s g, BarrierSeparated 2 s g ∧ g.rets 0 = 1 ∧ g.calls 0 = 2 ∧ g.rets 1 = 0 ∧
      g.calls 1 = 1 := by
  obtain ⟨⟨s, g⟩, hrun, hp⟩ := exists_reach_any
    (withGhost (Midsm.step 2) noteBarrier) (initSys, noEpisodes)
    [.op 1 .barrier, .deliver 1 0, .deliver 1 0, .op 0 .barrier, .op 0 .barrier]
    (fun t => decide (t.2.rets 0 = 1 ∧ t.2.calls 0 = 2 ∧ t.2.rets 1 = 0 ∧ t.2.calls 1 = 1))
    (by decide +kernel)
  exact ⟨s, g, barrier_separation 2 hrun, of_decide_eq_true hp⟩

end

end Midsm
