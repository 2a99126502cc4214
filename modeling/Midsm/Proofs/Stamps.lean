import Midsm.Proofs.Turns

/-!
# The timestamps of a barrier

A client tells the manager its timestamp in the first block of its enter
information, and the manager notes it; a release makes of the noted timestamps
that of the new barrier interval, which travels in the first block of the exit
information. The other blocks carry the blank timestamp, by which a reader knows
them. `Stamps` says at each stage where the timestamp of a client is, and that
the barrier intervals of a client, with the one still in flight, are those of
the manager.
-/

namespace Midsm

/-! ## What the messages carry -/

/-- The timestamp that a reader of the message takes, if any. -/
def Msg.enterStamp : Msg → Option Timestamp
  | .grantEnterBarrierInfo ts _ _ => if ts 0 = -1 then none else some ts
  | _ => none

def Msg.exitStamp : Msg → Option Timestamp
  | .grantExitBarrierInfo ts _ _ => if ts 0 = -1 then none else some ts
  | _ => none

def enterStamps (q : List Msg) : List Timestamp := q.filterMap Msg.enterStamp

def exitStamps (q : List Msg) : List Timestamp := q.filterMap Msg.exitStamp

def Msg.isEnterBarrier : Msg → Bool
  | .enterBarrier => true
  | _ => false

theorem filterMap_barrierMsgs {β : Type} {f : Msg → Option β}
    (hf : ∀ msg : Msg, msg.cls ≠ .barrier → f msg = none) (q : List Msg) :
    (barrierMsgs q).filterMap f = q.filterMap f := by
  induction q with
  | nil => rfl
  | cons msg q ih =>
      by_cases hm : msg.cls = .barrier
      · rw [barrierMsgs_cons hm, List.filterMap_cons, List.filterMap_cons, ih]
      · rw [barrierMsgs_cons_other hm, List.filterMap_cons_none (hf msg hm), ih]

theorem enterStamps_barrierMsgs (q : List Msg) :
    enterStamps (barrierMsgs q) = enterStamps q := by
  refine filterMap_barrierMsgs (fun msg hm => ?_) q
  cases msg <;> first | rfl | exact absurd rfl hm

theorem exitStamps_barrierMsgs (q : List Msg) :
    exitStamps (barrierMsgs q) = exitStamps q := by
  refine filterMap_barrierMsgs (fun msg hm => ?_) q
  cases msg <;> first | rfl | exact absurd rfl hm

theorem any_enter_barrierMsgs (q : List Msg) :
    (barrierMsgs q).any Msg.isEnterBarrier = q.any Msg.isEnterBarrier := by
  induction q with
  | nil => rfl
  | cons msg q ih =>
      by_cases hm : msg.cls = .barrier
      · rw [barrierMsgs_cons hm, List.any_cons, List.any_cons, ih]
      · rw [barrierMsgs_cons_other hm, List.any_cons, ih]
        cases msg <;> first | rfl | exact absurd rfl hm

/-- Of the blocks of a message for `dest`, as they arrive there, exactly the
first has a timestamp to take. -/
theorem blocks_stamps {mk : Timestamp → Nat → List WnPacket → Msg}
    {f : Msg → Option Timestamp} {dest : Nat} {ts : Timestamp} {all : List WnPacket}
    {blocks : List Block}
    (hf : ∀ ts k packets, f (mk ts k packets) = if ts 0 = -1 then none else some ts)
    (hts : ts 0 ≠ -1) (hne : blocks ≠ []) (hb : Blocks dest ts all blocks) :
    (outTo (blocks.map (Block.msg mk)) dest).filterMap f = [ts] := by
  cases blocks with
  | nil => exact absurd rfl hne
  | cons b bs =>
      obtain ⟨hdest, hstamp⟩ := hb.first b (by simp)
      have hlater : (outTo (bs.map (Block.msg mk)) dest).filterMap f = [] := by
        rw [List.filterMap_eq_nil_iff]
        intro msg hm
        obtain ⟨c, hc, he⟩ := List.mem_map.mp (mem_outTo.mp hm)
        obtain ⟨-, hblank⟩ := hb.later c hc
        have hmsg : msg = mk c.timestamp c.packets.length c.packets :=
          (congrArg Prod.snd he).symm
        rw [hmsg, hf, hblank]
        exact if_pos rfl
      rw [List.map_cons, Block.msg, hdest, outTo_cons_self, List.filterMap_cons, hf, hstamp,
        if_neg hts]
      dsimp only
      rw [hlater]

theorem enterStamps_enter {n me : Nat} (hme : me ≠ 0) (m : Mem)
    (hts : cut n (-1) (m.now me).timestamp 0 ≠ -1) :
    enterStamps (outTo (sendEnterBarrierInfo n me m ++ [(0, .enterBarrier)]) 0) =
      [cut n (-1) (m.now me).timestamp] := by
  obtain ⟨blocks, hne, he, hb⟩ := encode_blocks .grantEnterBarrierInfo 0
    (cut n (-1) (m.now me).timestamp)
    ((sinceBarrier (m.procArray me)).reverse.map (intervalPackets me))
  rw [enterStamps, outTo_append, List.filterMap_append, sendEnterBarrierInfo, if_neg hme, he,
    blocks_stamps (fun _ _ _ => rfl) hts hne hb]
  rfl

theorem exitStamps_release {n x : Nat} (h : Host) (h0 : 0 < x) (hx : x < n)
    (hts : cut n (-1) (barrierTimestamp n h.mem) 0 ≠ -1) :
    exitStamps (outTo (h.release n).2 x) = [cut n (-1) (barrierTimestamp n h.mem)] := by
  obtain ⟨blocks, hne, he, hb⟩ := encode_blocks .grantExitBarrierInfo x
    (cut n (-1) (barrierTimestamp n h.mem)) ((List.range n).flatMap fun j =>
      packetsAfter n ((h.mem.pushNow 0 ⟨barrierTimestamp n h.mem, [], true⟩).barrierTimestamps
        x) j (h.mem.pushNow 0 ⟨barrierTimestamp n h.mem, [], true⟩))
  rw [exitStamps, release_outTo h h0 hx, returnAllBarrierInfo_outTo h.mem h0 hx,
    List.filterMap_append, exitBarrierInfo, he, blocks_stamps (fun _ _ _ => rfl) hts hne hb]
  rfl

/-! ## Own timestamps -/

/-- The timestamp at the head of host `me`'s own list. -/
def Mem.last (me : Nat) (m : Mem) : Timestamp :=
  ((m.shape me).headD (fun _ => 0, false)).1

/-- The timestamps of host `j`'s barrier intervals, newest first. -/
def Mem.barriers (m : Mem) (j : Nat) : List Timestamp :=
  ((m.shape j).filter Prod.snd).map Prod.fst

theorem Mem.NowTop.last {me : Nat} {m : Mem} (h : m.NowTop me) :
    (m.now me).timestamp = m.last me := by
  obtain ⟨rest, hr⟩ := h.shape
  rw [Mem.last, hr]
  rfl

/-- Component-wise, on the components that hosts use. -/
def NonNeg (n : Nat) (ts : Timestamp) : Prop := ∀ i : Fin maxHostNum, i.val < n → 0 ≤ ts i

def AgreeBelow (n : Nat) (ts ts' : Timestamp) : Prop :=
  ∀ i : Fin maxHostNum, i.val < n → ts i = ts' i

theorem NonNeg.bump {n : Nat} {ts : Timestamp} (h : NonNeg n ts) (me : Nat) :
    NonNeg n (bump me ts) := by
  intro i hi
  have := h i hi
  unfold Midsm.bump
  split <;> omega

theorem cut_apply {n : Nat} {fill : Int} {ts : Timestamp} {i : Fin maxHostNum}
    (hi : i.val < n) : cut n fill ts i = ts i := if_pos hi

theorem NonNeg.cut {n : Nat} {ts : Timestamp} (h : NonNeg n ts) (fill : Int) :
    NonNeg n (cut n fill ts) := by
  intro i hi
  rw [cut_apply hi]
  exact h i hi

theorem NonNeg.proper {n : Nat} {ts : Timestamp} (h : NonNeg n ts) (hn : 0 < n) :
    ts 0 ≠ -1 := by
  have := h 0 hn
  omega

/-! ## The invariant -/

/-- Client `x` has entered and has not been released. -/
def Sys.entered (s : Sys) (x : Nat) : Bool :=
  (s.host 0).syn.barrierFlags x || (s.net x 0).any Msg.isEnterBarrier

/-- Where the timestamp of a client is: nowhere, in flight to the manager, or
noted there. -/
inductive EnterView (stamp : Timestamp) : Bool → Timestamp → List Timestamp → Prop
  | idle {noted : Timestamp} : noted 0 = -1 → EnterView stamp false noted []
  | sent {noted : Timestamp} : noted 0 = -1 → EnterView stamp true noted [stamp]
  | noted : EnterView stamp true stamp []

/-- The timestamp that a client sends. -/
def Sys.stamp (s : Sys) (n x : Nat) : Timestamp := cut n (-1) ((s.host x).mem.last x)

structure Stamps (n : Nat) (s : Sys) : Prop where
  own : ∀ x < n, ∀ y ∈ (s.host x).mem.shape x, NonNeg n y.1
  granted : ∀ {a b ts k packets}, .grantWnI ts k packets ∈ s.net a b → NonNeg n ts
  exits : ∀ x, 0 < x → x < n → ∀ ts ∈ exitStamps (s.net 0 x), NonNeg n ts
  enter : ∀ x, 0 < x → x < n → EnterView (s.stamp n x) (s.entered x)
    ((s.host 0).mem.barrierTimestamps x) (enterStamps (s.net x 0))
  manager : (s.host 0).syn.barrierFlags 0 = true →
    AgreeBelow n ((s.host 0).mem.barrierTimestamps 0) ((s.host 0).mem.last 0)
  agree : ∀ x, 0 < x → x < n → List.Forall₂ (AgreeBelow n) ((s.host 0).mem.barriers 0)
    ((exitStamps (s.net 0 x)).reverse ++ (s.host x).mem.barriers x)

theorem Stamps.init (n : Nat) : Stamps n initSys where
  own x _ y hy := by
    simp only [initSys, initmem, Mem.shape, upd_self, List.map_cons, List.map_nil,
      List.mem_singleton] at hy
    rw [hy]
    exact fun _ _ => Int.le_refl _
  granted h := by cases h
  exits _ _ _ _ h := by cases h
  enter _ _ _ := .idle rfl
  manager h := by cases h
  agree x _ _ := by
    simp only [initSys, initmem, Mem.barriers, Mem.shape, upd_self]
    exact .cons (fun _ _ => rfl) .nil

section

variable {n : Nat} {s s₀ s' : Sys} {x a : Nat} {r : Host × Out}

theorem Stamps.last_nonNeg (h : Stamps n s) (hx : x < n) :
    NonNeg n ((s.host x).mem.last x) := by
  unfold Mem.last
  cases hs : (s.host x).mem.shape x with
  | nil => exact fun _ _ => Int.le_refl _
  | cons y rest => exact h.own x hx y (by rw [hs]; exact List.mem_cons_self)

/-- What a client would send can be taken. -/
theorem Stamps.stamp_proper (h : Stamps n s) (hx : x < n) : s.stamp n x 0 ≠ -1 :=
  ((h.last_nonNeg hx).cut (-1)).proper (by omega)

theorem Sys.Client.not_entered (h : s.Client x) (hin : (s.host x).pc.inBarrier = false) :
    s.entered x = false := by
  obtain ⟨hf, hup, -⟩ := h.outside hin
  rw [Sys.entered, hf, ← any_enter_barrierMsgs, hup]
  rfl

/-- A timestamp changes only while its client is outside, where it does not
matter. -/
theorem EnterView.restamp {stamp stamp' noted : Timestamp} {entered : Bool}
    {stamps : List Timestamp} (h : EnterView stamp entered noted stamps)
    (hs : entered = true → stamp' = stamp) : EnterView stamp' entered noted stamps := by
  cases h with
  | idle hn => exact .idle hn
  | sent hn => rw [← hs rfl]; exact .sent hn
  | noted => rw [← hs rfl]; exact .noted

/-! ## Steps that are not about the barrier -/

theorem OwnCase.last {e : Event} {m' : Mem} (h : OwnCase n s e a m')
    (hin : (s.host a).pc.inBarrier = true) : m'.last a = (s.host a).mem.last a := by
  cases h with
  | same hs => rw [Mem.last, hs, Mem.last]
  | fresh hout => rw [hin] at hout; cases hout
  | granted _ _ _ _ _ _ _ hout => rw [hin] at hout; cases hout

theorem OwnCase.barriers {e : Event} {m' : Mem} (h : OwnCase n s e a m') :
    m'.barriers a = (s.host a).mem.barriers a := by
  unfold Mem.barriers
  cases h with
  | same hs => rw [hs]
  | fresh _ _ hs => rw [hs]; rfl
  | granted _ _ _ _ _ _ _ _ hs => rw [hs]; rfl

theorem Stamps.own_other (h : Stamps n s) (ht : (s.host a).mem.NowTop a) (ha : a < n)
    {e : Event} {m' : Mem} (ho : OwnCase n s e a m') :
    ∀ y ∈ m'.shape a, NonNeg n y.1 := by
  intro y hy
  cases ho with
  | same hs => exact h.own a ha y (hs ▸ hy)
  | fresh _ _ hs =>
      rw [hs] at hy
      rcases List.mem_cons.mp hy with rfl | hy
      · rw [ht.last]
        exact ((h.last_nonNeg ha).cut 0).bump a
      · exact h.own a ha y hy
  | granted c ts k packets rest _ hnet _ hs =>
      rw [hs] at hy
      rcases List.mem_cons.mp hy with rfl | hy
      · have hm : Msg.grantWnI ts k packets ∈ s.net c a := by
          rw [hnet]
          exact List.mem_cons_self
        exact (h.granted hm).bump a
      · exact h.own a ha y hy

theorem Stamps.other (hs : Steady n s) (h : Stamps n s) {e : Event} (ha : a < n)
    (hhost : s₀.host = s.host)
    (hsub : ∀ {u v msg}, msg ∈ s₀.net u v → msg ∈ s.net u v)
    (hnet₀ : ∀ u v, barrierMsgs (s₀.net u v) = barrierMsgs (s.net u v))
    (hb : Bystander n s e a r) : Stamps n (s₀.put a r) := by
  have ht := hs.answered.sound.nowTop a ha
  have hframe : BarrierFrame (s₀.host a) r := by rw [hhost]; exact hb.frame
  have hnet : ∀ u v, barrierMsgs ((s₀.put a r).net u v) = barrierMsgs (s.net u v) :=
    fun u v => (hframe.net u v).trans (hnet₀ u v)
  have hexit : ∀ x, exitStamps ((s₀.put a r).net 0 x) = exitStamps (s.net 0 x) :=
    fun x => by rw [← exitStamps_barrierMsgs, hnet, exitStamps_barrierMsgs]
  have hflags : ((s₀.put a r).host 0).syn.barrierFlags = (s.host 0).syn.barrierFlags := by
    rw [(hframe.host 0).1, hhost]
  have hnotes : ((s₀.put a r).host 0).mem.barrierTimestamps =
      (s.host 0).mem.barrierTimestamps :=
    put_host_forall (P := fun x h => h.mem.barrierTimestamps =
      (s.host x).mem.barrierTimestamps) hb.stamps (fun x _ => by rw [hhost]) 0
  have hbarriers : ∀ x, ((s₀.put a r).host x).mem.barriers x = (s.host x).mem.barriers x :=
    put_host_forall (P := fun x h => h.mem.barriers x = (s.host x).mem.barriers x)
      hb.own.barriers fun x _ => by rw [hhost]
  have hlast : ∀ x, (s.host x).pc.inBarrier = true →
      ((s₀.put a r).host x).mem.last x = (s.host x).mem.last x :=
    put_host_forall (P := fun x h => (s.host x).pc.inBarrier = true →
      h.mem.last x = (s.host x).mem.last x) hb.own.last fun x _ _ => by rw [hhost]
  refine ⟨?_, fun {u v ts k packets} hm => ?_,
    fun x h0 hx ts hts => h.exits x h0 hx ts (hexit x ▸ hts), fun x h0 hx => ?_, fun hf => ?_, fun x h0 hx => ?_⟩
  · refine put_host_forall (P := fun x h => x < n → ∀ y ∈ h.mem.shape x, NonNeg n y.1)
      (fun _ => h.own_other ht ha hb.own) fun x _ => ?_
    rw [hhost]
    exact h.own x
  · rcases mem_put_net hm with hm | ⟨rfl, hout⟩
    · exact h.granted (hsub hm)
    · rw [hb.grants hout, ht.last]
      exact h.last_nonNeg ha
  · have hent : (s₀.put a r).entered x = s.entered x := by
      rw [Sys.entered, Sys.entered, hflags, ← any_enter_barrierMsgs, hnet,
        any_enter_barrierMsgs]
    rw [hent, hnotes, ← enterStamps_barrierMsgs, hnet, enterStamps_barrierMsgs]
    refine (h.enter x h0 hx).restamp fun he => ?_
    cases hin : (s.host x).pc.inBarrier with
    | true => rw [Sys.stamp, hlast x hin, Sys.stamp]
    | false =>
        rw [(hs.control.barrier.client x h0 hx).not_entered hin] at he
        cases he
  · rw [hflags] at hf
    rw [hnotes, hlast 0 (hs.control.barrier.manager_waits hf)]
    exact h.manager hf
  · rw [hbarriers, hbarriers, hexit]
    exact h.agree x h0 hx

/-! ## Entering and leaving -/

theorem Stamps.grants_put (h : Stamps n s)
    (hsub : ∀ {u v msg}, msg ∈ s₀.net u v → msg ∈ s.net u v)
    (hout : ∀ y ∈ r.2, y.2.cls ≠ .data) {u v : Nat} {ts : Timestamp} {k : Nat}
    {packets : List WnPacket} (hm : .grantWnI ts k packets ∈ (s₀.put a r).net u v) :
    NonNeg n ts := by
  rcases mem_put_net hm with hm | ⟨rfl, ho⟩
  · exact h.granted (hsub hm)
  · exact absurd rfl (hout _ ho)

/-- A client enters: its timestamp is in flight. -/
theorem Stamps.enter_step (hs : Steady n s) (h : Stamps n s) (h0 : 0 < x) (hx : x < n)
    (hpc : (s.host x).pc = .run) :
    Stamps n (s.put x ((s.host x).parked,
      sendEnterBarrierInfo n x (s.host x).mem ++ [(0, .enterBarrier)])) := by
  have ht := hs.answered.sound.nowTop x hx
  obtain ⟨hflag, hup, hdown⟩ :=
    (hs.control.barrier.client x h0 hx).outside (by rw [hpc]; rfl)
  have hhost : ∀ y, ((s.put x ((s.host x).parked,
      sendEnterBarrierInfo n x (s.host x).mem ++ [(0, .enterBarrier)])).host y).mem =
      (s.host y).mem :=
    put_host_forall (P := fun y h => h.mem = (s.host y).mem) rfl fun _ _ => rfl
  have hstamp := h.stamp_proper hx
  refine ⟨fun y hy => by rw [hhost]; exact h.own y hy,
    h.grants_put id (by exact enter_cls n x _), fun y hy0 hy ts => ?_, fun y hy0 hy => ?_,
    fun hf => ?_, fun y hy0 hy => ?_⟩
  · rw [put_net_ne (by omega)]
    exact h.exits y hy0 hy ts
  · unfold Sys.stamp Sys.entered
    rw [hhost, hhost, put_host_ne (by omega)]
    by_cases hyx : y = x
    · subst hyx
      have hold : EnterView (s.stamp n y) false ((s.host 0).mem.barrierTimestamps y)
          (enterStamps (s.net y 0)) := by
        rw [← (hs.control.barrier.client y h0 hx).not_entered (by rw [hpc]; rfl)]
        exact h.enter y h0 hx
      generalize hq : enterStamps (s.net y 0) = q at hold
      generalize (s.host 0).mem.barrierTimestamps y = noted at hold ⊢
      cases hold with
      | idle hn =>
          have hent : ((s.host 0).syn.barrierFlags y || ((s.put y ((s.host y).parked,
              sendEnterBarrierInfo n y (s.host y).mem ++ [(0, .enterBarrier)])).net
                y 0).any Msg.isEnterBarrier) = true := by
            rw [put_net_self, outTo_append, List.any_append, List.any_append,
              outTo_cons_self]
            simp [Msg.isEnterBarrier]
          have hnew := enterStamps_enter (n := n) (show y ≠ 0 by omega) (s.host y).mem
            (by rw [ht.last]; exact hstamp)
          rw [hent, put_net_self, enterStamps, List.filterMap_append]
          rw [enterStamps] at hq hnew
          rw [hq, hnew, ht.last]
          exact .sent hn
    · rw [put_net_ne hyx]
      exact h.enter y hy0 hy
  · rw [put_host_ne (by omega)] at hf ⊢
    exact h.manager hf
  · rw [hhost, hhost, put_net_ne (by omega)]
    exact h.agree y hy0 hy

theorem stamp_self (m : Mem) {i : Fin maxHostNum} (hi : i.val < n) :
    (m.stamp n).barrierTimestamps 0 i = (m.now 0).timestamp i := by
  simp [Mem.stamp, hi]

/-- The manager enters and waits: its own timestamp is noted. -/
theorem Stamps.note_step (hs : Steady n s) (h : Stamps n s) (hn : 0 < n) :
    Stamps n (s.put 0 (((s.host 0).stamped n).parked, [])) := by
  have ht := hs.answered.sound.nowTop 0 hn
  have hshape : ∀ y, ((s.put 0 (((s.host 0).stamped n).parked, [])).host y).mem.shape y =
      (s.host y).mem.shape y :=
    put_host_forall (P := fun y h => h.mem.shape y = (s.host y).mem.shape y) rfl
      fun _ _ => rfl
  have hnet : ∀ u v, (s.put 0 (((s.host 0).stamped n).parked, [])).net u v = s.net u v := by
    intro u v
    by_cases hu : u = 0
    · subst hu
      rw [put_net_self, outTo_nil, List.append_nil]
    · rw [put_net_ne hu]
  have hother : ∀ y, 0 < y → (((s.host 0).stamped n).parked.mem.barrierTimestamps y =
      (s.host 0).mem.barrierTimestamps y ∧ ((s.host 0).stamped n).parked.syn.barrierFlags y =
        (s.host 0).syn.barrierFlags y) :=
    fun y hy => ⟨upd_ne (by omega), upd_ne (by omega)⟩
  refine ⟨fun y hy => by rw [hshape]; exact h.own y hy,
    h.grants_put id (by exact fun _ hm => nomatch hm), fun y hy0 hy ts => ?_,
    fun y hy0 hy => ?_,
    fun hf => ?_, fun y hy0 hy => ?_⟩
  · rw [hnet]
    exact h.exits y hy0 hy ts
  · unfold Sys.stamp Sys.entered Mem.last
    rw [hnet, hshape, put_host_self, (hother y hy0).1, (hother y hy0).2]
    exact h.enter y hy0 hy
  · intro i hi
    rw [Mem.last, hshape, put_host_self, ← Mem.last, ← ht.last]
    exact stamp_self (s.host 0).mem hi
  · unfold Mem.barriers
    rw [hnet, hshape, hshape]
    exact h.agree y hy0 hy

/-- Leaving the wait, and waking up. -/
theorem Stamps.quiet_step (h : Stamps n s)
    (hsub : ∀ {u v msg}, msg ∈ s₀.net u v → msg ∈ s.net u v) (hhost : s₀.host = s.host)
    (hmem : r.1.mem = (s.host a).mem)
    (hflags : r.1.syn.barrierFlags = (s.host a).syn.barrierFlags) (hout : r.2 = [])
    (hnet : ∀ x, enterStamps (s₀.net x 0) = enterStamps (s.net x 0) ∧
      (s₀.net x 0).any Msg.isEnterBarrier = (s.net x 0).any Msg.isEnterBarrier ∧
      exitStamps (s₀.net 0 x) = exitStamps (s.net 0 x)) : Stamps n (s₀.put a r) := by
  have hm : ∀ x, ((s₀.put a r).host x).mem = (s.host x).mem :=
    put_host_forall (P := fun x h => h.mem = (s.host x).mem) hmem fun _ _ => by rw [hhost]
  have hf : ((s₀.put a r).host 0).syn.barrierFlags = (s.host 0).syn.barrierFlags :=
    put_host_forall (P := fun x h => h.syn.barrierFlags = (s.host x).syn.barrierFlags)
      hflags (fun _ _ => by rw [hhost]) 0
  have hput : ∀ u v, (s₀.put a r).net u v = s₀.net u v := by
    intro u v
    by_cases hu : u = a
    · subst hu
      rw [put_net_self, hout, outTo_nil, List.append_nil]
    · rw [put_net_ne hu]
  refine ⟨fun x hx => by rw [hm]; exact h.own x hx,
    h.grants_put hsub (by rw [hout]; exact fun _ hy => nomatch hy), fun x h0 hx ts => ?_,
    fun x h0 hx => ?_, fun hfl => ?_, fun x h0 hx => ?_⟩
  · rw [hput, (hnet x).2.2]
    exact h.exits x h0 hx ts
  · unfold Sys.stamp Sys.entered
    rw [hput, hm, hm, hf, (hnet x).1, (hnet x).2.1]
    exact h.enter x h0 hx
  · rw [hm]
    exact h.manager (hf ▸ hfl)
  · rw [hput, hm, hm, (hnet x).2.2]
    exact h.agree x h0 hx

/-! ## Reading the information -/

/-- Packets in flight add no interval to their reader's own list. -/
theorem Sound.read_shape (hs : Sound n s) {b : Nat} {msg : Msg}
    (hm : msg ∈ s.net a b) {base m' : Mem} (hl : base.Learned msg.packets m')
    (hbase : ∀ {ts}, (s.host b).mem.Known b ts → base.Known b ts) :
    m'.shape b = base.shape b := by
  refine hl.same_shape ?_
  rintro ts ⟨packet, hp, hn⟩
  exact hbase ((hs.told a b msg hm packet hp).said hn).2

theorem enterInfo_effect (hs : Sound n s) {ts : Timestamp} {k : Nat}
    {packets : List WnPacket} (hm : .grantEnterBarrierInfo ts k packets ∈ s.net x 0) :
    (handleGrantEnterBarrierMsg 0 x ts k packets (s.host 0).mem).shape 0 =
        (s.host 0).mem.shape 0 ∧
      (handleGrantEnterBarrierMsg 0 x ts k packets (s.host 0).mem).barrierTimestamps =
        if ts 0 ≠ -1 ∧ (s.host 0).mem.barrierTimestamps x 0 = -1 then
          upd (s.host 0).mem.barrierTimestamps x ts
        else (s.host 0).mem.barrierTimestamps := by
  unfold handleGrantEnterBarrierMsg
  dsimp only
  have hl := fun base => incorporatePackets_learned 0 k packets base
  split
  · refine ⟨(hs.read_shape hm (hl _) ?_).trans ?_, (hl _).barrierTimestamps⟩
    · exact fun hk => hk
    · rfl
  · exact ⟨hs.read_shape hm (hl _) id, (hl _).barrierTimestamps⟩

theorem exitInfo_effect (hs : Sound n s) {ts : Timestamp} {k : Nat}
    {packets : List WnPacket} (hm : .grantExitBarrierInfo ts k packets ∈ s.net 0 x) :
    (handleGrantExitBarrierMsg x ts k packets (s.host x).mem).shape x =
        (if ts 0 ≠ -1 then [(ts, true)] else []) ++ (s.host x).mem.shape x ∧
      (handleGrantExitBarrierMsg x ts k packets (s.host x).mem).barrierTimestamps =
        (s.host x).mem.barrierTimestamps := by
  unfold handleGrantExitBarrierMsg
  dsimp only
  have hl := fun base => incorporatePackets_learned x k packets base
  split
  · refine ⟨(hs.read_shape hm (hl _) fun hk => pushNow_known.mpr (Or.inl hk)).trans ?_,
      (hl _).barrierTimestamps⟩
    exact pushNow_shape_self ..
  · exact ⟨hs.read_shape hm (hl _) id, (hl _).barrierTimestamps⟩

theorem Stamps.enterInfo_step (hs : Steady n s) (h : Stamps n s) (h0 : 0 < x) (hx : x < n)
    {ts : Timestamp} {k : Nat} {packets : List WnPacket} {rest : List Msg}
    (hnet : s.net x 0 = .grantEnterBarrierInfo ts k packets :: rest) :
    Stamps n ((s.pop x 0).put 0 ({ s.host 0 with
      mem := handleGrantEnterBarrierMsg 0 x ts k packets (s.host 0).mem }, [])) := by
  have hm : Msg.grantEnterBarrierInfo ts k packets ∈ s.net x 0 := by
    rw [hnet]
    exact List.mem_cons_self
  obtain ⟨hshape, hnotes⟩ := enterInfo_effect hs.answered.sound hm
  generalize handleGrantEnterBarrierMsg 0 x ts k packets (s.host 0).mem = m' at hshape hnotes
  have hshape' : ∀ y, (((s.pop x 0).put 0 ({ s.host 0 with mem := m' }, [])).host
      y).mem.shape y = (s.host y).mem.shape y :=
    put_host_forall (P := fun y h => h.mem.shape y = (s.host y).mem.shape y) hshape
      fun _ _ => rfl
  have hdown : ∀ y, ((s.pop x 0).put 0 ({ s.host 0 with mem := m' }, [])).net 0 y =
      s.net 0 y := fun y => by
    rw [put_net_self, outTo_nil, List.append_nil, pop_net_ne (by omega)]
  refine ⟨fun y hy => by rw [hshape']; exact h.own y hy,
    h.grants_put mem_of_mem_pop (by exact fun _ hm => nomatch hm), fun y hy0 hy ts => ?_,
    fun y hy0 hy => ?_, fun hf => ?_, fun y hy0 hy => ?_⟩
  · rw [hdown]
    exact h.exits y hy0 hy ts
  · unfold Sys.stamp Sys.entered Mem.last
    rw [hshape', put_host_self, put_net_ne (by omega)]
    dsimp only
    rw [hnotes]
    have hold := h.enter y hy0 hy
    by_cases hyx : y = x
    · subst hyx
      -- the client is entering before and after
      obtain ⟨-, -, hflag, -, hup⟩ :=
        (hs.control.barrier.client y hy0 hy).up_head hnet rfl
      obtain ⟨infos, -, hrest⟩ : ∃ infos, (∀ m ∈ infos, m.isEnterInfo = true) ∧
          barrierMsgs rest = infos ++ [.enterBarrier] := by
        rcases hup with ⟨-, hi⟩ | ⟨hi, -⟩
        · exact hi
        · cases hi
      have hany : rest.any Msg.isEnterBarrier = true := by
        rw [← any_enter_barrierMsgs, hrest, List.any_append]
        simp [Msg.isEnterBarrier]
      have hent : s.entered y = true := by
        rw [Sys.entered, hnet, List.any_cons, hany, Bool.or_true, Bool.or_true]
      have hent' : ((s.host 0).syn.barrierFlags y ||
          ((s.pop y 0).net y 0).any Msg.isEnterBarrier) = true := by
        rw [pop_net_self, hnet, List.tail_cons, hany, Bool.or_true]
      rw [hent']
      rw [pop_net_self, hnet, List.tail_cons]
      rw [hent, hnet, enterStamps, List.filterMap_cons] at hold
      by_cases hts : ts 0 = -1
      · rw [if_neg fun h => h.1 hts]
        simp only [Msg.enterStamp, hts, if_true] at hold
        exact hold
      · simp only [Msg.enterStamp, hts, if_false] at hold
        generalize hq : rest.filterMap Msg.enterStamp = q at hold
        generalize hst : s.stamp n y = stamp at hold
        generalize hnb : (s.host 0).mem.barrierTimestamps y = noted at hold
        cases hold with
        | sent hn =>
            rw [if_pos ⟨hts, hn⟩, upd_self, enterStamps, hq, ← hst]
            exact .noted
    · rw [pop_net_ne (by omega)]
      have hnoted : (if ts 0 ≠ -1 ∧ (s.host 0).mem.barrierTimestamps x 0 = -1 then
          upd (s.host 0).mem.barrierTimestamps x ts
          else (s.host 0).mem.barrierTimestamps) y = (s.host 0).mem.barrierTimestamps y := by
        split
        · exact upd_ne hyx
        · rfl
      rw [hnoted]
      exact hold
  · rw [Mem.last, hshape', put_host_self]
    dsimp only
    rw [hnotes]
    have hnoted : (if ts 0 ≠ -1 ∧ (s.host 0).mem.barrierTimestamps x 0 = -1 then
        upd (s.host 0).mem.barrierTimestamps x ts
        else (s.host 0).mem.barrierTimestamps) 0 = (s.host 0).mem.barrierTimestamps 0 := by
      split
      · exact upd_ne (by omega)
      · rfl
    rw [hnoted]
    rw [put_host_self] at hf
    exact h.manager hf
  · unfold Mem.barriers
    rw [hdown, hshape', hshape']
    exact h.agree y hy0 hy

/-- Nothing of an exit is to be noted by the manager. -/
theorem Sys.Client.released (h : s.Client x) {msg : Msg} {rest : List Msg}
    (hnet : s.net 0 x = msg :: rest) (hmsg : msg.cls = .barrier) :
    s.entered x = false := by
  obtain ⟨-, -, hflag, hup, -⟩ := h.down_head hnet hmsg
  rw [Sys.entered, hflag, ← any_enter_barrierMsgs, hup]
  rfl

theorem Stamps.exitInfo_step (hs : Steady n s) (h : Stamps n s) (h0 : 0 < x) (hx : x < n)
    {ts : Timestamp} {k : Nat} {packets : List WnPacket} {rest : List Msg}
    (hnet : s.net 0 x = .grantExitBarrierInfo ts k packets :: rest) :
    Stamps n ((s.pop 0 x).put x ({ s.host x with
      mem := handleGrantExitBarrierMsg x ts k packets (s.host x).mem }, [])) := by
  have hm : Msg.grantExitBarrierInfo ts k packets ∈ s.net 0 x := by
    rw [hnet]
    exact List.mem_cons_self
  obtain ⟨hshape, -⟩ := exitInfo_effect hs.answered.sound hm
  generalize handleGrantExitBarrierMsg x ts k packets (s.host x).mem = m' at hshape
  have hhost : ∀ y, y ≠ x → ((s.pop 0 x).put x ({ s.host x with mem := m' }, [])).host y =
      s.host y := fun y hy => put_host_ne hy
  have hup : ∀ y, ((s.pop 0 x).put x ({ s.host x with mem := m' }, [])).net y 0 =
      s.net y 0 := by
    intro y
    by_cases hy : y = x
    · subst hy
      rw [put_net_self, outTo_nil, List.append_nil, pop_net_ne (by omega)]
    · rw [put_net_ne hy, pop_net_ne (by omega)]
  have hexit : exitStamps (s.net 0 x) =
      (if ts 0 ≠ -1 then [ts] else []) ++ exitStamps rest := by
    rw [hnet, exitStamps, List.filterMap_cons]
    by_cases hts : ts 0 = -1 <;> simp [Msg.exitStamp, hts, exitStamps]
  have hdown : ∀ y, exitStamps (((s.pop 0 x).put x ({ s.host x with mem := m' },
      [])).net 0 y) = if y = x then exitStamps rest else exitStamps (s.net 0 y) := by
    intro y
    rw [put_net_ne (by omega)]
    by_cases hy : y = x
    · rw [hy, pop_net_self, hnet, List.tail_cons, if_pos rfl]
    · rw [pop_net_ne (by omega), if_neg hy]
  refine ⟨?_, h.grants_put mem_of_mem_pop (by exact fun _ hm => nomatch hm),
    fun y hy0 hy t ht => ?_, fun y hy0 hy => ?_, fun hf => ?_, fun y hy0 hy => ?_⟩
  · refine put_host_forall (P := fun y h => y < n → ∀ z ∈ h.mem.shape y, NonNeg n z.1)
      (fun _ z hz => ?_) fun y _ => h.own y
    dsimp only at hz
    rw [hshape] at hz
    rcases List.mem_append.mp hz with hz | hz
    · split at hz
      · next hts =>
          rw [List.mem_singleton] at hz
          rw [hz]
          refine h.exits x h0 hx ts ?_
          rw [hexit, if_pos hts]
          exact List.mem_append_left _ (List.mem_singleton_self _)
      · cases hz
    · exact h.own x hx z hz
  · rw [hdown] at ht
    split at ht
    · next hyx =>
        refine h.exits x h0 hx t ?_
        rw [hexit]
        exact List.mem_append_right _ ht
    · exact h.exits y hy0 hy t ht
  · have hold := h.enter y hy0 hy
    unfold Sys.entered
    rw [hup, hhost 0 (by omega)]
    refine hold.restamp fun he => ?_
    have hyx : y ≠ x := by
      rintro rfl
      rw [(hs.control.barrier.client y hy0 hy).released hnet rfl] at he
      cases he
    rw [Sys.stamp, hhost y hyx, Sys.stamp]
  · rw [hhost 0 (by omega)] at hf ⊢
    exact h.manager hf
  · rw [hhost 0 (by omega), hdown]
    have hold := h.agree y hy0 hy
    by_cases hyx : y = x
    · subst hyx
      rw [if_pos rfl, put_host_self]
      rw [hexit, List.reverse_append, List.append_assoc] at hold
      have hb : m'.barriers y =
          (if ts 0 ≠ -1 then [ts] else []).reverse ++ (s.host y).mem.barriers y := by
        unfold Mem.barriers
        rw [hshape]
        split <;> rfl
      dsimp only
      rw [hb]
      exact hold
    · rw [if_neg hyx, hhost y hyx]
      exact hold

/-! ## The release -/

/-- The manager with everything noted, about to release. -/
structure Sys.Ready (n : Nat) (s s₀ : Sys) (h₀ : Host) : Prop where
  host : s₀.host = s.host
  sub : ∀ {u v msg}, msg ∈ s₀.net u v → msg ∈ s.net u v
  down : ∀ x, s₀.net 0 x = s.net 0 x
  shape : h₀.mem.shape 0 = (s.host 0).mem.shape 0
  noted : ∀ x, 0 < x → x < n → h₀.mem.barrierTimestamps x = s.stamp n x
  own : AgreeBelow n (h₀.mem.barrierTimestamps 0) ((s.host 0).mem.last 0)
  up : ∀ x, 0 < x → x < n → barrierMsgs (s₀.net x 0) = []

/-- Each component of the barrier's timestamp is one more than that host's. -/
theorem Sys.Ready.timestamp {h₀ : Host} (hr : s.Ready n s₀ h₀) {i : Fin maxHostNum}
    (hi : i.val < n) :
    barrierTimestamp n h₀.mem i = (s.host i.val).mem.last i.val i + 1 := by
  unfold barrierTimestamp
  rw [if_pos hi]
  by_cases h0 : i.val = 0
  · rw [h0, hr.own i hi]
  · rw [hr.noted i.val (by omega) hi, Sys.stamp, cut_apply hi]

theorem Stamps.release_nonNeg (h : Stamps n s) {h₀ : Host} (hr : s.Ready n s₀ h₀) :
    NonNeg n (barrierTimestamp n h₀.mem) := by
  intro i hi
  rw [hr.timestamp hi]
  have := h.last_nonNeg hi i hi
  omega

theorem Stamps.release_step (h : Stamps n s) (hn : 0 < n) {h₀ : Host}
    (hr : s.Ready n s₀ h₀) (hmem : r.1.mem = (h₀.release n).1.mem)
    (hflags : ∀ x < n, r.1.syn.barrierFlags x = false) (hout : r.2 = (h₀.release n).2) :
    Stamps n (s₀.put 0 r) := by
  have hT := h.release_nonNeg hr
  have hshape : r.1.mem.shape 0 =
      (barrierTimestamp n h₀.mem, true) :: (s.host 0).mem.shape 0 := by
    rw [hmem, ← hr.shape]
    exact pushNow_shape_self 0 ⟨barrierTimestamp n h₀.mem, [], true⟩ h₀.mem
  have hnotes : ∀ x < n, r.1.mem.barrierTimestamps x 0 = -1 := by
    intro x hx
    rw [hmem]
    exact if_pos ⟨hx, hn⟩
  have hhost : ∀ x, 0 < x → (s₀.put 0 r).host x = s.host x := fun x hx => by
    rw [put_host_ne (by omega), hr.host]
  have hexit : ∀ x, 0 < x → x < n → exitStamps ((s₀.put 0 r).net 0 x) =
      exitStamps (s.net 0 x) ++ [cut n (-1) (barrierTimestamp n h₀.mem)] := by
    intro x h0 hx
    rw [put_net_self, hr.down, exitStamps, List.filterMap_append, hout]
    rw [← exitStamps, ← exitStamps, exitStamps_release h₀ h0 hx ((hT.cut (-1)).proper hn)]
  refine ⟨?_, h.grants_put hr.sub (by rw [hout]; exact release_not_data n h₀),
    fun x h0 hx ts hts => ?_, fun x h0 hx => ?_, fun hf => ?_, fun x h0 hx => ?_⟩
  · refine put_host_forall (P := fun x h => x < n → ∀ y ∈ h.mem.shape x, NonNeg n y.1)
      (fun _ y hy => ?_) fun x _ => ?_
    · rw [hshape] at hy
      rcases List.mem_cons.mp hy with rfl | hy
      · exact hT
      · exact h.own 0 hn y hy
    · rw [hr.host]
      exact h.own x
  · rw [hexit x h0 hx] at hts
    rcases List.mem_append.mp hts with hts | hts
    · exact h.exits x h0 hx ts hts
    · rw [List.mem_singleton.mp hts]
      exact hT.cut (-1)
  · have hup := hr.up x h0 hx
    have hent : (s₀.put 0 r).entered x = false := by
      rw [Sys.entered, put_host_self, hflags x hx, put_net_ne (by omega),
        ← any_enter_barrierMsgs, hup]
      rfl
    rw [hent, put_host_self, put_net_ne (by omega), ← enterStamps_barrierMsgs, hup]
    exact .idle (hnotes x hx)
  · rw [put_host_self, hflags 0 hn] at hf
    cases hf
  · rw [hexit x h0 hx, List.reverse_append, List.reverse_singleton, hhost x h0,
      put_host_self, Mem.barriers, hshape]
    exact .cons (fun i hi => (cut_apply hi).symm) (h.agree x h0 hx)

/-- A flagged client is noted. -/
theorem Stamps.flagged_noted (hs : Steady n s) (h : Stamps n s) (h0 : 0 < x) (hx : x < n)
    (hflag : (s.host 0).syn.barrierFlags x = true) :
    (s.host 0).mem.barrierTimestamps x = s.stamp n x := by
  obtain ⟨-, -, hup, -⟩ := (hs.control.barrier.client x h0 hx).flagged hflag
  have hold := h.enter x h0 hx
  rw [Sys.entered, hflag, ← enterStamps_barrierMsgs, hup] at hold
  generalize (s.host 0).mem.barrierTimestamps x = noted at hold ⊢
  cases hold
  rfl

theorem Stamps.ready_call (hs : Steady n s) (h : Stamps n s) (hn : 0 < n)
    (hall : ∀ x, 0 < x → x < n → (s.host 0).syn.barrierFlags x = true) :
    s.Ready n s ((s.host 0).stamped n) where
  host := rfl
  sub := id
  down _ := rfl
  shape := rfl
  noted x h0 hx := by
    rw [← h.flagged_noted hs h0 hx (hall x h0 hx)]
    exact upd_ne (by omega)
  own i hi := by
    rw [← (hs.answered.sound.nowTop 0 hn).last]
    exact stamp_self _ hi
  up x h0 hx := ((hs.control.barrier.client x h0 hx).flagged (hall x h0 hx)).2.2.1

/-- The `ENTER_BARRIER` of the last client is read. -/
theorem Stamps.ready_read (hs : Steady n s) (h : Stamps n s) (h0 : 0 < x) (hx : x < n)
    {rest : List Msg} (hnet : s.net x 0 = .enterBarrier :: rest)
    (hall : ∀ y < n, ((s.host 0).flagged x).syn.barrierFlags y = true) :
    s.Ready n (s.pop x 0) ((s.host 0).flagged x) := by
  obtain ⟨-, -, hflag, -, hup⟩ := (hs.control.barrier.client x h0 hx).up_head hnet rfl
  have hrest : barrierMsgs rest = [] := by
    rcases hup with ⟨hi, -⟩ | ⟨-, hi⟩
    · cases hi
    · exact hi
  have hflags : ∀ y < n, y ≠ x → (s.host 0).syn.barrierFlags y = true := fun y hy hne =>
    (upd_ne hne).symm.trans (hall y hy)
  refine ⟨rfl, mem_of_mem_pop, fun y => pop_net_ne (by omega), rfl, fun y hy0 hy => ?_,
    h.manager (hflags 0 (by omega) (by omega)), fun y hy0 hy => ?_⟩
  · by_cases hyx : y = x
    · subst hyx
      have hold := h.enter y hy0 hy
      have hent : s.entered y = true := by
        rw [Sys.entered, hnet, List.any_cons]
        simp [Msg.isEnterBarrier]
      have hempty : enterStamps (s.net y 0) = [] := by
        rw [← enterStamps_barrierMsgs, hnet, barrierMsgs_cons rfl, hrest]
        rfl
      rw [hent, hempty] at hold
      change (s.host 0).mem.barrierTimestamps y = _
      generalize (s.host 0).mem.barrierTimestamps y = noted at hold ⊢
      cases hold
      rfl
    · exact h.flagged_noted hs hy0 hy (hflags y hy hyx)
  · by_cases hyx : y = x
    · subst hyx
      rw [pop_net_self, hnet, List.tail_cons, hrest]
    · rw [pop_net_ne (by omega)]
      exact ((hs.control.barrier.client y hy0 hy).flagged (hflags y hy hyx)).2.2.1

/-! ## Every step -/

/-- A flag goes up. -/
theorem Stamps.flag_step (h : Stamps n s) (h0 : 0 < x) {rest : List Msg}
    (hnet : s.net x 0 = .enterBarrier :: rest) :
    Stamps n ((s.pop x 0).put 0 ((s.host 0).flagged x, [])) := by
  have hhost : ∀ y, (((s.pop x 0).put 0 ((s.host 0).flagged x, [])).host y).mem =
      (s.host y).mem :=
    put_host_forall (P := fun y h => h.mem = (s.host y).mem) rfl fun _ _ => rfl
  have hdown : ∀ y, ((s.pop x 0).put 0 ((s.host 0).flagged x, [])).net 0 y = s.net 0 y :=
    fun y => by rw [put_net_self, outTo_nil, List.append_nil, pop_net_ne (by omega)]
  refine ⟨fun y hy => by rw [hhost]; exact h.own y hy,
    h.grants_put mem_of_mem_pop (by exact fun _ hm => nomatch hm), fun y hy0 hy ts => ?_,
    fun y hy0 hy => ?_, fun hf => ?_, fun y hy0 hy => ?_⟩
  · rw [hdown]
    exact h.exits y hy0 hy ts
  · have hold := h.enter y hy0 hy
    unfold Sys.stamp Sys.entered at *
    rw [hhost, hhost, put_host_self, put_net_ne (by omega)]
    by_cases hyx : y = x
    · subst hyx
      have hany : ((s.net y 0).any Msg.isEnterBarrier) = true := by
        rw [hnet, List.any_cons]
        rfl
      have hself : ((s.host 0).flagged y).syn.barrierFlags y = true := upd_self ..
      rw [hany, Bool.or_true, hnet, enterStamps, List.filterMap_cons] at hold
      dsimp only
      rw [hself, Bool.true_or, pop_net_self, hnet, List.tail_cons]
      exact hold
    · have hne : ((s.host 0).flagged x).syn.barrierFlags y =
          (s.host 0).syn.barrierFlags y := upd_ne hyx
      dsimp only
      rw [hne, pop_net_ne (by omega)]
      exact hold
  · rw [hhost]
    rw [put_host_self] at hf
    exact h.manager ((upd_ne (show 0 ≠ x by omega)).symm.trans hf)
  · rw [hdown, hhost, hhost]
    exact h.agree y hy0 hy

theorem Stamps.step (hs : Steady n s) (h : Stamps n s) {e : Event}
    (he : Midsm.step n s e = some s') : Stamps n s' := by
  cases hs.turn he with
  | other ha _ _ hhost hsub hnet hb => exact h.other hs ha hhost hsub hnet hb
  | enter h0 hx hpc => exact h.enter_step hs h0 hx hpc
  | note hn _ => exact h.note_step hs hn
  | releaseCall hn hpc hall =>
      exact h.release_step hn (h.ready_call hs hn hall) rfl (fun x hx => if_pos hx) rfl
  | leave hx hpc hw =>
      exact h.quiet_step id rfl rfl rfl rfl fun _ => ⟨rfl, rfl, rfl⟩
  | enterInfo h0 hx hnet => exact h.enterInfo_step hs h0 hx hnet
  | exitInfo h0 hx hnet => exact h.exitInfo_step hs h0 hx hnet
  | flag h0 hx hnet => exact h.flag_step h0 hnet
  | release h0 hx hnet hall =>
      exact h.release_step (by omega) (h.ready_read hs h0 hx hnet hall) rfl
        (fun x hx => if_pos hx) rfl
  | wake h0 hx hnet =>
      refine h.quiet_step mem_of_mem_pop rfl rfl rfl rfl fun y => ?_
      rw [pop_net_ne (by omega)]
      refine ⟨rfl, rfl, ?_⟩
      rename_i x rest
      by_cases hyx : y = x
      · subst hyx
        rw [pop_net_self, hnet, List.tail_cons]
        rfl
      · rw [pop_net_ne (by omega)]

end

end Midsm
