import Midsm.Proofs.Notices

/-!
# Requests and their replies

A host that asks another one for a diff or for notices raises a flag, spins, and
the handler of the reply lowers the flag. Both exchanges follow one pattern. As
long as the flag is up exactly one message of the exchange is in flight, the
request or its reply, and while it is down there is none: so nothing else can
lower the flag, and no request is left without a reply. `Exchange` is the
pattern and `Exchange.Settled` the invariant.

For notices the other host always answers. For diffs it does because it has a
notice of its own with the timestamp asked for, which is what `Sound` promises.
-/

namespace Midsm

open Midsm.Lib

structure Exchange where
  isRequest : Msg → Bool
  isReply : Msg → Bool
  flag : Mem → Bool
  waits : Host → Bool

namespace Exchange

/-- The messages of host `x`'s exchange with host `g` that are in flight. -/
def traffic (X : Exchange) (s : Sys) (x g : Nat) : Nat :=
  (s.net x g).countP X.isRequest + (s.net g x).countP X.isReply

structure Settled (X : Exchange) (s : Sys) (x : Nat) : Prop where
  waits : X.flag (s.host x).mem = true → X.waits (s.host x) = true
  idle : X.flag (s.host x).mem = false → ∀ g, X.traffic s x g = 0
  busy : X.flag (s.host x).mem = true →
    ∃ g ≠ x, X.traffic s x g = 1 ∧ ∀ g' ≠ g, X.traffic s x g' = 0

/-- What a segment of the main thread does about the exchange. -/
inductive Calls (X : Exchange) (me : Nat) (h : Host) (r : Host × Out) : Prop
  | rest : X.flag r.1.mem = X.flag h.mem →
      (X.flag h.mem = true → X.waits h = true → X.waits r.1 = true) →
      (∀ x ∈ r.2, X.isRequest x.2 = false ∧ X.isReply x.2 = false) → Calls X me h r
  | ask (g : Nat) (msg : Msg) : g ≠ me → (X.waits h = true → X.flag h.mem = false) →
      X.flag r.1.mem = true → X.waits r.1 = true → r.2 = [(g, msg)] →
      X.isRequest msg = true → X.isReply msg = false → Calls X me h r

/-- What reading a message does about it. -/
inductive Reads (X : Exchange) (sender : Nat) (msg : Msg) (h : Host) (r : Host × Out) :
    Prop
  | rest : X.isRequest msg = false → X.isReply msg = false →
      X.flag r.1.mem = X.flag h.mem → (X.waits h = true → X.waits r.1 = true) →
      (∀ x ∈ r.2, X.isRequest x.2 = false ∧ X.isReply x.2 = false) →
      Reads X sender msg h r
  | serve (reply : Msg) : X.isRequest msg = true → X.isReply msg = false →
      X.flag r.1.mem = X.flag h.mem → (X.waits h = true → X.waits r.1 = true) →
      r.2 = [(sender, reply)] →
      X.isRequest reply = false → X.isReply reply = true → Reads X sender msg h r
  | done : X.isRequest msg = false → X.isReply msg = true → X.flag r.1.mem = false →
      r.2 = [] → Reads X sender msg h r

variable {X : Exchange} {s : Sys} {a b x g : Nat} {r : Host × Out}

/-! ## Counting -/

theorem countP_outTo_none {p : Msg → Bool} {out : Out} (h : ∀ x ∈ out, p x.2 = false)
    (b : Nat) : (outTo out b).countP p = 0 := by
  rw [List.countP_eq_zero]
  intro msg hm
  rw [h _ (mem_outTo.mp hm)]
  exact Bool.false_ne_true

theorem countP_outTo_single (p : Msg → Bool) (c b : Nat) (msg : Msg) :
    (outTo [(c, msg)] b).countP p = if b = c ∧ p msg = true then 1 else 0 := by
  by_cases hb : b = c
  · subst hb
    rw [outTo_cons_self, outTo_nil, List.countP_singleton]
    simp
  · rw [outTo_cons_ne (Ne.symm hb), outTo_nil, List.countP_nil, if_neg (fun h => hb h.1)]

theorem traffic_put (X : Exchange) (s : Sys) (a : Nat) (r : Host × Out) (x g : Nat) :
    X.traffic (s.put a r) x g = X.traffic s x g +
      (if x = a then (outTo r.2 g).countP X.isRequest else 0) +
      if g = a then (outTo r.2 x).countP X.isReply else 0 := by
  have hnet : ∀ u v p, ((s.put a r).net u v).countP p = (s.net u v).countP p +
      if u = a then (outTo r.2 v).countP p else 0 := by
    intro u v p
    by_cases hu : u = a
    · subst hu
      rw [put_net_self, List.countP_append, if_pos rfl]
    · rw [put_net_ne hu, if_neg hu, Nat.add_zero]
  unfold traffic
  rw [hnet, hnet]
  omega

theorem traffic_pop {msg : Msg} {rest : List Msg} (hnet : s.net a b = msg :: rest)
    (X : Exchange) (x g : Nat) :
    X.traffic s x g = X.traffic (s.pop a b) x g +
      (if x = a ∧ g = b ∧ X.isRequest msg = true then 1 else 0) +
      if g = a ∧ x = b ∧ X.isReply msg = true then 1 else 0 := by
  have hpop : ∀ u v p, (s.net u v).countP p = ((s.pop a b).net u v).countP p +
      if u = a ∧ v = b ∧ p msg = true then 1 else 0 := by
    intro u v p
    by_cases huv : u = a ∧ v = b
    · obtain ⟨rfl, rfl⟩ := huv
      rw [pop_net_self, hnet, List.tail_cons, List.countP_cons]
      simp
    · rw [pop_net_ne (by omega), if_neg (fun h => huv ⟨h.1, h.2.1⟩), Nat.add_zero]
  unfold traffic
  rw [hpop x g, hpop g x]
  omega

/-! ## The invariant -/

theorem Settled.init (X : Exchange) (hX : ∀ x, X.flag (initSys.host x).mem = false)
    (x : Nat) : X.Settled initSys x where
  waits h := by rw [hX] at h; cases h
  idle _ _ := rfl
  busy h := by rw [hX] at h; cases h

/-- The invariant reads the host's flag and wait and its traffic. -/
theorem Settled.congr {s' : Sys} (h : X.Settled s x)
    (hf : X.flag (s'.host x).mem = X.flag (s.host x).mem)
    (hw : X.flag (s.host x).mem = true → X.waits (s.host x) = true →
      X.waits (s'.host x) = true)
    (ht : ∀ g, X.traffic s' x g = X.traffic s x g) : X.Settled s' x where
  waits hu := hw (hf ▸ hu) (h.waits (hf ▸ hu))
  idle hd g := (ht g).trans (h.idle (hf ▸ hd) g)
  busy hu := by
    obtain ⟨g, hg, h1, h0⟩ := h.busy (hf ▸ hu)
    exact ⟨g, hg, (ht g).trans h1, fun g' hg' => (ht g').trans (h0 g' hg')⟩

theorem Settled.call (h : ∀ x, X.Settled s x) (hc : X.Calls a (s.host a) r) :
    ∀ x, X.Settled (s.put a r) x := by
  intro x
  cases hc with
  | rest hf hw hout =>
      have ht : ∀ g, X.traffic (s.put a r) x g = X.traffic s x g := by
        intro g
        rw [traffic_put, countP_outTo_none fun y hy => (hout y hy).1,
          countP_outTo_none fun y hy => (hout y hy).2, ite_self, ite_self, Nat.add_zero]
      by_cases hx : x = a
      · subst hx
        exact (h x).congr (by rw [put_host_self, hf]) (by rw [put_host_self]; exact hw) ht
      · refine (h x).congr (by rw [put_host_ne hx]) (fun _ hp => ?_) ht
        rw [put_host_ne hx]
        exact hp
  | ask g msg hne hdown hup hwaits hout hreq hrep =>
      have ht : ∀ g', X.traffic (s.put a r) x g' = X.traffic s x g' +
          if x = a ∧ g' = g then 1 else 0 := by
        intro g'
        rw [traffic_put, hout, countP_outTo_single, countP_outTo_single, hreq, hrep]
        by_cases hx : x = a <;> by_cases hg : g' = g <;> simp [hx, hg]
      by_cases hx : x = a
      · subst hx
        have hoff : X.flag (s.host x).mem = false := by
          cases hf : X.flag (s.host x).mem with
          | false => rfl
          | true => rw [← hf, hdown ((h x).waits hf)]
        refine ⟨fun _ => ?_, fun hd => ?_, fun _ => ⟨g, hne, ?_, fun g' hg' => ?_⟩⟩
        · rw [put_host_self]
          exact hwaits
        · rw [put_host_self, hup] at hd
          cases hd
        · rw [ht, (h x).idle hoff, if_pos ⟨rfl, rfl⟩]
        · rw [ht, (h x).idle hoff, if_neg fun h => hg' h.2]
      · refine (h x).congr (by rw [put_host_ne hx]) (fun _ hp => ?_) fun g' => ?_
        · rw [put_host_ne hx]
          exact hp
        · rw [ht, if_neg fun h => hx h.1, Nat.add_zero]

theorem Settled.read (h : ∀ x, X.Settled s x) {msg : Msg} {rest : List Msg}
    (hnet : s.net a b = msg :: rest) (hc : X.Reads a msg (s.host b) r) :
    ∀ x, X.Settled ((s.pop a b).put b r) x := by
  have hpop := traffic_pop hnet X
  have hother : ∀ x, x ≠ b → (∀ g, X.traffic ((s.pop a b).put b r) x g = X.traffic s x g) →
      X.Settled ((s.pop a b).put b r) x := by
    intro x hx ht
    refine (h x).congr (by rw [put_host_ne hx]; rfl) (fun _ hp => ?_) ht
    rw [put_host_ne hx]
    exact hp
  -- a message that leaves the traffic as it is changes nothing
  have hsame : (∀ x g, X.traffic ((s.pop a b).put b r) x g = X.traffic s x g) →
      X.flag r.1.mem = X.flag (s.host b).mem →
      (X.waits (s.host b) = true → X.waits r.1 = true) → ∀ x, X.Settled ((s.pop a b).put b r) x := by
    intro ht hf hp x
    by_cases hx : x = b
    · subst hx
      refine (h x).congr (by rw [put_host_self, hf]) (fun _ hw => ?_) (ht x)
      rw [put_host_self]
      exact hp hw
    · exact hother x hx (ht x)
  cases hc with
  | rest hreq hrep hf hp hout =>
      refine hsame (fun x g => ?_) hf hp
      rw [hpop, traffic_put, countP_outTo_none fun y hy => (hout y hy).1,
        countP_outTo_none fun y hy => (hout y hy).2, hreq, hrep]
      simp
  | serve reply hreq hrep hf hp hout hreq' hrep' =>
      refine hsame (fun x g => ?_) hf hp
      rw [hpop, traffic_put, hout, countP_outTo_single, countP_outTo_single, hreq, hrep,
        hreq', hrep']
      by_cases hx : x = a <;> by_cases hg : g = b <;> simp [hx, hg]
  | done hreq hrep hf hout =>
      have ht : ∀ x g, X.traffic s x g = X.traffic ((s.pop a b).put b r) x g +
          if g = a ∧ x = b then 1 else 0 := by
        intro x g
        rw [hpop, traffic_put, hout, hreq, hrep]
        simp
      intro x
      by_cases hx : x = b
      · subst hx
        have hup : X.flag (s.host x).mem = true := by
          cases hf' : X.flag (s.host x).mem with
          | true => rfl
          | false =>
              have h0 := (h x).idle hf' a
              rw [ht, if_pos ⟨rfl, rfl⟩] at h0
              omega
        obtain ⟨g, -, h1, h0⟩ := (h x).busy hup
        have hga : g = a := by
          by_contra hne
          have := h0 a (Ne.symm hne)
          rw [ht, if_pos ⟨rfl, rfl⟩] at this
          omega
        refine ⟨fun hu => ?_, fun _ g' => ?_, fun hu => ?_⟩
        · rw [put_host_self, hf] at hu
          cases hu
        · by_cases hg' : g' = a
          · have := ht x g'
            rw [if_pos ⟨hg', rfl⟩, hg', ← hga, h1] at this
            rw [hg', ← hga]
            omega
          · have := ht x g'
            rw [if_neg fun h => hg' h.1, h0 g' (by rw [hga]; exact hg')] at this
            omega
        · rw [put_host_self, hf] at hu
          cases hu
      · refine hother x hx fun g => ?_
        rw [ht x g, if_neg fun h => hx h.2, Nat.add_zero]

/-- A message outside the exchange whose handler calls. -/
theorem Settled.read_call (h : ∀ x, X.Settled s x) {msg : Msg} {rest : List Msg}
    (hnet : s.net a b = msg :: rest) (hreq : X.isRequest msg = false)
    (hrep : X.isReply msg = false) (hc : X.Calls b (s.host b) r) :
    ∀ x, X.Settled ((s.pop a b).put b r) x := by
  have hpop : ∀ x, X.Settled (s.pop a b) x := fun x =>
    (h x).congr rfl (fun _ hw => hw) fun g => by
      rw [traffic_pop hnet X x g, hreq, hrep]
      simp
  exact Settled.call hpop hc

end Exchange

/-! ## Diffs and notices -/

def diffExchange : Exchange where
  isRequest msg := match msg with
    | .fetchDiff _ _ => true
    | _ => false
  isReply msg := match msg with
    | .grantDiff _ _ _ => true
    | _ => false
  flag m := m.fetchDiffWaitFlag
  waits h := h.hung || h.pc.diffFrom.isSome

def wniExchange : Exchange where
  isRequest msg := match msg with
    | .fetchWnI _ => true
    | _ => false
  isReply msg := match msg with
    | .grantWnI _ _ _ => true
    | _ => false
  flag m := m.fetchWNIWaitFlag
  waits h := h.pc.fetches

theorem diffExchange_waits (h : Host) :
    diffExchange.waits h = (h.hung || h.pc.diffFrom.isSome) := rfl

theorem wniExchange_waits (h : Host) : wniExchange.waits h = h.pc.fetches := rfl

/-- Both exchanges are about memory only. -/
def Exchange.OfData (X : Exchange) : Prop :=
  ∀ msg : Msg, msg.cls ≠ .data → X.isRequest msg = false ∧ X.isReply msg = false

theorem diffExchange_ofData : diffExchange.OfData := by
  intro msg h
  cases msg <;> first | exact ⟨rfl, rfl⟩ | exact absurd rfl h

theorem wniExchange_ofData : wniExchange.OfData := by
  intro msg h
  cases msg <;> first | exact ⟨rfl, rfl⟩ | exact absurd rfl h

section

variable {n me : Nat} {h : Host} {r : Host × Out}

theorem Exchange.OfData.out {X : Exchange} (hX : X.OfData)
    (ho : ∀ x ∈ r.2, x.2.cls ≠ .data) :
    ∀ x ∈ r.2, X.isRequest x.2 = false ∧ X.isReply x.2 = false := fun x hx => hX _ (ho x hx)

/-- A call that has nothing to do with the exchange. -/
theorem Exchange.Calls.outside {X : Exchange} (hX : X.OfData)
    (hf : X.flag r.1.mem = X.flag h.mem)
    (hw : X.waits h = true → X.flag h.mem = false)
    (ho : ∀ x ∈ r.2, x.2.cls ≠ .data) : X.Calls me h r := by
  refine .rest hf (fun hu hp => ?_) (hX.out ho)
  rw [hw hp] at hu
  cases hu

theorem enter_cls (n me : Nat) (m : Mem) :
    ∀ x ∈ sendEnterBarrierInfo n me m ++ [(0, Msg.enterBarrier)], x.2.cls ≠ .data := by
  intro x hx
  rcases List.mem_append.mp hx with hx | hx
  · rw [Msg.cls_of_isEnterInfo (enterInfo_spec n me m x hx).2]
    exact nofun
  · rw [List.mem_singleton.mp hx]
    exact nofun

theorem release_not_data (n : Nat) (h : Host) :
    ∀ x ∈ (h.release n).2, x.2.cls ≠ .data := by
  intro x hx
  rw [release_cls n h x hx]
  exact nofun

theorem ExecMem.wni {op : Op} (hc : ExecMem n me h op r) (hs : h.pc.Sound n me h.mem) :
    wniExchange.Calls me h r := by
  have hrun : h.pc = .run → wniExchange.waits h = true → wniExchange.flag h.mem = false :=
    fun hpc hw => (by rw [wniExchange_waits, hpc] at hw; cases hw)
  have hX := wniExchange_ofData
  cases hc with
  | access hq hf _ =>
      obtain ⟨-, -, hplain, -, hflag⟩ := hf hs
      refine .rest hflag (fun _ hw => ?_) fun x hx => ?_
      · rw [wniExchange_waits] at hw ⊢
        rcases hq.pc with hp | ⟨hcalm, -⟩
        · rw [hp]
          exact hw
        · cases hpc : h.pc <;> rw [hpc] at hw hcalm <;> first | exact hcalm.elim | cases hw
      · have hm := hplain x hx
        cases hmsg : x.2 <;> rw [hmsg] at hm <;> first | exact ⟨rfl, rfl⟩ | cases hm
  | keep hm _ hfetch _ ho => exact .outside hX (by rw [hm]) hfetch (asks_lock ho)
  | fresh hm _ hfetch _ ho =>
      refine .outside hX (by rw [hm]; rfl) (fun hw => ?_) (asks_lock ho)
      rw [wniExchange_waits, hfetch] at hw
      cases hw
  | fetch g l path _ hne hm hp hfetch _ ho =>
      refine .ask g _ hne (fun hw => ?_) (by rw [hm]; rfl) (by rw [wniExchange_waits, hp]; rfl) ho rfl rfl
      rw [wniExchange_waits, hfetch] at hw
      cases hw
  | enter _ hpc hm _ ho =>
      exact .outside hX (by rw [hm]) (hrun hpc) (by rw [ho]; exact enter_cls n me h.mem)
  | note _ hpc hm _ ho =>
      exact .outside hX (by rw [hm]; rfl) (hrun hpc) (by rw [ho]; exact fun _ hx => nomatch hx)
  | release _ hpc hm _ ho =>
      exact .outside hX (by rw [hm]; rfl) (hrun hpc) (by rw [ho]; exact release_not_data n _)

/-- A host that has not hung waits for diffs only in a fault. -/
theorem diffExchange_idle (hh : h.hung = false) (hf : h.pc.faulting = none) :
    diffExchange.waits h = false := by
  rw [diffExchange_waits, hh, Pc.diffFrom_of_faulting hf]
  rfl

/-- A handler leaves the main thread where it is, and a host that hangs waits. -/
theorem diffExchange_kept (hh : h.hung = false) (hp : r.1.pc = h.pc)
    (hw : diffExchange.waits h = true) : diffExchange.waits r.1 = true := by
  rw [diffExchange_waits, hh, Bool.false_or] at hw
  rw [diffExchange_waits, hp, hw, Bool.or_true]

theorem ExecMem.diff {op : Op} (hc : ExecMem n me h op r) (hh : h.hung = false)
    (hs : h.pc.Sound n me h.mem) : diffExchange.Calls me h r := by
  have hno : h.pc.faulting = none → diffExchange.waits h = true →
      diffExchange.flag h.mem = false := fun hf hw => by
    rw [diffExchange_idle hh hf] at hw
    cases hw
  have hrun : h.pc = .run → h.pc.faulting = none := fun hpc => by rw [hpc]; rfl
  have hX := diffExchange_ofData
  cases hc with
  | access hq hf hd =>
      obtain ⟨-, -, hplain, hasks, -⟩ := hf hs
      have hdown : diffExchange.waits h = true → diffExchange.flag h.mem = false := by
        intro hw
        rw [diffExchange_waits, hh] at hw
        exact hd (Option.ne_none_iff_isSome.mpr hw)
      obtain ⟨r₁, out⟩ := r
      generalize hpc : r₁.pc = pc at hasks
      dsimp only at hasks hplain
      cases hasks with
      | none hflag hnot hpc' =>
          refine .rest hflag (fun hu hw => ?_) fun x hx => ?_
          · rw [hdown hw] at hu
            cases hu
          · obtain ⟨j, msg⟩ := x
            have hm := hplain _ hx
            cases msg <;> first | exact ⟨rfl, rfl⟩ | exact absurd hx (hnot _ _ _) | cases hm
      | one j p ts pageTs rest hflag hn hne hk =>
          exact .ask j _ hne hdown hflag 
            (by rw [diffExchange_waits, hpc]; exact Bool.or_true _) rfl rfl rfl
  | keep hm _ _ hf ho => exact .outside hX (by rw [hm]) (hno hf) (asks_lock ho)
  | fresh hm _ _ hf ho => exact .outside hX (by rw [hm]; rfl) (hno hf) (asks_lock ho)
  | fetch g l path _ hne hm hp _ hf ho =>
      refine .rest (by rw [hm]; rfl) (fun hu hw => ?_) fun x hx => ?_
      · rw [hno hf hw] at hu
        cases hu
      · rw [ho, List.mem_singleton] at hx
        rw [hx]
        exact ⟨rfl, rfl⟩
  | enter _ hpc hm _ ho =>
      exact .outside hX (by rw [hm]) (hno (hrun hpc)) (by rw [ho]; exact enter_cls n me h.mem)
  | note _ hpc hm _ ho =>
      exact .outside hX (by rw [hm]; rfl) (hno (hrun hpc))
        (by rw [ho]; exact fun _ hx => nomatch hx)
  | release _ hpc hm _ ho =>
      exact .outside hX (by rw [hm]; rfl) (hno (hrun hpc))
        (by rw [ho]; exact release_not_data n _)

/-! ## The handlers -/

theorem makeDiff_flags (p : Nat) (ts : Timestamp) (m : Mem) :
    (makeDiff me p ts m).fetchDiffWaitFlag = m.fetchDiffWaitFlag ∧
      (makeDiff me p ts m).fetchWNIWaitFlag = m.fetchWNIWaitFlag := by
  unfold makeDiff
  dsimp only
  split
  · exact freeTwinPage_flags ..
  · exact ⟨rfl, rfl⟩

theorem grantDiff_flags (hostid p : Nat) (ts : Timestamp) (m : Mem) :
    (grantDiff n me hostid ts p m).2.1.fetchDiffWaitFlag = m.fetchDiffWaitFlag ∧
      (grantDiff n me hostid ts p m).2.1.fetchWNIWaitFlag = m.fetchWNIWaitFlag := by
  unfold grantDiff
  dsimp only
  split
  · exact ⟨rfl, rfl⟩
  · split
    · exact ⟨rfl, rfl⟩
    · split
      · exact ⟨rfl, rfl⟩
      · split
        · exact ⟨rfl, rfl⟩
        · dsimp only
          split
          · exact ⟨rfl, rfl⟩
          · exact makeDiff_flags ..

theorem handleGrantWNIMsg_diffFlag (ts : Timestamp) (k : Nat) (packets : List WnPacket)
    (m : Mem) :
    (handleGrantWNIMsg me ts k packets m).fetchDiffWaitFlag = m.fetchDiffWaitFlag :=
  (incorporatePackets_learned me k packets _).diffFlag

theorem enterInfo_flags (sender : Nat) (ts : Timestamp) (k : Nat)
    (packets : List WnPacket) (m : Mem) :
    (handleGrantEnterBarrierMsg me sender ts k packets m).fetchDiffWaitFlag =
        m.fetchDiffWaitFlag ∧
      (handleGrantEnterBarrierMsg me sender ts k packets m).fetchWNIWaitFlag =
        m.fetchWNIWaitFlag := by
  unfold handleGrantEnterBarrierMsg
  dsimp only
  rw [(incorporatePackets_learned me k packets _).diffFlag,
    (incorporatePackets_learned me k packets _).wniFlag]
  split <;> exact ⟨rfl, rfl⟩

theorem exitInfo_flags (ts : Timestamp) (k : Nat) (packets : List WnPacket) (m : Mem) :
    (handleGrantExitBarrierMsg me ts k packets m).fetchDiffWaitFlag =
        m.fetchDiffWaitFlag ∧
      (handleGrantExitBarrierMsg me ts k packets m).fetchWNIWaitFlag =
        m.fetchWNIWaitFlag := by
  unfold handleGrantExitBarrierMsg
  dsimp only
  rw [(incorporatePackets_learned me k packets _).diffFlag,
    (incorporatePackets_learned me k packets _).wniFlag]
  split <;> exact ⟨rfl, rfl⟩

/-- The answer to a request for notices carries those of the intervals that are
after the timestamp in it. -/
theorem grantWNI_answers {hostid : Nat} (hn : hostid < n) (hne : hostid ≠ me)
    (ts : Timestamp) (m : Mem) :
    ∃ packets, (grantWNI n me hostid ts m).2 =
        [(hostid, .grantWnI (m.now me).timestamp packets.length packets)] ∧
      ∀ j t p, SaidNotice packets j t p ↔
        j < n ∧ isAfterInterval n t ts = true ∧ m.Listed j t p := by
  refine ⟨_, ?_, fun j t p => allAfter_pages⟩
  rw [grantWNI, if_neg (by omega), if_neg hne]

theorem findNotice_of_noted {m : Mem} {j p : Nat} {ts : Timestamp} (h : m.Noted j ts p) :
    ∃ wn ∈ (m.pageArray p).notices j, wn.timestamp = ts ∧
      findNotice ts ((m.pageArray p).notices j) = some wn := by
  obtain ⟨wn, hm, hts⟩ := List.mem_map.mp h
  have hsome : (findNotice ts ((m.pageArray p).notices j)).isSome = true := by
    rw [findNotice, List.find?_isSome]
    exact ⟨wn, hm, by simpa using hts⟩
  obtain ⟨found, hf⟩ := Option.isSome_iff_exists.mp hsome
  exact ⟨found, List.mem_of_find?_eq_some hf, by simpa using List.find?_some hf, hf⟩

/-- A host with the notice asked for grants its diff. -/
theorem grantDiff_answers {hostid p : Nat} {ts : Timestamp} {m : Mem} (hn : hostid < n)
    (hne : hostid ≠ me) (hp : p < maxPageNum) (hl : (m.pageArray p).Live)
    (hk : m.Noted me ts p) :
    ∃ m' diff, grantDiff n me hostid ts p m = (0, m', [(hostid, .grantDiff ts p diff)]) := by
  obtain ⟨wn, -, -, hf⟩ := findNotice_of_noted hk
  unfold grantDiff
  dsimp only
  rw [if_neg (by omega), if_neg (by omega), if_neg fun h => h.elim hl.1 hl.2, hf]
  exact ⟨_, _, rfl⟩

theorem ReadMem.wni {sender : Nat} {msg : Msg} (hc : ReadMem n me sender h msg r)
    (hn : sender < n) (hne : sender ≠ me) : wniExchange.Reads sender msg h r := by
  have hX := wniExchange_ofData
  have hkeep : r.1.pc = h.pc → wniExchange.waits h = true → wniExchange.waits r.1 = true :=
    fun hp hw => by rwa [wniExchange_waits, hp]
  cases hc with
  | keep hcls _ hm hp ho =>
      exact .rest (hX _ hcls).1 (hX _ hcls).2 (by rw [hm]) (hkeep hp) (hX.out (asks_lock ho))
  | release _ _ hm hp ho =>
      exact .rest rfl rfl (by rw [hm]; rfl) (hkeep hp) (hX.out (by rw [ho]; exact release_not_data n h))
  | data hmsg =>
      cases msg with
      | acqLock | rlsLock | grantLock | enterBarrier | exitBarrier =>
          rcases hmsg with hmsg | hmsg | hmsg <;> cases hmsg
      | fetchWnI ts =>
          obtain ⟨packets, ho, -⟩ := grantWNI_answers hn hne ts h.mem
          exact .serve _ rfl rfl rfl id ho rfl rfl
      | grantWnI ts k packets => exact .done rfl rfl rfl rfl
      | grantDiff ts p diff =>
          refine .rest rfl rfl ?_ id fun _ hx => absurd hx List.not_mem_nil
          dsimp only [wniExchange, dispatchMsg]
          unfold handleGrantDiffMsg
          dsimp only
          split <;> rfl
      | grantPage p content => exact .rest rfl rfl rfl id fun _ hx => absurd hx List.not_mem_nil
      | fetchPage p =>
          have hr := dispatch_fetchPage n me sender p h
          generalize dispatchMsg n me sender (.fetchPage p) h = r at hr hkeep ⊢
          cases hr with
          | refused | killed =>
              exact .rest rfl rfl rfl id fun _ hx => absurd hx List.not_mem_nil
          | sent =>
              refine .rest rfl rfl rfl id fun x hx => ?_
              rw [List.mem_singleton.mp hx]
              exact ⟨rfl, rfl⟩
          | opened m _ _ _ _ _ _ hseg =>
              refine .rest rfl rfl (segvHandler_spec hseg).wniFlag id fun x hx => ?_
              rw [List.mem_singleton.mp hx]
              exact ⟨rfl, rfl⟩
          | hangs m out pc _ _ _ hseg =>
              have hf := segvHandler_spec hseg
              refine .rest rfl rfl hf.wniFlag id fun x hx => ?_
              have hm := hf.plain x hx
              cases hmsg : x.2 <;> rw [hmsg] at hm <;> first | exact ⟨rfl, rfl⟩ | cases hm
      | fetchDiff p ts =>
          refine .rest rfl rfl (grantDiff_flags sender p ts h.mem).2 id fun x hx => ?_
          rcases grantDiff_out n me sender ts p h.mem with ho | ⟨diff, ho⟩ <;>
            rw [dispatchMsg, ho] at hx
          · cases hx
          · rw [List.mem_singleton.mp hx]
            exact ⟨rfl, rfl⟩
      | grantEnterBarrierInfo ts k packets =>
          exact .rest rfl rfl (enterInfo_flags sender ts k packets h.mem).2 id
            fun _ hx => absurd hx List.not_mem_nil
      | grantExitBarrierInfo ts k packets =>
          exact .rest rfl rfl (exitInfo_flags ts k packets h.mem).2 id
            fun _ hx => absurd hx List.not_mem_nil

theorem ReadMem.diff {sender : Nat} {msg : Msg} (hc : ReadMem n me sender h msg r)
    (hn : sender < n) (hne : sender ≠ me)
    (hk : ∀ p ts, msg = .fetchDiff p ts → p < maxPageNum ∧ (h.mem.pageArray p).Live ∧
      h.mem.Noted me ts p) (hh : h.hung = false) :
    diffExchange.Reads sender msg h r ∨
      (∃ p, msg = .fetchPage p) ∧ diffExchange.Calls me h r := by
  have hX := diffExchange_ofData
  have hkeep := fun hp => diffExchange_kept (h := h) (r := r) hh hp
  cases hc with
  | keep hcls _ hm hp ho =>
      exact Or.inl <| .rest (hX _ hcls).1 (hX _ hcls).2 (by rw [hm]) (hkeep hp) (hX.out (asks_lock ho))
  | release _ _ hm hp ho =>
      exact Or.inl <| .rest rfl rfl (by rw [hm]; rfl) (hkeep hp) (hX.out (by rw [ho]; exact release_not_data n h))
  | data hmsg =>
      cases msg with
      | acqLock | rlsLock | grantLock | enterBarrier | exitBarrier =>
          rcases hmsg with hmsg | hmsg | hmsg <;> cases hmsg
      | fetchDiff p ts =>
          obtain ⟨hp, hl, hno⟩ := hk p ts rfl
          obtain ⟨m', diff, he⟩ := grantDiff_answers hn hne hp hl hno
          refine Or.inl <| .serve (.grantDiff ts p diff) rfl rfl ?_ id ?_ rfl rfl
          · exact (grantDiff_flags sender p ts h.mem).1
          · rw [dispatchMsg, he]
      | grantDiff ts p diff => exact Or.inl <| .done rfl rfl rfl rfl
      | grantWnI ts k packets =>
          exact Or.inl <| .rest rfl rfl (handleGrantWNIMsg_diffFlag ts k packets h.mem) id
            fun _ hx => absurd hx List.not_mem_nil
      | grantPage p content => exact Or.inl <| .rest rfl rfl rfl id fun _ hx => absurd hx List.not_mem_nil
      | fetchPage p =>
          have hr := dispatch_fetchPage n me sender p h
          generalize dispatchMsg n me sender (.fetchPage p) h = r at hr hkeep ⊢
          cases hr with
          | refused | killed =>
              exact Or.inl <| .rest rfl rfl rfl (hkeep rfl) fun _ hx => absurd hx List.not_mem_nil
          | sent =>
              refine Or.inl <| .rest rfl rfl rfl id fun x hx => ?_
              rw [List.mem_singleton.mp hx]
              exact ⟨rfl, rfl⟩
          | opened m _ _ _ _ _ _ hseg =>
              refine Or.inl <| .rest rfl rfl ?_ id fun x hx => ?_
              · cases (segvHandler_spec hseg).asks with
                | none hflag => exact hflag
              · rw [List.mem_singleton.mp hx]
                exact ⟨rfl, rfl⟩
          | hangs m out pc _ _ hpc hseg =>
              have hf := segvHandler_spec hseg
              have hdown : diffExchange.waits h = true → diffExchange.flag h.mem = false := by
                rw [diffExchange_idle hh hpc]
                simp
              refine Or.inr ⟨⟨p, rfl⟩, ?_⟩
              cases hf.asks with
              | none hflag hnot _ =>
                  refine .rest hflag (fun _ _ => rfl) fun x hx => ?_
                  obtain ⟨j, msg⟩ := x
                  have hm := hf.plain _ hx
                  cases msg <;> first | exact ⟨rfl, rfl⟩ | exact absurd hx (hnot _ _ _) | cases hm
              | one j q ts pageTs rest hflag hn hne hk =>
                  exact .ask j _ hne hdown hflag rfl rfl rfl rfl
      | fetchWnI ts =>
          refine Or.inl <| .rest rfl rfl rfl id fun x hx => ?_
          rcases grantWNI_out n me sender ts h.mem with ho | ⟨-, -, ho⟩ <;>
            rw [dispatchMsg, ho] at hx
          · cases hx
          · rw [List.mem_singleton.mp hx]
            exact ⟨rfl, rfl⟩
      | grantEnterBarrierInfo ts k packets =>
          exact Or.inl <| .rest rfl rfl (enterInfo_flags sender ts k packets h.mem).1 id
            fun _ hx => absurd hx List.not_mem_nil
      | grantExitBarrierInfo ts k packets =>
          exact Or.inl <| .rest rfl rfl (exitInfo_flags ts k packets h.mem).1 id
            fun _ hx => absurd hx List.not_mem_nil

end

/-! ## Every run -/

/-- What every host knows is true, and no request is lost. -/
structure Answered (n : Nat) (s : Sys) : Prop where
  sound : Sound n s
  diff : ∀ x, diffExchange.Settled s x
  wni : ∀ x, wniExchange.Settled s x

section

variable {n : Nat} {s s' : Sys}

theorem Answered.init (n : Nat) : Answered n initSys :=
  ⟨Sound.init n, .init _ fun _ => rfl, .init _ fun _ => rfl⟩

/-- The owner of a notice whose diff is asked for can make it. -/
theorem Sound.servable (h : Sound n s) {a b p : Nat} {ts : Timestamp}
    (hm : .fetchDiff p ts ∈ s.net a b) :
    p < maxPageNum ∧ ((s.host b).mem.pageArray p).Live ∧ (s.host b).mem.Noted b ts p := by
  obtain ⟨-, hb, -, -, hno⟩ := h.asked hm
  obtain ⟨hp, hl⟩ := h.live b hb ts p hno
  exact ⟨hp, hl, hno⟩

theorem Answered.step (h : Answered n s) {e : Event} (hs : Midsm.step n s e = some s') :
    Answered n s' := by
  have hsound := h.sound.step hs
  obtain ⟨a, op, r, rfl, ha, he, rfl⟩ |
    ⟨a, b, msg, rest, rfl, ha, hb, hne, hnet, rfl⟩ := step_cases hs
  · have hpc := h.sound.pc a ha
    exact ⟨hsound, Exchange.Settled.call h.diff ((exec_mem he).diff (step_awake hs) hpc),
      Exchange.Settled.call h.wni ((exec_mem he).wni hpc)⟩
  · have hc := dispatch_mem n b a msg (s.host b)
    refine ⟨hsound, ?_, Exchange.Settled.read h.wni hnet (hc.wni ha hne)⟩
    have hserve : ∀ p ts, msg = .fetchDiff p ts → p < maxPageNum ∧
        ((s.host b).mem.pageArray p).Live ∧ (s.host b).mem.Noted b ts p := by
      rintro p ts rfl
      refine h.sound.servable (a := a) ?_
      rw [hnet]
      exact List.mem_cons_self
    rcases hc.diff ha hne hserve (step_awake hs) with hread | ⟨⟨p, rfl⟩, hcall⟩
    · exact Exchange.Settled.read h.diff hnet hread
    · exact Exchange.Settled.read_call h.diff hnet rfl rfl hcall

/-- The pages of a host stay. -/
theorem Answered.live_mono (h : Answered n s) {e : Event}
    (he : Midsm.step n s e = some s') {x p : Nat} (hx : x < n)
    (hl : ((s.host x).mem.pageArray p).Live) : ((s'.host x).mem.pageArray p).Live := by
  have hp : p < (s.host x).mem.pagenum := by
    by_contra hge
    exact hl.1 (h.sound.beyond x hx p (by omega))
  obtain ⟨a, op, r, rfl, ha, hr, rfl⟩ |
    ⟨a, b, msg, rest, rfl, ha, hb, hne, hnet, rfl⟩ := step_cases he
  · exact put_host_forall (P := fun y h => p < (s.host y).mem.pagenum →
      ((s.host y).mem.pageArray p).Live → (h.mem.pageArray p).Live)
      ((h.sound.exec ha hr).grows.live p) (fun _ _ _ hl => hl) x hp hl
  · exact put_host_forall (P := fun y h => p < (s.host y).mem.pagenum →
      ((s.host y).mem.pageArray p).Live → (h.mem.pageArray p).Live)
      ((h.sound.read hb msg).grows.live p) (fun _ _ _ hl => hl) x hp hl

theorem answered_of_reach {ok : Sys → Event → Prop}
    (h : Reach (Midsm.step n) ok initSys s) : Answered n s :=
  h.invariant (Answered.init n) fun hs _ he => hs.step he

/-- What holds of the requests for diffs in a system. -/
structure DiffsAnswered (n : Nat) (s : Sys) : Prop where
  /-- Wherever one is in flight, its receiver has the notice and will reply. -/
  answers : ∀ h j p ts, .fetchDiff p ts ∈ s.net h j →
    (∃ wn ∈ ((s.host j).mem.pageArray p).notices j, wn.timestamp = ts) ∧
    ((s.host j).mem.pageArray p).state ≠ .unmap ∧
    ((s.host j).mem.pageArray p).state ≠ .miss ∧
    ∃ m diff, grantDiff n j h ts p (s.host j).mem = (0, m, [(h, .grantDiff ts p diff)])
  /-- A host that spins for a diff has one request or reply in flight. -/
  spins : ∀ h, (s.host h).mem.fetchDiffWaitFlag = true →
    ∃ j ≠ h, diffExchange.traffic s h j = 1
  /-- Every notice recorded anywhere or carried by a message is its owner's. -/
  owned : ∀ j ts p, (∃ x < n, (s.host x).mem.Noted j ts p) ∨
    (∃ a b, ∃ msg ∈ s.net a b, SaidNotice msg.packets j ts p) →
    j < n ∧ (s.host j).mem.Noted j ts p

theorem Answered.diffsAnswered (h : Answered n s) : DiffsAnswered n s where
  answers x j p ts hm := by
    obtain ⟨hx, -, hne, -, -⟩ := h.sound.asked hm
    obtain ⟨hp, hl, hno⟩ := h.sound.servable hm
    obtain ⟨wn, hwn, hts, -⟩ := findNotice_of_noted hno
    exact ⟨⟨wn, hwn, hts⟩, hl.1, hl.2, grantDiff_answers hx (Ne.symm hne) hp hl hno⟩
  spins x hup := by
    obtain ⟨g, hg, h1, -⟩ := (h.diff x).busy hup
    exact ⟨g, hg, h1⟩
  owned j ts p hk := by
    rcases hk with ⟨x, hx, hk⟩ | ⟨a, b, msg, hm, packet, hpk, ⟨rfl, rfl⟩, hp⟩
    · exact h.sound.noted x hx hk
    · exact (h.sound.told a b msg hm packet hpk).2 p hp

/-- Every diff request of every run is answered. -/
theorem every_diff_request_answered (n : Nat) {s : Sys}
    (h : Reach (Midsm.step n) anyStep initSys s) : DiffsAnswered n s :=
  (answered_of_reach h).diffsAnswered

/-- Host 1 has page 0, learns of host 0's store with the lock and asks for the
diff. -/
theorem every_diff_request_answered_two :
    ∃ s, DiffsAnswered 2 s ∧ (s.host 1).mem.fetchDiffWaitFlag = true ∧
      (s.net 1 0).countP diffExchange.isRequest = 1 := by
  obtain ⟨s, hrun, hp⟩ := exists_reach_any (Midsm.step 2) initSys
    [.op 0 (.alloc 4096), .op 1 (.alloc 4096),
      .op 1 (.load 0 0 1), .deliver 1 0, .deliver 0 1, .op 1 .resume,
      .op 0 (.lock 0), .op 0 (.store 0 0 [7]), .op 0 (.unlock 0),
      .op 1 (.lock 0), .deliver 1 0, .deliver 0 1, .op 1 .resume, .deliver 1 0,
      .deliver 0 1, .op 1 .resume, .op 1 (.load 0 0 1)]
    (fun s => (s.host 1).mem.fetchDiffWaitFlag &&
      ((s.net 1 0).countP diffExchange.isRequest == 1))
    (by decide +kernel)
  rw [Bool.and_eq_true, beq_iff_eq] at hp
  exact ⟨s, every_diff_request_answered 2 hrun, hp⟩

end

end Midsm
