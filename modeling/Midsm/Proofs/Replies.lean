import Midsm.Proofs.Handover

/-!
# Requests and replies about memory

While the host of the token waits, its request goes to another host and the reply comes
back. A request finds what it asks for: the notices at the host that was inside last, the
whole page at the author of its newest notice, a diff at the author of that notice. The
reply brings exactly this, so what the waiting host knows and has afterwards is known.
-/

namespace Midsm

open Midsm.Lib

section

variable {n p : Nat} {l : Int} {y y' : Story} {walker walker' : Option Nat} {fl fl' : Flight}
  {s : Sys} {host host' : Nat → Host} {a b x i k : Nat} {rest : List Msg} {m : Mem} {out : Out}
  {path : LockPath} {newer older : List Nat} {ts : Timestamp}

/-! ## What a message about memory leaves alone -/

theorem upd_mem_syn (host : Nat → Host) (b : Nat) (m : Mem) (x : Nat) :
    (upd host b { host b with mem := m } x).syn = (host x).syn := by
  by_cases hx : x = b
  · rw [hx, upd_self]
  · rw [upd_ne hx]

theorem upd_mem_pc (host : Nat → Host) (b : Nat) (m : Mem) (x : Nat) :
    (upd host b { host b with mem := m } x).pc = (host x).pc := by
  by_cases hx : x = b
  · rw [hx, upd_self]
  · rw [upd_ne hx]

theorem Inside.move (hi : Inside n l y host x) (hsyn : ∀ h, (host' h).syn = (host h).syn)
    (hl : y'.time.len = y.time.len) (hc : (y'.view x).clock = (y.view x).clock) :
    Inside n l y' host' x where
  locked := by
    rw [hsyn]
    exact hi.locked
  mine := by
    rw [hsyn]
    exact hi.mine
  clock := by
    rw [hc, hl]
    exact hi.clock
  pos := by
    rw [hl]
    exact hi.pos

theorem Asks.move (ha : Asks n l y host x path) (hsyn : ∀ h, (host' h).syn = (host h).syn)
    (hpc : (host' x).pc = (host x).pc) (hpos : 0 < y'.time.len) : Asks n l y' host' x path where
  locked := by
    rw [hsyn]
    exact ha.locked
  pc := hpc.trans ha.pc
  mine hp := by
    rw [hsyn]
    exact ha.mine hp
  pos := hpos

/-- Host `b` reads a message, and only its memory changes. -/
theorem Scene.read (hs : Scene n l p y (some x) walker fl s)
    (hw : World n p walker' y'.granted y'.total y'.time y'.patch y'.view
      (upd (fun h => (s.host h).mem) b m))
    (hst : Stage n l p y' (upd s.host b { s.host b with mem := m }) (some x) walker' fl')
    (ht : ((s.pop a b).put b ({ s.host b with mem := m }, out)).InTransit l fl') :
    Scene n l p y' (some x) walker' fl'
      ((s.pop a b).put b ({ s.host b with mem := m }, out)) :=
  hs.put_token (pop_host s a b) hw hst ht hs.lt
    (fun hb hne => ⟨(hs.outside b hb hne).pc, (hs.outside b hb hne).mine⟩) fun _ _ h => h

/-! ## Notices -/

/-- The host that was inside last is asked for its notices. -/
theorem Scene.readFetchWnI (hs : Scene n l p y (some x) none (some (a, b, .fetchWnI ts)) s)
    (hnet : s.net a b = .fetchWnI ts :: rest) :
    Coherent n l p y.granted y.total
      ((s.pop a b).put b (dispatchMsg n b a (.fetchWnI ts) (s.host b))) := by
  obtain ⟨-, ht⟩ := hs.transit.take hnet rfl
  have hstage := hs.stage
  have hw := hs.world
  have hx := hs.lt x rfl
  cases hstage with
  | asking _ path ha hf hne =>
      have hpos := ha.pos
      have hb := hw.hosted.who _ hpos le_rfl
      have hl := (hw.shows _ hb).ledger
      rw [hw.last hpos] at hl
      have hout := hl.grantWNI hw.hosted le_rfl hx (Ne.symm hne) (y.view a).clock
      refine (hs.read (m := (s.host (y.time.who y.time.len)).mem) ?_ (.told _ path ?_ ?_)
        (ht.send hout rfl)).coherent
      · rw [upd_eta (fun h => (s.host h).mem) (y.time.who y.time.len)]
        exact hw
      · exact ha.move (upd_mem_syn s.host _ _) (upd_mem_pc s.host _ _ a) hpos
      · rw [upd_ne (Ne.symm hne)]
        exact hf

/-- They arrive, and the host knows everything. -/
theorem Scene.readGrantWnI {count : Nat} {packets : List WnPacket}
    (hs : Scene n l p y (some x) none (some (a, b, .grantWnI ts count packets)) s)
    (hnet : s.net a b = .grantWnI ts count packets :: rest) :
    Coherent n l p y.granted y.total
      ((s.pop a b).put b (dispatchMsg n b a (.grantWnI ts count packets) (s.host b))) := by
  obtain ⟨-, ht⟩ := hs.transit.take hnet rfl
  have hstage := hs.stage
  have hx := hs.lt x rfl
  cases hstage with
  | told _ path ha hf =>
      obtain ⟨w, hc, hworld⟩ := hs.world.learn hx
      refine Scene.coherent (y := { y with
        time := y.time.tick b, view := upd y.view b w }) (hs.read hworld
        (.informed b path (ha.move (upd_mem_syn s.host _ _) (upd_mem_pc s.host _ _ b)
          (Nat.succ_pos _)) ?_) (ht.silent rfl))
      dsimp only
      rw [upd_self]
      exact hc

/-! ## Pages -/

theorem Scene.readFetchPage {q : Nat} (hs : Scene n l p y (some x) none (some (a, b, .fetchPage q)) s)
    (hnet : s.net a b = .fetchPage q :: rest) (hg : Guards (s.host b).mem (s.host b).pc) :
    Coherent n l p (upd y.granted b true) y.total
      ((s.pop a b).put b (dispatchMsg n b a (.fetchPage q) (s.host b))) := by
  obtain ⟨-, ht⟩ := hs.transit.take hnet rfl
  have hstage := hs.stage
  have hw := hs.world
  have hx := hs.lt x rfl
  cases hstage with
  | pageAsked _ _ hi hpc hf hst hb hne hrd hcon hcl =>
      have hinvalid : ((s.host b).mem.pageArray p).state ≠ .invalid := by
        rcases hrd with h | h <;> simp [h]
      have hout : dispatchMsg n b a (.fetchPage p) (s.host b) =
          ({ s.host b with mem := (s.host b).mem }, [(a, .grantPage p y.total)]) := by
        rw [dispatchMsg, grantPage_answers hx (Ne.symm hne) hw.fits hrd.live
          (hg.held hrd.live hinvalid), hcon]
        simp
      rw [hout]
      refine Scene.coherent (y := { y with granted := upd y.granted b true })
        (hs.read (m := (s.host b).mem) ?_ (.pageSent a b ?_ ?_ ?_ ?_ hcl.grant)
          (ht.send rfl rfl))
      · rw [upd_eta (fun h => (s.host h).mem) b]
        exact hw.grant b
      · exact hi.move (upd_mem_syn s.host b _) rfl rfl
      · exact (upd_mem_pc s.host b _ a).trans hpc
      · rw [upd_ne (Ne.symm hne)]
        exact hf
      · rw [upd_ne (Ne.symm hne)]
        exact hst

theorem Scene.readGrantPage {q : Nat} {content : Content}
    (hs : Scene n l p y (some x) none (some (a, b, .grantPage q content)) s)
    (hnet : s.net a b = .grantPage q content :: rest) :
    Coherent n l p y.granted y.total
      ((s.pop a b).put b (dispatchMsg n b a (.grantPage q content) (s.host b))) := by
  obtain ⟨-, ht⟩ := hs.transit.take hnet rfl
  have hstage := hs.stage
  have hx := hs.lt x rfl
  cases hstage with
  | pageSent _ _ hi hpc hf hst hcl =>
      obtain ⟨w, hc, hall, hst', hworld⟩ := hs.world.takePage hx hi.clock hst hcl
      refine Scene.coherent (y := { y with view := upd y.view b w }) (hs.read hworld
        (.pageHere b ?_ ?_ ?_ ?_) (ht.silent rfl))
      · refine hi.move (upd_mem_syn s.host b _) rfl ?_
        dsimp only
        rw [upd_self]
        exact hc
      · exact (upd_mem_pc s.host b _ b).trans hpc
      · rw [upd_self]
        exact hst'
      · dsimp only
        rw [upd_self]
        exact hall

/-! ## Diffs -/

theorem Scene.readFetchDiff {q : Nat}
    (hs : Scene n l p y (some x) walker (some (a, b, .fetchDiff q ts)) s)
    (hnet : s.net a b = .fetchDiff q ts :: rest) :
    Coherent n l p y.granted y.total
      ((s.pop a b).put b (dispatchMsg n b a (.fetchDiff q ts) (s.host b))) := by
  obtain ⟨-, ht⟩ := hs.transit.take hnet rfl
  have hstage := hs.stage
  have hw := hs.world
  have hx := hs.lt x rfl
  cases hstage with
  | diffAsked _ _ k newer older hi hf hflag hno =>
      obtain ⟨hup, rfl⟩ := hf.walking.known
      have hne := hf.walking.other
      have hlast : y.time.who y.time.len ≠ y.time.who k := by
        rw [hw.only a hx hi.clock hi.pos]
        exact Ne.symm hne
      obtain ⟨hout, w, hc, hd, hworld⟩ :=
        hw.grantDiff hx (Timeline.mem_upTo.mp hup).1 (Ne.symm hne) hlast
      refine Scene.coherent (y := { y with view := upd y.view (y.time.who k) w }) (hs.read hworld
        (.diffSent a (y.time.who k) k newer older ?_ ⟨?_, ?_, ?_⟩ ?_ ?_ ?_) (ht.send hout rfl))
      · refine hi.move (upd_mem_syn s.host _ _) rfl ?_
        dsimp only
        rw [upd_ne (Ne.symm hne)]
      · rw [upd_ne (Ne.symm hne)]
        exact hf.pc
      · rw [upd_ne (Ne.symm hne)]
        exact hf.state
      · dsimp only
        rw [upd_ne (Ne.symm hne)]
        exact hf.walking
      · rw [upd_ne (Ne.symm hne)]
        exact hflag
      · dsimp only
        rw [upd_ne (Ne.symm hne)]
        exact hno
      · dsimp only
        rw [upd_self]
        exact hd

theorem Scene.readGrantDiff {q : Nat} {diff : Content}
    (hs : Scene n l p y (some x) walker (some (a, b, .grantDiff ts q diff)) s)
    (hnet : s.net a b = .grantDiff ts q diff :: rest) :
    Coherent n l p y.granted y.total
      ((s.pop a b).put b (dispatchMsg n b a (.grantDiff ts q diff) (s.host b))) := by
  obtain ⟨-, ht⟩ := hs.transit.take hnet rfl
  have hstage := hs.stage
  have hw := hs.world
  have hx := hs.lt x rfl
  cases hstage with
  | diffSent _ _ k newer older hi hf hflag hno hd =>
      obtain ⟨hup, rfl⟩ := hf.walking.known
      have hne := hf.walking.other
      obtain ⟨hm, hkc⟩ := Timeline.mem_upTo.mp hup
      obtain ⟨hh, -, hst, hstart⟩ :=
        (hw.shows b hx).takeDiff hw.hosted hup hne hno hf.state
      have hworld := hw.takeDiff hx hm hkc hne hno hf.state hd
      refine Scene.coherent (y := { y with
        view := upd y.view b ((y.view b).put k (y.patch k)) }) (hs.read hworld
        (.diffHere b (y.time.who k) k newer older ?_ ⟨?_, ?_, ?_⟩ ?_)
        (ht.silent rfl))
      · refine hi.move (upd_mem_syn s.host b _) rfl ?_
        dsimp only
        rw [upd_self]
        rfl
      · rw [upd_self, hstart]
        exact hf.pc
      · rw [upd_self]
        exact hst
      · dsimp only
        rw [upd_self]
        exact hf.walking.put hh
      · dsimp only
        rw [upd_self, hh]
        exact Finset.mem_insert_self ..

end

end Midsm
