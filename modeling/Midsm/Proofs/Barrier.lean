import Midsm.Proofs.SynCases
import Midsm.Proofs.Encode

/-!
# Where a host is in a barrier

A client goes through five stages in every episode: outside, entering with its
information and its `ENTER_BARRIER` in flight, flagged at the manager, released
with the exit information and an `EXIT_BARRIER` in flight, and woken but not yet
running. The stage is visible in five things: whether the client is in the wait
of `mi_barrier`, its wait flag, its flag at the manager, and the barrier
messages of the two channels between it and the manager. `ClientView` lists the
five combinations; nothing else ever occurs. The manager itself has three.
-/

namespace Midsm

/-! ## Messages of the barrier -/

/-- The barrier messages of a channel, in order. -/
def barrierMsgs (q : List Msg) : List Msg := q.filter fun msg => msg.cls = .barrier

theorem barrierMsgs_append (q₁ q₂ : List Msg) :
    barrierMsgs (q₁ ++ q₂) = barrierMsgs q₁ ++ barrierMsgs q₂ :=
  List.filter_append ..

theorem barrierMsgs_cons {msg : Msg} (h : msg.cls = .barrier) (q : List Msg) :
    barrierMsgs (msg :: q) = msg :: barrierMsgs q := by
  simp [barrierMsgs, h]

theorem barrierMsgs_cons_other {msg : Msg} (h : msg.cls ≠ .barrier) (q : List Msg) :
    barrierMsgs (msg :: q) = barrierMsgs q := by
  simp [barrierMsgs, h]

theorem barrierMsgs_all {q : List Msg} (h : ∀ msg ∈ q, msg.cls = .barrier) :
    barrierMsgs q = q := by
  simpa [barrierMsgs] using h

theorem barrierMsgs_none {q : List Msg} (h : ∀ msg ∈ q, msg.cls ≠ .barrier) :
    barrierMsgs q = [] := by
  simpa [barrierMsgs] using h

def Msg.isEnterInfo : Msg → Bool
  | .grantEnterBarrierInfo _ _ _ => true
  | _ => false

def Msg.isExitInfo : Msg → Bool
  | .grantExitBarrierInfo _ _ _ => true
  | _ => false

theorem Msg.cls_of_isEnterInfo {msg : Msg} (h : msg.isEnterInfo = true) :
    msg.cls = .barrier := by
  cases msg <;> first | rfl | cases h

theorem Msg.cls_of_isExitInfo {msg : Msg} (h : msg.isExitInfo = true) :
    msg.cls = .barrier := by
  cases msg <;> first | rfl | cases h

/-! ## The stages -/

inductive ClientView : Bool → Bool → Bool → List Msg → List Msg → Prop
  | out (asleep : Bool) : ClientView false asleep false [] []
  | entering (infos : List Msg) : (∀ msg ∈ infos, msg.isEnterInfo = true) →
      ClientView true true false (infos ++ [.enterBarrier]) []
  | flagged : ClientView true true true [] []
  | released (infos : List Msg) : (∀ msg ∈ infos, msg.isExitInfo = true) →
      ClientView true true false [] (infos ++ [.exitBarrier])
  | woken : ClientView true false false [] []

inductive ManagerView : Bool → Bool → Bool → Prop
  | out (asleep : Bool) : ManagerView false asleep false
  | waiting : ManagerView true true true
  | woken : ManagerView true false false

/-- The stage of client `x` in a system. -/
def Sys.Client (s : Sys) (x : Nat) : Prop :=
  ClientView (s.host x).pc.inBarrier (s.host x).syn.waitFlag
    ((s.host 0).syn.barrierFlags x) (barrierMsgs (s.net x 0)) (barrierMsgs (s.net 0 x))

def Sys.Manager (s : Sys) : Prop :=
  ManagerView (s.host 0).pc.inBarrier (s.host 0).syn.waitFlag
    ((s.host 0).syn.barrierFlags 0)

/-- Every host is at a stage, and clients send each other no barrier messages. -/
structure BarrierInv (n : Nat) (s : Sys) : Prop where
  client : ∀ x, 0 < x → x < n → s.Client x
  manager : s.Manager
  stray : ∀ a b, a ≠ 0 → b ≠ 0 → barrierMsgs (s.net a b) = []

theorem BarrierInv.init (n : Nat) : BarrierInv n initSys where
  client _ _ _ := .out false
  manager := .out false
  stray _ _ _ _ := rfl

/-- Outside, the wait flag belongs to the locks. -/
theorem ClientView.reflag {inside asleep asleep' flag : Bool} {up down : List Msg}
    (h : ClientView inside asleep flag up down)
    (hw : inside = true → asleep' = asleep) :
    ClientView inside asleep' flag up down := by
  cases inside with
  | true => rw [hw rfl]; exact h
  | false => cases h; exact .out asleep'

theorem ManagerView.reflag {inside asleep asleep' flag : Bool}
    (h : ManagerView inside asleep flag) (hw : inside = true → asleep' = asleep) :
    ManagerView inside asleep' flag := by
  cases inside with
  | true => rw [hw rfl]; exact h
  | false => cases h; exact .out asleep'

section

variable {n : Nat} {s : Sys} {a b : Nat} {r : Host × Out}

/-! ## Steps that are not about the barrier -/

theorem barrierMsgs_outTo (h : ∀ x ∈ r.2, x.2.cls ≠ .barrier) :
    barrierMsgs (outTo r.2 b) = [] :=
  barrierMsgs_none fun msg hm => h (b, msg) (mem_outTo.mp hm)

theorem BarrierFrame.net (hf : BarrierFrame (s.host a) r) (x y : Nat) :
    barrierMsgs ((s.put a r).net x y) = barrierMsgs (s.net x y) := by
  by_cases hx : x = a
  · subst hx
    rw [put_net_self, barrierMsgs_append, barrierMsgs_outTo hf.out, List.append_nil]
  · rw [put_net_ne hx]

theorem BarrierFrame.host (hf : BarrierFrame (s.host a) r) (x : Nat) :
    ((s.put a r).host x).syn.barrierFlags = (s.host x).syn.barrierFlags ∧
    ((s.put a r).host x).pc.inBarrier = (s.host x).pc.inBarrier ∧
    ((s.host x).pc.inBarrier = true →
      ((s.put a r).host x).syn.waitFlag = (s.host x).syn.waitFlag) := by
  by_cases hx : x = a
  · subst hx
    rw [put_host_self]
    exact ⟨hf.flags, hf.inside, hf.asleep⟩
  · rw [put_host_ne hx]
    exact ⟨rfl, rfl, fun _ => rfl⟩

theorem BarrierInv.put_frame (hb : BarrierInv n s) (hf : BarrierFrame (s.host a) r) :
    BarrierInv n (s.put a r) where
  client x h0 hn := by
    obtain ⟨-, hin, hw⟩ := hf.host x
    obtain ⟨hfl, -, -⟩ := hf.host 0
    unfold Sys.Client
    rw [hin, hfl, hf.net x 0, hf.net 0 x]
    exact (hb.client x h0 hn).reflag hw
  manager := by
    obtain ⟨hfl, hin, hw⟩ := hf.host 0
    unfold Sys.Manager
    rw [hin, hfl]
    exact hb.manager.reflag hw
  stray x y hx hy := by rw [hf.net x y]; exact hb.stray x y hx hy

theorem barrierMsgs_pop_other {msg : Msg} {rest : List Msg}
    (hnet : s.net a b = msg :: rest) (hmsg : msg.cls ≠ .barrier) (x y : Nat) :
    barrierMsgs ((s.pop a b).net x y) = barrierMsgs (s.net x y) := by
  by_cases hxy : x = a ∧ y = b
  · rw [hxy.1, hxy.2, pop_net_self, hnet, List.tail_cons, barrierMsgs_cons_other hmsg]
  · rw [pop_net_ne (by omega)]

theorem BarrierInv.pop_other (hb : BarrierInv n s) {msg : Msg} {rest : List Msg}
    (hnet : s.net a b = msg :: rest) (hmsg : msg.cls ≠ .barrier) :
    BarrierInv n (s.pop a b) where
  client x h0 hn := by
    unfold Sys.Client
    rw [barrierMsgs_pop_other hnet hmsg, barrierMsgs_pop_other hnet hmsg, pop_host]
    exact hb.client x h0 hn
  manager := hb.manager
  stray x y hx hy := by
    rw [barrierMsgs_pop_other hnet hmsg]
    exact hb.stray x y hx hy

end

/-! ## Entering -/

theorem enterInfo_spec (n me : Nat) (m : Mem) :
    ∀ x ∈ sendEnterBarrierInfo n me m, x.1 = 0 ∧ x.2.isEnterInfo = true := by
  intro x hx
  unfold sendEnterBarrierInfo at hx
  split at hx
  · cases hx
  · obtain ⟨blocks, -, he, hbl⟩ := encode_blocks .grantEnterBarrierInfo 0
      (cut n (-1) (m.now me).timestamp)
      ((sinceBarrier (m.procArray me)).reverse.map (intervalPackets me))
    rw [he] at hx
    obtain ⟨b, hb, rfl⟩ := List.mem_map.mp hx
    refine ⟨?_, rfl⟩
    cases blocks with
    | nil => cases hb
    | cons c cs =>
        rcases List.mem_cons.mp hb with rfl | hc
        · exact (hbl.first b (by simp)).1
        · exact (hbl.later b hc).1.elim id id

theorem outTo_all {out : Out} {b : Nat} (h : ∀ x ∈ out, x.1 = b) :
    outTo out b = out.map Prod.snd := by
  rw [outTo, List.filter_eq_self.mpr]
  simpa using h

theorem outTo_none {out : Out} {b : Nat} (h : ∀ x ∈ out, x.1 ≠ b) : outTo out b = [] := by
  rw [outTo, List.filter_eq_nil_iff.mpr, List.map_nil]
  simpa using h

/-- The messages of an entering client. -/
theorem enter_outTo (n me : Nat) (m : Mem) :
    ∃ infos, (∀ msg ∈ infos, msg.isEnterInfo = true) ∧
      outTo (sendEnterBarrierInfo n me m ++ [(0, .enterBarrier)]) 0 =
        infos ++ [.enterBarrier] ∧
      ∀ b ≠ 0, outTo (sendEnterBarrierInfo n me m ++ [(0, .enterBarrier)]) b = [] := by
  have hspec := enterInfo_spec n me m
  refine ⟨(sendEnterBarrierInfo n me m).map Prod.snd, ?_, ?_, fun b hb => ?_⟩
  · intro msg hm
    obtain ⟨x, hx, rfl⟩ := List.mem_map.mp hm
    exact (hspec x hx).2
  · rw [outTo_append, outTo_all fun x hx => (hspec x hx).1]
    rfl
  · refine outTo_none fun x hx => ?_
    rcases List.mem_append.mp hx with hx | hx
    · rw [(hspec x hx).1]
      exact hb.symm
    · rw [List.mem_singleton.mp hx]
      exact hb.symm

/-! ## The release -/

theorem exitInfo_spec (n : Nat) (ts : Timestamp) (m : Mem) (i : Nat) :
    ∀ x ∈ exitBarrierInfo n ts m i, (x.1 = i ∨ x.1 = 0) ∧ x.2.isExitInfo = true := by
  intro x hx
  obtain ⟨blocks, -, he, hbl⟩ := encode_blocks .grantExitBarrierInfo i
    (cut n (-1) ts) ((List.range n).flatMap fun j =>
      packetsAfter n (m.barrierTimestamps i) j m)
  rw [exitBarrierInfo, he] at hx
  obtain ⟨b, hb, rfl⟩ := List.mem_map.mp hx
  refine ⟨?_, rfl⟩
  cases blocks with
  | nil => cases hb
  | cons c cs =>
      rcases List.mem_cons.mp hb with rfl | hc
      · exact Or.inl (hbl.first b (by simp)).1
      · exact (hbl.later b hc).1

theorem flatMap_single {α β : Type} {l : List α} {x : α} {f : α → List β}
    (hnd : l.Nodup) (hx : x ∈ l) (hf : ∀ y ∈ l, y ≠ x → f y = []) :
    l.flatMap f = f x := by
  induction l with
  | nil => cases hx
  | cons y l ih =>
      obtain ⟨hy, hnd⟩ := List.nodup_cons.mp hnd
      rw [List.flatMap_cons]
      by_cases hyx : y = x
      · subst hyx
        rw [List.flatMap_eq_nil_iff.mpr, List.append_nil]
        intro z hz
        exact hf z (List.mem_cons_of_mem _ hz) fun he => hy (he ▸ hz)
      · rw [hf y List.mem_cons_self hyx, List.nil_append]
        exact ih hnd ((List.mem_cons.mp hx).resolve_left (Ne.symm hyx))
          fun z hz => hf z (List.mem_cons_of_mem _ hz)

theorem outTo_flatMap {α : Type} (l : List α) (f : α → Out) (b : Nat) :
    outTo (l.flatMap f) b = l.flatMap fun x => outTo (f x) b := by
  induction l with
  | nil => rfl
  | cons x l ih => rw [List.flatMap_cons, outTo_append, ih, List.flatMap_cons]

theorem mem_clients {n x : Nat} : x ∈ List.range' 1 (n - 1) ↔ 0 < x ∧ x < n := by
  rw [List.mem_range'_1]
  omega

/-- `returnAllBarrierInfo` tells client `x` what was built for it and is not
misaddressed. -/
theorem returnAllBarrierInfo_outTo {n : Nat} (m : Mem) {x : Nat} (h0 : 0 < x)
    (hx : x < n) :
    outTo (returnAllBarrierInfo n m).2 x =
      outTo (exitBarrierInfo n (barrierTimestamp n m)
        (m.pushNow 0 ⟨barrierTimestamp n m, [], true⟩) x) x := by
  unfold returnAllBarrierInfo
  dsimp only
  rw [outTo_flatMap]
  refine flatMap_single List.nodup_range' (mem_clients.mpr ⟨h0, hx⟩) fun y hy hne => ?_
  refine outTo_none fun z hz => ?_
  rcases (exitInfo_spec _ _ _ _ z hz).1 with he | he <;> rw [he]
  · exact hne
  · omega

/-- The manager with all flags up: `checkBarrierFlags` past its tests. -/
def Host.release (n : Nat) (h : Host) : Host × Out :=
  ({ h with
      mem := (returnAllBarrierInfo n h.mem).1
      syn := { h.syn with
        locks := fun l => { h.syn.locks l with lasthostid := -1 }
        barrierFlags := fun i => if i < n then false else h.syn.barrierFlags i } },
    (returnAllBarrierInfo n h.mem).2 ++
      (List.range' 1 (n - 1)).map fun i => (i, .exitBarrier))

theorem checkBarrierFlags_cases (n me : Nat) (h : Host) :
    (checkBarrierFlags n me h = (false, h, []) ∧
      (me = 0 → ∃ i < n, h.syn.barrierFlags i = false)) ∨
    (me = 0 ∧ (∀ i < n, h.syn.barrierFlags i = true) ∧
      checkBarrierFlags n me h = (true, (h.release n).1, (h.release n).2)) := by
  unfold checkBarrierFlags
  split
  · next hme => exact Or.inl ⟨rfl, fun h0 => absurd h0 hme⟩
  · next hme =>
      split
      · next hall =>
          refine Or.inl ⟨rfl, fun _ => ?_⟩
          simpa [List.all_eq_false] using hall
      · next hall =>
          refine Or.inr ⟨not_not.mp hme, fun i hi => ?_, rfl⟩
          have hall : (List.range n).all h.syn.barrierFlags = true := by simpa using hall
          exact List.all_eq_true.mp hall i (List.mem_range.mpr hi)

/-- What a release sends to a client. -/
theorem release_outTo {n : Nat} (h : Host) {x : Nat} (h0 : 0 < x) (hx : x < n) :
    outTo (h.release n).2 x =
      outTo (returnAllBarrierInfo n h.mem).2 x ++ [.exitBarrier] := by
  have hmap : outTo ((List.range' 1 (n - 1)).map fun i => (i, Msg.exitBarrier)) x =
      [.exitBarrier] := by
    rw [List.map_eq_flatMap, outTo_flatMap, flatMap_single List.nodup_range' (mem_clients.mpr ⟨h0, hx⟩)]
    · exact outTo_cons_self x _ []
    · intro y _ hne
      exact outTo_cons_ne hne _ []
  rw [Host.release, outTo_append, hmap]

theorem release_infos {n : Nat} (m : Mem) {x : Nat} (h0 : 0 < x) (hx : x < n) :
    ∀ msg ∈ outTo (returnAllBarrierInfo n m).2 x, msg.isExitInfo = true := by
  intro msg hm
  rw [returnAllBarrierInfo_outTo m h0 hx] at hm
  exact (exitInfo_spec _ _ _ _ _ (mem_outTo.mp hm)).2

/-! ## The calls, for the locks -/

theorem Pc.away_barrierWait (l : Int) : Pc.Away l .barrierWait := ⟨rfl, rfl⟩

theorem release_lockFrame {n : Nat} (h : Host) (l : Int) :
    (h.release n).1.syn.locks l = { h.syn.locks l with lasthostid := -1 } ∧
      (h.release n).1.syn.myLocks = h.syn.myLocks ∧
      ∀ x ∈ (h.release n).2, Foreign l x.2 := by
  refine ⟨rfl, rfl, fun x hx => foreign_of_cls ?_⟩
  rcases List.mem_append.mp hx with hx | hx
  · unfold returnAllBarrierInfo at hx
    obtain ⟨i, -, hx⟩ := List.mem_flatMap.mp hx
    rw [Msg.cls_of_isExitInfo (exitInfo_spec _ _ _ _ x hx).2]
    exact nofun
  · obtain ⟨i, -, rfl⟩ := List.mem_map.mp hx
    exact nofun

theorem miBarrier_lockFrame {n me : Nat} {h : Host} (l : Int) (hpc : h.pc = .run) :
    LockFrame l h (miBarrier n me h) := by
  have hrun : h.pc.Away l := hpc ▸ Pc.away_run l
  unfold miBarrier
  split
  · dsimp only
    rcases checkBarrierFlags_cases n me { h with
        mem := { h.mem with
          barrierTimestamps := upd h.mem.barrierTimestamps 0 fun i =>
            if i.val < n then (h.mem.now me).timestamp i
            else h.mem.barrierTimestamps 0 i }
        syn := { h.syn with barrierFlags := upd h.syn.barrierFlags 0 true } }
      with ⟨he, -⟩ | ⟨-, -, he⟩ <;> rw [he]
    · exact ⟨Or.inl rfl, phaseOf_away rfl (Pc.away_barrierWait l) hrun,
        fun x hx => absurd hx List.not_mem_nil⟩
    · exact ⟨Or.inr rfl, phaseOf_away rfl hrun hrun, (release_lockFrame _ l).2.2⟩
  · refine ⟨Or.inl rfl, phaseOf_away rfl (Pc.away_barrierWait l) hrun,
      fun x hx => foreign_of_cls ?_⟩
    rcases List.mem_append.mp hx with hx | hx
    · rw [Msg.cls_of_isEnterInfo (enterInfo_spec n me h.mem x hx).2]
      exact fun h => by cases h
    · rw [List.mem_singleton.mp hx]
      exact fun h => by cases h

theorem handleEnterBarrierMsg_lockFrame {n me x : Nat} {h : Host} (l : Int)
    (hwake : me = 0 → (∀ i < n, upd h.syn.barrierFlags x true i = true) →
      h.pc = .barrierWait) :
    LockFrame l h (handleEnterBarrierMsg n me x h) := by
  unfold handleEnterBarrierMsg
  dsimp only
  rcases checkBarrierFlags_cases n me { h with
      syn := { h.syn with barrierFlags := upd h.syn.barrierFlags x true } }
    with ⟨he, -⟩ | ⟨hme, hall, he⟩ <;> rw [he]
  · exact ⟨Or.inl rfl, rfl, fun x hx => nomatch hx⟩
  · have hpc := hwake hme hall
    exact ⟨Or.inr rfl, phaseOf_away rfl (hpc ▸ Pc.away_barrierWait l)
      (hpc ▸ Pc.away_barrierWait l), (release_lockFrame _ l).2.2⟩

theorem handleExitBarrierMsg_lockFrame {x : Nat} {h : Host} (l : Int)
    (hpc : h.pc = .barrierWait) : LockFrame l h (handleExitBarrierMsg x h, []) := by
  unfold handleExitBarrierMsg
  split
  · exact ⟨Or.inl rfl, phaseOf_away rfl (hpc ▸ Pc.away_barrierWait l)
      (hpc ▸ Pc.away_barrierWait l), fun x hx => nomatch hx⟩
  · exact ⟨Or.inl rfl, rfl, fun x hx => nomatch hx⟩

/-! ## The calls, for the stages -/

theorem put_put_nil (s : Sys) (a : Nat) (h : Host) (r : Host × Out) :
    (s.put a (h, [])).put a r = s.put a r := by
  unfold Sys.put
  congr 1
  · funext x
    by_cases hx : x = a
    · simp [hx]
    · simp [upd, hx]
  · funext x
    by_cases hx : x = a
    · simp [hx]
    · simp [upd, hx]

section

variable {n : Nat} {s : Sys} {x : Nat} {r : Host × Out}

/-- The view of a client that neither moves nor is sent to. -/
theorem Sys.Client.put_ne (h : s.Client x) {a : Nat} (hxa : x ≠ a)
    (hflag : a = 0 → r.1.syn.barrierFlags x = (s.host 0).syn.barrierFlags x)
    (hout : a = 0 → outTo r.2 x = []) : (s.put a r).Client x := by
  unfold Sys.Client
  rw [put_host_ne hxa, put_net_ne hxa]
  by_cases ha : a = 0
  · subst ha
    rw [put_host_self, put_net_self, hflag rfl, hout rfl, List.append_nil]
    exact h
  · rw [put_host_ne (Ne.symm ha), put_net_ne (Ne.symm ha)]
    exact h

/-- A client that is outside is not flagged, and nothing is in flight. -/
theorem Sys.Client.outside (h : s.Client x) (hin : (s.host x).pc.inBarrier = false) :
    (s.host 0).syn.barrierFlags x = false ∧ barrierMsgs (s.net x 0) = [] ∧
      barrierMsgs (s.net 0 x) = [] := by
  unfold Sys.Client at h
  rw [hin] at h
  generalize hf : (s.host 0).syn.barrierFlags x = flag at h
  generalize hu : barrierMsgs (s.net x 0) = up at h
  generalize hd : barrierMsgs (s.net 0 x) = down at h
  cases h
  exact ⟨rfl, rfl, rfl⟩

/-- A flagged client sleeps, and nothing is in flight. -/
theorem Sys.Client.flagged (h : s.Client x)
    (hflag : (s.host 0).syn.barrierFlags x = true) :
    (s.host x).pc.inBarrier = true ∧ (s.host x).syn.waitFlag = true ∧
      barrierMsgs (s.net x 0) = [] ∧ barrierMsgs (s.net 0 x) = [] := by
  unfold Sys.Client at h
  rw [hflag] at h
  generalize hi : (s.host x).pc.inBarrier = inside at h
  generalize hw : (s.host x).syn.waitFlag = asleep at h
  generalize hu : barrierMsgs (s.net x 0) = up at h
  generalize hd : barrierMsgs (s.net 0 x) = down at h
  cases h
  exact ⟨rfl, rfl, rfl, rfl⟩

/-- A client calls `mi_barrier`. -/
theorem BarrierInv.enter_client (hb : BarrierInv n s) (h0 : 0 < x) (hx : x < n)
    (hpc : (s.host x).pc = .run) :
    BarrierInv n (s.put x (miBarrier n x (s.host x))) := by
  obtain ⟨infos, hinfos, hto0, hto⟩ := enter_outTo n x (s.host x).mem
  have hcall : miBarrier n x (s.host x) = ({ s.host x with
      syn := { (s.host x).syn with waitFlag := true }, pc := .barrierWait },
      sendEnterBarrierInfo n x (s.host x).mem ++ [(0, .enterBarrier)]) := by
    rw [miBarrier, if_neg (by omega)]
  rw [hcall]
  refine ⟨fun y hy0 hy => ?_, ?_, fun u v hu hv => ?_⟩
  · by_cases hyx : y = x
    · subst hyx
      obtain ⟨hflag, hup, hdown⟩ := (hb.client y h0 hx).outside (by rw [hpc]; rfl)
      unfold Sys.Client
      rw [put_host_self, put_host_ne (by omega), put_net_self,
        put_net_ne (by omega), hflag, hdown, barrierMsgs_append, hup, List.nil_append]
      dsimp only
      rw [hto0, barrierMsgs_all]
      · exact .entering infos hinfos
      · intro msg hm
        rcases List.mem_append.mp hm with hm | hm
        · exact Msg.cls_of_isEnterInfo (hinfos msg hm)
        · rw [List.mem_singleton.mp hm]
          rfl
    · exact (hb.client y hy0 hy).put_ne hyx (fun h => absurd h (by omega))
        fun h => absurd h (by omega)
  · unfold Sys.Manager
    rw [put_host_ne (by omega)]
    exact hb.manager
  · by_cases hux : u = x
    · subst hux
      rw [put_net_self, barrierMsgs_append, hb.stray u v hu hv]
      dsimp only
      rw [hto v hv]
      rfl
    · rw [put_net_ne hux]
      exact hb.stray u v hu hv

/-- The manager releases: every client has its flag up. -/
theorem BarrierInv.put_release (hb : BarrierInv n s)
    (hall : ∀ x, 0 < x → x < n → (s.host 0).syn.barrierFlags x = true)
    (hflags : ∀ x < n, r.1.syn.barrierFlags x = false) {h : Host}
    (hout : r.2 = (h.release n).2)
    (hm : ManagerView r.1.pc.inBarrier r.1.syn.waitFlag (r.1.syn.barrierFlags 0)) :
    BarrierInv n (s.put 0 r) := by
  refine ⟨fun y hy0 hy => ?_, ?_, fun u v hu hv => ?_⟩
  · obtain ⟨hin, hw, hup, hdown⟩ := (hb.client y hy0 hy).flagged (hall y hy0 hy)
    have hinfos := release_infos h.mem hy0 hy
    unfold Sys.Client
    rw [put_host_self, put_host_ne (by omega), put_net_ne (by omega), put_net_self,
      hin, hw, hup, hflags y hy, barrierMsgs_append, hdown, hout, List.nil_append,
      release_outTo h hy0 hy, barrierMsgs_all]
    · exact .released _ hinfos
    · intro msg hmsg
      rcases List.mem_append.mp hmsg with hmsg | hmsg
      · exact Msg.cls_of_isExitInfo (hinfos msg hmsg)
      · rw [List.mem_singleton.mp hmsg]
        rfl
  · unfold Sys.Manager
    rw [put_host_self]
    exact hm
  · rw [put_net_ne hu]
    exact hb.stray u v hu hv

/-- The manager calls `mi_barrier`. -/
theorem BarrierInv.enter_manager (hb : BarrierInv n s) (hn : 0 < n)
    (hpc : (s.host 0).pc = .run) :
    BarrierInv n (s.put 0 (miBarrier n 0 (s.host 0))) := by
  unfold miBarrier
  rw [if_pos rfl]
  dsimp only
  rcases checkBarrierFlags_cases n 0 { s.host 0 with
      mem := { (s.host 0).mem with
        barrierTimestamps := upd (s.host 0).mem.barrierTimestamps 0 fun i =>
          if i.val < n then ((s.host 0).mem.now 0).timestamp i
          else (s.host 0).mem.barrierTimestamps 0 i }
      syn := { (s.host 0).syn with
        barrierFlags := upd (s.host 0).syn.barrierFlags 0 true } }
    with ⟨he, -⟩ | ⟨-, hall, he⟩ <;> rw [he]
  · refine ⟨fun y hy0 hy => ?_, ?_, fun u v hu hv => ?_⟩
    · exact (hb.client y hy0 hy).put_ne (by omega) (fun _ => upd_ne (by omega))
        fun _ => rfl
    · unfold Sys.Manager
      rw [put_host_self]
      simp only [upd_self]
      exact .waiting
    · rw [put_net_ne hu]
      exact hb.stray u v hu hv
  · refine hb.put_release (fun y hy0 hy => ?_) (fun y hy => if_pos hy) rfl ?_
    · exact (upd_ne (show y ≠ 0 by omega)).symm.trans (hall y hy)
    · have hin : (s.host 0).pc.inBarrier = false := by rw [hpc]; rfl
      dsimp only [Host.release]
      rw [hin, if_pos hn]
      exact .out _

/-! ## The messages, for the stages -/

/-- The oldest barrier message from a client to the manager. -/
theorem Sys.Client.up_head (h : s.Client x) {msg : Msg} {rest : List Msg}
    (hnet : s.net x 0 = msg :: rest) (hmsg : msg.cls = .barrier) :
    (s.host x).pc.inBarrier = true ∧ (s.host x).syn.waitFlag = true ∧
    (s.host 0).syn.barrierFlags x = false ∧ barrierMsgs (s.net 0 x) = [] ∧
    ((msg.isEnterInfo = true ∧ ∃ infos, (∀ m ∈ infos, m.isEnterInfo = true) ∧
        barrierMsgs rest = infos ++ [.enterBarrier]) ∨
      (msg = .enterBarrier ∧ barrierMsgs rest = [])) := by
  unfold Sys.Client at h
  rw [hnet, barrierMsgs_cons hmsg] at h
  generalize hi : (s.host x).pc.inBarrier = inside at h
  generalize hw : (s.host x).syn.waitFlag = asleep at h
  generalize hf : (s.host 0).syn.barrierFlags x = flag at h
  generalize hu : msg :: barrierMsgs rest = up at h
  generalize hd : barrierMsgs (s.net 0 x) = down at h
  cases h with
  | out => cases hu
  | flagged => cases hu
  | released => cases hu
  | woken => cases hu
  | entering infos hinfos =>
      refine ⟨rfl, rfl, rfl, rfl, ?_⟩
      cases infos with
      | nil =>
          rw [List.nil_append, List.cons.injEq] at hu
          exact Or.inr hu
      | cons i infos =>
          rw [List.cons_append, List.cons.injEq] at hu
          exact Or.inl ⟨hu.1 ▸ hinfos i List.mem_cons_self, infos,
            fun m hm => hinfos m (List.mem_cons_of_mem _ hm), hu.2⟩

/-- The oldest barrier message from the manager to a client. -/
theorem Sys.Client.down_head (h : s.Client x) {msg : Msg} {rest : List Msg}
    (hnet : s.net 0 x = msg :: rest) (hmsg : msg.cls = .barrier) :
    (s.host x).pc.inBarrier = true ∧ (s.host x).syn.waitFlag = true ∧
    (s.host 0).syn.barrierFlags x = false ∧ barrierMsgs (s.net x 0) = [] ∧
    ((msg.isExitInfo = true ∧ ∃ infos, (∀ m ∈ infos, m.isExitInfo = true) ∧
        barrierMsgs rest = infos ++ [.exitBarrier]) ∨
      (msg = .exitBarrier ∧ barrierMsgs rest = [])) := by
  unfold Sys.Client at h
  rw [hnet, barrierMsgs_cons hmsg] at h
  generalize hi : (s.host x).pc.inBarrier = inside at h
  generalize hw : (s.host x).syn.waitFlag = asleep at h
  generalize hf : (s.host 0).syn.barrierFlags x = flag at h
  generalize hu : barrierMsgs (s.net x 0) = up at h
  generalize hd : msg :: barrierMsgs rest = down at h
  cases h with
  | out => cases hd
  | flagged => cases hd
  | entering => cases hd
  | woken => cases hd
  | released infos hinfos =>
      refine ⟨rfl, rfl, rfl, rfl, ?_⟩
      cases infos with
      | nil =>
          rw [List.nil_append, List.cons.injEq] at hd
          exact Or.inr hd
      | cons i infos =>
          rw [List.cons_append, List.cons.injEq] at hd
          exact Or.inl ⟨hd.1 ▸ hinfos i List.mem_cons_self, infos,
            fun m hm => hinfos m (List.mem_cons_of_mem _ hm), hd.2⟩

/-- One end of the channel of a barrier message is the manager. -/
theorem BarrierInv.ends (hb : BarrierInv n s) {a b : Nat} {msg : Msg} {rest : List Msg}
    (hnet : s.net a b = msg :: rest) (hmsg : msg.cls = .barrier) (hne : a ≠ b) :
    (a ≠ 0 ∧ b = 0) ∨ (a = 0 ∧ b ≠ 0) := by
  by_cases ha : a = 0
  · exact Or.inr ⟨ha, fun hb => hne (ha.trans hb.symm)⟩
  · refine Or.inl ⟨ha, ?_⟩
    by_contra h0
    have hs := hb.stray a b ha h0
    rw [hnet, barrierMsgs_cons hmsg] at hs
    cases hs

/-- What a client sends goes to the manager. -/
theorem BarrierInv.upward (hb : BarrierInv n s) {a b : Nat} {msg : Msg} {rest : List Msg}
    (hnet : s.net a b = msg :: rest) (hmsg : msg.cls = .barrier) (hlt : b < n) (hne : a ≠ b)
    (hinfo : msg.isExitInfo = false) (hexit : msg ≠ .exitBarrier) : 0 < a ∧ b = 0 := by
  obtain ⟨ha, rfl⟩ | ⟨rfl, h0⟩ := hb.ends hnet hmsg hne
  · exact ⟨by omega, rfl⟩
  · obtain ⟨-, -, -, -, hdown⟩ := (hb.client b (by omega) hlt).down_head hnet hmsg
    rcases hdown with ⟨hi, -⟩ | ⟨hi, -⟩
    · rw [hinfo] at hi
      cases hi
    · exact absurd hi hexit

/-- What the manager sends goes to a client. -/
theorem BarrierInv.downward (hb : BarrierInv n s) {a b : Nat} {msg : Msg} {rest : List Msg}
    (hnet : s.net a b = msg :: rest) (hmsg : msg.cls = .barrier) (hlt : a < n) (hne : a ≠ b)
    (hinfo : msg.isEnterInfo = false) (henter : msg ≠ .enterBarrier) : a = 0 ∧ 0 < b := by
  obtain ⟨h0, rfl⟩ | ⟨rfl, h0⟩ := hb.ends hnet hmsg hne
  · obtain ⟨-, -, -, -, hup⟩ := (hb.client a (by omega) hlt).up_head hnet hmsg
    rcases hup with ⟨hi, -⟩ | ⟨hi, -⟩
    · rw [hinfo] at hi
      cases hi
    · exact absurd hi henter
  · exact ⟨rfl, by omega⟩

/-- Messages and stages that a message of channel `a`, `b` leaves alone. -/
theorem BarrierInv.pop (hb : BarrierInv n s) {a b : Nat}
    (hends : (a = x ∧ b = 0) ∨ (a = 0 ∧ b = x)) (hx : 0 < x)
    (hclient : (s.pop a b).Client x) : BarrierInv n (s.pop a b) := by
  refine ⟨fun y hy0 hy => ?_, hb.manager, fun u v hu hv => ?_⟩
  · by_cases hyx : y = x
    · rw [hyx]
      exact hclient
    · unfold Sys.Client
      rw [pop_net_ne (by omega), pop_net_ne (by omega), pop_host]
      exact hb.client y hy0 hy
  · rw [pop_net_ne (by omega)]
    exact hb.stray u v hu hv

theorem BarrierInv.pop_enterInfo (hb : BarrierInv n s) (h0 : 0 < x) (hx : x < n)
    {msg : Msg} {rest : List Msg} (hnet : s.net x 0 = msg :: rest)
    (hmsg : msg.isEnterInfo = true) : BarrierInv n (s.pop x 0) := by
  obtain ⟨hin, hw, hf, hd, hup⟩ :=
    (hb.client x h0 hx).up_head hnet (Msg.cls_of_isEnterInfo hmsg)
  refine hb.pop (Or.inl ⟨rfl, rfl⟩) h0 ?_
  unfold Sys.Client
  rw [pop_net_self, pop_net_ne (by omega), pop_host, hnet, List.tail_cons, hin, hw, hf, hd]
  rcases hup with ⟨-, infos, hinfos, hrest⟩ | ⟨rfl, -⟩
  · rw [hrest]
    exact .entering infos hinfos
  · cases hmsg

theorem BarrierInv.pop_exitInfo (hb : BarrierInv n s) (h0 : 0 < x) (hx : x < n)
    {msg : Msg} {rest : List Msg} (hnet : s.net 0 x = msg :: rest)
    (hmsg : msg.isExitInfo = true) : BarrierInv n (s.pop 0 x) := by
  obtain ⟨hin, hw, hf, hu, hdown⟩ :=
    (hb.client x h0 hx).down_head hnet (Msg.cls_of_isExitInfo hmsg)
  refine hb.pop (Or.inr ⟨rfl, rfl⟩) h0 ?_
  unfold Sys.Client
  rw [pop_net_self, pop_net_ne (by omega), pop_host, hnet, List.tail_cons, hin, hw, hf, hu]
  rcases hdown with ⟨-, infos, hinfos, hrest⟩ | ⟨rfl, -⟩
  · rw [hrest]
    exact .released infos hinfos
  · cases hmsg

/-- `EXIT_BARRIER` reaches its client. -/
theorem BarrierInv.exit (hb : BarrierInv n s) (h0 : 0 < x) (hx : x < n)
    {rest : List Msg} (hnet : s.net 0 x = .exitBarrier :: rest) :
    BarrierInv n ((s.pop 0 x).put x (handleExitBarrierMsg 0 (s.host x), [])) := by
  obtain ⟨hin, hw, hf, hu, hdown⟩ := (hb.client x h0 hx).down_head hnet rfl
  obtain ⟨-, hrest⟩ : Msg.exitBarrier = .exitBarrier ∧ barrierMsgs rest = [] := by
    rcases hdown with ⟨hi, -⟩ | h
    · cases hi
    · exact h
  refine ⟨fun y hy0 hy => ?_, ?_, fun u v hu0 hv0 => ?_⟩
  · by_cases hyx : y = x
    · subst hyx
      unfold Sys.Client
      rw [put_host_self, put_host_ne (by omega), put_net_self, put_net_ne (by omega),
        pop_net_ne (by omega), pop_net_self, pop_host, hnet, List.tail_cons, hf, hrest,
        outTo_nil, List.append_nil, hu]
      rw [handleExitBarrierMsg, if_pos rfl]
      dsimp only
      rw [hin]
      exact .woken
    · have hc : (s.pop 0 x).Client y := by
        unfold Sys.Client
        rw [pop_net_ne (by omega), pop_net_ne (by omega), pop_host]
        exact hb.client y hy0 hy
      exact hc.put_ne hyx (fun h => absurd h (by omega)) fun h => absurd h (by omega)
  · unfold Sys.Manager
    rw [put_host_ne (by omega)]
    exact hb.manager
  · by_cases hux : u = x
    · subst hux
      rw [put_net_self, outTo_nil, List.append_nil, pop_net_ne (by omega)]
      exact hb.stray u v hu0 hv0
    · rw [put_net_ne hux, pop_net_ne (by omega)]
      exact hb.stray u v hu0 hv0

/-- The flag of a client goes up. -/
theorem BarrierInv.flag (hb : BarrierInv n s) (h0 : 0 < x) (hx : x < n)
    {rest : List Msg} (hnet : s.net x 0 = .enterBarrier :: rest) :
    BarrierInv n ((s.pop x 0).put 0 ({ s.host 0 with
      syn := { (s.host 0).syn with
        barrierFlags := upd (s.host 0).syn.barrierFlags x true } }, [])) := by
  obtain ⟨hin, hw, -, hd, hup⟩ := (hb.client x h0 hx).up_head hnet rfl
  obtain ⟨-, hrest⟩ : Msg.enterBarrier = .enterBarrier ∧ barrierMsgs rest = [] := by
    rcases hup with ⟨hi, -⟩ | h
    · cases hi
    · exact h
  refine ⟨fun y hy0 hy => ?_, ?_, fun u v hu hv => ?_⟩
  · by_cases hyx : y = x
    · subst hyx
      unfold Sys.Client
      rw [put_host_self, put_host_ne (by omega), put_net_self, put_net_ne (by omega),
        pop_net_self, pop_net_ne (by omega), pop_host, hnet, List.tail_cons, hin, hw,
        hrest, outTo_nil, List.append_nil, hd]
      dsimp only
      rw [upd_self]
      exact .flagged
    · have hc : (s.pop x 0).Client y := by
        unfold Sys.Client
        rw [pop_net_ne (by omega), pop_net_ne (by omega), pop_host]
        exact hb.client y hy0 hy
      exact hc.put_ne (by omega) (fun _ => upd_ne hyx) fun _ => rfl
  · unfold Sys.Manager
    rw [put_host_self]
    dsimp only
    rw [upd_ne (by omega)]
    exact hb.manager
  · rw [put_net_ne hu, pop_net_ne (by omega)]
    exact hb.stray u v hu hv

/-- The manager with its flag up waits. -/
theorem BarrierInv.manager_waits (hb : BarrierInv n s)
    (hflag : (s.host 0).syn.barrierFlags 0 = true) :
    (s.host 0).pc.inBarrier = true := by
  have h := hb.manager
  unfold Sys.Manager at h
  rw [hflag] at h
  generalize (s.host 0).pc.inBarrier = inside at h
  generalize (s.host 0).syn.waitFlag = asleep at h
  cases h
  rfl

/-- `ENTER_BARRIER` reaches the manager. -/
theorem BarrierInv.enter (hb : BarrierInv n s) (h0 : 0 < x) (hx : x < n)
    {rest : List Msg} (hnet : s.net x 0 = .enterBarrier :: rest) :
    BarrierInv n ((s.pop x 0).put 0 (handleEnterBarrierMsg n 0 x (s.host 0))) := by
  have hflag := hb.flag h0 hx hnet
  unfold handleEnterBarrierMsg
  dsimp only
  rcases checkBarrierFlags_cases n 0 { s.host 0 with
      syn := { (s.host 0).syn with
        barrierFlags := upd (s.host 0).syn.barrierFlags x true } }
    with ⟨he, -⟩ | ⟨-, hall, he⟩ <;> rw [he]
  · exact hflag
  · dsimp only
    rw [← put_put_nil (h := { s.host 0 with
      syn := { (s.host 0).syn with
        barrierFlags := upd (s.host 0).syn.barrierFlags x true } })]
    have hin := hb.manager_waits ((upd_ne (show 0 ≠ x by omega)).symm.trans
      (hall 0 (by omega)))
    refine hflag.put_release (fun y hy0 hy => ?_) (fun y hy => if_pos hy) rfl ?_
    · rw [put_host_self]
      exact hall y hy
    · dsimp only [Host.release]
      rw [hin, if_pos (by omega)]
      exact .woken

/-- A woken host returns from `mi_barrier`. -/
theorem BarrierInv.leave (hb : BarrierInv n s) {a : Nat} (ha : a < n)
    (hpc : (s.host a).pc = .barrierWait) (hw : (s.host a).syn.waitFlag = false) :
    BarrierInv n (s.put a ({ s.host a with pc := .run, ret := none }, [])) := by
  have hin : (s.host a).pc.inBarrier = true := by rw [hpc]; rfl
  refine ⟨fun y hy0 hy => ?_, ?_, fun u v hu hv => ?_⟩
  · by_cases hya : y = a
    · subst hya
      have hc := hb.client y hy0 hy
      unfold Sys.Client at hc ⊢
      rw [put_host_self, put_host_ne (by omega), put_net_self, put_net_ne (by omega),
        outTo_nil, List.append_nil]
      rw [hin, hw] at hc
      dsimp only
      rw [hw]
      generalize (s.host 0).syn.barrierFlags y = flag at hc ⊢
      generalize barrierMsgs (s.net y 0) = up at hc ⊢
      generalize barrierMsgs (s.net 0 y) = down at hc ⊢
      cases hc
      exact .out false
    · exact (hb.client y hy0 hy).put_ne hya (fun h => by subst h; rfl) fun _ => rfl
  · by_cases h0 : a = 0
    · subst h0
      have hm := hb.manager
      unfold Sys.Manager at hm ⊢
      rw [put_host_self]
      rw [hin, hw] at hm
      dsimp only
      rw [hw]
      generalize (s.host 0).syn.barrierFlags 0 = flag at hm ⊢
      cases hm
      exact .out false
    · unfold Sys.Manager
      rw [put_host_ne (Ne.symm h0)]
      exact hb.manager
  · by_cases hua : u = a
    · subst hua
      rw [put_net_self, outTo_nil, List.append_nil]
      exact hb.stray u v hu hv
    · rw [put_net_ne hua]
      exact hb.stray u v hu hv

end

end Midsm
