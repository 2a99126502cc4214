import Midsm.Proofs.MemCases

/-!
# Nobody invents a notice

Whatever a host has recorded about host `j`, and whatever a message in flight
says about it, `j` has recorded itself. So a notice can be forwarded by third
hosts, come back to its owner and be repeated, and a diff is only ever asked for
where there is a notice for it. `Sound` is the invariant; it holds because every
step is a `MemStep`: what a host sends it knows, and what it knows it has read
or made.
-/

namespace Midsm

open Midsm.Lib

structure MemStep (n me : Nat) (packets : List WnPacket) (h : Host) (r : Host × Out) :
    Prop where
  grows : h.mem.Grows me packets r.1.mem
  tells : ∀ x ∈ r.2, r.1.mem.Tells x.2.packets
  asks : ∀ j p ts, (j, .fetchDiff p ts) ∈ r.2 →
    j < n ∧ j ≠ me ∧ h.mem.Noted j ts p
  pc : r.1.pc.Sound n me r.1.mem

/-! ## What is sent -/

section

variable {n me : Nat} {m m' : Mem} {h : Host} {r : Host × Out}

theorem Mem.Tells.nil (m : Mem) : m.Tells [] := fun _ hm => nomatch hm

theorem Mem.Alike.tells {packets : List WnPacket} (h : m.Alike m')
    (ht : m.Tells packets) : m'.Tells packets := by
  intro packet hm
  unfold Mem.Known Mem.Listed
  rw [h.procArray]
  exact ht packet hm

/-- A message of the two barrier encoders carries all the packets of its block. -/
theorem Block.msg_packets {mk : Timestamp → Nat → List WnPacket → Msg}
    (hmk : ∀ ts packets, (mk ts packets.length packets).packets = packets) (b : Block) :
    (b.msg mk).2.packets = b.packets := hmk _ _

theorem encode_tells {mk : Timestamp → Nat → List WnPacket → Msg}
    (hmk : ∀ ts packets, (mk ts packets.length packets).packets = packets)
    {dest : Nat} {ts : Timestamp} {intervals : List (List WnPacket)}
    (ht : ∀ packets ∈ intervals, m.Tells packets) :
    ∀ x ∈ encode mk dest ts intervals, m.Tells x.2.packets := by
  intro x hx
  obtain ⟨blocks, -, he, hbl⟩ := encode_blocks mk dest ts intervals
  rw [he] at hx
  obtain ⟨b, hb, rfl⟩ := List.mem_map.mp hx
  rw [Block.msg_packets hmk]
  intro packet hm
  refine Mem.Tells.flatten ht packet ?_
  rw [← hbl.packets]
  exact List.mem_flatMap.mpr ⟨b, hb, hm⟩

theorem enterInfo_packets (ts : Timestamp) (packets : List WnPacket) :
    (Msg.grantEnterBarrierInfo ts packets.length packets).packets = packets :=
  List.take_length

theorem exitInfo_packets (ts : Timestamp) (packets : List WnPacket) :
    (Msg.grantExitBarrierInfo ts packets.length packets).packets = packets :=
  List.take_length

theorem mem_sinceBarrier {list : List Interval} {interval : Interval}
    (h : interval ∈ sinceBarrier list) : interval ∈ list := by
  induction list with
  | nil => cases h
  | cons i rest ih =>
      rw [sinceBarrier] at h
      split at h
      · rw [List.mem_singleton.mp h]
        exact List.mem_cons_self
      · rcases List.mem_cons.mp h with rfl | h
        · exact List.mem_cons_self
        · exact List.mem_cons_of_mem _ (ih h)

theorem enterInfo_tells (n me : Nat) (m : Mem) :
    ∀ x ∈ sendEnterBarrierInfo n me m, m.Tells x.2.packets := by
  unfold sendEnterBarrierInfo
  split
  · exact fun _ hx => nomatch hx
  · refine encode_tells enterInfo_packets fun packets hm => ?_
    obtain ⟨interval, hi, rfl⟩ := List.mem_map.mp hm
    exact intervalPackets_tells (mem_sinceBarrier (List.mem_reverse.mp hi))

theorem exitInfo_tells (n : Nat) (ts : Timestamp) (m : Mem) (i : Nat) :
    ∀ x ∈ exitBarrierInfo n ts m i, m.Tells x.2.packets := by
  refine encode_tells exitInfo_packets fun packets hm => ?_
  obtain ⟨j, -, hj⟩ := List.mem_flatMap.mp hm
  exact packetsAfter_tells _ _ _ _ packets hj

/-! ## The release -/

theorem release_alike (n : Nat) (h : Host) :
    (h.mem.pushNow 0 ⟨barrierTimestamp n h.mem, [], true⟩).Alike (h.release n).1.mem :=
  ⟨rfl, rfl, rfl, rfl⟩

theorem release_grows (n : Nat) (h : Host) : h.mem.Grows 0 [] (h.release n).1.mem :=
  Mem.Grows.congr (pushNow_grows rfl) (.refl _) (release_alike n h)

theorem release_tells (n : Nat) (h : Host) :
    ∀ x ∈ (h.release n).2, (h.release n).1.mem.Tells x.2.packets := by
  intro x hx
  rcases List.mem_append.mp hx with hx | hx
  · unfold returnAllBarrierInfo at hx
    obtain ⟨i, -, hx⟩ := List.mem_flatMap.mp hx
    exact (release_alike n h).tells (exitInfo_tells _ _ _ _ x hx)
  · obtain ⟨i, -, rfl⟩ := List.mem_map.mp hx
    exact .nil _

theorem release_cls (n : Nat) (h : Host) : ∀ x ∈ (h.release n).2, x.2.cls = .barrier := by
  intro x hx
  rcases List.mem_append.mp hx with hx | hx
  · unfold returnAllBarrierInfo at hx
    obtain ⟨i, -, hx⟩ := List.mem_flatMap.mp hx
    exact Msg.cls_of_isExitInfo (exitInfo_spec _ _ _ _ x hx).2
  · obtain ⟨i, -, rfl⟩ := List.mem_map.mp hx
    rfl

/-! ## Every step is a `MemStep` -/

theorem asks_nothing (hr : ∀ x ∈ r.2, x.2.cls ≠ .data) (j p : Nat) (ts : Timestamp)
    (hx : (j, .fetchDiff p ts) ∈ r.2) : j < n ∧ j ≠ me ∧ h.mem.Noted j ts p :=
  absurd rfl (hr _ hx)

theorem tells_lock (hr : ∀ x ∈ r.2, x.2.cls = .lock) : ∀ x ∈ r.2, m.Tells x.2.packets := by
  intro x hx
  have hcls := hr x hx
  cases hmsg : x.2 <;> rw [hmsg] at hcls <;> first | exact .nil m | cases hcls

theorem asks_lock (hr : ∀ x ∈ r.2, x.2.cls = .lock) : ∀ x ∈ r.2, x.2.cls ≠ .data := by
  intro x hx
  rw [hr x hx]
  exact nofun

theorem alike_stamp (n : Nat) (m : Mem) : m.Alike (m.stamp n) := ⟨rfl, rfl, rfl, rfl⟩

theorem ExecMem.step {op : Op} (hc : ExecMem n me h op r) (ht : h.mem.NowTop me)
    (hs : h.pc.Sound n me h.mem) : MemStep n me [] h r := by
  cases hc with
  | access hq hf _ =>
      obtain ⟨hm, hpc, hplain, hasks, -⟩ := hf hs
      refine ⟨hm.grows ht, fun x hx => ?_, fun j p ts hx => hasks.noted hx, hpc⟩
      rw [Msg.packets_of_forFault (hplain x hx)]
      exact .nil _
  | keep hm hp _ _ ho =>
      refine ⟨?_, tells_lock ho, asks_nothing (asks_lock ho), .of_none hp⟩
      rw [hm]
      exact (Mem.Frame.refl _).grows
  | fresh hm hp _ _ ho =>
      refine ⟨?_, tells_lock ho, asks_nothing (asks_lock ho), .of_none (by rw [hp]; rfl)⟩
      rw [hm]
      exact pushNow_grows rfl
  | fetch g l path _ _ hm hp _ _ ho =>
      refine ⟨?_, fun x hx => ?_, fun j p ts hx => ?_, .of_none (by rw [hp]; rfl)⟩
      · rw [hm]
        exact Mem.Alike.grows ⟨rfl, rfl, rfl, rfl⟩
      · rw [ho, List.mem_singleton] at hx
        rw [hx]
        exact .nil _
      · rw [ho, List.mem_singleton] at hx
        cases hx
  | enter _ _ hm hp ho =>
      have hcls : ∀ x ∈ r.2, x.2.cls ≠ .data := by
        intro x hx
        rw [ho] at hx
        rcases List.mem_append.mp hx with hx | hx
        · rw [Msg.cls_of_isEnterInfo (enterInfo_spec n me h.mem x hx).2]
          exact nofun
        · rw [List.mem_singleton.mp hx]
          exact nofun
      refine ⟨?_, fun x hx => ?_, asks_nothing hcls, .of_none (by rw [hp]; rfl)⟩
      · rw [hm]
        exact (Mem.Frame.refl _).grows
      · rw [hm]
        rw [ho] at hx
        rcases List.mem_append.mp hx with hx | hx
        · exact enterInfo_tells n me h.mem x hx
        · rw [List.mem_singleton.mp hx]
          exact .nil _
  | note _ _ hm hp ho =>
      refine ⟨?_, fun x hx => ?_, fun j p ts hx => ?_, .of_none (by rw [hp]; rfl)⟩
      · rw [hm]
        exact (alike_stamp n h.mem).grows
      · rw [ho] at hx
        cases hx
      · rw [ho] at hx
        cases hx
  | release hme _ hm hp ho =>
      subst hme
      have hcls : ∀ x ∈ r.2, x.2.cls ≠ .data := by
        intro x hx
        rw [ho] at hx
        rw [release_cls n _ x hx]
        exact nofun
      refine ⟨?_, fun x hx => ?_, asks_nothing hcls, .of_none (by rw [hp]; rfl)⟩
      · rw [hm]
        exact (release_grows n (h.stamped n)).congr (alike_stamp n h.mem) (.refl _)
      · rw [hm]
        rw [ho] at hx
        exact release_tells n _ x hx

/-- A host that reads a page for another one asks at most for what its own fault needs. -/
theorem PageRead.step {sender p : Nat} (hc : PageRead n me sender p h r)
    (ht : h.mem.NowTop me) (hs : h.pc.Sound n me h.mem) : MemStep n me [] h r := by
  have hsame : h.mem.Grows me [] h.mem := (Mem.Frame.refl _).grows
  cases hc with
  | refused | killed => exact ⟨hsame, nofun, nofun, hs⟩
  | sent =>
      refine ⟨hsame, fun x hx => ?_, fun j q t hx => ?_, hs⟩ <;> rw [List.mem_singleton] at hx
      · rw [hx]
        exact .nil _
      · cases hx
  | opened m _ _ _ _ _ _ hseg =>
      have hg := (segvHandler_spec hseg).mem.grows ht
      refine ⟨hg, fun x hx => ?_, fun j q t hx => ?_,
        fun p hp => hg.mapped p (hs.mapped p hp), hs.source⟩ <;>
        rw [List.mem_singleton] at hx
      · rw [hx]
        exact .nil _
      · cases hx
  | hangs m out pc _ _ _ hseg =>
      have hf := segvHandler_spec hseg
      have hg := hf.mem.grows ht
      refine ⟨hg, fun x hx => ?_, fun j q t hx => hf.asks.noted hx,
        fun p hp => hg.mapped p (hs.mapped p hp), hs.source⟩
      rw [Msg.packets_of_forFault (hf.plain x hx)]
      exact .nil _

theorem dispatch_data_step (n me sender : Nat) {msg : Msg}
    (hmsg : msg.cls = .data ∨ msg.isEnterInfo = true ∨ msg.isExitInfo = true)
    (ht : h.mem.NowTop me) (hs : h.pc.Sound n me h.mem) :
    MemStep n me msg.packets h (dispatchMsg n me sender msg h) := by
  have hsilent : ∀ {packets : List WnPacket} {m' : Mem}, h.mem.Grows me packets m' →
      MemStep n me packets h ({ h with mem := m' }, []) := fun hg =>
    ⟨hg, fun _ hx => (nomatch hx), fun _ _ _ hx => (nomatch hx),
      fun p hp => hg.mapped p (hs.mapped p hp), hs.source⟩
  have hsame : h.mem.Grows me [] h.mem := (Mem.Frame.refl _).grows
  cases msg with
  | acqLock | rlsLock | grantLock | enterBarrier | exitBarrier =>
      rcases hmsg with hmsg | hmsg | hmsg <;> cases hmsg
  | grantWnI ts k packets =>
      have hg : h.mem.Grows me (packets.take k) (incorporatePackets me k packets
          (h.mem.pushNow me ⟨bump me ts, [], false⟩)) :=
        (incorporatePackets_learned me k packets _).grows (pushNow_grows rfl) rfl
      exact hsilent (hg.congr (.refl _) ⟨rfl, rfl, rfl, rfl⟩)
  | grantDiff ts p diff => exact hsilent (handleGrantDiffMsg_frame ..).grows
  | grantPage p content => exact hsilent (handleGrantPageMsg_frame ..).grows
  | fetchPage p => exact (dispatch_fetchPage n me sender p h).step ht hs
  | fetchWnI ts =>
      rcases grantWNI_out n me sender ts h.mem with ho | ⟨-, -, ho⟩
      · refine ⟨hsame, fun x hx => ?_, fun j q t hx => ?_, hs⟩ <;>
          rw [dispatchMsg, ho] at hx <;> cases hx
      · refine ⟨hsame, fun x hx => ?_, fun j q t hx => ?_, hs⟩ <;>
          rw [dispatchMsg, ho, List.mem_singleton] at hx
        · rw [hx]
          exact (allAfter_tells n ts h.mem).take _
        · cases hx
  | fetchDiff p ts =>
      have hf : h.mem.Frame (grantDiff n me sender ts p h.mem).2.1 := grantDiff_frame ..
      have hpc := hs.of_frame hf
      rcases grantDiff_out n me sender ts p h.mem with ho | ⟨diff, ho⟩
      · refine ⟨hf.grows, fun x hx => ?_, fun j q t hx => ?_, hpc⟩ <;>
          rw [dispatchMsg, ho] at hx <;> cases hx
      · refine ⟨hf.grows, fun x hx => ?_, fun j q t hx => ?_, hpc⟩ <;>
          rw [dispatchMsg, ho, List.mem_singleton] at hx
        · rw [hx]
          exact .nil _
        · cases hx
  | grantEnterBarrierInfo ts k packets =>
      refine hsilent ((incorporatePackets_learned me k packets _).grows ?_ ?_)
      · split
        · exact Mem.Alike.grows ⟨rfl, rfl, rfl, rfl⟩
        · exact hsame
      · split <;> rfl
  | grantExitBarrierInfo ts k packets =>
      refine hsilent ((incorporatePackets_learned me k packets _).grows ?_ ?_)
      · split
        · exact pushNow_grows rfl
        · exact hsame
      · split <;> rfl

theorem ReadMem.step {sender : Nat} {msg : Msg} (hc : ReadMem n me sender h msg r)
    (ht : h.mem.NowTop me) (hs : h.pc.Sound n me h.mem) : MemStep n me msg.packets h r := by
  cases hc with
  | keep _ hpk hm hp ho =>
      rw [hpk]
      refine ⟨?_, tells_lock ho, asks_nothing (asks_lock ho), ?_⟩
      · rw [hm]
        exact (Mem.Frame.refl _).grows
      · rw [hp, hm]
        exact hs
  | release hme _ hm hp ho =>
      subst hme
      have hg := release_grows n h
      refine ⟨?_, fun x hx => ?_, fun j p ts hx => ?_, ?_⟩
      · rw [hm]
        exact hg
      · rw [hm]
        rw [ho] at hx
        exact release_tells n h x hx
      · rw [ho] at hx
        cases release_cls n h _ hx
      · rw [hp, hm]
        exact ⟨fun p hp => hg.mapped p (hs.mapped p hp), hs.source⟩
  | data hmsg => exact dispatch_data_step n me sender hmsg ht hs

end

/-! ## The invariant -/

/-- Host `j` has an interval of that timestamp, and a notice in it. -/
def Sys.Truth (s : Sys) (n j : Nat) (ts : Timestamp) : Prop :=
  j < n ∧ (s.host j).mem.Known j ts

def Sys.Fact (s : Sys) (n j : Nat) (ts : Timestamp) (p : Nat) : Prop :=
  j < n ∧ (s.host j).mem.Noted j ts p

/-- A packet of nothing but facts. -/
def Sys.Vouches (s : Sys) (n : Nat) (packet : WnPacket) : Prop :=
  s.Truth n packet.hostid packet.timestamp ∧
    ∀ p ∈ packet.wnArray, s.Fact n packet.hostid packet.timestamp p

structure Sound (n : Nat) (s : Sys) : Prop where
  nowTop : ∀ x < n, (s.host x).mem.NowTop x
  linked : ∀ x < n, (s.host x).mem.Linked
  beyond : ∀ x < n, ∀ p, (s.host x).mem.pagenum ≤ p →
    ((s.host x).mem.pageArray p).state = .unmap
  live : ∀ x < n, ∀ ts p, (s.host x).mem.Noted x ts p →
    p < maxPageNum ∧ ((s.host x).mem.pageArray p).Live
  known : ∀ x < n, ∀ {j ts}, (s.host x).mem.Known j ts → s.Truth n j ts
  noted : ∀ x < n, ∀ {j ts p}, (s.host x).mem.Noted j ts p → s.Fact n j ts p
  told : ∀ a b, ∀ msg ∈ s.net a b, ∀ packet ∈ msg.packets, s.Vouches n packet
  asked : ∀ {a b p ts}, .fetchDiff p ts ∈ s.net a b →
    a < n ∧ b < n ∧ b ≠ a ∧ s.Fact n b ts p
  pc : ∀ x < n, (s.host x).pc.Sound n x (s.host x).mem

theorem Sound.init (n : Nat) : Sound n initSys where
  nowTop x _ := ⟨by simp [initSys, initmem], by simp [initSys, initmem]⟩
  linked x _ j ts p := by
    constructor
    · intro h
      cases h
    · rintro ⟨interval, hm, -, hp⟩
      by_cases hj : j = x
      · subst hj
        simp only [initSys, initmem, upd_self, List.mem_singleton] at hm
        rw [hm] at hp
        cases hp
      · simp only [initSys, initmem, upd_ne hj] at hm
        cases hm
  beyond _ _ _ _ := rfl
  live _ _ _ _ h := by cases h
  known x hx j ts h := by
    obtain ⟨interval, hm, hts⟩ := h
    by_cases hj : j = x
    · subst hj
      exact ⟨hx, interval, hm, hts⟩
    · simp only [initSys, initmem, upd_ne hj] at hm
      cases hm
  noted _ _ _ _ _ h := by cases h
  told _ _ _ h := by cases h
  asked h := by cases h
  pc _ _ := .of_none rfl

section

variable {n a b : Nat} {s s' : Sys} {r : Host × Out} {packets : List WnPacket}

theorem Sys.Truth.put (hg : (s.host a).mem.Grows a packets r.1.mem) {j : Nat}
    {ts : Timestamp} (h : s.Truth n j ts) : (s.put a r).Truth n j ts := by
  refine ⟨h.1, ?_⟩
  by_cases hj : j = a
  · subst hj
    rw [put_host_self]
    exact hg.known_mono h.2
  · rw [put_host_ne hj]
    exact h.2

theorem Sys.Fact.put (hg : (s.host a).mem.Grows a packets r.1.mem) {j p : Nat}
    {ts : Timestamp} (h : s.Fact n j ts p) : (s.put a r).Fact n j ts p := by
  refine ⟨h.1, ?_⟩
  by_cases hj : j = a
  · subst hj
    rw [put_host_self]
    exact hg.noted_mono h.2
  · rw [put_host_ne hj]
    exact h.2

theorem Sys.Vouches.said {packet : WnPacket} (h : s.Vouches n packet) {j : Nat}
    {ts : Timestamp} (hn : packet.Names j ts) : s.Truth n j ts := hn.1 ▸ hn.2 ▸ h.1

theorem Sound.put (h : Sound n s) (ha : a < n)
    (hr : MemStep n a packets (s.host a) r) (hp : ∀ packet ∈ packets, s.Vouches n packet) :
    Sound n (s.put a r) := by
  have hg := hr.grows
  have ht := h.nowTop a ha
  have hsaid : ∀ j ts, Said packets j ts → s.Truth n j ts := by
    rintro j ts ⟨packet, hm, hn⟩
    exact (hp packet hm).said hn
  have hsaidp : ∀ j ts p, SaidNotice packets j ts p → s.Fact n j ts p := by
    rintro j ts p ⟨packet, hm, ⟨rfl, rfl⟩, hpg⟩
    exact (hp packet hm).2 p hpg
  have hknown : ∀ j ts, r.1.mem.Known j ts → (s.put a r).Truth n j ts := by
    intro j ts hk
    rcases hg.known hk with hk' | rfl | hk'
    · exact (h.known a ha hk').put hg
    · exact ⟨ha, by rw [put_host_self]; exact hk⟩
    · exact (hsaid j ts hk').put hg
  have hnoted : ∀ j ts p, r.1.mem.Noted j ts p → (s.put a r).Fact n j ts p := by
    intro j ts p hk
    rcases hg.noted (h.linked a ha) ht hk with hk' | hk' | ⟨rfl, -⟩
    · exact (h.noted a ha hk').put hg
    · exact (hsaidp j ts p hk').put hg
    · exact ⟨ha, by rw [put_host_self]; exact hk⟩
  have hmapped : ∀ {p : Nat}, ((s.host a).mem.pageArray p).Live →
      (r.1.mem.pageArray p).Live := by
    intro p hl
    refine hg.live p ?_ hl
    by_contra hpn
    exact hl.1 (h.beyond a ha p (by omega))
  have hlinked : r.1.mem.Linked := hg.linked ht (h.linked a ha)
  have hold : ∀ packet, s.Vouches n packet → (s.put a r).Vouches n packet :=
    fun packet hv => ⟨hv.1.put hg, fun p hp => (hv.2 p hp).put hg⟩
  refine ⟨?_, ?_, ?_, ?_, ?_, ?_, fun u v msg hm packet hpk => ?_,
    fun {u v p ts} hm => ?_, ?_⟩
  · refine put_host_forall (P := fun x h => x < n → h.mem.NowTop x) (fun _ => ?_)
      fun x _ => h.nowTop x
    exact hg.nowTop ht fun ts hs => (hsaid a ts hs).2
  · exact put_host_forall (P := fun x h => x < n → h.mem.Linked) (fun _ => hlinked)
      fun x _ => h.linked x
  · refine put_host_forall (P := fun x h => x < n → ∀ p, h.mem.pagenum ≤ p →
      (h.mem.pageArray p).state = .unmap) (fun _ p hpn => ?_) fun x _ => h.beyond x
    exact hg.unmap p hpn (h.beyond a ha p (Nat.le_trans hg.pagenum hpn))
  · refine put_host_forall (P := fun x h => x < n → ∀ ts p, h.mem.Noted x ts p →
      p < maxPageNum ∧ (h.mem.pageArray p).Live) (fun _ ts p hnp => ?_) fun x _ => h.live x
    rcases hg.noted (h.linked a ha) ht hnp with hnp | hnp | ⟨-, hmax, hst⟩
    · exact (h.live a ha ts p hnp).imp id hmapped
    · exact (h.live a ha ts p (hsaidp a ts p hnp).2).imp id hmapped
    · exact ⟨hmax, hmapped (Page.live_rdonly hst)⟩
  · exact put_host_forall (P := fun x h => x < n → ∀ {j ts}, h.mem.Known j ts →
      (s.put a r).Truth n j ts) (fun _ {j ts} => hknown j ts)
      fun x _ hx {_ _} hk => (h.known x hx hk).put hg
  · exact put_host_forall (P := fun x h => x < n → ∀ {j ts p}, h.mem.Noted j ts p →
      (s.put a r).Fact n j ts p) (fun _ {j ts p} => hnoted j ts p)
      fun x _ hx {_ _ _} hk => (h.noted x hx hk).put hg
  · rcases mem_put_net hm with hm | ⟨rfl, hout⟩
    · exact hold packet (h.told u v msg hm packet hpk)
    · obtain ⟨hk, hl⟩ := hr.tells _ hout packet hpk
      exact ⟨hknown _ _ hk, fun p hp => hnoted _ _ _ ((hlinked _ _ _).mpr (hl p hp))⟩
  · rcases mem_put_net hm with hm | ⟨rfl, hout⟩
    · obtain ⟨hu, hv, hne, hf⟩ := h.asked hm
      exact ⟨hu, hv, hne, hf.put hg⟩
    · obtain ⟨hv, hne, hn⟩ := hr.asks _ _ _ hout
      exact ⟨ha, hv, hne, (h.noted u ha hn).put hg⟩
  · exact put_host_forall (P := fun x h => x < n → h.pc.Sound n x h.mem)
      (fun _ => hr.pc) fun x _ => h.pc x

theorem Sound.pop (h : Sound n s) (a b : Nat) : Sound n (s.pop a b) :=
  ⟨h.nowTop, h.linked, h.beyond, h.live, h.known, h.noted,
    fun u v msg hm => h.told u v msg (mem_of_mem_pop hm),
    fun hm => h.asked (mem_of_mem_pop hm), h.pc⟩

theorem Sound.exec (h : Sound n s) (ha : a < n) {op : Op}
    (he : (s.host a).exec n a op = some r) : MemStep n a [] (s.host a) r :=
  (exec_mem he).step (h.nowTop a ha) (h.pc a ha)

theorem Sound.read (h : Sound n s) (hb : b < n) (msg : Msg) :
    MemStep n b msg.packets (s.host b) (dispatchMsg n b a msg (s.host b)) :=
  (dispatch_mem n b a msg (s.host b)).step (h.nowTop b hb) (h.pc b hb)

theorem Sound.step (h : Sound n s) {e : Event} (hs : Midsm.step n s e = some s') :
    Sound n s' := by
  obtain ⟨a, op, r, rfl, ha, he, rfl⟩ |
    ⟨a, b, msg, rest, rfl, ha, hb, hne, hnet, rfl⟩ := step_cases hs
  · exact h.put ha (h.exec ha he) fun _ hm => nomatch hm
  · refine (h.pop a b).put hb (h.read hb msg) fun packet hm => ?_
    refine h.told a b msg ?_ packet hm
    rw [hnet]
    exact List.mem_cons_self

theorem sound_of_reach {ok : Sys → Event → Prop} (h : Reach (Midsm.step n) ok initSys s) :
    Sound n s :=
  h.invariant (Sound.init n) fun hs _ he => hs.step he

end

end Midsm
