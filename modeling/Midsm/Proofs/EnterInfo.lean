import Midsm.Proofs.Episodes
import Midsm.Proofs.InfoMessages

/-!
# What a client tells the manager

An entering client splits its intervals into packets and the packets into
messages, and host 0 reads the messages one after the other. Its reader joins a
packet to the interval of its timestamp, wherever the interval came from, and adds
a notice that the interval does not have yet. So the cuts leave no trace: the
manager ends up with the client's notices, each page once in its interval, which
needs that its lists had no page twice before.
-/

namespace Midsm

open Midsm.Lib

/-! ## No page twice -/

/-- No interval that is recorded for host `j` lists a page twice. -/
def Mem.ListsOnce (j : Nat) (m : Mem) : Prop :=
  ∀ interval ∈ m.procArray j, interval.notices.Nodup

section

variable {n me j : Nat} {m : Mem}

/-- A property of an interval list that taking in a packet keeps. -/
structure Filing (Q : List Interval → Prop) : Prop where
  notice : ∀ {ts : Timestamp} {p : Nat} {list : List Interval}, Q list →
    p ∉ noticesOf ts list → Q (appendNotice ts p list)
  interval : ∀ {ts : Timestamp} {list : List Interval}, Q list →
    (∀ interval ∈ list, interval.timestamp ≠ ts) → Q (⟨ts, [], false⟩ :: list)

theorem filing_once : Filing fun list => ∀ interval ∈ list, interval.notices.Nodup where
  notice {ts p list} h hp := by
    induction list with
    | nil => exact h
    | cons head rest ih =>
        have hrest : ∀ interval ∈ rest, interval.notices.Nodup := fun interval hm =>
          h interval (List.mem_cons_of_mem _ hm)
        unfold noticesOf at hp
        rw [List.find?_cons] at hp
        rw [appendNotice]
        by_cases hts : head.timestamp = ts
        · simp only [hts, decide_true, Option.map_some, Option.getD_some] at hp
          rw [if_pos hts]
          intro interval hm
          rcases List.mem_cons.mp hm with rfl | hm
          · refine List.nodup_append.mpr
              ⟨h head List.mem_cons_self, List.nodup_singleton p, ?_⟩
            intro q hq r hr hqr
            rw [hqr, List.mem_singleton.mp hr] at hq
            exact hp hq
          · exact hrest interval hm
        · simp only [hts, decide_false] at hp
          rw [if_neg hts]
          intro interval hm
          rcases List.mem_cons.mp hm with rfl | hm
          · exact h interval List.mem_cons_self
          · exact ih hrest hp interval hm
  interval h _ interval hm := by
    rcases List.mem_cons.mp hm with rfl | hm
    · exact List.nodup_nil
    · exact h interval hm

variable {Q : List Interval → Prop}

theorem Filing.incorporateNotice (hq : Filing Q) {i : Nat} {ts : Timestamp}
    (h : Q (m.procArray j)) (p : Nat) :
    Q ((Midsm.incorporateNotice me i ts m p).procArray j) := by
  rw [incorporateNotice_eq]
  split
  · exact h
  · next hp =>
      have hframe := invalidatePage_frame me p m
      unfold Mem.record
      dsimp only
      by_cases hj : j = i
      · subst hj
        rw [upd_self, hframe.procArray]
        exact hq.notice h hp
      · rw [upd_ne hj, hframe.procArray]
        exact h

theorem Filing.enterInterval (hq : Filing Q) (i : Nat) (ts : Timestamp)
    (h : Q (m.procArray j)) : Q ((Midsm.enterInterval i ts m).procArray j) := by
  unfold Midsm.enterInterval
  dsimp only
  split
  · exact h
  · next hany =>
      dsimp only
      by_cases hj : j = i
      · subst hj
        rw [upd_self]
        refine hq.interval h fun interval hm he => hany ?_
        exact List.any_eq_true.mpr ⟨interval, hm, decide_eq_true he⟩
      · rw [upd_ne hj]
        exact h

theorem Filing.incorporatePackets (hq : Filing Q) (k : Nat) (packets : List WnPacket)
    (h : Q (m.procArray j)) : Q ((Midsm.incorporatePackets me k packets m).procArray j) := by
  have hnotices : ∀ (i : Nat) (ts : Timestamp) (pages : List Nat) (m : Mem),
      Q (m.procArray j) →
      Q ((pages.foldl (Midsm.incorporateNotice me i ts) m).procArray j) := by
    intro i ts pages
    induction pages with
    | nil => exact fun m h => h
    | cons p pages ih => exact fun m h => ih _ (hq.incorporateNotice h p)
  unfold Midsm.incorporatePackets
  induction packets.take k generalizing m with
  | nil => exact h
  | cons packet packets ih => exact ih (hnotices _ _ _ _ (hq.enterInterval _ _ h))

theorem Mem.Quiet.list_ne {m' : Mem} (h : m.Quiet me m') (hj : j ≠ me) :
    m'.procArray j = m.procArray j := by
  rcases h with hframe | ⟨p, hwrote⟩
  · rw [hframe.procArray]
  · exact hwrote.list_ne hj

/-- The main thread adds to the lists of its own host only. -/
theorem ExecMem.procArray_ne {op : Op} {h : Host} {r : Host × Out}
    (hc : ExecMem n me h op r) (hs : h.pc.Sound n me h.mem) (hj : j ≠ me) :
    r.1.mem.procArray j = h.mem.procArray j := by
  cases hc with
  | access _ hf => exact (hf hs).mem.list_ne hj
  | keep hm => rw [hm]
  | fresh hm =>
      rw [hm]
      exact pushNow_procArray_ne hj
  | fetch g l path _ _ hm => rw [hm]
  | enter _ _ hm => rw [hm]
  | note _ _ hm =>
      rw [hm]
      rfl
  | release hme _ hm =>
      subst hme
      rw [hm]
      exact pushNow_procArray_ne hj

theorem PageRead.procArray_ne {sender p : Nat} {h : Host} {r : Host × Out}
    (hc : PageRead n me sender p h r) (hj : j ≠ me) :
    r.1.mem.procArray j = h.mem.procArray j := by
  cases hc with
  | refused | sent | killed => rfl
  | opened _ _ _ _ _ _ _ hseg => exact (segvHandler_spec hseg).mem.list_ne hj
  | hangs _ _ _ _ _ _ hseg => exact (segvHandler_spec hseg).mem.list_ne hj

/-- A handler takes in packets, and the barrier's interval enters the own list. -/
theorem ReadMem.filed (hq : Filing Q) {sender : Nat} {msg : Msg} {h : Host} {r : Host × Out}
    (hc : ReadMem n me sender h msg r) (hj : j ≠ me) (ho : Q (h.mem.procArray j)) :
    Q (r.1.mem.procArray j) := by
  have hsame : ∀ {list : List Interval}, list = h.mem.procArray j → Q list := by
    rintro _ rfl
    exact ho
  cases hc with
  | keep _ _ hm => exact hsame (by rw [hm])
  | release hme _ hm =>
      subst hme
      refine hsame ?_
      rw [hm]
      exact pushNow_procArray_ne hj
  | data hmsg =>
      cases msg with
      | acqLock | rlsLock | grantLock | enterBarrier | exitBarrier =>
          rcases hmsg with hmsg | hmsg | hmsg <;> cases hmsg
      | fetchPage p => exact hsame ((dispatch_fetchPage n me sender p h).procArray_ne hj)
      | fetchWnI => exact ho
      | grantDiff => exact hsame (congrFun (handleGrantDiffMsg_frame ..).procArray j)
      | grantPage => exact hsame (congrFun (handleGrantPageMsg_frame ..).procArray j)
      | fetchDiff => exact hsame (congrFun (grantDiff_frame ..).procArray j)
      | grantWnI ts k packets =>
          have hpush : Q ((h.mem.pushNow me ⟨bump me ts, [], false⟩).procArray j) :=
            hsame (pushNow_procArray_ne hj)
          exact hq.incorporatePackets k packets hpush
      | grantEnterBarrierInfo ts k packets =>
          refine hq.incorporatePackets k packets ?_
          split
          · exact ho
          · exact ho
      | grantExitBarrierInfo ts k packets =>
          refine hq.incorporatePackets k packets ?_
          split
          · exact hsame (pushNow_procArray_ne hj)
          · exact ho

end

/-- The lists that a host keeps of the others. -/
structure Filed (n : Nat) (s : Sys) : Prop where
  sound : Sound n s
  once : ∀ x j, j ≠ x → (s.host x).mem.ListsOnce j

theorem Filed.init (n : Nat) : Filed n initSys where
  sound := Sound.init n
  once x j hj := by
    simp only [initSys, initmem, Mem.ListsOnce, upd_ne hj]
    exact fun _ h => by cases h

/-- A step of the system keeps a filing property of the lists of other hosts. -/
theorem Filing.step {Q : List Interval → Prop} (hq : Filing Q) {n : Nat} {s s' : Sys}
    (hsound : Sound n s) (h : ∀ x j, j ≠ x → Q ((s.host x).mem.procArray j)) {e : Event}
    (hs : Midsm.step n s e = some s') : ∀ x j, j ≠ x → Q ((s'.host x).mem.procArray j) := by
  have hput : ∀ {t : Sys} {a : Nat} {r : Host × Out}, t.host = s.host →
      (∀ j ≠ a, Q (r.1.mem.procArray j)) →
      ∀ x j, j ≠ x → Q (((t.put a r).host x).mem.procArray j) := by
    intro t a r ht hr x j hj
    by_cases hx : x = a
    · rw [hx] at hj ⊢
      rw [put_host_self]
      exact hr j hj
    · rw [put_host_ne hx, ht]
      exact h x j hj
  obtain ⟨a, op, r, rfl, ha, he, rfl⟩ |
    ⟨a, b, msg, rest, rfl, ha, hb, hne, hnet, rfl⟩ := step_cases hs
  · refine hput rfl fun j hj => ?_
    rw [(exec_mem he).procArray_ne (hsound.pc a ha) hj]
    exact h a j hj
  · exact hput rfl fun j hj => (dispatch_mem n b a msg (s.host b)).filed hq hj (h b j hj)

theorem Filed.step {n : Nat} {s s' : Sys} (h : Filed n s) {e : Event}
    (hs : Midsm.step n s e = some s') : Filed n s' :=
  ⟨h.sound.step hs, filing_once.step h.sound h.once hs⟩

/-! ## Reading the messages -/

section

variable {n c : Nat}

/-- Host 0 reads these messages of client `c`, one after the other. -/
def readEnterInfo (n c : Nat) (msgs : List Msg) (h : Host) : Host :=
  msgs.foldl (fun h msg => (dispatchMsg n 0 c msg h).1) h

/-- The messages behind the first one only bring packets. -/
theorem readEnterInfo_later {msgs : List Msg}
    (hm : ∀ msg ∈ msgs, ∃ packets,
      msg = .grantEnterBarrierInfo blankTimestamp packets.length packets) (h : Host) :
    (readEnterInfo n c msgs h).mem =
      (msgs.flatMap Msg.packets).foldl (incorporateWnPacket 0) h.mem := by
  induction msgs generalizing h with
  | nil => rfl
  | cons msg msgs ih =>
      obtain ⟨packets, rfl⟩ := hm _ List.mem_cons_self
      rw [List.flatMap_cons, List.foldl_append, enterInfo_packets]
      rw [readEnterInfo, List.foldl_cons]
      refine (ih (fun msg hmem => hm msg (List.mem_cons_of_mem _ hmem)) _).trans ?_
      congr 1
      show incorporatePackets 0 packets.length packets h.mem = _
      rw [incorporatePackets, List.take_length]

/-- All messages together: the timestamp of the first, the packets of all. -/
theorem readEnterInfo_mem {timestamp : Timestamp} {all : List WnPacket} {msgs : List Msg}
    (hmsgs : InfoMessages .grantEnterBarrierInfo timestamp all msgs)
    (hts : timestamp 0 ≠ -1) {h : Host} (hreset : h.mem.barrierTimestamps c 0 = -1) :
    (readEnterInfo n c msgs h).mem = all.foldl (incorporateWnPacket 0)
      { h.mem with barrierTimestamps := upd h.mem.barrierTimestamps c timestamp } := by
  obtain ⟨packets, hfirst⟩ := hmsgs.first
  cases msgs with
  | nil => cases hfirst
  | cons msg msgs =>
      obtain rfl := Option.some.inj hfirst
      have hread : (dispatchMsg n 0 c (.grantEnterBarrierInfo timestamp packets.length packets)
          h).1.mem = packets.foldl (incorporateWnPacket 0)
          { h.mem with barrierTimestamps := upd h.mem.barrierTimestamps c timestamp } := by
        show handleGrantEnterBarrierMsg 0 c timestamp packets.length packets h.mem = _
        unfold handleGrantEnterBarrierMsg incorporatePackets
        rw [if_pos ⟨hts, hreset⟩, List.take_length]
      rw [← hmsgs.packets, List.flatMap_cons, List.foldl_append, enterInfo_packets, ← hread]
      exact readEnterInfo_later hmsgs.later _

/-! ## The round trip -/

/-- The packets of an entering client. -/
def enterPackets (c : Nat) (client : Mem) : List WnPacket :=
  ((sinceBarrier (client.procArray c)).reverse.map (intervalPackets c)).flatten

theorem mem_enterPackets {client : Mem} {packet : WnPacket} :
    packet ∈ enterPackets c client ↔
      ∃ interval ∈ sinceBarrier (client.procArray c), packet ∈ intervalPackets c interval := by
  simp [enterPackets, List.mem_flatten]

/-- An interval without notices is not sent. -/
theorem intervalPackets_notices {i : Nat} {interval : Interval} {packet : WnPacket}
    (h : packet ∈ intervalPackets i interval) : interval.notices ≠ [] := by
  intro hnil
  rw [intervalPackets, hnil] at h
  cases h

/-- What host 0 has recorded for client `c` when it has read all, from what it had
recorded before and what the client had to tell. -/
structure EnterInfoTaken (n c : Nat) (client m m' : Mem) : Prop where
  listed : ∀ interval ∈ sinceBarrier (client.procArray c), ∀ p ∈ interval.notices,
    ∃ record ∈ m'.procArray c, record.timestamp = interval.timestamp ∧
      record.notices.count p = 1
  known : ∀ ts, m'.Known c ts → m.Known c ts ∨
    ∃ interval ∈ sinceBarrier (client.procArray c), interval.timestamp = ts ∧
      interval.notices ≠ []
  pages : ∀ ts p, m'.Listed c ts p → m.Listed c ts p ∨ client.Unsent c ts p
  stamp : AgreeBelow n (m'.barrierTimestamps c) (client.now c).timestamp

theorem enterInfo_taken {client m : Mem} (honce : m.ListsOnce c) :
    EnterInfoTaken n c client m ((enterPackets c client).foldl (incorporateWnPacket 0)
      { m with
        barrierTimestamps := upd m.barrierTimestamps c
          (cut n (-1) (client.now c).timestamp) }) := by
  have hlearned := foldl_incorporateWnPacket_learned 0 (enterPackets c client)
    { m with
      barrierTimestamps := upd m.barrierTimestamps c (cut n (-1) (client.now c).timestamp) }
  have honce' : ((enterPackets c client).foldl (incorporateWnPacket 0)
      { m with
        barrierTimestamps := upd m.barrierTimestamps c
          (cut n (-1) (client.now c).timestamp) }).ListsOnce c := by
    have htaken : (incorporatePackets 0 (enterPackets c client).length (enterPackets c client)
        { m with
          barrierTimestamps := upd m.barrierTimestamps c
            (cut n (-1) (client.now c).timestamp) }).ListsOnce c :=
      filing_once.incorporatePackets _ _ honce
    rwa [incorporatePackets, List.take_length] at htaken
  refine ⟨fun interval hm p hp => ?_, fun ts hk => ?_, fun ts p hl => ?_, fun i hi => ?_⟩
  · obtain ⟨packet, hpk, hpw⟩ := (intervalPackets_pages (i := c)).mpr hp
    obtain ⟨record, hr, hts, hp⟩ := hlearned.listed.mpr (Or.inr ⟨packet,
      mem_enterPackets.mpr ⟨interval, hm, hpk⟩, intervalPackets_names hpk, hpw⟩)
    exact ⟨record, hr, hts, List.count_eq_one_of_mem (honce' record hr) hp⟩
  · rcases hlearned.known_iff.mp hk with hk | ⟨packet, hpk, hname⟩
    · exact Or.inl hk
    · obtain ⟨interval, hm, hpk⟩ := mem_enterPackets.mp hpk
      exact Or.inr ⟨interval, hm, (intervalPackets_names hpk).2.symm.trans hname.2,
        intervalPackets_notices hpk⟩
  · rcases hlearned.listed.mp hl with hl | ⟨packet, hpk, hname, hpw⟩
    · exact Or.inl hl
    · obtain ⟨interval, hm, hpk⟩ := mem_enterPackets.mp hpk
      exact Or.inr ⟨interval, hm, (intervalPackets_names hpk).2.symm.trans hname.2,
        intervalPackets_pages.mp ⟨packet, hpk, hpw⟩⟩
  · rw [hlearned.barrierTimestamps]
    dsimp only
    rw [upd_self, cut_apply hi]

/-- The messages of an entering client, whatever its own list, are read by host 0
in any reachable state with the effect that the client's notices are recorded. -/
theorem enter_info_round_trip (n : Nat) {s : Sys} (h : Reach (step n) anyStep initSys s)
    (c : Nat) (h0 : 0 < c) (hc : c < n)
    (hreset : (s.host 0).mem.barrierTimestamps c 0 = -1)
    (client : Mem) (hts : 0 ≤ (client.now c).timestamp 0) :
    (∀ x ∈ sendEnterBarrierInfo n c client, x.1 = 0) ∧
      InfoMessages .grantEnterBarrierInfo (cut n (-1) (client.now c).timestamp)
        (enterPackets c client) ((sendEnterBarrierInfo n c client).map Prod.snd) ∧
      EnterInfoTaken n c client (s.host 0).mem (readEnterInfo n c
        ((sendEnterBarrierInfo n c client).map Prod.snd) (s.host 0)).mem := by
  have hfiled : Filed n s := h.invariant (Filed.init n) fun ht _ hs => ht.step hs
  have hmsgs : InfoMessages .grantEnterBarrierInfo (cut n (-1) (client.now c).timestamp)
      (enterPackets c client) ((sendEnterBarrierInfo n c client).map Prod.snd) := by
    rw [sendEnterBarrierInfo, if_neg h0.ne']
    exact encode_messages enterInfo_packets (fun _ _ _ => rfl) ..
  have hcut : cut n (-1) (client.now c).timestamp 0 ≠ -1 := by
    rw [cut_apply (show (0 : Fin maxHostNum).val < n by exact h0.trans hc)]
    omega
  refine ⟨fun x hx => (enterInfo_spec n c client x hx).1, hmsgs, ?_⟩
  rw [readEnterInfo_mem hmsgs hcut hreset]
  exact enterInfo_taken (hfiled.once 0 c h0.ne')

/-- Every timestamp that a host can enter a barrier with is one that host 0 takes. -/
theorem now_nonneg_of_reach {s : Sys} (h : Reach (step n) anyStep initSys s) {x : Nat}
    (hx : x < n) : 0 ≤ ((s.host x).mem.now x).timestamp 0 := by
  obtain ⟨g, hist⟩ : ∃ g, EpisodeHist n s g :=
    h.invariant (P := fun s => ∃ g, EpisodeHist n s g) ⟨_, EpisodeHist.init n⟩
      fun ⟨_, ht⟩ _ hs => ⟨_, ht.step hs⟩
  rw [(hist.steady.answered.sound.nowTop x hx).last]
  exact hist.stamps.last_nonNeg hx 0 (by exact Nat.lt_of_le_of_lt (Nat.zero_le x) hx)

/-- Host 1 stores to ten pages in as many intervals, and tells host 0 in two messages. -/
theorem enter_info_round_trip_two :
    ∃ s : Sys, (enterPackets 1 (s.host 1).mem).length = 10 ∧
      (sendEnterBarrierInfo 2 1 (s.host 1).mem).length = 2 ∧
      EnterInfoTaken 2 1 (s.host 1).mem (s.host 0).mem (readEnterInfo 2 1
        ((sendEnterBarrierInfo 2 1 (s.host 1).mem).map Prod.snd) (s.host 0)).mem := by
  obtain ⟨s, hrun, hp⟩ := exists_reach_any (step 2) initSys
    (.op 1 (.alloc (20 * 4096)) :: (List.range 10).flatMap fun k =>
      [.op 1 (.lock 1), .op 1 (.store (2 * k + 1) 0 [7]), .op 1 (.unlock 1)])
    (fun s : Sys => decide ((enterPackets 1 (s.host 1).mem).length = 10) &&
      decide ((sendEnterBarrierInfo 2 1 (s.host 1).mem).length = 2) &&
      decide ((s.host 0).mem.barrierTimestamps 1 0 = -1))
    (by decide +kernel)
  simp only [Bool.and_eq_true, decide_eq_true_eq] at hp
  obtain ⟨⟨hpackets, hmsgs⟩, hreset⟩ := hp
  exact ⟨s, hpackets, hmsgs, (enter_info_round_trip 2 hrun 1 (by decide) (by decide) hreset
    (s.host 1).mem (now_nonneg_of_reach hrun (by decide))).2.2⟩

end

end Midsm
