import Midsm.Proofs.Acquire
import Midsm.Proofs.Episodes

/-!
# What a barrier tells whom

An entering client sends the manager every notice of its own that it has not
sent before, so that at a release the manager has recorded what every host had
recorded of itself when it entered. The manager answers a client with the
intervals that are after the timestamp the client sent, and with no others. Both
facts are about notices on their way: `Sys.Bound` says that a notice is recorded
at a host or carried by a message to it.
-/

namespace Midsm

open Midsm.Lib

/-- A message of that kind from `a` to `b` says that host `j` has the notice. -/
def Sys.Carries (s : Sys) (kind : Msg → Bool) (a b j : Nat) (ts : Timestamp)
    (p : Nat) : Prop :=
  ∃ msg ∈ s.net a b, kind msg = true ∧ SaidNotice msg.packets j ts p

def Sys.Bound (s : Sys) (kind : Msg → Bool) (a b j : Nat) (ts : Timestamp)
    (p : Nat) : Prop :=
  (s.host b).mem.Noted j ts p ∨ s.Carries kind a b j ts p

section

variable {n : Nat} {s s' : Sys} {g : Episodes} {e : Event} {a b x j p k : Nat}
  {ts : Timestamp} {kind : Msg → Bool}

/-! ## Notices on their way -/

theorem Sound.step_noted (hs : Sound n s) (he : Midsm.step n s e = some s')
    (h : (s.host x).mem.Noted j ts p) : (s'.host x).mem.Noted j ts p := by
  obtain ⟨a, op, r, rfl, ha, hx, rfl⟩ |
    ⟨a, b, msg, rest, rfl, ha, hb, hne, hnet, rfl⟩ := step_cases he
  · exact put_host_forall (P := fun y h => (s.host y).mem.Noted j ts p → h.mem.Noted j ts p)
      (hs.exec ha hx).grows.noted_mono (fun _ _ h => h) x h
  · exact put_host_forall (P := fun y h => (s.host y).mem.Noted j ts p → h.mem.Noted j ts p)
      (hs.read hb msg).grows.noted_mono (fun _ _ h => h) x h

/-- A message stays in its channel until its reader records what it says. -/
theorem Sound.step_carries (hs : Sound n s) (he : Midsm.step n s e = some s')
    (h : s.Carries kind a b j ts p) :
    s'.Carries kind a b j ts p ∨ (a ≠ b ∧ (s'.host b).mem.Noted j ts p) := by
  obtain ⟨msg, hm, hkind, hsaid⟩ := h
  obtain ⟨y, op, r, rfl, hy, hx, rfl⟩ |
    ⟨u, v, msg', rest, rfl, hu, hv, hne, hnet, rfl⟩ := step_cases he
  · refine Or.inl ⟨msg, ?_, hkind, hsaid⟩
    by_cases hay : a = y
    · subst hay
      rw [put_net_self]
      exact List.mem_append_left _ hm
    · rwa [put_net_ne hay]
  · by_cases hhead : (a = u ∧ b = v) ∧ msg = msg'
    · obtain ⟨⟨rfl, rfl⟩, rfl⟩ := hhead
      refine Or.inr ⟨hne, ?_⟩
      rw [put_host_self]
      exact (hs.read hv msg).grows.learns (hs.linked b hv) (hs.nowTop b hv) hsaid
    · refine Or.inl ⟨msg, ?_, hkind, hsaid⟩
      have hpop : msg ∈ (s.pop u v).net a b := by
        by_cases huv : a = u ∧ b = v
        · obtain ⟨rfl, rfl⟩ := huv
          rw [hnet] at hm
          rw [pop_net_self, hnet]
          exact (List.mem_cons.mp hm).resolve_left fun hn => hhead ⟨⟨rfl, rfl⟩, hn⟩
        · rwa [pop_net_ne (by omega)]
      by_cases hav : a = v
      · subst hav
        rw [put_net_self]
        exact List.mem_append_left _ hpop
      · rwa [put_net_ne hav]

theorem Sound.step_bound (hs : Sound n s) (he : Midsm.step n s e = some s')
    (h : s.Bound kind a b j ts p) : s'.Bound kind a b j ts p := by
  rcases h with h | h
  · exact Or.inl (hs.step_noted he h)
  · rcases hs.step_carries he h with h | ⟨-, h⟩
    · exact Or.inr h
    · exact Or.inl h

theorem Sys.Bound.arrived (h : s.Bound kind a b j ts p)
    (hno : ∀ msg ∈ s.net a b, kind msg = false) : (s.host b).mem.Noted j ts p := by
  rcases h with h | ⟨msg, hm, hkind, -⟩
  · exact h
  · rw [hno msg hm] at hkind
    cases hkind

/-! ## What the messages say -/

/-- Every packet of the intervals is in a message of the encoder. -/
theorem encode_says {mk : Timestamp → Nat → List WnPacket → Msg}
    (hmk : ∀ ts packets, (mk ts packets.length packets).packets = packets)
    (dest : Nat) (stamp : Timestamp) {intervals : List (List WnPacket)}
    (h : SaidNotice intervals.flatten j ts p) :
    ∃ x ∈ encode mk dest stamp intervals, SaidNotice x.2.packets j ts p := by
  obtain ⟨packet, hm, hsaid⟩ := h
  obtain ⟨blocks, -, he, hbl⟩ := encode_blocks mk dest stamp intervals
  rw [← hbl.packets] at hm
  obtain ⟨block, hb, hm⟩ := List.mem_flatMap.mp hm
  rw [he]
  refine ⟨block.msg mk, List.mem_map_of_mem hb, packet, ?_, hsaid⟩
  rwa [Block.msg_packets hmk]

theorem enterInfo_says {m : Mem} (hx : x ≠ 0) (h : m.Unsent x ts p) :
    ∃ msg ∈ outTo (sendEnterBarrierInfo n x m) 0, msg.isEnterInfo = true ∧
      SaidNotice msg.packets x ts p := by
  obtain ⟨interval, hm, rfl, hp⟩ := h
  obtain ⟨packet, hpk, hp⟩ := intervalPackets_pages (i := x).mpr hp
  have hspec := enterInfo_spec n x m
  unfold sendEnterBarrierInfo at hspec ⊢
  rw [if_neg hx] at hspec ⊢
  have hall : SaidNotice ((sinceBarrier (m.procArray x)).reverse.map
      (intervalPackets x)).flatten x interval.timestamp p :=
    ⟨packet, List.mem_flatten.mpr ⟨_, List.mem_map_of_mem (List.mem_reverse.mpr hm), hpk⟩,
      intervalPackets_names hpk, hp⟩
  obtain ⟨⟨d, msg⟩, hout, hsaid⟩ := encode_says enterInfo_packets 0
    (cut n (-1) (m.now x).timestamp) hall
  obtain ⟨rfl, hinfo⟩ := hspec _ hout
  exact ⟨msg, mem_outTo.mpr hout, hinfo, hsaid⟩

/-- The later part of a split interval is addressed to the manager itself. -/
theorem release_says {h : Host} (h0 : 0 < x) (hx : x < n) (hj : j < n)
    (hafter : isAfterInterval n ts (h.mem.barrierTimestamps x) = true)
    (hl : (h.release n).1.mem.Listed j ts p) :
    ∃ d msg, (d = x ∨ d = 0) ∧ msg ∈ outTo (h.release n).2 d ∧ msg.isExitInfo = true ∧
      SaidNotice msg.packets j ts p := by
  have hsaid : SaidNotice ((List.range n).flatMap fun i => packetsAfter n
      (h.mem.barrierTimestamps x) i
      (h.mem.pushNow 0 ⟨barrierTimestamp n h.mem, [], true⟩)).flatten j ts p :=
    allAfter_pages.mpr ⟨hj, hafter, hl⟩
  obtain ⟨⟨d, msg⟩, hout, hsaid⟩ := encode_says exitInfo_packets x
    (cut n (-1) (barrierTimestamp n h.mem)) hsaid
  obtain ⟨hd, hinfo⟩ := exitInfo_spec n (barrierTimestamp n h.mem)
    (h.mem.pushNow 0 ⟨barrierTimestamp n h.mem, [], true⟩) x (d, msg) hout
  refine ⟨d, msg, hd, mem_outTo.mpr ?_, hinfo, hsaid⟩
  exact List.mem_append_left _ (List.mem_flatMap.mpr ⟨x, mem_clients.mpr ⟨h0, hx⟩, hout⟩)

/-! ## The own notices of a client -/

/-- Exit information says nothing about its reader that the reader does not know. -/
theorem exitInfo_listed (hs : Sound n s) (hx : x < n) {stamp : Timestamp} {k : Nat}
    {packets : List WnPacket} (hm : .grantExitBarrierInfo stamp k packets ∈ s.net 0 x)
    (hl : (handleGrantExitBarrierMsg x stamp k packets (s.host x).mem).Listed x ts p) :
    (s.host x).mem.Listed x ts p := by
  have hsaid : SaidNotice (packets.take k) x ts p → (s.host x).mem.Listed x ts p := by
    rintro ⟨packet, hp, ⟨hj, ht⟩, hpage⟩
    have hf := (hs.told 0 x _ hm packet hp).2 p hpage
    rw [hj, ht] at hf
    exact (hs.linked x hx x ts p).mp hf.2
  unfold handleGrantExitBarrierMsg at hl
  dsimp only at hl
  split at hl <;> rcases (incorporatePackets_learned x k packets _).listed.mp hl with hl | hl
  · exact (pushNow_listed rfl).mp hl
  · exact hsaid hl
  · exact hl
  · exact hsaid hl

/-- A client in the barrier makes no notice. Its own list keeps what it has not
sent, except when it reads its exit information, and then nothing it sent is
still in flight. -/
theorem Turn.own (hs : Steady n s) (h0 : 0 < x) (hx : x < n) (ht : Turn n s e s') :
    ((s.host x).mem.Keeps x (s'.host x).mem ∨
      (s.host x).pc.inBarrier = true ∧ ∀ msg ∈ s.net x 0, msg.isEnterInfo = false) ∧
    ((s.host x).pc.inBarrier = true →
      ∀ ts p, (s'.host x).mem.Listed x ts p → (s.host x).mem.Listed x ts p) := by
  have hsame : (s'.host x).mem = (s.host x).mem → ((s.host x).mem.Keeps x (s'.host x).mem ∨
      (s.host x).pc.inBarrier = true ∧ ∀ msg ∈ s.net x 0, msg.isEnterInfo = false) ∧
      ((s.host x).pc.inBarrier = true →
        ∀ ts p, (s'.host x).mem.Listed x ts p → (s.host x).mem.Listed x ts p) := by
    intro hm
    rw [hm]
    exact ⟨Or.inl (.of_list rfl), fun _ _ _ h => h⟩
  cases ht with
  | @other _ s₀ a r _ _ _ hhost _ _ hb =>
      by_cases hxa : x = a
      · subst hxa
        rw [put_host_self]
        exact ⟨Or.inl hb.keeps, hb.inside⟩
      · exact hsame (by rw [put_host_ne hxa, hhost])
  | enter =>
      exact hsame (put_host_forall (P := fun y h => h.mem = (s.host y).mem) rfl
        (fun _ _ => rfl) x)
  | note => exact hsame (by rw [put_host_ne (by omega)])
  | releaseCall => exact hsame (by rw [put_host_ne (by omega)])
  | leave =>
      exact hsame (put_host_forall (P := fun y h => h.mem = (s.host y).mem) rfl
        (fun _ _ => rfl) x)
  | enterInfo => exact hsame (by rw [put_host_ne (by omega)]; rfl)
  | @exitInfo y stamp k packets rest _ hy hnet =>
      by_cases hxy : x = y
      · subst hxy
        obtain ⟨hin, -, -, hup, -⟩ :=
          (hs.control.barrier.client x h0 hx).down_head hnet rfl
        refine ⟨Or.inr ⟨hin, fun msg hm => ?_⟩, fun _ ts p hl => ?_⟩
        · cases hi : msg.isEnterInfo with
          | false => rfl
          | true =>
              have hmem : msg ∈ barrierMsgs (s.net x 0) :=
                List.mem_filter.mpr ⟨hm, decide_eq_true (Msg.cls_of_isEnterInfo hi)⟩
              rw [hup] at hmem
              cases hmem
        · rw [put_host_self] at hl
          exact exitInfo_listed hs.answered.sound hx
            (by rw [hnet]; exact List.mem_cons_self) hl
      · exact hsame (by rw [put_host_ne hxy]; rfl)
  | flag => exact hsame (by rw [put_host_ne (by omega)]; rfl)
  | release => exact hsame (by rw [put_host_ne (by omega)]; rfl)
  | wake =>
      exact hsame (put_host_forall (P := fun y h => h.mem = (s.host y).mem) rfl
        (fun _ _ => rfl) x)

theorem Turn.call (h0 : 0 < x) (ht : Turn n s (.op x .barrier) s') :
    s' = s.put x ((s.host x).parked,
      sendEnterBarrierInfo n x (s.host x).mem ++ [(0, .enterBarrier)]) := by
  cases ht with
  | other _ hcall => exact absurd rfl (hcall x)
  | enter => rfl
  | note => cases h0
  | releaseCall => cases h0

/-- A client is in the barrier because it was, or because it calls now. -/
theorem Act.inside (h0 : 0 < x) (ha : Act n s e s')
    (hin : (s'.host x).pc.inBarrier = true) :
    (s.host x).pc.inBarrier = true ∨ e = .op x .barrier := by
  cases ha with
  | level _ _ hl => exact Or.inl ((hl.inside x).symm.trans hin)
  | @enter y =>
      by_cases hxy : x = y
      · exact Or.inr (by rw [hxy])
      · rw [put_host_ne hxy] at hin
        exact Or.inl hin
  | note =>
      rw [put_host_ne (by omega)] at hin
      exact Or.inl hin
  | @leave y =>
      by_cases hxy : x = y
      · subst hxy
        rw [put_host_self] at hin
        cases hin
      · rw [put_host_ne hxy] at hin
        exact Or.inl hin
  | releaseCall _ hr =>
      rw [hr.host h0] at hin
      exact Or.inl hin
  | release _ hr =>
      rw [hr.host h0] at hin
      exact Or.inl hin

theorem Sys.Client.inside (h : s.Client x) (hent : s.entered x = true) :
    (s.host x).pc.inBarrier = true := by
  by_contra hout
  rw [h.not_entered (by simpa using hout)] at hent
  cases hent

/-- While a client is entered its timestamp stays. -/
theorem Turn.last (hs : Steady n s) (h0 : 0 < x) (hx : x < n) (ht : Turn n s e s')
    (hent : s.entered x = true) : (s'.host x).mem.last x = (s.host x).mem.last x := by
  have hclient := hs.control.barrier.client x h0 hx
  have hput : ∀ {s₀ : Sys} {y : Nat} {r : Host × Out}, s₀.host = s.host →
      (x = y → r.1.mem.last x = (s.host x).mem.last x) →
      ((s₀.put y r).host x).mem.last x = (s.host x).mem.last x := by
    intro s₀ y r hhost hself
    by_cases hxy : x = y
    · rw [hxy, put_host_self, ← hxy]
      exact hself hxy
    · rw [put_host_ne hxy, hhost]
  cases ht with
  | other _ _ _ hhost _ _ hb =>
      refine hput hhost ?_
      rintro rfl
      exact hb.own.last (hclient.inside hent)
  | enter => exact hput rfl fun h => by rw [h]; rfl
  | note => exact hput rfl fun h => absurd h (by omega)
  | releaseCall => exact hput rfl fun h => absurd h (by omega)
  | leave => exact hput rfl fun h => by rw [h]
  | enterInfo => exact hput rfl fun h => absurd h (by omega)
  | exitInfo _ _ hnet =>
      refine hput rfl ?_
      rintro rfl
      rw [hclient.released hnet rfl] at hent
      cases hent
  | flag => exact hput rfl fun h => absurd h (by omega)
  | release => exact hput rfl fun h => absurd h (by omega)
  | wake => exact hput rfl fun h => by rw [h]

/-! ## The ghost -/

theorem noteBarrier_entries {m : Mem}
    (h : ((noteBarrier g s e s').entries x)[k]? = some m) :
    (g.entries x)[k]? = some m ∨
      (e = .op x .barrier ∧ k = g.calls x ∧ m = (s.host x).mem) := by
  cases e with
  | deliver => exact Or.inl h
  | op y op =>
      cases op with
      | barrier =>
          have hcall : (noteBarrier g s (.op y .barrier) s').entries =
              (g.call y (s.host y).mem).entries := by
            rw [noteBarrier]
            split <;> rfl
          rw [hcall, Episodes.call] at h
          dsimp only at h
          by_cases hxy : x = y
          · subst hxy
            rw [upd_self] at h
            rcases Nat.lt_trichotomy k (g.entries x).length with hk | hk | hk
            · rw [List.getElem?_append_left hk] at h
              exact Or.inl h
            · rw [hk, List.getElem?_concat_length] at h
              exact Or.inr ⟨rfl, hk, (Option.some.inj h).symm⟩
            · rw [List.getElem?_eq_none (by rw [List.length_append]; exact hk)] at h
              cases h
          · rw [upd_ne hxy] at h
            exact Or.inl h
      | resume =>
          have hret : (noteBarrier g s (.op y .resume) s').entries = g.entries := by
            rw [noteBarrier]
            split <;> rfl
          rw [hret] at h
          exact Or.inl h
      | alloc | load | store | lock | unlock => exact Or.inl h

/-- A return is a step of its own, or that of the call. -/
theorem noteBarrier_rets (h : k < (noteBarrier g s e s').rets x) : k < g.rets x ∨
    (k = g.rets x ∧ (e = .op x .resume ∧ (s.host x).pc.inBarrier = true ∨
      e = .op x .barrier ∧ (s'.host x).pc.inBarrier = false)) := by
  have hret : ∀ {g : Episodes} {y : Nat}, k < (g.ret y).rets x →
      k < g.rets x ∨ (x = y ∧ k = g.rets x) := by
    intro g y hk
    by_cases hxy : x = y
    · subst hxy
      rw [ret_rets_self] at hk
      exact (Nat.lt_or_eq_of_le (Nat.le_of_lt_succ hk)).imp id fun hk => ⟨rfl, hk⟩
    · rw [ret_rets_ne hxy] at hk
      exact Or.inl hk
  cases e with
  | deliver => exact Or.inl h
  | op y op =>
      cases op with
      | barrier =>
          rw [noteBarrier] at h
          split at h
          · exact Or.inl h
          · next hout =>
              rcases hret h with hk | ⟨rfl, hk⟩
              · exact Or.inl hk
              · exact Or.inr ⟨hk, Or.inr ⟨rfl, by simpa using hout⟩⟩
      | resume =>
          rw [noteBarrier] at h
          split at h
          · next hin =>
              rcases hret h with hk | ⟨rfl, hk⟩
              · exact Or.inl hk
              · exact Or.inr ⟨hk, Or.inl ⟨rfl, hin⟩⟩
          · exact Or.inl h
      | alloc | load | store | lock | unlock => exact Or.inl h

/-! ## The invariant -/

/-- Host `j` had recorded the notice when it made its `k`-th call, and its
interval is after the timestamp `x` made its `k`-th call with. -/
def Episodes.Owes (n : Nat) (g : Episodes) (x j k : Nat) (ts : Timestamp)
    (p : Nat) : Prop :=
  ∃ mx mj, (g.entries x)[k]? = some mx ∧ (g.entries j)[k]? = some mj ∧
    mj.Noted j ts p ∧ isAfterInterval n ts (mx.now x).timestamp = true

structure Delivered (n : Nat) (s : Sys) (g : Episodes) : Prop where
  kept : ∀ x, ∀ {k : Nat} {m : Mem}, (g.entries x)[k]? = some m → ∀ {j ts p},
    m.Noted j ts p → (s.host x).mem.Noted j ts p
  stamp : ∀ x, 0 < x → x < n → s.entered x = true → ∀ {m : Mem},
    (g.entries x)[s.released]? = some m → (m.now x).timestamp = (s.host x).mem.last x
  /-- What the manager has not recorded will be sent at the next call. -/
  untold : ∀ x, 0 < x → x < n → ∀ {ts p}, (s.host x).mem.Noted x ts p →
    (s.host 0).mem.Noted x ts p ∨ (s.host x).mem.Unsent x ts p
  entering : ∀ x, 0 < x → x < n → (s.host x).pc.inBarrier = true → ∀ {ts p},
    (s.host x).mem.Noted x ts p → s.Bound Msg.isEnterInfo x 0 x ts p
  passed : ∀ j < n, ∀ {k : Nat} {m : Mem}, k < s.released → (g.entries j)[k]? = some m →
    ∀ {ts p}, m.Noted j ts p → (s.host 0).mem.Noted j ts p
  /-- A part of a split interval went to the manager's own channel. -/
  told : ∀ x, 0 < x → x < n → ∀ j < n, ∀ {k ts p}, k < s.released →
    g.Owes n x j k ts p → s.Bound Msg.isExitInfo 0 x j ts p ∨
      s.Carries Msg.isExitInfo 0 0 j ts p
  returned : ∀ x, 0 < x → x < n → ∀ j < n, ∀ {k ts p}, k < g.rets x →
    g.Owes n x j k ts p → (s.host x).mem.Noted j ts p ∨
      s.Carries Msg.isExitInfo 0 0 j ts p

theorem Delivered.init (n : Nat) : Delivered n initSys noEpisodes where
  kept _ _ _ h := by cases h
  stamp _ _ _ h := by cases h
  untold _ _ _ _ _ h := by cases h
  entering _ _ _ h := by cases h
  passed _ _ _ _ h := by cases h
  told _ _ _ _ _ _ _ _ h := by cases h
  returned _ _ _ _ _ _ _ _ h := by cases h

theorem isAfterLoop_congr {ts t t' : Timestamp} {is : List (Fin maxHostNum)}
    (h : ∀ i ∈ is, t i = t' i) (bigger : Bool) :
    isAfterLoop ts t is bigger = isAfterLoop ts t' is bigger := by
  induction is generalizing bigger with
  | nil => rfl
  | cons i is ih =>
      have ih := ih fun j hj => h j (List.mem_cons_of_mem _ hj)
      rw [isAfterLoop, isAfterLoop, h i List.mem_cons_self, ih, ih]

/-- The comparison reads the components of the hosts. -/
theorem isAfterInterval_congr {ts t t' : Timestamp} (h : AgreeBelow n t t') :
    isAfterInterval n ts t = isAfterInterval n ts t' := by
  refine isAfterLoop_congr (fun i hi => ?_) false
  exact h i (of_decide_eq_true (List.mem_filter.mp hi).2)

/-- What is owed for a past episode was owed before. -/
theorem Episodes.Owes.past (h : (noteBarrier g s e s').Owes n x j k ts p)
    (hx : k < g.calls x) (hj : k < g.calls j) : g.Owes n x j k ts p := by
  obtain ⟨mx, mj, hmx, hmj, hn, ha⟩ := h
  refine ⟨mx, mj, ?_, ?_, hn, ha⟩
  · rcases noteBarrier_entries hmx with h | ⟨-, rfl, -⟩
    · exact h
    · exact absurd hx (Nat.lt_irrefl _)
  · rcases noteBarrier_entries hmj with h | ⟨-, rfl, -⟩
    · exact h
    · exact absurd hj (Nat.lt_irrefl _)

/-! ### Its fields, step by step -/

theorem Delivered.kept_step (hs : Sound n s) (h : Delivered n s g)
    (he : Midsm.step n s e = some s') {m : Mem}
    (hm : ((noteBarrier g s e s').entries x)[k]? = some m) (hn : m.Noted j ts p) :
    (s'.host x).mem.Noted j ts p := by
  refine hs.step_noted he ?_
  rcases noteBarrier_entries hm with hm | ⟨-, -, rfl⟩
  · exact h.kept x hm hn
  · exact hn

theorem Delivered.stamp_step (hist : EpisodeHist n s g) (h : Delivered n s g)
    (he : Midsm.step n s e = some s') (h0 : 0 < x) (hx : x < n)
    (hent : s'.entered x = true) {m : Mem}
    (hm : ((noteBarrier g s e s').entries x)[s'.released]? = some m) :
    (m.now x).timestamp = (s'.host x).mem.last x := by
  have hturn := hist.steady.turn he
  rcases hist.released he with hrel | hr
  · rw [hrel] at hm
    rcases noteBarrier_entries hm with hm | ⟨rfl, -, rfl⟩
    · -- the call is past, and its client still entered
      have hold : s.entered x = true := by
        by_contra hno
        have hc := hist.episodes.client x h0 hx
        rw [if_neg hno] at hc
        have := (List.getElem?_eq_some_iff.mp hm).1
        exact absurd this (by rw [← Episodes.calls]; omega)
      rw [hturn.last hist.steady h0 hx hold]
      exact h.stamp x h0 hx hold hm
    · rw [hturn.call h0, put_host_self]
      exact (hist.steady.answered.sound.nowTop x hx).last
  · rw [(hr.entered h0 hx).2] at hent
    cases hent

theorem Delivered.untold_step (hs : Steady n s) (h : Delivered n s g)
    (he : Midsm.step n s e = some s') (h0 : 0 < x) (hx : x < n)
    (hn : (s'.host x).mem.Noted x ts p) :
    (s'.host 0).mem.Noted x ts p ∨ (s'.host x).mem.Unsent x ts p := by
  have hsound := hs.answered.sound
  have hl := (((hs.step he).answered.sound.linked x hx) x ts p).mp hn
  obtain ⟨hkeep, hin⟩ := (hs.turn he).own hs h0 hx
  rcases hkeep with hkeep | ⟨hinside, hread⟩
  · rcases hkeep.listed hl with hl | hu
    · refine (h.untold x h0 hx ((hsound.linked x hx x ts p).mpr hl)).imp ?_ hkeep.unsent
      exact hsound.step_noted he
    · exact Or.inr hu
  · have hold := (hsound.linked x hx x ts p).mpr (hin hinside ts p hl)
    exact Or.inl (hsound.step_noted he ((h.entering x h0 hx hinside hold).arrived hread))

theorem Delivered.entering_step (hist : EpisodeHist n s g) (h : Delivered n s g)
    (he : Midsm.step n s e = some s') (h0 : 0 < x) (hx : x < n)
    (hin : (s'.host x).pc.inBarrier = true) (hn : (s'.host x).mem.Noted x ts p) :
    s'.Bound Msg.isEnterInfo x 0 x ts p := by
  have hs := hist.steady
  have hsound := hs.answered.sound
  have hturn := hs.turn he
  rcases (hist.act he).inside h0 hin with hin | rfl
  · have hl := (((hs.step he).answered.sound.linked x hx) x ts p).mp hn
    have hold := (hsound.linked x hx x ts p).mpr ((hturn.own hs h0 hx).2 hin ts p hl)
    exact hsound.step_bound he (h.entering x h0 hx hin hold)
  · have hcall := hturn.call h0
    rw [hcall, put_host_self] at hn
    rcases h.untold x h0 hx hn with hn | hu
    · exact Or.inl (hsound.step_noted he hn)
    · obtain ⟨msg, hm, hinfo, hsaid⟩ := enterInfo_says (n := n) (show x ≠ 0 by omega) hu
      refine Or.inr ⟨msg, ?_, hinfo, hsaid⟩
      rw [hcall, put_net_self, outTo_append]
      exact List.mem_append_right _ (List.mem_append_left _ hm)

theorem Delivered.passed_step (hist : EpisodeHist n s g) (h : Delivered n s g)
    (he : Midsm.step n s e = some s') (hj : j < n) (hk : k < s'.released) {m : Mem}
    (hm : ((noteBarrier g s e s').entries j)[k]? = some m) (hn : m.Noted j ts p) :
    (s'.host 0).mem.Noted j ts p := by
  have hsound := hist.steady.answered.sound
  have hkept := h.kept_step hsound he hm hn
  by_cases h0 : j = 0
  · rwa [h0] at hkept ⊢
  · have hcalls := hist.le_calls hj
    have hpast : k < s.released → (s'.host 0).mem.Noted j ts p := by
      intro hlt
      refine hsound.step_noted he (h.passed j hj hlt ?_ hn)
      rcases noteBarrier_entries hm with hm | ⟨-, rfl, -⟩
      · exact hm
      · omega
    rcases hist.released he with hrel | hr
    · exact hpast (hrel ▸ hk)
    · -- what it sent when it entered has been read
      have hin := (hist.steady.control.barrier.client j (by omega) hj).inside
        (hr.entered (by omega) hj).1
      rw [← hr.host (by omega)] at hin
      exact (h.entering_step hist he (by omega) hj hin hkept).arrived
        (hr.read (by omega) hj)

theorem Delivered.told_step (hist : EpisodeHist n s g) (h : Delivered n s g)
    (he : Midsm.step n s e = some s') (h0 : 0 < x) (hx : x < n) (hj : j < n)
    (hk : k < s'.released) (ho : (noteBarrier g s e s').Owes n x j k ts p) :
    s'.Bound Msg.isExitInfo 0 x j ts p ∨ s'.Carries Msg.isExitInfo 0 0 j ts p := by
  have hsound := hist.steady.answered.sound
  have hpast : k < s.released →
      s'.Bound Msg.isExitInfo 0 x j ts p ∨ s'.Carries Msg.isExitInfo 0 0 j ts p := by
    intro hlt
    have hold := ho.past (Nat.lt_of_lt_of_le hlt (hist.le_calls hx))
      (Nat.lt_of_lt_of_le hlt (hist.le_calls hj))
    refine (h.told x h0 hx j hj hlt hold).imp (hsound.step_bound he) fun hc => ?_
    exact (hsound.step_carries he hc).resolve_right fun hn => hn.1 rfl
  rcases hist.released he with hrel | hr
  · exact hpast (hrel ▸ hk)
  · by_cases hlt : k < s.released
    · exact hpast hlt
    · -- the episode released now
      rw [hist.episodes.releases hr] at hk
      obtain rfl : k = s.released := by omega
      obtain ⟨mx, mj, hmx, hmj, hn, hafter⟩ := ho
      have hthere := h.passed_step hist he hj
        (by rw [hist.episodes.releases hr]; exact Nat.lt_succ_self _) hmj hn
      have hmx' : (g.entries x)[s.released]? = some mx := by
        rcases noteBarrier_entries hmx with hm | ⟨-, hk, -⟩
        · exact hm
        · have := hist.release_calls hr h0 hx
          omega
      have hstamp := h.stamp x h0 hx (hr.entered h0 hx).1 hmx'
      have hlinked := (hist.step he).steady.answered.sound.linked 0 (by omega)
      have hl := (hlinked j ts p).mp hthere
      cases hr with
      | @intro s₀ h₀ r _ hready _ _ hmem hout _ =>
          rw [put_host_self, hmem] at hl
          have hafter' : isAfterInterval n ts (h₀.mem.barrierTimestamps x) = true := by
            rw [hready.noted x h0 hx, ← hafter, hstamp]
            exact isAfterInterval_congr fun i hi => cut_apply hi
          obtain ⟨d, msg, hd, hm, hinfo, hsaid⟩ := release_says h0 hx hj hafter' hl
          have hin : msg ∈ (s₀.put 0 r).net 0 d := by
            rw [put_net_self, hout]
            exact List.mem_append_right _ hm
          rcases hd with rfl | rfl
          · exact Or.inl (Or.inr ⟨msg, hin, hinfo, hsaid⟩)
          · exact Or.inr ⟨msg, hin, hinfo, hsaid⟩

theorem Delivered.returned_step (hist : EpisodeHist n s g) (h : Delivered n s g)
    (he : Midsm.step n s e = some s') (h0 : 0 < x) (hx : x < n) (hj : j < n)
    (hk : k < (noteBarrier g s e s').rets x)
    (ho : (noteBarrier g s e s').Owes n x j k ts p) :
    (s'.host x).mem.Noted j ts p ∨ s'.Carries Msg.isExitInfo 0 0 j ts p := by
  have hsound := hist.steady.answered.sound
  rcases noteBarrier_rets hk with hk | ⟨rfl, ⟨rfl, hin⟩ | ⟨rfl, hout⟩⟩
  · have hrets := hist.rets_le hx
    have hold := ho.past (by have := hist.le_calls hx; omega)
      (by have := hist.le_calls hj; omega)
    refine (h.returned x h0 hx j hj hk hold).imp (hsound.step_noted he) fun hc => ?_
    exact (hsound.step_carries he hc).resolve_right fun hn => hn.1 rfl
  · obtain ⟨hcalls, hread, -⟩ := hist.separated.ret x s' h0 hx he hin
    have hrets := hist.episodes.rets x hx
    rw [hin, if_pos rfl] at hrets
    have hle := hist.le_calls hj
    have hold := ho.past (by omega) (by omega)
    rcases h.told x h0 hx j hj (by omega) hold with hb | hc
    · exact Or.inl (hsound.step_noted he (hb.arrived hread))
    · exact Or.inr ((hsound.step_carries he hc).resolve_right fun hn => hn.1 rfl)
  · rw [(hist.steady.turn he).call h0, put_host_self] at hout
    cases hout

theorem Delivered.step (hist : EpisodeHist n s g) (h : Delivered n s g)
    (he : Midsm.step n s e = some s') : Delivered n s' (noteBarrier g s e s') where
  kept _ _ _ hm _ _ _ hn := h.kept_step hist.steady.answered.sound he hm hn
  stamp _ h0 hx hent _ hm := h.stamp_step hist he h0 hx hent hm
  untold _ h0 hx _ _ hn := h.untold_step hist.steady he h0 hx hn
  entering _ h0 hx hin _ _ hn := h.entering_step hist he h0 hx hin hn
  passed _ hj _ _ hk hm _ _ hn := h.passed_step hist he hj hk hm hn
  told _ h0 hx _ hj _ _ _ hk ho := h.told_step hist he h0 hx hj hk ho
  returned _ h0 hx _ hj _ _ _ hk ho := h.returned_step hist he h0 hx hj hk ho

/-! ## The result -/

theorem delivered_of_reach
    (h : Reach (withGhost (Midsm.step n) noteBarrier) anyStep (initSys, noEpisodes) (s, g)) :
    EpisodeHist n s g ∧ Delivered n s g :=
  h.invariant (P := fun t => EpisodeHist n t.1 t.2 ∧ Delivered n t.1 t.2)
    ⟨EpisodeHist.init n, Delivered.init n⟩ fun ht _ hs => by
      obtain ⟨he, hg⟩ := withGhost_eq_some.mp hs
      rw [hg]
      exact ⟨ht.1.step he, ht.2.step ht.1 he⟩

/-- A host that has returned from its `k`-th `mi_barrier` has recorded every
notice that another host had made before its own `k`-th call and whose interval
is after the timestamp the host entered with; host 0 has recorded all of them.
No block may have been addressed to host 0 by mistake. -/
theorem barrier_brings_later_notices (n : Nat) {s : Sys} {g : Episodes}
    (h : Reach (withGhost (Midsm.step n) noteBarrier) anyStep
      (initSys, noEpisodes) (s, g)) (hstray : ∀ msg ∈ s.net 0 0, msg.isExitInfo = false)
    (x j k : Nat) (hx : x < n) (hj : j < n) (hk : k < g.rets x) :
    ∃ mx mj, (g.entries x)[k]? = some mx ∧ (g.entries j)[k]? = some mj ∧
      ∀ ts p, mj.Noted j ts p →
        x = 0 ∨ isAfterInterval n ts (mx.now x).timestamp = true →
        (s.host x).mem.Noted j ts p := by
  obtain ⟨hist, hd⟩ := delivered_of_reach h
  have hrel := Nat.lt_of_lt_of_le hk (hist.rets_le hx)
  have hkx : k < (g.entries x).length := Nat.lt_of_lt_of_le hrel (hist.le_calls hx)
  have hkj : k < (g.entries j).length := Nat.lt_of_lt_of_le hrel (hist.le_calls hj)
  refine ⟨_, _, List.getElem?_eq_getElem hkx, List.getElem?_eq_getElem hkj,
    fun ts p hn hafter => ?_⟩
  by_cases h0 : x = 0
  · rw [h0]
    exact hd.passed j hj hrel (List.getElem?_eq_getElem hkj) hn
  · have howes : g.Owes n x j k ts p := ⟨_, _, List.getElem?_eq_getElem hkx,
      List.getElem?_eq_getElem hkj, hn, hafter.resolve_left h0⟩
    refine (hd.returned x (by omega) hx j hj hk howes).resolve_right ?_
    rintro ⟨msg, hm, hinfo, -⟩
    rw [hstray msg hm] at hinfo
    cases hinfo

/-- Both hosts run one episode, host 0 with these operations before it. -/
def oneEpisode (before : List Op) : List Event :=
  .op 0 (.alloc 4096) :: .op 1 (.alloc 4096) :: before.map (.op 0) ++
    [.op 0 .barrier, .op 1 .barrier, .deliver 1 0, .deliver 1 0, .deliver 0 1,
      .deliver 0 1, .op 1 .resume]

/-- Host 0 stores in an interval of its own. -/
theorem barrier_brings_later_notices_two :
    ∃ s g, Reach (withGhost (Midsm.step 2) noteBarrier) anyStep
      (initSys, noEpisodes) (s, g) ∧ (s.host 1).mem.Noted 0 (vector [1]) 0 := by
  obtain ⟨⟨s, g⟩, hrun, hp⟩ := exists_reach_any (withGhost (Midsm.step 2) noteBarrier)
    (initSys, noEpisodes) (oneEpisode [.lock 0, .store 0 0 [7], .unlock 0])
    (fun t => (t.1.net 0 0).all (fun msg => !msg.isExitInfo) && decide (0 < t.2.rets 1) &&
      (t.2.entries 0)[0]?.all (fun m : Mem => decide (m.Noted 0 (vector [1]) 0)) &&
      (t.2.entries 1)[0]?.all fun m : Mem => isAfterInterval 2 (vector [1]) (m.now 1).timestamp)
    (by decide +kernel)
  simp only [Bool.and_eq_true, decide_eq_true_eq] at hp
  obtain ⟨⟨⟨hstray, hrets⟩, hnoted⟩, hafter⟩ := hp
  have hstray' : ∀ msg ∈ s.net 0 0, msg.isExitInfo = false := fun msg hm => by
    simpa using List.all_eq_true.mp hstray msg hm
  obtain ⟨mx, mj, hx, hj, hall⟩ := barrier_brings_later_notices 2 hrun hstray' 1 0 0
    (by decide) (by decide) hrets
  rw [hj] at hnoted
  rw [hx] at hafter
  exact ⟨s, g, hrun, hall (vector [1]) 0 (by simpa using hnoted)
    (Or.inr (by simpa using hafter))⟩

/-- Host 0 stores in the interval it began with, whose timestamp is the one host
1 enters with, and host 1 is not told. -/
theorem barrier_misses_equal_notice :
    ∃ s g, Reach (withGhost (Midsm.step 2) noteBarrier) anyStep
      (initSys, noEpisodes) (s, g) ∧ g.rets 1 = 1 ∧
      (∃ m, (g.entries 0)[0]? = some m ∧ m.Noted 0 (vector []) 0) ∧
      ¬ (s.host 1).mem.Noted 0 (vector []) 0 := by
  obtain ⟨⟨s, g⟩, hrun, hp⟩ := exists_reach_any (withGhost (Midsm.step 2) noteBarrier)
    (initSys, noEpisodes) (oneEpisode [.store 0 0 [7]])
    (fun t => decide (t.2.rets 1 = 1) &&
      (t.2.entries 0)[0]?.any (fun m : Mem => decide (m.Noted 0 (vector []) 0)) &&
      decide (¬ (t.1.host 1).mem.Noted 0 (vector []) 0))
    (by decide +kernel)
  simp only [Bool.and_eq_true, decide_eq_true_eq] at hp
  obtain ⟨⟨hrets, hnoted⟩, hmissed⟩ := hp
  obtain ⟨m, hm, hn⟩ := (Option.any_eq_true ..).mp hnoted
  exact ⟨s, g, hrun, hrets, ⟨m, hm, of_decide_eq_true hn⟩, hmissed⟩

end

end Midsm
