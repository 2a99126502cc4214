import Midsm.Proofs.Armed

/-!
# The two lists of a notice

A notice of another host is on the list of its page and named by its interval, and
`incorporateWnPacket` looks at the interval only before it makes one. So no page has
two notices of one interval, and a reply finds the notice it was asked for.
-/

namespace Midsm

open Midsm.Lib

/-- What a host keeps of host `j`. -/
structure Mem.Matched (j : Nat) (m : Mem) : Prop where
  once : ∀ q, ((m.pageArray q).keys j).Nodup
  listed : ∀ ts q, m.Noted j ts q → m.Listed j ts q
  unique : ((m.procArray j).map Interval.timestamp).Nodup

section

variable {n me i j p : Nat} {ts : Timestamp} {m m' : Mem}

theorem noticesOf_of_listed (hu : ((m.procArray j).map Interval.timestamp).Nodup)
    (h : m.Listed j ts p) : p ∈ noticesOf ts (m.procArray j) := by
  obtain ⟨interval, hm, rfl, hp⟩ := h
  unfold noticesOf
  generalize m.procArray j = list at hu hm
  induction list with
  | nil => cases hm
  | cons head rest ih =>
      rw [List.map_cons, List.nodup_cons] at hu
      rcases List.mem_cons.mp hm with rfl | hm
      · rw [List.find?_cons_of_pos (by simp)]
        exact hp
      · have hne : head.timestamp ≠ interval.timestamp := fun he =>
          hu.1 (he ▸ List.mem_map_of_mem hm)
        rw [List.find?_cons_of_neg (by simpa using hne)]
        exact ih hu.2 hm

/-- The timestamps and the lists are the same. -/
theorem Mem.Matched.congr (h : m.Matched j)
    (hk : ∀ q, (m'.pageArray q).keys j = (m.pageArray q).keys j)
    (hl : m'.procArray j = m.procArray j) : m'.Matched j where
  once q := by
    rw [hk]
    exact h.once q
  listed ts q hn := by
    rw [Mem.Noted, hk] at hn
    unfold Mem.Listed
    rw [hl]
    exact h.listed ts q hn
  unique := by
    rw [hl]
    exact h.unique

theorem Mem.Frame.matched (hf : m.Frame m') (h : m.Matched j) : m'.Matched j :=
  h.congr (fun q => hf.keys q j) (congrFun hf.procArray j)

theorem record_keys_self : ((m.record j ts p).pageArray p).keys j =
    ts :: (m.pageArray p).keys j := by
  show ((m.setPage p _).pageArray p).keys j = _
  rw [setPage_self, Page.keys]
  dsimp only
  rw [upd_self]
  rfl

theorem record_keys_ne {q : Nat} (h : q ≠ p ∨ j ≠ i) :
    ((m.record i ts p).pageArray q).keys j = (m.pageArray q).keys j := by
  show ((m.setPage p _).pageArray q).keys j = _
  by_cases hq : q = p
  · subst hq
    rw [setPage_self, Page.keys]
    dsimp only
    rw [upd_ne (h.resolve_left (not_not.mpr rfl))]
    rfl
  · rw [setPage_ne hq]

theorem Mem.Matched.record (h : m.Matched j) (hk : m.Known i ts)
    (hp : p ∉ noticesOf ts (m.procArray i)) : (m.record i ts p).Matched j where
  once q := by
    by_cases hq : q ≠ p ∨ j ≠ i
    · rw [record_keys_ne hq]
      exact h.once q
    · simp only [ne_eq, not_or, not_not] at hq
      obtain ⟨rfl, rfl⟩ := hq
      rw [record_keys_self, List.nodup_cons]
      exact ⟨fun hn => hp (noticesOf_of_listed h.unique (h.listed ts q hn)), h.once q⟩
  listed t q hn := by
    rw [record_listed hk]
    exact (record_noted.mp hn).imp (h.listed t q) id
  unique := by
    unfold Mem.record
    dsimp only
    by_cases hj : j = i
    · subst hj
      rw [upd_self]
      exact filing_unique.notice h.unique hp
    · rw [upd_ne hj]
      exact h.unique

theorem Mem.Matched.incorporateNotice (h : m.Matched j) (hk : m.Known i ts) (p : Nat) :
    (Midsm.incorporateNotice me i ts m p).Matched j := by
  rw [incorporateNotice_eq]
  split
  · exact h
  · next hp =>
      have hf := invalidatePage_frame me p m
      refine (hf.matched h).record (hf.known.mpr hk) ?_
      rw [hf.procArray]
      exact hp

theorem Mem.Matched.enterInterval (h : m.Matched j) (i : Nat) (ts : Timestamp) :
    (Midsm.enterInterval i ts m).Matched j := by
  have hpages : (Midsm.enterInterval i ts m).pageArray = m.pageArray := by
    unfold Midsm.enterInterval
    dsimp only
    split <;> rfl
  refine ⟨fun q => ?_, fun t q hn => ?_, filing_unique.enterInterval i ts h.unique⟩
  · rw [hpages]
    exact h.once q
  · rw [Mem.Noted, hpages] at hn
    exact (enterInterval_learned i ts m).listed.mpr (Or.inl (h.listed t q hn))

theorem Mem.Matched.incorporateWnPacket (h : m.Matched j) (packet : WnPacket) :
    (Midsm.incorporateWnPacket me m packet).Matched j := by
  have hfold : ∀ (pages : List Nat) {m : Mem}, m.Matched j →
      m.Known packet.hostid packet.timestamp →
      (pages.foldl (Midsm.incorporateNotice me packet.hostid packet.timestamp) m).Matched j := by
    intro pages
    induction pages with
    | nil => exact fun h _ => h
    | cons p pages ih =>
        exact fun h hk => ih (h.incorporateNotice hk p)
          ((incorporateNotice_learned hk).known_mono hk)
  exact hfold _ (h.enterInterval _ _)
    ((enterInterval_learned _ _ m).known ⟨packet.hostid, packet.timestamp, []⟩
      (List.mem_singleton_self _))

theorem Mem.Matched.incorporatePackets (h : m.Matched j) (k : Nat) (packets : List WnPacket) :
    (Midsm.incorporatePackets me k packets m).Matched j := by
  unfold Midsm.incorporatePackets
  induction packets.take k generalizing m with
  | nil => exact h
  | cons packet packets ih => exact ih (h.incorporateWnPacket packet)

/-! ## The system -/

theorem Mem.Quiet.matched (h : m.Quiet me m') (hj : j ≠ me) (hm : m.Matched j) :
    m'.Matched j := by
  rcases h with hframe | ⟨p, hwrote⟩
  · exact hframe.matched hm
  · exact hm.congr (fun q => hwrote.keys q j (Or.inr hj)) (hwrote.list_ne hj)

/-- The main thread makes notices of its own host only. -/
theorem ExecMem.matched {op : Op} {h : Host} {r : Host × Out} (hc : ExecMem n me h op r)
    (hs : h.pc.Sound n me h.mem) (hj : j ≠ me) (hm : h.mem.Matched j) : r.1.mem.Matched j := by
  have hlist := hc.procArray_ne hs hj
  cases hc with
  | access _ hf => exact (hf hs).mem.matched hj hm
  | keep he | fresh he | fetch _ _ _ _ _ he | enter _ _ he | note _ _ he | release _ _ he =>
      refine hm.congr (fun q => ?_) hlist
      have hkeys := congrArg (fun m : Mem => (m.pageArray q).keys j) he
      exact hkeys

theorem PageRead.matched {sender p : Nat} {h : Host} {r : Host × Out}
    (hc : PageRead n me sender p h r) (hj : j ≠ me) (hm : h.mem.Matched j) :
    r.1.mem.Matched j := by
  cases hc with
  | refused | sent | killed => exact hm
  | opened _ _ _ _ _ _ _ hseg => exact (segvHandler_spec hseg).mem.matched hj hm
  | hangs _ _ _ _ _ _ hseg => exact (segvHandler_spec hseg).mem.matched hj hm

theorem ReadMem.matched {sender : Nat} {msg : Msg} {h : Host} {r : Host × Out}
    (hc : ReadMem n me sender h msg r) (hj : j ≠ me) (hm : h.mem.Matched j) :
    r.1.mem.Matched j := by
  have hpush : ∀ interval, (h.mem.pushNow me interval).Matched j := fun interval =>
    hm.congr (fun _ => rfl) (pushNow_procArray_ne hj)
  cases hc with
  | keep _ _ he => rwa [he]
  | release hme _ he =>
      subst hme
      rw [he]
      exact (hpush _).congr (fun _ => rfl) rfl
  | data hmsg =>
      cases msg with
      | acqLock | rlsLock | grantLock | enterBarrier | exitBarrier =>
          rcases hmsg with hmsg | hmsg | hmsg <;> cases hmsg
      | fetchPage p => exact (dispatch_fetchPage n me sender p h).matched hj hm
      | fetchWnI => exact hm
      | grantDiff => exact (handleGrantDiffMsg_frame ..).matched hm
      | grantPage => exact (handleGrantPageMsg_frame ..).matched hm
      | fetchDiff => exact (grantDiff_frame ..).matched hm
      | grantWnI ts k packets =>
          exact ((hpush _).incorporatePackets k packets).congr (fun _ => rfl) rfl
      | grantEnterBarrierInfo ts k packets =>
          refine Mem.Matched.incorporatePackets ?_ k packets
          split
          · exact hm.congr (fun _ => rfl) rfl
          · exact hm
      | grantExitBarrierInfo ts k packets =>
          refine Mem.Matched.incorporatePackets ?_ k packets
          split
          · exact hpush _
          · exact hm

end

theorem matched_of_reach {n : Nat} {s : Sys} (h : Reach (step n) anyStep initSys s)
    {x j : Nat} (hj : j ≠ x) : (s.host x).mem.Matched j := by
  have hinv := h.invariant (P := fun s => Sound n s ∧ ∀ x j, j ≠ x → (s.host x).mem.Matched j)
    ⟨Sound.init n, fun x j hj => ?_⟩ fun {s s' e} ht _ hs => ⟨ht.1.step hs, ?_⟩
  · exact hinv.2 x j hj
  · have hlist : (initSys.host x).mem.procArray j = [] := by
      simp only [initSys, initmem, upd_ne hj]
    refine ⟨fun q => List.nodup_nil, fun ts q hn => (by cases hn), ?_⟩
    rw [hlist]
    exact List.nodup_nil
  · have hput : ∀ {t : Sys} {a : Nat} {r : Host × Out}, t.host = s.host →
        (∀ j ≠ a, r.1.mem.Matched j) →
        ∀ x j, j ≠ x → ((t.put a r).host x).mem.Matched j := by
      intro t a r htt hr x j hj
      by_cases hx : x = a
      · rw [hx] at hj ⊢
        rw [put_host_self]
        exact hr j hj
      · rw [put_host_ne hx, htt]
        exact ht.2 x j hj
    obtain ⟨a, op, r, rfl, ha, he, rfl⟩ |
      ⟨a, b, msg, rest, rfl, ha, hb, hne, hnet, rfl⟩ := step_cases hs
    · exact hput rfl fun j hj => (exec_mem he).matched (ht.1.pc a ha) hj (ht.2 a j hj)
    · exact hput rfl fun j hj => (dispatch_mem n b a msg (s.host b)).matched hj (ht.2 b j hj)

end Midsm
