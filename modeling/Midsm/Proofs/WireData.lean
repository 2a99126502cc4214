import Midsm.Proofs.PageRequests
import Midsm.Proofs.InfoMessages
import Midsm.Proofs.WireMessages

/-!
# What is in flight fits

Most of what `Msg.Fits` asks for the code sees to by itself, in every run: lock numbers
and page indices are in range, the last holder of a lock is a host, a count is that of its
packets, and a message about a barrier has room for what it carries. `Msg.WellMade` says
this much of a message, and `AllMade` of a state.

What is left is `Msg.InBounds`: nothing stops a timestamp from growing, or a host from
having more to tell in a `GRANT_WN_I` than a message takes.
-/

namespace Midsm

open Midsm.Lib

/-! ## Messages -/

/-- Packets under their own count, none of which names more pages than it has room for. -/
structure PacketsMade (packetNum : Nat) (packets : List WnPacket) : Prop where
  packetNum : packetNum = packets.length
  wnCount : ∀ packet ∈ packets, packet.wnArray.length ≤ maxWnNum

def Msg.WellMade (n : Nat) : Msg → Prop
  | .acqLock lockno | .rlsLock lockno => 0 ≤ lockno ∧ lockno < lockNum
  | .grantLock lockno last => (0 ≤ lockno ∧ lockno < lockNum) ∧ -1 ≤ last ∧ last < n
  | .enterBarrier | .exitBarrier => True
  | .grantWnI _ k packets => PacketsMade k packets
  | .grantEnterBarrierInfo _ k packets | .grantExitBarrierInfo _ k packets =>
      PacketsMade k packets ∧ packets.length ≤ 9
  | .grantDiff _ p _ | .fetchDiff p _ => p < maxPageNum
  | .grantPage p _ | .fetchPage p => p < maxPageNum
  | .fetchWnI _ => True

/-- What the code does not see to. -/
def Msg.InBounds : Msg → Prop
  | .grantWnI ts _ packets =>
      ts.Fits ∧ (∀ packet ∈ packets, packet.timestamp.Fits) ∧ packets.length ≤ 9
  | .grantEnterBarrierInfo ts _ packets | .grantExitBarrierInfo ts _ packets =>
      ts.Fits ∧ ∀ packet ∈ packets, packet.timestamp.Fits
  | .grantDiff ts _ _ | .fetchDiff _ ts | .fetchWnI ts => ts.Fits
  | _ => True

/-- The last holder of every lock is a host of the system, or none. -/
def Syn.LastIn (n : Nat) (s : Syn) : Prop :=
  ∀ l, -1 ≤ (s.locks l).lasthostid ∧ (s.locks l).lasthostid < n

/-- A state of a host, and messages to other hosts, as a step leaves them. -/
structure Made (n : Nat) (r : Host × Out) : Prop where
  last : r.1.syn.LastIn n
  out : ∀ x ∈ r.2, x.1 < n ∧ x.2.WellMade n

section

variable {n me sender : Nat} {l x : Int} {s : Syn} {h : Host} {r : Host × Out} {m : Mem}

theorem Made.silent (hs : h.syn.LastIn n) : Made n (h, []) :=
  ⟨hs, fun _ hx => absurd hx List.not_mem_nil⟩

theorem Made.single {b : Nat} {msg : Msg} (hs : h.syn.LastIn n) (hb : b < n)
    (hm : msg.WellMade n) : Made n (h, [(b, msg)]) := by
  refine ⟨hs, fun x hx => ?_⟩
  rw [List.mem_singleton.mp hx]
  exact ⟨hb, hm⟩

/-! ## Locks -/

theorem Syn.LastIn.setLock (hs : s.LastIn n) {lock : Lock}
    (hl : -1 ≤ lock.lasthostid ∧ lock.lasthostid < n) : (s.setLock l lock).LastIn n := by
  intro l'
  show -1 ≤ (upd s.locks l lock l').lasthostid ∧ (upd s.locks l lock l').lasthostid < n
  unfold upd
  split
  · exact hl
  · exact hs l'

theorem Syn.LastIn.grasp (hs : s.LastIn n) (me : Nat) (l x : Int) :
    (graspLock n me l x s).2.LastIn n := by
  unfold graspLock
  dsimp only
  split
  · exact hs
  · split
    · exact hs
    · split
      · exact hs.setLock (hs l)
      · split
        · exact hs
        · exact hs.setLock (hs l)

/-- The host that releases is a host of the system. -/
theorem Syn.LastIn.free (hs : s.LastIn n) (me : Nat) (l x : Int) :
    (freeLock n me l x s).2.LastIn n := by
  unfold freeLock
  dsimp only
  split
  · exact hs
  · next hx =>
      have hlast : -1 ≤ x ∧ x < n := by omega
      split
      · exact hs
      · split
        · exact hs
        · split
          · exact hs
          · split
            · exact hs.setLock hlast
            · exact hs.setLock hlast

theorem grantLock_made (hs : s.LastIn n) (hl : 0 ≤ l) :
    ∀ y ∈ grantLock n me l x s, y.1 < n ∧ y.2.WellMade n := by
  intro y hy
  rcases grantLock_out n me l x s with he | ⟨hlt, h0, hx, -, -, he⟩ <;> rw [he] at hy
  · cases hy
  · rw [List.mem_singleton.mp hy]
    exact ⟨by omega, ⟨hl, hlt⟩, hs l⟩

theorem lockReturn_last (path : LockPath) (hs : h.syn.LastIn n) :
    (lockReturn l path h).syn.LastIn n := by
  cases path <;> exact hs

theorem LockCase.made (hc : LockCase n me l h r) (hme : me < n) (hs : h.syn.LastIn n) :
    Made n r := by
  have hgrasp : ∀ {result : Int} {syn : Syn},
      graspLock n me l me h.syn = (result, syn) → syn.LastIn n := by
    intro result syn he
    have hg := hs.grasp me l me
    rw [he] at hg
    exact hg
  cases hc with
  | refused => exact .silent hs
  | reject syn result _ _ _ _ he => exact .silent (hgrasp he)
  | ask hl hlt => exact .single hs (manager_lt (by omega) l) ⟨hl, hlt⟩
  | queue syn _ he =>
      have hg : syn.LastIn n := hgrasp he
      exact .silent hg
  | fetch syn last _ he _ _ _ hlt => exact .single (hgrasp he) hlt trivial
  | skip syn last _ he => exact .silent (lockReturn_last _ (hgrasp he))
  | fresh syn last _ he => exact .silent (lockReturn_last _ (hgrasp he))

theorem ResumeCase.made (hc : ResumeCase n me l h r) (hs : h.syn.LastIn n) : Made n r := by
  cases hc with
  | fetch _ _ hlt => exact .single hs hlt trivial
  | skip => exact .silent (lockReturn_last _ hs)
  | back => exact .silent hs
  | fresh => exact .silent hs

theorem UnlockCase.made (hc : UnlockCase n me l h r) (hme : me < n) (hs : h.syn.LastIn n) :
    Made n r := by
  cases hc with
  | refused => exact .silent hs
  | free syn result hl _ _ _ he =>
      have hf : syn.LastIn n := by
        have hf := Syn.LastIn.free (s := (h.releasing n me l).syn) hs me l me
        rw [he] at hf
        exact hf
      refine ⟨hf, fun y hy => ?_⟩
      dsimp only at hy
      split at hy
      · exact grantLock_made hf hl y hy
      · cases hy
  | tell hl hlt => exact .single hs (manager_lt (by omega) l) ⟨hl, hlt⟩

theorem handleAcquireMsg_made (hs : h.syn.LastIn n) :
    Made n (handleAcquireMsg n me sender l h) := by
  have hg := hs.grasp me l sender
  unfold handleAcquireMsg
  split
  · next hl =>
      refine ⟨hg, fun y hy => ?_⟩
      dsimp only at hy
      split at hy
      · exact grantLock_made hg hl.1 y hy
      · cases hy
  · exact .silent hs

theorem handleReleaseMsg_made (hs : h.syn.LastIn n) :
    Made n (handleReleaseMsg n me sender l h) := by
  have hf := hs.free me l sender
  unfold handleReleaseMsg
  split
  · next hl =>
      dsimp only
      split
      · split
        · exact .silent hf
        · exact ⟨hf, grantLock_made hf hl.1⟩
      · exact .silent hf
  · exact .silent hs

/-! ## Packets -/

theorem packetsAfter_made (n : Nat) (ts : Timestamp) (m : Mem) (hosts : List Nat) :
    ∀ packet ∈ (hosts.flatMap fun j => packetsAfter n ts j m).flatten,
      packet.wnArray.length ≤ maxWnNum := by
  intro packet hm
  obtain ⟨packets, hp, hm⟩ := List.mem_flatten.mp hm
  obtain ⟨j, -, hp⟩ := List.mem_flatMap.mp hp
  obtain ⟨interval, -, rfl⟩ := List.mem_map.mp hp
  exact splitNotices_made _ _ _ _ packet hm

/-- Every message of an encoder has its own packets, at most nine. -/
theorem encode_made {mk : Timestamp → Nat → List WnPacket → Msg} {dest : Nat}
    {ts : Timestamp} {intervals : List (List WnPacket)}
    (hmk : ∀ ts' k packets, PacketsMade k packets ∧ packets.length ≤ 9 →
      (mk ts' k packets).WellMade n)
    (hi : ∀ packet ∈ intervals.flatten, packet.wnArray.length ≤ maxWnNum) :
    ∀ x ∈ encode mk dest ts intervals, x.2.WellMade n := by
  intro x hx
  rw [encode_eq] at hx
  obtain ⟨k, -, rfl⟩ := List.mem_map.mp hx
  refine hmk _ _ _ ⟨⟨rfl, fun packet hm => hi packet ?_⟩, length_blockAt ..⟩
  have hm := List.mem_of_mem_drop (List.mem_of_mem_take hm)
  rwa [routes_fst] at hm

theorem sendEnterBarrierInfo_made (hn : 0 < n) (me : Nat) (m : Mem) :
    ∀ x ∈ sendEnterBarrierInfo n me m, x.1 < n ∧ x.2.WellMade n := by
  intro x hx
  refine ⟨by rw [(enterInfo_spec n me m x hx).1]; exact hn, ?_⟩
  revert x
  unfold sendEnterBarrierInfo
  split
  · exact fun x hx => absurd hx List.not_mem_nil
  · refine encode_made (fun _ _ _ hp => hp) fun packet hm => ?_
    obtain ⟨packets, hp, hm⟩ := List.mem_flatten.mp hm
    obtain ⟨interval, -, rfl⟩ := List.mem_map.mp hp
    exact splitNotices_made _ _ _ _ packet hm

theorem release_made (hn : 0 < n) (h : Host) : Made n (h.release n) := by
  refine ⟨fun l => ⟨Int.le_refl _, show (-1 : Int) < n by omega⟩, fun x hx => ?_⟩
  rcases List.mem_append.mp hx with hx | hx
  · obtain ⟨i, hi, hx⟩ := List.mem_flatMap.mp hx
    have hdest : x.1 = i ∨ x.1 = 0 := (exitInfo_spec _ _ _ _ x hx).1
    refine ⟨by rcases hdest with he | he <;> rw [he] <;> [exact (mem_clients.mp hi).2; exact hn],
      encode_made ?_ (packetsAfter_made n _ _ _) x hx⟩
    exact fun _ _ _ hp => hp
  · obtain ⟨i, hi, rfl⟩ := List.mem_map.mp hx
    exact ⟨(mem_clients.mp hi).2, trivial⟩

/-! ## Steps -/

theorem miBarrier_made (hme : me < n) (hs : h.syn.LastIn n) : Made n (miBarrier n me h) := by
  have hn : 0 < n := by omega
  by_cases h0 : me = 0
  · subst h0
    rcases miBarrier_zero_cases n h with he | ⟨-, he⟩ <;> rw [he]
    · exact .silent hs
    · exact ⟨(release_made hn _).last, (release_made hn _).out⟩
  · unfold miBarrier
    rw [if_neg h0]
    refine ⟨hs, fun x hx => ?_⟩
    rcases List.mem_append.mp hx with hx | hx
    · exact sendEnterBarrierInfo_made hn me h.mem x hx
    · rw [List.mem_singleton.mp hx]
      exact ⟨hn, trivial⟩

/-- A fault asks for a page of the address space, and for a diff a notice promises. -/
theorem Quiet.made {op : Op} (hr : h.exec n me op = some r) (hq : Quiet h r) (hme : me < n)
    (hf : ∀ x ∈ r.2, x.2.forFault = true)
    (hd : ∀ j p ts, (j, .fetchDiff p ts) ∈ r.2 → j < n ∧ p < maxPageNum)
    (hs : h.syn.LastIn n) : Made n r := by
  refine ⟨by rw [hq.syn]; exact hs, fun x hx => ?_⟩
  obtain ⟨j, msg⟩ := x
  have hm := hf _ hx
  cases msg with
  | fetchDiff p ts => exact hd j p ts hx
  | fetchPage p =>
      cases exec_page hr with
      | alloc _ _ _ _ ho =>
          rw [ho] at hx
          cases hx
      | rest _ _ hno =>
          have hreq := (hno _ hx).1
          cases hreq
      | ask q dest _ hq _ hdest _ _ ho =>
          rw [ho] at hx
          cases List.mem_singleton.mp hx
          refine ⟨?_, hq⟩
          rcases fetchPageDest_cases hdest with rfl | ⟨hmem, -⟩
          · exact Nat.mod_lt _ (by omega)
          · exact List.mem_range.mp hmem
  | _ => cases hm

theorem exec_made {op : Op} (hr : h.exec n me op = some r) (hme : me < n)
    (hpc : h.pc.Sound n me h.mem)
    (hd : ∀ j p ts, (j, .fetchDiff p ts) ∈ r.2 → j < n ∧ p < maxPageNum)
    (hs : h.syn.LastIn n) : Made n r := by
  cases exec_cases hr with
  | quiet _ _ hq hf _ => exact hq.made hr hme (hf hpc).plain hd hs
  | lock l => exact (miLock_cases n me l h).made hme hs
  | unlock l => exact (miUnlock_cases n me l h).made hme hs
  | barrier => exact miBarrier_made hme hs
  | lockWait l => exact (miLockResume_cases n me l h).made hs
  | wniWait l path => exact .silent (lockReturn_last path hs)
  | barrierWait => exact .silent hs

/-- A handler that faults asks for diffs. -/
theorem PageRead.made {p : Nat} (hc : PageRead n me sender p h r)
    (hask : ∀ j q ts, (j, .fetchDiff q ts) ∈ r.2 → j < n ∧ q < maxPageNum)
    (hs : h.syn.LastIn n) : Made n r := by
  cases hc with
  | refused | killed => exact .silent hs
  | sent hn _ hp | opened _ hn _ hp =>
      refine ⟨hs, fun x hx => ?_⟩
      rw [List.mem_singleton.mp hx]
      exact ⟨hn, hp⟩
  | hangs m out pc hlive _ _ hseg =>
      refine ⟨hs, fun x hx => ?_⟩
      obtain ⟨j, msg⟩ := x
      have hm := (segvHandler_spec hseg).plain _ hx
      rcases segvHandler_page hseg with ⟨-, hno⟩ | ⟨-, -, hmiss, -⟩
      · cases msg with
        | fetchDiff q ts => exact hask j q ts hx
        | fetchPage q => cases (hno _ hx).1
        | _ => cases hm
      · exact absurd hmiss hlive.2

theorem dispatch_made (msg : Msg) (hsend : sender < n)
    (hd : ∀ p ts, msg = .fetchDiff p ts → p < maxPageNum)
    (hask : ∀ j q ts, (j, .fetchDiff q ts) ∈ (dispatchMsg n me sender msg h).2 →
      j < n ∧ q < maxPageNum)
    (hs : h.syn.LastIn n) : Made n (dispatchMsg n me sender msg h) := by
  cases msg with
  | acqLock l => exact handleAcquireMsg_made hs
  | rlsLock l => exact handleReleaseMsg_made hs
  | grantLock l last =>
      refine .silent ?_
      unfold handleGrantMsg
      split
      · exact hs
      · exact hs
  | enterBarrier =>
      dsimp only [dispatchMsg]
      unfold handleEnterBarrierMsg
      dsimp only
      rcases checkBarrierFlags_cases n me { h with
          syn := { h.syn with barrierFlags := upd h.syn.barrierFlags sender true } }
        with ⟨he, -⟩ | ⟨-, -, he⟩ <;> rw [he]
      · exact .silent hs
      · have hn : 0 < n := by omega
        exact ⟨(release_made hn _).last, (release_made hn _).out⟩
  | exitBarrier =>
      refine .silent ?_
      unfold handleExitBarrierMsg
      split
      · exact hs
      · exact hs
  | fetchPage p => exact (dispatch_fetchPage n me sender p h).made hask hs
  | fetchWnI ts =>
      refine ⟨hs, fun x hx => ?_⟩
      rcases grantWNI_out n me sender ts h.mem with ho | ⟨-, -, ho⟩ <;>
        simp only [dispatchMsg, ho] at hx
      · cases hx
      · rw [List.mem_singleton.mp hx]
        exact ⟨hsend, rfl, packetsAfter_made n ts h.mem (List.range n)⟩
  | fetchDiff p ts =>
      refine ⟨hs, fun x hx => ?_⟩
      rcases grantDiff_out n me sender ts p h.mem with ho | ⟨diff, ho⟩ <;>
        simp only [dispatchMsg, ho] at hx
      · cases hx
      · rw [List.mem_singleton.mp hx]
        exact ⟨hsend, hd p ts rfl⟩
  | _ => exact .silent hs

end

/-! ## Runs -/

structure AllMade (n : Nat) (s : Sys) : Prop where
  last : ∀ x, (s.host x).syn.LastIn n
  ends : ∀ a b, ∀ msg ∈ s.net a b, a < n ∧ b < n
  made : ∀ a b, ∀ msg ∈ s.net a b, msg.WellMade n

section

variable {n : Nat} {s s' : Sys}

theorem AllMade.init (n : Nat) : AllMade n initSys where
  last _ _ := ⟨Int.le_refl _, show (-1 : Int) < n by omega⟩
  ends _ _ _ h := absurd h List.not_mem_nil
  made _ _ _ h := absurd h List.not_mem_nil

theorem AllMade.put (hi : AllMade n s) {a : Nat} (ha : a < n) {r : Host × Out}
    (hr : Made n r) : AllMade n (s.put a r) where
  last := put_host_forall (P := fun _ h => h.syn.LastIn n) hr.last fun x _ => hi.last x
  ends u v msg hm := by
    rcases mem_put_net hm with hm | ⟨rfl, ho⟩
    · exact hi.ends u v msg hm
    · exact ⟨ha, (hr.out _ ho).1⟩
  made u v msg hm := by
    rcases mem_put_net hm with hm | ⟨-, ho⟩
    · exact hi.made u v msg hm
    · exact (hr.out _ ho).2

theorem AllMade.pop (hi : AllMade n s) (a b : Nat) : AllMade n (s.pop a b) :=
  ⟨hi.last, fun u v msg hm => hi.ends u v msg (mem_of_mem_pop hm),
    fun u v msg hm => hi.made u v msg (mem_of_mem_pop hm)⟩

theorem AllMade.step (hi : AllMade n s) (hs : Sound n s) {e : Event}
    (he : Midsm.step n s e = some s') : AllMade n s' := by
  have hknown : ∀ x < n, ∀ {j p ts}, (s.host x).mem.Noted j ts p → j < n ∧ p < maxPageNum := by
    intro x hx j p ts hno
    obtain ⟨hj, hnoted⟩ := hs.noted x hx hno
    exact ⟨hj, (hs.live j hj ts p hnoted).1⟩
  obtain ⟨a, op, r, rfl, ha, hr, rfl⟩ |
    ⟨a, b, msg, rest, rfl, ha, hb, hne, hnet, rfl⟩ := step_cases he
  · exact hi.put ha (exec_made hr ha (hs.pc a ha)
      (fun j p ts hx => hknown a ha ((hs.exec ha hr).asks j p ts hx).2.2) (hi.last a))
  · have hmem : msg ∈ s.net a b := by
      rw [hnet]
      exact List.mem_cons_self
    refine (hi.pop a b).put hb (dispatch_made msg ha (fun p ts hmsg => ?_)
      (fun j p ts hx => hknown b hb ((hs.read hb msg).asks j p ts hx).2.2) (hi.last b))
    subst hmsg
    exact hi.made a b _ hmem

theorem allMade_of_reach {ok : Sys → Event → Prop} (h : Reach (Midsm.step n) ok initSys s) :
    Sound n s ∧ AllMade n s :=
  h.invariant (P := fun s => Sound n s ∧ AllMade n s) ⟨Sound.init n, AllMade.init n⟩
    fun hi _ he => ⟨hi.1.step he, hi.2.step hi.1 he⟩

/-- **Nothing in flight names a lock, a host or a page that there is not**, in any run; every
count is that of what it counts. -/
theorem in_flight_well_made (h : Reach (Midsm.step n) anyStep initSys s) {a b : Nat}
    {msg : Msg} (hm : msg ∈ s.net a b) :
    (a < n ∧ b < n) ∧ msg.WellMade n ∧ ∀ packet ∈ msg.packets, packet.hostid < n ∧
      ∀ p ∈ packet.wnArray, p < maxPageNum := by
  have hall := allMade_of_reach h
  refine ⟨hall.2.ends a b msg hm, hall.2.made a b msg hm, fun packet hp => ?_⟩
  obtain ⟨⟨hj, -⟩, hpages⟩ := hall.1.told a b msg hm packet hp
  exact ⟨hj, fun p hp => (hall.1.live _ hj _ p (hpages p hp).2).1⟩

/-- Host 1 stores to its page and tells host 0 at the barrier. -/
theorem in_flight_well_made_two : ∃ s, Reach (Midsm.step 2) anyStep initSys s ∧
    ∃ msg ∈ s.net 1 0, msg.packets ≠ [] ∧ msg.WellMade 2 ∧ ∀ packet ∈ msg.packets,
      packet.hostid < 2 ∧ ∀ p ∈ packet.wnArray, p < maxPageNum := by
  obtain ⟨s, hrun, hp⟩ := exists_reach_any (Midsm.step 2) initSys
    [.op 0 (.alloc 8192), .op 1 (.alloc 8192), .op 1 (.store 1 0 [7]), .op 1 .barrier]
    (fun s => (s.net 1 0).any fun msg => !msg.packets.isEmpty) (by decide +kernel)
  obtain ⟨msg, hm, hne⟩ := List.any_eq_true.mp hp
  refine ⟨s, hrun, msg, hm, ?_, (in_flight_well_made hrun hm).2⟩
  simpa using hne

/-- With numbers that stay in bounds, every message in flight fits. -/
theorem AllMade.fits (hi : AllMade n s) (hs : Sound n s) (hn : n ≤ maxHostNum) {a b : Nat}
    {msg : Msg} (hm : msg ∈ s.net a b) (hb : msg.InBounds) : msg.Fits := by
  have hmade := hi.made a b msg hm
  have hpackets : ∀ {k : Nat} {packets : List WnPacket}, msg.packets = packets.take k →
      PacketsMade k packets → ∀ packet ∈ packets, packet.timestamp.Fits → packet.Fits := by
    intro k packets hall hmade packet hp hts
    have hmem : packet ∈ msg.packets := by
      rw [hall, hmade.packetNum, List.take_length]
      exact hp
    obtain ⟨⟨hj, -⟩, hpages⟩ := hs.told a b msg hm packet hmem
    refine ⟨?_, hts, hmade.wnCount packet hp, fun p hp => ?_⟩
    · simp only [IsInt, maxHostNum] at hn ⊢
      omega
    · obtain ⟨-, hnoted⟩ := hpages p hp
      have hlt := (hs.live _ hj _ p hnoted).1
      simp only [IsInt, maxPageNum] at hlt ⊢
      omega
  cases msg with
  | acqLock l | rlsLock l =>
      obtain ⟨h0, hlt⟩ := hmade
      simp only [Msg.Fits, lockNum] at hlt ⊢
      omega
  | grantLock l last =>
      obtain ⟨⟨h0, hlt⟩, h1, hlast⟩ := hmade
      simp only [Msg.Fits, IsInt, lockNum, maxHostNum] at hlt hn ⊢
      omega
  | enterBarrier | exitBarrier => exact trivial
  | grantWnI ts k packets =>
      obtain ⟨hts, hstamps, hlen⟩ := hb
      exact ⟨hts, hmade.packetNum, nine_fit.mpr hlen, fun packet hp =>
        hpackets rfl hmade packet hp (hstamps packet hp)⟩
  | grantEnterBarrierInfo ts k packets | grantExitBarrierInfo ts k packets =>
      obtain ⟨hts, hstamps⟩ := hb
      obtain ⟨hmade, hlen⟩ := hmade
      exact ⟨hts, hmade.packetNum, nine_fit.mpr hlen, fun packet hp =>
        hpackets rfl hmade packet hp (hstamps packet hp)⟩
  | grantDiff ts p _ | fetchDiff p ts =>
      refine ⟨hb, ?_⟩
      simp only [Msg.WellMade, maxPageNum] at hmade
      simp only [IsInt]
      omega
  | grantPage p _ | fetchPage p =>
      simp only [Msg.WellMade, maxPageNum] at hmade
      simp only [Msg.Fits, IsInt]
      omega
  | fetchWnI ts => exact hb

end

end Midsm
