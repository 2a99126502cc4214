import Midsm.Proofs.Barrier
import Midsm.Proofs.Packets

/-!
# What a step does to the memory

The counterpart of `SynCases.lean` for what a host knows: `ExecMem` and `ReadMem`
list how a segment of the main thread and a message change the memory of a host
and what is sent about it. `MemStep` is what all of them have in common. The
knowledge grows by what was read and by what the host does itself, the packets
that are sent say what the sender knows, and a diff is asked for only where a
notice promises one.
-/

namespace Midsm

/-! ## The main thread -/

/-- Spinning for notices. -/
def Pc.fetches : Pc → Bool
  | .wniWait _ _ => true
  | _ => false

/-- The manager's own timestamp, as `mi_barrier` notes it. -/
def Mem.stamp (n : Nat) (m : Mem) : Mem :=
  { m with
    barrierTimestamps := upd m.barrierTimestamps 0 fun i =>
      if i.val < n then (m.now 0).timestamp i else m.barrierTimestamps 0 i }

/-- The manager once its own flag is up. -/
def Host.stamped (n : Nat) (h : Host) : Host :=
  { h with
    mem := h.mem.stamp n
    syn := { h.syn with barrierFlags := upd h.syn.barrierFlags 0 true } }

/-- The manager waits in its own call, or it is the last to enter. -/
theorem miBarrier_zero_cases (n : Nat) (h : Host) :
    miBarrier n 0 h = ({ h.stamped n with
      syn := { (h.stamped n).syn with waitFlag := true }
      pc := .barrierWait }, []) ∨
    (∀ i < n, (h.stamped n).syn.barrierFlags i = true) ∧
      miBarrier n 0 h = ({ ((h.stamped n).release n).1 with ret := none },
        ((h.stamped n).release n).2) := by
  unfold miBarrier
  rw [if_pos rfl]
  rcases checkBarrierFlags_cases n 0 (h.stamped n) with ⟨he, -⟩ | ⟨-, hall, he⟩
  · left
    unfold Host.stamped Mem.stamp at he ⊢
    dsimp only at he ⊢
    rw [he]
  · right
    refine ⟨hall, ?_⟩
    unfold Host.stamped Mem.stamp at he ⊢
    dsimp only at he ⊢
    rw [he]

inductive ExecMem (n me : Nat) (h : Host) : Op → Host × Out → Prop
  /-- An access to memory, a fault or an allocation. -/
  | access {op : Op} {r : Host × Out} : Quiet h r →
      (h.pc.Sound n me h.mem → h.FaultStep n me r) →
      (h.pc.diffFrom ≠ none → h.mem.fetchDiffWaitFlag = false) → ExecMem n me h op r
  | keep {op : Op} {r : Host × Out} : r.1.mem = h.mem → r.1.pc.faulting = none →
      (h.pc.fetches = true → h.mem.fetchWNIWaitFlag = false) →
      h.pc.faulting = none → (∀ x ∈ r.2, x.2.cls = .lock) → ExecMem n me h op r
  | fresh {op : Op} {r : Host × Out} : r.1.mem = addNewInterval n me h.mem →
      r.1.pc = .run → h.pc.fetches = false → h.pc.faulting = none →
      (∀ x ∈ r.2, x.2.cls = .lock) → ExecMem n me h op r
  | fetch {op : Op} {r : Host × Out} (g : Nat) (l : Int) (path : LockPath) :
      g < n → g ≠ me → r.1.mem = { h.mem with fetchWNIWaitFlag := true } →
      r.1.pc = .wniWait l path → h.pc.fetches = false → h.pc.faulting = none →
      r.2 = [(g, .fetchWnI (h.mem.now me).timestamp)] → ExecMem n me h op r
  | enter {r : Host × Out} : me ≠ 0 → h.pc = .run → r.1.mem = h.mem →
      r.1.pc = .barrierWait →
      r.2 = sendEnterBarrierInfo n me h.mem ++ [(0, .enterBarrier)] →
      ExecMem n me h .barrier r
  | note {r : Host × Out} : me = 0 → h.pc = .run → r.1.mem = h.mem.stamp n →
      r.1.pc = .barrierWait → r.2 = [] → ExecMem n me h .barrier r
  | release {r : Host × Out} : me = 0 → h.pc = .run →
      r.1.mem = ((h.stamped n).release n).1.mem → r.1.pc = .run →
      r.2 = ((h.stamped n).release n).2 → ExecMem n me h .barrier r

section

variable {n me : Nat} {h : Host} {r : Host × Out} {l : Int}

theorem lockReturn_mem (l : Int) (path : LockPath) (h : Host) :
    (lockReturn l path h).mem = h.mem ∧ (lockReturn l path h).pc = .run := by
  cases path <;> exact ⟨rfl, rfl⟩

theorem LockCase.mem {op : Op} (hc : LockCase n me l h r) (hpc : h.pc = .run) :
    ExecMem n me h op r := by
  have hfetch : h.pc.fetches = false := by rw [hpc]; rfl
  have hkeep : h.pc.fetches = true → h.mem.fetchWNIWaitFlag = false :=
    fun ht => (by rw [hfetch] at ht; cases ht)
  have hfault : h.pc.faulting = none := by rw [hpc]; rfl
  cases hc with
  | refused => exact .keep rfl hfault hkeep hfault fun x hx => nomatch hx
  | reject => exact .keep rfl hfault hkeep hfault fun x hx => nomatch hx
  | queue => exact .keep rfl rfl hkeep hfault fun x hx => nomatch hx
  | ask =>
      refine .keep rfl rfl hkeep hfault fun x hx => ?_
      rw [List.mem_singleton.mp hx]
      rfl
  | fetch syn last _ _ _ _ _ hlt hne =>
      exact .fetch last.toNat l .grasped hlt hne rfl rfl hfetch hfault rfl
  | skip => exact .keep rfl rfl hkeep hfault fun x hx => nomatch hx
  | fresh => exact .fresh rfl rfl hfetch hfault fun x hx => nomatch hx

theorem ResumeCase.mem {op : Op} (hc : ResumeCase n me l h r)
    (hpc : h.pc = .lockWait l) : ExecMem n me h op r := by
  have hfetch : h.pc.fetches = false := by rw [hpc]; rfl
  have hkeep : h.pc.fetches = true → h.mem.fetchWNIWaitFlag = false :=
    fun ht => (by rw [hfetch] at ht; cases ht)
  have hfault : h.pc.faulting = none := by rw [hpc]; rfl
  cases hc with
  | fetch _ _ hlt hne => exact .fetch _ l _ hlt hne rfl rfl hfetch hfault rfl
  | skip =>
      obtain ⟨hm, hp⟩ := lockReturn_mem l (Syn.resumePath n me l) h
      exact .keep hm (by rw [hp]; rfl) hkeep hfault fun x hx => nomatch hx
  | back => exact .keep rfl rfl hkeep hfault fun x hx => nomatch hx
  | fresh => exact .fresh rfl rfl hfetch hfault fun x hx => nomatch hx

theorem UnlockCase.mem {op : Op} (hc : UnlockCase n me l h r) (hpc : h.pc = .run) :
    ExecMem n me h op r := by
  have hfetch : h.pc.fetches = false := by rw [hpc]; rfl
  have hfault : h.pc.faulting = none := by rw [hpc]; rfl
  cases hc with
  | refused =>
      exact .keep rfl hfault (fun ht => (by rw [hfetch] at ht; cases ht)) hfault
        fun x hx => nomatch hx
  | free syn result =>
      refine .fresh rfl hpc hfetch hfault fun x hx => ?_
      dsimp only at hx
      split at hx
      · exact grantLock_cls _ _ x hx
      · cases hx
  | tell =>
      refine .fresh rfl hpc hfetch hfault fun x hx => ?_
      rw [List.mem_singleton.mp hx]
      rfl

theorem miBarrier_mem (hpc : h.pc = .run) : ExecMem n me h .barrier (miBarrier n me h) := by
  by_cases hme : me = 0
  · subst hme
    rcases miBarrier_zero_cases n h with he | ⟨-, he⟩
    · rw [he]
      exact .note rfl hpc rfl rfl rfl
    · rw [he]
      exact .release rfl hpc rfl hpc rfl
  · unfold miBarrier
    rw [if_neg hme]
    exact .enter hme hpc rfl rfl rfl

theorem exec_mem {op : Op} (hr : h.exec n me op = some r) : ExecMem n me h op r := by
  cases exec_cases hr with
  | quiet _ _ hq hf hd => exact .access hq hf hd
  | lock l hpc => exact (miLock_cases n me l h).mem hpc
  | unlock l hpc => exact (miUnlock_cases n me l h).mem hpc
  | barrier hpc => exact miBarrier_mem hpc
  | lockWait l hpc => exact (miLockResume_cases n me l h).mem hpc
  | wniWait l path hpc hflag =>
      obtain ⟨hm, hp⟩ := lockReturn_mem l path h
      exact .keep hm (by rw [hp]; rfl) (fun _ => hflag) (by rw [hpc]; rfl)
        fun x hx => nomatch hx
  | barrierWait hpc hflag =>
      refine .keep rfl rfl (fun hf => ?_) (by rw [hpc]; rfl) fun x hx => nomatch hx
      rw [hpc] at hf
      cases hf

end

/-! ## The dispatcher -/

inductive ReadMem (n me sender : Nat) (h : Host) : Msg → Host × Out → Prop
  /-- Nothing about memory. -/
  | keep {msg : Msg} {r : Host × Out} : msg.cls ≠ .data → msg.packets = [] →
      r.1.mem = h.mem → r.1.pc = h.pc → (∀ x ∈ r.2, x.2.cls = .lock) →
      ReadMem n me sender h msg r
  | release {r : Host × Out} : me = 0 →
      (∀ i < n, upd h.syn.barrierFlags sender true i = true) →
      r.1.mem = (h.release n).1.mem → r.1.pc = h.pc → r.2 = (h.release n).2 →
      ReadMem n me sender h .enterBarrier r
  | data {msg : Msg} : msg.cls = .data ∨ msg.isEnterInfo = true ∨ msg.isExitInfo = true →
      ReadMem n me sender h msg (dispatchMsg n me sender msg h)

section

variable {n me sender : Nat} {h : Host}

/-- A handler leaves the main thread where it is. -/
theorem ReadMem.pc {msg : Msg} {r : Host × Out} (hc : ReadMem n me sender h msg r) :
    r.1.pc = h.pc := by
  cases hc with
  | keep _ _ _ hp _ => exact hp
  | release _ _ _ hp _ => exact hp
  | data hmsg =>
      cases msg with
      | acqLock | rlsLock | grantLock | enterBarrier | exitBarrier =>
          rcases hmsg with hmsg | hmsg | hmsg <;> cases hmsg
      | _ => rfl

theorem handleAcquireMsg_mem (l : Int) :
    (handleAcquireMsg n me sender l h).1.mem = h.mem ∧
      (handleAcquireMsg n me sender l h).1.pc = h.pc ∧
      ∀ x ∈ (handleAcquireMsg n me sender l h).2, x.2.cls = .lock := by
  unfold handleAcquireMsg
  split
  · refine ⟨rfl, rfl, fun x hx => ?_⟩
    dsimp only at hx
    split at hx
    · exact grantLock_cls _ _ x hx
    · cases hx
  · exact ⟨rfl, rfl, fun x hx => nomatch hx⟩

theorem handleReleaseMsg_mem (l : Int) :
    (handleReleaseMsg n me sender l h).1.mem = h.mem ∧
      (handleReleaseMsg n me sender l h).1.pc = h.pc ∧
      ∀ x ∈ (handleReleaseMsg n me sender l h).2, x.2.cls = .lock := by
  unfold handleReleaseMsg
  split
  · dsimp only
    split
    · split
      · exact ⟨rfl, rfl, fun x hx => absurd hx List.not_mem_nil⟩
      · exact ⟨rfl, rfl, fun x hx => grantLock_cls _ _ x hx⟩
    · exact ⟨rfl, rfl, fun x hx => absurd hx List.not_mem_nil⟩
  · exact ⟨rfl, rfl, fun x hx => absurd hx List.not_mem_nil⟩

theorem dispatch_mem (n me sender : Nat) (msg : Msg) (h : Host) :
    ReadMem n me sender h msg (dispatchMsg n me sender msg h) := by
  cases msg with
  | acqLock l =>
      obtain ⟨hm, hp, ho⟩ := handleAcquireMsg_mem (n := n) (h := h) l
      exact .keep (fun h => by cases h) rfl hm hp ho
  | rlsLock l =>
      obtain ⟨hm, hp, ho⟩ := handleReleaseMsg_mem (n := n) (h := h) l
      exact .keep (fun h => by cases h) rfl hm hp ho
  | grantLock l last =>
      dsimp only [dispatchMsg]
      unfold handleGrantMsg
      split <;> exact .keep (fun h => by cases h) rfl rfl rfl fun x hx => absurd hx List.not_mem_nil
  | exitBarrier =>
      dsimp only [dispatchMsg]
      unfold handleExitBarrierMsg
      split <;> exact .keep (fun h => by cases h) rfl rfl rfl fun x hx => absurd hx List.not_mem_nil
  | enterBarrier =>
      dsimp only [dispatchMsg]
      unfold handleEnterBarrierMsg
      dsimp only
      rcases checkBarrierFlags_cases n me { h with
          syn := { h.syn with barrierFlags := upd h.syn.barrierFlags sender true } }
        with ⟨he, -⟩ | ⟨hme, hall, he⟩ <;> rw [he]
      · exact .keep (fun h => by cases h) rfl rfl rfl fun x hx => absurd hx List.not_mem_nil
      · exact .release hme hall rfl rfl rfl
  | grantEnterBarrierInfo => exact .data (Or.inr (Or.inl rfl))
  | grantExitBarrierInfo => exact .data (Or.inr (Or.inr rfl))
  | grantWnI | grantDiff | grantPage | fetchPage | fetchWnI | fetchDiff =>
      exact .data (Or.inl rfl)

end

end Midsm
