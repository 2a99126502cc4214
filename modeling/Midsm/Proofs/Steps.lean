import Midsm.Lib.Reach
import Midsm.Proofs.MemFrame

/-!
# What a step can do to locks and barriers

Most steps of a host are about memory: they leave its locks and flags alone,
they leave its main thread in the program or in a page fault, and they send
requests, replies and nothing else. `Quiet` is that description, and the two
inversion lemmas `exec_cases` and `dispatch_cases` say that a segment of the
main thread and a run of the dispatcher are quiet or one of a few named calls
of `syn.c`. Every invariant about locks and barriers splits on them instead of
unfolding the model.
-/

namespace Midsm

open Midsm.Lib

/-! ## Reading a system after a step -/

@[simp] theorem outTo_nil (b : Nat) : outTo [] b = [] := rfl

theorem outTo_append (o₁ o₂ : Out) (b : Nat) :
    outTo (o₁ ++ o₂) b = outTo o₁ b ++ outTo o₂ b := by
  simp [outTo]

theorem outTo_cons_self (b : Nat) (msg : Msg) (out : Out) :
    outTo ((b, msg) :: out) b = msg :: outTo out b := by
  simp [outTo]

theorem outTo_cons_ne {a b : Nat} (h : a ≠ b) (msg : Msg) (out : Out) :
    outTo ((a, msg) :: out) b = outTo out b := by
  simp [outTo, h]

theorem mem_outTo {out : Out} {b : Nat} {msg : Msg} :
    msg ∈ outTo out b ↔ (b, msg) ∈ out := by
  simp [outTo]

@[simp] theorem put_host_self (s : Sys) (a : Nat) (r : Host × Out) :
    (s.put a r).host a = r.1 := upd_self _ _ _

theorem put_host_ne {s : Sys} {a x : Nat} {r : Host × Out} (h : x ≠ a) :
    (s.put a r).host x = s.host x := upd_ne h

@[simp] theorem put_net_self (s : Sys) (a b : Nat) (r : Host × Out) :
    (s.put a r).net a b = s.net a b ++ outTo r.2 b :=
  congrFun (upd_self _ _ _) b

theorem put_net_ne {s : Sys} {a x : Nat} {r : Host × Out} (h : x ≠ a) (b : Nat) :
    (s.put a r).net x b = s.net x b := congrFun (upd_ne h) b

@[simp] theorem pop_host (s : Sys) (a b : Nat) : (s.pop a b).host = s.host := rfl

@[simp] theorem pop_net_self (s : Sys) (a b : Nat) :
    (s.pop a b).net a b = (s.net a b).tail := by
  simp [Sys.pop]

theorem pop_net_ne {s : Sys} {a b x y : Nat} (h : x ≠ a ∨ y ≠ b) :
    (s.pop a b).net x y = s.net x y := by
  by_cases hx : x = a
  · subst hx
    have hy : y ≠ b := h.resolve_left fun hn => hn rfl
    simp [Sys.pop, upd_ne hy]
  · simp [Sys.pop, upd_ne hx]

theorem mem_of_mem_pop {s : Sys} {a b x y : Nat} {msg : Msg}
    (h : msg ∈ (s.pop a b).net x y) : msg ∈ s.net x y := by
  by_cases hxy : x = a ∧ y = b
  · rw [hxy.1, hxy.2] at h ⊢
    rw [pop_net_self] at h
    exact List.mem_of_mem_tail h
  · rwa [pop_net_ne (by omega)] at h

/-- What holds of the changed host and of every other one holds of all. -/
theorem put_host_forall {s : Sys} {a : Nat} {r : Host × Out} {P : Nat → Host → Prop}
    (hself : P a r.1) (hne : ∀ x ≠ a, P x (s.host x)) (x : Nat) :
    P x ((s.put a r).host x) := by
  by_cases hx : x = a
  · subst hx
    rw [put_host_self]
    exact hself
  · rw [put_host_ne hx]
    exact hne x hx

/-- A message in a channel was there or has just been sent. -/
theorem mem_put_net {s : Sys} {a u v : Nat} {r : Host × Out} {msg : Msg}
    (h : msg ∈ (s.put a r).net u v) : msg ∈ s.net u v ∨ (u = a ∧ (v, msg) ∈ r.2) := by
  by_cases hu : u = a
  · subst hu
    rw [put_net_self] at h
    exact (List.mem_append.mp h).imp id fun hm => ⟨rfl, mem_outTo.mp hm⟩
  · rw [put_net_ne hu] at h
    exact Or.inl h

/-- The two kinds of step. -/
theorem step_cases {n : Nat} {s s' : Sys} {e : Event} (h : step n s e = some s') :
    (∃ a op r, e = .op a op ∧ a < n ∧ (s.host a).exec n a op = some r ∧
      s' = s.put a r) ∨
    (∃ a b msg rest, e = .deliver a b ∧ a < n ∧ b < n ∧ a ≠ b ∧
      s.net a b = msg :: rest ∧
      s' = (s.pop a b).put b (dispatchMsg n b a msg (s.host b))) := by
  cases e with
  | op a op =>
      simp only [step] at h
      split at h
      · next ha =>
          obtain ⟨r, hr, rfl⟩ := Option.map_eq_some_iff.mp h
          exact Or.inl ⟨a, op, r, rfl, ha.1, hr, rfl⟩
      · cases h
  | deliver a b =>
      simp only [step] at h
      split at h
      · next hab =>
          obtain ⟨ha, hb, hne, -⟩ := hab
          split at h
          · cases h
          · next msg rest hnet =>
              cases h
              exact Or.inr ⟨a, b, msg, rest, rfl, ha, hb, hne, hnet, rfl⟩
      · cases h

/-- The host of an event, whose handlers have all returned. -/
def Event.host : Event → Nat
  | .op a _ => a
  | .deliver _ b => b

theorem step_awake {n : Nat} {s s' : Sys} {e : Event} (h : step n s e = some s') :
    (s.host e.host).hung = false := by
  cases e with
  | op a op =>
      simp only [step] at h
      split at h
      · next ha => exact ha.2
      · cases h
  | deliver a b =>
      simp only [step] at h
      split at h
      · next hab => exact hab.2.2.2
      · cases h

/-! ## Classes of messages -/

inductive MsgClass where
  | lock
  | barrier
  | data
  deriving DecidableEq

def Msg.cls : Msg → MsgClass
  | .acqLock _ | .rlsLock _ | .grantLock _ _ => .lock
  | .enterBarrier | .exitBarrier => .barrier
  | .grantEnterBarrierInfo _ _ _ | .grantExitBarrierInfo _ _ _ => .barrier
  | .grantWnI _ _ _ | .grantDiff _ _ _ | .grantPage _ _ => .data
  | .fetchPage _ | .fetchWnI _ | .fetchDiff _ _ => .data

/-- Only requests for pages, diffs and notices, and their replies. -/
def Out.Data (out : Out) : Prop := ∀ x ∈ out, x.2.cls = .data

theorem Out.data_nil : Out.Data [] := fun _ h => nomatch h

theorem Out.data_singleton {b : Nat} {msg : Msg} (h : msg.cls = .data) :
    Out.Data [(b, msg)] := by
  intro x hx
  rw [List.mem_singleton.mp hx]
  exact h

/-- The main thread is in the program or in a page fault. -/
def Pc.Calm : Pc → Prop
  | .run | .pageWait _ | .diffWait _ _ _ _ => True
  | _ => False

/-- A step that neither reads nor writes what `syn.c` keeps. -/
structure Quiet (h : Host) (r : Host × Out) : Prop where
  syn : r.1.syn = h.syn
  pc : r.1.pc = h.pc ∨ (h.pc.Calm ∧ r.1.pc.Calm)
  out : r.2.Data

theorem requestDiff_calm (p : Nat) (ts : Option Timestamp)
    (req : Option (Nat × Timestamp × Nat)) (m : Mem) :
    (requestDiff p ts req m).2.1.Data ∧ (requestDiff p ts req m).2.2.Calm := by
  cases req with
  | none => exact ⟨Out.data_nil, trivial⟩
  | some x => exact ⟨Out.data_singleton rfl, trivial⟩

theorem segvHandler_calm {n me p : Nat} {m m' : Mem} {out : Out} {pc : Pc}
    (h : segvHandler n me p m = some (m', out, pc)) : out.Data ∧ pc.Calm := by
  have hfirst := fun hst => segvHandler_first hst h
  unfold segvHandler at h
  split at h
  · cases h
  · cases hst : (m.pageArray p).state <;> simp only [hst] at h
    case rdonly =>
      obtain ⟨-, rfl, rfl, -⟩ := hfirst hst
      exact ⟨Out.data_nil, trivial⟩
    case write => cases h; exact ⟨Out.data_nil, trivial⟩
    case miss =>
      split at h
      · next hf =>
          cases h
          obtain ⟨hostid, -, -, rfl⟩ := fetchPage_eq_some hf
          exact ⟨Out.data_singleton rfl, trivial⟩
      · cases h
        exact ⟨Out.data_nil, trivial⟩
    case invalid =>
      have hq := requestDiff_calm p (m.pageArray p).startInterval
        (nextDiffHost n me (m.pageArray p).startInterval (m.pageArray p)
          (List.range n)) m
      rw [fetchDiff, Option.some.injEq] at h
      rw [h] at hq
      exact hq
    case unmap => cases h

theorem Host.fault_quiet {n me p : Nat} {h : Host} {r : Host × Out}
    (hpc : h.pc = .run) (hr : h.fault n me p = some r) : Quiet h r := by
  obtain ⟨x, hx, rfl⟩ := Option.map_eq_some_iff.mp hr
  obtain ⟨hd, hc⟩ := segvHandler_calm hx
  exact ⟨rfl, Or.inr ⟨by rw [hpc]; trivial, hc⟩, hd⟩

theorem Host.load_quiet {n me p : Nat} {h : Host} {r : Host × Out}
    (hpc : h.pc = .run) (hr : h.load n me p = some r) : Quiet h r := by
  unfold Host.load at hr
  split at hr
  · cases hr; exact ⟨rfl, Or.inl rfl, Out.data_nil⟩
  · exact Host.fault_quiet hpc hr

theorem Host.store_quiet {n me p o : Nat} {bytes : List Byte} {h : Host}
    {r : Host × Out} (hpc : h.pc = .run) (hr : h.store n me p o bytes = some r) :
    Quiet h r := by
  unfold Host.store at hr
  split at hr
  · cases hr; exact ⟨rfl, Or.inl rfl, Out.data_nil⟩
  · obtain ⟨x, hx, rfl⟩ := Option.map_eq_some_iff.mp hr
    have hq := Host.fault_quiet hpc hx
    dsimp only
    split
    · exact ⟨hq.syn, hq.pc, hq.out⟩
    · exact hq

/-! ## The main thread -/

/-- A segment of the main thread is quiet or a call of `syn.c`. -/
inductive ExecCase (n me : Nat) (h : Host) : Op → Host × Out → Prop
  | quiet {op : Op} {r : Host × Out} : h.pc.Calm → op ≠ .barrier → Quiet h r →
      (h.pc.Sound n me h.mem → h.FaultStep n me r) →
      (h.pc.diffFrom ≠ none → h.mem.fetchDiffWaitFlag = false) → ExecCase n me h op r
  | lock (l : Int) : h.pc = .run → ExecCase n me h (.lock l) (miLock n me l h)
  | unlock (l : Int) : h.pc = .run →
      ExecCase n me h (.unlock l) (miUnlock n me l h)
  | barrier : h.pc = .run → ExecCase n me h .barrier (miBarrier n me h)
  | lockWait (l : Int) : h.pc = .lockWait l → h.syn.waitFlag = false →
      ExecCase n me h .resume (miLockResume n me l h)
  | wniWait (l : Int) (path : LockPath) : h.pc = .wniWait l path →
      h.mem.fetchWNIWaitFlag = false →
      ExecCase n me h .resume (lockReturn l path h, [])
  | barrierWait : h.pc = .barrierWait → h.syn.waitFlag = false →
      ExecCase n me h .resume ({ h with pc := .run, ret := none }, [])

/-- Everything but `resume` starts in the program. -/
theorem exec_run {n me : Nat} {op : Op} {h : Host} {r : Host × Out} (hop : op ≠ .resume)
    (hr : h.exec n me op = some r) : h.pc = .run := by
  cases hpc : h.pc with
  | run => rfl
  | lockWait | wniWait | barrierWait | pageWait | diffWait =>
      cases op <;> simp only [Host.exec, hpc] at hr <;> first | exact absurd rfl hop | cases hr

theorem exec_cases {n me : Nat} {op : Op} {h : Host} {r : Host × Out}
    (hr : h.exec n me op = some r) : ExecCase n me h op r := by
  cases hpc : h.pc with
  | run =>
      have hno : h.pc.diffFrom ≠ none → h.mem.fetchDiffWaitFlag = false :=
        fun hn => absurd (by rw [hpc]; rfl) hn
      have hcalm : h.pc.Calm := by rw [hpc]; trivial
      cases op <;> simp only [Host.exec, hpc] at hr
      case alloc size =>
        cases hr
        exact .quiet hcalm (fun h => by cases h) ⟨rfl, Or.inl hpc.symm, Out.data_nil⟩ (fun _ =>
          .silent (Or.inl (miAlloc_frame n me size h.mem)) rfl
            (miAlloc_flags n me size h.mem).1 (miAlloc_flags n me size h.mem).2) hno
      case load p o len =>
        exact .quiet hcalm (fun h => by cases h) (Host.load_quiet hpc hr) (fun _ => Host.load_step hpc hr) hno
      case store p o bytes =>
        exact .quiet hcalm (fun h => by cases h) (Host.store_quiet hpc hr) (fun _ => Host.store_step hpc hr)
          hno
      case lock l => cases hr; exact .lock l hpc
      case unlock l => cases hr; exact .unlock l hpc
      case barrier => cases hr; exact .barrier hpc
      case resume => simp [Host.resume, hpc] at hr
  | lockWait l =>
      cases op <;> simp only [Host.exec, hpc, Host.resume] at hr <;> try cases hr
      split at hr
      · cases hr
      · next hf => cases hr; exact .lockWait l hpc (by simpa using hf)
  | wniWait l path =>
      cases op <;> simp only [Host.exec, hpc, Host.resume] at hr <;> try cases hr
      split at hr
      · cases hr
      · next hf => cases hr; exact .wniWait l path hpc (by simpa using hf)
  | barrierWait =>
      cases op <;> simp only [Host.exec, hpc, Host.resume] at hr <;> try cases hr
      split at hr
      · cases hr
      · next hf => cases hr; exact .barrierWait hpc (by simpa using hf)
  | pageWait p =>
      cases op <;> simp only [Host.exec, hpc] at hr <;> try cases hr
      refine .quiet (by rw [hpc]; trivial) (fun h => by cases h) ?_
        (fun hs => Host.resume_step hs (by rw [hpc]; rfl) hr)
        fun hn => absurd (by rw [hpc]; rfl) hn
      simp only [Host.resume, hpc] at hr
      split at hr
      · cases hr
      · cases hr
        exact ⟨rfl, Or.inr ⟨by rw [hpc]; trivial, trivial⟩, Out.data_nil⟩
  | diffWait p ts i rest =>
      cases op <;> simp only [Host.exec, hpc] at hr <;> try cases hr
      have hstep := fun hs : h.pc.Sound n me h.mem =>
        Host.resume_step hs (by rw [hpc]; rfl) hr
      simp only [Host.resume, hpc] at hr
      split at hr
      · cases hr
      · next hflag =>
          refine .quiet (by rw [hpc]; trivial) (fun h => by cases h) ?_ hstep fun _ => by simpa using hflag
          cases hr
          obtain ⟨hd, hc⟩ := requestDiff_calm p ts _ h.mem
          exact ⟨rfl, Or.inr ⟨by rw [hpc]; trivial, hc⟩, hd⟩

/-! ## The dispatcher -/

theorem requestDiff_run {p : Nat} {ts : Option Timestamp} {request : Option (Nat × Timestamp × Nat)}
    {m m' : Mem} {out : Out} (h : requestDiff p ts request m = (m', out, .run)) :
    out = [] := by
  cases request with
  | none =>
      cases h
      rfl
  | some x => cases h

/-- A fault that does not spin sends nothing. -/
theorem segvHandler_run {n me p : Nat} {m m' : Mem} {out : Out}
    (h : segvHandler n me p m = some (m', out, .run)) : out = [] := by
  have hfirst := fun hst => segvHandler_first hst h
  unfold segvHandler at h
  split at h
  · cases h
  · cases hst : (m.pageArray p).state <;> simp only [hst] at h
    case rdonly => exact (hfirst hst).2.1
    case miss =>
      split at h
      · cases h
      · cases h
        rfl
    case write =>
      cases h
      rfl
    case invalid => exact requestDiff_run (Option.some.inj h)
    case unmap => cases h

/-- What a handler makes of a `FETCH_PAGE`. A page that it can read it sends. For one that
it cannot read `segv_handler` runs, and the handler hangs where that one spins. -/
inductive PageRead (n me sender p : Nat) (h : Host) : Host × Out → Prop
  | refused : PageRead n me sender p h (h, [])
  | sent : sender < n → sender ≠ me → p < maxPageNum → (h.mem.pageArray p).Live →
      (h.mem.pageArray p).prot ≠ .none →
      PageRead n me sender p h (h, [(sender, .grantPage p (h.mem.pageArray p).content)])
  | opened (m : Mem) : sender < n → sender ≠ me → p < maxPageNum →
      (h.mem.pageArray p).Live → (h.mem.pageArray p).prot = .none → h.pc.faulting = none →
      segvHandler n me p h.mem = some (m, [], .run) →
      PageRead n me sender p h
        ({ h with mem := m }, [(sender, .grantPage p (h.mem.pageArray p).content)])
  | killed : (h.mem.pageArray p).Live → (h.mem.pageArray p).prot = .none →
      PageRead n me sender p h ({ h with hung := true }, [])
  | hangs (m : Mem) (out : Out) (pc : Pc) : (h.mem.pageArray p).Live →
      (h.mem.pageArray p).prot = .none → h.pc.faulting = none →
      segvHandler n me p h.mem = some (m, out, pc) →
      (pc = .run → (m.pageArray p).prot = .none) →
      PageRead n me sender p h ({ h with mem := m, hung := true }, out)

theorem dispatch_fetchPage (n me sender p : Nat) (h : Host) :
    PageRead n me sender p h (dispatchMsg n me sender (.fetchPage p) h) := by
  obtain ⟨mem, syn, pc, ret, hung⟩ := h
  have hlives : ∀ (b : Bool) (mem' : Mem), (⟨mem', syn, pc, ret, b || false⟩ : Host) =
      ⟨mem', syn, pc, ret, b⟩ := fun _ _ => by rw [Bool.or_false]
  have hdies : ∀ (b : Bool) (mem' : Mem), (⟨mem', syn, pc, ret, b || true⟩ : Host) =
      ⟨mem', syn, pc, ret, true⟩ := fun _ _ => by rw [Bool.or_true]
  simp only [dispatchMsg, grantPage]
  split
  · exact hlives .. ▸ .refused
  · split
    · exact hlives .. ▸ .refused
    · split
      · exact hlives .. ▸ .refused
      · split
        · exact hlives .. ▸ .refused
        · next h₁ h₂ h₃ h₄ =>
            have hlive : (mem.pageArray p).Live := not_or.mp h₄
            split
            · next hprot => exact hlives .. ▸ .sent (by omega) h₂ (by omega) hlive hprot
            · next hprot =>
                have hprot := not_not.mp hprot
                split
                · exact hdies .. ▸ .killed hlive hprot
                · next hpc =>
                    have hpc : pc.faulting = none := by simpa using hpc
                    split
                    · exact hdies .. ▸ .killed hlive hprot
                    · next m out hseg =>
                        obtain rfl := segvHandler_run hseg
                        split
                        · exact hlives .. ▸
                            .opened m (by omega) h₂ (by omega) hlive hprot hpc hseg
                        · next hno =>
                            exact hdies .. ▸ .hangs m [] .run hlive hprot hpc hseg
                              fun _ => not_not.mp hno
                    · next m out pc' hrun hseg =>
                        exact hdies .. ▸ .hangs m out pc' hlive hprot hpc hseg
                          fun he => absurd he hrun

/-- What `grantWNI` sends, if anything. -/
theorem grantWNI_out (n me hostid : Nat) (ts : Timestamp) (m : Mem) :
    (grantWNI n me hostid ts m).2 = [] ∨
    (hostid < n ∧ hostid ≠ me ∧
      (grantWNI n me hostid ts m).2 = [(hostid, .grantWnI (m.now me).timestamp
        ((List.range n).flatMap fun i => packetsAfter n ts i m).flatten.length
        ((List.range n).flatMap fun i => packetsAfter n ts i m).flatten)]) := by
  unfold grantWNI
  split
  · exact Or.inl rfl
  · split
    · exact Or.inl rfl
    · next h₁ h₂ => exact Or.inr ⟨by omega, h₂, rfl⟩

/-- What `grantDiff` sends, if anything. -/
theorem grantDiff_out (n me hostid : Nat) (ts : Timestamp) (p : Nat) (m : Mem) :
    (grantDiff n me hostid ts p m).2.2 = [] ∨
    ∃ diff, (grantDiff n me hostid ts p m).2.2 = [(hostid, .grantDiff ts p diff)] := by
  unfold grantDiff
  dsimp only
  split
  · exact Or.inl rfl
  · split
    · exact Or.inl rfl
    · split
      · exact Or.inl rfl
      · split
        · exact Or.inl rfl
        · exact Or.inr ⟨_, rfl⟩

/-- A message about memory, or one that only carries notices, is handled
quietly. -/
theorem dispatch_quiet (n me sender : Nat) {msg : Msg} (h : Host)
    (hmsg : msg.cls = .data ∨
      (∃ ts k ps, msg = .grantEnterBarrierInfo ts k ps) ∨
      ∃ ts k ps, msg = .grantExitBarrierInfo ts k ps) :
    Quiet h (dispatchMsg n me sender msg h) := by
  cases msg with
  | acqLock | rlsLock | grantLock | enterBarrier | exitBarrier =>
      simp [Msg.cls] at hmsg
  | fetchPage p =>
      have hc := dispatch_fetchPage n me sender p h
      generalize dispatchMsg n me sender (.fetchPage p) h = r at hc ⊢
      cases hc with
      | refused | killed => exact ⟨rfl, Or.inl rfl, Out.data_nil⟩
      | sent | opened => exact ⟨rfl, Or.inl rfl, Out.data_singleton rfl⟩
      | hangs m out pc _ _ _ hseg => exact ⟨rfl, Or.inl rfl, (segvHandler_calm hseg).1⟩
  | fetchWnI ts =>
      refine ⟨rfl, Or.inl rfl, ?_⟩
      rcases grantWNI_out n me sender ts h.mem with ho | ⟨-, -, ho⟩ <;>
        simp only [dispatchMsg, ho]
      · exact Out.data_nil
      · exact Out.data_singleton rfl
  | fetchDiff p ts =>
      refine ⟨rfl, Or.inl rfl, ?_⟩
      rcases grantDiff_out n me sender ts p h.mem with ho | ⟨diff, ho⟩ <;>
        simp only [dispatchMsg, ho]
      · exact Out.data_nil
      · exact Out.data_singleton rfl
  | _ => exact ⟨rfl, Or.inl rfl, Out.data_nil⟩

end Midsm
