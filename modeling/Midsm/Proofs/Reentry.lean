import Midsm.Proofs.Wakeups

/-!
# A barrier that is entered again while it is released

`checkBarrierFlags` finds all flags up, sends an `EXIT_BARRIER` to one client after the
other, and clears the flags when it has sent the last. When host 0 runs it in its
main thread, a client that has been let out can enter the next episode in the midst of
this. Its flag is still up, or goes up before it is cleared; the handler takes
the next episode for complete, or the entry is lost.

`Gate` counts what the flags stand for. `episodes_kept` says that the counts and the
flags agree in every run in which no entry is handled between the finding that all
flags are up and the clearing of the flag it raises.
-/

namespace Midsm

open Midsm.Lib

/-- Host 0, and the episodes of the barrier. -/
structure Gate where
  thread : Thread
  /-- Calls of `mi_barrier` on host 0. -/
  calls : Nat
  /-- `ENTER_BARRIER` messages handled, for each client. -/
  entered : Nat → Nat
  /-- `EXIT_BARRIER` messages sent, for each client. -/
  exited : Nat → Nat
  /-- How often `checkBarrierFlags` has found all flags up. -/
  released : Nat

abbrev Gate.flag (g : Gate) (i : Nat) : Bool := g.thread.host.syn.barrierFlags i

def exits (out : Out) (i : Nat) : Nat := (outTo out i).countP Msg.isExit

/-- `checkBarrierFlags` finds all flags up: the scan of the main thread has come to
its end, or the handler of the last entry runs. -/
def Gate.Releases (n : Nat) (g : Gate) : ThreadEvent → Prop
  | .next =>
      match g.thread.stmt with
      | .barrier (.scan i) => n ≤ i
      | _ => False
  | .handler sender .enterBarrier => g.thread.host.syn.LastToEnter n sender
  | _ => False

instance (n : Nat) (g : Gate) (e : ThreadEvent) : Decidable (g.Releases n e) := by
  delta Gate.Releases
  generalize g.thread.stmt = stmt
  cases e with
  | next =>
      cases stmt with
      | barrier stmt => cases stmt <;> dsimp only <;> infer_instance
      | _ => exact instDecidableFalse
  | handler sender msg => cases msg <;> dsimp only <;> infer_instance
  | _ => exact instDecidableFalse

def Gate.after (n : Nat) (g : Gate) (e : ThreadEvent) (t : Thread) (out : Out) : Gate where
  thread := t
  calls := match e with
    | .barrier => g.calls + 1
    | _ => g.calls
  entered := match e with
    | .handler sender .enterBarrier => upd g.entered sender (g.entered sender + 1)
    | _ => g.entered
  exited i := g.exited i + exits out i
  released := if g.Releases n e then g.released + 1 else g.released

/-- What can happen. A client enters once more after it has been let out of every
episode it has entered. While host 0 is in `mi_barrier` it waits for nothing else,
so no other message wakes it. -/
def Gate.Can (n : Nat) (g : Gate) : ThreadEvent → Prop
  | .handler sender .enterBarrier => g.entered sender ≤ g.exited sender
  | .handler sender msg =>
      match g.thread.stmt with
      | .barrier _ => (dispatchMsg n 0 sender msg g.thread.host).1.syn.waitFlag =
          g.thread.host.syn.waitFlag
      | _ => True
  | _ => True

instance (n : Nat) (g : Gate) (e : ThreadEvent) : Decidable (g.Can n e) := by
  delta Gate.Can
  generalize g.thread.stmt = stmt
  cases e with
  | handler sender msg => cases msg <;> cases stmt <;> dsimp only <;> infer_instance
  | _ => exact instDecidableTrue

def gateStep (n : Nat) (g : Gate) (e : ThreadEvent) : Option Gate :=
  if g.Can n e then
    (threadStep n 0 g.thread e).map fun (t, out) => g.after n e t out
  else none

def initGate : Gate := ⟨initThread 0, 0, fun _ => 0, fun _ => 0, 0⟩

/-- From the end of a scan that has found all flags up to the last clearing. -/
def Stmt.Releasing : Stmt → Prop
  | .barrier .info | .barrier (.exit _) | .barrier (.clear _) => True
  | _ => False

/-- The episodes are kept apart. -/
structure Gate.Kept (n : Nat) (g : Gate) : Prop where
  /-- No `EXIT_BARRIER` of an episode is sent before host 0 has called for it, -/
  called : ∀ i, 0 < i → i < n → g.exited i ≤ g.calls
  /-- or before its receiver has entered the episode. -/
  entered : ∀ i, 0 < i → i < n → g.exited i ≤ g.entered i
  /-- Each client is sent one `EXIT_BARRIER` for each release, -/
  once : ¬ g.thread.stmt.Releasing → ∀ i, 0 < i → i < n → g.exited i = g.released
  /-- and host 0 leaves an episode when it has been released. -/
  left : g.thread.stmt = .idle → g.released = g.calls
  /-- An entry to the next episode is flagged when the release has ended. -/
  flagged : ¬ g.thread.stmt.Releasing → ∀ i, 0 < i → i < n →
    (g.flag i = true ↔ g.entered i = g.released + 1)
  /-- An episode that all hosts have entered does not stay unreleased. -/
  prompt : (g.thread.stmt = .idle ∨ g.thread.stmt = .barrier .spin) →
    ∃ i < n, g.flag i = false

/-- No entry is handled between the finding that all flags are up and the clearing
of the flag it raises, and none that would make the rest of a scan find all flags up
that a handler has cleared in the meantime. -/
def AfterClearing (n : Nat) (g : Gate) : ThreadEvent → Prop
  | .handler sender .enterBarrier =>
      match g.thread.stmt with
      | .barrier .info | .barrier (.exit _) => False
      | .barrier (.clear i) => sender < i
      | .barrier (.scan i) => g.flag 0 = false →
          ∃ k < n, i ≤ k ∧ k ≠ sender ∧ g.flag k = false
      | _ => True
  | _ => True

instance (n : Nat) (g : Gate) (e : ThreadEvent) : Decidable (AfterClearing n g e) := by
  delta AfterClearing
  generalize g.thread.stmt = stmt
  cases e with
  | handler sender msg =>
      cases msg with
      | enterBarrier =>
          cases stmt with
          | barrier stmt => cases stmt <;> dsimp only <;> infer_instance
          | _ => exact instDecidableTrue
      | _ => exact instDecidableTrue
  | _ => exact instDecidableTrue

/-- A client has been let out of all episodes that were released; its flag tells
whether it has entered the next. -/
structure InStep (flag : Bool) (entered exited released : Nat) : Prop where
  letOut : exited = released
  next : entered = released ∨ entered = released + 1
  up : flag = true ↔ entered = released + 1

def Gate.Outside (n : Nat) (g : Gate) : Prop :=
  ∀ i, 0 < i → i < n → InStep (g.flag i) (g.entered i) (g.exited i) g.released

/-- Flag 0 tells whether host 0 has entered an episode that is not released. -/
def Gate.Counted (g : Gate) : Prop :=
  (g.flag 0 = true ∧ g.calls = g.released + 1) ∨ (g.flag 0 = false ∧ g.calls = g.released)

/-- The invariant, for each place where the main thread can be. -/
def Gate.Inv (n : Nat) (g : Gate) : Prop :=
  match g.thread.stmt with
  | .idle | .lock _ _ => g.Outside n ∧ g.flag 0 = false ∧ g.calls = g.released
  | .barrier .enter => g.Outside n ∧ g.flag 0 = false ∧ g.calls = g.released + 1
  | .barrier (.stamp _) => g.Outside n ∧ g.Counted
  | .barrier (.scan i) => g.Outside n ∧ g.Counted ∧
      (g.flag 0 = true → ∀ k < i, k < n → g.flag k = true) ∧
      (g.flag 0 = false → ∃ k < n, i ≤ k ∧ g.flag k = false)
  | .barrier .flag => g.Outside n ∧ g.Counted ∧ ∃ k < n, g.flag k = false
  | .barrier .spin => g.Outside n ∧ g.Counted ∧ (∃ k < n, g.flag k = false) ∧
      (g.thread.host.syn.waitFlag = false → g.flag 0 = false)
  | .barrier .info => g.calls = g.released ∧ (∀ k < n, g.flag k = true) ∧
      ∀ i, 0 < i → i < n → g.entered i = g.released ∧ g.exited i + 1 = g.released
  | .barrier (.exit k) => g.calls = g.released ∧ (∀ k < n, g.flag k = true) ∧
      ∀ i, 0 < i → i < n → g.entered i = g.released ∧
        (i < k → g.exited i = g.released) ∧ (k ≤ i → g.exited i + 1 = g.released)
  | .barrier (.clear k) => g.calls = g.released ∧ (0 < k → g.flag 0 = false) ∧
      (∀ i, 0 < i → i < n → i < k →
        InStep (g.flag i) (g.entered i) (g.exited i) g.released) ∧
      ∀ i, 0 < i → i < n → k ≤ i → g.entered i = g.released ∧ g.exited i = g.released

section

variable {n : Nat} {g : Gate}

theorem Gate.Inv.init : initGate.Inv n :=
  ⟨fun _ _ _ => ⟨rfl, Or.inl rfl, nofun, nofun⟩, rfl, rfl⟩

/-! ## Reading a gate -/

theorem exits_of {out : Out} (h : ∀ x ∈ out, x.2.isExit = false) (i : Nat) :
    exits out i = 0 := by
  refine List.countP_eq_zero.mpr fun msg hm => ?_
  rw [h (i, msg) (mem_outTo.mp hm)]
  exact Bool.false_ne_true

/-- A step that the counts do not notice. -/
theorem Gate.after_same {e : ThreadEvent} {t : Thread} {out : Out}
    (hcall : e ≠ .barrier) (henter : ∀ i, e ≠ .handler i .enterBarrier)
    (hr : ¬ g.Releases n e) (hout : ∀ x ∈ out, x.2.isExit = false) :
    g.after n e t out = { g with thread := t } := by
  unfold Gate.after
  rw [if_neg hr]
  congr 1
  · split
    · exact absurd rfl hcall
    · rfl
  · split
    · exact absurd rfl (henter _)
    · rfl
  · funext i
    rw [exits_of hout, Nat.add_zero]

/-- The invariant reads the flags and the counts, and `waitFlag` in the barrier. -/
theorem Gate.Inv.congr {t : Thread} (h : g.Inv n) (hstmt : t.stmt = g.thread.stmt)
    (hflags : t.host.syn.barrierFlags = g.thread.host.syn.barrierFlags)
    (hwait : g.thread.stmt = .barrier .spin →
      t.host.syn.waitFlag = g.thread.host.syn.waitFlag) :
    Gate.Inv n { g with thread := t } := by
  obtain ⟨⟨⟨mem, ⟨locks, waitFlag, myLocks, flags, last⟩, pc, ret⟩, stmt⟩, counts⟩ := g
  obtain ⟨⟨mem', ⟨locks', waitFlag', myLocks', flags', last'⟩, pc', ret'⟩, stmt'⟩ := t
  obtain rfl : stmt' = stmt := hstmt
  obtain rfl : flags' = flags := hflags
  cases stmt' with
  | idle => exact h
  | lock => exact h
  | barrier stmt =>
      cases stmt with
      | spin =>
          obtain rfl : waitFlag' = waitFlag := hwait rfl
          exact h
      | _ => exact h

theorem Gate.Outside.kept (ho : g.Outside n) (hc : g.released ≤ g.calls)
    (hleft : g.thread.stmt = .idle → g.released = g.calls)
    (hprompt : (g.thread.stmt = .idle ∨ g.thread.stmt = .barrier .spin) →
      ∃ i < n, g.flag i = false) : g.Kept n where
  called i h0 hi := by
    rw [(ho i h0 hi).letOut]
    exact hc
  entered i h0 hi := by
    rw [(ho i h0 hi).letOut]
    rcases (ho i h0 hi).next with he | he <;> omega
  once _ i h0 hi := (ho i h0 hi).letOut
  left := hleft
  flagged _ i h0 hi := (ho i h0 hi).up
  prompt := hprompt

/-- In the midst of a release. -/
theorem Gate.kept_of_releasing (hr : g.thread.stmt.Releasing)
    (hcalled : ∀ i, 0 < i → i < n → g.exited i ≤ g.calls)
    (hentered : ∀ i, 0 < i → i < n → g.exited i ≤ g.entered i) : g.Kept n where
  called := hcalled
  entered := hentered
  once hno := absurd hr hno
  left hidle := by
    rw [hidle] at hr
    exact hr.elim
  flagged hno := absurd hr hno
  prompt hp := by
    rcases hp with hp | hp <;> rw [hp] at hr <;> exact hr.elim

/-- What the invariant says of the counts. -/
theorem Gate.Inv.kept (hn : 0 < n) (h : g.Inv n) : g.Kept n := by
  obtain ⟨⟨host, stmt⟩, calls, entered, exited, released⟩ := g
  cases stmt with
  | idle =>
      obtain ⟨ho, hf, hc⟩ := h
      exact ho.kept (Nat.le_of_eq hc.symm) (fun _ => hc.symm) fun _ => ⟨0, hn, hf⟩
  | lock l stmt =>
      obtain ⟨ho, hf, hc⟩ := h
      exact ho.kept (Nat.le_of_eq hc.symm) (fun _ => hc.symm) fun _ => ⟨0, hn, hf⟩
  | barrier stmt =>
      have hcount : Gate.Counted ⟨⟨host, .barrier stmt⟩, calls, entered, exited, released⟩ →
          released ≤ calls := by
        rintro (⟨-, hc⟩ | ⟨-, hc⟩)
        · exact Nat.le_of_lt (Nat.lt_of_lt_of_eq (Nat.lt_succ_self _) hc.symm)
        · exact Nat.le_of_eq hc.symm
      cases stmt with
      | enter =>
          obtain ⟨ho, -, hc⟩ := h
          exact ho.kept (Nat.le_of_lt (Nat.lt_of_lt_of_eq (Nat.lt_succ_self _) hc.symm))
            nofun nofun
      | stamp i => exact h.1.kept (hcount h.2) nofun nofun
      | scan i => exact h.1.kept (hcount h.2.1) nofun nofun
      | flag => exact h.1.kept (hcount h.2.1) nofun nofun
      | spin => exact h.1.kept (hcount h.2.1) nofun fun _ => h.2.2.1
      | info =>
          obtain ⟨hc, -, hi⟩ := h
          dsimp only at hc hi
          refine kept_of_releasing trivial (fun i h0 hlt => ?_) fun i h0 hlt => ?_
          · have := (hi i h0 hlt).2
            dsimp only
            omega
          · have := hi i h0 hlt
            dsimp only
            omega
      | exit k =>
          obtain ⟨hc, -, hi⟩ := h
          dsimp only at hc hi
          refine kept_of_releasing trivial (fun i h0 hlt => ?_) fun i h0 hlt => ?_
          · obtain ⟨-, hlow, hhigh⟩ := hi i h0 hlt
            dsimp only
            omega
          · obtain ⟨he, hlow, hhigh⟩ := hi i h0 hlt
            dsimp only
            omega
      | clear k =>
          obtain ⟨hc, -, hlow, hhigh⟩ := h
          dsimp only at hc hlow hhigh
          refine kept_of_releasing trivial (fun i h0 hlt => ?_) fun i h0 hlt => ?_
          · rcases Nat.lt_or_ge i k with hik | hik
            · have := (hlow i h0 hlt hik).letOut
              dsimp only
              omega
            · have := (hhigh i h0 hlt hik).2
              dsimp only
              omega
          · rcases Nat.lt_or_ge i k with hik | hik
            · obtain ⟨hx, he, -⟩ := hlow i h0 hlt hik
              dsimp only
              omega
            · have := hhigh i h0 hlt hik
              dsimp only
              omega

/-! ## The statements -/

/-- `mi_lock` does not touch the barrier. -/
theorem lockStmt_barrier {me : Nat} {l : Int} {stmt : LockStmt} {h : Host} {t : Thread}
    {out : Out} (he : lockStmt n me l h stmt = some (t, out)) :
    t.host.syn.barrierFlags = h.syn.barrierFlags ∧ (∀ x ∈ out, x.2.isExit = false) ∧
      ∀ s, t.stmt ≠ .barrier s := by
  cases stmt with
  | fetch path hostid =>
      dsimp only [lockStmt] at he
      split at he
      · next hf =>
          cases he
          refine ⟨rfl, fun x hx => ?_, nofun⟩
          unfold fetchWritenoticeAndInterval at hf
          split at hf
          · cases hf
          · split at hf
            · cases hf
            · cases hf
              rw [List.mem_singleton.mp hx]
              rfl
      · cases he
        exact ⟨rfl, nofun, nofun⟩
  | _ =>
      dsimp only [lockStmt, Thread.leave] at he
      repeat' split at he
      all_goals
        cases he
        try exact ⟨rfl, nofun, nofun⟩

theorem returnAllBarrierInfo_exits (n : Nat) (m : Mem) :
    ∀ x ∈ (returnAllBarrierInfo n m).2, x.2.isExit = false := by
  intro x hx
  obtain ⟨i, -, hx⟩ := List.mem_flatMap.mp hx
  have hinfo := (exitInfo_spec _ _ _ _ x hx).2
  cases hmsg : x.2 <;> rw [hmsg] at hinfo <;> first | rfl | cases hinfo

theorem exits_exitBarrier (k i : Nat) :
    exits [(k, .exitBarrier)] i = if i = k then 1 else 0 := by
  unfold exits
  split
  · next hik =>
      rw [hik, outTo_cons_self]
      rfl
  · next hik =>
      rw [outTo_cons_ne (Ne.symm hik)]
      rfl

theorem setFlag_flags (i : Nat) (up : Bool) (h : Host) (j : Nat) :
    (h.setFlag i up).syn.barrierFlags j = if j = i then up else h.syn.barrierFlags j := rfl

section

variable {host : Host} {calls released : Nat} {entered exited : Nat → Nat}

theorem Gate.Inv.enter (h : Gate.Inv n ⟨⟨host, .barrier .enter⟩, calls, entered, exited, released⟩) :
    Gate.Inv n
      ⟨⟨host.setFlag 0 true, .barrier (.stamp 0)⟩, calls, entered, exited, released⟩ := by
  obtain ⟨ho, -, hc⟩ := h
  refine ⟨fun i h0 hi => ?_, Or.inl ⟨rfl, hc⟩⟩
  have hs := ho i h0 hi
  dsimp only [Gate.flag]
  rwa [setFlag_flags, if_neg (by omega)]

theorem Gate.Inv.scan_up {i : Nat} (hi : i < n) (hup : host.syn.barrierFlags i = true)
    (h : Gate.Inv n ⟨⟨host, .barrier (.scan i)⟩, calls, entered, exited, released⟩) :
    Gate.Inv n ⟨⟨host, .barrier (.scan (i + 1))⟩, calls, entered, exited, released⟩ := by
  obtain ⟨ho, hc, hlow, hhigh⟩ := h
  refine ⟨ho, hc, fun hf k hk hkn => ?_, fun hf => ?_⟩
  · rcases Nat.lt_succ_iff_lt_or_eq.mp hk with hk | rfl
    · exact hlow hf k hk hkn
    · exact hup
  · obtain ⟨k, hkn, hik, hdown⟩ := hhigh hf
    refine ⟨k, hkn, Nat.lt_of_le_of_ne hik ?_, hdown⟩
    rintro rfl
    cases hup.symm.trans hdown

/-- The scan has come to its end: host 0 and all clients have entered. -/
theorem Gate.Inv.scan_end {i : Nat} (hi : n ≤ i)
    (h : Gate.Inv n ⟨⟨host, .barrier (.scan i)⟩, calls, entered, exited, released⟩) :
    Gate.Inv n ⟨⟨host, .barrier .info⟩, calls, entered, exited, released + 1⟩ := by
  obtain ⟨ho, hc, hlow, hhigh⟩ := h
  rcases hc with ⟨hf, hc⟩ | ⟨hf, -⟩
  · have hall : ∀ k < n, host.syn.barrierFlags k = true := fun k hk =>
      hlow hf k (Nat.lt_of_lt_of_le hk hi) hk
    refine ⟨hc, hall, fun i h0 hi => ?_⟩
    obtain ⟨hx, -, hup⟩ := ho i h0 hi
    exact ⟨hup.mp (hall i hi), congrArg Nat.succ hx⟩
  · obtain ⟨k, hkn, hik, -⟩ := hhigh hf
    exact absurd hkn (by omega)

theorem Gate.Inv.exit {k : Nat}
    (h : Gate.Inv n ⟨⟨host, .barrier (.exit k)⟩, calls, entered, exited, released⟩) :
    Gate.Inv n ⟨⟨host, .barrier (.exit (k + 1))⟩, calls, entered,
      fun i => exited i + exits [(k, .exitBarrier)] i, released⟩ := by
  obtain ⟨hc, hall, hcl⟩ := h
  refine ⟨hc, hall, fun i h0 hi => ?_⟩
  obtain ⟨he, hlow, hhigh⟩ := hcl i h0 hi
  dsimp only at hlow hhigh ⊢
  rw [exits_exitBarrier]
  refine ⟨he, fun hik => ?_, fun hki => ?_⟩
  · split <;> omega
  · rw [if_neg (by omega)]
    exact hhigh (by omega)

theorem Gate.Inv.clear {k : Nat}
    (h : Gate.Inv n ⟨⟨host, .barrier (.clear k)⟩, calls, entered, exited, released⟩) :
    Gate.Inv n
      ⟨⟨host.setFlag k false, .barrier (.clear (k + 1))⟩, calls, entered, exited, released⟩ := by
  obtain ⟨hc, hzero, hlow, hhigh⟩ := h
  refine ⟨hc, fun _ => ?_, fun i h0 hi hik => ?_, fun i h0 hi hki =>
    hhigh i h0 hi (by omega)⟩
  · dsimp only [Gate.flag]
    rw [setFlag_flags]
    split
    · rfl
    · exact hzero (by omega)
  · dsimp only [Gate.flag]
    rw [setFlag_flags]
    split
    · next he =>
        obtain ⟨hent, hx⟩ := hhigh i h0 hi (Nat.le_of_eq he.symm)
        dsimp only at hent hx
        exact ⟨hx, Or.inl hent, nofun, fun hnext => by omega⟩
    · exact hlow i h0 hi (by omega)

theorem Gate.Inv.barrierStmt (hn : 0 < n) {stmt : BarrierStmt} {t : Thread} {out : Out}
    (h : Gate.Inv n ⟨⟨host, .barrier stmt⟩, calls, entered, exited, released⟩)
    (he : barrierStmt n 0 host stmt = some (t, out)) :
    (Gate.after n ⟨⟨host, .barrier stmt⟩, calls, entered, exited, released⟩ .next t out).Inv n := by
  have hsame : ¬ Gate.Releases n ⟨⟨host, .barrier stmt⟩, calls, entered, exited, released⟩ .next →
      (∀ x ∈ out, x.2.isExit = false) →
      Gate.after n ⟨⟨host, .barrier stmt⟩, calls, entered, exited, released⟩ .next t out =
        ⟨t, calls, entered, exited, released⟩ := fun hr hout =>
    Gate.after_same (fun h => by cases h) (fun _ h => by cases h) hr hout
  cases stmt with
  | enter =>
      cases he
      rw [hsame id fun _ hx => by cases hx]
      exact h.enter
  | stamp i =>
      dsimp only [Midsm.barrierStmt] at he
      split at he
      · cases he
        rw [hsame id fun _ hx => by cases hx]
        exact h
      · cases he
        rw [hsame id fun _ hx => by cases hx]
        exact ⟨h.1, h.2, fun _ k hk => absurd hk (Nat.not_lt_zero k), fun hf =>
          ⟨0, hn, Nat.le_refl 0, hf⟩⟩
  | scan i =>
      dsimp only [Midsm.barrierStmt] at he
      split at he
      · next hi =>
          cases he
          rw [hsame (Nat.not_le.mpr hi) fun _ hx => by cases hx]
          split
          · next hup => exact h.scan_up hi hup
          · next hdown => exact ⟨h.1, h.2.1, i, hi, by simpa using hdown⟩
      · next hi =>
          cases he
          have hr : Gate.Releases n
              ⟨⟨host, .barrier (.scan i)⟩, calls, entered, exited, released⟩ .next :=
            Nat.not_lt.mp hi
          unfold Gate.after
          rw [if_pos hr]
          exact h.scan_end (Nat.not_lt.mp hi)
  | info =>
      cases he
      rw [hsame id (returnAllBarrierInfo_exits n host.mem)]
      obtain ⟨hc, hall, hcl⟩ := h
      exact ⟨hc, hall, fun i h0 hi => ⟨(hcl i h0 hi).1, fun h1 => absurd h1 (by omega),
        fun _ => (hcl i h0 hi).2⟩⟩
  | exit k =>
      dsimp only [Midsm.barrierStmt] at he
      split at he
      · cases he
        have hr : ¬ Gate.Releases n
            ⟨⟨host, .barrier (.exit k)⟩, calls, entered, exited, released⟩ .next := id
        unfold Gate.after
        rw [if_neg hr]
        exact h.exit
      · next hk =>
          cases he
          rw [hsame id fun _ hx => by cases hx]
          obtain ⟨hc, hall, hcl⟩ := h
          exact ⟨hc, fun h0 => absurd h0 (Nat.lt_irrefl 0), fun i _ _ h0 =>
            absurd h0 (Nat.not_lt_zero i), fun i h0 hi _ =>
            ⟨(hcl i h0 hi).1, (hcl i h0 hi).2.1 (by omega)⟩⟩
  | clear k =>
      dsimp only [Midsm.barrierStmt, Thread.leave] at he
      split at he
      · cases he
        rw [hsame id fun _ hx => by cases hx]
        exact h.clear
      · next hk =>
          cases he
          rw [hsame id fun _ hx => by cases hx]
          obtain ⟨hc, hzero, hlow, -⟩ := h
          exact ⟨fun i h0 hi => hlow i h0 hi (by omega), hzero (by omega), hc⟩
  | flag =>
      cases he
      rw [hsame id fun _ hx => by cases hx]
      obtain ⟨ho, hc, hdown⟩ := h
      exact ⟨ho, hc, hdown, fun h => by cases h⟩
  | spin =>
      dsimp only [Midsm.barrierStmt, Thread.leave] at he
      split at he
      · cases he
      · next hwait =>
          cases he
          rw [hsame id fun _ hx => by cases hx]
          obtain ⟨ho, hc, -, hf⟩ := h
          have hf := hf (by simpa using hwait)
          refine ⟨ho, hf, ?_⟩
          rcases hc with ⟨hup, -⟩ | ⟨-, hc⟩
          · cases hf.symm.trans hup
          · exact hc

/-! ## The handlers -/

/-- What the handler of an entry does. -/
theorem enterBarrier_cases (sender : Nat) (h : Host) :
    (¬ h.syn.LastToEnter n sender ∧
      dispatchMsg n 0 sender .enterBarrier h = (h.setFlag sender true, [])) ∨
    (h.syn.LastToEnter n sender ∧
      (∀ k < n, (dispatchMsg n 0 sender .enterBarrier h).1.syn.barrierFlags k = false) ∧
      ∀ i, 0 < i → i < n → exits (dispatchMsg n 0 sender .enterBarrier h).2 i = 1) := by
  show (_ ∧ handleEnterBarrierMsg n 0 sender h = _) ∨
    (_ ∧ (∀ k < n, (handleEnterBarrierMsg n 0 sender h).1.syn.barrierFlags k = false) ∧
      ∀ i, 0 < i → i < n → exits (handleEnterBarrierMsg n 0 sender h).2 i = 1)
  have hset : ({ h with syn := { h.syn with barrierFlags := upd h.syn.barrierFlags sender true } } :
      Host) = h.setFlag sender true := rfl
  unfold handleEnterBarrierMsg
  dsimp only
  rw [hset]
  rcases checkBarrierFlags_cases n 0 (h.setFlag sender true) with ⟨he, hdown⟩ | ⟨-, hall, he⟩
  · left
    rw [he]
    refine ⟨fun hlast => ?_, rfl⟩
    obtain ⟨k, hk, hdown⟩ := hdown rfl
    rw [setFlag_flags] at hdown
    split at hdown
    · cases hdown
    · next hne => cases (hlast k hk hne).symm.trans hdown
  · right
    rw [he]
    refine ⟨fun k hk hne => ?_, fun k hk => if_pos hk, fun i h0 hi => ?_⟩
    · have hup := hall k hk
      rwa [setFlag_flags, if_neg hne] at hup
    · show exits ((h.setFlag sender true).release n).2 i = 1
      unfold exits
      rw [release_outTo _ h0 hi, List.countP_append]
      have hinfo : (outTo (returnAllBarrierInfo n (h.setFlag sender true).mem).2 i).countP
          Msg.isExit = 0 := exits_of (returnAllBarrierInfo_exits n _) i
      rw [hinfo]
      rfl

/-- A client that has entered. -/
theorem InStep.enter {ent x r : Nat} {up : Bool} (hs : InStep up ent x r) (hcan : ent ≤ x) :
    InStep true (ent + 1) x r := by
  obtain ⟨hx, hent, -⟩ := hs
  exact ⟨hx, by omega, fun _ => by omega, fun _ => rfl⟩

/-- A client after the release of an episode it has entered. -/
theorem InStep.release {ent x r : Nat} {up : Bool} (hs : InStep up ent x r)
    (hent : ent = r + 1) : InStep false ent (x + 1) (r + 1) :=
  ⟨congrArg Nat.succ hs.letOut, Or.inl hent, nofun, fun hnext => by omega⟩

/-- An entry that leaves some flag down. -/
theorem Gate.Inv.flagged {stmt : Stmt} {sender : Nat} (h0 : sender ≠ 0)
    (h : Gate.Inv n ⟨⟨host, stmt⟩, calls, entered, exited, released⟩)
    (hcan : entered sender ≤ exited sender) (hlast : ¬ host.syn.LastToEnter n sender)
    (hok : AfterClearing n ⟨⟨host, stmt⟩, calls, entered, exited, released⟩
      (.handler sender .enterBarrier)) :
    Gate.Inv n ⟨⟨host.setFlag sender true, stmt⟩, calls,
      upd entered sender (entered sender + 1), exited, released⟩ := by
  have hzero : (host.setFlag sender true).syn.barrierFlags 0 = host.syn.barrierFlags 0 :=
    if_neg (Ne.symm h0)
  have hdown : ∃ k < n, (host.setFlag sender true).syn.barrierFlags k = false := by
    simp only [Syn.LastToEnter, not_forall] at hlast
    obtain ⟨k, hk, hne, hdown⟩ := hlast
    refine ⟨k, hk, ?_⟩
    rw [setFlag_flags, if_neg hne]
    simpa using hdown
  have hset : ∀ i, InStep (host.syn.barrierFlags i) (entered i) (exited i) released →
      InStep ((host.setFlag sender true).syn.barrierFlags i)
        (upd entered sender (entered sender + 1) i) (exited i) released := by
    intro i hs
    rw [setFlag_flags]
    split
    · next he =>
        subst he
        rw [upd_self]
        exact hs.enter hcan
    · next hne =>
        rw [upd_ne hne]
        exact hs
  have hout : Gate.Outside n ⟨⟨host, stmt⟩, calls, entered, exited, released⟩ →
      Gate.Outside n ⟨⟨host.setFlag sender true, stmt⟩, calls,
        upd entered sender (entered sender + 1), exited, released⟩ :=
    fun ho i hi hin => hset i (ho i hi hin)
  have hcount : Gate.Counted ⟨⟨host, stmt⟩, calls, entered, exited, released⟩ →
      Gate.Counted ⟨⟨host.setFlag sender true, stmt⟩, calls,
        upd entered sender (entered sender + 1), exited, released⟩ := fun hc => by
    unfold Gate.Counted Gate.flag
    rw [hzero]
    exact hc
  cases stmt with
  | idle => exact ⟨hout h.1, hzero.trans h.2.1, h.2.2⟩
  | lock l stmt => exact ⟨hout h.1, hzero.trans h.2.1, h.2.2⟩
  | barrier stmt =>
      cases stmt with
      | enter => exact ⟨hout h.1, hzero.trans h.2.1, h.2.2⟩
      | stamp i => exact ⟨hout h.1, hcount h.2⟩
      | scan i =>
          obtain ⟨ho, hc, hlow, -⟩ := h
          refine ⟨hout ho, hcount hc, fun hf k hk hkn => ?_, fun hf => ?_⟩
          · dsimp only [Gate.flag]
            rw [setFlag_flags]
            split
            · rfl
            · exact hlow (hzero.symm.trans hf) k hk hkn
          · obtain ⟨k, hkn, hik, hne, hk⟩ := hok (hzero.symm.trans hf)
            refine ⟨k, hkn, hik, ?_⟩
            dsimp only [Gate.flag]
            rw [setFlag_flags, if_neg hne]
            exact hk
      | info => exact hok.elim
      | exit k => exact hok.elim
      | clear k =>
          obtain ⟨hc, hf, hlow, hhigh⟩ := h
          have hk : sender < k := hok
          refine ⟨hc, fun h0 => hzero.trans (hf h0), fun i hi hin hik =>
            hset i (hlow i hi hin hik), fun i hi hin hik => ?_⟩
          dsimp only
          rw [upd_ne (by omega)]
          exact hhigh i hi hin hik
      | flag => exact ⟨hout h.1, hcount h.2.1, hdown⟩
      | spin =>
          obtain ⟨ho, hc, -, hwait⟩ := h
          exact ⟨hout ho, hcount hc, hdown, fun hw => hzero.trans (hwait hw)⟩

/-- The last entry of an episode: the handler releases it. -/
theorem Gate.Inv.completed (hn : 0 < n) {stmt : Stmt} {sender : Nat} {host' : Host}
    {out : Out} (h0 : sender ≠ 0) (hsender : sender < n)
    (h : Gate.Inv n ⟨⟨host, stmt⟩, calls, entered, exited, released⟩)
    (hcan : entered sender ≤ exited sender) (hlast : host.syn.LastToEnter n sender)
    (hok : AfterClearing n ⟨⟨host, stmt⟩, calls, entered, exited, released⟩
      (.handler sender .enterBarrier))
    (hdown : ∀ k < n, host'.syn.barrierFlags k = false)
    (hexit : ∀ i, 0 < i → i < n → exits out i = 1) :
    Gate.Inv n ⟨⟨host', stmt⟩, calls, upd entered sender (entered sender + 1),
      fun i => exited i + exits out i, released + 1⟩ := by
  have hup : host.syn.barrierFlags 0 = true := hlast 0 hn (Ne.symm h0)
  have hout : Gate.Outside n ⟨⟨host, stmt⟩, calls, entered, exited, released⟩ →
      Gate.Outside n ⟨⟨host', stmt⟩, calls, upd entered sender (entered sender + 1),
        fun i => exited i + exits out i, released + 1⟩ := by
    intro ho i hi hin
    have hs := ho i hi hin
    dsimp only [Gate.flag] at hs ⊢
    rw [hdown i hin, hexit i hi hin]
    by_cases he : i = sender
    · subst he
      rw [upd_self]
      have hnext := (hs.enter hcan).next
      exact (hs.enter hcan).release (by have := hs.letOut; have := hs.next; omega)
    · rw [upd_ne he]
      exact hs.release (hs.up.mp (hlast i hin he))
  have hcount : Gate.Counted ⟨⟨host, stmt⟩, calls, entered, exited, released⟩ →
      Gate.Counted ⟨⟨host', stmt⟩, calls, upd entered sender (entered sender + 1),
        fun i => exited i + exits out i, released + 1⟩ := by
    rintro (⟨-, hc⟩ | ⟨hf, -⟩)
    · exact Or.inr ⟨hdown 0 hn, hc⟩
    · cases hup.symm.trans hf
  cases stmt with
  | idle => cases hup.symm.trans h.2.1
  | lock l stmt => cases hup.symm.trans h.2.1
  | barrier stmt =>
      cases stmt with
      | enter => cases hup.symm.trans h.2.1
      | stamp i => exact ⟨hout h.1, hcount h.2⟩
      | scan i =>
          obtain ⟨ho, hc, hlow, -⟩ := h
          refine ⟨hout ho, hcount hc, fun hf => ?_, fun _ => ?_⟩
          · cases (hdown 0 hn).symm.trans hf
          · -- past the last flag the sender's own would be up, and it could not enter
            rcases Nat.lt_or_ge i n with hi | hi
            · exact ⟨i, hi, Nat.le_refl i, hdown i hi⟩
            · have hs := ho sender (Nat.pos_of_ne_zero h0) hsender
              have hnext := hs.up.mp (hlow hup sender (by omega) hsender)
              have hx := hs.letOut
              dsimp only at hnext hx
              omega
      | info => exact hok.elim
      | exit k => exact hok.elim
      | clear k =>
          have hk : sender < k := hok
          cases hup.symm.trans (h.2.1 (by omega))
      | flag => exact ⟨hout h.1, hcount h.2.1, 0, hn, hdown 0 hn⟩
      | spin => exact ⟨hout h.1, hcount h.2.1, ⟨0, hn, hdown 0 hn⟩, fun _ => hdown 0 hn⟩

theorem Gate.Inv.enterBarrier (hn : 0 < n) {stmt : Stmt} {sender : Nat} {t : Thread} {out : Out}
    (h : Gate.Inv n ⟨⟨host, stmt⟩, calls, entered, exited, released⟩)
    (hcan : entered sender ≤ exited sender)
    (hok : AfterClearing n ⟨⟨host, stmt⟩, calls, entered, exited, released⟩
      (.handler sender .enterBarrier))
    (hs : threadStep n 0 ⟨host, stmt⟩ (.handler sender .enterBarrier) = some (t, out)) :
    (Gate.after n ⟨⟨host, stmt⟩, calls, entered, exited, released⟩
      (.handler sender .enterBarrier) t out).Inv n := by
  obtain ⟨-, hs⟩ := threadStep_event hs
  dsimp only [Thread.event] at hs
  split at hs
  · next hsender =>
      cases hs
      unfold Gate.after
      rcases enterBarrier_cases (n := n) sender host with
        ⟨hlast, he⟩ | ⟨hlast, hdown, hexit⟩
      · have hr : ¬ Gate.Releases n ⟨⟨host, stmt⟩, calls, entered, exited, released⟩
            (.handler sender .enterBarrier) := hlast
        rw [if_neg hr, he]
        exact h.flagged hsender.2 hcan hlast hok
      · have hr : Gate.Releases n ⟨⟨host, stmt⟩, calls, entered, exited, released⟩
            (.handler sender .enterBarrier) := hlast
        rw [if_pos hr]
        exact h.completed hn hsender.2 hsender.1 hcan hlast hok hdown hexit
  · cases hs

end

theorem isExit_of_cls {msg : Msg} (h : msg.cls ≠ .barrier) : msg.isExit = false := by
  cases msg <;> first | rfl | exact absurd rfl h

/-- Any other message. -/
theorem dispatch_barrier (n sender : Nat) {msg : Msg} (h : Host) (hmsg : msg ≠ .enterBarrier) :
    (dispatchMsg n 0 sender msg h).1.syn.barrierFlags = h.syn.barrierFlags ∧
      ∀ x ∈ (dispatchMsg n 0 sender msg h).2, x.2.isExit = false := by
  constructor
  · have hc := dispatch_syn n 0 sender msg h
    generalize (dispatchMsg n 0 sender msg h).1.syn = s' at hc ⊢
    cases hc with
    | quiet => rfl
    | grasp l => exact (graspLock_only n 0 l sender h.syn).barrierFlags
    | free l _ => exact (freeLock_only n 0 l sender h.syn).barrierFlags
    | hand l _ => exact (freeLock_only n 0 l sender h.syn).barrierFlags
    | grant => rfl
    | flag => exact absurd rfl hmsg
    | release => exact absurd rfl hmsg
    | exit => rfl
  · cases msg with
    | acqLock l =>
        exact fun x hx => isExit_of_cls ((handleAcquireMsg_frame n 0 l sender h).2.out x hx)
    | rlsLock l =>
        show ∀ x ∈ (handleReleaseMsg n 0 sender l h).2, x.2.isExit = false
        unfold handleReleaseMsg
        split
        · dsimp only
          split
          · split
            · simp
            · intro x hx
              exact isExit_of_cls (by rw [grantLock_cls _ _ x hx]; exact fun h => by cases h)
          · simp
        · simp
    | enterBarrier => exact absurd rfl hmsg
    | fetchPage p =>
        exact fun x hx => isExit_of_cls
          (by rw [(dispatch_quiet n 0 sender h (Or.inl rfl)).out x hx]; exact fun h => by cases h)
    | fetchWnI ts =>
        exact fun x hx => isExit_of_cls
          (by rw [(dispatch_quiet n 0 sender h (Or.inl rfl)).out x hx]; exact fun h => by cases h)
    | fetchDiff p ts =>
        exact fun x hx => isExit_of_cls
          (by rw [(dispatch_quiet n 0 sender h (Or.inl rfl)).out x hx]; exact fun h => by cases h)
    | _ => exact fun _ hx => by cases hx

/-- A segment of a call that is taken whole. -/
theorem exec_barrier {op : Op} {h : Host} {r : Host × Out} (hop : op.Whole n 0)
    (hr : h.exec n 0 op = some r) :
    r.1.syn.barrierFlags = h.syn.barrierFlags ∧ ∀ x ∈ r.2, x.2.isExit = false := by
  have frame : BarrierFrame h r →
      r.1.syn.barrierFlags = h.syn.barrierFlags ∧ ∀ x ∈ r.2, x.2.isExit = false :=
    fun hf => ⟨hf.flags, fun x hx => isExit_of_cls (hf.out x hx)⟩
  cases exec_cases hr with
  | quiet _ _ hq _ _ => exact frame hq.barrierFrame
  | lock l hpc => exact frame ((miLock_cases n 0 l h).barrierFrame hpc)
  | unlock l hpc => exact frame ((miUnlock_cases n 0 l h).barrierFrame hpc)
  | barrier _ => exact absurd rfl hop
  | lockWait l hpc hw => exact frame ((miLockResume_cases n 0 l h).barrierFrame hpc)
  | wniWait l path hpc _ => exact frame (lockReturn_barrierFrame hpc)
  | barrierWait _ _ => exact ⟨rfl, nofun⟩

/-! ## Runs -/

/-- Outside the barrier only the flags matter. -/
theorem Gate.Inv.away {t : Thread} (h : g.Inv n) (hs : ∀ s, g.thread.stmt ≠ .barrier s)
    (ht : ∀ s, t.stmt ≠ .barrier s)
    (hflags : t.host.syn.barrierFlags = g.thread.host.syn.barrierFlags) :
    Gate.Inv n { g with thread := t } := by
  have hh : g.Outside n ∧ g.flag 0 = false ∧ g.calls = g.released := by
    unfold Gate.Inv at h
    split at h
    · exact h
    · exact h
    all_goals exact absurd ‹_› (hs _)
  unfold Gate.Outside Gate.flag at hh
  rw [← hflags] at hh
  unfold Gate.Inv
  dsimp only
  split
  · exact hh
  · exact hh
  all_goals exact absurd ‹_› (ht _)

theorem Thread.idle_of_free {t : Thread} (h : t.Free = true) : t.stmt = .idle := by
  unfold Thread.Free at h
  split at h
  · assumption
  · cases h

theorem Gate.Inv.step (hn : 0 < n) {g' : Gate} {e : ThreadEvent} (h : g.Inv n)
    (hok : AfterClearing n g e) (hs : gateStep n g e = some g') : g'.Inv n := by
  unfold gateStep at hs
  split at hs
  · next hcan =>
      obtain ⟨⟨t, out⟩, ht, rfl⟩ := Option.map_eq_some_iff.mp hs
      obtain ⟨⟨host, stmt⟩, calls, entered, exited, released⟩ := g
      obtain ⟨-, ht'⟩ := threadStep_event ht
      dsimp only at ht' ⊢
      have hsame : e ≠ .barrier → (∀ i, e ≠ .handler i .enterBarrier) →
          ¬ Gate.Releases n ⟨⟨host, stmt⟩, calls, entered, exited, released⟩ e →
          (∀ x ∈ out, x.2.isExit = false) →
          Gate.after n ⟨⟨host, stmt⟩, calls, entered, exited, released⟩ e t out =
            ⟨t, calls, entered, exited, released⟩ := Gate.after_same
      cases e with
      | lock l =>
          dsimp only [Thread.event, Thread.leave] at ht'
          split at ht'
          · next hfree =>
              obtain rfl : stmt = .idle := Thread.idle_of_free hfree.1
              split at ht'
              · cases ht'
                rw [hsame nofun nofun id nofun]
                exact h.away nofun nofun rfl
              · cases ht'
                rw [hsame nofun nofun id nofun]
                exact h.away nofun nofun rfl
          · cases ht'
      | barrier =>
          dsimp only [Thread.event] at ht'
          split at ht'
          · next hfree =>
              obtain rfl : stmt = .idle := Thread.idle_of_free hfree.1
              cases ht'
              obtain ⟨ho, hf, hc⟩ := h
              exact ⟨ho, hf, congrArg Nat.succ hc⟩
          · cases ht'
      | op op =>
          dsimp only [Thread.event] at ht'
          split at ht'
          · split at ht'
            · next hop =>
                obtain ⟨r, hr, he⟩ := Option.map_eq_some_iff.mp ht'
                cases he
                obtain ⟨hflags, hout⟩ := exec_barrier hop hr
                rw [hsame nofun nofun id hout]
                exact h.away nofun nofun hflags
            · cases ht'
          · cases ht'
      | next =>
          cases stmt with
          | idle => cases ht'
          | lock l stmt =>
              replace ht' : lockStmt n 0 l host stmt = some (t, out) := ht'
              obtain ⟨hflags, hout, hstmt⟩ := lockStmt_barrier ht'
              rw [hsame nofun nofun id hout]
              exact h.away nofun hstmt hflags
          | barrier stmt => exact h.barrierStmt hn ht'
      | handler sender msg =>
          by_cases hmsg : msg = .enterBarrier
          · subst hmsg
            exact h.enterBarrier hn hcan hok ht
          · dsimp only [Thread.event] at ht'
            split at ht'
            · cases ht'
              obtain ⟨hflags, hout⟩ := dispatch_barrier n sender host hmsg
              have hr : ¬ Gate.Releases n ⟨⟨host, stmt⟩, calls, entered, exited, released⟩
                  (.handler sender msg) := by
                cases msg <;> first | exact id | exact absurd rfl hmsg
              have henter : ∀ i, ThreadEvent.handler sender msg ≠ .handler i .enterBarrier := by
                intro i he
                cases he
                exact hmsg rfl
              rw [hsame nofun henter hr hout]
              refine h.congr rfl hflags fun hspin => ?_
              obtain rfl : stmt = .barrier .spin := hspin
              cases msg <;> first | exact hcan | exact absurd rfl hmsg
            · cases ht'
  · cases hs

/-- If no entry is handled between the finding that all flags are up and the clearing of
the flag it raises, each episode is released once, not before host 0 has called for it, and
no entry to the next one is lost. -/
theorem episodes_kept (hn : 0 < n) {g : Gate}
    (h : Reach (gateStep n) (AfterClearing n) initGate g) : g.Kept n :=
  Gate.Inv.kept hn (h.invariant .init fun hg hok hs => hg.step hn hok hs)

/-- Host 0 is the last of three to enter, and client 1 enters the next episode while
the flags are cleared, once its own is down. -/
theorem episodes_kept_three :
    ∃ g : Gate, g.Kept 3 ∧ g.released = 1 ∧ g.entered 1 = 2 ∧ g.flag 1 = true := by
  obtain ⟨g, hrun, hp⟩ := exists_reach (gateStep 3) (fun g e => decide (AfterClearing 3 g e))
    (fun _ _ => of_decide_eq_true) initGate
    ([.handler 1 .enterBarrier, .handler 2 .enterBarrier, .barrier] ++
      List.replicate 15 .next ++ [.handler 1 .enterBarrier, .next, .next])
    (fun g : Gate => decide (g.released = 1 ∧ g.entered 1 = 2 ∧ g.flag 1 = true))
    (by decide +kernel)
  exact ⟨g, episodes_kept (by decide) hrun, of_decide_eq_true hp⟩

def Gate.idle (g : Gate) : Bool :=
  match g.thread.stmt with
  | .idle => true
  | _ => false

theorem Gate.idle_iff {g : Gate} : g.idle = true ↔ g.thread.stmt = .idle := by
  unfold Gate.idle
  cases g.thread.stmt <;> simp

/-- Host 0 is the last to enter. Client 1 of two enters again after its `EXIT_BARRIER`:
the flags are all still up, and it is let out of an episode that host 0 has not called
for. Client 2 of three enters again after flag 0 has been cleared: its flag is
cleared with the rest, and the entry is lost. -/
theorem reentry_released_or_lost :
    (∃ g, Reach (gateStep 2) anyStep initGate g ∧ g.calls = 1 ∧ g.exited 1 = 2 ∧
      ¬ g.Kept 2) ∧
    ∃ g, Reach (gateStep 3) anyStep initGate g ∧ g.thread.stmt = .idle ∧ g.entered 2 = 2 ∧
      g.released = 1 ∧ g.flag 2 = false ∧ ¬ g.Kept 3 := by
  constructor
  · obtain ⟨g, hrun, hp⟩ := exists_reach_any (gateStep 2) initGate
      ([.handler 1 .enterBarrier, .barrier] ++ List.replicate 9 .next ++
        [.handler 1 .enterBarrier])
      (fun g : Gate => decide (g.calls = 1 ∧ g.exited 1 = 2)) (by decide +kernel)
    obtain ⟨hc, hx⟩ := of_decide_eq_true hp
    refine ⟨g, hrun, hc, hx, fun hk => ?_⟩
    have := hk.called 1 (by decide) (by decide)
    omega
  · obtain ⟨g, hrun, hp⟩ := exists_reach_any (gateStep 3) initGate
      ([.handler 1 .enterBarrier, .handler 2 .enterBarrier, .barrier] ++
        List.replicate 14 .next ++ [.handler 2 .enterBarrier, .next, .next, .next])
      (fun g : Gate => g.idle && decide (g.entered 2 = 2 ∧ g.released = 1 ∧ g.flag 2 = false))
      (by decide +kernel)
    rw [Bool.and_eq_true, decide_eq_true_eq] at hp
    obtain ⟨hstmt, hent, hr, hf⟩ := hp
    have hstmt : g.thread.stmt = .idle := Gate.idle_iff.mp hstmt
    refine ⟨g, hrun, hstmt, hent, hr, hf, fun hk => ?_⟩
    have hup := (hk.flagged (by rw [hstmt]; exact id) 2 (by decide) (by decide)).mpr
      (by rw [hent, hr])
    cases hf.symm.trans hup

end

end Midsm
