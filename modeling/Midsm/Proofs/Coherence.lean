import Midsm.Proofs.InfoMessages
import Midsm.Proofs.Outset

/-!
# Single-lock coherence

All hosts have allocated a page, and from then on they lock one lock, read and write one
word of the page, and unlock. Then a read in a section returns what the section before
wrote, as long as no host stores to its page after it has sent the page out in `WRITE`
state: `grantPage` leaves such a page writable, so that store makes no new notice. A
`GRANT_WN_I` has to fit in a message, as everywhere.

`Scene` is preserved by every such step, so every reachable system is at some stage of some
story. The history is a ghost: which host is inside, what the word was last set to, and
whose page was sent since it was opened.
-/

namespace Midsm

open Midsm.Lib

/-! ## One segment of the main thread -/

section

variable {n p o len : Nat} {l : Int} {y : Story} {holder walker : Option Nat} {fl : Flight}
  {s : Sys} {a b : Nat} {r : Host × Out} {op : Op} {msg : Msg} {rest : List Msg}
  {bytes : List Byte}

/-- In the program, the host of the token is inside its section. -/
theorem Scene.active (hs : Scene n l p y (some a) walker fl s) (hpc : (s.host a).pc = .run) :
    walker = none ∧ fl = none ∧ Inside n l y s.host a := by
  have hno : ∀ {pc : Pc}, (s.host a).pc = pc → pc ≠ .run → walker = none ∧ fl = none ∧
      Inside n l y s.host a := fun h h' => absurd (h.symm.trans hpc) h'
  have hst := hs.stage
  cases hst with
  | active _ hi _ => exact ⟨rfl, rfl, hi⟩
  | woken _ _ h => exact hno h nofun
  | asking _ _ h | told _ _ h | informed _ _ h => exact hno h.pc nofun
  | pageAsked _ _ _ h | pageSent _ _ _ h | pageHere _ _ h => exact hno h nofun
  | diffAsked _ _ _ _ _ _ h | diffSent _ _ _ _ _ _ h | diffHere _ _ _ _ _ _ h =>
      exact hno h.pc nofun

/-- A host that has the lock is the host of the token. -/
theorem Scene.holder_of_mine (hs : Scene n l p y holder walker fl s) (ha : a < n)
    (hmine : (s.host a).syn.myLocks l = true) : holder = some a := by
  by_contra hne
  have := (hs.outside a ha hne).mine
  rw [hmine] at this
  cases this

theorem Scene.mi_lock (hs : Scene n l p y holder walker fl s) (hc : LockInv n l s) (ha : a < n)
    (hl : 0 ≤ l) (hl' : l < lockNum) (hpc : (s.host a).pc = .run) :
    Coherent n l p y.granted y.total (s.put a (miLock n a l (s.host a))) := by
  by_cases hoff : holder = some a
  · subst hoff
    obtain ⟨rfl, rfl, hi⟩ := hs.active hpc
    unfold miLock
    rw [if_neg (by omega), if_pos hi.mine]
    exact (hs.put_silent rfl rfl (Or.inl rfl)
      (fun _ => ⟨rfl, rfl, rfl, rfl, rfl⟩) fun h => absurd rfl h).coherent
  · exact hs.lock hc ha hl hl' hoff hpc

theorem Scene.mi_unlock (hs : Scene n l p y holder walker fl s) (hc : LockInv n l s) (ha : a < n)
    (hl : 0 ≤ l) (hl' : l < lockNum) (hpc : (s.host a).pc = .run) :
    Coherent n l p y.granted y.total (s.put a (miUnlock n a l (s.host a))) := by
  by_cases hoff : holder = some a
  · subst hoff
    obtain ⟨rfl, rfl, hi⟩ := hs.active hpc
    exact hs.unlock hi hpc hc hl hl'
  · have hmine := (hs.outside a ha hoff).mine
    unfold miUnlock
    rw [if_neg (by omega), if_pos hmine]
    exact (hs.put_silent rfl rfl (Or.inl rfl)
      (fun h => absurd h hoff) fun _ h => ⟨h.pc, h.mine⟩).coherent

/-- The main thread leaves a loop it spins in. -/
theorem Scene.resume (hs : Scene n l p y holder walker fl s) (ha : a < n)
    (hr : (s.host a).resume n a = some r) : Coherent n l p y.granted y.total (s.put a r) := by
  by_cases hoff : holder = some a
  · subst hoff
    have hst := hs.stage
    unfold Host.resume at hr
    cases hst with
    | woken _ hlocked hpc hw hmine hlast hne =>
        rw [hpc] at hr
        dsimp only at hr
        rw [if_neg (by rw [hw]; exact Bool.false_ne_true)] at hr
        obtain rfl := Option.some.inj hr
        exact hs.lockResume hlocked hmine hlast hne
    | asking _ _ hasks hf =>
        rw [hasks.pc] at hr
        dsimp only at hr
        rw [if_pos hf] at hr
        cases hr
    | told _ _ hasks hf =>
        rw [hasks.pc] at hr
        dsimp only at hr
        rw [if_pos hf] at hr
        cases hr
    | informed _ path hasks hclock =>
        rw [hasks.pc] at hr
        dsimp only at hr
        split at hr
        · cases hr
        · obtain rfl := Option.some.inj hr
          exact hs.lockReturn hasks hclock
    | active _ _ hpc =>
        rw [hpc] at hr
        cases hr
    | pageAsked _ _ _ hpc hf =>
        rw [hpc] at hr
        dsimp only at hr
        rw [if_pos hf] at hr
        cases hr
    | pageSent _ _ _ hpc hf =>
        rw [hpc] at hr
        dsimp only at hr
        rw [if_pos hf] at hr
        cases hr
    | pageHere _ hi hpc hstate hall =>
        rw [hpc] at hr
        dsimp only at hr
        split at hr
        · cases hr
        · obtain rfl := Option.some.inj hr
          exact hs.validate (fun _ _ => (Option.some_ne_none _).symm) hi (Or.inr hstate) hall rfl
            rfl rfl
    | diffAsked _ i k newer older _ hf hflag =>
        rw [hf.pc] at hr
        dsimp only at hr
        rw [if_pos hflag] at hr
        cases hr
    | diffSent _ i k newer older _ hf hflag =>
        rw [hf.pc] at hr
        dsimp only at hr
        rw [if_pos hflag] at hr
        cases hr
    | diffHere _ i k newer older hi hf hk =>
        rw [hf.pc] at hr
        dsimp only at hr
        split at hr
        · cases hr
        · obtain rfl := Option.some.inj hr
          refine hs.walkOn (fun x hx h => hx (Option.some.inj h).symm) hi hf.state ?_
          exact fetchDiffResume_walk hs.world.hosted (hs.world.shows a ha).replica hf.walking hk
  · unfold Host.resume at hr
    rcases (hs.outside a ha hoff).pc with hpc | ⟨hpc, hw⟩
    · rw [hpc] at hr
      cases hr
    · rw [hpc] at hr
      dsimp only at hr
      rw [if_pos hw] at hr
      cases hr

/-! ## One message -/

def Msg.asksPage : Msg → Bool
  | .fetchPage _ => true
  | _ => false

theorem Scene.deliver (hs : Scene n l p y holder walker fl s) (hc : LockInv n l s)
    (hg : Guards (s.host b).mem (s.host b).pc) (ha : a < n) (hb : b < n) (hne : a ≠ b) (hl : 0 ≤ l) (hl' : l < lockNum) (hnet : s.net a b = msg :: rest) :
    Coherent n l p (if msg.asksPage then upd y.granted b true else y.granted) y.total
      ((s.pop a b).put b (dispatchMsg n b a msg (s.host b))) := by
  cases hacq : isAcq l msg with
  | true =>
      cases msg with
      | acqLock l' =>
          obtain rfl := of_decide_eq_true hacq
          exact hs.acquire hc ha hb hne hl hl' hnet
      | _ => cases hacq
  | false =>
      obtain ⟨rfl, -⟩ := hs.transit.take hnet hacq
      have hst := hs.stage
      cases hst with
      | returned => exact hs.release hc hl hl' hb hnet
      | granted _ _ _ hne' => exact hs.woken hc hl hl' hb hne' hnet
      | asking => exact hs.readFetchWnI hnet
      | told => exact hs.readGrantWnI hnet
      | pageAsked => exact hs.readFetchPage hnet hg
      | pageSent => exact hs.readGrantPage hnet
      | diffAsked => exact hs.readFetchDiff hnet
      | diffSent => exact hs.readGrantDiff hnet

end

/-! ## The history -/

/-- What can be seen of a run: who is between `mi_lock` and `mi_unlock`, what the word was
last set to, and whose page was sent since a store last opened it. -/
structure Seen where
  held : Held
  written : List Byte
  granted : Nat → Bool

/-- A store that is not granted access takes no effect; it is tried again. -/
def noteSeen (p : Nat) (g : Seen) (s : Sys) (e : Event) (t : Sys) : Seen where
  held := noteHeld g.held s e t
  written :=
    match e with
    | .op x (.store _ _ bytes) =>
        if ((s.host x).mem.pageArray p).Readable then bytes else g.written
    | _ => g.written
  granted :=
    match e with
    | .op x (.store _ _ _) =>
        if ((s.host x).mem.pageArray p).state = .rdonly then upd g.granted x false
        else g.granted
    | .deliver a b =>
        if (s.net a b).head?.any Msg.asksPage then upd g.granted b true else g.granted
    | _ => g.granted

/-- Before the first section: the word is zero. -/
def unseen (len : Nat) : Seen := ⟨fun _ _ => false, List.replicate len 0, fun _ => false⟩

/-- Hosts lock and unlock `l`, and in between load and store the word. -/
def InSections (l : Int) (p o len : Nat) (s : Sys × Seen) : Event → Prop
  | .op _ (.lock l') => l' = l
  | .op _ (.unlock l') => l' = l
  | .op x (.load q o' len') => q = p ∧ o' = o ∧ len' = len ∧ s.2.held x l = true
  | .op x (.store q o' bytes) =>
      q = p ∧ o' = o ∧ bytes.length = len ∧ s.2.held x l = true
  | .op _ .resume => True
  | .op _ _ => False
  | .deliver _ _ => True

/-- No store to a page that was sent in `WRITE` state, and no message too long. -/
def LeavesSent (p : Nat) (s : Sys × Seen) : Event → Prop
  | .op x (.store _ _ _) =>
      ((s.1.host x).mem.pageArray p).state = .write → s.2.granted x = false
  | .deliver a b => ∀ msg ∈ (s.1.net a b).head?, msg.dataSize ≤ msgDataSize
  | _ => True

/-- What a load returns, unless it faults. -/
def Host.loaded (p o len : Nat) (h : Host) : Option (List Byte) :=
  match h.pc with
  | .run =>
      if (h.mem.pageArray p).Readable then some (readBytes (h.mem.pageArray p).content o len)
      else none
  | _ => none

/-- In every run of sections whose steps meet `ok`, after any allocations, a load inside a
section returns what was stored last. -/
def ReadsLastWrite (n : Nat) (l : Int) (p o len : Nat) (ok : Sys × Seen → Event → Prop) : Prop :=
  ∀ s₀ s g, Reach (step n) allocating initSys s₀ →
    (∀ x < n, p < (s₀.host x).mem.pagenum) →
    Reach (withGhost (step n) (noteSeen p)) (fun s e => InSections l p o len s e ∧ ok s e)
      (s₀, unseen len) (s, g) →
    ∀ x < n, g.held x l = true → ∀ word, (s.host x).loaded p o len = some word →
      word = g.written

/-! ## Every run -/

section

variable {n p o len : Nat} {l : Int} {s t : Sys} {g : Seen} {e : Event} {total : Content}
  {bytes : List Byte}

theorem readBytes_writeBytes (content : Content) (h : o + bytes.length ≤ pageSize) :
    readBytes (writeBytes content o bytes) o bytes.length = bytes := by
  refine List.ext_getElem (by simp [readBytes]) fun k hk hk' => ?_
  have hin : o + k < pageSize := by omega
  simp [readBytes, writeBytes, hin, hk']

theorem readBytes_zero (o len : Nat) : readBytes 0 o len = List.replicate len 0 := by
  refine List.ext_getElem (by simp [readBytes]) fun k hk hk' => ?_
  simp [readBytes]

/-- The page as the history has it, and the word in it. -/
def Follows (n : Nat) (l : Int) (p o len : Nat) (s : Sys) (g : Seen) : Prop :=
  ∃ total, Coherent n l p g.granted total s ∧ readBytes total o len = g.written

theorem Follows.step (h : Follows n l p o len s g) (hlock : LockHist n s g.held)
    (hg : ∀ x, Guards (s.host x).mem (s.host x).pc) (hl : 0 ≤ l) (hl' : l < lockNum) (hword : o + len ≤ pageSize) (hin : InSections l p o len (s, g) e)
    (hok : LeavesSent p (s, g) e) (hs : step n s e = some t) :
    Follows n l p o len t (noteSeen p g s e t) := by
  obtain ⟨total, ⟨y, holder, walker, fl, hgranted, rfl, hscene⟩, hread⟩ := h
  have hc := hlock.control.locks l hl hl'
  have hinside : ∀ {x : Nat}, x < n → g.held x l = true → (s.host x).pc = .run →
      holder = some x ∧ walker = none ∧ fl = none ∧ Inside n l y s.host x := by
    intro x hx hheld hpc
    obtain rfl := hscene.holder_of_mine hx (hlock.held x l hheld).2.2.2
    exact ⟨rfl, hscene.active hpc⟩
  obtain ⟨a, op, r, rfl, ha, he, rfl⟩ | ⟨a, b, msg, rest, rfl, ha, hb, hne, hnet, rfl⟩ :=
    step_cases hs
  · have hsame : Coherent n l p y.granted y.total (s.put a r) →
        Coherent n l p g.granted y.total (s.put a r) := fun h => by rwa [← hgranted]
    cases op with
    | alloc | barrier => exact hin.elim
    | resume => exact ⟨y.total, hsame (hscene.resume ha he), hread⟩
    | lock l' =>
        obtain rfl : l' = l := hin
        have hpc := exec_run (fun h => by cases h) he
        simp only [Host.exec, hpc] at he
        obtain rfl := Option.some.inj he
        exact ⟨y.total, hsame (hscene.mi_lock hc ha hl hl' hpc), hread⟩
    | unlock l' =>
        obtain rfl : l' = l := hin
        have hpc := exec_run (fun h => by cases h) he
        simp only [Host.exec, hpc] at he
        obtain rfl := Option.some.inj he
        exact ⟨y.total, hsame (hscene.mi_unlock hc ha hl hl' hpc), hread⟩
    | load q o' len' =>
        obtain ⟨rfl, rfl, rfl, hheld⟩ := hin
        have hpc := exec_run (fun h => by cases h) he
        obtain ⟨rfl, rfl, rfl, hi⟩ := hinside ha hheld hpc
        simp only [Host.exec, hpc] at he
        exact ⟨y.total, hsame (hscene.load hi (by rw [hpc]; rfl) (hg a) he), hread⟩
    | store q o' bytes =>
        obtain ⟨rfl, rfl, rfl, hheld⟩ := hin
        have hpc := exec_run (fun h => by cases h) he
        obtain ⟨rfl, rfl, rfl, hi⟩ := hinside ha hheld hpc
        simp only [Host.exec, hpc] at he
        have hstore := hscene.store hi hpc (hg a) (fun hst => (congrFun hgranted a).trans (hok hst)) he
        rw [hgranted] at hstore
        refine ⟨_, hstore, ?_⟩
        dsimp only [noteSeen]
        split
        · exact readBytes_writeBytes y.total hword
        · exact hread
  · have hdeliver := hscene.deliver hc (hg b) ha hb hne hl hl' hnet
    rw [hgranted] at hdeliver
    refine ⟨y.total, ?_, hread⟩
    dsimp only [noteSeen]
    rw [hnet]
    exact hdeliver

theorem lockHist_of_allocating (h : Reach (Midsm.step n) allocating initSys s) :
    LockHist n s fun _ _ => false := by
  refine h.invariant (P := fun s => LockHist n s fun _ _ => false) (LockHist.init n) ?_
  rintro s s' e hlock ⟨x, size, rfl, -⟩ hs
  exact hlock.step hs rfl

/-- A load inside a section returns what was stored last, in every run of sections in which
no page that was sent in `WRITE` state is stored to. -/
theorem single_lock_coherence (hn : 1 < n) (hn' : n ≤ maxHostNum) (hl : 0 ≤ l)
    (hl' : l < lockNum) (hword : o + len ≤ pageSize) :
    ReadsLastWrite n l p o len (LeavesSent p) := by
  intro s₀ s g halloc hp hrun x hx hheld word hload
  have hstart : Awaited n s₀ ∧ LockHist n s₀ (unseen len).held ∧
      Follows n l p o len s₀ (unseen len) :=
    ⟨awaited_of_reach halloc, lockHist_of_allocating halloc, 0,
      ((outset_of_reach halloc).scene (by omega) hn' hp l).coherent, readBytes_zero o len⟩
  have hinv := hrun.invariant
    (P := fun t => Awaited n t.1 ∧ LockHist n t.1 t.2.held ∧ Follows n l p o len t.1 t.2)
    hstart fun {t u e} ht hok hs => by
      obtain ⟨hstep, hnote⟩ := withGhost_eq_some.mp hs
      obtain ⟨hawaited, hlock, hfollows⟩ := ht
      rw [hnote]
      exact ⟨hawaited.step hstep, hlock.step hstep rfl,
        hfollows.step hlock hawaited.guards hl hl' hword hok.1 hok.2 hstep⟩
  obtain ⟨-, hlock, total, ⟨y, holder, walker, fl, -, rfl, hscene⟩, hread⟩ := hinv
  unfold Host.loaded at hload
  split at hload
  · next hpc =>
      obtain rfl := hscene.holder_of_mine hx (hlock.held x l hheld).2.2.2
      obtain ⟨rfl, rfl, hi⟩ := hscene.active hpc
      split at hload
      · next hreadable =>
          obtain rfl := Option.some.inj hload
          rw [← hread]
          exact congrArg (readBytes · o len) (hscene.world.content hx hi.clock hreadable)
      · cases hload
  · cases hload

end

/-! ## Two hosts -/

section

variable {l : Int} {p o len : Nat} {s : Sys × Seen} {e : Event}

instance : Decidable (InSections l p o len s e) :=
  match e with
  | .op _ (.lock l') => inferInstanceAs (Decidable (l' = l))
  | .op _ (.unlock l') => inferInstanceAs (Decidable (l' = l))
  | .op x (.load q o' len') =>
      inferInstanceAs (Decidable (q = p ∧ o' = o ∧ len' = len ∧ s.2.held x l = true))
  | .op x (.store q o' bytes) =>
      inferInstanceAs (Decidable (q = p ∧ o' = o ∧ bytes.length = len ∧ s.2.held x l = true))
  | .op _ .resume => isTrue trivial
  | .op _ (.alloc _) => isFalse id
  | .op _ .barrier => isFalse id
  | .deliver _ _ => isTrue trivial

instance : Decidable (LeavesSent p s e) :=
  match e with
  | .op x (.store _ _ _) => inferInstanceAs
      (Decidable (((s.1.host x).mem.pageArray p).state = .write → s.2.granted x = false))
  | .deliver a b => inferInstanceAs
      (Decidable (∀ msg ∈ (s.1.net a b).head?, msg.dataSize ≤ msgDataSize))
  | .op _ (.lock _) => isTrue trivial
  | .op _ (.unlock _) => isTrue trivial
  | .op _ (.load _ _ _) => isTrue trivial
  | .op _ .resume => isTrue trivial
  | .op _ (.alloc _) => isTrue trivial
  | .op _ .barrier => isTrue trivial

/-- Both hosts have allocated one page. -/
def bothAllocated : Sys :=
  (initSys.put 0 ({ initSys.host 0 with mem := (miAlloc 2 0 4 (initmem 0)).2 }, [])).put 1
    ({ initSys.host 1 with mem := (miAlloc 2 1 4 (initmem 1)).2 }, [])

theorem bothAllocated_reach : Reach (step 2) allocating initSys bothAllocated :=
  .tail (e := .op 1 (.alloc 4)) (.tail (e := .op 0 (.alloc 4)) .refl
    ⟨0, 4, rfl, by decide, by decide⟩ rfl) ⟨1, 4, rfl, by decide, by decide⟩ rfl

theorem bothAllocated_pagenum : ∀ x < 2, 0 < (bothAllocated.host x).mem.pagenum := by
  decide +kernel

/-- Host 1 gets the page as a whole, and then what host 0 has stored as a diff. -/
theorem single_lock_coherence_two :
    ∃ s g, Reach (withGhost (step 2) (noteSeen 0))
        (fun s e => InSections 0 0 0 1 s e ∧ LeavesSent 0 s e) (bothAllocated, unseen 1) (s, g) ∧
      (s.host 1).loaded 0 0 1 = some g.written ∧ g.written = [1] ∧
      ((s.host 1).mem.pageArray 0).startInterval ≠ none := by
  obtain ⟨⟨s, g⟩, hrun, hp⟩ := exists_reach (withGhost (step 2) (noteSeen 0))
    (fun s e => decide (InSections 0 0 0 1 s e ∧ LeavesSent 0 s e))
    (fun _ _ => of_decide_eq_true) (bothAllocated, unseen 1)
    [.op 1 (.lock 0), .deliver 1 0, .deliver 0 1, .op 1 .resume, .op 1 (.load 0 0 1),
      .deliver 1 0, .deliver 0 1, .op 1 .resume, .op 1 (.unlock 0), .deliver 1 0,
      .op 0 (.lock 0), .deliver 0 1, .deliver 1 0, .op 0 .resume, .op 0 (.store 0 0 [1]),
      .op 0 (.unlock 0), .op 1 (.lock 0), .deliver 1 0, .deliver 0 1, .op 1 .resume,
      .deliver 1 0, .deliver 0 1, .op 1 .resume, .op 1 (.load 0 0 1), .deliver 1 0,
      .deliver 0 1, .op 1 .resume]
    (fun t => t.2.held 1 0 && ((t.1.host 1).loaded 0 0 1).isSome &&
      decide (t.2.written = [1] ∧ ((t.1.host 1).mem.pageArray 0).startInterval ≠ none))
    (by decide +kernel)
  rw [Bool.and_eq_true, Bool.and_eq_true, decide_eq_true_eq] at hp
  obtain ⟨⟨hheld, hsome⟩, hwritten, hstart⟩ := hp
  obtain ⟨word, hload⟩ := Option.isSome_iff_exists.mp hsome
  have hword := single_lock_coherence (by decide) (by decide) (by decide) (by decide) (by decide)
    bothAllocated s g bothAllocated_reach bothAllocated_pagenum hrun 1 (by decide) hheld word hload
  exact ⟨s, g, hrun, hword ▸ hload, hwritten, hstart⟩

/-- Host 1 is sent the page in the state `WRITE`; the next section of host 0 stores to it, and
host 1 keeps what it has. -/
theorem single_lock_incoherence : ¬ ReadsLastWrite 2 0 0 0 1 anyStep := by
  intro h
  obtain ⟨⟨s, g⟩, hrun, hp⟩ := exists_reach (withGhost (step 2) (noteSeen 0))
    (fun s e => decide (InSections 0 0 0 1 s e))
    (fun _ _ hc => (⟨of_decide_eq_true hc, trivial⟩ : InSections 0 0 0 1 _ _ ∧ anyStep _ _))
    (bothAllocated, unseen 1)
    [.op 0 (.lock 0), .op 0 (.store 0 0 [1]), .op 0 (.unlock 0),
      .op 1 (.lock 0), .deliver 1 0, .deliver 0 1, .op 1 .resume, .deliver 1 0, .deliver 0 1,
      .op 1 .resume, .op 1 (.load 0 0 1), .deliver 1 0, .deliver 0 1, .op 1 .resume,
      .op 1 (.unlock 0), .deliver 1 0, .op 0 (.lock 0), .deliver 0 1, .deliver 1 0,
      .op 0 .resume, .op 0 (.store 0 0 [2]), .op 0 (.unlock 0), .op 1 (.lock 0), .deliver 1 0,
      .deliver 0 1, .op 1 .resume, .deliver 1 0, .deliver 0 1, .op 1 .resume]
    (fun t => t.2.held 1 0 &&
      decide ((t.1.host 1).loaded 0 0 1 = some [1] ∧ t.2.written = [2]))
    (by decide +kernel)
  rw [Bool.and_eq_true, decide_eq_true_eq] at hp
  obtain ⟨hheld, hload, hwritten⟩ := hp
  have hword := h bothAllocated s g bothAllocated_reach bothAllocated_pagenum hrun 1 (by decide)
    hheld [1] hload
  rw [hwritten] at hword
  cases hword

end

end Midsm
