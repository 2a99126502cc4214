import Midsm.Proofs.PageState
import Midsm.Ref.System

/-!
# What becomes of local stores

A `WRITE` page differs from its twin by what has been stored since the last diff
was made, and each earlier difference is in the diff of an own notice. So the
diffs of all own notices, with the one that `grantDiff` would make of a `WRITE`
page, add up to what has been stored at all. But a notice is found by its
timestamp alone, and the first one found hides the others of that interval:
what can be fetched adds up only while each interval has one own notice of the
page. `createWriteNotice` does not see to that.
-/

namespace Midsm

open Midsm.Lib

/-- What happens to page `p` at its own host. -/
inductive LocalOp where
  | store (offset : Nat) (bytes : List Byte)
  | newInterval
  | diffRequest (hostid : Nat) (timestamp : Timestamp)

def localStep (n me p : Nat) (h : Host) : LocalOp → Option Host
  | .store o bytes => (h.store n me p o bytes).map Prod.fst
  | .newInterval => some { h with mem := addNewInterval n me h.mem }
  | .diffRequest hostid ts => some (dispatchMsg n me hostid (.fetchDiff p ts) h).1

/-- A store that faults is the first one of its interval. -/
def OnceAnInterval (me p : Nat) (h : Host) : LocalOp → Prop
  | .store _ _ => (h.mem.pageArray p).state = .rdonly →
      (h.mem.now me).timestamp ∉ (h.mem.pageArray p).keys me
  | _ => True

/-- The diff in a reply. -/
def sentDiff : Out → Content
  | [(_, .grantDiff _ _ diff)] => diff
  | _ => fun _ => 0

/-- What any other host can fetch, one diff for each timestamp of an own notice,
adds up to what has changed. -/
def Conserved (n me p : Nat) (initial : Content) (m : Mem) : Prop :=
  ∀ hostid < n, hostid ≠ me → ∀ i,
    (((m.pageArray p).keys me).dedup.map fun ts =>
      sentDiff (grantDiff n me hostid ts p m).2.2 i).sum =
    (m.pageArray p).content i - initial i

/-! ## The accounts of a page -/

/-- What the own notices carry at byte `i`. -/
def carried (i : Fin pageSize) (list : List WriteNotice) : Byte :=
  (list.map fun wn => (wn.diffAddress.getD fun _ => 0) i).sum

/-- The content of a page when its last diff was made. -/
def Page.settled (page : Page) : Content := page.twinPage.getD page.content

/-- What has changed since the twin was made. -/
def Page.changed (page : Page) (twin : Content) : Content :=
  fun i => page.content i - twin i

structure Accounts (me p : Nat) (initial : Content) (h : Host) : Prop where
  tidy : (h.mem.pageArray p).Tidy me
  guarded : (h.mem.pageArray p).Guarded
  state : (h.mem.pageArray p).state = .rdonly ∨ (h.mem.pageArray p).state = .write
  once : ((h.mem.pageArray p).keys me).Nodup
  bound : (h.mem.pageArray p).notices me ≠ [] → p < maxPageNum
  sum : ∀ i, carried i ((h.mem.pageArray p).notices me) =
    (h.mem.pageArray p).settled i - initial i

section

variable {n me p : Nat} {initial : Content} {h h' : Host}

theorem Accounts.start (ht : (h.mem.pageArray p).Tidy me)
    (hg : (h.mem.pageArray p).Guarded) (hs : (h.mem.pageArray p).state = .rdonly) (hn : (h.mem.pageArray p).notices me = []) :
    Accounts me p (h.mem.pageArray p).content h where
  tidy := ht
  guarded := hg
  state := Or.inl hs
  once := by
    rw [Page.keys, hn]
    exact List.nodup_nil
  bound hne := absurd hn hne
  sum i := by
    rw [hn, Page.settled, ht.no_twin (by simp [hs])]
    exact (sub_self _).symm

theorem Accounts.prot_eq (ha : Accounts me p initial h) :
    (h.mem.pageArray p).prot = (h.mem.pageArray p).state.prot :=
  ha.guarded.prot_eq (by rcases ha.state with hs | hs <;> rw [hs] <;> exact nofun)

/-- A store to a `WRITE` page. -/
theorem Accounts.storeBytes (ha : Accounts me p initial h)
    (hs : (h.mem.pageArray p).state = .write) (o : Nat) (bytes : List Byte) :
    Accounts me p initial { h with mem := h.mem.storeBytes p o bytes } := by
  have hpage : (h.mem.storeBytes p o bytes).pageArray p =
      { h.mem.pageArray p with
        content := writeBytes (h.mem.pageArray p).content o bytes } := setPage_self ..
  obtain ⟨twin, htwin⟩ := Option.ne_none_iff_exists'.mp (ha.tidy.twin.mpr hs)
  refine ⟨?_, ?_, ?_, ?_, ?_, ?_⟩ <;> dsimp only <;> rw [hpage]
  · exact ha.tidy.congr rfl rfl rfl rfl
  · exact ha.guarded
  · exact ha.state
  · exact ha.once
  · exact ha.bound
  · intro i
    have hsum := ha.sum i
    rw [Page.settled, htwin] at hsum ⊢
    exact hsum

/-- A fault on a `RDONLY` page, the first one of its interval. -/
theorem Accounts.fault (ha : Accounts me p initial h)
    (hs : (h.mem.pageArray p).state = .rdonly)
    (hnew : (h.mem.now me).timestamp ∉ (h.mem.pageArray p).keys me) {r : Host × Out}
    (hf : h.fault n me p = some r) :
    Accounts me p initial r.1 ∧ (r.1.mem.pageArray p).state = .write ∧
      (r.1.mem.pageArray p).prot = .readWrite := by
  have hp : p < maxPageNum := by
    by_contra hp
    unfold Host.fault segvHandler at hf
    rw [if_pos (by omega)] at hf
    cases hf
  have hread : (h.mem.pageArray p).prot ≠ .none := by
    rw [ha.prot_eq, hs]
    exact nofun
  obtain ⟨m', he, -, -, hpage⟩ := segvHandler_rdonly (n := n) hp ha.tidy hs hread
  rw [Host.fault, he] at hf
  cases hf
  refine ⟨⟨?_, ?_, ?_, ?_, ?_, ?_⟩, ?_, ?_⟩ <;> dsimp only <;> rw [hpage]
  · exact ha.tidy.open hs ..
  · exact Or.inl rfl
  · exact Or.inr rfl
  · rw [Page.keys]
    dsimp only
    rw [upd_self, List.map_cons]
    exact List.nodup_cons.mpr ⟨hnew, ha.once⟩
  · exact fun _ => hp
  · intro i
    have hsum := ha.sum i
    rw [Page.settled, ha.tidy.no_twin (by simp [hs])] at hsum
    dsimp only
    rw [upd_self, carried, List.map_cons, List.sum_cons]
    exact (zero_add _).trans hsum

theorem Accounts.store (ha : Accounts me p initial h) {o : Nat} {bytes : List Byte}
    (hok : OnceAnInterval me p h (.store o bytes)) {r : Host × Out}
    (hr : h.store n me p o bytes = some r) : Accounts me p initial r.1 := by
  have hprot := ha.prot_eq
  unfold Host.store at hr
  rcases ha.state with hs | hs <;> rw [hs] at hprot <;> rw [hprot] at hr
  · obtain ⟨r', hf, rfl⟩ := Option.map_eq_some_iff.mp hr
    obtain ⟨ha', hw, hopen⟩ := ha.fault hs (hok hs) hf
    dsimp only
    rw [if_pos hopen]
    exact ha'.storeBytes hw o bytes
  · cases hr
    exact ha.storeBytes hs o bytes

theorem findNotice_of_mem {list : List WriteNotice} {wn : WriteNotice}
    (hnd : (list.map WriteNotice.timestamp).Nodup) (hm : wn ∈ list) :
    findNotice wn.timestamp list = some wn := by
  induction list with
  | nil => cases hm
  | cons w list ih =>
      rw [List.map_cons, List.nodup_cons] at hnd
      rw [findNotice]
      rcases List.mem_cons.mp hm with rfl | hm
      · rw [List.find?_cons_of_pos (by simp)]
      · have hne : w.timestamp ≠ wn.timestamp := fun he =>
          hnd.1 (he ▸ List.mem_map_of_mem hm)
        rw [List.find?_cons_of_neg (by simpa using hne)]
        exact ih hnd.2 hm

/-- A diff request for an own notice: one that has its diff is left alone, and
the diff of the one that lacks it is what the page and its twin differ by. -/
theorem Accounts.grant (ha : Accounts me p initial h) {hostid : Nat} (hh : hostid < n)
    (hne : hostid ≠ me) {wn : WriteNotice} (hm : wn ∈ (h.mem.pageArray p).notices me) :
    (∃ diff, wn.diffAddress = some diff ∧
      grantDiff n me hostid wn.timestamp p h.mem =
        (0, h.mem, [(hostid, .grantDiff wn.timestamp p diff)])) ∨
    (∃ twin rest, wn.diffAddress = none ∧ (h.mem.pageArray p).notices me = wn :: rest ∧
      (h.mem.pageArray p).twinPage = some twin ∧
      grantDiff n me hostid wn.timestamp p h.mem =
        (0, h.mem.setPage p { h.mem.pageArray p with
            state := .rdonly
            twinPage := none
            notices := upd (h.mem.pageArray p).notices me
              ({ wn with diffAddress := some ((h.mem.pageArray p).changed twin) } :: rest)
            prot := .read },
          [(hostid, .grantDiff wn.timestamp p ((h.mem.pageArray p).changed twin))])) := by
  have hp : p < maxPageNum := ha.bound (List.ne_nil_of_mem hm)
  have hlive : ¬ ((h.mem.pageArray p).state = .unmap ∨ (h.mem.pageArray p).state = .miss) := by
    rcases ha.state with hs | hs <;> rw [hs] <;> exact nofun
  have hfind := findNotice_of_mem ha.once hm
  unfold grantDiff
  rw [if_neg (by omega), if_neg (by omega), if_neg hlive, hfind]
  dsimp only
  cases hd : wn.diffAddress with
  | some diff =>
      refine Or.inl ⟨diff, rfl, ?_⟩
      rw [Option.isSome_some, if_pos rfl, hfind, Option.bind_some, hd]
      rfl
  | none =>
      obtain ⟨diff, rest, hl, hdiff, he⟩ := makeDiff_eq hp ha.tidy hfind hd
      obtain ⟨hs, -⟩ := ha.tidy.lacking hm hd
      obtain ⟨twin, htwin⟩ := Option.ne_none_iff_exists'.mp (ha.tidy.twin.mpr hs)
      have haddress : (h.mem.pageArray p).address ≠ 0 :=
        ha.tidy.address (by rw [hs]; exact nofun)
      rw [Page.memory, if_neg haddress, htwin] at hdiff
      obtain rfl : (h.mem.pageArray p).changed twin = diff := Option.some.inj hdiff
      refine Or.inr ⟨twin, rest, rfl, hl, htwin, ?_⟩
      rw [Option.isSome_none, if_neg Bool.false_ne_true, he, setPage_self]
      dsimp only
      rw [upd_self, findNotice, List.find?_cons_of_pos (by simp)]
      rfl

theorem Accounts.request (ha : Accounts me p initial h) (hostid : Nat) (ts : Timestamp) :
    Accounts me p initial (dispatchMsg n me hostid (.fetchDiff p ts) h).1 := by
  show Accounts me p initial { h with mem := (grantDiff n me hostid ts p h.mem).2.1 }
  by_cases hto : hostid < n ∧ hostid ≠ me
  · cases hf : findNotice ts ((h.mem.pageArray p).notices me) with
    | none =>
        have hsame : (grantDiff n me hostid ts p h.mem).2.1 = h.mem := by
          unfold grantDiff
          dsimp only
          rw [hf]
          split
          · rfl
          · split
            · rfl
            · split <;> rfl
        rw [hsame]
        exact ha
    | some wn =>
        obtain ⟨hm, rfl⟩ := findNotice_spec hf
        rcases ha.grant hto.1 hto.2 hm with ⟨diff, -, he⟩ | ⟨twin, rest, hd, hl, htwin, he⟩
        · rw [he]
          exact ha
        · rw [he]
          obtain ⟨hs, -⟩ := ha.tidy.lacking hm hd
          have hp : p < maxPageNum := ha.bound (List.ne_nil_of_mem hm)
          refine ⟨?_, ?_, ?_, ?_, ?_, ?_⟩ <;> dsimp only <;> rw [setPage_self]
          · exact ha.tidy.close hs hl (nofun : PageState.rdonly ≠ .write) (Option.some_ne_none _)
              rfl rfl rfl (upd_self ..)
          · exact Or.inl rfl
          · exact Or.inl rfl
          · have honce := ha.once
            rw [Page.keys, hl] at honce
            rw [Page.keys]
            dsimp only
            rw [upd_self]
            exact honce
          · exact fun _ => hp
          · intro i
            have hsum := ha.sum i
            rw [hl, carried, List.map_cons, List.sum_cons, hd, Page.settled, htwin] at hsum
            have hrest : carried i rest = twin i - initial i := (zero_add _).symm.trans hsum
            dsimp only
            rw [upd_self, carried, List.map_cons, List.sum_cons]
            show ((h.mem.pageArray p).content i - twin i) + carried i rest =
              (h.mem.pageArray p).content i - initial i
            rw [hrest]
            exact sub_add_sub_cancel ..
  · have hsame : (grantDiff n me hostid ts p h.mem).2.1 = h.mem := by
      unfold grantDiff
      rw [if_pos (by omega)]
    rw [hsame]
    exact ha

theorem Accounts.step {op : LocalOp} (ha : Accounts me p initial h)
    (hok : OnceAnInterval me p h op) (hs : localStep n me p h op = some h') :
    Accounts me p initial h' := by
  cases op with
  | store o bytes =>
      obtain ⟨r, hr, rfl⟩ := Option.map_eq_some_iff.mp hs
      exact ha.store hok hr
  | newInterval =>
      cases hs
      exact ⟨ha.tidy, ha.guarded, ha.state, ha.once, ha.bound, ha.sum⟩
  | diffRequest hostid ts =>
      cases hs
      exact ha.request hostid ts

/-- What can be fetched is what the notices carry, and the difference to the twin. -/
theorem Accounts.conserved (ha : Accounts me p initial h) : Conserved n me p initial h.mem := by
  intro hostid hh hne i
  rw [ha.once.dedup, Page.keys, List.map_map]
  have hsum := ha.sum i
  rcases ha.state with hs | hs
  · have hsent : ∀ wn ∈ (h.mem.pageArray p).notices me,
        sentDiff (grantDiff n me hostid wn.timestamp p h.mem).2.2 i =
          (wn.diffAddress.getD fun _ => 0) i := by
      intro wn hm
      rcases ha.grant hh hne hm with ⟨diff, hd, he⟩ | ⟨_, _, hd, -⟩
      · rw [he, hd]
        rfl
      · exact absurd hd (ha.tidy.done (by simp [hs]) wn hm)
    rw [Page.settled, ha.tidy.no_twin (by simp [hs])] at hsum
    exact (congrArg List.sum (List.map_congr_left hsent)).trans hsum
  · obtain ⟨wn, rest, hl, hd, hrest⟩ := ha.tidy.newest hs
    have hsent : ∀ wn ∈ rest, sentDiff (grantDiff n me hostid wn.timestamp p h.mem).2.2 i =
        (wn.diffAddress.getD fun _ => 0) i := by
      intro w hw
      have hm : w ∈ (h.mem.pageArray p).notices me := by
        rw [hl]
        exact List.mem_cons_of_mem _ hw
      rcases ha.grant hh hne hm with ⟨diff, hd, he⟩ | ⟨_, _, hd, -⟩
      · rw [he, hd]
        rfl
      · exact absurd hd (hrest w hw)
    have hm : wn ∈ (h.mem.pageArray p).notices me := by
      rw [hl]
      exact List.mem_cons_self
    rcases ha.grant hh hne hm with ⟨diff, hd', -⟩ | ⟨twin, rest', -, -, htwin, he⟩
    · rw [hd] at hd'
      cases hd'
    · rw [hl, carried, List.map_cons, List.sum_cons, hd, Page.settled, htwin] at hsum
      have hcarried : carried i rest = twin i - initial i := (zero_add _).symm.trans hsum
      have hfirst : sentDiff (grantDiff n me hostid wn.timestamp p h.mem).2.2 i =
          (h.mem.pageArray p).content i - twin i := by
        rw [he]
        rfl
      rw [hl, List.map_cons, List.sum_cons]
      have hothers : (rest.map ((fun ts =>
          sentDiff (grantDiff n me hostid ts p h.mem).2.2 i) ∘ WriteNotice.timestamp)).sum =
          carried i rest := congrArg List.sum (List.map_congr_left hsent)
      rw [hothers, hcarried]
      exact (congrArg (· + _) hfirst).trans (sub_add_sub_cancel ..)

/-- While each interval has one faulting store to the page at most, all that has
been stored to it can be fetched, once. -/
theorem local_stores_conserved (n me p : Nat) {m : Mem} {pc : Pc}
    (hstart : Reach (pageStep n me) anyStep (initmem me, .run) (m, pc))
    (hs : (m.pageArray p).state = .rdonly) (hn : (m.pageArray p).notices me = [])
    {h₀ h : Host} (hm : h₀.mem = m)
    (hrun : Reach (localStep n me p) (OnceAnInterval me p) h₀ h) :
    Conserved n me p (m.pageArray p).content h.mem := by
  subst hm
  have hi := pageInv_of_reach hstart
  have ha : Accounts me p (h₀.mem.pageArray p).content h :=
    hrun.invariant (P := Accounts me p (h₀.mem.pageArray p).content)
      (Accounts.start (hi.tidy.page p) (hi.guards.page p) hs hn) fun ht hok he => ht.step hok he
  exact ha.conserved

def onceAnInterval (me p : Nat) (h : Host) : LocalOp → Bool
  | .store _ _ => decide ((h.mem.pageArray p).state = .rdonly →
      (h.mem.now me).timestamp ∉ (h.mem.pageArray p).keys me)
  | _ => true

theorem onceAnInterval_of_check (me p : Nat) (h : Host) (op : LocalOp)
    (hc : onceAnInterval me p h op = true) : OnceAnInterval me p h op := by
  cases op with
  | store o bytes =>
      rw [onceAnInterval, decide_eq_true_eq] at hc
      exact hc
  | newInterval => trivial
  | diffRequest hostid ts => trivial

/-- A host with one page. -/
def onePage : Mem := (miAlloc 2 0 4096 (initmem 0)).2

theorem onePage_reach : Reach (pageStep 2 0) anyStep (initmem 0, .run) (onePage, .run) :=
  .tail (e := .alloc 4096) .refl trivial rfl

/-- Two intervals with stores, a diff made of the first one between them. -/
theorem local_stores_conserved_two :
    ∃ h : Host, Conserved 2 0 0 (onePage.pageArray 0).content h.mem ∧
      ((h.mem.pageArray 0).keys 0).length = 2 ∧ (h.mem.pageArray 0).content 0 = 5 := by
  obtain ⟨h, hrun, hp⟩ := exists_reach (localStep 2 0 0) (onceAnInterval 0 0)
    (onceAnInterval_of_check 0 0) ⟨onePage, initsyn, .run, none, false⟩
    [.store 0 [1], .diffRequest 1 (fun _ => 0), .newInterval, .store 0 [4], .store 0 [5]]
    (fun h : Host => decide (((h.mem.pageArray 0).keys 0).length = 2 ∧
      (h.mem.pageArray 0).content 0 = 5))
    (by decide +kernel)
  exact ⟨h, local_stores_conserved 2 0 0 onePage_reach rfl rfl rfl hrun,
    of_decide_eq_true hp⟩

/-- A store, its diff fetched, and another store in the same interval: now the
diff that is found is that of the second store only. -/
theorem local_store_lost :
    ∃ h : Host, Reach (localStep 2 0 0) anyStep ⟨onePage, initsyn, .run, none, false⟩ h ∧
      ¬ Conserved 2 0 0 (onePage.pageArray 0).content h.mem := by
  obtain ⟨h, hrun, hp⟩ := exists_reach_any (localStep 2 0 0) ⟨onePage, initsyn, .run, none, false⟩
    [.store 0 [1], .diffRequest 1 (fun _ => 0), .store 0 [4]]
    (fun h : Host => decide ((((h.mem.pageArray 0).keys 0).dedup.map fun ts =>
        sentDiff (grantDiff 2 0 1 ts 0 h.mem).2.2 0).sum ≠
      (h.mem.pageArray 0).content 0 - (onePage.pageArray 0).content 0))
    (by decide +kernel)
  exact ⟨h, hrun, fun hc => of_decide_eq_true hp (hc 1 (by decide) (by decide) 0)⟩

end

end Midsm
