import Midsm.Proofs.Awaited
import Midsm.Proofs.Coherence

/-!
# Writers of one page do not get in each other's way

Several hosts may store to one page at a time, in different bytes. What a host fetches of
the others is added to its page or replaces it, and still it loads from bytes to which it
alone stores what it stored there last.

This is because the diff of a host is zero at a byte it never stores to: its twin and its
page agree there (`Page.Clear`), also while diffs of the byte's writer are added to the
page, which only happens while it has no twin. And a whole page replaces one that its
receiver never had, so nobody has anything of the receiver's in it.
-/

namespace Midsm

open Midsm.Lib

/-! ## A byte that the host does not store to -/

structure Page.Clear (me p : Nat) (i : Fin pageSize) (page : Page) : Prop where
  address : page.state ≠ .unmap → page.address ≠ 0
  inside : page.state = .write → p < maxPageNum
  twin : ∀ t, page.twinPage = some t → page.state = .write ∧ t i = page.content i
  diffs : ∀ wn ∈ page.notices me, ∀ diff, wn.diffAddress = some diff → diff i = 0

/-- Byte `i` of page `p` stays, and so does what is known of it. -/
structure Mem.Spares (me p : Nat) (i : Fin pageSize) (m m' : Mem) : Prop where
  content : (m'.pageArray p).content i = (m.pageArray p).content i
  clear : (m.pageArray p).Clear me p i → (m'.pageArray p).Clear me p i

section

variable {n me p q : Nat} {i : Fin pageSize} {m m' m'' : Mem} {page : Page} {h : Host}
  {r : Host × Out}

theorem Mem.Spares.of_page (h : m'.pageArray p = m.pageArray p) : m.Spares me p i m' := by
  constructor <;> rw [h]
  exact id

theorem Mem.Spares.of_pages (h : m'.pageArray = m.pageArray) : m.Spares me p i m' :=
  .of_page (by rw [h])

theorem Mem.Spares.refl (m : Mem) : m.Spares me p i m := .of_page rfl

theorem Mem.Spares.trans (h₁ : m.Spares me p i m') (h₂ : m'.Spares me p i m'') :
    m.Spares me p i m'' := ⟨h₂.content.trans h₁.content, fun h => h₂.clear (h₁.clear h)⟩

/-- One page changes. -/
theorem Mem.Spares.setPage (hm : m'.pageArray = (m.setPage q page).pageArray)
    (hc : page.content i = (m.pageArray q).content i)
    (hp : (m.pageArray q).Clear me q i → page.Clear me q i) : m.Spares me p i m' := by
  by_cases hq : p = q
  · subst hq
    constructor <;> rw [hm, setPage_self]
    · exact hc
    · exact hp
  · exact .of_page (by rw [hm, setPage_ne hq])

theorem Page.Clear.no_twin (h : page.Clear me p i) (hs : page.state ≠ .write) :
    page.twinPage = none := by
  cases ht : page.twinPage with
  | none => rfl
  | some t => exact absurd (h.twin t ht).1 hs

/-- A page without a twin may change its state and its content. -/
theorem Page.Clear.of_no_twin {page' : Page} (h : page.Clear me p i)
    (ha : page'.state ≠ .unmap → page'.address ≠ 0) (hs : page'.state ≠ .write)
    (ht : page'.twinPage = none) (hn : page'.notices me = page.notices me) :
    page'.Clear me p i where
  address := ha
  inside hw := absurd hw hs
  twin t htwin := by
    rw [ht] at htwin
    cases htwin
  diffs := by
    rw [hn]
    exact h.diffs

/-- The diff of a page with its twin is zero at the byte. -/
theorem Page.Clear.local_diff (h : page.Clear me p i) {diff : Content}
    (hd : createLocalDiff page.memory page.twinPage = some diff) : diff i = 0 := by
  unfold Page.memory at hd
  cases ht : page.twinPage with
  | none =>
      rw [ht] at hd
      split at hd <;> cases hd
  | some t =>
      rw [ht] at hd
      split at hd
      · cases hd
      · cases hd
        simp [(h.twin t ht).2]

theorem mem_setDiff {ts : Timestamp} {diff : Option Content} {list : List WriteNotice}
    {wn : WriteNotice} (h : wn ∈ setDiff ts diff list) : wn ∈ list ∨ wn.diffAddress = diff := by
  induction list with
  | nil => cases h
  | cons w rest ih =>
      rw [setDiff] at h
      split at h
      · rcases List.mem_cons.mp h with rfl | h
        · exact Or.inr rfl
        · exact Or.inl (List.mem_cons_of_mem _ h)
      · rcases List.mem_cons.mp h with rfl | h
        · exact Or.inl List.mem_cons_self
        · exact (ih h).imp (List.mem_cons_of_mem _) id

/-! ## What spares it -/

theorem createTwinPage_eq (hq : q < maxPageNum) (hs : (m.pageArray q).state = .rdonly)
    (ha : (m.pageArray q).address ≠ 0) (ht : (m.pageArray q).twinPage = none) :
    (createTwinPage q m).2 =
      m.setPage q { m.pageArray q with twinPage := some (m.pageArray q).content } := by
  unfold createTwinPage
  dsimp only
  rw [if_neg (by omega), if_neg (by rw [hs]; simp), if_neg (by rw [ht]; simp [ha])]

theorem createTwinPage_content : (((createTwinPage q m).2).pageArray p).content =
    (m.pageArray p).content := by
  unfold createTwinPage
  dsimp only
  split
  · rfl
  · split
    · rfl
    · split
      · rfl
      · by_cases hq : p = q
        · subst hq
          rw [setPage_self]
        · rw [setPage_ne hq]

theorem createWriteNotice_page (me : Nat) (hq : q < maxPageNum) (hs : (m.pageArray q).state = .rdonly) :
    (createWriteNotice me q m).2.pageArray = (m.setPage q { m.pageArray q with
      notices := upd (m.pageArray q).notices me
        (⟨(m.now me).timestamp, none⟩ :: (m.pageArray q).notices me) }).pageArray := by
  unfold createWriteNotice
  dsimp only
  rw [if_neg (by omega), if_neg (by simp [hs])]

/-- A first store makes a twin that is the page. -/
theorem segvHandler_spares {out : Out} {pc : Pc} (hs : (m.pageArray q).state = .rdonly)
    (h : segvHandler n me q m = some (m', out, pc)) : m.Spares me p i m' := by
  obtain ⟨hq, -, -, rfl⟩ := segvHandler_first hs h
  have hstate : ((createTwinPage q m).2.pageArray q).state = .rdonly := by
    rw [createTwinPage_state, hs]
  have hpages := createWriteNotice_page me hq hstate
  by_cases hpq : p = q
  · subst hpq
    constructor
    · rw [setPage_self]
      dsimp only
      rw [hpages, setPage_self]
      exact congrFun createTwinPage_content i
    · intro hc
      have ha := hc.address (by rw [hs]; simp)
      have ht := createTwinPage_eq hq hs ha (hc.no_twin (by rw [hs]; simp))
      rw [setPage_self, hpages, setPage_self, ht, setPage_self]
      refine ⟨fun _ => ha, fun _ => hq, fun t htwin => ?_, fun wn hm diff hd => ?_⟩
      · cases htwin
        exact ⟨rfl, rfl⟩
      · dsimp only at hm
        rw [upd_self] at hm
        rcases List.mem_cons.mp hm with rfl | hm
        · cases hd
        · exact hc.diffs wn hm diff hd
  · refine .of_page ?_
    rw [setPage_ne hpq, hpages, setPage_ne hpq]
    unfold createTwinPage
    dsimp only
    split
    · rfl
    · split
      · rfl
      · split
        · rfl
        · rw [setPage_ne hpq]

/-- A store next to the byte. -/
theorem storeBytes_spares {o : Nat} {bytes : List Byte}
    (hout : q = p → ¬ (o ≤ i.val ∧ i.val < o + bytes.length)) :
    m.Spares me p i (m.storeBytes q o bytes) := by
  by_cases hq : q = p
  · subst hq
    have hsame : writeBytes (m.pageArray q).content o bytes i = (m.pageArray q).content i := by
      unfold writeBytes
      split
      · next hle =>
          rw [List.getElem?_eq_none (by have := hout rfl; omega)]
          rfl
      · rfl
    refine .setPage rfl hsame fun hc => ⟨hc.address, hc.inside, fun t ht => ?_, hc.diffs⟩
    exact ⟨(hc.twin t ht).1, (hc.twin t ht).2.trans hsame.symm⟩
  · exact .of_page (setPage_ne (Ne.symm hq))

/-- Freeing the twin of one page. -/
theorem freeTwinPage_page (hpq : p ≠ q) :
    ((freeTwinPage q m).2.pageArray p) = m.pageArray p := by
  unfold freeTwinPage
  dsimp only
  split
  · rfl
  · split
    · rfl
    · split
      · rfl
      · rw [setPage_ne hpq]

theorem freeTwinPage_content : ((freeTwinPage q m).2.pageArray p).content =
    (m.pageArray p).content := by
  by_cases hpq : p = q
  · subst hpq
    unfold freeTwinPage
    dsimp only
    split
    · rfl
    · split
      · rfl
      · split
        · rfl
        · rw [setPage_self]
  · rw [freeTwinPage_page hpq]

theorem freeTwinPage_self (hq : q < maxPageNum) (hu : (m.pageArray q).state ≠ .unmap)
    (hm : (m.pageArray q).state ≠ .miss) (ha : (m.pageArray q).address ≠ 0) :
    (freeTwinPage q m).2.pageArray q = { m.pageArray q with twinPage := none } := by
  unfold freeTwinPage
  dsimp only
  rw [if_neg (by omega), if_neg (by simp [hu, hm])]
  cases ht : (m.pageArray q).twinPage with
  | none =>
      rw [if_pos (Or.inr rfl)]
      dsimp only
      rw [← ht]
  | some t => rw [if_neg (by simp [ha]), setPage_self]

/-- A diff that is made, also while the page is written to. -/
theorem makeDiff_spares (ts : Timestamp) : m.Spares me p i (makeDiff me q ts m) := by
  have hdiffs : (m.pageArray q).Clear me q i → ∀ wn ∈ setDiff ts
      (createLocalDiff (m.pageArray q).memory (m.pageArray q).twinPage)
      ((m.pageArray q).notices me), ∀ diff, wn.diffAddress = some diff → diff i = 0 := by
    intro hc wn hwn diff hd
    rcases mem_setDiff hwn with hold | hnew
    · exact hc.diffs wn hold diff hd
    · exact hc.local_diff (hnew ▸ hd)
  unfold makeDiff
  dsimp only
  split
  · next hs =>
      by_cases hpq : p = q
      · subst hpq
        constructor
        · rw [setPage_self]
          dsimp only
          rw [freeTwinPage_content, setPage_self]
        · intro hc
          have ha := hc.address (by rw [hs]; simp)
          rw [setPage_self, freeTwinPage_self (hc.inside hs) (by rw [setPage_self, hs]; simp)
            (by rw [setPage_self, hs]; simp) (by rw [setPage_self]; exact ha), setPage_self]
          refine ⟨fun _ => ha, by simp, by simp, ?_⟩
          dsimp only
          rw [upd_self]
          exact hdiffs hc
      · exact .of_page (by rw [setPage_ne hpq, freeTwinPage_page hpq, setPage_ne hpq])
  · refine .setPage rfl rfl fun hc => ⟨hc.address, hc.inside, hc.twin, ?_⟩
    dsimp only
    rw [upd_self]
    exact hdiffs hc

theorem grantDiff_spares (hostid : Nat) (ts : Timestamp) :
    m.Spares me p i (grantDiff n me hostid ts q m).2.1 := by
  unfold grantDiff
  dsimp only
  split
  · exact .refl m
  · split
    · exact .refl m
    · split
      · exact .refl m
      · split
        · exact .refl m
        · dsimp only
          split
          · exact .refl m
          · exact makeDiff_spares ts

/-- The diff that is sent is zero at the byte. -/
theorem grantDiff_sends_zero {hostid : Nat} {ts ts' : Timestamp} {diff : Content}
    (hc : (m.pageArray p).Clear me p i)
    (hx : (hostid, .grantDiff ts' p diff) ∈ (grantDiff n me hostid ts q m).2.2) :
    diff i = 0 := by
  have hafter := (grantDiff_spares (n := n) (q := q) hostid ts).clear hc
  unfold grantDiff at hx hafter
  dsimp only at hx hafter
  split at hx
  · cases hx
  · next hto =>
      rw [if_neg hto] at hafter
      split at hx
      · cases hx
      · next hq =>
          rw [if_neg hq] at hafter
          split at hx
          · cases hx
          · next hs =>
              rw [if_neg hs] at hafter
              split at hx
              · cases hx
              · next wn hf =>
                  rw [hf] at hafter
                  dsimp only at hx hafter
                  rw [List.mem_singleton] at hx
                  cases hx
                  generalize (if wn.diffAddress.isSome then m else makeDiff me p ts m) = m'
                    at hafter ⊢
                  cases hfound : findNotice ts ((m'.pageArray p).notices me) with
                  | none => rfl
                  | some wn' =>
                      rw [Option.bind_some]
                      cases hd : wn'.diffAddress with
                      | none => rfl
                      | some d => exact hafter.diffs wn' (findNotice_spec hfound).1 d hd

theorem invalidatePage_spares : m.Spares me p i (invalidatePage me q m) := by
  unfold invalidatePage
  dsimp only
  split
  · next hs =>
      refine .setPage rfl rfl fun hc => hc.of_no_twin (fun _ => hc.address (by rw [hs]; simp))
        (by simp) (hc.no_twin (by rw [hs]; simp)) rfl
  · next hs =>
      by_cases hpq : p = q
      · subst hpq
        constructor
        · rw [setPage_self]
          dsimp only
          rw [freeTwinPage_content, setPage_self]
        · intro hc
          have ha := hc.address (by rw [hs]; simp)
          rw [setPage_self, freeTwinPage_self (hc.inside hs) (by rw [setPage_self]; simp)
            (by rw [setPage_self]; simp) (by rw [setPage_self]; exact ha), setPage_self]
          refine ⟨fun _ => ha, by simp, by simp, fun wn hwn diff hd => ?_⟩
          dsimp only at hwn
          rw [upd_self] at hwn
          split at hwn
          · cases hwn
          · next w rest hlist =>
              rcases List.mem_cons.mp hwn with rfl | hwn
              · exact hc.local_diff hd
              · exact hc.diffs wn (by rw [hlist]; exact List.mem_cons_of_mem _ hwn) diff hd
      · exact .of_page (by rw [setPage_ne hpq, freeTwinPage_page hpq, setPage_ne hpq])
  · exact .refl m

theorem record_spares (j : Nat) (ts : Timestamp) : m.Spares me p i (m.record j ts q) := by
  refine .setPage rfl rfl fun hc => ⟨hc.address, hc.inside, hc.twin, fun wn hwn diff hd => ?_⟩
  dsimp only at hwn
  by_cases hj : me = j
  · subst hj
    rw [upd_self] at hwn
    rcases List.mem_cons.mp hwn with rfl | hwn
    · cases hd
    · exact hc.diffs wn hwn diff hd
  · rw [upd_ne hj] at hwn
    exact hc.diffs wn hwn diff hd

theorem Mem.Spares.foldl {α : Type} {f : Mem → α → Mem}
    (hf : ∀ (m : Mem) x, m.Spares me p i (f m x)) (list : List α) (m : Mem) :
    m.Spares me p i (list.foldl f m) := by
  induction list generalizing m with
  | nil => exact .refl m
  | cons x rest ih => exact (hf m x).trans (ih (f m x))

theorem incorporatePackets_spares (k : Nat) (packets : List WnPacket) (m : Mem) :
    m.Spares me p i (incorporatePackets me k packets m) := by
  refine .foldl (fun m packet => ?_) _ m
  refine Mem.Spares.trans (.of_pages ?_) (.foldl (fun m q => ?_) _ _)
  · unfold enterInterval
    dsimp only
    split <;> rfl
  · rw [incorporateNotice_eq]
    split
    · exact .refl m
    · exact invalidatePage_spares.trans (record_spares packet.hostid packet.timestamp)

theorem PageServed.spares {sender : Nat} (hc : PageServed n me sender q h r) :
    h.mem.Spares me p i r.1.mem := by
  cases hc with
  | refused | sent | killed => exact .refl _
  | opened _ _ _ hs =>
      refine .setPage rfl rfl fun hclear => hclear.of_no_twin
        (fun _ => hclear.address (by rw [hs]; simp)) (by simp)
        (hclear.no_twin (by rw [hs]; simp)) rfl
  | hangs => exact .of_pages rfl

/-- A message spares the byte, unless it brings the page or a diff of it. -/
theorem ReadMem.spares {sender : Nat} {msg : Msg} (hc : ReadMem n me sender h msg r)
    (hg : Guards h.mem h.pc) (hpage : ∀ content, msg ≠ .grantPage p content)
    (hdiff : ∀ ts diff, msg ≠ .grantDiff ts p diff) : h.mem.Spares me p i r.1.mem := by
  cases hc with
  | keep _ _ hm _ _ => exact .of_pages (by rw [hm])
  | release _ _ hm _ _ => exact .of_pages (by rw [hm]; rfl)
  | data hmsg =>
      cases msg with
      | acqLock | rlsLock | grantLock | enterBarrier | exitBarrier =>
          rcases hmsg with hmsg | hmsg | hmsg <;> cases hmsg
      | fetchPage q => exact ((dispatch_fetchPage n me sender q h).served hg).spares
      | fetchWnI => exact .refl _
      | grantPage q content =>
          have hpq : p ≠ q := by
            rintro rfl
            exact hpage content rfl
          exact .of_page (setPage_ne hpq)
      | grantDiff ts q diff =>
          have hpq : p ≠ q := by
            rintro rfl
            exact hdiff ts diff rfl
          refine .of_page ?_
          dsimp only [dispatchMsg]
          unfold handleGrantDiffMsg
          dsimp only
          split
          · rfl
          · exact setPage_ne hpq
      | fetchDiff q ts => exact grantDiff_spares sender ts
      | grantWnI ts k packets =>
          have hpush : h.mem.Spares me p i (h.mem.pushNow me ⟨bump me ts, [], false⟩) :=
            .of_pages rfl
          exact (hpush.trans (incorporatePackets_spares k packets _)).trans (.of_pages rfl)
      | grantEnterBarrierInfo ts k packets =>
          refine Mem.Spares.trans (.of_pages ?_) (incorporatePackets_spares k packets _)
          split <;> rfl
      | grantExitBarrierInfo ts k packets =>
          refine Mem.Spares.trans (.of_pages ?_) (incorporatePackets_spares k packets _)
          split <;> rfl

/-- A diff that is zero at the byte comes to an `INVALID` page. -/
theorem handleGrantDiffMsg_content {sender : Nat} {ts : Timestamp} {diff : Content}
    (hz : diff i = 0) : ((handleGrantDiffMsg sender ts p diff m).pageArray p).content i =
      (m.pageArray p).content i := by
  unfold handleGrantDiffMsg
  dsimp only
  split
  · rfl
  · show ((m.setPage p _).pageArray p).content i = _
    rw [setPage_self]
    unfold applyDiff
    cases hmem : (m.pageArray p).memory with
    | none => rfl
    | some content =>
        obtain rfl : content = (m.pageArray p).content := by
          unfold Page.memory at hmem
          split at hmem <;> cases hmem
          rfl
        simp [hz]

theorem handleGrantDiffMsg_clear {sender : Nat} {ts : Timestamp} {diff : Content}
    (hne : sender ≠ me) (hs : (m.pageArray p).state = .invalid)
    (hc : (m.pageArray p).Clear me p i) :
    ((handleGrantDiffMsg sender ts p diff m).pageArray p).Clear me p i := by
  unfold handleGrantDiffMsg
  dsimp only
  split
  · exact hc
  · show ((m.setPage p _).pageArray p).Clear me p i
    rw [setPage_self]
    exact hc.of_no_twin hc.address (by rw [hs]; simp) (hc.no_twin (by rw [hs]; simp))
      (upd_ne (Ne.symm hne))

theorem handleGrantPageMsg_clear {content : Content} (hs : (m.pageArray p).state = .miss)
    (hc : (m.pageArray p).Clear me p i) :
    ((handleGrantPageMsg me p content m).pageArray p).Clear me p i := by
  show ((m.setPage p _).pageArray p).Clear me p i
  rw [setPage_self]
  exact hc.of_no_twin hc.address (by rw [hs]; simp) (hc.no_twin (by rw [hs]; simp)) rfl

/-! ## The main thread -/

theorem allocPages_spares (k : Nat) (hb : ∀ q, m.pagenum ≤ q → (m.pageArray q).state = .unmap) :
    m.Spares me p i (allocPages n me k m) := by
  induction k generalizing m with
  | zero => exact .refl m
  | succ k ih =>
      refine Mem.Spares.trans ?_ (ih fun q hq => ?_)
      · refine .setPage rfl rfl fun hc => ?_
        have hu := hb m.pagenum (Nat.le_refl _)
        refine hc.of_no_twin (fun _ => ?_) ?_ (hc.no_twin (by rw [hu]; simp)) rfl
        · show startAddress + m.globalAddress ≠ 0
          simp
        · show (if m.pagenum % n = me then PageState.rdonly else .miss) ≠ .write
          split <;> simp
      · have hq' : m.pagenum + 1 ≤ q := hq
        show ((m.setPage m.pagenum _).pageArray q).state = .unmap
        rw [setPage_ne (by omega)]
        exact hb q (by omega)

theorem FaultCase.spares {st : PageState} {out : Out} {pc : Pc}
    (hc : FaultCase q st m (m', out, pc)) (hs : (m.pageArray q).state = st) :
    m.Spares me p i m' := by
  cases hc with
  | page | diff => exact .of_pages rfl
  | done hst =>
      refine .setPage rfl rfl fun hclear => ?_
      have hno : (m.pageArray q).state ≠ .unmap ∧ (m.pageArray q).state ≠ .write := by
        rw [hs]
        rcases hst with rfl | rfl <;> simp
      exact hclear.of_no_twin (fun _ => hclear.address hno.1) (by simp) (hclear.no_twin hno.2) rfl

/-- A segment of the main thread spares what it does not store to. -/
theorem PageExec.spares {op : Op} (hc : PageExec n me h op r)
    (hh : Guards h.mem h.pc)
    (hb : ∀ q, h.mem.pagenum ≤ q → (h.mem.pageArray q).state = .unmap)
    (hout : ∀ o bytes, op = .store p o bytes → (h.mem.pageArray p).Readable →
      ¬ (o ≤ i.val ∧ i.val < o + bytes.length)) : h.mem.Spares me p i r.1.mem := by
  cases hc with
  | keep hm _ _ _ => exact .of_pages hm
  | alloc size =>
      show h.mem.Spares me p i (miAlloc n me size h.mem).2
      unfold miAlloc
      split
      · exact .refl _
      · dsimp only
        split
        · exact .refl _
        · exact allocPages_spares _ hb
  | fault q _ _ hf => exact hf.spares rfl
  | write q o bytes _ hs =>
      refine storeBytes_spares fun hq => ?_
      subst hq
      exact hout o bytes rfl (Or.inr hs)
  | first q o bytes _ hs hseg =>
      refine (segvHandler_spares hs hseg).trans (storeBytes_spares fun hq => ?_)
      subst hq
      exact hout o bytes rfl (Or.inl hs)
  | pageBack q hpc =>
      have hs := hh.miss q hpc
      refine .setPage rfl rfl fun hclear => hclear.of_no_twin
        (fun _ => hclear.address (by rw [hs]; simp)) (by simp)
        (hclear.no_twin (by rw [hs]; simp)) rfl
  | diffBack q ts j left hpc _ hf => exact hf.spares (hh.invalid q ts j left hpc)

/-- A store that takes effect writes into the page as it was. -/
theorem PageExec.stores {op : Op} {o : Nat} {bytes : List Byte} (hc : PageExec n me h op r)
    (hop : op = .store p o bytes) (hread : (h.mem.pageArray p).Readable) :
    (r.1.mem.pageArray p).content i = writeBytes (h.mem.pageArray p).content o bytes i := by
  have hwrite : ∀ m : Mem, ((m.storeBytes p o bytes).pageArray p).content =
      writeBytes (m.pageArray p).content o bytes := by
    intro m
    show ((m.setPage p _).pageArray p).content = _
    rw [setPage_self]
  cases hc with
  | keep _ _ _ _ hno => exact absurd hop (hno p o bytes)
  | alloc | pageBack | diffBack => cases hop
  | fault q _ hq hf =>
      obtain rfl := hq p o bytes hop
      rcases hread with hs | hs <;> rw [hs] at hf <;> rcases hf with ⟨_, hst⟩ | ⟨_, _, _, _, hst⟩ | hst
      · cases hst
      · cases hst
      · rcases hst with hst | hst <;> cases hst
      · cases hst
      · cases hst
      · rcases hst with hst | hst <;> cases hst
  | write =>
      cases hop
      exact congrFun (hwrite _) i
  | first _ _ _ _ hs hseg =>
      cases hop
      have hspares : h.mem.Spares me p i _ := segvHandler_spares hs hseg
      refine (congrFun (hwrite _) i).trans ?_
      unfold writeBytes
      rw [hspares.content]

end

/-! ## All hosts -/

/-- Shared memory as the stores that take effect leave it. -/
def noteStored (g : Nat → Content) (s : Sys) : Event → Sys → Nat → Content
  | .op a (.store p o bytes), _ =>
      if ((s.host a).mem.pageArray p).Readable then upd g p (writeBytes (g p) o bytes) else g
  | _, _ => g

/-- No other host than `x` stores to the bytes `len` from offset `o` of page `p` on. -/
def OnlyWriter (x p o len : Nat) (_ : Sys × (Nat → Content)) : Event → Prop
  | .op a (.store q o' bytes) =>
      a = x ∨ q ≠ p ∨ o' + bytes.length ≤ o ∨ o + len ≤ o'
  | _ => True

instance (x p o len : Nat) (t : Sys × (Nat → Content)) (e : Event) :
    Decidable (OnlyWriter x p o len t e) :=
  match e with
  | .op a (.store q o' bytes) =>
      inferInstanceAs (Decidable (a = x ∨ q ≠ p ∨ o' + bytes.length ≤ o ∨ o + len ≤ o'))
  | .op _ (.alloc _) | .op _ (.load _ _ _) | .op _ (.lock _) | .op _ (.unlock _)
  | .op _ .barrier | .op _ .resume | .deliver _ _ => isTrue trivial

/-- Byte `i` of page `p`, to which host `x` alone stores, and which has the value `v`. -/
structure Sole (p : Nat) (i : Fin pageSize) (x : Nat) (v : Byte) (s : Sys) : Prop where
  own : ((s.host x).mem.pageArray p).content i = v
  clear : ∀ y ≠ x, ((s.host y).mem.pageArray p).Clear y p i
  sent : ∀ y ≠ x, ∀ z ts diff, .grantDiff ts p diff ∈ s.net y z → diff i = 0
  ownSent : ∀ z ts diff, .grantDiff ts p diff ∈ s.net x z → ((s.host x).mem.pageArray p).Live
  /-- As long as `x` lacks the page, the byte is zero everywhere. -/
  fresh : ¬ ((s.host x).mem.pageArray p).Live →
    (∀ y, ((s.host y).mem.pageArray p).content i = 0) ∧
      ∀ y z content, .grantPage p content ∈ s.net y z → content i = 0

section

variable {n p a b x : Nat} {i : Fin pageSize} {v : Byte} {g : Nat → Content} {s s' : Sys}
  {r : Host × Out} {msg : Msg} {rest : List Msg}

theorem Sole.init (p : Nat) (i : Fin pageSize) (x : Nat) : Sole p i x 0 initSys where
  own := rfl
  clear y _ := ⟨fun h => absurd rfl h, by simp [initSys, initmem], by simp [initSys, initmem],
    by simp [initSys, initmem]⟩
  sent y _ z ts diff h := by cases h
  ownSent z ts diff h := by cases h
  fresh _ := ⟨fun y => rfl, fun y z content h => by cases h⟩

theorem noteStored_other {op : Op} (h : ∀ o bytes, op = .store p o bytes →
    ((s.host a).mem.pageArray p).Readable → ¬ (o ≤ i.val ∧ i.val < o + bytes.length)) :
    noteStored g s (.op a op) s' p i = g p i := by
  cases op with
  | store q o bytes =>
      dsimp only [noteStored]
      split
      · next hread =>
          by_cases hq : p = q
          · subst hq
            rw [upd_self]
            unfold writeBytes
            split
            · next hle =>
                rw [List.getElem?_eq_none (by have := h o bytes rfl hread; omega)]
                rfl
            · rfl
          · rw [upd_ne hq]
      · rfl
  | _ => rfl

theorem Sole.exec (h : Sole p i x (g p i) s) (hw : Awaited n s) (ha : a < n)
    (hh : (s.host a).hung = false) {op : Op} (hr : (s.host a).exec n a op = some r)
    (hown : ∀ o bytes, op = .store p o bytes → o ≤ i.val → i.val < o + bytes.length → x = a) :
    Sole p i x (noteStored g s (.op a op) (s.put a r) p i) (s.put a r) := by
  have hc := exec_pageExec (hw.guards a) hr
  have hb := hw.answered.sound.beyond a ha
  have hsend : ∀ y ∈ r.2, y.2.serves = false := by
    intro y hy
    cases hserves : y.2.serves with
    | false => rfl
    | true =>
        have habout : y.2.aboutPage = true := by
          cases hmsg : y.2 <;> rw [hmsg] at hserves <;> first | rfl | cases hserves
        obtain ⟨⟨q, ts, he⟩, -⟩ := hc.sends y hy habout
        rcases he with he | he <;> rw [he] at hserves <;> cases hserves
  have hold : ∀ {y z msg}, msg ∈ (s.put a r).net y z → msg.serves = true → msg ∈ s.net y z := by
    intro y z msg hm hserves
    rcases mem_put_net hm with hm | ⟨-, ho⟩
    · exact hm
    · rw [hsend _ ho] at hserves
      cases hserves
  have hlive : ((s.host x).mem.pageArray p).Live →
      (((s.put a r).host x).mem.pageArray p).Live := by
    intro hl
    by_cases hx : x = a
    · subst hx
      refine hw.answered.live_mono (e := .op x op) ?_ ha hl
      simp [step, ha, hh, hr]
    · rw [put_host_ne hx]
      exact hl
  by_cases hstore : ∃ o bytes, op = .store p o bytes ∧ ((s.host a).mem.pageArray p).Readable ∧
      o ≤ i.val ∧ i.val < o + bytes.length
  · obtain ⟨o, bytes, rfl, hread, hle, hlt⟩ := hstore
    obtain rfl := hown o bytes rfl hle hlt
    refine ⟨?_, fun y hy => ?_, fun y hy z ts diff hm => h.sent y hy z ts diff (hold hm rfl),
      fun z ts diff hm => hlive (h.ownSent z ts diff (hold hm rfl)),
      fun hno => absurd (hlive hread.live) hno⟩
    · rw [put_host_self, hc.stores rfl hread]
      dsimp only [noteStored]
      rw [if_pos hread, upd_self]
      unfold writeBytes
      rw [h.own]
    · rw [put_host_ne hy]
      exact h.clear y hy
  · have hout : ∀ o bytes, op = .store p o bytes → ((s.host a).mem.pageArray p).Readable →
        ¬ (o ≤ i.val ∧ i.val < o + bytes.length) :=
      fun o bytes hop hread hin => hstore ⟨o, bytes, hop, hread, hin⟩
    have hspares : ∀ y, (s.host y).mem.Spares y p i ((s.put a r).host y).mem :=
      put_host_forall (P := fun y h => (s.host y).mem.Spares y p i h.mem)
        (hc.spares (hw.guards a) hb hout) fun y _ => .refl _
    rw [noteStored_other hout]
    refine ⟨(hspares x).content.trans h.own, fun y hy => (hspares y).clear (h.clear y hy),
      fun y hy z ts diff hm => h.sent y hy z ts diff (hold hm rfl),
      fun z ts diff hm => hlive (h.ownSent z ts diff (hold hm rfl)), fun hno => ?_⟩
    obtain ⟨hzero, hsent⟩ := h.fresh fun hl => hno (hlive hl)
    exact ⟨fun y => (hspares y).content.trans (hzero y),
      fun y z content hm => hsent y z content (hold hm rfl)⟩

/-- What a message makes of the byte: its owner keeps it, it stays zero as long as the owner
lacks the page, and the others keep their twins in step with it. -/
theorem Sole.read (h : Sole p i x v s) (hw : Awaited n s) (hne : a ≠ b)
    (hh : (s.host b).hung = false) (hm : msg ∈ s.net a b) :
    (b = x → ((dispatchMsg n b a msg (s.host b)).1.mem.pageArray p).content i =
        ((s.host b).mem.pageArray p).content i) ∧
      (¬ ((s.host x).mem.pageArray p).Live →
        ((dispatchMsg n b a msg (s.host b)).1.mem.pageArray p).content i = 0) ∧
      (b ≠ x → ((dispatchMsg n b a msg (s.host b)).1.mem.pageArray p).Clear b p i) := by
  by_cases hpage : ∃ content, msg = .grantPage p content
  · obtain ⟨content, rfl⟩ := hpage
    have hs := hw.page_missing hh hm
    have hnew : ((dispatchMsg n b a (.grantPage p content) (s.host b)).1.mem.pageArray p).content =
        content := by
      show ((Mem.setPage p _ _).pageArray p).content = content
      rw [setPage_self]
    refine ⟨fun hx => ?_, fun hno => ?_, fun hx => handleGrantPageMsg_clear hs (h.clear b hx)⟩
    · subst hx
      have hno : ¬ ((s.host b).mem.pageArray p).Live := fun hl => hl.2 hs
      rw [hnew, (h.fresh hno).2 a b content hm, (h.fresh hno).1 b]
    · rw [hnew, (h.fresh hno).2 a b content hm]
  · by_cases hdiff : ∃ ts diff, msg = .grantDiff ts p diff
    · obtain ⟨ts, diff, rfl⟩ := hdiff
      have hs := hw.page_invalid hh hm
      refine ⟨fun hx => ?_, fun hno => ?_,
        fun hx => handleGrantDiffMsg_clear hne hs (h.clear b hx)⟩
      · subst hx
        exact handleGrantDiffMsg_content (h.sent a hne b ts diff hm)
      · have hax : a ≠ x := by
          rintro rfl
          exact hno (h.ownSent b ts diff hm)
        exact (handleGrantDiffMsg_content (h.sent a hax b ts diff hm)).trans ((h.fresh hno).1 b)
    · have hspares := (dispatch_mem n b a msg (s.host b)).spares (p := p) (i := i)
        (hw.guards b) (fun content hc => hpage ⟨content, hc⟩) fun ts diff hd => hdiff ⟨ts, diff, hd⟩
      exact ⟨fun _ => hspares.content, fun hno => hspares.content.trans ((h.fresh hno).1 b),
        fun hx => hspares.clear (h.clear b hx)⟩

/-- What a message makes a host send of the page. -/
theorem Sole.sends (h : Sole p i x v s) (hw : Awaited n s) (hm : msg ∈ s.net a b) :
    ∀ z msg', (z, msg') ∈ (dispatchMsg n b a msg (s.host b)).2 → msg'.serves = true →
      (∀ ts diff, msg' = .grantDiff ts p diff → (b ≠ x → diff i = 0) ∧
        ((s.host b).mem.pageArray p).Live) ∧
      ∀ content, msg' = .grantPage p content → ((s.host b).mem.pageArray p).Live ∧
        content = ((s.host b).mem.pageArray p).content := by
  intro z msg' ho hserves
  obtain ⟨hz, ⟨q, content, rfl, he⟩ | ⟨q, ts, diff, rfl, he⟩⟩ :=
    (dispatch_sends n b a msg (hw.guards b) _ ho).2 hserves <;> dsimp only at hz he <;> subst hz he
  · refine ⟨fun ts diff hd => absurd hd (by simp), fun content' hc => ?_⟩
    cases hc
    have hserved := (dispatch_fetchPage n b z p (s.host b)).served (hw.guards b)
    generalize dispatchMsg n b z (.fetchPage p) (s.host b) = r at hserved ho
    cases hserved with
    | refused | killed => cases ho
    | sent _ _ _ hl =>
        cases List.mem_singleton.mp ho
        exact ⟨hl, rfl⟩
    | opened _ _ _ hs =>
        cases List.mem_singleton.mp ho
        exact ⟨⟨by simp [hs], by simp [hs]⟩, rfl⟩
    | hangs => cases List.mem_singleton.mp ho
  · have hout : (z, .grantDiff ts q diff) ∈ (grantDiff n b z ts q (s.host b).mem).2.2 := ho
    refine ⟨fun ts' diff' hd => ?_, fun content' hc => absurd hc (by simp)⟩
    cases hd
    refine ⟨fun hx => ?_, (hw.answered.sound.servable hm).2.1⟩
    exact grantDiff_sends_zero (h.clear b hx) hout

theorem Sole.deliver (h : Sole p i x v s) (hw : Awaited n s) (ha : a < n) (hb : b < n)
    (hne : a ≠ b) (hh : (s.host b).hung = false) (hnet : s.net a b = msg :: rest) :
    Sole p i x v ((s.pop a b).put b (dispatchMsg n b a msg (s.host b))) := by
  have hhead : msg ∈ s.net a b := by rw [hnet]; exact List.mem_cons_self
  have hlive : ((s.host x).mem.pageArray p).Live →
      ((((s.pop a b).put b (dispatchMsg n b a msg (s.host b))).host x).mem.pageArray p).Live := by
    intro hl
    by_cases hx : x = b
    · subst hx
      refine hw.answered.live_mono (e := .deliver a x) ?_ hb hl
      simp [step, ha, hb, hne, hh, hnet]
    · rw [put_host_ne hx]
      exact hl
  have hread : (b = x → ((dispatchMsg n b a msg (s.host b)).1.mem.pageArray p).content i =
        ((s.host b).mem.pageArray p).content i) ∧
      (¬ ((s.host x).mem.pageArray p).Live →
        ((dispatchMsg n b a msg (s.host b)).1.mem.pageArray p).content i = 0) ∧
      (b ≠ x → ((dispatchMsg n b a msg (s.host b)).1.mem.pageArray p).Clear b p i) :=
    h.read hw hne hh hhead
  have hsent : ∀ z msg', (z, msg') ∈ (dispatchMsg n b a msg (s.host b)).2 → msg'.serves = true →
      (∀ ts diff, msg' = .grantDiff ts p diff → (b ≠ x → diff i = 0) ∧
        ((s.host b).mem.pageArray p).Live) ∧
      ∀ content, msg' = .grantPage p content → ((s.host b).mem.pageArray p).Live ∧
        content = ((s.host b).mem.pageArray p).content := h.sends hw hhead
  generalize dispatchMsg n b a msg (s.host b) = r at hlive hread hsent ⊢
  obtain ⟨hself, hzero, hclear⟩ := hread
  have hfresh : ¬ (((s.pop a b).put b r).host x |>.mem.pageArray p).Live →
      ¬ ((s.host x).mem.pageArray p).Live := fun hno hl => hno (hlive hl)
  refine ⟨?_, fun y hy => ?_, fun y hy z ts diff hm => ?_, fun z ts diff hm => hlive ?_,
    fun hno => ⟨fun y => ?_, fun y z content hm => ?_⟩⟩
  · by_cases hx : x = b
    · subst hx
      rw [put_host_self, hself rfl, h.own]
    · rw [put_host_ne hx]
      exact h.own
  · by_cases hyb : y = b
    · subst hyb
      rw [put_host_self]
      exact hclear hy
    · rw [put_host_ne hyb]
      exact h.clear y hy
  · rcases mem_put_net hm with hm | ⟨rfl, ho⟩
    · exact h.sent y hy z ts diff (mem_of_mem_pop hm)
    · exact ((hsent z _ ho rfl).1 ts diff rfl).1 hy
  · rcases mem_put_net hm with hm | ⟨rfl, ho⟩
    · exact h.ownSent z ts diff (mem_of_mem_pop hm)
    · exact ((hsent z _ ho rfl).1 ts diff rfl).2
  · by_cases hyb : y = b
    · rw [hyb, put_host_self]
      exact hzero (hfresh hno)
    · rw [put_host_ne hyb]
      exact (h.fresh (hfresh hno)).1 y
  · rcases mem_put_net hm with hm | ⟨rfl, ho⟩
    · exact (h.fresh (hfresh hno)).2 y z content (mem_of_mem_pop hm)
    · rw [((hsent z _ ho rfl).2 content rfl).2]
      exact (h.fresh (hfresh hno)).1 y

theorem Sole.step {e : Event} (h : Sole p i x (g p i) s) (hw : Awaited n s)
    (hown : ∀ a o bytes, e = .op a (.store p o bytes) → o ≤ i.val → i.val < o + bytes.length →
      x = a) (he : Midsm.step n s e = some s') : Sole p i x (noteStored g s e s' p i) s' := by
  obtain ⟨a, op, r, rfl, ha, hr, rfl⟩ |
    ⟨a, b, msg, rest, rfl, ha, hb, hne, hnet, rfl⟩ := step_cases he
  · exact h.exec hw ha (step_awake he) hr fun o bytes hop => hown a o bytes (by rw [hop])
  · exact h.deliver hw ha hb hne (step_awake he) hnet

theorem readBytes_congr {content content' : Content} {o len : Nat}
    (h : ∀ i : Fin pageSize, o ≤ i.val → i.val < o + len → content i = content' i) :
    readBytes content o len = readBytes content' o len := by
  refine List.map_congr_left fun k hk => ?_
  have hlt := List.mem_range.mp hk
  split
  · exact h _ (Nat.le_add_right _ _) (by simp [hlt])
  · rfl

/-- Whatever the other hosts store elsewhere in a page, at the same time, and whoever fetches
it: a host that alone stores to some bytes of it always loads from them what it has stored
there last. -/
theorem sole_writer_reads_own_stores (n : Nat) {o len : Nat} {g : Nat → Content}
    (h : Reach (withGhost (step n) noteStored) (OnlyWriter x p o len)
      (initSys, fun _ _ => 0) (s, g))
    {word : List Byte} (hload : (s.host x).loaded p o len = some word) :
    word = readBytes (g p) o len := by
  have hinv : Awaited n s ∧ ∀ i : Fin pageSize, o ≤ i.val → i.val < o + len →
      Sole p i x (g p i) s := by
    refine h.invariant
      (P := fun t => Awaited n t.1 ∧ ∀ i : Fin pageSize, o ≤ i.val → i.val < o + len →
        Sole p i x (t.2 p i) t.1)
      ⟨.init n, fun i _ _ => .init p i x⟩ fun {t t' e} ht hok he => ?_
    obtain ⟨hs, hg⟩ := withGhost_eq_some.mp he
    refine ⟨ht.1.step hs, fun i hle hlt => ?_⟩
    rw [hg]
    refine (ht.2 i hle hlt).step ht.1 (fun a o' bytes hop hle' hlt' => ?_) hs
    subst hop
    have hx : a = x ∨ p ≠ p ∨ o' + bytes.length ≤ o ∨ o + len ≤ o' := hok
    omega
  unfold Host.loaded at hload
  split at hload
  · split at hload
    · cases hload
      exact readBytes_congr fun i hle hlt => (hinv.2 i hle hlt).own
    · cases hload
  · cases hload

/-- Host 1 stores to byte 1 of a page while host 0 stores to byte 0, and then fetches the
other's diff. -/
theorem sole_writer_reads_own_stores_two :
    ∃ (s : Sys) (g : Nat → Content), (s.host 1).loaded 0 0 2 = some [7, 5] ∧
      readBytes (g 0) 1 1 = [5] := by
  obtain ⟨⟨s, g⟩, hrun, hp⟩ := exists_reach (withGhost (step 2) noteStored)
    (fun t e => decide (OnlyWriter 1 0 1 1 t e)) (fun _ _ => of_decide_eq_true)
    (initSys, fun _ _ => 0)
    [.op 0 (.alloc 4096), .op 1 (.alloc 4096), .op 1 (.load 0 0 1), .deliver 1 0,
      .deliver 0 1, .op 1 .resume, .op 1 (.store 0 1 [5]), .op 0 (.lock 0),
      .op 0 (.store 0 0 [7]), .op 0 (.unlock 0), .op 1 (.lock 0), .deliver 1 0, .deliver 0 1,
      .op 1 .resume, .deliver 1 0, .deliver 0 1, .op 1 .resume, .op 1 (.load 0 1 1),
      .deliver 1 0, .deliver 0 1, .op 1 .resume]
    (fun t => ((t.1.host 1).loaded 0 1 1 == some [5]) &&
      ((t.1.host 1).loaded 0 0 2 == some [7, 5])) (by decide +kernel)
  rw [Bool.and_eq_true, beq_iff_eq, beq_iff_eq] at hp
  exact ⟨s, g, hp.2, (sole_writer_reads_own_stores 2 hrun hp.1).symm⟩

end

end Midsm
