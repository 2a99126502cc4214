import Midsm.Proofs.Packets

/-!
# What guards a page

A page has the protection its state asks for, but for one that has just arrived:
`handleGrantPageMsg` maps it writable before `segv_handler` makes it `RDONLY`, and until
then it is `MISS`. `Guards` says that of the memory of one host, together with what its
main thread can be waiting for. So the program's loads and stores fault exactly where
the state does not grant them. What handlers do to a page can only take access away
(`Mem.Loses`).
-/

namespace Midsm

/-- The protection that goes with a state. -/
def PageState.prot : PageState → Prot
  | .rdonly => .read
  | .write => .readWrite
  | .unmap | .miss | .invalid => .none

def Page.Guarded (page : Page) : Prop :=
  page.prot = page.state.prot ∨ page.state = .miss ∧ page.prot = .readWrite

/-- A page keeps its state and its protection, or loses access that it granted. -/
def Page.Loses (page page' : Page) : Prop :=
  page'.state = page.state ∧ page'.prot = page.prot ∨
    (page.state = .rdonly ∨ page.state = .write) ∧
      (page'.state = .rdonly ∨ page'.state = .invalid) ∧ page'.prot = page'.state.prot

def Mem.Loses (m m' : Mem) : Prop := ∀ p, (m.pageArray p).Loses (m'.pageArray p)

/-- No page changes its state or its protection. -/
def Mem.Kept (m m' : Mem) : Prop := ∀ p, (m'.pageArray p).state = (m.pageArray p).state ∧
  (m'.pageArray p).prot = (m.pageArray p).prot

structure Guards (m : Mem) (pc : Pc) : Prop where
  page : ∀ p, (m.pageArray p).Guarded
  /-- A `MISS` page has memory only when it has just arrived. -/
  arrived : ∀ p, (m.pageArray p).state = .miss → (m.pageArray p).prot ≠ .none →
    pc = .pageWait p
  miss : ∀ p, pc = .pageWait p → (m.pageArray p).state = .miss
  invalid : ∀ p ts i rest, pc = .diffWait p ts i rest → (m.pageArray p).state = .invalid

section

variable {n me p : Nat} {m m' m'' : Mem} {page page' page'' : Page} {pc pc' : Pc}

theorem Page.Guarded.prot_eq (h : page.Guarded) (hm : page.state ≠ .miss) :
    page.prot = page.state.prot := h.resolve_right fun hg => hm hg.1

/-! ## What is lost -/

theorem Page.Loses.trans (h₁ : page.Loses page') (h₂ : page'.Loses page'') :
    page.Loses page'' := by
  rcases h₁ with ⟨hs, hp⟩ | ⟨hr, hs, hp⟩ <;> rcases h₂ with ⟨hs', hp'⟩ | ⟨hr', hs', hp'⟩
  · exact Or.inl ⟨hs'.trans hs, hp'.trans hp⟩
  · exact Or.inr ⟨hs ▸ hr', hs', hp'⟩
  · exact Or.inr ⟨hr, hs' ▸ hs, by rw [hp', hs', hp]⟩
  · exact Or.inr ⟨hr, hs', hp'⟩

/-- A page that grants no access is left alone. -/
theorem Page.Loses.still (h : page.Loses page') (hr : page.state ≠ .rdonly)
    (hw : page.state ≠ .write) : page'.state = page.state ∧ page'.prot = page.prot :=
  h.resolve_right fun hl => hl.1.elim hr hw

theorem Page.Loses.guarded (h : page.Loses page') (hg : page.Guarded) : page'.Guarded := by
  rcases h with ⟨hs, hp⟩ | ⟨-, -, hp⟩
  · unfold Guarded
    rwa [hs, hp]
  · exact Or.inl hp

theorem Mem.Kept.refl (m : Mem) : m.Kept m := fun _ => ⟨rfl, rfl⟩

theorem Mem.Kept.trans (h₁ : m.Kept m') (h₂ : m'.Kept m'') : m.Kept m'' := fun p =>
  ⟨(h₂ p).1.trans (h₁ p).1, (h₂ p).2.trans (h₁ p).2⟩

theorem Mem.Kept.of_pages (h : m'.pageArray = m.pageArray) : m.Kept m' := fun p => by
  rw [h]
  exact ⟨rfl, rfl⟩

theorem Mem.Kept.setPage (hm : m'.pageArray = (m.setPage p page).pageArray)
    (hs : page.state = (m.pageArray p).state) (hg : page.prot = (m.pageArray p).prot) :
    m.Kept m' := by
  intro q
  rw [hm]
  by_cases hq : q = p
  · subst hq
    rw [setPage_self]
    exact ⟨hs, hg⟩
  · rw [setPage_ne hq]
    exact ⟨rfl, rfl⟩

theorem Mem.Kept.loses (h : m.Kept m') : m.Loses m' := fun p => Or.inl (h p)

theorem Mem.Loses.refl (m : Mem) : m.Loses m := (Mem.Kept.refl m).loses

theorem Mem.Loses.trans (h₁ : m.Loses m') (h₂ : m'.Loses m'') : m.Loses m'' := fun p =>
  (h₁ p).trans (h₂ p)

theorem Mem.Loses.setPage (h : (m.pageArray p).Loses page) : m.Loses (m.setPage p page) := by
  intro q
  by_cases hq : q = p
  · subst hq
    rw [setPage_self]
    exact h
  · rw [setPage_ne hq]
    exact Or.inl ⟨rfl, rfl⟩

theorem createTwinPage_kept (p : Nat) (m : Mem) : m.Kept (createTwinPage p m).2 := by
  unfold createTwinPage
  dsimp only
  split
  · exact .refl m
  · split
    · exact .refl m
    · split
      · exact .refl m
      · exact .setPage rfl rfl rfl

theorem freeTwinPage_kept (p : Nat) (m : Mem) : m.Kept (freeTwinPage p m).2 := by
  unfold freeTwinPage
  dsimp only
  split
  · exact .refl m
  · split
    · exact .refl m
    · split
      · exact .refl m
      · exact .setPage rfl rfl rfl

theorem createWriteNotice_kept (me p : Nat) (m : Mem) :
    m.Kept (createWriteNotice me p m).2 := by
  unfold createWriteNotice
  dsimp only
  split
  · exact .refl m
  · split
    · exact .refl m
    · exact .setPage rfl rfl rfl

theorem makeDiff_loses (me p : Nat) (ts : Timestamp) (m : Mem) : m.Loses (makeDiff me p ts m) := by
  unfold makeDiff
  dsimp only
  have hset : m.Kept (m.setPage p { m.pageArray p with
      notices := upd (m.pageArray p).notices me
        (setDiff ts (createLocalDiff (m.pageArray p).memory (m.pageArray p).twinPage)
          ((m.pageArray p).notices me)) }) := .setPage rfl rfl rfl
  split
  · next hs =>
      intro q
      by_cases hq : q = p
      · subst hq
        rw [setPage_self]
        exact Or.inr ⟨Or.inr hs, Or.inl rfl, rfl⟩
      · rw [setPage_ne hq]
        exact Or.inl ((hset.trans (freeTwinPage_kept p _)) q)
  · exact hset.loses

theorem grantDiff_loses (n me hostid : Nat) (ts : Timestamp) (p : Nat) (m : Mem) :
    m.Loses (grantDiff n me hostid ts p m).2.1 := by
  unfold grantDiff
  dsimp only
  split
  · exact .refl m
  · split
    · exact .refl m
    · split
      · exact .refl m
      · split
        · exact .refl m
        · dsimp only
          split
          · exact .refl m
          · exact makeDiff_loses me p ts m

/-- A diff arrives for a page that is not mapped for access. -/
theorem handleGrantDiffMsg_kept {i : Nat} (hg : (m.pageArray p).prot = .none) (ts : Timestamp)
    (diff : Content) : m.Kept (handleGrantDiffMsg i ts p diff m) := by
  unfold handleGrantDiffMsg
  dsimp only
  split
  · exact .of_pages rfl
  · exact .setPage rfl rfl hg.symm

theorem invalidatePage_loses (me p : Nat) (m : Mem) : m.Loses (invalidatePage me p m) := by
  unfold invalidatePage
  dsimp only
  split
  · next hs => exact .setPage (Or.inr ⟨Or.inl hs, Or.inr rfl, rfl⟩)
  · next hs =>
      intro q
      by_cases hq : q = p
      · subst hq
        rw [setPage_self]
        refine Or.inr ⟨Or.inr hs, Or.inr ?_, ?_⟩ <;> dsimp only <;>
          rw [(freeTwinPage_kept q _ q).1, setPage_self]
        rfl
      · rw [setPage_ne hq]
        refine Or.inl ⟨(freeTwinPage_kept p _ q).1.trans ?_, (freeTwinPage_kept p _ q).2.trans ?_⟩ <;>
          rw [setPage_ne hq]
  · exact .refl m

theorem record_kept (j : Nat) (ts : Timestamp) (p : Nat) (m : Mem) : m.Kept (m.record j ts p) :=
  .setPage rfl rfl rfl

theorem incorporateNotice_loses (me j : Nat) (ts : Timestamp) (m : Mem) (p : Nat) :
    m.Loses (incorporateNotice me j ts m p) := by
  rw [incorporateNotice_eq]
  split
  · exact .refl m
  · exact (invalidatePage_loses me p m).trans (record_kept j ts p _).loses

theorem Mem.Loses.foldl {α : Type} {f : Mem → α → Mem} (hf : ∀ (m : Mem) x, m.Loses (f m x))
    (list : List α) (m : Mem) : m.Loses (list.foldl f m) := by
  induction list generalizing m with
  | nil => exact .refl m
  | cons x rest ih => exact (hf m x).trans (ih (f m x))

theorem incorporateWnPacket_loses (me : Nat) (m : Mem) (packet : WnPacket) :
    m.Loses (incorporateWnPacket me m packet) := by
  refine Mem.Loses.trans (Mem.Kept.of_pages ?_).loses
    (.foldl (fun m p => incorporateNotice_loses me packet.hostid packet.timestamp m p) _ _)
  unfold enterInterval
  dsimp only
  split <;> rfl

theorem incorporatePackets_loses (me k : Nat) (packets : List WnPacket) (m : Mem) :
    m.Loses (incorporatePackets me k packets m) :=
  .foldl (incorporateWnPacket_loses me) _ m

/-! ## What holds -/

theorem Guards.init (me : Nat) : Guards (initmem me) .run :=
  ⟨fun _ => Or.inl rfl, nofun, nofun, nofun⟩

/-- Outside of faults only the pages matter. -/
theorem Guards.of_idle (hg : ∀ p, (m.pageArray p).Guarded)
    (hb : ∀ p, (m.pageArray p).state = .miss → (m.pageArray p).prot = .none)
    (hpc : pc.faulting = none) : Guards m pc where
  page := hg
  arrived p hs hp := absurd (hb p hs) hp
  miss p hp := by
    rw [hp] at hpc
    cases hpc
  invalid p ts i rest hp := by
    rw [hp] at hpc
    cases hpc

theorem Guards.bare (h : Guards m pc) (hpc : ∀ p, pc ≠ .pageWait p) :
    ∀ p, (m.pageArray p).state = .miss → (m.pageArray p).prot = .none := fun p hs => by
  by_contra hp
  exact hpc p (h.arrived p hs hp)

theorem Pc.not_pageWait (h : pc.faulting = none) (p : Nat) : pc ≠ .pageWait p := by
  rintro rfl
  cases h

/-- Where no page is awaited, the protections follow the states. -/
theorem Guards.prot_eq (h : Guards m pc) (hpc : ∀ p, pc ≠ .pageWait p) (p : Nat) :
    (m.pageArray p).prot = (m.pageArray p).state.prot := by
  rcases h.page p with hg | ⟨hs, hg⟩
  · exact hg
  · rw [hs]
    exact h.bare hpc p hs

/-- A page that the program may load from. -/
theorem Guards.readable (h : Guards m pc) (hpc : pc.faulting = none) :
    (m.pageArray p).prot ≠ .none ↔
      (m.pageArray p).state = .rdonly ∨ (m.pageArray p).state = .write := by
  rw [h.prot_eq (Pc.not_pageWait hpc)]
  cases (m.pageArray p).state <;> simp [PageState.prot]

/-- A page that the program may store to. -/
theorem Guards.writable (h : Guards m pc) (hpc : pc.faulting = none) :
    (m.pageArray p).prot = .readWrite ↔ (m.pageArray p).state = .write := by
  rw [h.prot_eq (Pc.not_pageWait hpc)]
  cases (m.pageArray p).state <;> simp [PageState.prot]

/-- A page that is there and not `INVALID` is readable. -/
theorem Guards.held (h : Guards m pc) (hl : (m.pageArray p).Live)
    (hi : (m.pageArray p).state ≠ .invalid) : (m.pageArray p).prot ≠ .none := by
  rw [(h.page p).prot_eq hl.2]
  cases hs : (m.pageArray p).state with
  | unmap => exact absurd hs hl.1
  | miss => exact absurd hs hl.2
  | invalid => exact absurd hs hi
  | rdonly | write => exact nofun

theorem Guards.loses (h : Guards m pc) (hl : m.Loses m') : Guards m' pc := by
  refine ⟨fun p => (hl p).guarded (h.page p), fun p hm hp => ?_, fun p hp => ?_,
    fun p ts i rest hp => ?_⟩
  · rcases hl p with ⟨hst, hpr⟩ | ⟨-, hst, -⟩
    · exact h.arrived p (hst.symm.trans hm) (hpr ▸ hp)
    · rw [hm] at hst
      rcases hst with hst | hst <;> cases hst
  · have hm := h.miss p hp
    exact ((hl p).still (by rw [hm]; exact nofun) (by rw [hm]; exact nofun)).1.trans hm
  · have hm := h.invalid p ts i rest hp
    exact ((hl p).still (by rw [hm]; exact nofun) (by rw [hm]; exact nofun)).1.trans hm

theorem Guards.kept (h : Guards m pc) (hk : m.Kept m') : Guards m' pc := h.loses hk.loses

/-- Between waits that are no faults. -/
theorem Guards.idle (h : Guards m pc) (hpc : pc.faulting = none) (hpc' : pc'.faulting = none) :
    Guards m pc' := .of_idle h.page (h.bare (Pc.not_pageWait hpc)) hpc'

theorem Guards.setPage (h : Guards m pc) (hp : ∀ q ≠ p, pc ≠ .pageWait q)
    (hs : page.state = .rdonly ∨ page.state = .write) (hg : page.prot = page.state.prot)
    (hpc : pc'.faulting = none) : Guards (m.setPage p page) pc' := by
  refine .of_idle (fun q => ?_) (fun q hm => ?_) hpc <;> by_cases hq : q = p
  · subst hq
    rw [setPage_self]
    exact Or.inl hg
  · rw [setPage_ne hq]
    exact h.page q
  · subst hq
    rw [setPage_self] at hm
    rcases hs with hs | hs <;> rw [hm] at hs <;> cases hs
  · rw [setPage_ne hq] at hm ⊢
    by_contra hno
    exact hp q hq (h.arrived q hm hno)

/-- The fault is over. -/
theorem Guards.validate (h : Guards m pc) (hp : ∀ q ≠ p, pc ≠ .pageWait q)
    (hpc : pc'.faulting = none) :
    Guards (m.setPage p { m.pageArray p with state := .rdonly, prot := .read }) pc' :=
  h.setPage hp (Or.inl rfl) rfl hpc

theorem Guards.requestDiff (h : Guards m pc) (hp : ∀ q, pc ≠ .pageWait q)
    (hs : (m.pageArray p).state = .invalid) (ts : Option Timestamp)
    (request : Option (Nat × Timestamp × Nat)) :
    Guards (requestDiff p ts request m).1 (requestDiff p ts request m).2.2 := by
  cases request with
  | none => exact h.validate (fun q _ => hp q) rfl
  | some x =>
      refine ⟨h.page, fun q hm hno => absurd (h.arrived q hm hno) (hp q), nofun,
        fun q _ _ _ hq => ?_⟩
      cases hq
      exact hs

theorem Guards.segvHandler (h : Guards m pc) (hpc : pc.faulting = none) {out : Out}
    (he : segvHandler n me p m = some (m', out, pc')) : Guards m' pc' := by
  have hno := Pc.not_pageWait hpc
  have hfirst := fun hst => segvHandler_first hst he
  unfold Midsm.segvHandler at he
  split at he
  · cases he
  · cases hs : (m.pageArray p).state <;> simp only [hs] at he
    case rdonly =>
      obtain ⟨-, -, rfl, rfl⟩ := hfirst hs
      have hk := (createTwinPage_kept p m).trans (createWriteNotice_kept me p _)
      exact (h.kept hk).setPage (fun q _ => hno q) (Or.inr rfl) rfl rfl
    case miss =>
      split at he
      · next hf =>
          cases he
          obtain ⟨_, -, rfl, -⟩ := fetchPage_eq_some hf
          refine ⟨h.page, fun q hm hq => absurd (h.arrived q hm hq) (hno q), fun q hq => ?_,
            nofun⟩
          cases hq
          exact hs
      · cases he
        exact h.validate (fun q _ => hno q) rfl
    case write =>
      cases he
      exact h.idle hpc rfl
    case invalid =>
      have hi := h.requestDiff hno hs (m.pageArray p).startInterval
        (nextDiffHost n me (m.pageArray p).startInterval (m.pageArray p) (List.range n))
      rw [fetchDiff, Option.some.injEq] at he
      rw [he] at hi
      exact hi
    case unmap => cases he

/-- `segv_handler` after the page arrived. -/
theorem Guards.pageBack (h : Guards m (.pageWait p)) : Guards (fetchPageResume p m) .run := by
  refine h.validate (fun q hq he => ?_) rfl
  cases he
  exact hq rfl

theorem Guards.diffBack {ts : Option Timestamp} {i rest : Nat}
    (h : Guards m (.diffWait p ts i rest)) : Guards (fetchDiffResume n me p ts i rest m).1
      (fetchDiffResume n me p ts i rest m).2.2 :=
  h.requestDiff nofun (h.invalid p ts i rest rfl) ts _

/-- A page arrives. -/
theorem Guards.pageReply (h : Guards m (.pageWait p)) (me : Nat) (content : Content) :
    Guards (handleGrantPageMsg me p content m) (.pageWait p) := by
  have hs := h.miss p rfl
  have hne : ∀ q ≠ p, (handleGrantPageMsg me p content m).pageArray q = m.pageArray q :=
    fun q hq => setPage_ne hq
  have hself : ((handleGrantPageMsg me p content m).pageArray p).state = .miss ∧
      ((handleGrantPageMsg me p content m).pageArray p).prot = .readWrite := by
    unfold handleGrantPageMsg
    dsimp only
    rw [setPage_self]
    exact ⟨hs, rfl⟩
  refine ⟨fun q => ?_, fun q hm hq => ?_, fun q hq => ?_, nofun⟩
  · by_cases hqp : q = p
    · rw [hqp]
      exact Or.inr hself
    · rw [hne q hqp]
      exact h.page q
  · by_cases hqp : q = p
    · rw [hqp]
    · rw [hne q hqp] at hm hq
      exact h.arrived q hm hq
  · cases hq
    exact hself.1

theorem Guards.alloc (n me : Nat) (size : Int) (h : Guards m .run)
    (hu : ∀ p, m.pagenum ≤ p → (m.pageArray p).state = .unmap) :
    Guards (miAlloc n me size m).2 .run := by
  have hpage : ∀ {m : Mem}, Guards m .run →
      (∀ p, m.pagenum ≤ p → (m.pageArray p).state = .unmap) →
      Guards (allocPage n me m) .run ∧ ∀ p, (allocPage n me m).pagenum ≤ p →
        ((allocPage n me m).pageArray p).state = .unmap := by
    intro m h hu
    have hnone : (m.pageArray m.pagenum).prot = .none := by
      rw [h.prot_eq nofun, hu m.pagenum (Nat.le_refl _)]
      rfl
    unfold allocPage
    refine ⟨.of_idle (fun q => ?_) (fun q => ?_) rfl, fun q hq => ?_⟩ <;> dsimp only
    · by_cases hq : q = m.pagenum
      · rw [hq, upd_self, hnone]
        refine Or.inl ?_
        dsimp only
        split <;> rfl
      · rw [upd_ne hq]
        exact h.page q
    · by_cases hq : q = m.pagenum
      · rw [hq, upd_self, hnone]
        dsimp only
        split
        · exact nofun
        · exact fun _ => rfl
      · rw [upd_ne hq]
        exact h.bare nofun q
    · dsimp only at hq
      rw [upd_ne (by omega)]
      exact hu q (by omega)
  have hpages : ∀ (k : Nat) {m : Mem}, Guards m .run →
      (∀ p, m.pagenum ≤ p → (m.pageArray p).state = .unmap) →
      Guards (allocPages n me k m) .run := by
    intro k
    induction k with
    | zero => exact fun h _ => h
    | succ k ih =>
        intro m h hu
        exact ih (hpage h hu).1 (hpage h hu).2
  unfold miAlloc
  split
  · exact h
  · dsimp only
    split
    · exact h
    · exact hpages _ h hu

end

end Midsm
