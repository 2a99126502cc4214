import Midsm.Proofs.Awaited

/-!
# Every page is granted

A request for a page is granted where the page is allocated and readable. An owner of a
notice has the page, and so has the home as soon as it has allocated it. What the home has
may be `INVALID`, though: `grantPage` then faults inside `sigio_handler`, and where a diff
is missing it never sends the page. `ReadHeld` leaves both out of a run.
-/

namespace Midsm

open Midsm.Lib

/-- The reader and the page of the `FETCH_PAGE` that the event delivers. -/
def pageRead (s : Sys) : Event → Option (Nat × Nat)
  | .op _ _ => none
  | .deliver a b =>
      match s.net a b with
      | .fetchPage p :: _ => some (b, p)
      | _ => none

/-- A request for a page is read where the page is allocated. -/
def ReadAllocated (s : Sys) (e : Event) : Prop :=
  ∀ x ∈ pageRead s e, x.2 < (s.host x.1).mem.pagenum

instance (s : Sys) (e : Event) : Decidable (ReadAllocated s e) :=
  inferInstanceAs (Decidable (∀ x ∈ pageRead s e, _))

/-- It is also not `INVALID` there. -/
def ReadHeld (s : Sys) (e : Event) : Prop :=
  ∀ x ∈ pageRead s e, x.2 < (s.host x.1).mem.pagenum ∧
    ((s.host x.1).mem.pageArray x.2).state ≠ .invalid

instance (s : Sys) (e : Event) : Decidable (ReadHeld s e) :=
  inferInstanceAs (Decidable (∀ x ∈ pageRead s e, _))

/-- The handler of some host does not return. -/
def Sys.Hangs (n : Nat) (s : Sys) : Prop := ∃ x < n, (s.host x).hung = true

structure PageInfo (n : Nat) (s : Sys) : Prop where
  awaited : Awaited n s
  awake : ∀ x, (s.host x).hung = false
  page : ∀ x, pageExchange.Settled s x
  homed : ∀ x < n, (s.host x).mem.Homed n x
  /-- A request goes to the page's home, or to a host that has the page. -/
  asked : ∀ {a b p}, .fetchPage p ∈ s.net a b → a < n ∧ b < n ∧ b ≠ a ∧ p < maxPageNum ∧
    (p % n = b ∨ ((s.host b).mem.pageArray p).Live)

section

variable {n me p : Nat} {m : Mem} {pc : Pc} {s s' : Sys} {h : Host} {r : Host × Out}

theorem PageInfo.init (n : Nat) : PageInfo n initSys where
  awaited := Awaited.init n
  awake _ := rfl
  page _ := .init _ (fun _ => rfl) _
  homed _ _ _ _ hlt := nomatch hlt
  asked h := by cases h

theorem ReadHeld.allocated {e : Event} (h : ReadHeld s e) : ReadAllocated s e :=
  fun x hx => (h x hx).1

/-- A page that is asked for is there where it is allocated. -/
theorem PageInfo.there (h : PageInfo n s) {a b : Nat} (hm : .fetchPage p ∈ s.net a b)
    (hp : p < (s.host b).mem.pagenum) : ((s.host b).mem.pageArray p).Live := by
  obtain ⟨-, hb, -, -, hdest⟩ := h.asked hm
  exact hdest.elim (fun hhome => h.homed b hb p hhome hp) id

/-- It can be granted where it is not `INVALID` either. -/
theorem PageInfo.granted (h : PageInfo n s) {a b : Nat} (hm : .fetchPage p ∈ s.net a b)
    (hp : p < (s.host b).mem.pagenum) (hi : ((s.host b).mem.pageArray p).state ≠ .invalid)
    (nested : Bool) : grantPage n b a p nested (s.host b).mem =
      (some 0, (s.host b).mem, [(a, .grantPage p ((s.host b).mem.pageArray p).content)]) := by
  obtain ⟨ha, -, hne, hmax, -⟩ := h.asked hm
  have hl := h.there hm hp
  exact grantPage_answers ha (Ne.symm hne) hmax hl ((h.awaited.guards b).held hl hi) nested

/-- A fault asks another host, which is the page's home or has a notice. -/
theorem PageInfo.dest (h : PageInfo n s) {a dest : Nat} (ha : a < n)
    (hst : ((s.host a).mem.pageArray p).state = .miss)
    (hd : fetchPageDest n a p ((s.host a).mem.pageArray p) = some dest) :
    dest < n ∧ dest ≠ a ∧ (p % n = dest ∨ ((s.host dest).mem.pageArray p).Live) := by
  rcases fetchPageDest_cases hd with rfl | ⟨hm, hne, ts, hk⟩
  · refine ⟨Nat.mod_lt _ (by omega), fun hhome => ?_, Or.inl rfl⟩
    have hlt : p < (s.host a).mem.pagenum := by
      by_contra hge
      rw [h.awaited.answered.sound.beyond a ha p (by omega)] at hst
      cases hst
    exact (h.homed a ha p hhome hlt).2 hst
  · obtain ⟨hdn, hfact⟩ := h.awaited.answered.sound.noted a ha hk
    exact ⟨hdn, hne, Or.inr (h.awaited.answered.sound.live dest hdn ts p hfact).2⟩

/-- Only a fault on a `MISS` page sends a request. -/
theorem PageCall.asked (hc : PageCall n me h r) {b : Nat} (hm : (b, .fetchPage p) ∈ r.2) :
    p < maxPageNum ∧ (h.mem.pageArray p).state = .miss ∧
      fetchPageDest n me p (h.mem.pageArray p) = some b := by
  cases hc with
  | alloc _ _ _ _ ho =>
      rw [ho] at hm
      cases hm
  | rest _ _ ho => cases (ho _ hm).1
  | ask q dest _ hp hst hd _ _ ho =>
      rw [ho, List.mem_singleton] at hm
      cases hm
      exact ⟨hp, hst, hd⟩

theorem PageInfo.step (h : PageInfo n s) {e : Event} (hok : ReadAllocated s e)
    (he : Midsm.step n s e = some s') (hawake : ∀ x, (s'.host x).hung = false) :
    PageInfo n s' := by
  have hlive := fun {x p} => h.awaited.answered.live_mono he (x := x) (p := p)
  have hawaited := h.awaited.step he
  have hkept : ∀ {a b p}, .fetchPage p ∈ s.net a b → a < n ∧ b < n ∧ b ≠ a ∧
      p < maxPageNum ∧ (p % n = b ∨ ((s'.host b).mem.pageArray p).Live) := by
    intro a b p hm
    obtain ⟨ha, hb, hne, hp, hdest⟩ := h.asked hm
    exact ⟨ha, hb, hne, hp, hdest.imp id (hlive hb)⟩
  obtain ⟨a, op, r, rfl, ha, hr, rfl⟩ |
    ⟨a, b, msg, rest, rfl, ha, hb, hne, hnet, rfl⟩ := step_cases he
  · have hc := exec_page hr
    have hcalls := hc.calls fun p dest hst hd => (h.dest ha hst hd).2.1
    refine ⟨hawaited, hawake, Exchange.Settled.call h.page hcalls, fun x hx => ?_, fun hm => ?_⟩
    · by_cases hxa : x = a
      · subst hxa
        rw [put_host_self]
        exact hc.homed (h.homed x hx) (h.awaited.answered.sound.exec hx hr).grows.live
      · rw [put_host_ne hxa]
        exact h.homed x hx
    · rcases mem_put_net hm with hm | ⟨rfl, ho⟩
      · exact hkept hm
      · obtain ⟨hp, hst, hd⟩ := hc.asked ho
        obtain ⟨hdn, hne, hdest⟩ := h.dest ha hst hd
        exact ⟨ha, hdn, hne, hp, hdest.imp id (hlive hdn)⟩
  · have hc := dispatch_mem n b a msg (s.host b)
    have hreads : pageExchange.Reads a msg (s.host b) (dispatchMsg n b a msg (s.host b)) := by
      refine hc.page ha hne ?_
      rintro p rfl
      have hm : .fetchPage p ∈ s.net a b := by rw [hnet]; exact List.mem_cons_self
      have hself := hawake b
      rw [put_host_self] at hself
      exact ⟨_, dispatch_fetchPage_answers ha hne (h.asked hm).2.2.2.1
        (h.there hm (hok (b, p) (by rw [pageRead, hnet]; rfl))) hself⟩
    refine ⟨hawaited, hawake, Exchange.Settled.read h.page hnet hreads, fun x hx => ?_,
      fun hm => ?_⟩
    · by_cases hxb : x = b
      · subst hxb
        rw [put_host_self]
        exact (h.homed x hx).same hc.pages.1 (h.awaited.answered.sound.read hx msg).grows.live
      · rw [put_host_ne hxb]
        exact h.homed x hx
    · rcases mem_put_net hm with hm | ⟨rfl, ho⟩
      · exact hkept (mem_of_mem_pop hm)
      · -- a handler asks for no page
        cases hreads with
        | rest _ _ _ _ hno => cases (hno _ ho).1
        | serve reply _ _ _ _ hout hreq _ =>
            rw [hout, List.mem_singleton] at ho
            cases ho
            cases hreq
        | done _ _ _ hout =>
            rw [hout] at ho
            cases ho

/-- Nobody hangs over a page that is not `INVALID`. -/
theorem PageInfo.stays_awake (h : PageInfo n s) {e : Event} (hok : ReadHeld s e)
    (he : Midsm.step n s e = some s') : ∀ x, (s'.host x).hung = false := by
  obtain ⟨a, op, r, rfl, ha, hr, rfl⟩ |
    ⟨a, b, msg, rest, rfl, ha, hb, hne, hnet, rfl⟩ := step_cases he
  · exact put_host_forall (P := fun _ h => h.hung = false)
      ((exec_hung hr).trans (h.awake a)) fun x _ => h.awake x
  · refine put_host_forall (P := fun _ h => h.hung = false) (Eq.trans ?_ (h.awake b))
      fun x _ => h.awake x
    by_cases hmsg : ∃ p, msg = .fetchPage p
    · obtain ⟨p, rfl⟩ := hmsg
      obtain ⟨hp, hi⟩ := hok (b, p) (by rw [pageRead, hnet]; rfl)
      rw [dispatchMsg, h.granted (a := a) (by rw [hnet]; exact List.mem_cons_self) hp hi]
      exact Bool.or_false _
    · exact dispatch_hung fun p he => hmsg ⟨p, he⟩

/-- Only the reader of a message can come to hang. -/
theorem hangs_or_awake (h : ∀ x, (s.host x).hung = false) {e : Event}
    (he : Midsm.step n s e = some s') : s'.Hangs n ∨ ∀ x, (s'.host x).hung = false := by
  obtain ⟨a, op, r, rfl, ha, hr, rfl⟩ |
    ⟨a, b, msg, rest, rfl, ha, hb, hne, hnet, rfl⟩ := step_cases he
  · exact Or.inr (put_host_forall (P := fun _ h => h.hung = false)
      ((exec_hung hr).trans (h a)) fun x _ => h x)
  · cases hh : (dispatchMsg n b a msg (s.host b)).1.hung with
    | true => exact Or.inl ⟨b, hb, by rw [put_host_self, hh]⟩
    | false => exact Or.inr (put_host_forall (P := fun _ h => h.hung = false) hh fun x _ => h x)

/-- Who hangs does so for ever. -/
theorem Sys.Hangs.step (h : s.Hangs n) {e : Event} (he : Midsm.step n s e = some s') :
    s'.Hangs n := by
  obtain ⟨x, hx, hh⟩ := h
  obtain ⟨a, op, r, rfl, ha, hr, rfl⟩ |
    ⟨a, b, msg, rest, rfl, ha, hb, hne, hnet, rfl⟩ := step_cases he
  · have hxa : x ≠ a := by
      rintro rfl
      exact Bool.false_ne_true ((step_awake he).symm.trans hh)
    exact ⟨x, hx, by rw [put_host_ne hxa, hh]⟩
  · have hxb : x ≠ b := by
      rintro rfl
      exact Bool.false_ne_true ((step_awake he).symm.trans hh)
    exact ⟨x, hx, by rw [put_host_ne hxb]; exact hh⟩

/-- What holds of the requests for pages in a system. -/
structure PagesAnswered (n : Nat) (s : Sys) : Prop where
  /-- Wherever one is in flight to a host that has allocated the page, which the
  owner of a notice always has, it is granted if the page is not `INVALID`. -/
  answers : ∀ h j p, .fetchPage p ∈ s.net h j → h ≠ j ∧
    (p % n = j ∨ p < (s.host j).mem.pagenum) ∧ (p < (s.host j).mem.pagenum →
      ((s.host j).mem.pageArray p).state ≠ .invalid →
      ∃ content, ∀ nested, grantPage n j h p nested (s.host j).mem =
        (some 0, (s.host j).mem, [(h, .grantPage p content)]))
  /-- A host that spins for a page has one request or reply in flight. -/
  spins : ∀ h, (s.host h).mem.fetchPageWaitFlag = true →
    ∃ j ≠ h, pageExchange.traffic s h j = 1

theorem PageInfo.pagesAnswered (h : PageInfo n s) : PagesAnswered n s where
  answers x j p hm := by
    obtain ⟨-, hj, hne, -, hdest⟩ := h.asked hm
    refine ⟨Ne.symm hne, hdest.imp id fun hl => ?_, fun hp hi => ?_⟩
    · by_contra hge
      exact hl.1 (h.awaited.answered.sound.beyond j hj p (by omega))
    · exact ⟨_, h.granted hm hp hi⟩
  spins x hup := by
    obtain ⟨g, hg, h1, -⟩ := (h.page x).busy hup
    exact ⟨g, hg, h1⟩

theorem pageInfo_of_held (h : Reach (Midsm.step n) ReadHeld initSys s) : PageInfo n s :=
  h.invariant (PageInfo.init n)
    fun hs hok he => hs.step hok.allocated he (hs.stays_awake hok he)

/-- A handler hangs only in a run in which a request was read at an `INVALID` page. -/
theorem never_hangs_of_held (h : Reach (Midsm.step n) ReadHeld initSys s) : ¬ s.Hangs n := by
  rintro ⟨x, -, hh⟩
  rw [(pageInfo_of_held h).awake x] at hh
  cases hh

/-- In every run in which a request for a page is read where the page is allocated and not
`INVALID`, every request is granted and every host that spins has one on its way. -/
theorem every_page_request_answered (n : Nat) {s : Sys}
    (h : Reach (Midsm.step n) ReadHeld initSys s) : PagesAnswered n s :=
  (pageInfo_of_held h).pagesAnswered

/-- Host 1 asks host 0 for a page that both have allocated. -/
theorem every_page_request_answered_two :
    ∃ s, PagesAnswered 2 s ∧ (s.host 1).mem.fetchPageWaitFlag = true ∧
      (s.net 0 1).countP pageExchange.isReply = 1 := by
  obtain ⟨s, hrun, hp⟩ := exists_reach (Midsm.step 2)
    (fun t e => decide (ReadHeld t e)) (fun _ _ => of_decide_eq_true) initSys
    [.op 1 (.alloc 4096), .op 1 (.load 0 0 1), .op 0 (.alloc 4096), .deliver 1 0]
    (fun s => (s.host 1).mem.fetchPageWaitFlag &&
      ((s.net 0 1).countP pageExchange.isReply == 1)) (by decide +kernel)
  rw [Bool.and_eq_true, beq_iff_eq] at hp
  exact ⟨s, every_page_request_answered 2 hrun, hp⟩

/-- Host `h` spins for a page, and neither its request nor the reply is in flight. -/
def spinsAlone (n h : Nat) (s : Sys) : Bool :=
  (s.host h).mem.fetchPageWaitFlag && (List.range n).all fun g => pageExchange.traffic s h g == 0

theorem spinsAlone_iff {h : Nat} : spinsAlone n h s = true ↔
    (s.host h).mem.fetchPageWaitFlag = true ∧ ∀ g < n, pageExchange.traffic s h g = 0 := by
  simp [spinsAlone]

/-- Host 1 allocates and loads before host 0 has allocated: the request is refused,
and host 1 spins with nothing in flight. And when all have allocated, host 1 writes page 0
under a lock that host 0 takes next, which makes the page `INVALID` at its home: the
handler that reads the request of host 2 there hangs. -/
theorem page_request_refused :
    (∃ s, Reach (Midsm.step 2) anyStep initSys s ∧
      (s.host 1).mem.fetchPageWaitFlag = true ∧ ∀ g < 2, pageExchange.traffic s 1 g = 0) ∧
    ∃ s, Reach (Midsm.step 3) ReadAllocated initSys s ∧ (s.host 0).hung = true ∧
      (s.host 2).mem.fetchPageWaitFlag = true ∧ ∀ g < 3, pageExchange.traffic s 2 g = 0 := by
  constructor
  · obtain ⟨s, hrun, hp⟩ := exists_reach_any (Midsm.step 2) initSys
      [.op 1 (.alloc 4096), .op 1 (.load 0 0 1), .deliver 1 0, .op 0 (.alloc 4096)]
      (fun s : Sys => spinsAlone 2 1 s) (by decide +kernel)
    exact ⟨s, hrun, spinsAlone_iff.mp hp⟩
  · obtain ⟨s, hrun, hp⟩ := exists_reach (Midsm.step 3)
      (fun t e => decide (ReadAllocated t e)) (fun _ _ => of_decide_eq_true) initSys
      [.op 0 (.alloc 4096), .op 1 (.alloc 4096), .op 2 (.alloc 4096),
        .op 1 (.lock 0), .deliver 1 0, .deliver 0 1, .op 1 .resume,
        .op 1 (.store 0 0 [7]), .deliver 1 0, .deliver 0 1, .op 1 .resume,
        .op 1 (.store 0 0 [7]), .op 1 (.unlock 0), .deliver 1 0,
        .op 0 (.lock 0), .deliver 0 1, .deliver 1 0, .op 0 .resume,
        .op 2 (.load 0 0 1), .deliver 2 0]
      (fun s => (s.host 0).hung && spinsAlone 3 2 s) (by decide +kernel)
    rw [Bool.and_eq_true, spinsAlone_iff] at hp
    exact ⟨s, hrun, hp⟩

end

end Midsm
