import Midsm.Lib.Deltas
import Midsm.Proofs.Diffs
import Midsm.Proofs.Incorporate
import Midsm.Proofs.Matched
import Midsm.Proofs.MissingDiffs
import Midsm.Ref.Segv

/-!
# Notices that come while a page fault is served

`segv_handler` tests the state of the page when it begins and writes it when it ends.
A handler that runs in between can take in a notice for the page. In the `RDONLY`
branch, when the twin has been made, it then invalidates the page, and `state = WRITE`
and the `mprotect` after it undo that. In `fetchDiff` it puts the notice at the head of
a list, and where the loop has read the head before, or finds the notice not after the
start of the page, the page is made `RDONLY` without the notice's diff. And when it
comes between the assignment and the `mprotect`, the page can be accessed although it
is `INVALID`.

When every notice comes to a list that the loop has still to read and is after the
page's start, or comes when the page has been protected, the page is `INVALID` at the
end and not accessible, or has all the diffs.
-/

namespace Midsm

open Midsm.Lib

/-! ## What a handler brings to a page -/

/-- The state of a page after a notice has come. -/
def PageState.noticed : PageState → PageState
  | .rdonly | .write => .invalid
  | state => state

/-- The protection of a page in this state after a notice has come. -/
def PageState.guard (state : PageState) (prot : Prot) : Prot :=
  match state with
  | .rdonly | .write => .none
  | _ => prot

/-- Some notice of another host has come. -/
def Brings (n me : Nat) (new : Nat → List WriteNotice) : Prop := ∃ k < n, k ≠ me ∧ new k ≠ []

/-- Notices of other hosts have come to a page. -/
structure Page.Arrived (n me : Nat) (new : Nat → List WriteNotice) (page page' : Page) :
    Prop where
  notices : ∀ k, k ≠ me → page'.notices k = new k ++ page.notices k
  bare : ∀ k, k ≠ me → ∀ wn ∈ new k, wn.diffAddress = none
  state : (page'.state = page.state ∧ page'.prot = page.prot ∧ ∀ k, k ≠ me → new k = []) ∨
    Brings n me new ∧ page'.state = page.state.noticed ∧
      page'.prot = page.state.guard page.prot
  content : page'.content = page.content
  address : page'.address = page.address
  startInterval : page'.startInterval = page.startInterval

section

variable {n me p q j : Nat} {m m' : Mem} {page page' page'' : Page}
  {new new' : Nat → List WriteNotice}

theorem noticed_noticed (state : PageState) (prot : Prot) :
    state.noticed.noticed = state.noticed ∧
      state.noticed.guard (state.guard prot) = state.guard prot := by
  cases state <;> exact ⟨rfl, rfl⟩

theorem Page.Arrived.refl (n me : Nat) (page : Page) :
    Page.Arrived n me (fun _ => []) page page where
  notices _ _ := rfl
  bare _ _ _ h := nomatch h
  state := Or.inl ⟨rfl, rfl, fun _ _ => rfl⟩
  content := rfl
  address := rfl
  startInterval := rfl

theorem Page.Arrived.trans (h : Page.Arrived n me new page page')
    (h' : Page.Arrived n me new' page' page'') :
    Page.Arrived n me (fun k => new' k ++ new k) page page'' where
  notices k hk := by rw [h'.notices k hk, h.notices k hk, List.append_assoc]
  bare k hk wn hwn := (List.mem_append.mp hwn).elim (h'.bare k hk wn) (h.bare k hk wn)
  state := by
    have hfirst : Brings n me new → Brings n me fun k => new' k ++ new k :=
      fun ⟨k, hk, hm, hne⟩ => ⟨k, hk, hm, List.append_ne_nil_of_right_ne_nil _ hne⟩
    have hlast : Brings n me new' → Brings n me fun k => new' k ++ new k :=
      fun ⟨k, hk, hm, hne⟩ => ⟨k, hk, hm, List.append_ne_nil_of_left_ne_nil hne _⟩
    rcases h.state with ⟨hs, hg, hnil⟩ | ⟨hnew, hs, hg⟩ <;>
      rcases h'.state with ⟨hs', hg', hnil'⟩ | ⟨hnew', hs', hg'⟩
    · exact Or.inl ⟨hs'.trans hs, hg'.trans hg,
        fun k hk => by rw [hnil k hk, hnil' k hk, List.append_nil]⟩
    · exact Or.inr ⟨hlast hnew', by rw [hs', hs], by rw [hg', hs, hg]⟩
    · exact Or.inr ⟨hfirst hnew, hs'.trans hs, hg'.trans hg⟩
    · obtain ⟨htwice, hguard⟩ := noticed_noticed page.state page.prot
      exact Or.inr ⟨hlast hnew', by rw [hs', hs, htwice], by rw [hg', hs, hg, hguard]⟩
  content := h'.content.trans h.content
  address := h'.address.trans h.address
  startInterval := h'.startInterval.trans h.startInterval

/-- Only the twin of the page can change. -/
theorem freeTwinPage_eq (p : Nat) (m : Mem) :
    ∃ twin, (freeTwinPage p m).2 = m.setPage p { m.pageArray p with twinPage := twin } := by
  have hsame : m = m.setPage p { m.pageArray p with twinPage := (m.pageArray p).twinPage } :=
    (setPage_eta p m).symm
  unfold freeTwinPage
  dsimp only
  split
  · exact ⟨_, hsame⟩
  · split
    · exact ⟨_, hsame⟩
    · split
      · exact ⟨_, hsame⟩
      · exact ⟨none, rfl⟩

/-- The page is invalidated, with its newest own notice and its twin. -/
theorem invalidatePage_page (me q : Nat) (m : Mem) : ∃ page,
    invalidatePage me q m = m.setPage q page ∧ (page.state = (m.pageArray q).state.noticed ∧
      page.prot = (m.pageArray q).state.guard (m.pageArray q).prot) ∧
      (∀ k, k ≠ me → page.notices k = (m.pageArray q).notices k) ∧
      page.content = (m.pageArray q).content ∧ page.address = (m.pageArray q).address ∧
      page.startInterval = (m.pageArray q).startInterval := by
  unfold invalidatePage
  dsimp only
  cases hs : (m.pageArray q).state with
  | rdonly => exact ⟨_, rfl, ⟨rfl, rfl⟩, fun _ _ => rfl, rfl, rfl, rfl⟩
  | write =>
      dsimp only
      generalize hown : upd (m.pageArray q).notices me _ = lists
      obtain ⟨twin, ht⟩ := freeTwinPage_eq q (m.setPage q { m.pageArray q with
        state := .invalid
        notices := lists })
      dsimp only at ht
      rw [ht, setPage_self, setPage_setPage, setPage_self, setPage_setPage]
      refine ⟨_, rfl, ⟨rfl, rfl⟩, fun k hk => ?_, rfl, rfl, rfl⟩
      dsimp only
      rw [← hown]
      exact upd_ne hk
  | unmap | miss | invalid =>
      exact ⟨_, (setPage_eta q m).symm, ⟨hs, rfl⟩, fun _ _ => rfl, rfl, rfl, rfl⟩

theorem incorporateNotice_arrived (hjn : j < n) (hj : j ≠ me) (ts : Timestamp) (m : Mem)
    (q p : Nat) : ∃ new, Page.Arrived n me new (m.pageArray p)
      ((incorporateNotice me j ts m q).pageArray p) := by
  rw [incorporateNotice_eq]
  split
  · exact ⟨_, .refl n me _⟩
  · obtain ⟨page, he, ⟨hs, hg⟩, hn, hc, ha, hi⟩ := invalidatePage_page me q m
    rw [he]
    show ∃ new, Page.Arrived n me new _ (((m.setPage q page).setPage q _).pageArray p)
    by_cases hpq : p = q
    · subst hpq
      refine ⟨fun k => if k = j then [⟨ts, none⟩] else [], ?_⟩
      rw [setPage_self, setPage_self]
      refine ⟨fun k hk => ?_, fun k _ wn hwn => ?_, Or.inr ⟨⟨j, hjn, hj, ?_⟩, hs, hg⟩, hc, ha,
        hi⟩
      · dsimp only
        by_cases hkj : k = j
        · subst hkj
          rw [upd_self, if_pos rfl, hn k hk]
          rfl
        · rw [upd_ne hkj, if_neg hkj, hn k hk]
          rfl
      · split at hwn
        · rw [List.mem_singleton.mp hwn]
        · cases hwn
      · show (if j = j then [(⟨ts, none⟩ : WriteNotice)] else []) ≠ []
        rw [if_pos rfl]
        exact List.cons_ne_nil _ _
    · rw [setPage_ne hpq, setPage_ne hpq]
      exact ⟨_, .refl n me _⟩

theorem incorporatePackets_arrived {packets : List WnPacket} {k : Nat}
    (hid : ∀ packet ∈ packets.take k, packet.hostid < n ∧ packet.hostid ≠ me) (m : Mem)
    (p : Nat) : ∃ new, Page.Arrived n me new (m.pageArray p)
      ((incorporatePackets me k packets m).pageArray p) := by
  have hpages : ∀ (j : Nat) (ts : Timestamp) (pages : List Nat) (m : Mem), j < n ∧ j ≠ me →
      ∃ new, Page.Arrived n me new (m.pageArray p)
        ((pages.foldl (incorporateNotice me j ts) m).pageArray p) := by
    intro j ts pages
    induction pages with
    | nil => exact fun m _ => ⟨_, .refl n me _⟩
    | cons q pages ih =>
        intro m hj
        obtain ⟨new, h⟩ := incorporateNotice_arrived hj.1 hj.2 ts m q p
        obtain ⟨new', h'⟩ := ih (incorporateNotice me j ts m q) hj
        exact ⟨_, h.trans h'⟩
  unfold incorporatePackets
  revert hid
  generalize packets.take k = list
  intro hid
  induction list generalizing m with
  | nil => exact ⟨_, .refl n me _⟩
  | cons packet list ih =>
      have henter : (enterInterval packet.hostid packet.timestamp m).pageArray = m.pageArray := by
        unfold enterInterval
        dsimp only
        split <;> rfl
      obtain ⟨new, h⟩ := hpages packet.hostid packet.timestamp packet.wnArray
        (enterInterval packet.hostid packet.timestamp m) (hid packet List.mem_cons_self)
      obtain ⟨new', h'⟩ := ih (m := incorporateWnPacket me m packet)
        (fun packet hm => hid packet (List.mem_cons_of_mem _ hm))
      rw [henter] at h
      exact ⟨_, h.trans h'⟩

theorem handleGrantEnterBarrierMsg_arrived (sender : Nat) (ts : Timestamp) {k : Nat}
    {packets : List WnPacket}
    (hid : ∀ packet ∈ packets.take k, packet.hostid < n ∧ packet.hostid ≠ me) (m : Mem)
    (p : Nat) : ∃ new, Page.Arrived n me new (m.pageArray p)
      ((handleGrantEnterBarrierMsg me sender ts k packets m).pageArray p) := by
  unfold handleGrantEnterBarrierMsg
  dsimp only
  split
  · exact incorporatePackets_arrived hid { m with
      barrierTimestamps := upd m.barrierTimestamps sender ts } p
  · exact incorporatePackets_arrived hid m p

/-- A request for a diff changes nothing of what other hosts have told about a page. -/
structure Page.Served (me : Nat) (page page' : Page) : Prop where
  notices : ∀ k, k ≠ me → page'.notices k = page.notices k
  state : page'.state = page.state ∧ page'.prot = page.prot ∨
    page.state = .write ∧ page'.state = .rdonly
  content : page'.content = page.content
  address : page'.address = page.address
  startInterval : page'.startInterval = page.startInterval

theorem Page.Served.refl (me : Nat) (page : Page) : page.Served me page :=
  ⟨fun _ _ => rfl, Or.inl ⟨rfl, rfl⟩, rfl, rfl, rfl⟩

theorem makeDiff_served (me q : Nat) (ts : Timestamp) (m : Mem) (p : Nat) :
    (m.pageArray p).Served me ((makeDiff me q ts m).pageArray p) ∧
      (makeDiff me q ts m).fetchDiffWaitFlag = m.fetchDiffWaitFlag := by
  unfold makeDiff
  dsimp only
  generalize hown : upd (m.pageArray q).notices me _ = lists
  have hlists : ∀ k, k ≠ me → lists k = (m.pageArray q).notices k := by
    intro k hk
    rw [← hown]
    exact upd_ne hk
  by_cases hpq : p = q
  · subst hpq
    split
    · next hs =>
        obtain ⟨twin, ht⟩ := freeTwinPage_eq p
          (m.setPage p { m.pageArray p with notices := lists })
        dsimp only at ht
        rw [ht]
        refine ⟨?_, rfl⟩
        simp only [setPage_self]
        exact ⟨hlists, Or.inr ⟨hs, rfl⟩, rfl, rfl, rfl⟩
    · rw [setPage_self]
      exact ⟨⟨hlists, Or.inl ⟨rfl, rfl⟩, rfl, rfl, rfl⟩, rfl⟩
  · split
    · obtain ⟨twin, ht⟩ := freeTwinPage_eq q
        (m.setPage q { m.pageArray q with notices := lists })
      dsimp only at ht
      rw [ht, setPage_ne hpq, setPage_ne hpq, setPage_ne hpq]
      exact ⟨.refl me _, rfl⟩
    · rw [setPage_ne hpq]
      exact ⟨.refl me _, rfl⟩

theorem grantDiff_served (n me hostid : Nat) (ts : Timestamp) (q : Nat) (m : Mem) (p : Nat) :
    (m.pageArray p).Served me ((grantDiff n me hostid ts q m).2.1.pageArray p) ∧
      (grantDiff n me hostid ts q m).2.1.fetchDiffWaitFlag = m.fetchDiffWaitFlag := by
  unfold grantDiff
  dsimp only
  split
  · exact ⟨.refl me _, rfl⟩
  · split
    · exact ⟨.refl me _, rfl⟩
    · split
      · exact ⟨.refl me _, rfl⟩
      · split
        · exact ⟨.refl me _, rfl⟩
        · dsimp only
          split
          · exact ⟨.refl me _, rfl⟩
          · exact makeDiff_served me q ts m p

end

/-- A handler that runs inside `segv_handler` and serves a request for a page changes
nothing. -/
theorem grantPage_nested (n me hostid p : Nat) (m : Mem) :
    (grantPage n me hostid p true m).2.1 = m := by
  unfold grantPage
  dsimp only
  repeat' split
  all_goals first
    | rfl
    | contradiction

/-! ## How far the loop has come -/

/-- The notices of host `k` that have come to a page. -/
def newNotices (k : Nat) (page page' : Page) : List WriteNotice :=
  (page'.notices k).take ((page'.notices k).length - (page.notices k).length)

/-- What the loop of `fetchDiff` has still to read of a list. -/
inductive Cursor where
  | unread
  | at (rest : Nat)
  | passed

/-- The loop stands at `rest` in the list of host `i`. -/
def Cursor.standing (i rest k : Nat) : Cursor :=
  if k < i then .passed else if k = i then .at rest else .unread

/-- The loop comes to host `i`. -/
def Cursor.before (i k : Nat) : Cursor := if k < i then .passed else .unread

/-- The diff of a notice of host `k` has been stored, and has come in a reply. -/
def Fetched (k : Nat) (answers : List (Nat × Timestamp × Content)) (wn : WriteNotice) : Prop :=
  ∃ diff, wn.diffAddress = some diff ∧ (k, wn.timestamp, diff) ∈ answers

/-- Of what has come to a list of `len` notices, `served` has been fetched and `pending`
will be. -/
structure Progress (n : Nat) (pts : Option Timestamp) (k : Nat)
    (answers : List (Nat × Timestamp × Content)) (len : Nat) (cursor : Cursor)
    (served pending old list : List WriteNotice) : Prop where
  parts : list = served ++ (pending ++ old)
  length_old : old.length = len
  fetched : ∀ wn ∈ served, Fetched k answers wn
  missing : ∀ wn ∈ pending, wn.diffAddress = none ∧ asked n pts wn = true
  fits : match cursor with
    | .unread => served = []
    | .at rest => pending = [] ∨ rest = pending.length + len
    | .passed => pending = []

def Upto (n : Nat) (pts : Option Timestamp) (k : Nat)
    (answers : List (Nat × Timestamp × Content)) (len : Nat) (cursor : Cursor)
    (list : List WriteNotice) : Prop :=
  ∃ served pending old, Progress n pts k answers len cursor served pending old list

section

variable {n k len i rest : Nat} {pts : Option Timestamp}
  {answers : List (Nat × Timestamp × Content)} {cursor : Cursor}
  {list new tail : List WriteNotice} {wn : WriteNotice}

theorem Fetched.mono {answer : Nat × Timestamp × Content} (h : Fetched k answers wn) :
    Fetched k (answers ++ [answer]) wn := by
  obtain ⟨diff, hd, hm⟩ := h
  exact ⟨diff, hd, List.mem_append_left _ hm⟩

theorem Upto.same_length (h : list.length = len) (cursor : Cursor) :
    Upto n pts k answers len cursor list := by
  refine ⟨[], [], list, rfl, h, nofun, nofun, ?_⟩
  cases cursor with
  | unread | passed => rfl
  | «at» rest => exact Or.inl rfl

/-- Notices that are asked for come to a list that has still to be read. -/
theorem Upto.arrive (h : Upto n pts k answers len .unread list)
    (hnew : ∀ wn ∈ new, wn.diffAddress = none ∧ asked n pts wn = true) :
    Upto n pts k answers len .unread (new ++ list) := by
  obtain ⟨served, pending, old, hl, hold, hserved, hpending, rfl⟩ := h
  refine ⟨[], new ++ pending, old, ?_, hold, hserved, fun wn hwn => ?_, rfl⟩
  · rw [hl, List.nil_append, List.nil_append, List.append_assoc]
  · exact (List.mem_append.mp hwn).elim (hnew wn) (hpending wn)

/-- The loop reads the head of the list. -/
theorem Upto.read (h : Upto n pts k answers len .unread list) :
    Upto n pts k answers len (.at list.length) list := by
  obtain ⟨served, pending, old, hl, hold, hserved, hpending, rfl⟩ := h
  refine ⟨[], pending, old, hl, hold, hserved, hpending, Or.inr ?_⟩
  rw [hl, List.nil_append, List.length_append, hold]

/-- The notice at the cursor is one that has come, as long as some are pending. -/
theorem Progress.drop {served pending old : List WriteNotice}
    (h : Progress n pts k answers len (.at rest) served pending old list)
    (hne : pending ≠ []) : list.drop (list.length - rest) = pending ++ old := by
  have hrest := h.fits.resolve_left hne
  rw [h.parts]
  refine List.drop_left' ?_
  rw [List.length_append, List.length_append, h.length_old]
  omega

/-- The loop leaves the list where it ends, or at a notice that has its diff. -/
theorem Upto.leave (h : Upto n pts k answers len (.at rest) list)
    (hend : ∀ wn tail, list.drop (list.length - rest) = wn :: tail → wn.diffAddress ≠ none) :
    Upto n pts k answers len .passed list := by
  obtain ⟨served, pending, old, hp⟩ := h
  refine ⟨served, pending, old, { hp with fits := ?_ }⟩
  cases hpend : pending with
  | nil => rfl
  | cons wn pending' =>
      have hdrop := hp.drop (by rw [hpend]; exact nofun)
      rw [hpend, List.cons_append] at hdrop
      exact absurd (hp.missing wn (by rw [hpend]; exact List.mem_cons_self)).1 (hend wn _ hdrop)

/-- The loop skips a notice that is not asked for. -/
theorem Upto.skip (h : Upto n pts k answers len (.at rest) list)
    (hdrop : list.drop (list.length - rest) = wn :: tail) (hasked : asked n pts wn ≠ true)
    (rest' : Nat) : Upto n pts k answers len (.at rest') list := by
  obtain ⟨served, pending, old, hp⟩ := h
  refine ⟨served, pending, old, { hp with fits := Or.inl ?_ }⟩
  cases hpend : pending with
  | nil => rfl
  | cons w pending' =>
      have he := hp.drop (by rw [hpend]; exact nofun)
      rw [hdrop, hpend, List.cons_append, List.cons.injEq] at he
      rw [he.1] at hasked
      exact absurd (hp.missing w (by rw [hpend]; exact List.mem_cons_self)).2 hasked

theorem setDiff_append_right {ts : Timestamp} {front back : List WriteNotice}
    (d : Option Content) (h : ∀ w ∈ front, w.timestamp ≠ ts) :
    setDiff ts d (front ++ back) = front ++ setDiff ts d back := by
  induction front with
  | nil => rfl
  | cons w front ih =>
      rw [List.cons_append, setDiff, if_neg (h w List.mem_cons_self),
        ih fun w hw => h w (List.mem_cons_of_mem _ hw), List.cons_append]

theorem length_setDiff (ts : Timestamp) (d : Option Content) (list : List WriteNotice) :
    (setDiff ts d list).length = list.length := by
  have h := congrArg List.length (setDiff_keys ts d list)
  rwa [List.length_map, List.length_map] at h

/-- The reply for the notice at the cursor. -/
theorem Upto.reply (h : Upto n pts k answers len (.at rest) list)
    (hdrop : list.drop (list.length - rest) = wn :: tail) (hd : wn.diffAddress = none)
    (hnd : (list.map WriteNotice.timestamp).Nodup) (diff : Content) :
    Upto n pts k (answers ++ [(k, wn.timestamp, diff)]) len (.at (rest - 1))
      (setDiff wn.timestamp (some diff) list) := by
  obtain ⟨served, pending, old, hp⟩ := h
  have hserved : ∀ w ∈ served, Fetched k (answers ++ [(k, wn.timestamp, diff)]) w :=
    fun w hw => (hp.fetched w hw).mono
  have hmem : wn ∈ list := List.mem_of_mem_drop (hdrop ▸ List.mem_cons_self)
  rw [hp.parts, List.map_append, List.nodup_append] at hnd
  -- the notice is not one that has been served, and those have other timestamps
  have hfront : wn ∈ pending ++ old → ∀ w ∈ served, w.timestamp ≠ wn.timestamp :=
    fun hback w hw he => hnd.2.2 _ (List.mem_map_of_mem hw) _ (List.mem_map_of_mem hback) he
  have hback : wn ∈ pending ++ old := by
    rw [hp.parts, List.mem_append] at hmem
    refine hmem.resolve_left fun hs => ?_
    obtain ⟨_, hd', -⟩ := hp.fetched wn hs
    rw [hd] at hd'
    cases hd'
  rw [hp.parts, setDiff_append_right _ (hfront hback)]
  cases hpend : pending with
  | nil =>
      refine ⟨served, [], setDiff wn.timestamp (some diff) old, rfl, ?_, hserved, nofun,
        Or.inl rfl⟩
      rw [length_setDiff, hp.length_old]
  | cons w pending' =>
      have hrest := hp.fits.resolve_left (by rw [hpend]; exact nofun)
      have he := hp.drop (by rw [hpend]; exact nofun)
      rw [hdrop, hpend, List.cons_append, List.cons.injEq] at he
      rw [he.1, List.cons_append, setDiff, if_pos rfl]
      refine ⟨served ++ [{ w with diffAddress := some diff }], pending', old, ?_, hp.length_old,
        fun v hv => ?_, fun v hv => ?_, Or.inr ?_⟩
      · rw [List.append_assoc]
        rfl
      · rcases List.mem_append.mp hv with hv | hv
        · rw [he.1] at hserved
          exact hserved v hv
        · rw [List.mem_singleton.mp hv]
          exact ⟨diff, rfl, List.mem_append_right _ (List.mem_singleton_self _)⟩
      · exact hp.missing v (by rw [hpend]; exact List.mem_cons_of_mem _ hv)
      · rw [hrest, hpend, List.length_cons]
        omega

theorem Upto.mono {answer : Nat × Timestamp × Content}
    (h : Upto n pts k answers len cursor list) :
    Upto n pts k (answers ++ [answer]) len cursor list := by
  obtain ⟨served, pending, old, hp⟩ := h
  exact ⟨served, pending, old, { hp with fetched := fun wn hwn => (hp.fetched wn hwn).mono }⟩

/-- Once the loop has passed, everything that has come has been fetched. -/
theorem Upto.fetched (h : Upto n pts k answers len .passed list) :
    ∀ wn ∈ list.take (list.length - len), Fetched k answers wn := by
  obtain ⟨served, pending, old, hl, hold, hserved, -, rfl⟩ := h
  have htake : list.take (list.length - len) = served := by
    rw [hl, List.nil_append, List.length_append, hold, Nat.add_sub_cancel]
    exact List.take_left' rfl
  rw [htake]
  exact hserved

end

/-! ## The invariant -/

/-- What holds of the memory all along. -/
structure SegvThread.Base (me p : Nat) (start : Page) (f : SegvThread) : Prop where
  matched : ∀ k, k ≠ me → f.mem.Matched k
  address : (f.mem.pageArray p).address ≠ 0
  startInterval : (f.mem.pageArray p).startInterval = start.startInterval
  content : (f.mem.pageArray p).content =
    applyAll start.content (f.answers.map fun answer => answer.2.2)

/-- No notice has come to the page. -/
def Untouched (n me : Nat) (start page : Page) : Prop :=
  ∀ k < n, k ≠ me → (page.notices k).length = (start.notices k).length

def AllUpto (n me : Nat) (start : Page) (cursor : Nat → Cursor)
    (answers : List (Nat × Timestamp × Content)) (page : Page) : Prop :=
  ∀ k < n, k ≠ me → Upto n start.startInterval k answers (start.notices k).length (cursor k)
    (page.notices k)

/-- `wn` points to a notice without diff. -/
def Page.Stands (i rest : Nat) (wn : WriteNotice) (page : Page) : Prop :=
  wn.diffAddress = none ∧ ∃ tail, page.from i rest = wn :: tail

/-- The page has been given its state. -/
def Opened (n me : Nat) (start : Page) (answers : List (Nat × Timestamp × Content))
    (page : Page) : Prop :=
  (page.state = .rdonly ∨ page.state = .write) ∧
    AllUpto n me start (fun _ => .passed) answers page

/-- It has been protected, and may have been invalidated since. -/
def Closed (n me : Nat) (start : Page) (answers : List (Nat × Timestamp × Content))
    (page : Page) : Prop :=
  page.state = .invalid ∧ page.prot = .none ∨ Opened n me start answers page

/-- `fetchDiff` is in its loops. -/
structure SegvThread.Walks (n me p : Nat) (start : Page) (cursor : Nat → Cursor)
    (f : SegvThread) : Prop where
  state : (f.mem.pageArray p).state = .invalid
  pageTimestamp : f.pageTimestamp = start.startInterval
  upto : AllUpto n me start cursor f.answers (f.mem.pageArray p)

def SegvThread.Stage (n me p : Nat) (start : Page) (f : SegvThread) : Prop :=
  match f.stmt with
  | .isRdonly => f.request = none ∧
      AllUpto n me start (fun _ => .unread) f.answers (f.mem.pageArray p) ∧
      ((f.mem.pageArray p).state = .invalid ∨
        (f.mem.pageArray p).state = .rdonly ∧ Untouched n me start (f.mem.pageArray p))
  | .isMiss | .isWrite | .isInvalid | .diffState | .diffStart => f.request = none ∧
      AllUpto n me start (fun _ => .unread) f.answers (f.mem.pageArray p) ∧
      (f.mem.pageArray p).state = .invalid
  | .twinState | .twinAddress | .twinMalloc | .twinCopy | .noticeState | .noticeMalloc
  | .noticeNext _ | .noticePage _ | .noticeInterval | .setWrite => f.request = none ∧
      Untouched n me start (f.mem.pageArray p)
  | .host i => f.request = none ∧ f.Walks n me p start (Cursor.before i)
  | .head i => f.request = none ∧ f.Walks n me p start (Cursor.before i) ∧ i < n ∧ i ≠ me
  | .notice i rest => f.request = none ∧ f.Walks n me p start (Cursor.standing i rest) ∧
      i < n ∧ i ≠ me
  | .next i rest => f.request = none ∧ f.Walks n me p start (Cursor.standing i (rest - 1)) ∧
      i < n ∧ i ≠ me
  | .after i rest | .build i rest => f.request = none ∧
      f.Walks n me p start (Cursor.standing i rest) ∧ (i < n ∧ i ≠ me) ∧
      ∃ wn, (f.mem.pageArray p).Stands i rest wn
  | .flag i rest ts => f.request = none ∧
      f.Walks n me p start (Cursor.standing i rest) ∧ (i < n ∧ i ≠ me) ∧
      ∃ wn, (f.mem.pageArray p).Stands i rest wn ∧ wn.timestamp = ts
  | .send i rest ts => f.request = none ∧ f.mem.fetchDiffWaitFlag = true ∧
      f.Walks n me p start (Cursor.standing i rest) ∧ (i < n ∧ i ≠ me) ∧
      ∃ wn, (f.mem.pageArray p).Stands i rest wn ∧ wn.timestamp = ts
  | .spin i rest => (i < n ∧ i ≠ me) ∧
      ((f.request = none ∧ f.Walks n me p start (Cursor.standing i (rest - 1))) ∨
        (f.mem.fetchDiffWaitFlag = true ∧ f.Walks n me p start (Cursor.standing i rest) ∧
          ∃ wn, (f.mem.pageArray p).Stands i rest wn ∧ f.request = some (i, wn.timestamp)))
  | .setRdonly => f.request = none ∧ AllUpto n me start (fun _ => .passed) f.answers
      (f.mem.pageArray p)
  | .protectWrite | .protectRdonly => f.request = none ∧
      Opened n me start f.answers (f.mem.pageArray p)
  | .leave | .done => f.request = none ∧ Closed n me start f.answers (f.mem.pageArray p)
  | .killed => True

structure SegvThread.Inv (n me p : Nat) (start : Page) (f : SegvThread) : Prop where
  base : f.Base me p start
  stage : f.Stage n me p start

section

variable {n me p i rest : Nat} {start page page' : Page} {f f' : SegvThread} {wn : WriteNotice}
  {answers : List (Nat × Timestamp × Content)} {cursor cursor' : Nat → Cursor}

theorem Untouched.allUpto (h : Untouched n me start page) (cursor : Nat → Cursor) :
    AllUpto n me start cursor answers page := fun k hk hm => .same_length (h k hk hm) _

theorem AllUpto.congr (h : AllUpto n me start cursor answers page)
    (hc : ∀ k < n, k ≠ me → cursor' k = cursor k) :
    AllUpto n me start cursor' answers page := by
  intro k hk hm
  rw [hc k hk hm]
  exact h k hk hm

theorem standing_self : Cursor.standing i rest i = .at rest := by
  rw [Cursor.standing, if_neg (Nat.lt_irrefl i), if_pos rfl]

theorem standing_ne {k : Nat} (h : k ≠ i) (rest' : Nat) :
    Cursor.standing i rest k = Cursor.standing i rest' k := by
  unfold Cursor.standing
  rw [if_neg h, if_neg h]

/-- Only the list of host `i` is treated in another way. -/
theorem AllUpto.at (h : AllUpto n me start cursor answers page)
    (hc : ∀ k, k ≠ i → cursor' k = cursor k)
    (hi : i < n → i ≠ me → Upto n start.startInterval i answers (start.notices i).length
      (cursor' i) (page.notices i)) : AllUpto n me start cursor' answers page := by
  intro k hk hm
  by_cases hki : k = i
  · subst hki
    exact hi hk hm
  · rw [hc k hki]
    exact h k hk hm

/-! ## The statements of the main thread -/

theorem SegvThread.Base.goto (h : f.Base me p start) (stmt : SegvStmt) :
    (f.goto stmt).Base me p start := ⟨h.matched, h.address, h.startInterval, h.content⟩

theorem SegvThread.Base.setPage (h : f.Base me p start)
    (hn : ∀ k, k ≠ me → page.notices k = (f.mem.pageArray p).notices k)
    (ha : page.address = (f.mem.pageArray p).address)
    (hi : page.startInterval = (f.mem.pageArray p).startInterval)
    (hc : page.content = (f.mem.pageArray p).content) (stmt : SegvStmt) :
    (f.setPage p page stmt).Base me p start := by
  refine ⟨fun k hk => (h.matched k hk).congr (fun q => ?_) rfl, ?_, ?_, ?_⟩
  · show ((f.mem.setPage p page).pageArray q).keys k = _
    by_cases hq : q = p
    · rw [hq, setPage_self, Page.keys, hn k hk]
      rfl
    · rw [setPage_ne hq]
  · show ((f.mem.setPage p page).pageArray p).address ≠ 0
    rw [setPage_self, ha]
    exact h.address
  · show ((f.mem.setPage p page).pageArray p).startInterval = _
    rw [setPage_self, hi]
    exact h.startInterval
  · show ((f.mem.setPage p page).pageArray p).content = _
    rw [setPage_self, hc]
    exact h.content

theorem SegvThread.Base.setState (h : f.Base me p start) (state : PageState) (stmt : SegvStmt) :
    (f.setPage p { f.mem.pageArray p with state := state } stmt).Base me p start := by
  refine h.setPage ?_ ?_ ?_ ?_ stmt
  exacts [fun _ _ => rfl, rfl, rfl, rfl]

theorem SegvThread.Base.setProt (h : f.Base me p start) (prot : Prot) (stmt : SegvStmt) :
    (f.setPage p { f.mem.pageArray p with prot := prot } stmt).Base me p start := by
  refine h.setPage ?_ ?_ ?_ ?_ stmt
  exacts [fun _ _ => rfl, rfl, rfl, rfl]

theorem Untouched.congr (h : Untouched n me start page)
    (hn : ∀ k, k ≠ me → page'.notices k = page.notices k) : Untouched n me start page' := by
  intro k hk hm
  rw [hn k hm]
  exact h k hk hm

theorem AllUpto.of_notices (h : AllUpto n me start cursor answers page)
    (hn : ∀ k, k ≠ me → page'.notices k = page.notices k) :
    AllUpto n me start cursor answers page' := by
  intro k hk hm
  rw [hn k hm]
  exact h k hk hm

/-- A statement of `segv_handler` up to `state = WRITE`. -/
def SegvStmt.Writing : SegvStmt → Prop
  | .twinState | .twinAddress | .twinMalloc | .twinCopy | .noticeState | .noticeMalloc
  | .noticeNext _ | .noticePage _ | .noticeInterval | .setWrite => True
  | _ => False

/-- The page is changed on the way to `WRITE`. -/
theorem SegvThread.Inv.writing (h : f.Base me p start) (hr : f.request = none)
    (hu : Untouched n me start (f.mem.pageArray p))
    (hn : ∀ k, k ≠ me → page.notices k = (f.mem.pageArray p).notices k)
    (ha : page.address = (f.mem.pageArray p).address)
    (hi : page.startInterval = (f.mem.pageArray p).startInterval)
    (hc : page.content = (f.mem.pageArray p).content) {stmt : SegvStmt} (hw : stmt.Writing) :
    (f.setPage p page stmt).Inv n me p start := by
  refine ⟨h.setPage hn ha hi hc stmt, ?_⟩
  have hu' : Untouched n me start ((f.setPage p page stmt).mem.pageArray p) := by
    show Untouched n me start ((f.mem.setPage p page).pageArray p)
    rw [setPage_self]
    exact hu.congr hn
  cases stmt <;> first | exact ⟨hr, hu'⟩ | exact hw.elim

/-- The memory is not changed on the way to `WRITE`. -/
theorem SegvThread.Inv.writing_goto (h : f.Base me p start) (hr : f.request = none)
    (hu : Untouched n me start (f.mem.pageArray p)) {stmt : SegvStmt} (hw : stmt.Writing) :
    (f.goto stmt).Inv n me p start := by
  refine ⟨h.goto stmt, ?_⟩
  cases stmt <;> first | exact ⟨hr, hu⟩ | exact hw.elim

theorem SegvThread.Inv.next_writing (h : f.Inv n me p start) (hw : f.stmt.Writing)
    (he : f.next n me p = some f') : f'.Inv n me p start := by
  have hb := h.base
  have hstage := h.stage
  have hgoto : ∀ stmt : SegvStmt, stmt.Writing → f.request = none →
      Untouched n me start (f.mem.pageArray p) → (f.goto stmt).Inv n me p start :=
    fun stmt hw hr hu => .writing_goto hb hr hu hw
  cases hst : f.stmt <;> simp only [SegvThread.Stage, hst] at hstage <;>
    simp only [SegvThread.next, hst, Option.some.injEq] at he
  case twinState =>
    subst he
    refine hgoto _ ?_ hstage.1 hstage.2
    split <;> trivial
  case twinAddress =>
    subst he
    refine hgoto _ ?_ hstage.1 hstage.2
    split <;> trivial
  case twinMalloc =>
    subst he
    refine .writing hb hstage.1 hstage.2 ?_ ?_ ?_ ?_ ?_
    exacts [fun _ _ => rfl, rfl, rfl, rfl, trivial]
  case twinCopy =>
    split at he <;> cases he
    · exact ⟨hb.goto _, trivial⟩
    · refine .writing hb hstage.1 hstage.2 ?_ ?_ ?_ ?_ ?_
      exacts [fun _ _ => rfl, rfl, rfl, rfl, trivial]
  case noticeState =>
    subst he
    refine hgoto _ ?_ hstage.1 hstage.2
    split <;> trivial
  case noticeMalloc | noticeNext =>
    subst he
    exact hgoto _ trivial hstage.1 hstage.2
  case noticePage =>
    subst he
    refine .writing hb hstage.1 hstage.2 ?_ ?_ ?_ ?_ ?_
    exacts [fun k hk => upd_ne hk, rfl, rfl, rfl, trivial]
  case noticeInterval =>
    subst he
    exact ⟨⟨fun k hk => (hb.matched k hk).congr (fun _ => rfl) (upd_ne hk), hb.address,
      hb.startInterval, hb.content⟩, hstage⟩
  case setWrite =>
    subst he
    refine ⟨hb.setState _ _, hstage.1, ?_⟩
    show Opened n me start f.answers ((f.mem.setPage p _).pageArray p)
    rw [setPage_self]
    exact ⟨Or.inr rfl, (hstage.2.allUpto _).of_notices fun _ _ => rfl⟩
  all_goals
    rw [hst] at hw
    exact hw.elim

/-- The tests of the state, and what follows the last assignment. -/
theorem SegvThread.Inv.next_outside (h : f.Inv n me p start) (he : f.next n me p = some f')
    (hout : match f.stmt with
      | .isRdonly | .isMiss | .isWrite | .isInvalid | .diffState | .diffStart
      | .setRdonly | .protectWrite | .protectRdonly | .leave | .done | .killed => True
      | _ => False) : f'.Inv n me p start := by
  have hb := h.base
  have hstage := h.stage
  cases hst : f.stmt <;> simp only [hst] at hout <;>
    simp only [SegvThread.Stage, hst] at hstage <;>
    simp only [SegvThread.next, hst, Option.some.injEq, reduceCtorEq] at he
  case isRdonly =>
    subst he
    refine ⟨hb.goto _, ?_⟩
    obtain ⟨hr, hupto, hs⟩ := hstage
    by_cases hs' : (f.mem.pageArray p).state = .rdonly
    · rw [if_pos hs']
      refine ⟨hr, (hs.resolve_left fun hi => ?_).2⟩
      rw [hs'] at hi
      cases hi
    · rw [if_neg hs']
      exact ⟨hr, hupto, hs.resolve_right fun hr => hs' hr.1⟩
  case isMiss =>
    split at he
    · cases he
    · cases he
      exact ⟨hb.goto _, hstage⟩
  case isWrite =>
    subst he
    refine ⟨hb.goto _, ?_⟩
    rw [if_neg (by rw [hstage.2.2]; exact nofun)]
    exact hstage
  case isInvalid =>
    rw [if_pos hstage.2.2] at he
    cases he
    exact ⟨hb.goto _, hstage⟩
  case diffState =>
    subst he
    refine ⟨hb.goto _, ?_⟩
    rw [if_neg (not_not.mpr hstage.2.2)]
    exact hstage
  case diffStart =>
    subst he
    obtain ⟨hr, hupto, hs⟩ := hstage
    refine ⟨⟨hb.matched, hb.address, hb.startInterval, hb.content⟩, hr, hs, hb.startInterval,
      hupto.congr fun k _ _ => ?_⟩
    rw [Cursor.before, if_neg (Nat.not_lt_zero k)]
  case setRdonly =>
    subst he
    refine ⟨hb.setState _ _, hstage.1, ?_⟩
    show Opened n me start f.answers ((f.mem.setPage p _).pageArray p)
    rw [setPage_self]
    exact ⟨Or.inl rfl, hstage.2.of_notices fun _ _ => rfl⟩
  case protectWrite | protectRdonly =>
    subst he
    refine ⟨hb.setProt _ _, hstage.1, ?_⟩
    show Closed n me start f.answers ((f.mem.setPage p _).pageArray p)
    rw [setPage_self]
    exact Or.inr ⟨hstage.2.1, hstage.2.2.of_notices fun _ _ => rfl⟩
  case leave =>
    subst he
    exact ⟨hb.goto _, hstage⟩

/-! ## The loops of `fetchDiff` -/

/-- The loop goes on elsewhere, the memory being as it is. -/
theorem SegvThread.Walks.goto (h : f.Walks n me p start cursor) (stmt : SegvStmt)
    (hupto : AllUpto n me start cursor' f.answers (f.mem.pageArray p)) :
    (f.goto stmt).Walks n me p start cursor' := ⟨h.state, h.pageTimestamp, hupto⟩

/-- `wn` does not point to a notice without diff. -/
theorem SegvThread.Walks.leave (h : f.Walks n me p start (Cursor.standing i rest))
    (hend : ∀ wn tail, (f.mem.pageArray p).from i rest = wn :: tail → wn.diffAddress ≠ none) :
    (f.goto (.host (i + 1))).Walks n me p start (Cursor.before (i + 1)) := by
  refine h.goto _ (h.upto.at (i := i) (fun k hk => ?_) fun hi hm => ?_)
  · unfold Cursor.before Cursor.standing
    by_cases hlt : k < i
    · rw [if_pos hlt, if_pos (by omega)]
    · rw [if_neg hlt, if_neg hk, if_neg (by omega)]
  · have hupto := h.upto i hi hm
    rw [standing_self] at hupto
    rw [Cursor.before, if_pos (Nat.lt_succ_self i)]
    exact hupto.leave hend

theorem SegvThread.Inv.next_walking (h : f.Inv n me p start) (he : f.next n me p = some f')
    (hin : match f.stmt with
      | .host _ | .head _ | .notice _ _ | .after _ _ | .build _ _ | .flag _ _ _ | .send _ _ _
      | .spin _ _ | .next _ _ => True
      | _ => False) : f'.Inv n me p start := by
  have hb := h.base
  have hstage := h.stage
  cases hst : f.stmt <;> simp only [hst] at hin <;>
    simp only [SegvThread.Stage, hst] at hstage <;> simp only [SegvThread.next, hst] at he
  case host i =>
    cases he
    obtain ⟨hr, hw⟩ := hstage
    refine ⟨hb.goto _, ?_⟩
    by_cases hi : i < n
    · rw [if_pos hi]
      by_cases hm : i = me
      · rw [if_pos hm]
        refine ⟨hr, hw.goto _ (hw.upto.congr fun k _ hk => ?_)⟩
        unfold Cursor.before
        by_cases hlt : k < i
        · rw [if_pos hlt, if_pos (by omega)]
        · rw [if_neg hlt, if_neg (by omega)]
      · rw [if_neg hm]
        exact ⟨hr, hw.goto _ hw.upto, hi, hm⟩
    · rw [if_neg hi]
      refine ⟨hr, hw.upto.congr fun k hk _ => ?_⟩
      rw [Cursor.before, if_pos (by omega)]
  case head i =>
    cases he
    obtain ⟨hr, hw, hi⟩ := hstage
    refine ⟨hb.goto _, hr, hw.goto _ (hw.upto.at (i := i) (fun k hk => ?_) fun hi hm => ?_), hi⟩
    · unfold Cursor.before Cursor.standing
      rw [if_neg hk]
    · have hupto := hw.upto i hi hm
      rw [Cursor.before, if_neg (Nat.lt_irrefl i)] at hupto
      rw [standing_self]
      exact hupto.read
  case notice i rest =>
    obtain ⟨hr, hw, hi⟩ := hstage
    split at he
    · next hnil =>
        cases he
        refine ⟨hb.goto _, hr, hw.leave fun wn tail hfrom => ?_⟩
        rw [hnil] at hfrom
        cases hfrom
    · next wn tail hfrom =>
        cases he
        refine ⟨hb.goto _, ?_⟩
        by_cases hd : wn.diffAddress = none
        · rw [if_pos hd]
          exact ⟨hr, hw.goto _ hw.upto, hi, wn, hd, tail, hfrom⟩
        · rw [if_neg hd]
          refine ⟨hr, hw.leave fun w tail' hfrom' => ?_⟩
          rw [hfrom] at hfrom'
          cases hfrom'
          exact hd
  case after i rest =>
    obtain ⟨hr, hw, hi, wn, hd, tail, hfrom⟩ := hstage
    rw [hfrom] at he
    cases he
    refine ⟨hb.goto _, ?_⟩
    have hpts := hw.pageTimestamp
    by_cases ha : f.pageTimestamp.all (isAfterInterval n wn.timestamp) = true
    · rw [if_pos ha]
      exact ⟨hr, hw.goto _ hw.upto, hi, wn, hd, tail, hfrom⟩
    · rw [if_neg ha]
      refine ⟨hr, hw.goto _ (hw.upto.at (i := i) (fun k hk => standing_ne hk _) fun hi hm => ?_), hi⟩
      have hupto := hw.upto i hi hm
      rw [standing_self] at hupto ⊢
      rw [hpts] at ha
      exact hupto.skip hfrom ha _
  case build i rest =>
    obtain ⟨hr, hw, hi, wn, hd, tail, hfrom⟩ := hstage
    rw [hfrom] at he
    cases he
    exact ⟨hb.goto _, hr, hw.goto _ hw.upto, hi, wn, ⟨hd, tail, hfrom⟩, rfl⟩
  case flag i rest ts =>
    cases he
    obtain ⟨hr, hw, hrest⟩ := hstage
    exact ⟨⟨fun k hk => (hb.matched k hk).congr (fun _ => rfl) rfl, hb.address,
      hb.startInterval, hb.content⟩, hr, rfl, ⟨hw.state, hw.pageTimestamp, hw.upto⟩, hrest⟩
  case send i rest ts =>
    cases he
    obtain ⟨-, hflag, hw, hi, wn, hstands, rfl⟩ := hstage
    exact ⟨⟨hb.matched, hb.address, hb.startInterval, hb.content⟩, hi,
      Or.inr ⟨hflag, ⟨hw.state, hw.pageTimestamp, hw.upto⟩, wn, hstands, rfl⟩⟩
  case spin i rest =>
    obtain ⟨hi, hcase⟩ := hstage
    split at he
    · cases he
    · next hflag =>
        cases he
        rcases hcase with ⟨hr, hw⟩ | ⟨hflag', -⟩
        · exact ⟨hb.goto _, hr, hw.goto _ hw.upto, hi⟩
        · exact absurd hflag' hflag
  case next i rest =>
    cases he
    obtain ⟨hr, hw, hi⟩ := hstage
    exact ⟨hb.goto _, hr, hw.goto _ hw.upto, hi⟩

theorem SegvThread.Inv.next (h : f.Inv n me p start) (he : f.next n me p = some f') :
    f'.Inv n me p start := by
  cases hst : f.stmt
  case isRdonly | isMiss | isWrite | isInvalid | diffState | diffStart | setRdonly
      | protectWrite | protectRdonly | leave | done | killed =>
    exact h.next_outside he (by rw [hst]; trivial)
  case host | head | notice | after | build | flag | send | spin | next =>
    exact h.next_walking he (by rw [hst]; trivial)
  all_goals exact h.next_writing (by rw [hst]; trivial) he

end

/-! ## The handlers -/

/-- A notice of host `k` may come: the loop has still to read the list and will ask for
the notice, or the page has been protected. -/
def SegvStmt.Admits (n : Nat) (pts : Option Timestamp) (k : Nat) (wn : WriteNotice) :
    SegvStmt → Prop
  | .isRdonly | .isMiss | .isWrite | .isInvalid | .diffState | .diffStart =>
      asked n pts wn = true
  | .host i | .head i => i ≤ k ∧ asked n pts wn = true
  | .notice i _ | .after i _ | .build i _ | .flag i _ _ | .send i _ _ | .spin i _ | .next i _ =>
      i < k ∧ asked n pts wn = true
  | .leave | .done | .killed => True
  | _ => False

instance (n : Nat) (pts : Option Timestamp) (k : Nat) (wn : WriteNotice) (stmt : SegvStmt) :
    Decidable (stmt.Admits n pts k wn) := by
  cases stmt <;> unfold SegvStmt.Admits <;> infer_instance

/-- The notices that these pages differ by may come at this statement. -/
def Admitted (n me : Nat) (stmt : SegvStmt) (page page' : Page) : Prop :=
  ∀ k < n, k ≠ me → ∀ wn ∈ newNotices k page page', stmt.Admits n page.startInterval k wn

instance (n me : Nat) (stmt : SegvStmt) (page page' : Page) :
    Decidable (Admitted n me stmt page page') :=
  inferInstanceAs (Decidable (∀ k < n, k ≠ me → ∀ wn ∈ newNotices k page page', _))

/-- Each notice that a handler adds to the page comes in time. -/
def InTime (n me p : Nat) (f : SegvThread) (e : SegvEvent) : Prop :=
  ∀ f' ∈ f.handle n me p e, Admitted n me f.stmt (f.mem.pageArray p) (f'.mem.pageArray p)

instance (n me p : Nat) (f : SegvThread) (e : SegvEvent) : Decidable (InTime n me p f e) := by
  unfold InTime
  infer_instance

/-- What a handler does to a page, but for a reply. -/
structure Page.Moved (n me : Nat) (new : Nat → List WriteNotice) (page page' : Page) : Prop where
  notices : ∀ k, k ≠ me → page'.notices k = new k ++ page.notices k
  bare : ∀ k, k ≠ me → ∀ wn ∈ new k, wn.diffAddress = none
  invalid : page.state = .invalid → page'.state = .invalid ∧ page'.prot = page.prot
  rdonly : page.state = .rdonly →
    (Brings n me new ∧ page'.state = .invalid ∧ page'.prot = .none) ∨
      page'.state = .rdonly ∧ ∀ k, k ≠ me → new k = []
  write : page.state = .write →
    (Brings n me new ∧ page'.state = .invalid ∧ page'.prot = .none) ∨
      (page'.state = .rdonly ∨ page'.state = .write) ∧ ∀ k, k ≠ me → new k = []
  content : page'.content = page.content
  address : page'.address = page.address
  startInterval : page'.startInterval = page.startInterval

section

variable {n me p : Nat} {start page page' : Page} {f f' : SegvThread}
  {new : Nat → List WriteNotice} {answers : List (Nat × Timestamp × Content)}
  {cursor : Nat → Cursor}

theorem Page.Arrived.moved (h : Page.Arrived n me new page page') : Page.Moved n me new page page' where
  notices := h.notices
  bare := h.bare
  invalid hs := by
    rcases h.state with ⟨hs', hg, -⟩ | ⟨-, hs', hg⟩
    · exact ⟨hs'.trans hs, hg⟩
    · rw [hs', hg, hs]
      exact ⟨rfl, rfl⟩
  rdonly hs := by
    rcases h.state with ⟨hs', -, hnil⟩ | ⟨hnew, hs', hg⟩
    · exact Or.inr ⟨hs'.trans hs, hnil⟩
    · rw [hs', hg, hs]
      exact Or.inl ⟨hnew, rfl, rfl⟩
  write hs := by
    rcases h.state with ⟨hs', -, hnil⟩ | ⟨hnew, hs', hg⟩
    · exact Or.inr ⟨Or.inr (hs'.trans hs), hnil⟩
    · rw [hs', hg, hs]
      exact Or.inl ⟨hnew, rfl, rfl⟩
  content := h.content
  address := h.address
  startInterval := h.startInterval

theorem Page.Served.moved (h : page.Served me page') :
    Page.Moved n me (fun _ => []) page page' where
  notices := h.notices
  bare _ _ _ h := nomatch h
  invalid hs := by
    rcases h.state with ⟨hs', hg⟩ | ⟨hs', -⟩
    · exact ⟨hs'.trans hs, hg⟩
    · rw [hs] at hs'
      cases hs'
  rdonly hs := by
    rcases h.state with ⟨hs', -⟩ | ⟨hs', -⟩
    · exact Or.inr ⟨hs'.trans hs, fun _ _ => rfl⟩
    · rw [hs] at hs'
      cases hs'
  write hs := by
    rcases h.state with ⟨hs', -⟩ | ⟨-, hs'⟩
    · exact Or.inr ⟨Or.inr (hs'.trans hs), fun _ _ => rfl⟩
    · exact Or.inr ⟨Or.inl hs', fun _ _ => rfl⟩
  content := h.content
  address := h.address
  startInterval := h.startInterval

theorem Page.Moved.newNotices (h : Page.Moved n me new page page') {k : Nat} (hk : k ≠ me) :
    newNotices k page page' = new k := by
  unfold Midsm.newNotices
  rw [h.notices k hk, List.length_append, Nat.add_sub_cancel]
  exact List.take_left' rfl

/-- What comes to a list that has been read would be lost. -/
theorem AllUpto.moved (h : AllUpto n me start cursor answers page)
    (hp : Page.Moved n me new page page')
    (hc : ∀ k < n, k ≠ me → ∀ wn ∈ new k,
      cursor k = .unread ∧ asked n start.startInterval wn = true) :
    AllUpto n me start cursor answers page' := by
  intro k hk hm
  rw [hp.notices k hm]
  cases hnew : new k with
  | nil => exact h k hk hm
  | cons wn rest =>
      have hunread := (hc k hk hm wn (by rw [hnew]; exact List.mem_cons_self)).1
      have hupto := h k hk hm
      rw [hunread] at hupto ⊢
      refine hupto.arrive fun w hw => ?_
      rw [← hnew] at hw
      exact ⟨hp.bare k hm w hw, (hc k hk hm w hw).2⟩

theorem Untouched.moved (h : Untouched n me start page) (hp : Page.Moved n me new page page')
    (hc : ∀ k < n, k ≠ me → new k = []) : Untouched n me start page' := by
  intro k hk hm
  rw [hp.notices k hm, hc k hk hm]
  exact h k hk hm

theorem Opened.moved (h : Opened n me start answers page) (hp : Page.Moved n me new page page') :
    (Brings n me new ∧ page'.state = .invalid ∧ page'.prot = .none) ∨
      Opened n me start answers page' := by
  obtain ⟨hs, hupto⟩ := h
  have hcase : (Brings n me new ∧ page'.state = .invalid ∧ page'.prot = .none) ∨
      (page'.state = .rdonly ∨ page'.state = .write) ∧ ∀ k, k ≠ me → new k = [] := by
    rcases hs with hs | hs
    · exact (hp.rdonly hs).imp_right fun ⟨hs', hnil⟩ => ⟨Or.inl hs', hnil⟩
    · exact hp.write hs
  rcases hcase with ⟨hnew, hs'⟩ | ⟨hs', hnil⟩
  · exact Or.inl ⟨hnew, hs'⟩
  · exact Or.inr ⟨hs', hupto.of_notices fun k hk => by rw [hp.notices k hk, hnil k hk]; rfl⟩

theorem Closed.moved (h : Closed n me start answers page) (hp : Page.Moved n me new page page') :
    Closed n me start answers page' := by
  rcases h with ⟨hs, hg⟩ | h
  · obtain ⟨hs', hg'⟩ := hp.invalid hs
    exact Or.inl ⟨hs', hg'.trans hg⟩
  · exact (h.moved hp).imp And.right id

theorem Page.Stands.moved {i rest : Nat} {wn : WriteNotice} (h : page.Stands i rest wn)
    (hp : Page.Moved n me new page page') (him : i ≠ me) (hnil : new i = []) :
    page'.Stands i rest wn := by
  have hlist : page'.notices i = page.notices i := by rw [hp.notices i him, hnil]; rfl
  unfold Page.Stands Page.from at h ⊢
  rw [hlist]
  exact h

/-- A handler that brings notices in time, or none. -/
theorem SegvThread.Stage.moved {m : Mem} (h : f.Stage n me p start)
    (hp : Page.Moved n me new (f.mem.pageArray p) (m.pageArray p))
    (hflag : m.fetchDiffWaitFlag = f.mem.fetchDiffWaitFlag)
    (hok : ∀ k < n, k ≠ me → ∀ wn ∈ new k, f.stmt.Admits n start.startInterval k wn) :
    SegvThread.Stage n me p start { f with mem := m } := by
  have hwalks : ∀ {cursor : Nat → Cursor}, f.Walks n me p start cursor →
      (∀ k wn, f.stmt.Admits n start.startInterval k wn →
        cursor k = .unread ∧ asked n start.startInterval wn = true) →
      SegvThread.Walks n me p start cursor { f with mem := m } := fun hw hc =>
    ⟨(hp.invalid hw.state).1, hw.pageTimestamp,
      hw.upto.moved hp fun k hk hm wn hwn => hc k wn (hok k hk hm wn hwn)⟩
  have hbefore : ∀ i k : Nat, i ≤ k → Cursor.before i k = .unread := fun i k hik =>
    if_neg (by omega)
  have hstanding : ∀ i rest k : Nat, i < k → Cursor.standing i rest k = .unread := by
    intro i rest k hik
    rw [Cursor.standing, if_neg (by omega), if_neg (by omega)]
  have hnone : (∀ k wn, ¬ f.stmt.Admits n start.startInterval k wn) →
      ∀ k < n, k ≠ me → new k = [] := by
    intro hno k hk hm
    refine List.eq_nil_iff_forall_not_mem.mpr fun wn hwn => ?_
    exact hno k wn (hok k hk hm wn hwn)
  have hself : ∀ i, i < n → i ≠ me →
      (∀ wn, ¬ f.stmt.Admits n start.startInterval i wn) → new i = [] := by
    intro i hi hm hno
    refine List.eq_nil_iff_forall_not_mem.mpr fun wn hwn => ?_
    exact hno wn (hok i hi hm wn hwn)
  unfold SegvThread.Stage at h ⊢
  dsimp only
  cases hst : f.stmt <;> simp only [hst] at h ⊢ <;>
    simp only [hst, SegvStmt.Admits] at hok hwalks hnone hself
  case isRdonly =>
    obtain ⟨hr, hupto, hs⟩ := h
    refine ⟨hr, hupto.moved hp fun k hk hm wn hwn => ⟨rfl, hok k hk hm wn hwn⟩, ?_⟩
    rcases hs with hs | ⟨hs, hu⟩
    · exact Or.inl (hp.invalid hs).1
    · exact (hp.rdonly hs).imp (fun hs' => hs'.2.1) fun ⟨hs', hnil⟩ =>
        ⟨hs', hu.moved hp fun k _ hm => hnil k hm⟩
  case isMiss | isWrite | isInvalid | diffState | diffStart =>
    obtain ⟨hr, hupto, hs⟩ := h
    exact ⟨hr, hupto.moved hp fun k hk hm wn hwn => ⟨rfl, hok k hk hm wn hwn⟩,
      (hp.invalid hs).1⟩
  case host i =>
    exact ⟨h.1, hwalks h.2 fun k wn hc => ⟨hbefore i k hc.1, hc.2⟩⟩
  case head i =>
    exact ⟨h.1, hwalks h.2.1 fun k wn hc => ⟨hbefore i k hc.1, hc.2⟩, h.2.2⟩
  case notice i rest | next i rest =>
    exact ⟨h.1, hwalks h.2.1 fun k wn hc => ⟨hstanding i _ k hc.1, hc.2⟩, h.2.2⟩
  case after i rest | build i rest =>
    obtain ⟨hr, hw, hi, wn, hstands⟩ := h
    exact ⟨hr, hwalks hw fun k wn hc => ⟨hstanding i _ k hc.1, hc.2⟩, hi, wn,
      hstands.moved hp hi.2 (hself i hi.1 hi.2 fun wn hc => Nat.lt_irrefl i hc.1)⟩
  case flag i rest ts =>
    obtain ⟨hr, hw, hi, wn, hstands, hts⟩ := h
    exact ⟨hr, hwalks hw fun k wn hc => ⟨hstanding i _ k hc.1, hc.2⟩, hi, wn,
      hstands.moved hp hi.2 (hself i hi.1 hi.2 fun wn hc => Nat.lt_irrefl i hc.1), hts⟩
  case send i rest ts =>
    obtain ⟨hr, hf, hw, hi, wn, hstands, hts⟩ := h
    exact ⟨hr, hflag.trans hf, hwalks hw fun k wn hc => ⟨hstanding i _ k hc.1, hc.2⟩, hi, wn,
      hstands.moved hp hi.2 (hself i hi.1 hi.2 fun wn hc => Nat.lt_irrefl i hc.1), hts⟩
  case spin i rest =>
    obtain ⟨hi, hcase⟩ := h
    refine ⟨hi, ?_⟩
    rcases hcase with ⟨hr, hw⟩ | ⟨hf, hw, wn, hstands, hr⟩
    · exact Or.inl ⟨hr, hwalks hw fun k wn hc => ⟨hstanding i _ k hc.1, hc.2⟩⟩
    · exact Or.inr ⟨hflag.trans hf, hwalks hw fun k wn hc => ⟨hstanding i _ k hc.1, hc.2⟩, wn,
        hstands.moved hp hi.2 (hself i hi.1 hi.2 fun wn hc => Nat.lt_irrefl i hc.1), hr⟩
  case setRdonly =>
    refine ⟨h.1, h.2.moved hp fun k hk hm wn hwn => ?_⟩
    exact (hok k hk hm wn hwn).elim
  case protectWrite | protectRdonly =>
    refine ⟨h.1, (h.2.moved hp).resolve_left ?_⟩
    rintro ⟨⟨k, hk, hm, hne⟩, -⟩
    exact hne (hnone (fun _ _ => not_false) k hk hm)
  case leave | done => exact ⟨h.1, h.2.moved hp⟩
  all_goals exact ⟨h.1, h.2.moved hp (hnone fun _ _ => not_false)⟩

theorem handleGrantEnterBarrierMsg_matched (me : Nat) {m : Mem} {j : Nat} (h : m.Matched j)
    (sender : Nat) (ts : Timestamp) (k : Nat) (packets : List WnPacket) :
    (handleGrantEnterBarrierMsg me sender ts k packets m).Matched j ∧
      (handleGrantEnterBarrierMsg me sender ts k packets m).fetchDiffWaitFlag =
        m.fetchDiffWaitFlag := by
  unfold handleGrantEnterBarrierMsg
  dsimp only
  split
  · have hstamped : Mem.Matched j { m with
        barrierTimestamps := upd m.barrierTimestamps sender ts } := h.congr (fun _ => rfl) rfl
    exact ⟨hstamped.incorporatePackets k packets,
      (incorporatePackets_learned me k packets _).diffFlag⟩
  · exact ⟨h.incorporatePackets k packets, (incorporatePackets_learned me k packets _).diffFlag⟩

/-- The memory after a handler that brings notices in time, or none. -/
theorem SegvThread.Inv.moved {m : Mem} (h : f.Inv n me p start)
    (hp : Page.Moved n me new (f.mem.pageArray p) (m.pageArray p))
    (hm : ∀ k, k ≠ me → m.Matched k) (hflag : m.fetchDiffWaitFlag = f.mem.fetchDiffWaitFlag)
    (hok : Admitted n me f.stmt (f.mem.pageArray p) (m.pageArray p)) :
    SegvThread.Inv n me p start { f with mem := m } := by
  refine ⟨⟨hm, ?_, hp.startInterval.trans h.base.startInterval,
    hp.content.trans h.base.content⟩, h.stage.moved hp hflag fun k hk hkm wn hwn => ?_⟩
  · show (m.pageArray p).address ≠ 0
    rw [hp.address]
    exact h.base.address
  · rw [← h.base.startInterval]
    refine hok k hk hkm wn ?_
    rw [hp.newNotices hkm]
    exact hwn

/-- The reply to the request of the fault. -/
theorem SegvThread.Inv.reply {i : Nat} {ts : Timestamp} (h : f.Inv n me p start)
    (hlive : f.stmt ≠ .killed) (hr : f.request = some (i, ts)) (diff : Content) : SegvThread.Inv n me p start { f with
      mem := handleGrantDiffMsg i ts p diff f.mem
      request := none
      answers := f.answers ++ [(i, ts, diff)] } := by
  have hb := h.base
  have hstage := h.stage
  unfold SegvThread.Stage at hstage
  cases hst : f.stmt <;> simp only [hst, hr, reduceCtorEq, false_and] at hstage
  case killed => exact absurd hst hlive
  case spin i' rest =>
    obtain ⟨hi, hcase⟩ := hstage
    obtain ⟨-, hw, wn, ⟨hd, tail, hfrom⟩, hreq⟩ := hcase.resolve_left nofun
    cases hreq
    have hnd := (hb.matched i hi.2).once p
    have hfind : findNotice wn.timestamp ((f.mem.pageArray p).notices i) = some wn :=
      findNotice_of_mem hnd (List.mem_of_mem_drop (hfrom ▸ List.mem_cons_self))
    have hframe := handleGrantDiffMsg_frame (p := p) (m := f.mem) i wn.timestamp diff
    refine ⟨⟨fun k hk => hframe.matched (hb.matched k hk), ?_, ?_, ?_⟩, ?_⟩
    · dsimp only
      rw [handleGrantDiffMsg_first hfind hd, answered_self]
      exact hb.address
    · dsimp only
      rw [handleGrantDiffMsg_first hfind hd, answered_self]
      exact hb.startInterval
    · dsimp only
      rw [handleGrantDiffMsg_first hfind hd, answered_self, List.map_append, applyAll,
        List.foldl_append]
      dsimp only
      rw [Page.patched, if_neg hb.address, hb.content]
      rfl
    · unfold SegvThread.Stage
      dsimp only
      refine ⟨hi, Or.inl ⟨rfl, ?_, hw.pageTimestamp, ?_⟩⟩
      · dsimp only
        rw [handleGrantDiffMsg_first hfind hd, answered_self]
        exact hw.state
      · dsimp only
        rw [handleGrantDiffMsg_first hfind hd, answered_self]
        intro k hk hm
        dsimp only
        by_cases hki : k = i
        · subst hki
          have hupto := hw.upto k hk hm
          rw [standing_self] at hupto ⊢
          rw [upd_self]
          exact hupto.reply hfrom hd hnd diff
        · rw [upd_ne hki, standing_ne hki rest]
          exact (hw.upto k hk hm).mono

theorem SegvThread.Inv.handle (h : f.Inv n me p start) (hlive : f.stmt ≠ .killed) {e : SegvEvent}
    (hok : InTime n me p f e) (he : f.handle n me p e = some f') : f'.Inv n me p start := by
  have hok : Admitted n me f.stmt (f.mem.pageArray p) (f'.mem.pageArray p) := hok f' he
  cases e with
  | next => cases he
  | enterInfo sender ts k packets =>
      simp only [SegvThread.handle] at he
      split at he
      · next hid =>
          split at he <;> cases he
          · exact ⟨h.base.goto _, trivial⟩
          · obtain ⟨new, hnew⟩ := handleGrantEnterBarrierMsg_arrived sender ts hid f.mem p
            have hsafe := fun j hj => handleGrantEnterBarrierMsg_matched me
              (h.base.matched j hj) sender ts k packets
            exact h.moved hnew.moved (fun j hj => (hsafe j hj).1)
              (hsafe (me + 1) (Nat.succ_ne_self me)).2 hok
      · cases he
  | fetchDiff sender ts q =>
      simp only [SegvThread.handle] at he
      split at he <;> cases he
      · exact ⟨h.base.goto _, trivial⟩
      · obtain ⟨hserved, hflag⟩ := grantDiff_served n me sender ts q f.mem p
        exact h.moved hserved.moved (fun j hj => (grantDiff_frame ..).matched (h.base.matched j hj))
          hflag hok
  | fetchPage sender q =>
      have hsame := grantPage_nested n me sender q f.mem
      simp only [SegvThread.handle] at he
      split at he
      · cases he
        exact ⟨h.base.goto _, trivial⟩
      · next hg =>
          rw [hg] at hsame
          cases hsame
          cases he
          exact h
  | reply diff =>
      obtain ⟨⟨i, ts⟩, hr, rfl⟩ := Option.map_eq_some_iff.mp he
      exact h.reply hlive hr diff

theorem SegvThread.Inv.step (h : f.Inv n me p start) {e : SegvEvent}
    (hok : InTime n me p f e) (he : segvStep n me p f e = some f') : f'.Inv n me p start := by
  unfold segvStep at he
  split at he
  · cases he
  · cases he
  · exact h.next he
  · next hlive => exact h.handle hlive hok he

/-- The fault begins. -/
theorem SegvThread.Inv.first {m : Mem} (hm : ∀ k, k ≠ me → m.Matched k)
    (ha : (m.pageArray p).address ≠ 0)
    (hs : (m.pageArray p).state = .rdonly ∨ (m.pageArray p).state = .invalid) :
    (SegvThread.start m).Inv n me p (m.pageArray p) where
  base := ⟨hm, ha, rfl, rfl⟩
  stage := by
    have hu : Untouched n me (m.pageArray p) (m.pageArray p) := fun _ _ _ => rfl
    exact ⟨rfl, hu.allUpto _, hs.elim (fun hs => Or.inr ⟨hs, hu⟩) Or.inl⟩

end

/-- A fault has ended well: the page is `INVALID` and not accessible, or each notice of
another host that has come in the meantime has its diff, which is one of those added to the
page. -/
structure FaultServed (n me p : Nat) (start : Page) (f : SegvThread) : Prop where
  fetched : (f.mem.pageArray p).state = .invalid ∧ (f.mem.pageArray p).prot = .none ∨
    ∀ k < n, k ≠ me → ∀ wn ∈ newNotices k start (f.mem.pageArray p), Fetched k f.answers wn
  applied : (f.mem.pageArray p).content =
    applyAll start.content (f.answers.map fun answer => answer.2.2)

/-- In every run of a fault in which each notice comes in time, the fault ends well. -/
theorem no_invalidation_lost_if_in_time (n : Nat) {s : Sys}
    (hrun : Reach (step n) anyStep initSys s) (p : Nat)
    (hs : ((s.host 0).mem.pageArray p).state = .rdonly ∨
      ((s.host 0).mem.pageArray p).state = .invalid) {f : SegvThread}
    (h : Reach (segvStep n 0 p) (InTime n 0 p) (.start (s.host 0).mem) f)
    (hdone : f.stmt = .done) : FaultServed n 0 p ((s.host 0).mem.pageArray p) f := by
  have haddress : ((s.host 0).mem.pageArray p).address ≠ 0 := by
    refine (((filled_of_reach hrun).armed 0).page p).address ?_
    rcases hs with hs | hs <;> rw [hs] <;> exact nofun
  have hinv : f.Inv n 0 p ((s.host 0).mem.pageArray p) :=
    h.invariant (.first (fun k hk => matched_of_reach hrun hk) haddress hs)
      fun ht hok he => ht.step hok he
  have hstage := hinv.stage
  simp only [SegvThread.Stage, hdone] at hstage
  refine ⟨hstage.2.imp_right fun hclosed k hk hm wn hwn => ?_, hinv.base.content⟩
  exact (hclosed.2 k hk hm).fetched wn hwn

/-! ## Runs -/

/-- A fault on page 0 of host 0, among three hosts, in a system that was run before. -/
theorem exists_fault {ok : SegvThread → SegvEvent → Prop}
    (check : SegvThread → SegvEvent → Bool) (hok : ∀ f e, check f e = true → ok f e)
    (es : List Event) (fs : List SegvEvent) (q : Mem → SegvThread → Bool)
    (h : ((runFrom (step 3) (fun _ _ => true) initSys es).any fun s =>
      (runFrom (segvStep 3 0 0) check (.start (s.host 0).mem) fs).any (q (s.host 0).mem)) = true) :
    ∃ s f, Reach (step 3) anyStep initSys s ∧
      Reach (segvStep 3 0 0) ok (.start (s.host 0).mem) f ∧ q (s.host 0).mem f = true := by
  obtain ⟨s, hs, hrun⟩ := (Option.any_eq_true ..).mp h
  obtain ⟨f, hf, hq⟩ := (Option.any_eq_true ..).mp hrun
  exact ⟨s, f, reach_of_runFrom (fun _ _ _ => trivial) hs, reach_of_runFrom hok hf, hq⟩

/-- The fault has ended, and the page can be read. -/
def SegvThread.readable (p : Nat) (f : SegvThread) : Bool :=
  match f.stmt with
  | .done => (f.mem.pageArray p).prot ≠ .none
  | _ => false

theorem readable_done {p : Nat} {f : SegvThread} (h : f.readable p = true) :
    f.stmt = .done ∧ (f.mem.pageArray p).prot ≠ .none := by
  unfold SegvThread.readable at h
  split at h
  · next hst => exact ⟨hst, of_decide_eq_true h⟩
  · cases h

/-- Client `k`, which has reached the barrier, tells host 0 about a notice for page 0. -/
def tellNotice (k : Nat) : SegvEvent := .enterInfo k (fun _ => 1) 1 [⟨k, fun _ => 1, [0]⟩]

/-- Host 1 tells about page 0 before the fault has tested its state; the diff is fetched. -/
theorem no_invalidation_lost_if_in_time_one : ∃ s f,
    Reach (step 3) anyStep initSys s ∧
    Reach (segvStep 3 0 0) (InTime 3 0 0) (.start (s.host 0).mem) f ∧ f.stmt = .done ∧
    (newNotices 1 ((s.host 0).mem.pageArray 0) (f.mem.pageArray 0)).length = 1 ∧
    FaultServed 3 0 0 ((s.host 0).mem.pageArray 0) f := by
  obtain ⟨s, f, hs, hf, hq⟩ := exists_fault (fun f e => decide (InTime 3 0 0 f e))
    (fun _ _ => of_decide_eq_true) [.op 0 (.alloc 4096)]
    (tellNotice 1 :: List.replicate 14 .next ++ .reply (fun _ => 7) :: List.replicate 10 .next)
    (fun m f => f.readable 0 && decide ((m.pageArray 0).state = .rdonly ∧
      (newNotices 1 (m.pageArray 0) (f.mem.pageArray 0)).length = 1)) (by decide +kernel)
  rw [Bool.and_eq_true, decide_eq_true_eq] at hq
  obtain ⟨hread, hrdonly, hnew⟩ := hq
  have hdone := (readable_done hread).1
  exact ⟨s, f, hs, hf, hdone, hnew,
    no_invalidation_lost_if_in_time 3 hs 0 (Or.inl hrdonly) hf hdone⟩

/-- A notice of host `k` that has come has no diff. -/
def lacksDiff (k : Nat) (start : Page) (f : SegvThread) : Bool :=
  (newNotices k start (f.mem.pageArray 0)).any fun wn => wn.diffAddress.isNone

theorem not_served {k : Nat} {start : Page} {f : SegvThread} (hk : k < 3) (hm : k ≠ 0)
    (hread : f.readable 0 = true) (hlacks : lacksDiff k start f = true) :
    ¬ FaultServed 3 0 0 start f := by
  intro h
  obtain ⟨wn, hwn, hnone⟩ := List.any_eq_true.mp hlacks
  obtain ⟨diff, hd, -⟩ := (h.fetched.resolve_left fun hs => (readable_done hread).2 hs.2) k hk hm
    wn hwn
  rw [hd] at hnone
  cases hnone

/-- A fault on page 0 of host 0 that begins in state `before` and ends in `after`, with a
notice of host 1 that has come and been lost. -/
def LosesNotice (before after : PageState) : Prop :=
  ∃ s f, Reach (step 3) anyStep initSys s ∧ ((s.host 0).mem.pageArray 0).state = before ∧
    Reach (segvStep 3 0 0) anyStep (.start (s.host 0).mem) f ∧ f.stmt = .done ∧
    (f.mem.pageArray 0).state = after ∧
    ¬ FaultServed 3 0 0 ((s.host 0).mem.pageArray 0) f

theorem losesNotice_of_run {before after : PageState} (es : List Event) (fs : List SegvEvent)
    (h : ((runFrom (step 3) (fun _ _ => true) initSys es).any fun s =>
      (runFrom (segvStep 3 0 0) (fun _ _ => true) (.start (s.host 0).mem) fs).any fun f =>
        decide (((s.host 0).mem.pageArray 0).state = before ∧
          (f.mem.pageArray 0).state = after) &&
        (f.readable 0 && lacksDiff 1 ((s.host 0).mem.pageArray 0) f)) = true) :
    LosesNotice before after := by
  obtain ⟨s, f, hs, hf, hq⟩ := exists_fault (fun _ _ => true) (fun _ _ _ => trivial) es fs
    (fun m f => decide ((m.pageArray 0).state = before ∧ (f.mem.pageArray 0).state = after) &&
      (f.readable 0 && lacksDiff 1 (m.pageArray 0) f)) h
  rw [Bool.and_eq_true, Bool.and_eq_true, decide_eq_true_eq] at hq
  obtain ⟨⟨hbefore, hafter⟩, hread, hlacks⟩ := hq
  exact ⟨s, f, hs, hbefore, hf, (readable_done hread).1, hafter,
    not_served (by decide) (by decide) hread hlacks⟩

/-- A notice that comes when the twin of a `RDONLY` page has been made is undone by
`state = WRITE`. One that comes while the fault on an `INVALID` page waits for the diff of
host 2 is passed over. And one that comes between `state = WRITE` and the `mprotect` after
it leaves a page that is `INVALID` but can be written. -/
theorem notice_during_fault_lost : LosesNotice .rdonly .write ∧ LosesNotice .invalid .rdonly ∧
    LosesNotice .rdonly .invalid := by
  refine ⟨?_, ?_, ?_⟩
  · exact losesNotice_of_run [.op 0 (.alloc 4096)]
      (List.replicate 5 .next ++ tellNotice 1 :: List.replicate 4 .next) (by decide +kernel)
  · exact losesNotice_of_run
      [.op 0 (.alloc 4096), .op 2 (.alloc 4096), .op 2 (.load 0 0 1), .deliver 2 0,
        .deliver 0 2, .op 2 .resume, .op 2 (.store 0 0 [7]), .op 2 .barrier, .deliver 2 0]
      (List.replicate 17 .next ++ tellNotice 1 :: .reply (fun _ => 7) ::
        List.replicate 7 .next) (by decide +kernel)
  · exact losesNotice_of_run [.op 0 (.alloc 4096)]
      (List.replicate 11 .next ++ tellNotice 1 :: List.replicate 2 .next) (by decide +kernel)

end Midsm
