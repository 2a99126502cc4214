import Midsm.Lib.Deltas
import Midsm.Proofs.PageState

/-!
# Diffs

`createLocalDiff` subtracts bytewise and `applyDiff` adds bytewise, so diffs are
deltas over the group of byte arrays, and what is known of deltas holds of them:
their order does not matter, and writers of different bytes are merged.

Adding is not idempotent. `handleGrantDiffMsg` stores a diff only when the notice
has none, and adds it to the page all the same.
-/

namespace Midsm

open Midsm.Lib

/-! ## `applyDiff` and `createLocalDiff` -/

theorem applyDiff_some (page diff : Content) :
    applyDiff (some page) (some diff) = some (page + diff) := rfl

theorem createLocalDiff_some (page twin : Content) :
    createLocalDiff (some page) (some twin) = some (page - twin) := rfl

/-- Diffs applied to a page one after the other. -/
theorem foldl_applyDiff (page : Content) (diffs : List Content) :
    (diffs.map some).foldl applyDiff (some page) = some (applyAll page diffs) := by
  induction diffs generalizing page with
  | nil => rfl
  | cons diff diffs ih => rw [List.map_cons, List.foldl_cons, applyDiff_some, ih, applyAll_cons]

/-- Two diffs may be applied in either order, also when something is `NULL`. -/
theorem applyDiff_right_comm (page diff diff' : Option Content) :
    applyDiff (applyDiff page diff) diff' = applyDiff (applyDiff page diff') diff := by
  cases page with
  | none => cases diff <;> cases diff' <;> rfl
  | some page =>
      cases diff with
      | none => cases diff' <;> rfl
      | some diff =>
          cases diff' with
          | none => rfl
          | some diff' =>
              simp only [applyDiff_some]
              rw [add_right_comm]

/-- In whatever order they come. -/
theorem foldl_applyDiff_perm (page : Content) {diffs : List (Option Content)}
    {deltas : List Content} (h : diffs.Perm (deltas.map some)) :
    diffs.foldl applyDiff (some page) = some (applyAll page deltas) := by
  rw [h.foldl_eq' fun diff _ diff' _ page => applyDiff_right_comm page diff diff',
    foldl_applyDiff]

/-- Versions of a page whose diffs to the base are applied in any order. -/
theorem diff_algebra :
    (∀ page twin : Content,
      applyDiff (some twin) (createLocalDiff (some page) (some twin)) = some page) ∧
    (∀ (version : Nat → Content) (n : Nat) (diffs : List (Option Content)),
      diffs.Perm ((List.range n).map fun k =>
        createLocalDiff (some (version (k + 1))) (some (version k))) →
      diffs.foldl applyDiff (some (version 0)) = some (version n)) ∧
    (∀ (base : Content) (versions : List Content) (diffs : List (Option Content)),
      versions.Pairwise (fun v w => ∀ i, ¬ (v i ≠ base i ∧ w i ≠ base i)) →
      diffs.Perm (versions.map fun v => createLocalDiff (some v) (some base)) →
      ∃ merged, diffs.foldl applyDiff (some base) = some merged ∧
        (∀ v ∈ versions, ∀ i, v i ≠ base i → merged i = v i) ∧
        ∀ i, (∀ v ∈ versions, v i = base i) → merged i = base i) := by
  refine ⟨fun page twin => ?_, fun version n diffs hp => ?_, fun base versions diffs hapart hp => ?_⟩
  · rw [createLocalDiff_some, applyDiff_some, add_sub_cancel]
  · have hp : diffs.Perm (((List.range n).map fun k =>
        version (k + 1) - version k).map some) := by
      rw [List.map_map]
      exact hp
    rw [foldl_applyDiff_perm _ hp, applyAll_chain]
  · have hp : diffs.Perm ((versions.map (· - base)).map some) := by
      rw [List.map_map]
      exact hp
    have hm : Merges base versions (applyAll base (versions.map (· - base))) :=
      merges_applyAll base hapart
    refine ⟨_, foldl_applyDiff_perm _ hp, hm.written, fun i hi => hm.kept i fun v hv => ?_⟩
    exact not_not.mpr (hi v hv)

/-- Two writers of a page of zeros, their diffs applied in the other order. -/
theorem diff_algebra_two : ∃ merged : Content,
    [createLocalDiff (some (upd 0 1 7)) (some 0),
      createLocalDiff (some (upd 0 0 5)) (some 0)].foldl applyDiff (some (0 : Content)) =
      some merged ∧ merged 0 = 5 ∧ merged 1 = 7 := by
  have hne : (0 : Fin pageSize) ≠ 1 := by decide
  obtain ⟨merged, hm, hwritten, -⟩ := diff_algebra.2.2 0 [upd 0 0 5, upd 0 1 7] _
    (by
      rw [List.pairwise_pair]
      rintro i ⟨h0, h1⟩
      by_cases hi : i = 0
      · exact h1 (upd_ne (by rw [hi]; exact hne))
      · exact h0 (upd_ne hi))
    (List.Perm.swap _ _ [])
  refine ⟨merged, hm, ?_, ?_⟩
  · rw [hwritten (upd 0 0 5) List.mem_cons_self 0 (by rw [upd_self]; decide), upd_self]
  · rw [hwritten (upd 0 1 7) (by simp) 1 (by rw [upd_self]; decide), upd_self]

/-! ## A reply -/

section

variable {sender p : Nat} {ts : Timestamp} {diff : Content} {m : Mem}

theorem findNotice_setDiff (ts : Timestamp) (diff : Option Content)
    (list : List WriteNotice) : findNotice ts (setDiff ts diff list) =
      (findNotice ts list).map fun wn => { wn with diffAddress := diff } := by
  induction list with
  | nil => rfl
  | cons wn rest ih =>
      rw [setDiff]
      unfold findNotice at ih ⊢
      by_cases h : wn.timestamp = ts
      · rw [if_pos h, List.find?_cons_of_pos (by simpa using h),
          List.find?_cons_of_pos (by simpa using h), Option.map_some]
      · rw [if_neg h, List.find?_cons_of_neg (by simpa using h),
          List.find?_cons_of_neg (by simpa using h), ih]

theorem findNotice_eq_none {list : List WriteNotice} :
    findNotice ts list = none ↔ ∀ wn ∈ list, wn.timestamp ≠ ts := by
  rw [findNotice, List.find?_eq_none]
  simp

/-- The memory of a page after `applyDiff`; a page without memory is refused. -/
def Page.patched (page : Page) (diff : Content) : Content :=
  if page.address = 0 then page.content else page.content + diff

theorem applyDiff_memory (page : Page) (diff : Content) :
    (applyDiff page.memory (some diff)).getD page.content = page.patched diff := by
  unfold Page.memory Page.patched
  split
  · rfl
  · rfl

/-- The reply does not name a notice. -/
theorem handleGrantDiffMsg_unknown
    (h : findNotice ts ((m.pageArray p).notices sender) = none) :
    handleGrantDiffMsg sender ts p diff m = { m with fetchDiffWaitFlag := false } := by
  unfold handleGrantDiffMsg
  dsimp only
  rw [h]

/-- A reply taken in: one page is changed, and the flag goes down. -/
def Mem.answered (p : Nat) (page : Page) (m : Mem) : Mem :=
  { m.setPage p page with fetchDiffWaitFlag := false }

@[simp] theorem answered_self (p : Nat) (page : Page) (m : Mem) :
    (m.answered p page).pageArray p = page := upd_self ..

theorem answered_answered (p : Nat) (page page' : Page) (m : Mem) :
    (m.answered p page).answered p page' = m.answered p page' := by
  unfold Mem.answered Mem.setPage
  rw [upd_upd]

theorem answered_inj {page page' : Page} :
    m.answered p page = m.answered p page' ↔ page = page' := by
  refine ⟨fun h => ?_, fun h => by rw [h]⟩
  rw [← answered_self p page m, h, answered_self]

/-- The first reply for a notice. -/
theorem handleGrantDiffMsg_first {wn : WriteNotice}
    (h : findNotice ts ((m.pageArray p).notices sender) = some wn)
    (hd : wn.diffAddress = none) :
    handleGrantDiffMsg sender ts p diff m = m.answered p { m.pageArray p with
      notices := upd (m.pageArray p).notices sender
        (setDiff ts (some diff) ((m.pageArray p).notices sender))
      content := (m.pageArray p).patched diff
      prot := .none } := by
  unfold handleGrantDiffMsg
  dsimp only
  rw [h]
  dsimp only
  rw [hd, applyDiff_memory]
  rfl

/-- A reply for a notice that has its diff: only the content is changed. -/
theorem handleGrantDiffMsg_again {wn : WriteNotice}
    (h : findNotice ts ((m.pageArray p).notices sender) = some wn)
    (hd : wn.diffAddress ≠ none) :
    handleGrantDiffMsg sender ts p diff m =
      m.answered p { m.pageArray p with
        content := (m.pageArray p).patched diff
        prot := .none } := by
  unfold handleGrantDiffMsg
  dsimp only
  rw [h]
  dsimp only
  rw [if_pos (Option.isSome_iff_ne_none.mpr hd), applyDiff_memory, upd_eta]
  rfl

/-- After a reply for a notice, the notice has a diff. -/
theorem handleGrantDiffMsg_stored {wn : WriteNotice}
    (h : findNotice ts ((m.pageArray p).notices sender) = some wn) :
    ∃ page wn', handleGrantDiffMsg sender ts p diff m = m.answered p page ∧
      page.address = (m.pageArray p).address ∧ page.prot = .none ∧
      findNotice ts (page.notices sender) = some wn' ∧ wn'.diffAddress ≠ none := by
  by_cases hd : wn.diffAddress = none
  · refine ⟨_, { wn with diffAddress := some diff }, handleGrantDiffMsg_first h hd, rfl, rfl,
      ?_, nofun⟩
    dsimp only
    rw [upd_self, findNotice_setDiff, h, Option.map_some]
  · exact ⟨_, _, handleGrantDiffMsg_again h hd, rfl, rfl, h, hd⟩

theorem Page.patched_eq_self {page : Page} :
    page.patched diff = page.content ↔ page.address = 0 ∨ diff = 0 := by
  unfold Page.patched
  split
  · next h => simp [h]
  · next h => rw [add_eq_left, or_iff_right h]

/-- The same reply processed again adds the diff again. -/
theorem repeated_reply_harmless_iff (sender p : Nat) (ts : Timestamp) (diff : Content)
    (m : Mem) :
    handleGrantDiffMsg sender ts p diff (handleGrantDiffMsg sender ts p diff m) =
        handleGrantDiffMsg sender ts p diff m ↔
      (∀ wn ∈ (m.pageArray p).notices sender, wn.timestamp ≠ ts) ∨
        (m.pageArray p).address = 0 ∨ diff = 0 := by
  rw [← findNotice_eq_none]
  cases hf : findNotice ts ((m.pageArray p).notices sender) with
  | none =>
      rw [handleGrantDiffMsg_unknown hf, handleGrantDiffMsg_unknown (by exact hf)]
      exact ⟨fun _ => Or.inl rfl, fun _ => rfl⟩
  | some wn =>
      obtain ⟨page, wn', hm, ha, hg, hf', hd'⟩ := handleGrantDiffMsg_stored hf
      rw [hm, handleGrantDiffMsg_again (by rw [answered_self]; exact hf') hd', answered_self,
        answered_answered, answered_inj, or_iff_right nofun, ← ha, ← Page.patched_eq_self]
      constructor
      · exact fun he => congrArg Page.content he
      · intro he
        rw [he, ← hg]

/-- A `GRANT_DIFF` at the head of its channel that is processed twice. -/
def doubled (s : Sys) : Bool :=
  match s.net 1 0 with
  | .grantDiff ts p diff :: _ =>
      decide (((handleGrantDiffMsg 1 ts p diff (handleGrantDiffMsg 1 ts p diff
          (s.host 0).mem)).pageArray p).content 0 ≠
        ((handleGrantDiffMsg 1 ts p diff (s.host 0).mem).pageArray p).content 0)
  | _ => false

/-- Host 1 has stored into page 0 before a barrier that host 0 has not reached yet; its
diff arrives at host 0 twice. -/
theorem repeated_reply_added_twice :
    ∃ s ts p diff left, Reach (step 2) anyStep initSys s ∧
      s.net 1 0 = .grantDiff ts p diff :: left ∧
      handleGrantDiffMsg 1 ts p diff (handleGrantDiffMsg 1 ts p diff (s.host 0).mem) ≠
        handleGrantDiffMsg 1 ts p diff (s.host 0).mem := by
  obtain ⟨s, hrun, hp⟩ := exists_reach_any (step 2) initSys
    [.op 0 (.alloc 4096), .op 1 (.alloc 4096), .op 1 (.load 0 0 1), .deliver 1 0,
      .deliver 0 1, .op 1 .resume, .op 1 (.store 0 0 [7]), .op 1 .barrier, .deliver 1 0,
      .op 0 (.load 0 0 1), .deliver 0 1, .deliver 1 0] doubled (by decide +kernel)
  unfold doubled at hp
  split at hp
  · next ts p diff left hnet =>
      exact ⟨s, ts, p, diff, left, hrun, hnet, fun he => of_decide_eq_true hp (by rw [he])⟩
  · cases hp

end

end Midsm
