import Midsm.Proofs.Clocks
import Midsm.Proofs.Diffs

/-!
# What a fault fetches

A fault on a `MISS` page asks one host for the whole page. The scan of
`fetchPage` keeps the latest notice it has met and passes over those that are
concurrent with it; being after is transitive, so nothing it passed over can be
after what it ends with.

A fault on an `INVALID` page asks for diffs. `fetchDiff` walks each list down to
the first notice that has its diff, and each reply is stored by a search of the
same list. The timestamps of a list being distinct, the search finds the notice
that the walk stands on, and leaves the rest of the list as the walk will find
it.
-/

namespace Midsm

open Midsm.Lib

/-! ## The host that is asked for a page -/

/-- The newest notice of another host `i` has the timestamp `ts`. -/
def Page.Newest (me : Nat) (page : Page) (i : Nat) (ts : Timestamp) : Prop :=
  i ≠ me ∧ ∃ wn, (page.notices i).head? = some wn ∧ wn.timestamp = ts

/-- What the scan of `fetchPage` knows of the hosts it has seen. -/
structure Latest (n me : Nat) (page : Page) (seen : List Nat)
    (latest : Option (Nat × Timestamp)) : Prop where
  none_seen : latest = none → ∀ j ∈ seen, ∀ ts, ¬ page.Newest me j ts
  newest : ∀ i ts, latest = some (i, ts) → i ∈ seen ∧ page.Newest me i ts
  maximal : ∀ i ts, latest = some (i, ts) → ∀ j ∈ seen, ∀ ts', page.Newest me j ts' →
    isAfterInterval n ts' ts = false

section

variable {n me p i : Nat} {page : Page} {seen : List Nat} {latest : Option (Nat × Timestamp)}
  {ts : Timestamp} {m : Mem}

theorem Page.Newest.unique {ts' : Timestamp} (h : page.Newest me i ts)
    (h' : page.Newest me i ts') : ts = ts' := by
  obtain ⟨-, wn, hw, rfl⟩ := h
  obtain ⟨-, wn', hw', rfl⟩ := h'
  rw [hw, Option.some.injEq] at hw'
  rw [hw']

theorem Latest.start (n me : Nat) (page : Page) : Latest n me page [] none where
  none_seen _ _ hj := absurd hj List.not_mem_nil
  newest _ _ h := nomatch h
  maximal _ _ h := nomatch h

/-- A host that the scan passes over, its newest notice, if any, not being after
the latest one. -/
theorem Latest.skip (h : Latest n me page seen latest)
    (hn : latest = none → ∀ ts, ¬ page.Newest me i ts)
    (hs : ∀ j ts, latest = some (j, ts) → ∀ ts', page.Newest me i ts' →
      isAfterInterval n ts' ts = false) : Latest n me page (seen ++ [i]) latest where
  none_seen hl j hj := by
    rcases List.mem_append.mp hj with hj | hj
    · exact h.none_seen hl j hj
    · rw [List.mem_singleton.mp hj]
      exact hn hl
  newest j ts hl := ⟨List.mem_append_left _ (h.newest j ts hl).1, (h.newest j ts hl).2⟩
  maximal k ts hl j hj ts' hts' := by
    rcases List.mem_append.mp hj with hj | hj
    · exact h.maximal k ts hl j hj ts' hts'
    · rw [List.mem_singleton.mp hj] at hts'
      exact hs k ts hl ts' hts'

/-- A host that becomes the latest one: what is after its notice would have been after
the one before. -/
theorem Latest.take (h : Latest n me page seen latest) (hi : page.Newest me i ts)
    (hs : ∀ j ts', latest = some (j, ts') → isAfterInterval n ts ts' = true) :
    Latest n me page (seen ++ [i]) (some (i, ts)) where
  none_seen hl := nomatch hl
  newest j ts' hl := by
    rw [Option.some.injEq, Prod.mk.injEq] at hl
    obtain ⟨rfl, rfl⟩ := hl
    exact ⟨List.mem_append_right _ (List.mem_singleton_self _), hi⟩
  maximal k ts₁ hl j hj ts' hts' := by
    rw [Option.some.injEq, Prod.mk.injEq] at hl
    obtain ⟨rfl, rfl⟩ := hl
    rw [← Bool.not_eq_true]
    intro hafter
    rcases List.mem_append.mp hj with hj | hj
    · cases hl : latest with
      | none => exact h.none_seen hl j hj ts' hts'
      | some x =>
          obtain ⟨a, ts₀⟩ := x
          have := h.maximal a ts₀ hl j hj ts' hts'
          rw [isAfterInterval_trans hafter (hs a ts₀ hl)] at this
          cases this
    · rw [List.mem_singleton.mp hj] at hts'
      rw [hts'.unique hi] at hafter
      exact isAfterInterval_irrefl n ts hafter

theorem latestNotice_latest {hosts : List Nat} (h : Latest n me page seen latest) :
    Latest n me page (seen ++ hosts) (latestNotice n me page hosts latest) := by
  induction hosts generalizing seen latest with
  | nil =>
      rw [List.append_nil]
      exact h
  | cons i hosts ih =>
      rw [List.append_cons, latestNotice.eq_def]
      dsimp only
      split
      · next hi => exact ih (h.skip (fun _ ts hts => hts.1 hi) fun _ _ _ _ hts => absurd hi hts.1)
      · next hi =>
          split
          · next hl =>
              have hno : ∀ ts, ¬ page.Newest me i ts := by
                rintro ts ⟨-, wn, hw, -⟩
                rw [hl] at hw
                cases hw
              exact ih (h.skip (fun _ => hno) fun _ _ _ ts' hts => absurd hts (hno ts'))
          · next wn rest hl =>
              exact ih (h.take ⟨hi, wn, by rw [hl]; rfl, rfl⟩ fun _ _ h => nomatch h)
          · next wn rest j ts hl =>
              have hnew : page.Newest me i wn.timestamp := ⟨hi, wn, by rw [hl]; rfl, rfl⟩
              split
              · next hafter =>
                  refine ih (h.take hnew ?_)
                  rintro _ _ ⟨⟩
                  exact hafter
              · next hafter =>
                  refine ih (h.skip (fun h => nomatch h) ?_)
                  rintro _ _ ⟨⟩ ts' hts'
                  rw [hts'.unique hnew, ← Bool.not_eq_true]
                  exact hafter

theorem hasWriteNotice_iff :
    hasWriteNotice n me page = true ↔ ∃ i < n, ∃ ts, page.Newest me i ts := by
  rw [hasWriteNotice, List.any_eq_true]
  constructor
  · rintro ⟨i, hi, h⟩
    obtain ⟨hne, hl⟩ := of_decide_eq_true h
    obtain ⟨wn, rest, hl⟩ := List.exists_cons_of_ne_nil (List.isEmpty_eq_false_iff.mp hl)
    exact ⟨i, List.mem_range.mp hi, wn.timestamp, hne, wn, by rw [hl]; rfl, rfl⟩
  · rintro ⟨i, hi, ts, hne, wn, hw, -⟩
    refine ⟨i, List.mem_range.mpr hi, decide_eq_true ⟨hne, ?_⟩⟩
    rw [List.isEmpty_eq_false_iff]
    intro hl
    rw [hl] at hw
    cases hw

/-- Where `fetchPage` sends: the variable is assigned on every path. -/
theorem fetchPageDest_spec (n me p : Nat) (page : Page) :
    (∃ i ts, fetchPageDest n me p page = some i ∧ i < n ∧ page.Newest me i ts ∧
      ∀ j < n, ∀ ts', page.Newest me j ts' → isAfterInterval n ts' ts = false) ∨
    (fetchPageDest n me p page = some (p % n) ∧ ∀ i < n, ∀ ts, ¬ page.Newest me i ts) := by
  have hscan : Latest n me page (List.range n) (latestNotice n me page (List.range n) none) :=
    latestNotice_latest (.start n me page)
  unfold fetchPageDest
  split
  · next hhas =>
      obtain ⟨i, hi, ts, hnew⟩ := hasWriteNotice_iff.mp hhas
      revert hscan
      cases latestNotice n me page (List.range n) none with
      | none =>
          intro hscan
          exact absurd hnew (hscan.none_seen rfl i (List.mem_range.mpr hi) ts)
      | some best =>
          intro hscan
          obtain ⟨hmem, hbest⟩ := hscan.newest best.1 best.2 rfl
          exact Or.inl ⟨best.1, best.2, rfl, List.mem_range.mp hmem, hbest, fun j hj ts' hts' =>
            hscan.maximal best.1 best.2 rfl j (List.mem_range.mpr hj) ts' hts'⟩
  · next hhas =>
      exact Or.inr ⟨rfl, fun i hi ts hts => hhas (hasWriteNotice_iff.mpr ⟨i, hi, ts, hts⟩)⟩

theorem Page.newest_of_ne_nil (hi : i ≠ me) (hl : page.notices i ≠ []) :
    ∃ ts, page.Newest me i ts := by
  obtain ⟨wn, rest, hl⟩ := List.exists_cons_of_ne_nil hl
  exact ⟨wn.timestamp, hi, wn, by rw [hl]; rfl, rfl⟩

/-- A `FETCH_PAGE` goes to a host whose newest notice no other host's is after, or to
the page's home when there are no notices. -/
theorem fetchPage_asks_maximal_writer (n me p : Nat) (m : Mem) (hp : p < maxPageNum)
    (hs : (m.pageArray p).state = .miss) :
    ∃ hostid m', fetchPage n me p m = some (m', [(hostid, .fetchPage p)]) ∧
      ((∀ i < n, i ≠ me → (m.pageArray p).notices i = []) → hostid = p % n) ∧
      ((∃ i < n, i ≠ me ∧ (m.pageArray p).notices i ≠ []) →
        hostid < n ∧ hostid ≠ me ∧ ∃ wn, ((m.pageArray p).notices hostid).head? = some wn ∧
          ∀ j < n, j ≠ me → ∀ wn', ((m.pageArray p).notices j).head? = some wn' →
            isAfterInterval n wn'.timestamp wn.timestamp = false) := by
  unfold fetchPage
  dsimp only
  rw [if_neg (by omega), if_neg (not_not.mpr hs)]
  rcases fetchPageDest_spec n me p (m.pageArray p) with
    ⟨i, ts, hdest, hi, ⟨hne, wn, hw, rfl⟩, hmax⟩ | ⟨hdest, hno⟩
  · rw [hdest]
    refine ⟨i, _, rfl, fun hall => ?_, fun _ => ⟨hi, hne, wn, hw, fun j hj hjm wn' hw' =>
      hmax j hj _ ⟨hjm, wn', hw', rfl⟩⟩⟩
    rw [hall i hi hne] at hw
    cases hw
  · rw [hdest]
    refine ⟨p % n, _, rfl, fun _ => rfl, ?_⟩
    rintro ⟨i, hi, hne, hl⟩
    obtain ⟨ts, hts⟩ := Page.newest_of_ne_nil hne hl
    exact absurd hts (hno i hi ts)

end

/-- A page with notices of the two other hosts, host 2's being after host 1's. -/
def twoWriters : Mem :=
  { initmem 0 with
    pageArray := fun _ => ⟨startAddress, .miss, fun i =>
      if i = 0 then [] else [⟨fun j => if j.val = 1 then 1 else i, none⟩], none, none, 0, .none⟩ }

theorem fetchPage_asks_maximal_writer_three :
    ∃ hostid m', fetchPage 3 0 5 twoWriters = some (m', [(hostid, .fetchPage 5)]) ∧
      hostid < 3 ∧ hostid ≠ 0 := by
  obtain ⟨hostid, m', hf, -, hmax⟩ :=
    fetchPage_asks_maximal_writer 3 0 5 twoWriters (by decide) rfl
  obtain ⟨hlt, hne, -⟩ := hmax ⟨1, by decide, by decide, by decide⟩
  exact ⟨hostid, m', hf, hlt, hne⟩

end Midsm
