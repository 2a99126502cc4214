import Midsm.Proofs.MemFrame

/-!
# Allocation

`mi_alloc` hands out the pages from `pagenum` on. What a call does depends on its size and
on the number of pages in use, on nothing that differs between hosts: so hosts that make
the same calls get the same addresses and agree on the home of every page, the one host
that has it `RDONLY`. A size whose rounding overflows becomes negative, and the capacity
test, which compares pointers, refuses it.
-/

namespace Midsm

/-- The pages a block of `size` bytes takes. -/
def pagesFor (size : Int) : Nat := (size.toNat + pageSize - 1) / pageSize

/-- How many pages a call takes when `used` of them are in use. -/
def takes (used : Nat) (size : Int) : Option Nat :=
  if 0 < size ∧ used + pagesFor size ≤ maxPageNum then some (pagesFor size) else none

/-- The first `pagenum` pages are laid out one behind the other, and the others are not
mapped. -/
structure Mem.LaidOut (m : Mem) : Prop where
  counters : m.pagenum * pageSize = m.globalAddress
  bound : m.pagenum ≤ maxPageNum
  address : ∀ k < m.pagenum, (m.pageArray k).address = startAddress + k * pageSize
  mapped : ∀ k < m.pagenum, (m.pageArray k).state ≠ .unmap
  unmap : ∀ k, m.pagenum ≤ k → (m.pageArray k).state = .unmap

/-- Every page is as its allocation left it. -/
structure Mem.Untouched (n me : Nat) (m : Mem) : Prop where
  home : ∀ k < m.pagenum, (m.pageArray k).state = if k % n = me then .rdonly else .miss
  notices : ∀ k j, (m.pageArray k).notices j = []

/-- The globals of host `me` after these calls of `mi_alloc`, from `initmem`. -/
def allocs (n me : Nat) (sizes : List (BitVec 32)) : Mem :=
  sizes.foldl (fun m size => (miAlloc n me size.toInt m).2) (initmem me)

/-- What the next call returns. -/
def returned (n me : Nat) (sizes : List (BitVec 32)) (size : BitVec 32) : Option Nat :=
  (miAlloc n me size.toInt (allocs n me sizes)).1

/-- The pages in use after these calls, at any host. -/
def usedPages (sizes : List (BitVec 32)) : Nat :=
  sizes.foldl (fun used size => used + (takes used size.toInt).getD 0) 0

/-- The bytes of the pages that the next call takes at host `me`. -/
def blockSize (n me : Nat) (sizes : List (BitVec 32)) (size : BitVec 32) : Nat :=
  ((allocs n me (sizes ++ [size])).pagenum - (allocs n me sizes).pagenum) * pageSize

section

variable {n me k used : Nat} {m : Mem} {size : Int}

/-! ## One call -/

theorem allocPages_pagenum (n me k : Nat) (m : Mem) :
    (allocPages n me k m).pagenum = m.pagenum + k ∧
      (allocPages n me k m).globalAddress = m.globalAddress + k * pageSize := by
  induction k generalizing m with
  | zero => exact ⟨rfl, by rw [Nat.zero_mul]; rfl⟩
  | succ k ih =>
      obtain ⟨h₁, h₂⟩ := ih (allocPage n me m)
      rw [allocPages, h₁, h₂]
      simp only [allocPage, pageSize]
      constructor <;> omega

/-- A page below `pagenum` or behind the new ones keeps its record. -/
theorem allocPages_old {q : Nat} (hq : q < m.pagenum ∨ m.pagenum + k ≤ q) :
    (allocPages n me k m).pageArray q = m.pageArray q := by
  induction k generalizing m with
  | zero => rfl
  | succ k ih =>
      rw [allocPages, ih]
      · exact upd_ne (by omega)
      · simp only [allocPage]
        omega

theorem allocPages_new {q : Nat} (h₁ : m.pagenum ≤ q) (h₂ : q < m.pagenum + k) :
    (allocPages n me k m).pageArray q = { m.pageArray q with
      state := if q % n = me then .rdonly else .miss
      address := startAddress + (m.globalAddress + (q - m.pagenum) * pageSize)
      prot := if q % n = me then .read else (m.pageArray q).prot } := by
  induction k generalizing m with
  | zero => omega
  | succ k ih =>
      rw [allocPages]
      by_cases hq : q = m.pagenum
      · subst hq
        rw [allocPages_old (Or.inl (by simp only [allocPage]; omega))]
        simp [allocPage]
      · rw [ih (by simp only [allocPage]; omega) (by simp only [allocPage]; omega)]
        simp only [allocPage, pageSize]
        rw [upd_ne hq]
        congr 2
        omega

theorem Mem.LaidOut.allocPages (h : m.LaidOut) (hk : m.pagenum + k ≤ maxPageNum) :
    (allocPages n me k m).LaidOut := by
  obtain ⟨hnum, haddr⟩ := allocPages_pagenum n me k m
  have hcount := h.counters
  refine ⟨?_, ?_, fun q hq => ?_, fun q hq => ?_, fun q hq => ?_⟩
  · rw [hnum, haddr, ← hcount, Nat.add_mul]
  · rw [hnum]
    exact hk
  · rw [hnum] at hq
    by_cases hold : q < m.pagenum
    · rw [allocPages_old (Or.inl hold)]
      exact h.address q hold
    · rw [allocPages_new (by omega) hq]
      simp only [pageSize] at hcount ⊢
      omega
  · rw [hnum] at hq
    by_cases hold : q < m.pagenum
    · rw [allocPages_old (Or.inl hold)]
      exact h.mapped q hold
    · rw [allocPages_new (by omega) hq]
      dsimp only
      split <;> intro hs <;> cases hs
  · rw [hnum] at hq
    rw [allocPages_old (Or.inr hq)]
    exact h.unmap q (by omega)

theorem Mem.Untouched.allocPages (h : m.Untouched n me) : (allocPages n me k m).Untouched n me := by
  obtain ⟨hnum, -⟩ := allocPages_pagenum n me k m
  refine ⟨fun q hq => ?_, fun q j => ?_⟩
  · rw [hnum] at hq
    by_cases hold : q < m.pagenum
    · rw [allocPages_old (Or.inl hold)]
      exact h.home q hold
    · rw [allocPages_new (by omega) hq]
  · by_cases hq : m.pagenum ≤ q ∧ q < m.pagenum + k
    · rw [allocPages_new hq.1 hq.2]
      exact h.notices q j
    · rw [allocPages_old (by omega)]
      exact h.notices q j

/-- Only a size in the last page below `2 ^ 31` overflows. -/
theorem roundSize_eq (h₀ : 0 < size) (h₁ : size < 2 ^ 31) :
    roundSize size = pagesFor size * pageSize ∧ pagesFor size * pageSize < 2 ^ 31 ∨
      roundSize size = - 2 ^ 31 ∧ pagesFor size = 2 ^ 19 := by
  obtain ⟨s, rfl⟩ := Int.eq_ofNat_of_zero_le (Int.le_of_lt h₀)
  unfold roundSize pagesFor
  simp only [Int.toNat_natCast, pageSize]
  split
  · left
    omega
  · have hmul : ((s : Int) / (4096 : Nat) + 1) * (4096 : Nat) = ((s + 4095) / 4096 * 4096 : Nat) := by
      omega
    rw [hmul, Int.bmod_def]
    split
    · left
      omega
    · right
      omega

theorem miAlloc_refused (h : m.LaidOut) (h₁ : size < 2 ^ 31) (ht : takes m.pagenum size = none) :
    miAlloc n me size m = (none, m) := by
  unfold miAlloc
  split
  · rfl
  · next h₀ =>
      rw [Int.not_le] at h₀
      dsimp only
      rw [if_pos]
      have hover : maxPageNum < m.pagenum + pagesFor size := by
        by_contra hle
        rw [takes, if_pos ⟨h₀, by omega⟩] at ht
        cases ht
      have hcount := h.counters
      have hbound := h.bound
      rcases roundSize_eq h₀ h₁ with ⟨hr, hlt⟩ | ⟨hr, hp⟩
      · rw [hr]
        simp only [maxPageNum, maxMemSize, pageSize] at *
        omega
      · rw [hr]
        simp only [maxPageNum, maxMemSize, pageSize] at *
        omega

theorem miAlloc_granted (h : m.LaidOut) (h₁ : size < 2 ^ 31) (ht : takes m.pagenum size = some k) :
    miAlloc n me size m =
      (some (startAddress + m.pagenum * pageSize), allocPages n me k m) := by
  unfold takes at ht
  split at ht
  · next hfit =>
      obtain ⟨h₀, hfit⟩ := hfit
      obtain rfl := Option.some.inj ht
      have hcount := h.counters
      have hbound := h.bound
      simp only [maxPageNum] at hfit hbound
      rcases roundSize_eq h₀ h₁ with ⟨hr, hlt⟩ | ⟨hr, hp⟩
      · have hpages : ((roundSize size).toNat + pageSize - 1) / pageSize = pagesFor size := by
          rw [hr]
          simp only [pageSize]
          omega
        unfold miAlloc
        rw [if_neg (by omega)]
        dsimp only
        rw [if_neg, hpages, (allocPages_pagenum n me _ m).2, hr, ← hcount]
        · simp only [pageSize]
          congr 2
          omega
        · rw [hr]
          simp only [pageSize, maxMemSize] at *
          omega
      · omega
  · cases ht

/-- The two cases of a call. -/
theorem Mem.LaidOut.miAlloc (n me : Nat) (h : m.LaidOut) (h₁ : size < 2 ^ 31) :
    (miAlloc n me size m).2.LaidOut ∧
      (miAlloc n me size m).2.pagenum = m.pagenum + (takes m.pagenum size).getD 0 := by
  cases ht : takes m.pagenum size with
  | none =>
      rw [miAlloc_refused h h₁ ht]
      exact ⟨h, rfl⟩
  | some k =>
      rw [miAlloc_granted h h₁ ht]
      refine ⟨h.allocPages ?_, (allocPages_pagenum n me k m).1⟩
      unfold takes at ht
      split at ht
      · next hfit =>
          obtain rfl := Option.some.inj ht
          exact hfit.2
      · cases ht

/-! ## All calls -/

variable {sizes after : List (BitVec 32)} {size' : BitVec 32}

theorem toInt_lt_int (size : BitVec 32) : size.toInt < 2 ^ 31 := BitVec.toInt_lt

theorem initmem_laidOut (me : Nat) : (initmem me).LaidOut :=
  ⟨Nat.zero_mul _, Nat.zero_le _, fun k hk => absurd hk (Nat.not_lt_zero k),
    fun k hk => absurd hk (Nat.not_lt_zero k), fun _ _ => rfl⟩

theorem initmem_untouched (n me : Nat) : (initmem me).Untouched n me :=
  ⟨fun k hk => absurd hk (Nat.not_lt_zero k), fun _ _ => rfl⟩

theorem allocs_append_singleton (n me : Nat) (sizes : List (BitVec 32)) (size : BitVec 32) :
    allocs n me (sizes ++ [size]) = (miAlloc n me size.toInt (allocs n me sizes)).2 := by
  rw [allocs, List.foldl_append]
  rfl

theorem usedPages_append_singleton (sizes : List (BitVec 32)) (size : BitVec 32) :
    usedPages (sizes ++ [size]) =
      usedPages sizes + (takes (usedPages sizes) size.toInt).getD 0 := by
  rw [usedPages, List.foldl_append]
  rfl

theorem usedPages_le_append (sizes after : List (BitVec 32)) :
    usedPages sizes ≤ usedPages (sizes ++ after) := by
  induction after generalizing sizes with
  | nil => rw [List.append_nil]
  | cons size after ih =>
      calc usedPages sizes ≤ usedPages (sizes ++ [size]) := by
            rw [usedPages_append_singleton]
            exact Nat.le_add_right _ _
        _ ≤ usedPages (sizes ++ [size] ++ after) := ih _
        _ = usedPages (sizes ++ size :: after) := by rw [List.append_assoc, List.singleton_append]

/-- The invariant of the calls, with the count that all hosts share. -/
theorem allocs_invariant (n me : Nat) (sizes : List (BitVec 32)) :
    (allocs n me sizes).LaidOut ∧ (allocs n me sizes).Untouched n me ∧
      (allocs n me sizes).pagenum = usedPages sizes := by
  induction sizes using List.reverseRecOn with
  | nil => exact ⟨initmem_laidOut me, initmem_untouched n me, rfl⟩
  | append_singleton sizes size ih =>
      obtain ⟨hl, hu, hnum⟩ := ih
      obtain ⟨hl', hnum'⟩ := hl.miAlloc n me (toInt_lt_int size)
      rw [allocs_append_singleton, usedPages_append_singleton]
      refine ⟨hl', ?_, by rw [hnum', hnum]⟩
      cases ht : takes (allocs n me sizes).pagenum size.toInt with
      | none =>
          rw [miAlloc_refused hl (toInt_lt_int size) ht]
          exact hu
      | some k =>
          rw [miAlloc_granted hl (toInt_lt_int size) ht]
          exact hu.allocPages

theorem returned_eq (n me : Nat) (sizes : List (BitVec 32)) (size : BitVec 32) :
    returned n me sizes size = (takes (usedPages sizes) size.toInt).map fun _ =>
      startAddress + usedPages sizes * pageSize := by
  obtain ⟨hl, -, hnum⟩ := allocs_invariant n me sizes
  rw [returned]
  cases ht : takes (usedPages sizes) size.toInt with
  | none =>
      rw [miAlloc_refused hl (toInt_lt_int size) (hnum ▸ ht)]
      rfl
  | some k =>
      rw [miAlloc_granted hl (toInt_lt_int size) (hnum ▸ ht), hnum]
      rfl

theorem blockSize_eq (n me : Nat) (sizes : List (BitVec 32)) (size : BitVec 32) :
    blockSize n me sizes size = (takes (usedPages sizes) size.toInt).getD 0 * pageSize := by
  rw [blockSize, (allocs_invariant n me _).2.2, (allocs_invariant n me sizes).2.2,
    usedPages_append_singleton, Nat.add_sub_cancel_left]

theorem returned_some {a : Nat} {size : BitVec 32} (h : returned n me sizes size = some a) :
    a = startAddress + usedPages sizes * pageSize ∧
      blockSize n me sizes size = pagesFor size.toInt * pageSize ∧
      usedPages sizes + pagesFor size.toInt ≤ maxPageNum ∧
      usedPages (sizes ++ [size]) = usedPages sizes + pagesFor size.toInt := by
  rw [returned_eq] at h
  rw [blockSize_eq, usedPages_append_singleton]
  unfold takes at h ⊢
  split at h
  · next hfit =>
      rw [if_pos hfit]
      exact ⟨(Option.some.inj h).symm, rfl, hfit.2, rfl⟩
  · cases h

theorem pagesFor_ge (size : Int) : size ≤ pagesFor size * pageSize := by
  unfold pagesFor
  simp only [pageSize]
  omega

/-- An earlier block ends where a later one begins, or before. -/
theorem returned_after {a b : Nat} {size other : BitVec 32}
    (h : returned n me (sizes ++ other :: after) size = some a)
    (h' : returned n me sizes other = some b) : b + blockSize n me sizes other ≤ a := by
  obtain ⟨rfl, -, -, -⟩ := returned_some h
  obtain ⟨rfl, hblock, -, hused⟩ := returned_some h'
  have hle := usedPages_le_append (sizes ++ [other]) after
  rw [List.append_assoc, List.singleton_append, hused] at hle
  rw [hblock, Nat.add_assoc, ← Nat.add_mul]
  exact Nat.add_le_add_left (Nat.mul_le_mul_right _ hle) _

theorem Mem.Untouched.fetchPageDest (h : m.Untouched n me) (k : Nat) :
    fetchPageDest n me k (m.pageArray k) = some (k % n) := by
  have hno : hasWriteNotice n me (m.pageArray k) = false := by
    rw [hasWriteNotice, List.any_eq_false]
    intro i _
    rw [h.notices k i]
    simp
  rw [Midsm.fetchPageDest, hno]
  rfl

theorem Mem.Untouched.fetchPage (h : m.Untouched n me) (hl : m.LaidOut) (hk : k < m.pagenum)
    (hne : me ≠ k % n) : ∃ m', fetchPage n me k m = some (m', [(k % n, .fetchPage k)]) := by
  have hs := h.home k hk
  rw [if_neg hne.symm] at hs
  have hbound := hl.bound
  refine ⟨{ m with fetchPageWaitFlag := true }, ?_⟩
  rw [Midsm.fetchPage, if_neg (by omega), if_neg (fun h => h hs), h.fetchPageDest]

/-- **The hosts allocate alike.** After any calls from `initmem`, the same at all hosts:
the counters and the page table at a host, what one more call does, and the home of the
pages it makes. -/
theorem mi_alloc_agreement (n me : Nat) (sizes : List (BitVec 32)) (size : BitVec 32)
    (hme : me < n) :
    ((allocs n me sizes).pagenum * pageSize = (allocs n me sizes).globalAddress ∧
      (allocs n me sizes).globalAddress ≤ maxMemSize ∧
      (∀ k < (allocs n me sizes).pagenum,
        ((allocs n me sizes).pageArray k).address = startAddress + k * pageSize) ∧
      ∀ k, (allocs n me sizes).pagenum ≤ k →
        ((allocs n me sizes).pageArray k).state = .unmap) ∧
    (∀ other < n, returned n other sizes size = returned n me sizes size) ∧
    (returned n me sizes size = none →
      allocs n me (sizes ++ [size]) = allocs n me sizes) ∧
    (∀ a, returned n me sizes size = some a →
      a % pageSize = 0 ∧ size.toInt ≤ blockSize n me sizes size ∧ startAddress ≤ a ∧
        a + blockSize n me sizes size ≤ startAddress + maxMemSize ∧
        ∀ before other after b, sizes = before ++ other :: after →
          returned n me before other = some b → b + blockSize n me before other ≤ a) ∧
    ∀ k, (allocs n me sizes).pagenum ≤ k → k < (allocs n me (sizes ++ [size])).pagenum →
      k % n < n ∧
      ((allocs n (k % n) (sizes ++ [size])).pageArray k).state = .rdonly ∧
      ∀ other < n, other ≠ k % n →
        ((allocs n other (sizes ++ [size])).pageArray k).state = .miss ∧
        ∃ m, fetchPage n other k (allocs n other (sizes ++ [size])) =
          some (m, [(k % n, .fetchPage k)]) := by
  obtain ⟨hl, -, hnum⟩ := allocs_invariant n me sizes
  refine ⟨⟨hl.counters, ?_, hl.address, hl.unmap⟩, fun other _ => ?_, fun hnone => ?_,
    fun a ha => ?_, fun k _ hk => ?_⟩
  · have := hl.counters
    have := hl.bound
    simp only [pageSize, maxPageNum, maxMemSize] at *
    omega
  · rw [returned_eq, returned_eq]
  · rw [returned_eq, Option.map_eq_none_iff, ← hnum] at hnone
    rw [allocs_append_singleton, miAlloc_refused hl (toInt_lt_int size) hnone]
  · obtain ⟨haddr, hblock, hfit, -⟩ := returned_some ha
    have hge := pagesFor_ge size.toInt
    rw [hblock]
    simp only [pageSize, startAddress, maxMemSize, maxPageNum] at *
    refine ⟨by omega, by omega, by omega, by omega, ?_⟩
    rintro before other after b rfl hb
    exact returned_after ha hb
  · obtain ⟨-, -, hnum'⟩ := allocs_invariant n me (sizes ++ [size])
    have hlt : ∀ other, k < (allocs n other (sizes ++ [size])).pagenum := fun other => by
      rw [(allocs_invariant n other (sizes ++ [size])).2.2, ← hnum']
      exact hk
    have hpos : 0 < n := Nat.zero_lt_of_lt hme
    refine ⟨Nat.mod_lt k hpos, ?_, fun other _ hne => ?_⟩
    · rw [(allocs_invariant n (k % n) _).2.1.home k (hlt _), if_pos rfl]
    · obtain ⟨hl', hu', -⟩ := allocs_invariant n other (sizes ++ [size])
      rw [hu'.home k (hlt other), if_neg hne.symm]
      exact ⟨rfl, hu'.fetchPage hl' (hlt other) hne⟩

/-- Two hosts, a call whose size overflows and one of two pages. -/
theorem mi_alloc_agreement_two : (1 : Nat) < 2 ∧
    returned 2 1 [0x7fffffff] 4097 = some startAddress ∧
    (startAddress % pageSize = 0 ∧ ((4097 : BitVec 32)).toInt ≤ blockSize 2 1 [0x7fffffff] 4097) := by
  have hret : returned 2 1 [0x7fffffff] 4097 = some startAddress := by
    rw [returned_eq]
    decide
  obtain ⟨-, -, -, hblock, -⟩ := mi_alloc_agreement 2 1 [0x7fffffff] 4097 (by decide)
  obtain ⟨halign, hsize, -⟩ := hblock startAddress hret
  exact ⟨by decide, hret, halign, hsize⟩

end

end Midsm
