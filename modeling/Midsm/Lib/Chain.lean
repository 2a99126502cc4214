import Mathlib.Data.List.Nodup
import Mathlib.Data.List.Infix
import Mathlib.Logic.Function.Basic
import Mathlib.Tactic.Common

/-!
# Lists linked by pointers

A heap gives each cell a next cell or `NULL`. `Chain next head as` says that the
pointer `head` leads through exactly the cells of `as`; a pointer leads through at
most one list of cells, and through no cell twice. A family of chains that share no
cell may use one `next` together, and a cell that is on no chain yet can be put at
the front or at the end of one of them.

The loops that follow a chain take fuel; any amount above the chain's length is enough.
-/

namespace Midsm.Lib

variable {α ι : Type}

/-- The cells from a pointer on, in order. -/
def Chain (next : α → Option α) : Option α → List α → Prop
  | head, [] => head = none
  | head, a :: as => head = some a ∧ Chain next (next a) as

/-- Each cell points back to the one before it. -/
def Back (prev : α → Option α) : Option α → List α → Prop
  | _, [] => True
  | before, a :: as => prev a = before ∧ Back prev (some a) as

/-! ## One chain -/

section

variable {next next' prev prev' : α → Option α} {head : Option α} {as bs : List α} {a b p : α}

theorem chain_none : Chain next none as ↔ as = [] := by
  cases as with
  | nil => exact ⟨fun _ => rfl, fun _ => rfl⟩
  | cons a as => exact ⟨fun h => (nomatch h.1), fun h => (nomatch h)⟩

theorem Chain.head_eq (h : Chain next head as) : head = as.head? := by
  cases as with
  | nil => exact h
  | cons a as => exact h.1

theorem Chain.unique (ha : Chain next head as) (hb : Chain next head bs) : as = bs := by
  induction as generalizing head bs with
  | nil =>
      rw [show head = none from ha] at hb
      exact (chain_none.mp hb).symm
  | cons a as ih =>
      rw [ha.1] at hb
      cases bs with
      | nil => cases hb
      | cons b bs =>
          obtain ⟨hab, hb⟩ := hb
          cases hab
          rw [ih ha.2 hb]

/-- Only the links of the cells themselves count. -/
theorem Chain.congr (h : Chain next head as) (he : ∀ a ∈ as, next' a = next a) :
    Chain next' head as := by
  induction as generalizing head with
  | nil => exact h
  | cons a as ih =>
      refine ⟨h.1, ?_⟩
      rw [he a List.mem_cons_self]
      exact ih h.2 fun b hb => he b (List.mem_cons_of_mem _ hb)

/-- The chain of a cell is what is left of the chain it is on. -/
theorem Chain.suffix (h : Chain next head (as ++ bs)) :
    ∃ mid, Chain next mid bs := by
  induction as generalizing head with
  | nil => exact ⟨head, h⟩
  | cons a as ih => exact ih h.2

theorem Chain.nodup (h : Chain next head as) : as.Nodup := by
  induction as generalizing head with
  | nil => exact List.nodup_nil
  | cons a as ih =>
      refine List.nodup_cons.mpr ⟨fun hm => ?_, ih h.2⟩
      -- a second `a` would have the same cells after it, and they are fewer
      obtain ⟨front, back, rfl⟩ := List.append_of_mem hm
      obtain ⟨mid, hmid⟩ := h.2.suffix
      have hsame := hmid.2.unique h.2
      have hlen := congrArg List.length hsame
      rw [List.length_append, List.length_cons] at hlen
      omega

theorem Chain.push (h : Chain next head as) (hp : next' p = head)
    (he : ∀ a ∈ as, next' a = next a) : Chain next' (some p) (p :: as) :=
  ⟨rfl, hp ▸ h.congr he⟩

theorem Chain.append (h : Chain next head (as ++ [a])) (ha : next' a = some p)
    (hp : next' p = none) (he : ∀ b ∈ as, next' b = next b) :
    Chain next' head (as ++ [a, p]) := by
  induction as generalizing head with
  | nil => exact ⟨h.1, ha, hp⟩
  | cons b as ih =>
      refine ⟨h.1, ?_⟩
      rw [he b List.mem_cons_self]
      exact ih h.2 fun c hc => he c (List.mem_cons_of_mem _ hc)

theorem Back.congr {before : Option α} (h : Back prev before as)
    (he : ∀ a ∈ as, prev' a = prev a) : Back prev' before as := by
  induction as generalizing before with
  | nil => trivial
  | cons a as ih =>
      exact ⟨(he a List.mem_cons_self).trans h.1,
        ih h.2 fun b hb => he b (List.mem_cons_of_mem _ hb)⟩

/-- A new first cell, to which the old one points back. -/
theorem Back.push (h : Back prev none as) (hp : prev' p = none)
    (hhead : ∀ a ∈ as.head?, prev' a = some p) (he : ∀ a ∈ as.tail, prev' a = prev a) :
    Back prev' none (p :: as) := by
  refine ⟨hp, ?_⟩
  cases as with
  | nil => trivial
  | cons a as => exact ⟨hhead a rfl, h.2.congr he⟩

/-- `next` leads from a cell to its neighbour. -/
theorem Chain.next_eq_some (h : Chain next head as) (ha : a ∈ as) :
    next a = some b ↔ [a, b] <:+: as := by
  constructor
  · intro hn
    obtain ⟨front, back, rfl⟩ := List.append_of_mem ha
    obtain ⟨mid, hmid⟩ := h.suffix
    have hback := hmid.2
    rw [hn] at hback
    cases back with
    | nil => cases hback
    | cons c back =>
        obtain rfl := Option.some.inj hback.1
        exact ⟨front, back, by rw [List.append_assoc]; rfl⟩
  · rintro ⟨front, back, rfl⟩
    rw [List.append_assoc] at h
    obtain ⟨mid, hmid⟩ := h.suffix
    exact hmid.2.1

/-- A cell points back to the last one before it. -/
theorem Back.prev_eq {before : Option α} (h : Back prev before (as ++ b :: bs)) :
    prev b = as.getLast?.or before := by
  induction as generalizing before with
  | nil => exact h.1
  | cons a as ih =>
      rw [ih h.2, List.getLast?_cons]
      cases as.getLast? <;> rfl

/-- `prev` leads from a cell to its other neighbour. -/
theorem Back.prev_eq_some (h : Back prev none as) (hb : b ∈ as) :
    prev b = some a ↔ [a, b] <:+: as := by
  constructor
  · intro hp
    obtain ⟨front, back, rfl⟩ := List.append_of_mem hb
    rw [h.prev_eq, Option.or_none, List.getLast?_eq_some_iff] at hp
    obtain ⟨front, rfl⟩ := hp
    exact ⟨front, back, by simp only [List.append_assoc, List.cons_append, List.nil_append]⟩
  · rintro ⟨front, back, rfl⟩
    have hsplit : front ++ [a, b] ++ back = (front ++ [a]) ++ b :: back := by
      simp only [List.append_assoc, List.cons_append, List.nil_append]
    rw [hsplit] at h
    rw [h.prev_eq, List.getLast?_concat]
    rfl

/-- The two directions of a doubly linked list agree. -/
theorem Chain.next_iff_prev (h : Chain next head as) (hback : Back prev none as) :
    a ∈ as ∧ next a = some b ↔ b ∈ as ∧ prev b = some a := by
  constructor
  · rintro ⟨ha, hn⟩
    have hab := (h.next_eq_some ha).mp hn
    have hb : b ∈ as := hab.subset (List.mem_cons_of_mem _ List.mem_cons_self)
    exact ⟨hb, (hback.prev_eq_some hb).mpr hab⟩
  · rintro ⟨hb, hp⟩
    have hab := (hback.prev_eq_some hb).mp hp
    have ha : a ∈ as := hab.subset List.mem_cons_self
    exact ⟨ha, (h.next_eq_some ha).mpr hab⟩

/-- A pointer leads through a cell exactly once. -/
def OnceOn [DecidableEq α] (next : α → Option α) (head : Option α) (a : α) : Prop :=
  ∃ as, Chain next head as ∧ as.count a = 1

theorem Chain.onceOn [DecidableEq α] (h : Chain next head as) : OnceOn next head a ↔ a ∈ as := by
  constructor
  · rintro ⟨bs, hbs, hc⟩
    rw [h.unique hbs]
    exact List.one_le_count_iff.mp hc.ge
  · exact fun ha => ⟨as, h, List.count_eq_one_of_mem h.nodup ha⟩

end

/-! ## Loops along a chain -/

/-- The first cell that `stop` holds of; `some none` is the end of the chain. -/
def walk (next : α → Option α) (stop : α → Bool) : Nat → Option α → Option (Option α)
  | 0, _ => none
  | _ + 1, none => some none
  | fuel + 1, some a => if stop a then some (some a) else walk next stop fuel (next a)

/-- All the cells. -/
def collect (next : α → Option α) : Nat → Option α → Option (List α)
  | 0, _ => none
  | _ + 1, none => some []
  | fuel + 1, some a => (collect next fuel (next a)).map (a :: ·)

section

variable {next prev : α → Option α} {head : Option α} {as bs : List α} {a : α} {fuel : Nat}

theorem Chain.walk_eq (h : Chain next head as) (stop : α → Bool) (hf : as.length < fuel) :
    walk next stop fuel head = some (as.find? stop) := by
  induction as generalizing head fuel with
  | nil =>
      obtain ⟨fuel, rfl⟩ := Nat.exists_eq_succ_of_ne_zero (Nat.ne_zero_of_lt hf)
      rw [show head = none from h]
      rfl
  | cons a as ih =>
      obtain ⟨fuel, rfl⟩ := Nat.exists_eq_succ_of_ne_zero (Nat.ne_zero_of_lt hf)
      rw [h.1, walk, List.find?_cons]
      split
      · next hs => rw [hs]
      · next hs =>
          rw [ih h.2 (Nat.lt_of_succ_lt_succ hf)]
          rw [Bool.not_eq_true] at hs
          rw [hs]

/-- The last cell is found by its link. -/
theorem Chain.walk_last (h : Chain next head as) (hf : as.length < fuel) :
    walk next (fun a => (next a).isNone) fuel head = some as.getLast? := by
  induction as generalizing head fuel with
  | nil => exact h.walk_eq _ hf
  | cons a as ih =>
      obtain ⟨fuel, rfl⟩ := Nat.exists_eq_succ_of_ne_zero (Nat.ne_zero_of_lt hf)
      rw [h.1, walk]
      cases as with
      | nil =>
          rw [show next a = none from h.2]
          rfl
      | cons b as =>
          rw [List.getLast?_cons_cons, ← ih h.2 (Nat.lt_of_succ_lt_succ hf), h.2.1]
          rfl

theorem Chain.collect_eq (h : Chain next head as) (hf : as.length < fuel) :
    collect next fuel head = some as := by
  induction as generalizing head fuel with
  | nil =>
      obtain ⟨fuel, rfl⟩ := Nat.exists_eq_succ_of_ne_zero (Nat.ne_zero_of_lt hf)
      rw [show head = none from h]
      rfl
  | cons a as ih =>
      obtain ⟨fuel, rfl⟩ := Nat.exists_eq_succ_of_ne_zero (Nat.ne_zero_of_lt hf)
      rw [h.1, collect, ih h.2 (Nat.lt_of_succ_lt_succ hf)]
      rfl

theorem Back.chain_append {before : Option α} {rest : List α}
    (h : Back prev before (as ++ a :: bs)) (hrest : Chain prev before rest) :
    Chain prev (some a) ((as ++ [a]).reverse ++ rest) := by
  induction as generalizing before rest with
  | nil => exact ⟨rfl, h.1 ▸ hrest⟩
  | cons c as ih =>
      have hcell : Chain prev (some c) (c :: rest) := ⟨rfl, h.1 ▸ hrest⟩
      have hc := ih h.2 hcell
      rwa [List.cons_append, List.reverse_cons, List.append_assoc]

/-- From a cell of a doubly linked list `prev` leads back to the front. -/
theorem Back.chain (h : Back prev none (as ++ a :: bs)) :
    Chain prev (some a) (as ++ [a]).reverse := by
  have hend : Chain prev none [] := rfl
  have hall := h.chain_append hend
  rwa [List.append_nil] at hall

end

/-! ## A family of chains -/

/-- Each pointer of `head` leads through cells of its own. -/
structure Chains (next : α → Option α) (head : ι → Option α) (lists : ι → List α) :
    Prop where
  chain : ∀ i, Chain next (head i) (lists i)
  disjoint : ∀ i j a, a ∈ lists i → a ∈ lists j → i = j

section

variable {next next' : α → Option α} {head : ι → Option α} {lists : ι → List α} {i : ι} {p l : α}

variable [DecidableEq ι]

theorem Chains.disjoint_update (h : Chains next head lists) (hfresh : ∀ j, p ∉ lists j)
    {cells : List α} (hcells : ∀ a ∈ cells, a = p ∨ a ∈ lists i) (j k : ι) (a : α)
    (hj : a ∈ Function.update lists i cells j) (hk : a ∈ Function.update lists i cells k) :
    j = k := by
  rw [Function.update_apply] at hj hk
  split at hj <;> split at hk
  · next hi hi' => rw [hi, hi']
  · next hi _ =>
      rcases hcells a hj with rfl | hm
      · exact absurd hk (hfresh k)
      · exact hi.trans (h.disjoint i k a hm hk)
  · next _ hi =>
      rcases hcells a hk with rfl | hm
      · exact absurd hj (hfresh j)
      · exact (h.disjoint j i a hj hm).trans hi.symm
  · exact h.disjoint j k a hj hk

variable [DecidableEq α]

/-- A new cell at the front. -/
theorem Chains.push (h : Chains next head lists) (hfresh : ∀ j, p ∉ lists j) :
    Chains (Function.update next p (head i)) (Function.update head i (some p))
      (Function.update lists i (p :: lists i)) where
  chain j := by
    have he : ∀ k, ∀ a ∈ lists k, Function.update next p (head i) a = next a := by
      intro k a ha
      have hne : a ≠ p := fun hp => hfresh k (hp ▸ ha)
      exact Function.update_of_ne hne ..
    by_cases hj : j = i
    · subst hj
      rw [Function.update_self, Function.update_self]
      exact (h.chain j).push (Function.update_self ..) (he j)
    · rw [Function.update_of_ne hj, Function.update_of_ne hj]
      exact (h.chain j).congr (he j)
  disjoint := h.disjoint_update hfresh fun a ha => List.mem_cons.mp ha

/-- A new cell after the last one. -/
theorem Chains.append (h : Chains next head lists) (hfresh : ∀ j, p ∉ lists j)
    (hl : (lists i).getLast? = some l) :
    Chains (Function.update (Function.update next p none) l (some p)) head
      (Function.update lists i (lists i ++ [p])) where
  chain j := by
    obtain ⟨front, hfront⟩ := List.getLast?_eq_some_iff.mp hl
    have hlm : l ∈ lists i := List.mem_of_getLast? hl
    have hne : ∀ k, ∀ a ∈ lists k, a ≠ p := fun k a ha hp => hfresh k (hp ▸ ha)
    have hchain := h.chain j
    by_cases hj : j = i
    · subst hj
      have hnd := hchain.nodup
      rw [hfront] at hchain hnd
      rw [Function.update_self, hfront, List.append_assoc]
      refine hchain.append (Function.update_self ..) ?_ fun a ha => ?_
      · rw [Function.update_of_ne (hne j l hlm).symm, Function.update_self]
      · have hal : a ≠ l := fun he =>
          (List.nodup_append.mp hnd).2.2 a ha l List.mem_cons_self he
        rw [Function.update_of_ne hal, Function.update_of_ne (hne j a ?_)]
        rw [hfront]
        exact List.mem_append_left _ ha
    · rw [Function.update_of_ne hj]
      refine hchain.congr fun a ha => ?_
      have hal : a ≠ l := fun he => hj (h.disjoint j i a ha (he ▸ hlm))
      rw [Function.update_of_ne hal, Function.update_of_ne (hne j a ha)]
  disjoint := h.disjoint_update hfresh fun a ha => by
    rcases List.mem_append.mp ha with ha | ha
    · exact Or.inr ha
    · exact Or.inl (List.mem_singleton.mp ha)

end

end Midsm.Lib
