import Midsm.Proofs.Accesses
import Midsm.Proofs.Allocation

/-!
# After the allocations

The story of a page begins when all hosts have allocated it and nothing else has happened:
the page is zero everywhere and readable at its home, no host has ticked, and the lock is
free.
-/

namespace Midsm

open Midsm.Lib

/-- Nothing but calls of `mi_alloc`, with an `int` each. -/
def allocating (_ : Sys) (e : Event) : Prop :=
  ∃ x size, e = .op x (.alloc size) ∧ - 2 ^ 31 ≤ size ∧ size < 2 ^ 31

/-- The memory of a host that has only allocated. -/
structure Mem.Fresh (n me : Nat) (m : Mem) : Prop where
  laid : m.LaidOut
  untouched : m.Untouched n me
  tidy : m.Tidy me
  lists : m.procArray = (initmem me).procArray
  now : m.intervalNow = 1
  blank : ∀ k, (m.pageArray k).startInterval = none ∧ (m.pageArray k).content = 0

structure Sys.Outset (n : Nat) (s : Sys) : Prop where
  mem : ∀ x, (s.host x).mem.Fresh n x
  syn : ∀ x, (s.host x).syn = initsyn
  pc : ∀ x, (s.host x).pc = .run
  net : ∀ a b, s.net a b = []

section

variable {n me p x : Nat} {l size : Int} {m : Mem} {s : Sys}

theorem initmem_fresh (n me : Nat) : (initmem me).Fresh n me :=
  ⟨initmem_laidOut me, initmem_untouched n me, initmem_tidy me, rfl, rfl, fun _ => ⟨rfl, rfl⟩⟩

theorem Mem.Fresh.miAlloc (h : m.Fresh n me) (h₁ : size < 2 ^ 31) :
    (miAlloc n me size m).2.Fresh n me := by
  have hf := miAlloc_frame n me size m
  have hrest : (Midsm.miAlloc n me size m).2.Untouched n me ∧
      ∀ k, ((Midsm.miAlloc n me size m).2.pageArray k).startInterval = none ∧
        ((Midsm.miAlloc n me size m).2.pageArray k).content = 0 := by
    cases ht : takes m.pagenum size with
    | none =>
        rw [miAlloc_refused h.laid h₁ ht]
        exact ⟨h.untouched, h.blank⟩
    | some count =>
        rw [miAlloc_granted h.laid h₁ ht]
        refine ⟨h.untouched.allocPages, fun k => ?_⟩
        by_cases hk : m.pagenum ≤ k ∧ k < m.pagenum + count
        · rw [allocPages_new hk.1 hk.2]
          exact h.blank k
        · rw [allocPages_old (by omega)]
          exact h.blank k
  exact ⟨(h.laid.miAlloc n me h₁).1, hrest.1, miAlloc_tidy n size h.tidy, hf.procArray.trans h.lists,
    hf.intervalNow.trans h.now, hrest.2⟩

theorem outset_of_reach (h : Reach (step n) allocating initSys s) : s.Outset n := by
  refine h.invariant (P := Sys.Outset n)
    ⟨fun x => initmem_fresh n x, fun _ => rfl, fun _ => rfl, fun _ _ => rfl⟩ ?_
  rintro s s' e hs ⟨x, size, rfl, -, hsize⟩ hstep
  obtain ⟨a, op, r, he, -, hr, rfl⟩ | ⟨a, b, msg, rest, he, -⟩ := step_cases hstep
  · obtain ⟨rfl, rfl⟩ := Event.op.inj he
    unfold Host.exec at hr
    rw [hs.pc x] at hr
    obtain rfl := Option.some.inj hr
    refine ⟨?_, ?_, ?_, fun u v => ?_⟩
    · exact put_host_forall (P := fun x h => h.mem.Fresh n x) ((hs.mem x).miAlloc hsize)
        fun y _ => hs.mem y
    · exact put_host_forall (P := fun _ h => h.syn = initsyn) (hs.syn x) fun y _ => hs.syn y
    · exact put_host_forall (P := fun _ h => h.pc = .run) rfl fun y _ => hs.pc y
    · by_cases hu : u = x
      · rw [hu, put_net_self, hs.net]
        rfl
      · rw [put_net_ne hu, hs.net]
  · cases he

/-! ## The first stage -/

/-- Nothing has happened. -/
def Story.start : Story where
  time := ⟨fun _ => 0, 0, ∅, fun k hk => absurd hk (Finset.notMem_empty k)⟩
  patch _ := 0
  view _ := ⟨0, 0, fun _ => none⟩
  granted _ := false
  total := 0

theorem Mem.Fresh.shows (h : m.Fresh n me) (hp : p < m.pagenum) :
    m.Shows Story.start.time Story.start.patch p me (Story.start.view me) := by
  have hnone : ∀ k, k ∉ Story.start.time.marked := Finset.notMem_empty
  have hhas : (Story.start.view me).has Story.start.time me =
      Story.start.time.upTo (Story.start.view me).clock := rfl
  have hself : m.procArray me = [⟨fun _ => 0, [], true⟩] := by
    rw [h.lists]
    exact upd_self (fun _ => []) me _
  have hne : ∀ j ≠ me, m.procArray j = [] := fun j hj => by
    rw [h.lists]
    exact upd_ne (f := fun _ => []) hj
  refine ⟨⟨⟨?_, ?_⟩, ?_, fun j => ?_, fun j hj interval hi => ?_⟩, ?_⟩
  · rw [h.now, hself]
    rfl
  · rw [hself]
    exact List.cons_ne_nil _ _
  · rw [Mem.now, hself, h.now]
    rfl
  · by_cases hj : j = me
    · rw [hj, hself]
      rfl
    · rw [hne j hj]
      rfl
  · rw [hne j hj] at hi
    cases hi
  · refine ⟨h.tidy.page p, h.laid.mapped p hp, fun j => h.untouched.notices p j, ?_, le_rfl,
      fun k hk => (by cases hk), (h.blank p).2, fun k hk => ?_, fun k hk => ?_, fun _ => hhas⟩
    · rw [(h.blank p).1]
      rfl
    · exact absurd (Timeline.mem_upTo.mp hk).1 (hnone k)
    · exact absurd (Timeline.mem_upTo.mp hk).1 (hnone k)

theorem Sys.Outset.world (h : s.Outset n) (hn : 0 < n) (hn' : n ≤ maxHostNum)
    (hp : ∀ x < n, p < (s.host x).mem.pagenum) :
    World n p none Story.start.granted Story.start.total Story.start.time Story.start.patch
      Story.start.view fun x => (s.host x).mem := by
  have hnone : ∀ k, k ∉ Story.start.time.marked := Finset.notMem_empty
  have hhome := Nat.mod_lt p hn
  exact
    { fits := (hp 0 hn).trans_le (h.mem 0).laid.bound
      hosted := ⟨hn', fun k hk hkl => absurd (hk.trans_le hkl) (Nat.lt_irrefl 0)⟩
      shows := fun x hx => (h.mem x).shows (hp x hx)
      clock := fun _ _ => le_rfl
      last := fun hl => absurd hl (Nat.lt_irrefl 0)
      only := fun _ _ _ hl => absurd hl (Nat.lt_irrefl 0)
      own := fun k hk => absurd hk (hnone k)
      alloc := hp
      live := fun k hk => absurd hk (hnone k)
      home := fun _ => Or.inl (((h.mem _).untouched.home p (hp _ hhome)).trans (if_pos rfl))
      newest := fun k hk => absurd hk (hnone k)
      fresh := fun hk => absurd hk (hnone _)
      sealed := fun k hk => absurd hk (hnone k)
      sum := rfl
      ordered := fun _ _ _ _ _ => List.Pairwise.nil }

theorem Sys.Outset.scene (h : s.Outset n) (hn : 0 < n) (hn' : n ≤ maxHostNum)
    (hp : ∀ x < n, p < (s.host x).mem.pagenum) (l : Int) :
    Scene n l p Story.start none none none s := by
  refine ⟨h.world hn hn' hp, .free ?_ ?_, fun a b => ?_, fun _ hx => (by cases hx),
    fun x _ _ => ⟨Or.inl (h.pc x), ?_⟩⟩
  · rw [h.syn]
    rfl
  · rw [h.syn]
    rfl
  · rw [h.net]
    rfl
  · rw [h.syn]
    rfl

end

end Midsm
