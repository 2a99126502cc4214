import Midsm.Proofs.Packets
import Midsm.Proofs.Represents

/-!
# The functions of `mem.c` mean the same with pointers

One lemma for each function: on valid cells it neither reads through `NULL` nor runs on
without end, it sends the same messages as its namesake on the lists that the cells stand
for, and what it leaves stands for what the namesake returns.
-/

namespace Midsm

open Midsm.Lib

section

variable {n me j p : Nat} {g g' : Lists} {h h' : HeapMem} {m : Mem} {a wn : Ptr}

/-! ## Own intervals -/

theorem HeapMem.Valid.addNewInterval (hv : h.Valid me g) (n : Nat) :
    ∃ k, h.heap.addNewInterval n me = some k ∧
      Mirrors me g h { h with heap := k } (addNewInterval n me (h.abs me g)) := by
  obtain ⟨rest, hr⟩ := hv.linked.exists_now
  have hhead : ((h.abs me g).procArray me).headD noInterval =
      g.interval h.heap h.heap.intervalNow := by
    unfold HeapMem.abs
    dsimp only
    rw [hr]
    rfl
  unfold Heap.addNewInterval Midsm.addNewInterval
  rw [hv.linked.now, hhead]
  exact ⟨_, rfl, (hv.pushNow ..).mirrors⟩

theorem HeapMem.Valid.pushBarrier (hv : h.Valid me g) (ts : Timestamp) :
    h.heap.pushBarrier me ts = some (h.heap.pushNow me ts true) := by
  unfold Heap.pushBarrier
  rw [hv.linked.now]
  rfl

/-! ## Twins -/

theorem HeapMem.Valid.createTwinPage (hv : h.Valid me g) (p : Nat) :
    Moves me g h g { h with heap := (h.heap.createTwinPage p).2 }
      (createTwinPage p (h.abs me g)).2 := by
  unfold Heap.createTwinPage Midsm.createTwinPage
  dsimp only [HeapMem.abs, HeapMem.page]
  by_cases hp : maxPageNum ≤ p
  · rw [if_pos hp, if_pos hp]
    exact .refl hv
  rw [if_neg hp, if_neg hp]
  by_cases hs : (h.heap.pageArray p).state = .unmap ∨ (h.heap.pageArray p).state = .miss
  · rw [if_pos hs, if_pos hs]
    exact .refl hv
  rw [if_neg hs, if_neg hs]
  by_cases ht : (h.heap.pageArray p).address = 0 ∨ (h.heap.pageArray p).twinPage.isSome
  · rw [if_pos ht, if_pos ht]
    exact .refl hv
  · rw [if_neg ht, if_neg ht]
    exact hv.setPage rfl (hv.linked.write p)

theorem HeapMem.Valid.freeTwinPage (hv : h.Valid me g) (p : Nat) :
    Moves me g h g { h with heap := (h.heap.freeTwinPage p).2 }
      (freeTwinPage p (h.abs me g)).2 := by
  unfold Heap.freeTwinPage Midsm.freeTwinPage
  dsimp only [HeapMem.abs, HeapMem.page]
  by_cases hp : maxPageNum ≤ p
  · rw [if_pos hp, if_pos hp]
    exact .refl hv
  rw [if_neg hp, if_neg hp]
  by_cases hs : (h.heap.pageArray p).state = .unmap ∨ (h.heap.pageArray p).state = .miss
  · rw [if_pos hs, if_pos hs]
    exact .refl hv
  rw [if_neg hs, if_neg hs]
  by_cases ht : (h.heap.pageArray p).address = 0 ∨ (h.heap.pageArray p).twinPage = none
  · rw [if_pos ht, if_pos ht]
    exact .refl hv
  · rw [if_neg ht, if_neg ht]
    exact hv.setPage rfl (hv.linked.write p)

/-! ## Write notices -/

/-- A notice in the first own interval, where `intervalNow` points. -/
theorem createWriteNotice_first (hp : p < maxPageNum) (hs : (m.pageArray p).state = .rdonly)
    {i : Interval} {rest : List Interval} (hl : m.procArray me = i :: rest)
    (hi : m.intervalNow = (m.procArray me).length) :
    (createWriteNotice me p m).2 =
      { m.setPage p { m.pageArray p with
          notices := upd (m.pageArray p).notices me
            (⟨i.timestamp, none⟩ :: (m.pageArray p).notices me) } with
        procArray := upd m.procArray me ({ i with notices := i.notices ++ [p] } :: rest) } := by
  have hnow : m.now me = i := by
    unfold Mem.now
    dsimp only
    rw [hi, Nat.sub_self, hl]
    rfl
  have hindex : (m.procArray me).length - m.intervalNow = 0 := by omega
  unfold createWriteNotice
  rw [hnow]
  dsimp only
  rw [if_neg (Nat.not_le.mpr hp), if_neg (not_not_intro hs)]
  unfold Mem.setPage
  dsimp only
  rw [hindex, hl]
  rfl

theorem createWriteNotice_refused (h : maxPageNum ≤ p ∨ (m.pageArray p).state ≠ .rdonly) :
    createWriteNotice me p m = (-1, m) := by
  unfold createWriteNotice
  dsimp only
  rcases h with h | h
  · rw [if_pos h]
  · rw [if_pos h, ite_self]

/-- The notice is in the first own interval and first on the page's list. -/
theorem HeapMem.Valid.createWriteNotice (hv : h.Valid me g) (p : Nat) :
    ∃ ret k, h.heap.createWriteNotice me p = some (ret, k) ∧
      Mirrors me g h { h with heap := k } (createWriteNotice me p (h.abs me g)).2 ∧
      (p < maxPageNum → (h.heap.pageArray p).state = .rdonly →
        (k.pageArray p).notices me ≠ none) := by
  unfold Heap.createWriteNotice
  by_cases hp : maxPageNum ≤ p
  · rw [if_pos hp, createWriteNotice_refused (Or.inl hp)]
    exact ⟨_, _, rfl, (Moves.refl hv).mirrors, fun hlt => absurd hp (Nat.not_le.mpr hlt)⟩
  rw [if_neg hp]
  by_cases hs : (h.heap.pageArray p).state ≠ .rdonly
  · rw [if_pos hs, createWriteNotice_refused (Or.inr hs)]
    exact ⟨_, _, rfl, (Moves.refl hv).mirrors, fun _ hrd => absurd hrd hs⟩
  · obtain ⟨rest, hr⟩ := hv.linked.exists_now
    have hlist : (h.abs me g).procArray me =
        g.interval h.heap h.heap.intervalNow :: rest.map (g.interval h.heap) :=
      (congrArg (List.map (g.interval h.heap)) hr).trans (List.map_cons ..)
    rw [if_neg hs, hv.linked.lastNotice_eq, createWriteNotice_first (Nat.not_le.mp hp)
      (not_not.mp hs) hlist (List.length_map (g.interval h.heap)).symm]
    refine ⟨_, _, rfl, (hv.addNotice (hr.trans (List.nil_append _).symm) p).mirrors, fun _ _ => ?_⟩
    rw [(addNotice_globals ..).2.2.2.2, upd_self]
    dsimp only
    rw [upd_self]
    exact nofun

/-- `segv_handler` on a page in state `RDONLY`. -/
theorem HeapMem.Valid.segvRdonly (hv : h.Valid me g) (hp : p < maxPageNum)
    (hs : (h.heap.pageArray p).state = .rdonly) :
    ∃ k, h.heap.segvHandler me p = some k ∧
      ∃ m, m = (Midsm.createWriteNotice me p (Midsm.createTwinPage p (h.abs me g)).2).2 ∧
        Mirrors me g h { h with heap := k }
          (m.setPage p { m.pageArray p with state := .write, prot := .readWrite }) := by
  have htwin := hv.createTwinPage p
  obtain ⟨ret, k, he, ⟨g₁, hnote⟩, hown⟩ := htwin.valid.createWriteNotice p
  have hown := hown hp ((Heap.createTwinPage_state ..).trans hs)
  have hwrite := hnote.valid.setState p .write .readWrite fun _ => hown
  unfold Heap.segvHandler
  rw [he]
  rw [hnote.abs] at hwrite
  rw [htwin.abs] at hwrite
  exact ⟨_, rfl, _, rfl, (htwin.trans (hnote.trans hwrite)).mirrors⟩

/-! ## Incorporating notices -/

theorem HeapMem.Valid.invalidatePage (hv : h.Valid me g) (p : Nat) :
    ∃ k, h.heap.invalidatePage me p = some k ∧
      Moves me g h g { h with heap := k } (invalidatePage me p (h.abs me g)) := by
  unfold Heap.invalidatePage Midsm.invalidatePage
  have hstate : ((h.abs me g).pageArray p).state = (h.heap.pageArray p).state := rfl
  dsimp only
  rw [hstate]
  cases hs : (h.heap.pageArray p).state with
  | rdonly => exact ⟨_, rfl, hv.setPage rfl nofun⟩
  | write =>
      cases hwn : (h.heap.pageArray p).notices me with
      | none => exact absurd hwn (hv.linked.write p hs)
      | some wn =>
          dsimp only
          obtain ⟨rest, hr⟩ : ∃ rest, g.ofPage (p, me) = wn :: rest := by
            have hhead := (hv.linked.pages.chain (p, me)).head_eq
            rw [show h.heap.pageNotices (p, me) = some wn from hwn] at hhead
            cases hcells : g.ofPage (p, me) with
            | nil => rw [hcells] at hhead; cases hhead
            | cons b rest =>
                rw [hcells] at hhead
                cases hhead
                exact ⟨rest, rfl⟩
          have hinv := hv.setState p .invalid (h.heap.pageArray p).prot nofun
          have hdiff := hinv.valid.setDiff (hr.trans (List.nil_append _).symm)
            (createLocalDiff (h.heap.pageArray p).memory (h.heap.pageArray p).twinPage)
          have hfree := hdiff.valid.freeTwinPage p
          have hshut := hfree.valid.setProt p .none
          rw [hfree.abs, hdiff.abs, hinv.abs] at hshut
          have hall := hinv.trans (hdiff.trans (hfree.trans hshut))
          refine ⟨_, rfl, ?_⟩
          have hpage : ((h.abs me g).pageArray p).notices me =
              h.heap.notice wn :: rest.map h.heap.notice := by
            show (g.ofPage (p, me)).map h.heap.notice = _
            rw [hr, List.map_cons]
          rw [hpage]
          refine ⟨hall.valid, hall.abs.trans ?_, hall.later⟩
          unfold Mem.setPage
          dsimp only
          rw [upd_upd, upd_self]
          rfl
  | unmap | miss | invalid => exact ⟨_, rfl, .refl hv⟩

/-! ## Incorporating packets -/

section

variable {ts : Timestamp} {front back : List Interval} {i : Interval}

theorem noticesOf_split (hf : ∀ b ∈ front, b.timestamp ≠ ts) (hi : i.timestamp = ts) :
    noticesOf ts (front ++ i :: back) = i.notices := by
  have hfind : front.find? (fun b => decide (b.timestamp = ts)) = none :=
    List.find?_eq_none.mpr fun b hb he => hf b hb (of_decide_eq_true he)
  have hhead : (i :: back).find? (fun b => decide (b.timestamp = ts)) = some i :=
    List.find?_cons_of_pos (decide_eq_true hi)
  unfold noticesOf
  rw [List.find?_append, hfind, Option.none_or, hhead]
  rfl

theorem appendNotice_split (hf : ∀ b ∈ front, b.timestamp ≠ ts) (hi : i.timestamp = ts)
    (p : Nat) : appendNotice ts p (front ++ i :: back) =
      front ++ { i with notices := i.notices ++ [p] } :: back := by
  induction front with
  | nil => exact if_pos hi
  | cons b front ih =>
      rw [List.cons_append, appendNotice, if_neg (hf b List.mem_cons_self),
        ih fun c hc => hf c (List.mem_cons_of_mem b hc)]
      rfl

end

/-- Between two rounds of the loop over `wnArray`: `a` is the first interval of its
timestamp, and `last` is `lastwn`. -/
structure HeapMem.Entered (me j : Nat) (a : Ptr) (ts : Timestamp) (g : Lists) (last : Option Ptr)
    (h : HeapMem) : Prop where
  valid : h.Valid me g
  first : ∃ front back, g.ofHost j = front ++ a :: back ∧ (h.heap.intervals a).timestamp = ts ∧
    ∀ b ∈ front, (h.heap.intervals b).timestamp ≠ ts
  last : last = (g.ofInterval a).getLast?

/-- The first interval of a timestamp stays the first one. -/
theorem HeapMem.Entered.keep {ts : Timestamp} {last last' : Option Ptr}
    (he : h.Entered me j a ts g last) (hm : Moves me g h g' h' m)
    (hg : g'.ofHost = g.ofHost) (hl : last' = (g'.ofInterval a).getLast?) :
    h'.Entered me j a ts g' last' := by
  obtain ⟨front, back, hj, ha, hf⟩ := he.first
  have hlt : ∀ b ∈ front ++ a :: back, b < h.heap.intervalNum := fun b hb =>
    he.valid.linked.interval_lt j b (hj ▸ hb)
  refine ⟨hm.valid, ⟨front, back, (congrFun hg j).trans hj, ?_, fun b hb => ?_⟩, hl⟩
  · rw [hm.later.timestamp a (hlt a (List.mem_append_right _ List.mem_cons_self))]
    exact ha
  · rw [hm.later.timestamp b (hlt b (List.mem_append_left _ hb))]
    exact hf b hb

/-- The lists of the host of a packet, cut at its interval. -/
theorem HeapMem.Entered.split {ts : Timestamp} {last : Option Ptr}
    (he : h.Entered me j a ts g last) (p : Nat) :
    noticesOf ts ((h.abs me g).procArray j) = (g.interval h.heap a).notices ∧
      ∃ front back, g.ofHost j = front ++ a :: back ∧
        appendNotice ts p ((h.abs me g).procArray j) = front.map (g.interval h.heap) ++
          { g.interval h.heap a with notices := (g.interval h.heap a).notices ++ [p] } ::
            back.map (g.interval h.heap) := by
  obtain ⟨front, back, hj, ha, hf⟩ := he.first
  have hlist : (h.abs me g).procArray j = front.map (g.interval h.heap) ++
      g.interval h.heap a :: back.map (g.interval h.heap) := by
    show (g.ofHost j).map _ = _
    rw [hj, List.map_append, List.map_cons]
  have hmap : ∀ b ∈ front.map (g.interval h.heap), b.timestamp ≠ ts := by
    intro b hb
    obtain ⟨c, hc, rfl⟩ := List.mem_map.mp hb
    exact hf c hc
  rw [hlist]
  exact ⟨noticesOf_split hmap ha, front, back, hj, appendNotice_split hmap ha p⟩

theorem HeapMem.Entered.step {ts : Timestamp} {last : Option Ptr}
    (he : h.Entered me j a ts g last) (p : Nat) :
    ∃ last' k, Heap.incorporateNotice me j a (last, h.heap) p = some (last', k) ∧
      ∃ g', Moves me g h g' { h with heap := k } (incorporateNotice me j ts (h.abs me g) p) ∧
        HeapMem.Entered me j a ts g' last' { h with heap := k } := by
  have hv := he.valid
  rw [incorporateNotice_eq, (he.split p).1]
  unfold Heap.incorporateNotice
  dsimp only
  rw [hv.linked.findNotice_eq]
  cases hfind : (g.ofInterval a).find? fun wn =>
      decide ((h.heap.writenotices wn).pageIndex = p) with
  | some wn =>
      have hp : decide ((h.heap.writenotices wn).pageIndex = p) = true :=
        List.find?_some (p := fun wn => decide ((h.heap.writenotices wn).pageIndex = p)) hfind
      have hin : p ∈ (g.interval h.heap a).notices :=
        List.mem_map.mpr ⟨wn, List.mem_of_find?_eq_some hfind, of_decide_eq_true hp⟩
      rw [if_pos hin]
      exact ⟨_, _, rfl, g, .refl hv, he⟩
  | none =>
      have hout : p ∉ (g.interval h.heap a).notices := by
        intro hin
        obtain ⟨wn, hwn, hp⟩ := List.mem_map.mp hin
        exact List.find?_eq_none.mp hfind wn hwn (decide_eq_true hp)
      obtain ⟨k, hk, hinv⟩ := hv.invalidatePage p
      have he' := he.keep hinv rfl he.last
      obtain ⟨-, front, back, hj, happend⟩ := he'.split p
      obtain ⟨-, -, -, ha, -⟩ := he'.first
      have hnew := hinv.valid.addNotice hj p
      rw [if_neg hout, hk]
      dsimp only
      rw [he.last]
      have hmoves := hinv.trans hnew
      refine ⟨_, _, rfl, _, ⟨hmoves.valid, hmoves.abs.trans ?_, hmoves.later⟩,
        he.keep hmoves rfl ?_⟩
      · rw [← happend, hinv.abs, ha]
        rfl
      · unfold Lists.addNotice
        dsimp only
        rw [Function.update_self, List.getLast?_concat]

theorem HeapMem.Entered.foldlM {ts : Timestamp} (pages : List Nat) {last : Option Ptr}
    (he : h.Entered me j a ts g last) :
    ∃ last' k, pages.foldlM (Heap.incorporateNotice me j a) (last, h.heap) = some (last', k) ∧
      Mirrors me g h { h with heap := k }
        (pages.foldl (incorporateNotice me j ts) (h.abs me g)) := by
  induction pages generalizing h g last with
  | nil => exact ⟨_, _, rfl, (Moves.refl he.valid).mirrors⟩
  | cons p pages ih =>
      obtain ⟨last₁, k₁, h₁, g₁, hm, he₁⟩ := he.step p
      obtain ⟨last₂, k₂, h₂, hm₂⟩ := ih he₁
      rw [List.foldlM_cons, h₁]
      rw [hm.abs] at hm₂
      exact ⟨last₂, k₂, h₂, hm.then hm₂⟩

/-- The interval of a packet. An own one is always known. -/
theorem HeapMem.Valid.enterInterval (hv : h.Valid me g) {ts : Timestamp}
    (hj : j = me → ∃ i ∈ (h.abs me g).procArray me, i.timestamp = ts) :
    ∃ a last k, h.heap.enterInterval j ts = some (a, last, k) ∧
      ∃ g', Moves me g h g' { h with heap := k } (enterInterval j ts (h.abs me g)) ∧
        HeapMem.Entered me j a ts g' last { h with heap := k } := by
  unfold Heap.enterInterval Midsm.enterInterval
  rw [hv.linked.findInterval_eq]
  dsimp only
  cases hfind : (g.ofHost j).find? fun a =>
      decide ((h.heap.intervals a).timestamp = ts) with
  | some a =>
      obtain ⟨ha, front, back, hcat, hf⟩ := List.find?_eq_some_iff_append.mp hfind
      have hany : ((h.abs me g).procArray j).any (fun i => decide (i.timestamp = ts)) = true := by
        refine List.any_eq_true.mpr ⟨g.interval h.heap a, List.mem_map_of_mem ?_, ha⟩
        exact List.mem_of_find?_eq_some hfind
      rw [if_pos hany]
      dsimp only
      rw [hv.linked.lastNotice_eq]
      refine ⟨_, _, _, rfl, g, .refl hv, hv, ⟨front, back, hcat, of_decide_eq_true ha, ?_⟩, rfl⟩
      intro b hb hts
      have := hf b hb
      rw [decide_eq_true hts] at this
      cases this
  | none =>
      have hnone : ∀ b ∈ g.ofHost j, (h.heap.intervals b).timestamp ≠ ts := fun b hb hts =>
        List.find?_eq_none.mp hfind b hb (decide_eq_true hts)
      have hne : j ≠ me := by
        rintro rfl
        obtain ⟨i, hi, hts⟩ := hj rfl
        obtain ⟨b, hb, rfl⟩ := List.mem_map.mp hi
        exact hnone b hb hts
      have hany : ¬ ((h.abs me g).procArray j).any (fun i => decide (i.timestamp = ts)) = true := by
        intro hany
        obtain ⟨i, hi, hts⟩ := List.any_eq_true.mp hany
        obtain ⟨b, hb, rfl⟩ := List.mem_map.mp hi
        exact hnone b hb (of_decide_eq_true hts)
      rw [if_neg hany]
      have hpush := hv.pushInterval hne ts
      refine ⟨_, _, _, rfl, _, hpush, hpush.valid, ⟨[], g.ofHost j, ?_, ?_, nofun⟩, ?_⟩
      · exact Function.update_self ..
      · have htime := pushInterval_proj IntervalCell.timestamp (fun _ _ => rfl) j ts false h.heap
        exact (congrFun htime _).trans (Function.update_self ..)
      · show none = (g.ofInterval h.heap.intervalNum).getLast?
        rw [hv.linked.ofInterval_eq_nil hv.linked.fresh_interval]
        rfl

/-- What packets may say of the receiver's own intervals: that they exist. -/
def Mem.KnowsOwn (me : Nat) (packets : List WnPacket) (m : Mem) : Prop :=
  ∀ packet ∈ packets, packet.hostid = me → ∃ i ∈ m.procArray me, i.timestamp = packet.timestamp

theorem HeapMem.Valid.incorporateWnPacket (hv : h.Valid me g) (packet : WnPacket)
    (hj : packet.hostid = me →
      ∃ i ∈ (h.abs me g).procArray me, i.timestamp = packet.timestamp) :
    ∃ k, h.heap.incorporateWnPacket me packet = some k ∧
      Mirrors me g h { h with heap := k } (incorporateWnPacket me (h.abs me g) packet) := by
  obtain ⟨a, last, k, hk, g₁, hm, he⟩ := hv.enterInterval hj
  obtain ⟨last', k', hk', hm'⟩ := he.foldlM packet.wnArray
  rw [hm.abs] at hm'
  unfold Heap.incorporateWnPacket
  rw [hk]
  dsimp only
  rw [hk']
  exact ⟨k', rfl, hm.then hm'⟩

theorem Mem.KnowsOwn.learned {packets list : List WnPacket} {m' : Mem}
    (hk : m.KnowsOwn me packets) (hl : m.Learned list m') : m'.KnowsOwn me packets :=
  fun packet hm hid => hl.known_mono (hk packet hm hid)

theorem HeapMem.Valid.incorporatePackets (hv : h.Valid me g) (packetNum : Nat)
    (packets : List WnPacket) (hk : (h.abs me g).KnowsOwn me (packets.take packetNum)) :
    ∃ k, h.heap.incorporatePackets me packetNum packets = some k ∧
      Mirrors me g h { h with heap := k }
        (incorporatePackets me packetNum packets (h.abs me g)) := by
  unfold Heap.incorporatePackets Midsm.incorporatePackets
  generalize packets.take packetNum = list at hk
  induction list generalizing h g with
  | nil => exact ⟨_, rfl, (Moves.refl hv).mirrors⟩
  | cons packet list ih =>
      obtain ⟨k, he, g₁, hm⟩ := hv.incorporateWnPacket packet (hk packet List.mem_cons_self)
      have hk' : (Midsm.incorporateWnPacket me (h.abs me g) packet).KnowsOwn me list :=
        Mem.KnowsOwn.learned (fun x hx => hk x (List.mem_cons_of_mem _ hx))
          (incorporateWnPacket_learned me (h.abs me g) packet)
      rw [← hm.abs] at hk'
      obtain ⟨k', he', hm'⟩ := ih hm.valid hk'
      rw [List.foldlM_cons, he]
      rw [hm.abs] at hm'
      exact ⟨k', he', hm.then hm'⟩

/-! ## Flags and other globals -/

theorem HeapMem.Valid.wniFlag (hv : h.Valid me g) (flag : Bool) :
    Moves me g h g { h with heap := { h.heap with fetchWNIWaitFlag := flag } }
      { h.abs me g with fetchWNIWaitFlag := flag } :=
  ⟨⟨hv.linked.globals flag h.heap.barrierTimestamps, hv.start⟩, rfl, .of_eq g rfl rfl⟩

theorem HeapMem.Valid.timestamps (hv : h.Valid me g) (ts : Nat → Timestamp) :
    Moves me g h g { h with heap := { h.heap with barrierTimestamps := ts } }
      { h.abs me g with barrierTimestamps := ts } :=
  ⟨⟨hv.linked.globals h.heap.fetchWNIWaitFlag ts, hv.start⟩, rfl, .of_eq g rfl rfl⟩

theorem HeapMem.Valid.pageFlag (hv : h.Valid me g) (flag : Bool) :
    Moves me g h g { h with fetchPageWaitFlag := flag }
      { h.abs me g with fetchPageWaitFlag := flag } :=
  ⟨⟨hv.linked, hv.start⟩, rfl, .refl g h.heap⟩

theorem HeapMem.Valid.diffFlag (hv : h.Valid me g) (flag : Bool) :
    Moves me g h g { h with fetchDiffWaitFlag := flag }
      { h.abs me g with fetchDiffWaitFlag := flag } :=
  ⟨⟨hv.linked, hv.start⟩, rfl, .refl g h.heap⟩

/-! ## The messages with packets -/

/-- A new own interval, and packets after it. -/
theorem HeapMem.Valid.pushPackets (hv : h.Valid me g) (ts : Timestamp) (isBarrier : Bool)
    (packetNum : Nat) (packets : List WnPacket)
    (hk : (h.abs me g).KnowsOwn me (packets.take packetNum)) :
    ∃ k, (h.heap.pushNow me ts isBarrier).incorporatePackets me packetNum packets = some k ∧
      Mirrors me g h { h with heap := k } (Midsm.incorporatePackets me packetNum packets
        ((h.abs me g).pushNow me ⟨ts, [], isBarrier⟩)) := by
  have hpush := hv.pushNow ts isBarrier
  have hk' : ((h.abs me g).pushNow me ⟨ts, [], isBarrier⟩).KnowsOwn me
      (packets.take packetNum) := fun packet hm hid =>
    pushNow_known.mpr (Or.inl (hk packet hm hid))
  rw [← hpush.abs] at hk' ⊢
  obtain ⟨k, he, hm⟩ := hpush.valid.incorporatePackets packetNum packets hk'
  exact ⟨k, he, hpush.then hm⟩

theorem HeapMem.Valid.handleGrantWNIMsg (hv : h.Valid me g) (ts : Timestamp)
    (packetNum : Nat) (packets : List WnPacket)
    (hk : (h.abs me g).KnowsOwn me (packets.take packetNum)) :
    ∃ k, h.heap.handleGrantWNIMsg me ts packetNum packets = some k ∧
      Mirrors me g h { h with heap := k }
        (handleGrantWNIMsg me ts packetNum packets (h.abs me g)) := by
  obtain ⟨k, he, g₁, hm⟩ := hv.pushPackets (bump me ts) false packetNum packets hk
  have hflag := hm.valid.wniFlag false
  rw [hm.abs] at hflag
  unfold Heap.handleGrantWNIMsg
  rw [he]
  exact ⟨_, rfl, (hm.trans hflag).mirrors⟩

theorem HeapMem.Valid.handleGrantEnterBarrierMsg (hv : h.Valid me g) (sender : Nat)
    (ts : Timestamp) (packetNum : Nat) (packets : List WnPacket)
    (hk : (h.abs me g).KnowsOwn me (packets.take packetNum)) :
    ∃ k, h.heap.handleGrantEnterBarrierMsg me sender ts packetNum packets = some k ∧
      Mirrors me g h { h with heap := k }
        (handleGrantEnterBarrierMsg me sender ts packetNum packets (h.abs me g)) := by
  unfold Heap.handleGrantEnterBarrierMsg Midsm.handleGrantEnterBarrierMsg
  by_cases hts : ts 0 ≠ -1 ∧ h.heap.barrierTimestamps sender 0 = -1
  · have hset := hv.timestamps (upd h.heap.barrierTimestamps sender ts)
    obtain ⟨k, he, hm⟩ := hset.valid.incorporatePackets packetNum packets hk
    have hts' : ts 0 ≠ -1 ∧ (h.abs me g).barrierTimestamps sender 0 = -1 := hts
    rw [hset.abs] at hm
    dsimp only
    rw [if_pos hts, if_pos hts']
    exact ⟨k, he, hset.then hm⟩
  · have hts' : ¬ (ts 0 ≠ -1 ∧ (h.abs me g).barrierTimestamps sender 0 = -1) := hts
    dsimp only
    rw [if_neg hts, if_neg hts']
    exact hv.incorporatePackets packetNum packets hk

theorem HeapMem.Valid.handleGrantExitBarrierMsg (hv : h.Valid me g) (ts : Timestamp)
    (packetNum : Nat) (packets : List WnPacket)
    (hk : (h.abs me g).KnowsOwn me (packets.take packetNum)) :
    ∃ k, h.heap.handleGrantExitBarrierMsg me ts packetNum packets = some k ∧
      Mirrors me g h { h with heap := k }
        (handleGrantExitBarrierMsg me ts packetNum packets (h.abs me g)) := by
  unfold Heap.handleGrantExitBarrierMsg Midsm.handleGrantExitBarrierMsg
  by_cases hts : ts 0 ≠ -1
  · rw [if_pos hts, hv.pushBarrier ts]
    dsimp only
    rw [if_pos hts]
    exact hv.pushPackets ts true packetNum packets hk
  · rw [if_neg hts]
    dsimp only
    rw [if_neg hts]
    exact hv.incorporatePackets packetNum packets hk

/-! ## Passing notices on -/

/-- What a sender reads off the cells of each host. -/
theorem HeapMem.Valid.mapM_readIntervals (hv : h.Valid me g) (hosts : List Nat) :
    hosts.mapM h.heap.readIntervals =
      some (hosts.map fun j => ((h.abs me g).procArray j).reverse) := by
  have hread : h.heap.readIntervals = fun j => some ((h.abs me g).procArray j).reverse :=
    funext fun j => (hv.linked.readIntervals_eq j).trans (congrArg some List.map_reverse)
  rw [hread]
  exact List.mapM_pure

theorem flatMap_zip_map {α β γ : Type} (f : α → β) (k : α × β → List γ) (as : List α) :
    (as.zip (as.map f)).flatMap k = as.flatMap fun a => k (a, f a) := by
  induction as with
  | nil => rfl
  | cons a as ih => rw [List.map_cons, List.zip_cons_cons, List.flatMap_cons, ih]; rfl

/-- The packets of all hosts after a timestamp. -/
theorem flatMap_packetsOf (n : Nat) (ts : Timestamp) (m : Mem) (hosts : List Nat) :
    ((hosts.zip (hosts.map fun j => (m.procArray j).reverse)).flatMap fun (j, intervals) =>
      packetsOf n ts j intervals) = hosts.flatMap fun j => packetsAfter n ts j m :=
  flatMap_zip_map (fun j => (m.procArray j).reverse) (fun x => packetsOf n ts x.1 x.2) hosts

theorem HeapMem.Valid.grantWNI (hv : h.Valid me g) (n hostid : Nat) (ts : Timestamp) :
    h.heap.grantWNI n me hostid ts = some (grantWNI n me hostid ts (h.abs me g)) := by
  unfold Heap.grantWNI Midsm.grantWNI
  rw [hv.mapM_readIntervals, Option.map_some, hv.now_eq]
  dsimp only
  rw [flatMap_packetsOf]
  by_cases hn : n ≤ hostid
  · rw [if_pos hn, if_pos hn]
  by_cases hme : hostid = me
  · rw [if_neg hn, if_neg hn, if_pos hme, if_pos hme]
  · rw [if_neg hn, if_neg hn, if_neg hme, if_neg hme]
    rfl

theorem HeapMem.Valid.returnAllBarrierInfo (hv : h.Valid 0 g) (n : Nat) :
    ∃ k, h.heap.returnAllBarrierInfo n =
        some (k, (Midsm.returnAllBarrierInfo n (h.abs 0 g)).2) ∧
      Mirrors 0 g h { h with heap := k } (Midsm.returnAllBarrierInfo n (h.abs 0 g)).1 := by
  have hpush := hv.pushNow (barrierTimestamp n (h.abs 0 g)) true
  have hclear := hpush.valid.timestamps fun i j =>
    if i < n ∧ j.val < n then -1 else h.heap.barrierTimestamps i j
  have hlists := hpush.valid.mapM_readIntervals (List.range n)
  rw [hpush.abs] at hclear hlists
  have hts : (fun i : Fin maxHostNum =>
      if i.val < n then h.heap.barrierTimestamps i.val i + 1 else 0) =
    barrierTimestamp n (h.abs 0 g) := rfl
  unfold Heap.returnAllBarrierInfo Midsm.returnAllBarrierInfo
  dsimp only at hlists ⊢
  rw [hts, hv.pushBarrier]
  dsimp only
  rw [hlists]
  refine ⟨_, ?_, (hpush.trans hclear).mirrors⟩
  simp only [flatMap_packetsOf]
  rfl

/-- The search ends at the first own interval that a barrier made. -/
theorem Linked.sinceBarrier_first {k : Heap} (hl : Linked me g k) :
    ∃ a front back, k.sinceBarrier me = some a ∧ (k.intervals a).isBarrier = true ∧
      g.ofHost me = front ++ a :: back ∧ ∀ b ∈ front, (k.intervals b).isBarrier = false := by
  obtain ⟨b, hb, hbarrier⟩ := hl.barrier
  have hsome : ((g.ofHost me).find? fun a => (k.intervals a).isBarrier).isSome :=
    List.find?_isSome.mpr ⟨b, hb, hbarrier⟩
  obtain ⟨a, ha⟩ := Option.isSome_iff_exists.mp hsome
  obtain ⟨hab, front, back, hcat, hf⟩ := List.find?_eq_some_iff_append.mp ha
  refine ⟨a, front, back, ?_, hab, hcat, fun b hb => Bool.not_eq_true' _ ▸ hf b hb⟩
  unfold Heap.sinceBarrier
  rw [(hl.intervals.chain me).walk_eq _ (hl.length_ofHost me), ha]
  rfl

theorem sinceBarrier_split {front back : List Interval} {i : Interval}
    (hf : ∀ b ∈ front, b.isBarrier = false) (hi : i.isBarrier = true) :
    sinceBarrier (front ++ i :: back) = front ++ [i] := by
  induction front with
  | nil => exact if_pos hi
  | cons b front ih =>
      have hb : ¬ b.isBarrier = true := by
        rw [hf b List.mem_cons_self]
        exact Bool.false_ne_true
      rw [List.cons_append, sinceBarrier, if_neg hb,
        ih fun c hc => hf c (List.mem_cons_of_mem b hc)]
      rfl

theorem HeapMem.Valid.sendEnterBarrierInfo (hv : h.Valid me g) (n : Nat) :
    h.heap.sendEnterBarrierInfo n me = some (sendEnterBarrierInfo n me (h.abs me g)) := by
  unfold Heap.sendEnterBarrierInfo Midsm.sendEnterBarrierInfo
  by_cases hme : me = 0
  · rw [if_pos hme, if_pos hme]
  obtain ⟨a, front, back, hs, hbarrier, hcat, hf⟩ := hv.linked.sinceBarrier_first
  have hlist : (h.abs me g).procArray me = front.map (g.interval h.heap) ++
      g.interval h.heap a :: back.map (g.interval h.heap) := by
    show (g.ofHost me).map _ = _
    rw [hcat, List.map_append, List.map_cons]
  have hfront : ∀ b ∈ front.map (g.interval h.heap), b.isBarrier = false := by
    intro b hb
    obtain ⟨c, hc, rfl⟩ := List.mem_map.mp hb
    exact hf c hc
  rw [if_neg hme, if_neg hme, hs, hlist, sinceBarrier_split hfront hbarrier, hv.now_eq]
  dsimp only
  rw [hv.linked.backFrom_eq hcat, Option.bind_some, hv.linked.mapM_readInterval,
    List.map_reverse, List.map_append]
  rfl

end

end Midsm
