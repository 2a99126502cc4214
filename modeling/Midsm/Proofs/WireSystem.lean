import Midsm.Proofs.WireData

/-!
# The system on bytes

The system whose channels hold datagrams does what the system of messages does, as long as
the numbers that nothing bounds stay in bounds. A datagram carries a message whatever the
sender left in `buffer` and whatever number `sendMsg` gave it, so the relation between
the two systems lets both be anything.
-/

namespace Midsm

open Midsm.Lib

/-- What a datagram from `a` to `b` says. -/
def Carries (a b : Nat) (datagram : List Byte) (msg : Msg) : Prop :=
  ∃ u : Unread, IsInt u.seqno ∧ datagram = (msg.build u a b).datagram

structure ByteSys.Same (t : ByteSys) (s : Sys) : Prop where
  host : t.host = s.host
  net : ∀ a b, List.Forall₂ (Carries a b) (t.net a b) (s.net a b)

def Sys.InBounds (s : Sys) : Prop := ∀ a b, ∀ msg ∈ s.net a b, msg.InBounds

section

variable {n a b : Nat} {s : Sys} {t : ByteSys} {u : Nat → Unread}

/-- A handler does with the bytes what it does with the message. -/
theorem dispatchBytes_carries {datagram : List Byte} {msg : Msg} (ha : IsInt a) (hb : IsInt b)
    (hc : Carries a b datagram msg) (hf : msg.Fits) (h : Host) :
    dispatchBytes n b (receiveDatagram datagram) h = dispatchMsg n b a msg h := by
  obtain ⟨u, hu, rfl⟩ := hc
  have hread : (receiveDatagram (msg.build u a b).datagram).read = some msg := by
    rw [build_received u ha hb hu hf]
    exact build_read u a b hf
  have hfrom : (receiveDatagram (msg.build u a b).datagram).fromHost = a := by
    rw [build_received u ha hb hu hf]
    exact (build_from u a b msg).fromHost
  unfold dispatchBytes
  rw [hread, hfrom]
  rfl

theorem byteOut_carries (hu : ∀ k, IsInt (u k).seqno) (a b : Nat) (out : Out) :
    List.Forall₂ (Carries a b) (byteOut u a out b) (outTo out b) := by
  unfold byteOut outTo
  generalize 0 = k
  induction out generalizing k with
  | nil => exact .nil
  | cons x out ih =>
      rw [List.zipIdx_cons]
      by_cases hx : x.1 = b
      · rw [List.filter_cons_of_pos (by simpa using hx), List.filter_cons_of_pos (by simpa using hx),
          List.map_cons, List.map_cons]
        exact .cons ⟨u k, hu k, rfl⟩ (ih (k + 1))
      · rw [List.filter_cons_of_neg (by simpa using hx), List.filter_cons_of_neg (by simpa using hx)]
        exact ih (k + 1)

theorem ByteSys.Same.put (h : t.Same s) (hu : ∀ k, IsInt (u k).seqno) (a : Nat)
    (r : Host × Out) : (t.put u a r).Same (s.put a r) where
  host := by
    show upd t.host a r.1 = upd s.host a r.1
    rw [h.host]
  net x b := by
    by_cases hx : x = a
    · subst hx
      rw [put_net_self]
      show List.Forall₂ _ (upd t.net x _ x b) _
      rw [upd_self]
      exact List.rel_append (h.net x b) (byteOut_carries hu x b r.2)
    · rw [put_net_ne hx]
      show List.Forall₂ _ (upd t.net a _ x b) _
      rw [upd_ne hx]
      exact h.net x b

theorem ByteSys.Same.pop (h : t.Same s) (a b : Nat) : (t.pop a b).Same (s.pop a b) where
  host := h.host
  net x y := by
    have htail : List.Forall₂ (Carries a b) (t.net a b).tail (s.net a b).tail := by
      have hab := h.net a b
      generalize t.net a b = bytes at hab ⊢
      generalize s.net a b = msgs at hab ⊢
      cases hab with
      | nil => exact .nil
      | cons _ hrest => exact hrest
    show List.Forall₂ _ (upd t.net a (upd (t.net a) b _) x y)
      (upd s.net a (upd (s.net a) b _) x y)
    by_cases hx : x = a
    · subst hx
      rw [upd_self, upd_self]
      by_cases hy : y = b
      · subst hy
        rw [upd_self, upd_self]
        exact htail
      · rw [upd_ne hy, upd_ne hy]
        exact h.net x y
    · rw [upd_ne hx, upd_ne hx]
      exact h.net x y

theorem host_isInt (hn : n ≤ maxHostNum) (ha : a < n) : IsInt a := by
  simp only [IsInt, maxHostNum] at hn ⊢
  omega

/-- One step of both systems. -/
theorem ByteSys.Same.step (h : t.Same s) (hn : n ≤ maxHostNum) (hs : Sound n s)
    (hi : AllMade n s) (hb : s.InBounds) (hu : ∀ k, IsInt (u k).seqno) (e : Event) :
    Option.Rel ByteSys.Same (byteStep n t (e, u)) (Midsm.step n s e) := by
  cases e with
  | op x op =>
      show Option.Rel _ (if x < n ∧ (t.host x).hung = false then _ else none)
        (if x < n ∧ (s.host x).hung = false then _ else none)
      rw [h.host]
      by_cases hx : x < n ∧ (s.host x).hung = false
      · rw [if_pos hx, if_pos hx]
        cases (s.host x).exec n x op with
        | none => exact .none
        | some r => exact .some (h.put hu x r)
      · rw [if_neg hx, if_neg hx]
        exact .none
  | deliver a b =>
      unfold byteStep Midsm.step
      dsimp only
      rw [h.host]
      by_cases hab : a < n ∧ b < n ∧ a ≠ b ∧ (s.host b).hung = false
      · rw [if_pos hab, if_pos hab]
        have hnet := h.net a b
        have hin : ∀ msg ∈ s.net a b, msg.Fits := fun msg hm =>
          hi.fits hs hn hm (hb a b msg hm)
        generalize t.net a b = bytes at hnet ⊢
        generalize s.net a b = msgs at hnet hin ⊢
        cases hnet with
        | nil => exact .none
        | @cons datagram msg bytes msgs hc hrest =>
            dsimp only
            rw [dispatchBytes_carries (host_isInt hn hab.1) (host_isInt hn hab.2.1) hc
              (hin msg List.mem_cons_self)]
            exact .some ((h.pop a b).put hu b _)
      · rw [if_neg hab, if_neg hab]
        exact .none

/-- A run of both systems from states that carry the same. -/
theorem ByteSys.Same.run (hn : n ≤ maxHostNum) (es : List (Event × (Nat → Unread)))
    (hu : ∀ e ∈ es, ∀ k, IsInt (e.2 k).seqno) (h : t.Same s) (hs : Sound n s)
    (hi : AllMade n s)
    (hb : ∀ es', es' <+: es.map Prod.fst → ∀ s', runFrom (Midsm.step n) (fun _ _ => true) s es' =
      some s' → s'.InBounds) :
    Option.Rel ByteSys.Same (runFrom (byteStep n) (fun _ _ => true) t es)
      (runFrom (Midsm.step n) (fun _ _ => true) s (es.map Prod.fst)) := by
  induction es generalizing t s with
  | nil => exact .some h
  | cons e es ih =>
      have hstep := h.step hn hs hi (hb [] List.nil_prefix s rfl) (hu e List.mem_cons_self) e.1
      rw [List.map_cons, runFrom, runFrom, if_pos rfl, if_pos rfl]
      rw [show byteStep n t e = byteStep n t (e.1, e.2) from rfl]
      cases hnext : Midsm.step n s e.1 with
      | none =>
          rw [hnext] at hstep
          generalize byteStep n t (e.1, e.2) = next at hstep ⊢
          cases hstep with
          | none => exact .none
      | some s' =>
          rw [hnext] at hstep
          generalize byteStep n t (e.1, e.2) = next at hstep ⊢
          cases hstep with
          | some hsame =>
              refine ih (fun e' he => hu e' (List.mem_cons_of_mem _ he)) hsame (hs.step hnext)
                (hi.step hs hnext) fun es' hes s'' hrun => ?_
              refine hb (e.1 :: es') ?_ s'' ?_
              · rw [List.map_cons]
                exact (List.prefix_cons_inj _).mpr hes
              · rw [runFrom, if_pos rfl, hnext]
                exact hrun

theorem same_init : initByteSys.Same initSys := ⟨rfl, fun _ _ => .nil⟩

/-- **The system on datagrams is the system on messages**, for any run in which no timestamp
outgrows an `int` and no `GRANT_WN_I` outgrows its message. -/
theorem bytes_refine_messages (hn : n ≤ maxHostNum) {es : List (Event × (Nat → Unread))}
    (hu : ∀ e ∈ es, ∀ k, IsInt (e.2 k).seqno)
    (hb : ∀ es', es' <+: es.map Prod.fst → ∀ s, runFrom (Midsm.step n) (fun _ _ => true) initSys
      es' = some s → s.InBounds) :
    Option.Rel ByteSys.Same (runFrom (byteStep n) (fun _ _ => true) initByteSys es)
      (runFrom (Midsm.step n) (fun _ _ => true) initSys (es.map Prod.fst)) :=
  same_init.run hn es hu (Sound.init n) (AllMade.init n) hb

/-- A message about a lock is always in bounds. -/
theorem Sys.InBounds.put (h : s.InBounds) {r : Host × Out} (hr : ∀ x ∈ r.2, x.2.cls = .lock) :
    (s.put a r).InBounds := by
  intro x y msg hm
  rcases mem_put_net hm with hm | ⟨-, ho⟩
  · exact h x y msg hm
  · have hcls := hr _ ho
    cases msg <;> first | exact trivial | cases hcls

/-- Host 0 asks host 1 for its lock, and the datagram with the answer is on its way. -/
theorem bytes_refine_messages_two : ∃ t,
    runFrom (byteStep 2) (fun _ _ => true) initByteSys
      [(.op 0 (.lock 1), fun _ => ⟨fun _ => 7, 0⟩),
        (.deliver 0 1, fun _ => ⟨fun _ => 0, 5⟩)] = some t ∧
      List.Forall₂ (Carries 1 0) (t.net 1 0) [.grantLock 1 (-1)] := by
  have hinit : initSys.InBounds := fun _ _ _ hm => absurd hm List.not_mem_nil
  have h := @bytes_refine_messages 2 (by decide)
    [(.op 0 (.lock 1), fun _ => ⟨fun _ => 7, 0⟩), (.deliver 0 1, fun _ => ⟨fun _ => 0, 5⟩)]
    (fun e he k => by
      rcases List.mem_cons.mp he with rfl | he
      · show IsInt 0
        decide
      · rw [List.mem_singleton.mp he]
        show IsInt 5
        decide)
    (fun es' hes s hrun => by
      have hcases : es' = [] ∨ ∃ rest, es' = .op 0 (.lock 1) :: rest ∧
          (rest = [] ∨ rest = [.deliver 0 1]) := by
        simpa [List.prefix_cons_iff] using hes
      have hfirst : Sys.InBounds (initSys.put 0 (miLock 2 0 1 (initSys.host 0))) :=
        hinit.put fun x hx => by
          rw [List.mem_singleton.mp hx]
          rfl
      rcases hcases with rfl | ⟨rest, rfl, rfl | rfl⟩
      · cases hrun
        exact hinit
      · cases hrun
        exact hfirst
      · cases hrun
        refine Sys.InBounds.put (fun x y msg hm => hfirst x y msg (mem_of_mem_pop hm)) ?_
        intro x hx
        rw [List.mem_singleton.mp hx]
        rfl)
  generalize hrun : runFrom (byteStep 2) _ initByteSys _ = next at h ⊢
  cases h with
  | @some t s hsame => exact ⟨t, rfl, hsame.net 1 0⟩

end

end Midsm
