import Mathlib.Algebra.BigOperators.Group.Finset.Sigma
import Mathlib.Data.Prod.Lex
import Midsm.Proofs.Waiting

/-!
# Deliveries come to an end

A handler that returns answers a request with messages that are no requests, and any other
message with nothing. So every delivery takes a request out of the channels, or keeps their
number and takes one message out, or its reader hangs; if the main threads rest, the
channels run empty, but for those to hosts that hang.
-/

namespace Midsm

open Midsm.Lib

def Msg.isRequest : Msg → Bool
  | .acqLock _ | .rlsLock _ | .enterBarrier => true
  | .fetchPage _ | .fetchWnI _ | .fetchDiff _ _ => true
  | _ => false

section

variable {n me sender : Nat} {h : Host}

/-! ## What handlers send -/

theorem dispatch_silent {msg : Msg} (hm : msg.isRequest = false) :
    (dispatchMsg n me sender msg h).2 = [] := by
  cases msg with
  | acqLock | rlsLock | enterBarrier | fetchPage | fetchWnI | fetchDiff => cases hm
  | _ => rfl

theorem grantLock_noRequest {l x : Int} {s : Syn} :
    ∀ y ∈ grantLock n me l x s, y.2.isRequest = false := by
  intro y hy
  rcases grantLock_out n me l x s with he | ⟨-, -, -, -, -, he⟩ <;> rw [he] at hy
  · cases hy
  · rw [List.mem_singleton.mp hy]
    rfl

theorem release_noRequest (n : Nat) (h : Host) :
    ∀ x ∈ (h.release n).2, x.2.isRequest = false := by
  intro x hx
  rcases List.mem_append.mp hx with hx | hx
  · obtain ⟨i, -, hx⟩ := List.mem_flatMap.mp hx
    have hinfo := (exitInfo_spec _ _ _ _ x hx).2
    generalize x.2 = msg at hinfo ⊢
    cases msg <;> first | rfl | cases hinfo
  · obtain ⟨i, -, rfl⟩ := List.mem_map.mp hx
    rfl

/-- Nothing a handler sends is a request, unless it hangs. -/
theorem dispatch_noRequest (msg : Msg) (hh : (dispatchMsg n me sender msg h).1.hung = false) :
    ∀ x ∈ (dispatchMsg n me sender msg h).2, x.2.isRequest = false := by
  intro x hx
  cases msg with
  | acqLock l =>
      dsimp only [dispatchMsg] at hx
      unfold handleAcquireMsg at hx
      split at hx
      · dsimp only at hx
        split at hx
        · exact grantLock_noRequest x hx
        · cases hx
      · cases hx
  | rlsLock l =>
      dsimp only [dispatchMsg] at hx
      unfold handleReleaseMsg at hx
      split at hx
      · dsimp only at hx
        split at hx
        · split at hx
          · cases hx
          · exact grantLock_noRequest x hx
        · cases hx
      · cases hx
  | enterBarrier =>
      dsimp only [dispatchMsg] at hx
      unfold handleEnterBarrierMsg at hx
      dsimp only at hx
      rcases checkBarrierFlags_cases n me { h with
          syn := { h.syn with barrierFlags := upd h.syn.barrierFlags sender true } }
        with ⟨he, -⟩ | ⟨-, -, he⟩ <;> rw [he] at hx
      · cases hx
      · exact release_noRequest n _ x hx
  | fetchPage p =>
      have hc := dispatch_fetchPage n me sender p h
      generalize dispatchMsg n me sender (.fetchPage p) h = r at hc hh hx
      cases hc with
      | refused => cases hx
      | sent | opened =>
          rw [List.mem_singleton.mp hx]
          rfl
      | killed | hangs => cases hh
  | fetchWnI ts =>
      rcases grantWNI_out n me sender ts h.mem with ho | ⟨-, -, ho⟩ <;>
        simp only [dispatchMsg, ho] at hx
      · cases hx
      · rw [List.mem_singleton.mp hx]
        rfl
  | fetchDiff p ts =>
      rcases grantDiff_out n me sender ts p h.mem with ho | ⟨diff, ho⟩ <;>
        simp only [dispatchMsg, ho] at hx
      · cases hx
      · rw [List.mem_singleton.mp hx]
        rfl
  | _ => cases hx

end

/-! ## What is in flight, weighed -/

/-- The weight of all messages between the `n` hosts. -/
def Sys.weigh (n : Nat) (w : Msg → Nat) (s : Sys) : Nat :=
  ∑ a ∈ Finset.range n, ∑ b ∈ Finset.range n, ((s.net a b).map w).sum

section

variable {n a b : Nat} {s s' : Sys} {w : Msg → Nat} {r : Host × Out}

theorem weigh_pop (ha : a < n) (hb : b < n) {msg : Msg} {rest : List Msg}
    (hnet : s.net a b = msg :: rest) : s.weigh n w = w msg + (s.pop a b).weigh n w := by
  have hmem : (a, b) ∈ Finset.range n ×ˢ Finset.range n := by
    simp [ha, hb]
  unfold Sys.weigh
  rw [← Finset.sum_product', ← Finset.sum_product', ← Finset.add_sum_erase _ _ hmem,
    ← Finset.add_sum_erase (Finset.range n ×ˢ Finset.range n) _ hmem, ← Nat.add_assoc]
  congr 1
  · rw [pop_net_self, hnet]
    simp
  · refine Finset.sum_congr rfl fun x hx => ?_
    have hne : x.1 ≠ a ∨ x.2 ≠ b := by
      by_contra hc
      rw [not_or, not_not, not_not] at hc
      exact (Finset.mem_erase.mp hx).1 (Prod.ext hc.1 hc.2)
    rw [pop_net_ne hne]

/-- Messages of no weight do not count. -/
theorem weigh_put (hr : ∀ x ∈ r.2, w x.2 = 0) : (s.put a r).weigh n w = s.weigh n w := by
  unfold Sys.weigh
  refine Finset.sum_congr rfl fun x _ => Finset.sum_congr rfl fun y _ => ?_
  by_cases hx : x = a
  · subst hx
    rw [put_net_self, List.map_append, List.sum_append]
    have hzero : ((outTo r.2 y).map w).sum = 0 := by
      refine List.sum_eq_zero fun k hk => ?_
      obtain ⟨msg, hm, rfl⟩ := List.mem_map.mp hk
      exact hr _ (mem_outTo.mp hm)
    rw [hzero, Nat.add_zero]
  · rw [put_net_ne hx]

/-- The hosts whose handlers return. -/
def Sys.awake (n : Nat) (s : Sys) : Finset Nat :=
  (Finset.range n).filter fun x => (s.host x).hung = false

/-- The requests in flight, and all that is in flight. -/
def Sys.inFlight (n : Nat) (s : Sys) : Nat ×ₗ Nat :=
  toLex (s.weigh n fun msg => if msg.isRequest then 1 else 0, s.weigh n fun _ => 1)

/-- How much is left to be delivered. -/
def Sys.backlog (n : Nat) (s : Sys) : Nat ×ₗ Nat ×ₗ Nat :=
  toLex ((s.awake n).card, s.inFlight n)

theorem awake_put_of_hung (hb : b < n) (hh : (s.host b).hung = false) (hr : r.1.hung = true) :
    ((s.put b r).awake n).card < (s.awake n).card := by
  refine Finset.card_lt_card (Finset.ssubset_iff_of_subset (fun x hx => ?_) |>.mpr
    ⟨b, by simp [Sys.awake, hb, hh], by simp [Sys.awake, put_host_self, hr]⟩)
  obtain ⟨hx, hh⟩ := Finset.mem_filter.mp hx
  have hne : x ≠ b := by
    rintro rfl
    rw [put_host_self, hr] at hh
    cases hh
  rw [put_host_ne hne] at hh
  exact Finset.mem_filter.mpr ⟨hx, hh⟩

theorem awake_put (hh : r.1.hung = (s.host b).hung) : (s.put b r).awake n = s.awake n := by
  refine Finset.filter_congr fun x _ => ?_
  by_cases hx : x = b
  · rw [hx, put_host_self, hh]
  · rw [put_host_ne hx]

/-- A handler that returns leaves less in flight. -/
theorem inFlight_lt (ha : a < n) (hb : b < n) {msg : Msg} {rest : List Msg}
    (hnet : s.net a b = msg :: rest)
    (hh : (dispatchMsg n b a msg (s.host b)).1.hung = false) :
    ((s.pop a b).put b (dispatchMsg n b a msg (s.host b))).inFlight n < s.inFlight n := by
  refine Prod.Lex.toLex_lt_toLex.mpr ?_
  have hreq := weigh_pop (w := fun msg => if msg.isRequest then 1 else 0) ha hb hnet
  have hreq' := weigh_put (s := s.pop a b) (n := n) (a := b)
    (w := fun msg => if msg.isRequest then 1 else 0)
    (r := dispatchMsg n b a msg (s.host b)) fun x hx => by
      rw [dispatch_noRequest msg hh x hx]
      rfl
  cases hm : msg.isRequest with
  | true =>
      rw [hm, if_pos rfl] at hreq
      left
      omega
  | false =>
      rw [hm, if_neg Bool.false_ne_true] at hreq
      have hall := weigh_pop (w := fun _ => 1) ha hb hnet
      have hall' := weigh_put (s := s.pop a b) (n := n) (a := b) (w := fun _ => 1)
        (r := dispatchMsg n b a msg (s.host b)) fun x hx => by
          rw [dispatch_silent hm] at hx
          cases hx
      right
      omega

theorem backlog_lt (he : step n s (.deliver a b) = some s') : s'.backlog n < s.backlog n := by
  have hawake : (s.host b).hung = false := step_awake he
  obtain ⟨a', op, r, hop, -⟩ | ⟨a', b', msg, rest, hab, ha, hb, -, hnet, rfl⟩ := step_cases he
  · cases hop
  · cases hab
    refine Prod.Lex.toLex_lt_toLex.mpr ?_
    cases hh : (dispatchMsg n b a msg (s.host b)).1.hung with
    | true => exact Or.inl (awake_put_of_hung (s := s.pop a b) hb hawake hh)
    | false =>
        have hsame := awake_put (n := n) (s := s.pop a b) (b := b) (hh.trans hawake.symm)
        exact Or.inr ⟨congrArg Finset.card hsame, inFlight_lt ha hb hnet hh⟩

/-- **The channels run empty**: there is no endless sequence of deliveries, and from every
state some sequence of them leaves nothing in flight, but to hosts that hang. -/
theorem deliveries_end (n : Nat) :
    WellFounded (fun s' s : Sys => ∃ a b, step n s (.deliver a b) = some s') ∧
      ∀ s : Sys, ∃ s', Reach (Midsm.step n) (fun _ e => ∃ a b, e = .deliver a b) s s' ∧
        ∀ a < n, ∀ b < n, a ≠ b → s'.net a b = [] ∨ (s'.host b).hung = true := by
  have hwf : WellFounded (fun s' s : Sys => ∃ a b, step n s (.deliver a b) = some s') :=
    Subrelation.wf (fun ⟨_, _, he⟩ => backlog_lt he)
      (InvImage.wf (Sys.backlog n) wellFounded_lt)
  refine ⟨hwf, fun s => ?_⟩
  induction s using hwf.induction with
  | _ s ih =>
      by_cases hd : s.Delivered n
      · exact ⟨s, .refl, fun a ha b hb hne => hd.empty_or_hung ha hb hne⟩
      · unfold Sys.Delivered at hd
        push Not at hd
        obtain ⟨a, b, hne⟩ := hd
        obtain ⟨s', he⟩ := Option.ne_none_iff_exists'.mp hne
        obtain ⟨t, hrun, ht⟩ := ih s' ⟨a, b, he⟩
        exact ⟨t, (Reach.refl.tail ⟨a, b, rfl⟩ he).trans hrun, ht⟩

end

end Midsm
