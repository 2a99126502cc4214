import Midsm.Proofs.Clocks

/-!
# Own timestamps

A host's own timestamps rise if each granter has heard of the host that asks it: if its
vector counts for that host as far as the timestamp of the `FETCH_WN_I`. This is one
component out of all. That the others have caught up as well, whatever the order in which
the locks move, is the invariant `Causal`: a vector that counts for host `k` as far as one
of `k`'s own intervals is nowhere behind that interval's timestamp. It holds because nobody
counts for a host further than the host itself, so a new interval is ahead of every vector
there is, and whoever gets its count later gets it with the rest of the timestamp.
-/

namespace Midsm

open Midsm.Lib

/-- A host that reads a request for notices has heard of the newest interval of the host
that asks. -/
def Heard (s : Sys) : Event → Prop
  | .op _ _ => True
  | .deliver a b =>
      match s.net a b with
      | .fetchWnI ts :: _ => ∀ i : Fin maxHostNum, i.val = a →
          ts i ≤ ((s.host b).mem.now b).timestamp i
      | _ => True

instance (s : Sys) (e : Event) : Decidable (Heard s e) := by
  cases e with
  | op => exact isTrue trivial
  | deliver a b =>
      unfold Heard
      dsimp only
      split <;> infer_instance

/-! ## Requests and replies in flight -/

/-- A request has the timestamp of the newest own interval, and so far as its reply counts
for the host that asked it is not behind. -/
structure Asking (n : Nat) (s : Sys) : Prop where
  request : ∀ {a b ts}, .fetchWnI ts ∈ s.net a b → a < n ∧ ts = s.last a
  reply : ∀ {a b ts k packets}, .grantWnI ts k packets ∈ s.net b a →
    a < n ∧ ∀ i : Fin maxHostNum, i.val = a → s.last a i ≤ ts i

/-- The vectors that hosts go by, or will go by. -/
def Sys.GoesBy (n : Nat) (s : Sys) (v : Timestamp) : Prop :=
  (∃ x < n, v = s.last x) ∨ (∃ x, 0 < x ∧ x < n ∧ v ∈ s.due x) ∨
    ∃ a b k packets, .grantWnI v k packets ∈ s.net a b

/-- The timestamps of the own intervals of host `k`, the one on its way included. -/
def Sys.Made (s : Sys) (k : Nat) (ts : Timestamp) : Prop :=
  (∃ y ∈ s.own k, y.1 = ts) ∨ (0 < k ∧ ts ∈ s.due k)

/-- A vector that counts for host `k` as far as an own interval of `k` is nowhere behind
it. -/
def Causal (n : Nat) (s : Sys) : Prop :=
  ∀ v, s.GoesBy n v → ∀ k < n, ∀ ts, s.Made k ts →
    (∀ i : Fin maxHostNum, i.val = k → ts i ≤ v i) →
    ∀ i : Fin maxHostNum, i.val < n → ts i ≤ v i

section

variable {n : Nat} {s s' : Sys} {e : Event} {x a b : Nat}

theorem Asking.init (n : Nat) : Asking n initSys where
  request h := by cases h
  reply h := by cases h

/-- While a host waits for notices, only their arrival gives it an own interval. -/
theorem Steady.own_fetching (hs : Steady n s) (he : Midsm.step n s e = some s') (hx : x < n)
    (hf : (s.host x).pc.fetches = true)
    (hno : ∀ c ts k packets rest, e = .deliver c x →
      s.net c x ≠ .grantWnI ts k packets :: rest) : s'.own x = s.own x := by
  have hrun : (s.host x).pc ≠ .run := fun hpc => by rw [hpc] at hf; cases hf
  have hout := Pc.outside_of_fetches hf
  have hput : ∀ {s₀ : Sys} {y : Nat} {r : Host × Out}, s₀.host = s.host →
      (x = y → r.1.mem.shape x = s.own x) → (s₀.put y r).own x = s.own x := by
    intro s₀ y r hhost hself
    by_cases hxy : x = y
    · rw [Sys.own, hxy, put_host_self, ← hxy, hself hxy]
    · rw [Sys.own, put_host_ne hxy, hhost]
  cases hs.turn he with
  | other _ _ _ hhost _ _ hb =>
      refine hput hhost fun hxy => ?_
      subst hxy
      cases hb.own with
      | same h => exact h
      | fresh _ hnot => rw [hf] at hnot; cases hnot
      | granted c ts k packets rest hev hnet => exact absurd hnet (hno c ts k packets rest hev)
  | enter _ _ hpc => exact hput rfl fun hxy => absurd (hxy ▸ hpc) hrun
  | note _ hpc => exact hput rfl fun hxy => absurd (hxy ▸ hpc) hrun
  | releaseCall _ hpc => exact hput rfl fun hxy => absurd (hxy ▸ hpc) hrun
  | leave _ hpc => exact hput rfl fun hxy => by subst hxy; rfl
  | enterInfo _ _ hnet =>
      refine hput rfl fun hxy => ?_
      subst hxy
      exact (enterInfo_effect hs.answered.sound (by rw [hnet]; exact List.mem_cons_self)).1
  | exitInfo h0 hy hnet =>
      refine hput rfl fun hxy => ?_
      subst hxy
      -- the message has found its client in the barrier
      have hnone := ((hs.control.barrier.client x h0 hx).outside hout).2.2
      rw [hnet, barrierMsgs_cons rfl] at hnone
      cases hnone
  | flag => exact hput rfl fun hxy => by subst hxy; rfl
  | release h0 _ hnet hall =>
      refine hput rfl fun hxy => ?_
      subst hxy
      have hflag : (s.host 0).syn.barrierFlags 0 = true :=
        (upd_ne (show 0 ≠ _ by omega)).symm.trans (hall 0 hx)
      rw [hs.control.barrier.manager_waits hflag] at hout
      cases hout
  | wake => exact hput rfl fun hxy => by subst hxy; rfl


/-- What is in flight of an exchange has its flag up. -/
theorem Answered.fetching (h : Answered n s) {msg : Msg}
    (hm : msg ∈ s.net x b ∧ wniExchange.isRequest msg = true ∨
      msg ∈ s.net b x ∧ wniExchange.isReply msg = true) :
    (s.host x).pc.fetches = true ∧ (s.host x).mem.fetchWNIWaitFlag = true := by
  have hup : (s.host x).mem.fetchWNIWaitFlag = true := by
    by_contra hdown
    rw [Bool.not_eq_true] at hdown
    have h0 := (h.wni x).idle hdown b
    rw [Exchange.traffic] at h0
    rcases hm with ⟨hm, hreq⟩ | ⟨hm, hrep⟩
    · have := List.countP_pos_iff.mpr ⟨msg, hm, hreq⟩
      omega
    · have := List.countP_pos_iff.mpr ⟨msg, hm, hrep⟩
      omega
  exact ⟨(h.wni x).waits hup, hup⟩

/-- A host that has something in flight before and after a step keeps its own intervals. -/
theorem Steady.own_asking (hs : Steady n s) (he : Midsm.step n s e = some s') (hx : x < n)
    {msg : Msg}
    (hm : msg ∈ s.net x b ∧ wniExchange.isRequest msg = true ∨
      msg ∈ s.net b x ∧ wniExchange.isReply msg = true)
    (hm' : msg ∈ s'.net x b ∧ wniExchange.isRequest msg = true ∨
      msg ∈ s'.net b x ∧ wniExchange.isReply msg = true) : s'.own x = s.own x := by
  have hup := (hs.answered.step he).fetching hm'
  refine hs.own_fetching he hx (hs.answered.fetching hm).1 fun c ts k packets rest hev hnet => ?_
  -- reading the reply lowers the flag
  subst hev
  obtain ⟨_, _, _, hop, -⟩ | ⟨_, _, _, _, hdel, -, -, -, hnet', rfl⟩ := step_cases he
  · cases hop
  · cases hdel
    rw [hnet, List.cons.injEq] at hnet'
    obtain ⟨rfl, -⟩ := hnet'
    rw [put_host_self] at hup
    cases hup.2

/-- A request is made by its host, with the timestamp it goes by. -/
theorem Sound.requests (hs : Sound n s) (he : Midsm.step n s e = some s') {ts : Timestamp}
    (hm : .fetchWnI ts ∈ s'.net a b) :
    .fetchWnI ts ∈ s.net a b ∨ (a < n ∧ ts = s.last a ∧ s'.own a = s.own a) := by
  obtain ⟨c, op, r, rfl, hc, hr, rfl⟩ |
    ⟨c, d, msg, rest, rfl, hc, hd, hne, hnet, rfl⟩ := step_cases he
  · rcases mem_put_net hm with hm | ⟨rfl, ho⟩
    · exact Or.inl hm
    · have hcls : (∀ y ∈ r.2, y.2.cls ≠ .data) → False := fun hall => hall _ ho rfl
      cases exec_mem hr with
      | access _ hf _ =>
          obtain ⟨-, -, hplain, -, -⟩ := hf (hs.pc a hc)
          cases hplain _ ho
      | keep _ _ _ _ ho' | fresh _ _ _ _ ho' =>
          exact (hcls fun y hy => by rw [ho' y hy]; simp).elim
      | fetch g l path _ _ hmem _ _ _ ho' =>
          rw [ho', List.mem_singleton] at ho
          cases ho
          refine Or.inr ⟨hc, (hs.nowTop a hc).last, ?_⟩
          rw [Sys.own, put_host_self, hmem]
          rfl
      | enter _ _ _ _ ho' => exact (hcls (by rw [ho']; exact enter_cls n _ _)).elim
      | note _ _ _ _ ho' => rw [ho'] at ho; cases ho
      | release _ _ _ _ ho' => exact (hcls (by rw [ho']; exact release_not_data n _)).elim
  · rcases mem_put_net hm with hm | ⟨-, ho⟩
    · exact Or.inl (mem_of_mem_pop hm)
    · cases (dispatch_mem n d c msg (s.host d)).wni hc hne with
      | rest _ _ _ _ hall => cases (hall _ ho).1
      | serve reply _ _ _ _ hout hno => rw [hout, List.mem_singleton] at ho; cases ho; cases hno
      | done _ _ _ hout => rw [hout] at ho; cases ho

/-- A reply is made of the vector that the granter goes by, for the request that it reads. -/
theorem Steady.replies (hs : Steady n s) (he : Midsm.step n s e = some s') {ts : Timestamp}
    {k : Nat} {packets : List WnPacket} (hm : .grantWnI ts k packets ∈ s'.net b a) :
    .grantWnI ts k packets ∈ s.net b a ∨ ∃ t rest, e = .deliver a b ∧
      s.net a b = .fetchWnI t :: rest ∧ a < n ∧ a ≠ b ∧
      ts = ((s.host b).mem.now b).timestamp := by
  obtain ⟨c, op, r, rfl, hc, hr, rfl⟩ |
    ⟨c, d, msg, rest, rfl, hc, hd, hne, hnet, rfl⟩ := step_cases he
  · rcases mem_put_net hm with hm | ⟨rfl, ho⟩
    · exact Or.inl hm
    · cases (exec_mem hr).wni (hs.answered.sound.pc b hc) with
      | rest _ _ hall => cases (hall _ ho).2
      | ask g msg _ _ _ _ hout _ hno => rw [hout, List.mem_singleton] at ho; cases ho; cases hno
  · rcases mem_put_net hm with hm | ⟨rfl, ho⟩
    · exact Or.inl (mem_of_mem_pop hm)
    · cases msg with
      | fetchWnI t =>
          rcases grantWNI_out n b c t (s.host b).mem with hout | ⟨-, -, hout⟩ <;>
            rw [dispatchMsg, hout] at ho
          · cases ho
          · rw [List.mem_singleton] at ho
            cases ho
            exact Or.inr ⟨t, rest, rfl, hnet, hc, hne, rfl⟩
      | _ =>
          cases (dispatch_mem n b c _ (s.host b)).wni hc hne with
          | rest _ _ _ _ hall => cases (hall _ ho).2
          | serve reply hreq => cases hreq
          | done _ _ _ hout => rw [hout] at ho; cases ho

theorem Asking.step (hs : Steady n s) (h : Asking n s) (hok : Heard s e)
    (he : Midsm.step n s e = some s') : Asking n s' where
  request {a b ts} hm := by
    rcases hs.answered.sound.requests he hm with hold | ⟨ha, hts, hown⟩
    · obtain ⟨ha, hts⟩ := h.request hold
      exact ⟨ha, by rw [Sys.last_congr (hs.own_asking he ha (Or.inl ⟨hold, rfl⟩)
        (Or.inl ⟨hm, rfl⟩)), hts]⟩
    · exact ⟨ha, by rw [Sys.last_congr hown, hts]⟩
  reply {a b ts k packets} hm := by
    rcases hs.replies he hm with hold | ⟨t, rest, hev, hnet, ha, hab, hts⟩
    · obtain ⟨ha, hle⟩ := h.reply hold
      refine ⟨ha, fun i hi => ?_⟩
      rw [Sys.last_congr (hs.own_asking he ha (Or.inr ⟨hold, rfl⟩) (Or.inr ⟨hm, rfl⟩))]
      exact hle i hi
    · refine ⟨ha, fun i hi => ?_⟩
      have hask := h.request (show .fetchWnI t ∈ s.net a b by
        rw [hnet]; exact List.mem_cons_self)
      subst hev
      rw [Heard, hnet] at hok
      have hread := hok i hi
      rw [hask.2, ← hts] at hread
      -- the granter's step leaves the reader alone
      have hown : s'.own a = s.own a := by
        obtain ⟨_, _, _, hop, -⟩ | ⟨_, _, _, _, hdel, -, -, -, -, rfl⟩ := step_cases he
        · cases hop
        · cases hdel
          rw [Sys.own, put_host_ne hab]
          rfl
      rwa [Sys.last_congr hown]

/-! ## What a vector knows -/

theorem Steady.goesBy_grant (hs : Steady n s) (he : Midsm.step n s e = some s') {ts : Timestamp}
    {k : Nat} {packets : List WnPacket} (hm : .grantWnI ts k packets ∈ s'.net b a) :
    s.GoesBy n ts := by
  rcases hs.grants he hm with hm | hlast
  · exact Or.inr (Or.inr ⟨_, _, _, _, hm⟩)
  · exact Or.inl hlast

theorem Clocks.goesBy (hs : Steady n s) (hc : Clocks n s) {v : Timestamp}
    (hv : s.GoesBy n v) : s.Counted n v := by
  obtain ⟨x, hx, rfl⟩ | ⟨x, h0, hx, hm⟩ | ⟨a, b, k, packets, hm⟩ := hv
  · exact hc.last hs hx
  · obtain hnil | ⟨ts, hone, hts, -⟩ := hc.due x h0 hx
    · rw [hnil] at hm
      cases hm
    · rw [hone, List.mem_singleton] at hm
      exact hm ▸ hts
  · exact hc.granted hm

theorem Clocks.made (hs : Steady n s) (hc : Clocks n s) {k : Nat} (hk : k < n)
    {ts : Timestamp} (hm : s.Made k ts) : s.Counted n ts := by
  obtain ⟨y, hy, rfl⟩ | ⟨h0, hdue⟩ := hm
  · exact hc.own k hk y hy
  · exact hc.goesBy hs (Or.inr (Or.inl ⟨k, h0, hk, hdue⟩))

theorem Causal.init (n : Nat) : Causal n initSys := by
  intro v hv k hk ts hm _ i hi
  -- nothing has been counted yet
  have hzero : ts i = 0 := by
    obtain ⟨y, hy, rfl⟩ | ⟨-, hdue⟩ := hm
    · simp only [Sys.own, initSys, initmem, Mem.shape, upd_self, List.map_cons, List.map_nil,
        List.mem_singleton] at hy
      rw [hy]
      rfl
    · cases hdue
  rw [hzero]
  obtain ⟨x, hx, rfl⟩ | ⟨x, -, -, hdue⟩ | ⟨a, b, k, packets, hgrant⟩ := hv
  · exact (Stamps.init n).last_nonNeg hx i hi
  · cases hdue
  · cases hgrant

/-- A host counts on from a vector `w` that somebody goes by, and that counts for it as far
as anybody does. -/
theorem Causal.grow (hn : n ≤ maxHostNum) (hs : Steady n s) (hc : Clocks n s) (h : Causal n s)
    (he : Midsm.step n s e = some s') (ha : a < n) {w u : Timestamp} {isBarrier : Bool}
    (hu : s.GoesBy n u) (hw : ∀ i : Fin maxHostNum, i.val < n → w i = u i)
    (hcount : ∀ i : Fin maxHostNum, i.val = a → s.newest a i ≤ w i)
    (hself : s'.own a = (bump a w, isBarrier) :: s.own a)
    (hown : ∀ x, x ≠ a → s'.own x = s.own x) (hdue : ∀ x, 0 < x → s'.due x = s.due x) :
    Causal n s' := by
  have hgoes : ∀ v, s'.GoesBy n v → s.GoesBy n v ∨ v = bump a w := by
    rintro v (⟨x, hx, rfl⟩ | ⟨x, h0, hx, hm⟩ | ⟨b, c, k, packets, hm⟩)
    · by_cases hxa : x = a
      · exact Or.inr (by rw [hxa, Sys.last_cons hself])
      · exact Or.inl (Or.inl ⟨x, hx, Sys.last_congr (hown x hxa)⟩)
    · exact Or.inl (Or.inr (Or.inl ⟨x, h0, hx, hdue x h0 ▸ hm⟩))
    · exact Or.inl (hs.goesBy_grant he hm)
  have hmade : ∀ k ts, s'.Made k ts → s.Made k ts ∨ (k = a ∧ ts = bump a w) := by
    rintro k ts (⟨y, hy, rfl⟩ | ⟨h0, hm⟩)
    · by_cases hka : k = a
      · rw [hka, hself] at hy
        rcases List.mem_cons.mp hy with rfl | hy
        · exact Or.inr ⟨hka, rfl⟩
        · exact Or.inl (Or.inl ⟨y, hka ▸ hy, rfl⟩)
      · exact Or.inl (Or.inl ⟨y, hown k hka ▸ hy, rfl⟩)
    · exact Or.inl (Or.inr ⟨h0, hdue k h0 ▸ hm⟩)
  have hle : ∀ i : Fin maxHostNum, i.val < n → u i ≤ bump a w i := by
    intro i hi
    rw [← hw i hi]
    by_cases hia : i.val = a
    · rw [bump_self hia]
      omega
    · rw [bump_ne hia]
  intro v hv k hk ts hm hcov i hi
  rcases hgoes v hv with hv | rfl
  · rcases hmade k ts hm with hm | ⟨rfl, rfl⟩
    · exact h v hv k hk ts hm hcov i hi
    · -- nobody has heard of the new interval
      obtain ⟨j, hj⟩ : ∃ j : Fin maxHostNum, j.val = k := ⟨⟨k, by omega⟩, rfl⟩
      have hnew := hcov j hj
      have hold := hc.goesBy hs hv j (by omega)
      have hw' := hcount j hj
      rw [bump_self hj] at hnew
      rw [hj] at hold
      omega
  · rcases hmade k ts hm with hm | ⟨rfl, rfl⟩
    · refine (h u hu k hk ts hm (fun j hj => ?_) i hi).trans (hle i hi)
      rw [← hw j (by omega)]
      by_cases hka : k = a
      · have hj' : j.val = a := hj.trans hka
        have hts := hc.made hs hk hm j (by omega)
        rw [hj'] at hts
        exact hts.trans (hcount j hj')
      · have hne : bump a w j = w j := bump_ne (by omega)
        rw [← hne]
        exact hcov j hj
    · exact Int.le_refl _

/-- An interval that was on its way arrives. -/
theorem Causal.install (hs : Steady n s) (h : Causal n s) (he : Midsm.step n s e = some s')
    {ts : Timestamp} (ha0 : 0 < a) (ha : a < n) (hd : s.due a = ts :: s'.due a)
    (hself : s'.own a = (ts, true) :: s.own a) (hown : ∀ x, x ≠ a → s'.own x = s.own x)
    (hdue : ∀ x, 0 < x → x ≠ a → s'.due x = s.due x) : Causal n s' := by
  have htop : ts ∈ s.due a := by rw [hd]; exact List.mem_cons_self
  have hdown : ∀ x, 0 < x → ∀ t ∈ s'.due x, t ∈ s.due x := by
    intro x h0 t ht
    by_cases hxa : x = a
    · rw [hxa] at ht ⊢
      rw [hd]
      exact List.mem_cons_of_mem _ ht
    · exact hdue x h0 hxa ▸ ht
  intro v hv k hk t hm
  have hv' : s.GoesBy n v := by
    obtain ⟨x, hx, rfl⟩ | ⟨x, h0, hx, hm⟩ | ⟨b, c, k, packets, hm⟩ := hv
    · by_cases hxa : x = a
      · exact Or.inr (Or.inl ⟨a, ha0, ha, by rw [hxa, Sys.last_cons hself]; exact htop⟩)
      · exact Or.inl ⟨x, hx, Sys.last_congr (hown x hxa)⟩
    · exact Or.inr (Or.inl ⟨x, h0, hx, hdown x h0 v hm⟩)
    · exact hs.goesBy_grant he hm
  have hm' : s.Made k t := by
    obtain ⟨y, hy, rfl⟩ | ⟨h0, hdown'⟩ := hm
    · by_cases hka : k = a
      · rw [hka, hself] at hy
        rcases List.mem_cons.mp hy with rfl | hy
        · exact Or.inr ⟨hka ▸ ha0, hka ▸ htop⟩
        · exact Or.inl ⟨y, hka ▸ hy, rfl⟩
      · exact Or.inl ⟨y, hown k hka ▸ hy, rfl⟩
    · exact Or.inr ⟨h0, hdown k h0 t hdown'⟩
  exact h v hv' k hk t hm'

/-- At a release the new timestamp is larger than any other in each component. -/
theorem Causal.release (hn : n ≤ maxHostNum) (hs : Steady n s) (hc : Clocks n s)
    (h : Causal n s) (he : Midsm.step n s e = some s') {ts : Timestamp}
    (hr : s.Restart n ts s') : Causal n s' := by
  have hgoes : ∀ v, s'.GoesBy n v → s.GoesBy n v ∨ AgreeBelow n v ts := by
    rintro v (⟨x, hx, rfl⟩ | ⟨x, h0, hx, hm⟩ | ⟨b, c, k, packets, hm⟩)
    · by_cases hx0 : x = 0
      · exact Or.inr fun i _ => by rw [hx0, Sys.last_cons hr.self]
      · exact Or.inl (Or.inl ⟨x, hx, Sys.last_congr (hr.other x (by omega))⟩)
    · rw [(hr.due x h0 hx).2, List.mem_singleton] at hm
      exact Or.inr fun i hi => by rw [hm, cut_apply hi]
    · exact Or.inl (hs.goesBy_grant he hm)
  have hmade : ∀ k < n, ∀ t, s'.Made k t → s.Made k t ∨ AgreeBelow n t ts := by
    rintro k hk t (⟨y, hy, rfl⟩ | ⟨h0, hm⟩)
    · by_cases hk0 : k = 0
      · rw [hk0, hr.self] at hy
        rcases List.mem_cons.mp hy with rfl | hy
        · exact Or.inr fun _ _ => rfl
        · exact Or.inl (Or.inl ⟨y, hk0 ▸ hy, rfl⟩)
      · exact Or.inl (Or.inl ⟨y, hr.other k (by omega) ▸ hy, rfl⟩)
    · rw [(hr.due k h0 hk).2, List.mem_singleton] at hm
      exact Or.inr fun i hi => by rw [hm, cut_apply hi]
  intro v hv k hk t hm hcov i hi
  rcases hgoes v hv with hv | hv <;> rcases hmade k hk t hm with hm | hm
  · exact h v hv k hk t hm hcov i hi
  · obtain ⟨j, hj⟩ : ∃ j : Fin maxHostNum, j.val = k := ⟨⟨k, by omega⟩, rfl⟩
    have hnew := hcov j hj
    have hold := hr.lt (hc.goesBy hs hv) (i := j) (by omega)
    rw [hm j (by omega)] at hnew
    omega
  · rw [hv i hi]
    exact (hr.lt (hc.made hs hk hm) hi).le
  · rw [hv i hi, hm i hi]

theorem Causal.step (hn : n ≤ maxHostNum) (hs : Steady n s) (hst : Stamps n s)
    (hc : Clocks n s) (hask : Asking n s) (h : Causal n s)
    (he : Midsm.step n s e = some s') : Causal n s' := by
  cases hs.tick hst he with
  | still hown hdue =>
      intro v hv k hk ts hm
      have hv' : s.GoesBy n v := by
        obtain ⟨x, hx, rfl⟩ | ⟨x, h0, hx, hm⟩ | ⟨a, b, k, packets, hm⟩ := hv
        · exact Or.inl ⟨x, hx, Sys.last_congr (hown x)⟩
        · exact Or.inr (Or.inl ⟨x, h0, hx, hdue x h0 ▸ hm⟩)
        · exact hs.goesBy_grant he hm
      have hm' : s.Made k ts := hm.imp (fun ⟨y, hy, hts⟩ => ⟨y, hown k ▸ hy, hts⟩)
        fun ⟨h0, hd⟩ => ⟨h0, hdue k h0 ▸ hd⟩
      exact h v hv' k hk ts hm'
  | fresh a ha hd hself hown hdue =>
      refine h.grow hn hs hc he ha (Or.inl ⟨a, ha, rfl⟩) (fun i hi => cut_apply hi)
        (fun i hi => ?_) hself hown hdue
      rw [Sys.newest_of_due hd, cut_apply (by omega)]
  | granted a c ts k packets ha hread hm hd hself hown hdue =>
      refine h.grow hn hs hc he ha (Or.inr (Or.inr ⟨c, a, k, packets, hm⟩)) (fun _ _ => rfl)
        (fun i hi => ?_) hself hown hdue
      rw [Sys.newest_of_due hd]
      exact (hask.reply hm).2 i hi
  | install a ts ha0 ha hd hself hown hdue =>
      exact h.install hs he ha0 ha hd hself hown hdue
  | release ts hr => exact h.release hn hs hc he hr

/-- A reply is nowhere behind the host that it is for. -/
theorem Causal.covers (hs : Steady n s) (hask : Asking n s) (h : Causal n s) {ts : Timestamp}
    {k : Nat} {packets : List WnPacket} (hm : .grantWnI ts k packets ∈ s.net b a)
    {i : Fin maxHostNum} (hi : i.val < n) : s.last a i ≤ ts i := by
  obtain ⟨ha, hcount⟩ := hask.reply hm
  exact h ts (Or.inr (Or.inr ⟨b, a, k, packets, hm⟩)) a ha _ (Or.inl (hs.last_mem ha)) hcount i
    hi

/-! ## Own timestamps rise -/

/-- Newest first, each own timestamp is after all that follow. -/
def Rising (n : Nat) (s : Sys) : Prop :=
  ∀ x < n, (s.own x).Pairwise fun y z => isAfterInterval n y.1 z.1 = true

theorem Rising.init (n : Nat) : Rising n initSys := by
  intro x _
  have hown : initSys.own x = [(fun _ => 0, true)] := by
    simp only [Sys.own, initSys, initmem, Mem.shape, upd_self, List.map_cons, List.map_nil]
    rfl
  rw [hown]
  exact List.pairwise_singleton ..

/-- What is after the head is after the whole list. -/
theorem Rising.cons (hs : Steady n s) (h : Rising n s) (hx : x < n)
    {ts : Timestamp} {isBarrier : Bool} (hself : s'.own x = (ts, isBarrier) :: s.own x)
    (hafter : isAfterInterval n ts (s.last x) = true) :
    (s'.own x).Pairwise fun y z => isAfterInterval n y.1 z.1 = true := by
  obtain ⟨rest, hr⟩ := (hs.answered.sound.nowTop x hx).shape
  change s.own x = _ at hr
  rw [Sys.last_cons hr] at hafter
  have hold := h x hx
  rw [hself]
  refine List.pairwise_cons.mpr ⟨fun z hz => ?_, hold⟩
  rw [hr] at hz hold
  rcases List.mem_cons.mp hz with rfl | hz
  · exact hafter
  · exact isAfterInterval_trans hafter (List.rel_of_pairwise_cons hold hz)

theorem Rising.step (hn : n ≤ maxHostNum) (hs : Steady n s) (hst : Stamps n s)
    (hc : Clocks n s) (hask : Asking n s) (hca : Causal n s) (h : Rising n s)
    (he : Midsm.step n s e = some s') : Rising n s' := by
  have hgrow : ∀ {a : Nat} {ts : Timestamp} {isBarrier : Bool},
      s'.own a = (ts, isBarrier) :: s.own a → isAfterInterval n ts (s.last a) = true →
      (∀ x, x ≠ a → s'.own x = s.own x) → Rising n s' := by
    intro a ts isBarrier hself hafter hother x hx
    by_cases hxa : x = a
    · subst hxa
      exact h.cons hs hx hself hafter
    · rw [hother x hxa]
      exact h x hx
  -- counting on from a vector that is nowhere behind
  have hcount : ∀ {a : Nat} {w : Timestamp}, a < n →
      (∀ i : Fin maxHostNum, i.val < n → s.last a i ≤ w i) →
      isAfterInterval n (bump a w) (s.last a) = true := by
    intro a w ha hle
    obtain ⟨j, hj⟩ : ∃ j : Fin maxHostNum, j.val = a := ⟨⟨a, by omega⟩, rfl⟩
    refine isAfterInterval_iff.mpr ⟨fun i hi => ?_, j, by omega, ?_⟩
    · have := hle i hi
      by_cases hi' : i.val = a
      · rw [bump_self hi']
        omega
      · rw [bump_ne hi']
        exact this
    · have := hle j (by omega)
      rw [bump_self hj]
      omega
  cases hs.tick hst he with
  | still hown hdue => exact fun x hx => hown x ▸ h x hx
  | fresh a ha hd hself hown hdue =>
      exact hgrow hself (hcount ha fun i hi => by rw [cut_apply hi]) hown
  | granted a c ts k packets ha hread hm hd hself hown hdue =>
      exact hgrow hself (hcount ha fun i hi => hca.covers hs hask hm hi) hown
  | install a ts h0 ha hd hself hown hdue =>
      obtain hnil | ⟨ts', hone, -, hlt⟩ := hc.due a h0 ha
      · rw [hd] at hnil
        cases hnil
      · rw [hd, List.cons.injEq] at hone
        obtain ⟨rfl, -⟩ := hone
        have hn0 : 0 < n := by omega
        exact hgrow hself (isAfterInterval_iff.mpr
          ⟨fun i hi => (hlt i hi).le, 0, hn0, hlt 0 hn0⟩) hown
  | release ts hr =>
      have hlt := fun i hi => hr.lt (hc.last hs hr.pos) (i := i) hi
      exact hgrow hr.self (isAfterInterval_iff.mpr
        ⟨fun i hi => (hlt i hi).le, 0, hr.pos, hlt 0 hr.pos⟩)
        fun x hx => hr.other x (by omega)

/-- A reply that is read counts for its reader as far as the reader does. -/
theorem Asking.countKept (hs : Steady n s) (h : Asking n s) : CountKept s e := by
  cases e with
  | op => intro x hx; cases hx
  | deliver c a =>
      intro x hx i hi
      rw [grantRead] at hx
      split at hx
      · next ts k packets rest hnet =>
          cases hx
          have hm : .grantWnI ts k packets ∈ s.net c a := by
            rw [hnet]
            exact List.mem_cons_self
          obtain ⟨ha, hle⟩ := h.reply hm
          rw [(hs.answered.sound.nowTop a ha).last]
          exact (hle i hi).trans (Int.le_add_one (Int.le_refl _))
      · cases hx

structure RiseHist (n : Nat) (s : Sys) : Prop where
  steady : Steady n s
  stamps : Stamps n s
  clocks : Clocks n s
  asking : Asking n s
  causal : Causal n s
  rising : Rising n s

theorem RiseHist.init (n : Nat) : RiseHist n initSys :=
  ⟨Steady.init n, Stamps.init n, Clocks.init n, Asking.init n, Causal.init n, Rising.init n⟩

theorem RiseHist.step (hn : n ≤ maxHostNum) (h : RiseHist n s) (hok : Heard s e)
    (he : Midsm.step n s e = some s') : RiseHist n s' where
  steady := h.steady.step he
  stamps := h.stamps.step h.steady he
  clocks := h.clocks.step h.steady h.stamps (h.asking.countKept h.steady) he
  asking := h.asking.step h.steady hok he
  causal := h.causal.step hn h.steady h.stamps h.clocks h.asking he
  rising := h.rising.step hn h.steady h.stamps h.clocks h.asking h.causal he

/-- When every granter has heard of the newest interval of the host that asks it, the own
timestamps of each host rise: newest first, each is after all that follow, its own component
is not smaller, and no two are the same. -/
theorem own_timestamps_rise (n : Nat) (hn : n ≤ maxHostNum) {s : Sys}
    (h : Reach (Midsm.step n) Heard initSys s) (x : Nat) (hx : x < n) :
    ((s.host x).mem.procArray x).Pairwise fun newer older =>
      isAfterInterval n newer.timestamp older.timestamp = true ∧
      (∀ i : Fin maxHostNum, i.val = x → older.timestamp i ≤ newer.timestamp i) ∧
      newer.timestamp ≠ older.timestamp := by
  have hhist : RiseHist n s := h.invariant (P := RiseHist n) (RiseHist.init n)
    fun ht hok he => ht.step hn hok he
  have hrise := hhist.rising x hx
  rw [Sys.own, Mem.shape, List.pairwise_map] at hrise
  refine hrise.imp fun {newer older} hafter => ⟨hafter, fun i hi => ?_, fun heq => ?_⟩
  · exact (isAfterInterval_iff.mp hafter).1 i (by omega)
  · change isAfterInterval n newer.timestamp older.timestamp = true at hafter
    rw [heq] at hafter
    exact isAfterInterval_irrefl n _ hafter

/-- Host 1 uses a lock after host 0, then host 0 does again, then host 1. -/
theorem own_timestamps_rise_two :
    ∃ s : Sys, ((s.host 1).mem.procArray 1).length = 4 ∧
      ((s.host 1).mem.procArray 1).Pairwise fun newer older =>
        isAfterInterval 2 newer.timestamp older.timestamp = true ∧
        (∀ i : Fin maxHostNum, i.val = 1 → older.timestamp i ≤ newer.timestamp i) ∧
        newer.timestamp ≠ older.timestamp := by
  obtain ⟨s, hrun, hp⟩ := exists_reach (Midsm.step 2) (fun t e => decide (Heard t e))
    (fun _ _ => of_decide_eq_true) initSys
    (handOver ++ [.op 0 (.lock 0), .deliver 0 1, .deliver 1 0, .op 0 .resume,
      .op 0 (.unlock 0), .op 1 (.lock 0), .deliver 1 0, .deliver 0 1, .op 1 .resume,
      .deliver 1 0, .deliver 0 1])
    (fun t => decide (((t.host 1).mem.procArray 1).length = 4)) (by decide +kernel)
  exact ⟨s, of_decide_eq_true hp, own_timestamps_rise 2 (by decide) hrun 1 (by decide)⟩

/-- Host 1 acquires two locks that host 0 used before: the second grant says what
the first one said, and two intervals of host 1 have the same timestamp. -/
theorem own_timestamps_repeat :
    ∃ s, Reach (Midsm.step 2) anyStep initSys s ∧
      ((s.host 1).mem.procArray 1).map Interval.timestamp =
        [vector [4, 1], vector [4, 2], vector [4, 1], vector []] ∧
      isAfterInterval 2 (vector [4, 1]) (vector [4, 2]) = false := by
  obtain ⟨s, hrun, hp⟩ := exists_reach_any (Midsm.step 2) initSys
    ([.op 0 (.lock 2), .op 0 (.unlock 2)] ++ handOver ++
      [.op 1 (.lock 2), .deliver 1 0, .deliver 0 1, .op 1 .resume, .deliver 1 0,
        .deliver 0 1])
    (fun t => decide (((t.host 1).mem.procArray 1).map Interval.timestamp =
      [vector [4, 1], vector [4, 2], vector [4, 1], vector []])) (by decide +kernel)
  exact ⟨s, hrun, of_decide_eq_true hp, by decide⟩

end

end Midsm
