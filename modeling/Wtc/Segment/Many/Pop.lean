import Wtc.Segment.Many.Push

/-!
# Pops from the queue for many consumers

Each step of `pop_many` that writes keeps `G`, then each step keeps the rule; with the pushes this
is the proof rule for the queue.
-/

namespace Wtc.Segment.Many

open Wtc.Concurrent

variable {α Tid : Type} {K : Nat} {F : Nat → Nat → Prop} {sh sh' : Shared α} {w w' : Ghost Tid α}
  {t : Tid} {h i : Nat}

/-! ## The counters -/

/-- A step that leaves the number of cells passed as it is. -/
theorem G.of_passed (hg : G K F sh w) (hc : Chain K sh') (hp : passed K sh' = passed K sh)
    (hr : reserved K sh' = reserved K sh) (hst : sh'.state = sh.state)
    (hcell : sh'.cell = sh.cell) : G K F sh' w where
  chain := hc
  val_lt := by rw [hr]; exact hg.val_lt
  owner_lt := by rw [hr]; exact hg.owner_lt
  val_fin := hg.val_fin
  full_val := by rw [hst]; exact hg.full_val
  not_taken := by rw [hst]; exact hg.not_taken
  cell := by rw [hst, hcell, hp]; exact hg.cell
  claimed := by rw [hst, hp]; exact hg.claimed
  claim_inj := hg.claim_inj
  claim_lt := by rw [hp]; exact hg.claim_lt
  claim_pend := hg.claim_pend
  queue := by rw [hp, hr]; exact hg.queue

theorem Rely.setDeq {d : Nat} (hd : sh.deq h ≤ d) : Rely K t sh w (sh.setDeq h d) w :=
  { Rely.refl K t sh w with
    deq := fun s => by
      by_cases he : s = h
      · subst he; simpa [Shared.setDeq] using hd
      · simp [Shared.setDeq, he] }

variable [DecidableEq Tid]

/-- The fetch-and-add of a pop past the end of the segment. -/
theorem claim_past_step (hg : G K F sh w) (hl : PopL K t sh w (.claim h)) (hK : K ≤ sh.deq h) :
    Kept K F t sh w (sh.setDeq h (sh.deq h + 1)) (.pop (.endNext h)) := by
  obtain ⟨hp, hh⟩ := hl
  have hpassed : passed K (sh.setDeq h (sh.deq h + 1)) = passed K sh := by
    by_cases he : h = sh.head
    · subst he
      rw [passed_setDeq_head, passed]
      omega
    · exact passed_setDeq_other he _
  refine ⟨w, .refl, hg.of_passed (hg.chain.setDeq hh (Nat.le_succ _)) hpassed rfl rfl rfl,
    ⟨hp, hh, ?_⟩, .setDeq (Nat.le_succ _)⟩
  simp only [Shared.setDeq, Function.update_self]
  omega

/-- The head moves on. -/
theorem advHead_step {n : Nat} (hg : G K F sh w) (hl : PopL K t sh w (.advHead h n)) :
    Kept K F t sh w (sh.casHead h n) (.pop .load) := by
  obtain ⟨hp, hh, hd, hn⟩ := hl
  unfold Shared.casHead
  split_ifs with he
  · subst he
    obtain ⟨rfl, hlt⟩ := hg.chain.next_eq_some hn
    exact ⟨w, .refl, hg.of_passed (hg.chain.setHead hlt hd)
      (passed_setHead hg.chain hd) rfl rfl rfl,
      hp, { Rely.refl K t sh w with head := Nat.le_succ _ }⟩
  · exact .same hg hp

/-! ## Taking a cell -/

omit [DecidableEq Tid] in
variable {a : Atomic.State Tid (FifoOp α) (FifoAns α) (List α)}

/-- A pop takes the next cell. -/
theorem G.claim (hg : G K F sh w) (hi : sh.deq sh.head < K) (hc : w.claim t = none)
    (hobj : a.obj = window (passed K sh + 1) (reserved K sh) w.val)
    (hself : Claimed { w with abs := a } t (w.val (passed K sh)))
    (hoth : ∀ u, u ≠ t → a.pend u = w.abs.pend u) :
    G K F (sh.setDeq sh.head (sh.deq sh.head + 1))
      { w with
        abs := a
        claim := Function.update w.claim t (some (sh.head, sh.deq sh.head)) } := by
  have hP : passed K sh = sh.head * K + sh.deq sh.head := by
    rw [passed]
    omega
  have hP' : passed K (sh.setDeq sh.head (sh.deq sh.head + 1)) = passed K sh + 1 := by
    rw [passed_setDeq_head]
    omega
  -- the claims of the other pops
  have hne : ∀ {u c}, w.claim u = some c → u ≠ t := by
    rintro u c hu rfl
    rw [hc] at hu
    cases hu
  have hself' : Function.update w.claim t (some (sh.head, sh.deq sh.head)) t =
      some (sh.head, sh.deq sh.head) := Function.update_self ..
  have hother : ∀ {u}, u ≠ t →
      Function.update w.claim t (some (sh.head, sh.deq sh.head)) u = w.claim u := fun hu =>
    Function.update_of_ne hu _ _
  have hcases : ∀ {u c}, Function.update w.claim t (some (sh.head, sh.deq sh.head)) u = some c →
      (u = t ∧ c = (sh.head, sh.deq sh.head)) ∨ (u ≠ t ∧ w.claim u = some c) := by
    intro u c hu
    by_cases hut : u = t
    · subst hut
      rw [hself'] at hu
      exact .inl ⟨rfl, (Option.some.inj hu).symm⟩
    · rw [hother hut] at hu
      exact .inr ⟨hut, hu⟩
  refine
    { hg with
      chain := hg.chain.setDeq le_rfl (Nat.le_succ _)
      cell := ?_
      claimed := ?_
      claim_inj := ?_
      claim_lt := ?_
      claim_pend := ?_
      queue := ?_ }
  · intro s j hj hst hcl
    refine hg.cell s j hj hst ?_
    rw [hP'] at hcl
    rcases hcl with hle | ⟨u, hu⟩
    · exact .inl (by omega)
    · rcases hcases hu with ⟨-, he⟩ | ⟨-, hu⟩
      · cases he; exact .inl hP.le
      · exact .inr ⟨u, hu⟩
  · intro s j hj hlt hst hn
    rw [hP'] at hlt
    by_cases he : s * K + j = passed K sh
    · obtain ⟨rfl, rfl⟩ := number_inj hj hi (he.trans hP)
      exact ⟨t, hself'⟩
    · obtain ⟨u, hu⟩ := hg.claimed s j hj (by omega) hst hn
      exact ⟨u, (hother (hne hu)).trans hu⟩
  · intro u u' c hu hu'
    rcases hcases hu with ⟨rfl, he⟩ | ⟨-, h₁⟩ <;> rcases hcases hu' with ⟨rfl, he'⟩ | ⟨-, h₂⟩
    · rfl
    · have := (hg.claim_lt _ _ _ (he ▸ h₂)).2
      omega
    · have := (hg.claim_lt _ _ _ (he' ▸ h₁)).2
      omega
    · exact hg.claim_inj _ _ _ h₁ h₂
  · intro u s j hu
    rw [hP']
    rcases hcases hu with ⟨-, he⟩ | ⟨-, hu⟩
    · cases he; exact ⟨hi, by omega⟩
    · have := hg.claim_lt u s j hu
      exact ⟨this.1, by omega⟩
  · intro u s j hu
    rcases hcases hu with ⟨rfl, he⟩ | ⟨hut, hu⟩
    · cases he
      rw [← hP]
      exact hself.of_pend rfl
    · exact (hg.claim_pend u s j hu).of_pend (hoth u hut)
  · rw [hP']
    exact hobj

/-- The fetch-and-add of a pop that takes a cell. -/
theorem claim_step (hg : G K F sh w) (hl : PopL K t sh w (.claim h)) (hi : sh.deq h < K) :
    Kept K F t sh w (sh.setDeq h (sh.deq h + 1)) (.pop (.look h (sh.deq h))) := by
  obtain ⟨hp, hh⟩ := hl
  obtain rfl : h = sh.head := by
    by_contra hne
    have := hg.chain.deq_lt h (by omega)
    omega
  have hrely : ∀ a : Atomic.State Tid (FifoOp α) (FifoAns α) (List α),
      (∀ u, u ≠ t → a.pend u = w.abs.pend u) →
      Rely K t sh w (sh.setDeq sh.head (sh.deq sh.head + 1))
        { w with
          abs := a
          claim := Function.update w.claim t (some (sh.head, sh.deq sh.head)) } := fun a ha =>
    { Rely.setDeq (Nat.le_succ _) with
      claim := fun u hu => Function.update_of_ne hu _ _
      pend := fun u hu _ => ha u hu }
  cases hv : w.val (passed K sh) with
  | none =>
    refine ⟨{ w with claim := Function.update w.claim t (some (sh.head, sh.deq sh.head)) }, .refl,
      hg.claim hi hp.2 ?_ ?_ fun _ _ => rfl, Function.update_self .., hrely w.abs fun _ _ => rfl⟩
    · rw [hg.queue]
      rcases Nat.lt_or_ge (passed K sh) (reserved K sh) with hlt | hge
      · rw [window_left hlt, hv]
        rfl
      · rw [window_of_le hge, window_of_le (by omega)]
    · rw [hv]
      exact hp.1
  | some v =>
    have hlt := hg.val_lt _ v hv
    have hobj : w.abs.obj = v :: window (passed K sh + 1) (reserved K sh) w.val := by
      rw [hg.queue, window_left hlt, hv]
      rfl
    have hstep : FifoStep w.abs.obj .pop (.popped (some v))
        (window (passed K sh + 1) (reserved K sh) w.val) := by
      rw [hobj]
      exact .pop v _
    have hoth : ∀ u, u ≠ t → (w.abs.lin t [] [.popped (some v)]
        (window (passed K sh + 1) (reserved K sh) w.val)).pend u = w.abs.pend u :=
      fun u hu => Atomic.State.lin_pend_ne _ hu _ _ _
    refine ⟨_, hp.1.lin (O := fifo α) hstep, hg.claim hi hp.2 rfl ?_ hoth,
      Function.update_self .., hrely _ hoth⟩
    rw [hv]
    exact Atomic.State.lin_pend_self _ _ _ _ _

/-! ## Leaving a cell -/

/-- The pop of thread `t` holds no cell any more. -/
def Ghost.unclaim (w : Ghost Tid α) (t : Tid) : Ghost Tid α :=
  { w with claim := Function.update w.claim t none }

theorem Rely.unclaim (hr : Rely K t sh w sh' w) : Rely K t sh w sh' (w.unclaim t) :=
  { hr with claim := fun _ hu => Function.update_of_ne hu _ _ }

theorem Ghost.unclaim_claim {u : Tid} {c : Nat × Nat} (hu : (w.unclaim t).claim u = some c) :
    u ≠ t ∧ w.claim u = some c := by
  have hut : u ≠ t := by
    rintro rfl
    cases (Function.update_self ..).symm.trans hu
  exact ⟨hut, (Function.update_of_ne hut _ _).symm.trans hu⟩

/-- A pop leaves its cell: one that is skipped, or one with an element. -/
theorem G.unclaim (hg : G K F sh w) (hc : w.claim t = some (h, i))
    (hst : sh.state h i = .skipped ∨ w.val (h * K + i) ≠ none) :
    G K F sh (w.unclaim t) :=
  { hg with
    cell := fun s j hj hf hcl => hg.cell s j hj hf <| hcl.imp_right fun ⟨u, hu⟩ =>
      ⟨u, (Ghost.unclaim_claim hu).2⟩
    claimed := by
      intro s j hj hlt hns hn
      obtain ⟨u, hu⟩ := hg.claimed s j hj hlt hns hn
      refine ⟨u, (Function.update_of_ne ?_ _ _).trans hu⟩
      rintro rfl
      cases hc.symm.trans hu
      exact hst.elim hns (fun hv => hv hn)
    claim_inj := fun u u' c hu hu' =>
      hg.claim_inj u u' c (Ghost.unclaim_claim hu).2 (Ghost.unclaim_claim hu').2
    claim_lt := fun u s j hu => hg.claim_lt u s j (Ghost.unclaim_claim hu).2
    claim_pend := fun u s j hu => (hg.claim_pend u s j (Ghost.unclaim_claim hu).2).of_pend rfl }

omit [DecidableEq Tid] in
theorem G.claim_seg (hg : G K F sh w) (hc : w.claim t = some (h, i)) : h < sh.segs := by
  have hlt := (hg.claim_lt t h i hc).2
  have hle := hg.chain.passed_le
  by_contra hge
  have := Nat.mul_le_mul_right K (Nat.le_of_not_lt hge)
  omega

/-- A pop finds its cell skipped, or skips it, and starts again. -/
theorem skipped_step (hg : G K F sh' w) (hsee : Sees F sh') (hc : w.claim t = some (h, i))
    (hst : sh'.state h i = .skipped) (hr : Rely K t sh w sh' w) :
    Kept K F t sh w sh' (.pop .load) := by
  obtain ⟨hi, -⟩ := hg.claim_lt t h i hc
  have hp := hg.claim_pend t h i hc
  cases hv : w.val (h * K + i) with
  | none =>
    rw [hv] at hp
    exact ⟨w.unclaim t, .refl, hg.unclaim hc (.inl hst), ⟨hp, Function.update_self ..⟩, hr.unclaim⟩
  | some v => exact absurd (hg.val_fin h i v hi hv) (hsee.skipped h i (hg.claim_seg hc) hst)

/-- A pop takes the element of its cell. -/
theorem take_step {v : α} (hg : G K F sh w) (hl : PopL K t sh w (.take h i))
    (hv : sh.cell h i = some v) :
    Kept K F t sh w (sh.setCell h i none) (.pop (.done (some v))) := by
  obtain ⟨hc, hst⟩ := hl
  obtain ⟨hi, hlt⟩ := hg.claim_lt t h i hc
  have hval : w.val (h * K + i) = some v :=
    (hg.cell h i hi hst (.inr ⟨t, hc⟩)).symm.trans hv
  have hp := hg.claim_pend t h i hc
  rw [hval] at hp
  have hg' := hg.unclaim hc (.inr (by rw [hval]; nofun))
  refine ⟨w.unclaim t, .refl, { hg' with chain := hg.chain.setCell h i none, cell := ?_ },
    ⟨hp, Function.update_self ..⟩, Rely.unclaim ?_⟩
  · -- nobody else holds the cell
    intro s j hj hf hcl
    rw [setCell_ne]
    · exact hg'.cell s j hj hf hcl
    · rintro ⟨⟩
      rcases hcl with hle | ⟨u, hu⟩
      · have hle : passed K sh ≤ h * K + i := hle
        omega
      · obtain ⟨hut, hu⟩ := Ghost.unclaim_claim hu
        exact hut (hg.claim_inj _ _ _ hu hc)
  · refine { Rely.refl K t sh w with owned := fun s j u hu _ ho => ⟨ho, rfl, fun hne => ⟨hne, ?_⟩⟩ }
    refine setCell_ne ?_
    rintro ⟨⟩
    exact hne hst

/-! ## The answer empty -/

omit [DecidableEq Tid] in
/-- A last segment without a cell left to pop is an empty queue. -/
theorem G.empty (hg : G K F sh w) (hh : h ≤ sh.head) (hd : min (sh.enq h) K ≤ sh.deq h)
    (hn : sh.next h = none) : w.abs.obj = [] := by
  have hlast := hg.chain.next_eq_none (hh.trans_lt hg.chain.head_lt) hn
  obtain rfl : h = sh.head := by
    have := hg.chain.head_lt
    omega
  rw [hg.queue, window_of_le]
  rw [reserved_last hlast, passed]
  omega

omit [DecidableEq Tid] in
/-- The atomic queue notes or gives an answer that leaves it as it is. -/
theorem G.answer (hg : G K F sh w) (hc : w.claim t = none) (hobj : a.obj = w.abs.obj)
    (hoth : ∀ u, u ≠ t → a.pend u = w.abs.pend u) : G K F sh { w with abs := a } :=
  { hg with
    claim_pend := fun u s j hu => (hg.claim_pend u s j hu).of_pend <| hoth u <| by
      rintro rfl
      rw [hc] at hu
      cases hu
    queue := hobj.trans hg.queue }

omit [DecidableEq Tid] in
theorem Rely.answer (hoth : ∀ u, u ≠ t → a.pend u = w.abs.pend u) :
    Rely K t sh w sh { w with abs := a } :=
  { Rely.refl K t sh w with pend := fun u hu _ => hoth u hu }

/-- The load of `enq` by a pop that finds nothing left in the segment. -/
theorem enqLoad_step {d : Nat} (hg : G K F sh w) (hl : PopL K t sh w (.enqLoad h d))
    (hd : d ≥ sh.enq h) : Kept K F t sh w sh (.pop (.nextLoad h)) := by
  obtain ⟨hp, hh, hle⟩ := hl
  cases hn : sh.next h with
  | some n =>
    obtain ⟨⟨seen, hs⟩, hc⟩ := hp
    refine .same hg ⟨⟨hc, seen, hs, fun hnone => ?_⟩, hh⟩
    rw [hn] at hnone
    cases hnone
  | none =>
    have hempty := hg.empty hh (by omega) hn
    obtain ⟨a, hsteps, hobj, hoth, seen, hs, ha⟩ := hp.1.see (O := fifo α) (a := .popped none) (by
      rw [hempty]
      exact .empty)
    exact ⟨{ w with abs := a }, hsteps, hg.answer hp.2 hobj hoth,
      ⟨⟨hp.2, seen, hs, fun _ => ha⟩, hh⟩, .answer hoth⟩

/-- A pop that found nothing left answers empty. -/
theorem nextLoad_step (hg : G K F sh w) (hl : PopL K t sh w (.nextLoad h))
    (hn : sh.next h = none) : Kept K F t sh w sh (.pop (.done none)) := by
  obtain ⟨⟨hc, seen, hs, ha⟩, -⟩ := hl
  have hoth : ∀ u, u ≠ t → (w.abs.lin t [] [.popped none] w.abs.obj).pend u = w.abs.pend u :=
    fun u hu => Atomic.State.lin_pend_ne _ hu _ _ _
  exact ⟨{ w with abs := w.abs.lin t [] [.popped none] w.abs.obj },
    Atomic.Steps.settle (O := fifo α) hs (ha hn), hg.answer hc rfl hoth,
    ⟨Atomic.State.lin_pend_self _ _ _ _ _, hc⟩, .answer hoth⟩

/-- A pop past the end of the last segment answers empty. -/
theorem endNext_step (hg : G K F sh w) (hl : PopL K t sh w (.endNext h))
    (hn : sh.next h = none) : Kept K F t sh w sh (.pop (.done none)) := by
  obtain ⟨hp, hh, hd⟩ := hl
  have hempty := hg.empty hh (by omega) hn
  have hoth : ∀ u, u ≠ t → (w.abs.lin t [] [.popped none] w.abs.obj).pend u = w.abs.pend u :=
    fun u hu => Atomic.State.lin_pend_ne _ hu _ _ _
  refine ⟨{ w with abs := w.abs.lin t [] [.popped none] w.abs.obj }, hp.1.lin (O := fifo α) ?_,
    hg.answer hp.2 rfl hoth, ⟨Atomic.State.lin_pend_self _ _ _ _ _, hp.2⟩, .answer hoth⟩
  rw [hempty]
  exact .empty

/-! ## The rule -/

/-- Every step of `pop_many` keeps the rule. -/
theorem pop_step {l l' : ManyLoc α} (hg : G K F sh w) (hsee : Sees F sh) (hsee' : Sees F sh')
    (hl : PopL K t sh w l) (hs : manyStep K sh l = some (sh', l')) :
    Kept K F t sh w sh' (.pop l') := by
  -- a cell that is neither empty nor skipped is full
  have hfull : ∀ {h i}, sh.state h i ≠ .empty → sh.state h i ≠ .skipped →
      sh.state h i = .full := by
    intro h i h1 h2
    have h3 := hg.not_taken h i
    revert h1 h2 h3
    cases sh.state h i <;> simp
  cases l with
  | load =>
    cases hs
    exact .same hg ⟨hl, le_rfl⟩
  | check p =>
    simp only [manyStep] at hs
    split_ifs at hs
    · cases hs; exact .same hg hl
    · cases hs; exact .same hg ⟨hl.1, le_rfl⟩
  | deqLoad h =>
    cases hs
    exact .same hg ⟨hl.1, hl.2, le_rfl⟩
  | enqLoad h d =>
    simp only [manyStep] at hs
    split_ifs at hs with hd
    · cases hs; exact enqLoad_step hg hl hd
    · cases hs; exact .same hg ⟨hl.1, hl.2.1⟩
  | nextLoad h =>
    simp only [manyStep] at hs
    split at hs
    · cases hs
      obtain ⟨⟨hc, seen, hp, -⟩, hh⟩ := hl
      exact .same hg ⟨⟨⟨seen, hp⟩, hc⟩, hh⟩
    · next hn => cases hs; exact nextLoad_step hg hl hn
  | claim h =>
    simp only [manyStep] at hs
    split_ifs at hs with hi
    · cases hs; exact claim_past_step hg hl hi
    · cases hs; exact claim_step hg hl (by omega)
  | endNext h =>
    simp only [manyStep] at hs
    split at hs
    · next n hn => cases hs; exact .same hg ⟨hl.1, hl.2.1, hl.2.2, hn⟩
    · next hn => cases hs; exact endNext_step hg hl hn
  | advTail h n =>
    cases hs
    exact casTail_step hg (hg.chain.next_eq_some hl.2.2.2).2 fun _ _ => hl
  | advHead h n => cases hs; exact advHead_step hg hl
  | look h i | await h i =>
    simp only [manyStep] at hs
    split at hs
    · cases hs; exact .same hg hl
    · next hst => cases hs; exact skipped_step hg hsee hl hst (.refl ..)
    · next h1 h2 => cases hs; exact .same hg ⟨hl, hfull h1 h2⟩
  | patience h i spin | reserved h i =>
    simp only [manyStep] at hs
    split_ifs at hs
    · cases hs; exact .same hg hl
    · cases hs; exact .same hg hl
  | skip h i =>
    simp only [manyStep] at hs
    split at hs
    · next hst =>
      cases hs
      exact skipped_step (hg.setSkipped h i) hsee' hl setState_self (.setSkipped hst)
    · next hst => cases hs; exact skipped_step hg hsee hl hst (.refl ..)
    · next h1 h2 => cases hs; exact .same hg ⟨hl, hfull h1 h2⟩
  | take h i =>
    simp only [manyStep, Option.map_eq_some_iff] at hs
    obtain ⟨v, hv, he⟩ := hs
    cases he
    exact take_step hg hl hv
  | done v => cases hs

end Wtc.Segment.Many
