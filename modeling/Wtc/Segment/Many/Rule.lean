import Wtc.Segment.Many.Pop

/-!
# The proof rule for the queue for many consumers

A cell that is full or skipped stays so. The marks at the end of a run are therefore in keeping
with those at every state on the way there, and with them the rule is put together.
-/

namespace Wtc.Segment.Many

open Wtc.Concurrent

variable {α Tid : Type} {K : Nat}

/-! ## The end of the run -/

/-- A full cell stays full and a skipped cell stays skipped. -/
structure Marks (sh sh' : Shared α) : Prop where
  segs : sh.segs ≤ sh'.segs
  full : ∀ s j, s < sh.segs → sh.state s j = .full → sh'.state s j = .full
  skipped : ∀ s j, s < sh.segs → sh.state s j = .skipped → sh'.state s j = .skipped

namespace Marks

variable {sh sh' sh'' : Shared α}

theorem refl (sh : Shared α) : Marks sh sh := ⟨le_rfl, fun _ _ _ h => h, fun _ _ _ h => h⟩

theorem trans (h : Marks sh sh') (h' : Marks sh' sh'') : Marks sh sh'' where
  segs := h.segs.trans h'.segs
  full s j hs hf := h'.full s j (hs.trans_le h.segs) (h.full s j hs hf)
  skipped s j hs hf := h'.skipped s j (hs.trans_le h.segs) (h.skipped s j hs hf)

theorem of_state (hsegs : sh.segs ≤ sh'.segs)
    (h : ∀ s j, s < sh.segs → sh.state s j ≠ .empty → sh'.state s j = sh.state s j) :
    Marks sh sh' where
  segs := hsegs
  full s j hs hf := (h s j hs (by rw [hf]; nofun)).trans hf
  skipped s j hs hf := (h s j hs (by rw [hf]; nofun)).trans hf

theorem setState {s j : Nat} {m : Mark} (hst : sh.state s j = .empty) :
    Marks sh (sh.setState s j m) :=
  .of_state le_rfl fun s' j' _ hne => setState_ne <| by
    rintro ⟨⟩
    exact hne hst

theorem link {s : Nat} {vs : List α} : Marks sh (sh.link s vs) :=
  .of_state (Nat.le_succ _) fun s' j' hs _ => by
    have hne : s' ≠ sh.segs := by omega
    simp [Shared.link, hne]

theorem casTail {s n : Nat} : Marks sh (sh.casTail s n) := by
  unfold Shared.casTail
  split_ifs
  · exact ⟨le_rfl, fun _ _ _ h => h, fun _ _ _ h => h⟩
  · exact refl sh

theorem casHead {s n : Nat} : Marks sh (sh.casHead s n) := by
  unfold Shared.casHead
  split_ifs
  · exact ⟨le_rfl, fun _ _ _ h => h, fun _ _ _ h => h⟩
  · exact refl sh

theorem pushStep {l l' : PushLoc α} (hs : pushStep K true sh l = some (sh', l')) :
    Marks sh sh' := by
  cases l with
  | mark k vs s j stop fin =>
    simp only [Segment.pushStep, true_and] at hs
    split_ifs at hs with hst hj
    · cases hs; exact refl sh
    · cases hs; exact setState (not_not.1 hst)
    · cases hs; exact setState (not_not.1 hst)
  | giveUp k vs s r stop fin =>
    have hm : Marks sh (if sh.state s r = .empty then sh.setState s r .skipped else sh) := by
      split_ifs with hst
      · exact setState hst
      · exact refl sh
    simp only [Segment.pushStep] at hs
    by_cases hr : r + 1 < stop
    · rw [if_pos hr] at hs; cases hs; exact hm
    · rw [if_neg hr] at hs; cases hs; exact hm
  | link k vs s =>
    simp only [Segment.pushStep] at hs
    split at hs
    · cases hs; exact refl sh
    · cases hs; exact link
  | linkTail k vs s n | tailCas k vs s n => cases hs; exact casTail
  | nextLoad k vs s spin =>
    simp only [Segment.pushStep] at hs
    split at hs
    · cases hs; exact refl sh
    · split_ifs at hs <;> cases hs <;> exact refl sh
  | done k => cases hs
  | load k vs => cases hs; exact refl sh
  | build k vs s j stop fin => cases hs; exact of_state le_rfl fun _ _ _ _ => rfl
  | check k vs s =>
    simp only [Segment.pushStep] at hs
    split_ifs at hs <;> cases hs <;> exact refl sh
  | reserve k vs s | takeBack k vs s j stop fin =>
    simp only [Segment.pushStep] at hs
    split_ifs at hs <;> cases hs <;> exact of_state le_rfl fun _ _ _ _ => rfl

theorem manyStep {l l' : ManyLoc α} (hs : manyStep K sh l = some (sh', l')) : Marks sh sh' := by
  cases l with
  | skip h i =>
    simp only [Segment.manyStep] at hs
    split at hs
    · next hst => cases hs; exact setState hst
    · cases hs; exact refl sh
    · cases hs; exact refl sh
  | advTail h n => cases hs; exact casTail
  | advHead h n => cases hs; exact casHead
  | claim h =>
    simp only [Segment.manyStep] at hs
    split_ifs at hs <;> cases hs <;> exact of_state le_rfl fun _ _ _ _ => rfl
  | take h i =>
    simp only [Segment.manyStep, Option.map_eq_some_iff] at hs
    obtain ⟨v, -, he⟩ := hs
    cases he
    exact of_state le_rfl fun _ _ _ _ => rfl
  | load | deqLoad h => cases hs; exact refl sh
  | done v => cases hs
  | check p | enqLoad h d | patience h i n | reserved h i =>
    simp only [Segment.manyStep] at hs
    split_ifs at hs <;> cases hs <;> exact refl sh
  | nextLoad h | endNext h | look h i | await h i =>
    simp only [Segment.manyStep] at hs
    split at hs <;> cases hs <;> exact refl sh

end Marks

section Rule

variable [DecidableEq Tid]

theorem Marks.next {s s' : Config Tid (Shared α) (Loc α)}
    {es : List (Event Tid (FifoOp α) (FifoAns α))}
    (hn : (manyMachine α Tid K).Next s es s') : Marks s.sh s'.sh := by
  cases hn with
  | call hl hm | ret hl ha => exact refl _
  | @step t l hl c sh' l' hs =>
    rcases l with l | l
    · obtain ⟨⟨sh₁, l₁⟩, hstep, he⟩ := Option.map_eq_some_iff.1 hs
      cases he
      exact Marks.pushStep hstep
    · obtain ⟨⟨sh₁, l₁⟩, hstep, he⟩ := Option.map_eq_some_iff.1 hs
      cases he
      exact Marks.manyStep hstep

theorem Marks.leads {s f : Config Tid (Shared α) (Loc α)} (hl : (manyMachine α Tid K).Leads s f) :
    Marks s.sh f.sh := by
  induction hl with
  | refl => exact refl _
  | tail _ hn ih =>
    obtain ⟨es, hn⟩ := hn
    exact ih.trans (.next hn)

/-- A state is in keeping with the marks of one that it leads to. -/
theorem Sees.of_leads {s f : Config Tid (Shared α) (Loc α)}
    (hl : (manyMachine α Tid K).Leads s f) : Sees (fun u j => f.sh.state u j = .full) s.sh where
  full := (Marks.leads hl).full
  skipped u j hu hst hf := by
    have := (Marks.leads hl).skipped u j hu hst
    rw [hf] at this
    cases this

omit [DecidableEq Tid] in
theorem G.init (F : Nat → Nat → Prop) :
    G K F (Shared.init : Shared α) (Ghost.init : Ghost Tid α) where
  chain := .init
  val_lt := nofun
  owner_lt := nofun
  val_fin := nofun
  full_val := nofun
  not_taken := nofun
  cell := nofun
  claimed s j _ hlt := by
    have h0 : passed K (Shared.init : Shared α) = 0 := by simp [passed, Shared.init]
    rw [h0] at hlt
    exact absurd hlt (Nat.not_lt_zero _)
  claim_inj := nofun
  claim_lt := nofun
  claim_pend := nofun
  queue := (window_none fun _ _ => rfl).symm

/-- The thread-modular proof of the queue, for the runs that end in `f`. -/
def rule (K : Nat) (f : Config Tid (Shared α) (Loc α)) :
    Rule (manyMachine α Tid K) (fun s => (manyMachine α Tid K).Leads s f)
      (carries (fifo α) Ghost.abs) where
  w₀ := .init
  G := G K fun u j => f.sh.state u j = .full
  L := L K fun u j => f.sh.state u j = .full
  rely := Rely K
  init := ⟨G.init _, fun t => ⟨rfl, rfl⟩⟩
  call := by
    intro s w t c hg hl _ hloc _
    have hlt := hl t
    rw [hloc] at hlt
    obtain ⟨hp, hc⟩ := hlt
    have hpend : (w.abs.set t (some (.new c.ops))).Pend t c.ops [] :=
      ⟨_, Atomic.State.set_pend_self _ _ _⟩
    have hoth : ∀ u, u ≠ t → (w.abs.set t (some (.new c.ops))).pend u = w.abs.pend u :=
      fun u hu => Atomic.State.set_pend_ne _ hu _
    refine ⟨{ w with abs := w.abs.set t (some (.new c.ops)) }, .call hp _, hg.answer hc rfl hoth,
      ?_, .answer hoth⟩
    cases c with
    | push vs => exact PushL_loop ⟨hpend, hc⟩
    | pop => exact ⟨hpend, hc⟩
  step := by
    intro s w t l c sh' l' hg _ hP hP' _ hl hs
    have hsee : Sees _ sh' := Sees.of_leads hP'
    rcases l with l | l
    · obtain ⟨⟨sh₁, l₁⟩, hstep, he⟩ := Option.map_eq_some_iff.1 hs
      cases he
      obtain ⟨w', h1, h2, h3, h4⟩ := push_step hg (.of_leads hP) hsee hl hstep
      exact ⟨w', .steps h1, h2, h3, h4⟩
    · obtain ⟨⟨sh₁, l₁⟩, hstep, he⟩ := Option.map_eq_some_iff.1 hs
      cases he
      obtain ⟨w', h1, h2, h3, h4⟩ := pop_step hg (.of_leads hP) hsee hl hstep
      exact ⟨w', .steps h1, h2, h3, h4⟩
  ret := by
    intro s w t l ans hg hl _ hloc ha
    have hlt := hl t
    rw [hloc] at hlt
    have hpc : w.abs.Pend t [] ans ∧ w.claim t = none := by
      rcases l with l | l <;> cases l <;> cases ha <;> exact hlt
    obtain ⟨⟨seen, hp⟩, hc⟩ := hpc
    have hoth : ∀ u, u ≠ t → (w.abs.set t none).pend u = w.abs.pend u :=
      fun u hu => Atomic.State.set_pend_ne _ hu _
    exact ⟨{ w with abs := w.abs.set t none }, .ret .refl hp, hg.answer hc rfl hoth,
      ⟨Atomic.State.set_pend_self _ _ _, hc⟩, .answer hoth⟩
  stable := fun hu hg _ hl hr => hl.stable hg hu hr

end Rule

end Wtc.Segment.Many
