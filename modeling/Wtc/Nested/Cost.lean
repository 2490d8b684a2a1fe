import Mathlib.Algebra.BigOperators.Group.List.Basic
import Mathlib.Algebra.Order.Field.Rat
import Mathlib.Algebra.Order.Ring.NNRat
import Mathlib.Data.List.Forall2
import Mathlib.Tactic.Ring
import Wtc.Nested.Code

/-!
# What a run of nested regions costs

Code is told here by what it can do: a `Beh` says which runs there are, each by its cost and by how
it ends. A region has two, the runs from its start and those that begin at one of the cases in it,
where a switch around it may go.

Each construct makes its runs from those of its regions, and has a lemma that bounds what they
cost: the arms of a branch by the larger, the regions of any other by their sum (`Held.atMost`),
a loop by its condition and so many rounds (`LoopFrom.le`).
-/

namespace Wtc.Nested

/-- The runs of some code: what each costs, and how it ends. -/
abbrev Beh := ℚ≥0 → Outcome → Prop

namespace Beh

def AtMost (b : Beh) (u : ℚ≥0) : Prop := ∀ c e, b c e → c ≤ u

/-- There is nothing to run. -/
def nothing : Beh := fun c e => c = 0 ∧ e = .fin

/-- It has not begun. -/
def cut : Beh := fun c e => c = 0 ∧ e = .cut

/-- The same runs where nothing is counted. -/
def free (b : Beh) : Beh := fun c e => c = 0 ∧ ∃ c', b c' e

/-- One after the other, if the first ends in one of those ways. -/
inductive Then (go : Outcome → Prop) (a b : Beh) : Beh where
  | both {c c' e e'} : a c e → go e → b c' e' → Then go a b (c + c') e'
  | leave {c e} : a c e → ¬ go e → Then go a b c e

/-- A body and its clean-up, which runs however the body ends, or only if it throws. -/
inductive Cleaned (always : Bool) (a b : Beh) : Beh where
  | both {c c' e e'} : a c e → e ≠ .cut → always = true ∨ e = .thrown → b c' e' →
      Cleaned always a b (c + c') (e.cleaned e')
  | leave {c e} : a c e → e = .cut ∨ always = false ∧ e ≠ .thrown → Cleaned always a b c e

variable {a b : Beh} {u v : ℚ≥0}

theorem AtMost.mono (h : a.AtMost u) (huv : u ≤ v) : a.AtMost v :=
  fun c e hc => (h c e hc).trans huv

theorem AtMost.sup (ha : a.AtMost u) (hb : b.AtMost u) : (a ⊔ b).AtMost u :=
  fun c e hc => hc.elim (ha c e) (hb c e)

theorem AtMost.bot : (⊥ : Beh).AtMost u := fun _ _ hc => hc.elim

theorem nothing_atMost : nothing.AtMost u := fun _ _ hc => hc.1.trans_le zero_le

theorem cut_atMost : cut.AtMost u := fun _ _ hc => hc.1.trans_le zero_le

theorem free_atMost : a.free.AtMost u := fun _ _ hc => hc.1.trans_le zero_le

theorem AtMost.andThen {go : Outcome → Prop} (ha : a.AtMost u) (hb : b.AtMost v) :
    (Then go a b).AtMost (u + v) := by
  intro c e hc
  cases hc with
  | both h1 _ h2 => exact add_le_add (ha _ _ h1) (hb _ _ h2)
  | leave h1 _ => exact (ha _ _ h1).trans le_self_add

theorem AtMost.cleaned {always : Bool} (ha : a.AtMost u) (hb : b.AtMost v) :
    (Cleaned always a b).AtMost (u + v) := by
  intro c e hc
  cases hc with
  | both h1 _ _ h2 => exact add_le_add (ha _ _ h1) (hb _ _ h2)
  | leave h1 _ => exact (ha _ _ h1).trans le_self_add

end Beh

open Beh

/-! ## Operations that hold regions -/

inductive Held where
  | scope
  | case
  | switch
  | cleanup (always : Bool)
  | attempt
  deriving DecidableEq, Repr

/-- The runs of an operation from its start, or from a case in it, by those of its regions. -/
def Held.runs : Held → List (Bool → Beh) → Bool → Beh
  | .scope, [r], j => r j
  | .case, [r], false => r false
  | .case, [r], true => r false ⊔ r true
  | .switch, [r], false => nothing ⊔ fun c e => ∃ e', r true c e' ∧ e = e'.switched
  | .cleanup always, [b, cl], j => Cleaned always (b j) (cl false)
  | .attempt, b :: hs, false =>
    b false ⊔ Then (· = .thrown) (b false) fun c e => ∃ h ∈ hs, h false c e
  | _, _, _ => ⊥

/-- What bounds the runs of a region, wherever they start. -/
def Bounds (r : Bool → Beh) (u : ℚ≥0) : Prop := ∀ j, (r j).AtMost u

theorem Held.atMost {rs : List (Bool → Beh)} {us : List ℚ≥0} (h : List.Forall₂ Bounds rs us)
    (k : Held) (j : Bool) : (k.runs rs j).AtMost us.sum := by
  unfold Held.runs
  split
  · obtain ⟨u, -, hr, ⟨⟩, rfl⟩ := List.forall₂_cons_left_iff.1 h
    simpa using hr _
  · obtain ⟨u, -, hr, ⟨⟩, rfl⟩ := List.forall₂_cons_left_iff.1 h
    simpa using hr _
  · obtain ⟨u, -, hr, ⟨⟩, rfl⟩ := List.forall₂_cons_left_iff.1 h
    simpa using (hr false).sup (hr true)
  · obtain ⟨u, -, hr, ⟨⟩, rfl⟩ := List.forall₂_cons_left_iff.1 h
    refine nothing_atMost.sup ?_
    rintro c e ⟨e', hc, -⟩
    simpa using hr true c e' hc
  · obtain ⟨u, us, hb, hus, rfl⟩ := List.forall₂_cons_left_iff.1 h
    obtain ⟨v, -, hcl, ⟨⟩, rfl⟩ := List.forall₂_cons_left_iff.1 hus
    simpa using (hb _).cleaned (hcl false)
  · obtain ⟨u, us, hb, hhs, rfl⟩ := List.forall₂_cons_left_iff.1 h
    rw [List.sum_cons]
    refine ((hb false).mono le_self_add).sup ((hb false).andThen ?_)
    -- one of the handlers costs at most what all of them do
    rintro c e ⟨r, hr, hc⟩
    clear h hb
    induction hhs with
    | nil => cases hr
    | @cons r' v rs us hv _ ih =>
      rw [List.sum_cons]
      rcases List.mem_cons.1 hr with rfl | hr
      · exact (hv false c e hc).trans le_self_add
      · exact (ih hr).trans le_add_self
  · exact AtMost.bot

/-! ## Loops -/

/-- What a loop runs in each phase: its condition, its body and its step, if it has one. -/
def phase (rs : List (Bool → Beh)) (k : Nat) : Bool → Beh := rs[k]?.getD fun _ => nothing

/-- Runs of a loop from one of its phases on, with `n` rounds left. -/
inductive LoopFrom (R : Nat → Bool → Beh) : Nat → Bool → Nat → Beh where
  | exit {j n c} : R 0 j c .fin → LoopFrom R 0 j n c .fin
  | leave {k j n n' c e} : R k j c e → e ≠ .fin → e ≠ .cont → n = n' + (if k = 1 then 1 else 0) →
      LoopFrom R k j n c e.switched
  | go {k j n n' c e c' e'} : R k j c e → e = .fin ∨ e = .cont ∧ k = 1 →
      n = n' + (if k = 1 then 1 else 0) → LoopFrom R (nextPhase k) false n' c' e' →
      LoopFrom R k j n (c + c') e'

/-- What is left to spend in a phase, where the three regions cost `uc`, `ub` and `us`. -/
def budget (uc ub us : ℚ≥0) : Nat → Nat → ℚ≥0
  | 0, n => uc + (uc + ub + us) * n
  | 1, n => (uc + ub + us) * n
  | _, n => us + (uc + (uc + ub + us) * n)

theorem LoopFrom.le {R : Nat → Bool → Beh} {uc ub us : ℚ≥0} (h0 : Bounds (R 0) uc)
    (h1 : Bounds (R 1) ub) (h2 : ∀ k, 2 ≤ k → Bounds (R k) us) {k n : Nat} {j : Bool} {c : ℚ≥0}
    {e : Outcome} (h : LoopFrom R k j n c e) : c ≤ budget uc ub us k n := by
  -- the phase itself, and what is left for the phases after it
  have first : ∀ {k n n' j c e}, R k j c e → n = n' + (if k = 1 then 1 else 0) →
      c + budget uc ub us (nextPhase k) n' ≤ budget uc ub us k n := by
    rintro k n n' j c e hc rfl
    match k with
    | 0 => exact add_le_add_left (h0 j c e hc) _
    | 1 =>
      calc c + (us + (uc + (uc + ub + us) * n'))
          ≤ ub + (us + (uc + (uc + ub + us) * n')) := add_le_add_left (h1 j c e hc) _
        _ = (uc + ub + us) * ((n' + 1 : Nat) : ℚ≥0) := by push_cast; ring
    | k + 2 => exact add_le_add_left (h2 _ (by omega) j c e hc) _
  induction h with
  | exit hc => exact le_self_add.trans (first hc rfl)
  | leave hc _ _ hn => exact le_self_add.trans (first hc hn)
  | go hc _ hn _ ih => exact (add_le_add_right ih _).trans (first hc hn)

/-- One round of a loop. The one with its condition last has no step. -/
def round (k : LoopKind) (R : Nat → Bool → Beh) : Beh :=
  if k = .doLoop then Then (fun e => e = .fin ∨ e = .cont) (R 1 false) (R 0 false)
  else Then (· = .fin) (R 0 false)
    (Then (fun e => e = .fin ∨ e = .cont) (R 1 false) (R 2 false))

theorem round_atMost {R : Nat → Bool → Beh} {uc ub us : ℚ≥0} (h0 : Bounds (R 0) uc)
    (h1 : Bounds (R 1) ub) (h2 : Bounds (R 2) us) (k : LoopKind) :
    (round k R).AtMost (uc + ub + us) := by
  unfold round
  split
  · refine ((h1 false).andThen (h0 false)).mono ?_
    rw [add_comm ub uc]
    exact le_self_add
  · rw [add_assoc]
    exact (h0 false).andThen ((h1 false).andThen (h2 false))

end Wtc.Nested
