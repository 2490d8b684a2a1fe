import Mathlib.Logic.Relation

/-!
# Following steps

A partial function that is followed for so many steps, or up to its end.
-/

namespace Wtc.Flow

/-- So many steps, or up to the end. -/
def follow (step : Nat → Option Nat) : Nat → Nat → Nat
  | 0, v => v
  | n + 1, v =>
    match step v with
    | some x => follow step n x
    | none => v

variable {step : Nat → Option Nat} {v x : Nat}

/-- The one is got from the other by steps. -/
abbrev Steps (step : Nat → Option Nat) : Nat → Nat → Prop :=
  Relation.ReflTransGen fun v x => step v = some x

theorem steps_cons {r : Nat} (hs : step v = some x) (h : Steps step x r) : Steps step v r :=
  Relation.ReflTransGen.head (r := fun v x => step v = some x) hs h

theorem steps_follow (n v : Nat) : Steps step v (follow step n v) := by
  induction n generalizing v with
  | zero => exact .refl
  | succ n ih =>
    unfold follow
    cases hs : step v with
    | none => exact .refl
    | some x => exact steps_cons hs (ih x)

/-- Steps to smaller numbers come to an end. -/
theorem follow_end (hlt : ∀ v x, step v = some x → x < v) {n : Nat} (hn : v ≤ n) :
    step (follow step n v) = none := by
  induction n generalizing v with
  | zero =>
    obtain rfl : v = 0 := by omega
    cases hs : step 0 with
    | none => exact hs
    | some x => exact absurd (hlt 0 x hs) (by omega)
  | succ n ih =>
    unfold follow
    cases hs : step v with
    | none => exact hs
    | some x =>
      have := hlt v x hs
      exact ih (by omega)

/-- There is one end. -/
theorem steps_end_unique {r r' : Nat} (h : Steps step v r) (h' : Steps step v r')
    (hr : step r = none) (hr' : step r' = none) : r = r' := by
  induction h using Relation.ReflTransGen.head_induction_on with
  | refl =>
    rcases h'.cases_head with rfl | ⟨y, hy, -⟩
    · rfl
    · simp [hr] at hy
  | head hs _ ih =>
    rcases h'.cases_head with rfl | ⟨y, hy, hrest⟩
    · simp [hr'] at hs
    · obtain rfl := Option.some.inj (hs.symm.trans hy)
      exact ih hrest

end Wtc.Flow
