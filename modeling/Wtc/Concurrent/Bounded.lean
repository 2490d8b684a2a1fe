import Wtc.Concurrent.History

/-!
# The bounded queue

The sequential queue that holds at most `cap` elements.

* `bounded` — a push on a full queue is refused; an overrunning push removes the oldest element
  first; a batch is put in or taken out as far as there is room or there are elements
-/

namespace Wtc.Concurrent

variable {α : Type}

/-- The operations of a bounded queue. -/
inductive BoundedOp (α : Type) where
  | push (v : α)
  | overrun (v : α)
  | pop
  | pushN (vs : List α)
  | popN (n : Nat)
  | size
  deriving DecidableEq, Repr

/-- The answers. `pushed` says whether the element was put in, `overran` whether one was lost. -/
inductive BoundedAns (α : Type) where
  | pushed (ok : Bool)
  | overran (lost : Bool)
  | popped (v : Option α)
  | pushedN (k : Nat)
  | poppedN (vs : List α)
  | size (n : Nat)
  deriving DecidableEq, Repr

/-- One operation on the elements in the queue, oldest first. With no room at all an overrunning
push loses its own element. -/
def boundedStep (cap : Nat) (q : List α) : BoundedOp α → BoundedAns α × List α
  | .push v => if q.length = cap then (.pushed false, q) else (.pushed true, q ++ [v])
  | .overrun v =>
    if cap = 0 then (.overran true, q)
    else if q.length = cap then (.overran true, q.tail ++ [v])
    else (.overran false, q ++ [v])
  | .pop => (.popped q.head?, q.tail)
  | .pushN vs => (.pushedN (min vs.length (cap - q.length)), q ++ vs.take (cap - q.length))
  | .popN n => (.poppedN (q.take n), q.drop n)
  | .size => (.size q.length, q)

/-- The sequential bounded queue. -/
def bounded (α : Type) (cap : Nat) : Object (List α) (BoundedOp α) (BoundedAns α) where
  init := []
  step q op a q' := boundedStep cap q op = (a, q')
  det := by
    intro q op a q₁ q₂ h₁ h₂
    exact (Prod.mk.inj (h₁.symm.trans h₂)).2

/-- The queue never holds more than its capacity. -/
theorem bounded_length_le {cap : Nat} {q q' : List α} {op : BoundedOp α} {a : BoundedAns α}
    (hq : q.length ≤ cap) (h : (bounded α cap).step q op a q') : q'.length ≤ cap := by
  obtain rfl : (boundedStep cap q op).2 = q' := congrArg Prod.snd h
  cases op with
  | push v =>
    simp only [boundedStep]
    split
    · exact hq
    · simp only [List.length_append, List.length_singleton]
      omega
  | overrun v =>
    simp only [boundedStep]
    split
    · exact hq
    · split
      · simp only [List.length_append, List.length_singleton, List.length_tail]
        omega
      · simp only [List.length_append, List.length_singleton]
        omega
  | pop =>
    simp only [boundedStep, List.length_tail]
    omega
  | pushN vs =>
    simp only [boundedStep, List.length_append, List.length_take]
    omega
  | popN n =>
    simp only [boundedStep, List.length_drop]
    omega
  | size => exact hq

end Wtc.Concurrent
