import Wtc.Cir.Module
import Wtc.Flow.Follow

/-!
# Results that are only handed back

The overrun count of a lifted ring is approximate while operations are in flight. `onlyReturned` is
the check that such a count decides nothing: what the function returns goes back to a caller, as it
is or through the caller's return slot, by every caller and theirs, or is dropped.
-/

namespace Wtc.OnlyReturned

open Wtc.Ir Wtc.Cir Wtc.Flow

variable {B : Type} (M : Module B)

/-- The operation of the function that defines the value. -/
def defOf (h v : Nat) : Option Op := (M.ops h).find? fun o => o.result = some v

/-- The value that a cast is of, under which it still names the same object. -/
def castSource (h v : Nat) : Option Nat :=
  match defOf M h v with
  | some (.pure _ (.cast .bitcast) [x]) => some x
  | some (.pure _ (.cast .arrayToPtrDecay) [x]) => some x
  | some (.pure _ .unrealizedConversionCast [x]) => some x
  | _ => none

def traceToLocalRoot (h v : Nat) : Nat := follow (castSource M h) (M.ops h).length v

/-- Whether every use of the function's symbol is a direct call, and which. -/
def onlyDirectCalls (f : Nat) : Option (List (Nat × Op)) :=
  if M.named.contains f then none
  else if (M.symbolUses f).all fun u => u.2 matches .call _ _ _ then some (M.symbolUses f)
  else none

/-- Whether the value goes to returns only. -/
def returned (h v : Nat) : Bool :=
  !M.tested h v && (M.users h v).all fun u => u.1 matches .ret _

/-- Whether the slot is written by the store at that place alone, and what is loaded from it goes to
returns only. -/
def returnSlot (h slot store : Nat) : Bool :=
  M.isAlloca h slot && !M.tested h slot && (M.users h slot).all fun u =>
    u.2 = store ||
      match u.1 with
      | .lifetime _ => true
      | .load e _ => returned M h e
      | _ => false

/-- One user of what a call in the function returned; `next` goes on with the function's callers. -/
def throughUser (next : List Nat → Option (List Nat)) (h d : Nat) (seen : List Nat) (u : Op × Nat) :
    Option (List Nat) :=
  match u.1 with
  | .ret _ => next seen
  | .store v addr =>
    if v = d ∧ returnSlot M h (traceToLocalRoot M h addr) u.2 then next seen else none
  | _ => none

/-- One call, with its function. -/
def throughCall (next : Nat → List Nat → Option (List Nat)) (seen : List Nat) (call : Nat × Op) :
    Option (List Nat) :=
  match call.2.result with
  | none => some seen
  | some d =>
    if M.tested call.1 d then none
    else (M.users call.1 d).foldlM (throughUser M (next call.1) call.1 d) seen

/-- Whether what `f` returns only ever goes back to a caller, and the functions that pass it on. The
check gives up when there is no depth left. -/
def onlyReturned : Nat → Nat → List Nat → Option (List Nat)
  | 0, _, _ => none
  | depth + 1, f, seen =>
    if f ∈ seen then some seen
    else do (← onlyDirectCalls M f).foldlM (throughCall M (onlyReturned depth)) (f :: seen)

end Wtc.OnlyReturned
