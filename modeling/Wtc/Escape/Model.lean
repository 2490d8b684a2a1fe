import Wtc.Control.Rounds
import Wtc.Flow.Follow

/-!
# Where the address of a queue may be kept

The part of `poisonEscapes` that finds, for one queue type, the objects that may hold the address of
such a queue: `taintedRoots`. It grows the set in rounds over the stores and copies of the module.

Values, functions, globals and types are numbered. Which types are, hold or point to the queue type
is given by `holds`.
-/

namespace Wtc.Escape

open Wtc.Rounds
open Wtc.Flow

inductive CastKind where
  | bitcast
  | arrayToPtrDecay
  | other
  deriving DecidableEq, Repr

inductive Op where
  | alloca (d : Nat)
  /-- The address of a global variable, or of something else. -/
  | getGlobal (d : Nat) (g : Option Nat)
  /-- A call with the function it names, if it is direct, and its arguments. -/
  | call (d : Option Nat) (callee : Option Nat) (args : List Nat)
  | load (d addr : Nat)
  | store (v addr : Nat)
  | copy (dst src : Nat)
  | getMember (d addr : Nat)
  | ptrStride (d base stride : Nat)
  | getElement (d base index : Nat)
  | cast (d : Nat) (kind : CastKind) (src : Nat)
  | unrealizedCast (d : Nat) (xs : List Nat)
  | other (d : Option Nat) (xs : List Nat)
  deriving DecidableEq, Repr

def Op.result : Op → Option Nat
  | .alloca d | .getGlobal d _ | .load d _ | .getMember d _ | .ptrStride d _ _ | .getElement d _ _
  | .cast d _ _ | .unrealizedCast d _ => some d
  | .call d _ _ | .other d _ => d
  | _ => none

def Op.operands : Op → List Nat
  | .alloca _ | .getGlobal _ _ => []
  | .call _ _ xs | .unrealizedCast _ xs | .other _ xs => xs
  | .load _ x | .getMember _ x | .cast _ _ x => [x]
  | .store x y | .copy x y | .ptrStride _ x y | .getElement _ x y => [x, y]

/-- A global variable: its type, and the globals whose addresses its initialiser names. -/
structure Global where
  type : Nat
  names : List Nat
  deriving DecidableEq, Repr

/-- A module: its operations in the order of a walk, the arguments of each function's entry block,
and its global variables. A value is computed once, after what it is computed from. -/
structure Module where
  ops : List Op
  funcs : List (List Nat)
  globals : List Global
  type : Nat → Nat
  isPointer : Nat → Bool
  holds : Nat → Bool
  once : (ops.filterMap Op.result).Nodup
  dominated : ∀ o ∈ ops, ∀ d, o.result = some d → ∀ x ∈ o.operands, x < d
  fresh : ∀ args ∈ funcs, ∀ v ∈ args, ∀ o ∈ ops, o.result ≠ some v

def Module.definingOp (m : Module) (v : Nat) : Option Op := m.ops.find? fun o => o.result = some v

/-- The function that has the value as an argument of its entry block, and which one it is. -/
def Module.argOf (m : Module) (v : Nat) : Option (Nat × Nat) :=
  m.funcs.zipIdx.findSome? fun x => (x.1.idxOf? v).map fun i => (x.2, i)

/-- An object: what an allocation or a call gives, or a global variable. -/
inductive Obj where
  | result (d : Nat)
  | global (g : Nat)
  deriving DecidableEq, Repr

/-! ## What a pointer points into -/

/-- The value that this one is under another type. -/
def Module.localStep (m : Module) (v : Nat) : Option Nat :=
  match m.definingOp v with
  | some (.cast _ .bitcast src) => some src
  | some (.cast _ .arrayToPtrDecay src) => some src
  | some (.unrealizedCast _ [x]) => some x
  | _ => none

/-- `traceToLocalRoot`. A step goes to a smaller number, so there are no more than `v`. -/
def Module.traceToLocalRoot (m : Module) (v : Nat) : Nat := follow m.localStep v v

/-- The address that a member, an element or a stride is of. -/
def Module.partOf (m : Module) (v : Nat) : Option Nat :=
  match m.definingOp v with
  | some (.getMember _ addr) => some addr
  | some (.ptrStride _ base _) => some base
  | some (.getElement _ base _) => some base
  | _ => none

/-- `rootOf`: through at most eight members, elements and strides. -/
def Module.rootOf (m : Module) (v : Nat) : Nat :=
  follow (fun a => (m.partOf a).map m.traceToLocalRoot) 8 (m.traceToLocalRoot v)

/-- `callersOfFunc`: the arguments of each direct call. -/
def Module.callersOf (m : Module) (f : Nat) : List (List Nat) :=
  m.ops.filterMap fun
    | .call _ callee args => if callee = some f then some args else none
    | _ => none

/-- What is passed for a parameter. -/
def Module.passed (m : Module) (f i : Nat) : List Nat := (m.callersOf f).filterMap (·[i]?)

/-- The values stored in a slot. -/
def Module.storedIn (m : Module) (slot : Nat) : List Nat :=
  m.ops.filterMap fun
    | .store v addr => if addr = slot then some v else none
    | _ => none

/-- The slot that a value is loaded from. -/
def Module.slotOf (m : Module) (addr : Nat) : Option Nat :=
  match m.definingOp (m.traceToLocalRoot addr) with
  | some (.alloca slot) => some slot
  | _ => none

/-- What a root is, if it is no parameter: an object, or loaded from a slot. -/
def Module.objectsAt (m : Module) (a : Nat) : List Obj :=
  match m.definingOp a with
  | some (.getGlobal _ g) => g.toList.map .global
  | some (.alloca d) => [.result d]
  | some (.call (some d) _ _) => [.result d]
  | _ => []

/-- What may be the value of a root: what callers pass for a parameter, what is stored in the slot
it is loaded from. -/
def Module.sourcesOf (m : Module) (a : Nat) : List Nat :=
  match m.argOf a with
  | some (f, i) => m.passed f i
  | none =>
    match m.definingOp a with
    | some (.load _ addr) => ((m.slotOf addr).map m.storedIn).getD []
    | _ => []

/-- `pointees`, where `depth` counts down from nine. -/
def Module.pointees (m : Module) : Nat → Nat → List Obj
  | 0, _ => []
  | depth + 1, addr =>
    let a := m.rootOf addr
    (if (m.argOf a).isSome then [] else m.objectsAt a) ++
      (m.sourcesOf a).flatMap (m.pointees depth)

/-! ## What carries the address of a queue -/

/-- The value that this one is converted from, by a cast of any kind. -/
def Module.castStep (m : Module) (v : Nat) : Option Nat :=
  match m.definingOp v with
  | some (.cast _ _ src) => some src
  | some (.unrealizedCast _ [x]) => some x
  | _ => none

/-- A value and those it is converted from, within so many steps. -/
def Module.conversions (m : Module) : Nat → Nat → List Nat
  | 0, v => [v]
  | n + 1, v =>
    match m.castStep v with
    | some x => v :: m.conversions n x
    | none => [v]

def Module.tainted (m : Module) (set : List Obj) (addr : Nat) : Bool :=
  (m.pointees 9 addr).any (· ∈ set)

/-- The address that a value is loaded from. -/
def Module.loadedFrom (m : Module) (v : Nat) : Option Nat :=
  match m.definingOp v with
  | some (.load _ addr) => some addr
  | _ => none

/-- `carries`, where `depth` counts down from nine. -/
def Module.carries (m : Module) (set : List Obj) : Nat → Nat → Bool
  | 0, _ => false
  | depth + 1, v =>
    let r := follow m.castStep v v
    (m.conversions v v).any (fun x => m.holds (m.type x)) ||
      (m.isPointer (m.type r) && m.tainted set r) ||
      (m.loadedFrom r).any (m.tainted set) ||
      match m.argOf r with
      | some (f, i) => (m.passed f i).any (m.carries set depth)
      | none => false

/-! ## The rounds -/

/-- The value or source, and the destination, of a store or a copy. -/
def Op.write : Op → Option (Nat × Nat)
  | .store v addr => some (v, addr)
  | .copy dst src => some (src, dst)
  | _ => none

/-- The globals whose initialiser names a queue. -/
def Module.initial (m : Module) : List Obj :=
  (m.globals.zipIdx.filter fun g =>
    g.1.names.any fun n => (m.globals[n]?).any fun viewed => m.holds viewed.type).map fun g =>
      .global g.2

end Wtc.Escape
