import Mathlib.Algebra.Group.Int.Defs
import Mathlib.Algebra.Group.Nat.Defs
import Wtc.Control.Exec

/-!
# Counted loops

What `countedLoop` reads as a loop whose iterations a bound counts, and the test `atMostOnce` that
`WTCSpecialize` makes from it.

A function is structured code over operations on numbered values. An operation other than those the
pass looks at is `other`, or a `call`, of which the values it uses are known. The stack slots and
globals that such an operation may write are those whose address it can have: a slot whose address
goes nowhere but to its own loads and stores is written by those alone.
-/

namespace Wtc.Counted

open Wtc.Control

/-- `cir::IntType`. -/
structure IntType where
  width : Nat
  signed : Bool
  deriving DecidableEq, Repr

/-- The number of the type that a number is, kept in its width. -/
def IntType.wrap (t : IntType) (x : Int) : Int :=
  if t.signed then Int.bmod x (2 ^ t.width) else x % 2 ^ t.width

def int64 : IntType := ⟨64, true⟩

/-- `IntAttr::getSInt`: the bits of a constant, read as a signed number of 64 bits. -/
def IntType.getSInt (t : IntType) (x : Int) : Int := int64.wrap (Int.bmod x (2 ^ t.width))

/-- `IntAttr::get`: a 64-bit number as a constant of the type. -/
def IntType.attr (t : IntType) (x : Int) : Int := if t.signed then t.wrap x else t.wrap (x % 2 ^ 64)

inductive CmpKind where
  | lt
  | le
  | gt
  | ge
  | eq
  | ne
  deriving DecidableEq, Repr

def CmpKind.holds : CmpKind → Int → Int → Bool
  | .lt, x, y => x < y
  | .le, x, y => x ≤ y
  | .gt, x, y => x > y
  | .ge, x, y => x ≥ y
  | .eq, x, y => x = y
  | .ne, x, y => x ≠ y

/-- Operations. `d` is the value that an operation computes. -/
inductive Op where
  | alloca (d : Nat)
  | getGlobal (d g : Nat)
  | const (d : Nat) (k : Int)
  | load (d addr : Nat)
  | store (v addr : Nat)
  | inc (d x : Nat)
  | add (d x y : Nat)
  | cmp (d : Nat) (kind : CmpKind) (x y : Nat)
  /-- The marks of a slot's lifetime. -/
  | lifetime (addr : Nat)
  | call (d : Option Nat) (callee : Nat) (args : List Nat)
  | other (d : Option Nat) (uses : List Nat)
  deriving DecidableEq, Repr

def Op.result : Op → Option Nat
  | .alloca d => some d
  | .getGlobal d _ => some d
  | .const d _ => some d
  | .load d _ => some d
  | .store _ _ => none
  | .inc d _ => some d
  | .add d _ _ => some d
  | .cmp d _ _ _ => some d
  | .lifetime _ => none
  | .call d _ _ => d
  | .other d _ => d

def Op.operands : Op → List Nat
  | .alloca _ => []
  | .getGlobal _ _ => []
  | .const _ _ => []
  | .load _ addr => [addr]
  | .store v addr => [v, addr]
  | .inc _ x => [x]
  | .add _ x y => [x, y]
  | .cmp _ _ x y => [x, y]
  | .lifetime addr => [addr]
  | .call _ _ args => args
  | .other _ uses => uses

/-- Conditions are values. `type` is the type of the values that are integers. -/
structure Func where
  code : Code Op Nat
  type : Nat → Option IntType

def Func.intType (f : Func) (v : Nat) : IntType := (f.type v).getD ⟨32, true⟩

/-- `getDefiningOp`. -/
def Func.defOf (f : Func) (v : Nat) : Option Op := f.code.ops.find? (·.result = some v)

/-- One operation of a block: a plain one, or one that holds regions. -/
inductive Item where
  | op (o : Op)
  | node (n : Node Nat) (r₁ r₂ r₃ : Code Op Nat)

def Item.ops : Item → List Op
  | .op o => [o]
  | .node _ r₁ r₂ r₃ => r₁.ops ++ r₂.ops ++ r₃.ops

/-- A block of the given operations, and then some code. -/
def block : List Item → Code Op Nat → Code Op Nat
  | [], rest => rest
  | .op o :: items, rest => .op o (block items rest)
  | .node n r₁ r₂ r₃ :: items, rest => .node n r₁ r₂ r₃ (block items rest)

/-! ## The pass -/

/-- `CountedLoop`: the load of the bound, the start value and whether the bound is included. -/
structure CountedLoop where
  bound : Nat
  boundAddr : Nat
  first : Int
  inclusive : Bool
  deriving DecidableEq, Repr

/-- The comparison of the loop's condition: the load of `i`, the load of the bound, and whether the
bound is included. -/
def orient (kind : CmpKind) (x y : Nat) : Option (Nat × Nat × Bool) :=
  match kind with
  | .lt => some (x, y, false)
  | .le => some (x, y, true)
  | .gt => some (y, x, false)
  | .ge => some (y, x, true)
  | _ => none

/-- The address a value is loaded from. -/
def Func.loadedFrom (f : Func) (v : Nat) : Option Nat :=
  match f.defOf v with
  | some (.load _ addr) => some addr
  | _ => none

def Func.isAlloca (f : Func) (v : Nat) : Bool :=
  match f.defOf v with
  | some (.alloca _) => true
  | _ => false

def Func.isGlobal (f : Func) (v : Nat) : Bool :=
  match f.defOf v with
  | some (.getGlobal _ _) => true
  | _ => false

/-- A use of the slot that reads or writes it and nothing else. -/
def usesDirectly (slot : Nat) (o : Op) : Bool :=
  match o with
  | .load _ _ => true
  | .lifetime _ => true
  | .store v addr => addr == slot || v != slot
  | _ => !o.operands.contains slot

def storesTo (slot : Nat) : Op → Bool
  | .store _ addr => addr == slot
  | _ => false

/-- The stored value is `i + 1`. -/
def Func.byOne (f : Func) (slot v : Nat) : Bool :=
  match f.defOf v with
  | some (.inc _ x) => f.loadedFrom x == some slot
  | some (.add _ x y) =>
    match f.defOf y with
    | some (.const _ k) => (f.intType y).getSInt k == 1 && f.loadedFrom x == some slot
    | _ => false
  | _ => false

/-- Inside the loop only the step writes the slot, once, adding one. -/
def Func.stepsByOne (f : Func) (slot : Nat) (l : Loop Op Nat) : Bool :=
  !l.cond.ops.any (storesTo slot) && !l.body.ops.any (storesTo slot) &&
    match l.step.ops.filter (storesTo slot) with
    | [.store v _] => f.byOne slot v
    | _ => false

/-- The constant that is stored into the slot last before the loop. `before` are the operations of
the loop's block before it, the nearest first. -/
def Func.startOf (f : Func) (slot : Nat) : List Item → Option (IntType × Int)
  | [] => none
  | .op (.store v addr) :: items =>
    if addr = slot then
      match f.defOf v with
      | some (.const _ k) => some (f.intType v, k)
      | _ => none
    else f.startOf slot items
  | .op _ :: items => f.startOf slot items
  | .node n r₁ r₂ r₃ :: items =>
    if (Item.node n r₁ r₂ r₃).ops.any (storesTo slot) then none else f.startOf slot items

/-- The comparison at the end of the loop's condition, as it is written. -/
def Func.compared (f : Func) (l : Loop Op Nat) : Option (Nat × Nat × Bool) :=
  match f.defOf l.c with
  | some (.cmp _ kind x y) => if (f.type x).isSome then orient kind x y else none
  | _ => none

/-- `countedLoop`, of a `for` loop. -/
def Func.countedLoop (f : Func) (before : List Item) (l : Loop Op Nat) : Option CountedLoop :=
  match f.compared l with
  | none => none
  | some (ind, bound, inclusive) =>
    match f.loadedFrom ind, f.loadedFrom bound with
    | some slot, some boundAddr =>
      if !f.isAlloca slot || boundAddr == slot || !(f.isGlobal boundAddr || f.isAlloca boundAddr)
      then none
      else if !f.code.ops.all (usesDirectly slot) || !f.stepsByOne slot l then none
      else (f.startOf slot before).map fun s => ⟨bound, boundAddr, s.1.getSInt s.2, inclusive⟩
    | _, _ => none

/-- `atMostOnce`: the test that is emitted, of the value `n` of the bound. -/
def atMostOnce (t : IntType) (c : CountedLoop) (n : Int) : Bool :=
  n ≤ t.attr (int64.wrap (c.first + if c.inclusive then 0 else 1))

/-! ## What the operations do -/

inductive Loc where
  | slot (d : Nat)
  | global (g : Nat)
  deriving DecidableEq, Repr

/-- The slot or global that an address is known to be of. -/
def Func.loc (f : Func) (addr : Nat) : Option Loc :=
  match f.defOf addr with
  | some (.alloca d) => some (.slot d)
  | some (.getGlobal _ g) => some (.global g)
  | _ => none

/-- A slot whose address goes nowhere. -/
def Func.kept (f : Func) : Loc → Prop
  | .slot d => ∀ o ∈ f.code.ops, usesDirectly d o
  | .global _ => False

/-- The values computed, and the memory. -/
structure Store where
  env : Nat → Int
  mem : Loc → Int

def Store.set (x : Store) (d : Nat) (v : Int) : Store :=
  { x with env := fun w => if w = d then v else x.env w }

def Store.write (x : Store) (p : Loc) (v : Int) : Store :=
  { x with mem := fun q => if q = p then v else x.mem q }

/-- The value of an operand; constants are the same everywhere. -/
def Func.eval (f : Func) (x : Store) (v : Nat) : Int :=
  match f.defOf v with
  | some (.const _ k) => (f.intType v).wrap k
  | _ => x.env v

/-- The memory changes where code that has no kept slot's address may write. -/
def Func.disturbs (f : Func) (x x' : Store) : Prop :=
  x'.env = x.env ∧ ∀ p, f.kept p → x'.mem p = x.mem p

def boolInt (b : Bool) : Int := if b then 1 else 0

inductive Func.Does (f : Func) : Op → Store → Store → Prop where
  | alloca {d x} : f.Does (.alloca d) x x
  | getGlobal {d g x} : f.Does (.getGlobal d g) x x
  | const {d k x} : f.Does (.const d k) x x
  | lifetime {a x} : f.Does (.lifetime a) x x
  | load {d a p x} : f.loc a = some p → f.Does (.load d a) x (x.set d (x.mem p))
  /-- Through an address that is not known, any value is read and any memory that such an address
  may be of is written. -/
  | loadAny {d a v x} : f.loc a = none → f.Does (.load d a) x (x.set d v)
  | store {v a p x} : f.loc a = some p → f.Does (.store v a) x (x.write p (f.eval x v))
  | storeAny {v a x x'} : f.loc a = none → f.disturbs x x' → f.Does (.store v a) x x'
  | inc {d y x} : f.Does (.inc d y) x (x.set d ((f.intType d).wrap (f.eval x y + 1)))
  | add {d y z x} :
    f.Does (.add d y z) x (x.set d ((f.intType d).wrap (f.eval x y + f.eval x z)))
  | cmp {d kind y z x} :
    f.Does (.cmp d kind y z) x (x.set d (boolInt (kind.holds (f.eval x y) (f.eval x z))))
  | call {d callee args v x x'} : f.disturbs x x' →
    f.Does (.call (some d) callee args) x (x'.set d v)
  | callVoid {callee args x x'} : f.disturbs x x' → f.Does (.call none callee args) x x'
  | other {d uses v x x'} : f.disturbs x x' → f.Does (.other (some d) uses) x (x'.set d v)
  | otherVoid {uses x x'} : f.disturbs x x' → f.Does (.other none uses) x x'

/-- A comparison decides by its value; any other condition goes any way. -/
def Func.decides (f : Func) (c : Nat) (x : Store) (n : Nat) : Prop :=
  match f.defOf c with
  | some (.cmp _ _ _ _) => (n = 0 ↔ x.env c = 0)
  | _ => True

def Func.sem (f : Func) : Sem Op Nat Store := ⟨f.Does, f.decides, f.disturbs⟩

/-! ## Runs of the loop's block -/

/-- A run of code that has entered the body of the loop `n` times; `base` is what is below the loop
on the stack, and every state passed is `P`. -/
inductive Runs {O C σ : Type} (S : Sem O C σ) (l : Loop O C) (base : List (Frame O C))
    (P : List (Frame O C) × σ → Prop) (c₀ : List (Frame O C) × σ) :
    Nat → List (Frame O C) × σ → Prop where
  | start : P c₀ → Runs S l base P c₀ 0 c₀
  | enter {n m x} : Runs S l base P c₀ n (.test l :: base, x) → S.decides l.c x m → m ≠ 0 →
    P (.block l.body :: .body l :: base, x) →
    Runs S l base P c₀ (n + 1) (.block l.body :: .body l :: base, x)
  | step {n c c'} : Runs S l base P c₀ n c → Step S c c' →
    ¬ (c.1 = .test l :: base ∧ c'.1 = .block l.body :: .body l :: base) → P c' →
    Runs S l base P c₀ n c'

/-- The loop is being run. -/
def Inside {O C : Type} (l : Loop O C) (base k : List (Frame O C)) : Prop :=
  ∃ w f, k = w ++ f :: base ∧ (f = .test l ∨ f = .body l ∨ f = .step l)

/-- What comes after the loop in its block. -/
def base : List (Frame Op Nat) := [.block .done]

/-- While the loop runs, the bound is `n`. -/
def Func.Steady (f : Func) (l : Loop Op Nat) (c : CountedLoop) (n : Int)
    (s : List (Frame Op Nat) × Store) : Prop :=
  Inside l base s.1 → ∀ p, f.loc c.boundAddr = some p → s.2.mem p = n

end Wtc.Counted
