import Wtc.Control.Exec
import Wtc.Control.Fuel

/-!
# The borrow analysis

`BorrowChecker`: does a pop of a queue only borrow its element? It follows the popped `shared_ptr`
(`checkSlotUses`), every pointer into the element that is got from it (`checkPointer`), also into
functions (`paramOnlyBorrows`), and looks for another pop of the queue in the scope of the element
(`checkScope`, `mayPop`).

Functions and values are numbered. The procedures run on fuel: an amount of fuel is how deeply their
calls may nest, and they have no answer where it does not suffice.
-/

namespace Wtc.Borrow

open Wtc.Control Wtc.Fuel

inductive CastKind where
  | bitcast
  | arrayToPtrDecay
  | ptrToBool
  | other
  deriving DecidableEq, Repr

/-- A pop: the value of the queue, the queues the analysis has found it to act on, the element type
of the queue's type, and where the element goes. `number` tells pops apart. -/
structure Pop where
  number : Nat
  queue : Nat
  queueId : Option Int
  queueIds : Option (List Int)
  element : Option Nat
  out : Option Nat
  transfer : Bool
  deriving DecidableEq, Repr

inductive Op where
  | alloca (d : Nat)
  | load (d addr : Nat)
  | store (v addr : Nat)
  | copy (dst src : Nat)
  | cmp (d x y : Nat)
  | getMember (d x : Nat)
  | getElement (d x index : Nat)
  | ptrStride (d x stride : Nat)
  | cast (d : Nat) (kind : CastKind) (x : Nat)
  | baseClassAddr (d x : Nat)
  | lifetimeStart (x : Nat)
  | lifetimeEnd (x : Nat)
  /-- A call with its operands, the called pointer among them if it is indirect. `callee` is what
  `lookupCallee` finds, `targets` what `indirectCallees` does. -/
  | call (d : Option Nat) (callee : Option Nat) (targets : List Nat) (args : List Nat)
  | push (d : Option Nat) (queue value : Nat) (more : List Nat)
  | pushDeferred (queue value : Nat) (more : List Nat)
  | pop (p : Pop)
  | ret (xs : List Nat)
  | other (name : String) (d : Option Nat) (xs : List Nat)
  deriving DecidableEq, Repr

def Op.result : Op → Option Nat
  | .alloca d | .load d _ | .cmp d _ _ | .getMember d _ | .getElement d _ _ | .ptrStride d _ _
  | .cast d _ _ | .baseClassAddr d _ => some d
  | .call d _ _ _ | .push d _ _ _ | .other _ d _ => d
  | _ => none

def Op.operands : Op → List Nat
  | .alloca _ => []
  | .load _ x | .getMember _ x | .cast _ _ x | .baseClassAddr _ x | .lifetimeStart x
  | .lifetimeEnd x => [x]
  | .store x y | .copy x y | .cmp _ x y | .getElement _ x y | .ptrStride _ x y => [x, y]
  | .call _ _ _ xs | .ret xs | .other _ _ xs => xs
  | .push _ q v more | .pushDeferred q v more => q :: v :: more
  | .pop p => p.queue :: p.out.toList

def Op.name : Op → String
  | .alloca _ => "cir.alloca"
  | .load _ _ => "cir.load"
  | .store _ _ => "cir.store"
  | .copy _ _ => "cir.copy"
  | .cmp _ _ _ => "cir.cmp"
  | .getMember _ _ => "cir.get_member"
  | .getElement _ _ _ => "cir.get_element"
  | .ptrStride _ _ _ => "cir.ptr_stride"
  | .cast _ _ _ => "cir.cast"
  | .baseClassAddr _ _ => "cir.base_class_addr"
  | .lifetimeStart _ => "cir.lifetime.start"
  | .lifetimeEnd _ => "cir.lifetime.end"
  | .call _ _ _ _ => "cir.call"
  | .push _ _ _ _ => "wtc.queue_push"
  | .pushDeferred _ _ _ => "wtc.queue_push_deferred"
  | .pop _ => "wtc.queue_pop"
  | .ret _ => "cir.return"
  | .other name _ _ => name

/-- An operand of an operation: `OpOperand`. -/
structure Use where
  user : Op
  number : Nat
  deriving DecidableEq, Repr

/-- The operands of the operations that are the value. -/
def usesIn (ops : List Op) (v : Nat) : List Use :=
  ops.flatMap fun o => (o.operands.zipIdx.filter fun x => x.1 = v).map fun x => ⟨o, x.2⟩

/-- What a function of the standard library is to a `shared_ptr`, by its name. -/
inductive SharedPtrMember where
  | none
  | bool
  | get
  | deref
  | arrow
  | dtor
  | compareNull
  deriving DecidableEq, Repr

structure Func where
  name : String
  member : SharedPtrMember
  /-- The arguments of the entry block. -/
  args : List Nat
  body : Option (Code Op Nat)

def Func.ops (f : Func) : List Op := (f.body.map Code.ops).getD []

/-- A module. An operation's result is numbered above its operands, which are computed before it,
and the uses of a value are listed in any order. -/
structure Module where
  funcs : List Func
  uses : Nat → List Use
  uses_perm : ∀ v, (uses v).Perm (usesIn (funcs.flatMap Func.ops) v)
  dominated : ∀ o ∈ funcs.flatMap Func.ops, ∀ d, o.result = some d → ∀ x ∈ o.operands, x < d

def Module.ops (m : Module) : List Op := m.funcs.flatMap Func.ops

def Module.body (m : Module) (f : Nat) : Option (Code Op Nat) := m.funcs[f]?.bind (·.body)

def Module.definingOp (m : Module) (v : Nat) : Option Op := m.ops.find? fun o => o.result = some v

/-- What an error points at. -/
inductive Place where
  | op (o : Op)
  | func (f : Nat)
  deriving DecidableEq, Repr

/-- The operation that computes the value, or the function it is an argument of. -/
def Module.placeOf (m : Module) (v : Nat) : Place :=
  match m.definingOp v with
  | some o => .op o
  | none => .func (m.funcs.findIdx fun f => v ∈ f.args)

structure Refusal where
  at_ : Place
  why : String
  deriving DecidableEq, Repr

/-- `classifySharedPtrCall`, of the function called. -/
def Module.member (m : Module) (callee : Option Nat) : SharedPtrMember :=
  ((callee.bind fun f => m.funcs[f]?).map (·.member)).getD .none

def Module.calleeName (m : Module) (callee : Option Nat) : String :=
  match callee with
  | none => "an indirect callee"
  | some f => (m.funcs[f]?.map (·.name)).getD ""

/-! ## Slots -/

/-- What the users of one value say of an address, with the operations seen and the values to look
at. -/
def escapesBy (v : Nat) : List Use → List Op → List Nat → Option (List Op × List Nat)
  | [], seen, work => some (seen, work)
  | u :: us, seen, work =>
    match u.user with
    | .store value _ => if value = v then none else escapesBy v us seen work
    | o =>
      if o ∈ seen then escapesBy v us seen work
      else
        match o with
        | .load _ _ | .lifetimeStart _ | .lifetimeEnd _ => escapesBy v us (o :: seen) work
        | .cast d _ _ | .getMember d _ | .getElement d _ _ | .ptrStride d _ _ =>
          escapesBy v us (o :: seen) (d :: work)
        | _ => none

/-- The loop of `addressEscapes`, which looks at so many values. -/
def Module.escapesWithin (m : Module) : Nat → List Op → List Nat → Bool
  | _, _, [] => false
  | 0, _, _ :: _ => true
  | guard + 1, seen, v :: work =>
    match escapesBy v (m.uses v) seen work with
    | none => true
    | some (seen, work) => m.escapesWithin guard seen work

def Module.addressEscapes (m : Module) (slot : Nat) : Bool := m.escapesWithin 512 [] [slot]

/-- The loads from a slot. -/
def Module.loadsOf (m : Module) (slot : Nat) : List Nat :=
  (m.uses slot).filterMap fun u =>
    match u.user with
    | .load d _ => some d
    | _ => none

/-! ## Pointers into the element -/

/-- What a use of a pointer asks for. -/
inductive Asks where
  | nothing
  | refused (why : String)
  /-- The pointer goes on as these values. -/
  | follow (vs : List Nat)
  /-- It becomes an argument of a function. -/
  | borrow (f index : Nat) (why : String)
  deriving DecidableEq, Repr

def goesOn : CastKind → Nat → Asks
  | .bitcast, d => .follow [d]
  | .arrayToPtrDecay, d => .follow [d]
  | .ptrToBool, _ => .nothing
  | .other, _ => .refused "a pointer into the element is converted to an integer"

/-- The cases of `checkPointer`. -/
def Module.asks (m : Module) (p : Nat) (u : Use) : Asks :=
  let used := Asks.refused ("a pointer into the element is used by " ++ u.user.name)
  match u.user with
  | .load _ _ | .cmp _ _ _ | .copy _ _ => .nothing
  | .store v addr =>
    if v ≠ p then .nothing
    else
      match m.definingOp addr with
      | some (.alloca slot) =>
        if m.addressEscapes slot then
          .refused "a pointer into the element is stored where it may outlive the borrow"
        else .follow (m.loadsOf slot)
      | _ => .refused "a pointer into the element is stored where it may outlive the borrow"
  | .getMember d _ => .follow [d]
  | .getElement d _ _ =>
    if u.number ≠ 0 then .refused "a pointer into the element is used as an index"
    else .follow [d]
  | .ptrStride d _ _ =>
    if u.number ≠ 0 then .refused "a pointer into the element is used as a stride"
    else .follow [d]
  | .cast d kind _ => goesOn kind d
  | .call _ callee _ _ =>
    match callee with
    | none => .refused "a pointer into the element is passed to an indirect call"
    | some f =>
      if (m.body f).isNone then
        .refused ("a pointer into the element is passed to " ++ m.calleeName callee ++
          ", whose body is not visible here")
      else
        .borrow f u.number ("a pointer into the element is passed to " ++ m.calleeName callee ++
          ", which keeps it or passes it on")
  | .push _ _ v _ => if v = p then .nothing else used
  | .pushDeferred _ v _ => if v = p then .nothing else used
  | .ret _ => .refused "a pointer into the element is returned"
  | _ => used

/-- `paramMemo`: the function only borrows through the parameter. -/
abbrev ParamMemo := Nat × Nat → Option Bool

def ParamMemo.set (memo : ParamMemo) (key : Nat × Nat) (ok : Bool) : ParamMemo :=
  fun k => if k = key then some ok else memo k

/-- The argument of the entry block. -/
def Module.arg (m : Module) (f index : Nat) : Option Nat := m.funcs[f]?.bind fun f => f.args[index]?

/-- `paramOnlyBorrows`, with the check of the argument it makes. A parameter that is being checked
is taken to be fine. -/
def Module.paramOnlyBorrows (m : Module)
    (check : Nat → ParamMemo → Option (Option Refusal × ParamMemo)) (f index : Nat)
    (memo : ParamMemo) : Option (Bool × ParamMemo) :=
  match memo (f, index) with
  | some ok => some (ok, memo)
  | none =>
    match m.arg f index with
    | none => some (false, (memo.set (f, index) true).set (f, index) false)
    | some a =>
      match check a (memo.set (f, index) true) with
      | none => none
      | some (r, memo) => some (r.isNone, memo.set (f, index) r.isNone)

def Module.checkUse (m : Module)
    (check : Nat → Nat → ParamMemo → Option (Option Refusal × ParamMemo)) (p depth : Nat) (u : Use)
    (memo : ParamMemo) : Option (Option Refusal × ParamMemo) :=
  match m.asks p u with
  | .nothing => some (none, memo)
  | .refused why => some (some ⟨.op u.user, why⟩, memo)
  | .follow vs => firstOf (fun v => check v depth) vs memo
  | .borrow f index why =>
    match m.paramOnlyBorrows (fun a => check a (depth + 1)) f index memo with
    | none => none
    | some (ok, memo) => some (if ok then none else some ⟨.op u.user, why⟩, memo)

def Module.checkPointer (m : Module) :
    Nat → Nat → Nat → ParamMemo → Option (Option Refusal × ParamMemo)
  | 0, _, _, _ => none
  | fuel + 1, p, depth, memo =>
    if depth > 8 then
      some (some ⟨m.placeOf p, "a pointer into the element is followed through too many calls"⟩,
        memo)
    else firstOf (m.checkUse (m.checkPointer fuel) p depth) (m.uses p) memo

/-! ## The popped `shared_ptr` -/

/-- What a use of the popped `shared_ptr` asks for. -/
inductive SlotAsks where
  | nothing
  | refused (why : String)
  /-- The slot goes on as this value. -/
  | same (v : Nat)
  /-- A pointer to the element is got from it. -/
  | element (p : Nat)
  deriving DecidableEq, Repr

/-- A pointer to the element, if the call returns it. -/
def elementOf : Option Nat → SlotAsks
  | some p => .element p
  | none => .refused "an access to the element returns nothing to follow"

/-- The cases of `checkSlotUses`. -/
def Module.slotAsks (m : Module) (pop : Pop) (o : Op) : SlotAsks :=
  let used := SlotAsks.refused ("the popped shared_ptr is used by " ++ o.name)
  if o = .pop pop then .nothing
  else
    match o with
    | .lifetimeStart _ | .lifetimeEnd _ => .nothing
    | .baseClassAddr d _ => .same d
    | .cast d kind _ => if kind = .bitcast then .same d else used
    | .call d callee _ _ =>
      match m.member callee with
      | .bool | .dtor | .compareNull => .nothing
      | .get | .deref | .arrow => elementOf d
      | .none => .refused ("the popped shared_ptr is passed to " ++ m.calleeName callee)
    | _ => used

def Module.checkSlotUse (m : Module) (pop : Pop)
    (checkSlot : Nat → ParamMemo → Option (Option Refusal × ParamMemo))
    (check : Nat → ParamMemo → Option (Option Refusal × ParamMemo)) (u : Use) (memo : ParamMemo) :
    Option (Option Refusal × ParamMemo) :=
  match m.slotAsks pop u.user with
  | .nothing => some (none, memo)
  | .refused why => some (some ⟨.op u.user, why⟩, memo)
  | .same v => checkSlot v memo
  | .element p => check p memo

def Module.checkSlotUses (m : Module) (pop : Pop) :
    Nat → Nat → ParamMemo → Option (Option Refusal × ParamMemo)
  | 0, _, _ => none
  | fuel + 1, v, memo =>
    firstOf (m.checkSlotUse pop (m.checkSlotUses pop fuel) fun p => m.checkPointer fuel p 0)
      (m.uses v) memo

/-! ## Another pop -/

/-- The queue that is checked: `curId` and `curType`. -/
structure Queue where
  id : Int
  type : Nat
  deriving DecidableEq, Repr

/-- `popsSameQueue`. A pop that the ownership analysis could not place may act on any queue of the
type. -/
def Queue.popped (q : Queue) (other : Pop) : Bool :=
  match other.queueId, other.queueIds, other.element with
  | some id, _, _ => id == q.id
  | none, some ids, _ => ids.contains q.id
  | none, none, none => true
  | none, none, some t => t == q.type

/-- `popMemo`: the function may pop the queue. -/
abbrev PopMemo := Nat → Option Bool

def PopMemo.set (memo : PopMemo) (f : Nat) (may : Bool) : PopMemo :=
  fun g => if g = f then some may else memo g

/-- Some target of a call may pop. -/
def anyOf (mayPop : Nat → PopMemo → Option (Bool × PopMemo)) :
    List Nat → PopMemo → Option (Bool × PopMemo)
  | [], memo => some (false, memo)
  | t :: ts, memo =>
    match mayPop t memo with
    | none => none
    | some (may, memo) =>
      match anyOf mayPop ts memo with
      | none => none
      | some (may', memo) => some (may || may', memo)

/-- A call may pop. One whose targets are not known could be anything. -/
def callMayPop (mayPop : Nat → PopMemo → Option (Bool × PopMemo)) (callee : Option Nat)
    (targets : List Nat) (memo : PopMemo) : Option (Bool × PopMemo) :=
  match callee with
  | some f => mayPop f memo
  | none => if targets = [] then some (true, memo) else anyOf mayPop targets memo

/-- What the walk of a function says of one operation, if it may pop. -/
def opMayPop (q : Queue) (mayPop : Nat → PopMemo → Option (Bool × PopMemo)) (o : Op)
    (memo : PopMemo) : Option (Option Unit × PopMemo) :=
  match o with
  | .pop other => some (if q.popped other then some () else none, memo)
  | .call _ callee targets _ =>
    match callMayPop mayPop callee targets memo with
    | none => none
    | some (may, memo) => some (if may then some () else none, memo)
  | _ => some (none, memo)

def Module.mayPop (m : Module) (q : Queue) : Nat → Nat → PopMemo → Option (Bool × PopMemo)
  | 0, _, _ => none
  | fuel + 1, f, memo =>
    match m.body f with
    | none => some (false, memo)
    | some body =>
      match memo f with
      | some may => some (may, memo)
      | none =>
        -- a cycle adds nothing the other paths do not
        match firstOf (opMayPop q (m.mayPop q fuel)) body.ops (memo.set f false) with
        | none => none
        | some (r, memo) => some (r.isSome, memo.set f r.isSome)

/-- What `checkScope` says of one operation. -/
def Module.scopeOp (m : Module) (q : Queue) (pop : Pop)
    (mayPop : Nat → PopMemo → Option (Bool × PopMemo)) (o : Op) (memo : PopMemo) :
    Option (Option Refusal × PopMemo) :=
  match o with
  | .pop other =>
    some (if other ≠ pop ∧ q.popped other then
      some ⟨.op o, "the same queue is popped again while the element is borrowed"⟩ else none, memo)
  | .call _ callee targets _ =>
    if m.member callee ≠ .none then some (none, memo)
    else
      match callMayPop mayPop callee targets memo with
      | none => none
      | some (may, memo) =>
        some (if may then
          some ⟨.op o, "a call to " ++ m.calleeName callee ++
            " may pop the same queue while the element is borrowed"⟩ else none, memo)
  | _ => some (none, memo)

/-- The first refusal in the scope of the element. -/
def Module.checkScope (m : Module) (q : Queue) (fuel : Nat) (scope : Code Op Nat) (pop : Pop) :
    Option (Option Refusal × PopMemo) :=
  firstOf (m.scopeOp q pop (m.mayPop q fuel)) scope.ops fun _ => none

/-! ## A pop -/

/-- A block below this one that has such an operation of its own. -/
def innerBlock (p : Op → Bool) : Code Op Nat → Option (Code Op Nat)
  | .op _ rest => innerBlock p rest
  | .node _ r₁ r₂ r₃ rest =>
    let pick (r : Code Op Nat) (below : Option (Code Op Nat)) :=
      if r.top.any p then some r else below
    (pick r₁ (innerBlock p r₁)).orElse fun _ => (pick r₂ (innerBlock p r₂)).orElse fun _ =>
      (pick r₃ (innerBlock p r₃)).orElse fun _ => innerBlock p rest
  | _ => none

/-- The region that the slot stands in. -/
def Module.regionOf (m : Module) (slot : Nat) : Option (Code Op Nat) :=
  m.funcs.findSome? fun f => f.body.bind fun b =>
    if b.top.any (· = .alloca slot) then some b else innerBlock (· = .alloca slot) b

/-- `checkPop`. -/
def Module.checkPop (m : Module) (fuel : Nat) (pop : Pop) (q : Queue) (memo : ParamMemo) :
    Option (Option Refusal × ParamMemo) :=
  let refused (why : String) : Option (Option Refusal × ParamMemo) :=
    some (some ⟨.op (.pop pop), why⟩, memo)
  if pop.transfer then some (none, memo)
  else
    match pop.out with
    | none => refused "the popped value is not returned through a slot"
    | some out =>
      match m.definingOp out, m.regionOf out with
      | some (.alloca slot), some scope =>
        if .pop pop ∉ scope.ops then refused "the pop is outside the scope of its slot"
        else
          match m.checkSlotUses pop fuel slot memo with
          | none => none
          | some (some r, memo) => some (some r, memo)
          | some (none, memo) =>
            match m.checkScope q fuel scope pop with
            | none => none
            | some (r, _) => some (r, memo)
      | _, _ => refused "the popped value is written somewhere other than a local slot"

end Wtc.Borrow
