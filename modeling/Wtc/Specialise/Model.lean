import Wtc.Counted.Model
import Wtc.Nested.Order

/-!
# Choosing an implementation when the queue is built

`WTCSpecialize` rewrites the constructor of a queue with a side whose threads one counted loop
starts: the loop's bound is read just before the constructor, and the tag is chosen by whether the
loop will run at most once. This is the part of the pass that decides whether the value read there
is the value that the loop will run with, for a loop in the function that builds the queue, a loop
one call down (`boundThrough`) and a queue built one call down (`builderCall`).

Functions are named by numbers, and so are the values of one function. The leaves of a function are
the operations that `Wtc.Counted` has.
-/

namespace Wtc.Specialise

open Wtc.Nested

abbrev Leaf := Counted.Op

open Counted (IntType CountedLoop usesDirectly)

/-! ## Modules -/

/-- The operations without regions, in order, each with its place. -/
def leavesOf (r : Region Leaf) : List (Pos × Leaf) :=
  (walk r).filterMap fun x =>
    match x.2 with
    | .leaf o => some (x.1, o)
    | _ => none

structure Func where
  /-- A declaration has no block. -/
  body : Region Leaf
  /-- The block arguments of the body. -/
  params : List Nat
  type : Nat → Option IntType
  /-- Every value is computed at one place. -/
  ssa : ∀ {x y : Pos × Leaf} {v : Nat}, x ∈ leavesOf body → y ∈ leavesOf body →
    x.2.result = some v → y.2.result = some v → x = y
  params_ssa : ∀ x ∈ leavesOf body, ∀ v ∈ params, x.2.result ≠ some v

def Func.leaves (f : Func) : List (Pos × Leaf) := leavesOf f.body

/-- The operation that computes a value. -/
def Func.defOf (f : Func) (v : Nat) : Option Leaf :=
  (f.leaves.find? (·.2.result = some v)).map (·.2)

def Func.leafAt (f : Func) (p : Pos) : Option Leaf :=
  match (find f.body p).map Op.kind with
  | some (.leaf o) => some o
  | _ => none

/-- A function and an operation of it. -/
structure Site where
  func : Nat
  pos : Pos
  deriving DecidableEq, Repr

structure Module where
  funcs : List Nat
  func : Nat → Func
  mem_funcs : ∀ f, (func f).body ≠ [] → f ∈ funcs
  /-- Some attribute is a `global_view` of the global. -/
  viewed : Nat → Bool
  isAlias : Nat → Bool
  /-- The loop, and the call, that carries a number. -/
  loopNumbered : Nat → Option Site
  viaNumbered : Nat → Option Site
  /-- What `countedLoop` reads the loop as. Its bound is loaded in the loop. -/
  countedLoop : Site → Option CountedLoop
  counted_bound : ∀ {s l}, countedLoop s = some l →
    ∃ q, (q, .load l.bound l.boundAddr) ∈ (func s.func).leaves ∧ under s.pos q = true
  takesTopologyTag : Site → Bool
  /-- The tag that a constructor call passes, if it is a constant. -/
  tag : Site → Option Int

/-! ## Order in a function -/

inductive Order where
  | before
  | notBefore
  | inLoop
  deriving DecidableEq, Repr

def Order.of (looped before : Bool) : Order :=
  if before then if looped then .inLoop else .before else .notBefore

/-- Whether the one operation runs before the other, whatever path is taken. `looped` is that a loop
is around the region. -/
def order (r : Region Leaf) (looped : Bool) : Pos → Pos → Order
  | .inside l k p, .inside l' k' q =>
    if l = l' then
      match opAt r l with
      | some o => if k = k' then order (o.region k) (looped || o.isLoop) p q else .notBefore
      | none => .notBefore
    else .of looped (l.before l')
  | p, q => .of looped (p.loc.before q.loc)

/-- `DominanceInfo::properlyDominates`. -/
def dominates : Pos → Pos → Bool
  | .here l, q => l.before q.loc
  | .inside l k p, .inside l' k' q => l = l' && k = k' && dominates p q
  | _, _ => false

/-! ## The bound -/

/-- Where a side's count is read in the function that builds the queue: the variable of the loop's
bound, at the loop, or, for a loop one call down, the variable whose value the call passes for it,
at the call. -/
structure SideBound where
  l : CountedLoop
  loop : Site
  /-- The variable read: a slot or a global of the function of `site`. -/
  addr : Nat
  /-- The loop, or the call that runs it. -/
  site : Site
  /-- For a loop one call down: the value that the call passes, and the parameter that it is. -/
  via : Option (Nat × Nat) := none
  deriving DecidableEq, Repr

/-- In the first block of the body itself. -/
def inEntry : Pos → Bool
  | .here l => l.block = 0
  | _ => false

/-- One use of the slot: nothing but loads, lifetime marks and stores of parameters to it, in the
entry block. -/
def keepUse (f : Func) (slot : Nat) (x : Pos × Leaf) (found : Option (List Nat)) :
    Option (List Nat) :=
  match x.2 with
  | .load _ _ => found
  | .lifetime _ => found
  | .store v addr =>
    if addr = slot ∧ v ∈ f.params ∧ inEntry x.1 then found.map (v :: ·) else none
  | _ => none

/-- The parameters that are stored to the slot, if its uses are such ones. -/
def keptParams (f : Func) (slot : Nat) : Option (List Nat) :=
  (f.leaves.filter (·.2.operands.contains slot)).foldr (keepUse f slot) (some [])

def boundThrough (M : Module) (loop : Site) (l : CountedLoop) (via : Site) :
    Except String SideBound :=
  match (M.func via.func).leafAt via.pos with
  | some (.call _ callee args) =>
    if callee ≠ loop.func then
      .error "the call recorded for the loop does not call its function"
    else
    match (M.func loop.func).defOf l.boundAddr with
    | some (.alloca slot) =>
      match keptParams (M.func loop.func) slot with
      | some [param] =>
        match args[(M.func loop.func).params.idxOf param]? with
        | none => .error "the call passes no value for the loop's bound"
        | some v =>
          match (M.func via.func).defOf v with
          | some (.load _ addr) =>
            if (M.func via.func).type v = (M.func loop.func).type param then
              .ok ⟨l, loop, addr, via, some (v, param)⟩
            else .error "the call passes the loop's bound as something other than a variable"
          | _ => .error "the call passes the loop's bound as something other than a variable"
      | some [] => .error "the loop's bound is not a parameter of its function"
      | _ => .error "the loop's bound is not a parameter its function keeps as it is"
    | _ => .error "the loop's bound is not a parameter of its function"
  | _ => .error "the call recorded for the loop does not call its function"

/-- Why a use of the bound's address, in the function `g`, may be a write after the queue is
built. -/
def useUnsettled (M : Module) (site : Site) (g addr : Nat) (x : Pos × Leaf) : Option String :=
  match x.2 with
  | .load _ _ => none
  | .lifetime _ => none
  | .store _ a =>
    if a ≠ addr then some "the loop's bound has its address taken"
    else if g ≠ site.func then some "the loop's bound is written in another function"
    else if order (M.func g).body false x.1 site.pos ≠ .before then
      some "the loop's bound may be written after the queue is built"
    else none
  | _ => some "the loop's bound has its address taken"

def storesUnsettled (M : Module) (site : Site) (g addr : Nat) : Option String :=
  ((M.func g).leaves.filter (·.2.operands.contains addr)).findSome? (useUnsettled M site g addr)

/-- The values of a function that are the address of the global. -/
def Func.globalAddrs (f : Func) (g : Nat) : List Nat :=
  f.leaves.filterMap fun x =>
    match x.2 with
    | .getGlobal d g' => if g' = g then some d else none
    | _ => none

def globalUnsettled (M : Module) (site : Site) (g : Nat) : Option String :=
  if M.viewed g then some "the loop's bound has its address taken"
  else M.funcs.findSome? fun f =>
    ((M.func f).globalAddrs g).findSome? (storesUnsettled M site f)

/-- Why the bound might not be, at the constructor or the call that builds the queue, the value that
the loop will read. -/
def boundUnsettled (M : Module) (site : Site) (b : SideBound) : Option String :=
  if b.site.func ≠ site.func then
    some "the queue is built outside the function whose loop starts its threads"
  else
    match order (M.func site.func).body false site.pos b.site.pos with
    | .notBefore => some "the queue is not built before the loop that starts its threads"
    | .inLoop => some "the queue is built in a loop around the loop that starts its threads"
    | .before =>
      match (M.func site.func).leaves.find? (·.2.result = some b.addr) with
      | some (p, .alloca _) =>
        if dominates p site.pos then storesUnsettled M site site.func b.addr
        else some "the loop's bound is a variable the queue's constructor cannot see"
      | some (_, .getGlobal _ g) => globalUnsettled M site g
      | _ => some "the loop's bound is neither a variable nor a global"

/-! ## The rewrite -/

/-- The places where a function calls another. -/
def callsOf (M : Module) (f callee : Nat) : List Pos :=
  (M.func f).leaves.filterMap fun x =>
    match x.2 with
    | .call _ g _ => if g = callee then some x.1 else none
    | _ => none

/-- The one call, in `anchor`, of the function that builds the queue. -/
def builderCall (M : Module) (ctor : Site) (anchor : Nat) : Except String Site :=
  match callsOf M anchor ctor.func with
  | [] => .error "the queue is built outside the function whose loop starts its threads"
  | [p] =>
    if underLoop (M.func ctor.func).body ctor.pos then
      .error "the queue is built in a loop of the function that builds it"
    else if callsOf M ctor.func ctor.func ≠ [] then
      .error "the function that builds the queue calls itself"
    else if M.isAlias ctor.func ∨ (M.func ctor.func).body.isEmpty then
      .error "the function that builds the queue has no body here"
    else .ok ⟨anchor, p⟩
  | _ => .error ("the function that builds the queue is called more than once by the one whose " ++
      "loop starts its threads")

/-- The attributes of a queue's root: the loop that starts each side's threads, and the call that
runs it. -/
structure Root where
  producersLoop : Option Nat
  consumersLoop : Option Nat
  producersVia : Option Nat
  consumersVia : Option Nat
  deriving DecidableEq, Repr

/-- Where the choice is made, and what is read there. -/
structure Rewrite where
  site : Site
  /-- The constructor is in the function that the call at `site` runs. -/
  builder : Bool
  producers : Option SideBound
  consumers : Option SideBound
  deriving DecidableEq, Repr

/-- The bounds that are read. -/
def Rewrite.sides (r : Rewrite) : List SideBound := r.producers.toList ++ r.consumers.toList

/-- The bound of one side, if the root names a loop for it; an error has a remark or none. -/
def sideBound (M : Module) (id viaId : Option Nat) : Except (Option String) (Option SideBound) :=
  match id with
  | none => .ok none
  | some id =>
    match M.loopNumbered id with
    | none => .error none
    | some loop =>
      match M.countedLoop loop with
      | none => .error none
      | some l =>
        match viaId with
        | none => .ok (some ⟨l, loop, l.boundAddr, loop, none⟩)
        | some viaId =>
          match M.viaNumbered viaId with
          | none => .error none
          | some via =>
            match boundThrough M loop l via with
            | .error why => .error (some why)
            | .ok b => .ok (some b)

/-- The site at which the choice is made, given the function that runs the loops. -/
def choiceSite (M : Module) (ctor : Site) (anchor : Nat) : Except String Site :=
  if ctor.func = anchor then .ok ctor else builderCall M ctor anchor

/-- The rewrite, once the bounds are known. -/
def choose (M : Module) (ctor : Site) (producers consumers : Option SideBound) :
    Except (Option String) Rewrite :=
  match producers.toList ++ consumers.toList with
  | [] => .error none
  | b :: bs =>
    if bs.any (·.site.func ≠ b.site.func) then
      .error (some "the loops that start its threads are run by different functions")
    else
      match choiceSite M ctor b.site.func with
      | .error why => .error (some why)
      | .ok site =>
        match (b :: bs).findSome? (boundUnsettled M site) with
        | some why => .error (some why)
        | none => .ok ⟨site, site ≠ ctor, producers, consumers⟩

/-- What is done about one queue; an error is a refusal, with the text of its remark if there is one
about the loop. -/
def specialiseAtRunTime (M : Module) (root : Root) (ctors : List Site) :
    Except (Option String) Rewrite :=
  match ctors with
  | [ctor] =>
    if !M.takesTopologyTag ctor || M.tag ctor ≠ some 0 then .error none
    else
      match sideBound M root.producersLoop root.producersVia,
        sideBound M root.consumersLoop root.consumersVia with
      | .ok producers, .ok consumers => choose M ctor producers consumers
      | .error why, _ => .error why
      | _, .error why => .error why
  | _ => .error none

end Wtc.Specialise
