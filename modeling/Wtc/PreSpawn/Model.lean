import Wtc.Nested.Order
import Wtc.Threads.Model

/-!
# What precedes every spawn

`computeSpawns` says which functions can start a thread: those that call a spawn, then those that
call one of these, and once a function whose address is taken can, all that hold an indirect call.
`preSpawnOps` is a pre-order walk of a function up to the first call that can start a thread, or up
to the loop around it.

How the address of a function is used is read off the symbol's uses, one `SymbolUse` each; what is
asked of a value there, such as whether it only reaches the entry of a spawn, is given by the use.
-/

namespace Wtc.PreSpawn

open Wtc.Nested Wtc.Threads

variable {F : Type} [DecidableEq F]

/-- A use of a function's symbol, by its user. -/
inductive SymbolUse (F : Type) where
  /-- `cir::CallOp`, and whether the symbol is its callee. -/
  | call (callee : Bool)
  /-- The `fallback_impl` of `QueuePushOp`, `QueuePopOp`, `LockOp` or `UnlockOp`. -/
  | fallback
  /-- `cir::GetGlobalOp`, and whether its result flows only to the entry of a spawn. -/
  | getGlobal (spawnEntry : Bool)
  /-- The vtable of a `std::thread` state that names its `_M_run`. -/
  | stateVtable
  /-- A member-pointer constant. Each use of it either is no `cir::GetGlobalOp`, or one whose result
  flows only to the entry of a spawn or not. -/
  | memberConstant (uses : List (Option Bool))
  /-- An alias of the function, and whether the link may replace it. -/
  | alias (of : F) (interposable : Bool)
  | other

structure Program (F : Type) extends Threads.Module F where
  /-- The uses of symbols in the module's body, each with the function that it names. -/
  symbolUses : List (F × SymbolUse F)
  /-- It has an aliasee. -/
  isAlias : F → Bool
  /-- An `_M_run` that some constructor was read as starting. -/
  resolvedRun : F → Bool
  /-- It has the name of a function that a `std::thread` runs its callable in. -/
  isInvoker : F → Bool
  /-- `invokeTargets_`: the callables that the indirect call of an invoker was found to run. -/
  invokeTargets : F → List F

/-! ## Addresses -/

def takesAddress (resolvedRun : Bool) : SymbolUse F → Bool
  | .call callee => !callee
  | .fallback => false
  | .getGlobal spawnEntry => !spawnEntry
  | .stateVtable => !resolvedRun
  | .memberConstant uses => uses.isEmpty || uses.any fun u => u ≠ some true
  | .alias _ _ => true
  | .other => true

variable (P : Program F)

/-- The aliases that calls are resolved through, each with its aliasee. -/
def Program.aliases : List (F × F) :=
  P.symbolUses.filterMap fun
    | (fn, .alias of false) => some (of, fn)
    | _ => none

/-- The uses other than those. -/
def Program.plainUses (f : F) : List (SymbolUse F) :=
  P.symbolUses.filterMap fun
    | (_, .alias _ false) => none
    | (fn, use) => if fn = f then some use else none

/-- The address is taken by a use of the function itself. -/
def Program.takenItself (f : F) : Bool := (P.plainUses f).any (takesAddress (P.resolvedRun f))

/-- It is an alias with a use other than a direct call. -/
def Program.aliasTaken (f : F) : Bool :=
  P.isAlias f && (P.plainUses f).any fun
    | .call true => false
    | _ => true

/-- The aliasees of what is taken. -/
def Program.takenByAlias : List F :=
  (Rounds.fix
    (fun x set => if P.aliasTaken x.1 || P.takenItself x.1 || x.1 ∈ set then [x.2] else [])
    P.aliases (P.aliases.length + 1) []).getD []

def Program.isAddressTaken (f : F) : Bool := P.takenItself f || f ∈ P.takenByAlias

/-! ## Functions that can start a thread -/

/-- The function calls a spawn. -/
def Program.spawnsDirectly (f : F) : Bool :=
  (P.calls f).any fun x => x.2.callee.any fun g => P.kind g = .threadSpawn

def Program.hasIndirectCall (f : F) : Bool := (P.calls f).any fun x => x.2.callee.isNone

/-- The functions that call the function, directly or as the invoker of a `std::thread`. -/
def Program.callers (g : F) : List F :=
  P.funcs.filter fun f =>
    ((P.calls f).any fun x => x.2.callee = some g && P.kind g ≠ .threadSpawn && P.hasBody g) ||
    g ∈ P.invokeTargets f

def Program.propagate (fs : List F) : List F :=
  (Rounds.fix (fun g set => if g ∈ set then P.callers g else []) P.funcs (P.funcs.length + 1)
    fs.dedup).getD []

/-- `spawnsCache_` before indirect calls are looked at. -/
def Program.spawnsByCalls : List F := P.propagate (P.funcs.filter P.spawnsDirectly)

def Program.indirectCallCanSpawn : Bool :=
  P.funcs.any fun f => P.hasBody f && f ∈ P.spawnsByCalls && P.isAddressTaken f

def Program.computeSpawns : List F :=
  if P.indirectCallCanSpawn then
    P.propagate (P.spawnsByCalls ++ P.funcs.filter P.hasIndirectCall)
  else P.spawnsByCalls

def Program.canSpawn (f : F) : Bool := f ∈ P.computeSpawns

/-! ## The operations that no spawn precedes -/

/-- Whether the call can start a thread. -/
def Program.callSpawns (c : Call F) : Bool :=
  match c.callee with
  | none => P.indirectCallCanSpawn
  | some g => P.kind g = .threadSpawn || P.hasBody g && P.canSpawn g

/-- Whether a call in the loop can. -/
def Program.loopSpawns (f : F) (p : Pos) : Bool :=
  (P.calls f).any fun x => under p x.1 && P.callSpawns x.2

/-- The pre-order walk. Nothing is inserted once a spawn was seen. -/
def Program.beforeSpawn (P : Program F) (f : F) : List (Pos × Kind (Leaf F)) → List Pos
  | [] => []
  | (p, .loop _) :: rest => if P.loopSpawns f p then [] else p :: P.beforeSpawn f rest
  -- the call itself still is before the spawn
  | (p, .leaf (.call c)) :: rest => if P.callSpawns c then [p] else p :: P.beforeSpawn f rest
  | (p, _) :: rest => p :: P.beforeSpawn f rest

def Program.preSpawnOps (f : F) : List Pos :=
  if P.isUnstructured f && !P.canSpawn f && !(P.indirectCallCanSpawn && P.hasIndirectCall f) then
    (walk (P.body f)).map (·.1)
  else if !P.isUnstructured f then P.beforeSpawn f (walk (P.body f))
  else []

def Program.spawnPrecedes (p : Pos) (f : F) : Bool := p ∉ P.preSpawnOps f

end Wtc.PreSpawn
