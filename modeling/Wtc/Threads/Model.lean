import Wtc.Control.Rounds
import Wtc.Nested.Code

/-!
# The thread-instance walk

`ThreadInstanceWalk` walks the calls and spawns of a module from its roots and keeps one instance
for each way down to a function, with the number of the thread it runs on and whether it stands for
one run or for many. What it asks of other parts of the analysis, such as which function an operand
names, is given by `Queries`, and may answer anything.

An instance is known by its index, which is also the order in which the walk comes to it.
-/

namespace Wtc.Threads

open Wtc.Nested

variable {F : Type} [DecidableEq F]

inductive Mult where
  | one
  | many
  deriving DecidableEq, Repr

def Mult.join : Mult → Mult → Mult
  | .one, .one => .one
  | _, _ => .many

@[simp] theorem Mult.join_eq_one {m m' : Mult} : m.join m' = .one ↔ m = .one ∧ m' = .one := by
  cases m <;> cases m' <;> simp [Mult.join]

/-! ## Modules -/

/-- `cir::CallOp`: the function that it names, if it is a direct call, and whether it is marked as
one that may return twice. -/
structure Call (F : Type) where
  callee : Option F
  returnsTwice : Bool := false
  deriving DecidableEq, Repr

inductive Leaf (F : Type) where
  | call (c : Call F)
  /-- `cir::EhSetjmpOp`. -/
  | setjmp
  | other
  deriving DecidableEq, Repr

inductive SemanticOpKind where
  | unknown
  | threadSpawn
  /-- The other functions that the shim's names are known by. -/
  | shim
  deriving DecidableEq, Repr

structure Module (F : Type) where
  /-- The functions in the module's order. -/
  funcs : List F
  /-- A declaration has no block. -/
  body : F → Region (Leaf F)
  mem_funcs : ∀ f, (body f).isEmpty = false → f ∈ funcs
  kind : F → SemanticOpKind
  main : Option F
  /-- The functions of `cir.global_ctors`. -/
  globalCtors : List F
  /-- Internal or private linkage. -/
  isInternal : F → Bool
  /-- Marked `returns_twice`, or with the name of such a function. -/
  returnsTwice : F → Bool
  /-- The name is `rte_eal_mp_remote_launch`. -/
  launchesAll : F → Bool

variable (M : Module F)

def Module.hasBody (f : F) : Bool := !(M.body f).isEmpty

/-- The calls of a function, in order. -/
def Module.calls (f : F) : List (Pos × Call F) :=
  (walk (M.body f)).filterMap fun x =>
    match x.2 with
    | .leaf (.call c) => some (x.1, c)
    | _ => none

/-- The functions with a body that a function calls directly. -/
def Module.callees (f : F) : List F :=
  (M.calls f).filterMap fun x => x.2.callee.filter M.hasBody

def Module.callAt (f : F) (p : Pos) : Option (Call F) :=
  match (find (M.body f) p).map Op.kind with
  | some (.leaf (.call c)) => some c
  | _ => none

/-- Those that functions of the set call are in it, from `fs` on. -/
def Module.reached (fs : List F) : List F :=
  (Rounds.fix (fun g set => if g ∈ set then M.callees g else []) M.funcs (M.funcs.length + 1)
    fs.dedup).getD []

/-- Whether a function can reach itself by direct calls. -/
def Module.isRecursive (f : F) : Bool := f ∈ M.reached (M.callees f)

def Module.mayReturnTwice (c : Call F) : Bool :=
  c.returnsTwice || c.callee.any M.returnsTwice

def Module.isUnstructured (f : F) : Bool :=
  (walk (M.body f)).any fun x =>
    match x.2 with
    | .goto => true
    | .leaf .setjmp => true
    | .leaf (.call c) => M.mayReturnTwice c
    | _ => false

/-- How often one run of the function runs the call, and whether that is known. -/
def Module.siteMult (f : F) (p : Pos) (c : Call F) : Mult × Bool :=
  if c.callee.any M.launchesAll then (.many, true)
  else if underLoop (M.body f) p then (.many, true)
  else if M.isUnstructured f then (.many, false)
  else (.one, true)

/-! ## The walk -/

structure Instance (F : Type) where
  func : F
  thread : Nat
  /-- How many threads the instance's thread stands for. -/
  threadMult : Mult
  /-- How often the function runs within it. -/
  execMult : Mult
  /-- The call or spawn, in the function of the parent. -/
  site : Option Pos
  parent : Option Nat
  /-- The thread is not one that the module can account for. -/
  speculative : Bool
  /-- It runs before any thread is started. -/
  startup : Bool
  /-- `many` is a guess. -/
  execUnknown : Bool := false
  recurring : Bool := false
  startupUnknown : Bool := false
  /-- It was visited and not expanded. -/
  truncated : Bool := false
  /-- The counted loop that starts the thread, and the instance that holds the loop. -/
  countLoop : Option (Pos × Nat) := none
  deriving DecidableEq, Repr

/-- What the walk asks. Where a query is about an instance, it has the instances so far and the
index of that one. -/
structure Queries (F : Type) where
  relevant : F → Bool
  isAddressTaken : F → Bool
  canSpawn : F → Bool
  /-- Whether a spawn may come before the call in the function. -/
  spawnPrecedes : Pos → F → Bool
  /-- What the entry operand of a spawn resolves to. -/
  entries : List (Instance F) → Nat → Pos → List F
  /-- What an indirect call in the invoker of a `std::thread` may run. -/
  invokeTargets : List (Instance F) → Nat → Pos → List F
  /-- Whether the launch at the place runs its function on the calling thread as well. -/
  callsMain : F → Pos → Bool
  countingLoop : List (Instance F) → Nat → Pos → Option (Pos × Nat)
  isStdThreadCtor : F → Bool
  isResolvedRun : F → Bool
  callableElsewhere : F → Bool

structure Walk (F : Type) where
  instances : List (Instance F) := []
  nextThread : Nat := 0
  capExceeded : Bool := false
  /-- The recurrences that were expanded: through a spawn, or on a thread and in a phase. -/
  expandedRecurrence : List (F × Option (Nat × Bool × Bool)) := []
  deriving Repr

variable {M}

def addInstance (M : Module F) (w : Walk F) (inst : Instance F) : Walk F :=
  let inst := if M.isRecursive inst.func then { inst with execMult := .many } else inst
  { w with instances := w.instances ++ [inst] }

def addIfRoom (M : Module F) (cap : Nat) (w : Walk F) (inst : Instance F) : Walk F :=
  if cap ≤ w.instances.length then { w with capExceeded := true } else addInstance M w inst

/-- An instance with the next thread number. -/
def addThread (M : Module F) (cap : Nat) (w : Walk F) (inst : Nat → Instance F) : Walk F :=
  addIfRoom M cap { w with nextThread := w.nextThread + 1 } (inst w.nextThread)

/-- A root that stands for any number of threads. -/
def manyRoot (f : F) (thread : Nat) : Instance F :=
  ⟨f, thread, .many, .many, none, none, true, false, false, false, false, false, none⟩

/-- A root that the program runs once. -/
def onceRoot (f : F) (thread : Nat) (startup : Bool) : Instance F :=
  ⟨f, thread, .one, .one, none, none, false, startup, false, false, false, false, none⟩

/-- The functions that the program itself starts, each once: the main function, and the global
constructors before it. -/
def Module.starts (M : Module F) : List F :=
  M.main.toList.filter M.hasBody ++ M.globalCtors.filter M.hasBody

/-- Whether a global constructor may start a thread, which ends the start-up phase before the main
function begins. -/
def ctorSpawns (M : Module F) (Q : Queries F) : Bool :=
  (M.globalCtors.filter M.hasBody).any Q.canSpawn

/-- The main function, on a thread of its own. -/
def addMain (M : Module F) (Q : Queries F) (cap : Nat) (w : Walk F) : Walk F :=
  (M.main.toList.filter M.hasBody).foldl
    (fun w f => addThread M cap w fun t => onceRoot f t (!ctorSpawns M Q)) w

/-- The global constructors, on the main thread. -/
def addCtors (M : Module F) (Q : Queries F) (cap : Nat) (w : Walk F) : Walk F :=
  (M.globalCtors.filter M.hasBody).foldl
    (fun w f => addIfRoom M cap w (onceRoot f 0 (!ctorSpawns M Q)))
    { w with nextThread := max w.nextThread 1 }

/-- Roots that may run on any thread, any number of times. -/
def addManyRoots (M : Module F) (cap : Nat) (fs : List F) (w : Walk F) : Walk F :=
  fs.foldl (fun w f => addThread M cap w (manyRoot f)) w

def addRootsForModule (M : Module F) (Q : Queries F) (cap : Nat) (w : Walk F) : Walk F :=
  addManyRoots M cap
    (M.funcs.filter fun f =>
      M.hasBody f && M.kind f = .unknown && Q.isAddressTaken f && Q.relevant f)
    (addCtors M Q cap (addMain M Q cap w))

/-- Whether the repetition of what the instance calls there is certain. -/
def certainlyMany (inst : Instance F) (site : Mult × Bool) : Bool :=
  (inst.execMult = .many && !inst.execUnknown) || (site.2 && site.1 = .many)

def childUnknown (inst : Instance F) (site : Mult × Bool) : Bool :=
  !certainlyMany inst site && (!site.2 || inst.execUnknown)

/-- A function that the instance calls, on the same thread. -/
def calleeChild (M : Module F) (Q : Queries F) (i : Nat) (inst : Instance F) (p : Pos) (c : Call F)
    (callee : F) : Instance F :=
  let site := M.siteMult inst.func p c
  { func := callee, thread := inst.thread, threadMult := inst.threadMult
    execMult := inst.execMult.join site.1, site := some p, parent := some i
    speculative := inst.speculative
    startup := inst.startup && !Q.spawnPrecedes p inst.func
    execUnknown := childUnknown inst site
    startupUnknown := inst.startupUnknown ||
      (inst.startup && M.isUnstructured inst.func && Q.canSpawn inst.func)
    countLoop := inst.countLoop }

/-- A function that the instance starts a thread with. -/
def spawnChild (M : Module F) (i : Nat) (inst : Instance F) (p : Pos) (c : Call F) (entry : F)
    (loop : Option (Pos × Nat)) (thread : Nat) : Instance F :=
  let site := M.siteMult inst.func p c
  let m := inst.execMult.join site.1
  { func := entry, thread := thread, threadMult := m, execMult := m, site := some p,
    parent := some i
    speculative := inst.speculative, startup := false, execUnknown := childUnknown inst site
    countLoop := loop }

/-- One entry of a spawn. -/
def expandEntry (M : Module F) (Q : Queries F) (cap i : Nat) (inst : Instance F) (p : Pos)
    (c : Call F) (w : Walk F) (entry : F) : Walk F :=
  if Q.relevant entry then
    let loop := Q.countingLoop w.instances i p
    let w := addThread M cap w (spawnChild M i inst p c entry loop)
    if c.callee.any M.launchesAll && Q.callsMain inst.func p then
      addIfRoom M cap w (calleeChild M Q i inst p c entry)
    else w
  else w

def expandCall (M : Module F) (Q : Queries F) (cap i : Nat) (inst : Instance F) (w : Walk F)
    (x : Pos × Call F) : Walk F :=
  match x.2.callee with
  | none =>
    ((Q.invokeTargets w.instances i x.1).filter fun t => M.hasBody t && Q.relevant t).foldl
      (fun w t => addIfRoom M cap w (calleeChild M Q i inst x.1 x.2 t)) w
  | some callee =>
    match M.kind callee with
    | .threadSpawn =>
      let entries := Q.entries w.instances i x.1
      if entries.all M.hasBody then entries.foldl (expandEntry M Q cap i inst x.1 x.2) w else w
    | .shim => w
    | .unknown =>
      if M.hasBody callee && Q.relevant callee then
        addIfRoom M cap w (calleeChild M Q i inst x.1 x.2 callee)
      else w

def expand (M : Module F) (Q : Queries F) (cap i : Nat) (inst : Instance F) (w : Walk F) : Walk F :=
  (M.calls inst.func).foldl (expandCall M Q cap i inst) w

/-- The instances above one, the nearest first. -/
def ancestors (insts : List (Instance F)) : Nat → Nat → List Nat
  | 0, _ => []
  | fuel + 1, i =>
    match insts[i]?.bind (·.parent) with
    | none => []
    | some p => p :: ancestors insts fuel p

/-- Whether the instance was started by a spawn. -/
def viaSpawn (M : Module F) (insts : List (Instance F)) (inst : Instance F) : Bool :=
  match inst.parent.bind (insts[·]?), inst.site with
  | some parent, some p =>
    ((M.callAt parent.func p).bind (·.callee)).any fun f => M.kind f = .threadSpawn
  | _, _ => false

/-- The instance, marked as one whose function already is on its chain. -/
def recurrence (spawned : Bool) (inst : Instance F) : Instance F :=
  if spawned then
    { inst with recurring := true, threadMult := .many, execMult := .many, countLoop := none }
  else { inst with recurring := true, execMult := .many }

/-- What a recurrence is expanded once for: through a spawn its function, and otherwise its function
on its thread and in its phase. -/
def recurrenceKey (spawned : Bool) (inst : Instance F) : F × Option (Nat × Bool × Bool) :=
  (inst.func, if spawned then none else some (inst.thread, inst.startup, inst.startupUnknown))

def stepInstance (M : Module F) (Q : Queries F) (cap i : Nat) (inst : Instance F) (w : Walk F) :
    Walk F :=
  if (ancestors w.instances w.instances.length i).any
      fun j => (w.instances[j]?).any (·.func = inst.func) then
    let spawned := viaSpawn M w.instances inst
    let inst' := recurrence spawned inst
    let key := recurrenceKey spawned inst
    if key ∈ w.expandedRecurrence then
      { w with instances := w.instances.set i { inst' with truncated := true } }
    else
      expand M Q cap i inst' { w with
        instances := w.instances.set i inst', expandedRecurrence := key :: w.expandedRecurrence }
  else expand M Q cap i inst w

/-- The walk from one instance on, in the order of the indices. -/
def settle (M : Module F) (Q : Queries F) (cap : Nat) : Nat → Nat → Walk F → Walk F × Nat
  | 0, next, w => (w, next)
  | fuel + 1, next, w =>
    match w.instances[next]? with
    | none => (w, next)
    | some inst => settle M Q cap fuel (next + 1) (stepInstance M Q cap next inst w)

/-- The functions whose callers the module accounts for. -/
def accounted (M : Module F) (Q : Queries F) (w : Walk F) : List F :=
  M.reached (w.instances.map (·.func) ++
    M.funcs.filter fun f => M.hasBody f && (Q.isStdThreadCtor f || Q.isResolvedRun f))

def addOrphanRoots (M : Module F) (Q : Queries F) (cap : Nat) (w : Walk F) : Walk F :=
  let known := accounted M Q w
  addManyRoots M cap
    (M.funcs.filter fun f =>
      M.hasBody f && M.kind f = .unknown && !M.isInternal f &&
        (f ∉ known || Q.callableElsewhere f) && Q.relevant f) w

/-- `ThreadInstanceWalk::run`. There are at most `cap` instances to come to. -/
def run (M : Module F) (Q : Queries F) (cap : Nat) : Walk F :=
  let (w, next) := settle M Q cap cap 0 (addRootsForModule M Q cap {})
  (settle M Q cap cap next (addOrphanRoots M Q cap w)).1

end Wtc.Threads
