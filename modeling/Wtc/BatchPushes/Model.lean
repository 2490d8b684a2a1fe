import Wtc.BlockingQuery.Properties
import Wtc.Control.Step
import Mathlib.Logic.Function.Basic

/-!
# Pushes published together

The model of `WTCBatchPushesPass`: which loops it accepts (`check`), what it makes of one
(`rewrite`), and the run of a loop by its thread, once from its entry. The other threads may change
the memory at any time.

Of a queue there are the elements this thread has made visible (`stream`) and those it has put into
cells and not published, where a push is deferred in place (`cells`). Elsewhere a batch keeps a run
of elements beside the queue, and `push_run` moves them over. All this runs functions of the element
type, which the module may hold: a push copies or moves its element, `push_run` moves the elements
of the run into cells, takes them back where a cell or a segment is lost to another thread, and the
run's own elements are destroyed at the end.
-/

namespace Wtc.BatchPushes

open Wtc.Control
open Wtc.BlockingQuery (Kind OpKind Site)

variable {F C Mem V : Type}

/-! ## Operations -/

/-- An address as an operand: the value, and the global it is the address of if `get_global`
defines it. Casts have been looked through. -/
structure Handle where
  value : Nat
  global : Option Nat
  deriving DecidableEq, Repr

/-- The functions of the element type, each as the operation that runs it. -/
structure Element (F : Type) where
  /-- The constructor by which a push makes its element, copying or moving. -/
  take : OpKind F
  move : OpKind F
  /-- Move assignment. -/
  assign : OpKind F
  destroy : OpKind F
  deriving DecidableEq, Repr

structure Push (F : Type) where
  queue : Handle
  value : Nat
  bounded : Bool
  element : Element F
  deriving DecidableEq, Repr

/-- The operations of the wtc dialect. -/
inductive WtcOp (F : Type) where
  | push (p : Push F)
  | queueBatchBegin (p : Push F)
  | pushDeferred (p : Push F)
  | queueBatchEnd (p : Push F)
  | other
  /-- From here on: what is left of an operation that has begun. None is in a module, only on the
  stack of a run. First, of a push, or of a deferred one, whose element has been made. -/
  | made (p : Push F) (deferred : Bool)
  /-- Of `push_run`, with `n` elements. -/
  | flush (p : Push F) (n : Nat)
  /-- Of `push_run`, when `j` elements have been moved into cells. -/
  | settle (p : Push F) (n j : Nat)
  /-- Of `batch_end`, when everything has been published. -/
  | close (p : Push F)
  deriving DecidableEq, Repr

/-- What the pass looks at beyond the query. -/
inductive Tag (F : Type) where
  /-- An operation of ClangIR: its name, whether it synchronises (an atomic or volatile access, a
  fence, assembly that orders memory), and the value it computes. -/
  | cir (name : String) (synchronises : Bool) (result : Option Nat)
  | label
  | wtc (w : WtcOp F)
  deriving DecidableEq, Repr

abbrev Op (F : Type) := BlockingQuery.Op F (Tag F)

def dialect (o : Op F) : Option (WtcOp F) :=
  match o.tag with
  | .wtc w => some w
  | _ => none

/-- The value that the operation computes. -/
def result (o : Op F) : Option Nat :=
  match o.tag with
  | .cir _ _ v => v
  | _ => none

/-- A module as the query reads it, and its code. -/
structure Module (F C : Type) where
  query : BlockingQuery.Module F (Tag F)
  body : F → Code (Op F) C
  ops_eq : ∀ f, (query.func f).ops = (body f).ops
  /-- `allocatorCallbackRegistration`. -/
  registration : Option String

/-! ## The legality of a loop's code -/

def refuse (o : Op F) (why : String) : Site F (Tag F) := ⟨o, .refused, why, none, false, [], []⟩

/-- What `LegalityChecker` asks beyond the query. -/
def extra (o : Op F) (inCallee : Bool) : Option (Site F (Tag F)) :=
  match o.tag with
  | .wtc _ => if inCallee then some (refuse o "it acts on a queue or a mutex") else none
  | .cir name true _ => some (refuse o ("it synchronises (" ++ name ++ ")"))
  | _ => none

/-- What the batching of pushes accepts: sleeping, and the allocator if it runs no code of the
program. -/
def accepted (m : Module F C) (k : Kind) : Bool :=
  match k with
  | .allocates => m.registration.isNone
  | .sleeps => true
  | _ => false

/-- `LegalityChecker::words`. -/
def words (m : Module F C) (s : Site F (Tag F)) : String :=
  let name (f : F) : String := (m.query.func f).name
  let why : String :=
    match s.kind, m.registration with
    | .refused, _ => s.why
    | .throws, _ => "it may throw"
    | .mayThrow, _ => "it calls " ++ (s.callee.map name).getD "" ++ ", which may throw"
    | .unknownTarget, _ => "it makes an indirect call"
    | .allocates, some r =>
      "it calls " ++ (s.callee.map name).getD "the allocator" ++
        ", and the program registers code for the allocator to run (" ++ r ++ ")"
    | _, _ =>
      match s.callee with
      | some f =>
        if s.threading then "it calls into the threading library (" ++ name f ++ ")"
        else "it calls " ++ name f ++ ", which may wait for another thread"
      | none => "it " ++ s.why
  s.via.foldr (fun f w => "it calls " ++ name f ++ ", where " ++ w) why

abbrev State (F : Type) := BlockingQuery.State F (Tag F)

/-- `LegalityChecker::op`. -/
def legal [DecidableEq F] [Fintype F] (m : Module F C) (o : Op F) (st : State F) :
    Option String × State F :=
  let (s, st) := BlockingQuery.at_ m.query (accepted m) extra o st
  (s.map (words m), st)

/-! ## The pass -/

/-- The queue that a handle names, given the values computed; a global is numbered as itself. -/
def Handle.eval (env : Nat → Nat) (h : Handle) : Nat := h.global.getD (env h.value)

/-- `handleInvariant`. -/
def handleInvariant (l : Loop (Op F) C) (h : Handle) : Bool :=
  !(l.ops.any fun o => result o == some h.value) || h.global.isSome

def wtcOps (l : Loop (Op F) C) : List (WtcOp F) := l.ops.filterMap dialect

def isScope : Node C → Bool
  | .scope => true
  | .cleanup => true
  | _ => false

/-- The nodes that the push is in, outermost first. -/
def findPush : Code (Op F) C → Option (List (Node C))
  | .op o rest =>
    match o.tag with
    | .wtc (.push _) => some []
    | _ => findPush rest
  | .node n r₁ r₂ r₃ rest =>
    match ((findPush r₁).orElse fun _ => (findPush r₂).orElse fun _ => findPush r₃) with
    | some ns => some (n :: ns)
    | none => findPush rest
  | _ => none

def findPushIn (l : Loop (Op F) C) : Option (List (Node C)) :=
  (findPush l.cond).orElse fun _ => (findPush l.body).orElse fun _ => findPush l.step

/-- The first refusal ends the walk. -/
def andThen (r : Option String × State F) (f : State F → Option String × State F) :
    Option String × State F :=
  match r with
  | (some why, st) => (some why, st)
  | (none, st) => f st

section Check

variable [DecidableEq F] [Fintype F] (m : Module F C)

/-- The walk over the loop. -/
def walk : Code (Op F) C → State F → Option String × State F
  | .done, st => (none, st)
  | .op o rest, st =>
    match o.tag with
    | .wtc _ => walk rest st
    | .label => (some "control can leave the loop other than at its end or a break", st)
    | .cir .. => andThen (legal m o st) (walk rest)
  | .node _ r₁ r₂ r₃ rest, st =>
    andThen (walk r₁ st) fun st =>
      andThen (walk r₂ st) fun st => andThen (walk r₃ st) (walk rest)
  | .jump .brk, st => (none, st)
  | .jump .cont, st => (some "a continue skips the push on some iterations", st)
  | .jump .ret, st => (some "control can leave the loop other than at its end or a break", st)
  | .goto, st => (some "control can leave the loop other than at its end or a break", st)

/-- `WTCBatchPushesPass::check`: why the loop is refused, if it is. -/
def check (l : Loop (Op F) C) (st : State F) : Option String × State F :=
  match wtcOps l with
  | [.push p] =>
    if p.bounded then (some "the queue is bounded, and a run of pushes is not", st)
    else if !((findPushIn l).getD []).all isScope then
      (some "the push is not made on every iteration", st)
    else if !handleInvariant l p.queue then
      (some "the loop may change which queue it pushes to", st)
    else
      match m.registration with
      | some reg =>
        (some ("a push may allocate, and the program registers code for the allocator to run (" ++
          reg ++ ")"), st)
      | none => walk m (.node .scope l.cond l.body l.step .done) st
  | _ => (some "the loop acts on queues or mutexes other than through one push", st)

end Check

/-- The loop's push. -/
def pushOf (l : Loop (Op F) C) : Option (Push F) :=
  match wtcOps l with
  | [.push p] => some p
  | _ => none

/-- A push becomes a deferred one, also one that has begun. -/
def rewriteOp (o : Op F) : List (Op F) :=
  match o.tag with
  | .wtc (.push p) => [{ o with tag := .wtc (.pushDeferred p) }]
  | .wtc (.made p false) => [{ o with tag := .wtc (.made p true) }]
  | _ => [o]

/-- An operation that is not the program's. -/
def own (w : WtcOp F) : Op F := ⟨"", .other, .wtc w⟩

/-- `WTCBatchPushesPass::rewrite`; the handle before the loop is the push's, or that global's
address taken again. -/
def rewrite (l : Loop (Op F) C) (p : Push F) : Code (Op F) C :=
  .op (own (.queueBatchBegin p))
    ((l.subst rewriteOp).code (.op (own (.queueBatchEnd p)) .done))

/-! ## Runs of the program's operations -/

/-- What an operation does to the memory, as far as the loop reads it, and computes; what a
condition and a function without a body do. -/
structure Meaning (Mem F C : Type) where
  act : Op F → Mem → Mem → Nat → Prop
  test : C → Mem → Nat → Prop
  ext : F → Mem → Mem → Prop

/-- What happens. -/
inductive Effect (F C : Type) where
  | act (o : Op F)
  | ext (f : F)
  | test (c : C) (n : Nat)

/-- The values after the operation has computed `y`. In a function that was called they are that
call's own. -/
def bind (inCallee : Bool) (o : Op F) (env : Nat → Nat) (y : Nat) : Nat → Nat :=
  match result o with
  | some v => if inCallee then env else Function.update env v y
  | none => env

/-- An operation of the program runs, from a memory and the values computed so far. The frames are
put on the stack. -/
inductive Ran (m : Module F C) (M : Meaning Mem F C) (inCallee : Bool) (o : Op F) (mem : Mem)
    (env : Nat → Nat) : List (Effect F C) → Mem → (Nat → Nat) → List (Frame (Op F) C) → Prop
  | act {mem' y} (hw : dialect o = none) (hc : ∀ c, o.kind ≠ .call c) (ha : M.act o mem mem' y) :
      Ran m M inCallee o mem env [.act o] mem' (bind inCallee o env y) []
  | throw (hw : dialect o = none) (hk : o.kind = .throw) :
      Ran m M inCallee o mem env [.act o] mem env [.exit .throw]
  | call {c f y} (hw : dialect o = none) (hk : o.kind = .call c) (hf : f ∈ c.targets m.query)
      (hb : m.query.followed f = true) :
      Ran m M inCallee o mem env [] mem (bind inCallee o env y) [.block (m.body f), .call]
  /-- A function whose body is not looked into, or a member of a `shared_ptr` that owns nothing. -/
  | ext {c f mem' y} (hw : dialect o = none) (hk : o.kind = .call c)
      (hf : f ∈ c.targets m.query ∧ m.query.followed f = false ∨
        c.callee = some f ∧ c.targets m.query = []) (ha : M.ext f mem mem') :
      Ran m M inCallee o mem env [.ext f] mem' (bind inCallee o env y) []
  | extThrow {c f} (hw : dialect o = none) (hk : o.kind = .call c) (hn : c.nothrow = false)
      (hf : f ∈ c.targets m.query) (hb : m.query.followed f = false) :
      Ran m M inCallee o mem env [.ext f] mem env [.exit .throw]

/-! ## Runs of the queue's operations -/

/-- `pending` is of the batch, if one is open. -/
structure Local (Mem V : Type) where
  mem : Mem
  env : Nat → Nat
  stream : Nat → List V
  cells : Nat → List V
  /-- The elements of the batch's run that are not visible, or the one of a push. -/
  run : List V
  pending : Option Nat

/-- The cells of the queue become visible. -/
def Local.publishCells (x : Local Mem V) (q : Nat) : Local Mem V :=
  { x with
    stream := Function.update x.stream q (x.stream q ++ x.cells q)
    cells := Function.update x.cells q [] }

/-- A cell is filled. -/
def Local.fill (x : Local Mem V) (q : Nat) (v : V) : Local Mem V :=
  { x with cells := Function.update x.cells q (x.cells q ++ [v]) }

/-- The first elements of the run become visible. -/
def Local.reveal (x : Local Mem V) (q j : Nat) : Local Mem V :=
  { x with
    stream := Function.update x.stream q (x.stream q ++ x.run.take j)
    run := x.run.drop j }

/-- The shim runs some operations. -/
def shim (os : List (Op F)) : List (Frame (Op F) C) := [.block (Code.done.prepend os), .call]

/-- The shim runs a function of the element type. -/
def runs (k : OpKind F) : Op F := ⟨"", k, .cir "" false none⟩

/-- `queue::push`, once the element is made; `inPlace` are the queues whose pushes are deferred in
place, the rings and the queue of one producer. -/
def Local.push (inPlace : Nat → Bool) (p : Push F) (q : Nat) (v : V) (x : Local Mem V) :
    Local Mem V × List (Frame (Op F) C) :=
  if inPlace q then ((x.fill q v).publishCells q, [])
  else ({ x with run := x.run ++ [v] }, shim [own (.flush p 1)])

/-- `queue::publish`. -/
def Local.publish (inPlace : Nat → Bool) (p : Push F) (q : Nat) (x : Local Mem V) :
    Local Mem V × List (Frame (Op F) C) :=
  if inPlace q then ({ x.publishCells q with pending := some 0 }, [])
  else
    match x.pending.getD 0 with
    | 0 => ({ x with pending := some 0 }, [])
    | n + 1 => ({ x with pending := some 0 }, shim [own (.flush p (n + 1))])

/-- The element goes into a cell, or to the end of the run. -/
def Local.place (inPlace : Nat → Bool) (q : Nat) (v : V) (x : Local Mem V) : Local Mem V :=
  { (if inPlace q then x.fill q v else { x with run := x.run ++ [v] }) with
    pending := some (x.pending.getD 0 + 1) }

/-- `queue::push_deferred`, once the element is made. -/
def Local.pushDeferred (K : Nat) (inPlace : Nat → Bool) (p : Push F) (q : Nat) (v : V)
    (x : Local Mem V) : Local Mem V × List (Frame (Op F) C) :=
  if x.pending.getD 0 + 1 = K then (x.place inPlace q v).publish inPlace p q
  else (x.place inPlace q v, [])

/-- What happens; `other` is a step of other threads, `handed` an element given to a queue, and
`did` says whether it is in a function that was called. -/
inductive Event (Mem V F C : Type) where
  | did (inCallee : Bool) (e : Effect F C)
  | other (mem : Mem)
  | handed (q : Nat) (v : V)
  | begun (q : Nat)
  | closed (q : Nat)

/-- What the loop itself does and hands over, and what the other threads do. -/
def Event.visible : Event Mem V F C → Bool
  | .did inCallee _ => !inCallee
  | .other _ => true
  | .handed _ _ => true
  | .begun _ => false
  | .closed _ => false

/-- The element an event hands to queue `r`. -/
def Event.handedTo (r : Nat) : Event Mem V F C → Option V
  | .handed q v => if q = r then some v else none
  | _ => none

/-- The queue an event is about. -/
def Event.queue? : Event Mem V F C → Option Nat
  | .handed q _ => some q
  | .begun q => some q
  | .closed q => some q
  | _ => none

/-- How the code runs: the module, what its operations do, the elements, the queues,
`WTC_BATCH_K`. -/
structure Setting (Mem V F C : Type) where
  module : Module F C
  meaning : Meaning Mem F C
  value : Nat → Mem → V
  inPlace : Nat → Bool
  K : Nat

/-- The thread runs an operation. The frames are put on the stack. -/
inductive Does (S : Setting Mem V F C) (inCallee : Bool) (o : Op F) (x : Local Mem V) :
    List (Event Mem V F C) → Local Mem V → List (Frame (Op F) C) → Prop
  | ran {es mem' env' fs} (hr : Ran S.module S.meaning inCallee o x.mem x.env es mem' env' fs) :
      Does S inCallee o x (es.map (.did inCallee)) { x with mem := mem', env := env' } fs
  | push {p} (ho : dialect o = some (.push p)) :
      Does S inCallee o x [] x (shim [runs p.element.take, own (.made p false)])
  | pushDeferred {p} (ho : dialect o = some (.pushDeferred p)) :
      Does S inCallee o x [] x (shim [runs p.element.take, own (.made p true)])
  | made {p q v} (ho : dialect o = some (.made p false)) (hq : p.queue.eval x.env = q)
      (hv : S.value p.value x.mem = v) :
      Does S inCallee o x [.handed q v] (x.push (C := C) S.inPlace p q v).1
        (x.push S.inPlace p q v).2
  | madeDeferred {p q v} (ho : dialect o = some (.made p true)) (hq : p.queue.eval x.env = q)
      (hv : S.value p.value x.mem = v) :
      Does S inCallee o x [.handed q v] (x.pushDeferred (C := C) S.K S.inPlace p q v).1
        (x.pushDeferred S.K S.inPlace p q v).2
  /-- A segment is full: its cells are published before the next one is used. -/
  | madeFull {p q v} (ho : dialect o = some (.made p true)) (hq : p.queue.eval x.env = q)
      (hv : S.value p.value x.mem = v) (hin : S.inPlace q = true) :
      Does S inCallee o x [.handed q v]
        ((x.publishCells q).pushDeferred (C := C) S.K S.inPlace p q v).1
        ((x.publishCells q).pushDeferred S.K S.inPlace p q v).2
  /-- Elements are moved into cells: one, or those for a segment that is not linked yet. -/
  | move {p n j} (ho : dialect o = some (.flush p n)) (hj : 0 < j) (hle : j ≤ x.run.length) :
      Does S inCallee o x [] x
        (shim (List.replicate j (runs p.element.move) ++ [own (.settle p n j)]))
  /-- All of the run is visible, and what it was moved from is destroyed. -/
  | moved {p n} (ho : dialect o = some (.flush p n)) (hrun : x.run = []) :
      Does S inCallee o x [] x (shim (List.replicate n (runs p.element.destroy)))
  | reveal {p n j q} (ho : dialect o = some (.settle p n j)) (hq : p.queue.eval x.env = q) :
      Does S inCallee o x [] (x.reveal q j) (shim [own (.flush p n)])
  /-- The cell has been skipped, or another thread has linked a segment: the elements are taken
  back. -/
  | lost {p n j} (ho : dialect o = some (.settle p n j)) :
      Does S inCallee o x [] x
        (shim ((List.replicate j [runs p.element.assign, runs p.element.destroy]).flatten ++
          [own (.flush p n)]))
  | batchBegin {p q} (ho : dialect o = some (.queueBatchBegin p)) (hq : p.queue.eval x.env = q) :
      Does S inCallee o x [.begun q] { x with pending := some 0 } []
  | batchEnd {p q} (ho : dialect o = some (.queueBatchEnd p)) (hq : p.queue.eval x.env = q) :
      Does S inCallee o x [] (x.publish (C := C) S.inPlace p q).1
        ((x.publish S.inPlace p q).2 ++ [.block (.op (own (.close p)) .done)])
  | close {p q} (ho : dialect o = some (.close p)) (hq : p.queue.eval x.env = q) :
      Does S inCallee o x [.closed q] { x with pending := none } []

/-- The state of the thread, and its stack. -/
structure Config (Mem V F C : Type) where
  here : Local Mem V
  stack : List (Frame (Op F) C)

/-- The stack is inside a function that was called. -/
def inCallee (k : List (Frame (Op F) C)) : Bool :=
  k.any fun
    | .call => true
    | _ => false

/-- A step of the thread, or of the other threads. -/
inductive Step (S : Setting Mem V F C) :
    Config Mem V F C → List (Event Mem V F C) → Config Mem V F C → Prop
  | tau {x k k'} (hk : next k = .tau k') : Step S ⟨x, k⟩ [] ⟨x, k'⟩
  | test {x k c k' n} (hk : next k = .test c k') (hn : S.meaning.test c x.mem n) :
      Step S ⟨x, k⟩ [.did (inCallee k) (.test c n)] ⟨x, k' n⟩
  | op {x k o k' es y fs} (hk : next k = .op o k') (ho : Does S (inCallee k) o x es y fs) :
      Step S ⟨x, k⟩ es ⟨y, fs ++ k'⟩
  | other {x k} (mem : Mem) : Step S ⟨x, k⟩ [.other mem] ⟨{ x with mem := mem }, k⟩

/-- Runs from one configuration, with what has happened. -/
inductive Runs (S : Setting Mem V F C) (c : Config Mem V F C) :
    List (Event Mem V F C) → Config Mem V F C → Prop
  | refl : Runs S c [] c
  | step {tr d es d'} (h : Runs S c tr d) (hs : Step S d es d') : Runs S c (tr ++ es) d'

/-- A push has been begun and is not over: its element is being made, or moved. -/
def inPush (k : List (Frame (Op F) C)) : Bool :=
  k.any fun
    | .block b => b.ops.any fun o =>
      match dialect o with
      | some (.made _ _) => true
      | some (.flush _ _) => true
      | some (.settle _ _ _) => true
      | _ => false
    | _ => false

/-! ## Waiting -/

def waitingKind : Kind → Bool
  | .allocates => false
  | .sleeps => false
  | .throws => false
  | .mayThrow => false
  | _ => true

/-- Running the operation, or a function it calls that has no body here, may wait for another
thread. Queues allocate, and the allocator may run code that is registered with it. -/
def MayWait (m : Module F C) (o : Op F) : Prop :=
  match o.tag with
  | .wtc .other => True
  | .wtc _ => m.registration.isSome = true
  | .label => False
  | .cir _ synchronises _ => synchronises = true ∨
    match o.kind with
    | .progress p => p.blocking = true ∨ p.mayCallAllocator = true ∧ m.registration.isSome = true
    | .inlineAsm text => m.query.onlyNonBlockingInstructions text = false
    | .asm => True
    | .throw => False
    | .allocException => False
    | .call c => c.callee = none ∧ c.indirectCallees = [] ∨
      ∃ t ∈ c.targets m.query, m.query.followed t = false ∧
        ∃ e, (m.query.func t).external = some e ∧
        (waitingKind e.kind = true ∨ e.kind = .allocates ∧ m.registration.isSome = true)
    | .other => False

end Wtc.BatchPushes
