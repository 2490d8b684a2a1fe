import Wtc.Concurrent.Serial
import Wtc.Spsc.Model
import Wtc.Spmc.Model
import Wtc.Segment.Model
import Wtc.Waiter.Model

/-!
# `wtc::queue`

The queue that programs use: a tag chooses one of four implementations, a batch of pushes is put in
in one of two ways, and an eventcount lets a consumer wait.

Here one thread makes all the calls, one after another. A call of an implementation is its model
run to the end with nobody else running; `Env.coin` resolves what its steps leave open and
`Env.fuel` bounds their number. In the same way the eventcount runs with nobody asleep.
-/

namespace Wtc.Shim

open Wtc.Concurrent

variable {α : Type}

/-- `topology`. -/
inductive Tag where
  | generic
  | spsc
  | spscInline
  | mpsc
  | spmc
  deriving DecidableEq, Repr

/-- The sizes of blocks and segments, `WTC_BATCH_K`, whether the element type may be lent, and the
wait policy. -/
structure Cfg where
  slots : Nat
  cells : Nat
  spmcCells : Nat
  batchK : Nat
  inlineOk : Bool
  policy : Waiter.Policy
  two_le_slots : 2 ≤ slots
  cells_pos : 0 < cells
  two_le_spmcCells : 2 ≤ spmcCells

structure Env where
  fuel : Nat
  coin : Nat → Bool

/-! ## The implementations -/

/-- The union of the implementations, of which the tag names one. -/
inductive Impl (α : Type) where
  | ring (sh : Spsc.Shared α)
  | mpsc (sh : Segment.Shared α)
  | spmc (sh : Spmc.Shared α)
  | generic (sh : Segment.Shared α)

/-- What the queue asks of its implementation. -/
inductive Request (α : Type) where
  | push (v : α)
  | pushRun (vs : List α)
  | pushDeferred (v : α)
  | publish
  | consume
  | tryPopBorrow
  deriving DecidableEq, Repr

/-- The request as a call of the ring, which has no `push_run`. -/
def Request.ring : Request α → Option (Spsc.Call α)
  | .push v => some (.push v)
  | .pushRun _ => none
  | .pushDeferred v => some (.pushDeferred v)
  | .publish => some .publish
  | .consume => some .consume
  | .tryPopBorrow => some .tryPopBorrow

/-- The request as a call of a segmented queue. -/
def Request.segment : Request α → Option (Segment.Call α)
  | .push v => some (.push [v])
  | .pushRun vs => some (.push vs)
  | .consume => some .pop
  | _ => none

/-- The request as a call of the one-producer queue. -/
def Request.spmc : Request α → Option (Spmc.Call α)
  | .push v => some (.push v)
  | .pushDeferred v => some (.pushDeferred v)
  | .publish => some .publish
  | .consume => some .consume
  | _ => none

/-- One call of the implementation, made by the only thread. -/
def Impl.serve (cfg : Cfg) (env : Env) (k : Nat) :
    Impl α → Request α → Option (Nat × Impl α × List (FifoAns α))
  | .ring sh, r => do
    let c ← r.ring
    let (k', sh', ans) ←
      (Spsc.machine cfg.slots).goOn c.side env.coin env.fuel k sh (Spsc.start c)
    pure (k', .ring sh', ans)
  | .mpsc sh, r => do
    let c ← r.segment
    let (k', sh', ans) ← (Segment.oneMachine α cfg.cells ()).goOn () (fun _ => ()) env.fuel k sh
      ((Segment.oneMachine α cfg.cells ()).start c)
    pure (k', .mpsc sh', ans)
  | .spmc sh, r => do
    let c ← r.spmc
    let (k', sh', ans) ←
      (Spmc.machine cfg.spmcCells ()).goOn () env.coin env.fuel k sh (Spmc.start c)
    pure (k', .spmc sh', ans)
  | .generic sh, r => do
    let c ← r.segment
    let (k', sh', ans) ← (Segment.manyMachine α Unit cfg.cells).goOn () (fun _ => ()) env.fuel k sh
      ((Segment.manyMachine α Unit cfg.cells).start c)
    pure (k', .generic sh', ans)

/-! ## The queue -/

/-- `coins` counts the choices made so far. -/
structure Queue (α : Type) where
  tag : Tag
  impl : Impl α
  wait : Waiter.Shared Unit
  coins : Nat

/-- `construct`: elements that may not be lent make `spsc_inline` an `spsc`. -/
def construct (cfg : Cfg) : Tag → Queue α
  | .spscInline =>
    ⟨if cfg.inlineOk then .spscInline else .spsc, .ring (.init cfg.slots), .init, 0⟩
  | .spsc => ⟨.spsc, .ring (.init cfg.slots), .init, 0⟩
  | .mpsc => ⟨.mpsc, .mpsc .init, .init, 0⟩
  | .spmc => ⟨.spmc, .spmc .init, .init, 0⟩
  | .generic => ⟨.generic, .generic .init, .init, 0⟩

/-- A shared pointer that `try_pop` returned: to a slot of the ring, or to an element of its own. -/
inductive Handle (α : Type) where
  | lent (b i : Nat)
  | owned (v : α)
  deriving DecidableEq, Repr

/-- A run of deferred pushes. -/
structure Batch (α : Type) where
  run : List α
  pending : Nat

/-- Nobody is asleep, no time goes by. -/
def quiet : Waiter.Choice Unit := ⟨∅, false, false, false⟩

/-- The eventcount, used by the only thread. -/
def waitAlone {Q R : Type} (policy : Waiter.Policy) (look : Q → Q × Option R) :
    Nat → Q → Waiter.Shared Unit → Waiter.Loc R → Option (Q × Waiter.Shared Unit × Option R)
  | 0, _, _, _ => none
  | _ + 1, q, w, .done r => some (q, w, r)
  | fuel + 1, q, w, l =>
    (Waiter.step policy look () quiet q w l).bind fun (q', w', l') =>
      waitAlone policy look fuel q' w' l'

/-- The element among the answers of a pop. -/
def value : List (FifoAns α) → Option α
  | [.popped v] => v
  | _ => none

namespace Queue

variable (cfg : Cfg) (env : Env)

def ask (r : Request α) (q : Queue α) : Option (Queue α × List (FifoAns α)) := do
  let (k, impl, ans) ← q.impl.serve cfg env q.coins r
  pure ({ q with impl, coins := k }, ans)

def notify (n : Nat) (q : Queue α) : Option (Queue α) := do
  let (_, wait, _) ← waitAlone cfg.policy (fun u : Unit => (u, (none : Option Unit))) env.fuel ()
    q.wait (Waiter.notify cfg.policy n)
  pure { q with wait }

def push (v : α) (q : Queue α) : Option (Queue α) := do
  let (q, _) ← q.ask cfg env (.push v)
  q.notify cfg env 1

def batchBegin : Batch α := ⟨[], 0⟩

/-- The run is in its place, and is shown. -/
def publishInPlace (b : Batch α) (q : Queue α) : Option (Batch α × Queue α) := do
  let (q, _) ← q.ask cfg env .publish
  let q ← q.notify cfg env b.pending
  pure ({ b with pending := 0 }, q)

/-- The run is pushed from the side buffer, where its elements are destroyed then. -/
def publishRun (b : Batch α) (q : Queue α) : Option (Batch α × Queue α) :=
  if b.pending = 0 then pure ({ b with pending := 0 }, q)
  else do
    let (q, _) ← q.ask cfg env (.pushRun b.run)
    let q ← q.notify cfg env b.pending
    pure (⟨[], 0⟩, q)

def publish (b : Batch α) (q : Queue α) : Option (Batch α × Queue α) :=
  match q.tag with
  | .spscInline => q.publishInPlace cfg env b
  | .spsc => q.publishInPlace cfg env b
  | .mpsc => q.publishRun cfg env b
  | .spmc => q.publishInPlace cfg env b
  | .generic => q.publishRun cfg env b

/-- The element is put in its place, not to be seen yet. -/
def deferInPlace (b : Batch α) (v : α) (q : Queue α) : Option (Batch α × Queue α) := do
  let (q, _) ← q.ask cfg env (.pushDeferred v)
  pure ({ b with pending := b.pending + 1 }, q)

/-- The element is put in the side buffer. -/
def deferAside (b : Batch α) (v : α) (q : Queue α) : Option (Batch α × Queue α) :=
  some (⟨b.run ++ [v], b.pending + 1⟩, q)

/-- The switch of `push_deferred`. -/
def defer (b : Batch α) (v : α) (q : Queue α) : Option (Batch α × Queue α) :=
  match q.tag with
  | .spscInline => q.deferInPlace cfg env b v
  | .spsc => q.deferInPlace cfg env b v
  | .spmc => q.deferInPlace cfg env b v
  | .mpsc => q.deferAside b v
  | .generic => q.deferAside b v

def pushDeferred (b : Batch α) (v : α) (q : Queue α) : Option (Batch α × Queue α) := do
  let (b, q) ← q.defer cfg env b v
  if b.pending = cfg.batchK then q.publish cfg env b else pure (b, q)

def batchEnd (b : Batch α) (q : Queue α) : Option (Queue α) := do
  let (_, q) ← q.publish cfg env b
  pure q

def consume (q : Queue α) : Option (Queue α × Option α) := do
  let (q, ans) ← q.ask cfg env .consume
  pure (q, value ans)

/-- The slot of the ring that is lent. -/
def lent (q : Queue α) : Option (Handle α) :=
  match q.impl with
  | .ring sh => sh.c.lent.map fun x => .lent x.1 x.2
  | _ => none

/-- The element behind a pointer. -/
def deref (q : Queue α) : Handle α → Option α
  | .lent b i =>
    match q.impl with
    | .ring sh => sh.slot b i
    | _ => none
  | .owned v => some v

/-- `try_pop()`. -/
def tryPop (q : Queue α) : Option (Queue α × Option (Handle α)) :=
  if q.tag = .spscInline then do
    let (q, _) ← q.ask cfg env .tryPopBorrow
    pure (q, q.lent)
  else do
    let (q, v) ← q.consume cfg env
    pure (q, v.map .owned)

/-- A look of `pop_wait`; no queue stands for one that did not come to an end. -/
def look : Option (Queue α) → Option (Queue α) × Option α
  | none => (none, none)
  | some q =>
    match q.consume cfg env with
    | none => (none, none)
    | some (q', v) => (some q', v)

def popWait (q : Queue α) : Option (Queue α × Option α) := do
  let (q', wait, v) ← waitAlone cfg.policy (look cfg env) env.fuel (some q) q.wait
    (Waiter.waitUntil cfg.policy false)
  let q' ← q'
  pure ({ q' with wait }, v)

def close (q : Queue α) : Option (Queue α) := do
  let (_, wait, _) ← waitAlone cfg.policy (fun u : Unit => (u, (none : Option Unit))) env.fuel ()
    q.wait .shut
  pure { q with wait }

end Queue

/-! ## Programs -/

/-- What a program does with its queue; a batch is `batch_begin`, a `push_deferred` for each
element and `batch_end`. -/
inductive Op (α : Type) where
  | push (v : α)
  | batch (vs : List α)
  | tryPop
  | tryPopInto
  | popWait
  | close
  deriving DecidableEq, Repr

/-- What it sees: nothing, or the element it got, if any. -/
inductive Ans (α : Type) where
  | done
  | popped (v : Option α)
  deriving DecidableEq, Repr

def Op.isPop : Op α → Bool
  | .tryPop => true
  | .tryPopInto => true
  | .popWait => true
  | _ => false

namespace Queue

variable (cfg : Cfg) (env : Env)

/-- The pushes of a batch. -/
def deferAll : List α → Batch α → Queue α → Option (Batch α × Queue α)
  | [], b, q => some (b, q)
  | v :: vs, b, q => do
    let (b, q) ← q.pushDeferred cfg env b v
    deferAll vs b q

def apply (q : Queue α) : Op α → Option (Queue α × Ans α)
  | .push v => do
    let q ← q.push cfg env v
    pure (q, .done)
  | .batch vs => do
    let (b, q) ← deferAll cfg env vs batchBegin q
    let q ← q.batchEnd cfg env b
    pure (q, .done)
  | .tryPop => do
    let (q, p) ← q.tryPop cfg env
    pure (q, .popped (p.bind q.deref))
  | .tryPopInto => do
    let (q, v) ← q.consume cfg env
    pure (q, .popped v)
  | .popWait => do
    let (q, v) ← q.popWait cfg env
    pure (q, .popped v)
  | .close => do
    let q ← q.close cfg env
    pure (q, .done)

def run : List (Op α) → Queue α → Option (Queue α × List (Ans α))
  | [], q => some (q, [])
  | op :: prog, q => do
    let (q, a) ← q.apply cfg env op
    let (q, as) ← run prog q
    pure (q, a :: as)

end Queue

/-! ## A list -/

/-- The queue as a list that can be closed. -/
structure Plain (α : Type) where
  elems : List α
  closed : Bool

/-- The same programs over a list; a wait on an empty queue that is not closed has no answer. -/
def Plain.apply (p : Plain α) : Op α → Option (Plain α × Ans α)
  | .push v => some ({ p with elems := p.elems ++ [v] }, .done)
  | .batch vs => some ({ p with elems := p.elems ++ vs }, .done)
  | .tryPop => some ({ p with elems := p.elems.tail }, .popped p.elems.head?)
  | .tryPopInto => some ({ p with elems := p.elems.tail }, .popped p.elems.head?)
  | .popWait =>
    if p.elems = [] ∧ p.closed = false then none
    else some ({ p with elems := p.elems.tail }, .popped p.elems.head?)
  | .close => some ({ p with closed := true }, .done)

def Plain.run : List (Op α) → Plain α → Option (Plain α × List (Ans α))
  | [], p => some (p, [])
  | op :: prog, p => do
    let (p, a) ← p.apply op
    let (p, as) ← Plain.run prog p
    pure (p, a :: as)

end Wtc.Shim
