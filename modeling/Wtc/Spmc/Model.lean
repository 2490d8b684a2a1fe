import Wtc.Concurrent.Fifo
import Wtc.Concurrent.Machine

/-!
# The one-producer queue

`runtime/spmc_queue.hpp`: one thread pushes, any number of threads pop.

The queue is a list of segments of `kSegment` cells. The producer fills the tail segment's cells
in order and publishes a prefix of them by storing the segment's count `enq`; a full segment is
published whole before the next one is linked. Consumers claim the cell at the head segment's
`deq` with a compare-and-swap against the published count.

Segments are numbered in the order in which they are linked, and `next` of a segment is the number
of the one linked after it. Their memory and the hazard slots that protect it are left out; a
consumer that protects the head reads it until two reads agree.
-/

namespace Wtc.Spmc

open Wtc.Concurrent

variable {α Tid : Type}

/-! ## The shared state -/

/-- The queue's memory. `tail` and `filled` are the producer's own; `segs` counts the segments
allocated so far. -/
structure Shared (α : Type) where
  deq : Nat → Nat
  seen : Nat → Nat
  enq : Nat → Nat
  next : Nat → Option Nat
  cell : Nat → Nat → Option α
  head : Nat
  tail : Nat
  filled : Nat
  segs : Nat

/-- `spmc_queue()`: one empty segment. -/
def Shared.init : Shared α where
  deq _ := 0
  seen _ := 0
  enq _ := 0
  next _ := none
  cell _ _ := none
  head := 0
  tail := 0
  filled := 0
  segs := 1

/-- Writes one cell of a segment. -/
def setCell (f : Nat → Nat → Option α) (i j : Nat) (v : Option α) : Nat → Nat → Option α :=
  fun i' j' => if i' = i ∧ j' = j then v else f i' j'

/-- `tail_->enq.store(n)`. -/
def Shared.storeEnq (sh : Shared α) (n : Nat) : Shared α :=
  { sh with enq := Function.update sh.enq sh.tail n }

/-- `tail_->next.store(fresh)`, after which the fresh segment is the tail. -/
def Shared.linkNext (sh : Shared α) : Shared α :=
  { sh with
    next := Function.update sh.next sh.tail (some sh.segs)
    tail := sh.segs
    segs := sh.segs + 1
    filled := 0 }

/-- Constructs an element in the tail segment's next cell. -/
def Shared.build (sh : Shared α) (v : α) : Shared α :=
  { sh with
    cell := setCell sh.cell sh.tail sh.filled (some v)
    filled := sh.filled + 1 }

/-- The cell at `deq` of segment `h` is claimed. -/
def Shared.claimCell (sh : Shared α) (h : Nat) : Shared α :=
  { sh with deq := Function.update sh.deq h (sh.deq h + 1) }

/-! ## The operations -/

/-- `push`, `push_deferred`, `publish` and `consume`. -/
inductive Call (α : Type) where
  | push (v : α)
  | pushDeferred (v : α)
  | publish
  | consume
  deriving DecidableEq, Repr

/-- `push` is `push_deferred` followed by `publish`. -/
def Call.ops : Call α → List (DeferOp α)
  | .push v => [.defer v, .publish]
  | .pushDeferred v => [.defer v]
  | .publish => [.publish]
  | .consume => [.pop]

/-- Where a thread is inside a call. In a push, `pub` tells `push` from `push_deferred`. -/
inductive Loc (α : Type) where
  -- `push_deferred`: the test of `filled_`, the link to the next segment, the cell
  | put (v : α) (pub : Bool)
  | link (v : α) (pub : Bool)
  | fill (v : α) (pub : Bool)
  -- `publish`; `deferred` when it ends a `push`
  | publish (deferred : Bool)
  -- `held_head` and `hazard::protect`
  | head
  | protect
  | reload (p : Nat)
  -- `pop`: `h` the head segment, `d` the cell to claim, `e` the count read
  | deq (h : Nat)
  | seen (h d : Nat)
  | test (h d e : Nat)
  | tell (h d e : Nat)
  | claim (h d e : Nat)
  | take (h d : Nat)
  | next (h : Nat)
  | advance (h n : Nat)
  | done (ans : List (FifoAns α))
  deriving DecidableEq, Repr

/-- The first location of a call. -/
def start : Call α → Loc α
  | .push v => .put v true
  | .pushDeferred v => .put v false
  | .publish => .publish false
  | .consume => .head

/-- After the cell has been filled. -/
def afterFill (pub : Bool) : Loc α :=
  if pub then .publish true else .done [.pushed]

/-- `compare_exchange_weak(d, d + 1)` on `deq`; it may fail spuriously (`strong = false`), and
when it fails `d` becomes what it read. -/
def claimStep (strong : Bool) (sh : Shared α) (h d e : Nat) : Shared α × Loc α :=
  if strong = true ∧ sh.deq h = d then (sh.claimCell h, .take h d)
  else (sh, .test h (sh.deq h) e)

/--
One step of a thread.

The choice `c` stands for whether the thread's hazard slot already holds the head (`head`) and for
whether a weak compare-and-swap is spared a spurious failure (`test`, `claim`).
-/
def step (K : Nat) (c : Bool) (sh : Shared α) : Loc α → Option (Shared α × Loc α)
  | .put v pub =>
    if sh.filled = K then some (sh.storeEnq K, .link v pub)
    else some (sh.build v, afterFill pub)
  | .link v pub => some (sh.linkNext, .fill v pub)
  | .fill v pub => some (sh.build v, afterFill pub)
  | .publish deferred =>
    some (sh.storeEnq sh.filled, .done (if deferred then [.pushed, .pushed] else [.pushed]))
  | .head => some (sh, if c then .deq sh.head else .protect)
  | .protect => some (sh, .reload sh.head)
  | .reload p => some (sh, if sh.head = p then .deq p else .reload sh.head)
  | .deq h => some (sh, .seen h (sh.deq h))
  | .seen h d => some (sh, .test h d (sh.seen h))
  | .test h d e =>
    if e ≤ d then
      some (sh, if d < sh.enq h then .tell h d (sh.enq h)
        else if sh.enq h < K then .done [.popped none] else .next h)
    else some (claimStep c sh h d e)
  | .tell h d e => some ({ sh with seen := Function.update sh.seen h e }, .claim h d e)
  | .claim h d e => some (claimStep c sh h d e)
  | .take h d =>
    some ({ sh with cell := setCell sh.cell h d none }, .done [.popped (sh.cell h d)])
  | .next h =>
    match sh.next h with
    | none => some (sh, .done [.popped none])
    | some n => some (sh, .advance h n)
  | .advance h n => some (if sh.head = h then { sh with head := n } else sh, .head)
  | .done _ => none

/-- The answer of a call that is over. -/
def answer : Loc α → Option (List (FifoAns α))
  | .done ans => some ans
  | _ => none

/-- The queue, with segments of `K` cells, used by one producer `prod` and any other threads. -/
def machine (K : Nat) (prod : Tid) :
    Machine Tid (Shared α) (Loc α) (Call α) Bool (DeferOp α) (FifoAns α) where
  init := .init
  may _ t c := c = .consume ∨ t = prod
  ops := Call.ops
  start := start
  step _ c sh l := step K c sh l
  answer := answer

end Wtc.Spmc
