import Wtc.Concurrent.Machine
import Wtc.Concurrent.Fifo

/-!
# The segmented queue

The model of `segment_queue`: a list of segments of `K` cells, of which pushes take cells by a
fetch-and-add on `enq`. In the form for many consumers pops take them by a fetch-and-add on `deq`;
in the form for one consumer the consumer takes full cells, where need be out of order.

A step is one atomic operation, or one access to the element in a cell, or one to the consumer's
own lists. The segments are numbered in the order in which they are linked. A segment that a push
has built and not linked yet is the push's own: its cells are filled at the step that links it.

`pop_many` compares two loads, `deq` and `enq`, in one expression. C++ leaves their order open, and
the answer that the queue is empty is wrong when `enq` is read first. The order they are written in,
which the model has, is an assumption on the compiler.

What hazard pointers are for (a segment is not freed while a thread may use it) is left out: here
a segment is never freed, and of `protect` only the loads are left.
-/

namespace Wtc.Segment

open Wtc.Concurrent

variable {α : Type}

/-- The state of a cell: `kEmpty`, `kFull`, `kSkipped`, `kTaken`. -/
inductive Mark where
  | empty
  | full
  | skipped
  | taken
  deriving DecidableEq, Repr

/-- The single consumer's own state: the cells it has passed and not taken, where the next walk
starts, and whether the last pop took an element. -/
structure One where
  holes : List (Nat × Nat)
  walk : Nat × Nat
  streaming : Bool
  deriving DecidableEq, Repr

structure Shared (α : Type) where
  deq : Nat → Nat
  enq : Nat → Nat
  next : Nat → Option Nat
  state : Nat → Nat → Mark
  cell : Nat → Nat → Option α
  segs : Nat
  head : Nat
  tail : Nat
  one : One

/-- A queue just built: one empty segment. -/
def Shared.init : Shared α :=
  ⟨fun _ => 0, fun _ => 0, fun _ => none, fun _ _ => .empty, fun _ _ => none, 1, 0, 0,
    ⟨[], (0, 0), false⟩⟩

namespace Shared

/-- A fetch-and-add on `enq`. -/
def reserve (sh : Shared α) (s n : Nat) : Shared α :=
  { sh with enq := Function.update sh.enq s (sh.enq s + n) }

def setDeq (sh : Shared α) (s n : Nat) : Shared α :=
  { sh with deq := Function.update sh.deq s n }

def setState (sh : Shared α) (s j : Nat) (m : Mark) : Shared α :=
  { sh with state := Function.update sh.state s (Function.update (sh.state s) j m) }

def setCell (sh : Shared α) (s j : Nat) (v : Option α) : Shared α :=
  { sh with cell := Function.update sh.cell s (Function.update (sh.cell s) j v) }

/-- A new segment with the given elements in its first cells is linked after `s`. -/
def link (sh : Shared α) (s : Nat) (vs : List α) : Shared α :=
  { sh with
    segs := sh.segs + 1
    next := Function.update sh.next s (some sh.segs)
    enq := Function.update sh.enq sh.segs vs.length
    state := Function.update sh.state sh.segs fun j => if j < vs.length then .full else .empty
    cell := Function.update sh.cell sh.segs fun j => vs[j]? }

/-- The compare-and-swap of `tail_` from `s` to `n`. -/
def casTail (sh : Shared α) (s n : Nat) : Shared α :=
  if sh.tail = s then { sh with tail := n } else sh

/-- The compare-and-swap of `head_` from `s` to `n`. -/
def casHead (sh : Shared α) (s n : Nat) : Shared α :=
  if sh.head = s then { sh with head := n } else sh

end Shared

/-! ## `push_run` -/

/--
Where a thread is inside `push_run`. `k` elements are pushed and `vs` are left; `t` is the segment
the push has found as the tail. A push that has taken the cells from some index up to `fin` fills
those below `stop`.
-/
inductive PushLoc (α : Type) where
  | load (k : Nat) (vs : List α)
  | check (k : Nat) (vs : List α) (t : Nat)
  | reserve (k : Nat) (vs : List α) (t : Nat)
  | build (k : Nat) (vs : List α) (t j stop fin : Nat)
  | mark (k : Nat) (vs : List α) (t j stop fin : Nat)
  | takeBack (k : Nat) (vs : List α) (t j stop fin : Nat)
  | giveUp (k : Nat) (vs : List α) (t r stop fin : Nat)
  | nextLoad (k : Nat) (vs : List α) (t spin : Nat)
  | link (k : Nat) (vs : List α) (t : Nat)
  | linkTail (k : Nat) (vs : List α) (t n : Nat)
  | tailCas (k : Nat) (vs : List α) (t n : Nat)
  | done (k : Nat)
  deriving DecidableEq, Repr

/-- The head of the loop of `push_run`. -/
def loop (k : Nat) (vs : List α) : PushLoc α := if vs = [] then .done k else .load k vs

/-- After the cells of a segment: the rest is pushed again, or goes to the next segment. -/
def afterFill (K k : Nat) (vs : List α) (t fin : Nat) : PushLoc α :=
  if vs = [] then .done k else if fin ≤ K then .load k vs else .nextLoad k vs t 0

/-- One step of `push_run`, in the form for many consumers or for one. -/
def pushStep (K : Nat) (many : Bool) (sh : Shared α) : PushLoc α → Option (Shared α × PushLoc α)
  | .load k vs => some (sh, .check k vs sh.tail)
  | .check k vs t =>
    if sh.tail = t then some (sh, .reserve k vs t) else some (sh, .check k vs sh.tail)
  | .reserve k vs t =>
    let i := sh.enq t
    let fin := i + vs.length
    if i < K then some (sh.reserve t vs.length, .build k vs t i (min fin K) fin)
    else some (sh.reserve t vs.length, .nextLoad k vs t 0)
  | .build k vs t j stop fin => some (sh.setCell t j vs.head?, .mark k vs t j stop fin)
  | .mark k vs t j stop fin =>
    if many = true ∧ sh.state t j ≠ .empty then
      -- a pop skipped the cell before this push reserved it
      some (sh, .takeBack k vs t j stop fin)
    else if j + 1 < stop then
      some (sh.setState t j .full, .build (k + 1) vs.tail t (j + 1) stop fin)
    else some (sh.setState t j .full, afterFill K (k + 1) vs.tail t fin)
  | .takeBack k vs t j stop fin =>
    if j + 1 < stop then some (sh.setCell t j none, .giveUp k vs t (j + 1) stop fin)
    else some (sh.setCell t j none, afterFill K k vs t fin)
  | .giveUp k vs t r stop fin =>
    let sh' := if sh.state t r = .empty then sh.setState t r .skipped else sh
    if r + 1 < stop then some (sh', .giveUp k vs t (r + 1) stop fin)
    else some (sh', afterFill K k vs t fin)
  | .nextLoad k vs t spin =>
    match sh.next t with
    | some n => some (sh, .tailCas k vs t n)
    | none => if spin < 64 then some (sh, .nextLoad k vs t (spin + 1)) else some (sh, .link k vs t)
  | .link k vs t =>
    match sh.next t with
    | some n => some (sh, .tailCas k vs t n)
    | none =>
      some (sh.link t (vs.take K), .linkTail (k + (vs.take K).length) (vs.drop K) t sh.segs)
  | .linkTail k vs t n => some (sh.casTail t n, loop k vs)
  | .tailCas k vs t n => some (sh.casTail t n, loop k vs)
  | .done _ => none

/-! ## `pop_many` -/

/-- Where a thread is inside `pop_many`; `h` is the segment found as the head, `i` the cell
taken. -/
inductive ManyLoc (α : Type) where
  | load
  | check (p : Nat)
  | deqLoad (h : Nat)
  | enqLoad (h d : Nat)
  | nextLoad (h : Nat)
  | claim (h : Nat)
  | endNext (h : Nat)
  | advTail (h n : Nat)
  | advHead (h n : Nat)
  | look (h i : Nat)
  | patience (h i spin : Nat)
  | reserved (h i : Nat)
  | await (h i : Nat)
  | skip (h i : Nat)
  | take (h i : Nat)
  | done (v : Option α)
  deriving DecidableEq, Repr

/-- One step of `pop_many`. -/
def manyStep (K : Nat) (sh : Shared α) : ManyLoc α → Option (Shared α × ManyLoc α)
  | .load => some (sh, .check sh.head)
  | .check p => if sh.head = p then some (sh, .deqLoad p) else some (sh, .check sh.head)
  | .deqLoad h => some (sh, .enqLoad h (sh.deq h))
  | .enqLoad h d => if d ≥ sh.enq h then some (sh, .nextLoad h) else some (sh, .claim h)
  | .nextLoad h =>
    match sh.next h with
    | some _ => some (sh, .claim h)
    | none => some (sh, .done none)
  | .claim h =>
    let i := sh.deq h
    if i ≥ K then some (sh.setDeq h (i + 1), .endNext h) else some (sh.setDeq h (i + 1), .look h i)
  | .endNext h =>
    match sh.next h with
    | some n => some (sh, .advTail h n)
    | none => some (sh, .done none)
  | .advTail h n => some (sh.casTail h n, .advHead h n)
  | .advHead h n => some (sh.casHead h n, .load)
  | .look h i =>
    match sh.state h i with
    | .empty => some (sh, .patience h i 0)
    | .skipped => some (sh, .load)
    | _ => some (sh, .take h i)
  | .patience h i spin =>
    if i ≥ sh.enq h ∧ spin + 1 < 64 then some (sh, .patience h i (spin + 1))
    else some (sh, .reserved h i)
  | .reserved h i => if i < sh.enq h then some (sh, .await h i) else some (sh, .skip h i)
  | .await h i =>
    match sh.state h i with
    | .empty => some (sh, .await h i)
    | .skipped => some (sh, .load)
    | _ => some (sh, .take h i)
  | .skip h i =>
    match sh.state h i with
    | .empty => some (sh.setState h i .skipped, .load)
    | .skipped => some (sh, .load)
    | _ => some (sh, .take h i)
  | .take h i => (sh.cell h i).map fun v => (sh.setCell h i none, .done (some v))
  | .done _ => none

/-! ## `pop_one` -/

/--
Where the consumer is inside `pop_one`, `pop_ahead` or `walk_on`; `h` and `i` are the head segment
and the cell it is at, `s` and `j` those of the walk.
`slip_one` only delays the consumer and is left out.
-/
inductive OneLoc (α : Type) where
  | head
  | deq (h : Nat)
  | next (h : Nat)
  | advTail (h n : Nat)
  | advHead (h n : Nat)
  | state (h i : Nat)
  | stepOver (h i : Nat)
  | take (h i : Nat)
  | setDeq (h i : Nat) (v : α)
  | spin (h i n : Nat)
  | look (k : Nat)
  | enq (s j : Nat)
  | walk (s j stop taken : Nat)
  | walkNext (s : Nat)
  | again (k m : Nat)
  | pick (k : Nat)
  | setTaken (s j : Nat) (v : α)
  | done (v : Option α)
  deriving DecidableEq, Repr

def Shared.setOne (sh : Shared α) (one : One) : Shared α := { sh with one := one }

/-- `pop_ahead` begins, the walk starting at the given cell. -/
def popAhead (one : One) : OneLoc α :=
  if one.holes = [] then .enq one.walk.1 one.walk.2 else .look 0

/-- `pop_one` passes a cell that is not full: with no holes the walk starts at this cell. -/
def goAhead (sh : Shared α) (h i : Nat) : Shared α × OneLoc α :=
  let one := if sh.one.holes = [] then { sh.one with walk := (h, i) } else sh.one
  (sh.setOne one, popAhead one)

/-- The answer empty of `pop_ahead`. -/
def emptyAhead (sh : Shared α) : Shared α × OneLoc α :=
  (sh.setOne { sh.one with streaming := false }, .done none)

/-- The end of the cells of a segment in `walk_on`. -/
def endWalk (K : Nat) (sh : Shared α) (s j taken : Nat) : Shared α × OneLoc α :=
  let sh' := sh.setOne { sh.one with walk := (s, j) }
  if taken ≤ K then emptyAhead sh' else (sh', .walkNext s)

/-- The look over the holes before the `k`-th, from the earliest. -/
def lookAgain (k : Nat) : OneLoc α := if k = 0 then .pick k else .again k 0

/-- One step of the consumer. -/
def oneStep (K : Nat) (sh : Shared α) : OneLoc α → Option (Shared α × OneLoc α)
  | .head => some (sh, .deq sh.head)
  | .deq h => if sh.deq h ≥ K then some (sh, .next h) else some (sh, .state h (sh.deq h))
  | .next h =>
    match sh.next h with
    | some n => some (sh, .advTail h n)
    | none => some (sh, .done none)
  | .advTail h n => some (sh.casTail h n, .advHead h n)
  | .advHead _ n => some ({ sh with head := n }, .head)
  | .state h i =>
    if sh.state h i = .taken then some (sh, .stepOver h i)
    else if sh.one.holes = [] ∧ sh.state h i = .full then some (sh, .take h i)
    else if sh.one.holes = [] ∧ sh.one.streaming ∧ sh.state h i = .empty then
      some (sh, .spin h i 0)
    else some (goAhead sh h i)
  | .stepOver h i => some (sh.setDeq h (i + 1), .head)
  | .take h i => (sh.cell h i).map fun v => (sh.setCell h i none, .setDeq h i v)
  | .setDeq h i v =>
    some ((sh.setDeq h (i + 1)).setOne { sh.one with streaming := true }, .done (some v))
  | .spin h i n =>
    if sh.state h i = .empty ∧ n + 1 < 4 then some (sh, .spin h i (n + 1))
    else if sh.state h i = .full then some (sh, .head)
    else some (goAhead sh h i)
  | .look k =>
    match sh.one.holes[k]? with
    | some (s, j) =>
      if sh.state s j = .full then some (sh, lookAgain k)
      else if k + 1 < sh.one.holes.length then some (sh, .look (k + 1))
      else some (sh, .enq sh.one.walk.1 sh.one.walk.2)
    | none => none
  | .enq s j =>
    if j < min (sh.enq s) K then some (sh, .walk s j (min (sh.enq s) K) (sh.enq s))
    else some (endWalk K sh s j (sh.enq s))
  | .walk s j stop taken =>
    let one := { sh.one with holes := sh.one.holes ++ [(s, j)] }
    if sh.state s j = .full then
      some (sh.setOne { one with walk := (s, j + 1) }, lookAgain sh.one.holes.length)
    else if j + 1 < stop then some (sh.setOne one, .walk s (j + 1) stop taken)
    else some (endWalk K (sh.setOne one) s (j + 1) taken)
  | .walkNext s =>
    match sh.next s with
    | some n => some (sh.setOne { sh.one with walk := (n, 0) }, .enq n 0)
    | none => some (emptyAhead sh)
  | .again k m =>
    match sh.one.holes[m]? with
    | some (s, j) =>
      if sh.state s j = .full then some (sh, lookAgain m)
      else if m + 1 < k then some (sh, .again k (m + 1))
      else some (sh, .pick k)
    | none => none
  | .pick k =>
    match sh.one.holes[k]? with
    | some (s, j) =>
      (sh.cell s j).map fun v =>
        ((sh.setOne { sh.one with holes := sh.one.holes.eraseIdx k }).setCell s j none,
          .setTaken s j v)
    | none => none
  | .setTaken s j v =>
    some ((sh.setState s j .taken).setOne { sh.one with streaming := true }, .done (some v))
  | .done _ => none

/-! ## The two queues -/

inductive Call (α : Type) where
  | push (vs : List α)
  | pop
  deriving DecidableEq, Repr

/-- A push of several elements puts them in one after another. -/
def Call.ops : Call α → List (FifoOp α)
  | .push vs => vs.map .push
  | .pop => [.pop]

/-- Where a thread of the queue for many consumers is. -/
inductive Loc (α : Type) where
  | push (l : PushLoc α)
  | pop (l : ManyLoc α)
  deriving DecidableEq, Repr

/-- `segment_queue<T, true>`, used by threads `Tid`. -/
def manyMachine (α Tid : Type) (K : Nat) :
    Machine Tid (Shared α) (Loc α) (Call α) Unit (FifoOp α) (FifoAns α) where
  init := .init
  may _ _ _ := True
  ops := Call.ops
  start
    | .push vs => .push (loop 0 vs)
    | .pop => .pop .load
  step _ _ sh
    | .push l => (pushStep K true sh l).map fun (sh', l') => (sh', .push l')
    | .pop l => (manyStep K sh l).map fun (sh', l') => (sh', .pop l')
  answer
    | .push (.done k) => some (List.replicate k .pushed)
    | .pop (.done v) => some [.popped v]
    | _ => none

/-- Where a thread of the queue for one consumer is. -/
inductive LocOne (α : Type) where
  | push (l : PushLoc α)
  | pop (l : OneLoc α)
  deriving DecidableEq, Repr

/-- `segment_queue<T, false>`: any thread pushes, thread `cons` pops. -/
def oneMachine (α : Type) {Tid : Type} (K : Nat) (cons : Tid) :
    Machine Tid (Shared α) (LocOne α) (Call α) Unit (FifoOp α) (FifoAns α) where
  init := .init
  may _ t c := c = .pop → t = cons
  ops := Call.ops
  start
    | .push vs => .push (loop 0 vs)
    | .pop => .pop .head
  step _ _ sh
    | .push l => (pushStep K false sh l).map fun (sh', l') => (sh', .push l')
    | .pop l => (oneStep K sh l).map fun (sh', l') => (sh', .pop l')
  answer
    | .push (.done k) => some (List.replicate k .pushed)
    | .pop (.done v) => some [.popped v]
    | _ => none

end Wtc.Segment
