import Wtc.Concurrent.Fifo
import Wtc.Concurrent.Machine

/-!
# The single-producer single-consumer ring

`runtime/spsc_ring.hpp`: one thread pushes and one pops.

Elements are numbered from zero. Blocks of `kSlots` slots are linked in a ring; slot `i` of a
block holds element `end - kSlots + i`. The producer reuses the block after its own when the
consumer has announced that it left it (`pop_pub_`), and otherwise inserts a new block there by
writing the `next` pointer of its own block.

Each side keeps a copy of the other's counter and reads the shared one only when the copy no
longer answers. How long the consumer waits for more elements once it has caught up (`slip`)
depends on the clock; here it may read `push_pub_` again any number of times.
-/

namespace Wtc.Spsc

open Wtc.Concurrent

variable {α : Type}

/-! ## The shared state -/

/-- The two threads. -/
inductive Side where
  | producer
  | consumer
  deriving DecidableEq, Repr

/-- `producer_state`. -/
structure Producer where
  blk : Nat
  count : Nat
  off : Nat
  cachedPop : Nat

/-- `consumer_state`, without what only steers how long a pop waits. `lent` is the slot that
`try_pop_borrow` handed out. -/
structure Consumer where
  blk : Nat
  count : Nat
  off : Nat
  cachedPush : Nat
  lent : Option (Nat × Nat)

/-- The ring's memory. Blocks are numbered as they are made, and `blocks` counts them. -/
structure Shared (α : Type) where
  next : Nat → Nat
  last : Nat → Nat
  slot : Nat → Nat → Option α
  blocks : Nat
  p : Producer
  c : Consumer
  pushPub : Nat
  popPub : Nat

/-- `spsc_ring()`: block 0, in which both sides start, and block 1, never filled. The `end` of a
block is `last`. -/
def Shared.init (K : Nat) : Shared α where
  next b := if b = 0 then 1 else 0
  last b := if b = 0 then K else 0
  slot _ _ := none
  blocks := 2
  p := ⟨0, 0, 0, 0⟩
  c := ⟨0, 0, 0, 0, none⟩
  pushPub := 0
  popPub := 0

/-- Writes one slot of a block. -/
def setSlot (f : Nat → Nat → Option α) (b i : Nat) (v : Option α) : Nat → Nat → Option α :=
  fun b' i' => if b' = b ∧ i' = i then v else f b' i'

/-- Constructs an element in the producer's next slot. -/
def Shared.build (sh : Shared α) (v : α) : Shared α :=
  { sh with
    slot := setSlot sh.slot sh.p.blk sh.p.off (some v)
    p := { sh.p with off := sh.p.off + 1, count := sh.p.count + 1 } }

/-- `turn_over` with a drained block: the producer goes on in it. -/
def Shared.reuse (K : Nat) (sh : Shared α) (cand : Nat) : Shared α :=
  { sh with
    last := Function.update sh.last cand (sh.p.count + K)
    p := { sh.p with blk := cand, off := 0 } }

/-- `make_block` before `cand`, not yet linked. -/
def Shared.makeBlock (K : Nat) (sh : Shared α) (cand : Nat) : Shared α :=
  { sh with
    next := Function.update sh.next sh.blocks cand
    last := Function.update sh.last sh.blocks (sh.p.count + K)
    blocks := sh.blocks + 1 }

/-- The new block is linked after the producer's, and the producer goes on in it. -/
def Shared.insert (sh : Shared α) (nb : Nat) : Shared α :=
  { sh with
    next := Function.update sh.next sh.p.blk nb
    p := { sh.p with blk := nb, off := 0 } }

/-- The element in a slot is destroyed. -/
def Shared.destroy (sh : Shared α) (b i : Nat) : Shared α :=
  { sh with slot := setSlot sh.slot b i none }

/-- `release_lent`: the element lent by the last `try_pop_borrow` is destroyed. -/
def Shared.releaseLent (sh : Shared α) : Shared α :=
  match sh.c.lent with
  | none => sh
  | some (b, i) => { sh.destroy b i with c := { sh.c with lent := none } }

/-- `push_pub_.load()` into the consumer's copy. -/
def Shared.loadPush (sh : Shared α) : Shared α :=
  { sh with c := { sh.c with cachedPush := sh.pushPub } }

/-- The consumer goes on in the next block. -/
def Shared.follow (sh : Shared α) : Shared α :=
  { sh with c := { sh.c with blk := sh.next sh.c.blk, off := 0 } }

/-! ## The operations -/

/-- `push`, `push_deferred`, `publish`, `consume` (which `try_pop` is too) and `try_pop_borrow`. -/
inductive Call (α : Type) where
  | push (v : α)
  | pushDeferred (v : α)
  | publish
  | consume
  | tryPopBorrow
  deriving DecidableEq, Repr

/-- `push` is `push_deferred` followed by `publish`. -/
def Call.ops : Call α → List (DeferOp α)
  | .push v => [.defer v, .publish]
  | .pushDeferred v => [.defer v]
  | .publish => [.publish]
  | .consume => [.pop]
  | .tryPopBorrow => [.pop]

/-- Which side makes a call. -/
def Call.side : Call α → Side
  | .push _ => .producer
  | .pushDeferred _ => .producer
  | .publish => .producer
  | .consume => .consumer
  | .tryPopBorrow => .consumer

/-- Where a thread is inside a call. `pub` tells `push` from `push_deferred`, and `borrow` tells
`try_pop_borrow` from `consume`. -/
inductive Loc (α : Type) where
  -- `push_deferred` with `turn_over`
  | put (v : α) (pub : Bool)
  | drain (v : α) (pub : Bool) (cand : Nat)
  | insert (v : α) (pub : Bool) (nb : Nat)
  | build (v : α) (pub : Bool)
  | publish (deferred : Bool)
  -- `advance`
  | release (borrow : Bool)
  | check (borrow : Bool)
  | slip (borrow : Bool)
  | turn (borrow : Bool)
  | leave (borrow : Bool)
  | fetch (borrow : Bool)
  | take (b i : Nat)
  | destroy (b i : Nat) (v : Option α)
  | done (ans : List (FifoAns α))
  deriving DecidableEq, Repr

/-- The first location of a call. -/
def start : Call α → Loc α
  | .push v => .put v true
  | .pushDeferred v => .put v false
  | .publish => .publish false
  | .consume => .release false
  | .tryPopBorrow => .release true

/-- After the slot has been filled. -/
def afterBuild (pub : Bool) : Loc α :=
  if pub then .publish true else .done [.pushed]

/-- The end of `advance`: the element at the consumer's place, which is then past it. A borrowed
element is lent, and its owner reads it in place; another is taken out by the next step. -/
def fetch (sh : Shared α) (borrow : Bool) : Shared α × Loc α :=
  if borrow then
    ({ sh with c := { sh.c with
        off := sh.c.off + 1, count := sh.c.count + 1, lent := some (sh.c.blk, sh.c.off) } },
      .done [.popped (sh.slot sh.c.blk sh.c.off)])
  else
    ({ sh with c := { sh.c with off := sh.c.off + 1, count := sh.c.count + 1 } },
      .take sh.c.blk sh.c.off)

/-- One step of a thread; the choice `c` is whether a waiting consumer reads `push_pub_` again. -/
def step (K : Nat) (c : Bool) (sh : Shared α) : Loc α → Option (Shared α × Loc α)
  | .put v pub =>
    if sh.p.off = K then
      -- `turn_over`: the load of `next`, and the test with the copy of `pop_pub_`
      if sh.last (sh.next sh.p.blk) ≤ sh.p.cachedPop then
        some (sh.reuse K (sh.next sh.p.blk), .build v pub)
      else some (sh, .drain v pub (sh.next sh.p.blk))
    else some (sh.build v, afterBuild pub)
  | .drain v pub cand =>
    if sh.last cand ≤ sh.popPub then
      some ({ sh with p := { sh.p with cachedPop := sh.popPub } }.reuse K cand, .build v pub)
    else
      some ({ sh with p := { sh.p with cachedPop := sh.popPub } }.makeBlock K cand,
        .insert v pub sh.blocks)
  | .insert v pub nb => some (sh.insert nb, .build v pub)
  | .build v pub => some (sh.build v, afterBuild pub)
  | .publish deferred =>
    some ({ sh with pushPub := sh.p.count },
      .done (if deferred then [.pushed, .pushed] else [.pushed]))
  | .release borrow => some (sh.releaseLent, .check borrow)
  | .check borrow =>
    if sh.c.count = sh.c.cachedPush then
      some (sh.loadPush, if sh.c.count = sh.pushPub then .done [.popped none] else .slip borrow)
    else some (sh, .turn borrow)
  | .slip borrow => if c then some (sh.loadPush, .slip borrow) else some (sh, .turn borrow)
  | .turn borrow =>
    if sh.c.off = K then some (sh.follow, .leave borrow) else some (fetch sh borrow)
  | .leave borrow => some ({ sh with popPub := sh.c.count }, .fetch borrow)
  | .fetch borrow => some (fetch sh borrow)
  -- `f(std::move(*e))`, then `e->~Slot()`
  | .take b i => some (sh, .destroy b i (sh.slot b i))
  | .destroy b i v => some (sh.destroy b i, .done [.popped v])
  | .done _ => none

/-- The answer of a call that is over. -/
def answer : Loc α → Option (List (FifoAns α))
  | .done ans => some ans
  | _ => none

/-- The ring, with blocks of `K` slots. -/
def machine (K : Nat) :
    Machine Side (Shared α) (Loc α) (Call α) Bool (DeferOp α) (FifoAns α) where
  init := .init K
  may _ t c := t = c.side
  ops := Call.ops
  start := start
  step _ c sh l := step K c sh l
  answer := answer

instance (K : Nat) (s : Config Side (Shared α) (Loc α)) (t : Side) (c : Call α) :
    Decidable ((machine K).may s t c) :=
  inferInstanceAs (Decidable (t = c.side))

end Wtc.Spsc
