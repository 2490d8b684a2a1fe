import Wtc.Concurrent.Bounded
import Wtc.Concurrent.Machine
import Wtc.Concurrent.Word

/-!
# The bounded ring

`runtime/bounded_ring.hpp`: a queue of exact capacity over a ring of `R` cells.

A push takes the next ticket of `tail` and a pop the next of `head`; ticket `i` is cell `i mod R`.
A cell's sequence number is `i` when it is free for the push of ticket `i`, `i + 1` once that push
has filled it and `i + R` once the pop of ticket `i` has emptied it. Whether an operation may is
decided where it takes its ticket; after that it only waits for the cell.

In the split layout `head` and `tail` are two words; in the packed layout, which overruns and
batches need, they are the halves of one. All of them are 32-bit tickets that wrap.

`pushed` and `popped` count the tickets ever taken. The program has no such counters and no step
looks at them. They say how many tickets other operations take while one is under way.
-/

namespace Wtc.Bounded

open Wtc.Concurrent

variable {α : Type}

/-! ## The queue's parameters -/

/-- What a queue is built with. A capacity above `kMaxCapacity` ends the program. -/
structure Cfg where
  capacity : Nat
  capacity_le : capacity ≤ 2 ^ 30
  manyProducers : Bool
  manyConsumers : Bool
  overrun : Bool
  batches : Bool

namespace Cfg

/-- `packed_`. -/
def packed (cfg : Cfg) : Bool := cfg.overrun || cfg.batches

/-- `mp_`. -/
def mp (cfg : Cfg) : Bool := cfg.manyProducers || cfg.overrun

/-- `mc_`. -/
def mc (cfg : Cfg) : Bool := cfg.manyConsumers || cfg.overrun

/-- `cap_`. -/
def cap (cfg : Cfg) : BitVec 32 := word cfg.capacity

end Cfg

/-- The loop of `ringSize`. From 2 it takes at most 29 rounds to reach `kMaxCapacity`. -/
def ringLoop (capacity : Nat) : Nat → Nat → Nat
  | 0, r => r
  | rounds + 1, r => if r < capacity && r < 2 ^ 30 then ringLoop capacity rounds (r <<< 1) else r

/-- `ringSize`: the least power of two at or above the capacity, and at least two. -/
def ringSize (capacity : Nat) : Nat := ringLoop capacity 29 2

/-- `mask_`. -/
def Cfg.mask (cfg : Cfg) : BitVec 32 := word (ringSize cfg.capacity - 1)

/-- The cell of a ticket. -/
def Cfg.cell (cfg : Cfg) (t : BitVec 32) : Nat := (t &&& cfg.mask).toNat

/-! ## The packed word -/

def headOf (s : BitVec 64) : BitVec 32 := (s >>> 32).setWidth 32

def tailOf (s : BitVec 64) : BitVec 32 := s.setWidth 32

def pack (h t : BitVec 32) : BitVec 64 := h.setWidth 64 <<< 32 ||| t.setWidth 64

/-! ## The shared state -/

structure Shared (α : Type) where
  head : BitVec 32
  tail : BitVec 32
  tailSeen : BitVec 32
  state : BitVec 64
  seq : Nat → BitVec 32
  raw : Nat → Option α
  overruns : BitVec 64
  pushed : Nat
  popped : Nat

/-- A queue just built. -/
def Shared.init : Shared α := ⟨0, 0, 0, 0, fun i => word i, fun _ => none, 0, 0, 0⟩

/-- How many tickets had been taken at some moment. -/
structure Stamp where
  pushed : Nat
  popped : Nat
  deriving DecidableEq, Repr

def Shared.stamp (sh : Shared α) : Stamp := ⟨sh.pushed, sh.popped⟩

/-- A push ticket is taken and `tail` written. -/
def Shared.takeTail (sh : Shared α) (t : BitVec 32) : Shared α :=
  { sh with tail := t, pushed := sh.pushed + 1 }

/-- A pop ticket is taken and `head` written. -/
def Shared.takeHead (sh : Shared α) (h : BitVec 32) : Shared α :=
  { sh with head := h, popped := sh.popped + 1 }

/-- `pushes` push tickets and `pops` pop tickets are taken at one write of the packed word. -/
def Shared.takeBoth (sh : Shared α) (s : BitVec 64) (pushes pops : Nat) : Shared α :=
  { sh with state := s, pushed := sh.pushed + pushes, popped := sh.popped + pops }

def Shared.setRaw (sh : Shared α) (i : Nat) (v : Option α) : Shared α :=
  { sh with raw := Function.update sh.raw i v }

def Shared.setSeq (sh : Shared α) (i : Nat) (n : BitVec 32) : Shared α :=
  { sh with seq := Function.update sh.seq i n }

/-! ## The operations -/

/-- The calls; `tryPushN` has the elements `src(0)`, `src(1)`, … -/
inductive Call (α : Type) where
  | tryPush (v : α)
  | pushOverrun (v : α)
  | consume
  | tryPushN (vs : List α)
  | consumeN (n : Nat)
  | size
  deriving DecidableEq, Repr

def Call.op : Call α → BoundedOp α
  | .tryPush v => .push v
  | .pushOverrun v => .overrun v
  | .consume => .pop
  | .tryPushN vs => .pushN vs
  | .consumeN n => .popN n
  | .size => .size

/-- What comes after the last `take`: the end of a `consume`, of a `consume_n`, or the rest of an
overrunning push, which has its own ticket and element still to fill in. -/
inductive Then (α : Type) where
  | one
  | batch
  | overrun (t : BitVec 32) (v : α)
  deriving DecidableEq, Repr

/-- Where a thread is inside a call. The stamp of an operation on the split layout is from its
first read, that of one on the packed layout from the step that took its tickets. -/
inductive Loc (α : Type) where
  -- `try_push`, split
  | pushTail (v : α) (first : Option Stamp)
  | pushHead (v : α) (st : Stamp) (t : BitVec 32)
  | pushAgain (v : α) (st : Stamp) (t : BitVec 32)
  | pushClaim (v : α) (st : Stamp) (t : BitVec 32)
  -- `consume`, split
  | popHead (first : Option Stamp)
  | popSeen (st : Stamp) (h : BitVec 32)
  | popTail (st : Stamp) (h : BitVec 32)
  | popStore (st : Stamp) (h t : BitVec 32)
  | popClaim (st : Stamp) (h : BitVec 32)
  -- `size`, split
  | sizeHead (first : Option Stamp)
  | sizeTail (st : Stamp) (h : BitVec 32)
  | sizeAgain (st : Stamp) (h t : BitVec 32)
  -- every operation, packed
  | load (c : Call α)
  | swap (c : Call α) (s : BitVec 64)
  -- `fill`, of the tickets from `t` on
  | fill (st : Stamp) (t : BitVec 32) (vs : List α) (ans : BoundedAns α)
  | build (st : Stamp) (t : BitVec 32) (vs : List α) (ans : BoundedAns α)
  | publish (st : Stamp) (t : BitVec 32) (vs : List α) (ans : BoundedAns α)
  -- `take`, of `k` tickets from `h` on, with the elements got so far
  | take (st : Stamp) (h : BitVec 32) (k : Nat) (got : List α) (e : Then α)
  | read (st : Stamp) (h : BitVec 32) (k : Nat) (got : List α) (e : Then α)
  | destroy (st : Stamp) (h : BitVec 32) (k : Nat) (got : List α) (e : Then α)
  | release (st : Stamp) (h : BitVec 32) (k : Nat) (got : List α) (e : Then α)
  -- the overrun counter: of an overrun element, and of a push dropped at capacity zero
  | count (st : Stamp) (t : BitVec 32) (v : α)
  | drop
  | nothing (ans : BoundedAns α)
  | abort
  | done (ans : BoundedAns α)
  deriving DecidableEq, Repr

/-- What an operation does with the packed word it has read: the word it puts in its place, the
tickets that takes, and where the operation goes on. -/
structure Plan (α : Type) where
  word : BitVec 64
  pushes : Nat
  pops : Nat
  next : Stamp → Loc α

/-- The body of the loop of each packed operation: an answer, or a plan to try. -/
def plan (cfg : Cfg) (s : BitVec 64) : Call α → Except (BoundedAns α) (Plan α)
  | .tryPush v =>
    let t := tailOf s
    if t - headOf s ≥ cfg.cap then .error (.pushed false)
    else .ok ⟨pack (headOf s) (t + 1), 1, 0, fun st => .fill st t [v] (.pushed true)⟩
  | .pushOverrun v =>
    let h := headOf s
    let t := tailOf s
    if t - h ≥ cfg.cap then
      -- the oldest first: it may be the cell this push fills
      .ok ⟨pack (h + 1) (t + 1), 1, 1, fun st => .take st h 1 [] (.overrun t v)⟩
    else .ok ⟨pack h (t + 1), 1, 0, fun st => .fill st t [v] (.overran false)⟩
  | .consume =>
    let h := headOf s
    if h = tailOf s then .error (.popped none)
    else .ok ⟨pack (h + 1) (tailOf s), 0, 1, fun st => .take st h 1 [] .one⟩
  | .tryPushN vs =>
    let t := tailOf s
    let used := t - headOf s
    if used ≥ cfg.cap then .error (.pushedN 0)
    else
      let room := cfg.cap - used
      let k : BitVec 32 := if vs.length < room.toNat then word vs.length else room
      .ok ⟨pack (headOf s) (t + k), k.toNat, 0,
        fun st => .fill st t (vs.take k.toNat) (.pushedN k.toNat)⟩
  | .consumeN n =>
    let h := headOf s
    let held := tailOf s - h
    if held = 0 then .error (.poppedN [])
    else
      let k : BitVec 32 := if n < held.toNat then word n else held
      .ok ⟨pack (h + k) (tailOf s), 0, k.toNat, fun st => .take st h k.toNat [] .batch⟩
  | .size => .error (.size (tailOf s - headOf s).toNat)

/-- A packed operation has read the word `s`. -/
def attempt (cfg : Cfg) (s : BitVec 64) (c : Call α) : Loc α :=
  match plan cfg s c with
  | .error ans => .done ans
  | .ok _ => .swap c s

/-- After the last `take`. -/
def finish (st : Stamp) (got : List α) : Then α → Loc α
  | .one => .done (.popped got.head?)
  | .batch => .done (.poppedN got)
  | .overrun t v => .count st t v

/-- After one `fill`, with the elements still to put in. -/
def nextFill (st : Stamp) (t : BitVec 32) (ans : BoundedAns α) : List α → Loc α
  | [] => .done ans
  | v :: vs => .fill st (t + 1) (v :: vs) ans

/-- After one `take`, with `k` more to come. -/
def nextTake (st : Stamp) (h : BitVec 32) (got : List α) (e : Then α) : Nat → Loc α
  | 0 => finish st got e
  | k + 1 => .take st (h + 1) (k + 1) got e

/-- The first location of a call. -/
def start (cfg : Cfg) : Call α → Loc α
  | .tryPush v => if cfg.packed then .load (.tryPush v) else .pushTail v none
  | .pushOverrun v =>
    if !cfg.overrun then .abort else if cfg.capacity = 0 then .drop else .load (.pushOverrun v)
  | .consume => if cfg.packed then .load .consume else .popHead none
  | .tryPushN vs =>
    if !cfg.packed then .abort
    else if vs.isEmpty then .nothing (.pushedN 0) else .load (.tryPushN vs)
  | .consumeN n =>
    if !cfg.packed then .abort
    else if n = 0 then .nothing (.poppedN []) else .load (.consumeN n)
  | .size => if cfg.packed then .load .size else .sizeHead none

/-- One step of a thread; the choice `c` is whether a weak compare-and-swap does not fail
spuriously. -/
def step (cfg : Cfg) (c : Bool) (sh : Shared α) : Loc α → Option (Shared α × Loc α)
  | .pushTail v first => some (sh, .pushHead v (first.getD sh.stamp) sh.tail)
  | .pushHead v st t =>
    some (sh, if t - sh.head ≥ cfg.cap then .pushAgain v st t else .pushClaim v st t)
  | .pushAgain v st t =>
    some (sh, if sh.tail = t then .done (.pushed false) else .pushTail v (some st))
  | .pushClaim v st t =>
    -- with one producer a plain store
    if cfg.mp = false ∨ (c ∧ sh.tail = t) then
      some (sh.takeTail (t + 1), .fill st t [v] (.pushed true))
    else some (sh, .pushTail v (some st))
  | .popHead first => some (sh, .popSeen (first.getD sh.stamp) sh.head)
  | .popSeen st h =>
    some (sh, if (sh.tailSeen - h).toInt ≤ 0 then .popTail st h else .popClaim st h)
  | .popTail st h => some (sh, .popStore st h sh.tail)
  | .popStore st h t =>
    some ({ sh with tailSeen := t }, if h = t then .done (.popped none) else .popClaim st h)
  | .popClaim st h =>
    if cfg.mc = false ∨ (c ∧ sh.head = h) then
      some (sh.takeHead (h + 1), .take st h 1 [] .one)
    else some (sh, .popHead (some st))
  | .sizeHead first => some (sh, .sizeTail (first.getD sh.stamp) sh.head)
  | .sizeTail st h => some (sh, .sizeAgain st h sh.tail)
  | .sizeAgain st h t =>
    some (sh, if sh.head = h then .done (.size (t - h).toNat) else .sizeHead (some st))
  | .load op => some (sh, attempt cfg sh.state op)
  | .swap op s =>
    match plan cfg s op with
    | .error ans => some (sh, .done ans)
    | .ok p =>
      if c ∧ sh.state = s then
        some (sh.takeBoth p.word p.pushes p.pops, p.next (sh.takeBoth p.word p.pushes p.pops).stamp)
      else some (sh, attempt cfg sh.state op)
  | .fill st t vs ans =>
    some (sh, if sh.seq (cfg.cell t) = t then .build st t vs ans else .fill st t vs ans)
  | .build st t vs ans => some (sh.setRaw (cfg.cell t) vs.head?, .publish st t vs ans)
  | .publish st t vs ans =>
    some (sh.setSeq (cfg.cell t) (t + 1), nextFill st t ans vs.tail)
  | .take st h k got e =>
    some (sh, if sh.seq (cfg.cell h) = h + 1 then .read st h k got e else .take st h k got e)
  | .read st h k got e =>
    -- there is no element to read in an empty cell
    (sh.raw (cfg.cell h)).map fun v => (sh, .destroy st h k (got ++ [v]) e)
  | .destroy st h k got e => some (sh.setRaw (cfg.cell h) none, .release st h k got e)
  | .release st h k got e =>
    some (sh.setSeq (cfg.cell h) (h + cfg.mask + 1), nextTake st h got e (k - 1))
  | .count st t v =>
    some ({ sh with overruns := sh.overruns + 1 }, .fill st t [v] (.overran true))
  | .drop => some ({ sh with overruns := sh.overruns + 1 }, .done (.overran true))
  | .nothing ans => some (sh, .done ans)
  | .abort => none
  | .done _ => none

/-- The answer of a call that is over. -/
def answer : Loc α → Option (List (BoundedAns α))
  | .done ans => some [ans]
  | _ => none

/-- Whether a thread may make a call: a side declared single has one thread. -/
def Call.allowed (cfg : Cfg) {Tid : Type} (prod cons t : Tid) : Call α → Prop
  | .tryPush _ | .pushOverrun _ | .tryPushN _ => cfg.mp = true ∨ t = prod
  | .consume | .consumeN _ => cfg.mc = true ∨ t = cons
  | .size => True

/-- The queue, with the threads of the sides declared single. -/
def machine {Tid : Type} (cfg : Cfg) (prod cons : Tid) :
    Machine Tid (Shared α) (Loc α) (Call α) Bool (BoundedOp α) (BoundedAns α) where
  init := .init
  may _ t c := c.allowed cfg prod cons t
  ops c := [c.op]
  start := start cfg
  step _ c sh l := step cfg c sh l
  answer := answer

/-! ## Tickets do not come round -/

/-- The stamp of an operation under way. -/
def Loc.stamp : Loc α → Option Stamp
  | .pushTail _ first => first
  | .pushHead _ st _ | .pushAgain _ st _ | .pushClaim _ st _ => some st
  | .popHead first => first
  | .popSeen st _ | .popTail st _ | .popStore st _ _ | .popClaim st _ => some st
  | .sizeHead first => first
  | .sizeTail st _ | .sizeAgain st _ _ => some st
  | .fill st _ _ _ | .build st _ _ _ | .publish st _ _ _ => some st
  | .take st _ _ _ _ | .read st _ _ _ _ | .destroy st _ _ _ _ | .release st _ _ _ _ => some st
  | .count st _ _ => some st
  | .load _ | .swap _ _ | .drop | .nothing _ | .abort | .done _ => none

/-- No operation has been overtaken by `2 ^ 31` tickets of a side since its stamp. -/
def Timely {Tid : Type} (s : Config Tid (Shared α) (Loc α)) : Prop :=
  ∀ t l st, s.loc t = some l → l.stamp = some st →
    s.sh.pushed < st.pushed + 2 ^ 31 ∧ s.sh.popped < st.popped + 2 ^ 31

end Wtc.Bounded
