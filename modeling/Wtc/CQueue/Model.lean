import Wtc.Concurrent.Machine
import Wtc.Concurrent.Bounded
import Wtc.Waiter.Wait
import Wtc.CQueue.Original

/-!
# The lifted C queue

The model of `wtc_c_queue_*`: a bounded ring of pointers, an eventcount for each side and the
count of the producers that have finished. The ring is the atomic bounded queue (each of its
operations is one step), the eventcounts are the modelled ones, step by step.

The counters `pushing` and `popping` are read by `wtc_c_queue_destroy` only and are left out with
it; the topology chooses the form of the ring, which has no part here.
-/

namespace Wtc.CQueue

open Wtc.Concurrent

variable {P Tid : Type}

/-- `wtc_c_queue_init`; where the program ends, the message. -/
def wtcCQueueInit (capacity : BitVec 64) (producers : BitVec 32) (ends : Ends) :
    Except String Cfg :=
  if capacity.toInt < -1 then .error "built with a negative number of slots"
  else if ends = .exactly ∧ producers.toInt < 0 then
    .error "built to finish after a negative number of producers"
  else .ok ⟨capacity.toInt.toNat, producers, ends⟩

/-- The two eventcounts. -/
inductive Side where
  | notEmpty
  | notFull
  deriving DecidableEq, Repr

/-- `ended` counts the terminations in an `int`; `terms` is how many there have been. -/
structure Shared (P Tid : Type) where
  ring : List P
  waiter : Side → Waiter.Shared Tid
  ended : BitVec 32
  terms : Nat

/-- Both eventcounts spin and then park. -/
def policy : Waiter.Policy := .spinThenPark

/-- The constructor closes a queue that has no producers to wait for. -/
def Shared.init (cfg : Cfg) : Shared P Tid where
  ring := []
  waiter side :=
    if side = .notEmpty ∧ cfg.ends ≠ .never ∧ cfg.producers.toInt ≤ 0 then
      Waiter.Shared.bump { Waiter.Shared.init with closed := true }
    else Waiter.Shared.init
  ended := 0
  terms := 0

def Shared.setWaiter (sh : Shared P Tid) (side : Side) (w : Waiter.Shared Tid) : Shared P Tid :=
  { sh with waiter := Function.update sh.waiter side w }

/-! ## The operations -/

def least (a limit : BitVec 64) : BitVec 64 := if a < limit then a else limit

/-- What a look of an operation at the ring gets. -/
inductive Got (P : Type) where
  | pushed
  | popped (v : P)
  | moved (k : Nat) (own : OwnRing P)

/-- The look that each operation waits with. -/
def look (cfg : Cfg) : Call P → List P → List P × Option (Got P)
  | .pushWait v, q =>
    match boundedStep cfg.capacity q (.push v) with
    | (.pushed true, q') => (q', some .pushed)
    | (_, q') => (q', none)
  | .popWait, q =>
    match boundedStep cfg.capacity q .pop with
    | (.popped (some v), q') => (q', some (.popped v))
    | (_, q') => (q', none)
  | .terminate, q => (q, none)
  | .pushBatch src limit, q =>
    if least src.count limit = 0 then
      match boundedStep cfg.capacity q .size with
      | (.size n, q') => (q', if n < cfg.capacity then some (.moved 0 src) else none)
      | (_, q') => (q', none)
    else
      match boundedStep cfg.capacity q (.pushN (src.removeN (least src.count limit).toNat).1) with
      | (.pushedN k, q') => (q', if k > 0 then some (.moved k (src.removeN k).2) else none)
      | (_, q') => (q', none)
  | .popBatch dst limit, q =>
    if least dst.room limit = 0 then
      match boundedStep cfg.capacity q .size with
      | (.size n, q') => (q', if n > 0 then some (.moved 0 dst) else none)
      | (_, q') => (q', none)
    else
      match boundedStep cfg.capacity q (.popN (least dst.room limit).toNat) with
      | (.poppedN vs, q') =>
        (q', if vs.length > 0 then some (.moved vs.length (dst.insertAll vs)) else none)
      | (_, q') => (q', none)

/-- A notify and a close do not look. -/
def noLook (q : List P) : List P × Option (Got P) := (q, none)

/-- What an operation returns, from what its wait got. -/
def Call.answer : Call P → Option (Got P) → Ans P
  | .pushWait _, _ => .pushed
  | .popWait, some (.popped v) => .popped (some v)
  | .popWait, _ => .popped none
  | .terminate, _ => .terminated
  | .pushBatch _ _, some (.moved k src) => .batch (BitVec.ofNat 32 k) src
  | .pushBatch src _, _ => .batch 0 src
  | .popBatch _ _, some (.moved k dst) => .batch (BitVec.ofNat 32 k) dst
  | .popBatch dst _, _ => .batch (-1) dst

/-- The eventcount an operation waits on. -/
def Call.side : Call P → Side
  | .pushWait _ => .notFull
  | .pushBatch _ _ => .notFull
  | _ => .notEmpty

/-- Where a thread is: in the wait of an operation, in the notify after it, at the fetch-and-add
of `terminate`, in the close after it, at the end of the program, or at the end of the call. -/
inductive Loc (P : Type) where
  | wait (c : Call P) (l : Waiter.Loc (Got P))
  | tell (side : Side) (a : Ans P) (l : Waiter.Loc (Got P))
  | terminate
  | closing (l : Waiter.Loc (Got P))
  | fail (what : String)
  | done (a : Ans P)

def start : Call P → Loc P
  | .terminate => .terminate
  | c => .wait c (Waiter.waitUntil policy false)

def Got.moves : Option (Got P) → Nat
  | some (.moved k _) => k
  | _ => 0

/-- What an operation does once its wait is over. -/
def after (c : Call P) (r : Option (Got P)) : Loc P :=
  match c, r with
  | .pushWait _, _ => .tell .notEmpty (c.answer r) (Waiter.notify policy 1)
  | .popWait, none => .done (c.answer r)
  | .popWait, some _ => .tell .notFull (c.answer r) (Waiter.notify policy 1)
  | .pushBatch src limit, _ =>
    -- with nothing to move, the wake-up is passed on to another push
    if least src.count limit = 0 then .tell .notFull (c.answer r) (Waiter.notify policy 1)
    else .tell .notEmpty (c.answer r) (Waiter.notify policy (Got.moves r))
  | .popBatch _ _, none => .done (c.answer r)
  | .popBatch dst limit, some _ =>
    if least dst.room limit = 0 then .tell .notEmpty (c.answer r) (Waiter.notify policy 1)
    else .tell .notFull (c.answer r) (Waiter.notify policy (Got.moves r))
  | .terminate, _ => .done (c.answer r)

variable [DecidableEq Tid]

/-- A step inside the eventcount of one side, with the given look at the ring. -/
def inside (look : List P → List P × Option (Got P)) (t : Tid) (ch : Waiter.Choice Tid)
    (sh : Shared P Tid) (side : Side) (l : Waiter.Loc (Got P)) :
    Option (Shared P Tid × Waiter.Loc (Got P)) :=
  (Waiter.step policy look t ch sh.ring (sh.waiter side) l).map fun (q, w, l') =>
    ({ sh with ring := q }.setWaiter side w, l')

/-- One step of a thread. -/
def step (cfg : Cfg) (t : Tid) (ch : Waiter.Choice Tid) (sh : Shared P Tid) :
    Loc P → Option (Shared P Tid × Loc P)
  | .wait c (.done r) => some (sh, after c r)
  | .wait c l => (inside (look cfg c) t ch sh c.side l).map fun (sh', l') => (sh', .wait c l')
  | .tell _ a (.done _) => some (sh, .done a)
  | .tell side a l =>
    (inside noLook t ch sh side l).map fun (sh', l') => (sh', .tell side a l')
  | .terminate =>
    if cfg.ends = .never then
      some (sh, .fail "terminated, but built without a number of producers")
    else
      let n := sh.ended + 1
      let sh' := { sh with ended := n, terms := sh.terms + 1 }
      if n.toInt > cfg.producers.toInt then
        if cfg.ends = .exactly then
          some (sh', .fail "terminated more often than the producers it was built for")
        else some (sh', .done .terminated)
      else if n = cfg.producers then some (sh', .closing .shut)
      else some (sh', .done .terminated)
  | .closing (.done _) => some (sh, .done .terminated)
  | .closing l =>
    (inside noLook t ch sh .notEmpty l).map fun (sh', l') => (sh', .closing l')
  | .fail _ => none
  | .done _ => none

/-- A queue built with the given values, used by threads `Tid`. -/
def machine (P Tid : Type) [DecidableEq Tid] (cfg : Cfg) :
    Machine Tid (Shared P Tid) (Loc P) (Call P) (Waiter.Choice Tid) (Call P) (Ans P) where
  init := .init cfg
  may _ _ _ := True
  ops c := [c]
  start := start
  step := step cfg
  answer
    | .done a => some [a]
    | _ => none

end Wtc.CQueue
