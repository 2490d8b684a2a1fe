import Wtc.Concurrent.Word

/-!
# The eventcount

The model of `waiter`. A waiter is kept beside a queue of which it knows only a non-blocking
`look` (the `try_pop` of the source): `wait` looks until a look succeeds or the waiter is closed,
and parks in between; `notify` follows every publish.

A step here is one access to `closed_`, `waiters_` or `epoch_`, one look at the queue, one reading
of the clock, or one system call. The fences are not steps: the interleavings are the sequentially
consistent ones.

## The kernel

`asleep` is the kernel's list of the threads that sleep on the futex word. A thread gets in by
`FUTEX_WAIT`, which compares the word and puts the thread in at one step, and gets out by
`FUTEX_WAKE` of some thread, which takes out `n` sleepers of the kernel's choice or all there are,
or by itself (a time limit, a signal, a spurious return).

`bumps` counts the bumps of the epoch; the word `epoch_` is that count modulo `2 ^ 32`. A key read
from the epoch is kept with the count it was read at, which the program does not see.
-/

namespace Wtc.Waiter

open Wtc.Concurrent

/-- `wait_policy`. -/
inductive Policy where
  | spin
  | park
  | spinThenPark
  deriving DecidableEq, Repr

structure Shared (Tid : Type) where
  waiters : BitVec 32
  epoch : BitVec 32
  closed : Bool
  asleep : Finset Tid
  bumps : Nat

/-- A waiter just built. -/
def Shared.init {Tid : Type} : Shared Tid := ⟨0, 0, false, ∅, 0⟩

/-- What a step leaves open: the sleepers that a wake-up reaches, whether the spin budget lasts,
whether the time limit has passed, whether a sleep ends without a wake-up. -/
structure Choice (Tid : Type) where
  woken : Finset Tid
  spin : Bool
  passed : Bool
  spurious : Bool

/-- A key, with the number of bumps there had been when it was read. -/
structure Key where
  epoch : BitVec 32
  bumps : Nat
  deriving DecidableEq, Repr

/--
Where a thread is inside `wait_until`, `notify` or `close`. A look that succeeds gives an `R`;
a wait is over with `some r` where the source returns true, with `none` where it returns false.
-/
inductive Loc (R : Type) where
  /-- `wait_until`, the spinning loop. -/
  | spinClosed (limited : Bool)
  | spinLook (limited wasClosed : Bool)
  | spinNow (limited : Bool)
  /-- `wait_until`, the parking loop: the first look. -/
  | parkClosed (limited : Bool)
  | parkLook (limited wasClosed : Bool)
  | parkNow
  /-- `prepare`. -/
  | announce (limited : Bool)
  | readEpoch (limited : Bool)
  /-- The second look. -/
  | lastClosed (limited : Bool) (key : Key)
  | lastLook (limited : Bool) (key : Key) (wasClosed : Bool)
  /-- `sleep`. -/
  | check (limited : Bool) (key : Key)
  | futex (limited : Bool) (key : Key)
  | asleep (limited : Bool) (key : Key)
  /-- `cancel`, before the next round and before returning. -/
  | cancel (limited : Bool)
  | leave (r : Option R)
  /-- `notify` of `published` elements, and its `wake`. -/
  | notify (published : Nat)
  | bump (published : Nat)
  | wake (published : Nat)
  /-- `close`, and its `wake`. -/
  | shut
  | shutBump
  | shutWake
  | done (r : Option R)
  deriving DecidableEq, Repr

variable {Tid Q R : Type}

/-- `wait_until` begins. -/
def waitUntil (policy : Policy) (limited : Bool) : Loc R :=
  if policy ≠ .park then .spinClosed limited else .parkClosed limited

/-- `notify` begins. -/
def notify (policy : Policy) (published : Nat) : Loc R :=
  if policy = .spin ∨ published = 0 then .done none else .notify published

def intMax : Nat := 2 ^ 31 - 1

/-- The bump of the epoch in `wake`. -/
def Shared.bump (w : Shared Tid) : Shared Tid :=
  { w with epoch := w.epoch + 1, bumps := w.bumps + 1 }

variable [DecidableEq Tid]

/-- The given sleepers leave the kernel's list. -/
def Shared.rouse (w : Shared Tid) (woken : Finset Tid) : Shared Tid :=
  { w with asleep := w.asleep \ woken }

/-- `FUTEX_WAKE` of `n`, reaching the given sleepers. -/
def Shared.futexWake (w : Shared Tid) (n : Nat) (woken : Finset Tid) : Option (Shared Tid) :=
  if woken ⊆ w.asleep ∧ woken.card = min n w.asleep.card then
    some (w.rouse woken)
  else none

/-- One step of thread `t` in `wait_until`, `notify` or `close`. -/
def step (policy : Policy) (look : Q → Q × Option R) (t : Tid) (ch : Choice Tid) (q : Q)
    (w : Shared Tid) : Loc R → Option (Q × Shared Tid × Loc R)
  | .spinClosed limited => some (q, w, .spinLook limited w.closed)
  | .spinLook limited wasClosed =>
    match look q with
    | (q', some r) => some (q', w, .done (some r))
    | (q', none) =>
      if wasClosed then some (q', w, .done none) else some (q', w, .spinNow limited)
  | .spinNow limited =>
    if limited ∧ ch.passed then some (q, w, .done none)
    else if ch.spin ∨ policy = .spin then some (q, w, .spinClosed limited)
    else some (q, w, .parkClosed limited)
  | .parkClosed limited => some (q, w, .parkLook limited w.closed)
  | .parkLook limited wasClosed =>
    match look q with
    | (q', some r) => some (q', w, .done (some r))
    | (q', none) =>
      if wasClosed then some (q', w, .done none)
      else if limited then some (q', w, .parkNow)
      else some (q', w, .announce limited)
  | .parkNow => if ch.passed then some (q, w, .done none) else some (q, w, .announce true)
  | .announce limited => some (q, { w with waiters := w.waiters + 1 }, .readEpoch limited)
  | .readEpoch limited => some (q, w, .lastClosed limited ⟨w.epoch, w.bumps⟩)
  | .lastClosed limited key => some (q, w, .lastLook limited key w.closed)
  | .lastLook limited key wasClosed =>
    match look q with
    | (q', some r) => some (q', w, .leave (some r))
    | (q', none) =>
      if wasClosed then some (q', w, .leave none) else some (q', w, .check limited key)
  | .check limited key =>
    if w.epoch ≠ key.epoch then some (q, w, .cancel limited) else some (q, w, .futex limited key)
  | .futex limited key =>
    if w.epoch ≠ key.epoch then some (q, w, .cancel limited)
    else some (q, { w with asleep := insert t w.asleep }, .asleep limited key)
  | .asleep limited _ =>
    -- a sleeper that no wake-up has reached goes on only by itself
    if t ∈ w.asleep ∧ ¬ ch.spurious then none
    else some (q, { w with asleep := w.asleep.erase t }, .cancel limited)
  | .cancel limited => some (q, { w with waiters := w.waiters - 1 }, .parkClosed limited)
  | .leave r => some (q, { w with waiters := w.waiters - 1 }, .done r)
  | .notify published =>
    if w.waiters = 0 then some (q, w, .done none) else some (q, w, .bump published)
  | .bump published => some (q, w.bump, .wake published)
  | .wake published =>
    (w.futexWake (min published intMax) ch.woken).map fun w' => (q, w', .done none)
  | .shut => some (q, { w with closed := true }, .shutBump)
  | .shutBump => some (q, w.bump, .shutWake)
  | .shutWake => (w.futexWake intMax ch.woken).map fun w' => (q, w', .done none)
  | .done _ => none

/-- The key a thread keeps between `prepare` and the end of its sleep. -/
def Loc.key : Loc R → Option Key
  | .lastClosed _ key => some key
  | .lastLook _ key _ => some key
  | .check _ key => some key
  | .futex _ key => some key
  | .asleep _ key => some key
  | _ => none

end Wtc.Waiter
