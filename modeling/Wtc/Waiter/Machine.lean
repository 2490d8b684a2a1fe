import Wtc.Concurrent.Machine
import Wtc.Waiter.Model

/-!
# Producers and consumers around one waiter

Any number of threads around a queue of which only the number of elements matters: producers
publish some elements at one step and notify the waiter, consumers wait with or without a time
limit or pop without waiting, and any thread may close the waiter.

## What is counted

* `Loc.looks` — the thread is inside a wait, is awake and looks at the queue once more
* `Loc.drowsy` — the thread sleeps or goes to sleep unless the epoch is bumped
* `Loc.pending` — elements published by a notify that has not woken anyone yet
-/

namespace Wtc.Waiter

open Wtc.Concurrent

/-! ## The calls -/

/-- The limit of a `wait_for`: zero or less, one that may pass, more than `kForeverNs`. -/
inductive Limit where
  | zero
  | finite
  | forever
  deriving DecidableEq, Repr

inductive Call where
  | push (k : Nat)
  | tryPop
  | wait
  | waitFor (limit : Limit)
  | close
  deriving DecidableEq, Repr

/-- Where a thread is: about to publish, at a look outside `wait_until`, or inside the waiter. -/
inductive At where
  | publish (k : Nat)
  | tryPop
  | firstLook (limit : Limit)
  | inside (l : Loc Unit)
  deriving DecidableEq, Repr

/-- The number of elements, and the waiter. -/
structure State (N : Nat) where
  elems : Nat
  w : Shared (Fin N)

/-- A pop of the queue. -/
def look : Nat → Nat × Option Unit
  | 0 => (0, none)
  | n + 1 => (n, some ())

def start (policy : Policy) : Call → At
  | .push k => .publish k
  | .tryPop => .tryPop
  | .wait => .inside (waitUntil policy false)
  | .waitFor limit => .firstLook limit
  | .close => .inside .shut

/-- One step of a thread. -/
def run {N : Nat} (policy : Policy) (t : Fin N) (ch : Choice (Fin N)) (sh : State N) :
    At → Option (State N × At)
  | .publish k => some ({ sh with elems := sh.elems + k }, .inside (notify policy k))
  | .tryPop => some ({ sh with elems := (look sh.elems).1 }, .inside (.done (look sh.elems).2))
  | .firstLook limit =>
    match look sh.elems with
    | (n, some r) => some ({ sh with elems := n }, .inside (.done (some r)))
    | (n, none) =>
      match limit with
      | .zero => some ({ sh with elems := n }, .inside (.done none))
      | .finite => some ({ sh with elems := n }, .inside (waitUntil policy true))
      | .forever => some ({ sh with elems := n }, .inside (waitUntil policy false))
  | .inside l => (step policy look t ch sh.elems sh.w l).map fun (n, w, l') => (⟨n, w⟩, .inside l')

/-- `N` threads around one waiter; a push publishes at least one element. -/
def machine (N : Nat) (policy : Policy) :
    Machine (Fin N) (State N) At Call (Choice (Fin N)) Call Bool where
  init := ⟨0, .init⟩
  may _ _ c := ∀ k, c = .push k → 1 ≤ k
  ops c := [c]
  start := start policy
  step := run policy
  answer
    | .inside (.done r) => some [r.isSome]
    | _ => none

/-! ## What is counted -/

variable {Tid R : Type} [DecidableEq Tid]

/-- The thread is counted in `waiters_`. -/
def Loc.announced : Loc R → Bool
  | .readEpoch _ => true
  | .lastClosed _ _ => true
  | .lastLook _ _ _ => true
  | .check _ _ => true
  | .futex _ _ => true
  | .asleep _ _ => true
  | .cancel _ => true
  | .leave _ => true
  | _ => false

/-- Inside a wait, awake, and with a look at the queue still to make. A thread about to read the
clock may find its time limit passed. A thread past its second look goes back for another one when
the epoch is no longer its key, or when it has been woken. -/
def Loc.looks (w : Shared Tid) (t : Tid) : Loc R → Bool
  | .spinClosed _ => true
  | .spinLook _ _ => true
  | .spinNow limited => !limited
  | .parkClosed _ => true
  | .parkLook _ _ => true
  | .announce _ => true
  | .readEpoch _ => true
  | .lastClosed _ _ => true
  | .lastLook _ _ _ => true
  | .check _ key => w.epoch ≠ key.epoch
  | .futex _ key => w.epoch ≠ key.epoch
  | .asleep _ _ => t ∉ w.asleep
  | .cancel _ => true
  | _ => false

/-- Past the second look, asleep or not, with a key that is still the epoch. -/
def Loc.drowsy (w : Shared Tid) (t : Tid) : Loc R → Bool
  | .check _ key => w.epoch = key.epoch
  | .futex _ key => w.epoch = key.epoch
  | .asleep _ key => t ∈ w.asleep ∧ w.epoch = key.epoch
  | _ => false

/-- The elements a notify has published and not yet bumped the epoch for. -/
def Loc.fresh : Loc R → Nat
  | .notify k => k
  | .bump k => k
  | _ => 0

/-- The elements a notify has published and not yet woken anyone for. -/
def Loc.pending : Loc R → Nat
  | .notify k => k
  | .bump k => k
  | .wake k => k
  | _ => 0

/-- Inside `notify` or `close`. -/
def Loc.busy : Loc R → Bool
  | .notify _ => true
  | .bump _ => true
  | .wake _ => true
  | .shut => true
  | .shutBump => true
  | .shutWake => true
  | _ => false

/-! A count of the waiter's locations, as one of where a thread is. -/

def At.announced : Option At → Bool
  | some (.inside l) => l.announced
  | _ => false

def At.looks (w : Shared Tid) (t : Tid) : Option At → Bool
  | some (.inside l) => l.looks w t
  | some (.firstLook _) => true
  | _ => false

def At.drowsy (w : Shared Tid) (t : Tid) : Option At → Bool
  | some (.inside l) => l.drowsy w t
  | _ => false

def At.fresh : Option At → Nat
  | some (.inside l) => l.fresh
  | _ => 0

def At.pending : Option At → Nat
  | some (.inside l) => l.pending
  | _ => 0

def At.busy : Option At → Bool
  | some (.inside l) => l.busy
  | _ => false

def At.key : Option At → Option Key
  | some (.inside l) => l.key
  | _ => none

/-- The epoch does not come round between the reading of a key and the end of the sleep. -/
def NoWrap {N : Nat} (s : Config (Fin N) (State N) At) : Prop :=
  ∀ t key, At.key (s.loc t) = some key → s.sh.w.bumps < key.bumps + 2 ^ 32

/-- No notify and no close is in progress. -/
def Quiet {N : Nat} (s : Config (Fin N) (State N) At) : Prop :=
  ∀ t, At.busy (s.loc t) = false

/-- The consumers that are asleep, or about to sleep with a key that is still the epoch. -/
def sleepers {N : Nat} (s : Config (Fin N) (State N) At) : Finset (Fin N) :=
  Finset.univ.filter fun t => t ∈ s.sh.w.asleep ∨ At.drowsy s.sh.w t (s.loc t)

/-- The consumers inside a wait that are awake and still have a look to make. -/
def lookers {N : Nat} (s : Config (Fin N) (State N) At) : Finset (Fin N) :=
  Finset.univ.filter fun t => At.looks s.sh.w t (s.loc t)

end Wtc.Waiter
