import Wtc.Concurrent.Machine
import Wtc.Concurrent.Closable
import Wtc.Waiter.Wait

/-!
# Queues that are waited on

The model of the waiting operations of `wtc::queue` and `wtc::bounded`. The queue behind them is
taken to be linearizable: each of its own operations is one step, whichever implementation holds
the elements. What is modelled step by step is what the waiting adds: the eventcounts, the order in
which an operation looks, reads `closed_`, reads the clock and notifies, and `close`.

A queue without a capacity is `wtc::queue`, one with a capacity `wtc::bounded`. A push to the former
may be a run of elements, which one notify follows.

The clock is shared and goes on by any number of ticks with any step. `pop_wait_for` has two ways to
answer false, and the answer here says which: `popped none` once the queue was closed, `timedOut`
once the limit had passed.
-/

namespace Wtc.Waiting

open Wtc.Concurrent

variable {α Tid : Type}

/-- The capacity, if any, the policy of the eventcounts and the ticks of a millisecond. -/
structure Cfg where
  capacity : Option Nat
  policy : Waiter.Policy
  perMs : BitVec 64

/-- The two eventcounts; `wtc::queue` has the first only. -/
inductive Side where
  | notEmpty
  | notFull
  deriving DecidableEq, Repr

structure Shared (α Tid : Type) where
  elems : List α
  waiter : Side → Waiter.Shared Tid
  clock : Nat

def Shared.init : Shared α Tid := ⟨[], fun _ => .init, 0⟩

def Shared.setWaiter (sh : Shared α Tid) (side : Side) (w : Waiter.Shared Tid) : Shared α Tid :=
  { sh with waiter := Function.update sh.waiter side w }

/-- What a step leaves open: as for the eventcount, and the ticks that go by. -/
structure Choice (Tid : Type) where
  woken : Finset Tid
  spin : Bool
  spurious : Bool
  elapsed : Nat

/-! ## Time limits -/

def kForeverNs : Nat := 100000000 * 1000000000

/-- `to_ticks`. -/
def toTicks (cfg : Cfg) (ns : BitVec 64) : BitVec 64 :=
  ns / 1000000 * cfg.perMs + ns % 1000000 * cfg.perMs / 1000000

/-- A limit of so many nanoseconds, set when the clock showed `started`. -/
structure Limit where
  ns : BitVec 64
  started : Nat
  deriving DecidableEq, Repr

/-- The variable `until`. -/
def Limit.until (cfg : Cfg) (lim : Limit) : BitVec 64 :=
  BitVec.ofNat 64 lim.started + toTicks cfg lim.ns

/-- `passed`. -/
def passed (till now : BitVec 64) : Bool := (till - now).toInt ≤ 0

/-! ## The operations -/

/-- The calls. -/
inductive Call (α : Type) where
  | push (vs : List α)
  | tryPush (v : α)
  | pushWait (v : α)
  | pushOverrun (v : α)
  | tryPop
  | popWait
  | popWaitFor (limit : BitVec 64)
  | close
  deriving DecidableEq, Repr

def Call.ops : Call α → List (WaitOp α)
  | .push vs => vs.map .push
  | .tryPush v => [.tryPush v]
  | .pushWait v => [.pushWait v]
  | .pushOverrun v => [.overrun v]
  | .tryPop => [.tryPop]
  | .popWait => [.popWait]
  | .popWaitFor _ => [.popFor]
  | .close => [.close]

/-- The pushes of `wtc::bounded` are not those of `wtc::queue`. -/
def Call.allowed (cfg : Cfg) : Call α → Bool
  | .push _ => cfg.capacity.isNone
  | .tryPush _ => cfg.capacity.isSome
  | .pushWait _ => cfg.capacity.isSome
  | .pushOverrun _ => cfg.capacity.isSome
  | _ => true

/-- What an operation waits for. -/
inductive Waits (α : Type) where
  | push (v : α)
  | pop
  | popFor (lim : Option Limit)
  deriving DecidableEq, Repr

def Waits.op : Waits α → WaitOp α
  | .push v => .pushWait v
  | .pop => .popWait
  | .popFor _ => .popFor

/-- The limit of the wait, if it has one. -/
def Waits.limit : Waits α → Option Limit
  | .popFor lim => lim
  | _ => none

def Waits.side : Waits α → Side
  | .push _ => .notFull
  | _ => .notEmpty

/-- What a look gets. -/
inductive Got (α : Type) where
  | pushed
  | popped (v : α)
  deriving DecidableEq, Repr

/-- `try_push` of the queue. -/
def tryPush (cfg : Cfg) (v : α) (q : List α) : List α × Option (Got α) :=
  if Full cfg.capacity q then (q, none) else (q ++ [v], some .pushed)

/-- `consume` of the queue. -/
def tryPop : List α → List α × Option (Got α)
  | [] => ([], none)
  | v :: q => (q, some (.popped v))

/-- The look that an operation waits with. -/
def look (cfg : Cfg) : Waits α → List α → List α × Option (Got α)
  | .push v => tryPush cfg v
  | .pop => tryPop
  | .popFor _ => tryPop

/-- A notify and a close do not look. -/
def noLook (q : List α) : List α × Option (Got α) := (q, none)

/-- The locations of a wait at which it looks. -/
def looking : Waiter.Loc (Got α) → Bool
  | .spinLook _ _ => true
  | .parkLook _ _ => true
  | .lastLook _ _ _ => true
  | _ => false

/--
Where a thread is. `looked` is the clock at the last look of an operation that has waited, which
the program does not keep; `gaveUp` is the end of a `pop_wait_for` whose limit has passed, or that
had none to wait for.
-/
inductive Loc (α : Type) where
  | push (vs : List α) (n : Nat)
  | tryPush (v : α)
  | pushOverrun (v : α)
  | tryPop
  | wait (w : Waits α) (looked : Nat) (l : Waiter.Loc (Got α))
  | popOnce (limit : BitVec 64)
  | readClock (limit : BitVec 64)
  | tell (side : Side) (ans : List (WaitAns α)) (l : Waiter.Loc (Got α))
  | closeEmpty (l : Waiter.Loc (Got α))
  | closeFull (l : Waiter.Loc (Got α))
  | gaveUp (lim : Limit) (looked : Nat)
  | done (ans : List (WaitAns α))
  deriving DecidableEq, Repr

def start (cfg : Cfg) : Call α → Loc α
  | .push vs => .push vs 0
  | .tryPush v => .tryPush v
  | .pushWait v => .wait (.push v) 0 (Waiter.waitUntil cfg.policy false)
  | .pushOverrun v => .pushOverrun v
  | .tryPop => .tryPop
  | .popWait => .wait .pop 0 (Waiter.waitUntil cfg.policy false)
  | .popWaitFor limit => .popOnce limit
  | .close => .closeEmpty .shut

/-- After an operation that put `n` elements in. -/
def published (cfg : Cfg) (n : Nat) (ans : List (WaitAns α)) : Loc α :=
  .tell .notEmpty ans (Waiter.notify cfg.policy n)

/-- After an operation that took `v` out: `made_room` of `wtc::bounded`. -/
def took (cfg : Cfg) (v : α) : Loc α :=
  if cfg.capacity.isSome then .tell .notFull [.popped (some v)] (Waiter.notify cfg.policy 1)
  else .done [.popped (some v)]

/-- After the wait of an operation. -/
def after (cfg : Cfg) : Waits α → Option (Got α) → Loc α
  | .push v, none => .done [.pushed (some v)]
  | .push _, some _ => published cfg 1 [.pushed none]
  | _, some (.popped v) => took cfg v
  | _, _ => .done [.popped none]

/-- `push_overrun` of the queue: the element lost, if any. -/
def overrun (cfg : Cfg) (v : α) (q : List α) : List α × Option α :=
  if Full cfg.capacity q then ((q ++ [v]).tail, (q ++ [v]).head?) else (q ++ [v], none)

variable [DecidableEq Tid]

/-- A step inside the eventcount of one side, with the given look at the queue; `late` says that
the clock shows the limit passed. -/
def inside (cfg : Cfg) (look : List α → List α × Option (Got α)) (t : Tid) (ch : Choice Tid)
    (late : Bool) (sh : Shared α Tid) (side : Side) (l : Waiter.Loc (Got α)) :
    Option (Shared α Tid × Waiter.Loc (Got α)) :=
  (Waiter.step cfg.policy look t ⟨ch.woken, ch.spin, late, ch.spurious⟩ sh.elems (sh.waiter side)
    l).map fun (q, w, l') => ({ sh with elems := q }.setWaiter side w, l')

/-- Whether the clock shows the limit of a wait passed. -/
def Waits.late (cfg : Cfg) (w : Waits α) (clock : Nat) : Bool :=
  match w.limit with
  | none => false
  | some lim => passed (lim.until cfg) (BitVec.ofNat 64 clock)

/-- Where a step inside the wait has led. -/
def Waits.next (w : Waits α) (looked : Nat) (l l' : Waiter.Loc (Got α)) : Loc α :=
  match l.missed, l', w.limit with
  -- the two returns that follow a reading of the clock
  | true, .done none, some lim => .gaveUp lim looked
  | _, _, _ => .wait w looked l'

/-- One step of a thread, at the time that the clock shows. -/
def act (cfg : Cfg) (t : Tid) (ch : Choice Tid) (sh : Shared α Tid) :
    Loc α → Option (Shared α Tid × Loc α)
  | .push [] n => some (sh, published cfg n (List.replicate n (.pushed none)))
  | .push (v :: vs) n => some ({ sh with elems := sh.elems ++ [v] }, .push vs (n + 1))
  | .tryPush v =>
    match tryPush cfg v sh.elems with
    | (q, none) => some ({ sh with elems := q }, .done [.pushed (some v)])
    | (q, some _) => some ({ sh with elems := q }, published cfg 1 [.pushed none])
  | .pushOverrun v =>
    some ({ sh with elems := (overrun cfg v sh.elems).1 },
      published cfg 1 [.overran (overrun cfg v sh.elems).2])
  | .tryPop =>
    match sh.elems with
    | [] => some (sh, .done [.popped none])
    | v :: q => some ({ sh with elems := q }, took cfg v)
  | .wait w _ (.done r) => some (sh, after cfg w r)
  | .wait w looked l =>
    (inside cfg (look cfg w) t ch (w.late cfg sh.clock) sh w.side l).map fun (sh', l') =>
      (sh', w.next (if looking l then sh.clock else looked) l l')
  | .popOnce limit =>
    match sh.elems with
    | v :: q => some ({ sh with elems := q }, took cfg v)
    | [] =>
      if limit.toInt ≤ 0 then some (sh, .gaveUp ⟨limit, sh.clock⟩ sh.clock)
      else if limit.toNat > kForeverNs then
        some (sh, .wait (.popFor none) sh.clock (Waiter.waitUntil cfg.policy false))
      else some (sh, .readClock limit)
  | .readClock limit =>
    some (sh, .wait (.popFor (some ⟨limit, sh.clock⟩)) sh.clock (Waiter.waitUntil cfg.policy true))
  | .tell _ ans (.done _) => some (sh, .done ans)
  | .tell side ans l =>
    (inside cfg noLook t ch false sh side l).map fun (sh', l') => (sh', .tell side ans l')
  | .closeEmpty (.done _) =>
    if cfg.capacity.isSome then some (sh, .closeFull .shut) else some (sh, .done [.closed])
  | .closeEmpty l =>
    (inside cfg noLook t ch false sh .notEmpty l).map fun (sh', l') => (sh', .closeEmpty l')
  | .closeFull (.done _) => some (sh, .done [.closed])
  | .closeFull l =>
    (inside cfg noLook t ch false sh .notFull l).map fun (sh', l') => (sh', .closeFull l')
  | .gaveUp _ _ => none
  | .done _ => none

/-- Time goes by, then the thread takes its step. -/
def step (cfg : Cfg) (t : Tid) (ch : Choice Tid) (sh : Shared α Tid) (l : Loc α) :
    Option (Shared α Tid × Loc α) :=
  act cfg t ch { sh with clock := sh.clock + ch.elapsed } l

/-- A queue with the given values, used by threads `Tid`. -/
def machine (α Tid : Type) [DecidableEq Tid] (cfg : Cfg) :
    Machine Tid (Shared α Tid) (Loc α) (Call α) (Choice Tid) (WaitOp α) (WaitAns α) where
  init := .init
  may _ _ c := c.allowed cfg = true
  ops := Call.ops
  start := start cfg
  step := step cfg
  answer
    | .gaveUp _ _ => some [.timedOut]
    | .done ans => some ans
    | _ => none

instance (cfg : Cfg) (s : Config Tid (Shared α Tid) (Loc α)) (t : Tid) (c : Call α) :
    Decidable ((machine α Tid cfg).may s t c) :=
  inferInstanceAs (Decidable (c.allowed cfg = true))

end Wtc.Waiting
