import Mathlib.Data.Rat.Defs
import Mathlib.Algebra.Order.Ring.Rat

/-!
# The stream gate

The model of `stream_gate`: whether a single consumer that has caught up should wait for a batch.
Its words wrap as those of the source do.

Below it stands the gate it is meant to be, `Exact`: the same counters and sums as numbers that do
not wrap, and the producer's rate compared as a fraction.
-/

namespace Wtc.StreamGate

def kStreamNs : Nat := 100
def kProbeEvery : Nat := 256
def kProbeMax : Nat := 65536
def kStayOpen : Nat := 8
def kProbeSeed : Nat := 4
def kMaxInterval : Nat := 2 ^ 32
def kFrac : Nat := 4

/-- `stream_gate`. -/
structure Gate where
  thr : BitVec 64
  t : BitVec 64
  started : Bool
  tSum : BitVec 64
  aSum : BitVec 64
  streams : BitVec 64
  probes : BitVec 64
  probe : BitVec 32
  probeEvery : BitVec 32
  openRun : BitVec 32
  probing : Bool
  deriving DecidableEq, Repr

/-- The constructor that takes a counter rate; at rate 0 it is the default one. -/
def Gate.ofRate (ticksPerMs : BitVec 64) : Gate :=
  ⟨kStreamNs * ticksPerMs, 0, false, 0, 0, 0, 0, 0, kProbeEvery, 0, false⟩

/-- The interval that a sample adds. -/
def Gate.interval (g : Gate) (now : BitVec 64) : BitVec 64 :=
  let dt := now - g.t
  if (kMaxInterval : BitVec 64) < dt then kMaxInterval else dt

/-- The first part of `should_wait_at`: the threshold, if it is not known yet, and the sums.
`measured` is what `ticks_per_ms()` returns. -/
def Gate.sample (measured arrived now : BitVec 64) (g : Gate) : Gate :=
  let thr := if g.thr = 0 then kStreamNs * measured else g.thr
  -- a counter read on another core can be behind: such a sample is skipped
  if g.started ∧ g.t ≤ now then
    { g with
      thr := thr
      tSum := g.tSum - g.tSum >>> 2 + g.interval now <<< kFrac
      aSum := g.aSum - g.aSum >>> 2 + arrived <<< kFrac
      t := now, started := true, probing := false }
  else { g with thr := thr, t := now, started := true, probing := false }

/-- The producer reads as a stream. -/
def Gate.readsStream (g : Gate) : Bool :=
  g.aSum ≠ 0 ∧ g.tSum * 1000000 ≤ g.thr * g.aSum

def Gate.opened (g : Gate) : Gate :=
  if g.openRun < (kStayOpen : BitVec 32) then
    { g with
      streams := g.streams + 1
      probe := 0
      openRun := g.openRun + 1
      probeEvery := if g.openRun + 1 = (kStayOpen : BitVec 32) then kProbeEvery else g.probeEvery }
  else { g with streams := g.streams + 1, probe := 0 }

def Gate.probed (g : Gate) : Gate :=
  { g with
    openRun := 0
    probe := 0
    probeEvery := if g.probeEvery < (kProbeMax : BitVec 32) then g.probeEvery * 2 else g.probeEvery
    probing := true
    probes := g.probes + 1 }

/-- `should_wait_at`. -/
def Gate.shouldWaitAt (measured arrived now : BitVec 64) (g : Gate) : Bool × Gate :=
  let g := g.sample measured arrived now
  if g.readsStream then (true, g.opened)
  else if g.probeEvery ≤ g.probe + 1 then (true, g.probed)
  else (false, { g with openRun := 0, probe := g.probe + 1 })

/-- `waited`. -/
def Gate.waited (filled : Bool) (g : Gate) : Gate :=
  if g.probing ∧ filled then
    { g with tSum := 0, aSum := g.aSum + (kProbeSeed : BitVec 64) <<< kFrac, probing := false }
  else { g with probing := false }

/-! ## Sequences of calls -/

inductive Call where
  | shouldWaitAt (arrived now : BitVec 64)
  | waited (filled : Bool)
  deriving DecidableEq, Repr

/-- What a `should_wait_at` makes of the producer. -/
inductive Reading where
  | stream
  | probe
  | quiet
  deriving DecidableEq, Repr

/-- `should_wait_at` with what its answer and `probing` say. -/
def Gate.catchUp (measured arrived now : BitVec 64) (g : Gate) : Reading × Gate :=
  let r := g.shouldWaitAt measured arrived now
  (if r.1 then if r.2.probing then .probe else .stream else .quiet, r.2)

/-- The calls of a sequence: the readings of those that are `should_wait_at`, and the gate after
them. -/
def Gate.run (measured : BitVec 64) : List Call → Gate → List Reading × Gate
  | [], g => ([], g)
  | .shouldWaitAt arrived now :: cs, g =>
    let r := g.catchUp measured arrived now
    let rest := Gate.run measured cs r.2
    (r.1 :: rest.1, rest.2)
  | .waited filled :: cs, g => Gate.run measured cs (g.waited filled)

/-! ## The exact gate -/

/-- The gate over numbers that do not wrap. The sums are in units of `2 ^ -kFrac`. -/
structure Exact where
  t : Nat
  started : Bool
  tSum : Nat
  aSum : Nat
  probe : Nat
  probeEvery : Nat
  openRun : Nat
  probing : Bool
  deriving DecidableEq, Repr

def Exact.init : Exact := ⟨0, false, 0, 0, 0, kProbeEvery, 0, false⟩

/-- A sum loses a quarter and gains what came in. -/
def decay (sum gain : Nat) : Nat := sum - sum / 4 + gain * 2 ^ kFrac

def Exact.sample (arrived now : Nat) (e : Exact) : Exact :=
  if e.started ∧ e.t ≤ now then
    { e with
      tSum := decay e.tSum (min (now - e.t) kMaxInterval)
      aSum := decay e.aSum arrived
      t := now, started := true, probing := false }
  else { e with t := now, started := true, probing := false }

/-- Elements arrived, and there were no more than `kStreamNs` between them: the ticks an element
took, against the ticks in that time. -/
def Exact.ReadsStream (ticksPerMs : Nat) (e : Exact) : Prop :=
  e.aSum ≠ 0 ∧
    (e.tSum / 2 ^ kFrac : ℚ) / (e.aSum / 2 ^ kFrac) ≤ (kStreamNs * ticksPerMs : ℚ) / 1000000

instance (ticksPerMs : Nat) (e : Exact) : Decidable (e.ReadsStream ticksPerMs) :=
  inferInstanceAs (Decidable (_ ∧ _))

def Exact.opened (e : Exact) : Exact :=
  if e.openRun < kStayOpen then
    { e with
      probe := 0
      openRun := e.openRun + 1
      probeEvery := if e.openRun + 1 = kStayOpen then kProbeEvery else e.probeEvery }
  else { e with probe := 0 }

def Exact.catchUp (ticksPerMs arrived now : Nat) (e : Exact) : Reading × Exact :=
  let e := e.sample arrived now
  if e.ReadsStream ticksPerMs then (.stream, e.opened)
  else if e.probeEvery ≤ e.probe + 1 then
    (.probe, { e with openRun := 0, probe := 0, probeEvery := min (2 * e.probeEvery) kProbeMax,
                      probing := true })
  else (.quiet, { e with openRun := 0, probe := e.probe + 1 })

def Exact.waited (filled : Bool) (e : Exact) : Exact :=
  if e.probing ∧ filled then
    { e with tSum := 0, aSum := e.aSum + kProbeSeed * 2 ^ kFrac, probing := false }
  else { e with probing := false }

def Exact.run (ticksPerMs : Nat) : List Call → Exact → List Reading × Exact
  | [], e => ([], e)
  | .shouldWaitAt arrived now :: cs, e =>
    let r := e.catchUp ticksPerMs arrived.toNat now.toNat
    let rest := Exact.run ticksPerMs cs r.2
    (r.1 :: rest.1, rest.2)
  | .waited filled :: cs, e => Exact.run ticksPerMs cs (e.waited filled)

/-- The numbers that the gate's words hold. -/
def Gate.exact (g : Gate) : Exact :=
  ⟨g.t.toNat, g.started, g.tSum.toNat, g.aSum.toNat, g.probe.toNat, g.probeEvery.toNat,
    g.openRun.toNat, g.probing⟩

end Wtc.StreamGate
