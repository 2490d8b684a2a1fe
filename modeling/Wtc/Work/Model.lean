import Mathlib.Algebra.Field.Rat
import Wtc.Nested.Cost

/-!
# The work estimate

`WorkEstimator` of `WorkEstimate.cpp`, and what it estimates: the units of the operations that run.

An operation is known by its number, which is what `skip` is asked about. `constantTripCount`,
`constantInt`, `lookupCallee`, `indirectCallees`, `touchesOnlyItsArguments`, `externalBlocking` and
`own` are given with the operations and functions they are asked about. The regions of a `for` are
its condition, its body and its step.
-/

namespace Wtc.Work

open Wtc.Nested

/-! ## Modules -/

/-- A call. Of an argument only its value is kept, if it is a constant. -/
structure Call where
  lookupCallee : Option Nat
  indirectCallees : List Nat
  args : List (Option Nat)

def Call.targets (c : Call) : List Nat :=
  match c.lookupCallee with
  | some callee => [callee]
  | none => c.indirectCallees

inductive Kind where
  | loop (k : LoopKind) (trips : Option Nat)
  /-- An `if` or a ternary. -/
  | branch
  | call (c : Call)
  /-- An operation on a queue or a mutex. -/
  | wtc
  /-- `cir.libc.memcpy` and the others that take a length. -/
  | libc (len : Option Nat)
  | copy (bytes : Nat)
  /-- An operation that counts nothing itself and holds regions. -/
  | held (h : Held)
  /-- An operation without regions; a `break` or a `return` says how it ends. -/
  | plain (own : ℚ≥0) (ends : Outcome)

inductive Op where
  | mk (id : Nat) (kind : Kind) (regions : List (List (List Op)))

def Op.id : Op → Nat
  | .mk id _ _ => id

abbrev Region := List (List Op)

structure Func where
  op : Nat
  symName : String
  /-- The demangled name. -/
  nameOf : String
  body : Region
  interposable : Bool
  touchesOnlyItsArguments : Bool
  allocates : Bool

/-- The functions of a module. -/
abbrev Module := Nat → Func

/-- The body of the function is not known to be the one that runs. -/
def Func.external (f : Func) : Bool := f.body.isEmpty || f.interposable

/-! ## Estimates -/

inductive WorkEstimate where
  | bounded (units : ℚ≥0)
  | unbounded (op : Nat) (why : String)
  deriving DecidableEq

namespace WorkEstimate

def isBounded : WorkEstimate → Bool
  | bounded _ => true
  | unbounded _ _ => false

/-- Both run, one after the other. -/
def add : WorkEstimate → WorkEstimate → WorkEstimate
  | bounded u, bounded v => bounded (u + v)
  | bounded _, e => e
  | e, _ => e

/-- One of the two runs. -/
def larger : WorkEstimate → WorkEstimate → WorkEstimate
  | bounded u, bounded v => bounded (if v ≤ u then u else v)
  | bounded _, e => e
  | e, _ => e

def times : WorkEstimate → Nat → WorkEstimate
  | bounded u, n => bounded (u * n)
  | e, _ => e

end WorkEstimate

open WorkEstimate

def kMaxDepth : Nat := 32

def kCall : ℚ≥0 := 1

def kFloatDivision : ℚ≥0 := 15

def kAllocator : ℚ≥0 := 100

/-- The units of a copy. -/
def copied (len : Nat) : ℚ≥0 := 2 + len / 8

/-- A call of a function without a body here. -/
def external (op : Nat) (c : Call) (f : Func) : WorkEstimate :=
  if !f.body.isEmpty then
    unbounded op ("it calls " ++ f.nameOf ++ ", whose body here may be replaced at link time")
  else if f.touchesOnlyItsArguments then
    if f.symName ∈ ["abs", "labs", "llabs", "fabs", "fabsf"] then bounded 1
    else if f.symName ∈ ["sqrt", "sqrtf"] then bounded kFloatDivision
    else if f.symName ∉ ["strlen", "strcmp"] ∧ 3 ≤ c.args.length then
      match (c.args[2]?.join).filter (· < 2 ^ 40) with
      | some len => bounded (copied len)
      | none => unbounded op ("it calls " ++ f.symName ++ " with a length not known here")
    else unbounded op ("it calls " ++ f.symName ++ ", whose work depends on its argument")
  else if f.allocates then bounded kAllocator
  else unbounded op ("it calls " ++ f.nameOf ++ ", whose body is not visible here")

/-- The estimator: what it remembers of functions, those whose bodies it is in, and whether the
estimate under way met the depth bound. -/
structure WorkEstimator where
  memo : Nat → Option WorkEstimate
  stack : List Nat
  metDepth : Bool

def WorkEstimator.init : WorkEstimator := ⟨fun _ => none, [], false⟩

abbrev Estimate := StateM WorkEstimator WorkEstimate

/-- Estimates one after the other, until one has no bound. -/
def sum : List Estimate → WorkEstimate → Estimate
  | [], e => pure e
  | x :: xs, e => do
    let e := e.add (← x)
    if e.isBounded then sum xs e else pure e

/-- The condition, the body and the step, if there is one. -/
def iteration (cond body : Estimate) (step : Option Estimate) : Estimate := do
  let e := (← cond).add (← body)
  match step with
  | some step => return e.add (← step)
  | none => return e

/-- `op`, by the estimates of the regions. -/
def Kind.estimate (op : Nat) (call : Call → Estimate) : Kind → List Estimate → Estimate
  | .loop .forLoop (some trips), [cond, body, step] => do
    let e ← cond
    return e.add ((← iteration cond body (some step)).times trips)
  | .loop _ _, _ => return unbounded op "it runs a loop whose trip count is not known here"
  | .branch, [a, b] => return larger (← a) (← b)
  | .call c, _ => call c
  | .wtc, _ => return unbounded op "it acts on a queue or a mutex, whose cost is not modelled"
  | .libc len, _ =>
    match len.filter (· < 2 ^ 40) with
    | some len => return bounded (copied len)
    | none => return unbounded op "it copies or scans a length not known here"
  | .copy bytes, _ => return bounded (copied bytes)
  | .plain own _, rs => sum rs (bounded own)
  | _, rs => sum rs (bounded 0)

section Estimator

variable (call : Nat → Call → Estimate) (skip : Nat → Bool)

mutual

def Op.estimate : Op → Estimate
  | .mk id kind rs => kind.estimate id (call id) (estimateRegions id rs)

def estimateRegions (parent : Nat) : List Region → List Estimate
  | [] => []
  | r :: rs => estimateRegion parent r :: estimateRegions parent rs

def estimateRegion (parent : Nat) : Region → Estimate
  | [] => pure (bounded 0)
  | [ops] => estimateBlock ops (bounded 0)
  | _ => pure (unbounded parent "its control flow is not structured (a goto)")

def estimateBlock : List Op → WorkEstimate → Estimate
  | [], e => pure e
  | o :: ops, e =>
    if skip o.id then estimateBlock ops e
    else do
      let e := e.add (← o.estimate)
      if e.isBounded then estimateBlock ops e else pure e

end

end Estimator

variable (M : Module)

/-- `function`, where calls are estimated so. -/
def functionWith (call : Nat → Call → Estimate) (f : Nat) : Estimate := do
  match (← get).memo f with
  | some e => return e
  | none =>
    let outer := (← get).metDepth
    modify fun s => { s with stack := f :: s.stack, metDepth := false }
    let e ← estimateRegion call (fun _ => false) (M f).op (M f).body
    modify fun s => { s with
      stack := s.stack.tail
      memo := if s.metDepth then s.memo else Function.update s.memo f (some e)
      metDepth := outer || s.metDepth }
    return e

/-- What one target adds to a call. Without `function` the stack is `kMaxDepth` deep. -/
def target (function : Option (Nat → Estimate)) (op : Nat) (c : Call) (t : Nat) : Estimate := do
  if (M t).external then return external op c (M t)
  else if t ∈ (← get).stack then
    return unbounded op ("it makes a recursive call to " ++ (M t).nameOf)
  else
    match function with
    | none =>
      modify fun s => { s with metDepth := true }
      return unbounded op ("it calls more than " ++ toString kMaxDepth ++ " functions deep")
    | some function =>
      match ← function t with
      | unbounded _ why => return unbounded op ("it calls " ++ (M t).nameOf ++ ", where " ++ why)
      | e => return e

/-- The largest of the targets. -/
def worst (estimate : Nat → Estimate) : List Nat → WorkEstimate → Estimate
  | [], e => pure e
  | t :: ts, e => do
    let e := e.larger (← estimate t)
    if e.isBounded then worst estimate ts e else pure e

/-- `call`, where bodies are estimated so. -/
def callWith (function : Option (Nat → Estimate)) (op : Nat) (c : Call) : Estimate :=
  match c.targets with
  | [] => return unbounded op "it makes an indirect call whose targets are not known here"
  | ts => return (← worst (target M function op c) ts (bounded 0)).add (bounded kCall)

/-- `call`, where the stack has room for so many functions more. -/
def call : Nat → Nat → Call → Estimate
  | 0 => callWith M none
  | room + 1 => callWith M (some (functionWith M (call room)))

/-! ## Queries -/

/-- What an estimator may be asked, each with the operations to leave out. -/
inductive Query where
  | op (o : Op) (skip : Nat → Bool)
  | region (parent : Nat) (r : Region) (skip : Nat → Bool)
  | iteration (loop : Nat) (cond body : Region) (step : Option Region) (skip : Nat → Bool)
  | function (f : Nat)

def Module.answer : Query → Estimate
  | .op o skip => o.estimate (call M kMaxDepth) skip
  | .region parent r skip => estimateRegion (call M kMaxDepth) skip parent r
  | .iteration loop cond body step skip =>
    let region := estimateRegion (call M kMaxDepth) skip loop
    iteration (region cond) (region body) (step.map region)
  | .function f => functionWith M (call M (kMaxDepth - 1)) f

/-- The estimator after some queries. -/
def Module.after (qs : List Query) : WorkEstimator :=
  qs.foldl (fun s q => (M.answer q s).2) .init

/-! ## Runs -/

section Runs

variable (enter : Call → Beh) (skip : Nat → Bool)

/-- The runs of an operation by those of its regions. An operation whose cost is not known costs
anything. -/
def Kind.runs : Kind → List (Bool → Beh) → Bool → Beh
  | .loop k trips, rs, j => fun c e => ∃ n, (∀ m, trips = some m → n ≤ m) ∧
      -- a case that the loop holds stands in its body
      LoopFrom (phase rs) (if j then 1 else k.first) j n c e
  | .branch, [a, b], j => a j ⊔ b j
  | .call c, _, false => enter c
  | .wtc, _, false => ⊤
  | .libc len, _, false => fun c _ => ∀ n, len = some n → c = copied n
  | .copy bytes, _, false => fun c _ => c = copied bytes
  | .held h, rs, j => h.runs rs j
  | .plain own ends, _, false => fun c e => c = own ∧ (e = ends ∨ e = .thrown ∨ e = .cut)
  | _, _, _ => ⊥

mutual

def Op.runs : Op → Bool → Beh
  | .mk _ kind rs => kind.runs enter (runsRegions rs)

def runsRegions : List Region → List (Bool → Beh)
  | [] => []
  | r :: rs => runsRegion r :: runsRegions rs

/-- What the several blocks of a region do is left open. -/
def runsRegion : Region → Bool → Beh
  | [], _ => Beh.nothing
  | [ops], j => runsBlock ops j
  | _, _ => ⊤

/-- From the first operation, or from the one that holds the case. -/
def runsBlock : List Op → Bool → Beh
  | [], false => Beh.nothing ⊔ Beh.cut
  | [], true => ⊥
  | o :: ops, j =>
    let run := if skip o.id then (o.runs j).free else o.runs j
    Beh.cut ⊔ Beh.Then (· = .fin) run (runsBlock ops false) ⊔ (if j then runsBlock ops true else ⊥)

end

end Runs

/-- The runs of a function that a call reaches. One without a body here costs what `external`
says. -/
def Module.entered (enter : Call → Beh) (c : Call) (t : Nat) : Beh :=
  if (M t).external then fun v _ => ∀ op w, external op c (M t) = bounded w → v = w
  else fun v e => ∃ e', runsRegion enter (fun _ => false) (M t).body false v e' ∧
    e = if e' = .ret then .fin else e'

/-- The runs of a call, followed to the depth given. -/
def Module.enter : Nat → Call → Beh
  | 0, _ => Beh.cut
  | d + 1, c => fun u e => c.targets = [] ∨
      ∃ t ∈ c.targets, ∃ v, u = v + kCall ∧ M.entered (Module.enter d) c t v e

/-- The runs of one iteration of a loop. What it leaves out is not counted, calls are followed. -/
def Module.iterates (d : Nat) (k : LoopKind) (cond body : Region) (step : Option Region)
    (skip : Nat → Bool) : Beh :=
  round k (phase (runsRegions (M.enter d) skip (cond :: body :: step.toList)))

end Wtc.Work
