import Mathlib.Data.Fintype.Card
import Wtc.Flow.Follow
import Wtc.Search.Memo

/-!
# The may-wait query

`BlockingQuery`: whether an operation, or anything it calls, may block in a way that the asking pass
does not accept, with any test of the asking pass's own.

What the names of functions and the text of inline assembly say is given by the module. The
operations of a function are listed in the order in which they are walked. What only the asking pass
looks at is the operation's `tag`.
-/

namespace Wtc.BlockingQuery

open Wtc.Search

/-! ## Modules -/

/-- `BlockingKind`. -/
inductive Kind where
  | allocates
  | waits
  | threading
  | inputOutput
  | sleeps
  | throws
  | mayThrow
  | unseen
  | unknownTarget
  | assembly
  | refused
  deriving DecidableEq, Repr

/-- `ExternalBlocking`. -/
structure External where
  kind : Kind
  what : String
  threading : Bool

/-- `ProgressOpInterface`. -/
structure Progress where
  blocking : Bool
  mayCallAllocator : Bool
  blockingReason : String
  deriving DecidableEq, Repr

/-- Functions are of the type `F`, and values are numbered. -/
structure Call (F : Type) where
  /-- `lookupCallee`. -/
  callee : Option F
  /-- `indirectCallees`. -/
  indirectCallees : List F
  operands : List Nat
  nothrow : Bool
  deriving DecidableEq, Repr

inductive OpKind (F : Type) where
  | progress (p : Progress)
  | inlineAsm (text : String)
  /-- An operation of another name with `asm` in it. -/
  | asm
  | throw
  | allocException
  | call (c : Call F)
  | other
  deriving DecidableEq, Repr

structure Op (F T : Type) where
  loc : String
  kind : OpKind F
  tag : T
  deriving DecidableEq, Repr

/-- A pop, and the slot that its element goes to. -/
structure QueuePop where
  borrowed : Bool
  spscInline : Bool
  out : Option Nat
  deriving DecidableEq, Repr

structure Func (F T : Type) where
  name : String
  ops : List (Op F T)
  hasBody : Bool
  interposable : Bool
  /-- `externalBlocking`. -/
  external : Option External

structure Module (F T : Type) where
  func : F → Func F T
  pops : List QueuePop
  /-- The address that a value is the base class address of. -/
  derivedAddr : Nat → Option Nat
  /-- Values are numbered in the order in which they are defined. -/
  derivedAddr_lt : ∀ {v x}, derivedAddr v = some x → x < v
  onlyNonBlockingInstructions : String → Bool

/-- `BlockingSite`. -/
structure Site (F T : Type) where
  leaf : Op F T
  kind : Kind
  why : String
  callee : Option F
  threading : Bool
  chain : List (Op F T)
  via : List F

/-! ## The query -/

variable {F T : Type} [DecidableEq F]

abbrev State (F T : Type) := Memo F (Site F T)

def Module.ownerlessSlots (m : Module F T) : List Nat :=
  m.pops.filterMap fun p => if p.borrowed && p.spscInline then p.out else none

/-- Up through the base class addresses, of which there are no more than `v`. -/
def Module.ownerless (m : Module F T) (v : Nat) : Bool :=
  m.ownerlessSlots.contains (Flow.follow m.derivedAddr v v)

/-- The body is looked into. -/
def Module.followed (m : Module F T) (f : F) : Bool :=
  (m.func f).hasBody && !(m.func f).interposable

section Query

variable (m : Module F T) (accepted : Kind → Bool)

def site (leaf : Op F T) (kind : Kind) (why : String) : Option (Site F T) :=
  if accepted kind then none else some ⟨leaf, kind, why, none, false, [], []⟩

/-- A target whose body is not looked into. -/
def externalSite (o : Op F T) (nothrow : Bool) (t : F) : Option (Site F T) :=
  let threading := ((m.func t).external.map (·.threading)).getD false
  let make (kind : Kind) (why : String) : Site F T := ⟨o, kind, why, some t, threading, [], []⟩
  let mayThrow : Option (Site F T) :=
    if !nothrow && !accepted .mayThrow then
      some (make .mayThrow ("may throw (" ++ (m.func t).name ++ ")"))
    else none
  match (m.func t).external with
  | none => mayThrow
  | some ext =>
    let own : Option (Site F T) := if accepted ext.kind then none else some (make ext.kind ext.what)
    -- a wait is the reason that matters most, then a throw, then the rest
    if (ext.kind = .waits ∨ ext.kind = .threading) ∧ accepted ext.kind = false then own
    else mayThrow.orElse fun _ => own

/-- The targets of a call in order. `ask` answers for one whose body is looked into. -/
def targetsSite (ask : Ask F (Site F T)) (o : Op F T) (nothrow : Bool) :
    List F → State F T → Option (Site F T) × State F T
  | [], st => (none, st)
  | t :: ts, st =>
    if m.followed t then
      match ask t st with
      | (some s, st) => (some { s with chain := o :: s.chain, via := t :: s.via }, st)
      | (none, st) => targetsSite ask o nothrow ts st
    else
      match externalSite m accepted o nothrow t with
      | some s => (some s, st)
      | none => targetsSite ask o nothrow ts st

def callSite (ask : Ask F (Site F T)) (o : Op F T) (c : Call F) (st : State F T) :
    Option (Site F T) × State F T :=
  match c.callee with
  | some callee =>
    -- the `shared_ptr` of a borrowed pop owns nothing: its members free nothing either
    if (c.operands.head?.map m.ownerless).getD false then (none, st)
    else targetsSite m accepted ask o c.nothrow [callee] st
  | none =>
    match c.indirectCallees with
    | [] => (site accepted o .unknownTarget
        "makes an indirect call whose target is not known here", st)
    | t :: ts => targetsSite m accepted ask o c.nothrow (t :: ts) st

variable (extra : Op F T → Bool → Option (Site F T))

def siteAt (ask : Ask F (Site F T)) (o : Op F T) (inCallee : Bool) (st : State F T) :
    Option (Site F T) × State F T :=
  match extra o inCallee with
  | some s => (some s, st)
  | none =>
    match o.kind with
    | .progress p =>
      if p.blocking then (site accepted o .waits p.blockingReason, st)
      else if p.mayCallAllocator then (site accepted o .allocates p.blockingReason, st)
      else (none, st)
    | .inlineAsm text =>
      if m.onlyNonBlockingInstructions text then (none, st)
      else (site accepted o .assembly "runs inline assembly, which is not looked into", st)
    | .asm => (site accepted o .assembly "runs inline assembly, which is not looked into", st)
    | .throw => (site accepted o .throws
        "throws: the C++ runtime allocates the exception and unwinds the stack", st)
    | .allocException => (site accepted o .throws
        "throws: the C++ runtime allocates the exception and unwinds the stack", st)
    | .call c => callSite m accepted ask o c st
    | .other => (none, st)

/-- The walk of a function up to the first site. -/
def firstAmong (ask : Ask F (Site F T)) : List (Op F T) → State F T → Option (Site F T) × State F T
  | [], st => (none, st)
  | o :: os, st =>
    match siteAt m accepted extra ask o true st with
    | (some s, st) => (some s, st)
    | (none, st) => firstAmong ask os st

/-- A function is in progress at most once, so walks do not nest deeper than there are functions. -/
def firstIn [Fintype F] : Ask F (Site F T) :=
  search (fun ask f => firstAmong m accepted extra ask (m.func f).ops) (Fintype.card F + 1)

/-- `BlockingQuery::at`. -/
def at_ [Fintype F] (o : Op F T) (st : State F T) : Option (Site F T) × State F T :=
  siteAt m accepted extra (firstIn m accepted extra) o false st

/-- The chain of locations and the reason. -/
def Site.key (s : Site F T) : String :=
  s.chain.foldr (fun o k => o.loc ++ ";" ++ k) (s.leaf.loc ++ ";" ++ s.why)

/-- A site is reported once for each key. -/
def report (s : Site F T) (sites : List (Site F T)) : List (Site F T) :=
  if s.key ∈ sites.map Site.key then sites else sites ++ [s]

def sitesAmong [Fintype F] : List (Op F T) → List (Site F T) → State F T →
    List (Site F T) × State F T
  | [], sites, st => (sites, st)
  | o :: os, sites, st =>
    match siteAt m accepted extra (firstIn m accepted extra) o false st with
    | (some s, st) => sitesAmong os (report s sites) st
    | (none, st) => sitesAmong os sites st

/-- Every site of the function's own operations. The function is marked as being walked, and its own
answer is not remembered. -/
def sitesIn [Fintype F] (f : F) (st : State F T) : List (Site F T) × State F T :=
  let (sites, st') := sitesAmong m accepted extra (m.func f).ops []
    { st with inProgress := f :: st.inProgress }
  (sites, { st' with inProgress := st'.inProgress.erase f, metCycle := false })

/-- A question asked of the query. -/
inductive Question (F T : Type) where
  | at_ (o : Op F T)
  | sitesIn (f : F)

def Question.ask [Fintype F] (st : State F T) : Question F T → State F T
  | .at_ o => (BlockingQuery.at_ m accepted extra o st).2
  | .sitesIn f => (BlockingQuery.sitesIn m accepted extra f st).2

/-- The query after questions asked of it. -/
def after [Fintype F] (earlier : List (Question F T)) : State F T :=
  earlier.foldl (Question.ask m accepted extra) ⟨[], [], false⟩

end Query

end Wtc.BlockingQuery
