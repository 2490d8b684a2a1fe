import Mathlib.Logic.Function.Basic
import Wtc.Control.Within

/-!
# Threads, calls and memory

Functions with structured bodies, run by any number of threads over one memory. What values and the
contents of objects are is a parameter (`Data`): of a value it is known which objects and functions
it names, so that nothing is reached but through a value that names it. Functions without a body run
code that is not shown. Such code does anything with what it is given, has read or has been told by
others of its kind, as its moves say; the moves, which are the schedule and the inputs of an
execution, decide everything that the program leaves open.
-/

namespace Wtc.Ir

open Wtc.Control

/-! ## Syntax -/

/-- What an address is of. -/
inductive Name where
  | obj (o : Nat)
  | func (f : Nat)
  deriving DecidableEq, Repr

inductive Callee where
  | direct (f : Nat)
  | indirect (x : Nat)
  deriving DecidableEq, Repr

/-- Operations. Values are numbered in each function; `d` is the one an operation defines. -/
inductive Instr (P : Type) where
  | pure (d : Nat) (p : P) (xs : List Nat)
  | alloca (d : Nat)
  | getGlobal (d g : Nat)
  | getFunc (d f : Nat)
  | load (d addr : Nat)
  | store (v addr : Nat)
  /-- A marker that names a slot and touches nothing in it. -/
  | lifetime (x : Nat)
  | call (d : Option Nat) (callee : Callee) (args : List Nat)
  | ret (v : Option Nat)
  deriving DecidableEq, Repr

/-- A condition and the values it looks at. -/
structure Test (C : Type) where
  how : C
  args : List Nat
  deriving DecidableEq, Repr

variable {P C V B : Type}

abbrev Body (P C : Type) := Code (Instr P) (Test C)

def Callee.operands : Callee → List Nat
  | .direct _ => []
  | .indirect x => [x]

def Instr.operands : Instr P → List Nat
  | .pure _ _ xs => xs
  | .load _ addr => [addr]
  | .store v addr => [v, addr]
  | .lifetime x => [x]
  | .call _ c args => c.operands ++ args
  | .ret v => v.toList
  | _ => []

def Instr.result : Instr P → Option Nat
  | .pure d _ _ => some d
  | .alloca d => some d
  | .getGlobal d _ => some d
  | .getFunc d _ => some d
  | .load d _ => some d
  | .call d _ _ => d
  | _ => none

/-- The functions whose symbol the operation mentions. -/
def Instr.symbols : Instr P → List Nat
  | .getFunc _ f => [f]
  | .call _ (.direct f) _ => [f]
  | _ => []

/-- A slot's address is defined by its `alloca` and by nothing else. -/
structure Func (P C : Type) where
  params : List Nat
  code : Body P C
  slots : ∀ x, .alloca x ∈ code.ops → x ∉ params ∧ ∀ o ∈ code.ops, o.result = some x → o = .alloca x

/-- Whether slots' addresses are defined once. -/
def slotsOnce [DecidableEq P] (params : List Nat) (code : Body P C) : Bool :=
  code.ops.all fun o =>
    match o with
    | .alloca x => x ∉ params ∧ ∀ o' ∈ code.ops, o'.result = some x → o' = .alloca x
    | _ => true

/-- A function from code that has been looked through. -/
def Func.of [DecidableEq P] (params : List Nat) (code : Body P C)
    (h : slotsOnce params code = true) : Func P C where
  params := params
  code := code
  slots x hx := by simpa using List.all_eq_true.1 h _ hx

inductive Decl (P C : Type) where
  | body (f : Func P C)
  /-- Code that is not shown. Unless it `leaks`, it lets out nothing of what it is given, and only
  reads and writes there while it runs. -/
  | outside (leaks : Bool)
  /-- Starts a thread: the argument of that index is the function it runs, on the arguments
  after. -/
  | spawn (entry : Nat)

/-- The objects below `globals` are there from the start, with the given contents. -/
structure Program (P C B : Type) where
  decls : List (Decl P C)
  main : Nat
  globals : Nat
  init : Nat → B

/-! ## Values and memory -/

/-- Values and contents of objects, and what computing makes of them. No operation makes up a
name. -/
structure Data (P C V B : Type) where
  undef : V
  blank : B
  addr : Nat → V
  fn : Nat → V
  names : V → List Name
  /-- The object that a pointer points into, and where. -/
  target : V → Option (Nat × Nat)
  callee : V → Option Nat
  read : B → Nat → V
  write : B → Nat → V → B
  holds : B → Name → Prop
  eval : P → List V → V
  choose : C → List V → Nat
  names_undef : names undef = []
  names_addr : ∀ o, names (addr o) = [.obj o]
  names_fn : ∀ f, names (fn f) = [.func f]
  names_eval : ∀ {p vs n}, n ∈ names (eval p vs) → ∃ v ∈ vs, n ∈ names v
  target_names : ∀ {v o i}, target v = some (o, i) → .obj o ∈ names v
  callee_names : ∀ {v f}, callee v = some f → .func f ∈ names v
  holds_blank : ∀ {n}, ¬ holds blank n
  holds_read : ∀ {b i n}, n ∈ names (read b i) → holds b n
  holds_write : ∀ {b i v n}, holds (write b i v) n → holds b n ∨ n ∈ names v

/-! ## States -/

structure Activation (P C V : Type) where
  func : Nat
  args : List V
  env : Nat → V
  ctrl : List (Frame (Instr P) (Test C))
  /-- Where its caller puts what it returns. -/
  dest : Option Nat
  result : V

/-- A call that is under way: of a function with a body, or of code that is not shown. -/
inductive Layer (P C V : Type) where
  | code (a : Activation P C V)
  | outside (leaks : Bool) (given learned : List V) (dest : Option Nat)

/-- The `alloca` an object comes from, and the thread that ran it. -/
structure Owner where
  thread : Nat
  func : Nat
  id : Nat
  deriving DecidableEq, Repr

/-- The objects there are: those below `next`. -/
structure Objects where
  next : Nat
  owner : Nat → Option Owner

def Objects.add (ob : Objects) (w : Owner) : Objects :=
  ⟨ob.next + 1, Function.update ob.owner ob.next (some w)⟩

structure State (P C V B : Type) where
  /-- The calls under way in each thread, the innermost first. -/
  threads : List (List (Layer P C V))
  mem : Nat → B
  objs : Objects
  /-- What code that is not shown has let out to others of its kind. -/
  shared : List V

/-- What a thread does next. Its own code takes its next step; `answer` is what a call whose result
is left open returns, and `given` what the system returns. All else is of code that is not shown. -/
inductive Move (V : Type) where
  | run (answer given : V)
  | read (at_ : V)
  | write (at_ v : V)
  | call (f : V) (args : List V)
  | start (f : V) (args : List V)
  | keep (v : V)
  | ret (v : V)
  | throw
  deriving DecidableEq, Repr

/-- What a step changes: the stack of its thread, and one thing more. -/
inductive Effect (P C V B : Type) where
  | move (stack : List (Layer P C V))
  | store (o : Nat) (b : B) (stack : List (Layer P C V))
  | alloc (f x : Nat) (stack : List (Layer P C V))
  | start (new : Layer P C V) (stack : List (Layer P C V))
  | keep (v : V) (stack : List (Layer P C V))

namespace State

variable (s : State P C V B)

def withStack (t : Nat) (stack : List (Layer P C V)) : State P C V B :=
  { s with threads := s.threads.set t stack }

def apply (D : Data P C V B) (t : Nat) : Effect P C V B → State P C V B
  | .move stack => s.withStack t stack
  | .store o b stack => { s.withStack t stack with mem := Function.update s.mem o b }
  | .alloc f x stack =>
    { s.withStack t stack with
      mem := Function.update s.mem s.objs.next D.blank
      objs := s.objs.add ⟨t, f, x⟩ }
  | .start new stack => { s with threads := s.threads.set t stack ++ [[new]] }
  | .keep v stack => { s.withStack t stack with shared := v :: s.shared }

end State

def Activation.set (a : Activation P C V) (d : Option Nat) (v : V) : Activation P C V :=
  match d with
  | none => a
  | some d => { a with env := Function.update a.env d v }

/-! ## Steps -/

section Steps

variable (D : Data P C V B) (G : Program P C B)

/-- Parameters get the arguments; nothing else is defined at a function's start. -/
def bind (params : List Nat) (args : List V) (x : Nat) : V :=
  if x ∈ params then args[params.idxOf x]?.getD D.undef else D.undef

def activate (g : Nat) (f : Func P C) (args : List V) (dest : Option Nat) : Activation P C V :=
  ⟨g, args, bind D f.params args, [.block f.code], dest, D.undef⟩

def enter (g : Nat) (args : List V) (dest : Option Nat) : Option (Layer P C V) :=
  match G.decls[g]? with
  | some (.body f) => some (.code (activate D g f args dest))
  | some (.outside leaks) => some (.outside leaks args [] dest)
  | _ => none

/-- A call returns the value to what made it. -/
def deliver (v : V) (dest : Option Nat) : List (Layer P C V) → List (Layer P C V)
  | [] => []
  | .code a :: below => .code (a.set dest v) :: below
  | .outside leaks given learned dest' :: below =>
      .outside leaks given (v :: learned) dest' :: below

/-- A call ends with an exception. -/
def unwind : List (Layer P C V) → List (Layer P C V)
  | .code a :: below => .code { a with ctrl := .exit .throw :: a.ctrl } :: below
  | stack => stack

/-- All that the value names is named by one of these. -/
def knows (vs : List V) (v : V) : Bool :=
  (D.names v).all fun n => vs.any fun k => n ∈ D.names k

/-- What such code may let out of what it is given. -/
def lets (leaks : Bool) (given : List V) : List V := if leaks then given else []

def calleeOf (a : Activation P C V) : Callee → Option Nat
  | .direct g => some g
  | .indirect x => D.callee (a.env x)

variable (s : State P C V B)

/-- An operation of the activation, whose control is past it already. -/
def exec (a : Activation P C V) (below : List (Layer P C V)) (given : V) :
    Instr P → Option (Effect P C V B)
  | .pure d p xs => some (.move (.code (a.set (some d) (D.eval p (xs.map a.env))) :: below))
  | .alloca d => some (.alloc a.func d (.code (a.set (some d) (D.addr s.objs.next)) :: below))
  | .getGlobal d g =>
    if g < G.globals then some (.move (.code (a.set (some d) (D.addr g)) :: below)) else none
  | .getFunc d f => some (.move (.code (a.set (some d) (D.fn f)) :: below))
  | .load d x => do
    let (o, i) ← D.target (a.env x)
    some (.move (.code (a.set (some d) (D.read (s.mem o) i)) :: below))
  | .store v x => do
    let (o, i) ← D.target (a.env x)
    some (.store o (D.write (s.mem o) i (a.env v)) (.code a :: below))
  | .lifetime _ => some (.move (.code a :: below))
  | .call d c xs => do
    let g ← calleeOf D a c
    let vs := xs.map a.env
    match G.decls[g]? with
    | some (.spawn entry) =>
      let f ← D.callee (← vs[entry]?)
      let new ← enter D G f (vs.drop (entry + 1)) none
      if D.names given = [] then some (.start new (.code (a.set d given) :: below)) else none
    | _ => some (.move ((← enter D G g vs d) :: .code a :: below))
  | .ret v => some (.move (.code { a with result := (v.map a.env).getD D.undef } :: below))

/-- A step of code that is shown. `opened` are the functions whose results are left open. -/
def runCode (opened : Nat → Bool) (answer given : V) (a : Activation P C V)
    (below : List (Layer P C V)) : Option (Effect P C V B) :=
  match Control.next a.ctrl with
  | .tau k => some (.move (.code { a with ctrl := k } :: below))
  | .test c k =>
    some (.move (.code { a with ctrl := k (D.choose c.how (c.args.map a.env)) } :: below))
  | .op o k => exec D G s { a with ctrl := k } below given o
  | .stop =>
    match a.ctrl with
    | [] | [.exit (.jump .ret)] =>
      some (.move (deliver (if opened a.func then answer else a.result) a.dest below))
    | [.exit .throw] => some (.move (unwind below))
    | _ => none

/-- What a thread does, given the calls it has under way. -/
def effect (opened : Nat → Bool) : Move V → List (Layer P C V) → Option (Effect P C V B)
  | .run answer given, .code a :: below => runCode D G s opened answer given a below
  | .read v, .outside leaks given learned dest :: below => do
    let (o, i) ← D.target v
    if knows D (given ++ learned ++ s.shared) v then
      some (.move (.outside leaks given (D.read (s.mem o) i :: learned) dest :: below))
    else none
  | .write v w, .outside leaks given learned dest :: below => do
    let (o, i) ← D.target v
    if knows D (given ++ learned ++ s.shared) v ∧
        knows D (lets leaks given ++ learned ++ s.shared) w then
      some (.store o (D.write (s.mem o) i w) (.outside leaks given learned dest :: below))
    else none
  | .call f vs, .outside leaks given learned dest :: below => do
    let g ← D.callee f
    let new ← enter D G g vs none
    if knows D (given ++ learned ++ s.shared) f ∧
        vs.all (knows D (lets leaks given ++ learned ++ s.shared)) then
      some (.move (new :: .outside leaks given learned dest :: below))
    else none
  | .start f vs, .outside leaks given learned dest :: below => do
    let g ← D.callee f
    let new ← enter D G g vs none
    if knows D (given ++ learned ++ s.shared) f ∧
        vs.all (knows D (lets leaks given ++ learned ++ s.shared)) then
      some (.start new (.outside leaks given learned dest :: below))
    else none
  | .keep v, .outside leaks given learned dest :: below =>
    if knows D (lets leaks given ++ learned ++ s.shared) v then
      some (.keep v (.outside leaks given learned dest :: below))
    else none
  | .ret v, .outside leaks given learned dest :: below =>
    if knows D (lets leaks given ++ learned ++ s.shared) v then
      some (.move (deliver v dest below))
    else none
  | .throw, .outside _ _ _ _ :: below => some (.move (unwind below))
  | _, _ => none

end Steps

variable (D : Data P C V B) (G : Program P C B) (opened : Nat → Bool)

def step (t : Nat) (m : Move V) (s : State P C V B) : Option (State P C V B) := do
  let stack ← s.threads[t]?
  let e ← effect D G s opened m stack
  some (s.apply D t e)

/-- A whole execution, by its moves. -/
def run : List (Nat × Move V) → State P C V B → Option (State P C V B)
  | [], s => some s
  | (t, m) :: ms, s => do run ms (← step D G opened t m s)

/-- The program before its first step. -/
def Program.start (args : List V) : State P C V B where
  threads := [(enter D G G.main args none).toList]
  mem := G.init
  objs := ⟨G.globals, fun _ => none⟩
  shared := []

/-- The object that the move reads or writes. -/
def touches (m : Move V) : List (Layer P C V) → Option Nat
  | .code a :: _ =>
    match m, Control.next a.ctrl with
    | .run _ _, .op (.load _ x) _ => (D.target (a.env x)).map (·.1)
    | .run _ _, .op (.store _ x) _ => (D.target (a.env x)).map (·.1)
    | _, _ => none
  | .outside _ _ _ _ :: _ =>
    match m with
    | .read v => (D.target v).map (·.1)
    | .write v _ => (D.target v).map (·.1)
    | _ => none
  | [] => none

end Wtc.Ir
