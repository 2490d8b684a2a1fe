import Mathlib.Data.List.Basic

/-!
# Structured code

Code with loops, branches, switches, scopes with a clean-up and exception handlers, over operations
`O` and conditions `C` of which nothing is known here.

A thread's place in such code is a stack of frames, the innermost first. `next` says what it does
at a place: a step of control alone, an operation, or a test whose outcome decides where it goes
on. What operations do is the client's: an operation may also be a call, which puts a body and the
frame `call` on the stack, or throw, which puts `exit throw` there.
-/

namespace Wtc.Control

variable {O C : Type}

/-- The kinds of operations that hold regions. -/
inductive Node (C : Type) where
  /-- A region that is run. -/
  | scope
  /-- A body, and a region that runs whenever the body is left. -/
  | cleanup
  /-- A body, and a region that runs when the body throws. -/
  | attempt
  /-- Two arms. -/
  | ite (c : C)
  /-- A region that is entered at one of its cases, or not at all. -/
  | switch (c : C)
  | case
  /-- Condition, body and step; with `pre` the condition is first. `c` is tested after the condition
  has run. -/
  | loop (pre : Bool) (c : C)
  deriving DecidableEq, Repr

inductive Jump where
  | brk
  | cont
  | ret
  deriving DecidableEq, Repr

/-- The ways to leave code other than at its end. -/
inductive Exit where
  | jump (j : Jump)
  | throw
  deriving DecidableEq, Repr

/-- A block of code: its first operation and the rest of it. A node has its regions in order, with
`done` for those that its kind does not have. -/
inductive Code (O C : Type) where
  | done
  | op (o : O) (rest : Code O C)
  | node (n : Node C) (r₁ r₂ r₃ rest : Code O C)
  | jump (j : Jump)
  | goto
  deriving DecidableEq, Repr

/-- What a loop repeats. -/
structure Loop (O C : Type) where
  pre : Bool
  c : C
  cond : Code O C
  body : Code O C
  step : Code O C
  deriving DecidableEq, Repr

def Loop.code (l : Loop O C) (rest : Code O C) : Code O C :=
  .node (.loop l.pre l.c) l.cond l.body l.step rest

inductive Frame (O C : Type) where
  | block (b : Code O C)
  /-- A clean-up to run, and a handler, around the frames above. -/
  | fin (b : Code O C)
  | handler (b : Code O C)
  | switch
  /-- Inside the condition, the body and the step of a loop. -/
  | test (l : Loop O C)
  | body (l : Loop O C)
  | step (l : Loop O C)
  | call
  /-- Code is being left. -/
  | exit (e : Exit)
  deriving DecidableEq, Repr

/-- A loop that is entered. -/
def Loop.start (l : Loop O C) : List (Frame O C) :=
  if l.pre then [.block l.cond, .test l] else [.block l.body, .body l]

/-- What comes next. -/
inductive Act (O C : Type) where
  | tau (k : List (Frame O C))
  | op (o : O) (k : List (Frame O C))
  | test (c : C) (k : Nat → List (Frame O C))
  | stop

/-- The code from the `n`-th case on. -/
def Code.enter : Nat → Code O C → Code O C
  | n, .op _ rest => rest.enter n
  | 0, .node .case r₁ r₂ r₃ rest => .node .case r₁ r₂ r₃ rest
  | n + 1, .node .case _ _ _ rest => rest.enter n
  | n, .node _ _ _ _ rest => rest.enter n
  | _, _ => .done

/-- A node is entered, with `k` what comes after it. -/
def nextNode (r₁ r₂ r₃ : Code O C) (k : List (Frame O C)) : Node C → Act O C
  | .scope => .tau (.block r₁ :: k)
  | .cleanup => .tau (.block r₁ :: .fin r₂ :: k)
  | .attempt => .tau (.block r₁ :: .handler r₂ :: k)
  | .ite c => .test c fun n => .block (if n = 0 then r₂ else r₁) :: k
  | .switch c => .test c fun n => .block (r₁.enter n) :: .switch :: k
  | .case => .tau (.block r₁ :: k)
  | .loop pre c =>
    .tau (if pre then .block r₁ :: .test ⟨pre, c, r₁, r₂, r₃⟩ :: k
      else .block r₂ :: .body ⟨pre, c, r₁, r₂, r₃⟩ :: k)

/-- One frame is left in the given way. -/
def nextExit (e : Exit) : List (Frame O C) → Act O C
  | [] => .stop
  | .block _ :: k => .tau (.exit e :: k)
  | .fin b :: k => .tau (.block b :: .exit e :: k)
  | .handler b :: k => .tau (if e = .throw then .block b :: k else .exit e :: k)
  | .switch :: k => .tau (if e = .jump .brk then k else .exit e :: k)
  | .test _ :: k => .tau (if e = .jump .brk then k else .exit e :: k)
  | .step _ :: k => .tau (if e = .jump .brk then k else .exit e :: k)
  | .body l :: k =>
    .tau (if e = .jump .brk then k else if e = .jump .cont then .body l :: k else .exit e :: k)
  | .call :: k =>
    match e with
    | .jump .ret => .tau k
    | .throw => .tau (.exit .throw :: k)
    -- code that is left by a `break` or `continue` is inside a loop of its function
    | _ => .stop
  | .exit _ :: k => .tau (.exit e :: k)

def next : List (Frame O C) → Act O C
  | [] => .stop
  | .block .done :: k => .tau k
  | .block (.op o rest) :: k => .op o (.block rest :: k)
  | .block (.node n r₁ r₂ r₃ rest) :: k => nextNode r₁ r₂ r₃ (.block rest :: k) n
  | .block (.jump j) :: k => .tau (.exit (.jump j) :: k)
  | .block .goto :: _ => .stop
  | .fin b :: k => .tau (.block b :: k)
  | .handler _ :: k => .tau k
  | .switch :: k => .tau k
  | .test l :: k => .test l.c fun n => if n = 0 then k else .block l.body :: .body l :: k
  | .body l :: k => .tau (.block l.step :: .step l :: k)
  | .step l :: k => .tau (.block l.cond :: .test l :: k)
  | .call :: k => .tau k
  | .exit e :: k => nextExit e k

/-! ## The operations of some code -/

/-- The operations, in the order a walk meets them. -/
def Code.ops : Code O C → List O
  | .op o rest => o :: rest.ops
  | .node _ r₁ r₂ r₃ rest => r₁.ops ++ r₂.ops ++ r₃.ops ++ rest.ops
  | _ => []

def Loop.ops (l : Loop O C) : List O := l.cond.ops ++ l.body.ops ++ l.step.ops

end Wtc.Control
