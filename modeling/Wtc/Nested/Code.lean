import Mathlib.Data.List.Basic

/-!
# Code in nested regions

Operations that hold regions, as a compiler's structured form has them: a region is a list of
blocks, a block a list of operations. Leaves are `O`, of which nothing is known here.

A place in a region is a `Pos`, the way down to one operation. A run of a region is told by the
leaves it runs, in order, each by its place, and by how it ends. Conditions are not told: a run may
take any arm and go round a loop as often as it likes. A run may also be looked at before it ends,
which is the outcome `cut`.
-/

namespace Wtc.Nested

inductive LoopKind where
  | forLoop
  | whileLoop
  | doLoop
  deriving DecidableEq, Repr

inductive Kind (O : Type) where
  | leaf (o : O)
  | ret
  | brk
  | cont
  /-- Control flow that the regions do not show. -/
  | goto
  | scope
  /-- A body, and a region that runs whenever the body is left. -/
  | cleanup
  /-- A body, and its handlers. -/
  | attempt
  | ite
  | ternary
  /-- A region that is entered at one of its cases, or not at all. -/
  | switch
  | case
  /-- Condition, body and step. -/
  | loop (k : LoopKind)
  deriving DecidableEq, Repr

inductive Op (O : Type) where
  | mk (kind : Kind O) (regions : List (List (List (Op O))))

abbrev Block (O : Type) := List (Op O)

abbrev Region (O : Type) := List (Block O)

variable {O : Type}

def Op.kind : Op O → Kind O
  | .mk k _ => k

def Op.regions : Op O → List (Region O)
  | .mk _ rs => rs

def Op.region (o : Op O) (k : Nat) : Region O := o.regions[k]?.getD []

def Op.isLoop (o : Op O) : Bool :=
  match o.kind with
  | .loop _ => true
  | _ => false

/-- The block that a region is entered at. The others are reached by jumps alone. -/
def front (r : Region O) : Block O := r.headD []

/-- The place of an operation in a region. -/
structure Loc where
  block : Nat
  idx : Nat
  deriving DecidableEq, Repr

/-- The way down to an operation: it is here, or in a region of the operation that is here. -/
inductive Pos where
  | here (l : Loc)
  | inside (l : Loc) (k : Nat) (p : Pos)
  deriving DecidableEq, Repr

/-- A place in an operation: the operation itself, or a place in one of its regions. -/
abbrev Sub := Option (Nat × Pos)

/-- A place in the operation of that index of the first block. -/
def Pos.of (i : Nat) : Sub → Pos
  | none => .here ⟨0, i⟩
  | some (k, p) => .inside ⟨0, i⟩ k p

def opAt (r : Region O) (l : Loc) : Option (Op O) := do (← r[l.block]?)[l.idx]?

def find (r : Region O) : Pos → Option (Op O)
  | .here l => opAt r l
  | .inside l k p => do find ((← opAt r l).region k) p

/-- Whether a loop is around the place. -/
def underLoop (r : Region O) : Pos → Bool
  | .here _ => false
  | .inside l k p =>
    match opAt r l with
    | some o => o.isLoop || underLoop (o.region k) p
    | none => false

/-! ## All operations -/

mutual
/-- The operations in an operation and itself, in order, each with the way down to it. -/
def Op.walk : Op O → List (Sub × Kind O)
  | .mk kind rs => (none, kind) :: (walkRegions 0 rs).map fun x => (some x.1, x.2)

def walkRegions : Nat → List (Region O) → List ((Nat × Pos) × Kind O)
  | _, [] => []
  | k, r :: rs => ((walkBlocks 0 r).map fun x => ((k, x.1), x.2)) ++ walkRegions (k + 1) rs

def walkBlocks : Nat → List (Block O) → List (Pos × Kind O)
  | _, [] => []
  | b, ops :: bs => walkOps b 0 ops ++ walkBlocks (b + 1) bs

def walkOps : Nat → Nat → List (Op O) → List (Pos × Kind O)
  | _, _, [] => []
  | b, i, o :: ops =>
    (o.walk.map fun x =>
      match x.1 with
      | none => (.here ⟨b, i⟩, x.2)
      | some (k, p) => (.inside ⟨b, i⟩ k p, x.2)) ++ walkOps b (i + 1) ops
end

def walk (r : Region O) : List (Pos × Kind O) := walkBlocks 0 r

/-! ## Runs -/

inductive Outcome where
  /-- It ran to its end. -/
  | fin
  | brk
  | cont
  | ret
  | thrown
  /-- It is not over. -/
  | cut
  deriving DecidableEq, Repr

section Runs

-- runs of an operation from a place in it: the leaves that ran, and the outcome
variable (R : Op O → Sub → List Sub → Outcome → Prop)

/-- Runs of a block from an operation of it on. -/
inductive BlockRuns : Nat → Block O → Sub → List Pos → Outcome → Prop where
  | cut {i b s} : BlockRuns i b s [] .cut
  | done {i b} : b.length ≤ i → BlockRuns i b none [] .fin
  | next {i b s o t t' e} : b[i]? = some o → R o s t .fin → BlockRuns (i + 1) b none t' e →
      BlockRuns i b s (t.map (Pos.of i) ++ t') e
  | leave {i b s o t e} : b[i]? = some o → R o s t e → e ≠ .fin →
      BlockRuns i b s (t.map (Pos.of i)) e

/-- Runs of a region, from its start or from a place in it that a switch jumps to. -/
inductive RegionRuns : Option Pos → Region O → List Pos → Outcome → Prop where
  | start {r t e} : BlockRuns R 0 (front r) none t e → RegionRuns none r t e
  | entered {r i s t e} : i < (front r).length → BlockRuns R i (front r) s t e →
      RegionRuns (some (.of i s)) r t e

/-- A place in one region of an operation. -/
def within (k : Nat) (p : Pos) : Sub := some (k, p)

/-- Condition, body, step. -/
def nextPhase : Nat → Nat
  | 0 => 1
  | 1 => 2
  | _ => 0

/-- Runs of a loop from one of its regions on. -/
inductive LoopRuns : Nat → Option Pos → Op O → List Sub → Outcome → Prop where
  | exit {p o t} : RegionRuns R p (o.region 0) t .fin → LoopRuns 0 p o (t.map (within 0)) .fin
  | brk {k p o t} : RegionRuns R p (o.region k) t .brk → LoopRuns k p o (t.map (within k)) .fin
  | go {k p o t e t' e'} : RegionRuns R p (o.region k) t e → e = .fin ∨ e = .cont ∧ k = 1 →
      LoopRuns (nextPhase k) none o t' e' → LoopRuns k p o (t.map (within k) ++ t') e'
  | leave {k p o t e} : RegionRuns R p (o.region k) t e → e ≠ .fin → e ≠ .brk → e ≠ .cont →
      LoopRuns k p o (t.map (within k)) e

end Runs

/-- The first region of a loop that runs. -/
def LoopKind.first : LoopKind → Nat
  | .doLoop => 1
  | _ => 0

/-- An operation is entered at a place in it: the region, and the place in that. From its own start
any region may be the one. -/
inductive Into : Sub → Nat → Option Pos → Prop where
  | start {k} : Into none k none
  | place {k p} : Into (some (k, p)) k (some p)

/-- The outcome of a body whose clean-up had the other outcome. -/
def Outcome.cleaned (e e' : Outcome) : Outcome := if e' = .fin then e else e'

/-- The outcome of a switch. -/
def Outcome.switched (e : Outcome) : Outcome := if e = .brk then .fin else e

inductive Op.Runs : Op O → Sub → List Sub → Outcome → Prop where
  | leaf {o rs} (e : Outcome) : e = .fin ∨ e = .thrown ∨ e = .cut →
      Op.Runs (.mk (.leaf o) rs) none [none] e
  | ret {rs} : Op.Runs (.mk .ret rs) none [] .ret
  | brk {rs} : Op.Runs (.mk .brk rs) none [] .brk
  | cont {rs} : Op.Runs (.mk .cont rs) none [] .cont
  | held {kind rs s p t e} : kind = .scope ∨ kind = .case → Into s 0 p →
      RegionRuns Op.Runs p ((Op.mk kind rs).region 0) t e →
      Op.Runs (.mk kind rs) s (t.map (within 0)) e
  | arm {kind rs s k p t e} : kind = .ite ∨ kind = .ternary → k < 2 → Into s k p →
      RegionRuns Op.Runs p ((Op.mk kind rs).region k) t e →
      Op.Runs (.mk kind rs) s (t.map (within k)) e
  | body {rs s p t} : Into s 0 p → RegionRuns Op.Runs p ((Op.mk .cleanup rs).region 0) t .cut →
      Op.Runs (.mk .cleanup rs) s (t.map (within 0)) .cut
  | cleanup {rs s p t e t' e'} : Into s 0 p →
      RegionRuns Op.Runs p ((Op.mk .cleanup rs).region 0) t e → e ≠ .cut →
      RegionRuns Op.Runs none ((Op.mk .cleanup rs).region 1) t' e' →
      Op.Runs (.mk .cleanup rs) s (t.map (within 0) ++ t'.map (within 1)) (e.cleaned e')
  | attempt {rs t e} : RegionRuns Op.Runs none ((Op.mk .attempt rs).region 0) t e →
      Op.Runs (.mk .attempt rs) none (t.map (within 0)) e
  | handle {rs t k t' e} : RegionRuns Op.Runs none ((Op.mk .attempt rs).region 0) t .thrown →
      0 < k → RegionRuns Op.Runs none ((Op.mk .attempt rs).region k) t' e →
      Op.Runs (.mk .attempt rs) none (t.map (within 0) ++ t'.map (within k)) e
  | skip {rs} : Op.Runs (.mk .switch rs) none [] .fin
  | switch {rs p o t e} : find ((Op.mk .switch rs).region 0) p = some o → o.kind = .case →
      RegionRuns Op.Runs (some p) ((Op.mk .switch rs).region 0) t e →
      Op.Runs (.mk .switch rs) none (t.map (within 0)) e.switched
  | loop {l rs t e} : LoopRuns Op.Runs l.first none (.mk (.loop l) rs) t e →
      Op.Runs (.mk (.loop l) rs) none t e
  | entered {l rs k p t e} : LoopRuns Op.Runs k (some p) (.mk (.loop l) rs) t e →
      Op.Runs (.mk (.loop l) rs) (some (k, p)) t e

/-- Runs of a body from its start. -/
def Runs (r : Region O) (t : List Pos) (e : Outcome) : Prop := RegionRuns Op.Runs none r t e

end Wtc.Nested
