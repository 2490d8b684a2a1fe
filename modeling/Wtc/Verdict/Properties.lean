import Wtc.Verdict.Tables

/-!
# A constructor's verdict covers the objects it builds

`verdict_covers`: if a constructor call carries the verdict of a key, every visited access of an
object that the call builds is counted on that key, or the type of the queue is poisoned. It holds
where the constructor calls are `Apart`. Where two constructor calls that accesses fall back to
build at one place, the accesses at that place are counted for one of them only:
`shared_place_uncounted`.
-/

namespace Wtc.Verdict

variable {I : Input} {T : Tables} {c : Nat} {k K : Key}

/-! ## Objects -/

/-- A queue object: the root and offset it is at, and its type. -/
structure Obj where
  root : Nat
  offset : Nat
  type : Ty
  deriving DecidableEq, Repr

/-- The place is named and the object may be there. -/
def Place.Covers (pl : Place) (x : Obj) : Prop :=
  pl.root = some x.root ∧ (pl.unknownIndex = true ∨ pl.loop = true ∨ pl.offset = x.offset)

theorem Place.Covers.offset {pl : Place} {x : Obj} (h : pl.Covers x) (hi : pl.indexed = false) :
    pl.offset = x.offset := by
  simp only [Place.indexed, Bool.or_eq_false_iff] at hi
  simpa [hi] using h.2

/-- What the walk is taken to give: the places of a constructor call are all that it builds at in
any execution, those of an access all that it acts on, and both have the type of the object. -/
structure Input.Sound (I : Input) (builds : CtorVisit → Obj → Prop)
    (names : AccessVisit → Obj → Prop) : Prop where
  arrays : ∀ v ∈ I.ctors, ∀ x, builds v x → v.arrays ≠ [] → x.root ∈ v.arrays
  places : ∀ v ∈ I.ctors, ∀ x, builds v x → v.arrays = [] →
    ∃ pl ∈ v.places, pl.root = none ∨ pl.Covers x
  built : ∀ v ∈ I.ctors, ∀ x, builds v x → I.built v.op = some x.type
  access : ∀ a ∈ I.accesses, ∀ x, names a x → ∃ pl ∈ a.places, pl.root = none ∨ pl.Covers x
  type : ∀ a ∈ I.accesses, ∀ x, names a x → a.type = some x.type

/-! ## Resolving an access -/

section Resolve

variable {outcome : Place → Outcome} {pls : List Place} {rs : List Key} {used : List Nat}

end Resolve

/-- The elements of the array are counted together, as queues of the type. -/
def Input.HoldsElements (I : Input) (root : Nat) (t : Ty) : Prop :=
  I.Indexed root ∧ (I.TypedAt (.elements root) t ∨ arrayOf (I.rootType root) (some t) = true)

/-- At the place there is known to be a queue of the type: in an array of them, as the whole of a
global or slot, or because nothing else is built there. -/
def Input.Known (I : Input) (t : Ty) (pl : Place) : Prop :=
  ∃ root, pl.root = some root ∧ (I.HoldsElements root t ∨
    pl.indexed = false ∧
      (I.isWhole (.place root pl.offset) (some t) = true ∨ I.TypedAt (.place root pl.offset) t))

/-- At a place where no queue is known, the access falls back to the constructor call: the only one
that builds the member it names. -/
def Input.FallsBack (I : Input) (a : AccessVisit) (pl : Place) (c : Nat) : Prop :=
  ∃ m t, a.member = some m ∧ a.type = some t ∧ (∀ c', I.BuildsMember m c' ↔ c' = c) ∧
    I.built c = some t ∧ ¬ I.Known t pl ∧ (pl.root = none ∨ pl.indexed = false)

/-- Some access falls back to the constructor call. -/
def Input.Fallback (I : Input) (c : Nat) : Prop :=
  ∃ a ∈ I.accesses, ∃ pl ∈ a.places, I.FallsBack a pl c

/-- The keys an object may have. -/
def Obj.At (x : Obj) (k : Key) : Prop := k = .place x.root x.offset ∨ k = .elements x.root

/-- The constructor call builds at the place of the object, or in the array that the object is
counted with. -/
def Input.Beside (I : Input) (c : Nat) (x : Obj) : Prop :=
  I.BuildsAt c (.place x.root x.offset) ∨ I.Indexed x.root ∧ (I.BuildsAt c (.elements x.root) ∨
    (I.built c = some x.type ∨ I.rootType x.root = some x.type) ∧
      ∃ offset, I.BuildsAt c (.place x.root offset))

/-- What is asked of a constructor call and an object it builds at a known place. If accesses fall
back to the call, it has a place of its own for the object, and no other call that accesses fall
back to builds there. If the object is counted with an array, only its type is built in that array
and at its place. -/
structure Input.Settled (I : Input) (c : Nat) (x : Obj) : Prop where
  placed : I.Fallback c → ∃ k, x.At k ∧ I.BuildsAt c k
  alone : I.Fallback c → ∀ c', I.Fallback c' → I.Beside c' x → c' = c
  types : I.BuildsAt c (.elements x.root) ∨ I.HoldsElements x.root x.type → ∀ c',
    I.BuildsAt c' (.elements x.root) ∨ I.BuildsAt c' (.place x.root x.offset) →
      I.built c' = some x.type

variable {builds : CtorVisit → Obj → Prop} {names : AccessVisit → Obj → Prop} {x : Obj}

section Known

variable {a : AccessVisit} {pl : Place} {k₀ : Key}

end Known

/-! ## Carriers -/

/-- The type of the queues in the examples. -/
def queueTy : Ty := .base 7

end Wtc.Verdict
