import Mathlib.Data.List.Dedup

/-!
# Which queue an access is counted on

The part of the ownership analysis that turns the places of constructor calls and accesses into
keys, counts the threads of the accesses on the keys and finds the constructor call that carries a
key's verdict. Its input is what the walk of the thread instances gives: for every visited
constructor call and access, the places that `resolvePlaces` lists, and the member of a record that
it names, if any.

Operations, roots, records, types and threads are numbered. The queues of modelled libraries, which
carry no verdict, are left out.
-/

namespace Wtc.Verdict

/-- A type, as far as arrays go. -/
inductive Ty where
  | base (t : Nat)
  | array (elem : Ty)
  deriving DecidableEq, Repr

/-- What an array of arrays is made of in the end. -/
def Ty.innermost : Ty → Ty
  | .base t => .base t
  | .array t => t.innermost

def Ty.isArray : Ty → Bool
  | .base _ => false
  | .array _ => true

/-- A place: a root if the walk could name it, and the offset in it. Which element of the root it is
may be unknown, or depend on the thread. -/
structure Place where
  root : Option Nat
  offset : Nat
  unknownIndex : Bool
  loop : Bool
  deriving DecidableEq, Repr

/-- A queue: at an offset in a root, every element of an array, or every object that a constructor
call builds (`kElementsOffset`, `kAbstractOffset`). -/
inductive Key where
  | place (root offset : Nat)
  | elements (root : Nat)
  | abstract (ctor : Nat)
  deriving DecidableEq, Repr

/-- A constructor call under one instance: the arrays it builds element by element, the places of
the object it builds, and the record and offset of the member that is. -/
structure CtorVisit where
  op : Nat
  arrays : List Nat
  places : List Place
  member : Option (Nat × Nat)
  deriving DecidableEq, Repr

inductive AccessKind where
  | push
  /-- A push that takes the oldest item out of a full queue. -/
  | overrun
  | pop
  deriving DecidableEq, Repr

/-- An access under one instance, with the type of the queue and the thread of the instance. -/
structure AccessVisit where
  op : Nat
  kind : AccessKind
  type : Option Ty
  thread : Nat
  places : List Place
  member : Option (Nat × Nat)
  deriving DecidableEq, Repr

/-- What is read: the type of the queue that each constructor call builds, the type of a root that
is a global or a slot, and the visits in order. -/
structure Input where
  built : Nat → Option Ty
  rootType : Nat → Option Ty
  ctors : List CtorVisit
  accesses : List AccessVisit

/-- The insertion of a `SetVector`. -/
def addEnd {α : Type} [DecidableEq α] (l : List α) (x : α) : List α := if x ∈ l then l else l ++ [x]

/-! ## Constructors -/

/-- The tables the pass fills: `ctorKeys` and `keyCtors` as pairs, and `keyType`, where a key at
which queues of two types are built has no type. -/
structure Tables where
  ctorKeys : List (Nat × Key)
  keyCtors : List (Key × Nat)
  keyType : Key → Option (Option Ty)
  elementKeys : List Nat
  ctorUnplaced : List Nat
  memberCtors : List ((Nat × Nat) × Nat)

def Tables.empty : Tables := ⟨[], [], fun _ => none, [], [], []⟩

/-- A constructor call builds a queue of the type at the key. -/
def Tables.register (T : Tables) (op : Nat) (k : Key) (t : Ty) : Tables :=
  { T with
    ctorKeys := addEnd T.ctorKeys (op, k)
    keyCtors := addEnd T.keyCtors (k, op)
    keyType := fun k' =>
      if k' = k then
        match T.keyType k with
        | none => some (some t)
        | some t' => some (if t' = some t then some t else none)
      else T.keyType k' }

def Tables.registerElements (T : Tables) (op root : Nat) (t : Ty) : Tables :=
  let T := T.register op (.elements root) t
  { T with elementKeys := addEnd T.elementKeys root }

def Tables.unplace (T : Tables) (op : Nat) : Tables :=
  { T with ctorUnplaced := addEnd T.ctorUnplaced op }

/-- One place of a constructor call. -/
def Tables.placeCtor (T : Tables) (op : Nat) (built : Option Ty) (pl : Place) : Tables :=
  match built, pl.root with
  | some t, some root =>
    if pl.unknownIndex || pl.loop then T.registerElements op root t
    else T.register op (.place root pl.offset) t
  | _, _ => T.unplace op

def Tables.addMember (T : Tables) (op : Nat) : Option (Nat × Nat) → Tables
  | none => T
  | some m => { T with memberCtors := addEnd T.memberCtors (m, op) }

def Tables.visitCtor (T : Tables) (I : Input) (v : CtorVisit) : Tables :=
  match I.built v.op with
  | some t =>
    if v.arrays ≠ [] then v.arrays.foldl (fun T root => T.registerElements v.op root t) T
    else (v.places.foldl (fun T pl => T.placeCtor v.op (some t) pl) T).addMember v.op v.member
  | none => (v.places.foldl (fun T pl => T.placeCtor v.op none pl) T).addMember v.op v.member

/-! ## Types of keys -/

/-- `arrayOf`, of the type of a root. -/
def arrayOf (t elem : Option Ty) : Bool :=
  match t, elem with
  | some t, some elem => t.isArray && t.innermost == elem
  | _, _ => false

/-- `elementsHold`: the elements of the array at the root are queues of the type. -/
def Tables.elementsHold (T : Tables) (I : Input) (root : Nat) (queueTy : Option Ty) : Bool :=
  (queueTy.isSome && (T.keyType (.elements root)).join == queueTy) ||
    arrayOf (I.rootType root) queueTy

/-- `isWhole`. -/
def Input.isWhole (I : Input) (k : Key) (queueTy : Option Ty) : Bool :=
  match k with
  | .place root 0 => (I.rootType root).isSome && I.rootType root == queueTy
  | _ => false

/-- `queueTypeOf`. -/
def Tables.queueTypeOf (T : Tables) (I : Input) : Key → Option Ty
  | .elements root =>
    match T.keyType (.elements root) with
    | some t => t
    | none =>
      match I.rootType root with
      | some t => if t.isArray then some t.innermost else none
      | none => none
  | .place root offset =>
    match (T.keyType (.place root offset)).join with
    | some t => some t
    | none => if offset = 0 then I.rootType root else none
  | .abstract ctor => (T.keyType (.abstract ctor)).join

/-! ## Accesses -/

/-- The arrays that an access reaches with an index that the walk cannot read. -/
def Tables.visitAccess (T : Tables) (I : Input) (a : AccessVisit) : Tables :=
  a.places.foldl (fun T pl =>
    match pl.root with
    | some root =>
      if (pl.unknownIndex || pl.loop) && T.elementsHold I root a.type then
        { T with elementKeys := addEnd T.elementKeys root }
      else T
    | none => T) T

/-- The tables before the accesses are resolved. -/
def Input.tables (I : Input) : Tables :=
  I.accesses.foldl (fun T a => T.visitAccess I a)
    (I.ctors.foldl (fun T v => T.visitCtor I v) Tables.empty)

/-- `abstractKey`: the one constructor call that builds the member which the access names. -/
def Tables.abstractKey (T : Tables) (I : Input) (a : AccessVisit) : Option Nat :=
  match a.member with
  | none => none
  | some m =>
    match (T.memberCtors.filter (·.1 = m)).map (·.2) with
    | [ctor] => if (I.built ctor).isSome && I.built ctor == a.type then some ctor else none
    | _ => none

/-- What one place of an access gives: a key, the constructor call it falls back to, or a reason why
the access cannot be resolved. -/
inductive Outcome where
  | key (k : Key)
  | fallback (ctor : Nat)
  | unresolved (why : String)
  deriving DecidableEq, Repr

/-- A place that has no name or no queue: a member of some object of a record. -/
def Tables.unidentified (T : Tables) (I : Input) (a : AccessVisit) : Outcome :=
  match T.abstractKey I a with
  | some ctor => .fallback ctor
  | none => .unresolved "the queue object could not be identified"

def Tables.outcome (T : Tables) (I : Input) (a : AccessVisit) (pl : Place) : Outcome :=
  match pl.root with
  | none => T.unidentified I a
  | some root =>
    if root ∈ T.elementKeys ∧ T.elementsHold I root a.type then .key (.elements root)
    else if pl.unknownIndex || pl.loop then
      .unresolved "the queue is an element of an array of unknown queues"
    else if !I.isWhole (.place root pl.offset) a.type ∧
        (T.keyType (.place root pl.offset)).join ≠ a.type then T.unidentified I a
    else .key (.place root pl.offset)

/-- What became of an access: the keys it may act on, the constructor calls it fell back to, and why
it could not be resolved. -/
structure Resolved where
  keys : List Key
  used : List Nat
  why : Option String
  deriving DecidableEq, Repr

def resolve (outcome : Place → Outcome) : List Place → List Key → List Nat → Resolved
  | [], rs, used => ⟨rs, used, none⟩
  | pl :: pls, rs, used =>
    match outcome pl with
    | .key k => resolve outcome pls (addEnd rs k) used
    | .fallback ctor => resolve outcome pls (addEnd rs (.abstract ctor)) (addEnd used ctor)
    | .unresolved why => ⟨rs, used, some why⟩

def Input.resolved (I : Input) (a : AccessVisit) : Resolved :=
  resolve (I.tables.outcome I a) a.places [] []

/-- `abstractUsed`, in order of first use. -/
def Input.abstractUsed (I : Input) : List Nat :=
  I.accesses.foldl (fun used a => (I.resolved a).used.foldl addEnd used) []

/-! ## Folding -/

/-- `into`: an array whose elements are counted together takes along every place in it with a queue
of their type. -/
def Input.into (I : Input) : Key → Key
  | .place root offset =>
    let t := I.tables.queueTypeOf I (.place root offset)
    if root ∈ I.tables.elementKeys ∧ t.isSome ∧ t = I.tables.queueTypeOf I (.elements root) then
      .elements root
    else .place root offset
  | k => k

/-- The keys of constructor calls after the arrays have taken theirs along, with the abstract queues
in use. -/
def Input.movedKeys (I : Input) : List (Nat × Key) :=
  I.tables.ctorKeys.map (fun x => (x.1, I.into x.2)) ++ I.abstractUsed.map fun c => (c, .abstract c)

/-- `folded`: the abstract queue that takes a key along, of the last constructor call in use that
builds at it. -/
def Input.folded (I : Input) (k : Key) : Option Key :=
  ((I.abstractUsed.filter fun c => (c, k) ∈ I.movedKeys ∧ k ≠ .abstract c).getLast?).map .abstract

def Input.fold (I : Input) (k : Key) : Key := (I.folded k).getD k

/-- The keys an access is counted on. -/
def Input.keysOf (I : Input) (a : AccessVisit) : List Key :=
  ((I.resolved a).keys.map fun k => I.fold (I.into k)).dedup

/-- `ctorKeys` in the end. -/
def Input.ctorKeys (I : Input) (c : Nat) : List Key :=
  if c ∈ I.abstractUsed then [.abstract c]
  else ((I.movedKeys.filter (·.1 = c)).map (·.2)).dedup

/-- The constructor calls of keys after the arrays have taken theirs along. -/
def Input.movedCtors (I : Input) : List (Key × Nat) :=
  I.tables.keyCtors.map (fun x => (I.into x.1, x.2)) ++ I.abstractUsed.map fun c => (.abstract c, c)

/-- `keyCtors` in the end. -/
def Input.keyCtors (I : Input) (k : Key) : List Nat :=
  if (I.folded k).isSome then [] else ((I.movedCtors.filter (·.1 = k)).map (·.2)).dedup

/-! ## Counting -/

inductive Side where
  | producers
  | consumers
  deriving DecidableEq, Repr

/-- The sides that an access is on. -/
def AccessKind.sides : AccessKind → List Side
  | .push => [.producers]
  | .overrun => [.consumers, .producers]
  | .pop => [.consumers]

/-- The accesses that were resolved. -/
def Input.counted (I : Input) : List AccessVisit :=
  I.accesses.filter fun a => (I.resolved a).why.isNone

/-- `threads` of a side of a key. -/
def Input.threads (I : Input) (k : Key) (side : Side) : List Nat :=
  ((I.counted.filter fun a => k ∈ I.keysOf a ∧ side ∈ a.kind.sides).map (·.thread)).dedup

/-- The keys that have a verdict. -/
def Input.roots (I : Input) : List Key := (I.counted.flatMap I.keysOf).dedup

/-- `carrierOf`: the one constructor call that builds this queue and nothing else. -/
def Input.carrierOf (I : Input) (k : Key) : Option Nat :=
  match k with
  | .abstract c => some c
  | _ =>
    match I.keyCtors k with
    | [c] =>
      if c ∈ I.tables.ctorUnplaced then none
      else if (I.ctorKeys c).length ≠ 1 then none
      else some c
    | _ => none

/-- The constructor call carries the verdict of the key. -/
def Input.Carries (I : Input) (c : Nat) (k : Key) : Prop := k ∈ I.roots ∧ I.carrierOf k = some c

end Wtc.Verdict
