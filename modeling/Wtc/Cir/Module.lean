import Wtc.Ir.Machine

/-!
# Modules as the passes read them

A module is a program of which the passes see some functions: those of the files linked with it run
as well, but all that is known of them is which symbols they name (`elsewhere`). The queries are the
ones the passes make: the operations that use a value, the uses of a symbol, what defines a value.
-/

namespace Wtc.Cir

open Wtc.Ir Wtc.Control

inductive CastKind where
  | bitcast
  | arrayToPtrDecay
  | other (n : Nat)
  deriving DecidableEq, Repr

/-- The operations that only compute. -/
inductive Pure where
  | cast (kind : CastKind)
  | unrealizedConversionCast
  | getMember (index : Nat)
  | cmp (kind : Nat)
  /-- Constants, arithmetic, element addresses and the yields of a region. -/
  | other (n : Nat)
  deriving DecidableEq, Repr

inductive Cond where
  | isTrue
  | switch (labels : List Int)
  deriving DecidableEq, Repr

abbrev Op := Instr Pure

structure Module (B : Type) extends Program Pure Cond B where
  /-- The function is in a file linked with the module. -/
  linked : Nat → Bool
  /-- The functions that such a file names. -/
  elsewhere : List Nat
  /-- The functions whose symbols are in an initialiser, an alias, or an attribute of an operation
  other than a call. -/
  named : List Nat

namespace Module

variable {V B : Type} (M : Module B)

/-- The functions of the program with their code. -/
def code (h : Nat) : Body Pure Cond :=
  match M.decls[h]? with
  | some (.body f) => f.code
  | _ => .done

/-- The code that the passes see. -/
def seen (h : Nat) : Body Pure Cond := if M.linked h then .done else M.code h

/-- The operations of the function, in the order a walk meets them. -/
def ops (h : Nat) : List Op := (M.seen h).ops

/-- Whether the value is an `alloca`'s. -/
def isAlloca (h x : Nat) : Bool := .alloca x ∈ M.ops h

/-- The operations that use the value, each with its place in the walk. -/
def users (h x : Nat) : List (Op × Nat) := (M.ops h).zipIdx.filter fun u => x ∈ u.1.operands

/-- Whether an `if`, a loop or a switch tests the value. -/
def tested (h x : Nat) : Bool := (M.seen h).conds.any fun c => x ∈ c.args

/-- The operations that use the symbol, each with its function. -/
def symbolUses (f : Nat) : List (Nat × Op) :=
  (List.range M.decls.length).flatMap fun h =>
    ((M.ops h).filter fun o => f ∈ o.symbols).map fun o => (h, o)

def isThreadSpawn (g : Nat) : Bool :=
  match M.decls[g]? with
  | some (.spawn _) => true
  | _ => false

/-- What the module says of itself is true: initialisers name globals and the functions that are
`named`, and linked files name what is listed. -/
structure Faithful (D : Data Pure Cond V B) : Prop where
  objects : ∀ {o o'}, D.holds (M.init o) (.obj o') → o' < M.globals
  funcs : ∀ {o f}, D.holds (M.init o) (.func f) → f ∈ M.named
  elsewhere : ∀ {h f}, M.linked h = true → ∀ o ∈ (M.code h).ops, f ∈ o.symbols → f ∈ M.elsewhere

/-! ## Queries -/

variable {M}

theorem code_of_body {h : Nat} {f : Func Pure Cond} (hf : M.decls[h]? = some (.body f)) :
    M.code h = f.code := by
  simp [code, hf]

theorem ops_of_body {h : Nat} {f : Func Pure Cond} (hf : M.decls[h]? = some (.body f))
    (hl : M.linked h = false) : M.ops h = f.code.ops := by
  simp [ops, seen, code, hf, hl]

/-- A function of which the passes see an operation is one they see. -/
theorem mem_ops_of_body {h : Nat} {f : Func Pure Cond} {o o' : Op}
    (hf : M.decls[h]? = some (.body f)) (ho' : o' ∈ M.ops h) (ho : o ∈ f.code.ops) :
    o ∈ M.ops h := by
  have hl : M.linked h = false := by
    cases hl : M.linked h with
    | false => rfl
    | true => simp [ops, seen, hl, Code.ops] at ho'
  rwa [ops_of_body hf hl]

theorem mem_code_of_ops {h : Nat} {o : Op} (ho : o ∈ M.ops h) : o ∈ (M.code h).ops := by
  unfold ops seen at ho
  split at ho
  · cases ho
  · exact ho

theorem mem_users {h x : Nat} {o : Op} (ho : o ∈ M.ops h) (hx : x ∈ o.operands) :
    ∃ i, (o, i) ∈ M.users h x := by
  obtain ⟨i, hi⟩ := List.mem_iff_getElem?.1 ho
  refine ⟨i, List.mem_filter.2 ⟨?_, by simpa using hx⟩⟩
  exact List.mk_mem_zipIdx_iff_getElem?.2 hi

theorem mem_symbolUses {h f : Nat} {o : Op} (ho : o ∈ M.ops h) (hf : f ∈ o.symbols) :
    (h, o) ∈ M.symbolUses f := by
  have hlt : h < M.decls.length := by
    by_contra hge
    have hnone : M.decls[h]? = none := List.getElem?_eq_none (Nat.le_of_not_lt hge)
    simp [ops, seen, code, hnone, Code.ops] at ho
  exact List.mem_flatMap.2 ⟨h, List.mem_range.2 hlt,
    List.mem_map.2 ⟨o, List.mem_filter.2 ⟨ho, by simpa using hf⟩, rfl⟩⟩

end Module

/-- Code that mentions a function no linked file names is code the passes see. -/
theorem Module.Faithful.mem_ops {V B : Type} {M : Module B} {D : Data Pure Cond V B}
    (hM : M.Faithful D) {h g : Nat} {f : Func Pure Cond} {o : Op}
    (hf : M.decls[h]? = some (.body f)) (ho : o ∈ f.code.ops) (hg : g ∈ o.symbols)
    (hn : g ∉ M.elsewhere) : o ∈ M.ops h := by
  have ho' : o ∈ (M.code h).ops := by rwa [code_of_body hf]
  have hl : M.linked h = false := by
    cases hl : M.linked h with
    | false => rfl
    | true => exact absurd (hM.elsewhere hl o ho' hg) hn
  rwa [ops_of_body hf hl]

/-! ## Words

The plainest values and memory: integers, addresses with an offset, and a word at each offset. -/

inductive Val where
  | int (n : Int)
  | ptr (o i : Nat)
  | fn (f : Nat)
  deriving DecidableEq, Repr

def Val.names : Val → List Name
  | .int _ => []
  | .ptr o _ => [.obj o]
  | .fn f => [.func f]

/-- Casts keep a value and a member is at its index; a comparison is one with zero. -/
def Val.eval : Pure → List Val → Val
  | .cast _, v :: _ => v
  | .unrealizedConversionCast, v :: _ => v
  | .getMember k, .ptr o i :: _ => .ptr o (i + k)
  | .cmp _, .int n :: _ => .int (if n = 0 then 0 else 1)
  | .other n, _ => .int n
  | _, _ => .int 0

def Val.choose : Cond → List Val → Nat
  | .isTrue, .int n :: _ => if n = 0 then 0 else 1
  | .switch labels, .int n :: _ => labels.idxOf n
  | _, _ => 0

theorem Val.names_eval {p : Pure} {vs : List Val} {n : Name} (h : n ∈ (Val.eval p vs).names) :
    ∃ v ∈ vs, n ∈ v.names := by
  unfold Val.eval at h
  split at h
  · exact ⟨_, List.mem_cons_self, h⟩
  · exact ⟨_, List.mem_cons_self, h⟩
  · exact ⟨_, List.mem_cons_self, h⟩
  · cases h
  · cases h
  · cases h

def words : Data Pure Cond Val (Nat → Val) where
  undef := .int 0
  blank := fun _ => .int 0
  addr o := .ptr o 0
  fn := .fn
  names := Val.names
  target
    | .ptr o i => some (o, i)
    | _ => none
  callee
    | .fn f => some f
    | _ => none
  read b i := b i
  write := Function.update
  holds b n := ∃ i, n ∈ (b i).names
  eval := Val.eval
  choose := Val.choose
  names_undef := rfl
  names_addr _ := rfl
  names_fn _ := rfl
  names_eval := Val.names_eval
  target_names {v o i} h := by
    cases v with
    | ptr o' i' =>
      cases h
      exact List.mem_cons_self
    | _ => cases h
  callee_names {v f} h := by
    cases v with
    | fn f' =>
      cases h
      exact List.mem_cons_self
    | _ => cases h
  holds_blank := by
    rintro n ⟨i, hi⟩
    cases hi
  holds_read h := ⟨_, h⟩
  holds_write {b i v n} h := by
    obtain ⟨j, hj⟩ := h
    by_cases he : j = i
    · subst he
      rw [Function.update_self] at hj
      exact .inr hj
    · rw [Function.update_of_ne he] at hj
      exact .inl ⟨j, hj⟩

end Wtc.Cir
