import Wtc.Specialise.Model

/-!
# Executions with values

The activations of a module's functions run leaves in any order of each other, each along a run of
its function's body. A variable is a slot of one activation or a global. One whose address goes
nowhere but to loads and stores is changed by the stores to it and by nothing else; any other may
change at any step.
-/

namespace Wtc.Specialise

open Wtc.Nested
open Counted (usesDirectly)

/-- An activation. `caller` is the activation that called it and the index of the call in that one's
leaves; it is unknown for a thread's start. -/
structure Frame where
  func : Nat
  env : Nat → Int
  slots : Nat → Int
  /-- The leaves it has run. -/
  trace : List Pos
  caller : Option (Nat × Nat)

structure State where
  frames : List Frame
  globals : Nat → Int

/-- A variable. -/
inductive Var where
  | slot (act v : Nat)
  | global (g : Nat)
  deriving DecidableEq, Repr

def State.value (s : State) : Var → Int
  | .slot act v => ((s.frames[act]?).map (·.slots v)).getD 0
  | .global g => s.globals g

/-- The variable that an address is known to be of, in the given activation of the function. -/
def Module.locate (M : Module) (f act addr : Nat) : Option Var :=
  match (M.func f).defOf addr with
  | some (.alloca _) => some (.slot act addr)
  | some (.getGlobal _ g) => some (.global g)
  | _ => none

/-- The address of the variable goes nowhere but to loads and stores, and the variable is there. -/
def Module.Kept (M : Module) (s : State) : Var → Prop
  | .slot act v => ∃ fr, s.frames[act]? = some fr ∧
      ∀ x ∈ (M.func fr.func).leaves, usesDirectly v x.2
  | .global g => M.viewed g = false ∧ ∀ f ∈ M.funcs, ∀ d ∈ (M.func f).globalAddrs g,
      ∀ x ∈ (M.func f).leaves, usesDirectly d x.2

/-- The value that a leaf computes. -/
def Computes (M : Module) (s : State) (act : Nat) (fr : Frame) : Leaf → Int → Prop
  | .const d k, n => n = ((M.func fr.func).type d |>.getD ⟨32, true⟩).wrap k
  | .load _ addr, n => ∀ x, M.locate fr.func act addr = some x → n = s.value x
  | .inc d x, n => n = ((M.func fr.func).type d |>.getD ⟨32, true⟩).wrap (fr.env x + 1)
  | .add d x y, n => n = ((M.func fr.func).type d |>.getD ⟨32, true⟩).wrap (fr.env x + fr.env y)
  | .cmp _ kind x y, n => n = Counted.boolInt (kind.holds (fr.env x) (fr.env y))
  | _, _ => True

/-- The variable that a leaf stores to. -/
def Module.target (M : Module) (f act : Nat) : Leaf → Option Var
  | .store _ addr => M.locate f act addr
  | _ => none

/-- The value that a leaf stores. -/
def storedValue (fr : Frame) : Leaf → Int
  | .store v _ => fr.env v
  | _ => 0

/-- The activation is as it was, but that it may have run a leaf. -/
structure Continues (act act' : Nat) (p : Pos) (o : Leaf) (fr fr' : Frame) : Prop where
  func : fr'.func = fr.func
  caller : fr'.caller = fr.caller
  trace : fr'.trace = if act' = act then fr.trace ++ [p] else fr.trace
  env : ∀ v, (act' = act → o.result ≠ some v) → fr'.env v = fr.env v

/-- A new activation, of a call by the one that has run a leaf or from elsewhere. -/
structure Starts (M : Module) (act : Nat) (fr : Frame) (o : Leaf) (new : Frame) : Prop where
  trace : new.trace = []
  caller : ∀ {c k : Nat}, new.caller = some (c, k) → c = act ∧ k = fr.trace.length ∧
    ∃ d callee args, o = .call d callee args ∧ new.func = callee ∧
      ∀ {i v x : Nat}, (M.func callee).params[i]? = some v → args[i]? = some x →
        new.env v = fr.env x

/-- The activation `act`, which is `fr`, runs the leaf `o` at `p`. -/
structure Does (M : Module) (s s' : State) (act : Nat) (p : Pos) (fr : Frame) (o : Leaf) :
    Prop where
  frame : s.frames[act]? = some fr
  leaf : (p, o) ∈ (M.func fr.func).leaves
  /-- What computes the operands has run. -/
  operands : ∀ v ∈ o.operands, ∀ x ∈ (M.func fr.func).leaves, x.2.result = some v → x.1 ∈ fr.trace
  continues : ∀ {act' : Nat} {b : Frame}, s.frames[act']? = some b →
    ∃ b', s'.frames[act']? = some b' ∧ Continues act act' p o b b'
  starts : ∀ {act' : Nat} {b : Frame}, s.frames[act']? = none → s'.frames[act']? = some b →
    Starts M act fr o b
  result : ∀ {v : Nat} {fr' : Frame}, o.result = some v → s'.frames[act]? = some fr' →
    Computes M s act fr o (fr'.env v)
  memory : ∀ x, M.Kept s x →
    s'.value x = if M.target fr.func act o = some x then storedValue fr o else s.value x

structure Execution (M : Module) where
  len : Nat
  state : Nat → State
  /-- The activation that takes the step, and the leaf. -/
  event : Nat → Nat × Pos
  init : ∀ fr ∈ (state 0).frames, fr.trace = [] ∧ fr.caller = none
  step : ∀ {i : Nat}, i < len →
    ∃ fr o, Does M (state i) (state (i + 1)) (event i).1 (event i).2 fr o
  runs : ∀ {i : Nat}, i ≤ len → ∀ fr ∈ (state i).frames, ∃ e, Runs (M.func fr.func).body fr.trace e

namespace Execution

variable {M : Module} (X : Execution M)

/-- The activation `act`, of the function, runs the leaf there at the step. -/
structure At (i act f : Nat) (p : Pos) : Prop where
  lt : i < X.len
  event : X.event i = (act, p)
  func : ∃ fr, (X.state i).frames[act]? = some fr ∧ fr.func = f

/-! ## One activation over time -/

variable {X} {i j act : Nat} {fr fr' : Frame}

/-- An activation at one time, and at the time before. -/
theorem before (hi : i < X.len) (h : (X.state (i + 1)).frames[act]? = some fr') :
    (∃ fr o, (X.state i).frames[act]? = some fr ∧
      Continues (X.event i).1 act (X.event i).2 o fr fr' ∧
      ∃ b, Does M (X.state i) (X.state (i + 1)) (X.event i).1 (X.event i).2 b o) ∨
    (X.state i).frames[act]? = none ∧ ∃ b o,
      Does M (X.state i) (X.state (i + 1)) (X.event i).1 (X.event i).2 b o ∧
      Starts M (X.event i).1 b o fr' := by
  obtain ⟨b, o, hdoes⟩ := X.step hi
  cases hfr : (X.state i).frames[act]? with
  | none => exact .inr ⟨rfl, b, o, hdoes, hdoes.starts hfr h⟩
  | some fr =>
    obtain ⟨b', hb', hcont⟩ := hdoes.continues hfr
    cases h.symm.trans hb'
    exact .inl ⟨fr, o, rfl, hcont, b, hdoes⟩

/-- An activation lasts, with its function, and its leaves only grow. -/
theorem lasts (hij : i ≤ j) (hj : j ≤ X.len) (h : (X.state i).frames[act]? = some fr) :
    ∃ fr', (X.state j).frames[act]? = some fr' ∧ fr'.func = fr.func ∧ fr'.caller = fr.caller ∧
      fr.trace <+: fr'.trace := by
  induction j with
  | zero =>
    cases Nat.le_zero.1 hij
    exact ⟨fr, h, rfl, rfl, List.prefix_rfl⟩
  | succ j ih =>
    rcases Nat.lt_or_eq_of_le hij with hlt | rfl
    · obtain ⟨fr₁, h₁, hfunc, hcaller, htrace⟩ := ih (by omega) (by omega)
      obtain ⟨b, o, hdoes⟩ := X.step (by omega : j < X.len)
      obtain ⟨fr₂, h₂, hcont⟩ := hdoes.continues h₁
      refine ⟨fr₂, h₂, hcont.func.trans hfunc, hcont.caller.trans hcaller, htrace.trans ?_⟩
      rw [hcont.trace]
      split
      · exact List.prefix_append _ _
      · exact List.prefix_rfl
    · exact ⟨fr, h, rfl, rfl, List.prefix_rfl⟩

/-- After a step its leaf is the last one. -/
theorem At.trace {f : Nat} {p : Pos} (h : X.At i act f p)
    (hfr : (X.state i).frames[act]? = some fr) :
    ∃ fr', (X.state (i + 1)).frames[act]? = some fr' ∧ fr'.func = f ∧
      fr'.trace = fr.trace ++ [p] := by
  obtain ⟨b, o, hdoes⟩ := X.step h.lt
  obtain ⟨fr', hfr', hcont⟩ := hdoes.continues hfr
  obtain ⟨fr₀, hfr₀, hf⟩ := h.func
  cases hfr.symm.trans hfr₀
  have htrace := hcont.trace
  rw [h.event, if_pos rfl] at htrace
  exact ⟨fr', hfr', hcont.func.trans hf, htrace⟩

/-- Two steps of an activation are in the order of its leaves. -/
theorem At.sublist {f f' : Nat} {p q : Pos} (hp : X.At i act f p) (hq : X.At j act f' q)
    (hij : i < j) :
    ∃ fr', (X.state (j + 1)).frames[act]? = some fr' ∧ fr'.func = f' ∧
      [p, q].Sublist fr'.trace := by
  obtain ⟨fr₀, hfr₀, -⟩ := hp.func
  obtain ⟨fr₁, hfr₁, -, htr₁⟩ := hp.trace hfr₀
  obtain ⟨fr₂, hfr₂, -, -, hpre⟩ := lasts (Nat.succ_le_of_lt hij) (Nat.le_of_lt hq.lt) hfr₁
  obtain ⟨fr₃, hfr₃, hf, htr₃⟩ := hq.trace hfr₂
  refine ⟨fr₃, hfr₃, hf, ?_⟩
  rw [htr₃]
  have hmem : p ∈ fr₂.trace := hpre.subset (by simp [htr₁])
  exact (List.singleton_sublist.2 hmem).append (List.Sublist.refl [q])

/-- What precedes a leaf has no step after it. -/
theorem At.not_lt {f : Nat} {p q : Pos} (hp : X.At i act f p) (hq : X.At j act f q)
    (h : precedes (M.func f).body p q = true) : ¬ j < i := by
  intro hji
  obtain ⟨fr', hfr', rfl, hsub⟩ := hq.sublist hp hji
  obtain ⟨e, hrun⟩ := X.runs (Nat.succ_le_of_lt hp.lt) fr' (List.mem_of_getElem? hfr')
  exact precedes_sound hrun h hsub

theorem precedes_irrefl (r : Region Leaf) (p : Pos) : precedes r p p = false := by
  induction p generalizing r with
  | here l => simp [precedes, Pos.loc, Loc.before]
  | inside l k p ih => simp [precedes, ih]

theorem At.ne_of_precedes {f : Nat} {p q : Pos} (hp : X.At i act f p) (hq : X.At j act f q)
    (h : precedes (M.func f).body p q = true) : i ≠ j := by
  rintro rfl
  have heq := hp.event.symm.trans hq.event
  cases heq
  rw [precedes_irrefl] at h
  cases h

/-! ## Variables over time -/

/-- A step at which the activation stores to the variable. -/
def StoresBy (X : Execution M) (act i : Nat) (x : Var) : Prop :=
  ∃ f p o, X.At i act f p ∧ (p, o) ∈ (M.func f).leaves ∧ M.target f act o = some x

def Stores (X : Execution M) (i : Nat) (x : Var) : Prop := ∃ act, X.StoresBy act i x

theorem kept_lasts {x : Var} (hij : i ≤ j) (hj : j ≤ X.len) (h : M.Kept (X.state i) x) :
    M.Kept (X.state j) x := by
  cases x with
  | global g => exact h
  | slot act v =>
    obtain ⟨fr, hfr, hall⟩ := h
    obtain ⟨fr', hfr', hfunc, -, -⟩ := lasts hij hj hfr
    exact ⟨fr', hfr', by rw [hfunc]; exact hall⟩

/-- A variable that is kept holds its value while nothing stores to it. -/
theorem value_lasts {x : Var} (hij : i ≤ j) (hj : j ≤ X.len) (hkept : M.Kept (X.state i) x)
    (h : ∀ k, i ≤ k → k < j → ¬ X.Stores k x) : (X.state j).value x = (X.state i).value x := by
  induction j with
  | zero =>
    cases Nat.le_zero.1 hij
    rfl
  | succ j ih =>
    rcases Nat.lt_or_eq_of_le hij with hlt | rfl
    · have hle : i ≤ j := by omega
      rw [← ih hle (by omega) fun k hk hkj => h k hk (by omega)]
      obtain ⟨b, o, hdoes⟩ := X.step (by omega : j < X.len)
      rw [hdoes.memory x (kept_lasts hle (by omega) hkept), if_neg]
      intro htarget
      exact h j hle (Nat.lt_succ_self j)
        ⟨_, _, _, o, ⟨by omega, rfl, b, hdoes.frame, rfl⟩, hdoes.leaf, htarget⟩
    · rfl

end Execution

end Wtc.Specialise
