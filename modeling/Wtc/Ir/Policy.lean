import Wtc.Ir.Machine

/-!
# Guarded names

A policy picks slots whose addresses are guarded, and functions whose addresses are. The address of
a slot that is `sealed` is used for loads and stores in its own function and for nothing else; that
of one that is `own` may be in values of its thread that are `kept`. Some values may hold anything
(`free`). `Inv` says that guarded names are where the policy lets them be, and nowhere else: not in
other memory, not in another thread, not in the hands of code that lets them out.
-/

namespace Wtc.Ir

open Wtc.Control

variable {P C V B : Type}

structure Policy where
  /-- The objects of this `alloca` of the function are guarded. -/
  own : Nat → Nat → Prop
  sealed : Nat → Nat → Prop
  /-- The address of the function is guarded. -/
  hid : Nat → Prop
  kept : Nat → Nat → Prop
  free : Nat → Nat → Prop
  /-- What the sealed slot may contain. -/
  keptIn : Nat → Nat → Prop
  freeIn : Nat → Nat → Prop
  /-- The function may return anything. -/
  freeResult : Nat → Prop
  /-- The calls of the function pass objects that are `own` as this argument. -/
  passed : Nat → Nat → Prop

/-- An operation whose results name nothing. -/
def Data.Inert (D : Data P C V B) (p : P) : Prop := ∀ vs, D.names (D.eval p vs) = []

namespace Policy

variable (π : Policy) (D : Data P C V B) (G : Program P C B)

/-- The function may be handed a kept value as this argument. -/
def Welcomes (g i : Nat) : Prop :=
  match G.decls[g]? with
  | some (.body f) => ∀ y, f.params[i]? = some y → π.kept g y
  | some (.outside leaks) => leaks = false
  | some (.spawn _) => False
  | none => True

/-- What the policy asks of a call in the function `h`. -/
def AllowsCall (h : Nat) (d : Option Nat) (xs : List Nat) : Callee → Prop
  | .direct g => (∀ i x, xs[i]? = some x → π.kept h x → π.Welcomes G g i) ∧
      (π.freeResult g → ∀ y, d = some y → π.free h y) ∧
      ∀ i x, π.passed g i → xs[i]? = some x → π.own h x
  | .indirect y => ¬ π.free h y ∧ ¬ π.sealed h y ∧ ¬ π.kept h y ∧ ∀ x ∈ xs, ¬ π.kept h x

/-- What the policy asks of an operation of the function `h`. -/
def Allows (h : Nat) : Instr P → Prop
  | .pure d p xs => ∀ x ∈ xs, ¬ π.free h x ∧ ¬ π.sealed h x ∧ (π.kept h x → π.kept h d ∨ D.Inert p)
  | .alloca d => π.own h d → π.kept h d ∧ ¬ π.sealed h d
  | .getGlobal _ _ => True
  | .getFunc _ f => ¬ π.hid f
  | .load d x => ¬ π.free h x ∧ (π.sealed h x →
      (π.freeIn h x → π.free h d) ∧ (π.keptIn h x → π.kept h d))
  | .store v x => ¬ π.free h x ∧ ¬ π.sealed h v ∧ (π.kept h v → π.sealed h x ∧ π.keptIn h x) ∧
      (π.free h v → π.sealed h x ∧ π.freeIn h x)
  | .lifetime _ => True
  | .call d c xs => (∀ x ∈ xs, ¬ π.free h x ∧ ¬ π.sealed h x) ∧ π.AllowsCall G h d xs c
  | .ret v => ∀ x, v = some x → ¬ π.sealed h x ∧ ¬ π.kept h x ∧ (π.free h x → π.freeResult h)

/-- The program obeys the policy. -/
structure Ok (opened : Nat → Bool) : Prop where
  instr : ∀ {h f}, G.decls[h]? = some (.body f) → ∀ o ∈ f.code.ops, π.Allows D G h o
  slot : ∀ {h f x}, G.decls[h]? = some (.body f) → π.own h x ∨ π.sealed h x → .alloca x ∈ f.code.ops
  hides : ∀ {g}, π.freeResult g → π.hid g
  passes : ∀ {g i}, π.passed g i → π.hid g
  opened : ∀ {g}, opened g = true → π.freeResult g
  objects : ∀ {o o'}, D.holds (G.init o) (.obj o') → o' < G.globals
  funcs : ∀ {o f}, D.holds (G.init o) (.func f) → ¬ π.hid f

end Policy

/-! ## Where names may be -/

section Names

variable (π : Policy) (ob : Objects)

def Own (o : Nat) : Prop := ∃ w, ob.owner o = some w ∧ π.own w.func w.id

def Sealed (o : Nat) : Prop := ∃ w, ob.owner o = some w ∧ π.sealed w.func w.id

/-- The thread that made the object. -/
def Home (o t : Nat) : Prop := ∃ w, ob.owner o = some w ∧ w.thread = t

def PlainName : Name → Prop
  | .obj o => o < ob.next ∧ ¬ Own π ob o ∧ ¬ Sealed π ob o
  | .func f => ¬ π.hid f

def KeptName (t : Nat) : Name → Prop
  | .obj o => o < ob.next ∧ ¬ Sealed π ob o ∧ (Own π ob o → Home ob o t)
  | .func f => ¬ π.hid f

/-- An object that is `own`, and nothing else. -/
def OwnName (n : Name) : Prop := ∃ o, n = .obj o ∧ o < ob.next ∧ Own π ob o

/-- An object of that `alloca`, and nothing else. -/
def SlotName (w : Owner) (n : Name) : Prop := ∃ o, n = .obj o ∧ o < ob.next ∧ ob.owner o = some w

variable (D : Data P C V B)

def Plain (v : V) : Prop := ∀ n ∈ D.names v, PlainName π ob n

def Kept (t : Nat) (v : V) : Prop := ∀ n ∈ D.names v, KeptName π ob t n

end Names

/-- The second objects are the first and more. -/
structure Grows (ob ob' : Objects) : Prop where
  next : ob.next ≤ ob'.next
  owner : ∀ {o}, o < ob.next → ob'.owner o = ob.owner o

theorem grows_add (ob : Objects) (w : Owner) : Grows ob (ob.add w) := by
  refine ⟨Nat.le_succ _, fun {o} ho => ?_⟩
  simp [Objects.add, Function.update_of_ne (Nat.ne_of_lt ho)]

section Names

variable {π : Policy} {D : Data P C V B} {ob ob' : Objects} {t : Nat} {v : V} {n : Name}

section

variable (h : Grows ob ob')
include h

theorem Grows.own {o : Nat} (ho : o < ob.next) : Own π ob' o ↔ Own π ob o := by
  unfold Own
  rw [h.owner ho]

theorem Grows.sealed {o : Nat} (ho : o < ob.next) : Sealed π ob' o ↔ Sealed π ob o := by
  unfold Sealed
  rw [h.owner ho]

theorem Grows.home {o : Nat} (ho : o < ob.next) : Home ob' o t ↔ Home ob o t := by
  unfold Home
  rw [h.owner ho]

theorem Grows.plainName (hn : PlainName π ob n) : PlainName π ob' n := by
  cases n with
  | obj o =>
    exact ⟨Nat.lt_of_lt_of_le hn.1 h.next, fun ho => hn.2.1 ((h.own hn.1).1 ho),
      fun hs => hn.2.2 ((h.sealed hn.1).1 hs)⟩
  | func f => exact hn

theorem Grows.keptName (hn : KeptName π ob t n) : KeptName π ob' t n := by
  cases n with
  | obj o =>
    refine ⟨Nat.lt_of_lt_of_le hn.1 h.next, fun hs => hn.2.1 ((h.sealed hn.1).1 hs), fun ho => ?_⟩
    exact (h.home hn.1).2 (hn.2.2 ((h.own hn.1).1 ho))
  | func f => exact hn

theorem Grows.ownName (hn : OwnName π ob n) : OwnName π ob' n := by
  obtain ⟨o, rfl, ho, hg⟩ := hn
  exact ⟨o, rfl, Nat.lt_of_lt_of_le ho h.next, (h.own ho).2 hg⟩

theorem Grows.slotName {w : Owner} (hn : SlotName ob w n) : SlotName ob' w n := by
  obtain ⟨o, rfl, ho, hw⟩ := hn
  exact ⟨o, rfl, Nat.lt_of_lt_of_le ho h.next, (h.owner ho).trans hw⟩

theorem Grows.plain (hv : Plain π ob D v) : Plain π ob' D v :=
  fun n hn => h.plainName (hv n hn)

theorem Grows.kept (hv : Kept π ob D t v) : Kept π ob' D t v :=
  fun n hn => h.keptName (hv n hn)

end

theorem PlainName.kept (h : PlainName π ob n) : KeptName π ob t n := by
  cases n with
  | obj o => exact ⟨h.1, h.2.2, fun ho => absurd ho h.2.1⟩
  | func f => exact h

theorem Plain.kept (h : Plain π ob D v) : Kept π ob D t v := fun n hn => (h n hn).kept

theorem Plain.of_names (h : D.names v = []) : Plain π ob D v := by simp [Plain, h]

theorem plain_undef : Plain π ob D D.undef := .of_names D.names_undef

theorem exists_of_knows {vs : List V} (h : knows D vs v = true) (hn : n ∈ D.names v) :
    ∃ k ∈ vs, n ∈ D.names k := by
  obtain ⟨k, hk, hkn⟩ := List.any_eq_true.1 (List.all_eq_true.1 h n hn)
  exact ⟨k, hk, of_decide_eq_true hkn⟩

theorem Plain.of_knows {vs : List V} (h : knows D vs v = true) (hvs : ∀ k ∈ vs, Plain π ob D k) :
    Plain π ob D v := by
  intro n hn
  obtain ⟨k, hk, hkn⟩ := exists_of_knows h hn
  exact hvs k hk n hkn

theorem Kept.of_knows {vs : List V} (h : knows D vs v = true) (hvs : ∀ k ∈ vs, Kept π ob D t k) :
    Kept π ob D t v := by
  intro n hn
  obtain ⟨k, hk, hkn⟩ := exists_of_knows h hn
  exact hvs k hk n hkn

end Names

/-! ## The invariant -/

section Invariant

variable (π : Policy) (D : Data P C V B) (G : Program P C B) (ob : Objects)

structure CodeOk (t : Nat) (a : Activation P C V) : Prop where
  code : ∃ f, G.decls[a.func]? = some (.body f) ∧ Within f.code a.ctrl
  env : ∀ x, π.free a.func x ∨ π.sealed a.func x ∨ Plain π ob D (a.env x) ∨
    π.kept a.func x ∧ Kept π ob D t (a.env x)
  own : ∀ x, π.own a.func x → ∀ n ∈ D.names (a.env x), OwnName π ob n
  sealed : ∀ x, π.sealed a.func x → ∀ n ∈ D.names (a.env x), SlotName ob ⟨t, a.func, x⟩ n
  result : π.freeResult a.func ∨ Plain π ob D a.result
  args : ∀ v ∈ a.args, Kept π ob D t v

def LayerOk (t : Nat) : Layer P C V → Prop
  | .code a => CodeOk π D G ob t a
  | .outside leaks given learned _ =>
    (∀ v ∈ given, Plain π ob D v ∨ leaks = false ∧ Kept π ob D t v) ∧
      ∀ v ∈ learned, Plain π ob D v

/-- What the function returns, and what it is passed, suit its caller. -/
structure Suits (g : Nat) (args : List V) (dest : Option Nat) (c : Nat) : Prop where
  result : π.freeResult g → ∀ d, dest = some d → π.free c d
  passed : ∀ i v, π.passed g i → args[i]? = some v → ∀ n ∈ D.names v, OwnName π ob n
  dest : ∀ d, dest = some d → ¬ π.own c d ∧ ¬ π.sealed c d

/-- A call and the one that made it. -/
def Fits : Layer P C V → Option (Layer P C V) → Prop
  | .code a, some (.code c) => Suits π D ob a.func a.args a.dest c.func
  | .code a, some (.outside _ _ _ _) => ¬ π.hid a.func
  | .outside _ _ _ dest, some (.code c) =>
    ∀ d, dest = some d → ¬ π.own c.func d ∧ ¬ π.sealed c.func d
  | _, _ => True

def Linked : List (Layer P C V) → Prop
  | [] => True
  | l :: below => Fits π D ob l below.head? ∧ Linked below

structure StackOk (t : Nat) (stack : List (Layer P C V)) : Prop where
  layers : ∀ l ∈ stack, LayerOk π D G ob t l
  linked : Linked π D ob stack

/-- A name in the contents of an object. -/
def ByteName (o : Nat) (n : Name) : Prop :=
  PlainName π ob n ∨ ∃ w, ob.owner o = some w ∧ π.sealed w.func w.id ∧
    (π.freeIn w.func w.id ∨ π.keptIn w.func w.id ∧ KeptName π ob w.thread n)

def BytesOk (o : Nat) (b : B) : Prop := ∀ n, D.holds b n → ByteName π ob o n

structure Inv (s : State P C V B) : Prop where
  threads : ∀ {t stack}, s.threads[t]? = some stack → StackOk π D G s.objs t stack
  mem : ∀ o, BytesOk π D s.objs o (s.mem o)
  shared : ∀ v ∈ s.shared, Plain π s.objs D v
  fresh : ∀ {o}, s.objs.next ≤ o → s.objs.owner o = none
  globals : G.globals ≤ s.objs.next
  unowned : ∀ {o}, o < G.globals → s.objs.owner o = none

/-- What a step changes is as the invariant has it. -/
def EffectOk (t threads : Nat) : Effect P C V B → Prop
  | .move stack => StackOk π D G ob t stack
  | .store o b stack => StackOk π D G ob t stack ∧ BytesOk π D ob o b
  | .alloc f x stack => StackOk π D G (ob.add ⟨t, f, x⟩) t stack
  | .start new stack => StackOk π D G ob t stack ∧ LayerOk π D G ob threads new
  | .keep v stack => StackOk π D G ob t stack ∧ Plain π ob D v

end Invariant

section Grow

variable {π : Policy} {D : Data P C V B} {G : Program P C B} {ob ob' : Objects} {t : Nat}

theorem CodeOk.grow {a : Activation P C V} (hg : Grows ob ob') (h : CodeOk π D G ob t a) :
    CodeOk π D G ob' t a where
  code := h.code
  env x := by
    rcases h.env x with hx | hx | hx | ⟨hk, hx⟩
    · exact .inl hx
    · exact .inr (.inl hx)
    · exact .inr (.inr (.inl (hg.plain hx)))
    · exact .inr (.inr (.inr ⟨hk, hg.kept hx⟩))
  own x hx n hn := hg.ownName (h.own x hx n hn)
  sealed x hx n hn := hg.slotName (h.sealed x hx n hn)
  result := h.result.imp_right hg.plain
  args v hv := hg.kept (h.args v hv)

theorem LayerOk.grow {l : Layer P C V} (hg : Grows ob ob') (h : LayerOk π D G ob t l) :
    LayerOk π D G ob' t l := by
  cases l with
  | code a => exact CodeOk.grow hg h
  | outside leaks given learned dest =>
    refine ⟨fun v hv => ?_, fun v hv => hg.plain (h.2 v hv)⟩
    rcases h.1 v hv with hp | ⟨hl, hk⟩
    · exact .inl (hg.plain hp)
    · exact .inr ⟨hl, hg.kept hk⟩

theorem Fits.grow {l : Layer P C V} {below : Option (Layer P C V)} (hg : Grows ob ob')
    (h : Fits π D ob l below) : Fits π D ob' l below := by
  rcases l with a | _ <;> rcases below with _ | (c | _)
  case code.some.code =>
    exact ⟨h.result, fun i v hp hv n hn => hg.ownName (h.passed i v hp hv n hn), h.dest⟩
  all_goals exact h

theorem Linked.grow {stack : List (Layer P C V)} (hg : Grows ob ob') (h : Linked π D ob stack) :
    Linked π D ob' stack := by
  induction stack with
  | nil => trivial
  | cons l below ih => exact ⟨h.1.grow hg, ih h.2⟩

theorem StackOk.grow {stack : List (Layer P C V)} (hg : Grows ob ob')
    (h : StackOk π D G ob t stack) : StackOk π D G ob' t stack :=
  ⟨fun l hl => (h.layers l hl).grow hg, h.linked.grow hg⟩

end Grow

/-! ## What a step changes -/

section Apply

variable {π : Policy} {D : Data P C V B} {G : Program P C B} {s : State P C V B} {t : Nat}

/-- A thread goes on with another stack, and the others with what they have. -/
theorem Inv.threads_set (h : Inv π D G s) {ob : Objects} {stack : List (Layer P C V)}
    (hg : Grows s.objs ob) (hs : StackOk π D G ob t stack) {t' : Nat}
    {stack' : List (Layer P C V)} (ht : (s.threads.set t stack)[t']? = some stack') :
    StackOk π D G ob t' stack' := by
  by_cases he : t = t'
  · subst he
    rw [List.getElem?_set_self'] at ht
    cases hold : s.threads[t]? with
    | none => simp [hold] at ht
    | some old =>
      simp [hold] at ht
      exact ht ▸ hs
  · rw [List.getElem?_set_ne he] at ht
    exact (h.threads ht).grow hg

theorem Grows.refl (ob : Objects) : Grows ob ob := ⟨Nat.le_refl _, fun _ => rfl⟩

theorem Inv.apply (h : Inv π D G s) {e : Effect P C V B}
    (he : EffectOk π D G s.objs t s.threads.length e) : Inv π D G (s.apply D t e) := by
  cases e with
  | move stack =>
    exact ⟨h.threads_set (.refl _) he, h.mem, h.shared, h.fresh, h.globals, h.unowned⟩
  | store o b stack =>
    refine ⟨h.threads_set (.refl _) he.1, fun o' => ?_, h.shared, h.fresh, h.globals, h.unowned⟩
    show BytesOk π D s.objs o' (Function.update s.mem o b o')
    by_cases ho : o' = o
    · subst ho
      simpa using he.2
    · simpa [Function.update_of_ne ho] using h.mem o'
  | alloc f x stack =>
    have hg := grows_add s.objs ⟨t, f, x⟩
    refine ⟨h.threads_set hg he, fun o => ?_, fun v hv => hg.plain (h.shared v hv),
      fun {o} ho => ?_,
      Nat.le_succ_of_le h.globals, fun {o} ho => ?_⟩
    · show BytesOk π D (s.objs.add ⟨t, f, x⟩) o (Function.update s.mem s.objs.next D.blank o)
      by_cases ho : o = s.objs.next
      · subst ho
        intro n hn
        rw [Function.update_self] at hn
        exact absurd hn D.holds_blank
      · rw [Function.update_of_ne ho]
        intro n hn
        rcases h.mem o n hn with hp | ⟨w, hw, hs, hin⟩
        · exact .inl (hg.plainName hp)
        · refine .inr ⟨w, by simp [Objects.add, Function.update_of_ne ho, hw], hs, ?_⟩
          exact hin.imp_right fun hk => ⟨hk.1, hg.keptName hk.2⟩
    · have hlt : s.objs.next < o := ho
      simpa [State.apply, Objects.add, Function.update_of_ne (Nat.ne_of_gt hlt)] using
        h.fresh (Nat.le_of_lt hlt)
    · have hlt : o < s.objs.next := Nat.lt_of_lt_of_le ho h.globals
      exact (hg.owner hlt).trans (h.unowned ho)
  | start new stack =>
    refine ⟨fun {t' stack'} ht => ?_, h.mem, h.shared, h.fresh, h.globals, h.unowned⟩
    rw [State.apply, List.getElem?_append] at ht
    split at ht
    · exact h.threads_set (.refl _) he.1 ht
    · next hlt =>
      rw [List.length_set] at ht hlt
      obtain ⟨hz, rfl⟩ : t' - s.threads.length = 0 ∧ stack' = [new] := by
        cases hz : t' - s.threads.length with
        | zero => simpa [hz] using ht.symm
        | succ n => simp [hz] at ht
      have ht' : t' = s.threads.length := by omega
      subst ht'
      refine ⟨fun l hl => ?_, ?_, trivial⟩
      · cases List.mem_singleton.1 hl
        exact he.2
      · cases new <;> trivial
  | keep v stack =>
    refine ⟨h.threads_set (.refl _) he.1, h.mem, ?_, h.fresh, h.globals, h.unowned⟩
    exact List.forall_mem_cons.2 ⟨he.2, h.shared⟩

end Apply

end Wtc.Ir
