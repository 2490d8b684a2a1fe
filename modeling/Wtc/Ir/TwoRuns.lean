import Mathlib.Data.List.Forall2
import Wtc.Ir.Guard

/-!
# Two executions

Two executions with the same moves, but for what the calls return whose results are left open. If
the program obeys a policy in which these results, and all that may come of them, are free, and no
test looks at a free value, then the two go on step by step alike (`Alike.run`): they differ in free
values, in the sealed slots that hold such values, and in what functions return that may return
anything.
-/

namespace Wtc.Ir

open Wtc.Control

variable {P C V B : Type}

/-! ## Lists that go together -/

section Lists

variable {α β : Type} {R : α → β → Prop} {l : List α} {l' : List β}

theorem exists_getElem?_of_forall₂ (h : List.Forall₂ R l l') {i : Nat} {a : α}
    (ha : l[i]? = some a) : ∃ b, l'[i]? = some b ∧ R a b := by
  induction h generalizing i with
  | nil => cases ha
  | cons hab _ ih =>
    cases i with
    | zero =>
      cases ha
      exact ⟨_, rfl, hab⟩
    | succ i => exact ih ha

theorem forall₂_set (h : List.Forall₂ R l l') {a : α} {b : β} (hab : R a b) (i : Nat) :
    List.Forall₂ R (l.set i a) (l'.set i b) := by
  induction h generalizing i with
  | nil => exact .nil
  | cons hcd hrest ih =>
    cases i with
    | zero => exact .cons hab hrest
    | succ i => exact .cons hcd (ih i)

end Lists

/-! ## What is alike -/

/-- The object is a slot that may contain anything. -/
def FreeSlot (π : Policy) (ob : Objects) (o : Nat) : Prop :=
  ∃ w, ob.owner o = some w ∧ π.sealed w.func w.id ∧ π.freeIn w.func w.id

/-- Two activations that differ in free values, and in the result if it may be anything. -/
structure CodeAlike (π : Policy) (a a' : Activation P C V) : Prop where
  func : a'.func = a.func
  args : a'.args = a.args
  ctrl : a'.ctrl = a.ctrl
  dest : a'.dest = a.dest
  env : ∀ x, ¬ π.free a.func x → a'.env x = a.env x
  result : ¬ π.freeResult a.func → a'.result = a.result

inductive LayerAlike (π : Policy) : Layer P C V → Layer P C V → Prop where
  | code {a a'} : CodeAlike π a a' → LayerAlike π (.code a) (.code a')
  | outside {leaks given learned dest} :
      LayerAlike π (.outside leaks given learned dest) (.outside leaks given learned dest)

abbrev StackAlike (π : Policy) : List (Layer P C V) → List (Layer P C V) → Prop :=
  List.Forall₂ (LayerAlike π)

structure Alike (π : Policy) (s s' : State P C V B) : Prop where
  threads : List.Forall₂ (StackAlike π) s.threads s'.threads
  mem : ∀ o, ¬ FreeSlot π s.objs o → s'.mem o = s.mem o
  objs : s'.objs = s.objs
  shared : s'.shared = s.shared

inductive EffectAlike (π : Policy) (ob : Objects) : Effect P C V B → Effect P C V B → Prop where
  | move {k k'} : StackAlike π k k' → EffectAlike π ob (.move k) (.move k')
  | store {o b b' k k'} : StackAlike π k k' → (¬ FreeSlot π ob o → b' = b) →
      EffectAlike π ob (.store o b k) (.store o b' k')
  | alloc {f x k k'} : StackAlike π k k' → EffectAlike π ob (.alloc f x k) (.alloc f x k')
  | start {l l' k k'} : LayerAlike π l l' → StackAlike π k k' →
      EffectAlike π ob (.start l k) (.start l' k')
  | keep {v k k'} : StackAlike π k k' → EffectAlike π ob (.keep v k) (.keep v k')

/-- Two moves that differ in the answer alone. -/
def SameMove : Move V → Move V → Prop
  | .run _ given, .run _ given' => given' = given
  | m, m' => m' = m

/-- The same schedule and the same inputs. -/
abbrev SameMoves : List (Nat × Move V) → List (Nat × Move V) → Prop :=
  List.Forall₂ fun m m' => m'.1 = m.1 ∧ SameMove m.2 m'.2

/-! ## One step -/

section Step

variable {π : Policy} {D : Data P C V B} {G : Program P C B} {opened : Nat → Bool}
  {s s' : State P C V B} {t : Nat} {a a' : Activation P C V} {below below' : List (Layer P C V)}
  {given : V} {f : Func P C} {e : Effect P C V B}

theorem LayerAlike.refl (l : Layer P C V) : LayerAlike π l l := by
  cases l with
  | code a => exact .code ⟨rfl, rfl, rfl, rfl, fun _ _ => rfl, fun _ => rfl⟩
  | outside => exact .outside

theorem StackAlike.refl (k : List (Layer P C V)) : StackAlike π k k :=
  List.forall₂_same.2 fun l _ => .refl l

theorem Alike.refl (π : Policy) (s : State P C V B) : Alike π s s :=
  ⟨List.forall₂_same.2 fun _ _ => StackAlike.refl _, fun _ _ => rfl, rfl, rfl⟩

theorem Alike.apply (h : Alike π s s') {e e' : Effect P C V B} (he : EffectAlike π s.objs e e') :
    Alike π (s.apply D t e) (s'.apply D t e') := by
  cases he with
  | move hk => exact ⟨forall₂_set h.threads hk t, h.mem, h.objs, h.shared⟩
  | @store o b b' k k' hk hb =>
    refine ⟨forall₂_set h.threads hk t, fun o' ho' => ?_, h.objs, h.shared⟩
    show Function.update s'.mem o b' o' = Function.update s.mem o b o'
    by_cases ho : o' = o
    · subst ho
      simpa using hb ho'
    · simpa [Function.update_of_ne ho] using h.mem o' ho'
  | @alloc f x k k' hk =>
    refine ⟨forall₂_set h.threads hk t, fun o ho => ?_, by simp [State.apply, h.objs], h.shared⟩
    show Function.update s'.mem s'.objs.next D.blank o = Function.update s.mem s.objs.next D.blank o
    rw [h.objs]
    by_cases hn : o = s.objs.next
    · subst hn
      simp
    · rw [Function.update_of_ne hn, Function.update_of_ne hn]
      refine h.mem o ?_
      rintro ⟨w, hw, hs⟩
      refine ho ⟨w, ?_, hs⟩
      simp [State.apply, Objects.add, Function.update_of_ne hn, hw]
  | start hl hk =>
    exact ⟨List.rel_append (forall₂_set h.threads hk t) (.cons (.cons hl .nil) .nil), h.mem, h.objs,
      h.shared⟩
  | keep hk =>
    exact ⟨forall₂_set h.threads hk t, h.mem, h.objs, by simp [State.apply, h.shared]⟩

theorem CodeAlike.set (h : CodeAlike π a a') {d : Option Nat} {v v' : V}
    (hv : ∀ x, d = some x → ¬ π.free a.func x → v' = v) :
    CodeAlike π (a.set d v) (a'.set d v') where
  func := by simp [h.func]
  args := by simp [h.args]
  ctrl := by simp [h.ctrl]
  dest := by simp [h.dest]
  env x hx := by
    rw [Activation.set_func] at hx
    rw [Activation.set_env, Activation.set_env]
    split
    · next hd => exact hv x hd hx
    · exact h.env x hx
  result := by simpa using h.result

theorem CodeAlike.goto (h : CodeAlike π a a') (k : List (Frame (Instr P) (Test C))) :
    CodeAlike π { a with ctrl := k } { a' with ctrl := k } :=
  ⟨h.func, h.args, rfl, h.dest, h.env, h.result⟩

theorem CodeAlike.map_env (h : CodeAlike π a a') {xs : List Nat}
    (hxs : ∀ x ∈ xs, ¬ π.free a.func x) : xs.map a'.env = xs.map a.env :=
  List.map_congr_left fun x hx => h.env x (hxs x hx)

/-- A call returns alike. -/
theorem deliver_alike (h : StackAlike π below below') {dest : Option Nat} {v v' : V}
    (hcode : ∀ {c}, below.head? = some (.code c) → ∀ x, dest = some x → ¬ π.free c.func x → v' = v)
    (hout : ∀ {leaks given learned dest},
      below.head? = some (.outside leaks given learned dest) → v' = v) :
    StackAlike π (deliver v dest below) (deliver v' dest below') := by
  cases h with
  | nil => exact .nil
  | cons hl hrest =>
    cases hl with
    | code hc => exact .cons (.code (hc.set (hcode rfl))) hrest
    | outside =>
      cases hout rfl
      exact .cons .outside hrest

theorem unwind_alike (h : StackAlike π below below') :
    StackAlike π (unwind below) (unwind below') := by
  cases h with
  | nil => exact .nil
  | cons hl hrest =>
    cases hl with
    | code hc =>
      refine .cons (.code ?_) hrest
      exact ⟨hc.func, hc.args, by simp [hc.ctrl], hc.dest, hc.env, hc.result⟩
    | outside => exact .cons .outside hrest

/-- What a load finds is alike, unless it defines a free value. -/
theorem load_alike (hs : Alike π s s') (ha : CodeOk π D G s.objs t a)
    {d x o i : Nat} (hallow : π.Allows D G a.func (.load d x))
    (ht : D.target (a.env x) = some (o, i)) (hd : ¬ π.free a.func d) :
    D.read (s'.mem o) i = D.read (s.mem o) i := by
  rw [hs.mem o]
  rintro ⟨w, hw, hsealed, hfree⟩
  obtain ⟨hsx, rfl⟩ := ha.target hallow.1 ht hw hsealed
  exact hd ((hallow.2 hsx).1 hfree)

/-- What a store leaves is alike, unless it is in a slot that may contain anything. -/
theorem store_alike (hs : Alike π s s') (ha : CodeOk π D G s.objs t a) (hc : CodeAlike π a a')
    {v x o i : Nat} (hallow : π.Allows D G a.func (.store v x))
    (ht : D.target (a.env x) = some (o, i)) (ho : ¬ FreeSlot π s.objs o) :
    D.write (s'.mem o) i (a'.env v) = D.write (s.mem o) i (a.env v) := by
  have hv : ¬ π.free a.func v := by
    intro hv
    obtain ⟨hsx, hin⟩ := hallow.2.2.2 hv
    obtain ⟨o', he, -, hw⟩ := ha.sealed x hsx _ (D.target_names ht)
    cases he
    exact ho ⟨_, hw, hsx, hin⟩
  rw [hs.mem o ho, hc.env v hv]

theorem calleeOf_alike (hc : CodeAlike π a a') {d : Option Nat} {c : Callee} {xs : List Nat}
    (hallow : π.AllowsCall G a.func d xs c) : calleeOf D a' c = calleeOf D a c := by
  cases c with
  | direct g => rfl
  | indirect y => simp [calleeOf, hc.env y hallow.1]

theorem exec_alike (hπ : π.Ok D G opened) (hs : Alike π s s')
    (ha : CodeOk π D G s.objs t a) (hf : G.decls[a.func]? = some (.body f)) {o : Instr P}
    (ho : o ∈ f.code.ops) (hc : CodeAlike π a a') (hb : StackAlike π below below')
    (he : exec D G s a below given o = some e) :
    ∃ e', exec D G s' a' below' given o = some e' ∧ EffectAlike π s.objs e e' := by
  have hallow := hπ.instr hf o ho
  cases o with
  | pure d p xs =>
    cases he
    have hxs := hc.map_env fun x hx => (hallow x hx).1
    exact ⟨_, rfl, .move (.cons (.code (hc.set fun _ _ _ => by rw [hxs])) hb)⟩
  | alloca d =>
    cases he
    simp only [exec, hc.func, hs.objs]
    exact ⟨_, rfl, .alloc (.cons (.code (hc.set fun _ _ _ => rfl)) hb)⟩
  | getGlobal d g =>
    simp only [exec] at he ⊢
    split at he
    · next hg =>
      cases he
      rw [if_pos hg]
      exact ⟨_, rfl, .move (.cons (.code (hc.set fun _ _ _ => rfl)) hb)⟩
    · cases he
  | getFunc d g =>
    cases he
    exact ⟨_, rfl, .move (.cons (.code (hc.set fun _ _ _ => rfl)) hb)⟩
  | load d x =>
    obtain ⟨⟨o, i⟩, ht, he⟩ := Option.bind_eq_some_iff.1 he
    cases he
    simp only [exec, hc.env x hallow.1, ht]
    refine ⟨_, rfl, .move (.cons (.code (hc.set fun y hy hfree => ?_)) hb)⟩
    cases hy
    exact load_alike hs ha hallow ht hfree
  | store v x =>
    obtain ⟨⟨o, i⟩, ht, he⟩ := Option.bind_eq_some_iff.1 he
    cases he
    simp only [exec, hc.env x hallow.1, ht]
    exact ⟨_, rfl, .store (.cons (.code hc) hb) (store_alike hs ha hc hallow ht)⟩
  | lifetime x =>
    cases he
    exact ⟨_, rfl, .move (.cons (.code hc) hb)⟩
  | ret v =>
    cases he
    refine ⟨_, rfl, .move (.cons (.code ⟨hc.func, hc.args, hc.ctrl, hc.dest, hc.env, ?_⟩) hb)⟩
    intro hr
    cases v with
    | none => rfl
    | some x => exact hc.env x fun hx => hr ((hallow x rfl).2.2 hx)
  | call d c xs =>
    obtain ⟨g, hg, he⟩ := Option.bind_eq_some_iff.1 he
    have hxs := hc.map_env fun x hx => (hallow.1 x hx).1
    simp only [exec, calleeOf_alike hc hallow.2, hg, hxs, Option.bind_eq_bind, Option.bind_some]
      at he ⊢
    split at he
    · obtain ⟨v, hv, he⟩ := Option.bind_eq_some_iff.1 he
      obtain ⟨f', hf', he⟩ := Option.bind_eq_some_iff.1 he
      obtain ⟨new, hnew, he⟩ := Option.bind_eq_some_iff.1 he
      split at he
      · next hgiven =>
        cases he
        simp only [hv, hf', hnew, hgiven, Option.bind_some, if_true]
        exact ⟨_, rfl, .start (.refl new) (.cons (.code (hc.set fun _ _ _ => rfl)) hb)⟩
      · cases he
    · obtain ⟨l, hl, he⟩ := Option.bind_eq_some_iff.1 he
      cases he
      simp only [hl, Option.bind_some]
      exact ⟨_, rfl, .move (.cons (.refl l) (.cons (.code hc) hb))⟩

/-- No test looks at a free value. -/
def Policy.Blind (π : Policy) (G : Program P C B) : Prop :=
  ∀ {h f}, G.decls[h]? = some (.body f) → ∀ c ∈ f.code.conds, ∀ x ∈ c.args, ¬ π.free h x

theorem return_alike (hπ : π.Ok D G opened) (h : StackOk π D G s.objs t (.code a :: below))
    (hc : CodeAlike π a a') (hb : StackAlike π below below') (answer answer' : V) :
    StackAlike π (deliver (if opened a.func then answer else a.result) a.dest below)
      (deliver (if opened a'.func then answer' else a'.result) a'.dest below') := by
  have hval : ¬ π.freeResult a.func → (if opened a'.func then answer' else a'.result) =
      if opened a.func then answer else a.result := by
    intro hr
    have hnot : opened a.func = false := by
      cases ho : opened a.func with
      | false => rfl
      | true => exact absurd (hπ.opened ho) hr
    simp [hc.func, hnot, hc.result hr]
  rw [hc.dest]
  have hfits := h.linked.1
  refine deliver_alike hb (fun {c} hcode x hx hfree => hval fun hr => ?_) fun hout =>
    hval fun hr => ?_
  · rw [hcode] at hfits
    exact hfree (hfits.result hr x hx)
  · rw [hout] at hfits
    exact hfits (hπ.hides hr)

theorem runCode_alike (hπ : π.Ok D G opened) (hblind : π.Blind G) (hs : Alike π s s')
    (h : StackOk π D G s.objs t (.code a :: below)) (hc : CodeAlike π a a')
    (hb : StackAlike π below below') {answer answer' : V}
    (he : runCode D G s opened answer given a below = some e) :
    ∃ e', runCode D G s' opened answer' given a' below' = some e' ∧ EffectAlike π s.objs e e' := by
  have ha : CodeOk π D G s.objs t a := h.head
  unfold runCode at he ⊢
  rw [hc.ctrl]
  split at he
  · next k hk =>
    cases he
    exact ⟨_, rfl, .move (.cons (.code (hc.goto k)) hb)⟩
  · next c k hk =>
    cases he
    obtain ⟨f, hf, hw⟩ := ha.code
    rw [hc.map_env (hblind hf c (hw.test hk).1)]
    exact ⟨_, rfl, .move (.cons (.code (hc.goto _)) hb)⟩
  · next o k hk =>
    obtain ⟨f, hf, hw⟩ := ha.code
    have ha' : CodeOk π D G s.objs t { a with ctrl := k } := ha.goto fun f hw => (hw.op hk).2
    exact exec_alike hπ hs ha' hf (hw.op hk).1 (hc.goto k) hb he
  · split at he
    · cases he
      exact ⟨_, rfl, .move (return_alike hπ h hc hb _ _)⟩
    · cases he
      exact ⟨_, rfl, .move (return_alike hπ h hc hb _ _)⟩
    · cases he
      exact ⟨_, rfl, .move (unwind_alike hb)⟩
    · cases he

/-- Code that is not shown goes on alike: it reaches no slot that differs. -/
theorem outside_alike (hs : Alike π s s') (hinv : Inv π D G s) {leaks : Bool}
    {given learned : List V} {dest : Option Nat}
    (h : LayerOk π D G s.objs t (.outside leaks given learned dest))
    (hb : StackAlike π below below') {m : Move V}
    (he : effect D G s opened m (.outside leaks given learned dest :: below) = some e) :
    ∃ e', effect D G s' opened m (.outside leaks given learned dest :: below') = some e' ∧
      EffectAlike π s.objs e e' := by
  have hmem : ∀ {v o i}, D.target v = some (o, i) →
      knows D (given ++ learned ++ s.shared) v = true → s'.mem o = s.mem o := by
    intro v o i ht hknows
    refine hs.mem o ?_
    rintro ⟨w, hw, hsealed, -⟩
    exact (Kept.of_knows hknows (known_kept hinv h) _ (D.target_names ht)).2.1 ⟨w, hw, hsealed⟩
  cases m with
  | run => cases he
  | read v =>
    obtain ⟨⟨o, i⟩, ht, he⟩ := Option.bind_eq_some_iff.1 he
    dsimp only at he
    split at he
    · next hknows =>
      cases he
      simp only [effect, ht, hs.shared, hknows, hmem ht hknows, Option.bind_eq_bind,
        Option.bind_some, if_true]
      exact ⟨_, rfl, .move (.cons .outside hb)⟩
    · cases he
  | write v w =>
    obtain ⟨⟨o, i⟩, ht, he⟩ := Option.bind_eq_some_iff.1 he
    dsimp only at he
    split at he
    · next hknows =>
      cases he
      simp only [effect, ht, hs.shared, hknows, hmem ht hknows.1, Option.bind_eq_bind,
        Option.bind_some, and_self, if_true]
      exact ⟨_, rfl, .store (.cons .outside hb) fun _ => rfl⟩
    · cases he
  | call f vs =>
    obtain ⟨g, hg, he⟩ := Option.bind_eq_some_iff.1 he
    obtain ⟨new, hnew, he⟩ := Option.bind_eq_some_iff.1 he
    split at he
    · next hknows =>
      cases he
      simp only [effect, hg, hnew, hs.shared, hknows, Option.bind_eq_bind, Option.bind_some,
        and_self, if_true]
      exact ⟨_, rfl, .move (.cons (.refl new) (.cons .outside hb))⟩
    · cases he
  | start f vs =>
    obtain ⟨g, hg, he⟩ := Option.bind_eq_some_iff.1 he
    obtain ⟨new, hnew, he⟩ := Option.bind_eq_some_iff.1 he
    split at he
    · next hknows =>
      cases he
      simp only [effect, hg, hnew, hs.shared, hknows, Option.bind_eq_bind, Option.bind_some,
        and_self, if_true]
      exact ⟨_, rfl, .start (.refl new) (.cons .outside hb)⟩
    · cases he
  | keep v =>
    simp only [effect, hs.shared] at he ⊢
    split at he
    · next hknows =>
      cases he
      rw [if_pos hknows]
      exact ⟨_, rfl, .keep (.cons .outside hb)⟩
    · cases he
  | ret v =>
    simp only [effect, hs.shared] at he ⊢
    split at he
    · next hknows =>
      cases he
      rw [if_pos hknows]
      exact ⟨_, rfl, .move (deliver_alike hb (fun _ _ _ _ => rfl) fun _ => rfl)⟩
    · cases he
  | throw =>
    cases he
    exact ⟨_, rfl, .move (unwind_alike hb)⟩

theorem effect_alike (hπ : π.Ok D G opened) (hblind : π.Blind G) (hs : Alike π s s')
    (hinv : Inv π D G s) {stack stack' : List (Layer P C V)} (h : StackOk π D G s.objs t stack)
    (hk : StackAlike π stack stack') {m m' : Move V} (hm : SameMove m m')
    (he : effect D G s opened m stack = some e) :
    ∃ e', effect D G s' opened m' stack' = some e' ∧ EffectAlike π s.objs e e' := by
  cases hk with
  | nil => cases m <;> cases he
  | cons hl hb =>
    cases hl with
    | code hc =>
      cases m with
      | run answer given =>
        cases m' with
        | run answer' given' =>
          cases hm
          exact runCode_alike hπ hblind hs h hc hb he
        | _ => cases hm
      | _ => cases he
    | outside =>
      have hmove : m' = m := by
        cases m with
        | run => cases he
        | _ => exact hm
      subst hmove
      exact outside_alike hs hinv h.head hb he

theorem Alike.step (hπ : π.Ok D G opened) (hblind : π.Blind G) (hs : Alike π s s')
    (hinv : Inv π D G s) {m m' : Move V} (hm : SameMove m m') {r : State P C V B}
    (hr : Ir.step D G opened t m s = some r) :
    ∃ r', Ir.step D G opened t m' s' = some r' ∧ Alike π r r' := by
  obtain ⟨stack, hstack, hr⟩ := Option.bind_eq_some_iff.1 hr
  obtain ⟨e, he, hr⟩ := Option.bind_eq_some_iff.1 hr
  cases hr
  obtain ⟨stack', hstack', hk⟩ := exists_getElem?_of_forall₂ hs.threads hstack
  obtain ⟨e', he', halike⟩ := effect_alike hπ hblind hs hinv (hinv.threads hstack) hk hm he
  exact ⟨_, by simp [Ir.step, hstack', he'], hs.apply halike⟩

end Step

/-- Two executions with the same schedule and inputs go on alike. -/
theorem Alike.run {π : Policy} {D : Data P C V B} {G : Program P C B} {opened : Nat → Bool}
    (hπ : π.Ok D G opened) (hblind : π.Blind G) {s s' r : State P C V B} (hs : Alike π s s')
    (hinv : Inv π D G s) {ms ms' : List (Nat × Move V)} (hm : SameMoves ms ms')
    (hr : Ir.run D G opened ms s = some r) :
    ∃ r', Ir.run D G opened ms' s' = some r' ∧ Alike π r r' := by
  induction hm generalizing s s' with
  | nil =>
    cases hr
    exact ⟨s', rfl, hs⟩
  | @cons m m' ms ms' hmm _ ih =>
    obtain ⟨t, m⟩ := m
    obtain ⟨t', m'⟩ := m'
    obtain ⟨rfl, hmm⟩ := hmm
    obtain ⟨s₁, h₁, hr⟩ := Option.bind_eq_some_iff.1 hr
    obtain ⟨s₁', h₁', hs₁⟩ := hs.step hπ hblind hinv hmm h₁
    obtain ⟨r', hr', halike⟩ := ih hs₁ (hinv.step hπ h₁) hr
    exact ⟨r', by simp [Ir.run, h₁', hr'], halike⟩

end Wtc.Ir
