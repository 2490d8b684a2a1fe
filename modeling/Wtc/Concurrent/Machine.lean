import Mathlib.Algebra.BigOperators.Group.Finset.Basic
import Wtc.Concurrent.Atomic

/-!
# Threads over a shared state

A `Machine` is a program that any number of threads run over one shared state.
A thread that is inside a call is at some *location* (its program counter and its variables);
one step of one thread reads and writes the shared state once and moves the thread on.
Every interleaving of such steps is a run, so the runs are the sequentially consistent ones.

## Proving something of every run

`Rule` is the thread-modular proof rule. It keeps a *ghost* `w` beside the state and asks for

* `G`, what holds of the shared state,
* `L`, what each thread relies on at its location,
* `rely`, what a step of one thread may do to what the others rely on.

A step of a thread must re-establish `G` and its own `L` and stay within `rely`,
and `rely` must not disturb the `L` of another thread (`stable`).
The ghost moves along a relation `T` of its own; with the moves of the atomic object for `T`,
the rule proves linearizability (`Rule.linearizable`).
-/

namespace Wtc.Concurrent

variable {Tid Sh Loc Call Ch Op Ans σ W : Type}

/-! ## Machines -/

/-- The shared state and where each thread is; `none` is a thread outside every call. -/
structure Config (Tid Sh Loc : Type) where
  sh : Sh
  loc : Tid → Option Loc

/--
A program run by threads.

`may` says which thread may make which call when; `ops` is what a call asks for; a call begins at
`start` and is over at a location with an `answer`.
`step` is one step of a thread, `none` when it cannot take any; its second argument resolves what
the program leaves open (a spurious failure, a race with the clock).
-/
structure Machine (Tid Sh Loc Call Ch Op Ans : Type) where
  init : Sh
  may : Config Tid Sh Loc → Tid → Call → Prop
  ops : Call → List Op
  start : Call → Loc
  step : Tid → Ch → Sh → Loc → Option (Sh × Loc)
  answer : Loc → Option (List Ans)

/-- Every thread outside every call. -/
def Machine.initial (M : Machine Tid Sh Loc Call Ch Op Ans) : Config Tid Sh Loc :=
  ⟨M.init, fun _ => none⟩

variable [DecidableEq Tid]

/-- Moves thread `t` to another location. -/
def Config.set (s : Config Tid Sh Loc) (t : Tid) (l : Option Loc) : Config Tid Sh Loc :=
  { s with loc := Function.update s.loc t l }

@[simp] theorem Config.set_loc_self (s : Config Tid Sh Loc) (t : Tid) (l : Option Loc) :
    (s.set t l).loc t = l := by simp [Config.set]

theorem Config.set_loc_ne (s : Config Tid Sh Loc) {t u : Tid} (h : u ≠ t) (l : Option Loc) :
    (s.set t l).loc u = s.loc u := by simp [Config.set, h]

/-- Moving one thread changes a sum over the threads by that thread's part. -/
theorem Config.sum_set [Fintype Tid] (f : Tid → Option Loc → Nat) (s : Config Tid Sh Loc) (t : Tid)
    (x : Option Loc) :
    (∑ u, f u ((s.set t x).loc u)) + f t (s.loc t) = (∑ u, f u (s.loc u)) + f t x := by
  rw [← Finset.add_sum_erase _ (fun u => f u ((s.set t x).loc u)) (Finset.mem_univ t),
    ← Finset.add_sum_erase _ (fun u => f u (s.loc u)) (Finset.mem_univ t), Config.set_loc_self,
    Finset.sum_congr rfl fun u hu => by rw [Config.set_loc_ne s (Finset.ne_of_mem_erase hu)]]
  omega

/-- One event of a run: a call, a step or an answer of one thread. -/
inductive Machine.Next (M : Machine Tid Sh Loc Call Ch Op Ans) :
    Config Tid Sh Loc → List (Event Tid Op Ans) → Config Tid Sh Loc → Prop
  | call {s : Config Tid Sh Loc} {t : Tid} (hl : s.loc t = none) {c : Call} (hm : M.may s t c) :
      Next M s [.call t (M.ops c)] (s.set t (some (M.start c)))
  | step {s : Config Tid Sh Loc} {t : Tid} {l : Loc} (hl : s.loc t = some l) {c : Ch} {sh' : Sh}
      {l' : Loc} (hs : M.step t c s.sh l = some (sh', l')) :
      Next M s [] { s.set t (some l') with sh := sh' }
  | ret {s : Config Tid Sh Loc} {t : Tid} {l : Loc} (hl : s.loc t = some l) {ans : List Ans}
      (ha : M.answer l = some ans) : Next M s [.ret t ans] (s.set t none)

/-- The runs all of whose states satisfy `P`, with their histories. -/
inductive Machine.Run (M : Machine Tid Sh Loc Call Ch Op Ans) (P : Config Tid Sh Loc → Prop) :
    List (Event Tid Op Ans) → Config Tid Sh Loc → Prop
  | init (hP : P M.initial) : Run M P [] M.initial
  | next {h es : List (Event Tid Op Ans)} {s s' : Config Tid Sh Loc} (hr : Run M P h s)
      (hn : M.Next s es s') (hP : P s') : Run M P (h ++ es) s'

/-- The runs of the machine, with their histories. -/
abbrev Machine.Runs (M : Machine Tid Sh Loc Call Ch Op Ans) :
    List (Event Tid Op Ans) → Config Tid Sh Loc → Prop :=
  M.Run fun _ => True

/-- Some run goes on from the one state to the other. -/
abbrev Machine.Leads (M : Machine Tid Sh Loc Call Ch Op Ans) :
    Config Tid Sh Loc → Config Tid Sh Loc → Prop :=
  Relation.ReflTransGen fun s s' => ∃ es, M.Next s es s'

section Runs

variable {M : Machine Tid Sh Loc Call Ch Op Ans} {P Q : Config Tid Sh Loc → Prop}
  {h h' es : List (Event Tid Op Ans)} {s s' : Config Tid Sh Loc} {t : Tid}
  {T : W → List (Event Tid Op Ans) → W → Prop} {O : Object σ Op Ans}
  {abs : W → Atomic.State Tid Op Ans σ}

theorem Machine.Run.last (hr : M.Run P h s) : P s := by
  cases hr with
  | init hP | next _ _ hP => exact hP

/-- What holds at the start and is kept by every event holds at the end of every run. -/
theorem Machine.Run.invariant {P I : Config Tid Sh Loc → Prop} (h₀ : I M.initial)
    (hnext : ∀ {s es s'}, I s → P s → P s' → M.Next s es s' → I s') (hr : M.Run P h s) : I s := by
  induction hr with
  | init _ => exact h₀
  | next hr hn hP ih => exact hnext ih hr.last hP hn

theorem Machine.Run.mono (hPQ : ∀ s, P s → Q s) (hr : M.Run P h s) : M.Run Q h s := by
  induction hr with
  | init hP => exact .init (hPQ _ hP)
  | next _ hn hP ih => exact ih.next hn (hPQ _ hP)

/-- What holds at the end of a run and cannot come about later holds all along. -/
theorem Machine.Run.throughout (hback : ∀ {s es s'}, M.Next s es s' → Q s' → Q s)
    (hQP : ∀ {s}, Q s → P s) (hr : M.Runs h s) (hq : Q s) : M.Run P h s := by
  induction hr with
  | init _ => exact .init (hQP hq)
  | next _ hn _ ih => exact (ih (hback hn hq)).next hn (hQP hq)

/-- Seen from its end, a run goes through states that lead to the end. -/
theorem Machine.Run.leads (hr : M.Runs h s) : M.Run (fun s' => M.Leads s' s) h s := by
  suffices key : ∀ f, M.Leads s f → M.Run (fun s' => M.Leads s' f) h s from key s .refl
  induction hr with
  | init _ => exact fun f hf => .init hf
  | next _ hn _ ih => exact fun f hf => (ih f (.head ⟨_, hn⟩ hf)).next hn hf

/-- The same program, of which only the steps that `ok` allows are taken. -/
def Machine.only (M : Machine Tid Sh Loc Call Ch Op Ans) (ok : Tid → Ch → Sh → Loc → Bool) :
    Machine Tid Sh Loc Call Ch Op Ans :=
  { M with step := fun t c sh l => if ok t c sh l then M.step t c sh l else none }

instance Machine.decidable_only_may (M : Machine Tid Sh Loc Call Ch Op Ans)
    (ok : Tid → Ch → Sh → Loc → Bool) (s : Config Tid Sh Loc) (t : Tid) (c : Call)
    [h : Decidable (M.may s t c)] : Decidable ((M.only ok).may s t c) := h

variable {ok : Tid → Ch → Sh → Loc → Bool}

/-- Only calls that a thread may make are made. -/
theorem Machine.Run.call_may (hr : M.Run P h s) {i : Nat} {ops : List Op}
    (hi : h[i]? = some (.call t ops)) : ∃ s' c, M.may s' t c ∧ M.ops c = ops := by
  induction hr with
  | init _ => cases hi
  | @next h es s s' hr hn hP ih =>
    cases hn with
    | @call t' hl c hm =>
      rcases getElem?_append_singleton.mp hi with hi | ⟨-, he⟩
      · exact ih hi
      · cases he; exact ⟨s, c, hm, rfl⟩
    | step hl hs => rw [List.append_nil] at hi; exact ih hi
    | ret hl ha =>
      rcases getElem?_append_singleton.mp hi with hi | ⟨-, he⟩
      · exact ih hi
      · cases he

/-- What a history says of the calls of each thread: they are answered or open, the latter only
where the thread is inside a call. -/
structure Alternates (h : List (Event Tid Op Ans)) (s : Config Tid Sh Loc) : Prop where
  call : ∀ (i : Nat) (t : Tid) (ops : List Op), h[i]? = some (.call t ops) →
    (∃ j ans, Answers h i j t ops ans) ∨ Open h t i ops
  idle : ∀ t, s.loc t = none → ∀ i ops, ¬ Open h t i ops
  sequential : Sequential h

theorem Alternates.call_next (ha : Alternates h s) (hl : s.loc t = none) (ops : List Op)
    (l : Loc) : Alternates (h ++ [.call t ops]) (s.set t (some l)) where
  call := by
    intro i u ops' hi
    rcases getElem?_append_singleton.mp hi with hi | ⟨rfl, he⟩
    · rcases ha.call i u ops' hi with ⟨j, ans, hj⟩ | ho
      · exact .inl ⟨j, ans, hj.append _⟩
      · refine .inr (ho.append fun hu => ?_)
        subst hu
        exact ha.idle _ hl i ops' ho
    · cases he
      refine .inr ⟨by simp, fun m e hm he => ?_⟩
      have := lt_length_of_getElem? he
      simp at this
      omega
  idle := by
    intro u hu i ops' ho
    have hut : u ≠ t := by
      rintro rfl
      rw [Config.set_loc_self] at hu
      cases hu
    rw [Config.set_loc_ne s hut] at hu
    exact ha.idle u hu i ops' (ho.of_append hut.symm)
  sequential := by
    intro i i' u ops₁ ops₂ hi hi' hlt
    rcases getElem?_append_singleton.mp hi' with hi' | ⟨rfl, he⟩
    · have hlen := lt_length_of_getElem? hi'
      rcases getElem?_append_singleton.mp hi with hi | ⟨rfl, -⟩
      · exact (before_append hlen.le).mpr (ha.sequential i i' u ops₁ ops₂ hi hi' hlt)
      · omega
    · cases he
      rcases getElem?_append_singleton.mp hi with hi | ⟨rfl, -⟩
      · rcases ha.call i t ops₁ hi with ⟨j, ans, hj⟩ | ho
        · exact ⟨j, t, ops₁, ans, hj.append _, hj.lt_length⟩
        · exact absurd ho (ha.idle t hl i ops₁)
      · omega

theorem Alternates.ret_next (ha : Alternates h s) (ans : List Ans) :
    Alternates (h ++ [.ret t ans]) (s.set t none) where
  call := by
    intro i u ops' hi
    rcases getElem?_append_singleton.mp hi with hi | ⟨-, he⟩
    · rcases ha.call i u ops' hi with ⟨j, ans', hj⟩ | ho
      · exact .inl ⟨j, ans', hj.append _⟩
      · by_cases hut : u = t
        · subst hut
          exact .inl ⟨_, ans, ho.answers ans⟩
        · exact .inr (ho.append (Ne.symm hut))
    · cases he
  idle := by
    intro u hu i ops' ho
    by_cases hut : u = t
    · subst hut
      have hlt : i < h.length := by
        rcases getElem?_append_singleton.mp ho.call with hc | ⟨-, he⟩
        · exact lt_length_of_getElem? hc
        · cases he
      exact ho.after h.length (.ret u ans) hlt (by simp) rfl
    · rw [Config.set_loc_ne s hut] at hu
      exact ha.idle u hu i ops' (ho.of_append (Ne.symm hut))
  sequential := by
    intro i i' u ops₁ ops₂ hi hi' hlt
    rcases getElem?_append_singleton.mp hi' with hi' | ⟨-, he⟩
    · rcases getElem?_append_singleton.mp hi with hi | ⟨-, he⟩
      · exact (before_append (lt_length_of_getElem? hi').le).mpr
          (ha.sequential i i' u ops₁ ops₂ hi hi' hlt)
      · cases he
    · cases he

/-- In a run every thread makes its calls one after another. -/
theorem Machine.Run.sequential (hr : M.Run P h s) : Sequential h := by
  suffices ha : Alternates h s from ha.sequential
  induction hr with
  | init _ => exact ⟨nofun, fun _ _ _ _ ho => (nomatch ho.call), nofun⟩
  | next hr hn hP ih =>
    cases hn with
    | call hl hm => exact ih.call_next hl _ _
    | ret hl ha => exact ih.ret_next _
    | @step t l hl c sh' l' hs =>
      rw [List.append_nil]
      refine ⟨ih.call, fun u hu => ih.idle u ?_, ih.sequential⟩
      by_cases hut : u = t
      · subst hut
        have hu := (Config.set_loc_self ..).symm.trans hu
        cases hu
      · exact (Config.set_loc_ne _ hut _).symm.trans hu

/-! ## Schedules

A run can be computed from the order in which its calls, steps and answers happen.
-/

/-- What happens next: a call, a step with its choice, or an answer of one thread. -/
inductive Action (Tid Call Ch : Type) where
  | call (t : Tid) (c : Call)
  | step (t : Tid) (c : Ch)
  | ret (t : Tid)
  deriving DecidableEq, Repr

/-- A schedule of two threads names them by numerals. -/
scoped instance neZero_two : @NeZero Nat Zero.ofOfNat0 2 := Nat.instNeZeroSucc

/-- So many steps of one thread in a row. -/
def Action.steps (t : Tid) (n : Nat) : List (Action Tid Call Unit) := List.replicate n (.step t ())

/-- Carries out one action, if the thread can take it. -/
def Machine.act (M : Machine Tid Sh Loc Call Ch Op Ans)
    [∀ s t c, Decidable (M.may s t c)] (s : Config Tid Sh Loc) :
    Action Tid Call Ch → Option (List (Event Tid Op Ans) × Config Tid Sh Loc)
  | .call t c =>
    match s.loc t with
    | none =>
      if M.may s t c then some ([.call t (M.ops c)], s.set t (some (M.start c))) else none
    | some _ => none
  | .step t c =>
    match s.loc t with
    | none => none
    | some l =>
      match M.step t c s.sh l with
      | none => none
      | some (sh', l') => some ([], { s.set t (some l') with sh := sh' })
  | .ret t =>
    match s.loc t with
    | none => none
    | some l =>
      match M.answer l with
      | none => none
      | some ans => some ([.ret t ans], s.set t none)

/-- Carries out a schedule from a state, adding to a history. -/
def Machine.exec (M : Machine Tid Sh Loc Call Ch Op Ans) [∀ s t c, Decidable (M.may s t c)] :
    List (Action Tid Call Ch) → List (Event Tid Op Ans) → Config Tid Sh Loc →
    Option (List (Event Tid Op Ans) × Config Tid Sh Loc)
  | [], h, s => some (h, s)
  | a :: rest, h, s =>
    match M.act s a with
    | none => none
    | some (es, s') => M.exec rest (h ++ es) s'

theorem Machine.next_of_act [∀ s t c, Decidable (M.may s t c)] {a : Action Tid Call Ch}
    (h : M.act s a = some (es, s')) : M.Next s es s' := by
  cases a with
  | call t c =>
    simp only [Machine.act] at h
    split at h
    · next hl =>
      split at h
      · next hm =>
        obtain ⟨rfl, rfl⟩ := Prod.mk.inj (Option.some.inj h)
        exact .call hl hm
      · cases h
    · cases h
  | step t c =>
    simp only [Machine.act] at h
    split at h
    · cases h
    · next l hl =>
      split at h
      · cases h
      · next sh' l' hs =>
        obtain ⟨rfl, rfl⟩ := Prod.mk.inj (Option.some.inj h)
        exact .step hl hs
  | ret t =>
    simp only [Machine.act] at h
    split at h
    · cases h
    · next l hl =>
      split at h
      · cases h
      · next ans ha =>
        obtain ⟨rfl, rfl⟩ := Prod.mk.inj (Option.some.inj h)
        exact .ret hl ha

/-- A schedule that can be carried out is a run. -/
theorem Machine.runs_of_exec [∀ s t c, Decidable (M.may s t c)] (hr : M.Runs h s)
    (acts : List (Action Tid Call Ch)) (he : M.exec acts h s = some (h', s')) : M.Runs h' s' := by
  induction acts generalizing h s with
  | nil =>
    obtain ⟨rfl, rfl⟩ := Prod.mk.inj (Option.some.inj he)
    exact hr
  | cons a rest ih =>
    simp only [Machine.exec] at he
    split at he
    · cases he
    · next es s₁ ha => exact ih (hr.next (next_of_act ha) trivial) he

/-! ## The proof rule -/

/-- The moves of a ghost along a run, with the history. -/
inductive Trace (T : W → List (Event Tid Op Ans) → W → Prop) (w₀ : W) :
    List (Event Tid Op Ans) → W → Prop
  | init : Trace T w₀ [] w₀
  | next {h es : List (Event Tid Op Ans)} {w w' : W} (hr : Trace T w₀ h w) (hT : T w es w') :
      Trace T w₀ (h ++ es) w'

/-- What a thread-modular proof about the runs of `M` through states with `P` consists of. -/
structure Rule (M : Machine Tid Sh Loc Call Ch Op Ans) (P : Config Tid Sh Loc → Prop)
    (T : W → List (Event Tid Op Ans) → W → Prop) where
  w₀ : W
  G : Sh → W → Prop
  L : Tid → Sh → W → Option Loc → Prop
  rely : Tid → Sh → W → Sh → W → Prop
  init : G M.init w₀ ∧ ∀ t, L t M.init w₀ none
  call : ∀ {s : Config Tid Sh Loc} {w : W} {t : Tid} {c : Call}, G s.sh w →
    (∀ u, L u s.sh w (s.loc u)) → P s → s.loc t = none → M.may s t c →
    ∃ w', T w [.call t (M.ops c)] w' ∧ G s.sh w' ∧ L t s.sh w' (some (M.start c)) ∧
      rely t s.sh w s.sh w'
  step : ∀ {s : Config Tid Sh Loc} {w : W} {t : Tid} {l : Loc} {c : Ch} {sh' : Sh} {l' : Loc},
    G s.sh w → (∀ u, L u s.sh w (s.loc u)) → P s →
    P { s.set t (some l') with sh := sh' } → s.loc t = some l → L t s.sh w (some l) →
    M.step t c s.sh l = some (sh', l') →
    ∃ w', T w [] w' ∧ G sh' w' ∧ L t sh' w' (some l') ∧ rely t s.sh w sh' w'
  ret : ∀ {s : Config Tid Sh Loc} {w : W} {t : Tid} {l : Loc} {ans : List Ans}, G s.sh w →
    (∀ u, L u s.sh w (s.loc u)) → P s → s.loc t = some l → M.answer l = some ans →
    ∃ w', T w [.ret t ans] w' ∧ G s.sh w' ∧ L t s.sh w' none ∧ rely t s.sh w s.sh w'
  stable : ∀ {sh sh' : Sh} {w w' : W} {t u : Tid} {x : Option Loc}, u ≠ t → G sh w → G sh' w' →
    L u sh w x → rely t sh w sh' w' → L u sh' w' x

/-- When one thread has moved, what the rule says of the others is stable. -/
theorem Rule.moved (R : Rule M P T) {sh' : Sh} {w w' : W} {x : Option Loc} (hG : R.G s.sh w)
    (hL : ∀ u, R.L u s.sh w (s.loc u)) (hG' : R.G sh' w') (hL' : R.L t sh' w' x)
    (hrely : R.rely t s.sh w sh' w') (u : Tid) : R.L u sh' w' ((s.set t x).loc u) := by
  by_cases hu : u = t
  · subst hu
    rw [Config.set_loc_self]
    exact hL'
  · rw [Config.set_loc_ne s hu]
    exact R.stable hu hG hG' (hL u) hrely

/-- One event keeps what the rule proves, and the ghost moves along. -/
theorem Rule.next (R : Rule M P T) {w : W} (hG : R.G s.sh w) (hL : ∀ t, R.L t s.sh w (s.loc t))
    (hP : P s) (hP' : P s') (hn : M.Next s es s') :
    ∃ w' t, T w es w' ∧ R.rely t s.sh w s'.sh w' ∧ R.G s'.sh w' ∧
      ∀ u, R.L u s'.sh w' (s'.loc u) := by
  cases hn with
  | @call t hl c hm =>
    obtain ⟨w', hT, hG', hL', hrely⟩ := R.call hG hL hP hl hm
    exact ⟨w', t, hT, hrely, hG', R.moved hG hL hG' hL' hrely⟩
  | @step t l hl c sh' l' hs =>
    have hLt := hL t
    rw [hl] at hLt
    obtain ⟨w', hT, hG', hL', hrely⟩ := R.step hG hL hP hP' hl hLt hs
    exact ⟨w', t, hT, hrely, hG', R.moved hG hL hG' hL' hrely⟩
  | @ret t l hl ans ha =>
    obtain ⟨w', hT, hG', hL', hrely⟩ := R.ret hG hL hP hl ha
    exact ⟨w', t, hT, hrely, hG', R.moved hG hL hG' hL' hrely⟩

/-- What the rule proves holds at the end of every run, and the ghost has moved along. -/
theorem Rule.sound (R : Rule M P T) (hr : M.Run P h s) :
    ∃ w, Trace T R.w₀ h w ∧ R.G s.sh w ∧ ∀ t, R.L t s.sh w (s.loc t) := by
  induction hr with
  | init _ => exact ⟨R.w₀, .init, R.init.1, R.init.2⟩
  | next hr hn hP ih =>
    obtain ⟨w, htr, hG, hL⟩ := ih
    obtain ⟨w', -, hT, -, hG', hL'⟩ := R.next hG hL hr.last hP hn
    exact ⟨w', htr.next hT, hG', hL'⟩

/-- The rule for fewer runs. -/
def Rule.restrict {M : Machine Tid Sh Loc Call Ch Op Ans} {P Q : Config Tid Sh Loc → Prop}
    {T : W → List (Event Tid Op Ans) → W → Prop} (R : Rule M P T) (hQ : ∀ {s}, Q s → P s) :
    Rule M Q T :=
  { R with
    call := fun hG hL hP => R.call hG hL (hQ hP)
    step := fun hG hL hP hP' => R.step hG hL (hQ hP) (hQ hP')
    ret := fun hG hL hP => R.ret hG hL (hQ hP) }

/-- What the rule proves along a run, said with what the ghost comes to in the end: `D w x` means
that `w` is on the way to `x`. -/
theorem Rule.throughout (R : Rule M P T) {X : Type} {D : W → X → Prop}
    {Q : Config Tid Sh Loc → X → Prop}
    (hD : ∀ {t sh sh' w w' x}, R.rely t sh w sh' w' → D w' x → D w x)
    (hQ : ∀ {s w x}, P s → R.G s.sh w → (∀ t, R.L t s.sh w (s.loc t)) → D w x → Q s x)
    (hr : M.Run P h s) : ∃ w, R.G s.sh w ∧ (∀ t, R.L t s.sh w (s.loc t)) ∧
      ∀ x, D w x → M.Run (fun s => Q s x) h s := by
  induction hr with
  | init hP => exact ⟨R.w₀, R.init.1, R.init.2, fun x hx => .init (hQ hP R.init.1 R.init.2 hx)⟩
  | next hr hn hP ih =>
    obtain ⟨w, hG, hL, hrun⟩ := ih
    obtain ⟨w', t, -, hrely, hG', hL'⟩ := R.next hG hL hr.last hP hn
    exact ⟨w', hG', hL', fun x hx => (hrun x (hD hrely hx)).next hn (hQ hP hG' hL' hx)⟩

/-! ## Ghosts that carry the atomic object -/

/-- The atomic object takes any number of steps and then the given call or answer. -/
inductive Atomic.Moves (O : Object σ Op Ans) :
    Atomic.State Tid Op Ans σ → List (Event Tid Op Ans) → Atomic.State Tid Op Ans σ → Prop
  | steps {a a' : Atomic.State Tid Op Ans σ} (hs : Atomic.Steps O a a') : Moves O a [] a'
  | call {a : Atomic.State Tid Op Ans σ} {t : Tid} (hp : a.pend t = none) (ops : List Op) :
      Moves O a [.call t ops] (a.set t (some (.new ops)))
  | ret {a a' : Atomic.State Tid Op Ans σ} (hs : Atomic.Steps O a a') {t : Tid} {ans : List Ans}
      {seen : Ans → Prop} (hp : a'.pend t = some ⟨[], ans, seen⟩) :
      Moves O a [.ret t ans] (a'.set t none)

/-- A ghost that carries the atomic object along. -/
def carries (O : Object σ Op Ans) (abs : W → Atomic.State Tid Op Ans σ) (w : W)
    (es : List (Event Tid Op Ans)) (w' : W) : Prop :=
  Atomic.Moves O (abs w) es (abs w')

/-- A ghost that carries the atomic object and keeps the history. -/
def keeps (O : Object σ Op Ans) (abs : W → Atomic.State Tid Op Ans σ)
    (hist : W → List (Event Tid Op Ans)) (w : W) (es : List (Event Tid Op Ans)) (w' : W) : Prop :=
  carries O abs w es w' ∧ hist w' = hist w ++ es

theorem Trace.hist_eq {hist : W → List (Event Tid Op Ans)} {w₀ w : W} (h₀ : hist w₀ = [])
    (ht : Trace (keeps O abs hist) w₀ h w) : hist w = h := by
  induction ht with
  | init => exact h₀
  | next _ hT ih => rw [hT.2, ih]

theorem Trace.atomic_run {w₀ w : W} (hT : ∀ {w es w'}, T w es w' → carries O abs w es w')
    (h₀ : abs w₀ = Atomic.init O) (ht : Trace T w₀ h w) : Atomic.Run O h (abs w) := by
  induction ht with
  | init => rw [h₀]; exact .init
  | @next h es w w' _ hTw ih =>
    have hm : Atomic.Moves O (abs w) es (abs w') := hT hTw
    generalize abs w = a at hm ih
    generalize abs w' = a' at hm
    cases hm with
    | steps hs => rw [List.append_nil]; exact ih.steps hs
    | call hp ops => exact ih.call hp ops
    | ret hs hp => exact (ih.steps hs).ret hp

/-- **A machine whose ghost carries the atomic object has linearizable histories only.** -/
theorem Rule.linearizable (R : Rule M P T) (hT : ∀ {w es w'}, T w es w' → carries O abs w es w')
    (h₀ : abs R.w₀ = Atomic.init O) (hr : M.Run P h s) : Linearizable O h := by
  obtain ⟨w, ht, -⟩ := R.sound hr
  exact (ht.atomic_run hT h₀).linearizable

end Runs

end Wtc.Concurrent
