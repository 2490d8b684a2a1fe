import Mathlib.Data.List.Dedup
import Mathlib.Logic.Relation
import Wtc.Nested.Once
import Wtc.Threads.Invariant

/-!
# Executions of a module

An execution is the list of the activations of functions that it comes to, in the order in which
they start, each with the leaves it has run so far. Nothing is said of when threads run, so any
schedule is one, and of conditions, so that any outcome of them is one.

An activation stands for an instance of a walk if it was reached by the calls and spawns of the
instance's chain. Only one activation stands for an instance that is marked to run once
(`StandsFor.unique`).
-/

namespace Wtc.Threads

open Wtc.Nested

variable {F : Type}

/-- How an activation comes about. -/
inductive Origin where
  /-- The program starts it: the main function or a global constructor. -/
  | start (k : Nat)
  /-- A call, or a spawn, which is the leaf of that index in the caller's run. -/
  | site (caller k : Nat) (spawned : Bool)
  /-- Code that the module does not show calls it, or a call through its address. -/
  | outside
  deriving DecidableEq, Repr

structure Activation (F : Type) where
  func : F
  origin : Origin
  /-- The leaves that it has run. -/
  trace : List Pos

/-- What a call may run. -/
def Module.MayRun (M : Module F) (c : Call F) (spawned : Bool) (f : F) : Prop :=
  if spawned then ∃ s, c.callee = some s ∧ M.kind s = .threadSpawn
  else ∀ g, c.callee = some g → M.kind g ≠ .threadSpawn → f = g

structure Execution (M : Module F) where
  acts : List (Activation F)
  runs : ∀ a ∈ acts, M.isUnstructured a.func = false → ∃ e, Runs (M.body a.func) a.trace e
  start : ∀ a ∈ acts, ∀ k, a.origin = .start k → M.starts[k]? = some a.func
  start_once : ∀ {m n k : Nat} {a b : Activation F}, acts[m]? = some a → acts[n]? = some b →
    a.origin = .start k → b.origin = .start k → m = n
  site : ∀ {n m k : Nat} {spawned : Bool} {a : Activation F}, acts[n]? = some a →
    a.origin = .site m k spawned → m < n ∧ ∃ b p c, acts[m]? = some b ∧ b.trace[k]? = some p ∧
      M.callAt b.func p = some c ∧ M.MayRun c spawned a.func
  /-- A call runs one function, and a spawn starts one thread, unless it starts one on every
  worker. -/
  site_once : ∀ {m n j k : Nat} {s s' : Bool} {a b d : Activation F} {p : Pos} {c : Call F},
    acts[m]? = some a → acts[n]? = some b → a.origin = .site j k s → b.origin = .site j k s' →
    acts[j]? = some d → d.trace[k]? = some p → M.callAt d.func p = some c →
    c.callee.any M.launchesAll = false → m = n

/-- An instance is a child of the other. -/
def Child (insts : List (Instance F)) (i j : Nat) : Prop :=
  ∃ c, insts[j]? = some c ∧ c.parent = some i

/-- A child by a direct call. -/
def Called (M : Module F) (insts : List (Instance F)) (i j : Nat) : Prop :=
  ∃ c parent, insts[j]? = some c ∧ c.parent = some i ∧ insts[i]? = some parent ∧
    c.func ∈ M.callees parent.func

variable {M : Module F}

/-- The instances that an activation stands for. An instance stands for the runs of its function
further down its chain as well, if the function came back by calls or the instance is one that the
walk took for many runs. -/
inductive StandsFor (X : Execution M) (insts : List (Instance F)) : Nat → Nat → Prop where
  | start {n k a i} : X.acts[n]? = some a → a.origin = .start k → insts[k]? = some i →
      i.parent = none → i.speculative = false → i.func = a.func → StandsFor X insts n k
  | outside {n k a i} : X.acts[n]? = some a → a.origin = .outside → insts[k]? = some i →
      i.parent = none → i.speculative = true → i.func = a.func → StandsFor X insts n k
  | site {n m k i j p spawned a b c parent} : StandsFor X insts m i → X.acts[m]? = some b →
      X.acts[n]? = some a → a.origin = .site m k spawned → b.trace[k]? = some p →
      insts[i]? = some parent → insts[j]? = some c → c.parent = some i → c.site = some p →
      c.func = a.func → (spawned = true ↔ c.thread ≠ parent.thread) → StandsFor X insts n j
  | again {n i j ci cj} : StandsFor X insts n j → Relation.TransGen (Child insts) i j →
      insts[i]? = some ci → insts[j]? = some cj → ci.func = cj.func →
      ci.recurring = true ∨ Relation.TransGen (Called M insts) i j → StandsFor X insts n i

/-- The activation is the start of a thread that the number stands for. -/
def StartsThread (X : Execution M) (w : Walk F) (n t : Nat) : Prop :=
  ∃ i, w.instances.findIdx? (·.thread = t) = some i ∧ StandsFor X w.instances n i

/-! ## What an activation stands for -/

theorem callAt_of_mem {f : F} {p : Pos} {c : Call F} (h : (p, c) ∈ M.calls f) :
    M.callAt f p = some c := by
  obtain ⟨⟨p', k⟩, hx, hk⟩ := List.mem_filterMap.1 h
  split at hk
  · next heq =>
    cases hk
    obtain ⟨o, hfind, ho⟩ := kindAt_of_walk hx
    simp only at heq
    subst heq
    simp [Module.callAt, hfind, ho]
  · cases hk

theorem hasBody_of_callees {f g : F} (h : g ∈ M.callees f) : M.hasBody g = true := by
  obtain ⟨x, -, hx⟩ := List.mem_filterMap.1 h
  exact (Option.filter_eq_some_iff.1 hx).2

theorem mem_funcs_of_callees {f g : F} (h : g ∈ M.callees f) : g ∈ M.funcs :=
  M.mem_funcs g (by simpa [Module.hasBody] using hasBody_of_callees h)

section Stands

variable {X : Execution M} {insts : List (Instance F)}

theorem callees_of_called {i j : Nat} {ci cj : Instance F} (hi : insts[i]? = some ci)
    (hj : insts[j]? = some cj) (h : Relation.TransGen (Called M insts) i j) :
    Relation.TransGen (fun a b => b ∈ M.callees a) ci.func cj.func := by
  induction h generalizing cj with
  | single h =>
    obtain ⟨c, parent, hc, -, hp, hmem⟩ := h
    rw [hi] at hp
    rw [hj] at hc
    cases hp
    cases hc
    exact .single hmem
  | tail _ h ih =>
    obtain ⟨c, parent, hc, -, hp, hmem⟩ := h
    rw [hj] at hc
    cases hc
    exact (ih hp).tail hmem

theorem StandsFor.func {n j : Nat} {a : Activation F} {c : Instance F} (h : StandsFor X insts n j)
    (ha : X.acts[n]? = some a) (hc : insts[j]? = some c) : c.func = a.func := by
  induction h generalizing c with
  | start ha' _ hi _ _ hfunc | outside ha' _ hi _ _ hfunc | site _ _ ha' _ _ _ hi _ _ hfunc =>
    rw [ha] at ha'
    rw [hc] at hi
    cases ha'
    cases hi
    exact hfunc
  | again _ _ hi hj hfunc _ ih =>
    rw [hc] at hi
    cases hi
    exact hfunc.trans (ih ha hj)

/-- The call that an activation comes from, and the child that it stands for. -/
structure CameFrom (X : Execution M) (insts : List (Instance F)) (n m k i : Nat) (p : Pos)
    (c : Instance F) (b : Activation F) : Prop where
  caller : StandsFor X insts m i
  act : X.acts[m]? = some b
  callee : ∃ a spawned, X.acts[n]? = some a ∧ a.origin = .site m k spawned
  leaf : b.trace[k]? = some p
  parent : c.parent = some i
  site : c.site = some p

/-- A leaf that runs once has one index in the run. -/
theorem index_unique {t : List Pos} {p : Pos} {k k' : Nat} (hcount : t.count p ≤ 1)
    (hk : t[k]? = some p) (hk' : t[k']? = some p) : k = k' := by
  by_contra hne
  have htwo : ∀ {a b : Nat}, a < b → t[a]? = some p → t[b]? = some p → 2 ≤ t.count p := by
    intro a b hab ha hb
    have hsub : [p, p].Sublist t := by
      have hdrop : p ∈ t.drop (a + 1) :=
        List.mem_of_getElem? (i := b - (a + 1)) (by rw [List.getElem?_drop, ← hb]; congr 1; omega)
      have htake : p ∈ t.take (a + 1) :=
        List.mem_of_getElem? (i := a) (by rw [List.getElem?_take_of_lt (Nat.lt_succ_self a), ha])
      have happ := (List.singleton_sublist.2 htake).append (List.singleton_sublist.2 hdrop)
      rwa [List.take_append_drop] at happ
    simpa using hsub.count_le p
  rcases Nat.lt_or_gt_of_ne hne with hlt | hlt
  · have := htwo hlt hk hk'
    omega
  · have := htwo hlt hk' hk
    omega

/-- A site that runs once is not in a loop, nor does it start a thread on every worker. -/
theorem siteMult_one {f : F} {p : Pos} {c : Call F} (h : M.siteMult f p c = (.one, true)) :
    c.callee.any M.launchesAll = false ∧ underLoop (M.body f) p = false ∧
      M.isUnstructured f = false := by
  unfold Module.siteMult at h
  split_ifs at h with h₁ h₂ h₃
  · cases h
  · cases h
  · cases h
  · simp_all

end Stands

/-! ## One activation for an instance that runs once -/

section Unique

variable [DecidableEq F] {X : Execution M} {insts : List (Instance F)} {bound : Nat}

/-- What is reached by calls is found. -/
theorem mem_reached {f g : F} (h : Relation.TransGen (fun a b => b ∈ M.callees a) f g) :
    g ∈ M.reached (M.callees f) := by
  have hends : ∃ set, Rounds.fix (fun g set => if g ∈ set then M.callees g else []) M.funcs
      (M.funcs.length + 1) (M.callees f).dedup = some set := by
    refine Rounds.fix_ends ?_ (List.nodup_dedup _) ?_ (Nat.lt_add_right _ (Nat.lt_succ_self _))
    · intro a _ set o ho
      split at ho
      · exact mem_funcs_of_callees ho
      · cases ho
    · exact fun x hx => mem_funcs_of_callees (List.mem_dedup.1 hx)
  obtain ⟨set, hset⟩ := hends
  have hclosed := Rounds.fix_closed hset
  have hmem : g ∈ set ∧ g ∈ M.funcs := by
    induction h with
    | single h =>
      exact ⟨Rounds.subset_fix hset _ (List.mem_dedup.2 h), mem_funcs_of_callees h⟩
    | tail _ h ih =>
      exact ⟨hclosed _ ih.2 _ (by simpa [ih.1] using h), mem_funcs_of_callees h⟩
  simpa [Module.reached, hset] using hmem.1

theorem isRecursive_of_calls {f : F} (h : Relation.TransGen (fun a b => b ∈ M.callees a) f f) :
    M.isRecursive f = true := by
  simpa [Module.isRecursive] using mem_reached h

/-- An activation of an instance that runs once was started by the program, or came from a call. -/
theorem StandsFor.once_cases (hg : Grown M insts bound) {n j : Nat} {c : Instance F}
    (h : StandsFor X insts n j) (hc : insts[j]? = some c) (hone : c.execMult = .one) :
    (c.parent = none ∧ ∃ a, X.acts[n]? = some a ∧ a.origin = .start j) ∨
      ∃ m k i p b, CameFrom X insts n m k i p c b := by
  have hfits := hg.fits c (List.mem_of_getElem? hc)
  have hmany : c.execMult ≠ .many := by rw [hone]; decide
  cases h with
  | start ha ho hi hpar _ _ =>
    rw [hc] at hi
    cases hi
    exact .inl ⟨hpar, _, ha, ho⟩
  | outside ha ho hi hpar hspec _ =>
    rw [hc] at hi
    cases hi
    exact absurd (hfits.root hpar hspec) hmany
  | site hm hb ha ho hk hi hj hpar hsite _ _ =>
    rw [hc] at hj
    cases hj
    exact .inr ⟨_, _, _, _, _, hm, hb, ⟨_, _, ha, ho⟩, hk, hpar, hsite⟩
  | again _ _ hi hj hfunc hagain =>
    rw [hc] at hi
    cases hi
    rcases hagain with hrec | hcalls
    · exact absurd (hfits.recurring hrec) hmany
    · have hcycle := callees_of_called hc hj hcalls
      rw [← hfunc] at hcycle
      exact absurd (hfits.recursive (isRecursive_of_calls hcycle)) hmany

/-- Only one activation stands for an instance that runs once. -/
theorem StandsFor.unique (hg : Grown M insts bound) {n n' j : Nat} {c : Instance F}
    (h : StandsFor X insts n j) (h' : StandsFor X insts n' j) (hc : insts[j]? = some c)
    (hone : c.execMult = .one) : n = n' := by
  induction j using Nat.strongRecOn generalizing n n' c with
  | ind j ih =>
    rcases h.once_cases hg hc hone with ⟨hpar, a, ha, ho⟩ | ⟨m, k, i, p, b, hfrom⟩ <;>
      rcases h'.once_cases hg hc hone with ⟨hpar', a', ha', ho'⟩ | ⟨m', k', i', p', b', hfrom'⟩
    · exact X.start_once ha ha' ho ho'
    · cases hpar.symm.trans hfrom'.parent
    · cases hpar'.symm.trans hfrom.parent
    · cases hfrom.parent.symm.trans hfrom'.parent
      cases hfrom.site.symm.trans hfrom'.site
      obtain ⟨parent, hi, p₀, call, hp₀, hcall, hmult⟩ := hg.linked hc hfrom.parent
      cases hfrom.site.symm.trans hp₀
      obtain ⟨hpone, hsite⟩ := hmult hone
      obtain ⟨hlaunch, hloop, hstruct⟩ := siteMult_one hsite
      -- the two came from one activation, which ran the site once
      cases ih i (hg.lt hc hfrom.parent).2 hfrom.caller hfrom'.caller hi hpone
      cases hfrom.act.symm.trans hfrom'.act
      have hfunc := hfrom.caller.func hfrom.act hi
      rw [hfunc] at hloop hstruct hcall
      obtain ⟨e, hrun⟩ := X.runs b (List.mem_of_getElem? hfrom.act) hstruct
      cases index_unique (count_le_one hrun hloop) hfrom.leaf hfrom'.leaf
      obtain ⟨a, s, ha, ho⟩ := hfrom.callee
      obtain ⟨a', s', ha', ho'⟩ := hfrom'.callee
      exact X.site_once ha ha' ho ho' hfrom.act hfrom.leaf (callAt_of_mem hcall) hlaunch

end Unique

end Wtc.Threads
