import Mathlib.Data.List.Dedup
import Wtc.Nested.Begin
import Wtc.PreSpawn.Model

/-!
# No thread is started before the operations of `preSpawnOps`

An invocation of a function is a tree: the operations that begin, in order, and for a call the
invocations that it makes. A function without a body may call back functions of the module, and an
indirect call runs some function; which ones is up to `Outside`.

A call of a function without a body that is no spawn counts as starting no thread. So the operations
after `pthread_once(&once, init)` are in the set although `init` starts a thread
(`started_by_callback`). Where nothing that is called back starts a thread, no thread was started
when an operation of the set begins (`none_started_before`).
-/

namespace Wtc.PreSpawn

open Wtc.Nested Wtc.Threads

variable {F : Type} [DecidableEq F]

/-! ## Invocations -/

/-- An invocation of a function, as far as it has come. -/
inductive Invocation (F : Type) where
  | mk (func : F) (steps : List (Pos × List (Invocation F)))

def Invocation.func : Invocation F → F
  | .mk f _ => f

/-- What the calls run that the module does not show. -/
structure Outside (P : Program F) where
  /-- What a function without a body may call back. -/
  callsBack : F → F → Prop
  callsBack_taken : ∀ f g, callsBack f g → P.isAddressTaken g = true
  /-- What an indirect call in a function may run. -/
  runs : F → F → Prop
  runs_taken : ∀ f g, runs f g → P.isAddressTaken g = true ∨ P.isInvoker f = true

variable {P : Program F}

/-- What the operation at a place of a function may invoke. -/
def Outside.Invokes (E : Outside P) (f : F) (p : Pos) (g : F) : Prop :=
  ∃ c, P.callAt f p = some c ∧
    match c.callee with
    | none => E.runs f g
    | some h => if P.hasBody h then g = h else E.callsBack h g

/-- The invocations that can be. The order of the operations is told for structured functions; in
others any order can be. -/
inductive Outside.Valid (E : Outside P) : Invocation F → Prop where
  | mk {f steps} : (P.isUnstructured f = false → ∃ e, Begins (P.body f) (steps.map (·.1)) e) →
      (∀ x ∈ steps, ∀ i ∈ x.2, E.Invokes f x.1 i.func) → (∀ x ∈ steps, ∀ i ∈ x.2, E.Valid i) →
      E.Valid (.mk f steps)

/-- The operation is a call of a spawn. -/
def Program.SpawnAt (P : Program F) (f : F) (p : Pos) : Prop :=
  ∃ c g, P.callAt f p = some c ∧ c.callee = some g ∧ P.kind g = .threadSpawn

/-- The invocation has started a thread. -/
inductive Invocation.Started (P : Program F) : Invocation F → Prop where
  | self {f steps} : P.kind f = .threadSpawn → Started P (.mk f steps)
  | spawn {f steps x} : x ∈ steps → P.SpawnAt f x.1 → Started P (.mk f steps)
  | call {f steps x i} : x ∈ steps → i ∈ x.2 → Started P i → Started P (.mk f steps)

/-- The step of an invocation of the function has started a thread. -/
def Program.StepStarts (P : Program F) (f : F) (x : Pos × List (Invocation F)) : Prop :=
  P.SpawnAt f x.1 ∨ ∃ i ∈ x.2, i.Started P

/-- No invocation of the function starts a thread. -/
def Outside.Quiet (E : Outside P) (g : F) : Prop :=
  ∀ i, E.Valid i → i.func = g → ¬ i.Started P

/-! ## The fixpoint -/

theorem callers_subset (g : F) : P.callers g ⊆ P.funcs := List.filter_sublist.subset

theorem propagate_ends {fs : List F} (h : fs ⊆ P.funcs) :
    ∃ set, Rounds.fix (fun g set => if g ∈ set then P.callers g else []) P.funcs
      (P.funcs.length + 1) fs.dedup = some set := by
  refine Rounds.fix_ends ?_ (List.nodup_dedup _) ?_ (Nat.lt_add_right _ (Nat.lt_succ_self _))
  · intro a _ set o ho
    split at ho
    · exact callers_subset a ho
    · cases ho
  · exact fun x hx => h (List.mem_dedup.1 hx)

theorem subset_propagate {fs : List F} (h : fs ⊆ P.funcs) : fs ⊆ P.propagate fs := by
  obtain ⟨set, hset⟩ := propagate_ends h
  intro f hf
  simpa [Program.propagate, hset] using Rounds.subset_fix hset f (List.mem_dedup.2 hf)

theorem propagate_subset {fs : List F} (h : fs ⊆ P.funcs) : P.propagate fs ⊆ P.funcs := by
  obtain ⟨set, hset⟩ := propagate_ends h
  intro f hf
  refine Rounds.fix_all (P := (· ∈ P.funcs)) ?_ hset (fun x hx => h (List.mem_dedup.1 hx)) f
    (by simpa [Program.propagate, hset] using hf)
  intro a _ set _ o ho
  split at ho
  · exact callers_subset a ho
  · cases ho

variable {f g : F} {p q : Pos}

/-- What is called by a caller of the set puts the caller into it. -/
theorem propagate_closed {fs : List F} (h : fs ⊆ P.funcs) (hg : g ∈ P.propagate fs)
    (hf : f ∈ P.callers g) : f ∈ P.propagate fs := by
  have hfuncs := propagate_subset h hg
  obtain ⟨set, hset⟩ := propagate_ends h
  simp only [Program.propagate, hset, Option.getD_some] at hg ⊢
  exact Rounds.fix_closed hset g hfuncs f (by simpa [hg] using hf)

theorem spawnsByCalls_subset (P : Program F) : P.spawnsByCalls ⊆ P.funcs :=
  propagate_subset (List.filter_sublist.subset)

theorem indirect_subset (P : Program F) :
    P.spawnsByCalls ++ P.funcs.filter P.hasIndirectCall ⊆ P.funcs :=
  List.append_subset.2 ⟨spawnsByCalls_subset P, List.filter_sublist.subset⟩

theorem canSpawn_of_byCalls (h : f ∈ P.spawnsByCalls) : P.canSpawn f = true := by
  unfold Program.canSpawn Program.computeSpawns
  split
  · exact decide_eq_true (subset_propagate (indirect_subset P) (List.mem_append_left _ h))
  · exact decide_eq_true h

theorem canSpawn_of_direct (hf : f ∈ P.funcs) (h : P.spawnsDirectly f = true) :
    P.canSpawn f = true :=
  canSpawn_of_byCalls (subset_propagate (List.filter_sublist.subset) (List.mem_filter.2 ⟨hf, h⟩))

theorem canSpawn_of_caller (hg : P.canSpawn g = true) (hf : f ∈ P.callers g) :
    P.canSpawn f = true := by
  unfold Program.canSpawn Program.computeSpawns at *
  rw [decide_eq_true_eq] at *
  split at hg
  · next h =>
    rw [if_pos h]
    exact propagate_closed (indirect_subset P) hg hf
  · next h =>
    rw [if_neg h]
    exact propagate_closed (List.filter_sublist.subset) hg hf

theorem canSpawn_of_indirect (hf : f ∈ P.funcs) (h : P.hasIndirectCall f = true)
    (hcan : P.indirectCallCanSpawn = true) : P.canSpawn f = true := by
  unfold Program.canSpawn Program.computeSpawns
  rw [if_pos hcan]
  exact decide_eq_true (subset_propagate (indirect_subset P)
    (List.mem_append_right _ (List.mem_filter.2 ⟨hf, h⟩)))

/-- A function that can start a thread and whose address is taken: indirect calls can. -/
theorem indirectCallCanSpawn_of_taken (hbody : P.hasBody f = true) (h : P.canSpawn f = true)
    (htaken : P.isAddressTaken f = true) : P.indirectCallCanSpawn = true := by
  by_contra hno
  have hmem : f ∈ P.spawnsByCalls := by
    unfold Program.canSpawn Program.computeSpawns at h
    rw [if_neg hno] at h
    simpa using h
  refine hno (List.any_eq_true.2 ⟨f, spawnsByCalls_subset P hmem, ?_⟩)
  simp [hbody, hmem, htaken]

/-! ## Calls that start a thread -/

omit [DecidableEq F] in
theorem mem_walk_of_callAt {c : Call F} (h : P.callAt f p = some c) :
    (p, .leaf (.call c)) ∈ walk (P.body f) := by
  unfold Module.callAt at h
  split at h
  · next hk =>
    cases h
    obtain ⟨o, ho, hkind⟩ := Option.map_eq_some_iff.1 hk
    rw [← hkind]
    exact mem_walk ho
  · cases h

omit [DecidableEq F] in
theorem mem_calls {c : Call F} (h : P.callAt f p = some c) : (p, c) ∈ P.calls f :=
  List.mem_filterMap.2 ⟨_, mem_walk_of_callAt h, rfl⟩

omit [DecidableEq F] in
theorem hasBody_of_calls {x : Pos × Call F} (h : x ∈ P.calls f) : P.hasBody f = true := by
  unfold Module.calls at h
  unfold Module.hasBody
  cases hb : P.body f with
  | nil => simp [hb, walk, walkBlocks] at h
  | cons b bs => rfl

omit [DecidableEq F] in
theorem mem_funcs_of_calls {x : Pos × Call F} (h : x ∈ P.calls f) : f ∈ P.funcs :=
  P.mem_funcs f (by simpa [Module.hasBody] using hasBody_of_calls h)

/-- A function that holds a call that can start a thread can start one. -/
theorem canSpawn_of_callSpawns {c : Call F} (hc : P.callAt f p = some c)
    (h : P.callSpawns c = true) : P.canSpawn f = true := by
  have hmem := mem_calls hc
  have hfuncs := mem_funcs_of_calls hmem
  unfold Program.callSpawns at h
  split at h
  · next hcallee =>
    refine canSpawn_of_indirect hfuncs (List.any_eq_true.2 ⟨_, hmem, ?_⟩) h
    simp [hcallee]
  · next g hcallee =>
    by_cases hkind : P.kind g = .threadSpawn
    · refine canSpawn_of_direct hfuncs (List.any_eq_true.2 ⟨_, hmem, ?_⟩)
      simp [hcallee, hkind]
    · simp only [hkind, decide_false, Bool.false_or, Bool.and_eq_true] at h
      refine canSpawn_of_caller h.2 (List.mem_filter.2 ⟨hfuncs, ?_⟩)
      refine Bool.or_eq_true_iff.2 (.inl (List.any_eq_true.2 ⟨_, hmem, ?_⟩))
      simp [hcallee, hkind, h.1]

section Calls

variable {E : Outside P}
-- nothing that is called back starts a thread
variable (hback : ∀ f g, E.callsBack f g → E.Quiet g)
-- what an indirect call runs is seen as taken, and is no spawn itself
variable (hruns : ∀ f g, E.runs f g →
  P.isAddressTaken g = true ∧ P.kind g ≠ .threadSpawn ∨ E.Quiet g)

theorem hasBody_of_started {i : Invocation F} (hv : E.Valid i) (h : i.Started P)
    (hkind : P.kind i.func ≠ .threadSpawn) : P.hasBody i.func = true := by
  cases h with
  | self h => exact absurd h hkind
  | spawn _ h =>
    obtain ⟨c, g, hc, -⟩ := h
    exact hasBody_of_calls (mem_calls hc)
  | call hx hi _ =>
    cases hv with
    | mk _ hinv _ =>
      obtain ⟨c, hc, -⟩ := hinv _ hx _ hi
      exact hasBody_of_calls (mem_calls hc)

include hback hruns

/-- A call through which a thread was started is one that can start a thread, if that is so of the
function that it invoked. -/
theorem callSpawns_of_invoked {i : Invocation F} (hv : E.Valid i) (h : i.Started P)
    (hinv : E.Invokes f p i.func) (hcan : P.kind i.func = .threadSpawn ∨ P.canSpawn i.func = true) :
    ∃ c, P.callAt f p = some c ∧ P.callSpawns c = true := by
  obtain ⟨c, hc, hinv⟩ := hinv
  refine ⟨c, hc, ?_⟩
  unfold Program.callSpawns
  cases hcallee : c.callee with
  | none =>
    simp only [hcallee] at hinv ⊢
    rcases hruns _ _ hinv with ⟨htaken, hkind⟩ | hquiet
    · have hbody := hasBody_of_started hv h hkind
      exact indirectCallCanSpawn_of_taken hbody (hcan.resolve_left hkind) htaken
    · exact absurd h (hquiet i hv rfl)
  | some g =>
    simp only [hcallee] at hinv ⊢
    split at hinv
    · next hbody =>
      subst hinv
      rcases hcan with hkind | hcan
      · simp [hkind]
      · simp [hbody, hcan]
    · exact absurd h (hback _ _ hinv i hv rfl)

/-- A function that an invocation of started a thread can start one. -/
theorem canSpawn_of_started {i : Invocation F} (hv : E.Valid i) (h : i.Started P) :
    P.kind i.func = .threadSpawn ∨ P.canSpawn i.func = true := by
  induction h with
  | self h => exact .inl h
  | spawn _ h =>
    obtain ⟨c, g, hc, hcallee, hkind⟩ := h
    exact .inr (canSpawn_of_callSpawns hc (by simp [Program.callSpawns, hcallee, hkind]))
  | call hx hi hs ih =>
    cases hv with
    | mk _ hinv hvalid =>
      obtain ⟨c, hc, hcan⟩ := callSpawns_of_invoked hback hruns (hvalid _ hx _ hi) hs
        (hinv _ hx _ hi) (ih (hvalid _ hx _ hi))
      exact .inr (canSpawn_of_callSpawns hc hcan)

/-- The step of a valid invocation that started a thread is a call that can. -/
theorem callSpawns_of_stepStarts {steps : List (Pos × List (Invocation F))}
    (hv : E.Valid (.mk f steps)) {x : Pos × List (Invocation F)} (hx : x ∈ steps)
    (h : P.StepStarts f x) : ∃ c, P.callAt f x.1 = some c ∧ P.callSpawns c = true := by
  cases hv with
  | mk _ hinv hvalid =>
    rcases h with ⟨c, g, hc, hcallee, hkind⟩ | ⟨i, hi, hs⟩
    · exact ⟨c, hc, by simp [Program.callSpawns, hcallee, hkind]⟩
    · exact callSpawns_of_invoked hback hruns (hvalid _ hx _ hi) hs (hinv _ hx _ hi)
        (canSpawn_of_started hback hruns (hvalid _ hx _ hi) hs)

end Calls

/-! ## The walk -/

/-- The walk goes on past this operation. -/
def Program.goesOn (P : Program F) (f : F) (x : Pos × Kind (Leaf F)) : Prop :=
  match x.2 with
  | .loop _ => P.loopSpawns f x.1 = false
  | .leaf (.call c) => P.callSpawns c = false
  | _ => True

/-- The walk went on past everything before an operation of the set. -/
theorem goesOn_of_mem_beforeSpawn {l : List (Pos × Kind (Leaf F))} (h : p ∈ P.beforeSpawn f l) :
    ∃ l₁ k l₂, l = l₁ ++ (p, k) :: l₂ ∧ ∀ x ∈ l₁, P.goesOn f x := by
  have hstep : ∀ {q : Pos} {k : Kind (Leaf F)} {rest : List (Pos × Kind (Leaf F))},
      P.goesOn f (q, k) → (p ∈ P.beforeSpawn f rest →
        ∃ l₁ k l₂, rest = l₁ ++ (p, k) :: l₂ ∧ ∀ x ∈ l₁, P.goesOn f x) →
      p ∈ q :: P.beforeSpawn f rest →
      ∃ l₁ k' l₂, (q, k) :: rest = l₁ ++ (p, k') :: l₂ ∧ ∀ x ∈ l₁, P.goesOn f x := by
    intro q k rest hgo ih hp
    rcases List.mem_cons.1 hp with rfl | hp
    · exact ⟨[], k, rest, rfl, nofun⟩
    · obtain ⟨l₁, k', l₂, rfl, hall⟩ := ih hp
      exact ⟨(q, k) :: l₁, k', l₂, rfl, List.forall_mem_cons.2 ⟨hgo, hall⟩⟩
  fun_induction Program.beforeSpawn P f l with
  | case1 | case2 => cases h
  | case3 q k rest hno ih | case5 q c rest hno ih =>
    exact hstep (by simpa [Program.goesOn] using hno) ih h
  | case4 q c rest hyes =>
    rw [List.mem_singleton] at h
    exact ⟨[], _, rest, by rw [h]; rfl, nofun⟩
  | case6 q k rest hloop hcall ih =>
    refine hstep ?_ ih h
    unfold Program.goesOn
    split
    · next hk => exact absurd hk (hloop _)
    · next hk => exact absurd hk (hcall _)
    · trivial

/-- What comes before an operation of the set in the walk was gone past. -/
theorem goesOn_before {k : Kind (Leaf F)} (h : p ∈ P.beforeSpawn f (walk (P.body f)))
    (hq : (q, k) ∈ walk (P.body f)) (hlt : comesBefore q p) : P.goesOn f (q, k) := by
  obtain ⟨l₁, k', l₂, heq, hall⟩ := goesOn_of_mem_beforeSpawn h
  have hsorted := walk_sorted (P.body f)
  rw [heq, List.pairwise_append, List.pairwise_cons] at hsorted
  rw [heq, List.mem_append, List.mem_cons] at hq
  rcases hq with hq | hq | hq
  · exact hall _ hq
  · cases hq
    exact absurd hlt (comesBefore_asymm hlt)
  · exact absurd (hsorted.2.1.1 _ hq) (comesBefore_asymm hlt)

/-- A call that can start a thread does not come before an operation of the set, nor is it in a loop
with it. -/
theorem not_ordered {c : Call F} (hp : p ∈ P.beforeSpawn f (walk (P.body f)))
    (hq : P.callAt f q = some c) (hc : P.callSpawns c = true) :
    ¬ (comesBefore q p ∨ loopAround (P.body f) q p) := by
  rintro (hlt | hloop)
  · have hgo : P.callSpawns c = false := goesOn_before hp (mem_walk_of_callAt hq) hlt
    simp [hc] at hgo
  · obtain ⟨l, o, hfind, ho, hul, hup⟩ := exists_loop hloop
    have hmem := mem_walk hfind
    cases hkind : o.kind with
    | loop k =>
      rw [hkind] at hmem
      have hgo : P.loopSpawns f l = false := goesOn_before hp hmem (comesBefore_of_under hup)
      have hyes : P.loopSpawns f l = true :=
        List.any_eq_true.2 ⟨(q, c), mem_calls hq, by simp [hul, hc]⟩
      simp [hyes] at hgo
    | _ => simp [Op.isLoop, hkind] at ho

/-! ## No thread before the operations of the set -/

/-- When an operation of the set begins, no thread was started since the invocation began. -/
theorem none_started_before (P : Program F) (E : Outside P)
    (hback : ∀ f g, E.callsBack f g → E.Quiet g)
    (hruns : ∀ f g, E.runs f g →
      P.isAddressTaken g = true ∧ P.kind g ≠ .threadSpawn ∨ E.Quiet g)
    (f : F) (before after : List (Pos × List (Invocation F))) (x : Pos × List (Invocation F))
    (hv : E.Valid (.mk f (before ++ x :: after))) (hx : x.1 ∈ P.preSpawnOps f) :
    ∀ y ∈ before, ¬ P.StepStarts f y := by
  intro y hy hstarts
  obtain ⟨c, hc, hspawns⟩ := callSpawns_of_stepStarts hback hruns hv
    (List.mem_append_left _ hy) hstarts
  have hcan := canSpawn_of_callSpawns hc hspawns
  unfold Program.preSpawnOps at hx
  rw [hcan, Bool.not_true, Bool.and_false, Bool.false_and, if_neg Bool.false_ne_true] at hx
  split at hx
  · next hstructured =>
    cases hv with
    | mk hbegins _ _ =>
      obtain ⟨e, he⟩ := hbegins (by simpa using hstructured)
      have hsub : [y.1, x.1].Sublist ((before ++ x :: after).map (·.1)) := by
        obtain ⟨b₁, b₂, rfl⟩ := List.append_of_mem hy
        simp only [List.map_append, List.map_cons, List.append_assoc, List.cons_append]
        refine List.Sublist.trans ?_ (List.sublist_append_right _ _)
        refine List.Sublist.cons_cons _ (List.Sublist.trans ?_ (List.sublist_append_right _ _))
        exact List.Sublist.cons_cons _ (List.nil_sublist _)
      exact not_ordered hx hc hspawns (begins_ordered he hsub)
  · cases hx

/-! ### A program where it is so -/

/-- An operation without regions. -/
def leafOp (l : Leaf F) : Op (Leaf F) := .mk (.leaf l) []

def callOp (f : Option F) : Op (Leaf F) := leafOp (.call { callee := f })

inductive Name where
  | main
  | setup
  | start
  | hook
  | pthreadCreate
  | pthreadOnce
  deriving DecidableEq, Repr

def setupLoop : Op (Leaf Name) :=
  .mk (.loop .whileLoop) [[[leafOp .other]], [[callOp none, leafOp .other]], []]

/-- `main` calls `setup` through a function pointer until it is ready, then starts a thread, and
then goes on. -/
def startUpBody : Name → Region (Leaf Name)
  | .main => [[setupLoop, leafOp .other, callOp (some .start), leafOp .other]]
  | .start => [[callOp (some .pthreadCreate)]]
  | .setup => [[leafOp .other]]
  | _ => []

/-- A program of these functions. -/
def programOf (body : Name → Region (Leaf Name)) (uses : List (Name × SymbolUse Name)) :
    Program Name where
  funcs := [.main, .setup, .start, .hook, .pthreadCreate, .pthreadOnce]
  body := body
  mem_funcs := fun f _ => by cases f <;> decide
  kind := fun f => if f = .pthreadCreate then .threadSpawn else .unknown
  main := some .main
  globalCtors := []
  isInternal := fun _ => false
  returnsTwice := fun _ => false
  launchesAll := fun _ => false
  symbolUses := uses
  isAlias := fun _ => false
  resolvedRun := fun _ => false
  isInvoker := fun _ => false
  invokeTargets := fun _ => []

def startUp : Program Name :=
  programOf startUpBody [(.setup, .getGlobal false), (.start, .call true),
    (.pthreadCreate, .call true)]

/-- The function pointer holds `setup`. -/
def startUpOutside : Outside startUp where
  callsBack := fun _ _ => False
  callsBack_taken := nofun
  runs := fun f g => f = .main ∧ g = .setup
  runs_taken := by
    rintro f g ⟨-, rfl⟩
    exact .inl (by decide)

omit [DecidableEq F] in
/-- A block that begins with a leaf. -/
theorem begins_leaf {i : Nat} {b : Block (Leaf F)} {l : Leaf F} {t : List Pos} {e : Outcome}
    (hget : b[i]? = some (leafOp l)) (h : BlockRuns Op.Begins (i + 1) b none t e) :
    BlockRuns Op.Begins i b none (.here ⟨0, i⟩ :: t) e :=
  .next hget (.leaf .fin (.inl rfl)) h

/-- One round of the loop, and the operation after it. -/
def startUpSteps : List (Pos × List (Invocation Name)) :=
  [(.here ⟨0, 0⟩, []), (.inside ⟨0, 0⟩ 0 (.here ⟨0, 0⟩), []),
    (.inside ⟨0, 0⟩ 1 (.here ⟨0, 0⟩), [.mk .setup [(.here ⟨0, 0⟩, [])]]),
    (.inside ⟨0, 0⟩ 1 (.here ⟨0, 1⟩), []), (.inside ⟨0, 0⟩ 0 (.here ⟨0, 0⟩), [])]

theorem setupLoop_begins : setupLoop.Begins none
    [none, within 0 (.here ⟨0, 0⟩), within 1 (.here ⟨0, 0⟩), within 1 (.here ⟨0, 1⟩),
      within 0 (.here ⟨0, 0⟩)] .fin := by
  have hcond : RegionRuns Op.Begins none (setupLoop.region 0) [.here ⟨0, 0⟩] .fin :=
    .start (begins_leaf rfl (.done (Nat.le_refl 1)))
  have hbody : RegionRuns Op.Begins none (setupLoop.region 1) [.here ⟨0, 0⟩, .here ⟨0, 1⟩] .fin :=
    .start (begins_leaf rfl (begins_leaf rfl (.done (Nat.le_refl 2))))
  have hstep : RegionRuns Op.Begins none (setupLoop.region 2) [] .fin :=
    .start (.done (Nat.le_refl 0))
  exact .loop (.go hcond (.inl rfl) (.go hbody (.inl rfl) (.go hstep (.inl rfl) (.exit hcond))))

theorem startUp_begins : Begins (startUpBody .main)
    (startUpSteps.map (·.1) ++ [.here ⟨0, 1⟩]) .cut :=
  .start (.next rfl setupLoop_begins (begins_leaf rfl .cut))

theorem startUp_valid :
    startUpOutside.Valid (.mk .main (startUpSteps ++ (.here ⟨0, 1⟩, []) :: [])) := by
  have hsetup : startUpOutside.Valid (.mk .setup [(.here ⟨0, 0⟩, [])]) :=
    .mk (fun _ => ⟨.fin, .start (begins_leaf rfl (.done (Nat.le_refl 1)))⟩) (by simp) (by simp)
  have hinvokes : startUpOutside.Invokes .main (.inside ⟨0, 0⟩ 1 (.here ⟨0, 0⟩)) .setup :=
    ⟨{ callee := none }, rfl, rfl, rfl⟩
  refine .mk (fun _ => ⟨.cut, startUp_begins⟩) ?_ ?_
  · simpa [startUpSteps, Invocation.func] using hinvokes
  · simpa [startUpSteps] using hsetup

theorem none_started_before_example : ((.here ⟨0, 1⟩ : Pos) ∈ startUp.preSpawnOps .main) ∧
    startUpOutside.Valid (.mk .main (startUpSteps ++ (.here ⟨0, 1⟩, []) :: [])) ∧
    ∀ y ∈ startUpSteps, ¬ startUp.StepStarts .main y := by
  have hmem : (.here ⟨0, 1⟩ : Pos) ∈ startUp.preSpawnOps .main := by decide
  refine ⟨hmem, startUp_valid, ?_⟩
  refine none_started_before startUp startUpOutside nofun ?_ .main startUpSteps []
    (.here ⟨0, 1⟩, []) startUp_valid hmem
  rintro f g ⟨-, rfl⟩
  exact .inl (by decide)

/-! ### A callback -/

/-- `pthread_once(&once, start)`, and an operation after it. -/
def onceBody : Name → Region (Leaf Name)
  | .main => [[leafOp .other, callOp (some .pthreadOnce), leafOp .other]]
  | .start => [[callOp (some .pthreadCreate)]]
  | _ => []

def once : Program Name :=
  programOf onceBody [(.start, .getGlobal false), (.pthreadOnce, .call true),
    (.pthreadCreate, .call true)]

def onceOutside : Outside once where
  callsBack := fun f g => f = .pthreadOnce ∧ g = .start
  callsBack_taken := by
    rintro f g ⟨-, rfl⟩
    decide
  runs := fun _ _ => False
  runs_taken := nofun

def onceSteps : List (Pos × List (Invocation Name)) :=
  [(.here ⟨0, 0⟩, []), (.here ⟨0, 1⟩, [.mk .start [(.here ⟨0, 0⟩, [])]])]

/-- The operation after the call is in the set, and begins when a thread has been started. -/
theorem started_by_callback : (∀ f, once.isUnstructured f = false) ∧
    ((.here ⟨0, 2⟩ : Pos) ∈ once.preSpawnOps .main) ∧
    onceOutside.Valid (.mk .main (onceSteps ++ (.here ⟨0, 2⟩, []) :: [])) ∧
    ∃ y ∈ onceSteps, once.StepStarts .main y := by
  have hstart : onceOutside.Valid (.mk .start [(.here ⟨0, 0⟩, [])]) :=
    .mk (fun _ => ⟨.fin, .start (begins_leaf rfl (.done (Nat.le_refl 1)))⟩) (by simp) (by simp)
  have hinvokes : onceOutside.Invokes .main (.here ⟨0, 1⟩) .start :=
    ⟨{ callee := some .pthreadOnce }, rfl, rfl, rfl⟩
  refine ⟨fun f => by cases f <;> decide, by decide, .mk (fun _ => ⟨.cut, ?_⟩) ?_ ?_, ?_⟩
  · exact .start (begins_leaf rfl (begins_leaf rfl (begins_leaf rfl .cut)))
  · simpa [onceSteps, Invocation.func] using hinvokes
  · simpa [onceSteps] using hstart
  · refine ⟨(.here ⟨0, 1⟩, [.mk .start [(.here ⟨0, 0⟩, [])]]), by simp [onceSteps], .inr ?_⟩
    refine ⟨_, List.mem_singleton_self _, .spawn (List.mem_singleton_self _) ?_⟩
    exact ⟨{ callee := some .pthreadCreate }, .pthreadCreate, rfl, rfl, rfl⟩

end Wtc.PreSpawn
