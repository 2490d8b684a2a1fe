import Wtc.Threads.Exclusive
import Wtc.Threads.Execution

/-!
# Exclusive threads never coexist

Two threads with an answer of `exclusive` are compared at an instance that runs once, so there is
one activation that both came through. It ran both sites, which `exclusiveSites` denies.
-/

namespace Wtc.Threads

open Wtc.Nested

variable {F : Type} {M : Module F}

/-! ## The way down to a thread -/

section Chain

variable {X : Execution M} {insts : List (Instance F)}

theorem Child.eq_of_parent {i j k : Nat} {c : Instance F} (h : Child insts i j)
    (hc : insts[j]? = some c) (hp : c.parent = some k) : i = k := by
  obtain ⟨c', hc', hi⟩ := h
  cases hc.symm.trans hc'
  exact Option.some.inj (hi.symm.trans hp)

theorem Child.not_root {i j : Nat} {c : Instance F} (h : Child insts i j)
    (hc : insts[j]? = some c) : c.parent ≠ none := by
  obtain ⟨c', hc', hi⟩ := h
  cases hc.symm.trans hc'
  simp [hi]

theorem mem_links {fuel a i j : Nat} (h : (i, j) ∈ links insts fuel a) :
    Child insts i j ∧ Relation.ReflTransGen (Child insts) j a := by
  induction fuel generalizing a with
  | zero => cases h
  | succ fuel ih =>
    unfold links at h
    split at h
    · cases h
    · next p hp =>
      obtain ⟨c, hc, hcp⟩ := Option.bind_eq_some_iff.1 hp
      have hchild : Child insts p a := ⟨c, hc, hcp⟩
      rcases List.mem_cons.1 h with h | h
      · cases h
        exact ⟨hchild, .refl⟩
      · exact ⟨(ih h).1, (ih h).2.tail hchild⟩

theorem mem_of_fork {a b common childA childB : Nat}
    (h : fork insts a b = some (common, childA, childB)) :
    (common, childA) ∈ links insts insts.length a ∧
      (common, childB) ∈ links insts insts.length b := by
  obtain ⟨⟨p, childB'⟩, hmem, hsome⟩ := List.exists_of_findSome?_eq_some h
  obtain ⟨⟨p', childA'⟩, hfind, heq⟩ := Option.map_eq_some_iff.1 hsome
  cases heq
  have hp : p' = common := by simpa using List.find?_some hfind
  subst hp
  exact ⟨List.mem_of_find?_eq_some hfind, hmem⟩

/-- An activation came through one of every instance above the one it stands for, by the site of the
next instance down. -/
theorem StandsFor.through {n i j a : Nat} (h : StandsFor X insts n a) (hchild : Child insts i j)
    (hdown : Relation.ReflTransGen (Child insts) j a) :
    ∃ m b c p, StandsFor X insts m i ∧ X.acts[m]? = some b ∧ insts[j]? = some c ∧
      c.site = some p ∧ p ∈ b.trace := by
  induction h with
  | start _ _ hi hpar _ _ | outside _ _ hi hpar _ _ =>
    rcases hdown.cases_tail with rfl | ⟨z, -, hz⟩
    · exact absurd hpar (hchild.not_root hi)
    · exact absurd hpar (hz.not_root hi)
  | site hm hb _ _ hk _ hj hpar hsite _ _ ih =>
    rcases hdown.cases_tail with rfl | ⟨z, hz, hlast⟩
    · cases hchild.eq_of_parent hj hpar
      exact ⟨_, _, _, _, hm, hb, hj, hsite, List.mem_of_getElem? hk⟩
    · cases hlast.eq_of_parent hj hpar
      exact ih hz
  | again _ habove _ _ _ _ ih => exact ih (hdown.trans habove.to_reflTransGen)

end Chain

/-! ## Exclusive threads -/

variable [DecidableEq F]

/-- No activation of the common instance starts both. -/
theorem exclusiveBelow_sound {X : Execution M} {insts : List (Instance F)} {bound m m' : Nat}
    {common childA childB : Nat} (hg : Grown M insts bound)
    (h : exclusiveBelow M insts common childA childB = true)
    {b b' : Activation F} {ca cb : Instance F} {p p' : Pos}
    (hm : StandsFor X insts m common) (hb : X.acts[m]? = some b) (hca : insts[childA]? = some ca)
    (hp : ca.site = some p) (hpb : p ∈ b.trace)
    (hm' : StandsFor X insts m' common) (hb' : X.acts[m']? = some b')
    (hcb : insts[childB]? = some cb) (hp' : cb.site = some p') (hpb' : p' ∈ b'.trace) : False := by
  unfold exclusiveBelow at h
  simp only [hca, hcb, Option.bind_some, hp, hp'] at h
  split at h
  · next c siteA siteB hc hA hB =>
    cases hA
    cases hB
    simp only [Bool.and_eq_true, decide_eq_true_eq, List.all_cons, hc, Option.all_some,
      Bool.not_eq_eq_eq_not, Bool.not_true] at h
    obtain ⟨⟨⟨⟨⟨hone, -⟩, -⟩, hstruct, -⟩, -⟩, hsites⟩ := h
    cases hm.unique hg hm' hc hone
    cases hb.symm.trans hb'
    rw [hm.func hb hc] at hstruct hsites
    obtain ⟨e, hrun⟩ := X.runs b (List.mem_of_getElem? hb) hstruct
    exact exclusiveSites_sound hsites hrun hpb hpb'
  · cases h

/-- No execution starts a thread that one of the numbers stands for and also one that the other
stands for. -/
theorem exclusive_threads_never_coexist (M : Module F) (Q : Queries F) (cap : Nat) (X : Execution M)
    (a b : Nat) (h : exclusive M (run M Q cap) a b = true) :
    ¬ ∃ m n, StartsThread X (run M Q cap) m a ∧ StartsThread X (run M Q cap) n b := by
  rintro ⟨m, n, ⟨ia, hia, ha⟩, ⟨ib, hib, hb⟩⟩
  obtain ⟨bound, hg⟩ := run_grown M Q cap
  simp only [exclusive, threadRoot, hia, hib] at h
  split at h
  · next common childA childB hfork =>
    obtain ⟨hA, hB⟩ := mem_of_fork hfork
    obtain ⟨hchildA, hdownA⟩ := mem_links hA
    obtain ⟨hchildB, hdownB⟩ := mem_links hB
    obtain ⟨m₁, b₁, c₁, p₁, hs₁, hact₁, hc₁, hp₁, hmem₁⟩ := ha.through hchildA hdownA
    obtain ⟨m₂, b₂, c₂, p₂, hs₂, hact₂, hc₂, hp₂, hmem₂⟩ := hb.through hchildB hdownB
    exact exclusiveBelow_sound hg h hs₁ hact₁ hc₁ hp₁ hmem₁ hs₂ hact₂ hc₂ hp₂ hmem₂
  · cases h

/-- A region that only calls a function. -/
def callOnly (f : Nat) : Region (Leaf Nat) := [[.mk (.leaf (.call ⟨some f, false⟩)) []]]

/-- `main` starts one of two workers: `1` in one arm of an `if`, and `2` in the other, through
`4`. -/
def twoArms : Module Nat where
  funcs := [0, 1, 2, 3, 4]
  body
    | 0 => [[.mk .ite [callOnly 3, callOnly 4], .mk .ret []]]
    | 1 => [[.mk .ret []]]
    | 2 => [[.mk .ret []]]
    | 4 => callOnly 3
    | _ => []
  mem_funcs := by
    intro f hf
    match f with
    | 0 | 1 | 2 | 3 | 4 => decide
    | n + 5 => cases hf
  kind f := if f = 3 then .threadSpawn else .unknown
  main := some 0
  globalCtors := []
  isInternal _ := false
  returnsTwice _ := false
  launchesAll _ := false

/-- A spawn in `main` starts `1`, and one in `4` starts `2`. -/
def twoArmsQueries : Queries Nat where
  relevant _ := true
  isAddressTaken _ := false
  canSpawn f := f = 0 ∨ f = 4
  spawnPrecedes _ _ := false
  entries insts i _ := match (insts[i]?).map (·.func) with
    | some 0 => [1]
    | some 4 => [2]
    | _ => []
  invokeTargets _ _ _ := []
  callsMain _ _ := false
  countingLoop _ _ _ := none
  isStdThreadCtor _ := false
  isResolvedRun _ := false
  callableElsewhere _ := false

/-- The execution in which the first arm is taken, up to the start of `1`. -/
def firstArm : Execution twoArms where
  acts := [⟨0, .start 0, [.inside ⟨0, 0⟩ 0 (.here ⟨0, 0⟩)]⟩, ⟨1, .site 0 0 true, []⟩]
  runs := by
    intro a ha _
    simp only [List.mem_cons, List.not_mem_nil, or_false] at ha
    rcases ha with rfl | rfl
    · have harm : Runs (callOnly 3) [.here ⟨0, 0⟩] .cut :=
        .start (.leave rfl (Op.Runs.leaf .cut (by simp)) (by decide))
      have hif :
          (Op.mk .ite [callOnly 3, callOnly 4]).Runs none [within 0 (.here ⟨0, 0⟩)] .cut := by
        refine Op.Runs.arm (t := [.here ⟨0, 0⟩]) (.inl rfl) Nat.two_pos .start ?_
        exact harm
      exact ⟨.cut, .start (.leave rfl hif (by decide))⟩
    · exact ⟨.cut, .start .cut⟩
  start := by simp [Module.starts, twoArms, Module.hasBody]
  start_once := by
    intro m n k a b hm hn ha hb
    match m, n with
    | 0, 0 => rfl
    | 1, _ => cases hm; cases ha
    | _, 1 => cases hn; cases hb
    | m + 2, _ => simp at hm
    | _, n + 2 => simp at hn
  site := by
    intro n m k spawned a hn ha
    match n with
    | 0 => cases hn; cases ha
    | 1 =>
      cases hn
      cases ha
      exact ⟨by decide, _, _, ⟨some 3, false⟩, rfl, rfl, rfl, 3, rfl, rfl⟩
    | n + 2 => simp at hn
  site_once := by
    intro m n j k s s' a b d p c hm hn ha hb _ _ _ _
    match m, n with
    | 1, 1 => rfl
    | 0, _ => cases hm; cases ha
    | _, 0 => cases hn; cases hb
    | m + 2, _ => simp at hm
    | _, n + 2 => simp at hn

theorem two_arms_exclude :
    exclusive twoArms (run twoArms twoArmsQueries 8) 1 2 = true ∧
      StartsThread firstArm (run twoArms twoArmsQueries 8) 1 1 ∧
      ¬ ∃ m n, StartsThread firstArm (run twoArms twoArmsQueries 8) m 1 ∧
        StartsThread firstArm (run twoArms twoArmsQueries 8) n 2 := by
  refine ⟨by decide, ?_, exclusive_threads_never_coexist _ _ _ _ 1 2 (by decide)⟩
  have hmain : StandsFor firstArm (run twoArms twoArmsQueries 8).instances 0 0 :=
    .start (a := ⟨0, .start 0, _⟩) rfl rfl rfl rfl rfl rfl
  exact ⟨1, by decide, .site hmain rfl rfl rfl rfl rfl rfl rfl rfl rfl (by decide)⟩

end Wtc.Threads
