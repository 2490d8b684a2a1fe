import Wtc.Nested.Once
import Wtc.Threads.Model

/-!
# Threads that exclude each other

`ThreadInstanceWalk::exclusive` compares two threads at the nearest instance that both descend from.
There each was reached through one call site, and the answer is read off the regions that the two
sites lie in. `exclusiveSites_sound` is what that reading means: no run of the function runs both.
-/

namespace Wtc.Threads

open Wtc.Nested

variable {F : Type}

/-! ## The two sites -/

/-- The last operation of the first block of a region. -/
def lastOf {O : Type} (o : Op O) (k : Nat) : Option (Op O) := (front (o.region k)).getLast?

def endsIn {O : Type} (kinds : List (Kind O)) [DecidableEq O] (o : Op O) (k : Nat) : Bool :=
  (lastOf o k).any fun last => last.kind ∈ kinds

/-- Two cases of one switch, each ending in a break or a return. -/
def separateCases [DecidableEq F] (parent : Option (Kind (Leaf F))) (o o' : Op (Leaf F)) : Bool :=
  o.kind = .case && o'.kind = .case && parent = some .switch &&
    endsIn [.brk, .ret] o 0 && endsIn [.brk, .ret] o' 0

/-- An `if` before the place whose arm returns. -/
def returnsBefore [DecidableEq F] (o : Op (Leaf F)) (l : Loc) (k : Nat) (l' : Loc) : Bool :=
  o.kind = .ite && endsIn [.ret] o k && l.block = l'.block && l.idx < l'.idx

/-- Whether the two sites are not both run, as far as it is read off the regions from `r` down.
`parent` is the operation that holds `r`, and `looped` that a loop is around it. -/
def exclusiveSites [DecidableEq F] (parent : Option (Kind (Leaf F))) (looped : Bool)
    (r : Region (Leaf F)) : Pos → Pos → Bool
  | .inside l k p, .inside l' k' p' =>
    match opAt r l, opAt r l' with
    | some o, some o' =>
      if l = l' then
        if k = k' then exclusiveSites (some o.kind) (looped || o.isLoop) (o.region k) p p'
        else (o.kind = .ite || o.kind = .ternary) && !looped
      else separateCases parent o o' && !looped
    | _, _ => false
  | .inside l k _, .here l' => (opAt r l).any (returnsBefore · l k l') && !looped
  | .here l', .inside l k _ => (opAt r l).any (returnsBefore · l k l') && !looped
  | .here _, .here _ => false

/-! ## The two threads -/

variable [DecidableEq F]

/-- Each instance on the way up from one, with its parent: `(parent, child)`. -/
def links (insts : List (Instance F)) : Nat → Nat → List (Nat × Nat)
  | 0, _ => []
  | fuel + 1, i =>
    match insts[i]?.bind (·.parent) with
    | none => []
    | some p => (p, i) :: links insts fuel p

/-- The first instance of a thread. -/
def threadRoot (insts : List (Instance F)) (t : Nat) : Option Nat := insts.findIdx? (·.thread = t)

/-- The nearest instance that both descend from, and the child of it on each side. -/
def fork (insts : List (Instance F)) (a b : Nat) : Option (Nat × Nat × Nat) :=
  let onA := links insts insts.length a
  (links insts insts.length b).findSome? fun (p, childB) =>
    (onA.find? (·.1 = p)).map fun (_, childA) => (p, childA, childB)

/-- Whether the sites below an instance that runs once exclude each other. -/
def exclusiveBelow (M : Module F) (insts : List (Instance F)) (common childA childB : Nat) : Bool :=
  match insts[common]?, (insts[childA]?).bind (·.site), (insts[childB]?).bind (·.site) with
  | some c, some siteA, some siteB =>
    c.execMult = .one && c.threadMult = .one && !c.execUnknown &&
    (common :: ancestors insts insts.length common).all
      (fun i => (insts[i]?).all fun inst => !M.isUnstructured inst.func) &&
    siteA ≠ siteB && exclusiveSites none false (M.body c.func) siteA siteB
  | _, _, _ => false

/-- `ThreadInstanceWalk::exclusive`. -/
def exclusive (M : Module F) (w : Walk F) (threadA threadB : Nat) : Bool :=
  match threadRoot w.instances threadA, threadRoot w.instances threadB with
  | some a, some b =>
    match fork w.instances a b with
    | some (common, childA, childB) => exclusiveBelow M w.instances common childA childB
    | none => false
  | _, _ => false

/-! ## What the reading of the sites means -/

section Sites

variable {parent : Option (Kind (Leaf F))} {r : Region (Leaf F)} {q : Option Pos} {t : List Pos}
  {e : Outcome}

theorem endsIn_ne_fin {kinds : List (Kind (Leaf F))} {o : Op (Leaf F)} {k : Nat}
    (h : endsIn kinds o k = true) (hkinds : ∀ x ∈ kinds, x = .brk ∨ x = .ret)
    (hrun : RegionRuns Op.Runs q (o.region k) t e) : e ≠ .fin := by
  simp only [endsIn, lastOf, Option.any_eq_true, decide_eq_true_eq] at h
  obtain ⟨last, hlast, hkind⟩ := h
  exact hrun.ne_fin hlast (hkinds _ hkind)

theorem separateCases_sound {o o' : Op (Leaf F)} {l l' : Loc} {k k' : Nat} {p p' : Pos}
    (hs : separateCases parent o o' = true) (hl : opAt r l = some o) (hl' : opAt r l' = some o')
    (hne : l ≠ l') (hrun : RegionRuns Op.Runs q r t e) (hp : .inside l k p ∈ t)
    (hp' : .inside l' k' p' ∈ t) : False := by
  simp only [separateCases, Bool.and_eq_true, decide_eq_true_eq] at hs
  obtain ⟨⟨⟨⟨ho, ho'⟩, -⟩, hend⟩, hend'⟩ := hs
  obtain ⟨i, rfl, hi⟩ := hrun.inside_of_mem hp
  obtain ⟨j, rfl, hj⟩ := hrun.inside_of_mem hp'
  -- a case has one region
  have hzero : ∀ {i k p} {o : Op (Leaf F)}, opAt r ⟨0, i⟩ = some o → o.kind = .case →
      .of i (within k p) ∈ t → k = 0 := by
    intro i k p o hget hkind hmem
    obtain ⟨o₁, s, e', hget', hop, -⟩ := hrun.op hmem
    rw [hget] at hget'
    cases hget'
    exact hop.case_region hkind (mem_inOp.2 hmem)
  cases hzero hl ho hi
  cases hzero hl' ho' hj
  have hleft : ∀ {o : Op (Leaf F)}, endsIn [.brk, .ret] o 0 = true →
      ∀ q t e, RegionRuns Op.Runs q (o.region 0) t e → e ≠ .fin :=
    fun h _ _ _ hr => endsIn_ne_fin h (by simp) hr
  rcases Nat.lt_trichotomy i j with hlt | rfl | hlt
  · exact hrun.not_past hl (.inl ho) (hleft hend) hi hj hlt
  · exact hne rfl
  · exact hrun.not_past hl' (.inl ho') (hleft hend') hj hi hlt

theorem returnsBefore_sound {o : Op (Leaf F)} {l l' : Loc} {k : Nat} {p : Pos}
    (hs : returnsBefore o l k l' = true) (hl : opAt r l = some o)
    (hrun : RegionRuns Op.Runs q r t e) (hp : .inside l k p ∈ t) (hp' : .here l' ∈ t) : False := by
  simp only [returnsBefore, Bool.and_eq_true, decide_eq_true_eq] at hs
  obtain ⟨⟨⟨ho, hend⟩, -⟩, hlt⟩ := hs
  obtain ⟨i, rfl, hi⟩ := hrun.inside_of_mem hp
  obtain ⟨j, rfl, hj⟩ := hrun.here_of_mem hp'
  exact hrun.not_past hl (.inr ho) (fun _ _ _ hr => endsIn_ne_fin hend (by simp) hr) hi hj hlt

/-- Below a loop no answer is `true`. -/
theorem exclusiveSites_looped (p p' : Pos) : exclusiveSites parent true r p p' = false := by
  induction p generalizing parent r p' with
  | here l => cases p' <;> simp [exclusiveSites]
  | inside l k p ih =>
    cases p' with
    | here l' => simp [exclusiveSites]
    | inside l' k' p' =>
      unfold exclusiveSites
      split
      · split_ifs <;> simp [ih]
      · rfl

/-- No run of the region runs both sites. -/
theorem exclusiveSites_sound {p p' : Pos} (h : exclusiveSites parent false r p p' = true)
    (hrun : RegionRuns Op.Runs q r t e) (hp : p ∈ t) (hp' : p' ∈ t) : False := by
  induction p generalizing parent r p' q t e with
  | here l' =>
    cases p' with
    | here l => cases h
    | inside l k p =>
      simp only [exclusiveSites, Bool.not_false, Bool.and_true, Option.any_eq_true] at h
      obtain ⟨o, hl, hs⟩ := h
      exact returnsBefore_sound hs hl hrun hp' hp
  | inside l k p ih =>
    cases p' with
    | here l' =>
      simp only [exclusiveSites, Bool.not_false, Bool.and_true, Option.any_eq_true] at h
      obtain ⟨o, hl, hs⟩ := h
      exact returnsBefore_sound hs hl hrun hp hp'
    | inside l' k' p' =>
      unfold exclusiveSites at h
      split at h
      · next o o' hl hl' =>
        split_ifs at h with hll hk
        · -- in the same region of the same operation
          subst hll hk
          obtain ⟨j, rfl, hj⟩ := hrun.inside_of_mem hp
          obtain ⟨j', hjj, hj'⟩ := hrun.inside_of_mem hp'
          cases hjj
          cases hloop : o.isLoop with
          | true =>
            rw [hloop, Bool.or_true, exclusiveSites_looped] at h
            cases h
          | false =>
            rw [hloop] at h
            obtain ⟨o₁, s, e', hget, hop, -⟩ := hrun.op hj
            rw [hl] at hget
            cases hget
            have hmem := mem_inRegion.2 (mem_inOp.2 hj)
            have hmem' := mem_inRegion.2 (mem_inOp.2 hj')
            rcases hop.part hloop k with hnil | ⟨q', e'', hregion⟩
            · rw [hnil] at hmem
              cases hmem
            · exact ih h hregion hmem hmem'
        · -- in two regions of one operation
          subst hll
          simp only [Bool.not_false, Bool.and_true, Bool.or_eq_true, decide_eq_true_eq] at h
          obtain ⟨j, rfl, hj⟩ := hrun.inside_of_mem hp
          obtain ⟨j', hjj, hj'⟩ := hrun.inside_of_mem hp'
          cases hjj
          obtain ⟨o₁, s, e', hget, hop, -⟩ := hrun.op hj
          rw [hl] at hget
          cases hget
          exact hk (hop.one_arm h (mem_inOp.2 hj) (mem_inOp.2 hj'))
        · simp only [Bool.not_false, Bool.and_true] at h
          exact separateCases_sound h hl hl' hll hrun hp hp'
      · cases h

end Sites

end Wtc.Threads
