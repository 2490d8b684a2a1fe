import Mathlib.Tactic.Common
import Wtc.Threads.Model

/-!
# What the walk keeps

An instance that stands for one run was reached through a site that runs once, from an instance that
itself stands for one run; an instance of a function that can come to itself again, by calls or on
the chain of the walk, and a root that the module does not account for stand for many. This is
`Grown`, and it holds of the instances of every walk (`run_grown`).
-/

namespace Wtc.Threads

open Wtc.Nested

variable {F : Type} [DecidableEq F] {M : Module F} {Q : Queries F} {cap : Nat}

/-- The site of a child in its parent. -/
def Linked (M : Module F) (parent c : Instance F) : Prop :=
  ∃ p call, c.site = some p ∧ (p, call) ∈ M.calls parent.func ∧
    (c.execMult = .one → parent.execMult = .one ∧ M.siteMult parent.func p call = (.one, true))

/-- An instance that may stand for more than one run says so. -/
structure Fits (M : Module F) (c : Instance F) : Prop where
  recurring : c.recurring = true → c.execMult = .many
  recursive : M.isRecursive c.func = true → c.execMult = .many
  root : c.parent = none → c.speculative = true → c.execMult = .many

/-- The instances, with children of those of index below `n`. -/
structure Grown (M : Module F) (insts : List (Instance F)) (n : Nat) : Prop where
  lt : ∀ {j i : Nat} {c : Instance F}, insts[j]? = some c → c.parent = some i → i < n ∧ i < j
  linked : ∀ {j i : Nat} {c : Instance F}, insts[j]? = some c → c.parent = some i →
    ∃ parent, insts[i]? = some parent ∧ Linked M parent c
  fits : ∀ c ∈ insts, Fits M c

variable {insts : List (Instance F)} {n : Nat}

theorem Grown.mono (h : Grown M insts n) {n' : Nat} (hn : n ≤ n') : Grown M insts n' :=
  ⟨fun hc hp => ⟨Nat.lt_of_lt_of_le (h.lt hc hp).1 hn, (h.lt hc hp).2⟩, h.linked, h.fits⟩

omit [DecidableEq F] in
theorem getElem?_concat {j : Nat} {c c' : Instance F} (h : (insts ++ [c])[j]? = some c') :
    insts[j]? = some c' ∨ j = insts.length ∧ c' = c := by
  rw [List.getElem?_append] at h
  split at h
  · exact .inl h
  · next hj =>
    obtain ⟨hlt, heq⟩ := List.getElem?_eq_some_iff.1 h
    rw [List.length_singleton] at hlt
    rw [List.getElem_singleton] at heq
    exact .inr ⟨by omega, heq.symm⟩

omit [DecidableEq F] in
theorem getElem?_concat_of {j : Nat} {c c' : Instance F} (h : insts[j]? = some c') :
    (insts ++ [c])[j]? = some c' := by
  rw [List.getElem?_append_left (List.getElem?_eq_some_iff.1 h).1, h]

/-- One more instance. -/
theorem Grown.append (h : Grown M insts n) {c : Instance F}
    (hparent : ∀ i, c.parent = some i →
      i < n ∧ ∃ parent, insts[i]? = some parent ∧ Linked M parent c)
    (hfits : Fits M c) : Grown M (insts ++ [c]) n where
  lt := by
    intro j i c' hj hp
    rcases getElem?_concat hj with hj | ⟨rfl, rfl⟩
    · exact h.lt hj hp
    · obtain ⟨hn, parent, hi, -⟩ := hparent i hp
      exact ⟨hn, (List.getElem?_eq_some_iff.1 hi).1⟩
  linked := by
    intro j i c' hj hp
    rcases getElem?_concat hj with hj | ⟨rfl, rfl⟩
    · obtain ⟨parent, hi, hl⟩ := h.linked hj hp
      exact ⟨parent, getElem?_concat_of hi, hl⟩
    · obtain ⟨-, parent, hi, hl⟩ := hparent i hp
      exact ⟨parent, getElem?_concat_of hi, hl⟩
  fits := by
    intro c' hc'
    rcases List.mem_append.1 hc' with hc' | hc'
    · exact h.fits c' hc'
    · cases List.mem_singleton.1 hc'
      exact hfits

/-- The last instance that may have children yet is marked as a recurrence. -/
theorem Grown.set (h : Grown M insts n) {inst c : Instance F} (hget : insts[n]? = some inst)
    (hfunc : c.func = inst.func) (hparent : c.parent = inst.parent)
    (hsite : c.site = inst.site) (hmany : c.execMult = .many) :
    Grown M (insts.set n c) n := by
  have hother : ∀ {j : Nat} {d : Instance F}, (insts.set n c)[j]? = some d →
      ∃ d₀, insts[j]? = some d₀ ∧ d.parent = d₀.parent ∧
        ∀ parent, Linked M parent d₀ → Linked M parent d := by
    intro j d hj
    rw [List.getElem?_set] at hj
    split_ifs at hj with hnj hlt
    · subst hnj
      cases hj
      refine ⟨inst, hget, hparent, ?_⟩
      rintro parent ⟨p, call, hp, hcall, -⟩
      exact ⟨p, call, hsite.trans hp, hcall, fun hone => by rw [hmany] at hone; cases hone⟩
    · exact ⟨d, hj, rfl, fun _ hl => hl⟩
  refine ⟨?_, ?_, ?_⟩
  · intro j i d hj hp
    obtain ⟨d₀, hj₀, hpar, -⟩ := hother hj
    exact h.lt hj₀ (hpar ▸ hp)
  · intro j i d hj hp
    obtain ⟨d₀, hj₀, hpar, hl⟩ := hother hj
    obtain ⟨parent, hi, hlink⟩ := h.linked hj₀ (hpar ▸ hp)
    have hin := (h.lt hj₀ (hpar ▸ hp)).1
    refine ⟨parent, ?_, hl parent hlink⟩
    rw [List.getElem?_set, if_neg (by omega), hi]
  · intro d hd
    rcases List.mem_or_eq_of_mem_set hd with hd | rfl
    · exact h.fits d hd
    · exact ⟨fun _ => hmany, fun _ => hmany, fun _ _ => hmany⟩

/-! ## Adding instances -/

/-- What an instance that is added must be, before it is looked at whether it is recursive. -/
structure Addable (M : Module F) (insts : List (Instance F)) (n : Nat) (c : Instance F) : Prop where
  parent : ∀ i, c.parent = some i →
    i < n ∧ ∃ parent, insts[i]? = some parent ∧ Linked M parent c
  recurring : c.recurring = false
  root : c.parent = none → c.speculative = true → c.execMult = .many

/-- The instances have grown, and those that were there are as they were. -/
def Extends (M : Module F) (n : Nat) (w w' : Walk F) : Prop :=
  Grown M w'.instances n ∧
    ∀ {i : Nat} {c : Instance F}, w.instances[i]? = some c → w'.instances[i]? = some c

theorem addIfRoom_extends {w : Walk F} {c : Instance F} (h : Grown M w.instances n)
    (hc : Addable M w.instances n c) : Extends M n w (addIfRoom M cap w c) := by
  unfold addIfRoom
  split
  · exact ⟨h, id⟩
  unfold addInstance
  refine ⟨?_, getElem?_concat_of⟩
  cases hrec : M.isRecursive c.func with
  | false =>
    simp only [Bool.false_eq_true, if_false]
    refine h.append hc.parent ⟨?_, ?_, hc.root⟩
    · simp [hc.recurring]
    · simp [hrec]
  | true =>
    simp only [if_true]
    refine h.append ?_ ⟨fun _ => rfl, fun _ => rfl, fun _ _ => rfl⟩
    intro i hi
    obtain ⟨hn, parent, hget, p, call, hp, hcall, -⟩ := hc.parent i hi
    exact ⟨hn, parent, hget, p, call, hp, hcall, nofun⟩

theorem addThread_extends {w : Walk F} {c : Nat → Instance F} (h : Grown M w.instances n)
    (hc : ∀ t, Addable M w.instances n (c t)) : Extends M n w (addThread M cap w c) := by
  have hext : Extends M n { w with nextThread := w.nextThread + 1 } (addThread M cap w c) :=
    addIfRoom_extends h (hc w.nextThread)
  exact hext

theorem Extends.trans {w w' w'' : Walk F} (h : Extends M n w w') (h' : Extends M n w' w'') :
    Extends M n w w'' :=
  ⟨h'.1, fun hi => h'.2 (h.2 hi)⟩

/-- A loop that adds instances. -/
theorem foldl_extends {α : Type} {f : Walk F → α → Walk F} {l : List α} {w : Walk F}
    (h : Grown M w.instances n)
    (hf : ∀ w' a, a ∈ l → Extends M n w w' → Extends M n w' (f w' a)) :
    Extends M n w (l.foldl f w) :=
  List.foldlRecOn (motive := Extends M n w) l f ⟨h, id⟩ fun w' hw' a ha =>
    hw'.trans (hf w' a ha hw')

omit [DecidableEq F] in
theorem addable_root {c : Instance F} (hp : c.parent = none) (hr : c.recurring = false)
    (hs : c.speculative = true → c.execMult = .many) : Addable M insts n c :=
  ⟨fun i hi => by simp [hp] at hi, hr, fun _ => hs⟩

theorem addManyRoots_grown {w : Walk F} {fs : List F} (h : Grown M w.instances n) :
    Grown M (addManyRoots M cap fs w).instances n :=
  (foldl_extends h fun _ _ _ hw =>
    addThread_extends hw.1 fun _ => addable_root rfl rfl fun _ => rfl).1

theorem addMain_grown {w : Walk F} (h : Grown M w.instances n) :
    Grown M (addMain M Q cap w).instances n :=
  (foldl_extends h fun _ _ _ hw =>
    addThread_extends hw.1 fun _ => addable_root rfl rfl (by simp [onceRoot])).1

theorem addCtors_grown {w : Walk F} (h : Grown M w.instances n) :
    Grown M (addCtors M Q cap w).instances n :=
  (foldl_extends (w := { w with nextThread := max w.nextThread 1 }) h fun _ _ _ hw =>
    addIfRoom_extends hw.1 (addable_root rfl rfl (by simp [onceRoot]))).1

theorem addRootsForModule_grown : Grown M (addRootsForModule M Q cap {}).instances 0 := by
  have hnil : Grown M ({} : Walk F).instances 0 := ⟨by simp, by simp, by simp⟩
  exact addManyRoots_grown (addCtors_grown (addMain_grown hnil))

/-! ## Expanding an instance -/

section Expand

variable {i : Nat} {inst : Instance F} {w : Walk F} {p : Pos} {c : Call F}

omit [DecidableEq F] in
/-- What the sites of the instance that is expanded add. -/
theorem addable_child {child : Instance F} (hget : w.instances[i]? = some inst)
    (hcall : (p, c) ∈ M.calls inst.func) (hsite : child.site = some p)
    (hparent : child.parent = some i) (hrec : child.recurring = false)
    (hmult : child.execMult = inst.execMult.join (M.siteMult inst.func p c).1) :
    Addable M w.instances (i + 1) child := by
  refine ⟨?_, hrec, fun hnone => by rw [hparent] at hnone; cases hnone⟩
  intro i' hi'
  rw [hparent] at hi'
  cases hi'
  refine ⟨Nat.lt_succ_self i, inst, hget, p, c, hsite, hcall, ?_⟩
  intro hone
  rw [hmult, Mult.join_eq_one] at hone
  refine ⟨hone.1, ?_⟩
  have hsite := hone.2
  unfold Module.siteMult at hsite ⊢
  split_ifs at hsite ⊢
  rfl

theorem addCallee_extends {t : F} (h : Grown M w.instances (i + 1))
    (hget : w.instances[i]? = some inst) (hcall : (p, c) ∈ M.calls inst.func) :
    Extends M (i + 1) w (addIfRoom M cap w (calleeChild M Q i inst p c t)) :=
  addIfRoom_extends h (addable_child hget hcall rfl rfl rfl rfl)

theorem expandEntry_extends {entry : F} (h : Grown M w.instances (i + 1))
    (hget : w.instances[i]? = some inst) (hcall : (p, c) ∈ M.calls inst.func) :
    Extends M (i + 1) w (expandEntry M Q cap i inst p c w entry) := by
  unfold expandEntry
  split
  · have hspawn : Extends M (i + 1) w (addThread M cap w
        (spawnChild M i inst p c entry (Q.countingLoop w.instances i p))) :=
      addThread_extends h fun _ => addable_child hget hcall rfl rfl rfl rfl
    dsimp only
    split
    · exact hspawn.trans (addCallee_extends hspawn.1 (hspawn.2 hget) hcall)
    · exact hspawn
  · exact ⟨h, id⟩

theorem expandCall_extends {x : Pos × Call F} (h : Grown M w.instances (i + 1))
    (hget : w.instances[i]? = some inst) (hcall : x ∈ M.calls inst.func) :
    Extends M (i + 1) w (expandCall M Q cap i inst w x) := by
  obtain ⟨p, c⟩ := x
  unfold expandCall
  split
  · exact foldl_extends h fun _ _ _ hw => addCallee_extends hw.1 (hw.2 hget) hcall
  · split
    · dsimp only
      split
      · exact foldl_extends h fun _ _ _ hw => expandEntry_extends hw.1 (hw.2 hget) hcall
      · exact ⟨h, id⟩
    · exact ⟨h, id⟩
    · split
      · exact addCallee_extends h hget hcall
      · exact ⟨h, id⟩

theorem expand_grown (h : Grown M w.instances (i + 1)) (hget : w.instances[i]? = some inst) :
    Grown M (expand M Q cap i inst w).instances (i + 1) :=
  (foldl_extends h fun _ _ hx hw => expandCall_extends hw.1 (hw.2 hget) hx).1

end Expand

/-! ## The whole walk -/

omit [DecidableEq F] in
@[simp] theorem recurrence_fields (spawned : Bool) (inst : Instance F) :
    (recurrence spawned inst).func = inst.func ∧ (recurrence spawned inst).parent = inst.parent ∧
      (recurrence spawned inst).site = inst.site ∧
      (recurrence spawned inst).execMult = .many := by
  unfold recurrence
  split <;> exact ⟨rfl, rfl, rfl, rfl⟩

theorem stepInstance_grown {w : Walk F} {inst : Instance F} (h : Grown M w.instances n)
    (hget : w.instances[n]? = some inst) :
    Grown M (stepInstance M Q cap n inst w).instances (n + 1) := by
  have hlt := (List.getElem?_eq_some_iff.1 hget).1
  unfold stepInstance
  split
  · generalize viaSpawn M w.instances inst = spawned
    obtain ⟨hfunc, hparent, hsite, hmany⟩ := recurrence_fields spawned inst
    dsimp only
    generalize recurrence spawned inst = inst' at hfunc hparent hsite hmany ⊢
    split
    · exact (h.set (c := { inst' with truncated := true }) hget hfunc hparent hsite hmany).mono
        (Nat.le_succ n)
    · refine expand_grown ((h.set hget hfunc hparent hsite hmany).mono (Nat.le_succ n)) ?_
      simp [hlt]
  · exact expand_grown (h.mono (Nat.le_succ n)) hget

theorem settle_grown {fuel : Nat} {w : Walk F} (h : Grown M w.instances n) :
    Grown M (settle M Q cap fuel n w).1.instances (settle M Q cap fuel n w).2 := by
  induction fuel generalizing n w with
  | zero => exact h
  | succ fuel ih =>
    unfold settle
    split
    · exact h
    · next inst hget => exact ih (stepInstance_grown h hget)

theorem run_grown (M : Module F) (Q : Queries F) (cap : Nat) :
    ∃ n, Grown M (run M Q cap).instances n := by
  have hroots : Grown M (addRootsForModule M Q cap {}).instances 0 := addRootsForModule_grown
  have hfirst : Grown M (settle M Q cap cap 0 (addRootsForModule M Q cap {})).1.instances
      (settle M Q cap cap 0 (addRootsForModule M Q cap {})).2 := settle_grown hroots
  exact ⟨_, settle_grown (addManyRoots_grown hfirst)⟩

end Wtc.Threads
