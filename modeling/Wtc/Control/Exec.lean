import Mathlib.Logic.Relation
import Wtc.Control.Step

/-!
# Runs of structured code

One thread's run of some code over a state of which nothing is known here: what operations do to it,
which way conditions go in it, and what the rest of the program may do to it at any time.

A stack is run from the top, and what is below the frames that a step looks at plays no part, so a
run inside a region is followed apart from what is around it (`Step.of_append`), and what holds of
all the code of the region holds of every operation it runs (`Step.sat`).
-/

namespace Wtc.Control

variable {O C σ : Type}

structure Sem (O C σ : Type) where
  does : O → σ → σ → Prop
  decides : C → σ → Nat → Prop
  /-- What the rest of the program may do. -/
  rely : σ → σ → Prop

/-- A step of the thread, or of the rest of the program. -/
inductive Step (S : Sem O C σ) : List (Frame O C) × σ → List (Frame O C) × σ → Prop where
  | tau {k k' x} : next k = .tau k' → Step S (k, x) (k', x)
  | op {k k' o x x'} : next k = .op o k' → S.does o x x' → Step S (k, x) (k', x')
  | test {k kn c n x} : next k = .test c kn → S.decides c x n → Step S (k, x) (kn n, x)
  | rest {k x x'} : S.rely x x' → Step S (k, x) (k, x')

variable {S : Sem O C σ} {u v k k' w : List (Frame O C)} {x x' : σ}

/-- A step of the frames above leaves those below. -/
theorem Step.of_append (hu : u ≠ []) (he : ∀ e, u ≠ [.exit e])
    (h : Step S (u ++ v, x) (k', x')) : ∃ u', k' = u' ++ v ∧ Step S (u, x) (u', x') := by
  have hn := next_append (v := v) hu he
  cases h with
  | tau h =>
    rw [hn] at h
    cases hu' : next u <;> rw [hu'] at h <;> cases h
    exact ⟨_, rfl, .tau hu'⟩
  | op h hd =>
    rw [hn] at h
    cases hu' : next u <;> rw [hu'] at h <;> cases h
    exact ⟨_, rfl, .op hu' hd⟩
  | test h hd =>
    rw [hn] at h
    cases hu' : next u <;> rw [hu'] at h <;> cases h
    exact ⟨_, rfl, .test hu' hd⟩
  | rest h => exact ⟨u, rfl, .rest h⟩

/-- What a step does to the state: nothing, what the rest does, or an operation of the code. -/
def Moved (S : Sem O C σ) (Q : Code O C → Prop) (x x' : σ) : Prop :=
  x' = x ∨ S.rely x x' ∨ ∃ o rest, Q (.op o rest) ∧ S.does o x x'

/-- All the code on a stack is `Q`, and it is left in ways that are `E`. -/
def AllSat (Q : Code O C → Prop) (E : Exit → Prop) (k : List (Frame O C)) : Prop :=
  ∀ f ∈ k, f.Sat Q E

/-- `Q` also passes from code to what is left of it. -/
def Tails (Q : Code O C → Prop) : Prop := ∀ {o rest}, Q (.op o rest) → Q rest

theorem Step.sat {Q : Code O C → Prop} {E : Exit → Prop} (hQ : Inherits Q E) (ht : Tails Q)
    (hk : AllSat Q E k) (h : Step S (k, x) (k', x')) : AllSat Q E k' ∧ Moved S Q x x' := by
  have hn := next_sat hQ hk
  cases h with
  | tau h =>
    rw [h] at hn
    exact ⟨hn, .inl rfl⟩
  | op h hd =>
    rw [h] at hn
    obtain ⟨rest, k₀, rfl, hq, hk₀⟩ := hn
    exact ⟨List.forall_mem_cons.2 ⟨ht hq, hk₀⟩, .inr (.inr ⟨_, _, hq, hd⟩)⟩
  | test h hd =>
    rw [h] at hn
    exact ⟨hn _, .inl rfl⟩
  | rest h => exact ⟨hk, .inr (.inl h)⟩

/-- A run of frames with nothing below that the steps look at. -/
theorem Step.above {Q : Code O C → Prop} {E : Exit → Prop} (hQ : Inherits Q E) (ht : Tails Q)
    (hu : u ≠ []) (he : ∀ e, u ≠ [.exit e]) (hk : AllSat Q E u)
    (h : Step S (u ++ v, x) (k', x')) :
    ∃ u', k' = u' ++ v ∧ AllSat Q E u' ∧ Moved S Q x x' := by
  obtain ⟨u', rfl, hs⟩ := h.of_append hu he
  exact ⟨u', rfl, hs.sat hQ ht hk⟩

/-- A step without an operation of its own. -/
theorem Step.cases_tau (hn : next k = .tau w) (h : Step S (k, x) (k', x')) :
    (k' = w ∧ x' = x) ∨ (k' = k ∧ S.rely x x') := by
  cases h with
  | tau h => rw [hn] at h; cases h; exact .inl ⟨rfl, rfl⟩
  | op h _ | test h _ => rw [hn] at h; cases h
  | rest h => exact .inr ⟨rfl, h⟩

theorem Step.cases_op {o : O} (hn : next k = .op o w) (h : Step S (k, x) (k', x')) :
    (k' = w ∧ S.does o x x') ∨ (k' = k ∧ S.rely x x') := by
  cases h with
  | tau h | test h _ => rw [hn] at h; cases h
  | op h hd => rw [hn] at h; cases h; exact .inl ⟨rfl, hd⟩
  | rest h => exact .inr ⟨rfl, h⟩

theorem Step.cases_test {c : C} {kn : Nat → List (Frame O C)} (hn : next k = .test c kn)
    (h : Step S (k, x) (k', x')) :
    (∃ n, k' = kn n ∧ S.decides c x n ∧ x' = x) ∨ (k' = k ∧ S.rely x x') := by
  cases h with
  | tau h | op h _ => rw [hn] at h; cases h
  | test h hd => rw [hn] at h; cases h; exact .inl ⟨_, rfl, hd, rfl⟩
  | rest h => exact .inr ⟨rfl, h⟩

theorem Step.cases_stop (hn : next k = .stop) (h : Step S (k, x) (k', x')) :
    k' = k ∧ S.rely x x' := by
  cases h with
  | tau h | op h _ | test h _ => rw [hn] at h; cases h
  | rest h => exact ⟨rfl, h⟩

/-- All operations of the code are `P`. -/
def OpsSat (P : O → Prop) (c : Code O C) : Prop := ∀ o ∈ c.ops, P o

theorem inherits_opsSat {P : O → Prop} : Inherits (OpsSat P (C := C)) fun _ => True where
  node := fun h =>
    ⟨fun o ho => h o (by simp [Code.ops, ho]), fun o ho => h o (by simp [Code.ops, ho]),
      fun o ho => h o (by simp [Code.ops, ho]), fun o ho => h o (by simp [Code.ops, ho])⟩
  enter := fun h _ o ho => h o (by simp [Code.ops, mem_ops_of_enter ho])
  jump := fun _ => trivial

theorem tails_opsSat {P : O → Prop} : Tails (OpsSat P (C := C)) :=
  fun h o ho => h o (List.mem_cons_of_mem _ ho)

/-- The runs in which every state is `I`. -/
def Sem.within (S : Sem O C σ) (I : σ → Prop) : Sem O C σ :=
  ⟨fun o x x' => S.does o x x' ∧ I x', S.decides, fun x x' => S.rely x x' ∧ I x'⟩

theorem Step.within {I : σ → Prop} (h : Step S (k, x) (k', x')) (hI : I x') :
    Step (S.within I) (k, x) (k', x') := by
  cases h with
  | tau h => exact .tau h
  | op h hd => exact .op h ⟨hd, hI⟩
  | test h hd => exact .test h hd
  | rest h => exact .rest ⟨h, hI⟩

/-! ## Paths -/

/-- A way on from some frames, whichever way the conditions go, with the operations on it. -/
inductive Path : List (Frame O C) → List O → List (Frame O C) → Prop where
  | refl {k : List (Frame O C)} : Path k [] k
  | tau {k k' w : List (Frame O C)} {os : List O} :
      next k = .tau k' → Path k' os w → Path k os w
  | op {k k' w : List (Frame O C)} {o : O} {os : List O} :
      next k = .op o k' → Path k' os w → Path k (o :: os) w
  | test {k w : List (Frame O C)} {c : C} {kn : Nat → List (Frame O C)} {n : Nat} {os : List O} :
      next k = .test c kn → Path (kn n) os w → Path k os w

/-- A way through code to its end. -/
def Through (b : Code O C) (os : List O) : Prop := Path [.block b] os []

variable {os os' : List O}

theorem Path.trans (h : Path k os k') (h' : Path k' os' w) : Path k (os ++ os') w := by
  induction h with
  | refl => exact h'
  | tau hn _ ih => exact .tau hn (ih h')
  | op hn _ ih => exact .op hn (ih h')
  | test hn _ ih => exact .test hn (ih h')

theorem Path.nil_inv (h : Path ([] : List (Frame O C)) os []) : os = [] := by
  cases h with
  | refl => rfl
  | tau hn _ | op hn _ | test hn _ => cases hn

theorem Path.done_inv (h : Path (.block .done :: k) os []) : Path k os [] := by
  cases h with
  | tau hn h => cases hn; exact h
  | op hn _ | test hn _ => cases hn

theorem Path.op_inv {o : O} {rest : Code O C} (h : Path (.block (.op o rest) :: k) os []) :
    ∃ os', os = o :: os' ∧ Path (.block rest :: k) os' [] := by
  cases h with
  | op hn h => cases hn; exact ⟨_, rfl, h⟩
  | tau hn _ | test hn _ => cases hn

/-- A step of some frames goes along a path. -/
theorem Step.path {Q : Code O C → Prop} {E : Exit → Prop} (hQ : Inherits Q E) (ht : Tails Q)
    (hk : AllSat Q E k) (h : Step S (k, x) (k', x')) :
    AllSat Q E k' ∧ ((k' = k ∧ S.rely x x') ∨ (Path k [] k' ∧ x' = x) ∨
      ∃ o rest, Path k [o] k' ∧ Q (.op o rest) ∧ S.does o x x') := by
  refine ⟨(h.sat hQ ht hk).1, ?_⟩
  cases h with
  | tau h => exact .inr (.inl ⟨.tau h .refl, rfl⟩)
  | op h hd =>
    have hn := next_sat hQ hk
    rw [h] at hn
    obtain ⟨rest, k₀, rfl, hq, -⟩ := hn
    exact .inr (.inr ⟨_, rest, .op h .refl, hq, hd⟩)
  | test h _ => exact .inr (.inl ⟨.test h .refl, rfl⟩)
  | rest h => exact .inl ⟨rfl, h⟩

/-! ## The operations of a block itself -/

/-- The operations that stand in the block, not in a region of one of its nodes. -/
def Code.top : Code O C → List O
  | .op o rest => o :: rest.top
  | .node _ _ _ _ rest => rest.top
  | _ => []

/-- Those that stand in a region of one of its nodes. -/
def Code.inner : Code O C → List O
  | .op _ rest => rest.inner
  | .node _ r₁ r₂ r₃ rest => r₁.ops ++ r₂.ops ++ r₃.ops ++ rest.inner
  | _ => []

theorem mem_ops_of_top {c : Code O C} {o : O} (h : o ∈ c.top) : o ∈ c.ops := by
  induction c with
  | op o' rest ih =>
    rcases List.mem_cons.1 h with rfl | h
    · exact List.mem_cons_self
    · exact List.mem_cons_of_mem _ (ih h)
  | node n r₁ r₂ r₃ rest _ _ _ ih => simp [Code.ops, ih h]
  | _ => cases h

theorem mem_ops_of_inner {c : Code O C} {o : O} (h : o ∈ c.inner) : o ∈ c.ops := by
  induction c with
  | op o' rest ih => exact List.mem_cons_of_mem _ (ih h)
  | node n r₁ r₂ r₃ rest _ _ _ ih =>
    simp only [Code.inner, List.mem_append] at h
    simp only [Code.ops, List.mem_append]
    exact h.imp_right ih
  | _ => cases h

theorem countP_ops (p : O → Bool) (c : Code O C) :
    c.ops.countP p = c.top.countP p + c.inner.countP p := by
  induction c with
  | op o rest ih =>
    simp only [Code.ops, Code.top, Code.inner, List.countP_cons, ih]
    omega
  | node n r₁ r₂ r₃ rest _ _ _ ih =>
    simp only [Code.ops, Code.top, Code.inner, List.countP_append, ih]
    omega
  | _ => rfl

/-! ## A block that is run -/

/-- A block of which `s` is left to run, under the frames of a node of it that is being run. `F s`
is what is known then. -/
inductive InBlock (Q : Code O C → Prop) (E : Exit → Prop) (F : Code O C → σ → Prop)
    (below : List (Frame O C)) : List (Frame O C) → σ → Prop where
  | mk {w s x} : AllSat Q E w → F s x → InBlock Q E F below (w ++ .block s :: below) x

/-- `F` is followed along a block, up to code that is `L`: through the operations of the block
itself, through whatever the regions of its nodes and the rest of the program do, and past its
nodes. -/
structure Tracks (S : Sem O C σ) (Q : Code O C → Prop) (L : Code O C → Prop)
    (F : Code O C → σ → Prop) : Prop where
  moved : ∀ {s x x'}, F s x → Moved S Q x x' → F s x'
  op : ∀ {o rest x x'}, F (.op o rest) x → L (.op o rest) ∨ (S.does o x x' → F rest x')
  node : ∀ {n r₁ r₂ r₃ rest x}, F (.node n r₁ r₂ r₃ rest) x →
    L (.node n r₁ r₂ r₃ rest) ∨ (Q (.node n r₁ r₂ r₃ .done) ∧ F rest x)

variable {Q L : Code O C → Prop} {E : Exit → Prop} {F : Code O C → σ → Prop}
  {below : List (Frame O C)}

theorem InBlock.elim (h : InBlock Q E F below k x) :
    ∃ w s, k = w ++ .block s :: below ∧ AllSat Q E w ∧ F s x := by
  cases h with
  | mk hw hf => exact ⟨_, _, rfl, hw, hf⟩

/-- Inside a block there are frames above those around it. -/
theorem InBlock.ne_cons {f g : Frame O C} (h : InBlock Q E F (f :: below) k x) :
    k ≠ g :: below := by
  obtain ⟨w, s, rfl, -⟩ := h.elim
  intro he
  have := congrArg List.length he
  simp at this
  omega

/-- A step inside a block leaves the frames around it. -/
theorem InBlock.step_above (h : InBlock Q E F below k x) (hs : Step S (k, x) (k', x')) :
    ∃ u, k' = u ++ below := by
  obtain ⟨w, s, rfl, -⟩ := h.elim
  have hs' : Step S ((w ++ [.block s]) ++ below, x) (k', x') := by simpa using hs
  obtain ⟨u, hu, -⟩ := hs'.of_append (by simp) (by
    intro e he
    rcases List.append_eq_singleton_iff.1 he with ⟨-, h⟩ | ⟨-, h⟩ <;> cases h)
  exact ⟨u, hu⟩

theorem Tracks.rely (hF : Tracks S Q L F) {s : Code O C} (h : F s x) (hr : S.rely x x') :
    F s x' :=
  hF.moved h (.inr (.inl hr))

/-- A step inside a block: it goes on, it was at code that is `L`, it is done, or it is left. -/
theorem Tracks.step (hQ : Inherits Q E) (ht : Tails Q) (hF : Tracks S Q L F)
    (h : InBlock Q E F below k x) (hs : Step S (k, x) (k', x')) :
    InBlock Q E F below k' x' ∨ (∃ s, k = .block s :: below ∧ L s ∧ F s x) ∨
      (k' = below ∧ F .done x ∧ x' = x) ∨ ∃ e, k' = .exit e :: below ∧ x' = x := by
  obtain ⟨w, s, rfl, hw, hf⟩ := h.elim
  by_cases hnil : w = []
  · subst hnil
    have hstay : S.rely x x' → InBlock Q E F below (.block s :: below) x' := fun hr =>
      InBlock.mk (w := []) hw (hF.rely hf hr)
    cases s with
    | done =>
      rcases hs.cases_tau rfl with ⟨rfl, rfl⟩ | ⟨rfl, hr⟩
      · exact .inr (.inr (.inl ⟨rfl, hf, rfl⟩))
      · exact .inl (hstay hr)
    | op o rest =>
      have hcase : L (.op o rest) ∨ (S.does o x x' → F rest x') := hF.op hf
      rcases hcase with hl | hop
      · exact .inr (.inl ⟨_, rfl, hl, hf⟩)
      rcases hs.cases_op rfl with ⟨rfl, hd⟩ | ⟨rfl, hr⟩
      · exact .inl (InBlock.mk (w := []) hw (hop hd))
      · exact .inl (hstay hr)
    | node n r₁ r₂ r₃ rest =>
      rcases hF.node hf with hl | ⟨hq, hrest⟩
      · exact .inr (.inl ⟨_, rfl, hl, hf⟩)
      have hn : next ([] ++ .block (.node n r₁ r₂ r₃ rest) :: below) =
          (nextNode r₁ r₂ r₃ [] n).append (.block rest :: below) :=
        nextNode_append (k := []) r₁ r₂ r₃ n
      have hsat := nextNode_sat (k := []) hQ hq nofun
      cases hnode : nextNode r₁ r₂ r₃ [] n with
      | tau k₀ =>
        rw [hnode] at hn hsat
        rcases hs.cases_tau hn with ⟨rfl, rfl⟩ | ⟨rfl, hr⟩
        · exact .inl (InBlock.mk hsat hrest)
        · exact .inl (hstay hr)
      | test c kn =>
        rw [hnode] at hn hsat
        rcases hs.cases_test hn with ⟨m, rfl, -, rfl⟩ | ⟨rfl, hr⟩
        · exact .inl (InBlock.mk (hsat m) hrest)
        · exact .inl (hstay hr)
      | op o k₀ | stop => cases n <;> cases hnode
    | jump j =>
      rcases hs.cases_tau rfl with ⟨rfl, rfl⟩ | ⟨rfl, hr⟩
      · exact .inr (.inr (.inr ⟨_, rfl, rfl⟩))
      · exact .inl (hstay hr)
    | goto =>
      obtain ⟨rfl, hr⟩ := hs.cases_stop rfl
      exact .inl (hstay hr)
  · by_cases hex : ∃ e, w = [.exit e]
    · obtain ⟨e, rfl⟩ := hex
      rcases hs.cases_tau rfl with ⟨rfl, rfl⟩ | ⟨rfl, hr⟩
      · exact .inr (.inr (.inr ⟨e, rfl, rfl⟩))
      · exact .inl (InBlock.mk (w := [.exit e]) hw (hF.rely hf hr))
    · obtain ⟨w', rfl, hw', hm⟩ := hs.above hQ ht hnil (fun e h => hex ⟨e, h⟩) hw
      exact .inl (InBlock.mk hw' (hF.moved hf hm))

end Wtc.Control
