import Wtc.Ir.TwoRuns
import Wtc.OnlyReturned.Model

/-!
# A count that decides nothing

The functions that the check has gone through pass the result on and do nothing else with it
(`onlyReturned_closed`). So two executions that differ in what the calls of the function return take
the same way: they differ in the values that are on their way to a return, and in nothing else,
provided no file linked with the module names a function that passes the result on
(`count_decides_nothing`). The check does not ask for that (`count_decides_elsewhere`).
-/

namespace Wtc.OnlyReturned

open Wtc.Ir Wtc.Cir Wtc.Flow Wtc.Control

variable {V B : Type} {M : Module B} {T T' : List Nat} {f g h d : Nat}

/-! ## What the check has found -/

/-- A user of the value returns it, or puts it in a slot for a return. -/
def UserOk (M : Module B) (h d : Nat) (T : List Nat) (u : Op × Nat) : Prop :=
  h ∈ T ∧ ((∃ v, u.1 = .ret v) ∨
    ∃ addr, u.1 = .store d addr ∧ returnSlot M h (traceToLocalRoot M h addr) u.2 = true)

/-- The value goes to returns of the function, by itself or through a slot. -/
structure Handed (M : Module B) (T : List Nat) (h d : Nat) : Prop where
  tested : M.tested h d = false
  users : ∀ u ∈ M.users h d, UserOk M h d T u

/-- All uses of the function's symbol are calls, and what they return is handed on. -/
structure Passes (M : Module B) (T : List Nat) (g : Nat) : Prop where
  named : g ∉ M.named
  calls : ∀ u ∈ M.symbolUses g, (∃ d c args, u.2 = .call d c args) ∧
    ∀ d, u.2.result = some d → Handed M T u.1 d

/-- The functions that the check has come to pass the result on. -/
structure Spread (M : Module B) (T T' : List Nat) : Prop where
  subset : T ⊆ T'
  passes : ∀ g ∈ T', g ∈ T ∨ Passes M T' g

theorem Handed.mono (hT : T ⊆ T') (h₀ : Handed M T h d) : Handed M T' h d :=
  ⟨h₀.tested, fun u hu => ⟨hT (h₀.users u hu).1, (h₀.users u hu).2⟩⟩

theorem Passes.mono (hT : T ⊆ T') (hg : Passes M T g) : Passes M T' g :=
  ⟨hg.named, fun u hu => ⟨(hg.calls u hu).1, fun d hd => ((hg.calls u hu).2 d hd).mono hT⟩⟩

theorem Spread.refl (M : Module B) (T : List Nat) : Spread M T T :=
  ⟨List.Subset.refl _, fun _ hg => .inl hg⟩

theorem Spread.trans {T₁ : List Nat} (h₁ : Spread M T T₁) (h₂ : Spread M T₁ T') :
    Spread M T T' where
  subset := List.Subset.trans h₁.subset h₂.subset
  passes g hg := by
    rcases h₂.passes g hg with hg | hg
    · exact (h₁.passes g hg).imp_right (·.mono h₂.subset)
    · exact .inr hg

/-- A loop of the check: what one round finds stays true. -/
theorem foldlM_spread {α : Type} {step : List Nat → α → Option (List Nat)}
    {good : List Nat → α → Prop} {l : List α} {S S' : List Nat}
    (hmono : ∀ T T' a, T ⊆ T' → good T a → good T' a)
    (hstep : ∀ a ∈ l, ∀ T T', step T a = some T' → Spread M T T' ∧ good T' a)
    (hl : l.foldlM step S = some S') : Spread M S S' ∧ ∀ a ∈ l, good S' a := by
  induction l generalizing S with
  | nil =>
    cases hl
    exact ⟨.refl M _, by simp⟩
  | cons a l ih =>
    obtain ⟨S₁, hS, hl⟩ := Option.bind_eq_some_iff.1 hl
    obtain ⟨hs, hgood⟩ := hstep a List.mem_cons_self S S₁ hS
    obtain ⟨hrest, hall⟩ := ih (fun b hb => hstep b (List.mem_cons_of_mem _ hb)) hl
    exact ⟨hs.trans hrest, List.forall_mem_cons.2 ⟨hmono _ _ a hrest.subset hgood, hall⟩⟩

theorem onlyDirectCalls_eq {calls : List (Nat × Op)} (hc : onlyDirectCalls M f = some calls) :
    f ∉ M.named ∧ calls = M.symbolUses f ∧ ∀ u ∈ M.symbolUses f, ∃ d c args,
      u.2 = .call d c args := by
  unfold onlyDirectCalls at hc
  split at hc
  · cases hc
  · next hnamed =>
    split at hc
    · next hall =>
      cases hc
      refine ⟨by simpa using hnamed, rfl, fun u hu => ?_⟩
      have := List.all_eq_true.1 hall u hu
      split at this
      · next d c args he => exact ⟨d, c, args, he⟩
      · cases this
    · cases hc

section Loops

variable {next : Nat → List Nat → Option (List Nat)}
  (hnext : ∀ {f T T'}, next f T = some T' → Spread M T T' ∧ f ∈ T')

include hnext in
theorem throughUser_spread {u : Op × Nat} (hu : throughUser M (next h) h d T u = some T') :
    Spread M T T' ∧ UserOk M h d T' u := by
  unfold throughUser at hu
  split at hu
  · next v he =>
    obtain ⟨hs, hmem⟩ := hnext hu
    exact ⟨hs, hmem, .inl ⟨v, he⟩⟩
  · next v addr he =>
    split at hu
    · next hslot =>
      obtain ⟨hs, hmem⟩ := hnext hu
      obtain ⟨rfl, hslot⟩ := hslot
      exact ⟨hs, hmem, .inr ⟨addr, he, hslot⟩⟩
    · cases hu
  · cases hu

include hnext in
theorem throughCall_spread {call : Nat × Op} (hc : throughCall M next T call = some T') :
    Spread M T T' ∧ ∀ d, call.2.result = some d → Handed M T' call.1 d := by
  unfold throughCall at hc
  split at hc
  · next hnone =>
    cases hc
    refine ⟨.refl M T, fun d hd => ?_⟩
    rw [hnone] at hd
    cases hd
  · next d hd =>
    split at hc
    · cases hc
    · next htest =>
      have hgood : ∀ (T T' : List Nat) u, T ⊆ T' → UserOk M call.1 d T u →
          UserOk M call.1 d T' u := fun _ _ _ hsub hu => ⟨hsub hu.1, hu.2⟩
      obtain ⟨hs, hall⟩ := foldlM_spread hgood (fun u _ T T' => throughUser_spread hnext) hc
      refine ⟨hs, fun d' hd' => ?_⟩
      rw [hd] at hd'
      cases hd'
      exact ⟨by simpa using htest, hall⟩

end Loops

theorem onlyReturned_spread {n : Nat} (hr : onlyReturned M n f T = some T') :
    Spread M T T' ∧ f ∈ T' := by
  induction n generalizing f T T' with
  | zero => cases hr
  | succ n ih =>
    unfold onlyReturned at hr
    split at hr
    · next hf =>
      cases hr
      exact ⟨.refl M T, hf⟩
    · obtain ⟨calls, hcalls, hr⟩ := Option.bind_eq_some_iff.1 hr
      obtain ⟨hnamed, rfl, hcall⟩ := onlyDirectCalls_eq hcalls
      have hgood : ∀ (T T' : List Nat) (u : Nat × Op), T ⊆ T' →
          (∀ d, u.2.result = some d → Handed M T u.1 d) →
          ∀ d, u.2.result = some d → Handed M T' u.1 d :=
        fun _ _ _ hsub hu d hd => (hu d hd).mono hsub
      obtain ⟨hs, hall⟩ := foldlM_spread hgood (fun u _ T T' => throughCall_spread ih) hr
      have hf : f ∈ T' := hs.subset List.mem_cons_self
      refine ⟨⟨fun g hg => hs.subset (List.mem_cons_of_mem _ hg), fun g hg => ?_⟩, hf⟩
      rcases hs.passes g hg with hg | hg
      · rcases List.mem_cons.1 hg with rfl | hg
        · exact .inr ⟨hnamed, fun u hu => ⟨hcall u hu, hall u hu⟩⟩
        · exact .inl hg
      · exact .inr hg

/-- The functions the check has come to pass the result on, to each other only. -/
theorem onlyReturned_closed {n : Nat} (hr : onlyReturned M n f [] = some T) :
    f ∈ T ∧ ∀ g ∈ T, Passes M T g := by
  obtain ⟨hs, hf⟩ := onlyReturned_spread hr
  exact ⟨hf, fun g hg => (hs.passes g hg).resolve_left (by simp)⟩

/-! ## Values on their way to a return -/

/-- The functions that pass on what `f` returns: `f` itself, and each that returns what a call of
one of them gave it, as it is or out of a slot. -/
inductive PassesOn (M : Module B) (f : Nat) : Nat → Prop
  | self : PassesOn M f f
  | returned {g h d : Nat} {args : List Nat} :
      PassesOn M f g → .call (some d) (.direct g) args ∈ M.ops h → .ret (some d) ∈ M.ops h →
        PassesOn M f h
  | slot {g h d y e : Nat} {args : List Nat} :
      PassesOn M f g → .call (some d) (.direct g) args ∈ M.ops h → .store d y ∈ M.ops h →
        .load e y ∈ M.ops h → .ret (some e) ∈ M.ops h → PassesOn M f h

/-- The value is what a call of one of the functions returned. -/
def Hot (M : Module B) (f h x : Nat) : Prop :=
  ∃ g, PassesOn M f g ∧ ∃ args, .call (some x) (.direct g) args ∈ M.ops h

/-- The slot is one that such a value is stored to. -/
def Slot (M : Module B) (f h y : Nat) : Prop := ∃ x, Hot M f h x ∧ .store x y ∈ M.ops h

/-- The value is returned by a call, or loaded from a slot that holds such a value. -/
def OnWay (M : Module B) (f h x : Nat) : Prop :=
  Hot M f h x ∨ ∃ y, Slot M f h y ∧ .load x y ∈ M.ops h

/-- The check has come to all functions that pass the result on. -/
theorem passesOn_mem (hT : f ∈ T ∧ ∀ g ∈ T, Passes M T g) (hg : PassesOn M f g) : g ∈ T := by
  have huser : ∀ {g h d args o}, g ∈ T → .call (some d) (.direct g) args ∈ M.ops h → o ∈ M.ops h →
      d ∈ o.operands → h ∈ T := by
    intro g h d args o hg hcall ho hd
    have huse := Module.mem_symbolUses hcall (f := g) (by simp [Instr.symbols])
    obtain ⟨i, hi⟩ := Module.mem_users ho hd
    exact ((((hT.2 g hg).calls _ huse).2 d rfl).users _ hi).1
  induction hg with
  | self => exact hT.1
  | returned _ hcall hret ih => exact huser ih hcall hret (by simp [Instr.operands])
  | slot _ hcall hstore _ _ ih => exact huser ih hcall hstore (by simp [Instr.operands])

theorem castSource_use {w r : Nat} (hw : castSource M h w = some r) :
    ∃ d p, .pure d p [r] ∈ M.ops h := by
  unfold castSource at hw
  split at hw
  case h_4 => cases hw
  all_goals
    next he =>
      cases hw
      exact ⟨_, _, List.mem_of_find?_eq_some he⟩

/-- The uses of a slot that the check lets pass. -/
theorem returnSlot_user {y i : Nat} (hs : returnSlot M h y i = true) {u : Op × Nat}
    (hu : u ∈ M.users h y) : u.2 = i ∨ (∃ x, u.1 = .lifetime x) ∨
      ∃ e a, u.1 = .load e a ∧ returned M h e = true := by
  have hall := List.all_eq_true.1 (Bool.and_eq_true_iff.1 hs).2 u hu
  rcases Bool.or_eq_true_iff.1 hall with hi | hu
  · exact .inl (of_decide_eq_true hi)
  · split at hu
    · next x he => exact .inr (.inl ⟨x, he⟩)
    · next e a he => exact .inr (.inr ⟨e, a, he, hu⟩)
    · cases hu

section OnWay

variable (hT : ∀ g, PassesOn M f g → Passes M T g) {x y : Nat} {o : Op}

include hT

theorem handed_of_hot (hx : Hot M f h x) : Handed M T h x := by
  obtain ⟨g, hg, args, hmem⟩ := hx
  have huse := Module.mem_symbolUses hmem (f := g) (by simp [Instr.symbols])
  exact ((hT g hg).calls _ huse).2 x rfl

/-- A store of such a value is to a slot, itself and not by way of a cast. -/
theorem slot_store (hx : Hot M f h x) {i : Nat} (hi : (M.ops h)[i]? = some (.store x y)) :
    returnSlot M h y i = true := by
  have hmem : (.store x y, i) ∈ M.users h x :=
    List.mem_filter.2 ⟨List.mk_mem_zipIdx_iff_getElem?.2 hi, by simp [Instr.operands]⟩
  obtain ⟨-, ⟨v, hv⟩ | ⟨addr, he, hslot⟩⟩ := (handed_of_hot hT hx).users _ hmem
  · cases hv
  cases he
  have hroot : traceToLocalRoot M h y = y := by
    have hsteps : Steps (castSource M h) y (traceToLocalRoot M h y) := steps_follow _ _
    rcases hsteps.cases_tail with he | ⟨w, -, hw⟩
    · exact he
    -- the last cast is a use of the slot that the check does not let pass
    obtain ⟨d, p, hcast⟩ := castSource_use hw
    obtain ⟨j, hj⟩ :=
      Module.mem_users hcast (x := traceToLocalRoot M h y) (by simp [Instr.operands])
    rcases returnSlot_user hslot hj with rfl | ⟨_, he⟩ | ⟨_, _, he, -⟩
    · have hop := List.mk_mem_zipIdx_iff_getElem?.1 (List.mem_filter.1 hj).1
      rw [hi] at hop
      cases hop
    · cases he
    · cases he
  rwa [hroot] at hslot

theorem slot_facts (hy : Slot M f h y) :
    .alloca y ∈ M.ops h ∧ ∃ i x, Hot M f h x ∧ (M.ops h)[i]? = some (.store x y) ∧
      returnSlot M h y i = true := by
  obtain ⟨x, hx, hmem⟩ := hy
  obtain ⟨i, hi⟩ := List.mem_iff_getElem?.1 hmem
  have hslot := slot_store hT hx hi
  refine ⟨?_, i, x, hx, hi, hslot⟩
  have halloca := (Bool.and_eq_true_iff.1 (Bool.and_eq_true_iff.1 hslot).1).1
  simpa [Module.isAlloca] using halloca

/-- A slot's address is used for the stores of such values, for loads, and in lifetime markers. -/
theorem slot_user (hy : Slot M f h y) (ho : o ∈ M.ops h) (hx : y ∈ o.operands) :
    (∃ x, Hot M f h x ∧ o = .store x y) ∨ (∃ x, o = .lifetime x) ∨
      ∃ e, o = .load e y ∧ returned M h e = true := by
  obtain ⟨-, i, x, hhot, hi, hslot⟩ := slot_facts hT hy
  obtain ⟨j, hj⟩ := Module.mem_users ho hx
  rcases returnSlot_user hslot hj with rfl | hl | ⟨e, a, rfl, hret⟩
  · have hop := List.mk_mem_zipIdx_iff_getElem?.1 (List.mem_filter.1 hj).1
    rw [hi] at hop
    exact .inl ⟨x, hhot, (Option.some.inj hop).symm⟩
  · exact .inr (.inl hl)
  · cases List.mem_singleton.1 hx
    exact .inr (.inr ⟨e, rfl, hret⟩)

/-- What is loaded from a slot goes to returns only. -/
theorem returned_of_load {e : Nat} (hy : Slot M f h y) (he : .load e y ∈ M.ops h) :
    returned M h e = true := by
  rcases slot_user hT hy he (by simp [Instr.operands]) with ⟨_, -, h⟩ | ⟨_, h⟩ | ⟨_, h, hret⟩
  · cases h
  · cases h
  · cases h
    exact hret

/-- A value on its way is returned, or stored to a slot. -/
theorem onWay_user (hx : OnWay M f h x) (ho : o ∈ M.ops h) (hmem : x ∈ o.operands) :
    (∃ v, o = .ret v) ∨ ∃ y, o = .store x y ∧ Slot M f h y := by
  obtain ⟨i, hi⟩ := Module.mem_users ho hmem
  rcases hx with hx | ⟨y, hy, hload⟩
  · obtain ⟨-, hret | ⟨addr, rfl, -⟩⟩ := (handed_of_hot hT hx).users _ hi
    · exact .inl hret
    · exact .inr ⟨addr, rfl, x, hx, ho⟩
  · have hret := (Bool.and_eq_true_iff.1 (returned_of_load hT hy hload)).2
    have hu := List.all_eq_true.1 hret _ hi
    split at hu
    · next v he => exact .inl ⟨v, he⟩
    · cases hu

theorem onWay_tested (hx : OnWay M f h x) : M.tested h x = false := by
  rcases hx with hx | ⟨y, hy, hload⟩
  · exact (handed_of_hot hT hx).tested
  · simpa using (Bool.and_eq_true_iff.1 (returned_of_load hT hy hload)).1

end OnWay

/-- A function with a value on its way is one the pass sees. -/
theorem OnWay.seen {x : Nat} (hx : OnWay M f h x) : ∃ o, o ∈ M.ops h ∧ o.result = some x ∧
    ∀ y, o ≠ .alloca y := by
  rcases hx with ⟨g, -, args, hmem⟩ | ⟨y, -, hmem⟩
  · exact ⟨_, hmem, rfl, by simp⟩
  · exact ⟨_, hmem, rfl, by simp⟩

/-- A function that returns a value on its way passes it on. -/
theorem OnWay.passesOn {x : Nat} (hx : OnWay M f h x) (hret : .ret (some x) ∈ M.ops h) :
    PassesOn M f h := by
  rcases hx with ⟨g, hg, args, hcall⟩ | ⟨y, ⟨d, ⟨g, hg, args, hcall⟩, hstore⟩, hload⟩
  · exact .returned hg hcall hret
  · exact .slot hg hcall hstore hload hret

/-! ## The policy -/

/-- Results on their way may be anything, and so may what their slots contain. -/
def policy (M : Module B) (f : Nat) : Policy where
  own _ _ := False
  sealed := Slot M f
  hid := PassesOn M f
  kept _ _ := False
  free := OnWay M f
  keptIn _ _ := False
  freeIn _ _ := True
  freeResult := PassesOn M f
  passed _ _ := False

section Allows

variable {D : Data Pure Cond V B} (hT : ∀ g, PassesOn M f g → Passes M T g) (hM : M.Faithful D)
  (helse : ∀ g, PassesOn M f g → g ∉ M.elsewhere) {F : Func Pure Cond}
  (hF : M.decls[h]? = some (.body F))
  {o : Op} (ho : o ∈ F.code.ops)

include hT hF ho

theorem onWay_operand {x : Nat} (hx : OnWay M f h x) (hmem : x ∈ o.operands) :
    (∃ v, o = .ret v) ∨ ∃ y, o = .store x y ∧ Slot M f h y := by
  obtain ⟨o', ho', -⟩ := hx.seen
  exact onWay_user hT hx (Module.mem_ops_of_body hF ho' ho) hmem

theorem slot_operand {y : Nat} (hy : Slot M f h y) (hmem : y ∈ o.operands) :
    (∃ x, Hot M f h x ∧ o = .store x y) ∨ (∃ x, o = .lifetime x) ∨
      ∃ e, o = .load e y ∧ returned M h e = true := by
  obtain ⟨ho', -⟩ := slot_facts hT hy
  exact slot_user hT hy (Module.mem_ops_of_body hF ho' ho) hmem

omit ho in
/-- A slot's address is no value on its way. -/
theorem not_onWay_slot {y : Nat} (hy : Slot M f h y) : ¬ OnWay M f h y := by
  intro hx
  obtain ⟨o', ho', hres, hne⟩ := hx.seen
  obtain ⟨halloca, -⟩ := slot_facts hT hy
  have hcode : ∀ {o : Op}, o ∈ M.ops h → o ∈ F.code.ops := by
    intro o ho
    have := Module.mem_code_of_ops ho
    rwa [Module.code_of_body hF] at this
  exact hne y ((F.slots y (hcode halloca)).2 o' (hcode ho') hres)

/-- An operand of an operation that is no return, no store and no load. -/
theorem plain_operand {x : Nat} (hmem : x ∈ o.operands) (hret : ∀ v, o ≠ .ret v)
    (hstore : ∀ v y, o ≠ .store v y) (hload : ∀ e y, o ≠ .load e y) (hlife : ∀ y, o ≠ .lifetime y) :
    ¬ OnWay M f h x ∧ ¬ Slot M f h x := by
  constructor
  · intro hx
    obtain ⟨v, he⟩ | ⟨y, he, -⟩ := onWay_operand hT hF ho hx hmem
    · exact hret v he
    · exact hstore _ _ he
  · intro hy
    rcases slot_operand hT hF ho hy hmem with ⟨_, -, he⟩ | ⟨_, he⟩ | ⟨_, he, -⟩
    · exact hstore _ _ he
    · exact hlife _ he
    · exact hload _ _ he

include hM helse in
/-- Every operation obeys the policy. -/
theorem allows : (policy M f).Allows D M.toProgram h o := by
  cases o with
  | pure d p xs =>
    intro x hx
    obtain ⟨hfree, hslot⟩ :=
      plain_operand hT hF ho (x := x) hx (by simp) (by simp) (by simp) (by simp)
    exact ⟨hfree, hslot, False.elim⟩
  | alloca d => exact False.elim
  | getGlobal d g | lifetime x => trivial
  | getFunc d g =>
    intro hg
    have hsym : g ∈ (Instr.getFunc d g : Op).symbols := by simp [Instr.symbols]
    have huse := Module.mem_symbolUses (hM.mem_ops hF ho hsym (helse g hg)) hsym
    obtain ⟨_, _, _, he⟩ := ((hT g hg).calls _ huse).1
    cases he
  | load d x =>
    refine ⟨fun hx => ?_, fun hs => ⟨fun _ => ?_, False.elim⟩⟩
    · obtain ⟨_, he⟩ | ⟨_, he, -⟩ := onWay_operand hT hF ho hx (by simp [Instr.operands])
      · cases he
      · cases he
    · obtain ⟨ho', -⟩ := slot_facts hT hs
      exact .inr ⟨x, hs, Module.mem_ops_of_body hF ho' ho⟩
  | store v x =>
    refine ⟨fun hx => ?_, fun hs => ?_, False.elim, fun hv => ?_⟩
    · obtain ⟨_, he⟩ | ⟨y, he, hy⟩ := onWay_operand hT hF ho hx (by simp [Instr.operands])
      · cases he
      · cases he
        exact not_onWay_slot hT hF hy hx
    · rcases slot_operand hT hF ho hs (by simp [Instr.operands]) with ⟨y, hy, he⟩ | ⟨_, he⟩ |
        ⟨_, he, -⟩
      · cases he
        exact not_onWay_slot hT hF hs (.inl hy)
      · cases he
      · cases he
    · obtain ⟨_, he⟩ | ⟨y, he, hy⟩ := onWay_operand hT hF ho hv (by simp [Instr.operands])
      · cases he
      · cases he
        exact ⟨hy, trivial⟩
  | call d c xs =>
    have hplain : ∀ x ∈ c.operands ++ xs, ¬ OnWay M f h x ∧ ¬ Slot M f h x := fun x hx =>
      plain_operand hT hF ho hx (by simp) (by simp) (by simp) (by simp)
    refine ⟨fun x hx => hplain x (by simp [hx]), ?_⟩
    cases c with
    | direct g =>
      refine ⟨fun _ _ _ hk => hk.elim, fun hg y hy => ?_, fun _ _ hp => hp.elim⟩
      subst hy
      exact .inl ⟨g, hg, xs, hM.mem_ops hF ho (by simp [Instr.symbols]) (helse g hg)⟩
    | indirect y =>
      obtain ⟨hfree, hslot⟩ := hplain y (by simp [Callee.operands])
      exact ⟨hfree, hslot, id, fun _ _ => id⟩
  | ret v =>
    intro x hx
    subst hx
    refine ⟨fun hs => ?_, id, fun hf => ?_⟩
    · rcases slot_operand hT hF ho hs (by simp [Instr.operands]) with ⟨_, -, he⟩ | ⟨_, he⟩ |
        ⟨_, he, -⟩
      · cases he
      · cases he
      · cases he
    · obtain ⟨_, ho', -⟩ := hf.seen
      exact hf.passesOn (Module.mem_ops_of_body hF ho' ho)

end Allows

variable {D : Data Pure Cond V B}

theorem policy_ok (hT : ∀ g, PassesOn M f g → Passes M T g) (hM : M.Faithful D)
    (helse : ∀ g, PassesOn M f g → g ∉ M.elsewhere) :
    (policy M f).Ok D M.toProgram fun g => g = f where
  instr hF _ ho := allows hT hM helse hF ho
  slot {h F x} hF hx := by
    rcases hx with hx | hx
    · exact hx.elim
    · have hmem := Module.mem_code_of_ops (slot_facts hT hx).1
      rwa [Module.code_of_body hF] at hmem
  hides hg := hg
  passes hp := hp.elim
  opened {g} hg := by
    obtain rfl := of_decide_eq_true hg
    exact .self
  objects ho := hM.objects ho
  funcs hg hmem := (hT _ hmem).named (hM.funcs hg)

theorem policy_blind (hT : ∀ g, PassesOn M f g → Passes M T g) :
    (policy M f).Blind M.toProgram := by
  intro h F hF c hc x hx hway
  obtain ⟨o, ho, -⟩ := hway.seen
  have hl : M.linked h = false := by
    cases hl : M.linked h with
    | false => rfl
    | true => simp [Module.ops, Module.seen, hl, Code.ops] at ho
  have hseen : M.seen h = F.code := by simp [Module.seen, hl, Module.code_of_body hF]
  have htest := onWay_tested hT hway
  simp only [Module.tested, hseen, List.any_eq_false] at htest
  exact htest c hc (by simpa using hx)

/-- **An approximate count decides nothing.** Two executions with the same inputs and schedule, in
which the calls of `f` return what they like, are alike after every step: the threads are at the
same places of the same functions, called with the same arguments, and all memory is the same. They
differ in the values that are on their way to a return, in the slots that hold these, and in what
the functions return that pass them on, of which the program's main function may be one. -/
theorem count_decides_nothing (hr : onlyReturned M 17 f [] = some T)
    (helse : ∀ g, PassesOn M f g → g ∉ M.elsewhere) (hM : M.Faithful D) {args : List V}
    (hargs : ArgsOk D M.toProgram args) {ms ms' : List (Nat × Move V)} (hm : SameMoves ms ms')
    {s : State Pure Cond V B}
    (hrun : run D M.toProgram (fun g => g = f) ms (M.start D args) = some s) :
    ∃ s', run D M.toProgram (fun g => g = f) ms' (M.start D args) = some s' ∧
      Alike (policy M f) s s' := by
  have hT := fun g hg => (onlyReturned_closed hr).2 g (passesOn_mem (onlyReturned_closed hr) hg)
  have hπ := policy_ok hT hM helse
  exact (Alike.refl _ _).run hπ (policy_blind hT) (inv_start hπ hargs) hm hrun

/-! ## Returned through a function and its slot -/

/-- `long counter() { return overruns; }` -/
def counter : Func Pure Cond :=
  .of [] (.prepend [.getGlobal 0 0, .load 1 0, .ret (some 1)] .done) rfl

/-- `long lost() { return counter(); }`, with the return slot the compiler makes. -/
def lost : Func Pure Cond :=
  .of [] (.prepend [.alloca 0, .call (some 1) (.direct 1) [], .store 1 0, .load 2 0, .ret (some 2)]
    .done) rfl

/-- `int main() { return lost(); }` -/
def reporting : Func Pure Cond :=
  .of [] (.prepend [.call (some 0) (.direct 2) [], .ret (some 0)] .done) rfl

def quiet : Module (Nat → Val) where
  decls := [.body reporting, .body counter, .body lost]
  main := 0
  globals := 1
  init _ _ := .int 0
  linked _ := false
  elsewhere := []
  named := []

theorem quiet_faithful : quiet.Faithful words where
  objects := by
    rintro o o' ⟨i, hi⟩
    cases hi
  funcs := by
    rintro o g ⟨i, hi⟩
    cases hi
  elsewhere h := by cases h

/-- The moves of one thread, with the given answer. -/
def steps (n : Nat) (answer : Int) : List (Nat × Move Val) :=
  List.replicate n (0, .run (.int answer) (.int 0))

theorem sameMoves_steps (n : Nat) (i j : Int) : SameMoves (steps n i) (steps n j) := by
  induction n with
  | zero => exact .nil
  | succ n ih => exact .cons ⟨rfl, rfl⟩ ih

/-- The program runs to its end, whatever the count is. -/
theorem count_decides_nothing_example :
    onlyReturned quiet 17 1 [] = some [0, 2, 1] ∧
    ∃ s, run words quiet.toProgram (fun g => g = 1) (steps 16 0) (quiet.start words []) = some s ∧
      s.threads = [[]] ∧
      ∃ s', run words quiet.toProgram (fun g => g = 1) (steps 16 7)
        (quiet.start words []) = some s' ∧
        Alike (policy quiet 1) s s' := by
  have hret : onlyReturned quiet 17 1 [] = some [0, 2, 1] := by decide
  obtain ⟨s, hs, hend⟩ : ∃ s, run words quiet.toProgram (fun g => g = 1) (steps 16 0)
      (quiet.start words []) = some s ∧ s.threads = [[]] := ⟨_, rfl, rfl⟩
  exact ⟨hret, s, hs, hend, count_decides_nothing hret (by simp [quiet]) quiet_faithful
    (by simp [ArgsOk]) (sameMoves_steps 16 0 7) hs⟩

/-! ## Returned to another file -/

/-- `if (lost()) alarm = 1;`, in a file linked with the module. -/
def watch : Func Pure Cond :=
  .of [] (.op (.call (some 0) (.direct 2) [])
    (.node (.ite ⟨.isTrue, [0]⟩)
      (.prepend [.getGlobal 1 1, .pure 2 (.other 1) [], .store 2 1] .done) .done .done .done)) rfl

/-- `int main() { watch(); ... }` -/
def watched : Func Pure Cond :=
  .of [] (.prepend [.call none (.direct 3) [], .lifetime 0, .lifetime 0, .lifetime 0] .done) rfl

def noisy : Module (Nat → Val) where
  decls := [.body watched, .body counter, .body lost, .body watch]
  main := 0
  globals := 2
  init _ _ := .int 0
  linked g := g = 3
  elsewhere := [2]
  named := []

/-- The check accepts the count; then a linked file calls the function that hands it back, and
branches on it. -/
theorem count_decides_elsewhere : onlyReturned noisy 17 1 [] = some [2, 1] ∧
    ∃ ms ms' s s', SameMoves ms ms' ∧
      run words noisy.toProgram (fun g => g = 1) ms (noisy.start words []) = some s ∧
      run words noisy.toProgram (fun g => g = 1) ms' (noisy.start words []) = some s' ∧
      s.mem 1 0 = .int 0 ∧ s'.mem 1 0 = .int 1 := by
  refine ⟨by decide, steps 20 0, steps 20 7, _, _, sameMoves_steps 20 0 7, rfl, rfl, rfl, rfl⟩

end Wtc.OnlyReturned
