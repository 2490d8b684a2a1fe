import Wtc.LocalRing.Model

/-!
# Who reaches a ring

Under a condition on the functions that are handed its address, the ring that a call was passed is
touched by the calling thread alone, from the start of the call to its end (`ring_untouched`). The
check does not look at these functions: one that puts the address in a global gives the ring to
every other thread (`ring_published`).
-/

namespace Wtc.LocalRing

open Wtc.Ir Wtc.Cir Wtc.Control

variable {V B : Type} {M : Module B} {D : Data Pure Cond V B} {f ringParam : Nat}
  {K L : Nat → Nat → Prop}

/-! ## What the check has found -/

/-- A ring is a local, which nothing tests, and all uses of it are of the kinds listed. -/
theorem ring_uses (h : localRing M f ringParam = true) {c r : Nat} (hr : Ring M f ringParam c r) :
    .alloca r ∈ M.ops c ∧ ∀ o ∈ M.ops c, r ∈ o.operands → ringUse M o = true := by
  obtain ⟨d, args, hmem, harg⟩ := hr
  have hall := (Bool.and_eq_true_iff.1 h).2
  have huse := List.all_eq_true.1 hall _ (Module.mem_symbolUses hmem (by simp [Instr.symbols]))
  simp only [harg, Bool.and_eq_true] at huse
  refine ⟨by simpa [Module.isAlloca] using huse.1.1, fun o ho hx => ?_⟩
  obtain ⟨i, hi⟩ := Module.mem_users ho hx
  exact List.all_eq_true.1 huse.2 _ hi

/-- A use of the function's symbol in code the pass sees is a call that passes a ring. -/
theorem symbol_use (h : localRing M f ringParam = true) {c : Nat} {o : Op} (ho : o ∈ M.ops c)
    (hf : f ∈ o.symbols) :
    ∃ d args r, o = .call d (.direct f) args ∧ args[ringParam]? = some r := by
  have hall := (Bool.and_eq_true_iff.1 h).2
  have huse := List.all_eq_true.1 hall _ (Module.mem_symbolUses ho hf)
  cases o with
  | call d callee args =>
    cases callee with
    | direct g =>
      cases List.mem_singleton.1 hf
      cases hr : args[ringParam]? with
      | none => simp [hr] at huse
      | some r => exact ⟨d, args, r, rfl, hr⟩
    | indirect y => cases hf
  | _ => simp at huse

/-! ## The policy -/

/-- Rings are guarded, and the values that may hold their addresses are those in `K`. -/
def policy (M : Module B) (f ringParam : Nat) (K L : Nat → Nat → Prop) : Policy where
  own := Ring M f ringParam
  sealed := L
  hid g := g = f
  kept h x := K h x ∨ Ring M f ringParam h x
  free _ _ := False
  keptIn _ _ := True
  freeIn _ _ := False
  freeResult _ := False
  passed g i := g = f ∧ i = ringParam

theorem welcomes_of_takes {g i : Nat} (h : Takes M K g i) :
    (policy M f ringParam K L).Welcomes M.toProgram g i := by
  unfold Takes at h
  unfold Policy.Welcomes
  split at h <;> simp only [*]
  exact fun y hy => .inl (h y hy)

section Allows

variable (haccept : localRing M f ringParam = true) (hconf : Confined M D f ringParam K L)
  (hM : M.Faithful D) {h : Nat} {F : Func Pure Cond} (hF : M.decls[h]? = some (.body F)) {o : Op}
  (ho : o ∈ F.code.ops)

include hF ho in
/-- A function that passes a ring is one the pass sees. -/
theorem mem_ops_of_ring {r : Nat} (hr : Ring M f ringParam h r) : o ∈ M.ops h := by
  obtain ⟨d, args, hmem, -⟩ := hr
  exact Module.mem_ops_of_body hF hmem ho

include haccept hF ho in
/-- An operation that has a ring for an operand. -/
theorem ringUse_of_operand {r : Nat} (hr : Ring M f ringParam h r) (hx : r ∈ o.operands) :
    ringUse M o = true :=
  (ring_uses haccept hr).2 o (mem_ops_of_ring hF ho hr) hx

include haccept hconf hM hF ho in
theorem allows_call {d : Option Nat} {c : Callee} {xs : List Nat} (he : o = .call d c xs) :
    (policy M f ringParam K L).Allows D M.toProgram h (.call d c xs) := by
  subst he
  have hret := hconf.retains (h := h) _ (by rwa [Module.code_of_body hF])
  have hring : ∀ {r}, Ring M f ringParam h r → r ∈ c.operands ++ xs →
      ringUse M (.call d c xs) = true := fun hr hx => ringUse_of_operand haccept hF ho hr hx
  cases c with
  | direct g =>
    refine ⟨fun x hx => ⟨id, ?_⟩, fun i x hi hk => welcomes_of_takes ?_, fun hr => hr.elim, ?_⟩
    · obtain ⟨i, hi⟩ := List.mem_iff_getElem?.1 hx
      exact (hret i x hi).1
    · rcases hk with hk | hr
      · exact (hret i x hi).2 hk
      · exact hconf.handed hr (mem_ops_of_ring hF ho hr) i hi
    · rintro i x ⟨rfl, rfl⟩ hi
      exact ⟨d, xs, hM.mem_ops hF ho (by simp [Instr.symbols]) hconf.unnamed, hi⟩
  | indirect y =>
    refine ⟨fun x hx => ⟨id, (hret.2.2 x hx).1⟩, id, hret.1, ?_, fun x hx => ?_⟩
    · rintro (hk | hr)
      · exact hret.2.1 hk
      · cases hring hr (by simp [Callee.operands])
    · rintro (hk | hr)
      · exact (hret.2.2 x hx).2 hk
      · cases hring hr (by simp [hx])

include haccept hconf hM hF ho in
/-- Every operation obeys the policy. -/
theorem allows : (policy M f ringParam K L).Allows D M.toProgram h o := by
  have hret := hconf.retains (h := h) o (by rwa [Module.code_of_body hF])
  have hring : ∀ {r}, Ring M f ringParam h r → r ∈ o.operands → ringUse M o = true :=
    fun hr hx => ringUse_of_operand haccept hF ho hr hx
  cases o with
  | pure d p xs =>
    intro x hx
    refine ⟨id, (hret x hx).1, ?_⟩
    rintro (hk | hr)
    · exact ((hret x hx).2 hk).imp_left .inl
    · cases p with
      | getMember i => exact .inl (.inl (hconf.member hr (mem_ops_of_ring hF ho hr) hx))
      | _ => cases hring hr hx
  | alloca d =>
    intro hr
    refine ⟨.inr hr, fun hL => ?_⟩
    obtain ⟨e, args, hmem, harg⟩ := hr
    exact (hconf.retains _ (Module.mem_code_of_ops hmem) ringParam d harg).1 hL
  | getGlobal d g | lifetime x => trivial
  | getFunc d g =>
    rintro rfl
    have hsym : g ∈ (Instr.getFunc d g : Op).symbols := by simp [Instr.symbols]
    obtain ⟨_, _, _, he, -⟩ := symbol_use haccept (hM.mem_ops hF ho hsym hconf.unnamed) hsym
    cases he
  | load d x => exact ⟨id, fun hL => ⟨False.elim, fun _ => .inl (hret hL)⟩⟩
  | store v x =>
    refine ⟨id, hret.1, ?_, False.elim⟩
    rintro (hk | hr)
    · exact ⟨hret.2 hk, trivial⟩
    · cases hring hr (by simp [Instr.operands])
  | call d c xs => exact allows_call haccept hconf hM hF ho rfl
  | ret v =>
    intro x hx
    refine ⟨(hret x hx).1, ?_, False.elim⟩
    rintro (hk | hr)
    · exact (hret x hx).2 hk
    · cases hring hr (by simp [Instr.operands, hx])

end Allows

theorem policy_ok (haccept : localRing M f ringParam = true) (hconf : Confined M D f ringParam K L)
    (hM : M.Faithful D) : (policy M f ringParam K L).Ok D M.toProgram fun _ => false where
  instr hF _ ho := allows haccept hconf hM hF ho
  slot {h F x} hF hx := by
    rcases hx with hr | hL
    · have hmem := Module.mem_code_of_ops (ring_uses haccept hr).1
      rwa [Module.code_of_body hF] at hmem
    · have hmem := hconf.slots hL
      rwa [Module.code_of_body hF] at hmem
  hides h := h.elim
  passes h := h.1
  opened h := by cases h
  objects h := hM.objects h
  funcs {o g} h := by
    rintro rfl
    have hnamed := (Bool.and_eq_true_iff.1 haccept).1
    simp [hM.funcs h] at hnamed

/-! ## Rings in executions -/

/-- **A batch's ring belongs to its caller.** -/
theorem ring_untouched (haccept : localRing M f ringParam = true)
    (hconf : Confined M D f ringParam K L) (hM : M.Faithful D) {args : List V}
    (hargs : ArgsOk D M.toProgram args) {ms : List (Nat × Move V)} {s : State Pure Cond V B}
    (hr : run D M.toProgram (fun _ => false) ms (M.start D args) = some s) {t u o : Nat}
    (hcall : InCall D s f ringParam t o) {m : Move V} {stack : List (Layer Pure Cond V)}
    (hu : s.threads[u]? = some stack) {e : Effect Pure Cond V B}
    (he : effect D M.toProgram s (fun _ => false) m stack = some e)
    (ho : touches D m stack = some o) : u = t := by
  have hπ := policy_ok haccept hconf hM
  have hinv := (inv_start hπ hargs).run hπ hr
  obtain ⟨above, a, caller, below, ht, hf, v, i, hv, htarget⟩ := hcall.call
  obtain ⟨hown, w, hw, rfl⟩ := hinv.passed hπ ht ⟨hf, rfl⟩ hv htarget
  obtain ⟨w', hw', rfl⟩ := hinv.touches hπ hu he ho hown
  rw [hw] at hw'
  cases hw'
  rfl

/-! ## A callee that keeps the ring to itself -/

/-- `int batch(ring *r) { ... r->in ... }` -/
def batch : Func Pure Cond := .of [0] (.prepend [.pure 1 (.getMember 1) [0], .load 2 1] .done) rfl

/-- `void clear(ring *p) { ring *q = p; q->in = 0; }` -/
def clear : Func Pure Cond :=
  .of [0] (.prepend [.alloca 1, .store 0 1, .load 2 1, .pure 3 (.getMember 1) [2],
    .pure 4 (.other 0) [], .store 4 3] .done) rfl

/-- `int main() { ring r; clear(&r); batch(&r); }` -/
def clearing : Func Pure Cond :=
  .of [] (.prepend [.alloca 0, .call none (.direct 1) [0], .call none (.direct 2) [0]] .done) rfl

def calm : Module (Nat → Val) where
  decls := [.body clearing, .body clear, .body batch]
  main := 0
  globals := 0
  init _ _ := .int 0
  linked _ := false
  elsewhere := []
  named := []

/-- The values of `calm` that hold the ring's address or a member's. -/
def calmKept (h x : Nat) : Prop := (h, x) ∈ [(1, 0), (1, 2), (1, 3), (2, 0), (2, 1)]

theorem calm_ops {h : Nat} {o : Op} (ho : o ∈ calm.ops h) :
    h = 0 ∧ o ∈ clearing.code.ops ∨ h = 1 ∧ o ∈ clear.code.ops ∨ h = 2 ∧ o ∈ batch.code.ops := by
  rcases h with _ | _ | _ | h
  · exact .inl ⟨rfl, ho⟩
  · exact .inr (.inl ⟨rfl, ho⟩)
  · exact .inr (.inr ⟨rfl, ho⟩)
  · cases ho

theorem calm_ring {h r : Nat} (hr : Ring calm 2 0 h r) : h = 0 ∧ r = 0 := by
  obtain ⟨d, args, hmem, harg⟩ := hr
  rcases calm_ops hmem with ⟨rfl, ho⟩ | ⟨rfl, ho⟩ | ⟨rfl, ho⟩
  · simp [clearing, Func.of, Code.prepend, Code.ops] at ho
    obtain ⟨-, rfl⟩ := ho
    simpa using harg.symm
  · simp [clear, Func.of, Code.prepend, Code.ops] at ho
  · simp [batch, Func.of, Code.prepend, Code.ops] at ho

theorem calm_confined :
    Confined calm words 2 0 calmKept fun h x => h = 1 ∧ x = 1 where
  unnamed := by simp [calm]
  handed {h r} hr {d g xs} ho i hi := by
    obtain ⟨rfl, rfl⟩ := calm_ring hr
    rcases calm_ops ho with ⟨-, ho⟩ | ⟨h, -⟩ | ⟨h, -⟩
    · simp [clearing, Func.of, Code.prepend, Code.ops] at ho
      obtain ⟨rfl, rfl⟩ : i = 0 ∧ xs = [0] := by
        rcases ho with ⟨-, -, rfl⟩ | ⟨-, -, rfl⟩ <;> simpa [List.getElem?_singleton] using hi
      rcases ho with ⟨-, rfl, -⟩ | ⟨-, rfl, -⟩ <;>
        simp [Takes, calm, clear, batch, Func.of, calmKept]
    · cases h
    · cases h
  member {h r} hr {d i xs} ho hx := by
    obtain ⟨rfl, rfl⟩ := calm_ring hr
    rcases calm_ops ho with ⟨-, ho⟩ | ⟨h, -⟩ | ⟨h, -⟩
    · simp [clearing, Func.of, Code.prepend, Code.ops] at ho
    · cases h
    · cases h
  retains {h} o hmem := by
    rcases calm_ops hmem with ⟨rfl, ho⟩ | ⟨rfl, ho⟩ | ⟨rfl, ho⟩
    · simp [clearing, Func.of, Code.prepend, Code.ops] at ho
      rcases ho with rfl | rfl | rfl <;> simp [Retains, calmKept, List.getElem?_eq_some_iff]
    · simp [clear, Func.of, Code.prepend, Code.ops] at ho
      rcases ho with rfl | rfl | rfl | rfl | rfl | rfl <;> simp [Retains, calmKept]
    · simp [batch, Func.of, Code.prepend, Code.ops] at ho
      rcases ho with rfl | rfl <;> simp [Retains, calmKept]
  slots {h x} hx := by
    obtain ⟨rfl, rfl⟩ := hx
    decide

/-- The batch of `calm` is about to read its ring. -/
theorem calm_reads : ∃ s,
    run words calm.toProgram (fun _ => false) (List.replicate 12 (0, .run (.int 0) (.int 0)))
      (calm.start words []) = some s ∧ InCall words s 2 0 0 0 ∧
    (s.threads[0]?.bind fun stack => touches words (.run (.int 0) (.int 0)) stack) = some 0 :=
  ⟨_, rfl, ⟨[], _, _, [], rfl, rfl, _, _, rfl, rfl⟩, rfl⟩

theorem calm_faithful : calm.Faithful words where
  objects := by
    rintro o o' ⟨i, hi⟩
    cases hi
  funcs := by
    rintro o g ⟨i, hi⟩
    cases hi
  elsewhere h := by cases h

theorem ring_untouched_example : ∃ ms s,
    run words calm.toProgram (fun _ => false) ms (calm.start words []) = some s ∧
    InCall words s 2 0 0 0 ∧
    (s.threads[0]?.bind fun stack => touches words (.run (.int 0) (.int 0)) stack) = some 0 ∧
    ∀ u stack m e, s.threads[u]? = some stack →
      effect words calm.toProgram s (fun _ => false) m stack = some e →
      touches words m stack = some 0 → u = 0 := by
  obtain ⟨s, hs, hcall, hread⟩ := calm_reads
  exact ⟨_, s, hs, hcall, hread, fun u stack m e hu he ho =>
    ring_untouched (by decide) calm_confined calm_faithful (by simp [ArgsOk]) hs hcall hu he ho⟩

/-! ## A callee that publishes the ring -/

/-- `void publish(ring *p) { shared = p; }` -/
def publish : Func Pure Cond := .of [0] (.prepend [.getGlobal 1 0, .store 0 1] .done) rfl

/-- `void worker() { ... shared->data ... }` -/
def worker : Func Pure Cond :=
  .of [] (.prepend [.getGlobal 0 0, .load 1 0, .load 2 1] .done) rfl

/-- `int main() { ring r; publish(&r); rte_eal_remote_launch(worker); batch(&r); }` -/
def publishing : Func Pure Cond :=
  .of [] (.prepend [.alloca 0, .call none (.direct 1) [0], .getFunc 1 3,
    .call none (.direct 4) [1], .call none (.direct 2) [0]] .done) rfl

def racy : Module (Nat → Val) where
  decls := [.body publishing, .body publish, .body batch, .body worker, .spawn 0]
  main := 0
  globals := 1
  init _ _ := .int 0
  linked _ := false
  elsewhere := []
  named := []

/-- The check accepts the batch; then another thread reads its ring during the call. -/
theorem ring_published : localRing racy 2 0 = true ∧ ∃ ms s,
    run words racy.toProgram (fun _ => false) ms (racy.start words []) = some s ∧
    InCall words s 2 0 0 1 ∧ ∃ stack m e, s.threads[1]? = some stack ∧
      effect words racy.toProgram s (fun _ => false) m stack = some e ∧
      touches words m stack = some 1 := by
  refine ⟨by decide, List.replicate 9 (0, .run (.int 0) (.int 0)) ++
    List.replicate 2 (1, .run (.int 0) (.int 0)), _, rfl, ⟨[], _, _, [], rfl, rfl, _, _, rfl, rfl⟩,
    _, .run (.int 0) (.int 0), _, rfl, rfl, rfl⟩

end Wtc.LocalRing
