import Wtc.BatchPushes.Simulation

/-!
# Batched pushes

* `batched_pushes_deliver`: every run of a rewritten loop has a run of the original that hands over
  the same elements in the same order, with all the rest that the loop does; fewer than
  `WTC_BATCH_K` are held back between pushes, and none past the loop, which is left once, through
  `batch_end`; and nothing that may wait is run while any is held back. All this if the element type
  is fit for it.
* `copy_waits`: without that it fails: `check` does not look at the functions of the element type.
-/

namespace Wtc.BatchPushes

open Wtc.Control

variable {F C Mem V : Type} {S : Setting Mem V F C} {l : Loop (Op F) C} {p : Push F} {q c₀ : Nat}
  {c c' d d' : Config Mem V F C} {es es' tr : List (Event Mem V F C)}
  {k k' k₁ v w fs : List (Frame (Op F) C)} {x y : Local Mem V} {o : Op F} {b : Bool}

variable {ph : Phase}

/-! ## Waiting -/

/-- An operation on a queue does not wait. -/
theorem not_mayWait_wtc {a : WtcOp F} (hreg : S.module.registration = none)
    (ho : dialect o = some a) (ha : a ≠ .other) : ¬ MayWait S.module o := by
  simp [MayWait, tag_of_dialect ho, hreg]

/-- What comes next in the loop may wait only if each element is published by itself. -/
theorem Running.mayWait (hreg : S.module.registration = none) (hk : Running S p k)
    (hn : Control.next (k.map (·.subst rewriteOp)) = .op o k₁) (hw : MayWait S.module o) :
    S.K = 1 := by
  have hafter := hk.next
  cases hn' : Control.next k with
  | op o' k' =>
    rw [hn'] at hafter
    obtain ⟨ho | ho | ho, -⟩ := hafter
    · rw [next_subst_op hn' (rewriteOp_push ho)] at hn
      cases hn
      exact absurd hw (not_mayWait_wtc (a := .pushDeferred p) hreg rfl (by simp))
    · rw [next_subst_op hn' (rewriteOp_made ho)] at hn
      cases hn
      exact absurd hw (not_mayWait_wtc (a := .made p true) hreg rfl (by simp))
    · rw [next_subst_op hn' (rewriteOp_of_dialect ho.not_wtc)] at hn
      cases hn
      obtain ⟨cl, hkept⟩ := ho.kept
      by_contra hK
      exact (hkept.1.2 hK).not_mayWait hreg ho.not_wtc hw
  | _ =>
    rw [next_subst (by simp [hn']), hn'] at hn
    cases hn

/-- Nothing that comes next in `push_run` may wait. -/
theorem Flushing.not_mayWait {run : List V} (hreg : S.module.registration = none)
    (hf : Flushing (Moved S) p run w) (hne : w ≠ []) (hn : Control.next (w ++ v) = .op o k₁) :
    ¬ MayWait S.module o := by
  have hstep := hf.next (v := v) hne
  rw [hn] at hstep
  rcases hstep with ⟨ho, -⟩ | ⟨⟨n, ho⟩ | ⟨n, j, ho⟩, -⟩
  · exact ho.1.1.not_mayWait hreg (Moved.not_wtc ho)
  · exact not_mayWait_wtc hreg ho (by simp)
  · exact not_mayWait_wtc hreg ho (by simp)

theorem Open.held_eq_nil {n : Nat} (hK : S.K = 1) (ho : Open S.K S.inPlace q 0 n x) :
    x.held S.inPlace q = [] := by
  have := ho.lt
  have := ho.held_le
  exact List.length_eq_zero_iff.1 (by omega)

/-- What may wait is run with nothing held back. -/
theorem Stacks.held_of_mayWait (hreg : S.module.registration = none)
    (hk : Stacks S l p q 0 x ph k k') (hn : next k = .op o k₁) (hw : MayWait S.module o) :
    x.held S.inPlace q = [] := by
  -- in the loop, where nothing is being moved
  have hloop : ∀ {stack n}, Goes S p stack → Open S.K S.inPlace q 0 n x →
      next (stack.map (·.subst rewriteOp) ++ [ending p]) = .op o k₁ → x.held S.inPlace q = [] := by
    rintro stack n (rfl | hk) ho hn
    · cases hn
      exact absurd hw (not_mayWait_wtc (a := .queueBatchEnd p) hreg rfl (by simp))
    · rw [(next_rewritten hk).1] at hn
      cases hn' : next (stack.map (·.subst rewriteOp)) with
      | op o' k₂ =>
        rw [hn'] at hn
        cases hn
        exact ho.held_eq_nil (hk.mayWait hreg hn' hw)
      | _ =>
        rw [hn'] at hn
        cases hn
  cases hk with
  | entered =>
    cases hn
    exact absurd hw (not_mayWait_wtc (a := .queueBatchBegin p) hreg rfl (by simp))
  | begun =>
    rw [next_code] at hn
    cases hn
  | running ho hk => exact hloop hk ho hn
  | @moving above stack hmov hf hk =>
    by_cases hne : above = []
    · subst hne
      exact hloop hk (hmov.open hf.nil) hn
    · exact absurd hw (hf.not_mayWait hreg hne hn)
  | @closing above hmov hf =>
    by_cases hne : above = []
    · subst hne
      simp [Local.held, hmov.side, hf.nil]
    · exact absurd hw (hf.not_mayWait hreg hne hn)
  | published hx | ended hx | past hx => exact hx

/-! ## The pass -/

theorem Stacks.of_nil (hk : Stacks S l p q c₀ x ph k k') (hn : k = []) :
    ph = .after ∧ k' = [] ∧ x.held S.inPlace q = [] := by
  cases hk with
  | past hx => exact ⟨rfl, rfl, hx⟩
  | running | moving | closing | ended => simp at hn
  | _ => cases hn

theorem Stacks.ne_exit (hk : Stacks S l p q c₀ x ph k k') (e : Exit) : k ≠ [.exit e] := by
  have hblock : k = [] ∨ ∃ b, .block b ∈ k := by
    cases hk with
    | past => exact .inl rfl
    | running | moving => exact .inr ⟨.op (own (.queueBatchEnd p)) .done, by simp [ending]⟩
    | closing => exact .inr ⟨.done, by simp⟩
    | ended => exact .inr ⟨.done, by simp⟩
    | entered | begun | published => exact .inr ⟨_, List.mem_cons_self⟩
  rintro rfl
  rcases hblock with h | ⟨b, h⟩ <;> simp at h

/-- Between two pushes fewer than `K` are held back. -/
theorem Stacks.held_le (hK : 0 < S.K) (hk : Stacks S l p q c₀ x ph k k') (hin : inPush k = false) :
    (x.held S.inPlace q).length ≤ S.K - 1 + c₀ := by
  have hopen : ∀ {n}, Open S.K S.inPlace q c₀ n x →
      (x.held S.inPlace q).length ≤ S.K - 1 + c₀ := by
    intro n ho
    have := ho.lt
    have := ho.held_le
    omega
  -- elements are left in the run only while a push is under way
  have hrun : ∀ {v w}, Moving S.K S.inPlace q x → Flushing (Moved S) p x.run w → k = w ++ v →
      (x.held S.inPlace q).length ≤ S.K - 1 + c₀ := by
    rintro v w hmov hf rfl
    by_cases hne : x.run = []
    · simp [Local.held, hmov.side, hne]
    · rw [hf.inPush hne] at hin
      cases hin
  cases hk with
  | entered _ hx => omega
  | begun ho => exact hopen ho
  | running ho _ => exact hopen ho
  | moving hmov hf _ => exact hrun hmov hf rfl
  | closing hmov hf => exact hrun hmov hf rfl
  | published hx | ended hx | past hx => simp [hx]

/-- **Batched pushes deliver the same stream.** For a loop that the pass accepts, and an element
type that is fit for it: every run of the rewritten loop, from its entry, has a run of the original
in which the loop does the same in the same order, the same elements are handed over among it, and
each queue has been given the same; `batch_begin`, the pushes and `batch_end` are all of one queue;
between two pushes at most `WTC_BATCH_K - 1` elements of the loop are held back; the loop is left
with nothing held back, after one `batch_begin` and one `batch_end`, and in no other way; and what
may wait for another thread is run only with nothing held back. -/
theorem batched_pushes_deliver [DecidableEq F] [Fintype F] (hK : 1 ≤ S.K) (hp : pushOf l = some p)
    (hcheck : ∃ st, Asked S.module st ∧ (check S.module l st).1 = none) {x : Local Mem V}
    (hfit : Fit S (p.queue.eval x.env) p) (hr : Runs S (entry x (rewrite l p)) tr c) :
    (∃ tr' d, Runs S (entry x (l.code .done)) tr' d ∧
      tr'.filter Event.visible = tr.filter Event.visible ∧ d.here.mem = c.here.mem ∧
      (c.stack = [] → d.stack = []) ∧ ∀ r, d.here.given S.inPlace (p.queue.eval x.env) r =
        c.here.given S.inPlace (p.queue.eval x.env) r) ∧
    (∀ r, c.here.given S.inPlace (p.queue.eval x.env) r =
      (entry x (rewrite l p)).here.given S.inPlace (p.queue.eval x.env) r ++
        tr.filterMap (Event.handedTo r)) ∧
    (∀ e ∈ tr, ∀ r, e.queue? = some r → r = p.queue.eval x.env) ∧
    (inPush c.stack = false → (c.here.held S.inPlace (p.queue.eval x.env)).length ≤
      S.K - 1 + ((entry x (rewrite l p)).here.held S.inPlace (p.queue.eval x.env)).length) ∧
    (c.stack = [] → c.here.held S.inPlace (p.queue.eval x.env) = [] ∧
      tr.countP isBegun = 1 ∧ tr.countP isClosed = 1) ∧
    (∀ e, c.stack ≠ [.exit e]) ∧
    ((entry x (rewrite l p)).here.held S.inPlace (p.queue.eval x.env) = [] →
      ∀ o k, next c.stack = .op o k → MayWait S.module o →
        c.here.held S.inPlace (p.queue.eval x.env) = []) := by
  obtain ⟨st, hst, hn⟩ := hcheck
  obtain ⟨p', hp', hacc⟩ := accepted_of_check hst.idle hn
  rw [hp] at hp'
  cases hp'
  obtain ⟨tr', d, ph, hr', hvis, hm, hb, hc, hq, hg⟩ := simulates hK hacc hfit hr
  refine ⟨⟨tr', d, hr', hvis, hm.mem, fun h => (hm.stack.of_nil h).2.1, hm.given⟩, fun r => ?_, hq,
    hm.stack.held_le hK, fun h => ?_, hm.stack.ne_exit, fun hnil o k hnext hw => ?_⟩
  · rw [← hm.given r, hg r]
    rfl
  · obtain ⟨rfl, -, hheld⟩ := hm.stack.of_nil h
    simp only [Phase.begun, Phase.closed, Nat.zero_add] at hb hc
    exact ⟨hheld, hb, hc⟩
  · have hstack := hm.stack
    rw [hnil] at hstack
    exact hstack.held_of_mayWait hacc.registration hnext hw

/-! ## An element whose copy waits -/

/-- What the copy does: it reads an atomic, as to wait for its writer if `waits`. -/
def readOp (waits : Bool) : Op Unit := ⟨"", .other, .cir "cir.load" waits none⟩

/-- One function, the copy of the element type, and queues that keep a run beside them. -/
def copying (waits : Bool) : Setting Unit Unit Unit Unit where
  module :=
    { query := ⟨fun _ => ⟨"copy", [readOp waits], true, false, none⟩, [], fun _ => none, by simp,
        fun _ => false⟩
      body := fun _ => .op (readOp waits) .done
      ops_eq := fun _ => rfl
      registration := none }
  meaning := ⟨fun _ _ _ _ => True, fun _ _ _ => True, fun _ _ _ => True⟩
  value _ _ := ()
  inPlace _ := false
  K := 64

/-- A push to a global queue, which calls the copy; elements are moved by no function. -/
def copyingPush : Push Unit :=
  ⟨⟨0, some 0⟩, 0, false, ⟨.call ⟨some (), [], [], true⟩, .other, .other, .other⟩⟩

/-- `while (c) q.push(v);`. -/
def pushLoop : Loop (Op Unit) Unit := ⟨true, (), .done, .op (own (.push copyingPush)) .done, .done⟩

def emptyQueues : Local Unit Unit := ⟨(), fun _ => 0, fun _ => [], fun _ => [], [], none⟩

theorem pushLoop_accepted (waits : Bool) :
    ∃ st, Asked (copying waits).module st ∧ (check (copying waits).module pushLoop st).1 = none :=
  ⟨_, .init, by cases waits <;> rfl⟩

/-- The first element has been handed over and the second is being copied. -/
theorem pushLoop_second (waits : Bool) : ∃ tr k c,
    Runs (copying waits) (entry emptyQueues (rewrite pushLoop copyingPush)) tr c ∧
    next c.stack = .op (readOp waits) k ∧ c.here.held (copying waits).inPlace 0 = [()] := by
  have hcall : () ∈ (⟨some (), [], [], true⟩ : BlockingQuery.Call Unit).targets
    (copying waits).module.query := List.mem_singleton.2 rfl
  have hact : (copying waits).meaning.act (readOp waits) () () 0 := trivial
  have hkind : ∀ c, (readOp waits).kind ≠ .call c := by simp [readOp]
  have h₀ : Runs (copying waits) (entry emptyQueues (rewrite pushLoop copyingPush)) [] _ := .refl
  have h₁ := h₀.step (.op rfl (.batchBegin rfl rfl))
  have h₂ := h₁.step (.tau rfl)
  have h₃ := h₂.step (.tau rfl)
  have h₄ := h₃.step (.test (n := 1) rfl trivial)
  -- the first push: begun, the element copied, handed over
  have h₅ := h₄.step (.op rfl (.pushDeferred rfl))
  have h₆ := h₅.step (.op rfl (.ran (.call (y := 0) rfl rfl hcall rfl)))
  have h₇ := h₆.step (.op rfl (.ran (.act rfl hkind hact)))
  have h₈ := h₇.trans (pops _ _)
  have h₉ := h₈.step (.op rfl (.madeDeferred rfl rfl rfl))
  have h₁₀ := h₉.trans (pops _ _)
  have h₁₁ := h₁₀.step (.tau rfl)
  have h₁₂ := h₁₁.step (.tau rfl)
  have h₁₃ := h₁₂.step (.tau rfl)
  have h₁₄ := h₁₃.step (.tau rfl)
  have h₁₅ := h₁₄.step (.tau rfl)
  have h₁₆ := h₁₅.step (.test (n := 1) rfl trivial)
  have h₁₇ := h₁₆.step (.op rfl (.pushDeferred rfl))
  have h₁₈ := h₁₇.step (.op rfl (.ran (.call (y := 0) rfl rfl hcall rfl)))
  exact ⟨_, _, _, h₁₈, rfl, rfl⟩

/-- **A copy that waits**: the pass accepts the loop, and its thread comes to wait in the copy of
the second element with the first held back. -/
theorem copy_waits :
    (∃ st, Asked (copying true).module st ∧ (check (copying true).module pushLoop st).1 = none) ∧
    ∃ tr c o k, Runs (copying true) (entry emptyQueues (rewrite pushLoop copyingPush)) tr c ∧
      next c.stack = .op o k ∧ MayWait (copying true).module o ∧
      c.here.held (copying true).inPlace 0 = [()] := by
  obtain ⟨tr, k, c, hr, hn, hheld⟩ := pushLoop_second true
  exact ⟨pushLoop_accepted true, tr, c, _, k, hr, hn, .inl rfl, hheld⟩

theorem clear_other (b : Bool) : Clear (copying false).module b (runs .other) := by
  rintro (h | h) <;> cases h

theorem copying_returns : Returns (copying false) (runs .other) := by
  intro x rest k hk
  have hkind : ∀ c, (runs (.other : BlockingQuery.OpKind Unit)).kind ≠ .call c := by simp [runs]
  refine ⟨_, .one (.op rfl (.ran (.act (y := 0) rfl hkind trivial))), fun e he => ?_⟩
  obtain ⟨f, -, rfl⟩ := List.mem_map.1 he
  have hcall : inCallee (.block (.op (runs .other) rest) :: k) = inCallee k := rfl
  simp [Event.visible, hcall, hk]

theorem copying_fit :
    Fit (copying false) (copyingPush.queue.eval emptyQueues.env) copyingPush := by
  have hread : Clear (copying false).module true (readOp false) := by rintro (h | h) <;> cases h
  have hbody : ∀ f, ∀ o ∈ ((copying false).module.body f).ops, o = readOp false :=
    fun _ _ ho => List.mem_singleton.1 ho
  refine ⟨Clear.kept ⟨?_, fun t _ g _ o ho => hbody g o ho ▸ hread⟩, fun _ k hk => ?_,
    fun _ k hk => ?_⟩
  · rintro (h | h | ⟨t, -, hout, -⟩)
    · cases h
    · cases h.1
    · cases hout
  · have hother : k = .other := by simpa [copyingPush] using hk
    subst hother
    refine ⟨⟨clear_other true, fun _ => rfl⟩, fun t ht => ?_⟩
    obtain ⟨c, hc, -⟩ := ht
    cases hc
  · have hother : k = .other := by simpa [copyingPush] using hk
    subst hother
    exact copying_returns

/-- With a copy that does not wait, the same run has its run of the original. -/
theorem pushLoop_delivers : ∃ tr c,
    Runs (copying false) (entry emptyQueues (rewrite pushLoop copyingPush)) tr c ∧
    c.here.held (copying false).inPlace 0 = [()] ∧
    ∃ tr' d, Runs (copying false) (entry emptyQueues (pushLoop.code .done)) tr' d ∧
      tr'.filter Event.visible = tr.filter Event.visible := by
  obtain ⟨tr, k, c, hr, -, hheld⟩ := pushLoop_second false
  obtain ⟨⟨tr', d, hr', hvis, -⟩, -⟩ :=
    batched_pushes_deliver (by decide) rfl (pushLoop_accepted false) copying_fit hr
  exact ⟨tr, c, hr, hheld, tr', d, hr', hvis⟩

end Wtc.BatchPushes
