import Wtc.BatchPushes.Moves

/-!
# The rewritten loop and the original

The original is a step or several ahead of the rewritten loop in nothing but what it has made
visible: when an element is handed over, the original makes its whole push, and the rewritten loop
puts the element to those held back (`made_step`). While the rewritten loop publishes, the original
waits for it (`Answered.alone`). Each step of the rewritten loop is so matched (`matched_step`), and
each run (`simulates`).
-/

namespace Wtc.BatchPushes

open Wtc.Control

variable {F C Mem V : Type} {S : Setting Mem V F C} {l : Loop (Op F) C} {p : Push F} {q c₀ : Nat}
  {c c' d d' : Config Mem V F C} {es es' tr : List (Event Mem V F C)}
  {k k' k₁ v w fs : List (Frame (Op F) C)} {x y : Local Mem V} {o : Op F} {b : Bool}

/-! ## Matching configurations -/

inductive Phase where
  | before
  | during
  | after
  deriving DecidableEq, Repr

def Phase.begun : Phase → Nat
  | .before => 0
  | _ => 1

def Phase.closed : Phase → Nat
  | .after => 1
  | _ => 0

/-- What is below the loop on the stack of the rewritten loop. -/
def ending (p : Push F) : Frame (Op F) C := .block (.op (own (.queueBatchEnd p)) .done)

/-- What is left of `batch_end` once the batch is published. -/
def closing (p : Push F) : Frame (Op F) C := .block (.op (own (.close p)) .done)

/-- The stacks of the rewritten loop, with what the batch holds, and of the original. -/
inductive Stacks (S : Setting Mem V F C) (l : Loop (Op F) C) (p : Push F) (q c₀ : Nat)
    (x : Local Mem V) : Phase → List (Frame (Op F) C) → List (Frame (Op F) C) → Prop
  | entered (hrun : x.run = []) (hx : (x.held S.inPlace q).length = c₀) :
      Stacks S l p q c₀ x .before [.block (rewrite l p)] [.block (l.code .done)]
  | begun (ho : Open S.K S.inPlace q c₀ 0 x) :
      Stacks S l p q c₀ x .during
        [.block ((l.subst rewriteOp).code (.op (own (.queueBatchEnd p)) .done))]
        [.block (l.code .done)]
  | running {stack n} (ho : Open S.K S.inPlace q c₀ n x) (hk : Goes S p stack) :
      Stacks S l p q c₀ x .during (stack.map (·.subst rewriteOp) ++ [ending p])
        (stack ++ [.block .done])
  /-- A batch that was full is moved over. The original has made its pushes. -/
  | moving {above stack} (hm : Moving S.K S.inPlace q x) (hw : Flushing (Moved S) p x.run above)
      (hk : Goes S p stack) :
      Stacks S l p q c₀ x .during (above ++ (stack.map (·.subst rewriteOp) ++ [ending p]))
        (stack ++ [.block .done])
  | closing {above} (hm : Moving S.K S.inPlace q x) (hw : Flushing (Moved S) p x.run above) :
      Stacks S l p q c₀ x .during (above ++ [closing p, .block .done]) [.block .done]
  | published (hx : x.held S.inPlace q = []) :
      Stacks S l p q c₀ x .during [closing p, .block .done] [.block .done]
  | ended {n} (hx : x.held S.inPlace q = []) :
      Stacks S l p q c₀ x .after (List.replicate (n + 1) (.block .done)) [.block .done]
  | past (hx : x.held S.inPlace q = []) : Stacks S l p q c₀ x .after [] []

/-- The rewritten loop and the original; `q` is the queue of the push. -/
structure Matched (S : Setting Mem V F C) (l : Loop (Op F) C) (p : Push F) (q c₀ : Nat)
    (ph : Phase) (c d : Config Mem V F C) : Prop where
  stack : Stacks S l p q c₀ c.here ph c.stack d.stack
  mem : d.here.mem = c.here.mem
  env : d.here.env = c.here.env
  eval : p.queue.eval c.here.env = q
  run : d.here.run = []
  given : ∀ r, d.here.given S.inPlace q r = c.here.given S.inPlace q r

def isBegun : Event Mem V F C → Bool
  | .begun _ => true
  | _ => false

def isClosed : Event Mem V F C → Bool
  | .closed _ => true
  | _ => false

/-- The original goes from `d` to where it matches `c`. -/
def Answered (S : Setting Mem V F C) (l : Loop (Op F) C) (p : Push F) (q c₀ : Nat) (ph : Phase)
    (d : Config Mem V F C) (es : List (Event Mem V F C)) (c : Config Mem V F C) : Prop :=
  ∃ es' d' ph', Runs S d es' d' ∧ es'.filter Event.visible = es.filter Event.visible ∧
    Matched S l p q c₀ ph' c d' ∧ ph.begun + es.countP isBegun = ph'.begun ∧
    ph.closed + es.countP isClosed = ph'.closed ∧ (∀ e ∈ es, ∀ r, e.queue? = some r → r = q) ∧
    ∀ r, d'.here.given S.inPlace q r = d.here.given S.inPlace q r ++ es.filterMap (Event.handedTo r)

variable {ph ph' : Phase}

/-- An event between the ends of the batch. -/
structure Calm (q : Nat) (e : Event Mem V F C) : Prop where
  begun : isBegun e = false
  closed : isClosed e = false
  queue : ∀ r, e.queue? = some r → r = q

/-- Both go on, and what is seen of it is the same. -/
theorem Answered.both (h : Runs S d es' d')
    (hvis : es'.filter Event.visible = es.filter Event.visible)
    (hm : Matched S l p q c₀ ph c d') (hes : ∀ e ∈ es, Calm q e)
    (hgiven : ∀ r, d'.here.given S.inPlace q r =
      d.here.given S.inPlace q r ++ es.filterMap (Event.handedTo r)) :
    Answered S l p q c₀ ph d es c := by
  have hb : es.countP isBegun = 0 :=
    List.countP_eq_zero.2 fun e he => by simp [(hes e he).begun]
  have hc : es.countP isClosed = 0 :=
    List.countP_eq_zero.2 fun e he => by simp [(hes e he).closed]
  refine ⟨es', d', ph, h, hvis, hm, ?_, ?_, fun e he => (hes e he).queue, hgiven⟩
  · rw [hb, Nat.add_zero]
  · rw [hc, Nat.add_zero]

theorem calm_did {es : List (Effect F C)} :
    ∀ e ∈ (es.map (.did b) : List (Event Mem V F C)), Calm q e := by
  intro e he
  obtain ⟨e', -, rfl⟩ := List.mem_map.1 he
  exact ⟨rfl, rfl, nofun⟩

/-- Nothing is handed over. -/
theorem handed_did {es : List (Effect F C)} (r : Nat) :
    (es.map (.did b) : List (Event Mem V F C)).filterMap (Event.handedTo r) = [] := by
  induction es with
  | nil => rfl
  | cons e es ih => exact ih

/-- The same step, in which nothing is handed over. -/
theorem Answered.same (es : List (Effect F C)) (h : Step S d (es.map (.did b)) d')
    (hm : Matched S l p q c₀ ph c d')
    (hgiven : ∀ r, d'.here.given S.inPlace q r = d.here.given S.inPlace q r) :
    Answered S l p q c₀ ph d (es.map (.did b)) c :=
  .both (.one h) rfl hm calm_did fun r => by rw [handed_did, List.append_nil, hgiven r]

/-- The rewritten loop goes on alone. -/
theorem Answered.alone (hes : Unseen es) (hm : Matched S l p q c₀ ph c d) :
    Answered S l p q c₀ ph d es c := by
  have hnone : ∀ r, es.filterMap (Event.handedTo r) = [] := by
    intro r
    refine List.filterMap_eq_nil_iff.2 fun e he => ?_
    obtain ⟨f, rfl⟩ := hes e he
    rfl
  refine .both .refl ?_ hm (fun e he => ?_) fun r => by rw [hnone r, List.append_nil]
  · refine (List.filter_eq_nil_iff.2 fun e he => ?_).symm
    obtain ⟨f, rfl⟩ := hes e he
    simp [Event.visible]
  · obtain ⟨f, rfl⟩ := hes e he
    exact ⟨rfl, rfl, nofun⟩

/-- `batch_begin` or the end of `batch_end`, which the original does not have. -/
theorem Answered.mark {e : Event Mem V F C} (hm : Matched S l p q c₀ ph' c d)
    (hvis : Event.visible e = false) (hq : e.queue? = some q)
    (hnone : ∀ r, Event.handedTo r e = none) (hb : ph.begun + [e].countP isBegun = ph'.begun)
    (hc : ph.closed + [e].countP isClosed = ph'.closed) : Answered S l p q c₀ ph d [e] c := by
  refine ⟨[], d, ph', .refl, by simp [hvis], hm, hb, hc, ?_, fun r => by simp [hnone r]⟩
  intro e' he r hr
  rw [List.mem_singleton] at he
  subst he
  exact Option.some.inj (hr.symm.trans hq)

/-! ## One step -/

theorem inCallee_map (f : Op F → List (Op F)) (k : List (Frame (Op F) C)) :
    inCallee (k.map (·.subst f)) = inCallee k := by
  simp only [inCallee, List.any_map]
  congr 1
  funext x
  cases x <;> rfl

theorem inCallee_rewritten (k : List (Frame (Op F) C)) :
    inCallee (k.map (·.subst rewriteOp) ++ [ending p]) = inCallee k := by
  rw [inCallee_append, inCallee_map]
  exact Bool.or_false _

theorem inCallee_original (k : List (Frame (Op F) C)) :
    inCallee (k ++ [.block .done]) = inCallee k := by
  rw [inCallee_append]
  exact Bool.or_false _

theorem Step.op_of (hk : next k = .op o k') (hb : inCallee k = b) (ho : Does S b o x es y fs) :
    Step S ⟨x, k⟩ es ⟨y, fs ++ k'⟩ := by
  subst hb
  exact .op hk ho

/-- What comes next in the rewritten loop and in the original. -/
theorem next_rewritten (hk : Running S p k) :
    next (k.map (·.subst rewriteOp) ++ [ending p]) =
      (next (k.map (·.subst rewriteOp))).append [ending p] ∧
    next (k ++ [.block .done]) = (next k).append [.block .done] :=
  ⟨hk.ends.map_subst.next_append, hk.ends.next_append⟩

/-- Steps of the thread other than on a queue leave what the batch holds. -/
theorem Matched.keep {mem' : Mem} {env' : Nat → Nat}
    (hm : Matched S l p q c₀ ph ⟨x, k⟩ ⟨y, k'⟩) {stack stack' : List (Frame (Op F) C)}
    (hk : Stacks S l p q c₀ { x with mem := mem', env := env' } ph stack stack')
    (he : p.queue.eval env' = q) :
    Matched S l p q c₀ ph ⟨{ x with mem := mem', env := env' }, stack⟩
      ⟨{ y with mem := mem', env := env' }, stack'⟩ :=
  ⟨hk, rfl, rfl, he, hm.run, hm.given⟩

theorem Matched.restack (hm : Matched S l p q c₀ ph ⟨x, k⟩ ⟨y, k'⟩)
    {stack stack' : List (Frame (Op F) C)} (hk : Stacks S l p q c₀ x ph stack stack') :
    Matched S l p q c₀ ph ⟨x, stack⟩ ⟨y, stack'⟩ :=
  ⟨hk, hm.mem, hm.env, hm.eval, hm.run, hm.given⟩

theorem Open.keep {n : Nat} {mem' : Mem} {env' : Nat → Nat} (ho : Open S.K S.inPlace q c₀ n x) :
    Open S.K S.inPlace q c₀ n { x with mem := mem', env := env' } :=
  ⟨ho.pending, ho.lt, ho.cells, ho.run⟩

theorem Stacks.keep {mem' : Mem} (hk : Stacks S l p q c₀ x ph k k') :
    Stacks S l p q c₀ { x with mem := mem' } ph k k' := by
  cases hk with
  | entered hrun hx => exact .entered hrun hx
  | begun ho => exact .begun ho.keep
  | running ho hk => exact .running ho.keep hk
  | moving hm hw hk => exact .moving ⟨hm.side, hm.pending, hm.pos⟩ hw hk
  | closing hm hw => exact .closing ⟨hm.side, hm.pending, hm.pos⟩ hw
  | published hx => exact .published hx
  | ended hx => exact .ended hx
  | past hx => exact .past hx

/-- The original hands an element over, and has made it visible when the push is over. -/
theorem push_original {a : V} (hfit : Fit S q p) (heval : p.queue.eval y.env = q)
    (hrun : y.run = [])
    (hd : Step S ⟨y, w⟩ [.handed q a]
      ⟨(y.push (C := C) S.inPlace p q a).1, (y.push S.inPlace p q a).2 ++ k⟩) :
    ∃ tr z, Runs S ⟨y, w⟩ tr ⟨z, k⟩ ∧ tr.filter Event.visible = [.handed q a] ∧ y.Beside z ∧
      z.run = [] ∧
      ∀ r, z.given S.inPlace q r = y.given S.inPlace q r ++ if r = q then [a] else [] := by
  have hgiven : ∀ r, (y.push (C := C) S.inPlace p q a).1.given S.inPlace q r =
      y.given S.inPlace q r ++ if r = q then [a] else [] := fun _ => given_push
  by_cases hq : S.inPlace q = true
  · simp only [Local.push, hq, if_true, List.nil_append] at hd hgiven
    exact ⟨_, _, .one hd, rfl, ⟨rfl, rfl⟩, hrun, hgiven⟩
  · have hq' : S.inPlace q = false := by simpa using hq
    simp only [Local.push, hq', Bool.false_eq_true, if_false] at hd hgiven
    obtain ⟨tr, hr, htr⟩ :=
      push_returns (k := k) (y := { y with run := y.run ++ [a] }) (a := a) hfit hq'
      heval (by simp [hrun])
    refine ⟨_, _, (Runs.one hd).trans hr, ?_, ⟨rfl, rfl⟩, by simp [Local.reveal, hrun], fun r => ?_⟩
    · have hnil : tr.filter Event.visible = [] :=
        List.filter_eq_nil_iff.2 fun e he => by simp [htr e he]
      rw [List.filter_append, hnil]
      rfl
    · rw [given_reveal hq', hgiven r]

/-- An element is handed over, in the rewritten loop and in the original. The rewritten loop may
have published its cells first. -/
theorem made_step {n : Nat} {a : V} {x' : Local Mem V} (hfit : Fit S q p) (hk : Running S p k)
    (hm : Matched S l p q c₀ .during ⟨x, v⟩ ⟨y, w⟩) (ho : Open S.K S.inPlace q c₀ n x')
    (hx : x.Beside x') (hgx : ∀ r, x'.given S.inPlace q r = x.given S.inPlace q r)
    (hd : Step S ⟨y, w⟩ [.handed q a]
      ⟨(y.push (C := C) S.inPlace p q a).1, (y.push S.inPlace p q a).2 ++ (k ++ [.block .done])⟩) :
    Answered S l p q c₀ .during ⟨y, w⟩ [.handed q a]
      ⟨(x'.pushDeferred (C := C) S.K S.inPlace p q a).1,
        (x'.pushDeferred S.K S.inPlace p q a).2 ++ (k.map (·.subst rewriteOp) ++ [ending p])⟩ := by
  obtain ⟨mem, env⟩ := hx
  have hyenv : y.env = x.env := hm.env
  have hymem : y.mem = x.mem := hm.mem
  have heval : p.queue.eval x.env = q := hm.eval
  obtain ⟨tr, z, hr, htr, ⟨hzm, hze⟩, hzrun, hz⟩ :=
    push_original hfit ((congrArg p.queue.eval hyenv).trans heval) hm.run hd
  obtain ⟨hbm, hbe⟩ : x'.Beside (x'.pushDeferred (C := C) S.K S.inPlace p q a).1 :=
    pushDeferred_beside
  have hgiven : ∀ r, (x'.pushDeferred (C := C) S.K S.inPlace p q a).1.given S.inPlace q r =
      x'.given S.inPlace q r ++ if r = q then [a] else [] := fun _ => given_pushDeferred
  have hstack : Stacks S l p q c₀ (x'.pushDeferred (C := C) S.K S.inPlace p q a).1 .during
      ((x'.pushDeferred S.K S.inPlace p q a).2 ++ (k.map (·.subst rewriteOp) ++ [ending p]))
      (k ++ [.block .done]) := by
    rcases pushDeferred_cases (C := C) (p := p) (v := a) ho with ⟨⟨n', ho'⟩, hfs⟩ | ⟨hmv, hfs⟩
    · rw [hfs]
      exact .running ho' (.inr hk)
    · rw [hfs]
      exact .moving hmv (flushing_flush (n + 1)) (.inr hk)
  refine .both hr htr ⟨hstack, ?_, ?_, ?_, hzrun, fun r => ?_⟩ ?_ fun r => ?_
  · exact (hzm.trans hymem).trans (hbm.trans mem).symm
  · exact (hze.trans hyenv).trans (hbe.trans env).symm
  · exact (congrArg p.queue.eval (hbe.trans env)).trans heval
  · rw [hz r, hgiven r, hgx r, hm.given r]
  · intro e he
    rw [List.mem_singleton] at he
    subst he
    exact ⟨rfl, rfl, by rintro r ⟨⟩; rfl⟩
  · rw [hz r]
    by_cases hr : q = r
    · simp [Event.handedTo, hr]
    · simp [Event.handedTo, hr, Ne.symm hr]

theorem rewriteOp_push (ho : dialect o = some (.push p)) :
    rewriteOp o = [{ o with tag := .wtc (.pushDeferred p) }] := by
  simp [rewriteOp, tag_of_dialect ho]

theorem rewriteOp_made (ho : dialect o = some (.made p false)) :
    rewriteOp o = [{ o with tag := .wtc (.made p true) }] := by
  simp [rewriteOp, tag_of_dialect ho]

/-- The frames of a push that has begun. -/
theorem running_take (hfit : Fit S q p) (hk : Running S p k) :
    Running S p (shim [runs p.element.take, own (.made p false)] ++ k) := by
  refine hk.called (called_shim ?_)
  simp only [List.forall_mem_cons]
  exact ⟨.inl hfit.take, .inr rfl, fun _ h => absurd h List.not_mem_nil⟩

/-- An operation of the program, in both. -/
theorem plain_step {n : Nat} {x' : Local Mem V} (hk : Running S p k')
    (ho : Open S.K S.inPlace q c₀ n x)
    (hm : Matched S l p q c₀ .during ⟨x, v⟩ ⟨y, k ++ [.block .done]⟩)
    (hn : next (k ++ [.block .done]) = .op o (k' ++ [.block .done])) (hop : Plain S p.queue k o)
    (hd : Does S (inCallee k) o x es x' fs) :
    Answered S l p q c₀ .during ⟨y, k ++ [.block .done]⟩ es
      ⟨x', fs ++ (k'.map (·.subst rewriteOp) ++ [ending p])⟩ := by
  obtain ⟨mem, env, stream, cells, run, pending⟩ := y
  have hmem : mem = x.mem := hm.mem
  have henv : env = x.env := hm.env
  subst hmem henv
  obtain ⟨cl, hkept⟩ := hop.kept
  have hdid := does_cases hd
  rw [hop.not_wtc] at hdid
  obtain ⟨fx, mem', env', hr, rfl, rfl⟩ := hdid
  have hf := hr.follows hkept fun h => h.1
  refine .same fx (.op_of hn (inCallee_original k) (.ran hr)) ?_ fun _ => rfl
  have ho' : Open S.K S.inPlace q c₀ n { x with mem := mem', env := env' } := ho.keep
  have hstacks := Stacks.running (l := l) ho'
    (.inr (hk.called (hf.called.mono fun o h => .inl h)))
  rw [List.map_append, hf.map_subst Kept.not_wtc, List.append_assoc, List.append_assoc] at hstacks
  exact hm.keep hstacks ((hf.eval hop.keeps).trans hm.eval)

/-- A step of the thread in the rewritten loop. -/
theorem running_step {n : Nat} (hfit : Fit S q p) (hk : Running S p k)
    (ho : Open S.K S.inPlace q c₀ n x)
    (hm : Matched S l p q c₀ .during ⟨x, k.map (·.subst rewriteOp) ++ [ending p]⟩
      ⟨y, k ++ [.block .done]⟩)
    (hs : Moves S x (k.map (·.subst rewriteOp) ++ [ending p]) es c'
      (next (k.map (·.subst rewriteOp) ++ [ending p]))) :
    Answered S l p q c₀ .during ⟨y, k ++ [.block .done]⟩ es c' := by
  obtain ⟨happ', happ⟩ := next_rewritten hk
  have hafter := hk.next
  obtain ⟨mem, env, stream, cells, run, pending⟩ := y
  have hmem : mem = x.mem := hm.mem
  have henv : env = x.env := hm.env
  have heval : p.queue.eval x.env = q := hm.eval
  subst hmem henv
  rw [happ'] at hs
  cases hn : next k with
  | stop =>
    rw [next_subst (by simp [hn]), hn] at hs
    exact hs.elim
  | tau k' =>
    rw [next_subst (by simp [hn]), hn] at hs
    rw [hn] at hafter happ
    obtain ⟨rfl, rfl⟩ := hs
    exact .same (b := true) [] (.tau happ) (hm.restack (.running ho hafter)) fun _ => rfl
  | test t k' =>
    rw [next_subst (by simp [hn]), hn] at hs
    rw [hn] at hafter happ
    obtain ⟨i, htest, rfl, rfl⟩ := hs
    rw [inCallee_rewritten]
    have hstep := Step.test (S := S) (x := ⟨x.mem, x.env, stream, cells, run, pending⟩) happ htest
    rw [inCallee_original] at hstep
    exact .same [.test t i] hstep (hm.restack (.running ho (hafter i))) fun _ => rfl
  | op o k' =>
    rw [hn] at hafter happ
    obtain ⟨hop, hk'⟩ := hafter
    rcases hop with hop | hop | hop
    · -- the push is begun
      rw [next_subst_op hn (rewriteOp_push hop)] at hs
      obtain ⟨x', fs, hd, rfl⟩ := hs
      obtain ⟨rfl, rfl, rfl⟩ := does_cases hd
      refine .same (b := true) [] (.op happ (.push hop)) ?_ fun _ => rfl
      have hstacks := Stacks.running (l := l) ho (.inr (running_take hfit hk'))
      rw [List.map_append, List.append_assoc, List.append_assoc] at hstacks
      exact hm.restack hstacks
    · -- the element is handed over
      rw [next_subst_op hn (rewriteOp_made hop)] at hs
      obtain ⟨x', fs, hd, rfl⟩ := hs
      obtain ⟨q', a, x₁, hq', rfl, rfl, hx₁, rfl, rfl⟩ := does_cases hd
      rw [heval] at hq'
      subst hq'
      have hmade := Step.op (S := S) (x := ⟨x.mem, x.env, stream, cells, run, pending⟩) happ
        (.made hop heval rfl)
      rcases hx₁ with rfl | ⟨hin, rfl⟩
      · exact made_step hfit hk' hm ho ⟨rfl, rfl⟩ (fun _ => rfl) hmade
      · exact made_step hfit hk' hm (open_publishCells hin ho) ⟨rfl, rfl⟩
          (fun _ => given_publishCells hin) hmade
    · -- an operation of the program
      rw [next_subst_op hn (rewriteOp_of_dialect hop.not_wtc)] at hs
      obtain ⟨x', fs, hd, rfl⟩ := hs
      rw [inCallee_rewritten] at hd
      exact plain_step hk' ho hm happ hop hd

theorem Flushing.nil {Q : Op F → Prop} {run : List V}
    (h : Flushing Q p run ([] : List (Frame (Op F) C))) : run = [] := by
  generalize hw : ([] : List (Frame (Op F) C)) = w at h
  cases h with
  | going => simp at hw
  | emptied => rfl

/-- `batch_end` begins. -/
theorem end_step {n : Nat} (ho : Open S.K S.inPlace q c₀ n x)
    (hm : Matched S l p q c₀ .during ⟨x, [ending p]⟩ ⟨y, [.block .done]⟩)
    (hs : Moves S x [ending p] es c' (next [ending p])) :
    Answered S l p q c₀ .during ⟨y, [.block .done]⟩ es c' := by
  obtain ⟨x', fs, hd, rfl⟩ := hs
  obtain ⟨q', hq', rfl, rfl, rfl⟩ := does_cases hd
  have heval : p.queue.eval x.env = q := hm.eval
  rw [heval] at hq'
  subst hq'
  obtain ⟨hbm, hbe⟩ : x.Beside (x.publish (C := C) S.inPlace p q).1 := publish_beside
  have hgiven : ∀ r, (x.publish (C := C) S.inPlace p q).1.given S.inPlace q r =
      x.given S.inPlace q r := fun _ => given_publish
  have hK : 0 < S.K := Nat.zero_lt_of_lt ho.lt
  refine .alone unseen_nil ⟨?_, hm.mem.trans hbm.symm, hm.env.trans hbe.symm,
    (congrArg p.queue.eval hbe).trans heval, hm.run, fun r => (hm.given r).trans (hgiven r).symm⟩
  rcases publish_cases (C := C) (p := p) c₀ hK ho.pending ho.run with
    ⟨-, hheld, hfs⟩ | ⟨hmv, hfs⟩
  · dsimp only
    rw [hfs]
    exact .published hheld
  · dsimp only
    rw [hfs]
    exact .closing hmv (flushing_flush n)

/-- A step of the rewritten loop when nothing is being moved. -/
theorem loop_step {n : Nat} (hfit : Fit S q p) (hk : Goes S p k)
    (ho : Open S.K S.inPlace q c₀ n x)
    (hm : Matched S l p q c₀ .during ⟨x, k.map (·.subst rewriteOp) ++ [ending p]⟩
      ⟨y, k ++ [.block .done]⟩)
    (hs : Moves S x (k.map (·.subst rewriteOp) ++ [ending p]) es c'
      (next (k.map (·.subst rewriteOp) ++ [ending p]))) :
    Answered S l p q c₀ .during ⟨y, k ++ [.block .done]⟩ es c' := by
  rcases hk with rfl | hk
  · exact end_step ho hm hs
  · exact running_step hfit hk ho hm hs

/-- `batch_end` is over. -/
theorem close_step (hx : x.held S.inPlace q = [])
    (hm : Matched S l p q c₀ .during ⟨x, [closing p, .block .done]⟩ ⟨y, [.block .done]⟩)
    (hs : Moves S x [closing p, .block .done] es c' (next [closing p, .block .done])) :
    Answered S l p q c₀ .during ⟨y, [.block .done]⟩ es c' := by
  obtain ⟨x', fs, hd, rfl⟩ := hs
  obtain ⟨rfl, rfl, rfl⟩ := does_cases hd
  exact .mark ⟨.ended (n := 1) hx, hm.mem, hm.env, hm.eval, hm.run, hm.given⟩ rfl
    (congrArg some hm.eval) (fun _ => rfl) rfl rfl

/-- `batch_begin`. -/
theorem begin_step (hK : 0 < S.K) (hrun : x.run = []) (hx : (x.held S.inPlace q).length = c₀)
    (hm : Matched S l p q c₀ .before ⟨x, [.block (rewrite l p)]⟩ ⟨y, [.block (l.code .done)]⟩)
    (hs : Moves S x [.block (rewrite l p)] es c' (next [.block (rewrite l p)])) :
    Answered S l p q c₀ .before ⟨y, [.block (l.code .done)]⟩ es c' := by
  obtain ⟨x', fs, hd, rfl⟩ := hs
  obtain ⟨rfl, rfl, rfl⟩ := does_cases hd
  have ho : Open S.K S.inPlace q c₀ 0 { x with pending := some 0 } := by
    refine ⟨rfl, hK, fun hq => ?_, fun _ => by simp [hrun]⟩
    have : (x.cells q).length = c₀ := by simpa [Local.held, hq] using hx
    simp [this]
  exact .mark ⟨.begun ho, hm.mem, hm.env, hm.eval, hm.run, hm.given⟩ rfl
    (congrArg some hm.eval) (fun _ => rfl) rfl rfl

/-- A step of `push_run` in the rewritten loop, above `v`. -/
theorem move_step (hfit : Fit S q p) (hm : Matched S l p q c₀ ph ⟨x, w ++ v⟩ ⟨y, k'⟩)
    (hne : w ≠ []) (hmov : Moving S.K S.inPlace q x) (hw : Flushing (Moved S) p x.run w)
    (hst : ∀ {x'} {w'}, Moving S.K S.inPlace q x' → Flushing (Moved S) p x'.run w' →
      Stacks S l p q c₀ x' ph (w' ++ v) k')
    (hs : Moves S x (w ++ v) es c' (next (w ++ v))) : Answered S l p q c₀ ph ⟨y, k'⟩ es c' := by
  have hl := flush_step hfit hw hne hmov hm.eval hs
  obtain ⟨w', hw', hfl⟩ := hl.stack
  obtain ⟨x', k₁⟩ := c'
  cases hw'
  refine .alone hl.unseen ⟨hst hl.moving hfl, hm.mem.trans hl.beside.1.symm,
    hm.env.trans hl.beside.2.symm, ?_, hm.run, fun r => (hm.given r).trans (hl.given r).symm⟩
  exact (congrArg p.queue.eval hl.beside.2).trans hm.eval

/-- **One step of the rewritten loop** is matched by the original. -/
theorem matched_step (hK : 0 < S.K) (hacc : Accepted S.module l p) (hfit : Fit S q p)
    (hm : Matched S l p q c₀ ph c d) (hs : Step S c es c') : Answered S l p q c₀ ph d es c' := by
  obtain ⟨x, k⟩ := c
  obtain ⟨y, k'⟩ := d
  rcases step_cases hs with ⟨mem, rfl, rfl⟩ | hmv
  · -- the other threads
    refine .both (.one (.other mem)) rfl ?_ ?_ fun r => (List.append_nil _).symm
    · obtain ⟨mem₀, env, stream, cells, run, pending⟩ := y
      have henv : env = x.env := hm.env
      subst henv
      exact hm.keep hm.stack.keep hm.eval
    · intro e he
      rw [List.mem_singleton] at he
      subst he
      exact ⟨rfl, rfl, nofun⟩
  · have hstacks := hm.stack
    dsimp only at hstacks
    cases hstacks with
    | entered hrun hx => exact begin_step hK hrun hx hm hmv
    | begun ho =>
      rw [next_code] at hmv
      obtain ⟨rfl, rfl⟩ := hmv
      refine .same (b := true) [] (.tau (next_code _ _)) (hm.restack ?_) fun _ => rfl
      rw [start_subst]
      exact .running ho (.inr (running_start hacc))
    | running ho hk => exact loop_step hfit hk ho hm hmv
    | @moving above stack hmov hw hk =>
      by_cases hne : above = []
      · subst hne
        exact loop_step hfit hk (hmov.open hw.nil) hm hmv
      · exact move_step hfit hm hne hmov hw (fun hmov' hw' => .moving hmov' hw' hk) hmv
    | @closing above hmov hw =>
      by_cases hne : above = []
      · subst hne
        refine close_step ?_ hm hmv
        simp [Local.held, hmov.side, hw.nil]
      · exact move_step hfit hm hne hmov hw (fun hmov' hw' => .closing hmov' hw') hmv
    | published hx => exact close_step hx hm hmv
    | @ended n hx =>
      obtain ⟨rfl, rfl⟩ := hmv
      cases n with
      | zero => exact .same (b := true) [] (.tau rfl) (hm.restack (.past hx)) fun _ => rfl
      | succ n => exact .alone unseen_nil (hm.restack (.ended hx))
    | past => exact hmv.elim

/-! ## Whole runs -/

/-- The code is entered; the batch's storage holds none yet. -/
def entry (x : Local Mem V) (b : Code (Op F) C) : Config Mem V F C :=
  ⟨{ x with run := [], pending := none }, [.block b]⟩

theorem simulates (hK : 0 < S.K) (hacc : Accepted S.module l p)
    (hfit : Fit S (p.queue.eval x.env) p)
    (hr : Runs S (entry x (rewrite l p)) tr c) :
    Answered S l p (p.queue.eval x.env)
      ((entry x (rewrite l p)).here.held S.inPlace (p.queue.eval x.env)).length .before
      (entry x (l.code .done)) tr c := by
  induction hr with
  | refl =>
    exact ⟨[], _, .before, .refl, rfl, ⟨.entered rfl rfl, rfl, rfl, rfl, rfl, fun _ => rfl⟩,
      rfl, rfl,
      fun _ he => absurd he List.not_mem_nil, fun r => (List.append_nil _).symm⟩
  | step _ hs ih =>
    obtain ⟨es₁, d₁, ph₁, hrun₁, hvis₁, hm₁, hb₁, hc₁, hq₁, hg₁⟩ := ih
    obtain ⟨es₂, d₂, ph₂, hrun₂, hvis₂, hm₂, hb₂, hc₂, hq₂, hg₂⟩ := matched_step hK hacc hfit hm₁ hs
    refine ⟨es₁ ++ es₂, d₂, ph₂, hrun₁.trans hrun₂, ?_, hm₂, ?_, ?_, fun e he => ?_, fun r => ?_⟩
    · rw [List.filter_append, List.filter_append, hvis₁, hvis₂]
    · rw [List.countP_append, ← Nat.add_assoc, hb₁, hb₂]
    · rw [List.countP_append, ← Nat.add_assoc, hc₁, hc₂]
    · exact (List.mem_append.1 he).elim (hq₁ e) (hq₂ e)
    · rw [hg₂ r, hg₁ r, List.filterMap_append, List.append_assoc]

end Wtc.BatchPushes
