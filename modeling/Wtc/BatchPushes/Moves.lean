import Wtc.BatchPushes.Stack
import Wtc.BatchPushes.Queue

/-!
# Steps of the shim

What a step of the thread can be (`does_cases`, `step_cases`), and two runs of `push_run`. In the
rewritten loop it moves a batch over, one step at a time and with cells and segments lost to other
threads: nothing is seen of it in the loop, and what the queue has been given stays the same
(`flush_step`). In the original it moves one element, and there is a run of it to its end
(`push_returns`).
-/

namespace Wtc.BatchPushes

open Wtc.Control

variable {F C Mem V : Type} {S : Setting Mem V F C} {p : Push F} {q : Nat}
  {c c' d d' : Config Mem V F C} {es es' tr : List (Event Mem V F C)}
  {k k' k₁ v w fs : List (Frame (Op F) C)} {x y : Local Mem V} {o : Op F} {b : Bool}

/-! ## What an operation does -/

theorem tag_of_dialect {a : WtcOp F} (h : dialect o = some a) : o.tag = .wtc a := by
  unfold dialect at h
  split at h
  · next ht => rw [ht, Option.some.inj h]
  · cases h

theorem Ran.not_wtc {M : Meaning Mem F C} {m : Module F C} {mem mem' : Mem} {env env' : Nat → Nat}
    {es : List (Effect F C)} (h : Ran m M b o mem env es mem' env' fs) : dialect o = none := by
  cases h <;> assumption

/-- What the thread does, by the operation of the dialect that it is. -/
def Did (S : Setting Mem V F C) (b : Bool) (o : Op F) (x : Local Mem V)
    (es : List (Event Mem V F C))
    (y : Local Mem V) (fs : List (Frame (Op F) C)) : Option (WtcOp F) → Prop
  | none => ∃ fx mem' env', Ran S.module S.meaning b o x.mem x.env fx mem' env' fs ∧
      es = fx.map (.did b) ∧ y = { x with mem := mem', env := env' }
  | some (.push p) => es = [] ∧ y = x ∧ fs = shim [runs p.element.take, own (.made p false)]
  | some (.pushDeferred p) => es = [] ∧ y = x ∧ fs = shim [runs p.element.take, own (.made p true)]
  | some (.made p false) => ∃ q v, p.queue.eval x.env = q ∧ S.value p.value x.mem = v ∧
      es = [.handed q v] ∧ y = (x.push (C := C) S.inPlace p q v).1 ∧ fs = (x.push S.inPlace p q v).2
  | some (.made p true) => ∃ q v x', p.queue.eval x.env = q ∧ S.value p.value x.mem = v ∧
      es = [.handed q v] ∧ (x' = x ∨ S.inPlace q = true ∧ x' = x.publishCells q) ∧
      y = (x'.pushDeferred (C := C) S.K S.inPlace p q v).1 ∧
      fs = (x'.pushDeferred S.K S.inPlace p q v).2
  | some (.flush p n) => es = [] ∧ y = x ∧
      ((∃ j, fs = shim (List.replicate j (runs p.element.move) ++ [own (.settle p n j)])) ∨
        x.run = [] ∧ fs = shim (List.replicate n (runs p.element.destroy)))
  | some (.settle p n j) => es = [] ∧
      (y = x.reveal (p.queue.eval x.env) j ∧ fs = shim [own (.flush p n)] ∨
        y = x ∧ fs = shim
          ((List.replicate j [runs p.element.assign, runs p.element.destroy]).flatten ++
            [own (.flush p n)]))
  | some (.queueBatchBegin p) => es = [.begun (p.queue.eval x.env)] ∧
      y = { x with pending := some 0 } ∧ fs = []
  | some (.queueBatchEnd p) => ∃ q, p.queue.eval x.env = q ∧ es = [] ∧
      y = (x.publish (C := C) S.inPlace p q).1 ∧
      fs = (x.publish S.inPlace p q).2 ++ [.block (.op (own (.close p)) .done)]
  | some (.close p) => es = [.closed (p.queue.eval x.env)] ∧
      y = { x with pending := none } ∧ fs = []
  | some .other => False

theorem does_cases (h : Does S b o x es y fs) : Did S b o x es y fs (dialect o) := by
  cases h with
  | ran hr =>
    rw [hr.not_wtc]
    exact ⟨_, _, _, hr, rfl, rfl⟩
  | push ho | pushDeferred ho =>
    rw [ho]
    exact ⟨rfl, rfl, rfl⟩
  | made ho hq hv =>
    rw [ho]
    exact ⟨_, _, hq, hv, rfl, rfl, rfl⟩
  | madeDeferred ho hq hv =>
    rw [ho]
    exact ⟨_, _, _, hq, hv, rfl, .inl rfl, rfl, rfl⟩
  | madeFull ho hq hv hin =>
    rw [ho]
    exact ⟨_, _, _, hq, hv, rfl, .inr ⟨hin, rfl⟩, rfl, rfl⟩
  | move ho hj hle =>
    rw [ho]
    exact ⟨rfl, rfl, .inl ⟨_, rfl⟩⟩
  | moved ho hrun =>
    rw [ho]
    exact ⟨rfl, rfl, .inr ⟨hrun, rfl⟩⟩
  | reveal ho hq =>
    rw [ho]
    exact ⟨rfl, .inl ⟨by rw [hq], rfl⟩⟩
  | lost ho =>
    rw [ho]
    exact ⟨rfl, .inr ⟨rfl, rfl⟩⟩
  | batchBegin ho hq =>
    rw [ho]
    exact ⟨by rw [hq], rfl, rfl⟩
  | batchEnd ho hq =>
    rw [ho]
    exact ⟨_, hq, rfl, rfl, rfl⟩
  | close ho hq =>
    rw [ho]
    exact ⟨by rw [hq], rfl, rfl⟩

/-- What a step of the thread can be, by what comes next. -/
def Moves (S : Setting Mem V F C) (x : Local Mem V) (k : List (Frame (Op F) C))
    (es : List (Event Mem V F C)) (c : Config Mem V F C) : Act (Op F) C → Prop
  | .tau k' => es = [] ∧ c = ⟨x, k'⟩
  | .test t k' => ∃ n, S.meaning.test t x.mem n ∧ es = [.did (inCallee k) (.test t n)] ∧
      c = ⟨x, k' n⟩
  | .op o k' => ∃ y fs, Does S (inCallee k) o x es y fs ∧ c = ⟨y, fs ++ k'⟩
  | .stop => False

theorem step_cases (hs : Step S ⟨x, k⟩ es c') :
    (∃ mem, es = [.other mem] ∧ c' = ⟨{ x with mem := mem }, k⟩) ∨ Moves S x k es c' (next k) := by
  cases hs with
  | tau hk =>
    rw [hk]
    exact .inr ⟨rfl, rfl⟩
  | test hk hn =>
    rw [hk]
    exact .inr ⟨_, hn, rfl, rfl⟩
  | op hk ho =>
    rw [hk]
    exact .inr ⟨_, _, ho, rfl⟩
  | other mem => exact .inl ⟨mem, rfl, rfl⟩

theorem Runs.trans (h : Runs S c es d) (h' : Runs S d es' d') : Runs S c (es ++ es') d' := by
  induction h' with
  | refl => simpa using h
  | step _ hs ih =>
    rw [← List.append_assoc]
    exact ih.step hs

theorem Runs.one (h : Step S c es d) : Runs S c es d := by
  have := Runs.refl.step h
  rwa [List.nil_append] at this

/-! ## Moving a run -/

/-- An operation of the element type, while elements are held back. -/
abbrev Moved (S : Setting Mem V F C) : Op F → Prop := Under S.module (Mover S) true

theorem Moved.not_wtc (h : Moved S o) : dialect o = none := h.1.1.not_wtc

theorem Flushing.inCallee {run : List V} (h : Flushing (Moved S) p run w) (hne : w ≠ []) :
    inCallee (w ++ v) = true := by
  cases h with
  | emptied hc => exact inCallee_of_ends (hc.ends.resolve_left hne)
  | going ha hos ho hb hbelow =>
    rw [List.append_assoc, inCallee_append, List.cons_append]
    have := inCallee_of_ends (v := v) (hb.ends.resolve_left hbelow)
    simp_all [BatchPushes.inCallee]

/-- What `push_run` does is no other's concern. -/
def Unseen (es : List (Event Mem V F C)) : Prop := ∀ e ∈ es, ∃ f, e = .did true f

theorem unseen_nil : Unseen ([] : List (Event Mem V F C)) := fun _ he => absurd he List.not_mem_nil

/-- Where a step of `push_run` leads; `v` is below it. -/
structure Leads (S : Setting Mem V F C) (p : Push F) (q : Nat) (v : List (Frame (Op F) C))
    (x : Local Mem V) (es : List (Event Mem V F C)) (c : Config Mem V F C) : Prop where
  unseen : Unseen es
  stack : ∃ w, c.stack = w ++ v ∧ Flushing (Moved S) p c.here.run w
  moving : Moving S.K S.inPlace q c.here
  beside : x.Beside c.here
  given : ∀ r, c.here.given S.inPlace q r = x.given S.inPlace q r

/-- Nothing has been made visible. -/
theorem Leads.still (hm : Moving S.K S.inPlace q x) (hw : Flushing (Moved S) p x.run w)
    (hes : Unseen es) : Leads S p q v x es ⟨x, w ++ v⟩ :=
  ⟨hes, ⟨_, rfl, hw⟩, hm, ⟨rfl, rfl⟩, fun _ => rfl⟩

/-- A function of the element type does something. -/
theorem moved_step (hm : Moving S.K S.inPlace q x) (ho : Moved S o)
    (hw : Flushing (Moved S) p x.run w) (hd : Does S true o x es y fs) :
    Leads S p q v x es ⟨y, fs ++ (w ++ v)⟩ := by
  have hdid := does_cases hd
  rw [Moved.not_wtc ho] at hdid
  obtain ⟨fx, mem', env', hr, rfl, rfl⟩ := hdid
  have hf := hr.follows ho fun h => h.1.tame
  have hmem : mem' = x.mem := ho.1.2 hr
  have henv : env' = x.env := hf.env.resolve_right fun ⟨_, _, _, h, _⟩ => by cases h
  subst hmem henv
  rw [← List.append_assoc]
  refine .still hm (hw.called hf.called) fun e he => ?_
  obtain ⟨f, -, rfl⟩ := List.mem_map.1 he
  exact ⟨f, rfl⟩

/-- `push_run` itself does something. -/
theorem rest_step (hfit : Fit S q p) (hm : Moving S.K S.inPlace q x)
    (heval : p.queue.eval x.env = q) (ho : Rest p o) (hw : Called (Moved S) w)
    (hd : Does S true o x es y fs) : Leads S p q v x es ⟨y, fs ++ (w ++ v)⟩ := by
  have hmoves := hfit.moves hm.side
  have hdid := does_cases hd
  rw [← List.append_assoc]
  rcases ho with ⟨n, ho⟩ | ⟨n, j, ho⟩
  · rw [ho] at hdid
    obtain ⟨rfl, rfl, ⟨j, rfl⟩ | ⟨hrun, rfl⟩⟩ := hdid
    · refine .still hm (flushing_shim ?_ (.inr ⟨n, j, rfl⟩) hw) unseen_nil
      exact fun o ho => List.eq_of_mem_replicate ho ▸ hmoves _ (by simp)
    · refine .still hm ?_ unseen_nil
      rw [hrun]
      refine .emptied ((called_shim fun o ho => ?_).append hw)
      exact List.eq_of_mem_replicate ho ▸ hmoves _ (by simp)
  · rw [ho] at hdid
    obtain ⟨rfl, ⟨rfl, rfl⟩ | ⟨rfl, rfl⟩⟩ := hdid
    · rw [heval]
      exact ⟨unseen_nil, ⟨_, rfl, flushing_start (.inl ⟨n, rfl⟩) hw⟩,
        ⟨hm.side, hm.pending, hm.pos⟩, ⟨rfl, rfl⟩, fun r => given_reveal hm.side⟩
    · refine .still hm (flushing_shim ?_ (.inl ⟨n, rfl⟩) hw) unseen_nil
      intro o ho
      obtain ⟨l, hl, ho⟩ := List.mem_flatten.1 ho
      rw [List.eq_of_mem_replicate hl, List.mem_pair] at ho
      rcases ho with rfl | rfl
      · exact hmoves _ (by simp)
      · exact hmoves _ (by simp)

theorem flush_step (hfit : Fit S q p) (hw : Flushing (Moved S) p x.run w) (hne : w ≠ [])
    (hm : Moving S.K S.inPlace q x) (heval : p.queue.eval x.env = q)
    (hs : Moves S x (w ++ v) es c' (next (w ++ v))) : Leads S p q v x es c' := by
  have hstep := hw.next (v := v) hne
  have hcallee := hw.inCallee (v := v) hne
  cases hn : next (w ++ v) with
  | stop =>
    rw [hn] at hs
    exact hs.elim
  | tau k =>
    rw [hn] at hs hstep
    obtain ⟨rfl, rfl⟩ := hs
    obtain ⟨w', hw', rfl⟩ := hstep
    exact .still hm hw' unseen_nil
  | test t k =>
    rw [hn] at hs hstep
    obtain ⟨n, -, rfl, rfl⟩ := hs
    obtain ⟨w', hw', he⟩ := hstep n
    rw [hcallee, he]
    exact .still hm hw' (by simp [Unseen])
  | op o k =>
    rw [hn] at hs hstep
    obtain ⟨y, fs, hd, rfl⟩ := hs
    rw [hcallee] at hd
    rcases hstep with ⟨ho, w', hw', rfl⟩ | ⟨ho, w', hw', rfl⟩
    · exact moved_step hm ho hw' hd
    · exact rest_step hfit hm heval ho hw' hd

/-! ## A push of the original -/

theorem pops (x : Local Mem V) (k : List (Frame (Op F) C)) :
    Runs S ⟨x, .block .done :: .call :: k⟩ [] ⟨x, k⟩ :=
  (Runs.one (.tau rfl)).trans (.one (.tau rfl))

/-- A push of one element by `push_run`, undisturbed. -/
theorem push_returns (hfit : Fit S q p) (hq : S.inPlace q = false) (heval : p.queue.eval y.env = q)
    {a : V} (hrun : y.run = [a]) :
    ∃ tr, Runs S ⟨y, shim [own (.flush p 1)] ++ k⟩ tr ⟨y.reveal q 1, k⟩ ∧
      ∀ e ∈ tr, Event.visible e = false := by
  have hret := hfit.returns hq
  -- moved into a cell, made visible, and what it was moved from destroyed
  have h₁ : Runs S ⟨y, shim [own (.flush p 1)] ++ k⟩ [] _ :=
    .one (.op rfl (.move (j := 1) rfl (by decide) (by simp [hrun])))
  obtain ⟨tr₂, h₂, hv₂⟩ := hret p.element.move (by simp) y (.op (own (.settle p 1 1)) .done)
    (.call :: .block .done :: .call :: k) rfl
  have h₃ := (h₁.trans h₂).step (.op rfl (.reveal rfl heval))
  have h₄ := h₃.step (.op rfl (.moved rfl (by simp [Local.reveal, hrun])))
  obtain ⟨tr₅, h₅, hv₅⟩ := hret p.element.destroy (by simp) (y.reveal q 1) .done
    (.call :: .block .done :: .call :: .block .done :: .call :: .block .done :: .call :: k) rfl
  have h₆ :=
    (((((h₄.trans h₅).trans (pops _ _)).trans (pops _ _)).trans (pops _ _)).trans (pops _ k))
  refine ⟨_, h₆, fun e he => ?_⟩
  simp only [List.nil_append, List.append_nil, List.mem_append] at he
  exact he.elim (hv₂ e) (hv₅ e)

end Wtc.BatchPushes
