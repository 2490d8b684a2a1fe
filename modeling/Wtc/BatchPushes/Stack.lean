import Wtc.BatchPushes.Cleared

/-!
# Places in an accepted loop

What `check` finds out about a loop, as a property of its code (`Own`), and of the stack of a thread
in the original loop: below is code of the loop, down to the loop's frame; above may be functions
that it called, or a push whose element is being made. Each step keeps this (`Running.next`). While
the rewritten loop moves a run, the frames of that are above (`Flushing`).
-/

namespace Wtc.BatchPushes

open Wtc.Control
open Wtc.BlockingQuery (Idle MayBlock at_idle at_isSome_iff idle_init)

variable {F C Mem V : Type} {m : Module F C} {p : Push F} {b r₁ r₂ r₃ rest : Code (Op F) C}

/-! ## The walk -/

section Check

variable [DecidableEq F] [Fintype F]

/-- A refusal, or none and then `P`. -/
def Finds (m : Module F C) (r : Option String × State F) (P : Prop) : Prop :=
  Idle m.query (accepted m) extra r.2 ∧ (r.1 = none → P)

theorem Finds.andThen {r : Option String × State F} {f : State F → Option String × State F}
    {P Q : Prop} (hr : Finds m r P)
    (hf : ∀ st, Idle m.query (accepted m) extra st → Finds m (f st) Q) :
    Finds m (andThen r f) (P ∧ Q) := by
  obtain ⟨found, st⟩ := r
  cases found with
  | some why => exact ⟨hr.1, nofun⟩
  | none => exact ⟨(hf st hr.1).1, fun hn => ⟨hr.2 rfl, (hf st hr.1).2 hn⟩⟩

theorem legal_spec (o : Op F) {st : State F} (hst : Idle m.query (accepted m) extra st) :
    Finds m (legal m o st) (Under m (Clear m) false o) := by
  refine ⟨at_idle o hst, fun hn => ?_⟩
  have hnone : ¬ (BlockingQuery.at_ m.query (accepted m) extra o st).1.isSome = true := by
    simpa [legal] using hn
  rw [at_isSome_iff o hst] at hnone
  refine ⟨fun h => hnone (.inl h), fun t ht g hg o' ho' h => hnone (.inr ⟨t, ht, g, hg, o', ?_, h⟩)⟩
  rwa [m.ops_eq]

/-- What the walk has found out about an operation. -/
def Asks (m : Module F C) (o : Op F) : Prop := dialect o = none → Under m (Clear m) false o

theorem walk_spec {st : State F} (hst : Idle m.query (accepted m) extra st) :
    Finds m (walk m b st) (b.All (Asks m) (· = .brk)) := by
  induction b generalizing st with
  | done => exact ⟨hst, fun _ => trivial⟩
  | op o rest ih =>
    simp only [walk]
    split
    · next w ht =>
      refine ⟨(ih hst).1, fun hn => ⟨fun ho => ?_, (ih hst).2 hn⟩⟩
      simp [dialect, ht] at ho
    · exact ⟨hst, by simp⟩
    · have h := (legal_spec o hst).andThen fun st hst => ih hst
      exact ⟨h.1, fun hn => ⟨fun _ => (h.2 hn).1, (h.2 hn).2⟩⟩
  | node n r₁ r₂ r₃ rest ih₁ ih₂ ih₃ ih =>
    exact (ih₁ hst).andThen fun st hst => (ih₂ hst).andThen fun st hst =>
      (ih₃ hst).andThen fun st hst => ih hst
  | jump j =>
    cases j with
    | brk => exact ⟨hst, fun _ => rfl⟩
    | _ => exact ⟨hst, by simp [walk]⟩
  | goto => exact ⟨hst, by simp [walk]⟩

/-- The query after any loops have been asked about. -/
inductive Asked (m : Module F C) : State F → Prop
  | init : Asked m ⟨[], [], false⟩
  | check {st} (l : Loop (Op F) C) (h : Asked m st) : Asked m (check m l st).2

theorem check_idle {l : Loop (Op F) C} {st : State F}
    (hst : Idle m.query (accepted m) extra st) :
    Idle m.query (accepted m) extra (check m l st).2 := by
  unfold check
  split
  · split_ifs
    · exact hst
    · exact hst
    · exact hst
    · split
      · exact hst
      · exact (walk_spec hst).1
  · exact hst

theorem Asked.idle {st : State F} (h : Asked m st) : Idle m.query (accepted m) extra st := by
  induction h with
  | init => exact idle_init
  | check l _ ih => exact check_idle ih

end Check

/-! ## The loop's code -/

/-- An operation of the loop: the push, or one that the query clears and that leaves the handle. -/
def OwnOp (m : Module F C) (p : Push F) (o : Op F) : Prop :=
  dialect o = none ∧ Under m (Clear m) false o ∧ Keeps p.queue o ∨ dialect o = some (.push p)

/-- Code of the loop: nothing acts on a queue but its push, and it is left only by a break. -/
def Own (m : Module F C) (p : Push F) (b : Code (Op F) C) : Prop := b.All (OwnOp m p) (· = .brk)

theorem own_of_walked (hb : b.All (Asks m) (· = .brk))
    (hw : ∀ o ∈ b.ops, ∀ w, dialect o = some w → w = .push p) (hf : ∀ o ∈ b.ops, Keeps p.queue o) :
    Own m p b := by
  induction b with
  | done => trivial
  | op o rest ih =>
    obtain ⟨hwo, hwr⟩ := List.forall_mem_cons.1 hw
    obtain ⟨hfo, hfr⟩ := List.forall_mem_cons.1 hf
    refine ⟨?_, ih hb.2 hwr hfr⟩
    cases hd : dialect o with
    | none => exact .inl ⟨hd, hb.1 hd, hfo⟩
    | some w => exact .inr (by rw [hd, hwo w hd])
  | node n r₁ r₂ r₃ rest ih₁ ih₂ ih₃ ih =>
    simp only [Code.ops, List.mem_append] at hw hf
    exact ⟨ih₁ hb.1 (fun o h => hw o (by simp [h])) fun o h => hf o (by simp [h]),
      ih₂ hb.2.1 (fun o h => hw o (by simp [h])) fun o h => hf o (by simp [h]),
      ih₃ hb.2.2.1 (fun o h => hw o (by simp [h])) fun o h => hf o (by simp [h]),
      ih hb.2.2.2 (fun o h => hw o (by simp [h])) fun o h => hf o (by simp [h])⟩
  | jump j | goto => exact hb

theorem keeps_of_handleInvariant {l : Loop (Op F) C} {h : Handle}
    (hi : handleInvariant l h = true) : ∀ o ∈ l.ops, Keeps h o := by
  intro o ho hv
  have hany : (l.ops.any fun o => result o == some h.value) = true :=
    List.any_eq_true.2 ⟨o, ho, by simp [hv]⟩
  simpa [handleInvariant, hany] using hi

/-- A loop that the pass accepts, with its push. -/
structure Accepted (m : Module F C) (l : Loop (Op F) C) (p : Push F) : Prop where
  cond : Own m p l.cond
  body : Own m p l.body
  step : Own m p l.step
  registration : m.registration = none

theorem accepted_of_check [DecidableEq F] [Fintype F] {l : Loop (Op F) C} {st : State F}
    (hst : Idle m.query (accepted m) extra st) (hn : (check m l st).1 = none) :
    ∃ p, pushOf l = some p ∧ Accepted m l p := by
  unfold check at hn
  split at hn
  · next p hp =>
    refine ⟨p, by simp [pushOf, hp], ?_⟩
    split_ifs at hn with hbounded hscope hinv
    split at hn
    · cases hn
    · next hreg =>
      have hops : (Code.node .scope l.cond l.body l.step (.done : Code (Op F) C)).ops = l.ops := by
        simp [Code.ops, Loop.ops]
      have hown : Own m p (.node .scope l.cond l.body l.step .done) := by
        refine own_of_walked ((walk_spec hst).2 hn) (fun o ho w hw => ?_) fun o ho => ?_
        · have hmem : w ∈ wtcOps l := List.mem_filterMap.2 ⟨o, hops ▸ ho, hw⟩
          rw [hp] at hmem
          exact List.mem_singleton.1 hmem
        · exact keeps_of_handleInvariant (by simpa using hinv) o (hops ▸ ho)
      exact ⟨hown.1, hown.2.1, hown.2.2.1, hreg⟩
  · cases hn

/-! ## Stacks of the original -/

variable {S : Setting Mem V F C}

/-- The only way out of the loop's code. -/
def Breaks (e : Exit) : Prop := ∃ j, e = .jump j ∧ j = .brk

/-- Frames of the loop's own code. -/
structure Owned (m : Module F C) (p : Push F) (v : List (Frame (Op F) C)) : Prop where
  sat : ∀ f ∈ v, f.Sat (Own m p) Breaks
  ends : Ends IsLoop v

/-- An operation of a function that the loop calls, or of a push up to where its element is made. -/
def Inner (S : Setting Mem V F C) (p : Push F) (o : Op F) : Prop :=
  Under S.module (Kept S) true o ∨ dialect o = some (.made p false)

/-- The stack of a thread in the loop, up to the loop's frame. -/
inductive Running (S : Setting Mem V F C) (p : Push F) : List (Frame (Op F) C) → Prop
  | mk {w v} (hw : Called (Inner S p) w) (hv : Owned S.module p v) : Running S p (w ++ v)

/-- Still in the loop, or just out of it. -/
def Goes (S : Setting Mem V F C) (p : Push F) (k : List (Frame (Op F) C)) : Prop :=
  k = [] ∨ Running S p k

/-- An operation other than the push, of the loop or of a function it calls. -/
structure Plain (S : Setting Mem V F C) (h : Handle) (k : List (Frame (Op F) C)) (o : Op F) :
    Prop where
  not_wtc : dialect o = none
  kept : ∃ c, Under S.module (Kept S) c o
  keeps : inCallee k = false → Keeps h o

/-- What a step from the stack `k` can be. -/
def After (S : Setting Mem V F C) (p : Push F) (k : List (Frame (Op F) C)) : Act (Op F) C → Prop
  | .tau k' => Goes S p k'
  | .test _ k' => ∀ n, Goes S p (k' n)
  | .op o k' => (dialect o = some (.push p) ∨ dialect o = some (.made p false) ∨
      Plain S p.queue k o) ∧ Running S p k'
  | .stop => True

variable {k u v w : List (Frame (Op F) C)}

theorem Clear.kept {c : Bool} {o : Op F} (h : Under S.module (Clear S.module) c o) :
    Under S.module (Kept S) c o :=
  h.mono fun hc => ⟨hc.tame, fun _ => hc⟩

theorem Kept.not_wtc {o : Op F} (h : Under S.module (Kept S) true o) : dialect o = none :=
  h.1.1.1 rfl

theorem Owned.running (hv : Owned S.module p v) : Running S p v := .mk .nil hv

theorem Owned.next (hv : Owned S.module p v) : After S p v (next v) := by
  have hsat := next_sat inherits_all hv.sat
  have hends := next_ends_loop hv.ends fun e he => by
    obtain ⟨j, rfl, rfl⟩ := hv.sat _ he
    rfl
  cases hn : Control.next v with
  | tau k =>
    rw [hn] at hsat hends
    exact hends.imp id fun hl => Owned.running ⟨hsat, hl⟩
  | test c k =>
    rw [hn] at hsat hends
    exact fun n => (hends n).imp id fun hl => Owned.running ⟨hsat n, hl⟩
  | stop => trivial
  | op o k =>
    rw [hn] at hsat hends
    obtain ⟨rest, k', rfl, hb, hk⟩ := hsat
    have hown : Owned S.module p (.block rest :: k') :=
      ⟨List.forall_mem_cons.2 ⟨hb.2, hk⟩, hends⟩
    refine ⟨?_, hown.running⟩
    rcases hb.1 with ⟨hd, hclear, hkeeps⟩ | hd
    · exact .inr (.inr ⟨hd, ⟨_, Clear.kept hclear⟩, fun _ => hkeeps⟩)
    · exact .inl hd

/-- A step in the loop. -/
theorem Running.next (hk : Running S p k) : After S p k (next k) := by
  cases hk with
  | @mk w v hw hv =>
    by_cases hne : w = []
    · subst hne
      exact hv.next
    · have hstep := called_next (v := v) hw hne
      cases hn : Control.next (w ++ v) with
      | tau k =>
        rw [hn] at hstep
        obtain ⟨w', hw', rfl⟩ := hstep
        exact .inr (.mk hw' hv)
      | test c k =>
        rw [hn] at hstep
        intro n
        obtain ⟨w', hw', he⟩ := hstep n
        exact .inr (he ▸ .mk hw' hv)
      | stop => trivial
      | op o k =>
        rw [hn] at hstep
        obtain ⟨ho, w', hw', -, rfl⟩ := hstep
        refine ⟨?_, .mk hw' hv⟩
        rcases ho with ho | ho
        · refine .inr (.inr ⟨Kept.not_wtc ho, ⟨_, ho⟩, fun hc => ?_⟩)
          rw [inCallee_of_ends (hw.ends.resolve_left hne)] at hc
          cases hc
        · exact .inr (.inl ho)

/-- Functions are called. -/
theorem Running.called (hw : Called (Inner S p) w) (hk : Running S p k) : Running S p (w ++ k) := by
  obtain ⟨hw', hv⟩ := hk
  rw [← List.append_assoc]
  exact .mk (hw.append hw') hv

theorem Running.ends (hk : Running S p k) : Ends IsLoop k := by
  obtain ⟨-, hv⟩ := hk
  exact hv.ends.append

theorem running_start {l : Loop (Op F) C} (hacc : Accepted S.module l p) :
    Running S p l.start := by
  have hl : Own S.module p l.cond ∧ Own S.module p l.body ∧ Own S.module p l.step :=
    ⟨hacc.cond, hacc.body, hacc.step⟩
  refine Owned.running ⟨?_, ends_start l⟩
  unfold Loop.start
  split_ifs
  · exact List.forall_mem_cons.2 ⟨hl.1, List.forall_mem_cons.2 ⟨hl, nofun⟩⟩
  · exact List.forall_mem_cons.2 ⟨hl.2.1, List.forall_mem_cons.2 ⟨hl, nofun⟩⟩

/-! ## Moving a run -/

@[simp] theorem ops_prepend (os : List (Op F)) (b : Code (Op F) C) :
    (b.prepend os).ops = os ++ b.ops := by
  induction os with
  | nil => rfl
  | cons o os ih => exact congrArg (o :: ·) ih

theorem called_shim {Q : Op F → Prop} {os : List (Op F)} (hos : ∀ o ∈ os, Q o) :
    Called Q (shim os : List (Frame (Op F) C)) :=
  Called.nil.call fun o ho => hos o (by simpa [Code.ops] using ho)

/-- What is left of `push_run`. -/
def Rest (p : Push F) (o : Op F) : Prop :=
  (∃ n, dialect o = some (.flush p n)) ∨ ∃ n j, dialect o = some (.settle p n j)

/-- The frames of `push_run`, with operations `Q` of the element type. Elements are left in the run
only as long as it goes on. -/
inductive Flushing (Q : Op F → Prop) (p : Push F) : List V → List (Frame (Op F) C) → Prop
  | going {run above os o below} (ha : Called Q above) (hos : ∀ o ∈ os, Q o) (ho : Rest p o)
      (hb : Called Q below) (hne : below ≠ []) :
      Flushing Q p run (above ++ .block (Code.done.prepend (os ++ [o])) :: below)
  | emptied {calls} (hc : Called Q calls) : Flushing Q p [] calls

variable {Q : Op F → Prop} {run : List V} {o : Op F} {os : List (Op F)}

theorem flushing_shim (hos : ∀ o ∈ os, Q o) (ho : Rest p o) (hw : Called Q w) :
    Flushing Q p run (shim (os ++ [o]) ++ w) := by
  have hcall : Called Q (.call :: w) := by
    refine ⟨.inr ?_, List.forall_mem_cons.2 ⟨trivial, hw.sat⟩⟩
    rcases hw.ends with rfl | he
    · exact ⟨[], .call, rfl, rfl⟩
    · exact he.cons
  exact .going .nil hos ho hcall (by simp)

theorem flushing_start (ho : Rest p o) (hw : Called Q w) : Flushing Q p run (shim [o] ++ w) :=
  have hnone : ∀ o ∈ ([] : List (Op F)), Q o := fun _ h => absurd h List.not_mem_nil
  flushing_shim hnone ho hw

/-- `push_run` begins. -/
theorem flushing_flush (n : Nat) : Flushing (C := C) Q p run (shim [own (.flush p n)]) := by
  simpa using flushing_start (C := C) (o := own (.flush p n)) (.inl ⟨n, rfl⟩) Called.nil

/-- A function of the element type is called. -/
theorem Flushing.called (hu : Called Q u) (hw : Flushing Q p run w) :
    Flushing Q p run (u ++ w) := by
  cases hw with
  | going ha hos ho hb hne =>
    rw [← List.append_assoc]
    exact .going (hu.append ha) hos ho hb hne
  | emptied hk => exact .emptied (hu.append hk)

/-- What a step of `push_run` can be; `v` is below it. -/
def FlushStep (Q : Op F → Prop) (p : Push F) (run : List V) (v : List (Frame (Op F) C)) :
    Act (Op F) C → Prop
  | .tau k => ∃ w, Flushing Q p run w ∧ k = w ++ v
  | .test _ k => ∀ n, ∃ w, Flushing Q p run w ∧ k n = w ++ v
  | .op o k => (Q o ∧ ∃ w, Flushing Q p run w ∧ k = w ++ v) ∨
      (Rest p o ∧ ∃ w, Called Q w ∧ k = w ++ v)
  | .stop => True

theorem CalledStep.flush {a : Act (Op F) C} (h : CalledStep Q (u ++ v) a)
    (hu : ∀ {w}, Called Q w → Flushing Q p run (w ++ u)) : FlushStep Q p run v a := by
  cases a with
  | tau k =>
    obtain ⟨w, hw, rfl⟩ := h
    exact ⟨w ++ u, hu hw, by simp⟩
  | test c k =>
    intro n
    obtain ⟨w, hw, he⟩ := h n
    exact ⟨w ++ u, hu hw, by simp [he]⟩
  | op o k =>
    obtain ⟨ho, w, hw, -, rfl⟩ := h
    exact .inl ⟨ho, w ++ u, hu hw, by simp⟩
  | stop => trivial

theorem Flushing.next (h : Flushing Q p run w) (hne : w ≠ []) :
    FlushStep Q p run v (next (w ++ v)) := by
  cases h with
  | emptied hw =>
    have hstep := called_next (v := [] ++ v) hw hne
    exact hstep.flush fun hw => by simpa using Flushing.emptied hw
  | @going _ above os o below ha hos ho hb hbelow =>
    by_cases hnil : above = []
    · subst hnil
      cases os with
      | nil =>
        refine .inr ⟨ho, .block .done :: below, ⟨.inr ?_, ?_⟩, rfl⟩
        · exact (hb.ends.resolve_left hbelow).cons
        · exact List.forall_mem_cons.2 ⟨fun _ ho => absurd ho List.not_mem_nil, hb.sat⟩
      | cons e os =>
        obtain ⟨he, hos⟩ := List.forall_mem_cons.1 hos
        exact .inl ⟨he, _, .going .nil hos ho hb hbelow, rfl⟩
    · rw [List.append_assoc]
      have hstep := called_next (v := .block (Code.done.prepend (os ++ [o])) :: below ++ v) ha hnil
      exact hstep.flush fun hw => .going hw hos ho hb hbelow

/-- While elements are left in the run, a push is under way. -/
theorem Flushing.inPush (h : Flushing Q p run w) (hrun : run ≠ []) : inPush (w ++ v) = true := by
  cases h with
  | emptied => exact absurd rfl hrun
  | @going _ above os o below ha hos ho hb hbelow =>
    refine List.any_eq_true.2 ⟨.block (Code.done.prepend (os ++ [o])), by simp, ?_⟩
    refine List.any_eq_true.2 ⟨o, by simp, ?_⟩
    rcases ho with ⟨n, ho⟩ | ⟨n, j, ho⟩ <;> simp [ho]

end Wtc.BatchPushes
