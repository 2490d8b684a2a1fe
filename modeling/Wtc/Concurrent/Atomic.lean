import Mathlib.Logic.Relation
import Mathlib.Logic.Function.Basic
import Wtc.Concurrent.History

/-!
# The atomic object

The object whose calls take effect at single moments.
Between its call and its answer a thread's parts take effect one by one (`Step.lin`).

An answer that leaves the object as it is need not be fixed at the moment it becomes right:
the thread may take note of it (`Step.see`) and settle on it later (`Step.settle`).
A failed operation of a real program is often of that kind, since the program learns only
afterwards that what it read at two moments was the state at one of them.

* `Atomic.Run.linearizable` — every history of the atomic object is linearizable
-/

namespace Wtc.Concurrent

variable {Tid Op Ans σ : Type}

/-- An open call: the parts still to take effect, the answers of the others, and the answers of
the next part that were right, without effect, at some moment since the part before it. -/
structure Pending (Op Ans : Type) where
  todo : List Op
  done : List Ans
  seen : Ans → Prop

/-- A call just made. -/
def Pending.new (ops : List Op) : Pending Op Ans := ⟨ops, [], fun _ => False⟩

namespace Atomic

/-- The object's state and the open calls. -/
structure State (Tid Op Ans σ : Type) where
  obj : σ
  pend : Tid → Option (Pending Op Ans)

/-- The state before any call. -/
def init (O : Object σ Op Ans) : State Tid Op Ans σ := ⟨O.init, fun _ => none⟩

variable {t u : Tid} {s s' : State Tid Op Ans σ} {O : Object σ Op Ans} {h : List (Event Tid Op Ans)}
  {L L₁ L₂ : List (Point Op Ans)} {ops rest : List Op}

section Steps

variable [DecidableEq Tid]

/-- Replaces the open call of thread `t`. -/
def State.set (s : State Tid Op Ans σ) (t : Tid) (p : Option (Pending Op Ans)) :
    State Tid Op Ans σ :=
  { s with pend := Function.update s.pend t p }

@[simp] theorem State.set_obj (s : State Tid Op Ans σ) (t : Tid) (p : Option (Pending Op Ans)) :
    (s.set t p).obj = s.obj := rfl

@[simp] theorem State.set_pend_self (s : State Tid Op Ans σ) (t : Tid)
    (p : Option (Pending Op Ans)) : (s.set t p).pend t = p := by simp [State.set]

theorem State.set_pend_ne (s : State Tid Op Ans σ) (h : u ≠ t) (p : Option (Pending Op Ans)) :
    (s.set t p).pend u = s.pend u := by simp [State.set, h]

/-- Thread `t` has these parts of its call to do and has got these answers. -/
def State.Pend (s : State Tid Op Ans σ) (t : Tid) (todo : List Op) (done : List Ans) : Prop :=
  ∃ seen, s.pend t = some ⟨todo, done, seen⟩

variable {todo : List Op}

omit [DecidableEq Tid] in
theorem State.Pend.of_eq {done : List Ans} (he : s'.pend t = s.pend t) (h : s.Pend t todo done) :
    s'.Pend t todo done := by
  obtain ⟨seen, h⟩ := h
  exact ⟨seen, he.trans h⟩

/-- The state after thread `t` took a part of its call, to the object's state `q`. -/
def State.lin (s : State Tid Op Ans σ) (t : Tid) (todo : List Op) (done : List Ans) (q : σ) :
    State Tid Op Ans σ :=
  { s.set t (some ⟨todo, done, fun _ => False⟩) with obj := q }

@[simp] theorem State.lin_obj (s : State Tid Op Ans σ) (t : Tid) (todo : List Op)
    (done : List Ans) (q : σ) : (s.lin t todo done q).obj = q := rfl

theorem State.lin_pend_self (s : State Tid Op Ans σ) (t : Tid) (todo : List Op)
    (done : List Ans) (q : σ) : (s.lin t todo done q).Pend t todo done :=
  ⟨_, State.set_pend_self _ _ _⟩

theorem State.lin_pend_ne (s : State Tid Op Ans σ) (h : u ≠ t) (todo : List Op) (done : List Ans)
    (q : σ) : (s.lin t todo done q).pend u = s.pend u :=
  State.set_pend_ne _ h _

/-- What may happen between calls and answers. -/
inductive Step (O : Object σ Op Ans) : State Tid Op Ans σ → State Tid Op Ans σ → Prop
  | lin {s : State Tid Op Ans σ} {t : Tid} {op : Op} {rest : List Op} {done : List Ans}
      {seen : Ans → Prop} {a : Ans} {q : σ} (hp : s.pend t = some ⟨op :: rest, done, seen⟩)
      (hs : O.step s.obj op a q) :
      Step O s { s.set t (some ⟨rest, done ++ [a], fun _ => False⟩) with obj := q }
  | see {s : State Tid Op Ans σ} {t : Tid} {op : Op} {rest : List Op} {done : List Ans}
      {seen : Ans → Prop} {a : Ans} (hp : s.pend t = some ⟨op :: rest, done, seen⟩)
      (hs : O.step s.obj op a s.obj) :
      Step O s (s.set t (some ⟨op :: rest, done, fun b => b = a ∨ seen b⟩))
  | settle {s : State Tid Op Ans σ} {t : Tid} {op : Op} {rest : List Op} {done : List Ans}
      {seen : Ans → Prop} {a : Ans} (hp : s.pend t = some ⟨op :: rest, done, seen⟩)
      (hs : seen a) : Step O s (s.set t (some ⟨rest, done ++ [a], fun _ => False⟩))

/-- Any number of steps. -/
abbrev Steps (O : Object σ Op Ans) : State Tid Op Ans σ → State Tid Op Ans σ → Prop :=
  Relation.ReflTransGen (Step O)

/-- A part takes effect. -/
theorem State.Pend.lin {op : Op} {done : List Ans} {a : Ans} {q : σ}
    (hp : s.Pend t (op :: todo) done) (hs : O.step s.obj op a q) :
    Steps O s (s.lin t todo (done ++ [a]) q) := by
  obtain ⟨seen, hp⟩ := hp
  exact .single (.lin hp hs)

/-- A thread takes note of an answer that is right now and leaves the object as it is. -/
theorem State.Pend.see {op : Op} {done : List Ans} {a : Ans} (hp : s.Pend t (op :: todo) done)
    (hs : O.step s.obj op a s.obj) :
    ∃ s', Steps O s s' ∧ s'.obj = s.obj ∧ (∀ u, u ≠ t → s'.pend u = s.pend u) ∧
      ∃ seen, s'.pend t = some ⟨op :: todo, done, seen⟩ ∧ seen a := by
  obtain ⟨seen, hp⟩ := hp
  exact ⟨_, .single (.see hp hs), rfl, fun u hu => State.set_pend_ne _ hu _, _,
    State.set_pend_self _ _ _, Or.inl rfl⟩

/-- A thread settles on an answer it has taken note of. -/
theorem Steps.settle {op : Op} {done : List Ans} {seen : Ans → Prop} {a : Ans}
    (hp : s.pend t = some ⟨op :: todo, done, seen⟩) (ha : seen a) :
    Steps O s (s.lin t todo (done ++ [a]) s.obj) :=
  .single (.settle hp ha)

/-- The states the atomic object reaches, with the history on the way. -/
inductive Run (O : Object σ Op Ans) : List (Event Tid Op Ans) → State Tid Op Ans σ → Prop
  | init : Run O [] (init O)
  | call {h : List (Event Tid Op Ans)} {s : State Tid Op Ans σ} {t : Tid} (hr : Run O h s)
      (hp : s.pend t = none) (ops : List Op) :
      Run O (h ++ [.call t ops]) (s.set t (some (.new ops)))
  | step {h : List (Event Tid Op Ans)} {s s' : State Tid Op Ans σ} (hr : Run O h s)
      (hs : Step O s s') : Run O h s'
  | ret {h : List (Event Tid Op Ans)} {s : State Tid Op Ans σ} {t : Tid} {ans : List Ans}
      {seen : Ans → Prop} (hr : Run O h s) (hp : s.pend t = some ⟨[], ans, seen⟩) :
      Run O (h ++ [.ret t ans]) (s.set t none)

theorem Run.steps (hr : Run O h s) (hs : Steps O s s') : Run O h s' := by
  induction hs with
  | refl => exact hr
  | tail _ hstep ih => exact ih.step hstep

end Steps

/-! ## The order built along a run -/

/-- What the order built so far says of an open call. -/
structure Placed (O : Object σ Op Ans) (h : List (Event Tid Op Ans)) (L : List (Point Op Ans))
    (t : Tid) (p : Pending Op Ans) (i : Nat) (ops : List Op) : Prop where
  isOpen : Open h t i ops
  le : p.done.length ≤ ops.length
  todo : ops.drop p.done.length = p.todo
  done : ∀ k a, p.done[k]? = some a → ∃ x ∈ L, x.call = i ∧ x.part = k ∧ x.ans = a
  below : ∀ x ∈ L, x.call = i → x.part < p.done.length
  seen : ∀ op rest a, p.todo = op :: rest → p.seen a → ∃ L₁ L₂ q, L = L₁ ++ L₂ ∧
    O.Exec O.init L₁ q ∧ O.step q op a q ∧ ∀ y ∈ L₂, ¬ Before h y.call i ∧ y.call ≠ i

/-- The order `L` built along a run with history `h` that has reached `s`. -/
structure Tracks (O : Object σ Op Ans) (h : List (Event Tid Op Ans)) (s : State Tid Op Ans σ)
    (L : List (Point Op Ans)) : Prop where
  exec : O.Exec O.init L s.obj
  lin : Linearization O h L
  idle : ∀ t, s.pend t = none → ∀ i ops, ¬ Open h t i ops
  pend : ∀ t p, s.pend t = some p → ∃ i ops, Placed O h L t p i ops

theorem call_lt (hl : Linearization O h L) {p : Point Op Ans} (hp : p ∈ L) : p.call < h.length := by
  obtain ⟨t, ops, hc, -⟩ := hl.part_of p hp
  exact lt_length_of_getElem? hc

/-- An order for a history that has grown by an event which answers no call. -/
theorem linearization_append (hl : Linearization O h L) {e : Event Tid Op Ans}
    (hans : ∀ t ops ans i, e = .ret t ans → Open h t i ops →
      ans.length = ops.length ∧ ∀ k a, ans[k]? = some a →
      ∃ p ∈ L, p.call = i ∧ p.part = k ∧ p.ans = a) :
    Linearization O (h ++ [e]) L where
  legal := hl.legal
  part_of := by
    intro p hp
    obtain ⟨t, ops, hc, ho⟩ := hl.part_of p hp
    exact ⟨t, ops, getElem?_append_singleton.mpr (Or.inl hc), ho⟩
  order := hl.order
  closed := hl.closed
  answered := by
    intro i j t ops ans ha
    rcases ha.of_append with ha | ⟨-, he, ho⟩
    · exact hl.answered i j t ops ans ha
    · exact hans t ops ans i he ho
  realtime := by
    refine hl.realtime.imp_of_mem ?_
    intro x y hx hy hxy
    rw [before_append (Nat.le_of_lt (call_lt hl hx))]
    exact hxy

/-- A placed call stays placed when the history grows by an event of another thread. -/
theorem Placed.append {p : Pending Op Ans} {i : Nat} (hp : Placed O h L t p i ops)
    {e : Event Tid Op Ans} (he : e.thread ≠ t) : Placed O (h ++ [e]) L t p i ops where
  isOpen := hp.isOpen.append he
  le := hp.le
  todo := hp.todo
  done := hp.done
  below := hp.below
  seen := by
    intro op rest a htodo ha
    obtain ⟨L₁, L₂, q, hL, hq, hs, hy⟩ := hp.seen op rest a htodo ha
    refine ⟨L₁, L₂, q, hL, hq, hs, fun y hyL => ⟨?_, (hy y hyL).2⟩⟩
    rw [before_append (Nat.le_of_lt (lt_length_of_getElem? hp.isOpen.call))]
    exact (hy y hyL).1

/--
Putting one more part of `t`'s open call into the order, after `L₁` and before `L₂`.

This is the only way the order changes: `L₂` is empty when the part takes effect now, and is
what came since when the thread settles on an answer that it saw earlier.
-/
theorem linearization_insert {q : σ} {p : Pending Op Ans} {i : Nat} {op : Op} {a : Ans}
    (hl : Linearization O h (L₁ ++ L₂)) (hp : Placed O h (L₁ ++ L₂) t p i ops)
    (htodo : p.todo = op :: rest) (hy : ∀ y ∈ L₂, ¬ Before h y.call i ∧ y.call ≠ i)
    (hexec : O.Exec O.init (L₁ ++ ⟨i, p.done.length, op, a⟩ :: L₂) q) :
    Linearization O h (L₁ ++ ⟨i, p.done.length, op, a⟩ :: L₂) := by
  have hmem : ∀ x : Point Op Ans, x ∈ L₁ ++ ⟨i, p.done.length, op, a⟩ :: L₂ ↔
      x ∈ L₁ ++ L₂ ∨ x = ⟨i, p.done.length, op, a⟩ := by
    intro x
    simp only [List.mem_append, List.mem_cons]
    tauto
  have hop : ops[p.done.length]? = some op := by
    have hd := congrArg List.head? hp.todo
    rw [htodo, List.head?_drop] at hd
    simpa using hd
  have hsub := hl.order
  have hrt := hl.realtime
  rw [List.pairwise_append] at hsub hrt
  refine ⟨⟨q, hexec⟩, ?_, ?_, ?_, ?_, ?_⟩
  · intro x hx
    rcases (hmem x).mp hx with hx | rfl
    · exact hl.part_of x hx
    · exact ⟨t, ops, hp.isOpen.call, hop⟩
  · rw [List.pairwise_append]
    refine ⟨hsub.1, List.pairwise_cons.mpr ⟨?_, hsub.2.1⟩, ?_⟩
    · intro y hyL he
      exact absurd he.symm (hy y hyL).2
    · intro x hx y hyL
      rcases List.mem_cons.mp hyL with rfl | hyL
      · exact hp.below x (List.mem_append_left _ hx)
      · exact hsub.2.2 x hx y hyL
  · intro x hx k hk
    rcases (hmem x).mp hx with hx | rfl
    · obtain ⟨x', hx', h1, h2⟩ := hl.closed x hx k hk
      exact ⟨x', (hmem x').mpr (Or.inl hx'), h1, h2⟩
    · obtain ⟨x', hx', h1, h2, -⟩ := hp.done k _ (List.getElem?_eq_getElem hk)
      exact ⟨x', (hmem x').mpr (Or.inl hx'), h1, h2⟩
  · intro i' j t' ops' ans ha
    obtain ⟨h1, h2⟩ := hl.answered i' j t' ops' ans ha
    refine ⟨h1, fun k b hk => ?_⟩
    obtain ⟨x, hx, hx'⟩ := h2 k b hk
    exact ⟨x, (hmem x).mpr (Or.inl hx), hx'⟩
  · rw [List.pairwise_append]
    refine ⟨hrt.1, List.pairwise_cons.mpr ⟨?_, hrt.2.1⟩, ?_⟩
    · exact fun y hyL => (hy y hyL).1
    · intro x hx y hyL
      rcases List.mem_cons.mp hyL with rfl | hyL
      · exact hp.isOpen.not_before
      · exact hrt.2.2 x hx y hyL

/-- The thread whose part was put in: one part fewer to do. -/
theorem placed_insert_self {p : Pending Op Ans} {i : Nat} {op : Op} {a : Ans}
    (hp : Placed O h (L₁ ++ L₂) t p i ops) (htodo : p.todo = op :: rest) :
    Placed O h (L₁ ++ ⟨i, p.done.length, op, a⟩ :: L₂) t ⟨rest, p.done ++ [a], fun _ => False⟩
      i ops := by
  have hlen : p.done.length < ops.length := by
    have hd := congrArg List.length hp.todo
    rw [htodo, List.length_drop, List.length_cons] at hd
    omega
  refine ⟨hp.isOpen, by simp; omega, ?_, ?_, ?_, fun _ _ _ _ hf => hf.elim⟩
  · have hd := hp.todo
    rw [htodo, List.drop_eq_getElem_cons hlen] at hd
    simpa using (List.cons.inj hd).2
  · intro k b hk
    rcases getElem?_append_singleton.mp hk with hk | ⟨rfl, rfl⟩
    · obtain ⟨x, hx, hx'⟩ := hp.done k b hk
      refine ⟨x, ?_, hx'⟩
      rcases List.mem_append.mp hx with hx | hx
      · exact List.mem_append_left _ hx
      · exact List.mem_append_right _ (List.mem_cons_of_mem _ hx)
    · exact ⟨_, List.mem_append_right _ List.mem_cons_self, rfl, rfl, rfl⟩
  · intro x hx hc
    simp only [List.length_append, List.length_cons, List.length_nil]
    rcases List.mem_append.mp hx with hx | hx
    · have := hp.below x (List.mem_append_left _ hx) hc
      omega
    · rcases List.mem_cons.mp hx with rfl | hx
      · simp
      · have := hp.below x (List.mem_append_right _ hx) hc
        omega

/--
The other threads stay placed.

Where such a thread has seen an answer, at a cut of the order, the new part falls before the cut
or after it. Before the cut it must leave the state as it is (`hstay`), unless it stands at the
very end; after the cut it must not belong to a call answered earlier, and it does not, being
open.
-/
theorem placed_insert_ne {p p' : Pending Op Ans} {i i' : Nat} {ops' : List Op} {op : Op} {a : Ans}
    (hu : u ≠ t) (hp : Open h t i ops) (hp' : Placed O h (L₁ ++ L₂) u p' i' ops')
    (hstay : L₂ = [] ∨ ∃ q, O.Exec O.init L₁ q ∧ O.step q op a q) :
    Placed O h (L₁ ++ ⟨i, p.done.length, op, a⟩ :: L₂) u p' i' ops' := by
  have hii : i ≠ i' := by
    rintro rfl
    have hc := hp.call
    rw [hp'.isOpen.call] at hc
    simp only [Option.some.injEq, Event.call.injEq] at hc
    exact hu hc.1
  refine ⟨hp'.isOpen, hp'.le, hp'.todo, ?_, ?_, ?_⟩
  · intro k b hk
    obtain ⟨x, hx, hx'⟩ := hp'.done k b hk
    refine ⟨x, ?_, hx'⟩
    rcases List.mem_append.mp hx with hx | hx
    · exact List.mem_append_left _ hx
    · exact List.mem_append_right _ (List.mem_cons_of_mem _ hx)
  · intro x hx hc
    rcases List.mem_append.mp hx with hx | hx
    · exact hp'.below x (List.mem_append_left _ hx) hc
    · rcases List.mem_cons.mp hx with rfl | hx
      · exact absurd hc hii
      · exact hp'.below x (List.mem_append_right _ hx) hc
  · intro op' rest' b htodo hb
    obtain ⟨M₁, M₂, q, hM, hq, hs, hy⟩ := hp'.seen op' rest' b htodo hb
    rcases List.append_eq_append_iff.mp hM with ⟨c, hc₁, hc₂⟩ | ⟨c, hc₁, hc₂⟩
    · -- the cut lies in `L₂`
      rcases hstay with hnil | ⟨q₁, hq₁, hs₁⟩
      · have hc : c = [] ∧ M₂ = [] := by simpa [hnil] using hc₂.symm
        refine ⟨L₁, [⟨i, p.done.length, op, a⟩], q, by rw [hnil], ?_, hs, ?_⟩
        · rw [hc₁, hc.1, List.append_nil] at hq
          exact hq
        · intro y hyL
          rw [List.mem_singleton] at hyL
          rw [hyL]
          exact ⟨hp.not_before, hii⟩
      · refine ⟨L₁ ++ ⟨i, p.done.length, op, a⟩ :: c, M₂, q, by simp [hc₂], ?_, hs, hy⟩
        exact Object.Exec.insert (hc₁ ▸ hq) hq₁ hs₁
    · -- the cut lies in `L₁`
      refine ⟨M₁, c ++ ⟨i, p.done.length, op, a⟩ :: L₂, q, by simp [hc₁], hq, hs, ?_⟩
      intro y hyL
      rcases List.mem_append.mp hyL with hyc | hyc
      · exact hy y (by rw [hc₂]; exact List.mem_append_left _ hyc)
      · rcases List.mem_cons.mp hyc with rfl | hyc
        · exact ⟨hp.not_before, hii⟩
        · exact hy y (by rw [hc₂]; exact List.mem_append_right _ hyc)

variable [DecidableEq Tid]

theorem Tracks.step (ht : Tracks O h s L) (hs : Step O s s') : ∃ L', Tracks O h s' L' := by
  cases hs with
  | @lin t op rest done seen a q hpend hstep =>
    obtain ⟨i, ops, hpl⟩ := ht.pend t _ hpend
    have hexec : O.Exec O.init (L ++ [⟨i, done.length, op, a⟩]) q :=
      Object.exec_append.mpr ⟨_, ht.exec, .cons hstep (.nil q)⟩
    have hl : Linearization O h (L ++ []) := by rw [List.append_nil]; exact ht.lin
    have hpl' : Placed O h (L ++ []) t ⟨op :: rest, done, seen⟩ i ops := by
      rw [List.append_nil]; exact hpl
    refine ⟨_, hexec, linearization_insert hl hpl' rfl (by simp) hexec, ?_, ?_⟩
    · intro u hu
      by_cases hut : u = t
      · subst hut; simp at hu
      · exact ht.idle u (by simpa [State.set_pend_ne s hut] using hu)
    · intro u p hu
      by_cases hut : u = t
      · subst hut
        obtain rfl : p = ⟨rest, done ++ [a], fun _ => False⟩ := by simpa using hu.symm
        exact ⟨i, ops, placed_insert_self hpl' rfl⟩
      · obtain ⟨i', ops', hp'⟩ := ht.pend u p (by simpa [State.set_pend_ne s hut] using hu)
        rw [← List.append_nil L] at hp'
        exact ⟨i', ops', placed_insert_ne (p := ⟨op :: rest, done, seen⟩) hut hpl.isOpen hp'
          (Or.inl rfl)⟩
  | @see t op rest done seen a hpend hstep =>
    obtain ⟨i, ops, hpl⟩ := ht.pend t _ hpend
    refine ⟨L, ht.exec, ht.lin, ?_, ?_⟩
    · intro u hu
      by_cases hut : u = t
      · subst hut; simp at hu
      · exact ht.idle u (by rwa [State.set_pend_ne s hut] at hu)
    · intro u p hu
      by_cases hut : u = t
      · subst hut
        obtain rfl : p = ⟨op :: rest, done, fun b => b = a ∨ seen b⟩ := by simpa using hu.symm
        refine ⟨i, ops, hpl.isOpen, hpl.le, hpl.todo, hpl.done, hpl.below, ?_⟩
        intro op' rest' b htodo hb
        obtain ⟨rfl, rfl⟩ : op = op' ∧ rest = rest' := by simpa using htodo
        rcases hb with rfl | hb
        · exact ⟨L, [], s.obj, by simp, ht.exec, hstep, by simp⟩
        · exact hpl.seen op rest b rfl hb
      · exact ht.pend u p (by rwa [State.set_pend_ne s hut] at hu)
  | @settle t op rest done seen a hpend hseen =>
    obtain ⟨i, ops, hpl⟩ := ht.pend t _ hpend
    obtain ⟨L₁, L₂, q, rfl, hq, hstep, hy⟩ := hpl.seen op rest a rfl hseen
    have hexec : O.Exec O.init (L₁ ++ ⟨i, done.length, op, a⟩ :: L₂) s.obj :=
      Object.Exec.insert ht.exec hq hstep
    refine ⟨_, hexec, linearization_insert ht.lin hpl rfl hy hexec, ?_, ?_⟩
    · intro u hu
      by_cases hut : u = t
      · subst hut; simp at hu
      · exact ht.idle u (by rwa [State.set_pend_ne s hut] at hu)
    · intro u p hu
      by_cases hut : u = t
      · subst hut
        obtain rfl : p = ⟨rest, done ++ [a], fun _ => False⟩ := by simpa using hu.symm
        exact ⟨i, ops, placed_insert_self hpl rfl⟩
      · obtain ⟨i', ops', hp'⟩ := ht.pend u p (by rwa [State.set_pend_ne s hut] at hu)
        exact ⟨i', ops', placed_insert_ne (p := ⟨op :: rest, done, seen⟩) hut hpl.isOpen hp'
          (Or.inr ⟨q, hq, hstep⟩)⟩

theorem Tracks.call (ht : Tracks O h s L) (hp : s.pend t = none) (ops : List Op) :
    Tracks O (h ++ [.call t ops]) (s.set t (some (.new ops))) L where
  exec := ht.exec
  lin := linearization_append ht.lin (by simp)
  idle := by
    intro u hu i ops' ho
    by_cases hut : u = t
    · subst hut; simp at hu
    · refine ht.idle u (by rwa [State.set_pend_ne s hut] at hu) i ops' ?_
      have hc : h[i]? = some (.call u ops') := by
        rcases getElem?_append_singleton.mp ho.call with hc | ⟨-, hc⟩
        · exact hc
        · exact absurd (Event.call.inj hc).1.symm hut
      exact ⟨hc, fun m e hm he => ho.after m e hm (getElem?_append_singleton.mpr (Or.inl he))⟩
  pend := by
    intro u p hu
    by_cases hut : u = t
    · subst hut
      obtain rfl : p = .new ops := by simpa using hu.symm
      refine ⟨h.length, ops, ⟨by simp, ?_⟩, by simp [Pending.new], by simp [Pending.new], ?_, ?_,
        fun _ _ _ _ hf => hf.elim⟩
      · intro m e hm he
        have := lt_length_of_getElem? he
        simp at this
        omega
      · intro k a hk
        simp [Pending.new] at hk
      · intro x hx hc
        have := call_lt ht.lin hx
        omega
    · obtain ⟨i, ops', hpl⟩ := ht.pend u p (by rwa [State.set_pend_ne s hut] at hu)
      exact ⟨i, ops', hpl.append (fun he => hut he.symm)⟩

theorem Tracks.ret (ht : Tracks O h s L) {ans : List Ans} {seen : Ans → Prop}
    (hp : s.pend t = some ⟨[], ans, seen⟩) : Tracks O (h ++ [.ret t ans]) (s.set t none) L := by
  obtain ⟨i, ops, hpl⟩ := ht.pend t _ hp
  refine ⟨ht.exec, linearization_append ht.lin ?_, ?_, ?_⟩
  · intro t' ops' ans' i' he ho
    obtain ⟨rfl, rfl⟩ : t = t' ∧ ans = ans' := by simpa using he
    obtain rfl := ho.unique hpl.isOpen
    have hc := ho.call
    rw [hpl.isOpen.call] at hc
    obtain rfl : ops = ops' := by simpa using hc
    refine ⟨?_, hpl.done⟩
    have hlen := hpl.le
    have hd := congrArg List.length hpl.todo
    simp only [List.length_drop, List.length_nil] at hd hlen
    omega
  · intro u hu i' ops' ho
    have hc : h[i']? = some (.call u ops') := by
      rcases getElem?_append_singleton.mp ho.call with hc | ⟨-, hc⟩
      · exact hc
      · cases hc
    by_cases hut : u = t
    · subst hut
      exact absurd rfl (ho.after h.length (.ret u ans) (lt_length_of_getElem? hc) (by simp))
    · refine ht.idle u (by rwa [State.set_pend_ne s hut] at hu) i' ops' ⟨hc, ?_⟩
      exact fun m e hm he => ho.after m e hm (getElem?_append_singleton.mpr (Or.inl he))
  · intro u p hu
    by_cases hut : u = t
    · subst hut; simp at hu
    · obtain ⟨i', ops', hpl'⟩ := ht.pend u p (by rwa [State.set_pend_ne s hut] at hu)
      exact ⟨i', ops', hpl'.append (fun he => hut he.symm)⟩

/-- **Every history of the atomic object is linearizable.** -/
theorem Run.linearizable (hr : Run O h s) : Linearizable O h := by
  have key : ∃ L, Tracks O h s L := by
    induction hr with
    | init =>
      refine ⟨[], .nil _, ⟨⟨_, .nil _⟩, by simp, .nil, by simp, ?_, .nil⟩,
        ?_, by simp [Atomic.init]⟩
      · intro i j t ops ans ha
        simpa using ha.call
      · intro t _ i ops ho
        simpa using ho.call
    | call _ hp ops ih =>
      obtain ⟨L, ht⟩ := ih
      exact ⟨L, ht.call hp ops⟩
    | step _ hs ih =>
      obtain ⟨L, ht⟩ := ih
      exact ht.step hs
    | ret _ hp ih =>
      obtain ⟨L, ht⟩ := ih
      exact ⟨L, ht.ret hp⟩
  obtain ⟨L, ht⟩ := key
  exact ⟨L, ht.lin⟩

end Atomic

end Wtc.Concurrent
