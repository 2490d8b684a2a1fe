import Mathlib.Data.List.Basic
import Mathlib.Data.List.Pairwise

/-!
# Histories and linearizability

A concurrent object is observed through its **history**: the calls its threads make and the
answers they get, in the order in which they happen.
`Linearizable` is the usual correctness condition on a history.

## Calls of several parts

A call asks for a *list* of operations, carried out one after another.
A single operation is a list of length one, and a batch is a longer list:
each part takes effect atomically and in the list's order, but parts of other calls may come
between them.
-/

namespace Wtc.Concurrent

variable {Tid Op Ans σ : Type}

/-! ## Histories -/

/-- A call or an answer, with the thread it belongs to. -/
inductive Event (Tid Op Ans : Type) where
  | call (t : Tid) (ops : List Op)
  | ret (t : Tid) (ans : List Ans)
  deriving DecidableEq, Repr

/-- The thread an event belongs to. -/
def Event.thread : Event Tid Op Ans → Tid
  | .call t _ => t
  | .ret t _ => t

/-- Event `j` answers the call made at event `i`: it is the next event of the same thread. -/
structure Answers (h : List (Event Tid Op Ans)) (i j : Nat) (t : Tid) (ops : List Op)
    (ans : List Ans) : Prop where
  call : h[i]? = some (.call t ops)
  ret : h[j]? = some (.ret t ans)
  lt : i < j
  between : ∀ m e, i < m → m < j → h[m]? = some e → e.thread ≠ t

/-- The call made at event `i` was answered before the one at event `i'` was made. -/
def Before (h : List (Event Tid Op Ans)) (i i' : Nat) : Prop :=
  ∃ j t ops ans, Answers h i j t ops ans ∧ j < i'

/-- The call made at event `i` by thread `t` has no answer yet. -/
structure Open (h : List (Event Tid Op Ans)) (t : Tid) (i : Nat) (ops : List Op) : Prop where
  call : h[i]? = some (.call t ops)
  after : ∀ m e, i < m → h[m]? = some e → e.thread ≠ t

variable {i m n j i' : Nat} {h : List (Event Tid Op Ans)} {ops ops' : List Op} {t : Tid}
  {e : Event Tid Op Ans}

theorem getElem?_append_singleton {α : Type} {l : List α} {a b : α} :
    (l ++ [a])[i]? = some b ↔ l[i]? = some b ∨ i = l.length ∧ a = b := by
  rcases Nat.lt_trichotomy i l.length with hi | hi | hi
  · rw [List.getElem?_append_left hi]
    constructor
    · exact Or.inl
    · rintro (h | ⟨h, -⟩)
      · exact h
      · omega
  · subst hi
    simp
  · rw [List.getElem?_eq_none (by simp; omega), List.getElem?_eq_none (by omega)]
    simp
    omega

/-- A position of a history is below its length. -/
theorem lt_length_of_getElem? {α : Type} {l : List α} {a : α} (h : l[i]? = some a) : i < l.length :=
  (List.getElem?_eq_some_iff.mp h).1

theorem pairwise_at {β : Type} {R : β → β → Prop} {l : List β} (hl : l.Pairwise R) {x y : β}
    (hm : l[m]? = some x) (hn : l[n]? = some y) (h : m < n) : R x y := by
  obtain ⟨hm', rfl⟩ := List.getElem?_eq_some_iff.1 hm
  obtain ⟨hn', rfl⟩ := List.getElem?_eq_some_iff.1 hn
  exact List.pairwise_iff_getElem.1 hl m n hm' hn' h

theorem Answers.lt_length {ans : List Ans} (ha : Answers h i j t ops ans) : j < h.length :=
  lt_length_of_getElem? ha.ret

/-- An answered call stays answered when the history grows. -/
theorem Answers.append {ans : List Ans} (ha : Answers h i j t ops ans) (e : Event Tid Op Ans) :
    Answers (h ++ [e]) i j t ops ans where
  call := getElem?_append_singleton.mpr (Or.inl ha.call)
  ret := getElem?_append_singleton.mpr (Or.inl ha.ret)
  lt := ha.lt
  between := by
    intro m e' h1 h2 he'
    rcases getElem?_append_singleton.mp he' with he' | ⟨rfl, -⟩
    · exact ha.between m e' h1 h2 he'
    · have := ha.lt_length
      omega

/-- An answer in a grown history is an old one, or the event just added. -/
theorem Answers.of_append {ans : List Ans} (ha : Answers (h ++ [e]) i j t ops ans) :
    Answers h i j t ops ans ∨ j = h.length ∧ e = .ret t ans ∧ Open h t i ops := by
  have hi : h[i]? = some (.call t ops) := by
    rcases getElem?_append_singleton.mp ha.call with hc | ⟨hc, -⟩
    · exact hc
    · have h1 := ha.lt
      have h2 := ha.lt_length
      simp at h2
      omega
  rcases getElem?_append_singleton.mp ha.ret with hr | ⟨hr, he⟩
  · left
    refine ⟨hi, hr, ha.lt, ?_⟩
    intro m e' h1 h2 he'
    exact ha.between m e' h1 h2 (getElem?_append_singleton.mpr (Or.inl he'))
  · right
    refine ⟨hr, he, hi, ?_⟩
    intro m e' h1 he'
    have hm := lt_length_of_getElem? he'
    exact ha.between m e' h1 (by omega) (getElem?_append_singleton.mpr (Or.inl he'))

/-- The event after an open call, of the same thread, is its answer. -/
theorem Open.answers (ho : Open h t i ops) (ans : List Ans) :
    Answers (h ++ [.ret t ans]) i h.length t ops ans where
  call := getElem?_append_singleton.mpr (Or.inl ho.call)
  ret := by simp
  lt := lt_length_of_getElem? ho.call
  between := by
    intro m e h1 h2 he
    rcases getElem?_append_singleton.mp he with he | ⟨rfl, -⟩
    · exact ho.after m e h1 he
    · omega

/-- Events of other threads leave a call open. -/
theorem Open.append (ho : Open h t i ops) (he : e.thread ≠ t) : Open (h ++ [e]) t i ops where
  call := getElem?_append_singleton.mpr (Or.inl ho.call)
  after := by
    intro m e' h1 he'
    rcases getElem?_append_singleton.mp he' with he' | ⟨-, rfl⟩
    · exact ho.after m e' h1 he'
    · exact he

/-- A thread has at most one open call. -/
theorem Open.unique (h1 : Open h t i ops) (h2 : Open h t i' ops') : i = i' := by
  rcases Nat.lt_trichotomy i i' with hlt | heq | hlt
  · exact absurd rfl (h1.after i' _ hlt h2.call)
  · exact heq
  · exact absurd rfl (h2.after i _ hlt h1.call)

/-- A call that is open has not been answered. -/
theorem Open.not_answers {t' : Tid} {ans : List Ans} (ho : Open h t i ops) :
    ¬ Answers h i j t' ops' ans := by
  intro ha
  have hc := ho.call
  rw [ha.call] at hc
  obtain ⟨rfl, rfl⟩ : t' = t ∧ ops' = ops := by simpa using hc
  exact ho.after j _ ha.lt ha.ret rfl

theorem Open.not_before (ho : Open h t i ops) : ¬ Before h i i' := by
  rintro ⟨j, t', ops', ans, ha, -⟩
  exact ho.not_answers ha

/-- Whether one call precedes another, both being in the history, does not change later. -/
theorem before_append (hi' : i' ≤ h.length) : Before (h ++ [e]) i i' ↔ Before h i i' := by
  constructor
  · rintro ⟨j, t, ops, ans, ha, hj⟩
    rcases ha.of_append with ha | ⟨rfl, -⟩
    · exact ⟨j, t, ops, ans, ha, hj⟩
    · omega
  · rintro ⟨j, t, ops, ans, ha, hj⟩
    exact ⟨j, t, ops, ans, ha.append e, hj⟩

theorem Open.of_append (ho : Open (h ++ [e]) t i ops) (he : e.thread ≠ t) : Open h t i ops where
  call := by
    rcases getElem?_append_singleton.mp ho.call with hc | ⟨-, rfl⟩
    · exact hc
    · exact absurd rfl he
  after m e' hm he' := ho.after m e' hm (getElem?_append_singleton.mpr (Or.inl he'))

/-- A thread calls again only after its answer. -/
def Sequential (h : List (Event Tid Op Ans)) : Prop :=
  ∀ (i i' : Nat) (t : Tid) (ops ops' : List Op), h[i]? = some (.call t ops) →
    h[i']? = some (.call t ops') → i < i' → Before h i i'

/-! ## Sequential objects -/

/--
A sequential object: its first state, and which answers an operation may give in a state with
the state that follows. The answer determines the next state.
-/
structure Object (σ Op Ans : Type) where
  init : σ
  step : σ → Op → Ans → σ → Prop
  det : ∀ {q op a q₁ q₂}, step q op a q₁ → step q op a q₂ → q₁ = q₂

/-- One part of a call, put in its place in a sequential order: the call's event, the part's
number, the operation and its answer. -/
@[ext] structure Point (Op Ans : Type) where
  call : Nat
  part : Nat
  op : Op
  ans : Ans

/-- A sequence of operations with answers the object can give, one after another. -/
inductive Object.Exec (O : Object σ Op Ans) : σ → List (Point Op Ans) → σ → Prop
  | nil (q : σ) : Exec O q [] q
  | cons {q q' q'' : σ} {p : Point Op Ans} {l : List (Point Op Ans)}
      (hs : O.step q p.op p.ans q') (hl : Exec O q' l q'') : Exec O q (p :: l) q''

variable {O : Object σ Op Ans} {l₁ l₂ l L : List (Point Op Ans)}

theorem Object.exec_append {q q'' : σ} :
    O.Exec q (l₁ ++ l₂) q'' ↔ ∃ q', O.Exec q l₁ q' ∧ O.Exec q' l₂ q'' := by
  induction l₁ generalizing q with
  | nil =>
    constructor
    · exact fun h => ⟨q, .nil q, h⟩
    · rintro ⟨q', h, h'⟩
      cases h
      exact h'
  | cons p l ih =>
    constructor
    · intro h
      cases h with
      | cons hs hl =>
        obtain ⟨q', h1, h2⟩ := ih.mp hl
        exact ⟨q', .cons hs h1, h2⟩
    · rintro ⟨q', h, h'⟩
      cases h with
      | cons hs hl => exact .cons hs (ih.mpr ⟨q', hl, h'⟩)

/-- The state at some place of a sequence, and the operation there. -/
theorem Object.Exec.step_at {q q' : σ} (h : O.Exec q l q') {p : Point Op Ans}
    (hn : l[n]? = some p) : ∃ q₁ q₂, O.Exec q (l.take n) q₁ ∧ O.step q₁ p.op p.ans q₂ := by
  obtain ⟨hlt, hp⟩ := List.getElem?_eq_some_iff.1 hn
  have hsplit : l = l.take n ++ p :: l.drop (n + 1) := by
    rw [← hp, ← List.drop_eq_getElem_cons hlt, List.take_append_drop]
  rw [hsplit] at h
  obtain ⟨q₁, h1, h2⟩ := Object.exec_append.1 h
  cases h2 with
  | cons hs _ => exact ⟨q₁, _, h1, hs⟩

theorem Object.Exec.det {q q₁ q₂ : σ} (h₁ : O.Exec q l q₁) (h₂ : O.Exec q l q₂) : q₁ = q₂ := by
  induction h₁ with
  | nil => cases h₂; rfl
  | cons hs _ ih =>
    cases h₂ with
    | cons hs' hl' =>
      cases O.det hs hs'
      exact ih hl'

/-- An operation that leaves the state as it is may be put in where that state is reached. -/
theorem Object.Exec.insert {q q₁ q₂ : σ} {p : Point Op Ans} (h : O.Exec q (l₁ ++ l₂) q₂)
    (h₁ : O.Exec q l₁ q₁) (hp : O.step q₁ p.op p.ans q₁) : O.Exec q (l₁ ++ p :: l₂) q₂ := by
  obtain ⟨q', h1, h2⟩ := Object.exec_append.mp h
  cases h1.det h₁
  exact Object.exec_append.mpr ⟨_, h₁, .cons hp h2⟩

/-! ## Linearizability -/

/--
`L` is a sequential order of (parts of) the calls of `h` that explains every answer in `h`.

The order holds every part of every answered call, with the answer it got, and may hold parts
of calls still open; the parts of one call stand in their order; a call that was answered before
another was made comes first.
-/
structure Linearization (O : Object σ Op Ans) (h : List (Event Tid Op Ans))
    (L : List (Point Op Ans)) : Prop where
  legal : ∃ q, O.Exec O.init L q
  part_of : ∀ p ∈ L, ∃ t ops, h[p.call]? = some (.call t ops) ∧ ops[p.part]? = some p.op
  order : L.Pairwise fun x y => x.call = y.call → x.part < y.part
  closed : ∀ p ∈ L, ∀ k < p.part, ∃ p' ∈ L, p'.call = p.call ∧ p'.part = k
  answered : ∀ i j t ops ans, Answers h i j t ops ans → ans.length = ops.length ∧
    ∀ k a, ans[k]? = some a → ∃ p ∈ L, p.call = i ∧ p.part = k ∧ p.ans = a
  realtime : L.Pairwise fun x y => ¬ Before h y.call x.call

/-- The history has a linearization. -/
def Linearizable (O : Object σ Op Ans) (h : List (Event Tid Op Ans)) : Prop :=
  ∃ L, Linearization O h L

/-- An answered call of one operation has exactly one place. -/
theorem Linearization.place (hL : Linearization O h L) {op : Op} {a : Ans}
    (ha : Answers h i j t [op] [a]) :
    ∃ n p, L[n]? = some p ∧ p.call = i ∧ p.op = op ∧ p.ans = a ∧
      ∀ (m : Nat) (r : Point Op Ans), L[m]? = some r → r.call = i → m = n := by
  have single : ∀ r ∈ L, r.call = i → r.part = 0 ∧ r.op = op := by
    rintro r hr rfl
    obtain ⟨t', ops, hcall, hop⟩ := hL.part_of r hr
    obtain ⟨rfl, rfl⟩ : t' = t ∧ ops = [op] := by simpa using hcall.symm.trans ha.call
    have hlt := lt_length_of_getElem? hop
    have hz : r.part = 0 := by simpa using hlt
    rw [hz] at hop
    exact ⟨hz, (Option.some.inj hop).symm⟩
  obtain ⟨p, hp, hi, -, hans⟩ := (hL.answered _ _ _ _ _ ha).2 0 a rfl
  obtain ⟨n, hn⟩ := List.mem_iff_getElem?.1 hp
  refine ⟨n, p, hn, hi, (single p hp hi).2, hans, fun m r hm hr => ?_⟩
  have hpz := (single p hp hi).1
  have hrz := (single r (List.mem_of_getElem? hm) hr).1
  rcases Nat.lt_trichotomy m n with hlt | heq | hlt
  · have := pairwise_at hL.order hm hn hlt (hr.trans hi.symm)
    omega
  · exact heq
  · have := pairwise_at hL.order hn hm hlt (hi.trans hr.symm)
    omega

theorem Object.Exec.invariant {Inv : σ → Prop}
    (hstep : ∀ {q op a q'}, Inv q → O.step q op a q' → Inv q') {q q' : σ} (h : O.Exec q l q')
    (hq : Inv q) : Inv q' := by
  induction h with
  | nil => exact hq
  | cons hs _ ih => exact ih (hstep hq hs)

/-- An answer of a linearizable history is one that the object gives, in a state that has the
object's invariants. -/
theorem Linearizable.step_of_answer (hl : Linearizable O h) (Inv : σ → Prop) (h₀ : Inv O.init)
    (hstep : ∀ {q op a q'}, Inv q → O.step q op a q' → Inv q') {op : Op} {a : Ans}
    (ha : Answers h i j t [op] [a]) : ∃ q q', Inv q ∧ O.step q op a q' := by
  obtain ⟨L, hL⟩ := hl
  obtain ⟨p, hp, rfl, hpart, rfl⟩ := (hL.answered _ _ _ _ _ ha).2 0 a rfl
  obtain ⟨t', ops, hcall, hop⟩ := hL.part_of p hp
  obtain ⟨rfl, rfl⟩ : t' = t ∧ ops = [op] := by
    have := hcall.symm.trans ha.1
    simpa using this
  obtain rfl : op = p.op := by rw [hpart] at hop; exact Option.some.inj hop
  obtain ⟨l₁, l₂, rfl⟩ := List.append_of_mem hp
  obtain ⟨q, hexec⟩ := hL.legal
  obtain ⟨q₁, h₁, h₂⟩ := Object.exec_append.mp hexec
  cases h₂ with
  | cons hs _ => exact ⟨q₁, _, h₁.invariant hstep h₀, hs⟩

end Wtc.Concurrent
