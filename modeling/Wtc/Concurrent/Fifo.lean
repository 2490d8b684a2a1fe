import Wtc.Concurrent.Atomic

/-!
# Sequential queues

The sequential objects that queues are compared with.

* `fifo` — a queue whose `pop` on an empty queue answers `none`
* `deferredFifo` — a queue whose pushes stay hidden until they are published

A queue kept in blocks of `K` cells numbers its elements: element `i * K + j` is in cell `j` of
block `i`.
-/

namespace Wtc.Concurrent

variable {α : Type}

/-! ## The plain queue -/

/-- The operations of a queue. -/
inductive FifoOp (α : Type) where
  | push (v : α)
  | pop
  deriving DecidableEq, Repr

/-- The answers: a push gives none, a pop the oldest element or `none`. -/
inductive FifoAns (α : Type) where
  | pushed
  | popped (v : Option α)
  deriving DecidableEq, Repr

/-- One operation on the elements in the queue, oldest first. -/
inductive FifoStep : List α → FifoOp α → FifoAns α → List α → Prop
  | push (q : List α) (v : α) : FifoStep q (.push v) .pushed (q ++ [v])
  | pop (v : α) (q : List α) : FifoStep (v :: q) .pop (.popped (some v)) q
  | empty : FifoStep [] .pop (.popped none) []

/-- The sequential queue. -/
def fifo (α : Type) : Object (List α) (FifoOp α) (FifoAns α) where
  init := []
  step := FifoStep
  det := by
    intro q op a q₁ q₂ h₁ h₂
    cases h₁ <;> cases h₂ <;> rfl

/-- A call that pushes several elements takes effect for some of them at one moment. -/
theorem Atomic.State.Pend.push_all {Tid : Type} [DecidableEq Tid] {vs rest : List α}
    {s : Atomic.State Tid (FifoOp α) (FifoAns α) (List α)} {t : Tid} {done : List (FifoAns α)}
    (hp : s.Pend t ((vs ++ rest).map .push) done) :
    ∃ s', Atomic.Steps (fifo α) s s' ∧ s'.obj = s.obj ++ vs ∧
      s'.Pend t (rest.map .push) (done ++ List.replicate vs.length .pushed) ∧
      ∀ u, u ≠ t → s'.pend u = s.pend u := by
  induction vs generalizing s done with
  | nil => exact ⟨s, .refl, by simp, by simpa using hp, fun _ _ => rfl⟩
  | cons v vs ih =>
    have hlin := Atomic.State.Pend.lin (O := fifo α) hp (FifoStep.push s.obj v)
    obtain ⟨s', hs, hobj, hpend, hoth⟩ := ih (Atomic.State.lin_pend_self _ _ _ _ _)
    refine ⟨s', hlin.trans hs, ?_, ?_, fun u hu => ?_⟩
    · rw [hobj, Atomic.State.lin_obj, List.append_assoc]
      rfl
    · rw [List.append_assoc] at hpend
      exact hpend
    · rw [hoth u hu, Atomic.State.lin_pend_ne _ hu]

/-! ## Deferred pushes -/

/-- The operations of a queue with deferred pushes: an element may be put in without showing it,
and `publish` shows every element put in so far. -/
inductive DeferOp (α : Type) where
  | defer (v : α)
  | publish
  | pop
  deriving DecidableEq, Repr

/-- The elements to be seen, oldest first; those put in and not yet shown; how many were ever put
in. -/
structure Deferred (α : Type) where
  queue : List α
  hidden : List α
  pushed : Nat
  deriving DecidableEq, Repr

/-- Shows what is hidden. -/
def Deferred.show (d : Deferred α) : Deferred α :=
  { d with queue := d.queue ++ d.hidden, hidden := [] }

/-- Puts in one more element, hidden. -/
def Deferred.put (d : Deferred α) (v : α) : Deferred α :=
  { d with hidden := d.hidden ++ [v], pushed := d.pushed + 1 }

/-- One operation. `full n` says that element number `n` shows all those before it: a queue made
of blocks shows a block when it is full. -/
inductive DeferStep (full : Nat → Bool) :
    Deferred α → DeferOp α → FifoAns α → Deferred α → Prop
  | defer (d : Deferred α) (v : α) (hf : full d.pushed = false) :
      DeferStep full d (.defer v) .pushed (d.put v)
  | deferFull (d : Deferred α) (v : α) (hf : full d.pushed = true) :
      DeferStep full d (.defer v) .pushed (d.show.put v)
  | publish (d : Deferred α) : DeferStep full d .publish .pushed d.show
  | pop (v : α) (q hidden : List α) (n : Nat) :
      DeferStep full ⟨v :: q, hidden, n⟩ .pop (.popped (some v)) ⟨q, hidden, n⟩
  | empty (hidden : List α) (n : Nat) :
      DeferStep full ⟨[], hidden, n⟩ .pop (.popped none) ⟨[], hidden, n⟩

theorem DeferStep.pop_of {full : Nat → Bool} {d : Deferred α} {v : α} {q : List α}
    (h : d.queue = v :: q) : DeferStep full d .pop (.popped (some v)) { d with queue := q } := by
  obtain ⟨queue, hidden, n⟩ := d
  obtain rfl : queue = v :: q := h
  exact .pop v q hidden n

theorem DeferStep.empty_of {full : Nat → Bool} {d : Deferred α} (h : d.queue = []) :
    DeferStep full d .pop (.popped none) d := by
  obtain ⟨queue, hidden, n⟩ := d
  obtain rfl : queue = [] := h
  exact .empty hidden n

/-- The sequential queue with deferred pushes. -/
def deferredFifo (α : Type) (full : Nat → Bool) :
    Object (Deferred α) (DeferOp α) (FifoAns α) where
  init := ⟨[], [], 0⟩
  step := DeferStep full
  det := by
    intro q op a q₁ q₂ h₁ h₂
    cases h₁ <;> cases h₂ <;> simp_all

/-! ## Reading a history -/

/-- The elements put in by the calls of a history, in the order of the calls. -/
def pushes {Tid : Type} (h : List (Event Tid (DeferOp α) (FifoAns α))) : List α :=
  h.flatMap fun
    | .call _ ops => ops.filterMap fun | .defer v => some v | _ => none
    | .ret _ _ => []

/-- The elements among some answers. -/
def elements (ans : List (FifoAns α)) : List α :=
  ans.filterMap fun | .popped v => v | .pushed => none

/-- The elements answered in a history, in the order of the answers. -/
def pops {Tid : Type} (h : List (Event Tid (DeferOp α) (FifoAns α))) : List α :=
  h.flatMap fun
    | .call _ _ => []
    | .ret _ ans => elements ans

@[simp] theorem pushes_append {Tid : Type} (h h' : List (Event Tid (DeferOp α) (FifoAns α))) :
    pushes (h ++ h') = pushes h ++ pushes h' := List.flatMap_append ..

@[simp] theorem pops_append {Tid : Type} (h h' : List (Event Tid (DeferOp α) (FifoAns α))) :
    pops (h ++ h') = pops h ++ pops h' := List.flatMap_append ..

@[simp] theorem pushes_ret {Tid : Type} (t : Tid) (ans : List (FifoAns α)) :
    pushes [Event.ret t ans] = [] := rfl

@[simp] theorem pops_call {Tid : Type} (t : Tid) (ops : List (DeferOp α)) :
    pops [Event.call t ops] = [] := rfl

@[simp] theorem pops_ret {Tid : Type} (t : Tid) (ans : List (FifoAns α)) :
    pops [Event.ret t ans] = elements ans := List.append_nil _

/-! ## Windows

The queue of a program that keeps elements in numbered cells: those in the cells from one number
to another that hold an element.
-/

section Windows

variable {val val' : Nat → Option α} {a b c : Nat}

def window (a b : Nat) (val : Nat → Option α) : List α := (List.range' a (b - a)).filterMap val

theorem window_of_le (h : b ≤ a) : window a b val = [] := by
  rw [window, Nat.sub_eq_zero_of_le h]
  rfl

theorem window_append (hab : a ≤ b) (hbc : b ≤ c) :
    window a c val = window a b val ++ window b c val := by
  obtain ⟨m, rfl⟩ := Nat.exists_eq_add_of_le hab
  obtain ⟨n, rfl⟩ := Nat.exists_eq_add_of_le hbc
  simp only [window, ← List.filterMap_append]
  congr 1
  have h1 : a + m + n - a = m + n := by omega
  have h2 : a + m - a = m := by omega
  have h3 : a + m + n - (a + m) = n := by omega
  rw [h1, h2, h3, ← List.range'_append_1]

theorem window_singleton : window a (a + 1) val = (val a).toList := by
  rw [window, Nat.add_sub_cancel_left]
  cases h : val a <;> simp [h]

theorem window_left (h : a < b) : window a b val = (val a).toList ++ window (a + 1) b val := by
  rw [window_append (Nat.le_succ a) h, window_singleton]

theorem window_right (h : a ≤ b) : window a (b + 1) val = window a b val ++ (val b).toList := by
  rw [window_append h (Nat.le_succ b), window_singleton]

theorem window_congr (h : ∀ n, a ≤ n → n < b → val n = val' n) :
    window a b val = window a b val' := by
  refine List.filterMap_congr fun n hn => ?_
  rw [List.mem_range'_1] at hn
  exact h n hn.1 (by omega)

theorem window_none (h : ∀ n, a ≤ n → val n = none) : window a b val = [] := by
  rw [window, List.filterMap_eq_nil_iff]
  intro n hn
  rw [List.mem_range'_1] at hn
  exact h n hn.1

/-- Cells without elements do not show. -/
theorem window_extend (hbc : b ≤ c) (h : ∀ n, b ≤ n → val n = none) :
    window a c val = window a b val := by
  rcases Nat.le_total a b with hab | hab
  · rw [window_append hab hbc, window_none h, List.append_nil]
  · rw [window_of_le hab]
    exact window_none fun n hn => h n (Nat.le_trans hab hn)

theorem window_list (vs : List α) : window a (a + vs.length) (fun n => vs[n - a]?) = vs := by
  induction vs generalizing a with
  | nil => exact window_of_le (Nat.le_refl _)
  | cons v vs ih =>
    rw [window_left (by simp), List.length_cons, Nat.sub_self]
    have hrest : window (a + 1) (a + (vs.length + 1)) (fun n => (v :: vs)[n - a]?) =
        window (a + 1) (a + 1 + vs.length) (fun n => vs[n - (a + 1)]?) := by
      rw [show a + (vs.length + 1) = a + 1 + vs.length by omega]
      refine window_congr fun n hn _ => ?_
      rw [show n - a = n - (a + 1) + 1 by omega, List.getElem?_cons_succ]
    rw [hrest, ih]
    rfl

end Windows

/-! ## Element numbers -/

section Numbers

variable {K : Nat}

theorem mul_add_le {i i' j : Nat} (h : i < i') (hj : j ≤ K) : i * K + j ≤ i' * K := by
  have h1 : (i + 1) * K ≤ i' * K := Nat.mul_le_mul_right K h
  rw [Nat.add_mul] at h1
  omega

/-- An element number determines its block and its cell. -/
theorem number_inj {i i' j j' : Nat} (hj : j < K) (hj' : j' < K) (h : i * K + j = i' * K + j') :
    i = i' ∧ j = j' := by
  rcases Nat.lt_trichotomy i i' with hlt | rfl | hlt
  · have := mul_add_le hlt (Nat.succ_le_of_lt hj)
    omega
  · omega
  · have := mul_add_le hlt (Nat.succ_le_of_lt hj')
    omega

theorem drop_take_append_drop {l : List α} {p m : Nat} (h : p ≤ m) :
    (l.take m).drop p ++ l.drop m = l.drop p := by
  conv_rhs => rw [← List.take_append_drop m l]
  rw [List.drop_append]
  by_cases hl : m ≤ l.length
  · rw [List.length_take, Nat.min_eq_left hl, Nat.sub_eq_zero_of_le h, List.drop_zero]
  · rw [List.drop_eq_nil_of_le (i := m) (by omega)]
    simp

end Numbers

end Wtc.Concurrent
