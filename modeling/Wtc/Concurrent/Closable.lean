import Wtc.Concurrent.History

/-!
# A queue that can be waited on and closed

The sequential queue, with or without a bound, that producers and consumers wait on.

* `closable` — a waiting pop takes an element, or answers that there is none once the queue is
  closed and empty; a waiting push puts its element in, or keeps it once the queue is closed and
  full; a pop with a time limit may also give up on an empty queue
* `ended` — what has come in before a waiting pop finds the end has gone out
-/

namespace Wtc.Concurrent

variable {α Tid : Type}

/-- The operations: a push to a queue without a bound, those to one with a bound, the pops, and the
close. -/
inductive WaitOp (α : Type) where
  | push (v : α)
  | tryPush (v : α)
  | pushWait (v : α)
  | overrun (v : α)
  | tryPop
  | popWait
  | popFor
  | close
  deriving DecidableEq, Repr

/-- The answers. A push that fails has its element left; an overrunning push says which element
was lost, if any. -/
inductive WaitAns (α : Type) where
  | pushed (left : Option α)
  | overran (lost : Option α)
  | popped (v : Option α)
  | timedOut
  | closed
  deriving DecidableEq, Repr

/-- The elements, oldest first, and whether the queue is closed. -/
structure Closable (α : Type) where
  elems : List α
  closed : Bool

/-- A queue with the bound `cap`, if any, has no room. -/
def Full (cap : Option Nat) (q : List α) : Prop := ∃ n, cap = some n ∧ n ≤ q.length

instance (cap : Option Nat) (q : List α) : Decidable (Full cap q) :=
  match cap with
  | none => .isFalse nofun
  | some n => decidable_of_iff (n ≤ q.length) ⟨fun h => ⟨n, rfl, h⟩, fun ⟨_, he, h⟩ => by
      cases he; exact h⟩

/-- The pops. -/
def WaitOp.pops : WaitOp α → Bool
  | .tryPop => true
  | .popWait => true
  | .popFor => true
  | _ => false

/-- The operations that wait for an element. -/
def WaitOp.waits : WaitOp α → Bool
  | .popWait => true
  | .popFor => true
  | _ => false

inductive ClosableStep (cap : Option Nat) :
    Closable α → WaitOp α → WaitAns α → Closable α → Prop
  | push (q : List α) (c : Bool) (v : α) :
      ClosableStep cap ⟨q, c⟩ (.push v) (.pushed none) ⟨q ++ [v], c⟩
  | tryPush {q : List α} (c : Bool) (v : α) (hq : ¬ Full cap q) :
      ClosableStep cap ⟨q, c⟩ (.tryPush v) (.pushed none) ⟨q ++ [v], c⟩
  | tryFull {q : List α} (c : Bool) (v : α) (hq : Full cap q) :
      ClosableStep cap ⟨q, c⟩ (.tryPush v) (.pushed (some v)) ⟨q, c⟩
  | pushWait {q : List α} (c : Bool) (v : α) (hq : ¬ Full cap q) :
      ClosableStep cap ⟨q, c⟩ (.pushWait v) (.pushed none) ⟨q ++ [v], c⟩
  | pushEnd {q : List α} (v : α) (hq : Full cap q) :
      ClosableStep cap ⟨q, true⟩ (.pushWait v) (.pushed (some v)) ⟨q, true⟩
  | overrun {q : List α} (c : Bool) (v : α) (hq : ¬ Full cap q) :
      ClosableStep cap ⟨q, c⟩ (.overrun v) (.overran none) ⟨q ++ [v], c⟩
  | lose {q r : List α} (c : Bool) {v x : α} (hq : Full cap q) (hx : q ++ [v] = x :: r) :
      ClosableStep cap ⟨q, c⟩ (.overrun v) (.overran (some x)) ⟨r, c⟩
  | pop (q : List α) (c : Bool) (v : α) {op : WaitOp α} (ho : op.pops = true) :
      ClosableStep cap ⟨v :: q, c⟩ op (.popped (some v)) ⟨q, c⟩
  | empty (c : Bool) : ClosableStep cap ⟨[], c⟩ .tryPop (.popped none) ⟨[], c⟩
  | finish {op : WaitOp α} (ho : op.waits = true) :
      ClosableStep cap ⟨[], true⟩ op (.popped none) ⟨[], true⟩
  | giveUp (c : Bool) : ClosableStep cap ⟨[], c⟩ .popFor .timedOut ⟨[], c⟩
  | close (q : List α) (c : Bool) : ClosableStep cap ⟨q, c⟩ .close .closed ⟨q, true⟩

/-- The sequential queue that can be waited on and closed. -/
def closable (α : Type) (cap : Option Nat) : Object (Closable α) (WaitOp α) (WaitAns α) where
  init := ⟨[], false⟩
  step := ClosableStep cap
  det := by
    intro q op a q₁ q₂ h₁ h₂
    cases h₁ <;> cases h₂ <;> try rfl
    case lose.lose hx _ _ hx' => rw [hx] at hx'; cases hx'; rfl

/-! ## What comes in goes out -/

/-- The element put in, if any. -/
def Point.put (p : Point (WaitOp α) (WaitAns α)) : Option α :=
  match p.op, p.ans with
  | .push v, _ => some v
  | .tryPush v, .pushed none => some v
  | .pushWait v, .pushed none => some v
  | .overrun v, _ => some v
  | _, _ => none

/-- The element popped, if any. -/
def Point.got (p : Point (WaitOp α) (WaitAns α)) : Option α :=
  match p.ans with
  | .popped v => v
  | _ => none

/-- The element that an overrunning push dropped, if any. -/
def Point.dropped (p : Point (WaitOp α) (WaitAns α)) : Option α :=
  match p.ans with
  | .overran x => x
  | _ => none

/-- The element taken out, if any. -/
def Point.out (p : Point (WaitOp α) (WaitAns α)) : Option α :=
  match p.got with
  | none => p.dropped
  | some v => some v

/-- All that came in has gone out: popped, where no push has dropped anything. -/
structure Emptied (l : List (Point (WaitOp α) (WaitAns α))) : Prop where
  out : l.filterMap Point.put = l.filterMap Point.out
  popped : (∀ p ∈ l, p.dropped = none) → l.filterMap Point.put = l.filterMap Point.got

theorem Emptied.of_out {l : List (Point (WaitOp α) (WaitAns α))}
    (h : l.filterMap Point.put = l.filterMap Point.out) : Emptied l := by
  refine ⟨h, fun hl => h.trans (List.filterMap_congr fun p hp => ?_)⟩
  unfold Point.out
  split
  · next hnone => rw [hl p hp, hnone]
  · next hsome => exact hsome.symm

/-- A waiting pop has found the end. -/
def Point.Ends (p : Point (WaitOp α) (WaitAns α)) : Prop := p.op.waits = true ∧ p.ans = .popped none

section Exec

variable {cap : Option Nat} {L : List (Point (WaitOp α) (WaitAns α))} {q q' : Closable α}

/-- The elements that went out and those left are those that were there and those that came in. -/
theorem closable_exec (h : (closable α cap).Exec q L q') :
    q.elems ++ L.filterMap Point.put = L.filterMap Point.out ++ q'.elems := by
  induction h with
  | nil => simp
  | @cons q q₁ q₂ p l hs _ ih =>
    obtain ⟨call, part, op, ans⟩ := p
    have hs : ClosableStep cap q op ans q₁ := hs
    have push : ∀ {q : List α} {v : α}, q ++ [v] ++ l.filterMap Point.put =
        l.filterMap Point.out ++ q₂.elems →
        q ++ v :: l.filterMap Point.put = l.filterMap Point.out ++ q₂.elems := fun h => by
      rw [← h, List.append_assoc]
      rfl
    cases hs with
    | push q c v | tryPush c v hq | pushWait c v hq | overrun c v hq => exact push ih
    | @lose q r c v x hq hx =>
      show q ++ v :: l.filterMap Point.put = x :: (l.filterMap Point.out ++ q₂.elems)
      rw [← ih, ← List.cons_append, ← hx, List.append_assoc]
      rfl
    | pop q c v ho =>
      rcases op with _ | _ | _ | _ | _ | _ | _ | _ <;> cases ho <;> exact congrArg (v :: ·) ih
    | finish ho => rcases op with _ | _ | _ | _ | _ | _ | _ | _ <;> cases ho <;> exact ih
    | tryFull c v hq | pushEnd v hq | empty c | giveUp c | close q c => exact ih

/-- A queue is closed by a close. -/
theorem closed_exec (h : (closable α cap).Exec q L q') (hc : q'.closed = true) :
    q.closed = true ∨ ∃ (m : Nat) (r : Point (WaitOp α) (WaitAns α)),
      L[m]? = some r ∧ r.op = .close := by
  induction h with
  | nil => exact .inl hc
  | @cons q q₁ q₂ p l hs _ ih =>
    rcases ih hc with h | ⟨m, r, hm, hr⟩
    · by_cases ho : p.op = .close
      · exact .inr ⟨0, p, rfl, ho⟩
      · left
        have hs : ClosableStep cap q p.op p.ans q₁ := hs
        generalize p.op = op at hs ho
        generalize p.ans = ans at hs
        cases hs <;> first | exact h | exact absurd rfl ho
    · exact .inr ⟨m + 1, r, hm, hr⟩

variable {n : Nat} {p : Point (WaitOp α) (WaitAns α)}

theorem exists_close (h : (closable α cap).Exec ⟨[], false⟩ (L.take n) q) (hc : q.closed = true) :
    ∃ m r, m < n ∧ L[m]? = some r ∧ r.op = .close := by
  rcases closed_exec h hc with h | ⟨m, r, hm, hr⟩
  · cases h
  · have hlt := lt_length_of_getElem? hm
    rw [List.length_take] at hlt
    rw [List.getElem?_take_of_lt (by omega)] at hm
    exact ⟨m, r, by omega, hm, hr⟩

/-- Where a waiting pop finds the end the queue has been closed, and what came in has gone out. -/
theorem ended (h : (closable α cap).Exec ⟨[], false⟩ L q') (hn : L[n]? = some p) (hp : p.Ends) :
    (∃ m r, m < n ∧ L[m]? = some r ∧ r.op = .close) ∧ Emptied (L.take n) := by
  obtain ⟨q₁, q₂, h1, hs⟩ := h.step_at hn
  have hend : q₁ = ⟨[], true⟩ := by
    have hs : ClosableStep cap q₁ p.op p.ans q₂ := hs
    obtain ⟨hw, ha⟩ := hp
    rw [ha] at hs
    generalize p.op = op at hs hw
    cases hs with
    | finish => rfl
    | empty => cases hw
  subst hend
  exact ⟨exists_close h1 rfl, .of_out (by simpa using closable_exec h1)⟩

/-- Where a waiting push keeps its element, it is the one it was given, the queue has been closed
and the elements still there leave no room. -/
theorem kept (h : (closable α cap).Exec ⟨[], false⟩ L q') (hn : L[n]? = some p) {v w : α}
    (ho : p.op = .pushWait v) (ha : p.ans = .pushed (some w)) :
    w = v ∧ (∃ m r, m < n ∧ L[m]? = some r ∧ r.op = .close) ∧
      ∃ q, Full cap q ∧ (L.take n).filterMap Point.put = (L.take n).filterMap Point.out ++ q := by
  obtain ⟨q₁, q₂, h1, hs⟩ := h.step_at hn
  have hs : ClosableStep cap q₁ p.op p.ans q₂ := hs
  rw [ho, ha] at hs
  cases hs with
  | pushEnd _ hq => exact ⟨rfl, exists_close h1 rfl, _, hq, by simpa using closable_exec h1⟩

end Exec

/-! ## In terms of the history -/

variable {cap : Option Nat} {h : List (Event Tid (WaitOp α) (WaitAns α))}
  {L : List (Point (WaitOp α) (WaitAns α))} {n : Nat} {p : Point (WaitOp α) (WaitAns α)}

end Wtc.Concurrent
