import Wtc.Segment.Many.Rule

/-!
# Properties of the queue for many consumers

* `many_linearizable` — every history is that of a sequential queue, and a thread inside a call is
  never without a next step: in particular a pop that takes the element of its cell finds one there
-/

namespace Wtc.Segment.Many

open Wtc.Concurrent

variable {α Tid : Type} {K : Nat}

/-- A thread inside `pop_many` is at the end or has a step. -/
theorem manyStep_isSome {F : Nat → Nat → Prop} {t : Tid} {sh : Shared α} {w : Ghost Tid α}
    {l : ManyLoc α} (hg : G K F sh w) (hp : PopL K t sh w l) (hl : ∀ v, l ≠ .done v) :
    (manyStep K sh l).isSome := by
  cases l with
  | take h i =>
    obtain ⟨hi, -⟩ := hg.claim_lt t h i hp.1
    obtain ⟨v, hv⟩ := Option.ne_none_iff_exists'.1 (hg.full_val h i hi hp.2)
    rw [manyStep, hg.cell h i hi hp.2 (.inr ⟨t, hp.1⟩), hv]
    rfl
  | done v => exact absurd rfl (hl v)
  | load | deqLoad h | advTail h n | advHead h n => rfl
  | check p | enqLoad h d | claim h | patience h i spin | reserved h i =>
    simp only [manyStep]
    split_ifs <;> rfl
  | nextLoad h | endNext h | look h i | await h i | skip h i => simp only [manyStep]; split <;> rfl

variable [DecidableEq Tid]

/--
**The queue for many consumers.**

For segments of any size, every history of `push_run` and `pop_many` is a history of a sequential
queue. A push of several elements is several pushes in a row, which other threads may come between.
A thread inside a call has its answer or a next step.
-/
theorem many_linearizable {h : List (Event Tid (FifoOp α) (FifoAns α))}
    {s : Config Tid (Shared α) (Loc α)} (hr : (manyMachine α Tid K).Runs h s) :
    Linearizable (fifo α) h ∧ ∀ t l, s.loc t = some l →
      ((manyMachine α Tid K).answer l).isSome ∨
      ((manyMachine α Tid K).step t () s.sh l).isSome := by
  refine ⟨(rule K s).linearizable id rfl hr.leads, fun t l hl => ?_⟩
  obtain ⟨w, -, hg, hL⟩ := (rule K s).sound hr.leads
  have hLt := hL t
  rw [hl] at hLt
  rcases l with l | l
  · by_cases hd : ∃ k, l = .done k
    · obtain ⟨k, rfl⟩ := hd
      exact .inl rfl
    · exact .inr (Option.isSome_map.trans (pushStep_isSome fun k he => hd ⟨k, he⟩))
  · by_cases hd : ∃ v, l = .done v
    · obtain ⟨v, rfl⟩ := hd
      exact .inl rfl
    · exact .inr (Option.isSome_map.trans (manyStep_isSome hg hLt fun v he => hd ⟨v, he⟩))

instance (s : Config Nat (Shared Nat) (Loc Nat)) (t : Nat) (c : Call Nat) :
    Decidable ((manyMachine Nat Nat K).may s t c) := inferInstanceAs (Decidable True)

/-- Two pops see one element; the second skips a cell. This tears the batch that comes next, whose
elements go to a new segment, where the second pop finds the first of them. -/
def exampleSchedule : List (Action Nat (Call Nat) Unit) :=
  List.flatten
    [[.call 0 (.push [7])], Action.steps 0 5, [.ret 0, .call 1 .pop, .call 2 .pop],
     Action.steps 1 4, Action.steps 2 4, Action.steps 1 3, [.ret 1], Action.steps 2 68,
     [.call 0 (.push [8, 9])], Action.steps 0 77, [.ret 0], Action.steps 2 21,
     [.ret 2]]

-- the run has some two hundred steps
set_option maxRecDepth 4000

theorem many_linearizable_example : ∃ s, (manyMachine Nat Nat 3).Runs
    [.call 0 [.push 7], .ret 0 [.pushed], .call 1 [.pop], .call 2 [.pop],
     .ret 1 [.popped (some 7)], .call 0 [.push 8, .push 9], .ret 0 [.pushed, .pushed],
     .ret 2 [.popped (some 8)]] s ∧
    (Linearizable (fifo Nat)
      [.call 0 [.push 7], .ret 0 [.pushed], .call 1 [.pop], .call 2 [.pop],
       .ret 1 [.popped (some 7)], .call 0 [.push 8, .push 9], .ret 0 [.pushed, .pushed],
       .ret 2 [.popped (some 8)]] ∧ ∀ t l, s.loc t = some l →
      ((manyMachine Nat Nat 3).answer l).isSome ∨
        ((manyMachine Nat Nat 3).step t () s.sh l).isSome) := by
  have hr : (manyMachine Nat Nat 3).Runs _ _ :=
    Machine.runs_of_exec (.init trivial) exampleSchedule rfl
  exact ⟨_, hr, many_linearizable hr⟩

end Wtc.Segment.Many
