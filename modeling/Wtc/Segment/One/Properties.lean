import Wtc.Segment.One.Rule
import Wtc.Concurrent.FifoOrder

/-!
# Properties of the queue for one consumer

* `one_linearizable` — every history is that of a sequential queue, so elements come out in order
  and an empty answer leaves nothing behind, and a thread inside a call is never without a next step
-/

namespace Wtc.Segment.One

open Wtc.Concurrent

variable {α Tid : Type} {K : Nat} {t : Tid} {sh : Shared α} {w : Ghost Tid α}

/-- The cell of an element that is to be taken has it. -/
theorem G.cell_isSome (hg : G K sh w) {y : Loose.Elem} (hy : y ∈ w.lo.filled)
    (hfresh : y ∉ w.lo.taken) {s j : Nat} (hj : j < K) (hn : w.num y = s * K + j) :
    (sh.cell s j).isSome := by
  rw [hg.cells.cell y hy hfresh s j hj hn]
  exact Option.isSome_iff_ne_none.2 (hg.valid.val y hy)

/-- The consumer inside a pop is at the end or has a step. -/
theorem oneStep_isSome {l : OneLoc α} (hg : G K sh w) (hp : OneL K t sh w l)
    (hl : ∀ v, l ≠ .done v) : (oneStep K sh l).isSome := by
  cases l with
  | done v => exact absurd rfl (hl v)
  | take h i =>
    obtain ⟨-, ⟨hm, -⟩, ha, -, hst⟩ := hp
    have hfresh := ha.fresh hm (by rw [hst]; nofun)
    obtain ⟨y, hy, hn⟩ := hg.cells.elem h i ha.lt (by rw [hst]; nofun)
    rw [oneStep, Option.isSome_map]
    exact hg.cell_isSome hy (fun hyt => hfresh y hyt hn) ha.lt hn
  | look k =>
    simp only [oneStep, List.getElem?_eq_getElem hp.2.2.1]
    split_ifs <;> rfl
  | again k m =>
    obtain ⟨-, -, hmk, c, y, i, hc, -⟩ := hp
    have hm := hmk.trans (lt_length_of_getElem? hc)
    simp only [oneStep, List.getElem?_eq_getElem hm]
    split_ifs <;> rfl
  | pick k =>
    obtain ⟨-, -, c, y, i, hc, hy, hn, -⟩ := hp
    have hcm := List.mem_of_getElem? hc
    simp only [oneStep, hc, Option.isSome_map]
    exact hg.cell_isSome (List.mem_of_getElem? hy) (fun hyt => hg.ahead.fresh c hcm y hyt hn)
      (hg.ahead.hole c hcm).1 hn
  | head | advTail h n | advHead h n | stepOver h i | setDeq h i v | setTaken s j v => rfl
  | deq h | state h i | spin h i n | enq s j | walk s j stop taken =>
    simp only [oneStep]
    split_ifs <;> rfl
  | next h | walkNext s => simp only [oneStep]; split <;> rfl

variable [DecidableEq Tid] {cons : Tid}

/-- Only the consumer pops. -/
theorem pop_cons {h : List (Event Tid (FifoOp α) (FifoAns α))}
    {s : Config Tid (Shared α) (LocOne α)} (hr : (oneMachine α K cons).Runs h s) {i : Nat}
    {ops : List (FifoOp α)} (hi : h[i]? = some (.call t ops)) (hpop : FifoOp.pop ∈ ops) :
    t = cons := by
  obtain ⟨s', c, hm, rfl⟩ := hr.call_may hi
  cases c with
  | pop => exact hm rfl
  | push vs =>
    obtain ⟨v, -, hv⟩ := List.mem_map.1 hpop
    cases hv

/--
**The queue for one consumer.**

For segments of any size, every history of `push_run` by any threads and `pop_one` by thread `cons`
is a history of a sequential queue. Hence a pop returns an element that was pushed, no two pops
return the same, what was pushed before it was returned by an earlier pop, and an empty answer
leaves nothing that was pushed before the pop was called. A thread inside a call has its answer or
a next step.
-/
theorem one_linearizable {h : List (Event Tid (FifoOp α) (FifoAns α))}
    {s : Config Tid (Shared α) (LocOne α)} (hr : (oneMachine α K cons).Runs h s) :
    Linearizable (fifo α) h ∧ (∃ src, InOrder h src) ∧ ∀ t l, s.loc t = some l →
      ((oneMachine α K cons).answer l).isSome ∨
        ((oneMachine α K cons).step t () s.sh l).isSome := by
  obtain ⟨w, htr, hg, hL⟩ := (rule α K cons).sound hr
  have hlin : Linearizable (fifo α) h := (path_of_trace htr).linearizable
  refine ⟨hlin, hlin.inOrder hr.sequential fun i t ops hi hpop => pop_cons hr hi hpop,
    fun t l hl => ?_⟩
  have hLt := hL t
  rw [hl] at hLt
  rcases l with l | l
  · by_cases hd : ∃ k, l = .done k
    · obtain ⟨k, rfl⟩ := hd
      exact .inl rfl
    · exact .inr (Option.isSome_map.trans (pushStep_isSome fun k he => hd ⟨k, he⟩))
  · by_cases hd : ∃ v, l = .done v
    · obtain ⟨v, rfl⟩ := hd
      exact .inl rfl
    · exact .inr (Option.isSome_map.trans (oneStep_isSome hg hLt.2 fun v he => hd ⟨v, he⟩))

instance (s : Config Nat (Shared Nat) (LocOne Nat)) (t : Nat) (c : Call Nat) :
    Decidable ((oneMachine Nat K 2).may s t c) := inferInstanceAs (Decidable (c = .pop → t = 2))

/-- The first push has its cell and does not fill it while the second is carried out and its element
is taken. Then the first goes on, and its element is taken as a hole. -/
def exampleSchedule : List (Action Nat (Call Nat) Unit) :=
  List.flatten
    [[.call 0 (.push [7])], Action.steps 0 3, [.call 1 (.push [8])], Action.steps 1 5, [.ret 1],
     [.call 2 .pop], Action.steps 2 9, [.ret 2], Action.steps 0 2, [.ret 0],
     [.call 2 .pop], Action.steps 2 6, [.ret 2], [.call 2 .pop], Action.steps 2 11, [.ret 2]]

set_option maxRecDepth 4000

theorem one_linearizable_example : ∃ s, (oneMachine Nat 2 2).Runs
    [.call 0 [.push 7], .call 1 [.push 8], .ret 1 [.pushed], .call 2 [.pop],
     .ret 2 [.popped (some 8)], .ret 0 [.pushed], .call 2 [.pop], .ret 2 [.popped (some 7)],
     .call 2 [.pop], .ret 2 [.popped none]] s ∧
    (Linearizable (fifo Nat)
      [.call 0 [.push 7], .call 1 [.push 8], .ret 1 [.pushed], .call 2 [.pop],
       .ret 2 [.popped (some 8)], .ret 0 [.pushed], .call 2 [.pop], .ret 2 [.popped (some 7)],
       .call 2 [.pop], .ret 2 [.popped none]] ∧
      (∃ src, InOrder
        [.call 0 [.push 7], .call 1 [.push 8], .ret 1 [.pushed], .call 2 [.pop],
         .ret 2 [.popped (some 8)], .ret 0 [.pushed], .call 2 [.pop], .ret 2 [.popped (some 7)],
         .call 2 [.pop], .ret 2 [.popped none]] src) ∧
      ∀ t l, s.loc t = some l → ((oneMachine Nat 2 2).answer l).isSome ∨
        ((oneMachine Nat 2 2).step t () s.sh l).isSome) := by
  have hr : (oneMachine Nat 2 2).Runs _ _ :=
    Machine.runs_of_exec (.init trivial) exampleSchedule rfl
  exact ⟨_, hr, one_linearizable hr⟩

end Wtc.Segment.One
