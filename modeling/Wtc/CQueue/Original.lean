import Wtc.Concurrent.History
import Wtc.CQueue.OwnRing

/-!
# The queue as the C program wrote it

A ring of `S` slots under a mutex, which holds at most `S - 1` pointers, with a count of the
producers that have finished. An operation that has to wait has no answer in the states in which
it waits: a push while the ring is full, a pop while it is empty and not finished.
-/

namespace Wtc.CQueue

open Wtc.Concurrent

/-- `ends_mode`: how a queue finishes. -/
inductive Ends where
  | never
  | exactly
  | atLeast
  deriving DecidableEq, Repr

/-- What `wtc_c_queue_init` was given; `capacity` is the number of slots minus one. -/
structure Cfg where
  capacity : Nat
  producers : BitVec 32
  ends : Ends
  deriving DecidableEq, Repr

/-- The operations; the batched ones are given a ring of the caller's and a limit. -/
inductive Call (P : Type) where
  | pushWait (v : P)
  | popWait
  | terminate
  | pushBatch (src : OwnRing P) (limit : BitVec 64)
  | popBatch (dst : OwnRing P) (limit : BitVec 64)

/-- The answers: `popped none` is the answer "finished" of a pop; a batch answers an `int`, which
is -1 for "finished", and leaves the caller's ring as given. -/
inductive Ans (P : Type) where
  | pushed
  | popped (v : Option P)
  | terminated
  | batch (ret : BitVec 32) (own : OwnRing P)

variable {P : Type}

/-- As many producers have finished as the queue was built for. -/
def Cfg.Finished (cfg : Cfg) (ended : Nat) : Prop :=
  cfg.ends ≠ .never ∧ cfg.producers.toInt ≤ ended

/-- The pointers held, oldest first, and the number of terminations. -/
structure Held (P : Type) where
  ring : List P
  ended : Nat

/-- What `k` moved elements do to a caller's ring: its contents become `rest`. -/
def Answered (a : Ans P) (k : Nat) (own : OwnRing P) (rest : List P) : Prop :=
  ∃ ret own', a = .batch ret own' ∧ ret.toInt = k ∧ own'.slots = own.slots ∧ own'.contents = rest

/-- One operation under the mutex. -/
def Original.Step (cfg : Cfg) (q : Held P) : Call P → Ans P → Held P → Prop
  | .pushWait v, a, q' =>
    q.ring.length < cfg.capacity ∧ a = .pushed ∧ q' = { q with ring := q.ring ++ [v] }
  | .popWait, a, q' =>
    (∃ v rest, q.ring = v :: rest ∧ a = .popped (some v) ∧ q' = { q with ring := rest }) ∨
    (q.ring = [] ∧ cfg.Finished q.ended ∧ a = .popped none ∧ q' = q)
  | .terminate, a, q' => a = .terminated ∧ q' = { q with ended := q.ended + 1 }
  | .pushBatch src limit, a, q' =>
    let k := min limit.toNat (min src.contents.length (cfg.capacity - q.ring.length))
    q.ring.length < cfg.capacity ∧ Answered a k src (src.contents.drop k) ∧
      q' = { q with ring := q.ring ++ src.contents.take k }
  | .popBatch dst limit, a, q' =>
    let k := min limit.toNat (min (dst.slots.toNat - 1 - dst.contents.length) q.ring.length)
    (q.ring ≠ [] ∧ Answered a k dst (dst.contents ++ q.ring.take k) ∧
      q' = { q with ring := q.ring.drop k }) ∨
    (q.ring = [] ∧ cfg.Finished q.ended ∧ a = .batch (-1) dst ∧ q' = q)

/-- The original queue, as a sequential object. -/
def original (P : Type) (cfg : Cfg) : Object (Held P) (Call P) (Ans P) where
  init := ⟨[], 0⟩
  step := Original.Step cfg
  det := by
    intro q op a q₁ q₂ h₁ h₂
    cases op with
    | pushWait v => exact h₁.2.2.trans h₂.2.2.symm
    | popWait =>
      rcases h₁ with ⟨v, rest, hr, -, rfl⟩ | ⟨hr, -, -, rfl⟩ <;>
        rcases h₂ with ⟨v', rest', hr', -, rfl⟩ | ⟨hr', -, -, rfl⟩
      · rw [hr] at hr'
        cases hr'
        rfl
      · rw [hr] at hr'
        cases hr'
      · rw [hr] at hr'
        cases hr'
      · rfl
    | terminate => exact h₁.2.trans h₂.2.symm
    | pushBatch src limit => exact h₁.2.2.trans h₂.2.2.symm
    | popBatch dst limit =>
      rcases h₁ with ⟨hr, -, rfl⟩ | ⟨hr, -, -, rfl⟩ <;>
        rcases h₂ with ⟨hr', -, rfl⟩ | ⟨hr', -, -, rfl⟩
      · rfl
      · exact absurd hr' hr
      · exact absurd hr hr'
      · rfl

end Wtc.CQueue
