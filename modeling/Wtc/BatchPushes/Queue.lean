import Wtc.BatchPushes.Model

/-!
# What a batch holds back

The elements given to a queue, visible or not, in order (`Local.given`), and those not yet visible
(`Local.held`). A deferred push adds one to the first, and publishing changes nothing of it. Between
two pushes fewer than `WTC_BATCH_K` are held back (`Open`), whichever way the queue batches; a
deferred push that finds the batch full publishes it at once in place, and begins to move the run
otherwise (`pushDeferred_cases`).
-/

namespace Wtc.BatchPushes

open Wtc.Control

variable {F C Mem V : Type} {inPlace : Nat → Bool} {K q r c₀ n j : Nat} {v : V} {p : Push F}
  {x : Local Mem V}

/-- The elements given to queue `r`; `q` is the queue of the batch. -/
def Local.given (inPlace : Nat → Bool) (q r : Nat) (x : Local Mem V) : List V :=
  x.stream r ++ if inPlace r then x.cells r else if r = q then x.run else []

/-- Those given to the queue of the batch that no consumer can see. -/
def Local.held (inPlace : Nat → Bool) (q : Nat) (x : Local Mem V) : List V :=
  if inPlace q then x.cells q else x.run

/-! ## What stays -/

/-- The memory and the values are the same. -/
def Local.Beside (x y : Local Mem V) : Prop := y.mem = x.mem ∧ y.env = x.env

theorem publish_beside : x.Beside (x.publish (C := C) inPlace p q).1 := by
  unfold Local.publish
  split_ifs
  · exact ⟨rfl, rfl⟩
  · split <;> exact ⟨rfl, rfl⟩

theorem place_beside : x.Beside (x.place inPlace q v) := by
  unfold Local.place
  split_ifs <;> exact ⟨rfl, rfl⟩

theorem pushDeferred_beside : x.Beside (x.pushDeferred (C := C) K inPlace p q v).1 := by
  unfold Local.pushDeferred
  split_ifs
  · have h : (x.place inPlace q v).Beside ((x.place inPlace q v).publish (C := C) inPlace p q).1 :=
      publish_beside
    exact ⟨h.1.trans place_beside.1, h.2.trans place_beside.2⟩
  · exact place_beside

/-! ## The elements given -/

theorem given_publishCells (hq : inPlace q = true) :
    (x.publishCells q).given inPlace q r = x.given inPlace q r := by
  by_cases hr : r = q
  · subst hr
    simp [Local.given, Local.publishCells, hq]
  · simp [Local.given, Local.publishCells, hr]

theorem given_push : (x.push (C := C) inPlace p q v).1.given inPlace q r =
    x.given inPlace q r ++ if r = q then [v] else [] := by
  by_cases hq : inPlace q <;> by_cases hr : r = q
  · subst hr
    simp [Local.push, Local.given, Local.publishCells, Local.fill, hq]
  · simp [Local.push, Local.given, Local.publishCells, Local.fill, hq, hr]
  · subst hr
    simp [Local.push, Local.given, hq]
  · simp [Local.push, Local.given, hq, hr]

theorem given_reveal (hq : inPlace q = false) :
    (x.reveal q j).given inPlace q r = x.given inPlace q r := by
  by_cases hr : r = q
  · subst hr
    simp [Local.given, Local.reveal, hq]
  · simp [Local.given, Local.reveal, hr]

theorem given_publish :
    (x.publish (C := C) inPlace p q).1.given inPlace q r = x.given inPlace q r := by
  unfold Local.publish
  split_ifs with hq
  · exact given_publishCells hq
  · split <;> rfl

theorem given_place : (x.place inPlace q v).given inPlace q r =
    x.given inPlace q r ++ if r = q then [v] else [] := by
  by_cases hq : inPlace q <;> by_cases hr : r = q
  · subst hr
    simp [Local.place, Local.given, Local.fill, hq]
  · simp [Local.place, Local.given, Local.fill, hq, hr]
  · subst hr
    simp [Local.place, Local.given, hq]
  · simp [Local.place, Local.given, hq, hr]

/-- A deferred push gives its element to the queue. -/
theorem given_pushDeferred : (x.pushDeferred (C := C) K inPlace p q v).1.given inPlace q r =
    x.given inPlace q r ++ if r = q then [v] else [] := by
  unfold Local.pushDeferred
  by_cases hK : x.pending.getD 0 + 1 = K
  · rw [if_pos hK, given_publish, given_place]
  · rw [if_neg hK, given_place]

/-! ## The elements held back -/

/-- The batch is open, and no push is under way; `c₀` elements were held when it was begun. -/
structure Open (K : Nat) (inPlace : Nat → Bool) (q c₀ n : Nat) (x : Local Mem V) : Prop where
  pending : x.pending = some n
  lt : n < K
  cells : inPlace q = true → (x.cells q).length ≤ n + c₀
  run : inPlace q = false → x.run.length = n

theorem Open.held_le (h : Open K inPlace q c₀ n x) : (x.held inPlace q).length ≤ n + c₀ := by
  unfold Local.held
  split_ifs with hq
  · exact h.cells hq
  · have := h.run (by simpa using hq)
    omega

/-- `push_run` is at work. -/
structure Moving (K : Nat) (inPlace : Nat → Bool) (q : Nat) (x : Local Mem V) : Prop where
  side : inPlace q = false
  pending : x.pending = some 0
  pos : 0 < K

theorem Moving.open (h : Moving K inPlace q x) (hrun : x.run = []) : Open K inPlace q c₀ 0 x :=
  ⟨h.pending, h.pos, fun hq => (by rw [h.side] at hq; cases hq), fun _ => by simp [hrun]⟩

theorem open_publishCells (hq : inPlace q = true) (ho : Open K inPlace q c₀ n x) :
    Open K inPlace q c₀ n (x.publishCells q) :=
  ⟨ho.pending, ho.lt, by simp [Local.publishCells], fun h => by rw [hq] at h; cases h⟩

theorem open_place (ho : Open K inPlace q c₀ n x) (hK : n + 1 < K) :
    Open K inPlace q c₀ (n + 1) (x.place inPlace q v) := by
  refine ⟨by simp [Local.place, ho.pending], hK, fun hq => ?_, fun hq => ?_⟩
  · have := ho.cells hq
    simp only [Local.place, hq, if_true, Local.fill, Function.update_self, List.length_append,
      List.length_singleton]
    omega
  · simp [Local.place, hq, ho.run hq]

/-- A batch is published: its cells are visible at once, or its run is to be moved. -/
theorem publish_cases (c₀ : Nat) (hK : 0 < K) (hn : x.pending = some n)
    (hrun : inPlace q = false → x.run.length = n) :
    (Open K inPlace q c₀ 0 (x.publish (C := C) inPlace p q).1 ∧
      (x.publish (C := C) inPlace p q).1.held inPlace q = [] ∧
      (x.publish (C := C) inPlace p q).2 = []) ∨
    (Moving K inPlace q (x.publish (C := C) inPlace p q).1 ∧
      (x.publish (C := C) inPlace p q).2 = shim [own (.flush p n)]) := by
  by_cases hq : inPlace q = true
  · refine .inl ⟨⟨?_, hK, fun _ => ?_, fun h => ?_⟩, ?_, ?_⟩
    · simp [Local.publish, hq]
    · simp [Local.publish, Local.publishCells, hq]
    · rw [hq] at h
      cases h
    · simp [Local.publish, Local.held, Local.publishCells, hq]
    · simp [Local.publish, hq]
  · have hq' : inPlace q = false := by simpa using hq
    cases n with
    | zero =>
      have hnil : x.run = [] := List.length_eq_zero_iff.1 (hrun hq')
      simp only [Local.publish, hq', hn, Option.getD_some]
      exact .inl ⟨⟨rfl, hK, fun h => absurd h (by simp [hq']), fun _ => by simp [hnil]⟩,
        by simp [Local.held, hq', hnil], rfl⟩
    | succ n =>
      simp only [Local.publish, hq', hn, Option.getD_some]
      exact .inr ⟨⟨hq', rfl, hK⟩, rfl⟩

/-- After a deferred push the batch is open again, or its run is to be moved. -/
theorem pushDeferred_cases (ho : Open K inPlace q c₀ n x) :
    ((∃ n', Open K inPlace q c₀ n' (x.pushDeferred (C := C) K inPlace p q v).1) ∧
      (x.pushDeferred (C := C) K inPlace p q v).2 = []) ∨
    (Moving K inPlace q (x.pushDeferred (C := C) K inPlace p q v).1 ∧
      (x.pushDeferred (C := C) K inPlace p q v).2 = shim [own (.flush p (n + 1))]) := by
  have hlt := ho.lt
  have hpend : x.pending.getD 0 = n := by simp [ho.pending]
  unfold Local.pushDeferred
  rw [hpend]
  by_cases hK : n + 1 = K
  · rw [if_pos hK]
    have hn : (x.place inPlace q v).pending = some (n + 1) := by simp [Local.place, hpend]
    have hrun : inPlace q = false → (x.place inPlace q v).run.length = n + 1 := fun hq => by
      simp [Local.place, hq, ho.run hq]
    exact (publish_cases c₀ (by omega) hn hrun).imp (fun h => ⟨⟨0, h.1⟩, h.2.2⟩) id
  · rw [if_neg hK]
    exact .inl ⟨⟨n + 1, open_place ho (by omega)⟩, rfl⟩

end Wtc.BatchPushes
