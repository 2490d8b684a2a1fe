import Wtc.Concurrent.Serial
import Wtc.Spmc.Model

/-!
# The one-producer queue, used by one thread

Every call comes to its end: a pop goes through the segments in their order.
-/

namespace Wtc.Spmc

open Wtc.Concurrent

variable {α Tid : Type} {K : Nat} {prod t : Tid} {coin : Nat → Bool} {k : Nat} {sh : Shared α}

/-- The segments are linked in their order. -/
structure Linked (sh : Shared α) : Prop where
  segs : sh.segs = sh.tail + 1
  next : ∀ i, sh.next i = if i < sh.tail then some (i + 1) else none
  head : sh.head ≤ sh.tail

/-- A call of the queue that comes to its end. -/
abbrev Ends (K : Nat) (prod t : Tid) (coin : Nat → Bool) (k : Nat) (sh : Shared α) (l : Loc α) :
    Prop :=
  (machine K prod).Ends t coin Linked k sh l

theorem Linked.init : Linked (Shared.init : Shared α) :=
  ⟨rfl, fun i => (if_neg (Nat.not_lt_zero i)).symm, le_rfl⟩

theorem Linked.linkNext (h : Linked sh) : Linked sh.linkNext where
  segs := rfl
  next i := by
    have hsegs := h.segs
    show Function.update sh.next sh.tail (some sh.segs) i = if i < sh.segs then some (i + 1)
      else none
    by_cases hi : i = sh.tail
    · subst hi
      rw [Function.update_self, if_pos (by omega), hsegs]
    · rw [Function.update_of_ne hi, h.next]
      split_ifs <;> first | rfl | omega
  head := by
    have h1 := h.head
    have h2 := h.segs
    show sh.head ≤ sh.segs
    omega

theorem ends_done {ans : List (FifoAns α)} (h : Linked sh) : Ends K prod t coin k sh (.done ans) :=
  .answer rfl h

theorem ends_publish {deferred : Bool} (h : Linked sh) :
    Ends K prod t coin k sh (.publish deferred) :=
  .step rfl rfl (ends_done ⟨h.segs, h.next, h.head⟩)

theorem ends_afterFill {pub : Bool} (h : Linked sh) : Ends K prod t coin k sh (afterFill pub) := by
  cases pub with
  | true => exact ends_publish h
  | false => exact ends_done h

theorem ends_put {v : α} {pub : Bool} (h : Linked sh) : Ends K prod t coin k sh (.put v pub) := by
  by_cases hf : sh.filled = K
  · have hlink : Linked (sh.storeEnq K).linkNext := Linked.linkNext ⟨h.segs, h.next, h.head⟩
    refine .step rfl (if_pos hf) (.step rfl rfl (.step rfl rfl ?_))
    exact ends_afterFill ⟨hlink.segs, hlink.next, hlink.head⟩
  · exact .step rfl (if_neg hf) (ends_afterFill ⟨h.segs, h.next, h.head⟩)

theorem ends_take {h d : Nat} (hl : Linked sh) : Ends K prod t coin k sh (.take h d) :=
  .step rfl rfl (ends_done ⟨hl.segs, hl.next, hl.head⟩)

/-- The compare-and-swap succeeds once it does not fail spuriously. -/
theorem ends_test (hf : Fair coin) {h e : Nat} (hl : Linked sh) (he : sh.deq h < e) :
    Ends K prod t coin k sh (.test h (sh.deq h) e) := by
  obtain ⟨m, hkm, hm⟩ := hf k true
  obtain ⟨n, rfl⟩ := Nat.exists_eq_add_of_le hkm
  have hle : ¬ e ≤ sh.deq h := by omega
  have hclaim : Linked (sh.claimCell h) := ⟨hl.segs, hl.next, hl.head⟩
  induction n generalizing k with
  | zero =>
    have hs : claimStep (coin k) sh h (sh.deq h) e = (sh.claimCell h, .take h (sh.deq h)) :=
      if_pos ⟨hm, rfl⟩
    exact .step rfl ((if_neg hle).trans (congrArg some hs)) (ends_take hclaim)
  | succ n ih =>
    cases hk : coin k with
    | true =>
      have hs : claimStep (coin k) sh h (sh.deq h) e = (sh.claimCell h, .take h (sh.deq h)) :=
        if_pos ⟨hk, rfl⟩
      exact .step rfl ((if_neg hle).trans (congrArg some hs)) (ends_take hclaim)
    | false =>
      have hs : claimStep (coin k) sh h (sh.deq h) e = (sh, .test h (sh.deq h) e) :=
        if_neg (by simp [hk])
      refine .step rfl ((if_neg hle).trans (congrArg some hs)) (ih (by omega) ?_)
      rw [← hm]
      congr 1
      omega

theorem ends_claim (hf : Fair coin) {h e : Nat} (hl : Linked sh) (he : sh.deq h < e) :
    Ends K prod t coin k sh (.claim h (sh.deq h) e) := by
  cases hk : coin k with
  | true =>
    have hs : claimStep (coin k) sh h (sh.deq h) e = (sh.claimCell h, .take h (sh.deq h)) :=
      if_pos ⟨hk, rfl⟩
    exact .step rfl (congrArg some hs) (ends_take ⟨hl.segs, hl.next, hl.head⟩)
  | false =>
    have hs : claimStep (coin k) sh h (sh.deq h) e = (sh, .test h (sh.deq h) e) :=
      if_neg (by simp [hk])
    exact .step rfl (congrArg some hs) (ends_test hf hl he)

/-- A pop at the head segment ends there, or goes on to the next one. -/
theorem ends_deq (hf : Fair coin) (hl : Linked sh)
    (hadv : ∀ k, sh.head < sh.tail → Ends K prod t coin k { sh with head := sh.head + 1 } .head) :
    Ends K prod t coin k sh (.deq sh.head) := by
  refine .step rfl rfl (.step rfl rfl ?_)
  by_cases he : sh.seen sh.head ≤ sh.deq sh.head
  · have hstep : ∀ c, step K c sh (.test sh.head (sh.deq sh.head) (sh.seen sh.head)) =
        some (sh, if sh.deq sh.head < sh.enq sh.head then
            .tell sh.head (sh.deq sh.head) (sh.enq sh.head)
          else if sh.enq sh.head < K then .done [.popped none] else .next sh.head) :=
      fun c => if_pos he
    refine .step rfl (hstep _) ?_
    split_ifs with hd hK
    · exact .step rfl rfl (ends_claim hf ⟨hl.segs, hl.next, hl.head⟩ hd)
    · exact ends_done hl
    · by_cases htail : sh.head < sh.tail
      · have hnext : sh.next sh.head = some (sh.head + 1) := (hl.next _).trans (if_pos htail)
        have hs : ∀ c, step K c sh (.next sh.head) = some (sh, .advance sh.head (sh.head + 1)) :=
          fun c => by simp only [step, hnext]
        refine .step rfl (hs true) (.step rfl rfl ?_)
        rw [if_pos rfl]
        exact hadv _ htail
      · have hnext : sh.next sh.head = none := (hl.next _).trans (if_neg htail)
        have hs : ∀ c, step K c sh (.next sh.head) = some (sh, .done [.popped none]) :=
          fun c => by simp only [step, hnext]
        exact .step rfl (hs true) (ends_done hl)
  · exact ends_test hf hl (by omega)

/-- The head is protected at once. -/
theorem ends_of_deq (h : ∀ k, Ends K prod t coin k sh (.deq sh.head)) :
    Ends K prod t coin k sh .head := by
  refine .step rfl rfl ?_
  split
  · exact h _
  · refine .step rfl rfl (.step rfl rfl ?_)
    rw [if_pos rfl]
    exact h _

/-- A pop goes through the segments in their order. -/
theorem ends_head (hf : Fair coin) (hl : Linked sh) : Ends K prod t coin k sh .head := by
  obtain ⟨n, hn⟩ : ∃ n, sh.tail - sh.head = n := ⟨_, rfl⟩
  induction n generalizing k sh with
  | zero => exact ends_of_deq fun k => ends_deq hf hl fun _ h => by omega
  | succ n ih =>
    refine ends_of_deq fun k => ends_deq hf hl fun k h => ih ⟨hl.segs, hl.next, h⟩ ?_
    show sh.tail - (sh.head + 1) = n
    omega

/-- Every call comes to its end. -/
theorem ends_call (hf : Fair coin) (hl : Linked sh) (c : Call α) :
    Ends K prod t coin k sh (start c) := by
  cases c with
  | push v | pushDeferred v => exact ends_put hl
  | publish => exact ends_publish hl
  | consume => exact ends_head hf hl

end Wtc.Spmc
