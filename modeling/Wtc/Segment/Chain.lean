import Mathlib.Tactic
import Wtc.Segment.Model

/-!
# The list of segments

What both forms of the queue keep of the list: the segments are linked in order, a segment gets a
successor only once all its cells are reserved, and the pops have left every segment before the
head.

Cell `j` of segment `s` has the number `s * K + j`. The cells reserved are those below `reserved`;
those that the in-order pops have passed are those below `passed`.
-/

namespace Wtc.Segment

open Wtc.Concurrent

variable {α : Type} {K : Nat} {sh : Shared α}

/-! ## Single cells -/

variable {j s j' s' h : Nat}

theorem setState_self {m : Mark} : (sh.setState s j m).state s j = m := by
  simp [Shared.setState]

theorem setState_ne {m : Mark} (h : (s', j') ≠ (s, j)) :
    (sh.setState s j m).state s' j' = sh.state s' j' := by
  by_cases hs : s' = s
  · subst hs
    have hj : j' ≠ j := fun hj => h (by rw [hj])
    simp [Shared.setState, hj]
  · simp [Shared.setState, hs]

theorem setCell_self {v : Option α} : (sh.setCell s j v).cell s j = v := by
  simp [Shared.setCell]

theorem setCell_ne {v : Option α} (h : (s', j') ≠ (s, j)) :
    (sh.setCell s j v).cell s' j' = sh.cell s' j' := by
  by_cases hs : s' = s
  · subst hs
    have hj : j' ≠ j := fun hj => h (by rw [hj])
    simp [Shared.setCell, hj]
  · simp [Shared.setCell, hs]

/-! ## The list -/

structure Chain (K : Nat) (sh : Shared α) : Prop where
  segs_pos : 0 < sh.segs
  next : ∀ s, sh.next s = if s + 1 < sh.segs then some (s + 1) else none
  enq_full : ∀ s, s + 1 < sh.segs → K < sh.enq s
  enq_gt : ∀ s, sh.segs ≤ s → sh.enq s = 0
  head_lt : sh.head < sh.segs
  tail_lt : sh.tail < sh.segs
  deq_lt : ∀ s, s < sh.head → K ≤ sh.deq s
  deq_gt : ∀ s, sh.head < s → sh.deq s = 0

/-- The number of cells reserved. -/
def reserved (K : Nat) (sh : Shared α) : Nat := (sh.segs - 1) * K + min (sh.enq (sh.segs - 1)) K

/-- The number of cells passed. -/
def passed (K : Nat) (sh : Shared α) : Nat := sh.head * K + min (sh.deq sh.head) K

theorem Chain.init : Chain K (Shared.init : Shared α) where
  segs_pos := Nat.one_pos
  next s := by
    have h : ¬ s + 1 < 1 := by omega
    exact (if_neg h).symm
  enq_full s h := by
    have h : s + 1 < 1 := h
    omega
  enq_gt _ _ := rfl
  head_lt := Nat.one_pos
  tail_lt := Nat.one_pos
  deq_lt _ h := absurd h (Nat.not_lt_zero _)
  deq_gt _ _ := rfl

namespace Chain

variable {n : Nat}

section

variable (hc : Chain K sh)
include hc

theorem next_eq_some (h : sh.next s = some n) : n = s + 1 ∧ n < sh.segs := by
  rw [hc.next] at h
  split_ifs at h with hs
  cases h
  exact ⟨rfl, hs⟩

theorem next_eq_none (hs : s < sh.segs) (h : sh.next s = none) : s + 1 = sh.segs := by
  rw [hc.next] at h
  split_ifs at h
  omega

/-- A segment with a cell left to reserve is the last one. -/
theorem last_of_enq_lt (hs : s < sh.segs) (h : sh.enq s ≤ K) : s + 1 = sh.segs := by
  by_contra hne
  have := hc.enq_full s (by omega)
  omega

theorem lt_reserved (hs : s < sh.segs) (hj : j < K) : s * K + j < reserved K sh ↔ j < sh.enq s := by
  unfold reserved
  rcases Nat.lt_or_ge (s + 1) sh.segs with hlt | hge
  · have h1 := hc.enq_full s hlt
    have h2 : s * K + K ≤ (sh.segs - 1) * K := mul_add_le (by omega) le_rfl
    omega
  · obtain rfl : s = sh.segs - 1 := by omega
    omega

/-- A cell of a segment not linked yet is not reserved. -/
theorem reserved_le : reserved K sh ≤ sh.segs * K := by
  have hpos := hc.segs_pos
  have hle : (sh.segs - 1) * K + K ≤ sh.segs * K := mul_add_le (by omega) le_rfl
  unfold reserved
  omega

theorem passed_le : passed K sh ≤ sh.segs * K := by
  have hle : sh.head * K + K ≤ sh.segs * K := mul_add_le hc.head_lt le_rfl
  unfold passed
  omega

/-! ## The steps -/

theorem reserve (hs : s < sh.segs) (n : Nat) : Chain K (sh.reserve s n) where
  segs_pos := hc.segs_pos
  next := hc.next
  enq_full := by
    intro u hu
    have := hc.enq_full u hu
    by_cases h : u = s
    · subst h; simp only [Shared.reserve, Function.update_self]; omega
    · simpa [Shared.reserve, h] using this
  enq_gt := by
    intro u hu
    have hu : sh.segs ≤ u := hu
    have h : u ≠ s := by omega
    simpa [Shared.reserve, h] using hc.enq_gt u hu
  head_lt := hc.head_lt
  tail_lt := hc.tail_lt
  deq_lt := hc.deq_lt
  deq_gt := hc.deq_gt

theorem setDeq {d : Nat} (hh : h ≤ sh.head) (hd : sh.deq h ≤ d) : Chain K (sh.setDeq h d) where
  segs_pos := hc.segs_pos
  next := hc.next
  enq_full := hc.enq_full
  enq_gt := hc.enq_gt
  head_lt := hc.head_lt
  tail_lt := hc.tail_lt
  deq_lt := by
    intro u hu
    have := hc.deq_lt u hu
    by_cases he : u = h
    · subst he; simp only [Shared.setDeq, Function.update_self]; omega
    · simpa [Shared.setDeq, he] using this
  deq_gt := by
    intro u hu
    have hu : sh.head < u := hu
    have he : u ≠ h := by omega
    simpa [Shared.setDeq, he] using hc.deq_gt u hu

theorem link (hs : s + 1 = sh.segs) (hK : K < sh.enq s) (vs : List α) : Chain K (sh.link s vs) where
  segs_pos := Nat.succ_pos _
  next := by
    intro u
    show Function.update sh.next s (some sh.segs) u = if u + 1 < sh.segs + 1 then _ else _
    by_cases he : u = s
    · subst he
      rw [Function.update_self, if_pos (by omega), hs]
    · rw [Function.update_of_ne he, hc.next]
      by_cases hu : u + 1 < sh.segs
      · rw [if_pos hu, if_pos (by omega)]
      · rw [if_neg hu, if_neg (by omega)]
  enq_full := by
    intro u hu
    have hu : u + 1 < sh.segs + 1 := hu
    have hne : u ≠ sh.segs := by omega
    show K < Function.update sh.enq sh.segs vs.length u
    rw [Function.update_of_ne hne]
    by_cases he : u = s
    · subst he; exact hK
    · exact hc.enq_full u (by omega)
  enq_gt := by
    intro u hu
    have hu : sh.segs + 1 ≤ u := hu
    show Function.update sh.enq sh.segs vs.length u = 0
    rw [Function.update_of_ne (by omega)]
    exact hc.enq_gt u (by omega)
  head_lt := Nat.lt_succ_of_lt hc.head_lt
  tail_lt := Nat.lt_succ_of_lt hc.tail_lt
  deq_lt := hc.deq_lt
  deq_gt := hc.deq_gt

theorem setTail (hn : n < sh.segs) : Chain K { sh with tail := n } :=
  { hc with tail_lt := hn }

/-- The head moves to the next segment once the pops have left its own. -/
theorem setHead (hn : sh.head + 1 < sh.segs) (hd : K ≤ sh.deq sh.head) :
    Chain K { sh with head := sh.head + 1 } :=
  { hc with
    head_lt := hn
    deq_lt := by
      intro u hu
      have hu : u < sh.head + 1 := hu
      by_cases he : u = sh.head
      · subst he; exact hd
      · exact hc.deq_lt u (by omega)
    deq_gt := by
      intro u hu
      have hu : sh.head + 1 < u := hu
      exact hc.deq_gt u (by omega) }

theorem setState (s j : Nat) (m : Mark) : Chain K (sh.setState s j m) := { hc with }

theorem setCell (s j : Nat) (v : Option α) : Chain K (sh.setCell s j v) :=
  { hc with }

theorem setOne (one : One) : Chain K (sh.setOne one) := { hc with }

end

end Chain

/-! ## The numbers after a step -/

theorem reserved_reserve_last (hs : s + 1 = sh.segs) (n : Nat) :
    reserved K (sh.reserve s n) = s * K + min (sh.enq s + n) K := by
  have : sh.segs - 1 = s := by omega
  simp [reserved, Shared.reserve, this]

theorem reserved_last (hs : s + 1 = sh.segs) : reserved K sh = s * K + min (sh.enq s) K := by
  have : sh.segs - 1 = s := by omega
  simp [reserved, this]

theorem reserved_le_reserve (s n : Nat) : reserved K sh ≤ reserved K (sh.reserve s n) := by
  unfold reserved
  have : sh.enq (sh.segs - 1) ≤ (sh.reserve s n).enq (sh.segs - 1) := by
    by_cases h : sh.segs - 1 = s
    · simp [Shared.reserve, h]
    · simp [Shared.reserve, h]
  show _ ≤ (sh.segs - 1) * K + min ((sh.reserve s n).enq (sh.segs - 1)) K
  omega

theorem reserve_reserve (sh : Shared α) (s m n : Nat) :
    (sh.reserve s m).reserve s n = sh.reserve s (m + n) := by
  simp [Shared.reserve, Nat.add_assoc]

theorem reserved_link {vs : List α} (hv : vs.length ≤ K) :
    reserved K (sh.link s vs) = sh.segs * K + vs.length := by
  simp [reserved, Shared.link, hv]

/-- When a new segment is linked every cell before it is reserved. -/
theorem reserved_of_full (hs : s + 1 = sh.segs) (hK : K < sh.enq s) :
    reserved K sh = sh.segs * K := by
  rw [reserved_last hs, ← hs, Nat.add_mul]
  omega

theorem passed_setDeq_head (d : Nat) :
    passed K (sh.setDeq sh.head d) = sh.head * K + min d K := by
  simp [passed, Shared.setDeq]

theorem passed_setDeq_other (hh : h ≠ sh.head) (d : Nat) :
    passed K (sh.setDeq h d) = passed K sh := by
  simp [passed, Shared.setDeq, Ne.symm hh]

theorem passed_setHead (hc : Chain K sh) (hd : K ≤ sh.deq sh.head) :
    passed K { sh with head := sh.head + 1 } = passed K sh := by
  have := hc.deq_gt (sh.head + 1) (by omega)
  simp only [passed, this, Nat.add_mul]
  omega

/-! ## Progress of a push -/

/-- A thread inside `push_run` is at the end or has a step. -/
theorem pushStep_isSome {many : Bool} {l : PushLoc α} (hl : ∀ k, l ≠ .done k) :
    (pushStep K many sh l).isSome := by
  cases l with
  | done k => exact absurd rfl (hl k)
  | load k vs | build k vs s j stop fin | linkTail k vs s n | tailCas k vs s n => rfl
  | check k vs s | reserve k vs s | mark k vs s j stop fin | takeBack k vs s j stop fin
  | giveUp k vs s r stop fin => simp only [pushStep]; split_ifs <;> rfl
  | nextLoad k vs s spin => simp only [pushStep]; split <;> (try split_ifs) <;> rfl
  | link k vs s => simp only [pushStep]; split <;> rfl

end Wtc.Segment
