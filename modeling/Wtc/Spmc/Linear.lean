import Wtc.Spmc.Invariant

/-!
# The one-producer queue is linearizable

Each step of `Wtc/Spmc/Model.lean` that writes keeps `G`, one lemma for each.

A deferred push takes effect where its cell is filled, or, at the end of a segment, where the full
segment is published; a publish at its store of `enq`; a pop at the compare-and-swap that claims
its cell; an empty answer at the read of `enq`, or of `next` for a drained full segment.
-/

namespace Wtc.Spmc

open Wtc.Concurrent

variable {α Tid : Type} {K : Nat} {sh : Shared α} {w : Ghost Tid α}

/-! ## Element numbers -/

section

variable (hg : G K sh w)
include hg

theorem G.enq_le (i : Nat) : sh.enq i ≤ K := by
  rcases Nat.lt_trichotomy i sh.tail with h | h | h
  · rw [hg.enq_lt i h]
  · subst h; exact hg.enq_tail.trans hg.filled_le
  · rw [hg.enq_gt i h]; omega

/-- Only published elements are claimed. -/
theorem G.popped_le_shown : popped K sh ≤ shown K sh := by
  have hd := hg.deq_le sh.head
  rcases Nat.lt_or_eq_of_le hg.head_le with h | h
  · have := mul_add_le h (hd.trans (hg.enq_le _))
    unfold popped shown
    omega
  · unfold popped shown
    rw [h] at hd ⊢
    omega

theorem G.shown_le_built : shown K sh ≤ w.built.length := by
  rw [hg.built]
  unfold shown
  have := hg.enq_tail
  omega

/-! ## The producer -/

/-- The tail segment's count is stored: every element filled so far is published. -/
theorem G.storeEnq {d : Deferred α} {extra : List α}
    {p : Tid → Option (Pending (DeferOp α) (FifoAns α))} (he : w.extra = [])
    (hq : d.queue = w.abs.obj.queue ++ w.abs.obj.hidden) (hh : d.hidden = extra)
    (hn : d.pushed = w.built.length + extra.length) :
    G K (sh.storeEnq sh.filled) { w with abs := ⟨d, p⟩, extra := extra } := by
  have hps := hg.popped_le_shown
  have hshow : shown K (sh.storeEnq sh.filled) = w.built.length := by
    simp [shown, Shared.storeEnq, hg.built]
  -- the counts only grow
  have henq : ∀ i, sh.enq i ≤ (sh.storeEnq sh.filled).enq i := by
    intro i
    by_cases hi : i = sh.tail
    · subst hi; simpa [Shared.storeEnq] using hg.enq_tail
    · simp [Shared.storeEnq, hi]
  refine ⟨hg.segs, hg.filled_le, hg.next, ?_, by simp [Shared.storeEnq], ?_,
    fun i => (hg.deq_le i).trans (henq i), fun i => (hg.seen_le i).trans (henq i), hg.head_le,
    hg.deq_lt, hg.deq_gt, ?_, hg.built, hg.cell, hg.owner, ?_, ?_, hn⟩
  · intro i hi
    have hne : i ≠ sh.tail := Nat.ne_of_lt hi
    simpa [Shared.storeEnq, hne] using hg.enq_lt i hi
  · intro i hi
    have hne : i ≠ sh.tail := Nat.ne_of_gt hi
    simpa [Shared.storeEnq, hne] using hg.enq_gt i hi
  · intro h0
    rcases hg.fresh h0 with h | h
    · exact Or.inl h
    · exact absurd he h
  · show d.queue = (w.built.take (shown K (sh.storeEnq sh.filled))).drop (popped K sh)
    rw [hshow, List.take_length, hq, hg.queue, hg.hidden, he, List.append_nil,
      drop_take_append_drop hps]
  · show d.hidden = w.built.drop (shown K (sh.storeEnq sh.filled)) ++ extra
    rw [hshow, List.drop_length, hh, List.nil_append]

/-- A deferred push at the end of a segment shows the segment. -/
theorem G.full_of_eq (hK : 2 ≤ K) (hf : sh.filled = K) (he : w.extra = []) :
    full K w.abs.obj.pushed = true := by
  have hne : sh.tail * K + K ≠ 0 := by omega
  rw [hg.pushed, hg.built, he, hf, full]
  simp only [List.length_nil, Nat.add_zero, Nat.add_mod_right, Nat.mul_mod_left]
  simpa using hne

/-- A deferred push that is not at the end of a segment shows nothing. -/
theorem G.not_full (hf : sh.filled < K) (he : w.extra = []) : full K w.abs.obj.pushed = false := by
  rw [hg.pushed, hg.built, he]
  have hmod : (sh.tail * K + sh.filled) % K = sh.filled := by
    rw [Nat.add_comm, Nat.add_mul_mod_self_right, Nat.mod_eq_of_lt hf]
  by_cases h0 : sh.filled = 0
  · rcases hg.fresh h0 with ht | ht
    · simp [full, ht, h0]
    · exact absurd he ht
  · simp [full, hmod, h0]

/-- A cell of the tail segment is filled; the element may have taken effect before. -/
theorem G.build (hf : sh.filled < K) {v : α}
    {a : Atomic.State Tid (DeferOp α) (FifoAns α) (Deferred α)}
    (hq : a.obj.queue = w.abs.obj.queue) (hh : a.obj.hidden = w.built.drop (shown K sh) ++ [v])
    (hn : a.obj.pushed = w.built.length + 1) :
    G K (sh.build v) { w with abs := a, built := w.built ++ [v], extra := [] } := by
  have hsb := hg.shown_le_built
  refine ⟨hg.segs, hf, hg.next, hg.enq_lt, hg.enq_tail.trans (Nat.le_succ _), hg.enq_gt, hg.deq_le,
    hg.seen_le, hg.head_le, hg.deq_lt, hg.deq_gt, ?_, ?_, ?_, hg.owner, ?_, ?_, ?_⟩
  · intro h
    simp [Shared.build] at h
  · rw [List.length_append, hg.built]
    rfl
  · intro i j hj hp hb
    rw [List.length_append, List.length_singleton] at hb
    by_cases hij : i = sh.tail ∧ j = sh.filled
    · obtain ⟨rfl, rfl⟩ := hij
      simp [Shared.build, setCell, ← hg.built]
    · have hne : i * K + j ≠ w.built.length := by
        rw [hg.built]
        exact fun h => hij (number_inj hj hf h)
      show setCell sh.cell sh.tail sh.filled (some v) i j = _
      rw [setCell, if_neg hij, List.getElem?_append_left (by omega)]
      exact hg.cell i j hj hp (by omega)
  · show a.obj.queue = ((w.built ++ [v]).take (shown K sh)).drop (popped K sh)
    rw [hq, hg.queue, List.take_append_of_le_length hsb]
  · show a.obj.hidden = (w.built ++ [v]).drop (shown K sh) ++ []
    rw [hh, List.drop_append_of_le_length hsb, List.append_nil]
  · show a.obj.pushed = (w.built ++ [v]).length + 0
    rw [hn, List.length_append, List.length_singleton]

/-- The next segment is linked. -/
theorem G.linkNext (hf : sh.filled = K) (hq : sh.enq sh.tail = K) (he : w.extra ≠ []) :
    G K sh.linkNext w := by
  have hsegs := hg.segs
  have hmul : sh.segs * K = sh.tail * K + K := by rw [hsegs, Nat.add_mul, Nat.one_mul]
  have hz : sh.enq sh.segs = 0 := hg.enq_gt _ (by omega)
  have hshow : shown K sh.linkNext = shown K sh := by
    show sh.segs * K + sh.enq sh.segs = sh.tail * K + sh.enq sh.tail
    rw [hz, hmul, hq, Nat.add_zero]
  refine ⟨rfl, Nat.zero_le _, ?_, ?_, ?_, ?_, hg.deq_le, hg.seen_le, ?_, hg.deq_lt,
    hg.deq_gt, fun _ => Or.inr he, ?_, hg.cell, hg.owner, ?_, ?_, hg.pushed⟩
  · intro i
    show Function.update sh.next sh.tail (some sh.segs) i = if i < sh.segs then _ else _
    by_cases hi : i = sh.tail
    · subst hi
      simp [hsegs]
    · have h1 : (i < sh.segs) ↔ (i < sh.tail) := by omega
      simpa [hi, h1] using hg.next i
  · intro i hi
    change i < sh.segs at hi
    by_cases hit : i = sh.tail
    · subst hit; exact hq
    · exact hg.enq_lt i (by omega)
  · show sh.enq sh.segs ≤ 0
    rw [hz]
  · intro i hi
    change sh.segs < i at hi
    exact hg.enq_gt i (by omega)
  · show sh.head ≤ sh.segs
    have := hg.head_le
    omega
  · show w.built.length = sh.segs * K + 0
    rw [hg.built, hf, hmul, Nat.add_zero]
  · rw [hshow]; exact hg.queue
  · rw [hshow]; exact hg.hidden

/-! ## The consumers -/

/-- A consumer that can claim a cell is at the head. -/
theorem G.head_eq {h : Nat} (hh : h ≤ sh.head) (hd : sh.deq h < K) : h = sh.head := by
  by_contra hne
  have := hg.deq_lt h (by omega)
  omega

/-- The cell at `deq` is claimed, and its element is the oldest. -/
theorem G.claim [DecidableEq Tid] {h : Nat} (t : Tid) (hh : h ≤ sh.head)
    (hd : sh.deq h < sh.enq h) :
    ∃ v q, w.abs.obj.queue = v :: q ∧ sh.cell h (sh.deq h) = some v ∧
      ∀ p, G K (sh.claimCell h)
        { w with
          abs := ⟨⟨q, w.abs.obj.hidden, w.abs.obj.pushed⟩, p⟩
          owner := fun i j => if i = h ∧ j = sh.deq h then some t else w.owner i j } := by
  have hdK : sh.deq h < K := hd.trans_le (hg.enq_le h)
  obtain rfl : h = sh.head := hg.head_eq hh hdK
  have hpop : popped K (sh.claimCell sh.head) = popped K sh + 1 := by
    simp [popped, Shared.claimCell, Nat.add_assoc]
  have hlt : popped K sh < shown K sh := by
    rcases Nat.lt_or_eq_of_le hg.head_le with hl | hl
    · have := mul_add_le (j := sh.deq sh.head + 1) hl hdK
      unfold popped shown
      omega
    · unfold popped shown
      rw [← hl]
      omega
  have hb : popped K sh < w.built.length := hlt.trans_le hg.shown_le_built
  have hcell := hg.cell sh.head (sh.deq sh.head) hdK le_rfl hb
  have hqueue := hg.queue
  rw [List.drop_eq_getElem_cons (by rw [List.length_take]; omega)] at hqueue
  refine ⟨w.built[popped K sh], ((w.built.take (shown K sh)).drop (popped K sh + 1)), ?_, ?_, ?_⟩
  · rw [hqueue, List.getElem_take]
  · rw [hcell]
    exact List.getElem?_eq_getElem hb
  · intro p
    refine ⟨hg.segs, hg.filled_le, hg.next, hg.enq_lt, hg.enq_tail, hg.enq_gt, ?_, hg.seen_le,
      hg.head_le, ?_, ?_, hg.fresh, hg.built, ?_, ?_, ?_, hg.hidden, hg.pushed⟩
    · intro i
      by_cases hi : i = sh.head
      · subst hi; simpa [Shared.claimCell] using hd
      · simpa [Shared.claimCell, hi] using hg.deq_le i
    · intro i hi
      have hne : i ≠ sh.head := Nat.ne_of_lt hi
      simpa [Shared.claimCell, hne] using hg.deq_lt i hi
    · intro i hi
      have hne : i ≠ sh.head := Nat.ne_of_gt hi
      simpa [Shared.claimCell, hne] using hg.deq_gt i hi
    · intro i j hj hp hbl
      rw [hpop] at hp
      exact hg.cell i j hj (by omega) hbl
    · intro i j u hu
      by_cases hij : i = sh.head ∧ j = sh.deq sh.head
      · obtain ⟨rfl, rfl⟩ := hij
        simp [Shared.claimCell]
      · simp only [hij, if_false] at hu
        have := hg.owner i j u hu
        by_cases hi : i = sh.head
        · subst hi; simp [Shared.claimCell]; omega
        · simpa [Shared.claimCell, hi] using this
    · rw [hpop]
      rfl

/-- A claimed cell is emptied. -/
theorem G.take {h d : Nat} {t : Tid} (ho : w.owner h d = some t) :
    G K { sh with cell := setCell sh.cell h d none }
      { w with owner := fun i j => if i = h ∧ j = d then none else w.owner i j } := by
  have hd := hg.owner h d t ho
  refine ⟨hg.segs, hg.filled_le, hg.next, hg.enq_lt, hg.enq_tail, hg.enq_gt, hg.deq_le, hg.seen_le,
    hg.head_le, hg.deq_lt, hg.deq_gt, hg.fresh, hg.built, ?_, ?_, hg.queue, hg.hidden, hg.pushed⟩
  · intro i j hj hp hb
    have hij : ¬ (i = h ∧ j = d) := by
      rintro ⟨rfl, rfl⟩
      have hp' : sh.head * K + sh.deq sh.head ≤ i * K + j := hp
      rcases Nat.lt_trichotomy i sh.head with hl | rfl | hl
      · have := mul_add_le hl (Nat.succ_le_of_lt hj)
        omega
      · omega
      · have := hg.deq_gt i hl
        omega
    show setCell sh.cell h d none i j = _
    rw [setCell, if_neg hij]
    exact hg.cell i j hj hp hb
  · intro i j u hu
    by_cases hij : i = h ∧ j = d
    · simp [hij] at hu
    · simp only [hij, if_false] at hu
      exact hg.owner i j u hu

/-- The head moves past a drained segment. -/
theorem G.advance (hd : sh.deq sh.head = K) (ht : sh.head < sh.tail) :
    G K { sh with head := sh.head + 1 } w := by
  have hz : sh.deq (sh.head + 1) = 0 := hg.deq_gt _ (by omega)
  have hpop : popped K { sh with head := sh.head + 1 } = popped K sh := by
    simp only [popped, hz, hd, Nat.add_mul, Nat.one_mul]
    rfl
  refine ⟨hg.segs, hg.filled_le, hg.next, hg.enq_lt, hg.enq_tail, hg.enq_gt, hg.deq_le, hg.seen_le,
    ht, ?_, ?_, hg.fresh, hg.built, ?_, hg.owner, ?_, hg.hidden, hg.pushed⟩
  · intro i hi
    by_cases hih : i = sh.head
    · subst hih; exact hd
    · exact hg.deq_lt i (by change i < sh.head + 1 at hi; omega)
  · intro i hi
    exact hg.deq_gt i (by change sh.head + 1 < i at hi; omega)
  · rw [hpop]; exact hg.cell
  · rw [hpop]; exact hg.queue

/-- A drained last segment means an empty queue. -/
theorem G.queue_nil (ht : sh.head = sh.tail) (hd : sh.deq sh.tail = sh.enq sh.tail) :
    w.abs.obj.queue = [] := by
  rw [hg.queue]
  have : popped K sh = shown K sh := by unfold popped shown; rw [ht, hd]
  rw [this]
  simp

end

/-! ## The rule -/

section Rule

variable [DecidableEq Tid] {prod : Tid}

omit [DecidableEq Tid] in
theorem afterFill_L {t : Tid} {pub : Bool} {sh' : Shared α} {w' : Ghost Tid α} (ht : t = prod)
    (he : w'.extra = []) (hp : w'.abs.Pend t (rest pub) [.pushed]) :
    L K prod t sh' w' (some (afterFill pub)) := by
  cases pub with
  | true => exact ⟨ht, he, hp⟩
  | false => exact ⟨hp, fun _ => he⟩

/-- The producer's steps. -/
theorem producer_step (hK : 2 ≤ K) (hg : G K sh w) {c : Bool} {l l' : Loc α} {sh' : Shared α}
    (hl : L K prod prod sh w (some l)) (hs : step K c sh l = some (sh', l'))
    (hpush : (∃ v pub, l = .put v pub ∨ l = .link v pub ∨ l = .fill v pub) ∨ ∃ d, l = .publish d) :
    ∃ w', Atomic.Moves (deferredFifo α (full K)) w.abs [] w'.abs ∧ G K sh' w' ∧
      L K prod prod sh' w' (some l') ∧ Rely prod prod sh w sh' w' := by
  rcases hpush with ⟨v, pub, rfl | rfl | rfl⟩ | ⟨deferred, rfl⟩
  · obtain ⟨-, he, hp⟩ := hl
    simp only [step] at hs
    split at hs
    · next hf =>
      obtain ⟨rfl, rfl⟩ : sh.storeEnq K = sh' ∧ Loc.link v pub = l' := by simpa using hs
      have hstep := DeferStep.deferFull w.abs.obj v (hg.full_of_eq hK hf he)
      have hg' : G K (sh.storeEnq sh.filled)
          { w with
            abs := w.abs.lin prod (rest pub) [.pushed] (w.abs.obj.show.put v), extra := [v] } := by
        refine hg.storeEnq he rfl rfl ?_
        show w.abs.obj.pushed + 1 = w.built.length + 1
        rw [hg.pushed, he]
        rfl
      rw [← hf] at *
      refine ⟨_, .steps (hp.lin hstep), hg', ⟨rfl, rfl, rfl, ?_, ?_⟩, ?_⟩
      · simp [Shared.storeEnq]
      · exact w.abs.lin_pend_self _ _ _ _
      · refine ⟨fun u hu => w.abs.lin_pend_ne hu _ _ _, le_rfl, le_rfl, fun _ => le_rfl, ?_,
          fun _ _ _ _ h => ⟨h, rfl⟩, fun h => absurd rfl h⟩
        intro i
        by_cases hi : i = sh.tail
        · subst hi; simpa [Shared.storeEnq] using hg.enq_tail
        · simp [Shared.storeEnq, hi]
    · next hf =>
      obtain ⟨rfl, rfl⟩ : sh.build v = sh' ∧ afterFill pub = l' := by simpa using hs
      have hlt : sh.filled < K := lt_of_le_of_ne hg.filled_le hf
      have hstep := DeferStep.defer w.abs.obj v (hg.not_full hlt he)
      have hg' : G K (sh.build v) { w with
          abs := w.abs.lin prod (rest pub) [.pushed] (w.abs.obj.put v)
          built := w.built ++ [v]
          extra := [] } := by
        refine hg.build hlt rfl ?_ ?_
        · show w.abs.obj.hidden ++ [v] = _
          rw [hg.hidden, he, List.append_nil]
        · show w.abs.obj.pushed + 1 = _
          rw [hg.pushed, he]
          rfl
      refine ⟨_, .steps (hp.lin hstep), hg', afterFill_L rfl rfl (w.abs.lin_pend_self _ _ _ _), ?_⟩
      refine ⟨fun u hu => w.abs.lin_pend_ne hu _ _ _, le_rfl, le_rfl, fun _ => le_rfl,
        fun _ => le_rfl, ?_, fun h => absurd rfl h⟩
      intro i j u hu ho
      refine ⟨ho, ?_⟩
      -- a claimed cell is not the one being filled
      have hd := hg.owner i j u ho
      have hij : ¬ (i = sh.tail ∧ j = sh.filled) := by
        rintro ⟨rfl, rfl⟩
        have := hg.deq_le sh.tail
        have := hg.enq_tail
        omega
      exact if_neg hij
  · obtain ⟨-, he, hf, hq, hp⟩ := hl
    obtain ⟨rfl, rfl⟩ : sh.linkNext = sh' ∧ Loc.fill v pub = l' := by simpa [step] using hs
    have hz : sh.enq sh.segs = 0 := hg.enq_gt _ (by rw [hg.segs]; omega)
    refine ⟨w, .steps .refl, hg.linkNext hf hq (by simp [he]), ⟨rfl, he, rfl, hz, hp⟩, ?_⟩
    refine ⟨fun _ _ => rfl, le_rfl, ?_, fun _ => le_rfl, fun _ => le_rfl,
      fun _ _ _ _ h => ⟨h, rfl⟩, fun h => absurd rfl h⟩
    show sh.tail ≤ sh.segs
    rw [hg.segs]
    omega
  · obtain ⟨-, he, hf, hq, hp⟩ := hl
    obtain ⟨rfl, rfl⟩ : sh.build v = sh' ∧ afterFill pub = l' := by simpa [step] using hs
    have hlen : w.built.length = shown K sh := by
      rw [hg.built, hf, shown, hq]
    have hg' : G K (sh.build v)
        { w with abs := w.abs, built := w.built ++ [v], extra := [] } := by
      refine hg.build (by omega) rfl ?_ ?_
      · rw [hg.hidden, he]
      · rw [hg.pushed, he]
        rfl
    refine ⟨{ w with built := w.built ++ [v], extra := [] }, .steps .refl, hg',
      afterFill_L rfl rfl hp, ?_⟩
    refine ⟨fun _ _ => rfl, le_rfl, le_rfl, fun _ => le_rfl, fun _ => le_rfl, ?_,
      fun h => absurd rfl h⟩
    intro i j u hu ho
    refine ⟨ho, ?_⟩
    have hd := hg.owner i j u ho
    have hij : ¬ (i = sh.tail ∧ j = sh.filled) := by
      rintro ⟨rfl, rfl⟩
      have := hg.deq_le sh.tail
      omega
    exact if_neg hij
  · obtain ⟨-, he, hp⟩ := hl
    obtain ⟨rfl, rfl⟩ : sh.storeEnq sh.filled = sh' ∧
        Loc.done (if deferred then [FifoAns.pushed, .pushed] else [.pushed]) = l' := by
      simpa [step] using hs
    have hg' : G K (sh.storeEnq sh.filled) { w with
        abs := w.abs.lin prod [] ((if deferred then [.pushed] else []) ++ [.pushed]) w.abs.obj.show
        extra := [] } := by
      refine hg.storeEnq he rfl rfl ?_
      show w.abs.obj.pushed = _
      rw [hg.pushed, he]
    refine ⟨_, .steps (hp.lin (DeferStep.publish _)), hg', ⟨?_, fun _ => rfl⟩, ?_⟩
    · have h := w.abs.lin_pend_self prod [] ((if deferred then [.pushed] else []) ++ [.pushed])
        w.abs.obj.show
      cases deferred <;> exact h
    · refine ⟨fun u hu => w.abs.lin_pend_ne hu _ _ _, le_rfl, le_rfl, fun _ => le_rfl, ?_,
        fun _ _ _ _ h => ⟨h, rfl⟩, fun h => absurd rfl h⟩
      intro i
      by_cases hi : i = sh.tail
      · subst hi; simpa [Shared.storeEnq] using hg.enq_tail
      · simp [Shared.storeEnq, hi]

/-- A compare-and-swap of `deq`, which claims the cell or fails. -/
theorem claim_step (hg : G K sh w) {c : Bool} {t : Tid} {h d e : Nat} (hp : Popping prod w t)
    (hh : h ≤ sh.head) (hd : d ≤ sh.deq h) (hde : d < e) (he : e ≤ sh.enq h) :
    ∃ w', Atomic.Moves (deferredFifo α (full K)) w.abs [] w'.abs ∧
      G K (claimStep c sh h d e).1 w' ∧
      L K prod t (claimStep c sh h d e).1 w' (some (claimStep c sh h d e).2) ∧
      Rely prod t sh w (claimStep c sh h d e).1 w' := by
  unfold claimStep
  split
  · next hc =>
    obtain ⟨-, rfl⟩ := hc
    obtain ⟨v, q, hq, hcell, hg'⟩ := hg.claim t hh (hde.trans_le he)
    refine ⟨_, .steps (hp.1.lin (DeferStep.pop_of hq)), hg' _,
      ⟨v, w.abs.lin_pend_self _ _ _ _, hp.2, ?_, hcell⟩, ?_⟩
    · simp
    · refine ⟨fun u hu => w.abs.lin_pend_ne hu _ _ _, le_rfl, le_rfl, ?_, fun _ => le_rfl, ?_,
        fun _ => ⟨rfl, rfl, rfl, rfl⟩⟩
      · intro i
        by_cases hi : i = h
        · subst hi; simp [Shared.claimCell]
        · simp [Shared.claimCell, hi]
      · intro i j u hu ho
        refine ⟨?_, rfl⟩
        -- the cell claimed now had no owner
        have hij : ¬ (i = h ∧ j = sh.deq h) := by
          rintro ⟨rfl, rfl⟩
          exact lt_irrefl _ (hg.owner i _ u ho)
        simpa [hij] using ho
  · exact ⟨w, .steps .refl, hg, ⟨hp, hh, le_rfl, he⟩, .refl _ _ _ _⟩

/-- An empty answer, given where the last segment is drained. -/
theorem empty_step (hg : G K sh w) {t : Tid} (hp : Popping prod w t) (ht : sh.head = sh.tail)
    (hd : sh.deq sh.tail = sh.enq sh.tail) :
    ∃ w', Atomic.Moves (deferredFifo α (full K)) w.abs [] w'.abs ∧ G K sh w' ∧
      L K prod t sh w' (some (.done [.popped none])) ∧ Rely prod t sh w sh w' := by
  have hstep : DeferStep (full K) w.abs.obj .pop (.popped none) w.abs.obj :=
    .empty_of (hg.queue_nil ht hd)
  refine ⟨{ w with abs := w.abs.lin t [] [.popped none] w.abs.obj }, .steps (hp.1.lin hstep), ?_,
    ⟨w.abs.lin_pend_self _ _ _ _, hp.2⟩, ?_⟩
  · exact { hg with }
  · exact ⟨fun u hu => w.abs.lin_pend_ne hu _ _ _, le_rfl, le_rfl, fun _ => le_rfl, fun _ => le_rfl,
      fun _ _ _ _ h => ⟨h, rfl⟩, fun _ => ⟨rfl, rfl, rfl, rfl⟩⟩

omit [DecidableEq Tid] in
/-- A consumer that finds its segment drained and not full has found the queue empty. -/
theorem G.drained_tail (hg : G K sh w) {h d : Nat} (hh : h ≤ sh.head) (hd : d ≤ sh.deq h)
    (he : sh.enq h ≤ d) (hlast : sh.enq h < K ∨ h = sh.tail) :
    sh.head = sh.tail ∧ sh.deq sh.tail = sh.enq sh.tail := by
  have hle := hg.head_le
  have htail : h = sh.tail := by
    rcases hlast with hK | ht
    · by_contra hne
      have := hg.enq_lt h (by omega)
      omega
    · exact ht
  subst htail
  have := hg.deq_le sh.tail
  omega

/-- The consumers' steps, and the end of a pop. -/
theorem consumer_step (hg : G K sh w) {c : Bool} {t : Tid} {l l' : Loc α} {sh' : Shared α}
    (hl : L K prod t sh w (some l)) (hs : step K c sh l = some (sh', l'))
    (hpop : (∀ v pub, l ≠ .put v pub ∧ l ≠ .link v pub ∧ l ≠ .fill v pub) ∧ ∀ d, l ≠ .publish d) :
    ∃ w', Atomic.Moves (deferredFifo α (full K)) w.abs [] w'.abs ∧ G K sh' w' ∧
      L K prod t sh' w' (some l') ∧ Rely prod t sh w sh' w' := by
  cases l with
  | put v pub => exact absurd rfl (hpop.1 v pub).1
  | link v pub => exact absurd rfl (hpop.1 v pub).2.1
  | fill v pub => exact absurd rfl (hpop.1 v pub).2.2
  | publish d => exact absurd rfl (hpop.2 d)
  | head =>
    obtain ⟨rfl, rfl⟩ : sh = sh' ∧ (if c then Loc.deq sh.head else .protect) = l' := by
      simpa [step] using hs
    refine ⟨w, .steps .refl, hg, ?_, .refl _ _ _ _⟩
    cases c with
    | true => exact ⟨hl, le_rfl⟩
    | false => exact hl
  | protect =>
    obtain ⟨rfl, rfl⟩ : sh = sh' ∧ Loc.reload sh.head = l' := by simpa [step] using hs
    exact ⟨w, .steps .refl, hg, ⟨hl, le_rfl⟩, .refl _ _ _ _⟩
  | reload p =>
    obtain ⟨rfl, rfl⟩ : sh = sh' ∧ (if sh.head = p then Loc.deq p else .reload sh.head) = l' := by
      simpa [step] using hs
    refine ⟨w, .steps .refl, hg, ?_, .refl _ _ _ _⟩
    split
    · exact hl
    · exact ⟨hl.1, le_rfl⟩
  | deq h =>
    obtain ⟨rfl, rfl⟩ : sh = sh' ∧ Loc.seen h (sh.deq h) = l' := by simpa [step] using hs
    exact ⟨w, .steps .refl, hg, ⟨hl.1, hl.2, le_rfl⟩, .refl _ _ _ _⟩
  | seen h d =>
    obtain ⟨rfl, rfl⟩ : sh = sh' ∧ Loc.test h d (sh.seen h) = l' := by simpa [step] using hs
    exact ⟨w, .steps .refl, hg, ⟨hl.1, hl.2.1, hl.2.2, hg.seen_le h⟩, .refl _ _ _ _⟩
  | test h d e =>
    obtain ⟨hp, hh, hd, he⟩ := hl
    simp only [step] at hs
    split at hs
    · obtain ⟨rfl, rfl⟩ := Prod.mk.inj (Option.some.inj hs)
      split
      · next hlt => exact ⟨w, .steps .refl, hg, ⟨hp, hh, hd, hlt, le_rfl⟩, .refl _ _ _ _⟩
      · next hge =>
        split
        · next hK =>
          obtain ⟨h1, h2⟩ := hg.drained_tail hh hd (by omega) (Or.inl hK)
          exact empty_step hg hp h1 h2
        · next hK =>
          have h1 := hg.deq_le h
          have h2 := hg.enq_le h
          exact ⟨w, .steps .refl, hg, ⟨hp, hh, by omega⟩, .refl _ _ _ _⟩
    · next hlt =>
      obtain ⟨w', h1, h2, h3, h4⟩ := claim_step (c := c) hg hp hh hd (by omega) he
      rw [Option.some.inj hs] at h2 h3 h4
      exact ⟨w', h1, h2, h3, h4⟩
  | tell h d e =>
    obtain ⟨hp, hh, hd, hde, he⟩ := hl
    obtain ⟨rfl, rfl⟩ : { sh with seen := Function.update sh.seen h e } = sh' ∧
        Loc.claim h d e = l' := by simpa [step] using hs
    refine ⟨w, .steps .refl, { hg with seen_le := ?_ }, ⟨hp, hh, hd, hde, he⟩,
      { Rely.refl prod t sh w with }⟩
    intro i
    by_cases hi : i = h
    · subst hi; simpa using he
    · simpa [hi] using hg.seen_le i
  | claim h d e =>
    obtain ⟨hp, hh, hd, hde, he⟩ := hl
    obtain ⟨w', h1, h2, h3, h4⟩ := claim_step (c := c) hg hp hh hd hde he
    have hs' : claimStep c sh h d e = (sh', l') := Option.some.inj hs
    rw [hs'] at h2 h3 h4
    exact ⟨w', h1, h2, h3, h4⟩
  | take h d =>
    obtain ⟨v, hp, he, ho, hc⟩ := hl
    obtain ⟨rfl, rfl⟩ : { sh with cell := setCell sh.cell h d none } = sh' ∧
        Loc.done [FifoAns.popped (sh.cell h d)] = l' := by simpa [step] using hs
    refine ⟨{ w with owner := fun i j => if i = h ∧ j = d then none else w.owner i j },
      .steps .refl, hg.take ho, ⟨by rw [hc]; exact hp, he⟩, ?_⟩
    refine ⟨fun _ _ => rfl, le_rfl, le_rfl, fun _ => le_rfl, fun _ => le_rfl, ?_,
      fun _ => ⟨rfl, rfl, rfl, rfl⟩⟩
    intro i j u hu ho'
    have hij : ¬ (i = h ∧ j = d) := by
      rintro ⟨rfl, rfl⟩
      rw [ho] at ho'
      exact hu (Option.some.inj ho').symm
    exact ⟨by simpa [hij] using ho', if_neg hij⟩
  | next h =>
    obtain ⟨hp, hh, hd⟩ := hl
    have hnext := hg.next h
    have hle := hg.head_le
    simp only [step] at hs
    split at hs
    · next hn =>
      obtain ⟨rfl, rfl⟩ := Prod.mk.inj (Option.some.inj hs)
      have ht : h = sh.tail := by
        by_contra hne
        rw [hn, if_pos (by omega)] at hnext
        cases hnext
      have := hg.enq_le h
      obtain ⟨h1, h2⟩ := hg.drained_tail (d := K) hh (by omega) this (Or.inr ht)
      exact empty_step hg hp h1 h2
    · next n hn =>
      obtain ⟨rfl, rfl⟩ := Prod.mk.inj (Option.some.inj hs)
      rw [hn] at hnext
      by_cases hlt : h < sh.tail
      · rw [if_pos hlt] at hnext
        exact ⟨w, .steps .refl, hg, ⟨hp, hh, hd, Option.some.inj hnext, hlt⟩, .refl _ _ _ _⟩
      · rw [if_neg hlt] at hnext
        cases hnext
  | advance h n =>
    obtain ⟨hp, hh, hd, rfl, hlt⟩ := hl
    obtain ⟨rfl, rfl⟩ := Prod.mk.inj (Option.some.inj hs)
    split
    · next hhd =>
      subst hhd
      refine ⟨w, .steps .refl, hg.advance hd hlt, hp, ?_⟩
      exact { Rely.refl prod t sh w with head := Nat.le_succ _ }
    · exact ⟨w, .steps .refl, hg, hp, .refl _ _ _ _⟩
  | done ans => simp [step] at hs

/-- The thread-modular proof of the queue. -/
def rule (hK : 2 ≤ K) (prod : Tid) : Rule (machine K prod) (fun _ => True)
    (carries (deferredFifo α (full K)) Ghost.abs) where
  w₀ := .init (full K)
  G := G K
  L := L K prod
  rely := Rely prod
  init := by
    refine ⟨?_, fun t => ⟨rfl, fun _ => rfl⟩⟩
    constructor <;> simp [machine, Shared.init, Ghost.init, Atomic.init, deferredFifo,
      popped, shown]
  call := by
    intro s w t c hg hl _ hloc hm
    have hlt := hl t
    rw [hloc] at hlt
    obtain ⟨hp, he⟩ := hlt
    have hnew : ∀ ops, (w.abs.set t (some (.new ops))).pend t = some ⟨ops, [], fun _ => False⟩ :=
      fun ops => Atomic.State.set_pend_self _ _ _
    refine ⟨{ w with abs := w.abs.set t (some (.new c.ops)) }, .call hp _, { hg with }, ?_, ?_⟩
    · rcases hm with rfl | rfl
      · exact ⟨⟨_, hnew _⟩, he⟩
      · cases c with
        | push v => exact ⟨rfl, he rfl, _, hnew _⟩
        | pushDeferred v => exact ⟨rfl, he rfl, _, hnew _⟩
        | publish => exact ⟨rfl, he rfl, _, hnew _⟩
        | consume => exact ⟨⟨_, hnew _⟩, he⟩
    · exact { Rely.refl prod t s.sh w with
        pend := fun u hu => Atomic.State.set_pend_ne _ hu _ }
  step := by
    intro s w t l c sh' l' hg _ _ _ _ hl hs
    by_cases hpush : (∃ v pub, l = .put v pub ∨ l = .link v pub ∨ l = .fill v pub) ∨
        ∃ d, l = .publish d
    · obtain rfl : t = prod := by
        rcases hpush with ⟨v, pub, rfl | rfl | rfl⟩ | ⟨d, rfl⟩ <;> exact hl.1
      exact producer_step hK hg hl hs hpush
    · push Not at hpush
      exact consumer_step hg hl hs hpush
  ret := by
    intro s w t l ans hg hl _ hloc ha
    have hlt := hl t
    rw [hloc] at hlt
    cases l <;> simp only [machine, answer, Option.some.injEq, reduceCtorEq] at ha
    subst ha
    obtain ⟨⟨seen, hp⟩, he⟩ := hlt
    refine ⟨{ w with abs := w.abs.set t none }, .ret .refl hp, { hg with },
      ⟨Atomic.State.set_pend_self _ _ _, he⟩, ?_⟩
    exact { Rely.refl prod t s.sh w with
      pend := fun u hu => Atomic.State.set_pend_ne _ hu _ }
  stable := fun hu _ hg' hl hr => hl.stable hu hg' hr

end Rule

end Wtc.Spmc
