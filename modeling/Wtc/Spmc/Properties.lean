import Wtc.Spmc.Linear

/-!
# Properties of the one-producer queue

* `spmc_linearizable` — every history is that of a sequential queue, and in every state a claimed
  cell is published, has one claimer and comes after every cell claimed before it; an empty answer
  is given only where every published element has been claimed and no further segment is linked
-/

namespace Wtc.Spmc

open Wtc.Concurrent

variable {α Tid : Type}

/-- What holds in every state of every run. A consumer that has claimed a cell is at `take`; the
claim itself is of the oldest cell nobody has claimed. -/
structure Sound (K : Nat) (s : Config Tid (Shared α) (Loc α)) : Prop where
  deq_le_enq : ∀ i, s.sh.deq i ≤ s.sh.enq i
  seen_le_enq : ∀ i, s.sh.seen i ≤ s.sh.enq i
  claimed_published : ∀ t h d, s.loc t = some (.take h d) →
    d < s.sh.deq h ∧ d < s.sh.enq h ∧ ∃ v, s.sh.cell h d = some v
  claimed_once : ∀ t u h d, s.loc t = some (.take h d) → s.loc u = some (.take h d) → t = u
  claims_next : ∀ t c l sh' h d, s.loc t = some l → step K c s.sh l = some (sh', .take h d) →
    h = s.sh.head ∧ d = s.sh.deq h ∧ d < s.sh.enq h ∧ sh' = s.sh.claimCell h
  in_order : ∀ i j, i < j → 0 < s.sh.deq j → s.sh.deq i = K
  empty_answer : ∀ t c l sh', s.loc t = some l →
    step K c s.sh l = some (sh', .done [.popped none]) →
    (∀ i, s.sh.deq i = s.sh.enq i) ∧ s.sh.next s.sh.head = none

/-- When the last segment is drained, every published element has been claimed. -/
theorem G.all_claimed {K : Nat} {sh : Shared α} {w : Ghost Tid α} (hg : G K sh w)
    (ht : sh.head = sh.tail) (hd : sh.deq sh.tail = sh.enq sh.tail) :
    (∀ i, sh.deq i = sh.enq i) ∧ sh.next sh.head = none := by
  refine ⟨fun i => ?_, ?_⟩
  · rcases Nat.lt_trichotomy i sh.tail with h | h | h
    · rw [hg.enq_lt i h, hg.deq_lt i (by omega)]
    · rw [h]; exact hd
    · have h1 := hg.enq_gt i h
      have h2 := hg.deq_le i
      omega
  · rw [hg.next, ht, if_neg (lt_irrefl _)]

/-- A claim is of the cell at the head segment's `deq`, which is published. -/
theorem claims_next {K : Nat} {prod t : Tid} {c : Bool} {sh sh' : Shared α} {w : Ghost Tid α}
    {l : Loc α} {h d : Nat} (hg : G K sh w) (hl : L K prod t sh w (some l))
    (hs : step K c sh l = some (sh', .take h d)) :
    h = sh.head ∧ d = sh.deq h ∧ d < sh.enq h ∧ sh' = sh.claimCell h := by
  have key : ∀ h' d' e', h' ≤ sh.head → d' < e' → e' ≤ sh.enq h' →
      claimStep c sh h' d' e' = (sh', .take h d) →
      h = sh.head ∧ d = sh.deq h ∧ d < sh.enq h ∧ sh' = sh.claimCell h := by
    intro h' d' e' hh hde he hc
    unfold claimStep at hc
    split at hc
    · next hd =>
      obtain ⟨rfl, hloc⟩ := Prod.mk.inj hc
      obtain ⟨rfl, rfl⟩ : h' = h ∧ d' = d := by simpa using hloc
      have hlt : d' < sh.enq h' := hde.trans_le he
      exact ⟨hg.head_eq hh (by rw [hd.2]; exact hlt.trans_le (hg.enq_le h')), hd.2.symm, hlt, rfl⟩
    · cases hc
  cases l with
  | test h' d' e' =>
    obtain ⟨-, hh, -, he⟩ := hl
    simp only [step] at hs
    split at hs
    · have hs' := (Prod.mk.inj (Option.some.inj hs)).2
      split at hs'
      · cases hs'
      · split at hs' <;> cases hs'
    · next hlt => exact key h' d' e' hh (by omega) he (Option.some.inj hs)
  | claim h' d' e' =>
    obtain ⟨-, hh, -, hde, he⟩ := hl
    exact key h' d' e' hh hde he (Option.some.inj hs)
  | put v pub =>
    simp only [step] at hs
    split at hs
    · cases hs
    · have hs' := (Prod.mk.inj (Option.some.inj hs)).2
      cases pub <;> cases hs'
  | fill v pub =>
    have hs' := (Prod.mk.inj (Option.some.inj hs)).2
    cases pub <;> cases hs'
  | reload p =>
    have hs' := (Prod.mk.inj (Option.some.inj hs)).2
    split at hs' <;> cases hs'
  | head =>
    have hs' := (Prod.mk.inj (Option.some.inj hs)).2
    cases c <;> cases hs'
  | next h' =>
    simp only [step] at hs
    split at hs <;> cases hs
  | link v pub | publish deferred | protect | deq h | seen h d | tell h d e | take h d | advance h n
  | done ans => cases hs

/-- A step that answers empty leaves the state as it is, where the last segment is drained. -/
theorem empty_answer {K : Nat} {prod t : Tid} {c : Bool} {sh sh' : Shared α} {w : Ghost Tid α}
    {l : Loc α} (hg : G K sh w) (hl : L K prod t sh w (some l))
    (hs : step K c sh l = some (sh', .done [.popped none])) :
    (∀ i, sh.deq i = sh.enq i) ∧ sh.next sh.head = none := by
  cases l with
  | test h d e =>
    obtain ⟨-, hh, hd, -⟩ := hl
    simp only [step] at hs
    split at hs
    · have hs' := (Prod.mk.inj (Option.some.inj hs)).2
      split at hs'
      · cases hs'
      · next hlt =>
        split at hs'
        · next hK =>
          obtain ⟨h1, h2⟩ := hg.drained_tail hh hd (by omega) (Or.inl hK)
          exact hg.all_claimed h1 h2
        · cases hs'
    · unfold claimStep at hs
      split at hs <;> cases hs
  | next h =>
    obtain ⟨-, hh, hd⟩ := hl
    have hnext := hg.next h
    have hle := hg.head_le
    simp only [step] at hs
    split at hs
    · next hn =>
      have ht : h = sh.tail := by
        by_contra hne
        rw [hn, if_pos (by omega)] at hnext
        cases hnext
      obtain ⟨h1, h2⟩ := hg.drained_tail (d := K) hh (by omega) (hg.enq_le h) (Or.inr ht)
      exact hg.all_claimed h1 h2
    · cases hs
  | take h d =>
    obtain ⟨v, -, -, -, hc⟩ := hl
    have hs' := (Prod.mk.inj (Option.some.inj hs)).2
    rw [hc] at hs'
    cases hs'
  | put v pub =>
    simp only [step] at hs
    split at hs
    · cases hs
    · have hs' := (Prod.mk.inj (Option.some.inj hs)).2
      cases pub <;> cases hs'
  | fill v pub | publish pub =>
    have hs' := (Prod.mk.inj (Option.some.inj hs)).2
    cases pub <;> cases hs'
  | claim h d e =>
    have hs' : claimStep c sh h d e = _ := Option.some.inj hs
    unfold claimStep at hs'
    split at hs' <;> cases hs'
  | reload p =>
    have hs' := (Prod.mk.inj (Option.some.inj hs)).2
    split at hs' <;> cases hs'
  | head =>
    have hs' := (Prod.mk.inj (Option.some.inj hs)).2
    cases c <;> cases hs'
  | link v pub | protect | deq h | seen h d | tell h d e | advance h n | done ans => cases hs

/-- What the rule says of every state is what the users of the queue see. -/
theorem sound_of_rule {K : Nat} {prod : Tid} {s : Config Tid (Shared α) (Loc α)}
    {w : Ghost Tid α} (hg : G K s.sh w) (hl : ∀ t, L K prod t s.sh w (s.loc t)) : Sound K s where
  deq_le_enq := hg.deq_le
  seen_le_enq := hg.seen_le
  claimed_published := by
    intro t h d ht
    have hlt := hl t
    rw [ht] at hlt
    obtain ⟨v, -, -, ho, hc⟩ := hlt
    have h1 := hg.owner h d t ho
    exact ⟨h1, h1.trans_le (hg.deq_le h), v, hc⟩
  claimed_once := by
    intro t u h d ht hu
    have hlt := hl t
    have hlu := hl u
    rw [ht] at hlt
    rw [hu] at hlu
    obtain ⟨-, -, -, ho, -⟩ := hlt
    obtain ⟨-, -, -, ho', -⟩ := hlu
    rw [ho] at ho'
    exact Option.some.inj ho'
  claims_next := by
    intro t c l sh' h d ht hs
    have hlt := hl t
    rw [ht] at hlt
    exact claims_next hg hlt hs
  in_order := by
    intro i j hij hj
    have hjh : j ≤ s.sh.head := by
      by_contra hlt
      have := hg.deq_gt j (by omega)
      omega
    exact hg.deq_lt i (by omega)
  empty_answer := by
    intro t c l sh' ht hs
    have hlt := hl t
    rw [ht] at hlt
    exact empty_answer hg hlt hs

variable [DecidableEq Tid]

/--
**The one-producer queue.**

Every history is a history of a sequential queue with deferred pushes, in which a segment is shown
when it is full: elements leave in the order in which they were pushed, only after a publish or the
end of their segment has shown them, and an empty answer is right at a moment inside the call.
-/
theorem spmc_linearizable {K : Nat} (hK : 2 ≤ K) (prod : Tid)
    {h : List (Event Tid (DeferOp α) (FifoAns α))} {s : Config Tid (Shared α) (Loc α)}
    (hr : (machine K prod).Runs h s) :
    Linearizable (deferredFifo α (full K)) h ∧ Sound K s := by
  refine ⟨(rule hK prod).linearizable id rfl hr, ?_⟩
  obtain ⟨w, -, hg, hl⟩ := (rule hK prod).sound hr
  exact sound_of_rule hg hl

instance (K : Nat) (prod : Tid) (s : Config Tid (Shared Nat) (Loc Nat)) (t : Tid) (c : Call Nat) :
    Decidable ((machine K prod).may s t c) :=
  inferInstanceAs (Decidable (c = .consume ∨ t = prod))

/-- A deferred push is not seen; the third push fills the second segment and shows the first. -/
def exampleSchedule : List (Action Nat (Call Nat) Bool) :=
  [.call 0 (.pushDeferred 7), .step 0 true, .ret 0,
   .call 1 .consume, .step 1 false, .step 1 true, .step 1 true, .step 1 true, .step 1 true,
   .step 1 true, .ret 1,
   .call 0 (.pushDeferred 8), .step 0 true, .ret 0,
   .call 0 (.pushDeferred 9), .step 0 true,
   .call 2 .consume, .step 2 true, .step 2 true, .step 2 true, .step 2 true, .step 2 true,
   .step 2 false, .step 2 true, .step 2 true, .ret 2]

theorem spmc_linearizable_example : ∃ s, (machine 2 0).Runs
    [.call 0 [.defer 7], .ret 0 [.pushed], .call 1 [.pop], .ret 1 [.popped none],
     .call 0 [.defer 8], .ret 0 [.pushed], .call 0 [.defer 9],
     .call 2 [.pop], .ret 2 [.popped (some 7)]] s ∧
    Linearizable (deferredFifo Nat (full 2))
      [.call 0 [.defer 7], .ret 0 [.pushed], .call 1 [.pop], .ret 1 [.popped none],
       .call 0 [.defer 8], .ret 0 [.pushed], .call 0 [.defer 9],
       .call 2 [.pop], .ret 2 [.popped (some 7)]] ∧ Sound 2 s := by
  have hr : (machine 2 0).Runs _ _ :=
    Machine.runs_of_exec (.init trivial) exampleSchedule rfl
  exact ⟨_, hr, spmc_linearizable (by decide) 0 hr⟩

end Wtc.Spmc
