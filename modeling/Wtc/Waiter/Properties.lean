import Wtc.Waiter.Steps

/-!
# Properties of the eventcount

* `no_lost_wakeup` — while a consumer sleeps and no notify is in progress, every element in the
  queue is matched by a consumer that looks again; nobody sleeps on a closed waiter
* `waiters_exact` — `waiters_` is exact
-/

namespace Wtc.Waiter

open Wtc.Concurrent

variable {N : Nat} {policy : Policy}

/-- The credit of all threads is that of the threads that look and of the notifies in progress. -/
theorem sum_credit (s : Config (Fin N) (State N) At) :
    ∑ u, At.credit s.sh.w u (s.loc u) = (lookers s).card + ∑ u, At.pending (s.loc u) := by
  rw [lookers, Finset.card_filter, ← Finset.sum_add_distrib]
  refine Finset.sum_congr rfl fun u _ => ?_
  unfold At.credit
  cases At.looks s.sh.w u (s.loc u) <;> rfl

theorem Quiet.pending {s : Config (Fin N) (State N) At} (hq : Quiet s) :
    ∑ u, At.pending (s.loc u) = 0 := by
  refine Finset.sum_eq_zero fun u _ => ?_
  have hb := hq u
  generalize s.loc u = x at hb
  rcases x with _ | _ | _ | _ | l <;> try rfl
  cases l <;> first | rfl | cases hb

/-- **No wake-up is lost.** The threads are at most as many as an `int` counts. -/
theorem no_lost_wakeup (hN : N ≤ intMax) (hp : policy ≠ .spin)
    {h : List (Event (Fin N) Call Bool)} {s : Config (Fin N) (State N) At}
    (hr : (machine N policy).Run NoWrap h s) (hq : Quiet s) :
    ((sleepers s).Nonempty → s.sh.elems ≤ (lookers s).card) ∧
    ((sleepers s).Nonempty → 0 < s.sh.elems → (lookers s).Nonempty) ∧
    (s.sh.w.closed = true → sleepers s = ∅) := by
  have hi : Inv s := hr.invariant (I := Inv) inv_initial fun hi _ hno hn => inv_next hN hp hi hno hn
  have hle : (sleepers s).Nonempty → s.sh.elems ≤ (lookers s).card := by
    rintro ⟨u, hu⟩
    have := hi.pending ⟨u, by simpa [sleepers] using hu⟩
    rw [sum_credit, hq.pending] at this
    exact this
  refine ⟨hle, fun hne hpos => Finset.card_pos.1 (hpos.trans_le (hle hne)), fun hc => ?_⟩
  have hno : ∀ {u l}, s.loc u = some (.inside l) → l.busy = true → False := fun {u l} hl h => by
    have hb := hq u
    rw [hl] at hb
    exact absurd h (by rw [show l.busy = false from hb]; decide)
  refine Finset.eq_empty_of_forall_notMem fun u hu => ?_
  rcases (Finset.mem_filter.1 hu).2 with hu | hu
  · obtain ⟨v, hv | hv⟩ := hi.closed hc ⟨u, hu⟩
    · exact hno hv rfl
    · exact hno hv rfl
  · obtain ⟨v, hv⟩ := hi.closing hc ⟨u, At.sleepy_of_drowsy hu⟩
    exact hno hv rfl

/-! ## An example run -/

/-- The epoch is only ever bumped. -/
theorem run_bumps {t : Fin N} {ch : Choice (Fin N)} {sh sh' : State N} {a a' : At}
    (hs : run policy t ch sh a = some (sh', a')) : sh.w.bumps ≤ sh'.w.bumps := by
  cases a with
  | publish k | tryPop => cases hs; exact le_rfl
  | firstLook limit =>
    rcases look_cases sh.elems with ⟨m, -, hm⟩ | ⟨-, hm⟩ <;> simp only [run, hm] at hs
    · cases hs; exact le_rfl
    · cases limit <;> cases hs <;> exact le_rfl
  | inside l =>
    simp only [run, Option.map_eq_some_iff, Prod.mk.injEq] at hs
    obtain ⟨⟨n, w, l'⟩, hs, rfl, rfl⟩ := hs
    cases l with
    | spinLook | parkLook | lastLook =>
      rcases look_cases sh.elems with ⟨m, -, hm⟩ | ⟨-, hm⟩ <;> simp only [step, hm] at hs
      · cases hs; exact le_rfl
      · split_ifs at hs <;> cases hs <;> exact le_rfl
    | spinNow | parkNow | check | futex | asleep | notify =>
      simp only [step] at hs
      split_ifs at hs <;> cases hs <;> exact le_rfl
    | wake | shutWake =>
      simp only [step, Shared.futexWake] at hs
      split_ifs at hs <;> cases hs
      exact le_rfl
    | bump | shutBump => cases hs; exact Nat.le_succ _
    | done => cases hs
    | _ => cases hs; exact le_rfl

theorem noWrap_of_short {h : List (Event (Fin N) Call Bool)} {s : Config (Fin N) (State N) At}
    (hr : (machine N policy).Runs h s) (hb : s.sh.w.bumps < 2 ^ 32) :
    (machine N policy).Run NoWrap h s := by
  refine Machine.Run.throughout (Q := fun s => s.sh.w.bumps < 2 ^ 32) (fun {s es s'} hn hq => ?_)
    (fun hq _ _ _ => by omega) hr hb
  cases hn with
  | call hl hm | ret hl ha => exact hq
  | step hl hs => exact (run_bumps hs).trans_lt hq

instance (s : Config (Fin N) (State N) At) (t : Fin N) :
    (c : Call) → Decidable ((machine N policy).may s t c)
  | .push k => decidable_of_iff (1 ≤ k) ⟨by rintro h _ ⟨⟩; exact h, fun h => h k rfl⟩
  | .tryPop | .wait | .waitFor _ | .close => .isTrue nofun

/-- The choices of a step that wakes the given threads, or of one that has none to make. -/
def waking (woken : Finset (Fin 3)) : Choice (Fin 3) := ⟨woken, false, false, false⟩

/-- Threads 0 and 1 go to sleep; thread 2 pushes one element and its notify wakes thread 0. -/
def parkSchedule : List (Action (Fin 3) Call (Choice (Fin 3))) :=
  let go := waking ∅
  [.call 0 .wait, .step 0 go, .step 0 go, .step 0 go, .step 0 go, .step 0 go, .step 0 go,
   .step 0 go, .step 0 go,
   .call 1 .wait, .step 1 go, .step 1 go, .step 1 go, .step 1 go, .step 1 go, .step 1 go,
   .step 1 go, .step 1 go,
   .call 2 (.push 1), .step 2 go, .step 2 go, .step 2 go, .step 2 (waking {0}), .ret 2]

theorem no_lost_wakeup_example : ∃ h s, (machine 3 .park).Run NoWrap h s ∧ Quiet s ∧
    1 ∈ sleepers s ∧ s.sh.elems = 1 ∧ s.sh.elems ≤ (lookers s).card := by
  have hr : (machine 3 .park).Runs _ _ :=
    Machine.runs_of_exec (.init trivial) parkSchedule rfl
  have hr' := noWrap_of_short hr (by decide)
  exact ⟨_, _, hr', fun t => by fin_cases t <;> rfl, by decide, rfl,
    (no_lost_wakeup (by decide) (by decide) hr' fun t => by fin_cases t <;> rfl).1 ⟨1, by decide⟩⟩

/-- **`waiters_` counts the threads between `prepare` and `cancel`.** Where a notify finds it zero,
nobody sleeps or is about to. -/
theorem waiters_exact (hN : N ≤ intMax) (hp : policy ≠ .spin)
    {h : List (Event (Fin N) Call Bool)} {s : Config (Fin N) (State N) At}
    (hr : (machine N policy).Run NoWrap h s) :
    s.sh.w.waiters.toNat = ∑ u, (At.announced (s.loc u)).toNat ∧
      (s.sh.w.waiters = 0 → ∀ u, u ∉ s.sh.w.asleep ∧ At.drowsy s.sh.w u (s.loc u) = false) := by
  have hi : Inv s := hr.invariant (I := Inv) inv_initial fun hi _ hno hn => inv_next hN hp hi hno hn
  have hle := Finset.sum_le_card_nsmul Finset.univ _ 1 fun u _ =>
    Bool.toNat_le (At.announced (s.loc u))
  refine ⟨?_, hi.nobody hN⟩
  simp only [Finset.card_univ, Fintype.card_fin, smul_eq_mul, intMax] at hle hN
  rw [hi.waiters, word_toNat, Nat.mod_eq_of_lt (by omega)]

theorem waiters_exact_example : ∃ h s, (machine 3 .park).Run NoWrap h s ∧
    ∑ u, (At.announced (s.loc u)).toNat = 2 := by
  have hr : (machine 3 .park).Runs _ _ :=
    Machine.runs_of_exec (.init trivial) parkSchedule rfl
  have hr' := noWrap_of_short hr (by decide)
  exact ⟨_, _, hr', (waiters_exact (by decide) (by decide) hr').1.symm⟩

end Wtc.Waiter
