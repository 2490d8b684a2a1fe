import Wtc.Waiter.Invariant

/-!
# Every step keeps the invariant

One lemma for each step of `wait_until`, `notify`, `close` and of the threads around them, by the
kind of step: those that leave the epoch and the kernel alone, and those that do not.
-/

namespace Wtc.Waiter

open Wtc.Concurrent

variable {N : Nat} {policy : Policy} {s : Config (Fin N) (State N) At} {t : Fin N} {n : Nat}

/-- A move to a place without a key that leaves the waiter alone. -/
theorem inv_plain (hN : N ≤ intMax) (hi : Inv s) {x y : Option At} (hl : s.loc t = x)
    (hy : At.key y = none) (hx : ∀ limited key, x ≠ some (.inside (.asleep limited key)))
    (hs : x ≠ some (.inside .shutBump) ∧ x ≠ some (.inside .shutWake))
    (hann : At.announced y = At.announced x)
    (hfr : n = 0 ∨ s.sh.w.waiters = 0 ∨ n + At.fresh x ≤ s.sh.elems + At.fresh y)
    (hcr : n = 0 ∨ s.sh.w.waiters = 0 ∨
      n + At.credit s.sh.w t x ≤ s.sh.elems + At.credit s.sh.w t y) :
    Inv { s.set t y with sh := { s.sh with elems := n } } := by
  subst hl
  exact inv_moved hN hi (.plain hy hs (hi.awake hx) hfr hcr) (k := s.sh.w.waiters)
    fun m h => by rw [hann]; exact h

theorem word_pred {k : BitVec 32} {m : Nat} (h : k = word (m + 1)) : k - 1 = word m := by
  rw [h, word_succ, BitVec.add_sub_cancel]

/-- A look at the queue: it takes an element, or there is none. -/
theorem look_cases (m : Nat) :
    (∃ n, m = n + 1 ∧ look m = (n, some ())) ∨ m = 0 ∧ look m = (0, none) := by
  cases m with
  | zero => exact .inr ⟨rfl, rfl⟩
  | succ n => exact .inl ⟨n, rfl, rfl⟩

/-- A look takes an element; the thread has no other to make for now. -/
theorem inv_take (hN : N ≤ intMax) (hi : Inv s) {x y : Option At} (hl : s.loc t = x)
    (hy : At.key y = none) (hx : ∀ limited key, x ≠ some (.inside (.asleep limited key)))
    (hs : x ≠ some (.inside .shutBump) ∧ x ≠ some (.inside .shutWake))
    (hann : At.announced y = At.announced x) (hfr : At.fresh x = 0)
    (hcr : At.credit s.sh.w t x ≤ 1) (he : s.sh.elems = n + 1) :
    Inv { s.set t y with sh := { s.sh with elems := n } } :=
  inv_plain hN hi hl hy hx hs hann (.inr (.inr (by omega))) (.inr (.inr (by omega)))

/-- A look finds nothing. -/
theorem inv_miss (hN : N ≤ intMax) (hi : Inv s) {x y : Option At} (hl : s.loc t = x)
    (hy : At.key y = none) (hx : ∀ limited key, x ≠ some (.inside (.asleep limited key)))
    (hs : x ≠ some (.inside .shutBump) ∧ x ≠ some (.inside .shutWake))
    (hann : At.announced y = At.announced x) :
    Inv { s.set t y with sh := { s.sh with elems := 0 } } :=
  inv_plain hN hi hl hy hx hs hann (.inl rfl) (.inl rfl)

/-- The thread keeps or takes the epoch for a key, or goes past its second look. -/
theorem inv_keyed (hN : N ≤ intMax) (hi : Inv s) {x y : Option At} (hl : s.loc t = x)
    (hy : ∀ key, At.key y = some key → key.epoch = word key.bumps ∧ key.bumps ≤ s.sh.w.bumps)
    (hx : ∀ limited key, x ≠ some (.inside (.asleep limited key)))
    (hs : x ≠ some (.inside .shutBump) ∧ x ≠ some (.inside .shutWake))
    (hann : At.announced y = At.announced x) (hfr : At.fresh x = 0)
    (hcr : s.sh.elems = 0 ∨ At.credit s.sh.w t x ≤ At.credit s.sh.w t y)
    (hd : At.drowsy s.sh.w t y = true → s.sh.elems = 0 ∨ At.drowsy s.sh.w t x = true)
    (hsl : s.sh.w.closed = true → At.sleepy s.sh.w t y = true → At.sleepy s.sh.w t x = true)
    (hn : n = s.sh.elems) : Inv { s.set t y with sh := ⟨n, s.sh.w⟩ } := by
  subst hl hn
  exact inv_moved hN hi ⟨hy, hi.awake hx, .inr (.inr (by omega)),
    hcr.imp_right fun h => .inr (Nat.add_le_add_left h _), hd, hsl, hs⟩ (k := s.sh.w.waiters)
    fun m h => by rw [hann]; exact h

theorem inv_inside (hN : N ≤ intMax) (hi : Inv s) {l l' : Loc Unit} {ch : Choice (Fin N)}
    {w' : Shared (Fin N)} (hl : s.loc t = some (.inside l))
    (hs : step policy look t ch s.sh.elems s.sh.w l = some (n, w', l'))
    (hno : NoWrap { s.set t (some (.inside l')) with sh := ⟨n, w'⟩ }) :
    Inv { s.set t (some (.inside l')) with sh := ⟨n, w'⟩ } := by
  have hkey := hi.keys t
  rw [hl] at hkey
  cases l with
  | spinClosed limited | parkClosed limited =>
    cases hs
    exact inv_plain hN hi hl rfl nofun ⟨nofun, nofun⟩ rfl (.inr (.inr le_rfl)) (.inr (.inr le_rfl))
  | spinLook limited wasClosed | parkLook limited wasClosed =>
    rcases look_cases s.sh.elems with ⟨m, he, hm⟩ | ⟨-, hm⟩ <;> simp only [step, hm] at hs
    · cases hs
      exact inv_take hN hi hl rfl nofun ⟨nofun, nofun⟩ rfl rfl le_rfl he
    · split_ifs at hs <;> cases hs <;> exact inv_miss hN hi hl rfl nofun ⟨nofun, nofun⟩ rfl
  | spinNow limited =>
    -- an unlimited wait goes on to a look, a limited one is not counted on
    simp only [step] at hs
    split_ifs at hs with hlim <;> cases hs
    · refine inv_plain hN hi hl rfl nofun ⟨nofun, nofun⟩ rfl (.inr (.inr le_rfl)) (.inr (.inr ?_))
      rw [hlim.1]
      exact le_rfl
    all_goals
      refine inv_plain hN hi hl rfl nofun ⟨nofun, nofun⟩ rfl (.inr (.inr le_rfl)) (.inr (.inr ?_))
      exact Nat.add_le_add_left (Bool.toNat_le _) _
  | parkNow =>
    simp only [step] at hs
    split_ifs at hs <;> cases hs
    all_goals
      refine inv_plain hN hi hl rfl nofun ⟨nofun, nofun⟩ rfl (.inr (.inr le_rfl)) (.inr (.inr ?_))
      exact Nat.add_le_add_left (Nat.zero_le _) _
  | announce limited =>
    cases hs
    refine inv_moved hN hi (.plain rfl ?_ (hi.awake ?_) ?_ ?_) ?_ <;> rw [hl]
    · exact ⟨nofun, nofun⟩
    · nofun
    · exact .inr (.inr le_rfl)
    · exact .inr (.inr le_rfl)
    · intro m hm
      rw [hm]
      exact (word_succ m).symm
  | readEpoch limited =>
    cases hs
    refine inv_keyed hN hi hl ?_ nofun ⟨nofun, nofun⟩ rfl rfl (.inr le_rfl) nofun nofun rfl
    rintro key ⟨⟩
    exact ⟨hi.epoch, le_rfl⟩
  | lastClosed limited key =>
    cases hs
    refine inv_keyed hN hi hl hkey nofun ⟨nofun, nofun⟩ rfl rfl (.inr le_rfl) nofun ?_ rfl
    intro hc h
    exact absurd hc (by simp [(of_decide_eq_true h).1])
  | lastLook limited key wasClosed =>
    rcases look_cases s.sh.elems with ⟨m, he, hm⟩ | ⟨he, hm⟩ <;> simp only [step, hm] at hs
    · cases hs
      exact inv_take hN hi hl rfl nofun ⟨nofun, nofun⟩ rfl rfl le_rfl he
    · split_ifs at hs with hc <;> cases hs
      · exact inv_miss hN hi hl rfl nofun ⟨nofun, nofun⟩ rfl
      · refine inv_keyed hN hi hl hkey nofun ⟨nofun, nofun⟩ rfl rfl (.inl he) (fun _ => .inl he) ?_
          he.symm
        intro _ h
        exact decide_eq_true ⟨Bool.eq_false_of_not_eq_true hc, of_decide_eq_true h⟩
  | check limited key =>
    simp only [step] at hs
    split_ifs at hs with hk <;> cases hs
    · refine inv_plain hN hi hl rfl nofun ⟨nofun, nofun⟩ rfl (.inr (.inr le_rfl)) (.inr (.inr ?_))
      exact Nat.add_le_add_left (Bool.toNat_le _) _
    · exact inv_keyed hN hi hl hkey nofun ⟨nofun, nofun⟩ rfl rfl (.inr le_rfl) .inr (fun _ h => h)
        rfl
  | futex limited key =>
    simp only [step] at hs
    split_ifs at hs with hk <;> cases hs
    · refine inv_plain hN hi hl rfl nofun ⟨nofun, nofun⟩ rfl (.inr (.inr le_rfl)) (.inr (.inr ?_))
      exact Nat.add_le_add_left (Bool.toNat_le _) _
    · exact inv_sleep hi hl (not_not.1 hk)
  | asleep limited key =>
    simp only [step] at hs
    split_ifs at hs
    cases hs
    exact inv_rouse hi hl
  | cancel limited | leave r =>
    cases hs
    refine inv_moved hN hi (.plain rfl ?_ (hi.awake ?_) ?_ ?_) ?_ <;> rw [hl]
    · exact ⟨nofun, nofun⟩
    · nofun
    · exact .inr (.inr le_rfl)
    · exact .inr (.inr le_rfl)
    · exact fun m hm => word_pred hm
  | notify k =>
    simp only [step] at hs
    split_ifs at hs with hw <;> cases hs
    · exact inv_plain hN hi hl rfl nofun ⟨nofun, nofun⟩ rfl (.inr (.inl hw)) (.inr (.inl hw))
    · exact inv_plain hN hi hl rfl nofun ⟨nofun, nofun⟩ rfl (.inr (.inr le_rfl))
        (.inr (.inr le_rfl))
  | bump k =>
    cases hs
    refine inv_bump hi rfl rfl ?_ (hi.awake ?_) ?_ ?_ ?_ hno <;> rw [hl] <;> first | rfl | nofun
  | wake k =>
    simp only [step, Shared.futexWake] at hs
    split_ifs at hs with hW <;> cases hs
    refine inv_wake hi hW.1 hW.2 rfl ?_ (hi.awake ?_) ?_ ?_ nofun ?_ ?_ <;> rw [hl]
    · rfl
    · nofun
    · rfl
    · show 0 + k ≤ min k intMax ∨ N ≤ min k intMax
      omega
    · nofun
    · nofun
  | shut =>
    cases hs
    exact inv_shut hN hi hl
  | shutBump =>
    cases hs
    refine inv_bump hi rfl rfl ?_ (hi.awake ?_) ?_ (fun _ => rfl) ?_ hno <;> rw [hl] <;>
      first | rfl | nofun
  | shutWake =>
    simp only [step, Shared.futexWake] at hs
    split_ifs at hs with hW <;> cases hs
    refine inv_wake hi hW.1 hW.2 rfl ?_ (hi.awake ?_) ?_ (.inr hN) nofun ?_
      (fun _ => hN) <;> rw [hl]
    · rfl
    · nofun
    · rfl
    · nofun
  | done r => cases hs

theorem key_wait (policy : Policy) (limited : Bool) :
    At.key (some (.inside (waitUntil policy limited))) = none := by
  unfold waitUntil
  split_ifs <;> rfl

theorem announced_wait (policy : Policy) (limited : Bool) :
    At.announced (some (.inside (waitUntil policy limited))) = false := by
  unfold waitUntil
  split_ifs <;> rfl

/-- A step of a thread around the waiter. -/
theorem inv_run (hN : N ≤ intMax) (hp : policy ≠ .spin) (hi : Inv s) {a a' : At}
    {ch : Choice (Fin N)} {sh' : State N} (hl : s.loc t = some a)
    (hs : run policy t ch s.sh a = some (sh', a'))
    (hno : NoWrap { s.set t (some a') with sh := sh' }) :
    Inv { s.set t (some a') with sh := sh' } := by
  cases a with
  | publish k =>
    cases hs
    by_cases hk : k = 0
    · subst hk
      have hn : notify (R := Unit) policy 0 = .done none := if_pos (.inr rfl)
      rw [hn]
      exact inv_plain hN hi hl rfl nofun ⟨nofun, nofun⟩ rfl (.inr (.inr le_rfl))
        (.inr (.inr le_rfl))
    · have hn : notify (R := Unit) policy k = .notify k := if_neg (by simp [hp, hk])
      rw [hn]
      refine inv_plain hN hi hl rfl nofun ⟨nofun, nofun⟩ rfl (.inr (.inr le_rfl)) (.inr (.inr ?_))
      show s.sh.elems + k + 0 ≤ s.sh.elems + (0 + k)
      omega
  | tryPop =>
    rcases look_cases s.sh.elems with ⟨m, he, hm⟩ | ⟨he, hm⟩ <;>
      simp only [run, hm, Option.some.injEq, Prod.mk.injEq] at hs <;> obtain ⟨rfl, rfl⟩ := hs
    · exact inv_take hN hi hl rfl nofun ⟨nofun, nofun⟩ rfl rfl (Nat.zero_le _) he
    · exact inv_miss hN hi hl rfl nofun ⟨nofun, nofun⟩ rfl
  | firstLook limit =>
    rcases look_cases s.sh.elems with ⟨m, he, hm⟩ | ⟨he, hm⟩ <;> simp only [run, hm] at hs
    · cases hs
      exact inv_take hN hi hl rfl nofun ⟨nofun, nofun⟩ rfl rfl le_rfl he
    · cases limit <;> cases hs
      · exact inv_miss hN hi hl rfl nofun ⟨nofun, nofun⟩ rfl
      · exact inv_miss hN hi hl (key_wait _ _) nofun ⟨nofun, nofun⟩ (announced_wait _ _)
      · exact inv_miss hN hi hl (key_wait _ _) nofun ⟨nofun, nofun⟩ (announced_wait _ _)
  | inside l =>
    simp only [run, Option.map_eq_some_iff, Prod.mk.injEq] at hs
    obtain ⟨⟨n, w, l'⟩, hs, rfl, rfl⟩ := hs
    exact inv_inside hN hi hl hs hno

theorem inv_initial : Inv (machine N policy).initial where
  epoch := rfl
  waiters := by
    show 0 = word (∑ _u : Fin N, 0)
    rw [Finset.sum_const_zero]
    rfl
  keys := nofun
  asleep := nofun
  fresh := fun ⟨_, h⟩ => nomatch h
  pending := fun _ => Nat.zero_le _
  closing := nofun
  closed := nofun

/-- **Every event of a run keeps the invariant.** -/
theorem inv_next (hN : N ≤ intMax) (hp : policy ≠ .spin) {s' : Config (Fin N) (State N) At}
    {es : List (Event (Fin N) Call Bool)} (hi : Inv s) (hno : NoWrap s')
    (hn : (machine N policy).Next s es s') : Inv s' := by
  cases hn with
  | @call t hl c hm =>
    have hstart : At.key (some (start policy c)) = none ∧
        At.announced (some (start policy c)) = false := by
      cases c with
      | wait => exact ⟨key_wait _ _, announced_wait _ _⟩
      | _ => exact ⟨rfl, rfl⟩
    exact inv_plain hN hi hl hstart.1 nofun ⟨nofun, nofun⟩ hstart.2
      (.inr (.inr (Nat.le_add_right _ _))) (.inr (.inr (Nat.le_add_right _ _)))
  | step hl hs => exact inv_run hN hp hi hl hs hno
  | @ret t a hl ans ha =>
    obtain ⟨r, rfl⟩ : ∃ r, a = .inside (.done r) := by
      simp only [machine] at ha
      split at ha
      · exact ⟨_, rfl⟩
      · cases ha
    exact inv_plain hN hi hl rfl nofun ⟨nofun, nofun⟩ rfl (.inr (.inr le_rfl)) (.inr (.inr le_rfl))

end Wtc.Waiter
