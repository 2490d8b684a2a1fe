import Wtc.Waiter.Model

/-!
# What a wait does, step by step

For a program that waits it is enough to know which step of a wait looks at the queue, and that a
wait answers false only after a look that found nothing: one made after `closed_` was read as true,
or, in a wait with a time limit, one after which the clock was read and the limit had passed.
-/

namespace Wtc.Waiter

variable {Tid Q R : Type} [DecidableEq Tid]

/-- Inside a `wait_until`, with or without a time limit. -/
def Loc.waits (limited : Bool) : Loc R → Bool
  | .spinClosed b => b == limited
  | .spinLook b _ => b == limited
  | .spinNow b => b == limited
  | .parkClosed b => b == limited
  | .parkLook b _ => b == limited
  | .parkNow => limited
  | .announce b => b == limited
  | .readEpoch b => b == limited
  | .lastClosed b _ => b == limited
  | .lastLook b _ _ => b == limited
  | .check b _ => b == limited
  | .futex b _ => b == limited
  | .asleep b _ => b == limited
  | .cancel b => b == limited
  | .leave _ => true
  | .done _ => true
  | _ => false

/-- What the wait answers, once that is settled. -/
def Loc.outcome : Loc R → Option (Option R)
  | .leave r => some r
  | .done r => some r
  | _ => none

/-- About to look, having read `closed_` as true. -/
def Loc.sawClosed : Loc R → Bool
  | .spinLook _ wasClosed => wasClosed
  | .parkLook _ wasClosed => wasClosed
  | .lastLook _ _ wasClosed => wasClosed
  | _ => false

/-- About to read the clock, having looked and found nothing. -/
def Loc.missed : Loc R → Bool
  | .spinNow _ => true
  | .parkNow => true
  | _ => false

theorem Loc.outcome_of_missed {l : Loc R} (h : l.missed = true) : l.outcome = none := by
  cases l with
  | spinNow | parkNow => rfl
  | _ => cases h

theorem Loc.missed_of_sawClosed {l : Loc R} (h : l.sawClosed = true) : l.missed = false := by
  cases l with
  | spinLook | parkLook | lastLook => rfl
  | _ => cases h

/-- What one step of a wait does; `passed` says that the clock shows the limit passed. -/
inductive Waited (look : Q → Q × Option R) (limited passed closed : Bool) (l : Loc R) (q q' : Q)
    (l' : Loc R) : Prop
  /-- No look; `closed_` may have been read. -/
  | on (hq : q' = q) (ho : l'.outcome = l.outcome)
      (hc : l'.sawClosed = true → l.sawClosed = true ∨ closed = true) (hm : l'.missed = false)
  /-- A look that succeeds. -/
  | took (r : R) (hn : l.outcome = none) (hq : look q = (q', some r))
      (ho : l'.outcome = some (some r)) (hc : l'.sawClosed = false) (hm : l'.missed = false)
  /-- A look that finds nothing. -/
  | missed (hn : l.outcome = none) (hq : look q = (q', none)) (ho : l'.outcome = none)
      (hc : l'.sawClosed = false)
  /-- A look that finds nothing after the waiter was closed. -/
  | ended (hn : l.outcome = none) (hq : look q = (q', none)) (hs : l.sawClosed = true)
      (ho : l'.outcome = some none) (hc : l'.sawClosed = false) (hm : l'.missed = false)
  /-- The clock is read, after a look that found nothing, and the limit has passed. -/
  | late (hl : limited = true) (hp : passed = true) (hm : l.missed = true) (hq : q' = q)
      (ho : l' = .done none)

theorem step_wait {policy : Policy} {look : Q → Q × Option R} {t : Tid} {ch : Choice Tid}
    {limited : Bool} {q q' : Q} {w w' : Shared Tid} {l l' : Loc R} (hl : l.waits limited = true)
    (hs : step policy look t ch q w l = some (q', w', l')) :
    l'.waits limited = true ∧ w'.closed = w.closed ∧
      Waited look limited ch.passed w.closed l q q' l' := by
  cases l with
  | spinClosed | parkClosed | lastClosed => cases hs; exact ⟨hl, rfl, .on rfl rfl .inr rfl⟩
  | announce | readEpoch | cancel | leave => cases hs; exact ⟨hl, rfl, .on rfl rfl nofun rfl⟩
  | spinLook b wasClosed | lastLook b key wasClosed =>
    simp only [step] at hs
    split at hs
    · next r hq => cases hs; exact ⟨rfl, rfl, .took r rfl hq rfl rfl rfl⟩
    · next hq =>
      split_ifs at hs with hc <;> cases hs
      · exact ⟨rfl, rfl, .ended rfl hq hc rfl rfl rfl⟩
      · exact ⟨hl, rfl, .missed rfl hq rfl rfl⟩
  | spinNow b =>
    simp only [step] at hs
    split_ifs at hs with hlate <;> cases hs
    · have hb : b = limited := beq_iff_eq.1 hl
      exact ⟨rfl, rfl, .late (hb ▸ hlate.1) hlate.2 rfl rfl rfl⟩
    · exact ⟨hl, rfl, .on rfl rfl nofun rfl⟩
    · exact ⟨hl, rfl, .on rfl rfl nofun rfl⟩
  | parkLook b wasClosed =>
    have hb : b = limited := beq_iff_eq.1 hl
    simp only [step] at hs
    split at hs
    · next r hq => cases hs; exact ⟨rfl, rfl, .took r rfl hq rfl rfl rfl⟩
    · next hq =>
      split_ifs at hs with hc hlim <;> cases hs
      · exact ⟨rfl, rfl, .ended rfl hq hc rfl rfl rfl⟩
      · exact ⟨hb ▸ hlim, rfl, .missed rfl hq rfl rfl⟩
      · exact ⟨hl, rfl, .missed rfl hq rfl rfl⟩
  | parkNow =>
    have hlim : limited = true := hl
    simp only [step] at hs
    split_ifs at hs with hlate <;> cases hs
    · exact ⟨rfl, rfl, .late hlim hlate rfl rfl rfl⟩
    · exact ⟨beq_iff_eq.2 hlim.symm, rfl, .on rfl rfl nofun rfl⟩
  | check | futex | asleep =>
    simp only [step] at hs
    split_ifs at hs <;> cases hs <;> exact ⟨hl, rfl, .on rfl rfl nofun rfl⟩
  | done => cases hs
  | _ => cases hl

/-- Inside `notify` or `close`, or past them. -/
def Loc.signals : Loc R → Bool
  | .notify _ => true
  | .bump _ => true
  | .wake _ => true
  | .shut => true
  | .shutBump => true
  | .shutWake => true
  | .done _ => true
  | _ => false

/-- A notify or a close leaves the queue alone, and only a close sets `closed_`. -/
theorem step_signal {policy : Policy} {look : Q → Q × Option R} {t : Tid} {ch : Choice Tid}
    {q q' : Q} {w w' : Shared Tid} {l l' : Loc R} (hl : l.signals = true)
    (hs : step policy look t ch q w l = some (q', w', l')) :
    q' = q ∧ l'.signals = true ∧ (w'.closed = w.closed ∨ l = .shut) ∧ l' ≠ .shut := by
  cases l with
  | notify =>
    simp only [step] at hs
    split_ifs at hs <;> cases hs <;> exact ⟨rfl, rfl, .inl rfl, nofun⟩
  | wake | shutWake =>
    simp only [step, Shared.futexWake] at hs
    split_ifs at hs <;> cases hs
    exact ⟨rfl, rfl, .inl rfl, nofun⟩
  | bump | shutBump => cases hs; exact ⟨rfl, rfl, .inl rfl, nofun⟩
  | shut => cases hs; exact ⟨rfl, rfl, .inr rfl, nofun⟩
  | done => cases hs
  | _ => cases hl

theorem waits_waitUntil (policy : Policy) (limited : Bool) :
    (waitUntil policy limited : Loc R).waits limited = true := by
  unfold waitUntil
  split_ifs <;> exact beq_self_eq_true limited

theorem outcome_waitUntil (policy : Policy) (limited : Bool) :
    (waitUntil policy limited : Loc R).outcome = none := by
  unfold waitUntil
  split_ifs <;> rfl

theorem sawClosed_waitUntil (policy : Policy) (limited : Bool) :
    (waitUntil policy limited : Loc R).sawClosed = false := by
  unfold waitUntil
  split_ifs <;> rfl

theorem missed_waitUntil (policy : Policy) (limited : Bool) :
    (waitUntil policy limited : Loc R).missed = false := by
  unfold waitUntil
  split_ifs <;> rfl

theorem signals_notify (policy : Policy) (k : Nat) :
    (notify policy k : Loc R).signals = true ∧ (notify policy k : Loc R) ≠ .shut := by
  unfold notify
  split_ifs <;> exact ⟨rfl, nofun⟩

end Wtc.Waiter
