import Wtc.Shim.Batch

/-!
# Pops, waits and the close of `wtc::queue`
-/

namespace Wtc.Shim

open Wtc.Concurrent

variable {α : Type} {cfg : Cfg} {env : Env} {q q' : Queue α} {vis : List α} {closed : Bool}

theorem consume_spec {v : Option α} (hq : q.Holds cfg vis [] closed)
    (h : q.consume cfg env = some (q', v)) : v = vis.head? ∧ q'.Holds cfg vis.tail [] closed := by
  obtain ⟨⟨q₁, ans⟩, ha, he⟩ := Option.bind_eq_some_iff.1 h
  cases he
  obtain ⟨k, impl, hs, -⟩ := ask_eq ha
  obtain ⟨rfl, -⟩ := serve_pop (.inl rfl) hq.impl hs
  exact ⟨rfl, (hq.ask ha fun hs => (serve_pop (.inl rfl) hq.impl hs).2).1⟩

/-- The pointer leads to the oldest element. -/
theorem tryPop_spec {p : Option (Handle α)} (hq : q.Holds cfg vis [] closed)
    (h : q.tryPop cfg env = some (q', p)) :
    p.bind q'.deref = vis.head? ∧ q'.Holds cfg vis.tail [] closed ∧
      ∀ b i, p = some (.lent b i) → q'.lent = some (.lent b i) := by
  simp only [Queue.tryPop] at h
  split_ifs at h with ht
  · obtain ⟨⟨q₁, ans⟩, ha, he⟩ := Option.bind_eq_some_iff.1 h
    cases he
    obtain ⟨hq', -⟩ := hq.ask ha fun hs => (serve_pop (.inr rfl) hq.impl hs).2
    refine ⟨?_, hq', fun b i hp => hp⟩
    obtain ⟨k, impl, hs, rfl⟩ := ask_eq ha
    obtain ⟨rfl, -⟩ := serve_pop (.inr rfl) hq.impl hs
    have hfits := hq.fits
    obtain ⟨tag, impl₀, wait, coins⟩ := q
    subst ht
    cases impl₀ with
    | ring sh =>
      obtain ⟨c, sh', hc, hgo, rfl⟩ := serve_ring hs
      cases hc
      have hv := Spsc.lentValue_of_borrow hgo
      obtain hv : vis.head? = sh'.lentValue := by simpa using hv
      rw [hv]
      cases hl : sh'.c.lent with
      | none => simp [Queue.lent, Spsc.Shared.lentValue, hl]
      | some x => simp [Queue.lent, Spsc.Shared.lentValue, hl, Queue.deref]
    | _ => cases hfits
  · obtain ⟨⟨q₁, v⟩, hc, he⟩ := Option.bind_eq_some_iff.1 h
    cases he
    obtain ⟨rfl, hq'⟩ := consume_spec hq hc
    refine ⟨?_, hq', fun b i hp => ?_⟩
    · cases vis <;> rfl
    · cases vis <;> cases hp

/-! ## Waiting -/

section Eventcount

variable {Q R : Type} {policy : Waiter.Policy} {w : Waiter.Shared Unit}

/-- A wait whose first look decides. -/
theorem waitAlone_look {look : Q → Q × Option R} {x x' : Q} {r : Option R}
    (hlook : look x = (x', r)) (hr : r = none → w.closed = true) (fuel : Nat) :
    waitAlone policy look (fuel + 3) x w (Waiter.waitUntil policy false) = some (x', w, r) := by
  cases r with
  | none => unfold Waiter.waitUntil; split_ifs <;> simp [waitAlone, Waiter.step, hlook, hr rfl]
  | some r => unfold Waiter.waitUntil; split_ifs <;> simp [waitAlone, Waiter.step, hlook]

variable {look : Option Q → Option Q × Option R}

theorem step_lost (hn : look none = (none, none)) {l l' : Waiter.Loc R} {x' : Option Q}
    {w' : Waiter.Shared Unit}
    (hs : Waiter.step policy look () quiet none w l = some (x', w', l')) : x' = none := by
  cases l <;> simp only [Waiter.step, hn] at hs
  all_goals first
    | cases hs; done
    | cases hs; rfl
    | split_ifs at hs <;> cases hs <;> rfl
    | obtain ⟨w₁, -, he⟩ := Option.map_eq_some_iff.1 hs; cases he; rfl

/-- A queue whose look did not come to an end does not come back. -/
theorem waitAlone_lost (hn : look none = (none, none)) {fuel : Nat} {l : Waiter.Loc R}
    {r : Option Q × Waiter.Shared Unit × Option R}
    (h : waitAlone policy look fuel none w l = some r) : r.1 = none := by
  induction fuel generalizing w l with
  | zero => cases h
  | succ fuel ih =>
    by_cases hl : ∃ r, l = .done r
    · obtain ⟨r, rfl⟩ := hl
      cases h
      rfl
    · rw [waitAlone_succ fun r he => hl ⟨r, he⟩] at h
      obtain ⟨⟨x', w', l'⟩, hs, h⟩ := Option.bind_eq_some_iff.1 h
      cases step_lost hn hs
      exact ih h

theorem waitAlone_look_lost (hn : look none = (none, none)) {x : Option Q}
    (hlook : look x = (none, none)) {fuel : Nat} {r : Option Q × Waiter.Shared Unit × Option R}
    (h : waitAlone policy look fuel x w (Waiter.waitUntil policy false) = some r) : r.1 = none := by
  by_cases hc : w.closed = true
  · have h3 := waitAlone_mono h 3
    rw [waitAlone_look hlook fun _ => hc] at h3
    cases h3
    rfl
  · have h2 := waitAlone_mono h 2
    unfold Waiter.waitUntil at h2
    split_ifs at h2 <;>
      simp only [waitAlone, Waiter.step, Option.bind_some, hlook, hc] at h2
    · exact waitAlone_lost hn h2
    · exact waitAlone_lost hn h2

end Eventcount

/-- On a queue that is not empty, or closed. -/
theorem popWait_spec {v : Option α} (hq : q.Holds cfg vis [] closed)
    (hd : ¬ (vis = [] ∧ closed = false)) (h : q.popWait cfg env = some (q', v)) :
    v = vis.head? ∧ q'.Holds cfg vis.tail [] closed := by
  obtain ⟨⟨x, wait, r⟩, hw, h⟩ := Option.bind_eq_some_iff.1 h
  obtain ⟨q₁, hx, he⟩ := Option.bind_eq_some_iff.1 h
  cases he
  obtain rfl : x = some q₁ := hx
  cases hc : q.consume cfg env with
  | none =>
    have hlook : Queue.look cfg env (some q) = (none, none) := by simp [Queue.look, hc]
    have hn : Queue.look cfg env (none : Option (Queue α)) = (none, none) := rfl
    cases waitAlone_look_lost hn hlook hw
  | some s =>
    obtain ⟨q₂, v₂⟩ := s
    obtain ⟨rfl, hq₂⟩ := consume_spec hq hc
    have hlook : Queue.look cfg env (some q) = (some q₂, vis.head?) := by simp [Queue.look, hc]
    have h3 := waitAlone_mono hw 3
    rw [waitAlone_look hlook fun hv => ?_] at h3
    · cases h3
      exact ⟨rfl, { hq with
        fits := hq₂.fits
        impl := hq₂.impl }⟩
    · rw [List.head?_eq_none_iff] at hv
      have hcl : closed ≠ false := fun hcl => hd ⟨hv, hcl⟩
      rw [hq.closed]
      simpa using hcl

theorem close_spec (hq : q.Holds cfg vis [] closed) (h : q.close cfg env = some q') :
    q'.Holds cfg vis [] true ∧ q.Keeps q' := by
  obtain ⟨⟨u, w, r⟩, hw, he⟩ := Option.bind_eq_some_iff.1 h
  cases he
  have h4 := waitAlone_mono hw 4
  rw [waitAlone_shut hq.asleep] at h4
  cases h4
  exact ⟨⟨hq.fits, hq.impl, hq.waiters, hq.asleep, rfl⟩, fun b i hl => ⟨hl, rfl⟩⟩

end Wtc.Shim
