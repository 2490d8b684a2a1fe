import Wtc.Concurrent.Serial
import Wtc.Spsc.Properties

/-!
# The ring, used by one thread

Every call comes to its end, and an element that was lent stays as it is until the next pop.
-/

namespace Wtc.Spsc

open Wtc.Concurrent

variable {α : Type} {K : Nat} {t : Side} {coin : Nat → Bool} {k : Nat} {sh : Shared α}

/-! ## Calls end -/

/-- A call of the ring that comes to its end. -/
abbrev Ends (K : Nat) (t : Side) (coin : Nat → Bool) (k : Nat) (sh : Shared α) (l : Loc α) : Prop :=
  (machine K).Ends t coin (fun _ => True) k sh l

theorem ends_done {ans : List (FifoAns α)} : Ends K t coin k sh (.done ans) := .answer rfl trivial

variable {pub borrow c : Bool}

theorem ends_afterBuild : Ends K t coin k sh (afterBuild pub) := by
  cases pub with
  | true => exact .step rfl rfl ends_done
  | false => exact ends_done

theorem ends_build {v : α} : Ends K t coin k sh (.build v pub) :=
  .step rfl rfl ends_afterBuild

theorem ends_put {v : α} : Ends K t coin k sh (.put v pub) := by
  by_cases hoff : sh.p.off = K
  · by_cases hlast : sh.last (sh.next sh.p.blk) ≤ sh.p.cachedPop
    · exact .step rfl ((if_pos hoff).trans (if_pos hlast)) ends_build
    · refine .step rfl ((if_pos hoff).trans (if_neg hlast)) ?_
      by_cases hpop : sh.last (sh.next sh.p.blk) ≤ sh.popPub
      · exact .step rfl (if_pos hpop) ends_build
      · refine .step rfl (if_neg hpop) ?_
        exact .step rfl rfl ends_build
  · exact .step rfl (if_neg hoff) ends_afterBuild

theorem ends_fetch : Ends K t coin k (fetch sh borrow).1 (fetch sh borrow).2 := by
  cases borrow with
  | true => exact ends_done
  | false => exact .step rfl rfl (.step rfl rfl ends_done)

theorem ends_turn : Ends K t coin k sh (.turn borrow) := by
  by_cases hoff : sh.c.off = K
  · refine .step rfl (if_pos hoff) ?_
    exact .step rfl rfl (.step rfl rfl ends_fetch)
  · exact .step rfl (if_neg hoff) ends_fetch

/-- The consumer stops waiting for more at some time. -/
theorem ends_slip (hf : Fair coin) : Ends K t coin k sh (.slip borrow) := by
  obtain ⟨m, hkm, hm⟩ := hf k false
  obtain ⟨n, rfl⟩ := Nat.exists_eq_add_of_le hkm
  induction n generalizing k sh with
  | zero => exact .step rfl (if_neg (by simp [← hm])) ends_turn
  | succ n ih =>
    cases hk : coin k with
    | false => exact .step rfl (if_neg (by simp [hk])) ends_turn
    | true =>
      refine .step rfl (if_pos hk) (ih (by omega) ?_)
      rw [← hm]
      congr 1
      omega

theorem ends_release (hf : Fair coin) : Ends K t coin k sh (.release borrow) := by
  refine .step rfl rfl ?_
  generalize sh.releaseLent = sh
  by_cases hc : sh.c.count = sh.c.cachedPush
  · refine .step rfl (if_pos hc) ?_
    split
    · exact ends_done
    · exact ends_slip hf
  · exact .step rfl (if_neg hc) ends_turn

/-- Every call comes to its end. -/
theorem ends_call (hf : Fair coin) (c : Call α) : Ends K t coin k sh (start c) := by
  cases c with
  | push v | pushDeferred v => exact ends_put
  | publish => exact .step rfl rfl ends_done
  | consume | tryPopBorrow => exact ends_release hf

/-! ## What is lent stays -/

/-- Inside a call of the producer. -/
def Loc.producing : Loc α → Bool
  | .put _ _ => true
  | .drain _ _ _ => true
  | .insert _ _ _ => true
  | .build _ _ => true
  | .publish _ => true
  | .done _ => true
  | _ => false

theorem producing_afterBuild : (afterBuild pub : Loc α).producing = true := by
  cases pub <;> rfl

theorem step_producing {sh' : Shared α} {l l' : Loc α} (hl : l.producing = true)
    (hs : step K c sh l = some (sh', l')) : l'.producing = true ∧ sh'.c = sh.c := by
  cases l with
  | put v pub =>
    simp only [step] at hs
    split_ifs at hs <;> cases hs
    · exact ⟨rfl, rfl⟩
    · exact ⟨rfl, rfl⟩
    · exact ⟨producing_afterBuild, rfl⟩
  | drain v pub cand =>
    simp only [step] at hs
    split_ifs at hs <;> cases hs <;> exact ⟨rfl, rfl⟩
  | insert v pub nb | publish deferred => cases hs; exact ⟨rfl, rfl⟩
  | build v pub => cases hs; exact ⟨producing_afterBuild, rfl⟩
  | done ans => cases hs
  | _ => cases hl

/-- A call of the producer leaves what is lent as it is. -/
theorem lent_of_goOn (hK : 2 ≤ K) {h : List (Event Side (DeferOp α) (FifoAns α))} {fuel k' : Nat}
    {sh' : Shared α} {l : Loc α} {ans : List (FifoAns α)}
    (hr : (machine K).Runs h ((machine K).alone .producer sh l)) (hl : l.producing = true)
    (he : (machine K).goOn .producer coin fuel k sh l = some (k', sh', ans)) {b i : Nat}
    (hlent : sh.c.lent = some (b, i)) :
    sh'.c.lent = some (b, i) ∧ sh'.slot b i = sh.slot b i := by
  induction fuel generalizing k sh l with
  | zero => cases he
  | succ fuel ih =>
    have hloc : ((machine K).alone Side.producer sh l).loc .producer = some l := by
      simp [Machine.alone]
    simp only [Machine.goOn] at he
    split at he
    · obtain ⟨-, rfl, -⟩ : k = k' ∧ sh = sh' ∧ _ = ans := by simpa using he
      exact ⟨hlent, rfl⟩
    · split at he
      · cases he
      · next sh₁ l₁ hs =>
        obtain ⟨hl₁, hc⟩ := step_producing hl hs
        have hslot : sh₁.slot b i = sh.slot b i := by
          by_contra hne
          exact (builds_free_of_run hK hr hloc hs hne).2 hlent
        have hr₁ : (machine K).Runs h ((machine K).alone .producer sh₁ l₁) :=
          Machine.runs_alone hr hs
        obtain ⟨h1, h2⟩ := ih hr₁ hl₁ he (by rw [hc]; exact hlent)
        exact ⟨h1, h2.trans hslot⟩

/-- The element that is lent, if any. -/
def Shared.lentValue (sh : Shared α) : Option α := sh.c.lent.bind fun x => sh.slot x.1 x.2

/-- Inside `try_pop_borrow`, nothing being lent any more. -/
def Loc.borrowing : Loc α → Bool
  | .check borrow => borrow
  | .slip borrow => borrow
  | .turn borrow => borrow
  | .leave borrow => borrow
  | .fetch borrow => borrow
  | _ => false

theorem step_borrowing {sh' : Shared α} {l l' : Loc α} (hl : l.borrowing = true)
    (hlent : sh.c.lent = none) (hs : step K c sh l = some (sh', l')) :
    l'.borrowing = true ∧ sh'.c.lent = none ∨ l' = .done [.popped sh'.lentValue] := by
  have fetched : fetch sh true = (sh', l') → l' = .done [.popped sh'.lentValue] := by
    intro h
    cases h
    rfl
  cases l with
  | check borrow =>
    simp only [step] at hs
    split_ifs at hs <;> cases hs
    · right
      simp [Shared.lentValue, Shared.loadPush, hlent]
    · exact .inl ⟨hl, hlent⟩
    · exact .inl ⟨hl, hlent⟩
  | slip borrow =>
    simp only [step] at hs
    split_ifs at hs <;> cases hs <;> exact .inl ⟨hl, hlent⟩
  | turn borrow =>
    obtain rfl : borrow = true := hl
    simp only [step] at hs
    split_ifs at hs
    · cases hs; exact .inl ⟨rfl, hlent⟩
    · exact .inr (fetched (Option.some.inj hs))
  | leave borrow => cases hs; exact .inl ⟨hl, hlent⟩
  | fetch borrow =>
    obtain rfl : borrow = true := hl
    exact .inr (fetched (Option.some.inj hs))
  | _ => cases hl

/-- What `try_pop_borrow` answers is lent. -/
theorem lentValue_of_borrow {fuel k' : Nat} {sh' : Shared α} {ans : List (FifoAns α)}
    (he : (machine K).goOn t coin fuel k sh (start .tryPopBorrow) = some (k', sh', ans)) :
    ans = [.popped sh'.lentValue] := by
  have go : ∀ {fuel k sh l}, l.borrowing = true → sh.c.lent = none →
      (machine K).goOn t coin fuel k sh l = some (k', sh', ans) →
      ans = [.popped sh'.lentValue] := by
    intro fuel
    induction fuel with
    | zero => intro k sh l _ _ he; cases he
    | succ fuel ih =>
      intro k sh l hl hlent he
      have hn : (machine K).answer l = none := by
        cases l with
        | done ans => cases hl
        | _ => rfl
      simp only [Machine.goOn, hn] at he
      split at he
      · cases he
      · next sh₁ l₁ hs =>
        rcases step_borrowing hl hlent hs with ⟨hl₁, hlent₁⟩ | rfl
        · exact ih hl₁ hlent₁ he
        · cases fuel with
          | zero => cases he
          | succ fuel =>
            obtain ⟨-, rfl, hans⟩ : k + 1 = k' ∧ sh₁ = sh' ∧ _ := by
              simpa [Machine.goOn, machine, answer] using he
            exact hans.symm
  cases fuel with
  | zero => cases he
  | succ fuel =>
    have he' : (machine K).goOn t coin fuel (k + 1) sh.releaseLent (.check true) =
      some (k', sh', ans) := he
    refine go rfl ?_ he'
    unfold Shared.releaseLent
    split
    · assumption
    · rfl

end Wtc.Spsc
