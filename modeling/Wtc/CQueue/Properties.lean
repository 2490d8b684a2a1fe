import Wtc.CQueue.Rule

/-!
# Properties of the lifted C queue

* `c_queue_linearizable` — every history of a queue built with `S` slots is one of the original
  queue under its mutex; the queue never holds more than `S - 1` pointers, and a program that does
  not terminate more often than it said is not ended
* `closed_after_terminations` — no end is told too soon
-/

namespace Wtc.CQueue

open Wtc.Concurrent

variable {P Tid : Type} [DecidableEq Tid] {cfg : Cfg}

/-- The call is a termination. -/
def isTerminate : Event Tid (Call P) (Ans P) → Bool
  | .call _ [.terminate] => true
  | _ => false

/-- The number of terminations called. -/
def terminations (h : List (Event Tid (Call P) (Ans P))) : Nat := h.countP isTerminate

/-- The threads about to count a termination are as many as are called and not counted yet. -/
def Counted (h : List (Event Tid (Call P) (Ans P)))
    (s : Config Tid (Shared P Tid) (Loc P)) : Prop :=
  s.sh.ended = BitVec.ofNat 32 s.sh.terms ∧
  ∃ F : Finset Tid, (∀ t, t ∈ F ↔ s.loc t = some .terminate) ∧
    s.sh.terms + F.card = terminations h

theorem after_ne (c : Call P) (r : Option (Got P)) :
    after c r ≠ .terminate ∧ ∀ what, after c r ≠ .fail what := by
  cases c <;> cases r <;> simp only [after] <;> (try split_ifs) <;> simp

/-- Only the fetch-and-add of a termination counts one, or ends the program. -/
theorem step_other {t : Tid} {ch : Waiter.Choice Tid} {sh sh' : Shared P Tid} {l l' : Loc P}
    (hl : l ≠ .terminate) (hs : step cfg t ch sh l = some (sh', l')) :
    sh'.terms = sh.terms ∧ sh'.ended = sh.ended ∧ l' ≠ .terminate ∧ ∀ what, l' ≠ .fail what := by
  cases l with
  | wait c l =>
    rcases step_wait hs with ⟨r, -, rfl, rfl⟩ | ⟨q, v, l₁, -, rfl, rfl⟩
    · exact ⟨rfl, rfl, after_ne c r⟩
    · exact ⟨rfl, rfl, nofun, nofun⟩
  | tell side a l =>
    rcases step_tell hs with ⟨rfl, rfl⟩ | ⟨q, v, l₁, -, rfl, rfl⟩ <;> exact ⟨rfl, rfl, nofun, nofun⟩
  | closing l =>
    rcases step_closing hs with ⟨rfl, rfl⟩ | ⟨q, v, l₁, -, rfl, rfl⟩ <;>
      exact ⟨rfl, rfl, nofun, nofun⟩
  | terminate => exact absurd rfl hl
  | fail what | done a => cases hs

/-- The fetch-and-add of a termination. -/
theorem step_terminate {t : Tid} {ch : Waiter.Choice Tid} {sh sh' : Shared P Tid} {l' : Loc P}
    (hends : cfg.ends ≠ .never) (hs : step cfg t ch sh .terminate = some (sh', l')) :
    sh'.terms = sh.terms + 1 ∧ sh'.ended = sh.ended + 1 ∧ l' ≠ .terminate ∧
      ((∃ what, l' = .fail what) →
        cfg.ends = .exactly ∧ cfg.producers.toInt < (sh.ended + 1).toInt) := by
  simp only [step, hends, if_false] at hs
  split_ifs at hs with hgt he heq <;> cases hs
  · exact ⟨rfl, rfl, by simp, fun _ => ⟨he, hgt⟩⟩
  all_goals exact ⟨rfl, rfl, by simp, by simp⟩

theorem start_eq_terminate {c : Call P} : start c = .terminate ↔ c = .terminate := by
  cases c <;> simp [start]

omit [DecidableEq Tid] in
theorem isTerminate_call (t : Tid) (c : Call P) :
    isTerminate (.call t [c] : Event Tid (Call P) (Ans P)) = true ↔ c = .terminate := by
  cases c <;> simp [isTerminate]

/-- The threads about to count, when `t` moves from one place that is not the fetch-and-add to
another. -/
theorem mem_set_other {s : Config Tid (Shared P Tid) (Loc P)} {F : Finset Tid} {t : Tid}
    {x : Option (Loc P)} (hF : ∀ u, u ∈ F ↔ s.loc u = some .terminate)
    (hl : s.loc t ≠ some .terminate) (hx : x ≠ some .terminate) (u : Tid) :
    u ∈ F ↔ (s.set t x).loc u = some .terminate := by
  by_cases hut : u = t
  · subst hut
    rw [Config.set_loc_self, hF]
    exact iff_of_false hl hx
  · rw [Config.set_loc_ne s hut, hF]

theorem counted (hends : cfg.ends ≠ .never) {h : List (Event Tid (Call P) (Ans P))}
    {s : Config Tid (Shared P Tid) (Loc P)} (hr : (machine P Tid cfg).Runs h s) : Counted h s := by
  induction hr with
  | init _ => exact ⟨rfl, ∅, by simp [Machine.initial], rfl⟩
  | @next h es s s' _ hn _ ih =>
    obtain ⟨hend, F, hF, hcount⟩ := ih
    unfold terminations at hcount
    cases hn with
    | @call t hl c hm =>
      have htF : t ∉ F := fun h => by
        rw [hF, hl] at h
        cases h
      by_cases hc : c = .terminate
      · subst hc
        refine ⟨hend, insert t F, fun u => ?_, ?_⟩
        · by_cases hut : u = t
          · subst hut
            rw [Config.set_loc_self]
            exact iff_of_true (Finset.mem_insert_self _ _) rfl
          · rw [Config.set_loc_ne s hut, Finset.mem_insert, hF]
            exact or_iff_right hut
        · show s.sh.terms + (insert t F).card = terminations (h ++ [.call t [.terminate]])
          rw [Finset.card_insert_of_notMem htF, terminations, List.countP_append]
          show _ = _ + 1
          omega
      · have hx : some (start c) ≠ some .terminate := fun h =>
          hc (start_eq_terminate.1 (Option.some.inj h))
        refine ⟨hend, F, mem_set_other hF (by simp [hl]) hx, ?_⟩
        show s.sh.terms + F.card = terminations (h ++ [.call t [c]])
        have hno : ¬ isTerminate (.call t [c] : Event Tid (Call P) (Ans P)) = true :=
          fun h => hc ((isTerminate_call t c).1 h)
        rw [terminations, List.countP_append, List.countP_cons_of_neg hno]
        exact hcount
    | @step t l hl ch sh' l' hs =>
      have hs : step cfg t ch s.sh l = some (sh', l') := hs
      by_cases hlt : l = .terminate
      · subst hlt
        obtain ⟨ht, he, hl', -⟩ := step_terminate hends hs
        have htF : t ∈ F := (hF t).2 hl
        refine ⟨?_, F.erase t, fun u => ?_, ?_⟩
        · show sh'.ended = BitVec.ofNat 32 sh'.terms
          rw [ht, he, hend, BitVec.ofNat_add]
          rfl
        · show u ∈ F.erase t ↔ (s.set t (some l')).loc u = some .terminate
          by_cases hut : u = t
          · subst hut
            simpa using hl'
          · rw [Config.set_loc_ne s hut, Finset.mem_erase, hF]
            exact and_iff_right hut
        · show sh'.terms + (F.erase t).card = terminations (h ++ [])
          have := Finset.card_erase_add_one htF
          rw [terminations, List.append_nil]
          omega
      · obtain ⟨ht, he, hl', -⟩ := step_other hlt hs
        refine ⟨?_, F, mem_set_other hF (by simpa [hl] using hlt) (by simpa using hl'), ?_⟩
        · show sh'.ended = BitVec.ofNat 32 sh'.terms
          rw [ht, he, hend]
        · show sh'.terms + F.card = terminations (h ++ [])
          rw [terminations, List.append_nil, ht, hcount]
    | @ret t l hl ans ha =>
      have hlt : l ≠ .terminate := by
        rintro rfl
        cases ha
      refine ⟨hend, F, mem_set_other hF (by simpa [hl] using hlt) nofun, ?_⟩
      rw [terminations, List.countP_append]
      exact hcount

/-- A program that terminates no more often than it said is not ended. -/
theorem no_fail (hends : cfg.ends ≠ .never) {h : List (Event Tid (Call P) (Ans P))}
    {s : Config Tid (Shared P Tid) (Loc P)} (hr : (machine P Tid cfg).Runs h s)
    (hterm : cfg.ends = .exactly → (terminations h : Int) ≤ cfg.producers.toInt) (t : Tid)
    (what : String) : s.loc t ≠ some (.fail what) := by
  induction hr with
  | init _ => nofun
  | @next h es s s' hr hn _ ih =>
    have ih := ih fun he => by
      have := hterm he
      rw [terminations, List.countP_append] at this
      rw [terminations]
      omega
    cases hn with
    | @call u hl c hm =>
      by_cases hut : t = u
      · subst hut
        rw [Config.set_loc_self]
        cases c <;> nofun
      · rwa [Config.set_loc_ne s hut]
    | @step u l hl ch sh' l' hs =>
      have hs : step cfg u ch s.sh l = some (sh', l') := hs
      show (s.set u (some l')).loc t ≠ _
      by_cases hut : t = u
      · subst hut
        rw [Config.set_loc_self]
        intro he
        obtain rfl : l' = .fail what := Option.some.inj he
        by_cases hlt : l = .terminate
        · subst hlt
          -- the thread is one of those about to count, so the count is below the producers
          obtain ⟨hexact, hgt⟩ := (step_terminate hends hs).2.2.2 ⟨what, rfl⟩
          obtain ⟨hend, F, hF, hcount⟩ := counted hends hr
          have hpos : 0 < F.card := Finset.card_pos.2 ⟨t, (hF t).2 hl⟩
          have hle := toInt_le (s.sh.terms + 1)
          have := hterm hexact
          rw [List.append_nil] at this
          rw [hend, show BitVec.ofNat 32 s.sh.terms + 1 = BitVec.ofNat 32 (s.sh.terms + 1) from
            (BitVec.ofNat_add ..).symm] at hgt
          omega
        · exact (step_other hlt hs).2.2.2 what rfl
      · rwa [Config.set_loc_ne s hut]
    | @ret u l hl ans ha =>
      by_cases hut : t = u
      · subst hut
        rw [Config.set_loc_self]
        nofun
      · rwa [Config.set_loc_ne s hut]

/-- A queue built for `S` slots has room for `S - 1` pointers. -/
theorem init_ok {S : Nat} {capacity : BitVec 64} (hS : capacity.toInt = S - 1)
    {producers : BitVec 32} {ends : Ends} (hb : wtcCQueueInit capacity producers ends = .ok cfg) :
    cfg = ⟨S - 1, producers, ends⟩ := by
  simp only [wtcCQueueInit, hS] at hb
  split_ifs at hb
  cases hb
  congr
  omega

/-- **The lifted queue answers as the original does.** -/
theorem c_queue_linearizable {S : Nat} {capacity : BitVec 64} (hS : capacity.toInt = S - 1)
    (hS' : S ≤ 2 ^ 30 + 1) {producers : BitVec 32} {ends : Ends}
    (hb : wtcCQueueInit capacity producers ends = .ok cfg) (hends : ends ≠ .never)
    {h : List (Event Tid (Call P) (Ans P))} {s : Config Tid (Shared P Tid) (Loc P)}
    (hr : (machine P Tid cfg).Runs h s)
    (hterm : ends = .exactly → (terminations h : Int) ≤ producers.toInt) :
    Linearizable (original P ⟨S - 1, producers, ends⟩) h ∧ s.sh.ring.length ≤ S - 1 ∧
      ∀ t what, s.loc t ≠ some (.fail what) := by
  obtain rfl := init_ok hS hb
  have hcap : S - 1 ≤ 2 ^ 30 := Nat.sub_le_of_le_add hS'
  obtain ⟨w, -, hg, -⟩ := (rule hcap).sound hr
  exact ⟨(rule hcap).linearizable id rfl hr, hg.room, no_fail hends hr hterm⟩

/-! ## An example run -/

instance (s : Config Tid (Shared P Tid) (Loc P)) (t : Tid) (c : Call P) :
    Decidable ((machine P Tid cfg).may s t c) := inferInstanceAs (Decidable True)

/-- A ring of two slots that holds one element. -/
def oneRing : OwnRing Nat where
  data _ := 7
  inp := 1
  out := 0
  slots := 2
  slots_le := by decide
  inp_lt := by decide
  out_lt := by decide

/-- Thread 0 moves its element into a queue of two slots and terminates; thread 1 pops it and
finds the queue finished. -/
def queueSchedule : List (Action (Fin 2) (Call Nat) (Waiter.Choice (Fin 2))) :=
  let go : Waiter.Choice (Fin 2) := ⟨∅, true, false, false⟩
  [.call 0 (.pushBatch oneRing 5), .step 0 go, .step 0 go, .step 0 go, .step 0 go, .step 0 go,
   .ret 0,
   .call 0 .terminate, .step 0 go, .step 0 go, .step 0 go, .step 0 go, .step 0 go, .ret 0,
   .call 1 .popWait, .step 1 go, .step 1 go, .step 1 go, .step 1 go, .step 1 go, .ret 1,
   .call 1 (.popBatch oneRing 5), .step 1 go, .step 1 go, .step 1 go, .ret 1]

def queueHistory : List (Event (Fin 2) (Call Nat) (Ans Nat)) :=
  [.call 0 [.pushBatch oneRing 5], .ret 0 [.batch 1 oneRing.remove.2],
   .call 0 [.terminate], .ret 0 [.terminated],
   .call 1 [.popWait], .ret 1 [.popped (some 7)],
   .call 1 [.popBatch oneRing 5], .ret 1 [.batch (-1) oneRing]]

theorem c_queue_linearizable_example :
    ∃ s, (machine Nat (Fin 2) ⟨1, 1, .exactly⟩).Runs queueHistory s ∧
      Linearizable (original Nat ⟨1, 1, .exactly⟩) queueHistory ∧ s.sh.ring.length ≤ 1 ∧
      ∀ t what, s.loc t ≠ some (.fail what) := by
  have hr : (machine Nat (Fin 2) ⟨1, 1, .exactly⟩).Runs queueHistory _ :=
    Machine.runs_of_exec (.init trivial) queueSchedule rfl
  have hS : (1 : BitVec 64).toInt = (2 : Nat) - 1 := by decide
  exact ⟨_, hr, c_queue_linearizable hS (by decide) rfl (by decide) hr (by decide)⟩

/-- **No end is told too soon.** A close releases no producer, and consumers only after a
`terminate` for each producer. -/
theorem closed_after_terminations (hcap : cfg.capacity ≤ 2 ^ 30)
    {h : List (Event Tid (Call P) (Ans P))} {s : Config Tid (Shared P Tid) (Loc P)}
    (hr : (machine P Tid cfg).Runs h s) :
    (s.sh.waiter .notFull).closed = false ∧
      ((s.sh.waiter .notEmpty).closed = true → cfg.Finished (terminations h)) := by
  obtain ⟨w, -, hg, -⟩ := (rule hcap).sound hr
  refine ⟨hg.open_full, fun hc => ?_⟩
  have hfin := hg.closed_empty hc
  -- what is called is counted or about to be
  obtain ⟨-, F, -, hcount⟩ := counted hfin.1 hr
  exact hfin.mono (by omega)

theorem closed_after_one : ∃ s, (machine Nat (Fin 2) ⟨1, 1, .exactly⟩).Runs queueHistory s ∧
    Cfg.Finished ⟨1, 1, .exactly⟩ (terminations queueHistory) := by
  have hr : (machine Nat (Fin 2) ⟨1, 1, .exactly⟩).Runs queueHistory _ :=
    Machine.runs_of_exec (.init trivial) queueSchedule rfl
  exact ⟨_, hr, (closed_after_terminations (by decide) hr).2 rfl⟩

end Wtc.CQueue
