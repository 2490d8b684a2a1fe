import Wtc.Bounded.Account

/-!
# Properties of the bounded ring

* `split_linearizable` — with separate counters every history is that of a sequential queue of
  exactly the capacity
* `packed_linearizable` — so it is with both counters in one word, overruns and batches, and the
  elements put in are all accounted for
-/

namespace Wtc.Bounded

open Wtc.Concurrent

variable {α Tid : Type}

/-- What holds in every state of every run. `elems` are the elements put in, in the order in which
their tickets were taken. -/
structure Sound (cfg : Cfg) (s : Config Tid (Shared α) (Loc α)) (elems : List α) : Prop where
  length : elems.length = s.sh.pushed
  popped_le : s.sh.popped ≤ s.sh.pushed
  /-- The queue never holds more than its capacity. -/
  held_le : s.sh.pushed - s.sh.popped ≤ cfg.capacity
  /-- A push fills the cells of its tickets with its elements. -/
  fills : ∀ t st x vs ans, s.loc t = some (.build st x vs ans) →
    ∃ p, x = word p ∧ vs <+: elems.drop p ∧ s.sh.raw (cfg.cell x) = none
  /-- A pop takes out the element of the push with the same ticket. -/
  takes : ∀ t st x k got e, s.loc t = some (.read st x k got e) →
    ∃ c v, x = word c ∧ elems[c]? = some v ∧ s.sh.raw (cfg.cell x) = some v

section Theorems

variable [DecidableEq Tid] {cfg : Cfg} {prod cons : Tid}

omit [DecidableEq Tid] in
theorem sound_of_rule {s : Config Tid (Shared α) (Loc α)} {w : Ghost Tid α} (hg : G cfg s.sh w)
    (hl : ∀ t, L cfg prod cons t s.sh w (s.loc t)) : Sound cfg s w.elems := by
  refine ⟨hg.elems, hg.popped_le, ?_, ?_, ?_⟩
  · have := hg.pushed_le
    omega
  · intro t st x vs ans hloc
    have hlt := hl t
    rw [hloc] at hlt
    obtain ⟨p, c, hh, -, ⟨-, rfl, hne, hpre⟩, hrs⟩ := hlt
    have hp : w.holdP p = some t :=
      (hh.holdP p).mpr ⟨le_rfl, Nat.lt_add_of_pos_right (List.length_pos_iff.mpr hne)⟩
    refine ⟨p, rfl, hpre, ?_⟩
    rw [cell_word, hg.cells.empty p hrs, if_neg]
    exact fun hb => absurd ((hh.built p hp).mp hb).1 Bool.false_ne_true
  · intro t st x k got e hloc
    have hlt := hl t
    rw [hloc] at hlt
    obtain ⟨p, c, v, -, hx, hv, hraw, -⟩ := read_raw hg hlt
    exact ⟨c, v, hx, hv, hraw⟩

omit [DecidableEq Tid] in
/-- No answer is a size above the capacity. -/
theorem size_le {h : List (Event Tid (BoundedOp α) (BoundedAns α))} {cap : Nat}
    (hl : Linearizable (bounded α cap) h) {i j n : Nat} {t : Tid}
    (ha : Answers h i j t [.size] [.size n]) : n ≤ cap := by
  obtain ⟨q, q', hq, hs⟩ := hl.step_of_answer (fun q => q.length ≤ cap) (Nat.zero_le _)
    bounded_length_le ha
  have h1 : BoundedAns.size q.length = BoundedAns.size n := congrArg Prod.fst hs
  obtain rfl := BoundedAns.size.inj h1
  exact hq

/-- **The split layout is a queue of exactly its capacity.** -/
theorem split_linearizable (hpk : cfg.packed = false)
    {h : List (Event Tid (BoundedOp α) (BoundedAns α))} {s : Config Tid (Shared α) (Loc α)}
    (hr : (machine cfg prod cons).Run Timely h s) :
    Linearizable (bounded α cfg.capacity) h ∧
    (∀ i j t n, Answers h i j t [.size] [.size n] → n ≤ cfg.capacity) ∧
    (s.sh.head = word s.sh.popped ∧ s.sh.tail = word s.sh.pushed) ∧
    ∃ elems, Sound cfg s elems := by
  have hlin : Linearizable (bounded α cfg.capacity) h :=
    (rule cfg prod cons).linearizable id rfl hr
  obtain ⟨w, -, hg, hl⟩ := (rule cfg prod cons).sound hr
  have hsp : Split s.sh w := hg.split hpk
  exact ⟨hlin, fun i j t n ha => size_le hlin ha, ⟨hsp.head, hsp.tail⟩, w.elems,
    sound_of_rule hg hl⟩

/-- **The packed layout is a queue of exactly its capacity, and no element goes unaccounted.** -/
theorem packed_linearizable (hpk : cfg.packed = true)
    {h : List (Event Tid (BoundedOp α) (BoundedAns α))} {s : Config Tid (Shared α) (Loc α)}
    (hr : (machine cfg prod cons).Run Timely h s) :
    Linearizable (bounded α cfg.capacity) h ∧
    (∀ i j t n, Answers h i j t [.size] [.size n] → n ≤ cfg.capacity) ∧
    (∃ elems, Sound cfg s elems) ∧
    (tailOf s.sh.state - headOf s.sh.state).toNat = s.sh.pushed - s.sh.popped ∧
    ((∀ t, s.loc t = none) →
      total (accepted cfg.capacity) h = total poppedBy h + total (lostBy cfg.capacity) h +
        (tailOf s.sh.state - headOf s.sh.state).toNat ∧
      s.sh.overruns = BitVec.ofNat 64 (total overranBy h)) := by
  have hlin : Linearizable (bounded α cfg.capacity) h :=
    (rule cfg prod cons).linearizable id rfl hr
  obtain ⟨w, -, hg, hl⟩ := (rule cfg prod cons).sound hr
  change G cfg s.sh w at hg
  have hleft : (tailOf s.sh.state - headOf s.sh.state).toNat = s.sh.pushed - s.sh.popped := by
    have h1 := hg.pushed_le
    have h2 := cfg.capacity_le
    rw [hg.state hpk, tailOf_pack, headOf_pack, word_sub_toNat hg.popped_le (by omega)]
  refine ⟨hlin, fun i j t n ha => size_le hlin ha, ⟨w.elems, sound_of_rule hg hl⟩, hleft,
    fun hidle => ?_⟩
  -- with no operation under way the answers account for every ticket
  obtain ⟨-, S, k, -, hover, hsum⟩ := balance (hr.mono (fun _ _ => trivial))
  have hzero : ∑ t ∈ S, due cfg.capacity (s.loc t) = 0 :=
    Finset.sum_eq_zero (fun t _ => by rw [hidle t]; rfl)
  rw [hzero, add_zero] at hsum
  have hP : s.sh.pushed = total (accepted cfg.capacity) h := congrArg Prod.fst hsum
  have hC : s.sh.popped = total poppedBy h + total (lostBy cfg.capacity) h :=
    congrArg (fun x => x.2.1) hsum
  have hk : k = total overranBy h := congrArg (fun x => x.2.2) hsum
  have hle := hg.popped_le
  refine ⟨by omega, by rw [hover, hk]⟩

/-! ## Short runs -/

omit [DecidableEq Tid] in
/-- The counters only grow. -/
theorem step_mono {b : Bool} {sh sh' : Shared α} {l l' : Loc α}
    (hs : step cfg b sh l = some (sh', l')) :
    sh.pushed ≤ sh'.pushed ∧ sh.popped ≤ sh'.popped := by
  have same : ∀ {x : Shared α}, x = sh' → x.pushed = sh.pushed → x.popped = sh.popped →
      sh.pushed ≤ sh'.pushed ∧ sh.popped ≤ sh'.popped := by
    rintro x rfl h1 h2
    exact ⟨h1.ge, h2.ge⟩
  cases l with
  | pushClaim v st x =>
    simp only [step] at hs
    split at hs
    · obtain ⟨rfl, -⟩ := Prod.mk.inj (Option.some.inj hs)
      exact ⟨Nat.le_succ _, le_rfl⟩
    · exact same (Prod.mk.inj (Option.some.inj hs)).1 rfl rfl
  | popClaim st x =>
    simp only [step] at hs
    split at hs
    · obtain ⟨rfl, -⟩ := Prod.mk.inj (Option.some.inj hs)
      exact ⟨le_rfl, Nat.le_succ _⟩
    · exact same (Prod.mk.inj (Option.some.inj hs)).1 rfl rfl
  | swap op x =>
    simp only [step] at hs
    split at hs
    · exact same (Prod.mk.inj (Option.some.inj hs)).1 rfl rfl
    · split at hs
      · obtain ⟨rfl, -⟩ := Prod.mk.inj (Option.some.inj hs)
        exact ⟨Nat.le_add_right _ _, Nat.le_add_right _ _⟩
      · exact same (Prod.mk.inj (Option.some.inj hs)).1 rfl rfl
  | read st x k got e =>
    simp only [step, Option.map_eq_some_iff] at hs
    obtain ⟨v, -, hs⟩ := hs
    exact same (Prod.mk.inj hs).1 rfl rfl
  | abort | done ans => cases hs
  | _ => exact same (Prod.mk.inj (Option.some.inj hs)).1 rfl rfl

/-- In a run of fewer than `2 ^ 31` tickets of each side no operation is overtaken. -/
theorem timely_of_short {h : List (Event Tid (BoundedOp α) (BoundedAns α))}
    {s : Config Tid (Shared α) (Loc α)} (hr : (machine cfg prod cons).Runs h s)
    (hP : s.sh.pushed < 2 ^ 31) (hC : s.sh.popped < 2 ^ 31) :
    (machine cfg prod cons).Run Timely h s := by
  refine Machine.Run.throughout (Q := fun s => s.sh.pushed < 2 ^ 31 ∧ s.sh.popped < 2 ^ 31)
    (fun {s es s'} hn hq => ?_) (fun hq _ _ _ _ _ => ?_) hr ⟨hP, hC⟩
  · have hmono : s.sh.pushed ≤ s'.sh.pushed ∧ s.sh.popped ≤ s'.sh.popped := by
      cases hn with
      | call hl hm | ret hl ha => exact ⟨le_rfl, le_rfl⟩
      | step hl hs => exact step_mono hs
    omega
  · exact ⟨by omega, by omega⟩

instance (s : Config Tid (Shared α) (Loc α)) (t : Tid) (c : Call α) :
    Decidable ((machine cfg prod cons).may s t c) :=
  match c with
  | .tryPush _ | .pushOverrun _ | .tryPushN _ =>
    inferInstanceAs (Decidable (cfg.mp = true ∨ t = prod))
  | .consume | .consumeN _ => inferInstanceAs (Decidable (cfg.mc = true ∨ t = cons))
  | .size => inferInstanceAs (Decidable True)

end Theorems

/-! ## Example runs -/

/-- One slot, two words, many threads on each side. -/
def splitCfg : Cfg := ⟨1, by decide, true, true, false, false⟩

/-- Thread 0 puts 7 in; thread 1 is refused 8, asks for the size and takes 7 out, with the
compare-and-swap of `head` failing once. -/
def splitSchedule : List (Action Nat (Call Nat) Bool) :=
  [.call 0 (.tryPush 7), .step 0 true, .step 0 true, .step 0 true, .step 0 true, .step 0 true,
   .step 0 true, .ret 0,
   .call 1 (.tryPush 8), .step 1 true, .step 1 true, .step 1 true, .ret 1,
   .call 1 .size, .step 1 true, .step 1 true, .step 1 true, .ret 1,
   .call 1 .consume, .step 1 true, .step 1 true, .step 1 true, .step 1 true, .step 1 false,
   .step 1 true, .step 1 true, .step 1 true, .step 1 true, .step 1 true, .step 1 true,
   .step 1 true, .ret 1]

def splitHistory : List (Event Nat (BoundedOp Nat) (BoundedAns Nat)) :=
  [.call 0 [.push 7], .ret 0 [.pushed true], .call 1 [.push 8], .ret 1 [.pushed false],
   .call 1 [.size], .ret 1 [.size 1], .call 1 [.pop], .ret 1 [.popped (some 7)]]

theorem split_linearizable_example : ∃ s, (machine splitCfg 0 0).Run Timely splitHistory s ∧
    Linearizable (bounded Nat 1) splitHistory ∧
    (∀ i j t n, Answers splitHistory i j t [.size] [.size n] → n ≤ 1) ∧
    (s.sh.head = word s.sh.popped ∧ s.sh.tail = word s.sh.pushed) ∧
    ∃ elems, Sound splitCfg s elems := by
  have hr : (machine splitCfg 0 0).Runs splitHistory _ :=
    Machine.runs_of_exec (.init trivial) splitSchedule rfl
  have hr' := timely_of_short hr (by decide) (by decide)
  exact ⟨_, hr', split_linearizable rfl hr'⟩

/-- Two slots, one word, overruns and batches. -/
def packedCfg : Cfg := ⟨2, by decide, true, true, true, true⟩

/-- Thread 0 puts in two elements of three at once and overruns the oldest; thread 1 takes out
what is left, with its compare-and-swap failing once. -/
def packedSchedule : List (Action Nat (Call Nat) Bool) :=
  [.call 0 (.tryPushN [7, 8, 9]), .step 0 true, .step 0 true, .step 0 true, .step 0 true,
   .step 0 true, .step 0 true, .step 0 true, .step 0 true, .ret 0,
   .call 0 (.pushOverrun 10), .step 0 true, .step 0 true, .step 0 true, .step 0 true,
   .step 0 true, .step 0 true, .step 0 true, .step 0 true, .step 0 true, .step 0 true, .ret 0,
   .call 1 (.consumeN 5), .step 1 true, .step 1 false, .step 1 true, .step 1 true, .step 1 true,
   .step 1 true, .step 1 true, .step 1 true, .step 1 true, .step 1 true, .step 1 true, .ret 1]

def packedHistory : List (Event Nat (BoundedOp Nat) (BoundedAns Nat)) :=
  [.call 0 [.pushN [7, 8, 9]], .ret 0 [.pushedN 2], .call 0 [.overrun 10],
   .ret 0 [.overran true], .call 1 [.popN 5], .ret 1 [.poppedN [8, 10]]]

theorem packed_linearizable_example : ∃ s, (machine packedCfg 0 0).Run Timely packedHistory s ∧
    Linearizable (bounded Nat 2) packedHistory ∧
    (∀ i j t n, Answers packedHistory i j t [.size] [.size n] → n ≤ 2) ∧
    (∃ elems, Sound packedCfg s elems) ∧
    (tailOf s.sh.state - headOf s.sh.state).toNat = s.sh.pushed - s.sh.popped ∧
    ((∀ t, s.loc t = none) →
      total (accepted 2) packedHistory = total poppedBy packedHistory +
        total (lostBy 2) packedHistory + (tailOf s.sh.state - headOf s.sh.state).toNat ∧
      s.sh.overruns = BitVec.ofNat 64 (total overranBy packedHistory)) := by
  have hr : (machine packedCfg 0 0).Runs packedHistory _ :=
    Machine.runs_of_exec (.init trivial) packedSchedule rfl
  have hr' := timely_of_short hr (by decide) (by decide)
  exact ⟨_, hr', packed_linearizable rfl hr'⟩

end Wtc.Bounded
