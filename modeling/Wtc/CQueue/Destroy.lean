import Wtc.CQueue.Model

/-!
# Destroying a lifted C queue

`wtc_c_queue_destroy` beside the operations, with the counters `pushing` and `popping` that each
operation holds from before its first access to the queue until after its last one.

The original may be destroyed by a thread that has seen the effect of the last operation. So destroy
may be called here as soon as every operation that has not returned has made its effect visible. An
operation on the ring is one step, so an effect is visible when the whole ring operation is over.
-/

namespace Wtc.CQueue.Destroy

open Wtc.Concurrent

variable {P Tid : Type}

/-! ## The model -/

/-- The two counters of operations under way. -/
inductive Counter where
  | pushing
  | popping
  deriving DecidableEq, Repr

/-- The counter that an operation is counted in. -/
def counter : CQueue.Call P → Counter
  | .pushWait _ => .pushing
  | .terminate => .pushing
  | .pushBatch _ _ => .pushing
  | .popWait => .popping
  | .popBatch _ _ => .popping

structure Shared (P Tid : Type) where
  queue : CQueue.Shared P Tid
  active : Counter → BitVec 32
  freed : Bool

def Shared.count (sh : Shared P Tid) (c : Counter) (n : BitVec 32) : Shared P Tid :=
  { sh with active := Function.update sh.active c n }

@[simp] theorem count_self {sh : Shared P Tid} {c : Counter} {n : BitVec 32} :
    (sh.count c n).active c = n := by simp [Shared.count]

theorem count_ne {sh : Shared P Tid} {c c' : Counter} {n : BitVec 32} (h : c' ≠ c) :
    (sh.count c n).active c' = sh.active c' := by simp [Shared.count, h]

inductive Call (P : Type) where
  | op (c : CQueue.Call P)
  | destroy

/-- Where a thread is: at the constructor of `active`, in the operation that follows, or past the
destructor of `active`; in destroy, at the reading of a counter, at the delete, or past it. -/
inductive Place (P : Type) where
  | enter (c : CQueue.Call P)
  | inside (c : CQueue.Call P) (l : CQueue.Loc P)
  | left (a : Ans P)
  | readPushing
  | readPopping
  | free
  | destroyed

variable [DecidableEq Tid]

def step (cfg : Cfg) (t : Tid) (ch : Waiter.Choice Tid) (sh : Shared P Tid) :
    Place P → Option (Shared P Tid × Place P)
  | .enter c => some (sh.count (counter c) (sh.active (counter c) + 1), .inside c (start c))
  | .inside c (.done a) => some (sh.count (counter c) (sh.active (counter c) - 1), .left a)
  | .inside c l => (CQueue.step cfg t ch sh.queue l).map fun (q, l') =>
      ({ sh with queue := q }, .inside c l')
  | .left _ => none
  | .readPushing => some (sh, if sh.active .pushing ≠ 0 then .readPushing else .readPopping)
  | .readPopping => some (sh, if sh.active .popping ≠ 0 then .readPushing else .free)
  | .free => some ({ sh with freed := true }, .destroyed)
  | .destroyed => none

/-- The effect of the operation is visible: its wait is over, or its termination is counted. It may
be in the wake-up that follows. -/
def visible : CQueue.Loc P → Bool
  | .wait _ l => l.outcome.isSome
  | .tell _ _ l => l.signals
  | .closing l => l.signals
  | .done _ => true
  | .terminate => false
  | .fail _ => false

/-- The operation has returned, or need only be left. -/
def Place.settled : Place P → Bool
  | .inside _ l => visible l
  | .left _ => true
  | _ => false

/-- Inside destroy, with the queue not freed. -/
def Place.destroying : Place P → Bool
  | .readPushing => true
  | .readPopping => true
  | .free => true
  | _ => false

/-- Destroy has been called. -/
def Called (s : Config Tid (Shared P Tid) (Place P)) : Prop :=
  s.sh.freed = true ∨ ∃ u, (s.loc u).any Place.destroying = true

/-- No operation is called once destroy is; destroy is called once, when the effect of every
operation that has not returned is visible. -/
def may (s : Config Tid (Shared P Tid) (Place P)) (_ : Tid) : Call P → Prop
  | .op _ => ¬ Called s
  | .destroy => ¬ Called s ∧ ∀ u, (s.loc u).all Place.settled = true

/-- An operation answers, destroy does not. -/
def machine (P Tid : Type) [DecidableEq Tid] (cfg : Cfg) :
    Machine Tid (Shared P Tid) (Place P) (Call P) (Waiter.Choice Tid) (Call P)
      (Option (Ans P)) where
  init := ⟨.init cfg, fun _ => 0, false⟩
  may := may
  ops c := [c]
  start
    | .op c => .enter c
    | .destroy => .readPushing
  step := step cfg
  answer
    | .left a => some [some a]
    | .destroyed => some [none]
    | _ => none

/-- The next step reads or writes the memory of the queue. -/
def Place.touches : Place P → Bool
  | .left _ => false
  | .destroyed => false
  | _ => true

/-! ## Operations whose effect is visible -/

/-- The steps that a wake-up, or the end of a wait, has left. -/
def signalLeft : Waiter.Loc (Got P) → Nat
  | .notify _ => 3
  | .bump _ => 2
  | .wake _ => 1
  | .shut => 3
  | .shutBump => 2
  | .shutWake => 1
  | .leave _ => 1
  | _ => 0

/-- The steps that an operation has left once its effect is visible, the last one included, which
takes it out of the count. -/
def stepsLeft : CQueue.Loc P → Nat
  | .wait _ l => signalLeft l + 6
  | .tell _ _ l => signalLeft l + 2
  | .closing l => signalLeft l + 2
  | _ => 1

variable {cfg : Cfg} {t : Tid} {ch : Waiter.Choice Tid} {q q' : CQueue.Shared P Tid}

/-- A step of a wake-up. -/
theorem signal_step {side : Side} {l l' : Waiter.Loc (Got P)} (hl : l.signals = true)
    (hs : inside noLook t ch q side l = some (q', l')) :
    l'.signals = true ∧ signalLeft l' < signalLeft l := by
  simp only [inside, Option.map_eq_some_iff, Prod.mk.injEq] at hs
  obtain ⟨⟨r, w, l₁⟩, hs, -, rfl⟩ := hs
  refine ⟨(Waiter.step_signal hl hs).2.1, ?_⟩
  cases l with
  | notify =>
    simp only [Waiter.step] at hs
    split_ifs at hs <;> cases hs <;> simp [signalLeft]
  | wake | shutWake =>
    simp only [Waiter.step, Waiter.Shared.futexWake] at hs
    split_ifs at hs <;> cases hs
    simp [signalLeft]
  | bump | shutBump | shut =>
    cases hs
    simp [signalLeft]
  | done => cases hs
  | _ => cases hl

/-- A wake-up waits for nobody: some sleepers can always be chosen. -/
theorem signal_moves (t : Tid) (q : CQueue.Shared P Tid) (side : Side) {l : Waiter.Loc (Got P)}
    (hl : l.signals = true) (hd : ∀ r, l ≠ .done r) :
    ∃ ch r, inside noLook t ch q side l = some r := by
  have hwake : ∀ (w : Waiter.Shared Tid) (n : Nat),
      ∃ woken, (w.futexWake n woken).isSome = true := by
    intro w n
    obtain ⟨woken, hsub, hcard⟩ := Finset.exists_subset_card_eq (min_le_right n w.asleep.card)
    exact ⟨woken, by simp [Waiter.Shared.futexWake, hsub, hcard]⟩
  have hgo : ∀ n, ∃ ch : Waiter.Choice Tid,
      ((q.waiter side).futexWake n ch.woken).isSome = true := by
    intro n
    obtain ⟨woken, hw⟩ := hwake (q.waiter side) n
    exact ⟨⟨woken, false, false, false⟩, hw⟩
  simp only [inside, Option.map_eq_some_iff]
  cases l with
  | notify n =>
    refine ⟨⟨∅, false, false, false⟩, ?_⟩
    simp only [Waiter.step]
    split_ifs <;> exact ⟨_, _, rfl, rfl⟩
  | wake n =>
    obtain ⟨ch, hch⟩ := hgo (min n Waiter.intMax)
    obtain ⟨w, hw⟩ := Option.isSome_iff_exists.1 hch
    refine ⟨ch, ?_⟩
    simp only [Waiter.step, hw]
    exact ⟨_, _, rfl, rfl⟩
  | shutWake =>
    obtain ⟨ch, hch⟩ := hgo Waiter.intMax
    obtain ⟨w, hw⟩ := Option.isSome_iff_exists.1 hch
    refine ⟨ch, ?_⟩
    simp only [Waiter.step, hw]
    exact ⟨_, _, rfl, rfl⟩
  | bump | shutBump | shut => exact ⟨⟨∅, false, false, false⟩, _, _, rfl, rfl⟩
  | done r => exact absurd rfl (hd r)
  | _ => cases hl

theorem signalLeft_notify (n : Nat) :
    signalLeft (Waiter.notify policy n : Waiter.Loc (Got P)) ≤ 3 := by
  unfold Waiter.notify
  split_ifs <;> simp [signalLeft]

/-- After its wait an operation wakes the other side, or is over. -/
theorem after_visible (c : CQueue.Call P) (r : Option (Got P)) :
    visible (after c r) = true ∧ stepsLeft (after c r) < 6 := by
  have htell : ∀ side n, visible (.tell side (c.answer r) (Waiter.notify policy n)) = true ∧
      stepsLeft (.tell side (c.answer r) (Waiter.notify policy n)) < 6 := by
    intro side n
    have hle := signalLeft_notify (P := P) n
    refine ⟨(Waiter.signals_notify policy n).1, ?_⟩
    simp only [stepsLeft]
    omega
  have hdone : visible (.done (c.answer r)) = true ∧ stepsLeft (.done (c.answer r)) < 6 := by
    simp [visible, stepsLeft]
  cases c with
  | pushWait v => exact htell _ _
  | terminate => exact hdone
  | popWait =>
    cases r with
    | none => exact hdone
    | some g => exact htell _ _
  | pushBatch src limit =>
    simp only [after]
    split_ifs
    · exact htell _ _
    · exact htell _ _
  | popBatch dst limit =>
    cases r with
    | none => exact hdone
    | some g =>
      simp only [after]
      split_ifs
      · exact htell _ _
      · exact htell _ _

variable {l l' : CQueue.Loc P} {c : CQueue.Call P}

/-- A step of an operation whose effect is visible leaves it so, and leaves one step less. -/
theorem visible_step (hl : visible l = true) (hs : CQueue.step cfg t ch q l = some (q', l')) :
    visible l' = true ∧ stepsLeft l' < stepsLeft l := by
  cases l with
  | wait c l =>
    obtain ⟨r, hr⟩ := Option.isSome_iff_exists.1 hl
    cases l with
    | done r =>
      cases hs
      exact after_visible c r
    | leave r =>
      cases hs
      exact ⟨rfl, by simp [stepsLeft, signalLeft]⟩
    | _ => cases hr
  | tell side a l =>
    by_cases hd : ∃ r, l = .done r
    · obtain ⟨r, rfl⟩ := hd
      cases hs
      exact ⟨rfl, by simp [stepsLeft, signalLeft]⟩
    · have hs' : (inside noLook t ch q side l).map (fun x => (x.1, Loc.tell side a x.2)) =
          some (q', l') := by
        cases l with
        | done r => exact absurd ⟨r, rfl⟩ hd
        | _ => exact hs
      obtain ⟨⟨q₁, l₁⟩, hin, heq⟩ := Option.map_eq_some_iff.1 hs'
      cases heq
      obtain ⟨hsig, hlt⟩ := signal_step hl hin
      exact ⟨hsig, by simp only [stepsLeft]; omega⟩
  | closing l =>
    by_cases hd : ∃ r, l = .done r
    · obtain ⟨r, rfl⟩ := hd
      cases hs
      exact ⟨rfl, by simp [stepsLeft, signalLeft]⟩
    · have hs' : (inside noLook t ch q .notEmpty l).map (fun x => (x.1, Loc.closing x.2)) =
          some (q', l') := by
        cases l with
        | done r => exact absurd ⟨r, rfl⟩ hd
        | _ => exact hs
      obtain ⟨⟨q₁, l₁⟩, hin, heq⟩ := Option.map_eq_some_iff.1 hs'
      cases heq
      obtain ⟨hsig, hlt⟩ := signal_step hl hin
      exact ⟨hsig, by simp only [stepsLeft]; omega⟩
  | done a => cases hs
  | terminate | fail what => cases hl

/-- An operation whose effect is visible can always take its next step. -/
theorem visible_moves (cfg : Cfg) (t : Tid) (q : CQueue.Shared P Tid) (hl : visible l = true)
    (hd : ∀ a, l ≠ .done a) : ∃ ch r, CQueue.step cfg t ch q l = some r := by
  cases l with
  | wait c l =>
    obtain ⟨r, hr⟩ := Option.isSome_iff_exists.1 hl
    cases l with
    | done r | leave r => exact ⟨⟨∅, false, false, false⟩, _, rfl⟩
    | _ => cases hr
  | tell side a l =>
    by_cases hdone : ∃ r, l = .done r
    · obtain ⟨r, rfl⟩ := hdone
      exact ⟨⟨∅, false, false, false⟩, _, rfl⟩
    · obtain ⟨ch, r, hr⟩ := signal_moves t q side hl (fun r h => hdone ⟨r, h⟩)
      refine ⟨ch, (r.1, .tell side a r.2), ?_⟩
      cases l with
      | done r => exact absurd ⟨r, rfl⟩ hdone
      | _ => simp only [CQueue.step, hr, Option.map_some]
  | closing l =>
    by_cases hdone : ∃ r, l = .done r
    · obtain ⟨r, rfl⟩ := hdone
      exact ⟨⟨∅, false, false, false⟩, _, rfl⟩
    · obtain ⟨ch, r, hr⟩ := signal_moves t q .notEmpty hl
        (fun r h => hdone ⟨r, h⟩)
      refine ⟨ch, (r.1, .closing r.2), ?_⟩
      cases l with
      | done r => exact absurd ⟨r, rfl⟩ hdone
      | _ => simp only [CQueue.step, hr, Option.map_some]
  | done a => exact absurd rfl (hd a)
  | terminate | fail what => cases hl

/-! ## The counters -/

/-- The thread is counted in the counter. -/
def weight (c : Counter) : Option (Place P) → Nat
  | some (.inside c' _) => if counter c' = c then 1 else 0
  | _ => 0

variable {N : Nat} {s s' : Config (Fin N) (Shared P (Fin N)) (Place P)}

/-- The threads that are counted. -/
def underWay (s : Config (Fin N) (Shared P (Fin N)) (Place P)) (c : Counter) : Nat :=
  ∑ u, weight c (s.loc u)

theorem weight_le (c : Counter) (x : Option (Place P)) : weight c x ≤ 1 := by
  unfold weight
  split
  · split_ifs <;> simp
  · simp

theorem underWay_le (c : Counter) : underWay s c ≤ N := by
  unfold underWay
  calc ∑ u, weight c (s.loc u) ≤ ∑ _ : Fin N, 1 := Finset.sum_le_sum fun u _ => weight_le c _
    _ = N := by simp

theorem weight_eq_zero {c : Counter} (h : underWay s c = 0) (u : Fin N) :
    weight c (s.loc u) = 0 := by
  unfold underWay at h
  exact Finset.sum_eq_zero_iff.1 h u (Finset.mem_univ u)

/-- The state with one thread moved. -/
def moved (s : Config (Fin N) (Shared P (Fin N)) (Place P)) (u : Fin N) (x : Option (Place P))
    (sh : Shared P (Fin N)) : Config (Fin N) (Shared P (Fin N)) (Place P) :=
  { s.set u x with sh := sh }

@[simp] theorem moved_sh {u : Fin N} {x : Option (Place P)} {sh : Shared P (Fin N)} :
    (moved s u x sh).sh = sh := rfl

@[simp] theorem moved_self {u : Fin N} {x : Option (Place P)} {sh : Shared P (Fin N)} :
    (moved s u x sh).loc u = x := Config.set_loc_self s u x

theorem moved_ne {u v : Fin N} {x : Option (Place P)} {sh : Shared P (Fin N)} (h : v ≠ u) :
    (moved s u x sh).loc v = s.loc v := Config.set_loc_ne s h x

theorem underWay_set (s : Config (Fin N) (Shared P (Fin N)) (Place P)) (c : Counter) (u : Fin N)
    (x : Option (Place P)) (sh : Shared P (Fin N)) :
    underWay (moved s u x sh) c + weight c (s.loc u) = underWay s c + weight c x :=
  s.sum_set (fun _ => weight c) u x

/-- Some operation is under way that is counted where no operation is. -/
theorem not_inside {u : Fin N} (h : underWay s (counter c) = 0) : s.loc u ≠ some (.inside c l) := by
  intro hl
  have := weight_eq_zero h u
  simp [hl, weight] at this

/-! ## The invariant -/

structure Inv (s : Config (Fin N) (Shared P (Fin N)) (Place P)) : Prop where
  active : ∀ c, s.sh.active c = BitVec.ofNat 32 (underWay s c)
  settled : Called s → ∀ {u l}, s.loc u = some l → l.destroying = true ∨ l = .destroyed ∨
    l.settled = true
  destroyer : ∀ {u v}, (s.loc u).any Place.destroying = true →
    (s.loc v).any Place.destroying = true →
    u = v
  destroyed : ∀ {u}, s.loc u = some .destroyed → s.sh.freed = true
  popping : ∀ {u}, s.loc u = some .readPopping ∨ s.loc u = some .free → underWay s .pushing = 0
  free : ∀ {u}, s.loc u = some .free → underWay s .popping = 0
  freed : s.sh.freed = true → (∀ c, underWay s c = 0) ∧ ∀ u, (s.loc u).any Place.destroying = false

/-- A counter is zero exactly if nobody is counted in it. -/
theorem Inv.active_eq_zero (h : Inv s) (hN : N ≤ Waiter.intMax) (c : Counter) :
    s.sh.active c = 0 ↔ underWay s c = 0 := by
  have hle := underWay_le (s := s) c
  have hlt : underWay s c < 2 ^ 32 := by
    unfold Waiter.intMax at hN
    omega
  rw [h.active, ← BitVec.toNat_inj, BitVec.toNat_ofNat, Nat.mod_eq_of_lt hlt]
  simp

theorem inv_initial : Inv (machine P (Fin N) cfg).initial := by
  constructor
  · intro c
    simp [Machine.initial, machine, underWay, weight]
  · intro _ u l hl
    cases hl
  · intro u v hu
    cases hu
  · intro u hu
    cases hu
  · rintro u (hu | hu) <;> cases hu
  · intro u hu
    cases hu
  · intro hf
    cases hf

/-- Before destroy is called only the counters matter. -/
theorem inv_of_not_called (hc : ¬ Called s)
    (hactive : ∀ c, s.sh.active c = BitVec.ofNat 32 (underWay s c))
    (hd : ∀ u, s.loc u ≠ some .destroyed) : Inv s := by
  have hnone : ∀ {u l}, s.loc u = some l → l.destroying = true → False := by
    intro u l hl hdes
    exact hc (.inr ⟨u, by simp [hl, hdes]⟩)
  refine ⟨hactive, fun h => absurd h hc, fun {u} _ hu => absurd (.inr ⟨u, hu⟩) hc,
    fun hu => absurd hu (hd _), ?_, fun hu => (hnone hu rfl).elim, fun hf => absurd (.inl hf) hc⟩
  rintro u (hu | hu)
  · exact (hnone hu rfl).elim
  · exact (hnone hu rfl).elim

theorem Inv.not_destroyed (h : Inv s) (hc : ¬ Called s) (u : Fin N) : s.loc u ≠ some .destroyed :=
  fun hu => hc (.inl (h.destroyed hu))

variable {u : Fin N} {x : Option (Place P)} {sh : Shared P (Fin N)}

/-- A thread that is not in destroy moves on, and not into destroy. -/
theorem called_set (hu : (s.loc u).any Place.destroying = false)
    (hx : x.any Place.destroying = false) (hf : sh.freed = s.sh.freed) :
    Called (moved s u x sh) ↔ Called s := by
  have hloc : ∀ v, ((moved s u x sh).loc v).any Place.destroying =
      (s.loc v).any Place.destroying := by
    intro v
    by_cases hv : v = u
    · subst hv
      exact (congrArg _ (moved_self)).trans (hx.trans hu.symm)
    · exact congrArg _ (moved_ne hv)
  simp only [Called, moved_sh, hf, hloc]

/-- A step of an operation, or its return. -/
theorem Inv.operation (h : Inv s) (hu : (s.loc u).any Place.destroying = false)
    (hx : x.any Place.destroying = false) (hd : x ≠ some .destroyed) (hf : sh.freed = s.sh.freed)
    (hactive : ∀ c, sh.active c = BitVec.ofNat 32 (underWay (moved s u x sh) c))
    (hweight : Called s → ∀ c, weight c x ≤ weight c (s.loc u))
    (hset : Called s → x.all Place.settled = true) : Inv (moved s u x sh) := by
  have hcalled := called_set hu hx hf
  by_cases hc : Called s
  · have hle : ∀ c, underWay (moved s u x sh) c ≤ underWay s c := by
      intro c
      have hsum := underWay_set s c u x sh
      have := hweight hc c
      omega
    -- a thread at a place that `u` is not at was there before
    have hloc : ∀ {v l}, (moved s u x sh).loc v = some l → x ≠ some l →
        s.loc v = some l := by
      intro v l hl hne
      by_cases hv : v = u
      · subst hv
        exact absurd ((moved_self).symm.trans hl) hne
      · exact (moved_ne hv).symm.trans hl
    have hplace : ∀ {l : Place P}, l.destroying = true → x ≠ some l := by
      rintro l hl rfl
      simp [hl] at hx
    have hany : ∀ {v}, ((moved s u x sh).loc v).any Place.destroying =
        true → (s.loc v).any Place.destroying = true := by
      intro v hv
      obtain ⟨l, hl, hdes⟩ := (Option.any_eq_true ..).1 hv
      rw [hloc hl (hplace hdes)]
      exact hdes
    refine ⟨hactive, fun _ v l hl => ?_, fun hv hw => h.destroyer (hany hv) (hany hw), fun hv => ?_,
      ?_, fun hv => ?_, fun hfreed => ?_⟩
    · by_cases hv : v = u
      · subst hv
        have hxl : x = some l := (moved_self).symm.trans hl
        have := hset hc
        rw [hxl] at this
        exact .inr (.inr this)
      · exact h.settled hc ((moved_ne hv).symm.trans hl)
    · exact hf.trans (h.destroyed (hloc hv hd))
    · rintro v (hv | hv)
      · exact Nat.le_zero.1 (h.popping (.inl (hloc hv (hplace rfl))) ▸ hle .pushing)
      · exact Nat.le_zero.1 (h.popping (.inr (hloc hv (hplace rfl))) ▸ hle .pushing)
    · exact Nat.le_zero.1 (h.free (hloc hv (hplace rfl)) ▸ hle .popping)
    · obtain ⟨hzero, hnone⟩ := h.freed (hf.symm.trans hfreed)
      refine ⟨fun c => Nat.le_zero.1 (hzero c ▸ hle c), fun v => Bool.eq_false_iff.2 fun hv => ?_⟩
      have := hany hv
      rw [hnone v] at this
      cases this
  · refine inv_of_not_called (fun hc' => hc (hcalled.1 hc')) hactive fun v hv => ?_
    by_cases hvu : v = u
    · subst hvu
      exact hd ((moved_self).symm.trans hv)
    · exact h.not_destroyed hc v ((moved_ne hvu).symm.trans hv)

/-- A step of destroy that frees nothing. -/
theorem Inv.reading (h : Inv s) {l : Place P} (hu : (s.loc u).any Place.destroying = true)
    (hl : l.destroying = true)
    (hpush : l = .readPopping ∨ l = .free → underWay s .pushing = 0)
    (hpop : l = .free → underWay s .popping = 0) : Inv (moved s u (some l) s.sh) := by
  have hcalled : Called s := .inr ⟨u, hu⟩
  have hfreed : s.sh.freed = false := by
    refine Bool.eq_false_iff.2 fun hf => ?_
    rw [(h.freed hf).2 u] at hu
    cases hu
  have hweight : ∀ {l : Place P} {c}, l.destroying = true → weight c (some l) = 0 := by
    intro l c hl
    cases l with
    | inside => cases hl
    | _ => rfl
  have hsame : ∀ c, underWay (moved s u (some l) s.sh) c = underWay s c := by
    intro c
    have hsum := underWay_set s c u (some l) s.sh
    obtain ⟨l₀, hl₀, hdes⟩ := (Option.any_eq_true ..).1 hu
    rw [hl₀, hweight hdes, hweight hl] at hsum
    exact hsum
  have hself : (moved s u (some l) s.sh).loc u = some l :=
    moved_self
  have hother : ∀ {v}, v ≠ u → (moved s u (some l) s.sh).loc v = s.loc v :=
    fun hv => moved_ne hv
  -- nobody else is in destroy
  have honly : ∀ {v}, ((moved s u (some l) s.sh).loc v).any
      Place.destroying = true → v = u := by
    intro v hv
    by_contra hne
    rw [hother hne] at hv
    exact hne (h.destroyer hv hu)
  refine ⟨fun c => by rw [hsame]; exact h.active c, fun _ v l' hl' => ?_,
    fun hv hw => (honly hv).trans (honly hw).symm, fun {v} hv => ?_, ?_, fun {v} hv => ?_,
    fun hf => ?_⟩
  · by_cases hv : v = u
    · subst hv
      cases hself.symm.trans hl'
      exact .inl hl
    · exact h.settled hcalled ((hother hv).symm.trans hl')
  · by_cases hvu : v = u
    · subst hvu
      cases hself.symm.trans hv
      cases hl
    · exact h.destroyed ((hother hvu).symm.trans hv)
  · rintro v hv
    rw [hsame]
    have hvu : v = u := by
      refine honly ?_
      rcases hv with hv | hv <;> simp [hv, Place.destroying]
    subst hvu
    rw [hself] at hv
    exact hpush (hv.imp Option.some.inj Option.some.inj)
  · rw [hsame]
    have hvu : v = u := honly (by simp [hv, Place.destroying])
    subst hvu
    exact hpop (Option.some.inj (hself.symm.trans hv))
  · rw [moved_sh, hfreed] at hf
    cases hf

/-- The queue is freed. -/
theorem Inv.frees (h : Inv s) (hu : s.loc u = some .free) :
    Inv (moved s u (some .destroyed) { s.sh with freed := true }) := by
  have hany : (s.loc u).any Place.destroying = true := by simp [hu, Place.destroying]
  have hzero : ∀ c, underWay s c = 0 := by
    intro c
    cases c with
    | pushing => exact h.popping (.inr hu)
    | popping => exact h.free hu
  generalize hsh : ({ s.sh with freed := true } : Shared P (Fin N)) = sh
  have hsame : ∀ c, underWay (moved s u (some .destroyed) sh) c = 0 := by
    intro c
    have hsum := underWay_set s c u (some .destroyed) sh
    rw [hzero c, hu] at hsum
    exact hsum
  have hself : (moved s u (some .destroyed) sh).loc u = some .destroyed := moved_self
  have hother : ∀ {v}, v ≠ u → (moved s u (some .destroyed) sh).loc v = s.loc v :=
    fun hv => moved_ne hv
  have hnone : ∀ v, ((moved s u (some .destroyed) sh).loc v).any Place.destroying = false := by
    intro v
    by_cases hv : v = u
    · subst hv
      rw [hself]
      rfl
    · rw [hother hv]
      exact Bool.eq_false_iff.2 fun hv' => hv (h.destroyer hv' hany)
  refine ⟨fun c => ?_, fun _ v l hl => ?_, fun {v} _ hv => ?_, fun _ => by rw [moved_sh, ← hsh],
    fun _ => hsame _, fun _ => hsame _, fun _ => ⟨hsame, hnone⟩⟩
  · rw [hsame, moved_sh, ← hsh]
    have := h.active c
    rw [hzero c] at this
    exact this
  · by_cases hv : v = u
    · subst hv
      cases hself.symm.trans hl
      exact .inr (.inl rfl)
    · exact h.settled (.inr ⟨u, hany⟩) ((hother hv).symm.trans hl)
  · rw [hnone v] at hv
    cases hv

/-- An operation is called. -/
theorem Inv.call_op (h : Inv s) (hl : s.loc u = none) (hc : ¬ Called s) (c : CQueue.Call P) :
    Inv (moved s u (some (.enter c)) s.sh) := by
  refine h.operation (by simp [hl]) (by simp [Place.destroying]) (by simp) rfl (fun c' => ?_)
    (fun h => absurd h hc) fun h => absurd h hc
  have hsum := underWay_set s c' u (some (.enter c)) s.sh
  simp only [hl, weight, Nat.add_zero] at hsum
  rw [hsum]
  exact h.active c'

/-- Destroy is called. -/
theorem Inv.call_destroy (h : Inv s) (hl : s.loc u = none) (hc : ¬ Called s)
    (hset : ∀ v, (s.loc v).all Place.settled = true) :
    Inv (moved s u (some .readPushing) s.sh) := by
  have hnone : ∀ v, (s.loc v).any Place.destroying = false :=
    fun v => Bool.eq_false_iff.2 fun hv => hc (.inr ⟨v, hv⟩)
  have hat : ∀ {v l}, (moved s u (some .readPushing) s.sh).loc v = some l →
      v = u ∨ s.loc v = some l := by
    intro v l hv
    by_cases hvu : v = u
    · exact .inl hvu
    · exact .inr ((moved_ne hvu).symm.trans hv)
  have honly : ∀ {v}, ((moved s u (some .readPushing) s.sh).loc v).any Place.destroying = true →
      v = u := by
    intro v hv
    by_contra hne
    rw [moved_ne hne, hnone v] at hv
    cases hv
  -- nobody is further in destroy
  have hfirst : ∀ {v l}, (moved s u (some .readPushing) s.sh).loc v = some l → l.destroying = true →
      l = .readPushing := by
    intro v l hv hd
    have hvu : v = u := honly (by simp [hv, hd])
    subst hvu
    exact (Option.some.inj (moved_self.symm.trans hv)).symm
  refine ⟨fun c => ?_, fun _ v l hv => ?_, fun hv hw => (honly hv).trans (honly hw).symm,
    fun {v} hv => ?_, ?_, ?_, fun hf => absurd (.inl hf) hc⟩
  · have hsum := underWay_set s c u (some .readPushing) s.sh
    simp only [hl, weight, Nat.add_zero] at hsum
    rw [hsum]
    exact h.active c
  · rcases hat hv with rfl | hv
    · cases moved_self.symm.trans hv
      exact .inl rfl
    · have := hset v
      rw [hv] at this
      exact .inr (.inr this)
  · rcases hat hv with rfl | hv
    · cases moved_self.symm.trans hv
    · exact absurd hv (h.not_destroyed hc v)
  · rintro v (hv | hv) <;> cases hfirst hv rfl
  · intro v hv
    cases hfirst hv rfl

/-- The constructor of `active`. -/
theorem Inv.enters (h : Inv s) (hl : s.loc u = some (.enter c)) :
    Inv (moved s u (some (.inside c (start c)))
      (s.sh.count (counter c) (s.sh.active (counter c) + 1))) := by
  have hc : ¬ Called s := by
    intro hc
    rcases h.settled hc hl with h | h | h <;> cases h
  refine h.operation (by simp [hl, Place.destroying]) (by simp [Place.destroying]) (by simp) rfl
    (fun c' => ?_) (fun h => absurd h hc) fun h => absurd h hc
  have hsum := underWay_set s c' u (some (.inside c (start c)))
    (s.sh.count (counter c) (s.sh.active (counter c) + 1))
  by_cases hcc : counter c = c'
  · subst hcc
    simp only [hl, weight, if_true, Nat.add_zero] at hsum
    rw [hsum, count_self, h.active, BitVec.ofNat_add]
    rfl
  · simp only [hl, weight, hcc, if_false, Nat.add_zero] at hsum
    rw [hsum, count_ne (Ne.symm hcc), h.active]

/-- The destructor of `active`. -/
theorem Inv.leaves (h : Inv s) {a : Ans P} (hl : s.loc u = some (.inside c (.done a))) :
    Inv (moved s u (some (.left a)) (s.sh.count (counter c) (s.sh.active (counter c) - 1))) := by
  refine h.operation (by simp [hl, Place.destroying]) (by simp [Place.destroying]) (by simp) rfl
    (fun c' => ?_) (fun _ c' => by simp [weight]) fun _ => rfl
  have hsum := underWay_set s c' u (some (.left a))
    (s.sh.count (counter c) (s.sh.active (counter c) - 1))
  by_cases hcc : counter c = c'
  · subst hcc
    simp only [hl, weight, if_true, Nat.add_zero] at hsum
    have hactive := h.active (counter c)
    rw [← hsum, BitVec.ofNat_add] at hactive
    rw [count_self, hactive]
    exact BitVec.add_sub_cancel _ _
  · simp only [hl, weight, hcc, if_false, Nat.add_zero] at hsum
    rw [hsum, count_ne (Ne.symm hcc), h.active]

/-- A step between the two. -/
theorem Inv.works (h : Inv s) {q : CQueue.Shared P (Fin N)} {ch : Waiter.Choice (Fin N)}
    (hl : s.loc u = some (.inside c l)) (hs : CQueue.step cfg u ch s.sh.queue l = some (q, l')) :
    Inv (moved s u (some (.inside c l')) { s.sh with queue := q }) := by
  refine h.operation (by simp [hl, Place.destroying]) (by simp [Place.destroying]) (by simp) rfl
    (fun c' => ?_) (fun _ c' => by simp [hl, weight]) fun hc => ?_
  · have hsum := underWay_set s c' u (some (.inside c l')) { s.sh with queue := q }
    simp only [hl, weight, Nat.add_right_cancel_iff] at hsum
    rw [hsum]
    exact h.active c'
  · rcases h.settled hc hl with h' | h' | h'
    · cases h'
    · cases h'
    · exact (visible_step h' hs).1

theorem inv_next (hN : N ≤ Waiter.intMax) {es : List (Event (Fin N) (Call P) (Option (Ans P)))}
    (h : Inv s) (hn : (machine P (Fin N) cfg).Next s es s') : Inv s' := by
  cases hn with
  | @call u hl c hm =>
    cases c with
    | op c => exact h.call_op hl hm c
    | destroy => exact h.call_destroy hl hm.1 hm.2
  | @step u l hl ch sh' l' hs =>
    cases l with
    | enter c =>
      cases hs
      exact h.enters hl
    | inside c l =>
      by_cases hd : ∃ a, l = .done a
      · obtain ⟨a, rfl⟩ := hd
        cases hs
        exact h.leaves hl
      · have hs' : (CQueue.step cfg u ch s.sh.queue l).map (fun x =>
            (({ s.sh with queue := x.1 } : Shared P (Fin N)), Place.inside c x.2)) =
          some (sh', l') := by
          cases l with
          | done a => exact absurd ⟨a, rfl⟩ hd
          | _ => exact hs
        obtain ⟨⟨q, l₁⟩, hq, heq⟩ := Option.map_eq_some_iff.1 hs'
        cases heq
        exact h.works hl hq
    | left a | destroyed => cases hs
    | readPushing =>
      have hany : (s.loc u).any Place.destroying = true := by simp [hl, Place.destroying]
      simp only [machine, step, Option.some.injEq, Prod.mk.injEq] at hs
      obtain ⟨rfl, rfl⟩ := hs
      split_ifs with hzero
      · exact h.reading hany rfl (by simp) (by simp)
      · refine h.reading hany rfl (fun _ => ?_) (by simp)
        exact (h.active_eq_zero hN .pushing).1 (not_not.1 hzero)
    | readPopping =>
      have hany : (s.loc u).any Place.destroying = true := by simp [hl, Place.destroying]
      simp only [machine, step, Option.some.injEq, Prod.mk.injEq] at hs
      obtain ⟨rfl, rfl⟩ := hs
      split_ifs with hzero
      · exact h.reading hany rfl (by simp) (by simp)
      · refine h.reading hany rfl (fun _ => h.popping (.inl hl)) fun _ => ?_
        exact (h.active_eq_zero hN .popping).1 (not_not.1 hzero)
    | free =>
      cases hs
      exact h.frees hl
  | @ret u l hl ans ha =>
    have hplace : l.destroying = false ∧ ∀ c, weight c (some l) = 0 := by
      cases l with
      | left a | destroyed => exact ⟨rfl, fun _ => rfl⟩
      | _ => cases ha
    have hinv : Inv (moved s u none s.sh) := by
      refine h.operation (by simp [hl, hplace.1]) rfl (by simp) rfl (fun c => ?_)
        (fun _ c => by simp [weight]) fun _ => rfl
      have hsum := underWay_set s c u none s.sh
      rw [hl, hplace.2 c] at hsum
      simp only [weight, Nat.add_zero] at hsum
      rw [hsum]
      exact h.active c
    exact hinv

/-! ## Destroy and the operations -/

/-- Inside an operation. -/
def Place.operating : Place P → Bool
  | .enter _ => true
  | .inside _ _ => true
  | _ => false

/-- The steps that an operation has left once its effect is visible. -/
def Place.stepsLeft : Place P → Nat
  | .inside _ l => Destroy.stepsLeft l
  | _ => 0

/-- Destroy alone, for so many steps. -/
def destroyAlone (cfg : Cfg) (t : Fin N) (ch : Waiter.Choice (Fin N)) :
    Nat → Shared P (Fin N) × Place P → Shared P (Fin N) × Place P
  | 0, x => x
  | n + 1, x =>
    match step cfg t ch x.1 x.2 with
    | some y => destroyAlone cfg t ch n y
    | none => x

/-- Once destroy has been called an operation can always go on, and comes nearer to its end. -/
theorem operation_moves (h : Inv s) (hc : Called s) {l : Place P} (hl : s.loc u = some l)
    (hop : l.operating = true) :
    (∃ ch r, step cfg u ch s.sh l = some r) ∧
      ∀ ch sh' l', step cfg u ch s.sh l = some (sh', l') → l'.stepsLeft < l.stepsLeft := by
  rcases h.settled hc hl with hd | rfl | hset
  · cases l with
    | enter | inside => cases hd
    | _ => cases hop
  · cases hop
  cases l with
  | inside c l =>
    by_cases hd : ∃ a, l = .done a
    · obtain ⟨a, rfl⟩ := hd
      refine ⟨⟨⟨∅, false, false, false⟩, _, rfl⟩, fun ch sh' l' hs => ?_⟩
      cases hs
      simp [Place.stepsLeft, stepsLeft]
    · have hstep : ∀ ch, step cfg u ch s.sh (.inside c l) = (CQueue.step cfg u ch s.sh.queue l).map
          fun x => ({ s.sh with queue := x.1 }, .inside c x.2) := by
        intro ch
        cases l with
        | done a => exact absurd ⟨a, rfl⟩ hd
        | _ => rfl
      refine ⟨?_, fun ch sh' l' hs => ?_⟩
      · obtain ⟨ch, r, hr⟩ := visible_moves cfg u s.sh.queue hset
          fun a ha => hd ⟨a, ha⟩
        exact ⟨ch, _, by rw [hstep, hr]; rfl⟩
      · rw [hstep] at hs
        obtain ⟨⟨q, l₁⟩, hq, heq⟩ := Option.map_eq_some_iff.1 hs
        cases heq
        exact (visible_step hset hq).2
  | enter => cases hset
  | _ => cases hop

/-- With no operation under way destroy frees the queue in at most three steps of its own. -/
theorem destroy_returns (h : Inv s) (hN : N ≤ Waiter.intMax) {l : Place P}
    (hl : l.destroying = true)
    (hnone : ∀ v l', s.loc v = some l' → l'.operating = false) (ch : Waiter.Choice (Fin N)) :
    (destroyAlone cfg u ch 3 (s.sh, l)).2 = .destroyed := by
  have hzero : ∀ c, s.sh.active c = 0 := by
    intro c
    refine (h.active_eq_zero hN c).2 (Finset.sum_eq_zero fun v _ => ?_)
    cases hv : s.loc v with
    | none => rfl
    | some l' =>
      have := hnone v l' hv
      cases l' with
      | inside => cases this
      | _ => rfl
  cases l with
  | readPushing | readPopping => simp [destroyAlone, step, hzero]
  | free => simp [destroyAlone, step]
  | _ => cases hl

/-- **A lifted queue may be destroyed as early as the original.** The threads are at most as many as
an `int` counts. Nothing touches the queue once it is freed. When destroy has been called, an
operation under way goes on whatever the others do, and has a bounded number of steps left; when
there is none, destroy returns. -/
theorem destroy_after_last_use (hN : N ≤ Waiter.intMax) (cfg : Cfg)
    {h : List (Event (Fin N) (Call P) (Option (Ans P)))}
    {s : Config (Fin N) (Shared P (Fin N)) (Place P)} (hr : (machine P (Fin N) cfg).Runs h s) :
    (s.sh.freed = true → ∀ u l, s.loc u = some l → l.touches = false) ∧
    (Called s → ∀ u l, s.loc u = some l → l.operating = true →
      (∃ ch r, step cfg u ch s.sh l = some r) ∧
        ∀ ch sh' l', step cfg u ch s.sh l = some (sh', l') → l'.stepsLeft < l.stepsLeft) ∧
    ∀ u l, s.loc u = some l → l.destroying = true →
      (∀ v l', s.loc v = some l' → l'.operating = false) →
        ∀ ch, (destroyAlone cfg u ch 3 (s.sh, l)).2 = .destroyed := by
  have hinv : Inv s := hr.invariant inv_initial fun hi _ _ hn => inv_next hN hi hn
  refine ⟨fun hf u l hl => ?_, fun hc u l hl hop => operation_moves hinv hc hl hop,
    fun u l _ hd hnone ch => destroy_returns hinv hN hd hnone ch⟩
  obtain ⟨hzero, hnone⟩ := hinv.freed hf
  have hd := hnone u
  rw [hl] at hd
  rcases hinv.settled (.inl hf) hl with hd' | rfl | hset
  · simp [hd'] at hd
  · rfl
  · cases l with
    | inside c l' => exact absurd hl (not_inside (hzero _))
    | left a => rfl
    | _ => cases hset

/-! ## An example run -/

instance (s : Config (Fin N) (Shared P (Fin N)) (Place P)) : Decidable (Called s) :=
  inferInstanceAs (Decidable (s.sh.freed = true ∨ ∃ u, (s.loc u).any Place.destroying = true))

instance (s : Config (Fin N) (Shared P (Fin N)) (Place P)) (t : Fin N) :
    ∀ c, Decidable ((machine P (Fin N) cfg).may s t c)
  | .op _ => inferInstanceAs (Decidable (¬ Called s))
  | .destroy =>
    inferInstanceAs (Decidable (¬ Called s ∧ ∀ u, (s.loc u).all Place.settled = true))

/-- Thread 0 has pushed and not yet woken anybody when thread 1 calls destroy; thread 1 waits for
it. -/
def destroySchedule : List (Action (Fin 2) (Call Nat) (Waiter.Choice (Fin 2))) :=
  let go : Waiter.Choice (Fin 2) := ⟨∅, true, false, false⟩
  [.call 0 (.op (.pushWait 7)), .step 0 go, .step 0 go, .step 0 go, .call 1 .destroy, .step 1 go,
    .step 0 go, .step 0 go, .step 0 go, .step 1 go, .step 0 go, .step 1 go, .step 1 go, .step 1 go]

theorem destroy_after_last_use_example :
    ∃ h s, (machine Nat (Fin 2) ⟨1, 1, .exactly⟩).Runs h s ∧ s.sh.freed = true ∧
      ∀ u l, s.loc u = some l → l.touches = false := by
  have hex : ∃ x, (machine Nat (Fin 2) ⟨1, 1, .exactly⟩).exec destroySchedule []
      (machine Nat (Fin 2) ⟨1, 1, .exactly⟩).initial = some x ∧ x.2.sh.freed = true :=
    ⟨_, rfl, rfl⟩
  obtain ⟨⟨h, s⟩, he, hf⟩ := hex
  have hr := Machine.runs_of_exec (.init trivial) destroySchedule he
  exact ⟨h, s, hr, hf, (destroy_after_last_use (by decide) _ hr).1 hf⟩

end Wtc.CQueue.Destroy
