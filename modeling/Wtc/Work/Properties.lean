import Wtc.Work.Model

/-!
# A bounded work estimate is an upper bound

What an estimator remembers is sound if each bounded entry bounds the runs of its function
(`Sound`). An estimate covers a property of units if from a sound memory it comes to a sound memory,
and the units it answers have the property (`Covers`); that goes through `>>=`, so each part of the
estimator has one lemma. The recursion check, the depth bound and what is not remembered for it only
make for fewer bounded answers.

* `iteration_bounded` — what a bounded answer says about one iteration of a loop
-/

namespace Wtc.Work

open Wtc.Nested WorkEstimate

/-- The runs of a function's body. -/
def Module.body (M : Module) (d f : Nat) : Bool → Beh :=
  runsRegion (M.enter d) (fun _ => false) (M f).body

def Sound (M : Module) (s : WorkEstimator) : Prop :=
  ∀ f u, s.memo f = some (bounded u) → ∀ d, Bounds (M.body d f) u

def Covers (M : Module) (x : Estimate) (P : ℚ≥0 → Prop) : Prop :=
  ∀ s, Sound M s → Sound M (x s).2 ∧ ∀ u, (x s).1 = bounded u → P u

variable {M : Module} {P Q : ℚ≥0 → Prop}

theorem Covers.bind {x : Estimate} {f : WorkEstimate → Estimate} (hx : Covers M x P)
    (hf : ∀ e, (∀ u, e = bounded u → P u) → Covers M (f e) Q) : Covers M (x >>= f) Q :=
  fun s hs => hf _ (hx s hs).2 _ (hx s hs).1

theorem Covers.pure {e : WorkEstimate} (h : ∀ u, e = bounded u → P u) :
    Covers M (Pure.pure e) P := fun _ hs => ⟨hs, h⟩

theorem Covers.unbounded {op : Nat} {why : String} :
    Covers M (Pure.pure (WorkEstimate.unbounded op why)) P := Covers.pure nofun

theorem Covers.mono {x : Estimate} (hx : Covers M x P) (h : ∀ u, P u → Q u) : Covers M x Q :=
  fun s hs => ⟨(hx s hs).1, fun u hu => h u ((hx s hs).2 u hu)⟩

theorem Covers.get {f : WorkEstimator → Estimate} (h : ∀ s, Covers M (f s) P) :
    Covers M (MonadState.get >>= f) P := fun s => h s s

theorem Covers.modify {f : WorkEstimator → WorkEstimator} {x : Estimate}
    (hf : ∀ s, (f s).memo = s.memo) (hx : Covers M x P) :
    Covers M (modify f >>= fun _ => x) P := by
  intro s hs
  refine hx (f s) ?_
  unfold Sound
  rwa [hf]

/-! ## Bounded answers -/

theorem add_eq_bounded {a b : WorkEstimate} {u : ℚ≥0} (h : a.add b = bounded u) :
    ∃ v w, a = bounded v ∧ b = bounded w ∧ u = v + w := by
  cases a <;> cases b <;> cases h
  exact ⟨_, _, rfl, rfl, rfl⟩

theorem larger_eq_bounded {a b : WorkEstimate} {u : ℚ≥0} (h : a.larger b = bounded u) :
    ∃ v w, a = bounded v ∧ b = bounded w ∧ v ≤ u ∧ w ≤ u := by
  cases a with
  | unbounded => cases h
  | bounded v =>
    cases b with
    | unbounded => cases h
    | bounded w =>
      obtain rfl : (if w ≤ v then v else w) = u := by simpa [larger] using h
      refine ⟨v, w, rfl, rfl, ?_⟩
      split
      · next hle => exact ⟨le_rfl, hle⟩
      · next hlt => exact ⟨(not_le.1 hlt).le, le_rfl⟩

theorem times_eq_bounded {a : WorkEstimate} {n : Nat} {u : ℚ≥0} (h : a.times n = bounded u) :
    ∃ v, a = bounded v ∧ u = v * n := by
  cases a <;> cases h
  exact ⟨_, rfl, rfl⟩

/-! ## Operations -/

section Kinds

-- the regions of an operation: what is estimated of each, and its runs
variable {g : Region → Estimate} {R : Nat → Region → Bool → Beh} {rs : List Region}

theorem sum_covers (hrs : ∀ r ∈ rs, Covers M (g r) fun u => ∀ d, Bounds (R d r) u) (v : ℚ≥0) :
    Covers M (sum (rs.map g) (bounded v)) fun u =>
      ∃ us, (∀ d, List.Forall₂ Bounds (rs.map (R d)) us) ∧ u = v + us.sum := by
  induction rs generalizing v with
  | nil =>
    refine Covers.pure fun u hu => ⟨[], fun d => .nil, ?_⟩
    cases hu
    simp
  | cons r rs ih =>
    refine (hrs r List.mem_cons_self).bind fun e he => ?_
    cases e with
    | unbounded => exact Covers.unbounded
    | bounded w =>
      refine (ih (fun r hr => hrs r (List.mem_cons_of_mem _ hr)) (v + w)).mono ?_
      rintro u ⟨us, hus, rfl⟩
      exact ⟨w :: us, fun d => .cons (he w rfl d) (hus d), by rw [List.sum_cons, add_assoc]⟩

theorem iteration_covers {cond body : Region} (step : Option Region)
    (h : ∀ r ∈ cond :: body :: step.toList, Covers M (g r) fun u => ∀ d, Bounds (R d r) u) :
    Covers M (iteration (g cond) (g body) (step.map g)) fun u => ∃ uc ub us, u = uc + ub + us ∧
      (∀ d, Bounds (R d cond) uc) ∧ (∀ d, Bounds (R d body) ub) ∧
        ∀ d r, r ∈ step → Bounds (R d r) us := by
  refine (h cond (by simp)).bind fun e he => (h body (by simp)).bind fun e' he' => ?_
  cases step with
  | none =>
    refine Covers.pure fun u hu => ?_
    obtain ⟨uc, ub, rfl, rfl, rfl⟩ := add_eq_bounded hu
    exact ⟨uc, ub, 0, (add_zero _).symm, he uc rfl, he' ub rfl, nofun⟩
  | some step =>
    refine (h step (by simp)).bind fun e'' he'' => Covers.pure fun u hu => ?_
    obtain ⟨v, us, hv, rfl, rfl⟩ := add_eq_bounded hu
    obtain ⟨uc, ub, rfl, rfl, rfl⟩ := add_eq_bounded hv
    refine ⟨uc, ub, us, rfl, he uc rfl, he' ub rfl, ?_⟩
    rintro d _ ⟨⟩
    exact he'' us rfl d

/-- The phases of a loop after its body. -/
theorem phase_bounds {F : Region → Bool → Beh} {cond body : Region} {step : Option Region}
    {us : ℚ≥0} (h : ∀ r, r ∈ step → Bounds (F r) us) (k : Nat) (hk : 2 ≤ k) :
    Bounds (phase ((cond :: body :: step.toList).map F) k) us := by
  obtain ⟨k, rfl⟩ := Nat.exists_eq_add_of_le' hk
  cases step with
  | none => exact fun _ => Beh.nothing_atMost
  | some step =>
    cases k with
    | zero => exact h step rfl
    | succ k => exact fun _ => Beh.nothing_atMost

theorem for_covers {cond body step : Region} {trips op : Nat} {call : Call → Estimate}
    (h : ∀ r ∈ [cond, body, step], Covers M (g r) fun u => ∀ d, Bounds (R d r) u) :
    Covers M ((Kind.loop .forLoop (some trips)).estimate op call ([cond, body, step].map g))
      fun u => ∀ d, Bounds ((Kind.loop .forLoop (some trips)).runs (M.enter d)
        ([cond, body, step].map (R d))) u := by
  refine (h cond (by simp)).bind fun e he => (iteration_covers (some step) h).bind
    fun e' he' => Covers.pure ?_
  rintro u hu d j c e ⟨n, hn, hc⟩
  obtain ⟨v, w, rfl, hw, rfl⟩ := add_eq_bounded hu
  obtain ⟨w, rfl, rfl⟩ := times_eq_bounded hw
  obtain ⟨uc, ub, us, rfl, h0, h1, h2⟩ := he' w rfl
  -- the condition is estimated twice, and costs at most the lesser
  have hcond : Bounds (R d cond) (min v uc) :=
    fun j c e hc => le_min (he v rfl d j c e hc) (h0 d j c e hc)
  have hspent : c ≤ min v uc + (min v uc + ub + us) * n := by
    have := hc.le hcond (h1 d) (phase_bounds (h2 d))
    cases j with
    | false => exact this
    | true => exact this.trans le_add_self
  have hle : (n : ℚ≥0) ≤ trips := by exact_mod_cast hn trips rfl
  refine hspent.trans ?_
  gcongr
  · exact min_le_left v uc
  · exact min_le_right v uc

/-- An operation, if calls and regions are estimated right. -/
theorem Kind.covers {op : Nat} {call : Call → Estimate}
    (hcall : ∀ c, Covers M (call c) fun u => ∀ d, (M.enter d c).AtMost u)
    (hrs : ∀ r ∈ rs, Covers M (g r) fun u => ∀ d, Bounds (R d r) u) (k : Kind) :
    Covers M (k.estimate op call (rs.map g))
      fun u => ∀ d, Bounds (k.runs (M.enter d) (rs.map (R d))) u := by
  cases k with
  | loop k trips =>
    rcases rs with _ | ⟨cond, _ | ⟨body, _ | ⟨step, _ | _⟩⟩⟩ <;> cases k <;> cases trips <;>
      first | exact Covers.unbounded | exact for_covers hrs
  | branch =>
    rcases rs with _ | ⟨a, _ | ⟨b, _ | _⟩⟩
    case cons.cons.nil =>
      refine (hrs a (by simp)).bind fun e he => (hrs b (by simp)).bind fun e' he' => Covers.pure ?_
      intro u hu d j
      obtain ⟨v, w, rfl, rfl, hv, hw⟩ := larger_eq_bounded hu
      exact ((he v rfl d j).mono hv).sup ((he' w rfl d j).mono hw)
    all_goals exact (sum_covers hrs 0).mono fun u _ d j => Beh.AtMost.bot
  | call c =>
    refine (hcall c).mono fun u hu d j => ?_
    cases j with
    | false => exact hu d
    | true => exact Beh.AtMost.bot
  | wtc => exact Covers.unbounded
  | libc len =>
    simp only [Kind.estimate]
    cases hlen : len.filter (· < 2 ^ 40) with
    | none => exact Covers.unbounded
    | some n =>
      refine Covers.pure fun u hu d j c e hc => ?_
      cases hu
      cases j with
      | false => exact (hc n (Option.filter_eq_some_iff.1 hlen).1).le
      | true => exact hc.elim
  | copy bytes =>
    refine Covers.pure fun u hu d j c e hc => ?_
    cases hu
    cases j with
    | false => exact hc.le
    | true => exact hc.elim
  | held h =>
    refine (sum_covers hrs 0).mono ?_
    rintro u ⟨us, hus, rfl⟩ d j
    rw [zero_add]
    exact Held.atMost (hus d) h j
  | plain own ends =>
    refine (sum_covers hrs own).mono ?_
    rintro u ⟨us, hus, rfl⟩ d j c e hc
    cases j with
    | false => exact hc.1.trans_le le_self_add
    | true => exact hc.elim

end Kinds

section Regions

variable {call : Nat → Call → Estimate} {skip : Nat → Bool}
  (hcall : ∀ op c, Covers M (call op c) fun u => ∀ d, (M.enter d c).AtMost u)

theorem estimateRegions_eq_map (parent : Nat) (rs : List Region) :
    estimateRegions call skip parent rs = rs.map (estimateRegion call skip parent) := by
  induction rs with
  | nil => rfl
  | cons r rs ih => rw [estimateRegions, ih, List.map_cons]

theorem runsRegions_eq_map (enter : Call → Beh) (rs : List Region) :
    runsRegions enter skip rs = rs.map (runsRegion enter skip) := by
  induction rs with
  | nil => rfl
  | cons r rs ih => rw [runsRegions, ih, List.map_cons]

/-- A block is bounded by its first operation and the rest. -/
theorem runsBlock_bounds {enter : Call → Beh} {o : Op} {ops : List Op} {v w : ℚ≥0}
    (ho : ∀ j, (if skip o.id then (o.runs enter skip j).free else o.runs enter skip j).AtMost v)
    (hops : Bounds (runsBlock enter skip ops) w) :
    Bounds (runsBlock enter skip (o :: ops)) (v + w) := by
  intro j
  refine (Beh.cut_atMost.sup ((ho j).andThen (hops false))).sup ?_
  split
  · exact (hops true).mono le_add_self
  · exact Beh.AtMost.bot

include hcall

set_option linter.unusedSectionVars false in
mutual

theorem Op.covers : ∀ o : Op, Covers M (o.estimate call skip)
    fun u => ∀ d, Bounds (o.runs (M.enter d) skip) u
  | .mk id kind rs => by
    simp only [Op.estimate, Op.runs, estimateRegions_eq_map, runsRegions_eq_map]
    exact kind.covers (hcall id) (regions_covers id rs)

theorem regions_covers (parent : Nat) : ∀ rs : List Region, ∀ r ∈ rs,
    Covers M (estimateRegion call skip parent r)
      fun u => ∀ d, Bounds (runsRegion (M.enter d) skip r) u
  | [] => List.forall_mem_nil _
  | r :: rs => List.forall_mem_cons.2 ⟨region_covers parent r, regions_covers parent rs⟩

theorem region_covers (parent : Nat) : ∀ r : Region, Covers M (estimateRegion call skip parent r)
    fun u => ∀ d, Bounds (runsRegion (M.enter d) skip r) u
  | [] => Covers.pure fun _ _ _ _ => Beh.nothing_atMost
  | [ops] => by
    refine (block_covers ops 0).mono ?_
    rintro u ⟨v, rfl, hv⟩
    rwa [zero_add]
  | _ :: _ :: _ => Covers.unbounded

theorem block_covers : ∀ (ops : List Op) (w : ℚ≥0),
    Covers M (estimateBlock call skip ops (bounded w))
      fun u => ∃ v, u = w + v ∧ ∀ d, Bounds (runsBlock (M.enter d) skip ops) v
  | [], w => by
    refine Covers.pure fun u hu => ⟨0, by cases hu; simp, fun d j => ?_⟩
    cases j with
    | false => exact Beh.nothing_atMost.sup Beh.cut_atMost
    | true => exact Beh.AtMost.bot
  | o :: ops, w => by
    rw [estimateBlock]
    split
    · next hskip =>
      refine (block_covers ops w).mono ?_
      rintro u ⟨v, rfl, hv⟩
      refine ⟨v, rfl, fun d => ?_⟩
      rw [← zero_add v]
      exact runsBlock_bounds (fun j => by rw [if_pos hskip]; exact Beh.free_atMost) (hv d)
    · next hskip =>
      refine (Op.covers o).bind fun e he => ?_
      cases e with
      | unbounded => exact Covers.unbounded
      | bounded v =>
        refine (block_covers ops (w + v)).mono ?_
        rintro u ⟨v', rfl, hv'⟩
        refine ⟨v + v', add_assoc _ _ _, fun d => runsBlock_bounds (fun j => ?_) (hv' d)⟩
        rw [if_neg hskip]
        exact he v rfl d j

end

omit hcall in
theorem functionWith_run (f : Nat) (s : WorkEstimator) : functionWith M call f s =
    match s.memo f with
    | some e => (e, s)
    | none =>
      let r := estimateRegion call (fun _ => false) (M f).op (M f).body
        { s with stack := f :: s.stack, metDepth := false }
      (r.1, { r.2 with
        stack := r.2.stack.tail
        memo := if r.2.metDepth then r.2.memo else Function.update r.2.memo f (some r.1)
        metDepth := s.metDepth || r.2.metDepth }) := by
  simp only [functionWith, bind, StateT.bind, get, getThe, MonadStateOf.get, StateT.get, pure]
  cases s.memo f <;> rfl

theorem functionWith_covers (f : Nat) :
    Covers M (functionWith M call f) fun u => ∀ d, Bounds (M.body d f) u := by
  intro s hs
  rw [functionWith_run]
  cases hm : s.memo f with
  | some e => exact ⟨hs, fun u hu => hs f u (hm.trans (congrArg some hu))⟩
  | none =>
    obtain ⟨hs', hu⟩ := region_covers hcall (M f).op (M f).body
      { s with stack := f :: s.stack, metDepth := false } hs
    refine ⟨fun f' u hf => ?_, hu⟩
    -- what is remembered is old, or the estimate of this body
    change (if _ then _ else Function.update _ _ _) f' = _ at hf
    split at hf
    · exact hs' f' u hf
    · by_cases hff : f' = f
      · subst hff
        rw [Function.update_self] at hf
        exact hu u (Option.some.inj hf)
      · rw [Function.update_of_ne hff] at hf
        exact hs' f' u hf

end Regions

/-! ## Calls -/

theorem target_covers {function : Option (Nat → Estimate)} {op : Nat} {c : Call}
    (hf : ∀ fn ∈ function, ∀ f, Covers M (fn f) fun u => ∀ d, Bounds (M.body d f) u) (t : Nat) :
    Covers M (target M function op c t) fun u => ∀ d, (M.entered (M.enter d) c t).AtMost u := by
  unfold target Module.entered
  split
  · exact Covers.pure fun u hu d v e hv => (hv op u hu).le
  · refine Covers.get fun s => ?_
    split
    · exact Covers.unbounded
    · cases function with
      | none => exact Covers.modify (fun _ => rfl) Covers.unbounded
      | some fn =>
        refine (hf fn rfl t).bind fun e he => ?_
        cases e with
        | unbounded => exact Covers.unbounded
        | bounded v =>
          refine Covers.pure fun u hu d c e ⟨e', hc, _⟩ => ?_
          cases hu
          exact he v rfl d false c e' hc

theorem worst_covers {estimate : Nat → Estimate} {P : Nat → ℚ≥0 → Prop}
    (hP : ∀ t u v, u ≤ v → P t u → P t v) (h : ∀ t, Covers M (estimate t) (P t)) (ts : List Nat)
    (w : ℚ≥0) : Covers M (worst estimate ts (bounded w)) fun u => w ≤ u ∧ ∀ t ∈ ts, P t u := by
  induction ts generalizing w with
  | nil =>
    refine Covers.pure fun u hu => ?_
    cases hu
    exact ⟨le_rfl, nofun⟩
  | cons t ts ih =>
    refine (h t).bind fun e he => ?_
    cases hl : (bounded w).larger e with
    | unbounded op why => exact Covers.unbounded
    | bounded v =>
      obtain ⟨_, u, ⟨⟩, rfl, hwv, huv⟩ := larger_eq_bounded hl
      refine (ih v).mono fun x hx => ⟨hwv.trans hx.1, List.forall_mem_cons.2 ⟨?_, hx.2⟩⟩
      exact hP t u x (huv.trans hx.1) (he u rfl)

theorem callWith_covers {function : Option (Nat → Estimate)}
    (hf : ∀ fn ∈ function, ∀ f, Covers M (fn f) fun u => ∀ d, Bounds (M.body d f) u) (op : Nat)
    (c : Call) : Covers M (callWith M function op c) fun u => ∀ d, (M.enter d c).AtMost u := by
  unfold callWith
  split
  · exact Covers.unbounded
  · next hts =>
    refine (worst_covers (fun t u v huv h d => (h d).mono huv) (target_covers hf) _ 0).bind
      fun e he => Covers.pure fun u hu d => ?_
    obtain ⟨v, _, rfl, ⟨⟩, rfl⟩ := add_eq_bounded hu
    cases d with
    | zero => exact Beh.cut_atMost
    | succ d =>
      rintro u e (h | ⟨t, ht, w, rfl, hw⟩)
      · exact absurd h hts
      · gcongr
        exact (he v rfl).2 t ht d w e hw

theorem call_covers (room op : Nat) (c : Call) :
    Covers M (call M room op c) fun u => ∀ d, (M.enter d c).AtMost u := by
  induction room generalizing op c with
  | zero => exact callWith_covers (by rintro _ ⟨⟩) op c
  | succ room ih =>
    refine callWith_covers ?_ op c
    rintro _ ⟨⟩ f
    exact functionWith_covers ih f

/-! ## Queries -/

theorem answer_sound {s : WorkEstimator} (hs : Sound M s) (q : Query) :
    Sound M (M.answer q s).2 := by
  cases q with
  | op o skip => exact (Op.covers (call_covers kMaxDepth) o s hs).1
  | region parent r skip => exact (region_covers (call_covers kMaxDepth) parent r s hs).1
  | iteration loop cond body step skip =>
    exact (iteration_covers step
      (regions_covers (call_covers kMaxDepth) loop (cond :: body :: step.toList)) s hs).1
  | function f => exact (functionWith_covers (call_covers (kMaxDepth - 1)) f s hs).1

theorem after_sound (qs : List Query) : Sound M (M.after qs) := by
  unfold Module.after
  have hinit : Sound M .init := nofun
  generalize WorkEstimator.init = s at hinit
  induction qs generalizing s with
  | nil => exact hinit
  | cons q qs ih => exact ih _ (answer_sound hinit q)

/--
**A bounded work estimate is an upper bound.**

Whatever the estimator was asked before: if it answers for one iteration of a loop, without the
operations to leave out, a bound, then no run of one iteration, calls followed to any depth, costs
more, counting the operations that are not left out.
-/
theorem iteration_bounded (M : Module) (qs : List Query) (loop : Nat) (k : LoopKind)
    (cond body : Region) (step : Option Region) (skip : Nat → Bool) {u : ℚ≥0}
    (h : (M.answer (.iteration loop cond body step skip) (M.after qs)).1 = .bounded u) (d : Nat) :
    (M.iterates d k cond body step skip).AtMost u := by
  obtain ⟨uc, ub, us, rfl, hc, hb, hs⟩ := (iteration_covers step
    (regions_covers (call_covers kMaxDepth) loop (cond :: body :: step.toList)) _
    (after_sound qs)).2 u h
  unfold Module.iterates
  rw [runsRegions_eq_map]
  exact round_atMost (hc d) (hb d) (phase_bounds (hs d) 2 le_rfl) k

/-- So many operations of one unit. -/
def units (n : Nat) : List Op := List.replicate n (.mk 0 (.plain 1 .fin) [])

/-- `mix`, which has a loop of 200 rounds. -/
def mix : Func where
  op := 0
  symName := "mix"
  nameOf := "mix"
  body := [units 2 ++ [.mk 0 (.loop .forLoop (some 200)) [[units 2], [units 5], [units 3]]] ++
    units 3]
  interposable := false
  touchesOnlyItsArguments := false
  allocates := false

/-- The body of a loop: a critical section, the operations numbered 1, and then a call of `mix`. -/
def callsMix : Region :=
  [[.mk 1 .wtc [], .mk 1 (.plain 1 .fin) [], .mk 1 .wtc []] ++ units 1 ++
    [.mk 0 (.call ⟨some 0, [], []⟩) []] ++ units 1]

/-- An iteration of the loop outside its critical section, when `mix` has been estimated. -/
theorem calls_mix_bounded :
    let M : Module := fun _ => mix
    (M.answer (.iteration 0 [units 3] callsMix (some [units 3]) (· == 1))
      (M.after [.function 0])).1 = .bounded 2016 ∧
    ∀ d, (M.iterates d .forLoop [units 3] callsMix (some [units 3]) (· == 1)).AtMost 2016 :=
  have h := by decide +kernel
  ⟨h, iteration_bounded _ _ 0 .forLoop _ _ _ _ h⟩

end Wtc.Work
