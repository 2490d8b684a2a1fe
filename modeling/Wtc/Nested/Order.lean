import Wtc.Nested.Once

/-!
# The order of a run

Operations of a block run in the order of the block. So a place that lies in an earlier operation of
a block than another, with no loop around the block, is never run after it (`precedes_sound`), and
the operations that a block begins with have run once a later one does (`RegionRuns.passed`).
-/

namespace Wtc.Nested

variable {O : Type} {R : Op O → Sub → List Sub → Outcome → Prop}

/-- The operation of the region that the place is in. -/
def Pos.loc : Pos → Loc
  | .here l => l
  | .inside l _ _ => l

@[simp] theorem loc_of (i : Nat) (s : Sub) : (Pos.of i s).loc = ⟨0, i⟩ := by
  rcases s with _ | ⟨k, p⟩ <;> rfl

/-- Earlier in a block. -/
def Loc.before (l l' : Loc) : Bool := l.block = l'.block && l.idx < l'.idx

/-- The one place is earlier in a block than the other, and no loop is around the block. -/
def precedes (r : Region O) : Pos → Pos → Bool
  | .inside l k p, .inside l' k' q =>
    if l = l' then
      k = k' && (opAt r l).any fun o => !o.isLoop && precedes (o.region k) p q
    else l.before l'
  | p, q => p.loc.before q.loc

/-- The place is in a region of the operation at the other. -/
def under : Pos → Pos → Bool
  | .here l, .inside l' _ _ => l = l'
  | .inside l k p, .inside l' k' q => l = l' && k = k' && under p q
  | _, _ => false

theorem under_loc {p q : Pos} (h : under p q = true) : q.loc = p.loc := by
  cases p <;> cases q <;> simp_all [under, Pos.loc]

variable {r : Region O} {e : Outcome} {t : List Pos}

/-- What precedes an operation precedes what is in it. -/
theorem precedes_of_under {p q q' : Pos} (h : precedes r p q = true) (hu : under q q' = true) :
    precedes r p q' = true := by
  induction p generalizing r q q' with
  | here l =>
    cases q' with
    | here l' => cases q <;> simp [under] at hu
    | inside l' k' q' =>
      have hl : l' = q.loc := under_loc hu
      subst hl
      cases q <;> simpa [precedes, Pos.loc] using h
  | inside l k p ih =>
    cases q with
    | here l' =>
      cases q' with
      | here l'' => cases hu
      | inside l'' k'' q' =>
        simp only [under, decide_eq_true_eq] at hu
        subst hu
        have hne : l ≠ l' := by
          rintro rfl
          simp [precedes, Pos.loc, Loc.before] at h
        simpa [precedes, Pos.loc, hne] using h
    | inside l' k' q =>
      cases q' with
      | here l'' => cases hu
      | inside l'' k'' q' =>
        simp only [under, Bool.and_eq_true, decide_eq_true_eq] at hu
        obtain ⟨⟨rfl, rfl⟩, hu⟩ := hu
        unfold precedes at h ⊢
        split at h
        · next hl =>
          subst hl
          simp only [Bool.and_eq_true, decide_eq_true_eq, Option.any_eq_true,
            Bool.not_eq_eq_eq_not, Bool.not_true, if_true] at h ⊢
          obtain ⟨hk, o, ho, hloop, h⟩ := h
          exact ⟨hk, o, ho, hloop, ih h hu⟩
        · next hl => rwa [if_neg hl]

/-! ## Later operations do not run before earlier ones -/

theorem BlockRuns.sorted {i : Nat} {b : Block O} {s : Sub} (h : BlockRuns R i b s t e) :
    t.Pairwise fun p q => p.loc.idx ≤ q.loc.idx := by
  have hmap : ∀ (i : Nat) (t : List Sub),
      (t.map (Pos.of i)).Pairwise fun p q => p.loc.idx ≤ q.loc.idx := by
    intro i t
    rw [List.pairwise_map]
    exact List.pairwise_of_forall (by simp)
  induction h with
  | cut | done => exact .nil
  | @next i b s o t t' e hget hrun hrest ih =>
    refine List.pairwise_append.2 ⟨hmap i t, ih, ?_⟩
    intro p hp q hq
    obtain ⟨s', -, rfl⟩ := List.mem_map.1 hp
    obtain ⟨j, s'', hj, rfl⟩ := hrest.of_mem q hq
    simp only [loc_of]
    omega
  | leave => exact hmap _ _

theorem RegionRuns.sorted {p : Option Pos} (h : RegionRuns R p r t e) :
    t.Pairwise fun p q => p.loc.idx ≤ q.loc.idx := by
  obtain ⟨i, s, -, hb⟩ := h.block
  exact hb.sorted

theorem RegionRuns.not_before {p : Option Pos} (h : RegionRuns R p r t e) {q q' : Pos}
    (hl : q.loc.before q'.loc = true) : ¬ [q', q].Sublist t := by
  intro hsub
  have hle := List.rel_of_pairwise_cons (h.sorted.sublist hsub) (List.mem_singleton_self q)
  simp only [Loc.before, Bool.and_eq_true, decide_eq_true_eq] at hl
  omega

/-- Nothing that precedes a place is run after it. -/
theorem precedes_sound {p : Option Pos} {q q' : Pos} (h : RegionRuns Op.Runs p r t e)
    (hq : precedes r q q' = true) : ¬ [q', q].Sublist t := by
  induction q generalizing p r t e q' with
  | here l => exact h.not_before (by cases q' <;> simpa [precedes] using hq)
  | inside l k q ih =>
    cases q' with
    | here l' => exact h.not_before (by simpa [precedes] using hq)
    | inside l' k' q' =>
      unfold precedes at hq
      split at hq
      · next hl =>
        subst hl
        simp only [Bool.and_eq_true, decide_eq_true_eq, Option.any_eq_true,
          Bool.not_eq_eq_eq_not, Bool.not_true] at hq
        obtain ⟨rfl, o, ho, hloop, hq⟩ := hq
        intro hsub
        obtain ⟨j, rfl, hj⟩ := h.inside_of_mem (hsub.subset (by simp) : .inside l k q ∈ t)
        obtain ⟨o', s', e', hget, hrun, -⟩ := h.op hj
        cases ho.symm.trans hget
        -- the two in the part of the run that lies in the region
        have hpart : [q', q].Sublist (inRegion k (inOp j t)) := by
          have hin := (hsub.filterMap (Pos.sub? j)).filterMap (Sub.region? k)
          simpa [Pos.sub?, Sub.region?, inOp, inRegion] using hin
        rcases hrun.part hloop k with hnil | ⟨p', e'', hregion⟩
        · rw [hnil] at hpart
          cases hpart
        · exact ih hregion hq hpart
      · exact h.not_before hq

/-! ## What has run -/

theorem BlockRuns.passed {i : Nat} {b : Block O} {s : Sub} (h : BlockRuns R i b s t e)
    {i' j : Nat} (hi : i ≤ i') (hj : i' < j) (hne : inOp j t ≠ []) :
    ∃ o s', b[i']? = some o ∧ R o s' (inOp i' t) .fin := by
  induction h with
  | cut | done => exact absurd rfl hne
  | @next i b s o t t' e hget hrun hrest ih =>
    by_cases hii : i = i'
    · subst hii
      refine ⟨o, s, hget, ?_⟩
      simpa [hrest.inOp_of_lt (Nat.lt_succ_self i)] using hrun
    · have hij : i ≠ j := by omega
      obtain ⟨o', s', hget', hrun'⟩ := ih (by omega) (by simpa [hij] using hne)
      exact ⟨o', s', hget', by simpa [hii] using hrun'⟩
  | @leave i b s o t e hget hrun hfin =>
    have hij : i ≠ j := by omega
    simp [hij] at hne

/-- A leaf that a body begins with has run once a later operation of the body does. -/
theorem Runs.passed (h : Runs r t e) {i j : Nat} {s : Sub} {x : O} {rs : List (Region O)}
    (hget : opAt r ⟨0, i⟩ = some (.mk (.leaf x) rs)) (hij : i < j) (hj : .of j s ∈ t) :
    .of i none ∈ t := by
  cases h with
  | start hb =>
    have hne : inOp j t ≠ [] := List.ne_nil_of_mem (mem_inOp.2 hj)
    obtain ⟨o, s', ho, hrun⟩ := hb.passed (Nat.zero_le i) hij hne
    rw [opAt_front, ho] at hget
    cases hget
    refine mem_inOp.1 ?_
    generalize inOp i t = ti at hrun
    cases hrun with
    | leaf => exact List.mem_singleton_self _
    | held hk | arm hk => rcases hk with hk | hk <;> cases hk

end Wtc.Nested
