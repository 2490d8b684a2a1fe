import Wtc.Nested.Order

/-!
# When operations begin

A run told by every operation that begins, and not by its leaves alone: an operation with regions
begins before what it holds. A switch may enter an operation at a place inside it, and then the
operation itself does not begin.

`comesBefore` is the order of a pre-order walk. What begins before another operation comes before it
in that order, or a loop is around both (`begins_ordered`).
-/

namespace Wtc.Nested

variable {O : Type} {R : Op O → Sub → List Sub → Outcome → Prop}

/-- The beginning of an operation that is entered at a place. -/
def mark : Sub → List Sub
  | none => [none]
  | some _ => []

inductive Op.Begins : Op O → Sub → List Sub → Outcome → Prop where
  | leaf {o rs} (e : Outcome) : e = .fin ∨ e = .thrown ∨ e = .cut →
      Op.Begins (.mk (.leaf o) rs) none [none] e
  | ret {rs} : Op.Begins (.mk .ret rs) none [none] .ret
  | brk {rs} : Op.Begins (.mk .brk rs) none [none] .brk
  | cont {rs} : Op.Begins (.mk .cont rs) none [none] .cont
  | held {kind rs s p t e} : kind = .scope ∨ kind = .case → Into s 0 p →
      RegionRuns Op.Begins p ((Op.mk kind rs).region 0) t e →
      Op.Begins (.mk kind rs) s (mark s ++ t.map (within 0)) e
  | arm {kind rs s k p t e} : kind = .ite ∨ kind = .ternary → k < 2 → Into s k p →
      RegionRuns Op.Begins p ((Op.mk kind rs).region k) t e →
      Op.Begins (.mk kind rs) s (mark s ++ t.map (within k)) e
  | body {rs s p t} : Into s 0 p → RegionRuns Op.Begins p ((Op.mk .cleanup rs).region 0) t .cut →
      Op.Begins (.mk .cleanup rs) s (mark s ++ t.map (within 0)) .cut
  | cleanup {rs s p t e t' e'} : Into s 0 p →
      RegionRuns Op.Begins p ((Op.mk .cleanup rs).region 0) t e → e ≠ .cut →
      RegionRuns Op.Begins none ((Op.mk .cleanup rs).region 1) t' e' →
      Op.Begins (.mk .cleanup rs) s (mark s ++ (t.map (within 0) ++ t'.map (within 1)))
        (e.cleaned e')
  | attempt {rs t e} : RegionRuns Op.Begins none ((Op.mk .attempt rs).region 0) t e →
      Op.Begins (.mk .attempt rs) none (mark none ++ t.map (within 0)) e
  | handle {rs t k t' e} : RegionRuns Op.Begins none ((Op.mk .attempt rs).region 0) t .thrown →
      0 < k → RegionRuns Op.Begins none ((Op.mk .attempt rs).region k) t' e →
      Op.Begins (.mk .attempt rs) none (mark none ++ (t.map (within 0) ++ t'.map (within k))) e
  | skip {rs} : Op.Begins (.mk .switch rs) none [none] .fin
  | switch {rs p o t e} : find ((Op.mk .switch rs).region 0) p = some o → o.kind = .case →
      RegionRuns Op.Begins (some p) ((Op.mk .switch rs).region 0) t e →
      Op.Begins (.mk .switch rs) none (mark none ++ t.map (within 0)) e.switched
  | loop {l rs t e} : LoopRuns Op.Begins l.first none (.mk (.loop l) rs) t e →
      Op.Begins (.mk (.loop l) rs) none (mark none ++ t) e
  | entered {l rs k p t e} : LoopRuns Op.Begins k (some p) (.mk (.loop l) rs) t e →
      Op.Begins (.mk (.loop l) rs) (some (k, p)) t e

/-- The operations that begin in a run of a body from its start. -/
def Begins (r : Region O) (t : List Pos) (e : Outcome) : Prop := RegionRuns Op.Begins none r t e

/-! ## One operation -/

section Op

variable {o : Op O} {s : Sub} {t : List Sub} {e : Outcome}

/-- What a run of an operation does in its regions: after the operation itself, if that begins. -/
def Op.RunsRegions (o : Op O) (t : List Sub) : Prop :=
  none ∉ t ∧ (o.isLoop = false →
    t.Pairwise (fun x y => ∀ k p k' p', x = within k p → y = within k' p' → k ≤ k') ∧
    ∀ k, inRegion k t = [] ∨ ∃ p e, RegionRuns Op.Begins p (o.region k) (inRegion k t) e)

theorem Op.runsRegions_nil (o : Op O) : o.RunsRegions [] :=
  ⟨nofun, fun _ => ⟨.nil, fun _ => .inl rfl⟩⟩

theorem Op.runsRegions_one {p : Option Pos} {k : Nat} {t : List Pos}
    (h : RegionRuns Op.Begins p (o.region k) t e) : o.RunsRegions (t.map (within k)) := by
  refine ⟨by simp [within], fun _ => ⟨?_, fun k' => ?_⟩⟩
  · rw [List.pairwise_map]
    refine List.pairwise_of_forall fun x y k₁ p₁ k₂ p₂ h₁ h₂ => ?_
    cases h₁
    cases h₂
    exact Nat.le_refl k
  · by_cases hk : k = k'
    · subst hk
      exact .inr ⟨p, e, by simpa using h⟩
    · exact .inl (by simp [hk])

theorem Op.runsRegions_two {p p' : Option Pos} {k k' : Nat} {t t' : List Pos} {e' : Outcome}
    (hlt : k < k') (h : RegionRuns Op.Begins p (o.region k) t e)
    (h' : RegionRuns Op.Begins p' (o.region k') t' e') :
    o.RunsRegions (t.map (within k) ++ t'.map (within k')) := by
  obtain ⟨hnone, hone⟩ := Op.runsRegions_one h
  obtain ⟨hnone', hone'⟩ := Op.runsRegions_one h'
  refine ⟨by simp [hnone, hnone'], fun hloop => ⟨?_, fun j => ?_⟩⟩
  · refine List.pairwise_append.2 ⟨(hone hloop).1, (hone' hloop).1, ?_⟩
    intro x hx y hy k₁ p₁ k₂ p₂ h₁ h₂
    obtain ⟨q, -, rfl⟩ := List.mem_map.1 hx
    obtain ⟨q', -, rfl⟩ := List.mem_map.1 hy
    cases h₁
    cases h₂
    exact Nat.le_of_lt hlt
  · by_cases hj : k = j
    · subst hj
      have hne : k' ≠ k := by omega
      exact .inr ⟨p, e, by simpa [hne] using h⟩
    · simpa [hj] using (hone' hloop).2 j

/-- An operation begins before what it holds. -/
theorem Op.Begins.shape (h : o.Begins s t e) :
    ∃ t', o.RunsRegions t' ∧ (t = t' ∨ t = none :: t') := by
  have hmark : ∀ {s : Sub} {t' : List Sub}, o.RunsRegions t' →
      ∃ t'', o.RunsRegions t'' ∧ (mark s ++ t' = t'' ∨ mark s ++ t' = none :: t'') := by
    intro s t' h
    rcases s with _ | x
    · exact ⟨t', h, .inr rfl⟩
    · exact ⟨t', h, .inl rfl⟩
  cases h with
  | leaf | ret | brk | cont | skip => exact ⟨[], Op.runsRegions_nil _, .inr rfl⟩
  | held _ _ h | arm _ _ _ h | body _ h | attempt h | switch _ _ h =>
    exact hmark (Op.runsRegions_one h)
  | cleanup _ h _ h' => exact hmark (Op.runsRegions_two (by decide) h h')
  | handle h hk h' => exact hmark (Op.runsRegions_two hk h h')
  | loop h => exact hmark ⟨h.none_notMem, fun hloop => by cases hloop⟩
  | entered h => exact ⟨_, ⟨h.none_notMem, fun hloop => by cases hloop⟩, .inl rfl⟩

/-- Of two places in an operation that begin one after the other, the later is in a region of it. If
the earlier is too, then a loop repeats them, or it is in an earlier region, or both are in one run
of a region. -/
theorem Op.Begins.pair (h : o.Begins s t e) {x y : Sub} (hsub : [x, y].Sublist t) :
    ∃ k' q, y = within k' q ∧ (x = none ∨ ∃ k p, x = within k p ∧ (o.isLoop = true ∨ k < k' ∨
      k = k' ∧ ∃ p' t' e', RegionRuns Op.Begins p' (o.region k) t' e' ∧ [p, q].Sublist t')) := by
  obtain ⟨t', ⟨hnone, hregions⟩, ht⟩ := h.shape
  -- either the operation itself begins first, or both are in its regions
  have hcases : (x = none ∧ y ∈ t') ∨ [x, y].Sublist t' := by
    rcases ht with rfl | rfl
    · exact .inr hsub
    · cases hsub with
      | cons _ h => exact .inr h
      | cons_cons _ h => exact .inl ⟨rfl, h.subset (by simp)⟩
  have hy : y ∈ t' := hcases.elim (·.2) fun h => h.subset (by simp)
  rcases y with _ | ⟨k', q⟩
  · exact absurd hy hnone
  refine ⟨k', q, rfl, ?_⟩
  rcases hcases with ⟨rfl, -⟩ | hsub
  · exact .inl rfl
  rcases x with _ | ⟨k, p⟩
  · exact .inl rfl
  refine .inr ⟨k, p, rfl, ?_⟩
  by_cases hloop : o.isLoop = true
  · exact .inl hloop
  obtain ⟨hsorted, hpart⟩ := hregions (by simpa using hloop)
  have hle : k ≤ k' := List.rel_of_pairwise_cons (hsorted.sublist hsub) (List.mem_singleton_self _)
    k p k' q rfl rfl
  rcases Nat.lt_or_eq_of_le hle with hlt | rfl
  · exact .inr (.inl hlt)
  have hin : [p, q].Sublist (inRegion k t') := by
    simpa [inRegion, Sub.region?] using hsub.filterMap (Sub.region? k)
  rcases hpart k with hnil | ⟨p', e', hrun⟩
  · rw [hnil] at hin
    cases hin
  · exact .inr (.inr ⟨rfl, p', _, e', hrun, hin⟩)

end Op

/-! ## The order of the walk -/

/-- The order of the blocks, and in a block that of the operations. -/
def Loc.lt (l l' : Loc) : Prop := l.block < l'.block ∨ l.block = l'.block ∧ l.idx < l'.idx

/-- The one place comes before the other in a pre-order walk. -/
def comesBefore : Pos → Pos → Prop
  | .here l, .here l' => l.lt l'
  | .here l, .inside l' _ _ => l.lt l' ∨ l = l'
  | .inside l _ _, .here l' => l.lt l'
  | .inside l k p, .inside l' k' q =>
    l.lt l' ∨ l = l' ∧ (k < k' ∨ k = k' ∧ comesBefore p q)

theorem Loc.lt_irrefl (l : Loc) : ¬ l.lt l := by
  unfold Loc.lt
  omega

theorem Loc.lt_asymm {l l' : Loc} (h : l.lt l') : ¬ l'.lt l := by
  unfold Loc.lt at *
  omega

theorem comesBefore_asymm {p q : Pos} (h : comesBefore p q) : ¬ comesBefore q p := by
  induction p generalizing q with
  | here l =>
    cases q with
    | here l' => exact Loc.lt_asymm h
    | inside l' k' q =>
      intro h'
      rcases h with h | rfl
      · exact Loc.lt_asymm h h'
      · exact Loc.lt_irrefl _ h'
  | inside l k p ih =>
    cases q with
    | here l' =>
      rintro (h' | rfl)
      · exact Loc.lt_asymm h h'
      · exact Loc.lt_irrefl _ h
    | inside l' k' q =>
      rintro (h' | ⟨rfl, h'⟩)
      · rcases h with h | ⟨rfl, -⟩
        · exact Loc.lt_asymm h h'
        · exact Loc.lt_irrefl _ h'
      · rcases h with h | ⟨-, h⟩
        · exact Loc.lt_irrefl _ h
        · rcases h with h | ⟨rfl, h⟩ <;> rcases h' with h' | ⟨hk, h'⟩
          · omega
          · omega
          · omega
          · exact ih h h'

theorem comesBefore_of_under {p q : Pos} (h : under p q = true) : comesBefore p q := by
  induction p generalizing q with
  | here l =>
    cases q with
    | here l' => cases h
    | inside l' k' q => exact .inr (by simpa [under] using h)
  | inside l k p ih =>
    cases q with
    | here l' => cases h
    | inside l' k' q =>
      simp only [under, Bool.and_eq_true, decide_eq_true_eq] at h
      exact .inr ⟨h.1.1, .inr ⟨h.1.2, ih h.2⟩⟩

/-! ### The walk is in that order -/

/-- The order of the places in one operation. -/
def Sub.comesBefore : Sub → Sub → Prop
  | none, some _ => True
  | some (k, p), some (k', q) => k < k' ∨ k = k' ∧ Nested.comesBefore p q
  | _, none => False

theorem comesBefore_of_loc {p q : Pos} (h : p.loc.lt q.loc) : comesBefore p q := by
  cases p <;> cases q
  · exact h
  · exact .inl h
  · exact h
  · exact .inl h

/-- A place in the operation at a place of a block. -/
def Pos.at (l : Loc) : Sub → Pos
  | none => .here l
  | some (k, p) => .inside l k p

@[simp] theorem loc_at (l : Loc) (s : Sub) : (Pos.at l s).loc = l := by
  rcases s with _ | ⟨k, p⟩ <;> rfl

theorem walkOps_cons (b i : Nat) (o : Op O) (ops : List (Op O)) :
    walkOps b i (o :: ops) =
      (o.walk.map fun x => (Pos.at ⟨b, i⟩ x.1, x.2)) ++ walkOps b (i + 1) ops := by
  rw [walkOps]
  congr 1
  refine List.map_congr_left fun x _ => ?_
  rcases x with ⟨_ | ⟨k, p⟩, kind⟩ <;> rfl

theorem loc_of_mem_walkOps (b i : Nat) (ops : List (Op O)) {x : Pos × Kind O}
    (h : x ∈ walkOps b i ops) : x.1.loc.block = b ∧ i ≤ x.1.loc.idx := by
  induction ops generalizing i with
  | nil => simp [walkOps] at h
  | cons o ops ih =>
    rw [walkOps_cons, List.mem_append] at h
    rcases h with h | h
    · obtain ⟨y, -, rfl⟩ := List.mem_map.1 h
      simp
    · have := ih (i + 1) h
      exact ⟨this.1, by omega⟩

theorem loc_of_mem_walkBlocks (b : Nat) (bs : List (Block O)) {x : Pos × Kind O}
    (h : x ∈ walkBlocks b bs) : b ≤ x.1.loc.block := by
  induction bs generalizing b with
  | nil => simp [walkBlocks] at h
  | cons ops bs ih =>
    rw [walkBlocks, List.mem_append] at h
    rcases h with h | h
    · exact Nat.le_of_eq (loc_of_mem_walkOps b 0 ops h).1.symm
    · have := ih (b + 1) h
      omega

theorem le_of_mem_walkRegions (k : Nat) (rs : List (Region O)) {x : (Nat × Pos) × Kind O}
    (h : x ∈ walkRegions k rs) : k ≤ x.1.1 := by
  induction rs generalizing k with
  | nil => simp [walkRegions] at h
  | cons r rs ih =>
    rw [walkRegions, List.mem_append] at h
    rcases h with h | h
    · obtain ⟨y, -, rfl⟩ := List.mem_map.1 h
      exact Nat.le_refl k
    · have := ih (k + 1) h
      omega

theorem comesBefore_at {l : Loc} {s s' : Sub} (h : s.comesBefore s') :
    comesBefore (Pos.at l s) (Pos.at l s') := by
  rcases s with _ | ⟨k, p⟩ <;> rcases s' with _ | ⟨k', p'⟩
  · cases h
  · exact .inr rfl
  · cases h
  · exact .inr ⟨rfl, h⟩

mutual
theorem Op.walk_sorted (o : Op O) : o.walk.Pairwise fun x y => Sub.comesBefore x.1 y.1 :=
  match o with
  | .mk kind rs => by
    rw [Op.walk, List.pairwise_cons, List.pairwise_map]
    refine ⟨fun x hx => ?_, walkRegions_sorted 0 rs⟩
    obtain ⟨y, -, rfl⟩ := List.mem_map.1 hx
    trivial
termination_by structural o

theorem walkRegions_sorted (k : Nat) (rs : List (Region O)) :
    (walkRegions k rs).Pairwise fun x y => Sub.comesBefore (some x.1) (some y.1) :=
  match rs with
  | [] => .nil
  | r :: rs => by
    rw [walkRegions]
    refine List.pairwise_append.2 ⟨?_, walkRegions_sorted (k + 1) rs, ?_⟩
    · rw [List.pairwise_map]
      exact (walkBlocks_sorted 0 r).imp fun h => .inr ⟨rfl, h⟩
    · intro x hx y hy
      obtain ⟨x, -, rfl⟩ := List.mem_map.1 hx
      exact .inl (le_of_mem_walkRegions (k + 1) rs hy)
termination_by structural rs

theorem walkBlocks_sorted (b : Nat) (bs : List (Block O)) :
    (walkBlocks b bs).Pairwise fun x y => comesBefore x.1 y.1 :=
  match bs with
  | [] => .nil
  | ops :: bs => by
    rw [walkBlocks]
    refine List.pairwise_append.2 ⟨walkOps_sorted b 0 ops, walkBlocks_sorted (b + 1) bs, ?_⟩
    intro x hx y hy
    have hx' := (loc_of_mem_walkOps b 0 ops hx).1
    have hy' := loc_of_mem_walkBlocks (b + 1) bs hy
    exact comesBefore_of_loc (.inl (by omega))
termination_by structural bs

theorem walkOps_sorted (b i : Nat) (ops : List (Op O)) :
    (walkOps b i ops).Pairwise fun x y => comesBefore x.1 y.1 :=
  match ops with
  | [] => .nil
  | o :: ops => by
    rw [walkOps_cons]
    refine List.pairwise_append.2 ⟨?_, walkOps_sorted b (i + 1) ops, ?_⟩
    · rw [List.pairwise_map]
      exact o.walk_sorted.imp comesBefore_at
    · intro x hx y hy
      obtain ⟨x, -, rfl⟩ := List.mem_map.1 hx
      obtain ⟨hb, hi⟩ := loc_of_mem_walkOps b (i + 1) ops hy
      exact comesBefore_of_loc (.inr ⟨by simp [hb], by simp only [loc_at]; omega⟩)
termination_by structural ops
end

/-- A walk is in the order of the places. -/
theorem walk_sorted (r : Region O) : (walk r).Pairwise fun x y => comesBefore x.1 y.1 :=
  walkBlocks_sorted 0 r

/-! ### Every operation is in the walk -/

theorem mem_walkOps (b i : Nat) {ops : List (Op O)} {j : Nat} {o : Op O} (h : ops[j]? = some o)
    {s : Sub} {k : Kind O} (hs : (s, k) ∈ o.walk) : (Pos.at ⟨b, i + j⟩ s, k) ∈ walkOps b i ops := by
  induction ops generalizing i j with
  | nil => simp at h
  | cons o' ops ih =>
    rw [walkOps_cons, List.mem_append]
    cases j with
    | zero =>
      cases h
      exact .inl (List.mem_map.2 ⟨(s, k), hs, rfl⟩)
    | succ j =>
      have hrest := ih (i + 1) h
      rw [Nat.add_assoc, Nat.add_comm 1] at hrest
      exact .inr hrest

theorem mem_walkBlocks (b : Nat) {bs : List (Block O)} {j : Nat} {ops : Block O}
    (h : bs[j]? = some ops) {x : Pos × Kind O} (hx : x ∈ walkOps (b + j) 0 ops) :
    x ∈ walkBlocks b bs := by
  induction bs generalizing b j with
  | nil => simp at h
  | cons ops' bs ih =>
    rw [walkBlocks, List.mem_append]
    cases j with
    | zero =>
      cases h
      exact .inl hx
    | succ j =>
      rw [Nat.add_comm j, ← Nat.add_assoc] at hx
      exact .inr (ih (b + 1) h hx)

theorem mem_walkRegions (first : Nat) {rs : List (Region O)} {j : Nat} {r : Region O}
    (h : rs[j]? = some r) {p : Pos} {k : Kind O} (hp : (p, k) ∈ walk r) :
    ((first + j, p), k) ∈ walkRegions first rs := by
  induction rs generalizing first j with
  | nil => simp at h
  | cons r' rs ih =>
    rw [walkRegions, List.mem_append]
    cases j with
    | zero =>
      cases h
      exact .inl (List.mem_map.2 ⟨(p, k), hp, rfl⟩)
    | succ j =>
      have hrest := ih (first + 1) h
      rw [Nat.add_assoc, Nat.add_comm 1] at hrest
      exact .inr hrest

/-- The operations in an operation of the region are in its walk. -/
theorem mem_walk_of_opAt {r : Region O} {l : Loc} {o : Op O} (h : opAt r l = some o) {s : Sub}
    {k : Kind O} (hs : (s, k) ∈ o.walk) : (Pos.at l s, k) ∈ walk r := by
  obtain ⟨ops, hops, ho⟩ := Option.bind_eq_some_iff.1 h
  have hmem := mem_walkOps l.block 0 ho hs
  rw [Nat.zero_add] at hmem
  have hblock := mem_walkBlocks 0 hops (x := (Pos.at l s, k))
  rw [Nat.zero_add] at hblock
  exact hblock hmem

theorem Op.mem_walk {o : Op O} {j : Nat} {p : Pos} {k : Kind O}
    (h : (p, k) ∈ Nested.walk (o.region j)) : (within j p, k) ∈ o.walk := by
  cases o with
  | mk kind rs =>
    rw [Op.walk]
    cases hr : rs[j]? with
    | none =>
      have hnil : (Op.mk kind rs).region j = [] := by simp [Op.region, Op.regions, hr]
      rw [hnil] at h
      simp [Nested.walk, walkBlocks] at h
    | some r =>
      have hj : (Op.mk kind rs).region j = r := by simp [Op.region, Op.regions, hr]
      rw [hj] at h
      have hmem := mem_walkRegions 0 hr h
      rw [Nat.zero_add] at hmem
      exact List.mem_cons_of_mem _ (List.mem_map.2 ⟨_, hmem, rfl⟩)

/-- A walk comes to every operation. -/
theorem mem_walk {r : Region O} {p : Pos} {o : Op O} (h : find r p = some o) :
    (p, o.kind) ∈ walk r := by
  induction p generalizing r with
  | here l =>
    refine mem_walk_of_opAt h (s := none) ?_
    cases o
    exact List.mem_cons_self
  | inside l k p ih =>
    obtain ⟨o', ho', hp⟩ := Option.bind_eq_some_iff.1 h
    exact mem_walk_of_opAt ho' (s := within k p) (Op.mem_walk (ih hp))

/-! ## A run is in that order, loops apart -/

/-- A loop is around both places. -/
def loopAround (r : Region O) : Pos → Pos → Prop
  | .inside l k p, .inside l' k' q =>
    l = l' ∧ ∃ o, opAt r l = some o ∧
      (o.isLoop = true ∨ k = k' ∧ loopAround (o.region k) p q)
  | _, _ => False

theorem exists_loop {r : Region O} {p q : Pos} (h : loopAround r p q) :
    ∃ p' o, find r p' = some o ∧ o.isLoop = true ∧ under p' p = true ∧ under p' q = true := by
  induction p generalizing r q with
  | here l => cases h
  | inside l k p ih =>
    cases q with
    | here l' => cases h
    | inside l' k' q =>
      obtain ⟨rfl, o, ho, hloop | ⟨rfl, h⟩⟩ := h
      · exact ⟨.here l, o, ho, hloop, by simp [under], by simp [under]⟩
      · obtain ⟨p', o', hfind, hloop, hp, hq⟩ := ih h
        exact ⟨.inside l k p', o', by simp [find, ho, hfind], hloop, by simp [under, hp],
          by simp [under, hq]⟩

/-- Of two operations that begin one after the other, the earlier comes before, or both are in one
operation: a loop, or one run of a region of it. -/
theorem RegionRuns.begins_pair {p : Option Pos} {r : Region O} {t : List Pos} {e : Outcome}
    {q q' : Pos} (h : RegionRuns Op.Begins p r t e) (hsub : [q, q'].Sublist t) :
    comesBefore q q' ∨ ∃ l o k x k' y, q = .inside l k x ∧ q' = .inside l k' y ∧
      opAt r l = some o ∧ (o.isLoop = true ∨ k = k' ∧
        ∃ p' t' e', RegionRuns Op.Begins p' (o.region k) t' e' ∧ [x, y].Sublist t') := by
  obtain ⟨j, x, rfl⟩ := h.sub (hsub.subset (by simp) : q ∈ t)
  obtain ⟨j', y, rfl⟩ := h.sub (hsub.subset (by simp) : q' ∈ t)
  have hle := List.rel_of_pairwise_cons (h.sorted.sublist hsub) (List.mem_singleton_self _)
  simp only [loc_of] at hle
  rcases Nat.lt_or_eq_of_le hle with hlt | rfl
  · exact .inl (comesBefore_of_loc (.inr (by simpa using hlt)))
  -- both are in one operation
  obtain ⟨o, s, e', hget, hrun, -⟩ := h.op (hsub.subset (by simp) : .of j x ∈ t)
  have hin : [x, y].Sublist (inOp j t) := by
    simpa [inOp] using hsub.filterMap (Pos.sub? j)
  obtain ⟨k', y', rfl, rfl | ⟨k, x', rfl, hcase⟩⟩ := hrun.pair hin
  · exact .inl (.inr rfl)
  rcases hcase with hloop | hlt | hregion
  · exact .inr ⟨_, o, k, x', k', y', rfl, rfl, hget, .inl hloop⟩
  · exact .inl (.inr ⟨rfl, .inl hlt⟩)
  · exact .inr ⟨_, o, k, x', k', y', rfl, rfl, hget, .inr hregion⟩

/-- What begins earlier comes before, or a loop repeats both. -/
theorem begins_ordered {p : Option Pos} {r : Region O} {t : List Pos} {e : Outcome} {q q' : Pos}
    (h : RegionRuns Op.Begins p r t e) (hsub : [q, q'].Sublist t) :
    comesBefore q q' ∨ loopAround r q q' := by
  induction q generalizing p r t e q' with
  | here l =>
    rcases h.begins_pair hsub with hlt | ⟨_, _, _, _, _, _, hq, -⟩
    · exact .inl hlt
    · cases hq
  | inside l k q ih =>
    rcases h.begins_pair hsub with hlt | ⟨_, o, _, _, k', y, hq, rfl, hget, hcase⟩
    · exact .inl hlt
    cases hq
    rcases hcase with hloop | ⟨rfl, p', t', e', hregion, hboth⟩
    · exact .inr ⟨rfl, o, hget, .inl hloop⟩
    · rcases ih hregion hboth with hlt | hloop
      · exact .inl (.inr ⟨rfl, .inr ⟨rfl, hlt⟩⟩)
      · exact .inr ⟨rfl, o, hget, .inr ⟨rfl, hloop⟩⟩

end Wtc.Nested
