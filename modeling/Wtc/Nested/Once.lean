import Mathlib.Tactic.Common
import Wtc.Nested.Code

/-!
# What one run of nested code can reach

The leaves of a run that lie in one operation of a block are those of one run of that operation
(`BlockRuns.part`), and unless the operation is a loop, those in one of its regions are those of one
run of the region (`Op.Runs.part`). So a leaf with no loop around it is run at most once
(`count_le_one`). Operations later in a block are reached only past an earlier one that ran to its
end, which a block that ends in a jump does not (`BlockRuns.ne_fin`).
-/

namespace Wtc.Nested

variable {O : Type} {R : Op O → Sub → List Sub → Outcome → Prop}

/-! ## The part of a run that lies in one place -/

/-- The place in the operation of that index of the first block, if it is in it. -/
def Pos.sub? (i : Nat) : Pos → Option Sub
  | .here l => if l = ⟨0, i⟩ then some none else none
  | .inside l k p => if l = ⟨0, i⟩ then some (some (k, p)) else none

/-- The place in that region, if it is in it. -/
def Sub.region? (k : Nat) : Sub → Option Pos
  | none => none
  | some (k', p) => if k' = k then some p else none

theorem sub?_eq_some {i : Nat} {p : Pos} {s : Sub} : p.sub? i = some s ↔ p = .of i s := by
  cases p with
  | here l =>
    rcases s with _ | ⟨k, q⟩ <;> simp [Pos.sub?, Pos.of]
  | inside l k q =>
    rcases s with _ | ⟨k', q'⟩ <;> simp [Pos.sub?, Pos.of]

theorem region?_eq_some {k : Nat} {s : Sub} {p : Pos} :
    Sub.region? k s = some p ↔ s = within k p := by
  rcases s with _ | ⟨k', q⟩ <;> simp [Sub.region?, within]

@[simp] theorem sub?_of (i j : Nat) (s : Sub) :
    (Pos.of j s).sub? i = if j = i then some s else none := by
  rcases s with _ | ⟨k, p⟩ <;> simp [Pos.of, Pos.sub?]

@[simp] theorem region?_within (k k' : Nat) (p : Pos) :
    Sub.region? k (within k' p) = if k' = k then some p else none := rfl

theorem of_injective {i j : Nat} {s s' : Sub} (h : Pos.of i s = .of j s') : i = j ∧ s = s' := by
  have hs : (Pos.of j s').sub? i = some s := sub?_eq_some.2 h.symm
  rw [sub?_of] at hs
  split at hs
  · next hij => exact ⟨hij.symm, (Option.some.inj hs).symm⟩
  · cases hs

def inOp (j : Nat) (t : List Pos) : List Sub := t.filterMap (Pos.sub? j)

def inRegion (k : Nat) (t : List Sub) : List Pos := t.filterMap (Sub.region? k)

theorem mem_inOp {j : Nat} {t : List Pos} {s : Sub} : s ∈ inOp j t ↔ .of j s ∈ t := by
  simp only [inOp, List.mem_filterMap, sub?_eq_some]
  constructor
  · rintro ⟨p, hp, rfl⟩
    exact hp
  · exact fun h => ⟨_, h, rfl⟩

theorem mem_inRegion {k : Nat} {t : List Sub} {p : Pos} : p ∈ inRegion k t ↔ within k p ∈ t := by
  simp only [inRegion, List.mem_filterMap, region?_eq_some]
  constructor
  · rintro ⟨s, hs, rfl⟩
    exact hs
  · exact fun h => ⟨_, h, rfl⟩

/-- Those that a partial function takes to one value are as many as the value's one origin. -/
theorem count_filterMap_of {α β : Type} [BEq α] [LawfulBEq α] [BEq β] [LawfulBEq β]
    {f : α → Option β} {a : α} {b : β} (h : ∀ x, f x = some b ↔ x = a) (t : List α) :
    (t.filterMap f).count b = t.count a := by
  induction t with
  | nil => rfl
  | cons x t ih =>
    by_cases hx : x = a
    · have hb := (h x).2 hx
      subst hx
      simp [hb, ih]
    · have hb : f x ≠ some b := fun hb => hx ((h x).1 hb)
      rw [List.count_cons_of_ne hx, ← ih]
      cases hfx : f x with
      | none => simp [hfx]
      | some y =>
        have hy : y ≠ b := fun hy => hb (hy ▸ hfx)
        simp [hfx, List.count_cons_of_ne hy]

theorem count_inOp (j : Nat) (s : Sub) (t : List Pos) : (inOp j t).count s = t.count (.of j s) :=
  count_filterMap_of (fun _ => sub?_eq_some) t

theorem count_inRegion (k : Nat) (p : Pos) (t : List Sub) :
    (inRegion k t).count p = t.count (within k p) :=
  count_filterMap_of (fun _ => region?_eq_some) t

@[simp] theorem inOp_map (i j : Nat) (t : List Sub) :
    inOp j (t.map (Pos.of i)) = if i = j then t else [] := by
  unfold inOp
  rw [List.filterMap_map]
  split
  · next h =>
    subst h
    exact (List.filterMap_congr fun s _ => by simp).trans (List.filterMap_some ..)
  · next h =>
    refine List.filterMap_eq_nil_iff.2 fun s _ => ?_
    simp [h]

@[simp] theorem inRegion_map (k k' : Nat) (t : List Pos) :
    inRegion k (t.map (within k')) = if k' = k then t else [] := by
  unfold inRegion
  rw [List.filterMap_map]
  split
  · next h =>
    subst h
    exact (List.filterMap_congr fun s _ => by simp).trans (List.filterMap_some ..)
  · next h =>
    refine List.filterMap_eq_nil_iff.2 fun s _ => ?_
    simp [h]

@[simp] theorem inOp_append (j : Nat) (t t' : List Pos) :
    inOp j (t ++ t') = inOp j t ++ inOp j t' := List.filterMap_append ..

@[simp] theorem inRegion_append (k : Nat) (t t' : List Sub) :
    inRegion k (t ++ t') = inRegion k t ++ inRegion k t' := List.filterMap_append ..

/-! ## The operations of a walk -/

/-- A place holds an operation of the kind. -/
def KindAt (r : Region O) (p : Pos) (k : Kind O) : Prop := ∃ o, find r p = some o ∧ o.kind = k

mutual
theorem kind_of_walk (o : Op O) {s : Sub} {k : Kind O} (h : (s, k) ∈ o.walk) :
    (s = none ∧ o.kind = k) ∨ ∃ j p, s = within j p ∧ KindAt (o.region j) p k :=
  match o with
  | .mk kind rs => by
    rw [Op.walk, List.mem_cons, List.mem_map] at h
    rcases h with h | ⟨⟨⟨j, p⟩, k'⟩, hx, h⟩
    · cases h
      exact .inl ⟨rfl, rfl⟩
    · cases h
      exact .inr ⟨j, p, rfl, kindAt_of_walkRegions rs [] hx⟩
termination_by structural o

/-- The regions after the first ones. -/
theorem kindAt_of_walkRegions (rs first : List (Region O)) {j : Nat} {p : Pos} {k : Kind O}
    (h : ((j, p), k) ∈ walkRegions first.length rs) : KindAt ((first ++ rs)[j]?.getD []) p k :=
  match rs with
  | [] => by simp [walkRegions] at h
  | r :: rs => by
    rw [walkRegions, List.mem_append, List.mem_map] at h
    rcases h with ⟨⟨p', k'⟩, hx, h⟩ | h
    · cases h
      simpa using kindAt_of_walkBlocks r [] hx
    · have hrest := kindAt_of_walkRegions rs (first ++ [r]) (by simpa using h)
      simpa using hrest
termination_by structural rs

theorem kindAt_of_walkBlocks (bs first : List (Block O)) {p : Pos} {k : Kind O}
    (h : (p, k) ∈ walkBlocks first.length bs) : KindAt (first ++ bs) p k :=
  match bs with
  | [] => by simp [walkBlocks] at h
  | b :: bs => by
    rw [walkBlocks, List.mem_append] at h
    rcases h with h | h
    · exact kindAt_of_walkOps b [] (by simp) h
    · have hrest := kindAt_of_walkBlocks bs (first ++ [b]) (by simpa using h)
      simpa using hrest
termination_by structural bs

theorem kindAt_of_walkOps (ops first : List (Op O)) {r : Region O} {b : Nat} {p : Pos} {k : Kind O}
    (hr : r[b]? = some (first ++ ops)) (h : (p, k) ∈ walkOps b first.length ops) : KindAt r p k :=
  match ops with
  | [] => by simp [walkOps] at h
  | o :: ops => by
    rw [walkOps, List.mem_append, List.mem_map] at h
    rcases h with ⟨⟨s, k'⟩, hx, h⟩ | h
    · have hget : opAt r ⟨b, first.length⟩ = some o := by simp [opAt, hr]
      rcases kind_of_walk o hx with ⟨rfl, hk⟩ | ⟨j, q, rfl, o', hfind, hk⟩
      · cases h
        exact ⟨o, hget, hk⟩
      · cases h
        exact ⟨o', by simp [find, hget, hfind], hk⟩
    · exact kindAt_of_walkOps ops (first ++ [o]) (by simpa using hr) (by simpa using h)
termination_by structural ops
end

theorem kindAt_of_walk {r : Region O} {p : Pos} {k : Kind O} (h : (p, k) ∈ walk r) : KindAt r p k :=
  kindAt_of_walkBlocks r [] h

/-! ## A block -/

section Block

variable {i j : Nat} {b : Block O} {s : Sub} {t : List Pos} {e : Outcome}

/-- A run of a block stays at the operations from where it starts on. -/
theorem BlockRuns.of_mem (h : BlockRuns R i b s t e) :
    ∀ p ∈ t, ∃ j s', i ≤ j ∧ p = .of j s' := by
  induction h with
  | cut | done => exact nofun
  | next hget hrun hrest ih =>
    intro p hp
    rcases List.mem_append.1 hp with hp | hp
    · obtain ⟨s', -, rfl⟩ := List.mem_map.1 hp
      exact ⟨_, s', Nat.le_refl _, rfl⟩
    · obtain ⟨j, s', hj, rfl⟩ := ih p hp
      exact ⟨j, s', by omega, rfl⟩
  | leave hget hrun hne =>
    intro p hp
    obtain ⟨s', -, rfl⟩ := List.mem_map.1 hp
    exact ⟨_, s', Nat.le_refl _, rfl⟩

theorem BlockRuns.inOp_of_lt (h : BlockRuns R i b s t e) (hj : j < i) : inOp j t = [] := by
  refine List.eq_nil_iff_forall_not_mem.2 fun s' hs' => ?_
  obtain ⟨j', s'', hle, heq⟩ := h.of_mem _ (mem_inOp.1 hs')
  have := (of_injective heq).1
  omega

/-- What a run of a block does in one operation is one run of it, and a run that goes on after it
has run the operation to its end. -/
theorem BlockRuns.part (h : BlockRuns R i b s t e) (j : Nat) :
    inOp j t = [] ∨ ∃ o s' e', b[j]? = some o ∧ R o s' (inOp j t) e' ∧
      (e' ≠ .fin → ∀ j', j < j' → inOp j' t = []) := by
  induction h with
  | cut | done => exact .inl rfl
  | @next i b s o t t' e hget hrun hrest ih =>
    rcases Nat.lt_trichotomy j i with hlt | rfl | hlt
    · left
      have hne : i ≠ j := by omega
      simp [hrest.inOp_of_lt (Nat.lt_succ_of_lt hlt), hne]
    · right
      refine ⟨o, s, .fin, hget, ?_, fun hne => absurd rfl hne⟩
      simpa [hrest.inOp_of_lt (Nat.lt_succ_self j)] using hrun
    · have hne : ∀ j', i < j' → inOp j' (t.map (Pos.of i) ++ t') = inOp j' t' := by
        intro j' hj'
        simp [Nat.ne_of_lt hj']
      rw [hne j hlt]
      rcases ih with hnil | ⟨o', s', e', hget', hrun', hlast⟩
      · exact .inl hnil
      · refine .inr ⟨o', s', e', hget', hrun', fun he j' hj' => ?_⟩
        rw [hne j' (by omega)]
        exact hlast he j' hj'
  | @leave i b s o t e hget hrun hne =>
    by_cases hj : i = j
    · subst hj
      right
      refine ⟨o, s, e, hget, by simpa using hrun, fun _ j' hj' => ?_⟩
      simp [Nat.ne_of_lt hj']
    · left
      simp [hj]

end Block

theorem RegionRuns.block {p : Option Pos} {r : Region O} {t : List Pos} {e : Outcome}
    (h : RegionRuns R p r t e) :
    ∃ i s, (i = 0 ∨ i < (front r).length) ∧ BlockRuns R i (front r) s t e := by
  cases h with
  | start h => exact ⟨0, none, .inl rfl, h⟩
  | entered hi h => exact ⟨_, _, .inr hi, h⟩

theorem opAt_front (r : Region O) (i : Nat) : opAt r ⟨0, i⟩ = (front r)[i]? := by
  cases r with
  | nil | cons b bs => rfl

/-! ## An operation -/

theorem LoopRuns.none_notMem {k : Nat} {p : Option Pos} {o : Op O} {t : List Sub} {e : Outcome}
    (h : LoopRuns R k p o t e) : none ∉ t := by
  induction h with
  | go _ _ _ ih => simp [within, ih]
  | _ => simp [within]

section Op

variable {o : Op O} {s : Sub} {t : List Sub} {e : Outcome}

/-- An operation itself is run once at most. -/
theorem Op.Runs.count_none (h : o.Runs s t e) : t.count none ≤ 1 := by
  have hmap : ∀ k (t : List Pos), (t.map (within k)).count none = 0 := fun k t =>
    List.count_eq_zero.2 (by simp [within])
  cases h with
  | leaf => simp
  | loop h | entered h => simp [List.count_eq_zero.2 h.none_notMem]
  | _ => simp [hmap]

/-- What a run of an operation other than a loop does in one region is one run of it. -/
theorem Op.Runs.part (h : o.Runs s t e) (hloop : o.isLoop = false) (k : Nat) :
    inRegion k t = [] ∨ ∃ p e', RegionRuns Op.Runs p (o.region k) (inRegion k t) e' := by
  have hmap : ∀ {k' p} {t' : List Pos} {e' : Outcome}, RegionRuns Op.Runs p (o.region k') t' e' →
      inRegion k (t'.map (within k')) = [] ∨
        ∃ p e', RegionRuns Op.Runs p (o.region k) (inRegion k (t'.map (within k'))) e' := by
    intro k' p t' e' hrun
    by_cases hk : k' = k
    · subst hk
      exact .inr ⟨p, e', by simpa using hrun⟩
    · exact .inl (by simp [hk])
  -- two runs of different regions
  have happ : ∀ {k₁ k₂ p₁ p₂} {t₁ t₂ : List Pos} {e₁ e₂ : Outcome}, k₁ ≠ k₂ →
      RegionRuns Op.Runs p₁ (o.region k₁) t₁ e₁ → RegionRuns Op.Runs p₂ (o.region k₂) t₂ e₂ →
      inRegion k (t₁.map (within k₁) ++ t₂.map (within k₂)) = [] ∨
        ∃ p e', RegionRuns Op.Runs p (o.region k)
          (inRegion k (t₁.map (within k₁) ++ t₂.map (within k₂))) e' := by
    intro k₁ k₂ p₁ p₂ t₁ t₂ e₁ e₂ hne h₁ h₂
    by_cases hk : k₁ = k
    · subst hk
      exact .inr ⟨p₁, e₁, by simpa [hne.symm] using h₁⟩
    · simpa [hk] using hmap h₂
  cases h with
  | leaf | ret | brk | cont | skip => exact .inl rfl
  | held _ _ h | arm _ _ _ h | body _ h | attempt h | switch _ _ h => exact hmap h
  | cleanup _ h _ h' => exact happ (by decide) h h'
  | handle h hk h' => exact happ (by omega) h h'
  | loop | entered => cases hloop

/-- Two arms are not both run. -/
theorem Op.Runs.one_arm (h : o.Runs s t e) (ho : o.kind = .ite ∨ o.kind = .ternary) {k k' : Nat}
    {p p' : Pos} (hp : within k p ∈ t) (hp' : within k' p' ∈ t) : k = k' := by
  cases h with
  | arm =>
    obtain ⟨q, -, hq⟩ := List.mem_map.1 hp
    obtain ⟨q', -, hq'⟩ := List.mem_map.1 hp'
    simp only [within, Option.some.injEq, Prod.mk.injEq] at hq hq'
    rw [← hq.1, ← hq'.1]
  | held hkind =>
    rcases hkind with rfl | rfl <;> rcases ho with ho | ho <;> cases ho
  | _ => rcases ho with ho | ho <;> cases ho

/-- The outcome of a case or of an `if` is that of the region it ran in. -/
theorem Op.Runs.outcome (h : o.Runs s t e) (ho : o.kind = .case ∨ o.kind = .ite) {k : Nat} {p : Pos}
    (hp : within k p ∈ t) : ∃ q t', RegionRuns Op.Runs q (o.region k) t' e := by
  cases h with
  | held hkind _ h | arm _ _ _ h =>
    obtain ⟨q, -, hq⟩ := List.mem_map.1 hp
    simp only [within, Option.some.injEq, Prod.mk.injEq] at hq
    exact ⟨_, _, hq.1 ▸ h⟩
  | _ => rcases ho with ho | ho <;> cases ho

theorem Op.Runs.case_region (h : o.Runs s t e) (ho : o.kind = .case) {k : Nat} {p : Pos}
    (hp : within k p ∈ t) : k = 0 := by
  cases h with
  | held =>
    obtain ⟨q, -, hq⟩ := List.mem_map.1 hp
    simp only [within, Option.some.injEq, Prod.mk.injEq] at hq
    exact hq.1.symm
  | arm hkind => rcases hkind with rfl | rfl <;> cases ho
  | _ => cases ho

theorem Op.Runs.ne_fin (h : o.Runs s t e) (ho : o.kind = .brk ∨ o.kind = .ret) : e ≠ .fin := by
  cases h with
  | brk | ret => decide
  | held hkind | arm hkind => rcases hkind with rfl | rfl <;> rcases ho with ho | ho <;> cases ho
  | _ => rcases ho with ho | ho <;> cases ho

end Op

/-- A block that ends in a jump does not run to its end. -/
theorem BlockRuns.ne_fin {i : Nat} {b : Block O} {s : Sub} {t : List Pos} {e : Outcome}
    {last : Op O}
    (h : BlockRuns Op.Runs i b s t e) (hlast : b.getLast? = some last)
    (hjump : last.kind = .brk ∨ last.kind = .ret) (hi : i < b.length) : e ≠ .fin := by
  induction h with
  | cut => decide
  | done hle => omega
  | @next i b s o t t' e hget hrun hrest ih =>
    by_cases hi' : i + 1 < b.length
    · exact ih hlast hi'
    · -- the last operation has run to its end
      have hlen : i = b.length - 1 := by omega
      rw [List.getLast?_eq_getElem?, ← hlen, hget] at hlast
      cases hlast
      exact absurd rfl (hrun.ne_fin hjump)
  | leave _ _ hne => exact hne

theorem RegionRuns.ne_fin {p : Option Pos} {r : Region O} {t : List Pos} {e : Outcome} {last : Op O}
    (h : RegionRuns Op.Runs p r t e) (hlast : (front r).getLast? = some last)
    (hjump : last.kind = .brk ∨ last.kind = .ret) : e ≠ .fin := by
  obtain ⟨i, s, hi, hb⟩ := h.block
  refine hb.ne_fin hlast hjump ?_
  rcases hi with rfl | hi
  · exact List.length_pos_iff.2 fun hnil => by simp [hnil] at hlast
  · exact hi

/-! ## Leaves that no loop repeats -/

/-- A run stays in the first block. -/
theorem RegionRuns.sub {p : Option Pos} {r : Region O} {t : List Pos} {e : Outcome}
    (h : RegionRuns R p r t e) {q : Pos} (hq : q ∈ t) : ∃ j s, q = .of j s := by
  obtain ⟨i, s, -, hb⟩ := h.block
  obtain ⟨j, s', -, hj⟩ := hb.of_mem q hq
  exact ⟨j, s', hj⟩

/-- The run of the operation that the place is in. -/
theorem RegionRuns.op {p : Option Pos} {r : Region O} {t : List Pos} {e : Outcome}
    (h : RegionRuns R p r t e) {j : Nat} {s : Sub} (hq : .of j s ∈ t) :
    ∃ o s' e', opAt r ⟨0, j⟩ = some o ∧ R o s' (inOp j t) e' ∧
      (e' ≠ .fin → ∀ j', j < j' → inOp j' t = []) := by
  obtain ⟨i, s, -, hb⟩ := h.block
  rcases hb.part j with hnil | ⟨o, s', e', hget, hrun, hlast⟩
  · have := mem_inOp.2 hq
    rw [hnil] at this
    cases this
  · exact ⟨o, s', e', by rw [opAt_front, hget], hrun, hlast⟩

section Region

variable {p : Option Pos} {r : Region O} {t : List Pos} {e : Outcome}

/-- A later operation is not reached past one that was left. -/
theorem RegionRuns.not_past {o : Op O} {i j k : Nat} {q : Pos} {s : Sub}
    (h : RegionRuns Op.Runs p r t e) (hget : opAt r ⟨0, i⟩ = some o)
    (ho : o.kind = .case ∨ o.kind = .ite)
    (hleft : ∀ q t e, RegionRuns Op.Runs q (o.region k) t e → e ≠ .fin)
    (hi : .of i (within k q) ∈ t) (hj : .of j s ∈ t) : ¬ i < j := by
  intro hlt
  obtain ⟨o', s', e', hget', hrun, hlast⟩ := h.op hi
  rw [hget] at hget'
  cases hget'
  obtain ⟨q', t', hregion⟩ := hrun.outcome ho (mem_inOp.2 hi)
  have hnil := hlast (hleft _ _ _ hregion) j hlt
  have hmem := mem_inOp.2 hj
  rw [hnil] at hmem
  cases hmem

theorem RegionRuns.inside_of_mem {l : Loc} {k : Nat} {q : Pos} (h : RegionRuns R p r t e)
    (hq : .inside l k q ∈ t) : ∃ j, l = ⟨0, j⟩ ∧ .of j (within k q) ∈ t := by
  obtain ⟨j, s, hj⟩ := h.sub hq
  rcases s with _ | ⟨k', q'⟩ <;> cases hj
  exact ⟨j, rfl, hq⟩

theorem RegionRuns.here_of_mem {l : Loc} (h : RegionRuns R p r t e) (hq : .here l ∈ t) :
    ∃ j, l = ⟨0, j⟩ ∧ .of j none ∈ t := by
  obtain ⟨j, s, hj⟩ := h.sub hq
  rcases s with _ | ⟨k', q'⟩ <;> cases hj
  exact ⟨j, rfl, hq⟩

/-- A place with no loop around it is run at most once. -/
theorem count_le_one {q : Pos} (h : RegionRuns Op.Runs p r t e) (hq : underLoop r q = false) :
    t.count q ≤ 1 := by
  induction q generalizing p r t e with
  | here l =>
    by_cases hmem : .here l ∈ t
    · obtain ⟨j, rfl, hj⟩ := h.here_of_mem hmem
      obtain ⟨o, s', e', -, hrun, -⟩ := h.op hj
      have hcount := hrun.count_none
      rwa [count_inOp] at hcount
    · rw [List.count_eq_zero.2 hmem]
      exact Nat.zero_le 1
  | inside l k q ih =>
    by_cases hmem : .inside l k q ∈ t
    · obtain ⟨j, rfl, hj⟩ := h.inside_of_mem hmem
      obtain ⟨o, s', e', hget, hrun, -⟩ := h.op hj
      simp only [underLoop, hget, Bool.or_eq_false_iff] at hq
      have hcount : (inRegion k (inOp j t)).count q ≤ 1 := by
        rcases hrun.part hq.1 k with hnil | ⟨p', e'', hregion⟩
        · rw [hnil]
          exact Nat.zero_le 1
        · exact ih hregion hq.2
      rwa [count_inRegion, count_inOp] at hcount
    · rw [List.count_eq_zero.2 hmem]
      exact Nat.zero_le 1

end Region

end Wtc.Nested
