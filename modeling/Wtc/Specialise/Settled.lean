import Wtc.Specialise.Model

/-!
# What a rewrite has checked

The facts about a function's code that hold once `specialiseAtRunTime` has not refused: every use of
the bound's address is a load, a lifetime mark or a store that comes before the place of the choice
(`Before`), and a loop one call down keeps its bound in a slot that only holds a parameter
(`Through`).
-/

namespace Wtc.Specialise

open Wtc.Nested
open Counted (CountedLoop usesDirectly)

/-! ## Leaves -/

theorem leafAt_of_mem {f : Func} {p : Pos} {o : Leaf} (h : (p, o) ∈ f.leaves) :
    f.leafAt p = some o := by
  obtain ⟨⟨p', k⟩, hx, hk⟩ := List.mem_filterMap.1 h
  split at hk
  · next heq =>
    cases hk
    simp only at heq
    subst heq
    obtain ⟨o', hfind, ho⟩ := kindAt_of_walk hx
    simp [Func.leafAt, hfind, ho]
  · cases hk

theorem opAt_of_leaf {f : Func} {l : Nested.Loc} {o : Leaf} (h : (.here l, o) ∈ f.leaves) :
    ∃ rs, opAt f.body l = some (.mk (.leaf o) rs) := by
  have hleaf := leafAt_of_mem h
  unfold Func.leafAt find at hleaf
  split at hleaf
  · next o' hop =>
    cases hleaf
    obtain ⟨op, hget, hkind⟩ := Option.map_eq_some_iff.1 hop
    obtain ⟨kind, rs⟩ := op
    cases hkind
    exact ⟨rs, hget⟩
  · cases hleaf

theorem defOf_eq_some {f : Func} {v : Nat} {o : Leaf} (h : f.defOf v = some o) :
    ∃ p, (p, o) ∈ f.leaves ∧ o.result = some v := by
  obtain ⟨⟨p, o'⟩, hfind, rfl⟩ := Option.map_eq_some_iff.1 h
  exact ⟨p, List.mem_of_find?_eq_some hfind, by simpa using List.find?_some hfind⟩

theorem mem_globalAddrs {f : Func} {v d g : Nat} (h : f.defOf v = some (.getGlobal d g)) :
    v ∈ f.globalAddrs g := by
  obtain ⟨p, hp, hv⟩ := defOf_eq_some h
  cases hv
  exact List.mem_filterMap.2 ⟨_, hp, by simp⟩

/-! ## Stores before the place of the choice -/

theorem of_eq_before {looped b : Bool} (h : Order.of looped b = .before) :
    looped = false ∧ b = true := by
  unfold Order.of at h
  split_ifs at h with h₁ h₂
  exact ⟨by simpa using h₂, h₁⟩

theorem order_before {r : Region Leaf} {looped : Bool} {p q : Pos}
    (h : order r looped p q = .before) : looped = false ∧ precedes r p q = true := by
  induction p generalizing r looped q with
  | here l => cases q <;> simpa [order, precedes] using of_eq_before h
  | inside l k p ih =>
    cases q with
    | here l' => simpa [order, precedes] using of_eq_before h
    | inside l' k' q =>
      unfold order at h
      unfold precedes
      split at h
      · next hl =>
        subst hl
        rw [if_pos rfl]
        split at h
        · next o ho =>
          split at h
          · next hk =>
            subst hk
            obtain ⟨hloop, hin⟩ := ih h
            rw [Bool.or_eq_false_iff] at hloop
            exact ⟨hloop.1, by simp [ho, hloop.2, hin]⟩
          · cases h
        · cases h
      · next hl =>
        rw [if_neg hl]
        exact of_eq_before h

/-- Every use of the address, in the function `g`, is a load, a lifetime mark or a store to it
before the site. -/
structure Before (M : Module) (site : Site) (g addr : Nat) : Prop where
  direct : ∀ x ∈ (M.func g).leaves, usesDirectly addr x.2 = true
  store : ∀ {p : Pos} {v : Nat}, (p, .store v addr) ∈ (M.func g).leaves →
    g = site.func ∧ precedes (M.func g).body p site.pos = true

theorem usesDirectly_of_not_mem {addr : Nat} {o : Leaf} (h : addr ∉ o.operands) :
    usesDirectly addr o = true := by
  cases o <;> simp_all [usesDirectly, Counted.Op.operands]
  tauto

theorem before_of_storesUnsettled {M : Module} {site : Site} {g addr : Nat}
    (h : storesUnsettled M site g addr = none) : Before M site g addr := by
  have huse : ∀ x ∈ (M.func g).leaves, addr ∈ x.2.operands →
      useUnsettled M site g addr x = none := by
    intro x hx hmem
    exact List.findSome?_eq_none_iff.1 h x (List.mem_filter.2 ⟨hx, by simpa using hmem⟩)
  refine ⟨?_, ?_⟩
  · intro x hx
    by_cases hmem : addr ∈ x.2.operands
    · have hx := huse x hx hmem
      obtain ⟨p, o⟩ := x
      cases o with
      | load d a | lifetime a => rfl
      | store v a =>
        simp only [useUnsettled] at hx
        split_ifs at hx with h₁
        have ha : a = addr := by simpa using h₁
        simp [usesDirectly, ha]
      | _ => cases hx
    · exact usesDirectly_of_not_mem hmem
  · intro p v hp
    have hx := huse _ hp (by simp [Counted.Op.operands])
    simp only [useUnsettled, ne_eq, not_true_eq_false, if_false] at hx
    split_ifs at hx with h₁ h₂
    exact ⟨by simpa using h₁, (order_before (by simpa using h₂)).2⟩

/-- The variable that is read, and that its stores come before. -/
structure Settled (M : Module) (site : Site) (b : SideBound) : Prop where
  func : b.site.func = site.func
  order : precedes (M.func site.func).body site.pos b.site.pos = true
  var : (∃ d, (M.func site.func).defOf b.addr = some (.alloca d) ∧
      Before M site site.func b.addr) ∨
    ∃ d g, (M.func site.func).defOf b.addr = some (.getGlobal d g) ∧ M.viewed g = false ∧
      ∀ f ∈ M.funcs, ∀ a ∈ (M.func f).globalAddrs g, Before M site f a

theorem settled_of_boundUnsettled {M : Module} {site : Site} {b : SideBound}
    (h : boundUnsettled M site b = none) : Settled M site b := by
  unfold boundUnsettled at h
  split at h
  · cases h
  next hfunc =>
  have hfunc : b.site.func = site.func := by simpa using hfunc
  split at h
  · cases h
  · cases h
  next horder =>
  refine ⟨hfunc, (order_before horder).2, ?_⟩
  split at h
  · next p d hfind =>
    split at h
    · refine .inl ⟨d, ?_, before_of_storesUnsettled h⟩
      simp [Func.defOf, hfind]
    · cases h
  · next p d g hfind =>
    unfold globalUnsettled at h
    split at h
    · cases h
    next hview =>
    refine .inr ⟨d, g, by simp [Func.defOf, hfind], by simpa using hview, ?_⟩
    intro f hf a ha
    have hall := List.findSome?_eq_none_iff.1 h f hf
    exact before_of_storesUnsettled (List.findSome?_eq_none_iff.1 hall a ha)
  · cases h

/-! ## A loop one call down -/

/-- The slot is written only by storing that parameter, in the entry block. -/
structure Keeps (f : Func) (slot param : Nat) : Prop where
  mem : param ∈ f.params
  direct : ∀ x ∈ f.leaves, usesDirectly slot x.2 = true
  store : ∀ {p : Pos} {v : Nat}, (p, .store v slot) ∈ f.leaves → v = param ∧ inEntry p = true
  stored : ∃ p, (p, .store param slot) ∈ f.leaves

/-- What the uses of a slot are. -/
structure KeepSpec (f : Func) (slot : Nat) (uses : List (Pos × Leaf)) (found : List Nat) :
    Prop where
  direct : ∀ x ∈ uses, usesDirectly slot x.2 = true
  store : ∀ {p : Pos} {v : Nat}, (p, .store v slot) ∈ uses → v ∈ found ∧ inEntry p = true
  found : ∀ v ∈ found, v ∈ f.params ∧ ∃ p, (p, .store v slot) ∈ uses

theorem keepSpec_of_foldr {f : Func} {slot : Nat} {uses : List (Pos × Leaf)} {found : List Nat}
    (h : uses.foldr (keepUse f slot) (some []) = some found) : KeepSpec f slot uses found := by
  induction uses generalizing found with
  | nil =>
    cases h
    exact ⟨nofun, nofun, nofun⟩
  | cons x uses ih =>
    obtain ⟨p, o⟩ := x
    rw [List.foldr_cons] at h
    -- a use that is no store
    have hskip : usesDirectly slot o = true → (∀ v, o ≠ .store v slot) →
        KeepSpec f slot uses found → KeepSpec f slot ((p, o) :: uses) found := by
      rintro ho hne ⟨h₁, h₂, h₃⟩
      refine ⟨List.forall_mem_cons.2 ⟨ho, h₁⟩, ?_, ?_⟩
      · intro q v hq
        rcases List.mem_cons.1 hq with hq | hq
        · cases hq
          exact absurd rfl (hne v)
        · exact h₂ hq
      · exact fun v hv => ⟨(h₃ v hv).1, (h₃ v hv).2.imp fun _ => List.mem_cons_of_mem _⟩
    cases o with
    | load d a | lifetime a => exact hskip rfl nofun (ih h)
    | store v addr =>
      simp only [keepUse] at h
      split at h
      · next hcond =>
        obtain ⟨rfl, hparam, hentry⟩ := hcond
        obtain ⟨found', hfound, rfl⟩ := Option.map_eq_some_iff.1 h
        obtain ⟨h₁, h₂, h₃⟩ := ih hfound
        refine ⟨List.forall_mem_cons.2 ⟨by simp [usesDirectly], h₁⟩, ?_, ?_⟩
        · intro q w hq
          rcases List.mem_cons.1 hq with hq | hq
          · cases hq
            exact ⟨List.mem_cons_self, hentry⟩
          · exact ⟨List.mem_cons_of_mem _ (h₂ hq).1, (h₂ hq).2⟩
        · intro w hw
          rcases List.mem_cons.1 hw with rfl | hw
          · exact ⟨hparam, p, List.mem_cons_self⟩
          · exact ⟨(h₃ w hw).1, (h₃ w hw).2.imp fun _ => List.mem_cons_of_mem _⟩
      · cases h
    | _ => cases h

theorem keeps_of_keptParams {f : Func} {slot param : Nat} (h : keptParams f slot = some [param]) :
    Keeps f slot param := by
  obtain ⟨h₁, h₂, h₃⟩ := keepSpec_of_foldr h
  obtain ⟨hparam, p, hp⟩ := h₃ param (List.mem_singleton_self _)
  refine ⟨hparam, ?_, ?_, p, (List.mem_filter.1 hp).1⟩
  · intro x hx
    by_cases hmem : slot ∈ x.2.operands
    · exact h₁ x (List.mem_filter.2 ⟨hx, by simpa using hmem⟩)
    · exact usesDirectly_of_not_mem hmem
  · intro q v hq
    have hspec := h₂ (List.mem_filter.2 ⟨hq, by simp [Counted.Op.operands]⟩)
    exact ⟨by simpa using hspec.1, hspec.2⟩

/-- What `boundThrough` has found: the call passes the value `v` of a variable for a parameter of
the loop's function, which is what the loop's bound is. -/
structure Through (M : Module) (b : SideBound) (v param : Nat) : Prop where
  call : ∃ d args, (M.func b.site.func).leafAt b.site.pos = some (.call d b.loop.func args) ∧
    args[(M.func b.loop.func).params.idxOf param]? = some v
  slot : ∃ d, (M.func b.loop.func).defOf b.l.boundAddr = some (.alloca d)
  keeps : Keeps (M.func b.loop.func) b.l.boundAddr param
  operand : ∃ d, (M.func b.site.func).defOf v = some (.load d b.addr)

theorem through_of_boundThrough {M : Module} {loop via : Site} {l : CountedLoop} {b : SideBound}
    (h : boundThrough M loop l via = .ok b) :
    ∃ v param, b = ⟨l, loop, b.addr, via, some (v, param)⟩ ∧ Through M b v param := by
  unfold boundThrough at h
  split at h
  · next d callee args hcall =>
    split at h
    · cases h
    next hcallee =>
    have hcallee : callee = loop.func := by simpa using hcallee
    subst hcallee
    split at h
    · next slot hslot =>
      split at h
      · next param hkept =>
        split at h
        · cases h
        next v harg =>
        split at h
        · next d' addr hload =>
          split at h
          · cases h
            obtain ⟨p, hp, hres⟩ := defOf_eq_some hslot
            cases hres
            exact ⟨v, param, rfl, ⟨d, args, hcall, harg⟩, ⟨_, hslot⟩, keeps_of_keptParams hkept,
              ⟨d', hload⟩⟩
          · cases h
        · cases h
      · cases h
      · cases h
    · cases h
  · cases h

/-! ## The rewrite -/

/-- How the bound of a side was found. -/
theorem sideBound_cases {M : Module} {id viaId : Option Nat} {b : SideBound}
    (h : sideBound M id viaId = .ok (some b)) :
    M.countedLoop b.loop = some b.l ∧
      ((b.via = none ∧ b.addr = b.l.boundAddr ∧ b.site = b.loop) ∨
        ∃ v param, b.via = some (v, param) ∧ Through M b v param) := by
  unfold sideBound at h
  split at h
  · cases h
  split at h
  · cases h
  split at h
  · cases h
  next l hl =>
  split at h
  · cases h
    exact ⟨hl, .inl ⟨rfl, rfl, rfl⟩⟩
  split at h
  · cases h
  split at h
  · cases h
  next b' hb =>
  cases h
  obtain ⟨v, param, heq, hthrough⟩ := through_of_boundThrough hb
  have hloop : b.loop = _ := congrArg SideBound.loop heq
  have hbl : b.l = _ := congrArg SideBound.l heq
  have hvia : b.via = _ := congrArg SideBound.via heq
  refine ⟨?_, .inr ⟨v, param, hvia, hthrough⟩⟩
  rw [hloop, hbl]
  exact hl

theorem choose_sound {M : Module} {ctor : Site} {producers consumers : Option SideBound}
    {r : Rewrite}
    (h : choose M ctor producers consumers = .ok r) :
    r.producers = producers ∧ r.consumers = consumers ∧ ∀ b ∈ r.sides, Settled M r.site b := by
  unfold choose at h
  split at h
  · cases h
  next b bs hsides =>
  split at h
  · cases h
  split at h
  · cases h
  split at h
  · cases h
  next hnone =>
  cases h
  refine ⟨rfl, rfl, fun c hc => settled_of_boundUnsettled ?_⟩
  exact List.findSome?_eq_none_iff.1 hnone c (by simpa [Rewrite.sides, hsides] using hc)

/-- What holds of every bound that a rewrite reads. -/
theorem specialiseAtRunTime_sides {M : Module} {root : Root} {ctors : List Site} {r : Rewrite}
    (h : specialiseAtRunTime M root ctors = .ok r) {b : SideBound} (hb : b ∈ r.sides) :
    Settled M r.site b ∧ M.countedLoop b.loop = some b.l ∧
      ((b.via = none ∧ b.addr = b.l.boundAddr ∧ b.site = b.loop) ∨
        ∃ v param, b.via = some (v, param) ∧ Through M b v param) := by
  unfold specialiseAtRunTime at h
  split at h
  · split at h
    · cases h
    split at h
    · next producers consumers hp hc =>
      obtain ⟨hrp, hrc, hset⟩ := choose_sound h
      refine ⟨hset b hb, ?_⟩
      rw [Rewrite.sides, hrp, hrc, List.mem_append, Option.mem_toList, Option.mem_toList] at hb
      rcases hb with hb | hb
      · cases hb
        exact sideBound_cases hp
      · cases hb
        exact sideBound_cases hc
    · cases h
    · cases h
  · cases h

end Wtc.Specialise
