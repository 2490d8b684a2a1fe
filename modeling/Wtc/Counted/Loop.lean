import Wtc.Counted.Arith

/-!
# The parts of a counted loop

What `countedLoop` has checked, as one statement (`countedLoop_spec`), and what a run of each part
of the loop does to `i`: the condition compares it, the body leaves it alone, the step adds one.
-/

namespace Wtc.Counted

open Wtc.Control

variable {f : Func} {l : Loop Op Nat} {before : List Item} {c : CountedLoop}

/-! ## Functions -/

/-- What holds of every function in the compiler's form: a value is computed by one operation, and
operations agree on the types of what they work on. -/
structure Func.Valid (f : Func) : Prop where
  once : (f.code.ops.filterMap Op.result).Nodup
  pointee : ∃ pointee : Nat → Option IntType,
    (∀ d a, .load d a ∈ f.code.ops → f.type d = pointee a) ∧
      ∀ v a, .store v a ∈ f.code.ops → f.type v = pointee a
  inc : ∀ d x, .inc d x ∈ f.code.ops → f.type d = f.type x
  add : ∀ d x y, .add d x y ∈ f.code.ops → f.type d = f.type x ∧ f.type d = f.type y
  cmp : ∀ d kind x y, .cmp d kind x y ∈ f.code.ops → f.type x = f.type y

variable {o o' : Op} {x' st st' : Store} {rest s r₁ r₂ r₃ : Code Op Nat}

theorem defOf_mem {v : Nat} (h : f.defOf v = some o) : o ∈ f.code.ops ∧ o.result = some v := by
  have hmem := List.mem_of_find?_eq_some h
  have hres := List.find?_some h
  exact ⟨hmem, by simpa using hres⟩

theorem Func.Valid.eq_of_result (hf : f.Valid) {v : Nat} (ho : o ∈ f.code.ops)
    (ho' : o' ∈ f.code.ops) (hv : o.result = some v) (hv' : o'.result = some v) : o = o' := by
  by_contra hne
  have hpair := List.pairwise_filterMap.1 hf.once
  have hsymm : Std.Symm fun a b : Op =>
      ∀ x, a.result = some x → ∀ y, b.result = some y → x ≠ y :=
    ⟨fun a b h x hx y hy => (h y hy x hx).symm⟩
  exact hpair.forall ho ho' hne v hv v hv' rfl

/-- The block up to the loop stands in the function. -/
def Func.Holds (f : Func) (before : List Item) (l : Loop Op Nat) : Prop :=
  (block before.reverse (l.code .done)).ops.Sublist f.code.ops

/-! ## What has been checked -/

theorem loadedFrom_eq {v a : Nat} (h : f.loadedFrom v = some a) : f.defOf v = some (.load v a) := by
  unfold Func.loadedFrom at h
  split at h
  · next d addr hd =>
    cases h
    have := (defOf_mem hd).2
    cases this
    exact hd
  · cases h

/-- The store of the step: `i` is loaded by `load d slot`, `up` adds one, and the sum is stored. -/
structure StepsBy (f : Func) (slot : Nat) (l : Loop Op Nat) (d v : Nat) (up : Op) : Prop where
  only : l.step.ops.filter (storesTo slot) = [.store v slot]
  load_def : f.defOf d = some (.load d slot)
  up_def : f.defOf v = some up
  one : up = .inc v d ∨ ∃ y k, up = .add v d y ∧ f.defOf y = some (.const y k) ∧
    (f.intType y).getSInt k = 1

/-- What `countedLoop` accepts. -/
structure Accepted (f : Func) (before : List Item) (l : Loop Op Nat) (c : CountedLoop)
    (slot ind x y : Nat) (kind : CmpKind) (s : IntType × Int) : Prop where
  cmp_def : f.defOf l.c = some (.cmp l.c kind x y)
  oriented : orient kind x y = some (ind, c.bound, c.inclusive)
  ind_def : f.defOf ind = some (.load ind slot)
  bound_def : f.defOf c.bound = some (.load c.bound c.boundAddr)
  slot_def : f.defOf slot = some (.alloca slot)
  boundLoc : ∃ p, f.loc c.boundAddr = some p
  kept : ∀ o ∈ f.code.ops, usesDirectly slot o
  cond : ∀ o ∈ l.cond.ops, storesTo slot o = false
  body : ∀ o ∈ l.body.ops, storesTo slot o = false
  step : ∃ d v up, StepsBy f slot l d v up
  start : f.startOf slot before = some s
  first : c.first = s.1.getSInt s.2

theorem isAlloca_eq {v : Nat} (h : f.isAlloca v) : f.defOf v = some (.alloca v) := by
  unfold Func.isAlloca at h
  split at h
  · next d hd =>
    have := (defOf_mem hd).2
    cases this
    exact hd
  · cases h

theorem loc_of_checked {a : Nat} (h : f.isGlobal a || f.isAlloca a) : ∃ p, f.loc a = some p := by
  rcases Bool.or_eq_true_iff.1 h with h | h
  · unfold Func.isGlobal at h
    split at h
    · next d g hd => exact ⟨.global g, by simp only [Func.loc, hd]⟩
    · cases h
  · exact ⟨.slot a, by simp only [Func.loc, isAlloca_eq h]⟩

theorem byOne_eq {slot v : Nat} (h : f.byOne slot v) :
    ∃ d up, f.defOf d = some (.load d slot) ∧ f.defOf v = some up ∧
      (up = .inc v d ∨ ∃ y k, up = .add v d y ∧ f.defOf y = some (.const y k) ∧
        (f.intType y).getSInt k = 1) := by
  unfold Func.byOne at h
  split at h
  · next v' d hd =>
    have hv := (defOf_mem hd).2
    cases hv
    exact ⟨d, _, loadedFrom_eq (by simpa using h), hd, .inl rfl⟩
  · next v' d y hd =>
    have hv := (defOf_mem hd).2
    cases hv
    split at h
    · next y' k hk =>
      have hy := (defOf_mem hk).2
      cases hy
      rw [Bool.and_eq_true] at h
      exact ⟨d, _, loadedFrom_eq (by simpa using h.2), hd,
        .inr ⟨y, k, rfl, hk, by simpa using h.1⟩⟩
    · cases h
  · cases h

theorem stepsByOne_eq {slot : Nat} (h : f.stepsByOne slot l) :
    (∀ o ∈ l.cond.ops, storesTo slot o = false) ∧ (∀ o ∈ l.body.ops, storesTo slot o = false) ∧
      ∃ d v up, StepsBy f slot l d v up := by
  unfold Func.stepsByOne at h
  rw [Bool.and_eq_true, Bool.and_eq_true] at h
  obtain ⟨⟨hc, hb⟩, hs⟩ := h
  refine ⟨by simpa using hc, by simpa using hb, ?_⟩
  split at hs
  · next v a hfil =>
    obtain ⟨d, up, hd, hup, hone⟩ := byOne_eq hs
    have hst : storesTo slot (.store v a) = true :=
      (List.mem_filter.1 (hfil ▸ List.mem_singleton_self _)).2
    have ha : a = slot := by simpa [storesTo] using hst
    subst ha
    exact ⟨d, v, up, hfil, hd, hup, hone⟩
  · cases hs

theorem countedLoop_spec (h : f.countedLoop before l = some c) :
    ∃ slot ind x y kind s, Accepted f before l c slot ind x y kind s := by
  unfold Func.countedLoop Func.compared at h
  split at h
  · cases h
  · next ind bound inclusive hcmp =>
    split at hcmp
    · next d kind x y hd =>
      have hres := (defOf_mem hd).2
      cases hres
      split at hcmp
      · split at h
        · next slot boundAddr hs hb =>
          split at h
          · cases h
          · next hchecks =>
            split at h
            · cases h
            · next hkept =>
              obtain ⟨s, hstart, rfl⟩ := Option.map_eq_some_iff.1 h
              simp only [Bool.or_eq_true, not_or, Bool.not_eq_true', Bool.not_eq_false] at hchecks
              simp only [Bool.or_eq_true, not_or, Bool.not_eq_true', Bool.not_eq_false,
                List.all_eq_true] at hkept
              obtain ⟨hc, hbody, hstep⟩ := stepsByOne_eq hkept.2
              exact ⟨slot, ind, x, y, kind, s, hd, hcmp, loadedFrom_eq hs, loadedFrom_eq hb,
                isAlloca_eq hchecks.1.1, loc_of_checked (by simpa using hchecks.2), hkept.1, hc,
                hbody, hstep, hstart, rfl⟩
        · cases h
      · cases hcmp
    · cases hcmp

/-! ## What the operations leave alone -/

theorem does_env {x : Store} {w : Nat} (h : f.Does o x x') (hw : o.result ≠ some w) :
    x'.env w = x.env w := by
  have hset : ∀ (y : Store) (d : Nat) (v : Int), some d ≠ some w → (y.set d v).env w = y.env w := by
    intro y d v hd
    exact if_neg fun h => hd (by rw [h])
  cases h with
  | load _ | loadAny _ | inc | add | cmp => exact hset _ _ _ hw
  | storeAny _ h | callVoid h | otherVoid h => rw [h.1]
  | call h | other h => rw [hset _ _ _ hw, h.1]
  | _ => rfl

theorem loc_slot {a slot : Nat} (h : f.loc a = some (.slot slot)) : a = slot := by
  unfold Func.loc at h
  split at h
  · next d hd =>
    have := (defOf_mem hd).2
    cases h
    cases this
    rfl
  · cases h
  · cases h

/-- A kept slot is written by its own stores alone. -/
theorem does_mem {x : Store} {slot : Nat} (hk : f.kept (.slot slot))
    (hs : storesTo slot o = false) (h : f.Does o x x') :
    x'.mem (.slot slot) = x.mem (.slot slot) := by
  cases h with
  | store hp =>
    refine if_neg fun heq => ?_
    rw [← heq] at hp
    rw [loc_slot hp] at hs
    simp [storesTo] at hs
  | storeAny _ h | call h | callVoid h | other h | otherVoid h => exact h.2 _ hk
  | _ => rfl

theorem eval_of_def {v : Nat} (x : Store) (h : f.defOf v = some o) (hc : ∀ d k, o ≠ .const d k) :
    f.eval x v = x.env v := by
  unfold Func.eval
  rw [h]
  cases o with
  | const d k => exact absurd rfl (hc d k)
  | _ => rfl

/-- An operation that the pass has found computes what it says. -/
theorem does_load {d a : Nat} {p : Loc} {x : Store} (ha : f.loc a = some p)
    (h : f.Does (.load d a) x x') : x'.env d = x.mem p := by
  cases h with
  | load hp =>
    rw [ha] at hp
    cases hp
    exact if_pos rfl
  | loadAny hp =>
    rw [ha] at hp
    cases hp

theorem does_cmp {d : Nat} {kind : CmpKind} {y z : Nat} {x : Store}
    (h : f.Does (.cmp d kind y z) x x') :
    x'.env d = boolInt (kind.holds (f.eval x y) (f.eval x z)) := by
  cases h with
  | cmp => exact if_pos rfl

/-- What comes before an operation in a list is before its last place there. -/
theorem sublist_of_last {α : Type} {l pre post : List α} {b : α}
    (h : (l ++ [b]).Sublist (pre ++ b :: post)) (hb : b ∉ post) : l.Sublist pre := by
  have hrev := h.reverse
  simp only [List.reverse_append, List.reverse_cons, List.reverse_nil, List.nil_append,
    List.append_assoc, List.singleton_append] at hrev
  have hdrop : ∀ {xs : List α}, b ∉ xs → (b :: l.reverse).Sublist (xs ++ b :: pre.reverse) →
      l.reverse.Sublist pre.reverse := by
    intro xs
    induction xs with
    | nil => exact fun _ h => h.of_cons_cons
    | cons x xs ih =>
      intro hx h
      rw [List.mem_cons, not_or] at hx
      exact ih hx.2 (h.of_cons_of_ne hx.1)
  exact List.reverse_sublist.1 (hdrop (by simpa using hb) hrev)

theorem mem_of_pair {α : Type} {a b : α} {pre post : List α} (h : [a, b].Sublist (pre ++ b :: post))
    (hb : b ∉ post) : a ∈ pre :=
  List.singleton_sublist.1 (sublist_of_last (l := [a]) h hb)

theorem Func.Valid.last (hf : f.Valid) {pre post : List Op} {d : Nat}
    (hsub : (pre ++ o :: post).Sublist f.code.ops) (ho : o.result = some d) : o ∉ post := by
  intro hmem
  have hnd := hf.once.sublist (hsub.filterMap Op.result)
  rw [List.filterMap_append, List.filterMap_cons_some ho] at hnd
  have hcons := (List.nodup_append.1 hnd).2.1
  exact (List.nodup_cons.1 hcons).1 (List.mem_filterMap.2 ⟨o, hmem, ho⟩)

/-! ## The condition -/

/-- Operations of the function that do not write the slot. -/
def Func.Spares (f : Func) (slot : Nat) (o : Op) : Prop :=
  o ∈ f.code.ops ∧ storesTo slot o = false

/-- Operations that also compute none of the given values. -/
def Func.Free (f : Func) (slot : Nat) (vs : List Nat) (o : Op) : Prop :=
  f.Spares slot o ∧ ∀ v ∈ vs, o.result ≠ some v

/-- The bound is `n`. -/
def Func.BoundIs (f : Func) (c : CountedLoop) (n : Int) (x : Store) : Prop :=
  ∀ p, f.loc c.boundAddr = some p → x.mem p = n

/-- The comparison of the loop's test says whether `i` is below the bound. -/
theorem orient_holds {kind : CmpKind} {x y i b : Nat} {inclusive : Bool}
    (h : orient kind x y = some (i, b, inclusive)) (g : Nat → Int) :
    kind.holds (g x) (g y) = true ↔ below inclusive (g i) (g b) := by
  cases kind <;> cases h <;> simp [CmpKind.holds, below]

theorem boolInt_eq_zero {b : Bool} : boolInt b = 0 ↔ ¬ b = true := by
  cases b <;> simp [boolInt]

section Test

variable (f l c) (slot ind x y : Nat) (kind : CmpKind) (n val : Int)

/-- What is known when `s` is left of the condition, with `i = val`: the loads and the comparison of
the test that are done hold what they should. -/
structure Testing (s : Code Op Nat) (st : Store) : Prop where
  top : ∀ o ∈ s.top, f.Spares slot o
  inner : ∀ o ∈ s.inner, f.Free slot [ind, c.bound, l.c] o
  mem : st.mem (.slot slot) = val
  bound : f.BoundIs c n st
  done : ∃ pre, l.cond.top = pre ++ s.top ∧
    (.load ind slot ∈ pre → st.env ind = val) ∧
    (.load c.bound c.boundAddr ∈ pre → st.env c.bound = n) ∧
    (.cmp l.c kind x y ∈ pre → (st.env l.c = 0 ↔ ¬ below c.inclusive val n))

variable {f l c slot ind x y kind n val}

/-- One of the values that the test rests on keeps its value while another operation runs. -/
theorem Func.Valid.env_kept (hf : f.Valid) {v : Nat} (ho : f.defOf v = some o)
    (hmem : o' ∈ f.code.ops) (hne : o' ≠ o) (hd : f.Does o' st st') : st'.env v = st.env v := by
  obtain ⟨hoin, hres⟩ := defOf_mem ho
  exact does_env hd fun hr => hne (hf.eq_of_result hmem hoin hr hres)

theorem loc_of_alloca (h : f.defOf slot = some (.alloca slot)) :
    f.loc slot = some (.slot slot) := by
  simp only [Func.loc, h]

variable {before : List Item} {s₀ : IntType × Int}

/-- An operation of the condition. -/
theorem Testing.op (hf : f.Valid) (ha : Accepted f before l c slot ind x y kind s₀)
    (hsub : l.cond.top.Sublist f.code.ops)
    (hi : [.load ind slot, .cmp l.c kind x y].Sublist l.cond.top)
    (hb : [.load c.bound c.boundAddr, .cmp l.c kind x y].Sublist l.cond.top)
    (h : Testing f l c slot ind x y kind n val (.op o rest) st) (hd : f.Does o st st')
    (hbound : f.BoundIs c n st') : Testing f l c slot ind x y kind n val rest st' := by
  obtain ⟨hspares, hinner, hmem, hbnd, pre, htop, hind, hbd, hcmp⟩ := h
  obtain ⟨hin, hst⟩ := hspares o List.mem_cons_self
  replace htop : l.cond.top = pre ++ o :: rest.top := htop
  have hlast : ∀ {d}, o.result = some d → o ∉ rest.top := fun hr => hf.last (htop ▸ hsub) hr
  obtain ⟨p, hp⟩ := ha.boundLoc
  refine ⟨fun o ho => hspares o (List.mem_cons_of_mem _ ho), hinner, ?_, hbound, pre ++ [o],
    ?_, ?_, ?_, ?_⟩
  · rw [does_mem ha.kept hst hd, hmem]
  · rw [htop, List.append_assoc]
    rfl
  · intro hmem'
    by_cases heq : o = .load ind slot
    · subst heq
      rw [does_load (loc_of_alloca ha.slot_def) hd, hmem]
    · rw [hf.env_kept ha.ind_def hin heq hd]
      exact hind (by simpa [Ne.symm heq] using hmem')
  · intro hmem'
    by_cases heq : o = .load c.bound c.boundAddr
    · subst heq
      rw [does_load hp hd, hbnd p hp]
    · rw [hf.env_kept ha.bound_def hin heq hd]
      exact hbd (by simpa [Ne.symm heq] using hmem')
  · intro hmem'
    by_cases heq : o = .cmp l.c kind x y
    · subst heq
      -- both loads are done before the comparison
      have hval := hind (mem_of_pair (htop ▸ hi) (hlast rfl))
      have hn := hbd (mem_of_pair (htop ▸ hb) (hlast rfl))
      rw [does_cmp hd, boolInt_eq_zero, orient_holds ha.oriented (f.eval st),
        eval_of_def st ha.ind_def nofun, eval_of_def st ha.bound_def nofun, hval, hn]
    · rw [hf.env_kept ha.cmp_def hin heq hd]
      exact hcmp (by simpa [Ne.symm heq] using hmem')

/-- What the rest of the program, or a region of the condition, does. -/
theorem Testing.moved (hk : f.kept (.slot slot)) (h : Testing f l c slot ind x y kind n val s st)
    (hm : Moved (f.sem.within (f.BoundIs c n)) (OpsSat (f.Free slot [ind, c.bound, l.c])) st st') :
    Testing f l c slot ind x y kind n val s st' := by
  rcases hm with rfl | ⟨hr, hb⟩ | ⟨o, rest, hq, hd, hb⟩
  · exact h
  · obtain ⟨ht, hi, hmem, -, hdone⟩ := h
    refine ⟨ht, hi, (hr.2 _ hk).trans hmem, hb, ?_⟩
    rw [hr.1]
    exact hdone
  · obtain ⟨ht, hi, hmem, -, hdone⟩ := h
    obtain ⟨hsp, hfree⟩ := hq o List.mem_cons_self
    refine ⟨ht, hi, (does_mem hk hsp.2 hd).trans hmem, hb, ?_⟩
    have henv : ∀ v ∈ [ind, c.bound, l.c], st'.env v = st.env v := fun v hv =>
      does_env hd (hfree v hv)
    rw [henv ind (by simp), henv c.bound (by simp), henv l.c (by simp)]
    exact hdone

theorem Testing.node {m : Node Nat}
    (h : Testing f l c slot ind x y kind n val (.node m r₁ r₂ r₃ rest) st) :
    OpsSat (f.Free slot [ind, c.bound, l.c]) (.node m r₁ r₂ r₃ .done : Code Op Nat) ∧
      Testing f l c slot ind x y kind n val rest st := by
  obtain ⟨ht, hi, hmem, hb, hdone⟩ := h
  refine ⟨fun o ho => hi o ?_, ht, fun o ho => hi o ?_, hmem, hb, hdone⟩
  · simp only [Code.ops, List.append_nil] at ho
    exact List.mem_append_left _ ho
  · exact List.mem_append_right _ ho

theorem testing_tracks (hf : f.Valid) (ha : Accepted f before l c slot ind x y kind s₀)
    (hsub : l.cond.top.Sublist f.code.ops)
    (hi : [.load ind slot, .cmp l.c kind x y].Sublist l.cond.top)
    (hb : [.load c.bound c.boundAddr, .cmp l.c kind x y].Sublist l.cond.top) :
    Tracks (f.sem.within (f.BoundIs c n)) (OpsSat (f.Free slot [ind, c.bound, l.c]))
      (fun _ => False) (Testing f l c slot ind x y kind n val) where
  moved := fun h hm => h.moved ha.kept hm
  op := fun h => .inr fun hd => h.op hf ha hsub hi hb hd.1 hd.2
  node := fun h => .inr h.node

end Test

/-! ## The step -/

section Stepping

variable (f l) (slot d v : Nat) (up : Op) (val : Int)

/-- What is known on a way through the step, which began with `i = val`, when the operations `os`
have been run. -/
structure Stepped (os : List Op) (st : Store) : Prop where
  after : .store v slot ∈ os → st.mem (.slot slot) = val + 1
  before : .store v slot ∉ os → st.mem (.slot slot) = val ∧ (.load d slot ∈ os → st.env d = val) ∧
    ([.load d slot, up].Sublist os → st.env v = val + 1)

/-- On every way through the step the load, the addition and the store are run in this order, and
the store once. -/
def StepsOnce : Prop :=
  ∀ os, Through l.step os →
    [.load d slot, up, .store v slot].Sublist os ∧ os.count (.store v slot) = 1

variable {f l slot d v up val}

theorem StepsBy.eq_store (h : StepsBy f slot l d v up) (ho : o ∈ l.step.ops)
    (hs : storesTo slot o = true) : o = .store v slot := by
  have hmem : o ∈ l.step.ops.filter (storesTo slot) := List.mem_filter.2 ⟨ho, hs⟩
  rw [h.only] at hmem
  exact List.mem_singleton.1 hmem

/-- The addition adds one. -/
theorem StepsBy.does_up (h : StepsBy f slot l d v up) (hf : f.Valid)
    (hsmall : ∀ y k, up = .add v d y → f.defOf y = some (.const y k) → (f.intType y).Small k)
    (hd : f.Does up st st') : st'.env v = (f.intType d).wrap (st.env d + 1) := by
  obtain ⟨hin, -⟩ := defOf_mem h.up_def
  have hev := eval_of_def st h.load_def nofun
  rcases h.one with rfl | ⟨y, k, rfl, hy, hone⟩
  · have ht : f.intType v = f.intType d := by simp only [Func.intType, hf.inc v d hin]
    cases hd with
    | inc =>
      rw [← hev, ← ht]
      exact if_pos rfl
  · obtain ⟨hvd, hvy⟩ := hf.add v d y hin
    have ht : f.intType v = f.intType d := by simp only [Func.intType, hvd]
    have hty : f.intType y = f.intType d := by simp only [Func.intType, ← hvy, hvd]
    have hval : f.eval st y = (f.intType y).wrap k := by simp only [Func.eval, hy]
    cases hd with
    | add =>
      rw [← wrap_add_one (hty ▸ hsmall y k rfl hy) (hty ▸ hone), ← hty, ← hval, ← hev, hty, ← ht]
      exact if_pos rfl

/-- An operation of the step. -/
theorem Stepped.op {os : List Op} (hf : f.Valid) (hs : StepsBy f slot l d v up)
    (hslot : f.defOf slot = some (.alloca slot)) (hk : f.kept (.slot slot))
    (hsmall : ∀ y k, up = .add v d y → f.defOf y = some (.const y k) → (f.intType y).Small k)
    (hval : (f.intType d).wrap (val + 1) = val + 1) (ho : o ∈ l.step.ops) (hin : o ∈ f.code.ops)
    (honce : o = .store v slot → .store v slot ∉ os ∧ [.load d slot, up].Sublist os)
    (h : Stepped slot d v up val os st) (hd : f.Does o st st') :
    Stepped slot d v up val (os ++ [o]) st' := by
  by_cases hstore : o = .store v slot
  · obtain ⟨hnot, hsub⟩ := honce hstore
    subst hstore
    refine ⟨fun _ => ?_, by simp⟩
    have hsum := (h.before hnot).2.2 hsub
    have hevv : f.eval st v = st.env v := by
      refine eval_of_def st hs.up_def fun d' k => ?_
      rcases hs.one with rfl | ⟨y, k', rfl, -, -⟩ <;> nofun
    cases hd with
    | store hp =>
      rw [loc_of_alloca hslot] at hp
      cases hp
      rw [← hsum, ← hevv]
      exact if_pos rfl
    | storeAny hp _ =>
      rw [loc_of_alloca hslot] at hp
      cases hp
  · have hspares : storesTo slot o = false := by
      by_contra hc
      exact hstore (hs.eq_store ho (by simpa using hc))
    have hmemeq := does_mem hk hspares hd
    refine ⟨fun hc => hmemeq.trans (h.after (by simpa [Ne.symm hstore] using hc)), fun hc => ?_⟩
    obtain ⟨hm, hl, hv⟩ := h.before (by simpa [Ne.symm hstore] using hc)
    refine ⟨hmemeq.trans hm, fun hc => ?_, fun hc => ?_⟩
    · by_cases heq : o = .load d slot
      · subst heq
        rw [does_load (loc_of_alloca hslot) hd, hm]
      · rw [hf.env_kept hs.load_def hin heq hd]
        exact hl (by simpa [Ne.symm heq] using hc)
    · by_cases heq : o = up
      · subst heq
        rw [hs.does_up hf hsmall hd, hl (mem_of_pair hc (by simp)), hval]
      · rw [hf.env_kept hs.up_def hin heq hd]
        refine hv ?_
        have hrev := hc.reverse
        simp only [List.reverse_append, List.reverse_cons, List.reverse_nil, List.nil_append,
          List.singleton_append] at hrev
        exact List.reverse_sublist.1 (hrev.of_cons_of_ne (Ne.symm heq))

/-- What the rest of the program does. -/
theorem Stepped.rely {os : List Op} (hk : f.kept (.slot slot)) (h : Stepped slot d v up val os st)
    (hr : f.disturbs st st') : Stepped slot d v up val os st' := by
  obtain ⟨ha, hb⟩ := h
  rw [← hr.1, ← hr.2 _ hk] at hb
  exact ⟨fun hc => (hr.2 _ hk).trans (ha hc), hb⟩

end Stepping

end Wtc.Counted
