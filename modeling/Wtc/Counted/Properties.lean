import Wtc.Counted.Loop

/-!
# A counted loop that runs at most once

`counted_loop_runs_once`: if the emitted test is true of the value that the bound has while the loop
runs, a run of the loop's block enters the loop's body at most once. It holds for loops that are
`Plain`. `skipped_step_repeats` and `greatest_start_repeats` are loops that `countedLoop` accepts
and that run again: one whose step is under a condition, and one that starts at the greatest number
of its type and includes its bound, which is that number too.
-/

namespace Wtc.Counted

open Wtc.Control

variable {f : Func} {l : Loop Op Nat} {before : List Item} {c : CountedLoop}

/-- The slot of `i`. -/
def Func.slotOf (f : Func) (l : Loop Op Nat) : Option Nat :=
  (f.compared l).bind fun r => f.loadedFrom r.1

/-- A loop that counts as it is read, for the value `n` of its bound: the comparison and its loads
stand in the condition's own block; if the body is entered at all, every way through the step loads
`i`, adds one and stores it, once. Its constants fit in 64 bits, and it does not start at the
greatest number of its type with that number as a bound that is included. -/
structure Func.Plain (f : Func) (before : List Item) (l : Loop Op Nat) (c : CountedLoop) (n : Int) :
    Prop where
  test : ∀ d kind x y, f.defOf l.c = some (.cmp d kind x y) → ∀ v ∈ [x, y], ∀ a,
    f.defOf v = some (.load v a) → [.load v a, .cmp d kind x y].Sublist l.cond.top
  step : ∀ slot s v d up, f.slotOf l = some slot → f.startOf slot before = some s →
    below c.inclusive (s.1.wrap s.2) n → .store v slot ∈ l.step.ops → f.defOf v = some up →
      d ∈ up.operands → f.defOf d = some (.load d slot) → StepsOnce l slot d v up
  added : ∀ slot v d y k, f.slotOf l = some slot → .store v slot ∈ l.step.ops →
    f.defOf v = some (.add v d y) → f.defOf y = some (.const y k) → (f.intType y).Small k
  start : ∀ slot s, f.slotOf l = some slot → f.startOf slot before = some s →
    s.1.Small s.2 ∧ (c.inclusive → ¬ (s.1.wrap s.2 = s.1.max ∧ n = s.1.max))

/-! ## The block before the loop -/

theorem startOf_spec {slot : Nat} {s : IntType × Int} (h : f.startOf slot before = some s) :
    ∃ between v earlier, before = between ++ .op (.store v slot) :: earlier ∧
      (∀ i ∈ between, ∀ o ∈ i.ops, storesTo slot o = false) ∧
      f.defOf v = some (.const v s.2) ∧ s.1 = f.intType v := by
  induction before with
  | nil => cases h
  | cons i items ih =>
    have hskip : f.startOf slot items = some s → (∀ o ∈ i.ops, storesTo slot o = false) →
        ∃ between v earlier, i :: items = between ++ .op (.store v slot) :: earlier ∧
          (∀ i ∈ between, ∀ o ∈ i.ops, storesTo slot o = false) ∧
          f.defOf v = some (.const v s.2) ∧ s.1 = f.intType v := by
      intro hs hi
      obtain ⟨between, v, earlier, rfl, hb, hv⟩ := ih hs
      exact ⟨i :: between, v, earlier, rfl, List.forall_mem_cons.2 ⟨hi, hb⟩, hv⟩
    cases i with
    | node n r₁ r₂ r₃ =>
      rw [Func.startOf] at h
      split at h
      · cases h
      · next hn => exact hskip h (by simpa using hn)
    | op o =>
      by_cases ho : ∃ v addr, o = .store v addr
      · obtain ⟨v, addr, rfl⟩ := ho
        rw [Func.startOf] at h
        split at h
        · next heq =>
          subst heq
          split at h
          · next v' k hk =>
            cases h
            have hres := (defOf_mem hk).2
            cases hres
            exact ⟨[], v, items, rfl, nofun, hk, rfl⟩
          · cases h
        · next hne => exact hskip h (by simpa [Item.ops, storesTo] using hne)
      · have hs : storesTo slot o = false := by
          cases o with
          | store v addr => exact absurd ⟨v, addr, rfl⟩ ho
          | _ => rfl
        refine hskip ?_ (by simpa [Item.ops] using hs)
        cases o with
        | store v addr => exact absurd ⟨v, addr, rfl⟩ ho
        | _ => exact h

theorem block_ne_done (is : List Item) : block is (l.code .done) ≠ .done := by
  cases is with
  | nil => nofun
  | cons i is => cases i <;> nofun

theorem mem_block_ops {is : List Item} {i : Item} (hi : i ∈ is) {rest : Code Op Nat} {o : Op}
    (ho : o ∈ i.ops) : o ∈ (block is rest).ops := by
  induction is with
  | nil => cases hi
  | cons j is ih =>
    rcases List.mem_cons.1 hi with rfl | hmem
    · cases i with
      | op o' => exact List.mem_cons.2 (.inl (List.mem_singleton.1 ho))
      | node n r₁ r₂ r₃ =>
        simp only [Item.ops] at ho
        exact List.mem_append_left _ ho
    · cases j with
      | op o' => exact List.mem_cons_of_mem _ (ih hmem)
      | node n r₁ r₂ r₃ => exact List.mem_append_right _ (ih hmem)

theorem block_ops_sublist (is : List Item) (rest : Code Op Nat) :
    rest.ops.Sublist (block is rest).ops := by
  induction is with
  | nil => exact List.Sublist.refl _
  | cons i is ih =>
    cases i with
    | op o => exact ih.cons o
    | node n r₁ r₂ r₃ => exact ih.trans (List.sublist_append_right _ _)

theorem code_ops (l : Loop Op Nat) :
    (l.code .done).ops = l.cond.ops ++ l.body.ops ++ l.step.ops := by
  simp [Loop.code, Code.ops]

theorem top_sublist (b : Code Op Nat) : b.top.Sublist b.ops := by
  induction b with
  | op o rest ih => exact ih.cons_cons o
  | node n r₁ r₂ r₃ rest _ _ _ ih => exact ih.trans (List.sublist_append_right _ _)
  | _ => exact List.Sublist.refl _

/-- What computes a value in a block itself is not also in a region of it. -/
theorem Func.Valid.not_inner (hf : f.Valid) {b : Code Op Nat} (hb : b.ops.Sublist f.code.ops)
    {o : Op} {v : Nat} (ho : o ∈ b.top) (hv : o.result = some v) {o' : Op} (ho' : o' ∈ b.inner) :
    o'.result ≠ some v := by
  intro hv'
  let p : Op → Bool := fun a => (a.result.map (· == v)).getD false
  have hcount : b.ops.countP p ≤ 1 := by
    have hnd := List.nodup_iff_count_le_one.1 (hf.once.sublist (hb.filterMap Op.result)) v
    rw [List.count, List.countP_filterMap] at hnd
    exact hnd
  have htop : 0 < b.top.countP p := List.countP_pos_iff.2 ⟨o, ho, by simp [p, hv]⟩
  have hinner : 0 < b.inner.countP p := List.countP_pos_iff.2 ⟨o', ho', by simp [p, hv']⟩
  have := countP_ops p b
  omega

/-! ## What is found -/

/-- What `countedLoop` has found: the slot of `i`, the load of `i` and the two operands of the test,
and its kind; the load, the sum and the addition of the step; the store of the start value `start`
and what is before and after it in the block. -/
structure Found where
  slot : Nat
  ind : Nat
  x : Nat
  y : Nat
  kind : CmpKind
  d : Nat
  v : Nat
  up : Op
  v₀ : Nat
  start : IntType × Int
  between : List Item
  earlier : List Item

/-- The start value, as `i` holds it. -/
def Found.val (r : Found) : Int := r.start.1.wrap r.start.2

/-- What is known of a loop that `countedLoop` accepts and that is `Plain`. -/
structure Setting (f : Func) (l : Loop Op Nat) (c : CountedLoop) (before : List Item) (n : Int)
    (r : Found) : Prop where
  valid : f.Valid
  pre : l.pre = true
  accepted : Accepted f before l c r.slot r.ind r.x r.y r.kind r.start
  steps : StepsBy f r.slot l r.d r.v r.up
  condSub : l.cond.ops.Sublist f.code.ops
  bodySub : l.body.ops.Sublist f.code.ops
  stepSub : l.step.ops.Sublist f.code.ops
  split : before = r.between ++ .op (.store r.v₀ r.slot) :: r.earlier
  between : ∀ i ∈ r.between, ∀ o ∈ i.ops, f.Spares r.slot o
  start_def : f.defOf r.v₀ = some (.const r.v₀ r.start.2)
  start_type : r.start.1 = f.intType r.v₀
  type_eq : f.intType r.d = r.start.1
  testInd : [.load r.ind r.slot, .cmp l.c r.kind r.x r.y].Sublist l.cond.top
  testBound : [.load c.bound c.boundAddr, .cmp l.c r.kind r.x r.y].Sublist l.cond.top
  stepOnce : below c.inclusive r.val n → StepsOnce l r.slot r.d r.v r.up
  small : ∀ y k, r.up = .add r.v r.d y → f.defOf y = some (.const y k) → (f.intType y).Small k
  /-- The second test fails. -/
  second : below c.inclusive r.val n →
    r.start.1.wrap (r.val + 1) = r.val + 1 ∧ ¬ below c.inclusive (r.val + 1) n

theorem orient_mem {kind : CmpKind} {x y i b : Nat} {inclusive : Bool}
    (h : orient kind x y = some (i, b, inclusive)) : i ∈ [x, y] ∧ b ∈ [x, y] := by
  cases kind <;> cases h <;> simp

theorem Accepted.slotOf {slot ind x y : Nat} {kind : CmpKind} {s : IntType × Int}
    (h : Accepted f before l c slot ind x y kind s) (hc : f.countedLoop before l = some c) :
    f.slotOf l = some slot := by
  have ht : (f.type x).isSome := by
    by_contra hn
    simp [Func.countedLoop, Func.compared, h.cmp_def, hn] at hc
  simp only [Func.slotOf, Func.compared, h.cmp_def, ht, if_true, h.oriented, Option.bind_some,
    Func.loadedFrom, h.ind_def]

/-- The loads and stores of the slot are of one type, and the bound is of that type. -/
theorem Accepted.types (hf : f.Valid) {slot ind x y : Nat} {kind : CmpKind} {s : IntType × Int}
    (h : Accepted f before l c slot ind x y kind s) {v₀ : Nat} (hst : .store v₀ slot ∈ f.code.ops) :
    (∀ d, f.defOf d = some (.load d slot) → f.intType d = f.intType v₀) ∧
      f.intType c.bound = f.intType v₀ := by
  obtain ⟨pointee, hload, hstore⟩ := hf.pointee
  have hslot : ∀ d, f.defOf d = some (.load d slot) → f.intType d = f.intType v₀ := by
    intro d hd
    rw [Func.intType, Func.intType, hload d slot (defOf_mem hd).1, hstore v₀ slot hst]
  have hxy := hf.cmp l.c kind x y (defOf_mem h.cmp_def).1
  have hall : ∀ w ∈ [x, y], f.type w = f.type x := by
    intro w hw
    rcases List.mem_cons.1 hw with rfl | hw
    · rfl
    · rw [List.mem_singleton.1 hw, hxy]
  have hib : f.type c.bound = f.type ind := by
    rw [hall ind (orient_mem h.oriented).1, hall c.bound (orient_mem h.oriented).2]
  refine ⟨hslot, ?_⟩
  rw [← hslot ind h.ind_def, Func.intType, Func.intType, hib]

theorem setting_of_plain (hf : f.Valid) (hpre : l.pre = true) (hin : f.Holds before l)
    {n : Int} (hc : f.countedLoop before l = some c) (hplain : f.Plain before l c n)
    (hn : atMostOnce (f.intType c.bound) c n) : ∃ r, Setting f l c before n r := by
  obtain ⟨slot, ind, x, y, kind, s, ha⟩ := countedLoop_spec hc
  obtain ⟨d, v, up, hs⟩ := ha.step
  obtain ⟨between, v₀, earlier, hsplit, hbetween, hv₀, hs₁⟩ := startOf_spec ha.start
  have hslot := ha.slotOf hc
  have hparts : (l.cond.ops ++ l.body.ops ++ l.step.ops).Sublist f.code.ops := by
    rw [← code_ops]
    exact (block_ops_sublist _ _).trans hin
  have hcond : l.cond.ops.Sublist f.code.ops :=
    ((List.sublist_append_left _ _).trans (List.sublist_append_left _ _)).trans hparts
  have hbody : l.body.ops.Sublist f.code.ops :=
    ((List.sublist_append_right _ _).trans (List.sublist_append_left _ _)).trans hparts
  have hstep : l.step.ops.Sublist f.code.ops := (List.sublist_append_right _ _).trans hparts
  have hstmem : .store v slot ∈ l.step.ops :=
    (List.mem_filter.1 (hs.only ▸ List.mem_singleton_self _)).1
  have hitems : ∀ i ∈ before, ∀ o ∈ i.ops, o ∈ f.code.ops := fun i hi o ho =>
    hin.subset (mem_block_ops (List.mem_reverse.2 hi) ho)
  have hst₀ : .store v₀ slot ∈ f.code.ops :=
    hitems (.op (.store v₀ slot)) (by rw [hsplit]; simp) _ (List.mem_singleton_self _)
  obtain ⟨htd, htb⟩ := ha.types hf hst₀
  rw [← hs₁] at htd htb
  obtain ⟨hsmall, hmax⟩ := hplain.start slot s hslot ha.start
  refine ⟨⟨slot, ind, x, y, kind, d, v, up, v₀, s, between, earlier⟩, ?_⟩
  refine ⟨hf, hpre, ha, hs, hcond, hbody, hstep, hsplit, ?_, hv₀, hs₁, htd d hs.load_def,
    ?_, ?_, ?_, ?_, ?_⟩
  · intro i hi o ho
    exact ⟨hitems i (by rw [hsplit]; simp [hi]) o ho, hbetween i hi o ho⟩
  · exact hplain.test _ _ _ _ ha.cmp_def ind (orient_mem ha.oriented).1 slot ha.ind_def
  · exact hplain.test _ _ _ _ ha.cmp_def c.bound (orient_mem ha.oriented).2 _ ha.bound_def
  · intro hbelow
    refine hplain.step slot s v d up hslot ha.start hbelow hstmem hs.up_def ?_ hs.load_def
    rcases hs.one with rfl | ⟨y, k, rfl, -, -⟩ <;> simp [Op.operands]
  · intro y k hup hk
    exact hplain.added slot v d y k hslot hstmem (hs.up_def.trans (congrArg some hup)) hk
  · intro hbelow
    rw [htb] at hn
    unfold atMostOnce at hn
    rw [decide_eq_true_eq, ha.first] at hn
    exact second_test_fails hsmall hmax hbelow hn

/-! ## The phases of a run -/

section Phases

variable (f l c) (n : Int) (r : Found)

/-- The loop has been left, or is being left. -/
def Left (k : List (Frame Op Nat)) : Prop :=
  k = base ∨ k = [] ∨ (∃ e, k = .exit e :: base) ∨ (∃ e, k = [.exit e]) ∨
    ∃ e g, k = .exit e :: g :: base ∧ (g = .test l ∨ g = .step l)

/-- Before the start value is stored. -/
def Early (s : Code Op Nat) (_ : Store) : Prop :=
  ∃ is, s = block (is ++ .op (.store r.v₀ r.slot) :: r.between.reverse) (l.code .done)

/-- After it, `i` holds it. -/
def Late (s : Code Op Nat) (st : Store) : Prop :=
  ∃ is, s = block is (l.code .done) ∧ (∀ i ∈ is, ∀ o ∈ i.ops, f.Spares r.slot o) ∧
    st.mem (.slot r.slot) = r.val

/-- In the body `i` stays as it is. -/
def Steadily (s : Code Op Nat) (st : Store) : Prop :=
  OpsSat (f.Spares r.slot) s ∧ st.mem (.slot r.slot) = r.val

/-- On a way through the step on which `i` has been followed if it can come to the end. -/
def Stepping (k : List (Frame Op Nat)) (st : Store) : Prop :=
  ∃ u os, k = u ++ .step l :: base ∧ u ≠ [] ∧ (∀ e, u ≠ [.exit e]) ∧
    AllSat (OpsSat (· ∈ l.step.ops)) (fun _ => True) u ∧ Path [.block l.step] os u ∧
    ((∃ os', Path u os' []) → Stepped r.slot r.d r.v r.up r.val os st)

/-- The number of times the body has been entered, and `i`. The second time the test fails. -/
def Counts (m : Nat) (i : Int) : Prop :=
  (m = 0 ∧ i = r.val) ∨ (m = 1 ∧ i = r.val + 1 ∧ ¬ below c.inclusive (r.val + 1) n)

/-- Where a run is that has entered the body `m` times. -/
inductive Phase : Nat → List (Frame Op Nat) → Store → Prop where
  | early {k st} : InBlock (fun _ => True) (fun _ => True) (Early l r) [] k st → Phase 0 k st
  | late {k st} : InBlock (OpsSat (f.Spares r.slot)) (fun _ => True) (Late f l r) [] k st →
    Phase 0 k st
  | cond {m i k st} : Counts c n r m i →
    InBlock (OpsSat (f.Free r.slot [r.ind, c.bound, l.c])) (fun _ => True)
      (Testing f l c r.slot r.ind r.x r.y r.kind n i) (.test l :: base) k st → Phase m k st
  | test {m i st} : Counts c n r m i → (st.env l.c = 0 ↔ ¬ below c.inclusive i n) →
    st.mem (.slot r.slot) = i → Phase m (.test l :: base) st
  | body {k st} : below c.inclusive r.val n →
    InBlock (OpsSat (f.Spares r.slot)) (fun _ => True) (Steadily f r) (.body l :: base) k st →
    Phase 1 k st
  | bodyExit {e st} : below c.inclusive r.val n → st.mem (.slot r.slot) = r.val →
    Phase 1 (.exit e :: .body l :: base) st
  | bodyEnd {st} : below c.inclusive r.val n → st.mem (.slot r.slot) = r.val →
    Phase 1 (.body l :: base) st
  | step {k st} : below c.inclusive r.val n → Stepping l r k st → Phase 1 k st
  | stepEnd {st} : below c.inclusive r.val n → st.mem (.slot r.slot) = r.val + 1 →
    Phase 1 (.step l :: base) st
  | left {m k st} : m ≤ 1 → Left l k → Phase m k st

end Phases

variable {n : Int} {r : Found} {k k' : List (Frame Op Nat)} {st st' : Store} {m : Nat}

/-- Being left, the loop stays left. -/
theorem Left.step {S : Sem Op Nat Store} (h : Left l k) (hs : Step S (k, st) (k', st')) :
    Left l k' := by
  rcases h with rfl | rfl | ⟨e, rfl⟩ | ⟨e, rfl⟩ | ⟨e, g, rfl, hg⟩
  · rcases hs.cases_tau rfl with ⟨rfl, -⟩ | ⟨rfl, -⟩
    · exact .inr (.inl rfl)
    · exact .inl rfl
  · obtain ⟨rfl, -⟩ := hs.cases_stop rfl
    exact .inr (.inl rfl)
  · rcases hs.cases_tau rfl with ⟨rfl, -⟩ | ⟨rfl, -⟩
    · exact .inr (.inr (.inr (.inl ⟨e, rfl⟩)))
    · exact .inr (.inr (.inl ⟨e, rfl⟩))
  · obtain ⟨rfl, -⟩ := hs.cases_stop rfl
    exact .inr (.inr (.inr (.inl ⟨e, rfl⟩)))
  · have hn : next (.exit e :: g :: base) =
        .tau (if e = .jump .brk then base else .exit e :: base) := by
      rcases hg with rfl | rfl <;> rfl
    rcases hs.cases_tau hn with ⟨rfl, -⟩ | ⟨rfl, -⟩
    · split_ifs
      · exact .inl rfl
      · exact .inr (.inr (.inl ⟨e, rfl⟩))
    · exact .inr (.inr (.inr (.inr ⟨e, g, rfl, hg⟩)))

theorem inherits_true : Inherits (fun _ : Code Op Nat => True) fun _ => True :=
  ⟨fun _ => ⟨trivial, trivial, trivial, trivial⟩, fun _ _ => trivial, fun _ => trivial⟩

theorem early_tracks (S : Sem Op Nat Store) :
    Tracks S (fun _ => True)
      (fun s => s = .op (.store r.v₀ r.slot) (block r.between.reverse (l.code .done)))
      (Early l r) where
  moved := fun h _ => h
  op := by
    rintro o rest st st' ⟨is, he⟩
    rcases is with _ | ⟨_ | _, is⟩ <;> cases he
    · exact .inl rfl
    · exact .inr fun _ => ⟨is, rfl⟩
  node := by
    rintro n r₁ r₂ r₃ rest st ⟨is, he⟩
    rcases is with _ | ⟨_ | _, is⟩ <;> cases he
    exact .inr ⟨trivial, is, rfl⟩

theorem Late.op {o : Op} {rest : Code Op Nat} (hk : f.kept (.slot r.slot))
    (h : Late f l r (.op o rest) st) (hd : f.Does o st st') : Late f l r rest st' := by
  obtain ⟨is, he, hspares, hmem⟩ := h
  rcases is with _ | ⟨_ | _, is⟩ <;> cases he
  obtain ⟨hi, hspares⟩ := List.forall_mem_cons.1 hspares
  refine ⟨is, rfl, hspares, ?_⟩
  rw [does_mem hk (hi _ (List.mem_singleton_self _)).2 hd, hmem]

/-- What the rest of the program, or code that spares the slot, does to it. -/
theorem moved_mem {Q : Op → Prop} {slot : Nat} (hk : f.kept (.slot slot))
    (hQ : ∀ o, Q o → storesTo slot o = false) (hm : Moved f.sem (OpsSat Q) st st') :
    st'.mem (.slot slot) = st.mem (.slot slot) := by
  rcases hm with rfl | hr | ⟨o, rest, hq, hd⟩
  · rfl
  · exact hr.2 _ hk
  · exact does_mem hk (hQ o (hq o List.mem_cons_self)) hd

theorem late_tracks (hk : f.kept (.slot r.slot)) :
    Tracks f.sem (OpsSat (f.Spares r.slot)) (fun s => s = l.code .done) (Late f l r) where
  moved := by
    rintro s st st' ⟨is, he, hspares, hmem⟩ hm
    exact ⟨is, he, hspares, (moved_mem hk (fun o ho => ho.2) hm).trans hmem⟩
  op := fun h => .inr fun hd => h.op hk hd
  node := by
    rintro n r₁ r₂ r₃ rest st ⟨is, he, hspares, hmem⟩
    rcases is with _ | ⟨_ | _, is⟩ <;> cases he
    · exact .inl rfl
    · obtain ⟨hi, hspares⟩ := List.forall_mem_cons.1 hspares
      refine .inr ⟨fun o ho => hi o ?_, is, rfl, hspares, hmem⟩
      simpa [Code.ops, Item.ops] using ho

theorem steadily_tracks (hk : f.kept (.slot r.slot)) :
    Tracks f.sem (OpsSat (f.Spares r.slot)) (fun _ => False) (Steadily f r) where
  moved := fun h hm => ⟨h.1, (moved_mem hk (fun o ho => ho.2) hm).trans h.2⟩
  op := fun h => .inr fun hd =>
    ⟨tails_opsSat h.1, (does_mem hk (h.1 _ List.mem_cons_self).2 hd).trans h.2⟩
  node := by
    rintro n r₁ r₂ r₃ rest st ⟨hops, hmem⟩
    obtain ⟨h₁, h₂, h₃, hrest⟩ := inherits_opsSat.node hops
    refine .inr ⟨fun o ho => ?_, hrest, hmem⟩
    simp only [Code.ops, List.append_nil, List.mem_append] at ho
    rcases ho with (ho | ho) | ho
    · exact h₁ o ho
    · exact h₂ o ho
    · exact h₃ o ho

/-- A step inside the step: it goes on, it is done and has added one, or it is left. -/
theorem Stepping.next (h : Setting f l c before n r) (hb : below c.inclusive r.val n)
    (hp : Stepping l r k st) (hs : Step f.sem (k, st) (k', st')) :
    Stepping l r k' st' ∨ (k' = .step l :: base ∧ st'.mem (.slot r.slot) = r.val + 1) ∨
      ∃ e, k' = .exit e :: .step l :: base := by
  obtain ⟨u, os, rfl, hne, hex, hsat, hpath, hfollow⟩ := hp
  obtain ⟨u', rfl, hstep⟩ := hs.of_append hne hex
  obtain ⟨hsat', hstep⟩ := hstep.path inherits_opsSat tails_opsSat hsat
  have hone := h.stepOnce hb
  -- if the end can be reached from here, it could be from there
  obtain ⟨os₁, hpath', hfollow'⟩ : ∃ os₁, Path [.block l.step] os₁ u' ∧
      ((∃ os', Path u' os' []) → Stepped r.slot r.d r.v r.up r.val os₁ st') := by
    rcases hstep with ⟨rfl, hr⟩ | ⟨htau, rfl⟩ | ⟨o, rest, hop, ho, hd⟩
    · exact ⟨os, hpath, fun hend => (hfollow hend).rely h.accepted.kept hr⟩
    · exact ⟨os ++ [], hpath.trans htau, fun ⟨os', hend⟩ => by
        rw [List.append_nil]
        exact hfollow ⟨_, htau.trans hend⟩⟩
    · refine ⟨os ++ [o], hpath.trans hop, fun ⟨os', hend⟩ => ?_⟩
      have ho := ho o List.mem_cons_self
      refine (hfollow ⟨_, hop.trans hend⟩).op h.valid h.steps h.accepted.slot_def h.accepted.kept
        h.small (by rw [h.type_eq]; exact (h.second hb).1) ho (h.stepSub.subset ho) ?_ hd
      rintro rfl
      obtain ⟨hsub, hcount⟩ := hone _ (hpath.trans (hop.trans hend))
      simp only [List.singleton_append, List.count_append, List.count_cons_self] at hcount hsub
      have hbefore : .store r.v r.slot ∉ os := List.count_eq_zero.1 (by omega)
      have hafter : .store r.v r.slot ∉ os' := List.count_eq_zero.1 (by omega)
      exact ⟨hbefore, sublist_of_last (by exact hsub) hafter⟩
  by_cases hnil : u' = []
  · subst hnil
    have hstore : .store r.v r.slot ∈ os₁ := (hone os₁ hpath').1.subset (by simp)
    exact .inr (.inl ⟨rfl, (hfollow' ⟨[], .refl⟩).after hstore⟩)
  by_cases hexit : ∃ e, u' = [.exit e]
  · obtain ⟨e, rfl⟩ := hexit
    exact .inr (.inr ⟨e, rfl⟩)
  · exact .inl ⟨u', os₁, rfl, hnil, fun e he => hexit ⟨e, he⟩, hsat', hpath', hfollow'⟩

/-- A block of the function that is not done is not the rest of the loop's block. -/
theorem ne_test_of_inBlock {Q : Code Op Nat → Prop} {E : Exit → Prop}
    {F : Code Op Nat → Store → Prop} (h : InBlock Q E F [] k st) (hF : ¬ F .done st) :
    k ≠ .test l :: base := by
  obtain ⟨w, s, rfl, -, hf⟩ := h.elim
  intro he
  have hlast := congrArg List.getLast? he
  simp only [List.getLast?_append, List.getLast?_singleton, Option.some_or, base,
    List.getLast?_cons_cons, Option.some.injEq, Frame.block.injEq] at hlast
  subst hlast
  exact hF hf

theorem Early.not_done : ¬ Early l r .done st := fun ⟨_, he⟩ => block_ne_done _ he.symm

theorem Late.not_done : ¬ Late f l r .done st := fun ⟨_, he, _⟩ => block_ne_done _ he.symm

theorem Phase.at_test (h : Phase f l c n r m (.test l :: base) st) :
    ∃ i, Counts c n r m i ∧ (st.env l.c = 0 ↔ ¬ below c.inclusive i n) ∧
      st.mem (.slot r.slot) = i := by
  cases h with
  | early h => exact absurd rfl (ne_test_of_inBlock h Early.not_done)
  | late h => exact absurd rfl (ne_test_of_inBlock h Late.not_done)
  | cond hi h | body hb h => exact absurd rfl h.ne_cons
  | step hb h =>
    obtain ⟨u, os, he, hne, -⟩ := h
    have hlen := congrArg List.length he
    simp only [List.length_append, List.length_cons] at hlen
    exact absurd (List.length_eq_zero_iff.1 (by omega)) hne
  | test hi ht hmem => exact ⟨_, hi, ht, hmem⟩
  | left hm h =>
    rcases h with h | h | ⟨e, h⟩ | ⟨e, h⟩ | ⟨e, g, h, -⟩ <;> cases h

theorem inside_of_test (w : List (Frame Op Nat)) : Inside l base (w ++ .test l :: base) :=
  ⟨w, .test l, rfl, .inl rfl⟩

/-- The condition is begun. -/
theorem Setting.begin_cond (h : Setting f l c before n r) {i : Int} (hi : Counts c n r m i)
    (hmem : st.mem (.slot r.slot) = i) (hb : f.BoundIs c n st) :
    Phase f l c n r m (.block l.cond :: .test l :: base) st := by
  have htop := (top_sublist l.cond).trans h.condSub
  refine .cond hi (InBlock.mk (w := []) nofun ⟨?_, ?_, hmem, hb, [], rfl, nofun, nofun, nofun⟩)
  · intro o ho
    exact ⟨htop.subset ho, h.accepted.cond o (mem_ops_of_top ho)⟩
  · intro o ho
    have hops := mem_ops_of_inner ho
    refine ⟨⟨h.condSub.subset hops, h.accepted.cond o hops⟩, ?_⟩
    have hfree : ∀ {a : Op} {v : Nat}, a ∈ l.cond.top → a.result = some v → o.result ≠ some v :=
      fun ha hv => h.valid.not_inner h.condSub ha hv ho
    intro v hv
    simp only [List.mem_cons, List.not_mem_nil, or_false] at hv
    rcases hv with rfl | rfl | rfl
    · exact hfree (a := .load r.ind r.slot) (h.testInd.subset (by simp)) rfl
    · exact hfree (a := .load c.bound c.boundAddr) (h.testBound.subset (by simp)) rfl
    · exact hfree (a := .cmp l.c r.kind r.x r.y) (h.testInd.subset (by simp)) rfl

/-- The step is begun. -/
theorem begin_step (hb : below c.inclusive r.val n) (hmem : st.mem (.slot r.slot) = r.val) :
    Phase f l c n r 1 (.block l.step :: .step l :: base) st := by
  refine .step hb ⟨[.block l.step], [], rfl, by simp, by simp, ?_, .refl, fun _ => ?_⟩
  · exact fun g hg => List.mem_singleton.1 hg ▸ fun o ho => ho
  · exact ⟨by simp, fun _ => ⟨hmem, by simp, by simp⟩⟩

theorem Counts.le {i : Int} (h : Counts c n r m i) : m ≤ 1 := by
  rcases h with ⟨rfl, -⟩ | ⟨rfl, -⟩ <;> omega

theorem start_pre (h : l.pre = true) : l.start = [.block l.cond, .test l] := by
  unfold Loop.start
  rw [if_pos h]

/-- Up to the store of the start value. -/
theorem Setting.early_step (h : Setting f l c before n r)
    (hp : InBlock (fun _ => True) (fun _ => True) (Early l r) [] k st)
    (hs : Step f.sem (k, st) (k', st')) : Phase f l c n r 0 k' st' := by
  rcases (early_tracks f.sem).step inherits_true (fun _ => trivial) hp hs with
    hp | ⟨s, rfl, rfl, -⟩ | ⟨-, hd, -⟩ | ⟨e, rfl, -⟩
  · exact .early hp
  · -- the start value is stored
    rcases hs.cases_op rfl with ⟨rfl, hd⟩ | ⟨rfl, -⟩
    · refine .late (InBlock.mk (w := []) nofun ⟨_, rfl, ?_, ?_⟩)
      · intro i hi
        exact h.between i (List.mem_reverse.1 hi)
      · cases hd with
        | store hloc =>
          rw [loc_of_alloca h.accepted.slot_def] at hloc
          cases hloc
          have hev : f.eval st r.v₀ = r.val := by
            simp only [Func.eval, h.start_def, Found.val, h.start_type]
          rw [← hev]
          exact if_pos rfl
        | storeAny hloc _ =>
          rw [loc_of_alloca h.accepted.slot_def] at hloc
          cases hloc
    · exact .early (InBlock.mk (w := []) nofun ⟨[], rfl⟩)
  · exact absurd hd Early.not_done
  · exact .left (by omega) (.inr (.inr (.inr (.inl ⟨e, rfl⟩))))

/-- From there to the loop. -/
theorem Setting.late_step (h : Setting f l c before n r)
    (hp : InBlock (OpsSat (f.Spares r.slot)) (fun _ => True) (Late f l r) [] k st)
    (hs : Step f.sem (k, st) (k', st')) (hb : f.Steady l c n (k', st')) :
    Phase f l c n r 0 k' st' := by
  have hk := h.accepted.kept
  rcases (late_tracks hk).step inherits_opsSat tails_opsSat hp hs with
    hp | ⟨s, rfl, rfl, hlate⟩ | ⟨-, hd, -⟩ | ⟨e, rfl, -⟩
  · exact .late hp
  · -- the loop is entered
    rcases hs.cases_tau (next_code l .done) with ⟨rfl, rfl⟩ | ⟨rfl, hr⟩
    · obtain ⟨-, -, -, hmem⟩ := hlate
      rw [start_pre h.pre] at hb ⊢
      exact h.begin_cond (.inl ⟨rfl, rfl⟩) hmem (hb (inside_of_test [_]))
    · obtain ⟨is, he, hspares, hmem⟩ := hlate
      exact .late (InBlock.mk (w := []) nofun
        ⟨is, he, hspares, (hr.2 (.slot r.slot) hk).trans hmem⟩)
  · exact absurd hd Late.not_done
  · exact .left (by omega) (.inr (.inr (.inr (.inl ⟨e, rfl⟩))))

theorem Setting.cond_step (h : Setting f l c before n r) {i : Int} (hi : Counts c n r m i)
    (hp : InBlock (OpsSat (f.Free r.slot [r.ind, c.bound, l.c])) (fun _ => True)
      (Testing f l c r.slot r.ind r.x r.y r.kind n i) (.test l :: base) k st)
    (hs : Step f.sem (k, st) (k', st')) (hb : f.Steady l c n (k', st')) :
    Phase f l c n r m k' st' := by
  have htracks : Tracks (f.sem.within (f.BoundIs c n))
      (OpsSat (f.Free r.slot [r.ind, c.bound, l.c])) (fun _ => False)
      (Testing f l c r.slot r.ind r.x r.y r.kind n i) :=
    testing_tracks h.valid h.accepted ((top_sublist _).trans h.condSub) h.testInd h.testBound
  have hin : Inside l base k' := by
    obtain ⟨u, rfl⟩ := hp.step_above hs
    exact inside_of_test u
  rcases htracks.step inherits_opsSat tails_opsSat hp (hs.within (hb hin)) with
    hp | ⟨s, -, hf, -⟩ | ⟨rfl, hd, rfl⟩ | ⟨e, rfl, -⟩
  · exact .cond hi hp
  · exact hf.elim
  · obtain ⟨-, -, hmem, -, pre, htop, -, -, hcmp⟩ := hd
    have hpre : pre = l.cond.top := by
      rw [htop]
      exact (List.append_nil _).symm
    exact .test hi (hcmp (hpre ▸ h.testInd.subset (by simp))) hmem
  · exact .left hi.le (.inr (.inr (.inr (.inr ⟨e, .test l, rfl, .inl rfl⟩))))

/-- A step of a run keeps to the phases. The test is looked at apart from this. -/
theorem Phase.step_of_ne (h : Setting f l c before n r) (hp : Phase f l c n r m k st)
    (hne : k ≠ .test l :: base) (hs : Step f.sem (k, st) (k', st'))
    (hb : f.Steady l c n (k', st')) : Phase f l c n r m k' st' := by
  have hk := h.accepted.kept
  cases hp with
  | early hp => exact h.early_step hp hs
  | late hp => exact h.late_step hp hs hb
  | cond hi hp => exact h.cond_step hi hp hs hb
  | test hi ht hmem => exact absurd rfl hne
  | body hbelow hp =>
    rcases (steadily_tracks hk).step inherits_opsSat tails_opsSat hp hs with
      hp | ⟨s, -, hf, -⟩ | ⟨rfl, hd, rfl⟩ | ⟨e, rfl, rfl⟩
    · exact .body hbelow hp
    · exact hf.elim
    · exact .bodyEnd hbelow hd.2
    · obtain ⟨w, s, -, -, hd⟩ := hp.elim
      exact .bodyExit hbelow hd.2
  | @bodyExit e st hbelow hmem =>
    -- `continue` ends the body, and any other way out leaves the loop
    rcases hs.cases_tau rfl with ⟨rfl, rfl⟩ | ⟨rfl, hr⟩
    · split_ifs
      · exact .left (le_refl 1) (.inl rfl)
      · exact .bodyEnd hbelow hmem
      · exact .left (le_refl 1) (.inr (.inr (.inl ⟨e, rfl⟩)))
    · exact .bodyExit hbelow ((hr.2 (.slot r.slot) hk).trans hmem)
  | bodyEnd hbelow hmem =>
    rcases hs.cases_tau rfl with ⟨rfl, rfl⟩ | ⟨rfl, hr⟩
    · exact begin_step hbelow hmem
    · exact .bodyEnd hbelow ((hr.2 (.slot r.slot) hk).trans hmem)
  | step hbelow hp =>
    rcases hp.next h hbelow hs with hp | ⟨rfl, hmem⟩ | ⟨e, rfl⟩
    · exact .step hbelow hp
    · exact .stepEnd hbelow hmem
    · exact .left (le_refl 1) (.inr (.inr (.inr (.inr ⟨e, .step l, rfl, .inr rfl⟩))))
  | stepEnd hbelow hmem =>
    rcases hs.cases_tau rfl with ⟨rfl, rfl⟩ | ⟨rfl, hr⟩
    · exact h.begin_cond (.inr ⟨rfl, rfl, (h.second hbelow).2⟩) hmem (hb (inside_of_test [_]))
    · exact .stepEnd hbelow ((hr.2 (.slot r.slot) hk).trans hmem)
  | left hm hp => exact .left hm (hp.step hs)

/-- The state that the rest of the program leaves at the test. -/
theorem Phase.test_rest (h : Setting f l c before n r) (hp : Phase f l c n r m (.test l :: base) st)
    (hr : f.disturbs st st') : Phase f l c n r m (.test l :: base) st' := by
  obtain ⟨i, hi, ht, hmem⟩ := hp.at_test
  refine .test hi ?_ ((hr.2 (.slot r.slot) h.accepted.kept).trans hmem)
  rw [hr.1]
  exact ht

/-- **The phases of a whole run.** -/
theorem runs_phase (h : Setting f l c before n r) {st₀ : Store}
    {s : List (Frame Op Nat) × Store}
    (hr : Runs f.sem l base (f.Steady l c n) ([.block (block before.reverse (l.code .done))], st₀)
      m s) : Phase f l c n r m s.1 s.2 := by
  induction hr with
  | start hp =>
    refine .early (InBlock.mk (w := []) nofun ⟨r.earlier.reverse, ?_⟩)
    rw [h.split]
    simp
  | enter hrun hd hm hp ih =>
    obtain ⟨i, hi, ht, hmem⟩ := ih.at_test
    -- the test let `i` through, so this is the first time
    have hbelow : below c.inclusive i n := by
      by_contra hno
      have hzero := ht.2 hno
      have hdec := hd
      simp only [Func.sem, Func.decides, h.accepted.cmp_def] at hdec
      exact hm (hdec.2 hzero)
    rcases hi with ⟨rfl, rfl⟩ | ⟨-, rfl, hno⟩
    · refine .body hbelow (InBlock.mk (w := []) nofun ⟨fun o ho => ?_, hmem⟩)
      exact ⟨h.bodySub.subset ho, h.accepted.body o ho⟩
    · exact absurd hbelow hno
  | @step m s s' hrun hs hne hp ih =>
    obtain ⟨k, st⟩ := s
    obtain ⟨k', st'⟩ := s'
    by_cases hk : k = .test l :: base
    · subst hk
      rcases hs.cases_test rfl with ⟨q, rfl, -, rfl⟩ | ⟨rfl, hr⟩
      · obtain ⟨i, hi, -⟩ := ih.at_test
        dsimp only at hne ⊢
        split_ifs at hne ⊢
        · exact .left hi.le (.inl rfl)
        · exact absurd ⟨rfl, rfl⟩ hne
      · exact ih.test_rest h hr
    · exact ih.step_of_ne h hk hs hp

theorem Phase.le_one (h : Phase f l c n r m k st) : m ≤ 1 := by
  cases h with
  | cond hi _ | test hi _ _ => exact hi.le
  | left hm _ => exact hm
  | _ => omega

/--
**A counted loop for which the emitted test is true runs its body at most once.**

For every function, every `for` loop in it that `countedLoop` accepts, and every value `n` that the
bound has while the loop runs and for which the loop is `Plain`: if `atMostOnce` is true of `n`,
then however a run of the loop's block goes, it enters the body no more than once.
-/
theorem counted_loop_runs_once (hf : f.Valid) (hpre : l.pre = true) (hin : f.Holds before l)
    (hc : f.countedLoop before l = some c) (hplain : f.Plain before l c n)
    (hn : atMostOnce (f.intType c.bound) c n) {st₀ : Store} {s : List (Frame Op Nat) × Store}
    (hr : Runs f.sem l base (f.Steady l c n) ([.block (block before.reverse (l.code .done))], st₀)
      m s) : m ≤ 1 := by
  obtain ⟨r, h⟩ := setting_of_plain hf hpre hin hc hplain hn
  exact (runs_phase h hr).le_one

/-! ## Three loops -/

/-- `for (i = k; i ~ n; step) ;`, with `i` in slot 0 and `n` in slot 1. -/
def exampleLoop (kind : CmpKind) (step : Code Op Nat) : Loop Op Nat :=
  ⟨true, 5, .op (.load 3 0) (.op (.load 4 1) (.op (.cmp 5 kind 3 4) .done)), .done, step⟩

def exampleFunc (t : IntType) (kind : CmpKind) (k : Int) (step : Code Op Nat) : Func where
  code := .op (.alloca 0) (.op (.alloca 1) (.op (.const 2 k)
    (.node .scope (.op (.store 2 0) ((exampleLoop kind step).code .done)) .done .done .done)))
  type := fun _ => some t

/-- `++i`. -/
def increment : Code Op Nat := .op (.load 7 0) (.op (.inc 8 7) (.op (.store 8 0) .done))

/-- `c ? ++i : 0`. -/
def incrementIf : Code Op Nat :=
  .op (.other (some 6) []) (.node (.ite 6) increment .done .done .done)

def int32 : IntType := ⟨32, true⟩

def uint32 : IntType := ⟨32, false⟩

/-- The memory at the start: the bound is `n`. -/
def exampleStore (n : Int) : Store := ⟨fun _ => 0, fun p => if p = .slot 1 then n else 0⟩

/-- What the bound is in the examples. -/
def exampleCounted (first : Int) (inclusive : Bool) : CountedLoop := ⟨4, 1, first, inclusive⟩

/-- A run of the example that has entered the body `m` times. -/
def ExampleRuns (t : IntType) (kind : CmpKind) (k n : Int) (step : Code Op Nat) (b : CountedLoop) :
    Nat → List (Frame Op Nat) × Store → Prop :=
  Runs (exampleFunc t kind k step).sem (exampleLoop kind step) base
    ((exampleFunc t kind k step).Steady (exampleLoop kind step) b n)
    ([.block (block [.op (.store 2 0)] ((exampleLoop kind step).code .done))], exampleStore n)

section Examples

variable {t : IntType} {kind : CmpKind} {k n i : Int} {step : Code Op Nat} {b : CountedLoop}
  {st : Store}

theorem steady_of_mem (hb : b.boundAddr = 1) (h : st.mem (.slot 1) = n) :
    (exampleFunc t kind k step).Steady (exampleLoop kind step) b n (k', st) := by
  intro _ p hp
  rw [hb] at hp
  cases hp
  exact h

/-- The test lets `i` through. -/
theorem runs_test (hb : b.boundAddr = 1)
    (h : ExampleRuns t kind k n step b m
      (.block (exampleLoop kind step).cond :: .test (exampleLoop kind step) :: base, st))
    (h₀ : st.mem (.slot 0) = i) (h₁ : st.mem (.slot 1) = n) (hk : kind.holds i n) :
    ∃ st', ExampleRuns t kind k n step b (m + 1)
        (.block .done :: .body (exampleLoop kind step) :: base, st') ∧
      st'.mem (.slot 0) = i ∧ st'.mem (.slot 1) = n := by
  have r₁ := h.step (.op rfl (.load rfl)) (fun h => nomatch h.1) (steady_of_mem hb h₁)
  have r₂ := r₁.step (.op rfl (.load rfl)) (fun h => nomatch h.1) (steady_of_mem hb h₁)
  have r₃ := r₂.step (.op rfl .cmp) (fun h => nomatch h.1) (steady_of_mem hb h₁)
  have r₄ := r₃.step (.tau rfl) (fun h => nomatch h.1) (steady_of_mem hb h₁)
  refine ⟨_, r₄.enter (m := 1) ?_ (by decide) (steady_of_mem hb h₁), h₀, h₁⟩
  show 1 = 0 ↔ boolInt (kind.holds (st.mem (.slot 0)) (st.mem (.slot 1))) = 0
  rw [h₀, h₁, hk]
  decide

/-- The loop is entered with its start value. -/
theorem runs_begin (kind : CmpKind) (hb : b.boundAddr = 1) :
    ∃ st, ExampleRuns t kind k n step b 0
        (.block (exampleLoop kind step).cond :: .test (exampleLoop kind step) :: base, st) ∧
      st.mem (.slot 0) = t.wrap k ∧ st.mem (.slot 1) = n := by
  have r₀ : ExampleRuns t kind k n step b 0 _ := .start (steady_of_mem hb rfl)
  have r₁ := r₀.step (.op rfl (.store rfl)) (fun h => nomatch h.1) (steady_of_mem hb rfl)
  have r₂ := r₁.step (.tau rfl) (fun h => nomatch h.1) (steady_of_mem hb rfl)
  exact ⟨_, r₂, rfl, rfl⟩

/-- A step that is skipped leaves `i` as it is. -/
theorem runs_skipped (hb : b.boundAddr = 1)
    (h : ExampleRuns t kind k n incrementIf b m
      (.block .done :: .body (exampleLoop kind incrementIf) :: base, st))
    (h₁ : st.mem (.slot 1) = n) :
    ∃ st', ExampleRuns t kind k n incrementIf b m
        (.block (exampleLoop kind incrementIf).cond :: .test (exampleLoop kind incrementIf) :: base,
          st') ∧
      st'.mem = st.mem := by
  have r₁ := h.step (.tau rfl) (fun h => nomatch h.1) (steady_of_mem hb h₁)
  have r₂ := r₁.step (.tau rfl) (fun h => nomatch h.1) (steady_of_mem hb h₁)
  have r₃ := r₂.step (.op rfl (.other (v := 0) ⟨rfl, fun _ _ => rfl⟩)) (fun h => nomatch h.1)
    (steady_of_mem hb h₁)
  have r₄ := r₃.step (.test (n := 0) rfl trivial) (fun h => nomatch h.1) (steady_of_mem hb h₁)
  have r₅ := r₄.step (.tau rfl) (fun h => nomatch h.1) (steady_of_mem hb h₁)
  have r₆ := r₅.step (.tau rfl) (fun h => nomatch h.1) (steady_of_mem hb h₁)
  have r₇ := r₆.step (.tau rfl) (fun h => nomatch h.1) (steady_of_mem hb h₁)
  exact ⟨_, r₇, rfl⟩

/-- A step that is made adds one, in the type. -/
theorem runs_stepped (hb : b.boundAddr = 1)
    (h : ExampleRuns t kind k n increment b m
      (.block .done :: .body (exampleLoop kind increment) :: base, st))
    (h₀ : st.mem (.slot 0) = i) (h₁ : st.mem (.slot 1) = n) :
    ∃ st', ExampleRuns t kind k n increment b m
        (.block (exampleLoop kind increment).cond :: .test (exampleLoop kind increment) :: base,
          st') ∧
      st'.mem (.slot 0) = t.wrap (i + 1) ∧ st'.mem (.slot 1) = n := by
  have r₁ := h.step (.tau rfl) (fun h => nomatch h.1) (steady_of_mem hb h₁)
  have r₂ := r₁.step (.tau rfl) (fun h => nomatch h.1) (steady_of_mem hb h₁)
  have r₃ := r₂.step (.op rfl (.load rfl)) (fun h => nomatch h.1) (steady_of_mem hb h₁)
  have r₄ := r₃.step (.op rfl .inc) (fun h => nomatch h.1) (steady_of_mem hb h₁)
  have r₅ := r₄.step (.op rfl (.store rfl)) (fun h => nomatch h.1) (steady_of_mem hb h₁)
  have r₆ := r₅.step (.tau rfl) (fun h => nomatch h.1) (steady_of_mem hb h₁)
  have r₇ := r₆.step (.tau rfl) (fun h => nomatch h.1) (steady_of_mem hb h₁)
  refine ⟨_, r₇, ?_, h₁⟩
  rw [← h₀]
  rfl

end Examples

/-- What holds of the loop before it runs. -/
theorem example_holds (kind : CmpKind) (k : Int) (step : Code Op Nat) :
    (exampleFunc t kind k step).Holds [.op (.store 2 0)] (exampleLoop kind step) := by
  have h := List.sublist_append_right [Op.alloca 0, Op.alloca 1, Op.const 2 k]
    (.store 2 0 :: ((exampleLoop kind step).code .done).ops)
  simpa [Func.Holds, exampleFunc, Code.ops, block] using h

/-- **The step may be skipped.** `for (int i = 0; i < n; c ? ++i : 0)` is accepted, and with `n = 1`
the emitted test is true; the body is entered twice when the step's condition is false. -/
theorem skipped_step_repeats :
    let f := exampleFunc int32 .lt 0 incrementIf
    let l := exampleLoop .lt incrementIf
    let b := exampleCounted 0 false
    f.Holds [.op (.store 2 0)] l ∧ f.countedLoop [.op (.store 2 0)] l = some b ∧
      atMostOnce int32 b 1 ∧ ∃ s, ExampleRuns int32 .lt 0 1 incrementIf b 2 s := by
  refine ⟨example_holds _ _ _, by decide, by decide, ?_⟩
  obtain ⟨st₁, r₁, h₀, h₁⟩ := runs_begin (t := int32) (k := 0) (n := 1)
    (b := exampleCounted 0 false) .lt rfl
  obtain ⟨st₂, r₂, h₀, h₁⟩ := runs_test rfl r₁ h₀ h₁ (by decide)
  obtain ⟨st₃, r₃, hm⟩ := runs_skipped rfl r₂ h₁
  obtain ⟨st₄, r₄, -⟩ := runs_test rfl r₃ (hm ▸ h₀) (hm ▸ h₁) (by decide)
  exact ⟨_, r₄⟩

/-- **The start may be the greatest number.** For `unsigned`, `for (i = UINT_MAX; i <= n; ++i)` with
`n = UINT_MAX`: the counter wraps to zero and the body is entered again. -/
theorem greatest_start_repeats :
    let f := exampleFunc uint32 .le 4294967295 increment
    let l := exampleLoop .le increment
    let b := exampleCounted (-1) true
    f.Holds [.op (.store 2 0)] l ∧ f.countedLoop [.op (.store 2 0)] l = some b ∧
      atMostOnce uint32 b 4294967295 ∧
        ∃ s, ExampleRuns uint32 .le 4294967295 4294967295 increment b 2 s := by
  refine ⟨example_holds _ _ _, by decide, by decide, ?_⟩
  obtain ⟨st₁, r₁, h₀, h₁⟩ := runs_begin (t := uint32) (k := 4294967295) (n := 4294967295)
    (b := exampleCounted (-1) true) .le rfl
  obtain ⟨st₂, r₂, h₀, h₁⟩ := runs_test rfl r₁ h₀ h₁ (by decide)
  obtain ⟨st₃, r₃, h₀, h₁⟩ := runs_stepped rfl r₂ h₀ h₁
  obtain ⟨st₄, r₄, -⟩ := runs_test rfl r₃ h₀ h₁ (by decide)
  exact ⟨_, r₄⟩

theorem example_valid : (exampleFunc int32 .lt 0 increment).Valid where
  once := by decide
  pointee := ⟨fun _ => some int32, fun _ _ _ => rfl, fun _ _ _ => rfl⟩
  inc _ _ _ := rfl
  add _ _ _ _ := ⟨rfl, rfl⟩
  cmp _ _ _ _ _ := rfl

theorem example_plain :
    (exampleFunc int32 .lt 0 increment).Plain [.op (.store 2 0)] (exampleLoop .lt increment)
      (exampleCounted 0 false) 1 where
  test d kind x y hd v hv a ha := by
    cases hd
    rcases List.mem_pair.1 hv with rfl | rfl
    · cases ha
      decide
    · cases ha
      decide
  step slot s v d up hslot _ _ hv hup hd ha os hos := by
    cases hslot
    have : v = 8 := by simpa [exampleLoop, increment, Code.ops] using hv
    subst this
    cases hup
    cases List.mem_singleton.1 hd
    obtain ⟨os₁, rfl, h₁⟩ := hos.op_inv
    obtain ⟨os₂, rfl, h₂⟩ := h₁.op_inv
    obtain ⟨os₃, rfl, h₃⟩ := h₂.op_inv
    cases h₃.done_inv.nil_inv
    decide
  added slot v d y k hslot hv hup _ := by
    cases hslot
    have : v = 8 := by simpa [exampleLoop, increment, Code.ops] using hv
    subst this
    cases hup
  start slot s hslot hs := by
    cases hslot
    cases hs
    exact ⟨by unfold IntType.Small; decide, fun hi => by cases hi⟩

/-- The loop `for (int i = 0; i < n; ++i)` with `n = 1` enters its body, and no run enters it
twice. -/
theorem counted_loop_enters_once :
    (∃ s, ExampleRuns int32 .lt 0 1 increment (exampleCounted 0 false) 1 s) ∧
      ∀ m s, ExampleRuns int32 .lt 0 1 increment (exampleCounted 0 false) m s → m ≤ 1 := by
  constructor
  · obtain ⟨st₁, r₁, h₀, h₁⟩ := runs_begin (t := int32) (k := 0) (n := 1)
      (b := exampleCounted 0 false) .lt rfl
    obtain ⟨st₂, r₂, -⟩ := runs_test rfl r₁ h₀ h₁ (by decide)
    exact ⟨_, r₂⟩
  · intro m s hr
    exact counted_loop_runs_once example_valid rfl (example_holds _ _ _) (by decide) example_plain
      (by decide) hr

end Wtc.Counted
