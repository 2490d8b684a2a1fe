import Mathlib.Tactic
import Wtc.Concurrent.Machine
import Wtc.Concurrent.Fifo

/-!
# What a linearizable queue gives its users

A history that is that of a sequential queue is in order: each popped element was pushed and is
popped once, an element whose push was over before that of another began is popped first, and a pop
that answers empty leaves nothing behind whose push was over before it began (`InOrder`).

* `Linearizable.inOrder` — for one consumer, "first" means by an earlier pop

The `n`-th element popped in the sequential order is the `n`-th pushed there.
-/

namespace Wtc.Concurrent

variable {Tid α : Type}

/-! ## Places in a list -/

section Rank

variable {β γ : Type} {g : β → Option γ} {l : List β}

/-- How many elements before the place `n` give a value. -/
def rank (g : β → Option γ) (l : List β) (n : Nat) : Nat := ((l.take n).filterMap g).length

theorem rank_succ {n : Nat} {x : β} (hx : l[n]? = some x) :
    rank g l (n + 1) = rank g l n + (g x).toList.length := by
  rw [rank, List.take_add_one, hx, Option.toList_some, List.filterMap_append, List.length_append]
  cases h : g x <;> simp [rank, h]

theorem rank_mono {m n : Nat} (h : m ≤ n) : rank g l m ≤ rank g l n :=
  ((List.take_sublist_take_left h).filterMap g).length_le

theorem rank_lt {m n : Nat} {x : β} {v : γ} (h : m < n) (hx : l[m]? = some x) (hv : g x = some v) :
    rank g l m < rank g l n := by
  have h1 : rank g l (m + 1) = rank g l m + 1 := by rw [rank_succ hx, hv]; rfl
  have h2 : rank g l (m + 1) ≤ rank g l n := rank_mono h
  omega

/-- The place of the `a`-th value. -/
theorem exists_rank {n a : Nat} {v : γ} (h : ((l.take n).filterMap g)[a]? = some v) :
    ∃ m x, m < n ∧ l[m]? = some x ∧ g x = some v ∧ rank g l m = a := by
  induction n with
  | zero => cases h
  | succ n ih =>
    by_cases ha : a < ((l.take n).filterMap g).length
    · rw [List.take_add_one, List.filterMap_append, List.getElem?_append_left ha] at h
      obtain ⟨m, x, hm, hx⟩ := ih h
      exact ⟨m, x, by omega, hx⟩
    · rw [List.take_add_one, List.filterMap_append, List.getElem?_append_right (by omega)] at h
      cases hn : l[n]? with
      | none => rw [hn] at h; simp at h
      | some x =>
        rw [hn, Option.toList_some, List.filterMap_cons] at h
        cases hv : g x with
        | none => rw [hv] at h; simp at h
        | some w =>
          rw [hv, List.filterMap_nil, List.getElem?_singleton] at h
          split_ifs at h with hz
          cases h
          exact ⟨n, x, Nat.lt_succ_self n, hn, hv, by rw [rank]; omega⟩

theorem exists_rank_lt {n a : Nat} (h : a < rank g l n) :
    ∃ m x v, m < n ∧ l[m]? = some x ∧ g x = some v ∧ rank g l m = a := by
  obtain ⟨m, x, hm, hx, hv, hr⟩ := exists_rank (List.getElem?_eq_getElem h)
  exact ⟨m, x, _, hm, hx, hv, hr⟩

end Rank

/-! ## Elements in and out of a sequential queue -/

/-- The element that is pushed. -/
def Point.pushed (p : Point (FifoOp α) (FifoAns α)) : Option α :=
  match p.op with
  | .push v => some v
  | .pop => none

/-- The element that is popped. -/
def Point.popped (p : Point (FifoOp α) (FifoAns α)) : Option α :=
  match p.ans with
  | .popped v => v
  | .pushed => none

/-- The elements popped and those left are the elements that were there and those pushed. -/
theorem fifo_exec {L : List (Point (FifoOp α) (FifoAns α))} {q q' : List α}
    (h : (fifo α).Exec q L q') :
    q ++ L.filterMap Point.pushed = L.filterMap Point.popped ++ q' := by
  induction h with
  | nil => simp
  | @cons q q₁ q₂ p l hs _ ih =>
    obtain ⟨call, part, op, ans⟩ := p
    have hs : FifoStep q op ans q₁ := hs
    cases hs with
    | push q v =>
      show q ++ v :: l.filterMap Point.pushed = l.filterMap Point.popped ++ q₂
      rw [← ih, List.append_assoc]
      rfl
    | pop v q => exact congrArg (v :: ·) ih
    | empty => exact ih

section Places

variable {L : List (Point (FifoOp α) (FifoAns α))} {p : Point (FifoOp α) (FifoAns α)} {n : Nat}

/-- The state of the sequential queue at some place of an order. -/
theorem exec_at {q : List α} (hL : (fifo α).Exec [] L q) (hn : L[n]? = some p) :
    ∃ q₁ q₂, FifoStep q₁ p.op p.ans q₂ ∧
      (L.take n).filterMap Point.pushed = (L.take n).filterMap Point.popped ++ q₁ := by
  obtain ⟨q₁, q₂, h1, hs⟩ := hL.step_at hn
  exact ⟨q₁, q₂, hs, by simpa using fifo_exec h1⟩

/-- An element is popped after it is pushed, and is the next one to pop. -/
theorem pushed_of_popped {q : List α} (hL : (fifo α).Exec [] L q) (hn : L[n]? = some p) {v : α}
    (hv : p.popped = some v) :
    ∃ m x, m < n ∧ L[m]? = some x ∧ x.pushed = some v ∧
      rank Point.pushed L m = rank Point.popped L n := by
  obtain ⟨q₁, q₂, hs, hq⟩ := exec_at hL hn
  have hq₁ : q₁ = v :: q₂ := by
    revert hv hs
    obtain ⟨call, part, op, ans⟩ := p
    intro hv hs
    cases hs <;> cases hv
    rfl
  refine exists_rank ?_
  rw [hq, rank, List.getElem?_append_right le_rfl, Nat.sub_self, hq₁]
  rfl

/-- A pop answers empty when all that was pushed has been popped. -/
theorem rank_of_empty {q : List α} (hL : (fifo α).Exec [] L q) (hn : L[n]? = some p)
    (hp : p.ans = .popped none) : rank Point.pushed L n = rank Point.popped L n := by
  obtain ⟨q₁, q₂, hs, hq⟩ := exec_at hL hn
  rw [hp] at hs
  have hq₁ : q₁ = [] := by
    generalize p.op = op at hs
    cases hs
    rfl
  rw [rank, rank, hq, hq₁, List.append_nil]

end Places

/-! ## Histories in order -/

/-- Part `x.2` of call `x.1` pushes the element `v`. -/
def Pushes (h : List (Event Tid (FifoOp α) (FifoAns α))) (x : Nat × Nat) (v : α) : Prop :=
  ∃ t ops, h[x.1]? = some (.call t ops) ∧ ops[x.2]? = some (.push v)

/-- Part `x.2` of call `x.1` pops and has the answer `v`, given at event `j`. -/
def Pops (h : List (Event Tid (FifoOp α) (FifoAns α))) (x : Nat × Nat) (j : Nat) (v : Option α) :
    Prop :=
  ∃ t ops ans, Answers h x.1 j t ops ans ∧ ops[x.2]? = some .pop ∧ ans[x.2]? = some (.popped v)

/-- The part `x` was over before the part `y` began. -/
def Earlier (h : List (Event Tid (FifoOp α) (FifoAns α))) (x y : Nat × Nat) : Prop :=
  Before h x.1 y.1 ∨ x.1 = y.1 ∧ x.2 < y.2

/--
`src` gives for each pop the push whose element it returns.

An element that some pop returns was pushed, by a call that began before the answer, and no other
pop returns it. What was pushed before it was returned before. An empty answer leaves nothing
behind that was pushed before the pop.
-/
structure InOrder (h : List (Event Tid (FifoOp α) (FifoAns α))) (src : Nat × Nat → Nat × Nat) :
    Prop where
  pushed : ∀ i j v, Pops h i j (some v) → Pushes h (src i) v ∧ (src i).1 < j
  once : ∀ i j v i' j' v', Pops h i j (some v) → Pops h i' j' (some v') → src i = src i' → i = i'
  order : ∀ i j v x w, Pops h i j (some v) → Pushes h x w → Earlier h x (src i) →
    ∃ i' j', Pops h i' j' (some w) ∧ src i' = x ∧ Earlier h i' i
  empty : ∀ i j x w, Pops h i j none → Pushes h x w → Earlier h x i →
    ∃ i' j', Pops h i' j' (some w) ∧ src i' = x ∧ Earlier h i' i

/-! ## From the sequential order -/

/-- The call and the part that a point of an order stands for. -/
def Point.key {Op Ans : Type} (p : Point Op Ans) : Nat × Nat := (p.call, p.part)

/-- Two places of the order with the same number of pushes before them. -/
theorem pushed_inj {L : List (Point (FifoOp α) (FifoAns α))} {m m' : Nat}
    {r r' : Point (FifoOp α) (FifoAns α)} {v v' : α}
    (hm : L[m]? = some r) (hm' : L[m']? = some r') (hv : r.pushed = some v)
    (hv' : r'.pushed = some v') (he : rank Point.pushed L m = rank Point.pushed L m') :
    m = m' := by
  rcases Nat.lt_trichotomy m m' with hlt | rfl | hlt
  · have := rank_lt hlt hm hv
    omega
  · rfl
  · have := rank_lt hlt hm' hv'
    omega

/-- In the order `L` the pop `x` returns the element of the push `y`. -/
def Src (L : List (Point (FifoOp α) (FifoAns α))) (x y : Nat × Nat) : Prop :=
  ∃ m n r p, L[m]? = some r ∧ L[n]? = some p ∧ r.key = y ∧ p.key = x ∧ m < n ∧
    (∃ v, r.pushed = some v ∧ p.popped = some v) ∧
    rank Point.pushed L m = rank Point.popped L n

open Classical in
/-- The push whose element a pop returns in the order `L`. -/
noncomputable def srcOf (L : List (Point (FifoOp α) (FifoAns α))) (x : Nat × Nat) : Nat × Nat :=
  if h : ∃ y, Src L x y then h.choose else (0, 0)

section Linearization

variable {h : List (Event Tid (FifoOp α) (FifoAns α))} {L : List (Point (FifoOp α) (FifoAns α))}
  (hL : Linearization (fifo α) h L)
include hL

theorem key_inj {m n : Nat} {r p : Point (FifoOp α) (FifoAns α)} (hm : L[m]? = some r)
    (hn : L[n]? = some p) (he : r.key = p.key) : m = n := by
  obtain ⟨hc, hp⟩ := Prod.mk.inj he
  rcases Nat.lt_trichotomy m n with hlt | rfl | hlt
  · have := pairwise_at hL.order hm hn hlt hc
    omega
  · rfl
  · have := pairwise_at hL.order hn hm hlt hc.symm
    omega

theorem Src.unique {x y y' : Nat × Nat} (h₁ : Src L x y) (h₂ : Src L x y') : y = y' := by
  obtain ⟨m, n, r, p, hm, hn, rfl, rfl, -, ⟨v, hv, -⟩, hr⟩ := h₁
  obtain ⟨m', n', r', p', hm', hn', rfl, hk, -, ⟨v', hv', -⟩, hr'⟩ := h₂
  obtain rfl := key_inj hL hn' hn hk
  obtain rfl := pushed_inj hm hm' hv hv' (hr.trans hr'.symm)
  rw [Option.some.inj (hm.symm.trans hm')]

theorem srcOf_eq {x y : Nat × Nat} (hs : Src L x y) : srcOf L x = y := by
  have he : ∃ y, Src L x y := ⟨y, hs⟩
  rw [srcOf, dif_pos he]
  exact Src.unique hL he.choose_spec hs

/-- A part of an answered call stands in the order, with its answer. -/
theorem exists_point {i j : Nat} {t : Tid} {ops : List (FifoOp α)} {ans : List (FifoAns α)}
    (ha : Answers h i j t ops ans) {k : Nat} {op : FifoOp α} (hop : ops[k]? = some op) :
    ∃ (n : Nat) (p : Point (FifoOp α) (FifoAns α)), L[n]? = some p ∧ p.key = (i, k) ∧ p.op = op ∧
      ans[k]? = some p.ans := by
  obtain ⟨hlen, hall⟩ := hL.answered i j t ops ans ha
  have hk : k < ans.length := by
    have := lt_length_of_getElem? hop
    omega
  obtain ⟨p, hp, hc, hpart, hans⟩ := hall k _ (List.getElem?_eq_getElem hk)
  obtain ⟨n, hn⟩ := List.getElem?_of_mem hp
  obtain ⟨t', ops', hcall, hop'⟩ := hL.part_of p hp
  rw [hc, ha.call] at hcall
  cases hcall
  rw [hpart, hop] at hop'
  refine ⟨n, p, hn, Prod.ext hc hpart, (Option.some.inj hop').symm, ?_⟩
  rw [List.getElem?_eq_getElem hk, hans]

theorem pushes_of_point {m : Nat} {r : Point (FifoOp α) (FifoAns α)} {v : α}
    (hm : L[m]? = some r) (hv : r.pushed = some v) : Pushes h r.key v := by
  obtain ⟨t, ops, hcall, hop⟩ := hL.part_of r (List.mem_of_getElem? hm)
  refine ⟨t, ops, hcall, hop.trans ?_⟩
  revert hv
  rw [Point.pushed]
  cases r.op with
  | push w => rintro ⟨⟩; rfl
  | pop => nofun

/-- A pop in the order that an answered call makes has its answer. -/
theorem pops_of_point {n j : Nat} {p : Point (FifoOp α) (FifoAns α)} {t : Tid}
    {ops : List (FifoOp α)} {ans : List (FifoAns α)} (hn : L[n]? = some p)
    (ha : Answers h p.call j t ops ans) {v : Option α} (hop : p.op = .pop)
    (hv : p.ans = .popped v) : Pops h p.key j v := by
  obtain ⟨t', ops', hcall, hop'⟩ := hL.part_of p (List.mem_of_getElem? hn)
  rw [ha.call] at hcall
  cases hcall
  rw [hop] at hop'
  obtain ⟨n', p', hn', hk, -, hans⟩ := exists_point hL ha hop'
  obtain rfl := key_inj hL hn' hn hk
  obtain rfl := Option.some.inj (hn'.symm.trans hn)
  exact ⟨t, ops, ans, ha, hop', hans.trans (congrArg some hv)⟩

/-- What comes earlier in the history comes earlier in the order. -/
theorem lt_of_earlier {m n : Nat} {r p : Point (FifoOp α) (FifoAns α)} (hm : L[m]? = some r)
    (hn : L[n]? = some p) (he : Earlier h r.key p.key) : m < n := by
  rcases Nat.lt_trichotomy m n with hlt | rfl | hlt
  · exact hlt
  · obtain rfl := Option.some.inj (hm.symm.trans hn)
    rcases he with ⟨j, t, ops, ans, ha, hj⟩ | ⟨-, hlt⟩
    · have := ha.lt
      omega
    · omega
  · rcases he with he | ⟨hc, hlt'⟩
    · exact absurd he (pairwise_at hL.realtime hn hm hlt)
    · have := pairwise_at hL.order hn hm hlt hc.symm
      exact absurd hlt' (by show ¬ r.part < p.part; omega)

/-- A push that is earlier than some part of the order stands in the order. -/
theorem exists_push {x : Nat × Nat} {w : α} {n : Nat} {p : Point (FifoOp α) (FifoAns α)}
    (hx : Pushes h x w) (hn : L[n]? = some p) (he : Earlier h x p.key) :
    ∃ (m : Nat) (r : Point (FifoOp α) (FifoAns α)), L[m]? = some r ∧ r.key = x ∧
      r.pushed = some w := by
  obtain ⟨t, ops, hcall, hop⟩ := hx
  rcases he with ⟨j, t', ops', ans, ha, -⟩ | ⟨hc, hlt⟩
  · have := ha.call
    rw [hcall] at this
    cases this
    obtain ⟨m, r, hm, hk, hrop, -⟩ := exists_point hL ha hop
    exact ⟨m, r, hm, hk, by rw [Point.pushed, hrop]⟩
  · obtain ⟨r, hr, hrc, hrp⟩ := hL.closed p (List.mem_of_getElem? hn) x.2 hlt
    obtain ⟨m, hm⟩ := List.getElem?_of_mem hr
    have hkey : r.key = x := Prod.ext (hrc.trans hc.symm) hrp
    obtain ⟨t', ops', hcall', hop'⟩ := hL.part_of r hr
    rw [hrc.trans hc.symm, hcall] at hcall'
    cases hcall'
    rw [hrp, hop] at hop'
    exact ⟨m, r, hm, hkey, by rw [Point.pushed, ← Option.some.inj hop']⟩

variable {cons : Tid} (hseq : Sequential h)
  (hone : ∀ (i : Nat) (t : Tid) (ops : List (FifoOp α)), h[i]? = some (.call t ops) →
    FifoOp.pop ∈ ops → t = cons)
include hseq hone

/-- An element that is popped before some pop in the order is returned by an earlier pop. -/
theorem popped_earlier {m n j : Nat} {r p : Point (FifoOp α) (FifoAns α)} {t : Tid}
    {ops : List (FifoOp α)} {ans : List (FifoAns α)} {w : α} (hm : L[m]? = some r)
    (hw : r.pushed = some w) (hn : L[n]? = some p) (hp : p.op = .pop)
    (ha : Answers h p.call j t ops ans) (hlt : rank Point.pushed L m < rank Point.popped L n) :
    ∃ i' j', Pops h i' j' (some w) ∧ srcOf L i' = r.key ∧ Earlier h i' p.key := by
  obtain ⟨q, hexec⟩ := hL.legal
  obtain ⟨n', p', w', hn', hp', hw', hr'⟩ := exists_rank_lt hlt
  obtain ⟨m', r', hm', hmem', hv', hr''⟩ := pushed_of_popped hexec hp' hw'
  obtain rfl := pushed_inj hm hmem' hw hv' (hr'.symm.trans hr''.symm)
  obtain rfl := Option.some.inj (hm.symm.trans hmem')
  obtain rfl : w = w' := Option.some.inj (hw.symm.trans hv')
  have hsrc : Src L p'.key r.key := ⟨m, n', r, p', hm, hp', rfl, rfl, hm', ⟨w, hw, hw'⟩, hr''⟩
  have hans' : p'.ans = .popped (some w) := by
    revert hw'
    rw [Point.popped]
    cases p'.ans with
    | pushed => nofun
    | popped v => rintro rfl; rfl
  have hop' : p'.op = .pop := by
    obtain ⟨q₁, q₂, hs, -⟩ := exec_at hexec hp'
    rw [hans'] at hs
    generalize p'.op = op at hs
    cases hs
    rfl
  obtain ⟨t₁, ops₁, hc₁, ho₁⟩ := hL.part_of p (List.mem_of_getElem? hn)
  obtain ⟨t₂, ops₂, hc₂, ho₂⟩ := hL.part_of p' (List.mem_of_getElem? hp')
  rw [hp] at ho₁
  rw [hop'] at ho₂
  obtain rfl := hone _ _ _ hc₁ (List.mem_of_getElem? ho₁)
  obtain rfl := hone _ _ _ hc₂ (List.mem_of_getElem? ho₂)
  -- the two pops are of one thread, so one of them was answered before the other began
  rcases Nat.lt_trichotomy p'.call p.call with hlt | heq | hgt
  · obtain ⟨j', t', ops', ans', ha', hj'⟩ := hseq _ _ _ _ _ hc₂ hc₁ hlt
    exact ⟨p'.key, j', pops_of_point hL hp' ha' hop' hans', srcOf_eq hL hsrc,
      .inl ⟨j', t', ops', ans', ha', hj'⟩⟩
  · exact ⟨p'.key, j, pops_of_point hL hp' (heq ▸ ha) hop' hans', srcOf_eq hL hsrc,
      .inr ⟨heq, pairwise_at hL.order hp' hn hn' heq⟩⟩
  · exact absurd (hseq _ _ _ _ _ hc₁ hc₂ hgt) (pairwise_at hL.realtime hp' hn hn')

theorem Linearization.inOrder : InOrder h (srcOf L) := by
  obtain ⟨q, hexec⟩ := hL.legal
  -- a pop that returned an element, in the order, with the push of the element
  have hpop : ∀ {i j v}, Pops h i j (some v) → ∃ m n r p, L[m]? = some r ∧ L[n]? = some p ∧
      p.key = i ∧ r.key = srcOf L i ∧ m < n ∧ r.pushed = some v ∧ p.popped = some v ∧ p.op = .pop ∧
      rank Point.pushed L m = rank Point.popped L n := by
    rintro i j v ⟨t, ops, ans, ha, hop, hans⟩
    obtain ⟨n, p, hn, hk, hpop, hpans⟩ := exists_point hL ha hop
    have hv : p.popped = some v := by
      rw [Point.popped, Option.some.inj (hpans.symm.trans hans)]
    obtain ⟨m, r, hlt, hm, hrv, hrank⟩ := pushed_of_popped hexec hn hv
    have hsrc : Src L i r.key := ⟨m, n, r, p, hm, hn, rfl, hk, hlt, ⟨v, hrv, hv⟩, hrank⟩
    exact ⟨m, n, r, p, hm, hn, hk, (srcOf_eq hL hsrc).symm, hlt, hrv, hv, hpop, hrank⟩
  refine ⟨fun i j v hi => ?_, fun i j v i' j' v' hi hi' he => ?_, fun i j v x w hi hx he => ?_,
    fun i j x w hi hx he => ?_⟩
  · obtain ⟨m, n, r, p, hm, hn, rfl, hr, hlt, hrv, -⟩ := hpop hi
    obtain ⟨t, ops, ans, ha, -⟩ := hi
    rw [← hr]
    refine ⟨pushes_of_point hL hm hrv, ?_⟩
    obtain ⟨t', ops', hcall, -⟩ := hL.part_of r (List.mem_of_getElem? hm)
    have hle : ¬ j < r.call := fun hj => pairwise_at hL.realtime hm hn hlt
      ⟨j, t, ops, ans, ha, hj⟩
    have hne : r.call ≠ j := by
      rintro rfl
      rw [ha.ret] at hcall
      cases hcall
    show r.call < j
    omega
  · obtain ⟨m, n, r, p, hm, hn, rfl, hr, -, -, hv, -, hrank⟩ := hpop hi
    obtain ⟨m', n', r', p', hm', hn', rfl, hr', -, -, hv', -, hrank'⟩ := hpop hi'
    obtain rfl := key_inj hL hm hm' (hr.trans (he.trans hr'.symm))
    rcases Nat.lt_trichotomy n n' with hlt | rfl | hlt
    · have := rank_lt hlt hn hv
      omega
    · rw [Option.some.inj (hn.symm.trans hn')]
    · have := rank_lt hlt hn' hv'
      omega
  · obtain ⟨m, n, r, p, hm, hn, rfl, hr, -, hrv, -, hop, hrank⟩ := hpop hi
    obtain ⟨t, ops, ans, ha, -⟩ := hi
    rw [← hr] at he
    obtain ⟨m', r', hm', rfl, hw⟩ := exists_push hL hx hm he
    have hlt := rank_lt (lt_of_earlier hL hm' hm he) hm' hw
    exact popped_earlier hL hseq hone hm' hw hn hop ha (by omega)
  · obtain ⟨t, ops, ans, ha, hop, hans⟩ := hi
    obtain ⟨n, p, hn, hk, hpop, hpans⟩ := exists_point hL ha hop
    obtain rfl : p.key = i := hk
    obtain ⟨m, r, hm, rfl, hw⟩ := exists_push hL hx hn he
    have hlt := rank_lt (lt_of_earlier hL hm hn he) hm hw
    have hrank := rank_of_empty hexec hn (Option.some.inj (hpans.symm.trans hans))
    exact popped_earlier hL hseq hone hm hw hn hpop ha (by omega)

end Linearization

/-- **A linearizable queue with one consumer is in order.** -/
theorem Linearizable.inOrder {h : List (Event Tid (FifoOp α) (FifoAns α))} {cons : Tid}
    (hl : Linearizable (fifo α) h) (hseq : Sequential h)
    (hone : ∀ (i : Nat) (t : Tid) (ops : List (FifoOp α)), h[i]? = some (.call t ops) →
      FifoOp.pop ∈ ops → t = cons) : ∃ src, InOrder h src := by
  obtain ⟨L, hL⟩ := hl
  exact ⟨srcOf L, hL.inOrder hseq hone⟩

end Wtc.Concurrent
