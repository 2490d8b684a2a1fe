import Mathlib.Tactic
import Wtc.Concurrent.Machine
import Wtc.Concurrent.Fifo

/-!
# A queue taken from out of order

A queue whose pushes fill cells of their own, in an order that their calls do not determine, and
whose consumer may take a filled element before one that was filled earlier. It takes an element
only when it has taken

* all that were filled before the element's call began, and
* those of the same call that come first;

and it answers empty only if everything filled before the pop began was taken by then.

What is filled and taken only grows along a run (`Grows`), and what the end of a run says of a
state on the way is `Future`.
-/

namespace Wtc.Concurrent.Loose

variable {Tid α : Type}

/-! ## The queue -/

/-- A pushing call: how many elements were filled when it began, and the elements it pushes. -/
structure Batch (α : Type) where
  born : Nat
  elems : List α

/-- An element, by the number of its call and its place there. -/
abbrev Elem := Nat × Nat

/-- An open call: one that pushes and has filled `k` elements; one that pops and began when that
many elements were filled and that many taken; one that has popped. -/
inductive Pend (α : Type) where
  | push (c k : Nat)
  | pop (start base : Nat)
  | popped (v : Option α)

/-- The pushing calls made so far, the elements in the order they were filled in and in the order
they were taken in, and the open calls. -/
structure State (Tid α : Type) where
  calls : List (Batch α)
  filled : List Elem
  taken : List Elem
  pend : Tid → Option (Pend α)

namespace State

def init : State Tid α := ⟨[], [], [], fun _ => none⟩

def val (s : State Tid α) (x : Elem) : Option α := s.calls[x.1]?.bind fun b => b.elems[x.2]?

/-- `x` has to be taken before `y`. -/
def Earlier (s : State Tid α) (x y : Elem) : Prop :=
  (∃ b, s.calls[y.1]? = some b ∧ x ∈ s.filled.take b.born) ∨ (x.1 = y.1 ∧ x.2 < y.2)

/-- `y` may be taken. -/
structure Ready (s : State Tid α) (y : Elem) : Prop where
  filled : y ∈ s.filled
  fresh : y ∉ s.taken
  earlier : ∀ x, s.Earlier x y → x ∈ s.taken

variable [DecidableEq Tid]

def set (s : State Tid α) (t : Tid) (p : Option (Pend α)) : State Tid α :=
  { s with pend := Function.update s.pend t p }

theorem set_pend_self (s : State Tid α) (t : Tid) (p : Option (Pend α)) : (s.set t p).pend t = p :=
  Function.update_self ..

theorem set_pend_ne (s : State Tid α) {t u : Tid} (h : u ≠ t) (p : Option (Pend α)) :
    (s.set t p).pend u = s.pend u :=
  Function.update_of_ne h ..

/-- A pushing call begins. -/
def begin (s : State Tid α) (t : Tid) (vs : List α) : State Tid α :=
  { s.set t (some (.push s.calls.length 0)) with calls := s.calls ++ [⟨s.filled.length, vs⟩] }

/-- A push fills its next element. -/
def fill (s : State Tid α) (t : Tid) (c k : Nat) : State Tid α :=
  { s.set t (some (.push c (k + 1))) with filled := s.filled ++ [(c, k)] }

/-- The consumer takes an element. -/
def take (s : State Tid α) (t : Tid) (y : Elem) (v : α) : State Tid α :=
  { s.set t (some (.popped (some v))) with taken := s.taken ++ [y] }

end State

variable [DecidableEq Tid]

/-- One event of the queue. -/
inductive Next : State Tid α → List (Event Tid (FifoOp α) (FifoAns α)) → State Tid α → Prop
  | callPush {s : State Tid α} {t : Tid} (hp : s.pend t = none) (vs : List α) :
      Next s [.call t (vs.map .push)] (s.begin t vs)
  | callPop {s : State Tid α} {t : Tid} (hp : s.pend t = none) :
      Next s [.call t [.pop]] (s.set t (some (.pop s.filled.length s.taken.length)))
  | fill {s : State Tid α} {t : Tid} {c k : Nat} {b : Batch α} (hp : s.pend t = some (.push c k))
      (hb : s.calls[c]? = some b) (hk : k < b.elems.length) : Next s [] (s.fill t c k)
  | take {s : State Tid α} {t : Tid} {i j : Nat} {y : Elem} {v : α}
      (hp : s.pend t = some (.pop i j)) (hy : s.Ready y) (hv : s.val y = some v) :
      Next s [] (s.take t y v)
  | empty {s : State Tid α} {t : Tid} {i j : Nat} (hp : s.pend t = some (.pop i j))
      (he : ∀ x ∈ s.filled.take i, x ∈ s.taken.take j) :
      Next s [] (s.set t (some (.popped none)))
  | retPush {s : State Tid α} {t : Tid} {c k : Nat} {b : Batch α}
      (hp : s.pend t = some (.push c k)) (hb : s.calls[c]? = some b) (hk : b.elems.length = k) :
      Next s [.ret t (List.replicate k .pushed)] (s.set t none)
  | retPop {s : State Tid α} {t : Tid} {v : Option α} (hp : s.pend t = some (.popped v)) :
      Next s [.ret t [.popped v]] (s.set t none)

/-- Any number of events, with the history they make. -/
inductive Path (s : State Tid α) : List (Event Tid (FifoOp α) (FifoAns α)) → State Tid α → Prop
  | refl : Path s [] s
  | tail {h es : List (Event Tid (FifoOp α) (FifoAns α))} {s₁ s₂ : State Tid α} (hp : Path s h s₁)
      (hn : Next s₁ es s₂) : Path s (h ++ es) s₂

variable {es h : List (Event Tid (FifoOp α) (FifoAns α))}

theorem Path.single {s s' : State Tid α} (hn : Next s es s') : Path s es s' :=
  .tail .refl hn

theorem Path.trans {s₀ s s' : State Tid α} {h' : List (Event Tid (FifoOp α) (FifoAns α))}
    (hp : Path s₀ h s) (hp' : Path s h' s') : Path s₀ (h ++ h') s' := by
  induction hp' with
  | refl => rwa [List.append_nil]
  | tail _ hn ih => rw [← List.append_assoc]; exact ih.tail hn

/-- Some events go on from the one state to the other. -/
abbrev Leads : State Tid α → State Tid α → Prop :=
  Relation.ReflTransGen fun s s' => ∃ es, Next s es s'

/-! ## What holds of every state -/

structure Valid (s : State Tid α) : Prop where
  nodup : s.filled.Nodup
  taken_nodup : s.taken.Nodup
  taken_sub : ∀ x ∈ s.taken, x ∈ s.filled
  val : ∀ x ∈ s.filled, s.val x ≠ none
  born : ∀ (c : Nat) (b : Batch α), s.calls[c]? = some b → b.born ≤ s.filled.length
  opens : ∀ t c k, s.pend t = some (.push c k) →
    c < s.calls.length ∧ ∀ j, (c, j) ∈ s.filled ↔ j < k
  inj : ∀ t u c k k', s.pend t = some (.push c k) → s.pend u = some (.push c k') → t = u
  order : ∀ (i : Nat) (z x : Elem), s.taken[i]? = some z → s.Earlier x z → x ∈ s.taken.take i
  earlier : ∀ (i : Nat) (y x : Elem), s.filled[i]? = some y → s.Earlier x y → x ∈ s.filled.take i

/-- What was filled and taken stays, in its order. -/
structure Grows (s s' : State Tid α) : Prop where
  calls : s.calls <+: s'.calls
  filled : s.filled <+: s'.filled
  taken : s.taken <+: s'.taken

omit [DecidableEq Tid] in
theorem Grows.refl (s : State Tid α) : Grows s s :=
  ⟨List.prefix_rfl, List.prefix_rfl, List.prefix_rfl⟩

omit [DecidableEq Tid] in
theorem Grows.trans {s s' s'' : State Tid α} (h : Grows s s') (h' : Grows s' s'') : Grows s s'' :=
  ⟨h.calls.trans h'.calls, h.filled.trans h'.filled, h.taken.trans h'.taken⟩

theorem Next.grows {s s' : State Tid α} (hn : Next s es s') : Grows s s' := by
  cases hn with
  | callPush hp vs => exact { Grows.refl s with calls := List.prefix_append .. }
  | fill hp hb hk => exact { Grows.refl s with filled := List.prefix_append .. }
  | take hp hy hv => exact { Grows.refl s with taken := List.prefix_append .. }
  | callPop hp | empty hp he | retPush hp hb hk | retPop hp => exact { Grows.refl s with }

section Grows

variable {s s' : State Tid α} {x y : Elem}

omit [DecidableEq Tid] in
theorem Grows.call (h : Grows s s') {c : Nat} (hc : c < s.calls.length) :
    s'.calls[c]? = s.calls[c]? := by
  obtain ⟨r, hr⟩ := h.calls
  rw [← hr, List.getElem?_append_left hc]

omit [DecidableEq Tid] in
theorem call_lt_of_val (hv : s.val x ≠ none) : x.1 < s.calls.length := by
  by_contra h
  exact hv (by rw [State.val, List.getElem?_eq_none (by omega)]; rfl)

omit [DecidableEq Tid] in
theorem Grows.val (h : Grows s s') (hv : s.val x ≠ none) : s'.val x = s.val x := by
  rw [State.val, h.call (call_lt_of_val hv), State.val]

omit [DecidableEq Tid] in
theorem Grows.earlier (h : Grows s s') (hv : Valid s) (hy : y.1 < s.calls.length) :
    s'.Earlier x y ↔ s.Earlier x y := by
  refine or_congr_left (exists_congr fun b => ?_)
  rw [h.call hy]
  refine and_congr_right fun hb => ?_
  obtain ⟨r, hr⟩ := h.filled
  rw [← hr, List.take_append_of_le_length (hv.born _ b hb)]

end Grows

namespace Valid

variable {s s' : State Tid α}

omit [DecidableEq Tid] in
theorem init : Valid (State.init : State Tid α) where
  nodup := .nil
  taken_nodup := .nil
  taken_sub := nofun
  val := nofun
  born := nofun
  opens := nofun
  inj := nofun
  order := nofun
  earlier := nofun

omit [DecidableEq Tid] in
theorem call_lt (hv : Valid s) {x : Elem} (hx : x ∈ s.filled) : x.1 < s.calls.length :=
  call_lt_of_val (hv.val x hx)

omit [DecidableEq Tid] in
/-- The order of what was taken does not depend on what comes later. -/
theorem order_of_grows (hv : Valid s) (hg : Grows s s') (ht : s'.taken = s.taken) (i : Nat)
    (z x : Elem) (hz : s'.taken[i]? = some z) (he : s'.Earlier x z) : x ∈ s'.taken.take i := by
  rw [ht] at hz ⊢
  have hmem : z ∈ s.taken := List.mem_of_getElem? hz
  rw [hg.earlier hv (hv.call_lt (hv.taken_sub z hmem))] at he
  exact hv.order i z x hz he

/-- A thread's call ends, or becomes one that does not push. -/
theorem set (hv : Valid s) (t : Tid) {p : Option (Pend α)} (hp : ∀ c k, p ≠ some (.push c k)) :
    Valid (s.set t p) := by
  have hold : ∀ u c k, (s.set t p).pend u = some (.push c k) → s.pend u = some (.push c k) := by
    intro u c k hu
    by_cases hut : u = t
    · subst hut
      rw [State.set_pend_self] at hu
      exact absurd hu (hp c k)
    · rwa [State.set_pend_ne _ hut] at hu
  exact { hv with
    opens := fun u c k hu => hv.opens u c k (hold u c k hu)
    inj := fun u u' c k k' hu hu' => hv.inj u u' c k k' (hold _ _ _ hu) (hold _ _ _ hu') }

theorem callPush (hv : Valid s) {t : Tid} (vs : List α) : Valid (s.begin t vs) := by
  have hg : Grows s (s.begin t vs) := { Grows.refl s with calls := List.prefix_append .. }
  have hnew : (s.begin t vs).pend t = some (.push s.calls.length 0) := State.set_pend_self ..
  have hold : ∀ {u}, u ≠ t → (s.begin t vs).pend u = s.pend u := fun hu => State.set_pend_ne _ hu _
  have hlen : (s.begin t vs).calls.length = s.calls.length + 1 := List.length_append
  -- no call but this one has the new number
  have hne : ∀ {u c k}, s.pend u = some (.push c k) → c ≠ s.calls.length := by
    intro u c k hu
    have := (hv.opens u c k hu).1
    omega
  refine
    { hv with
      val := fun x hx => by rw [hg.val (hv.val x hx)]; exact hv.val x hx
      born := ?_
      opens := ?_
      inj := ?_
      order := hv.order_of_grows hg rfl
      earlier := fun i y x hy he => hv.earlier i y x hy
        ((hg.earlier hv (hv.call_lt (List.mem_of_getElem? hy))).1 he) }
  · intro c b hb
    rcases getElem?_append_singleton.mp hb with hb | ⟨-, rfl⟩
    · exact hv.born c b hb
    · exact le_rfl
  · intro u c k hu
    by_cases hut : u = t
    · subst hut
      rw [hnew] at hu
      cases hu
      refine ⟨by omega, fun j => ⟨fun hj => ?_, fun hj => absurd hj (Nat.not_lt_zero j)⟩⟩
      exact absurd (hv.call_lt hj) (lt_irrefl _)
    · rw [hold hut] at hu
      obtain ⟨h1, h2⟩ := hv.opens u c k hu
      exact ⟨by omega, h2⟩
  · intro u u' c k k' hu hu'
    by_cases hut : u = t <;> by_cases hut' : u' = t
    · rw [hut, hut']
    · subst hut
      rw [hnew] at hu
      rw [hold hut'] at hu'
      cases hu
      exact absurd rfl (hne hu')
    · subst hut'
      rw [hnew] at hu'
      rw [hold hut] at hu
      cases hu'
      exact absurd rfl (hne hu)
    · rw [hold hut] at hu
      rw [hold hut'] at hu'
      exact hv.inj u u' c k k' hu hu'

theorem fill (hv : Valid s) {t : Tid} {c k : Nat} {b : Batch α}
    (hp : s.pend t = some (.push c k)) (hb : s.calls[c]? = some b) (hk : k < b.elems.length) :
    Valid (s.fill t c k) := by
  have hg : Grows s (s.fill t c k) := { Grows.refl s with filled := List.prefix_append .. }
  have hnew : (s.fill t c k).pend t = some (.push c (k + 1)) := State.set_pend_self ..
  have hold : ∀ {u}, u ≠ t → (s.fill t c k).pend u = s.pend u := fun hu => State.set_pend_ne _ hu _
  have hmem : ∀ x, x ∈ (s.fill t c k).filled ↔ x ∈ s.filled ∨ x = (c, k) := fun x => by
    simp [State.fill]
  obtain ⟨hc, hfilled⟩ := hv.opens t c k hp
  -- a push of another thread is another call
  have hother : ∀ {u c' k'}, u ≠ t → s.pend u = some (.push c' k') → c' ≠ c := by
    rintro u c' k' hut hu rfl
    exact hut (hv.inj u t c' k' k hu hp)
  refine
    { hv with
      nodup := ?_
      taken_sub := fun x hx => (hmem x).2 (.inl (hv.taken_sub x hx))
      val := ?_
      born := ?_
      opens := ?_
      inj := ?_
      order := hv.order_of_grows hg rfl
      earlier := ?_ }
  · refine List.nodup_append.2 ⟨hv.nodup, List.nodup_singleton _, fun x hx y hy hxy => ?_⟩
    rw [List.mem_singleton] at hy
    subst hy
    rw [hxy, hfilled k] at hx
    omega
  · intro x hx
    rcases (hmem x).1 hx with hx | rfl
    · exact hv.val x hx
    · show s.val (c, k) ≠ none
      rw [State.val, hb]
      simpa using hk
  · intro c' b' hb'
    have := hv.born c' b' hb'
    simp only [State.fill, List.length_append, List.length_singleton]
    omega
  · intro u c' k' hu
    by_cases hut : u = t
    · subst hut
      rw [hnew] at hu
      cases hu
      refine ⟨hc, fun j => ?_⟩
      rw [hmem, hfilled]
      simp only [Prod.mk.injEq, true_and]
      omega
    · rw [hold hut] at hu
      obtain ⟨h1, h2⟩ := hv.opens u c' k' hu
      refine ⟨h1, fun j => ?_⟩
      rw [hmem, h2]
      simp [hother hut hu]
  · intro u u' c' k₁ k₂ hu hu'
    by_cases hut : u = t <;> by_cases hut' : u' = t
    · rw [hut, hut']
    · subst hut
      rw [hnew] at hu
      rw [hold hut'] at hu'
      cases hu
      exact absurd rfl (hother hut' hu')
    · subst hut'
      rw [hnew] at hu'
      rw [hold hut] at hu
      cases hu'
      exact absurd rfl (hother hut hu)
    · rw [hold hut] at hu
      rw [hold hut'] at hu'
      exact hv.inj u u' c' k₁ k₂ hu hu'
  · intro i y x hy he
    show x ∈ (s.filled ++ [(c, k)]).take i
    rcases getElem?_append_singleton.mp hy with hy | ⟨rfl, rfl⟩
    · rw [List.take_append_of_le_length (lt_length_of_getElem? hy).le]
      exact hv.earlier i y x hy ((hg.earlier hv (hv.call_lt (List.mem_of_getElem? hy))).1 he)
    · rw [List.take_left' rfl]
      rcases (hg.earlier hv hc).1 he with ⟨b', -, hx⟩ | ⟨hxc, hxk⟩
      · exact List.mem_of_mem_take hx
      · obtain ⟨c', k'⟩ := x
        obtain rfl : c' = c := hxc
        exact (hfilled k').2 hxk

theorem take (hv : Valid s) {t : Tid} {y : Elem} {v : α} (hy : s.Ready y) :
    Valid (s.take t y v) := by
  have hv' := hv.set t (p := some (.popped (some v))) nofun
  refine { hv' with taken_nodup := ?_, taken_sub := ?_, order := ?_ }
  · refine List.nodup_append.2 ⟨hv.taken_nodup, List.nodup_singleton _, fun x hx z hz hxz => ?_⟩
    rw [List.mem_singleton] at hz
    subst hz
    exact hy.fresh (hxz ▸ hx)
  · intro x hx
    rcases List.mem_append.1 hx with hx | hx
    · exact hv.taken_sub x hx
    · rw [List.mem_singleton.1 hx]
      exact hy.filled
  · intro i z x hz (he : s.Earlier x z)
    show x ∈ (s.taken ++ [y]).take i
    rcases getElem?_append_singleton.mp hz with hz | ⟨rfl, rfl⟩
    · rw [List.take_append_of_le_length (lt_length_of_getElem? hz).le]
      exact hv.order i z x hz he
    · rw [List.take_left']
      · exact hy.earlier x he
      · rfl

theorem next (hv : Valid s) (hn : Next s es s') : Valid s' := by
  cases hn with
  | callPush hp vs => exact hv.callPush vs
  | fill hp hb hk => exact hv.fill hp hb hk
  | take hp hy hval => exact hv.take hy
  | callPop hp | empty hp he | retPush hp hb hk | retPop hp => exact hv.set _ nofun

theorem path {s₀ : State Tid α} (hv : Valid s₀) (hp : Path s₀ h s) : Valid s := by
  induction hp with
  | refl => exact hv
  | tail _ hn ih => exact ih.next hn

end Valid

/-! ## The end of the run -/

/-- What the end of a run says of a state on the way: what is filled later belongs to an open call
or to one that begins later, when all that is filled now is filled. -/
structure Future (s f : State Tid α) : Prop extends Grows s f where
  opens : ∀ x ∈ f.filled, x ∈ s.filled ∨ s.calls.length ≤ x.1 ∨
    ∃ t k, s.pend t = some (.push x.1 k)
  born : ∀ (c : Nat) (b : Batch α), f.calls[c]? = some b → s.calls.length ≤ c →
    s.filled.length ≤ b.born

omit [DecidableEq Tid] in
theorem Future.refl {s : State Tid α} : Future s s where
  toGrows := .refl s
  opens x hx := .inl hx
  born c b hb hc := by
    rw [List.getElem?_eq_none hc] at hb
    cases hb

/-- What is filled later is filled by an open call, seen one event earlier. -/
theorem Next.opens {s s' : State Tid α} (hn : Next s es s') {x : Elem}
    (hx : x ∈ s'.filled ∨ s'.calls.length ≤ x.1 ∨ ∃ t k, s'.pend t = some (.push x.1 k)) :
    x ∈ s.filled ∨ s.calls.length ≤ x.1 ∨ ∃ t k, s.pend t = some (.push x.1 k) := by
  -- an event that fills nothing and begins no call that pushes
  have hset : ∀ {t p}, (∀ c k, p ≠ some (.push c k)) →
      (∃ u k, (s.set t p).pend u = some (.push x.1 k)) → ∃ u k, s.pend u = some (.push x.1 k) := by
    rintro t p hp ⟨u, k, hu⟩
    refine ⟨u, k, ?_⟩
    by_cases hut : u = t
    · subst hut
      rw [State.set_pend_self] at hu
      exact absurd hu (hp _ _)
    · rwa [State.set_pend_ne _ hut] at hu
  cases hn with
  | @callPush t hp vs =>
    rcases hx with hx | hx | ⟨u, k, hu⟩
    · exact .inl hx
    · have hlen : (s.begin t vs).calls.length = s.calls.length + 1 := List.length_append
      exact .inr (.inl (by omega))
    · by_cases hut : u = t
      · subst hut
        have := (State.set_pend_self ..).symm.trans hu
        simp only [Option.some.injEq, Pend.push.injEq] at this
        exact .inr (.inl this.1.le)
      · exact .inr (.inr ⟨u, k, (State.set_pend_ne _ hut _).symm.trans hu⟩)
  | @fill t c k b hp hb hk =>
    rcases hx with hx | hx | ⟨u, k', hu⟩
    · rcases List.mem_append.1 hx with hx | hx
      · exact .inl hx
      · rw [List.mem_singleton] at hx
        subst hx
        exact .inr (.inr ⟨t, k, hp⟩)
    · exact .inr (.inl hx)
    · by_cases hut : u = t
      · subst hut
        have := (State.set_pend_self ..).symm.trans hu
        simp only [Option.some.injEq, Pend.push.injEq] at this
        exact .inr (.inr ⟨u, k, this.1 ▸ hp⟩)
      · exact .inr (.inr ⟨u, k', (State.set_pend_ne _ hut _).symm.trans hu⟩)
  | take hp hy hv | empty hp he =>
    exact hx.imp_right (Or.imp_right (hset (p := some (.popped _)) nofun))
  | callPop hp => exact hx.imp_right (Or.imp_right (hset (p := some (.pop _ _)) nofun))
  | retPush hp hb hk | retPop hp => exact hx.imp_right (Or.imp_right (hset (p := none) nofun))

/-- A call that an event begins sees all that is filled then. -/
theorem Next.born {s s' : State Tid α} (hn : Next s es s') {c : Nat} {b : Batch α}
    (hb : s'.calls[c]? = some b) (hc : s.calls.length ≤ c) : s.filled.length ≤ b.born := by
  have hold : s.calls[c]? = some b → s.filled.length ≤ b.born := fun hb => by
    rw [List.getElem?_eq_none hc] at hb
    cases hb
  cases hn with
  | callPush hp vs =>
    rcases getElem?_append_singleton.mp hb with hb | ⟨-, rfl⟩
    · exact hold hb
    · exact le_rfl
  | fill hp hb' hk | take hp hy hv | callPop hp | empty hp he | retPush hp hb' hk | retPop hp =>
    exact hold hb

theorem Future.of_leads {s f : State Tid α} (hl : Leads s f) : Future s f := by
  induction hl using Relation.ReflTransGen.head_induction_on with
  | refl => exact .refl
  | @head s s' hn _ ih =>
    obtain ⟨es, hn⟩ := hn
    refine ⟨hn.grows.trans ih.toGrows, fun x hx => hn.opens (ih.opens x hx), fun c b hb hc => ?_⟩
    have hlen := hn.grows.filled.length_le
    by_cases hc' : c < s'.calls.length
    · rw [ih.call hc'] at hb
      exact hn.born hb hc
    · exact hlen.trans (ih.born c b hb (by omega))

end Wtc.Concurrent.Loose
