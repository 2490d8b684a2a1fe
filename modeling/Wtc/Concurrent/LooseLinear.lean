import Wtc.Concurrent.Loose

/-!
# A queue taken from out of order is a queue

* `Path.linearizable` — every history of such a queue is that of a plain queue

The order in which the elements are put into the plain queue is the one in which they are taken in
the end, with those not taken after them (`State.order`). When an element is filled, it is put in
together with those before it in that order: their calls have begun, or they would not be taken
before it.
-/

namespace Wtc.Concurrent.Loose

variable {Tid α : Type} [DecidableEq Tid]

/-! ## The order -/

/-- The order in which the elements are put into the plain queue. -/
def State.order (f : State Tid α) : List Elem := f.taken ++ f.filled.filter fun x => x ∉ f.taken

section Order

variable {s f : State Tid α}

omit [DecidableEq Tid] in
theorem Valid.order_nodup (hf : Valid f) : f.order.Nodup := by
  refine List.nodup_append.2 ⟨hf.taken_nodup, hf.nodup.filter _, fun x hx y hy hxy => ?_⟩
  subst hxy
  simpa [hx] using (List.mem_filter.1 hy).2

omit [DecidableEq Tid] in
theorem Valid.mem_order (hf : Valid f) {x : Elem} : x ∈ f.order ↔ x ∈ f.filled := by
  rw [State.order, List.mem_append, List.mem_filter]
  constructor
  · rintro (hx | ⟨hx, -⟩)
    · exact hf.taken_sub x hx
    · exact hx
  · intro hx
    by_cases ht : x ∈ f.taken
    · exact .inl ht
    · exact .inr ⟨hx, by simpa using ht⟩

omit [DecidableEq Tid] in
/-- What is taken by now is a beginning of the order. -/
theorem Grows.take_order (hg : Grows s f) : f.order.take s.taken.length = s.taken := by
  obtain ⟨r, hr⟩ := hg.taken
  rw [State.order, ← hr, List.append_assoc, List.take_left']
  rfl

end Order

/-! ## The plain queue -/

/-- A push whose first elements have been put in, those among the first `m` of the order. -/
def Pushing (f : State Tid α) (a : Atomic.State Tid (FifoOp α) (FifoAns α) (List α)) (m : Nat)
    (t : Tid) (c : Nat) : Prop :=
  ∃ b p, f.calls[c]? = some b ∧ p ≤ b.elems.length ∧
    a.Pend t ((b.elems.drop p).map .push) (List.replicate p .pushed) ∧
    ∀ j, (c, j) ∈ f.order.take m ↔ j < p

/-- A pop that has seen the plain queue empty if all that was filled was taken. -/
def Popping (s : State Tid α) (a : Atomic.State Tid (FifoOp α) (FifoAns α) (List α)) (t : Tid)
    (i j : Nat) : Prop :=
  i ≤ s.filled.length ∧ j ≤ s.taken.length ∧ ∃ seen, a.pend t = some ⟨[.pop], [], seen⟩ ∧
    ((∀ x ∈ s.filled.take i, x ∈ s.taken.take j) → seen (.popped none))

/-- What an open call is in the plain queue. -/
def Call (f s : State Tid α) (a : Atomic.State Tid (FifoOp α) (FifoAns α) (List α)) (m : Nat)
    (t : Tid) : Option (Pend α) → Prop
  | none => a.pend t = none
  | some (.push c _) => Pushing f a m t c
  | some (.pop i j) => Popping s a t i j
  | some (.popped v) => a.Pend t [] [.popped v]

/-- The first `m` elements of the order have been put into the plain queue. -/
structure Sim (f s : State Tid α) (a : Atomic.State Tid (FifoOp α) (FifoAns α) (List α))
    (m : Nat) : Prop where
  le : s.taken.length ≤ m
  begun : ∀ x ∈ f.order.take m, x.1 < s.calls.length
  obj : a.obj = ((f.order.take m).drop s.taken.length).filterMap f.val
  call : ∀ t, Call f s a m t (s.pend t)

/-- No more has been put in than what is filled calls for. -/
structure Tight (f s : State Tid α) (m : Nat) : Prop where
  filled : ∀ x ∈ s.filled, x ∈ f.order.take m
  last : ∀ n, m = n + 1 → ∃ x ∈ s.filled, f.order[n]? = some x

section Sim

variable {f s : State Tid α} {a a' : Atomic.State Tid (FifoOp α) (FifoAns α) (List α)} {m : Nat}
  {t : Tid}

omit [DecidableEq Tid] in
theorem Call.of_eq {p : Option (Pend α)} (he : a'.pend t = a.pend t) (h : Call f s a m t p) :
    Call f s a' m t p := by
  rcases p with _ | ⟨c, k⟩ | ⟨i, j⟩ | v
  · exact he.trans h
  · obtain ⟨b, p, hb, hp, hpend, hmem⟩ := h
    exact ⟨b, p, hb, hp, hpend.of_eq he, hmem⟩
  · obtain ⟨hi, hj, seen, hpend, hseen⟩ := h
    exact ⟨hi, hj, seen, he.trans hpend, hseen⟩
  · exact Atomic.State.Pend.of_eq he h

omit [DecidableEq Tid] in
/-- An open call is the same after an event that is not its own. -/
theorem Call.grows {s' : State Tid α} (hg : Grows s s') {p : Option (Pend α)}
    (h : Call f s a m t p) : Call f s' a m t p := by
  rcases p with _ | ⟨c, k⟩ | ⟨i, j⟩ | v
  · exact h
  · exact h
  · obtain ⟨hi, hj, seen, hpend, hseen⟩ := h
    obtain ⟨r, hr⟩ := hg.filled
    obtain ⟨r', hr'⟩ := hg.taken
    refine ⟨hi.trans hg.filled.length_le, hj.trans hg.taken.length_le, seen, hpend, ?_⟩
    rw [← hr, ← hr', List.take_append_of_le_length hi, List.take_append_of_le_length hj]
    exact hseen
  · exact h

theorem mem_take_succ {l : List Elem} {n : Nat} {z x : Elem} (hz : l[n]? = some z) :
    x ∈ l.take (n + 1) ↔ x ∈ l.take n ∨ x = z := by
  rw [List.take_add_one, hz]
  simp

theorem not_mem_take {l : List Elem} (hl : l.Nodup) {n : Nat} {z : Elem} (hz : l[n]? = some z) :
    z ∉ l.take n := by
  intro h
  obtain ⟨i, hi⟩ := List.getElem?_of_mem h
  rw [List.getElem?_take] at hi
  split_ifs at hi with hlt
  have := (List.getElem?_inj (lt_length_of_getElem? hi) hl).1 (hi.trans hz.symm)
  omega

/-- One more element of the order is put in. -/
theorem Sim.emit (hf : Valid f) (hs : Valid s) (hsim : Sim f s a m) {z : Elem}
    (hz : f.order[m]? = some z) {k : Nat} (hp : s.pend t = some (.push z.1 k))
    (hprev : ∀ p < z.2, (z.1, p) ∈ f.order.take m) :
    ∃ a', Atomic.Steps (fifo α) a a' ∧ Sim f s a' (m + 1) := by
  have hcall := hsim.call t
  rw [hp] at hcall
  obtain ⟨b, p, hb, hple, hpend, hmem⟩ := hcall
  have hnot : z ∉ f.order.take m := not_mem_take hf.order_nodup hz
  obtain rfl : p = z.2 := by
    have h1 := (hmem z.2).not.1 hnot
    by_contra hne
    have h2 := (hmem p).1 (hprev p (by omega))
    omega
  have hzf : z ∈ f.filled := hf.mem_order.1 (List.mem_of_getElem? hz)
  obtain ⟨v, hv⟩ := Option.ne_none_iff_exists'.1 (hf.val z hzf)
  have hbv : b.elems[z.2]? = some v := by
    rw [State.val, hb] at hv
    exact hv
  have hlt := lt_length_of_getElem? hbv
  have hdrop : b.elems.drop z.2 = v :: b.elems.drop (z.2 + 1) := by
    rw [List.drop_eq_getElem_cons hlt, (List.getElem?_eq_some_iff.1 hbv).2]
  rw [hdrop] at hpend
  refine ⟨_, hpend.lin (O := fifo α) (FifoStep.push a.obj v), hsim.le.trans (Nat.le_succ m), ?_, ?_,
    fun u => ?_⟩
  · intro x hx
    rcases (mem_take_succ hz).1 hx with hx | rfl
    · exact hsim.begun x hx
    · exact (hs.opens t _ k hp).1
  · have hlen : s.taken.length ≤ (f.order.take m).length := by
      have := hsim.le
      have := lt_length_of_getElem? hz
      rw [List.length_take]
      omega
    rw [Atomic.State.lin_obj, hsim.obj, List.take_add_one, hz, Option.toList_some,
      List.drop_append_of_le_length hlen, List.filterMap_append]
    simp [hv]
  · by_cases hut : u = t
    · subst hut
      rw [hp]
      refine ⟨b, z.2 + 1, hb, hlt, ?_, fun j => ?_⟩
      · rw [List.replicate_succ']
        exact Atomic.State.lin_pend_self _ _ _ _ _
      · rw [mem_take_succ hz, hmem j, Prod.ext_iff]
        simp only [true_and]
        omega
    · have hcall := (hsim.call u).of_eq (Atomic.State.lin_pend_ne a hut
        ((b.elems.drop (z.2 + 1)).map FifoOp.push) (List.replicate z.2 .pushed ++ [.pushed])
        (a.obj ++ [v]))
      -- the other pushes are other calls
      rcases hu : s.pend u with _ | ⟨c, k'⟩ | ⟨i, j⟩ | v'
      · rwa [hu] at hcall
      · rw [hu] at hcall
        obtain ⟨b', p', hb', hp', hpend', hmem'⟩ := hcall
        refine ⟨b', p', hb', hp', hpend', fun j => ?_⟩
        have hne : (c, j) ≠ z := by
          rintro rfl
          exact hut (hs.inj u t c k' k hu hp)
        rw [mem_take_succ hz, ← hmem' j, or_iff_left hne]
      · rwa [hu] at hcall
      · rwa [hu] at hcall

/-- The elements of the order up to some place are put in, one after another. -/
theorem Sim.emit_all (hf : Valid f) (hs : Valid s) (hsim : Sim f s a m) {n : Nat} (hmn : m ≤ n)
    (hopen : ∀ i, m ≤ i → i < n → ∃ z, f.order[i]? = some z ∧
      (∃ t k, s.pend t = some (.push z.1 k)) ∧ ∀ p < z.2, (z.1, p) ∈ f.order.take i) :
    ∃ a', Atomic.Steps (fifo α) a a' ∧ Sim f s a' n := by
  induction n, hmn using Nat.le_induction with
  | base => exact ⟨a, .refl, hsim⟩
  | succ n hmn ih =>
    obtain ⟨a', hsteps, hsim'⟩ := ih fun i h1 h2 => hopen i h1 (by omega)
    obtain ⟨z, hz, ⟨t, k, hp⟩, hprev⟩ := hopen n hmn (Nat.lt_succ_self n)
    obtain ⟨a'', hsteps', hsim''⟩ := hsim'.emit hf hs hz hp hprev
    exact ⟨a'', hsteps.trans hsteps', hsim''⟩

/-! ## The events -/

omit [DecidableEq Tid] in
/-- An element before one that is filled now, in the order, and not filled yet is taken in the
end. -/
theorem taken_of_lt (hf : Valid f) {r : List Elem} {x z : Elem} {q i : Nat}
    (hfilled : f.filled = s.filled ++ x :: r) (hq : f.order[q]? = some x)
    (hz : f.order[i]? = some z) (hi : i < q) (hzs : z ∉ s.filled) : f.taken[i]? = some z := by
  have hmem : z ∈ f.taken := by
    by_cases hx : x ∈ f.taken
    · -- the taken elements come first
      obtain ⟨q', hq'⟩ := List.getElem?_of_mem hx
      have hlt := lt_length_of_getElem? hq'
      have hq'' : f.order[q']? = some x := by
        rw [State.order, List.getElem?_append_left hlt]
        exact hq'
      obtain rfl : q' = q := (List.getElem?_inj (lt_length_of_getElem? hq'') hf.order_nodup).1
        (hq''.trans hq.symm)
      rw [State.order, List.getElem?_append_left (hi.trans hlt)] at hz
      exact List.mem_of_getElem? hz
    · -- the rest come in the order they are filled in
      have horder : f.order = (f.taken ++ s.filled.filter fun x => x ∉ f.taken) ++
          x :: r.filter fun x => x ∉ f.taken := by
        rw [State.order, hfilled, List.filter_append, List.filter_cons_of_pos (by simpa using hx),
          List.append_assoc]
      have hq' : f.order[(f.taken ++ s.filled.filter fun x => x ∉ f.taken).length]? = some x := by
        rw [horder, List.getElem?_append_right le_rfl, Nat.sub_self]
        rfl
      have hqe := (List.getElem?_inj (lt_length_of_getElem? hq) hf.order_nodup).1
        (hq.trans hq'.symm)
      rw [horder, List.getElem?_append_left (by omega)] at hz
      rcases List.mem_append.1 (List.mem_of_getElem? hz) with h | h
      · exact h
      · exact absurd (List.mem_filter.1 h).1 hzs
  obtain ⟨j, hj⟩ := List.getElem?_of_mem hmem
  have hj' : f.order[j]? = some z := by
    rw [State.order, List.getElem?_append_left (lt_length_of_getElem? hj)]
    exact hj
  obtain rfl : j = i := (List.getElem?_inj (lt_length_of_getElem? hj') hf.order_nodup).1
    (hj'.trans hz.symm)
  exact hj

/-- When an element is filled, those before it in the order belong to open calls. -/
theorem open_of_le (hf : Valid f) (hs : Valid s) {c k : Nat}
    (hp : s.pend t = some (.push c k)) (hfut : Future (s.fill t c k) f)
    (htight : Tight f s m) {q i : Nat} (hq : f.order[q]? = some (c, k)) {z : Elem}
    (hz : f.order[i]? = some z) (hmi : m ≤ i)
    (hiq : i ≤ q) :
    (∃ u k', s.pend u = some (.push z.1 k')) ∧ ∀ p < z.2, (z.1, p) ∈ f.order.take i := by
  have hmono : ∀ {x j}, x ∈ f.order.take j → j ≤ i → x ∈ f.order.take i := fun hx hj =>
    List.take_subset_take_left _ hj hx
  have hzs : z ∉ s.filled :=
    fun hzs => not_mem_take hf.order_nodup hz (hmono (htight.filled z hzs) hmi)
  by_cases hzc : z = (c, k)
  · subst hzc
    exact ⟨⟨t, k, hp⟩, fun p hpk => hmono (htight.filled _ (((hs.opens t c k hp).2 p).2 hpk)) hmi⟩
  · have hlt : i < q := by
      refine lt_of_le_of_ne hiq ?_
      rintro rfl
      exact hzc (Option.some.inj (hz.symm.trans hq))
    obtain ⟨r, hr⟩ := hfut.filled
    have hfilled : f.filled = s.filled ++ (c, k) :: r := by
      rw [← hr, State.fill, List.append_assoc]
      rfl
    have hzt := taken_of_lt hf hfilled hq hz hlt hzs
    have htake : ∀ x, f.Earlier x z → x ∈ f.order.take i := fun x hx => by
      rw [State.order, List.take_append_of_le_length (lt_length_of_getElem? hzt).le]
      exact hf.order i z x hzt hx
    refine ⟨?_, fun p hpz => htake _ (.inr ⟨rfl, hpz⟩)⟩
    have hzf : z ∈ f.filled := hf.taken_sub z (List.mem_of_getElem? hzt)
    rcases hfut.opens z hzf with h | h | h
    · rcases List.mem_append.1 h with h | h
      · exact absurd h hzs
      · exact absurd (List.mem_singleton.1 h) hzc
    · -- a call that begins later is later than this element
      exfalso
      obtain ⟨b', hb'⟩ : ∃ b', f.calls[z.1]? = some b' := by
        rw [← Option.ne_none_iff_exists']
        exact fun hn => absurd (hf.call_lt hzf) (by simpa using List.getElem?_eq_none_iff.1 hn)
      have hborn := hfut.born z.1 b' hb' h
      have hmem : (c, k) ∈ f.filled.take b'.born := by
        refine List.take_subset_take_left _ hborn ?_
        rw [← hr, List.take_left']
        · exact List.mem_append_right _ (List.mem_singleton_self _)
        · rfl
      exact not_mem_take hf.order_nodup hq (List.take_subset_take_left _ hiq
        (htake _ (.inl ⟨b', hb', hmem⟩)))
    · obtain ⟨u, k', hu⟩ := h
      by_cases hut : u = t
      · subst hut
        have he := (State.set_pend_self ..).symm.trans hu
        simp only [Option.some.injEq, Pend.push.injEq] at he
        exact ⟨u, k, he.1 ▸ hp⟩
      · exact ⟨u, k', (State.set_pend_ne _ hut _).symm.trans hu⟩

/-- An event of thread `t` leaves the calls of the other threads as they are. -/
theorem Sim.others {s' : State Tid α} (hsim : Sim f s a m) (hg : Grows s s')
    (hpend : ∀ u, u ≠ t → s'.pend u = s.pend u) (ha : ∀ u, u ≠ t → a'.pend u = a.pend u)
    (ht : Call f s' a' m t (s'.pend t)) (u : Tid) : Call f s' a' m u (s'.pend u) := by
  by_cases hut : u = t
  · subst hut
    exact ht
  · rw [hpend u hut]
    exact ((hsim.call u).of_eq (ha u hut)).grows hg

theorem Sim.fill (hf : Valid f) (hs : Valid s) (hsim : Sim f s a m) (htight : Tight f s m)
    {c k : Nat} (hp : s.pend t = some (.push c k)) (hfut : Future (s.fill t c k) f) :
    ∃ a' m', Atomic.Steps (fifo α) a a' ∧ Sim f (s.fill t c k) a' m' ∧
      Tight f (s.fill t c k) m' := by
  have hg : Grows s (s.fill t c k) := { Grows.refl s with filled := List.prefix_append .. }
  have hfilled : (c, k) ∈ f.filled :=
    hfut.filled.subset (List.mem_append_right _ (List.mem_singleton_self _))
  -- the plain queue does not see that an element is filled
  have hfill : ∀ {a' m'}, Sim f s a' m' → Sim f (s.fill t c k) a' m' := fun {a' m'} h => by
    refine ⟨h.le, h.begun, h.obj, h.others (t := t) hg
      (fun u hu => State.set_pend_ne _ hu _) (fun _ _ => rfl) ?_⟩
    have hcall := h.call t
    rw [hp] at hcall
    rw [show (s.fill t c k).pend t = some (.push c (k + 1)) from State.set_pend_self ..]
    exact hcall
  have hmem : ∀ x, x ∈ (s.fill t c k).filled → x ∈ s.filled ∨ x = (c, k) := fun x hx => by
    simpa [State.fill] using hx
  by_cases hin : (c, k) ∈ f.order.take m
  · refine ⟨a, m, .refl, hfill hsim, fun x hx => ?_, fun n hn => ?_⟩
    · rcases hmem x hx with hx | rfl
      · exact htight.filled x hx
      · exact hin
    · obtain ⟨x, hx, hn⟩ := htight.last n hn
      exact ⟨x, List.mem_append_left _ hx, hn⟩
  · obtain ⟨q, hq⟩ := List.getElem?_of_mem (hf.mem_order.2 hfilled)
    have hmq : m ≤ q := by
      by_contra hlt
      refine hin (List.mem_of_getElem? (i := q) ?_)
      rw [List.getElem?_take, if_pos (by omega)]
      exact hq
    obtain ⟨a', hsteps, hsim'⟩ := hsim.emit_all hf hs (n := q + 1) (by omega) fun i h1 h2 => by
      have hi : i < f.order.length := by
        have := lt_length_of_getElem? hq
        omega
      exact ⟨_, List.getElem?_eq_getElem hi,
        open_of_le hf hs hp hfut htight hq (List.getElem?_eq_getElem hi) h1 (by omega)⟩
    refine ⟨a', q + 1, hsteps, hfill hsim', fun x hx => ?_, fun n hn => ?_⟩
    · rcases hmem x hx with hx | rfl
      · exact List.take_subset_take_left _ (by omega) (htight.filled x hx)
      · exact (mem_take_succ hq).2 (.inr rfl)
    · obtain rfl : q = n := by omega
      exact ⟨_, List.mem_append_right _ (List.mem_singleton_self _), hq⟩

theorem Sim.take (hf : Valid f) (hsim : Sim f s a m) (htight : Tight f s m)
    {i j : Nat} {y : Elem} {v : α} (hp : s.pend t = some (.pop i j)) (hy : s.Ready y)
    (hv : s.val y = some v) (hfut : Future (s.take t y v) f) :
    ∃ a', Atomic.Steps (fifo α) a a' ∧ Sim f (s.take t y v) a' m := by
  have hg : Grows s (s.take t y v) := { Grows.refl s with taken := List.prefix_append .. }
  have hlen : (s.take t y v).taken.length = s.taken.length + 1 := List.length_append
  have hyl : f.order[s.taken.length]? = some y := by
    have := hfut.take_order
    rw [hlen, List.take_add_one, (hg.trans hfut.toGrows).take_order] at this
    have := List.append_cancel_left (show s.taken ++ _ = s.taken ++ [y] from this)
    cases he : f.order[s.taken.length]? with
    | none => rw [he] at this; cases this
    | some z => rw [he] at this; cases this; rfl
  have hlt : s.taken.length < m := by
    by_contra hge
    exact not_mem_take hf.order_nodup hyl
      (List.take_subset_take_left _ (by omega) (htight.filled y hy.filled))
  have hfv : f.val y = some v := by
    rw [(hg.trans hfut.toGrows).val (by rw [hv]; nofun), hv]
  have hobj : a.obj = v :: ((f.order.take m).drop (s.taken.length + 1)).filterMap f.val := by
    have hy' : (f.order.take m)[s.taken.length]? = some y := by
      rw [List.getElem?_take, if_pos hlt, hyl]
    rw [hsim.obj, List.drop_eq_getElem_cons (lt_length_of_getElem? hy'),
      (List.getElem?_eq_some_iff.1 hy').2, List.filterMap_cons, hfv]
  have hcall := hsim.call t
  rw [hp] at hcall
  obtain ⟨-, -, seen, hpend, -⟩ := hcall
  have hpend : a.Pend t [.pop] [] := ⟨seen, hpend⟩
  refine ⟨_, hpend.lin (O := fifo α) (a := .popped (some v)) (by rw [hobj]; exact .pop v _), ?_⟩
  refine ⟨by omega, hsim.begun, ?_, hsim.others (t := t) hg
    (fun u hu => State.set_pend_ne _ hu _) (fun u hu => Atomic.State.lin_pend_ne _ hu _ _ _) ?_⟩
  · rw [hlen]
    rfl
  · rw [show (s.take t y v).pend t = some (.popped (some v)) from State.set_pend_self ..]
    exact Atomic.State.lin_pend_self _ _ _ _ _

omit [DecidableEq Tid] in
/-- With everything taken the plain queue is empty. -/
theorem Sim.empty (hf : Valid f) (hfut : Future s f) (hsim : Sim f s a m) (htight : Tight f s m)
    (hall : ∀ x ∈ s.filled, x ∈ s.taken) : a.obj = [] := by
  have hle : m ≤ s.taken.length := by
    by_contra hlt
    obtain ⟨x, hx, hn⟩ := htight.last (m - 1) (by omega)
    refine not_mem_take hf.order_nodup hn (List.take_subset_take_left _ ?_
      (hfut.take_order ▸ hall x hx))
    omega
  rw [hsim.obj, List.drop_eq_nil_of_le]
  · rfl
  · rw [List.length_take]
    omega

/-- The call of thread `t` changes, and nothing else. -/
theorem Sim.set (hsim : Sim f s a m) {p : Option (Pend α)} (hobj : a'.obj = a.obj)
    (ha : ∀ u, u ≠ t → a'.pend u = a.pend u) (ht : Call f s a' m t p) : Sim f (s.set t p) a' m := by
  refine ⟨hsim.le, hsim.begun, hobj.trans hsim.obj, hsim.others { Grows.refl s with }
    (fun u hu => State.set_pend_ne _ hu _) ha ?_⟩
  rw [State.set_pend_self]
  exact ht.grows { Grows.refl s with }

theorem Sim.callPush (hsim : Sim f s a m) {vs : List α} (hfut : Future (s.begin t vs) f) :
    Sim f (s.begin t vs) (a.set t (some (.new (vs.map .push)))) m := by
  have hg : Grows s (s.begin t vs) := { Grows.refl s with calls := List.prefix_append .. }
  have hlen : (s.begin t vs).calls.length = s.calls.length + 1 := List.length_append
  have hbegun : ∀ x ∈ f.order.take m, x.1 < s.calls.length := hsim.begun
  refine ⟨hsim.le, fun x hx => (hbegun x hx).trans (by omega), hsim.obj, hsim.others hg
    (fun u hu => State.set_pend_ne _ hu _) (fun u hu => Atomic.State.set_pend_ne _ hu _) ?_⟩
  rw [show (s.begin t vs).pend t = some (.push s.calls.length 0) from State.set_pend_self ..]
  refine ⟨⟨s.filled.length, vs⟩, 0, ?_, Nat.zero_le _, ⟨_, Atomic.State.set_pend_self _ _ _⟩,
    fun j => ⟨fun hj => ?_, fun hj => absurd hj (Nat.not_lt_zero j)⟩⟩
  · rw [hfut.call (by omega)]
    exact getElem?_append_singleton.mpr (.inr ⟨rfl, rfl⟩)
  · exact absurd (hbegun _ hj) (lt_irrefl _)

theorem Sim.callPop (hf : Valid f) (hfut : Future s f) (hsim : Sim f s a m)
    (htight : Tight f s m) :
    ∃ a', Atomic.Steps (fifo α) (a.set t (some (.new [.pop]))) a' ∧
      Sim f (s.set t (some (.pop s.filled.length s.taken.length))) a' m := by
  have hset : ∀ u, u ≠ t → (a.set t (some (.new [FifoOp.pop]))).pend u = a.pend u := fun u hu =>
    Atomic.State.set_pend_ne _ hu _
  by_cases hall : ∀ x ∈ s.filled, x ∈ s.taken
  · have hempty : a.obj = [] := hsim.empty hf hfut htight hall
    have hpend : (a.set t (some (.new [FifoOp.pop]))).Pend t [.pop] [] :=
      ⟨_, Atomic.State.set_pend_self _ _ _⟩
    obtain ⟨a', hsteps, hobj, hoth, seen, hp, hs⟩ := hpend.see (O := fifo α) (a := .popped none) (by
      rw [Atomic.State.set_obj, hempty]
      exact .empty)
    exact ⟨a', hsteps, hsim.set hobj (fun u hu => (hoth u hu).trans (hset u hu))
      ⟨le_rfl, le_rfl, seen, hp, fun _ => hs⟩⟩
  · refine ⟨_, .refl, hsim.set rfl hset
      ⟨le_rfl, le_rfl, _, Atomic.State.set_pend_self _ _ _, fun h => absurd (fun x hx => ?_) hall⟩⟩
    rw [List.take_length, List.take_length] at h
    exact h x hx

/-- Every event of the queue is one of the plain queue, or none. -/
theorem Path.sim {h : List (Event Tid (FifoOp α) (FifoAns α))} (hp : Path State.init h s)
    (hf : Valid f) (hl : Leads s f) :
    ∃ a m, Atomic.Run (fifo α) h a ∧ Sim f s a m ∧ Tight f s m := by
  induction hp with
  | refl =>
    exact ⟨Atomic.init (fifo α), 0, .init, ⟨le_rfl, nofun, rfl, fun _ => rfl⟩, nofun, nofun⟩
  | @tail h es s s' hp hn ih =>
    obtain ⟨a, m, hr, hsim, htight⟩ := ih (.head ⟨es, hn⟩ hl)
    have hs : Valid s := Valid.init.path hp
    have hfut : Future s' f := .of_leads hl
    have hfut₀ : Future s f := .of_leads (.head ⟨es, hn⟩ hl)
    cases hn with
    | @callPush t hpend vs =>
      have hidle := hsim.call t
      rw [hpend] at hidle
      exact ⟨_, m, hr.call hidle _, hsim.callPush hfut, htight.filled, htight.last⟩
    | @callPop t hpend =>
      have hidle := hsim.call t
      rw [hpend] at hidle
      obtain ⟨a', hsteps, hsim'⟩ := hsim.callPop hf hfut₀ htight (t := t)
      exact ⟨a', m, (hr.call hidle _).steps hsteps, hsim', htight.filled, htight.last⟩
    | fill hpend hb hk =>
      obtain ⟨a', m', hsteps, hsim', htight'⟩ := hsim.fill hf hs htight hpend hfut
      rw [List.append_nil]
      exact ⟨a', m', hr.steps hsteps, hsim', htight'⟩
    | take hpend hy hv =>
      obtain ⟨a', hsteps, hsim'⟩ := hsim.take hf htight hpend hy hv hfut
      rw [List.append_nil]
      exact ⟨a', m, hr.steps hsteps, hsim', htight.filled, htight.last⟩
    | @empty t i j hpend he =>
      have hcall := hsim.call t
      rw [hpend] at hcall
      obtain ⟨-, -, seen, hpa, hseen⟩ := hcall
      rw [List.append_nil]
      exact ⟨_, m, hr.steps (Atomic.Steps.settle hpa (hseen he)), hsim.set rfl
        (fun u hu => Atomic.State.lin_pend_ne _ hu _ _ _) (Atomic.State.lin_pend_self _ _ _ _ _),
        htight.filled, htight.last⟩
    | @retPush t c k b hpend hb hk =>
      have hcall := hsim.call t
      rw [hpend] at hcall
      obtain ⟨b', p, hb', hple, ⟨seen, hpa⟩, hmem⟩ := hcall
      -- all its elements are filled, so all have been put in
      obtain ⟨hc, hfilled⟩ := hs.opens t c k hpend
      obtain rfl : b' = b := Option.some.inj (hb'.symm.trans ((hfut₀.call hc).trans hb))
      obtain rfl : p = k := by
        by_contra hne
        have := (hmem p).1 (htight.filled _ ((hfilled p).2 (by omega)))
        omega
      rw [List.drop_eq_nil_of_le hk.le] at hpa
      exact ⟨_, m, hr.ret hpa, hsim.set rfl (fun u hu => Atomic.State.set_pend_ne _ hu _)
        (Atomic.State.set_pend_self _ _ _), htight.filled, htight.last⟩
    | @retPop t v hpend =>
      have hcall := hsim.call t
      rw [hpend] at hcall
      obtain ⟨seen, hpa⟩ := hcall
      exact ⟨_, m, hr.ret hpa, hsim.set rfl (fun u hu => Atomic.State.set_pend_ne _ hu _)
        (Atomic.State.set_pend_self _ _ _), htight.filled, htight.last⟩

end Sim

/-- **Every history of a queue taken from out of order is that of a plain queue.** -/
theorem Path.linearizable {h : List (Event Tid (FifoOp α) (FifoAns α))} {s : State Tid α}
    (hp : Path State.init h s) : Linearizable (fifo α) h := by
  obtain ⟨a, -, hr, -⟩ := hp.sim (Valid.init.path hp) .refl
  exact hr.linearizable

end Wtc.Concurrent.Loose
