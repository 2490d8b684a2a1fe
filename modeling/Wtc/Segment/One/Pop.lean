import Wtc.Segment.One.Push

/-!
# Pops from the queue for one consumer

Each step of `pop_one`, `pop_ahead` and `walk_on` keeps the rule. The two points that matter: what
the consumer takes may be taken (`G.ready`), and where it answers empty everything filled before
the pop began is taken (`Walking.all_taken`).
-/

namespace Wtc.Segment.One

open Wtc.Concurrent

variable {α Tid : Type} {K : Nat} {sh sh' : Shared α} {w w' : Ghost Tid α} {t : Tid}
  {l' : OneLoc α}

/-! ## Cells and elements -/

variable {c : Nat × Nat} {x y : Loose.Elem} {i h a n j s k taken : Nat}

/-- A hole is full once its element is filled. -/
theorem G.hole_full (hg : G K sh w) (hc : c ∈ sh.one.holes) :
    sh.state c.1 c.2 = .full ↔ ∃ x ∈ w.lo.filled, w.num x = number K c := by
  obtain ⟨hK, -, -⟩ := hg.ahead.hole c hc
  constructor
  · intro hst
    exact hg.cells.elem c.1 c.2 hK (by rw [hst]; nofun)
  · rintro ⟨x, hx, hn⟩
    rcases hg.cells.mark x hx c.1 c.2 hK hn with h | ⟨-, hxt⟩
    · exact h
    · exact absurd hn (hg.ahead.fresh c hc x hxt)

/-- An element whose cell is taken is taken. -/
theorem G.taken_of_num (hg : G K sh w) (hx : x ∈ w.lo.filled)
    (h : ∃ y ∈ w.lo.taken, w.num y = w.num x) : x ∈ w.lo.taken := by
  obtain ⟨y, hy, hn⟩ := h
  rwa [← hg.cells.num_inj y (hg.valid.taken_sub y hy) x hx hn]

/-- An element may be taken once those filled before it in earlier cells are. -/
theorem G.ready (hg : G K sh w) (hy : w.lo.filled[i]? = some y) (hfresh : y ∉ w.lo.taken)
    (h : ∀ x ∈ w.lo.filled.take i, w.num x < w.num y → x ∈ w.lo.taken) : w.lo.Ready y where
  filled := List.mem_of_getElem? hy
  fresh := hfresh
  earlier x hx := h x (hg.valid.earlier i y x hy hx)
    (hg.cells.earlier y (List.mem_of_getElem? hy) x hx)

theorem AtHead.passed_eq (ha : AtHead K sh h i) : passed K sh = h * K + i := by
  obtain ⟨rfl, rfl, hlt⟩ := ha
  rw [passed]
  omega

/-- The cell under the head, when it is not marked as taken, has not been taken from. -/
theorem AtHead.fresh (ha : AtHead K sh h i) (hm : Marked K sh w none)
    (hst : sh.state h i ≠ .taken) : ∀ x ∈ w.lo.taken, w.num x ≠ h * K + i := by
  intro x hx hn
  have hp := ha.passed_eq
  rcases hm x hx with hlt | hf | ⟨s, j, hj, hn', hst'⟩
  · omega
  · cases hf
  · obtain ⟨rfl, rfl⟩ := number_inj ha.lt hj (hn.symm.trans hn')
    exact hst hst'

variable [DecidableEq Tid]

/-- A step of the consumer keeps the rule. -/
def OneKept (K : Nat) (t : Tid) (sh : Shared α) (w : Ghost Tid α) (sh' : Shared α)
    (l' : OneLoc α) : Prop :=
  ∃ w' : Ghost Tid α, Loose.Path w.lo [] w'.lo ∧ G K sh' w' ∧ OneL K t sh' w' l' ∧
    Rely K t t sh w sh' w'

section

variable (hg : G K sh w)
include hg

theorem OneKept.same {l' : OneLoc α} (hl : OneL K t sh w l') : OneKept K t sh w sh l' :=
  ⟨w, .refl, hg, hl, .refl ..⟩

omit [DecidableEq Tid] in
/-- A step in which the consumer writes only what is its own. -/
theorem G.own (hc : Chain K sh') (hr : reserved K sh' = reserved K sh) (hs : sh'.state = sh.state)
    (hcell : sh'.cell = sh.cell) (ha : Ahead K sh' { w with ahead := a }) :
    G K sh' { w with ahead := a } :=
  ⟨hc, hg.valid, { hg.cells.of_reserved hr.ge hs hcell with }, ha⟩

omit hg in
omit [DecidableEq Tid] in
theorem Rely.own (hsegs : sh'.segs = sh.segs) (he : sh'.enq = sh.enq) (hn : sh'.next = sh.next)
    (hs : sh'.state = sh.state) (hcell : sh'.cell = sh.cell) (hlo : w'.lo = w.lo)
    (hnum : w'.num = w.num) (hown : w'.owner = w.owner) : Rely K t t sh w sh' w' where
  segs := hsegs.ge
  enq s := by rw [he]
  next := by rw [hn]; exact fun _ _ h => h
  grows := by rw [hlo]; exact .refl _
  num x _ := by rw [hnum]
  pend u _ := by rw [hlo]
  owned s j u _ _ ho := by rw [hown, hs, hcell]; exact ⟨ho, fun h => ⟨h, rfl⟩⟩
  quiet h := absurd rfl h

/-! ## The head -/

/-- The consumer moves the tail on. -/
theorem advTail_step (hl : OneL K t sh w (.advTail h n)) :
    OneKept K t sh w (sh.casTail h n) (.advHead h n) := by
  have hn := (hg.chain.next_eq_some hl.2.2.2.2).2
  unfold Shared.casTail
  split_ifs
  · refine ⟨w, .refl, ?_, hl, ?_⟩
    · exact { hg with
        chain := hg.chain.setTail hn
        cells := { hg.cells with }
        ahead := { hg.ahead with } }
    · exact { Rely.refl K t t sh w with quiet := fun h => absurd rfl h }
  · exact .same hg hl

omit hg in
omit [DecidableEq Tid] in
/-- More of the cells are passed: what was the first of them is taken. -/
theorem Ahead.pass (ha : Ahead K sh w) (hp : passed K sh' = passed K sh + 1)
    (ho : sh'.one.holes = sh.one.holes) (hx : ∃ x ∈ w.lo.taken, w.num x = passed K sh) :
    Ahead K sh' w where
  below n hn := by
    by_cases he : n = passed K sh
    · subst he; exact hx
    · exact ha.below n (by omega)
  sorted := by rw [ho]; exact ha.sorted
  hole c hc := by
    rw [ho] at hc
    obtain ⟨x, hx, hn⟩ := hx
    obtain ⟨h1, h2, h3⟩ := ha.hole c hc
    have := ha.fresh c hc x hx
    exact ⟨h1, by omega, h3⟩
  fresh := by rw [ho]; exact ha.fresh
  cover n h1 h2 := by rw [ho]; exact ha.cover n (by omega) h2
  taken_lt x hx := by
    have := ha.taken_lt x hx
    omega

omit hg in
omit [DecidableEq Tid] in
theorem AtHead.passed_setDeq (ha : AtHead K sh h i) :
    passed K (sh.setDeq h (i + 1)) = passed K sh + 1 := by
  rw [ha.passed_eq, ha.head, passed_setDeq_head]
  have := ha.lt
  omega

/-- The head goes to the next segment. -/
theorem advHead_step (hl : OneL K t sh w (.advHead h n)) :
    OneKept K t sh w { sh with head := n } .head := by
  obtain ⟨hp, ⟨hm, hw⟩, rfl, hd, hn⟩ := hl
  obtain ⟨rfl, hlt⟩ := hg.chain.next_eq_some hn
  have hpass := passed_setHead hg.chain hd
  refine ⟨w, .refl, hg.own (hg.chain.setHead hlt hd) rfl rfl rfl
    (hg.ahead.congr hpass rfl rfl rfl fun _ _ => rfl), ⟨hp, fun x hx => ?_, hw⟩,
    Rely.own rfl rfl rfl rfl rfl rfl rfl rfl⟩
  rw [hpass]
  exact hm x hx

/-- The head steps over a cell that is taken. -/
theorem stepOver_step (hl : OneL K t sh w (.stepOver h i)) :
    OneKept K t sh w (sh.setDeq h (i + 1)) .head := by
  obtain ⟨hp, ⟨hm, hw⟩, ha, hst⟩ := hl
  have hpass := ha.passed_setDeq
  have hx : ∃ x ∈ w.lo.taken, w.num x = passed K sh := by
    obtain ⟨x, hx, hn⟩ := hg.cells.elem h i ha.lt (by rw [hst]; nofun)
    rw [ha.passed_eq]
    rcases hg.cells.mark x hx h i ha.lt hn with hf | ⟨-, hxt⟩
    · rw [hst] at hf; cases hf
    · exact ⟨x, hxt, hn⟩
  refine ⟨w, .refl, hg.own (hg.chain.setDeq ha.head.le (by rw [← ha.deq]; omega)) rfl rfl rfl
    (hg.ahead.pass hpass rfl hx), ⟨hp, fun x hx => ?_, hw⟩,
      Rely.own rfl rfl rfl rfl rfl rfl rfl rfl⟩
  rw [hpass]
  exact (hm x hx).imp_left fun h => by omega

/-! ## Taking an element -/

/-- The consumer takes an element from its cell. -/
def Ghost.take (w : Ghost Tid α) (t : Tid) (y : Loose.Elem) (v : α) (a : Nat) : Ghost Tid α :=
  { w with lo := w.lo.take t y v, ahead := a }

omit hg in
theorem Cells.take (hc : Cells K sh w) {v : α} (one : One) (hy : y ∈ w.lo.filled)
    (hn : w.num y = s * K + j) : Cells K ((sh.setOne one).setCell s j none) (w.take t y v a) :=
  { hc with
    mark := fun x hx s' j' hj he => (hc.mark x hx s' j' hj he).imp_right fun h =>
      ⟨h.1, List.mem_append_left _ h.2⟩
    cell := fun x hx hnt s' j' hj he => by
      have hxy : x ≠ y := by
        rintro rfl
        exact hnt (List.mem_append_right _ (List.mem_singleton_self _))
      rw [setCell_ne]
      · exact hc.cell x hx (fun h => hnt (List.mem_append_left _ h)) s' j' hj he
      · rintro ⟨⟩
        exact hxy (hc.num_inj x hx y hy (he.trans hn.symm)) }

omit hg in
theorem Rely.take {v : α} (one : One) (hst : sh.state s j ≠ .empty) :
    Rely K t t sh w ((sh.setOne one).setCell s j none) (w.take t y v a) :=
  { Rely.refl K t t sh w with
    grows := { Loose.Grows.refl w.lo with taken := List.prefix_append .. }
    pend := fun u hu => Loose.State.set_pend_ne _ hu _
    owned := fun s' j' u _ _ ho => ⟨ho, fun h => ⟨h, by
      refine setCell_ne ?_
      rintro ⟨⟩
      exact hst h⟩⟩
    quiet := fun h => absurd rfl h }

/-- The step of the queue taken from out of order. -/
theorem G.take_path {v : α} (hp : Popping w t) (hy : w.lo.filled[i]? = some y)
    (hready : w.lo.Ready y) (hj : j < K) (hn : w.num y = s * K + j) (hv : sh.cell s j = some v) :
    Loose.Path w.lo [] (w.take t y v a).lo ∧ Loose.Valid (w.take t y v a).lo := by
  obtain ⟨k, hp, -⟩ := hp
  have hval : w.lo.val y = some v :=
    (hg.cells.cell y (List.mem_of_getElem? hy) hready.fresh s j hj hn).symm.trans hv
  have hnext : Loose.Next w.lo [] (w.lo.take t y v) := .take hp hready hval
  exact ⟨.single hnext, hg.valid.next hnext⟩

omit hg in
omit [DecidableEq Tid] in
theorem Marked.take_aux (hm : Marked K sh w none) (hx : x ∈ w.lo.taken ++ [y]) :
    w.num x < passed K sh ∨ some (w.num x) = some (w.num y) ∨
      ∃ s j, j < K ∧ w.num x = s * K + j ∧ sh.state s j = .taken := by
  rcases List.mem_append.1 hx with hx | hx
  · rcases hm x hx with h | h | h
    · exact .inl h
    · cases h
    · exact .inr (.inr h)
  · rw [List.mem_singleton.1 hx]
    exact .inr (.inl rfl)

/-- The consumer takes the element under the head. -/
theorem take_step {v : α} (hl : OneL K t sh w (.take h i)) (hv : sh.cell h i = some v) :
    OneKept K t sh w (sh.setCell h i none) (.setDeq h i v) := by
  obtain ⟨hp, ⟨hm, hw⟩, ha, hh, hst⟩ := hl
  have hfresh := ha.fresh hm (by rw [hst]; nofun)
  obtain ⟨y, hy, hn⟩ := hg.cells.elem h i ha.lt (by rw [hst]; nofun)
  have hpn : w.num y = passed K sh := hn.trans ha.passed_eq.symm
  obtain ⟨k, hk⟩ := List.getElem?_of_mem hy
  have hready : w.lo.Ready y := hg.ready hk (fun hyt => hfresh y hyt hn) fun x hx hlt =>
    hg.taken_of_num (List.mem_of_mem_take hx) (hg.ahead.below _ (by omega))
  obtain ⟨hpath, hvalid⟩ :=
    hg.take_path (a := max w.ahead (passed K sh + 1)) hp hk hready ha.lt hn hv
  refine ⟨w.take t y v (max w.ahead (passed K sh + 1)), hpath,
    ⟨hg.chain.setCell h i none, hvalid, hg.cells.take sh.one hy hn, ?_⟩,
    ⟨Loose.State.set_pend_self .., ⟨ha.head, ha.deq, ha.lt⟩, hh, fun x hx => ?_,
      y, List.mem_append_right _ (List.mem_singleton_self _), hn⟩,
    Rely.take sh.one (by rw [hst]; nofun)⟩
  · refine ⟨fun n hn => ?_, hg.ahead.sorted, ?_, ?_, fun n h1 h2 => .inr ?_, fun x hx => ?_⟩
    · obtain ⟨x, hx, hn⟩ := hg.ahead.below n hn
      exact ⟨x, List.mem_append_left _ hx, hn⟩
    · intro c hc
      have hc : c ∈ sh.one.holes := hc
      rw [hh] at hc
      cases hc
    · intro c hc
      have hc : c ∈ sh.one.holes := hc
      rw [hh] at hc
      cases hc
    · have h1 : passed K sh ≤ n := h1
      have h2 : n < max w.ahead (passed K sh + 1) := h2
      by_cases he : n = passed K sh
      · exact ⟨y, List.mem_append_right _ (List.mem_singleton_self _), hpn.trans he.symm⟩
      · rcases hg.ahead.cover n h1 (by omega) with ⟨c, hc, -⟩ | ⟨x, hx, hn⟩
        · rw [hh] at hc; cases hc
        · exact ⟨x, List.mem_append_left _ hx, hn⟩
    · show w.num x < passed K sh ∨ w.num x < max w.ahead (passed K sh + 1)
      rcases List.mem_append.1 hx with hx | hx
      · have := hg.ahead.taken_lt x hx
        omega
      · rw [List.mem_singleton.1 hx, hpn]
        omega
  · have := hm.take_aux hx
    rwa [hn] at this

/-- The head passes the cell whose element was taken. -/
theorem setDeq_step {v : α} (hl : OneL K t sh w (.setDeq h i v)) :
    OneKept K t sh w ((sh.setDeq h (i + 1)).setOne { sh.one with streaming := true })
      (.done (some v)) := by
  obtain ⟨hp, ha, hh, hm, x, hx, hn⟩ := hl
  have hpass : passed K ((sh.setDeq h (i + 1)).setOne { sh.one with streaming := true }) =
      passed K sh + 1 := ha.passed_setDeq
  have hc := (hg.chain.setDeq ha.head.le (d := i + 1) (by rw [← ha.deq]; omega)).setOne
    { sh.one with streaming := true }
  refine ⟨w, .refl, hg.own hc rfl rfl rfl (hg.ahead.pass hpass rfl
    ⟨x, hx, hn.trans ha.passed_eq.symm⟩), ⟨hp, fun y hy => ?_, fun hne => absurd hh hne⟩,
    Rely.own rfl rfl rfl rfl rfl rfl rfl rfl⟩
  rw [hpass, ha.passed_eq]
  rcases hm y hy with h1 | h1 | h1
  · rw [ha.passed_eq] at h1
    exact .inl (by omega)
  · exact .inl (by have := Option.some.inj h1; omega)
  · exact .inr (.inr h1)

/-! ## Looking ahead -/

/-- The consumer passes the cell under the head, which is not full. -/
theorem goAhead_step (hp : Popping w t) (hr : Rest K sh w) (ha : AtHead K sh h i)
    (hfresh : ∀ x ∈ w.lo.taken, w.num x ≠ h * K + i) :
    OneKept K t sh w (goAhead sh h i).1 (goAhead sh h i).2 := by
  by_cases hh : sh.one.holes = []
  · have hgo : goAhead sh h i = (sh.setOne { sh.one with walk := (h, i) }, .enq h i) := by
      simp [goAhead, popAhead, hh]
    rw [hgo]
    have hc := hg.chain.setOne { sh.one with walk := (h, i) }
    have hpass : passed K (sh.setOne { sh.one with walk := (h, i) }) = h * K + i := ha.passed_eq
    -- with no holes nothing ahead of this cell has been taken
    have hle : w.ahead ≤ h * K + i := by
      by_contra hlt
      rcases hg.ahead.cover (h * K + i) ha.passed_eq.le (by omega) with ⟨c, hc, -⟩ | ⟨x, hx, hn⟩
      · rw [hh] at hc; cases hc
      · exact hfresh x hx hn
    have hseg : h < sh.segs := ha.head ▸ hg.chain.head_lt
    have hnil : ∀ {m : Nat} {c : Nat × Nat}, sh.one.holes[m]? = some c → False := fun hc => by
      rw [hh] at hc; cases hc
    refine ⟨{ w with ahead := h * K + i }, .refl, hg.own hc rfl rfl rfl ?_,
      ⟨⟨hp, hr.1, rfl, hpass.le, hseg, fun m c _ hc => (hnil hc).elim⟩, ha.lt.le, rfl⟩,
      Rely.own rfl rfl rfl rfl rfl rfl rfl rfl⟩
    refine ⟨hg.ahead.below, hg.ahead.sorted, fun c hc => ?_, hg.ahead.fresh, fun n h1 h2 => ?_,
      fun x hx => .inl ?_⟩
    · have hc : c ∈ sh.one.holes := hc
      rw [hh] at hc; cases hc
    · rw [hpass] at h1
      have h2 : n < h * K + i := h2
      omega
    · rw [hpass]
      have := hg.ahead.taken_lt x hx
      rw [ha.passed_eq] at this
      show w.num x < _
      omega
  · have hgo : goAhead sh h i = (sh, .look 0) := by
      simp [goAhead, popAhead, hh, Shared.setOne]
    rw [hgo]
    exact .same hg ⟨hp, hr, List.length_pos_iff.2 hh, fun m c hm => absurd hm (Nat.not_lt_zero m)⟩

omit [DecidableEq Tid] in
/-- A hole that is full, to be looked behind. -/
theorem OneL_lookAgain (hp : Popping w t) (hr : Rest K sh w) (hc : sh.one.holes[k]? = some c)
    (hst : sh.state c.1 c.2 = .full) : OneL K t sh w (lookAgain k) := by
  obtain ⟨y, hy, hn⟩ := (hg.hole_full (List.mem_of_getElem? hc)).1 hst
  obtain ⟨i, hi⟩ := List.getElem?_of_mem hy
  have hfound : Found K sh w k 0 :=
    ⟨c, y, i, hc, hi, hn, fun m' d hm => absurd hm (Nat.not_lt_zero m')⟩
  unfold lookAgain
  split_ifs with hk
  · subst hk; exact ⟨hp, hr, hfound⟩
  · exact ⟨hp, hr, by omega, hfound⟩

omit [DecidableEq Tid] in
/-- A hole that is not full now was not full when the pop began. -/
theorem NoneOld.succ (h : NoneOld K t sh w k) (hc : sh.one.holes[k]? = some c)
    (hst : sh.state c.1 c.2 ≠ .full) : NoneOld K t sh w (k + 1) := by
  intro m d hm hd x hx hn
  by_cases he : m = k
  · subst he
    obtain rfl := Option.some.inj (hc.symm.trans hd)
    exact hst ((hg.hole_full (List.mem_of_getElem? hc)).2 ⟨x, hx.filled, hn⟩)
  · exact h m d (by omega) hd x hx hn

/-- The consumer looks at a hole. -/
theorem look_step {l' : OneLoc α} (hl : OneL K t sh w (.look k)) (hc : sh.one.holes[k]? = some c)
    (hl' : l' = if sh.state c.1 c.2 = .full then lookAgain k
      else if k + 1 < sh.one.holes.length then .look (k + 1)
      else .enq sh.one.walk.1 sh.one.walk.2) :
    OneKept K t sh w sh l' := by
  obtain ⟨hp, hr, hk, hnone⟩ := hl
  subst hl'
  refine .same hg ?_
  split_ifs with hst hlt
  · exact OneL_lookAgain hg hp hr hc hst
  · exact ⟨hp, hr, hlt, hnone.succ hg hc hst⟩
  · obtain ⟨hahead, hseg, hle⟩ := hr.2 (by rintro hn; rw [hn] at hk; cases hk)
    have hlen : sh.one.holes.length = k + 1 := by omega
    obtain ⟨-, h1, h2⟩ := hg.ahead.hole c (List.mem_of_getElem? hc)
    exact ⟨⟨hp, hr.1, hahead, by omega, hseg, hlen ▸ hnone.succ hg hc hst⟩, hle, rfl⟩

/-! ## The walk -/

omit [DecidableEq Tid] in
/-- Where the walk has come past all that was filled when the pop began, all that is taken. -/
theorem Walking.all_taken (hw : Walking K t sh w s j) (hlt : ∀ x, Old w t x → w.num x < w.ahead)
    (hx : Old w t x) : x ∈ w.lo.taken := by
  refine hg.taken_of_num hx.filled ?_
  by_cases hp : w.num x < passed K sh
  · exact hg.ahead.below _ hp
  · rcases hg.ahead.cover _ (by omega) (hlt x hx) with ⟨c, hc, hn⟩ | h
    · obtain ⟨m, hm⟩ := List.getElem?_of_mem hc
      exact absurd hn.symm (hw.noneOld m c (lt_length_of_getElem? hm) hm x hx)
    · exact h

/-- The answer empty. -/
theorem empty_path (hp : Popping w t) (hall : ∀ x, Old w t x → x ∈ w.lo.taken) :
    Loose.Path w.lo [] (w.lo.set t (some (.popped none))) ∧
      G K sh { w with lo := w.lo.set t (some (.popped none)) } := by
  obtain ⟨i, hp, -⟩ := hp
  have hn : Loose.Next w.lo [] (w.lo.set t (some (.popped none))) := .empty hp fun x hx => by
    rw [List.take_length]
    exact hall x ⟨i, _, hp, hx⟩
  exact ⟨.single hn, { hg with
    valid := hg.valid.next hn
    cells := { hg.cells with }
    ahead := { hg.ahead with } }⟩

end

/-- The walk ends at the end of what is reserved in the segment. -/
theorem endWalk_step (hg : G K sh' w') (hpath : Loose.Path w.lo [] w'.lo)
    (hr : Rely K t t sh w sh' w') (hw : Walking K t sh' w' s j) (hj : j ≤ K)
    (hend : taken ≤ K → ∀ x, Old w' t x → w'.num x < s * K + j) (hK : K < taken → j = K) :
    OneKept K t sh w (endWalk K sh' s j taken).1 (endWalk K sh' s j taken).2 := by
  unfold endWalk
  split_ifs with hle
  · obtain ⟨hpath', hg'⟩ := empty_path hg hw.pend fun x hx =>
      hw.all_taken hg (fun x hx => by rw [hw.ahead]; exact hend hle x hx) hx
    refine ⟨_, hpath.trans hpath', { hg' with
      chain := (hg.chain.setOne _).setOne _
      cells := { hg'.cells with }
      ahead := { hg'.ahead with } }, ⟨Loose.State.set_pend_self .., hw.marked, fun _ =>
        ⟨hw.ahead, hw.seg, hj⟩⟩, { hr with
      grows := hr.grows.trans { Loose.Grows.refl w'.lo with }
      pend := fun u hu => (Loose.State.set_pend_ne _ hu _).trans (hr.pend u hu)
      quiet := fun h => absurd rfl h }⟩
  · obtain rfl := hK (by omega)
    exact ⟨w', hpath, { hg with
      chain := hg.chain.setOne _
      cells := { hg.cells with }
      ahead := { hg.ahead with } }, ⟨{ hw with }, rfl⟩, { hr with quiet := fun h => absurd rfl h }⟩

section

variable (hg : G K sh w)
include hg

omit [DecidableEq Tid] in
/-- The walk comes to a cell and notes it as a hole. -/
theorem G.append_hole (hw : Walking K t sh w s j) (hj : j < K) (one : One)
    (ho : one.holes = sh.one.holes ++ [(s, j)]) :
    G K (sh.setOne one) { w with ahead := s * K + (j + 1) } := by
  have hpass : passed K (sh.setOne one) = passed K sh := rfl
  have hle := hw.le
  have hahead := hw.ahead
  have hholes : (sh.setOne one).one.holes = sh.one.holes ++ [(s, j)] := ho
  -- nothing ahead of the walk is taken
  have hlt : ∀ x ∈ w.lo.taken, w.num x < s * K + j := fun x hx => by
    have := hg.ahead.taken_lt x hx
    omega
  refine hg.own (hg.chain.setOne one) rfl rfl rfl ⟨hg.ahead.below, ?_, ?_, ?_, ?_, ?_⟩
  · rw [hholes]
    refine List.pairwise_append.2 ⟨hg.ahead.sorted, List.pairwise_singleton .., fun c hc d hd => ?_⟩
    rw [List.mem_singleton.1 hd]
    have := (hg.ahead.hole c hc).2.2
    show number K c < s * K + j
    omega
  · intro c hc
    rw [hholes] at hc
    show c.2 < K ∧ passed K sh ≤ number K c ∧ number K c < s * K + (j + 1)
    rcases List.mem_append.1 hc with hc | hc
    · obtain ⟨h1, h2, h3⟩ := hg.ahead.hole c hc
      exact ⟨h1, h2, by omega⟩
    · rw [List.mem_singleton.1 hc]
      exact ⟨hj, by show _ ≤ s * K + j; omega, by show s * K + j < _; omega⟩
  · intro c hc x hx
    rw [hholes] at hc
    rcases List.mem_append.1 hc with hc | hc
    · exact hg.ahead.fresh c hc x hx
    · rw [List.mem_singleton.1 hc]
      have := hlt x hx
      show w.num x ≠ s * K + j
      omega
  · intro n (h1 : passed K sh ≤ n) (h2 : n < s * K + (j + 1))
    rw [hholes]
    by_cases he : n = s * K + j
    · exact .inl ⟨(s, j), List.mem_append_right _ (List.mem_singleton_self _), he.symm⟩
    · refine (hg.ahead.cover n h1 (by omega)).imp_left ?_
      rintro ⟨c, hc, hn⟩
      exact ⟨c, List.mem_append_left _ hc, hn⟩
  · intro x hx
    have := hlt x hx
    exact .inr (by show w.num x < s * K + (j + 1); omega)

/-- The load of `enq` by the walk. -/
theorem enq_step (hl : OneL K t sh w (.enq s j)) (hs : oneStep K sh (.enq s j) = some (sh', l')) :
    OneKept K t sh w sh' l' := by
  obtain ⟨hw, hj, hwalk⟩ := hl
  -- with room left in the segment it is the last one, and has all that is filled
  have hend : sh.enq s ≤ K → ∀ x, Old w t x → w.num x < s * K + sh.enq s := fun hle x hx => by
    have := hg.cells.num_lt x hx.filled
    rw [reserved_last (hg.chain.last_of_enq_lt hw.seg hle)] at this
    omega
  simp only [oneStep] at hs
  split_ifs at hs with hlt
  · cases hs
    exact .same hg ⟨hw, hlt, rfl, le_rfl, hend⟩
  · have hend' : sh.enq s ≤ K → ∀ x, Old w t x → w.num x < s * K + j := fun hle x hx => by
      have := hend hle x hx
      omega
    have hkept := endWalk_step hg .refl (.refl ..) hw hj hend' fun hK => by omega
    rwa [Option.some.inj hs] at hkept

/-- The walk looks at a cell. -/
theorem walk_step {stop : Nat} (hl : OneL K t sh w (.walk s j stop taken))
    (hs : oneStep K sh (.walk s j stop taken) = some (sh', l')) : OneKept K t sh w sh' l' := by
  obtain ⟨hw, hj, hstop, htaken, hend⟩ := hl
  have hjK : j < K := by omega
  have hlast : (sh.one.holes ++ [(s, j)])[sh.one.holes.length]? = some (s, j) := by simp
  simp only [oneStep] at hs
  by_cases hst : sh.state s j = .full
  · rw [if_pos hst] at hs
    cases hs
    have hg' := hg.append_hole hw hjK
      ⟨sh.one.holes ++ [(s, j)], (s, j + 1), sh.one.streaming⟩ rfl
    refine ⟨{ w with ahead := s * K + (j + 1) }, .refl, hg', ?_,
      Rely.own rfl rfl rfl rfl rfl rfl rfl rfl⟩
    exact OneL_lookAgain hg' hw.pend ⟨hw.marked, fun _ => ⟨rfl, hw.seg, hjK⟩⟩ hlast hst
  · rw [if_neg hst] at hs
    have hg' := hg.append_hole hw hjK
      ⟨sh.one.holes ++ [(s, j)], sh.one.walk, sh.one.streaming⟩ rfl
    have hle := hw.le
    have hahead := hw.ahead
    have hnone : NoneOld K t (sh.setOne ⟨sh.one.holes ++ [(s, j)], sh.one.walk, sh.one.streaming⟩)
        { w with ahead := s * K + (j + 1) } sh.one.holes.length := fun m c hm hc =>
      hw.noneOld m c hm (by
        rwa [show (sh.setOne _).one.holes = sh.one.holes ++ [(s, j)] from rfl,
          List.getElem?_append_left hm] at hc)
    have hw' : Walking K t (sh.setOne ⟨sh.one.holes ++ [(s, j)], sh.one.walk, sh.one.streaming⟩)
        { w with ahead := s * K + (j + 1) } s (j + 1) := by
      refine ⟨hw.pend, hw.marked, rfl, ?_, hw.seg, ?_⟩
      · show passed K sh ≤ s * K + (j + 1)
        omega
      · have := hnone.succ hg' hlast hst
        rwa [show (sh.setOne _).one.holes.length = sh.one.holes.length + 1 from by
          simp [Shared.setOne]]
    split_ifs at hs with hlt
    · cases hs
      exact ⟨{ w with ahead := s * K + (j + 1) }, .refl, hg', ⟨hw', hlt, hstop, htaken, hend⟩,
        Rely.own rfl rfl rfl rfl rfl rfl rfl rfl⟩
    · have hend' : taken ≤ K → ∀ x, Old { w with ahead := s * K + (j + 1) } t x →
          w.num x < s * K + (j + 1) := fun hle x hx => by
        have := hend hle x hx
        omega
      have hr : Rely K t t sh w
          (sh.setOne ⟨sh.one.holes ++ [(s, j)], sh.one.walk, sh.one.streaming⟩)
          { w with ahead := s * K + (j + 1) } := Rely.own rfl rfl rfl rfl rfl rfl rfl rfl
      have hkept := endWalk_step (w := w) hg' .refl hr hw' hjK hend' fun hK => by omega
      rwa [Option.some.inj hs] at hkept

/-- The walk goes on to the next segment, or ends. -/
theorem walkNext_step (hl : OneL K t sh w (.walkNext s))
    (hs : oneStep K sh (.walkNext s) = some (sh', l')) : OneKept K t sh w sh' l' := by
  obtain ⟨hw, hwalk⟩ := hl
  simp only [oneStep] at hs
  split at hs
  · next n hn =>
    cases hs
    obtain ⟨rfl, hlt⟩ := hg.chain.next_eq_some hn
    have hahead : w.ahead = (s + 1) * K + 0 := by
      rw [hw.ahead, Nat.add_mul]
      omega
    refine ⟨w, .refl, { hg with
      chain := hg.chain.setOne _
      cells := { hg.cells with }
      ahead := { hg.ahead with } },
      ⟨⟨hw.pend, hw.marked, hahead, hw.le, hlt, hw.noneOld⟩, Nat.zero_le K, rfl⟩,
      Rely.own rfl rfl rfl rfl rfl rfl rfl rfl⟩
  · next hn =>
    cases hs
    -- the last segment has all that is filled, and the walk is past it
    have hlast := hg.chain.next_eq_none hw.seg hn
    obtain ⟨hpath, hg'⟩ := empty_path hg hw.pend fun x hx => hw.all_taken hg (fun x hx => by
      have := hg.cells.num_lt x hx.filled
      rw [reserved_last hlast] at this
      rw [hw.ahead]
      omega) hx
    refine ⟨_, hpath, { hg' with
      chain := hg.chain.setOne _
      cells := { hg'.cells with }
      ahead := { hg'.ahead with } }, ⟨Loose.State.set_pend_self .., hw.marked, fun _ => ?_⟩,
      { Rely.refl K t t sh w with
        grows := { Loose.Grows.refl w.lo with }
        pend := fun u hu => Loose.State.set_pend_ne _ hu _
        quiet := fun h => absurd rfl h }⟩
    show w.ahead = number K sh.one.walk ∧ sh.one.walk.1 < sh.segs ∧ sh.one.walk.2 ≤ K
    rw [hwalk]
    exact ⟨hw.ahead, hw.seg, le_rfl⟩

/-! ## Looking back -/

/-- The consumer looks at a hole before the one it found. -/
theorem again_step {m : Nat} (hl : OneL K t sh w (.again k m)) (hc : sh.one.holes[m]? = some c)
    (hl' : l' = if sh.state c.1 c.2 = .full then lookAgain m
      else if m + 1 < k then .again k (m + 1) else .pick k) :
    OneKept K t sh w sh l' := by
  obtain ⟨hp, hr, hmk, hfound⟩ := hl
  subst hl'
  refine .same hg ?_
  split_ifs with hst hlt
  · exact OneL_lookAgain hg hp hr hc hst
  all_goals
    obtain ⟨d, y, i, hd, hy, hn, hbefore⟩ := hfound
    have hnext : Found K sh w k (m + 1) := by
      refine ⟨d, y, i, hd, hy, hn, fun m' e hm' he x hx hne => ?_⟩
      by_cases hmm : m' = m
      · -- not filled by now
        subst hmm
        obtain rfl := Option.some.inj (hc.symm.trans he)
        exact hst ((hg.hole_full (List.mem_of_getElem? hc)).2 ⟨x, List.mem_of_mem_take hx, hne⟩)
      · exact hbefore m' e (by omega) he x hx hne
  · exact ⟨hp, hr, hlt, hnext⟩
  · obtain rfl : m + 1 = k := by omega
    exact ⟨hp, hr, hnext⟩

omit [DecidableEq Tid] in
/-- A hole that is found may be taken from: what was filled before it in an earlier cell is
taken. -/
theorem G.ready_of_found (hc : sh.one.holes[k]? = some c) (hy : w.lo.filled[i]? = some y)
    (hn : w.num y = number K c)
    (hbefore : ∀ (m : Nat) (d : Nat × Nat), m < k → sh.one.holes[m]? = some d →
      ∀ x ∈ w.lo.filled.take i, w.num x ≠ number K d) :
    w.lo.Ready y := by
  have hcm := List.mem_of_getElem? hc
  have hca := (hg.ahead.hole c hcm).2.2
  refine hg.ready hy (fun hyt => hg.ahead.fresh c hcm y hyt hn) fun x hx hlt => ?_
  have hxf := List.mem_of_mem_take hx
  refine hg.taken_of_num hxf ?_
  by_cases hp : w.num x < passed K sh
  · exact hg.ahead.below _ hp
  · rcases hg.ahead.cover _ (by omega) (hlt.trans (hn ▸ hca)) with ⟨d, hd, he⟩ | h
    · -- an earlier hole: filled later
      obtain ⟨m, hm⟩ := List.getElem?_of_mem hd
      refine absurd he.symm (hbefore m d ?_ hm x hx)
      by_contra hge
      rcases Nat.lt_or_ge k m with hkm | hkm
      · have := pairwise_at hg.ahead.sorted hc hm hkm
        omega
      · obtain rfl : m = k := by omega
        obtain rfl := Option.some.inj (hc.symm.trans hm)
        omega
    · exact h

/-- The consumer takes the element of the hole it found. -/
theorem pick_step {v : α} (hl : OneL K t sh w (.pick k)) (hc : sh.one.holes[k]? = some c)
    (hv : sh.cell c.1 c.2 = some v) :
    OneKept K t sh w
      ((sh.setOne { sh.one with holes := sh.one.holes.eraseIdx k }).setCell c.1 c.2 none)
      (.setTaken c.1 c.2 v) := by
  obtain ⟨hp, hr, c', y, i, hc', hy, hn, hbefore⟩ := hl
  obtain rfl := Option.some.inj (hc.symm.trans hc')
  have hcm := List.mem_of_getElem? hc
  obtain ⟨hK, hpass, hahead⟩ := hg.ahead.hole c hcm
  have hyf := List.mem_of_getElem? hy
  have hready := hg.ready_of_found hc hy hn hbefore
  have hst : sh.state c.1 c.2 = .full := (hg.hole_full hcm).2 ⟨y, hyf, hn⟩
  obtain ⟨hpath, hvalid⟩ := hg.take_path (a := w.ahead) hp hy hready hK hn hv
  have hsub : sh.one.holes.eraseIdx k ⊆ sh.one.holes := List.eraseIdx_subset
  -- a hole that is left is another cell
  have hne : ∀ d ∈ sh.one.holes.eraseIdx k, number K d ≠ number K c := by
    intro d hd he
    obtain ⟨m, hmk, hm⟩ := List.mem_eraseIdx_iff_getElem?.1 hd
    rcases Nat.lt_or_gt_of_ne hmk with h | h
    · have := pairwise_at hg.ahead.sorted hm hc h
      omega
    · have := pairwise_at hg.ahead.sorted hc hm h
      omega
  refine ⟨w.take t y v w.ahead, hpath, ⟨(hg.chain.setOne _).setCell c.1 c.2 none, hvalid,
    hg.cells.take _ hyf hn, ?_⟩, ⟨Loose.State.set_pend_self .., hK, fun hh => hr.2 fun he => ?_,
    fun x hx => ?_, y, List.mem_append_right _ (List.mem_singleton_self _), hn⟩,
    Rely.take _ (by rw [hst]; nofun)⟩
  · refine ⟨fun n hn => ?_, hg.ahead.sorted.sublist (List.eraseIdx_sublist ..),
      fun d hd => hg.ahead.hole d (hsub hd), fun d hd x hx => ?_, fun n h1 h2 => ?_, fun x hx => ?_⟩
    · obtain ⟨x, hx, hn⟩ := hg.ahead.below n hn
      exact ⟨x, List.mem_append_left _ hx, hn⟩
    · rcases List.mem_append.1 hx with hx | hx
      · exact hg.ahead.fresh d (hsub hd) x hx
      · rw [List.mem_singleton.1 hx]
        exact fun he => hne d hd (he.symm.trans hn)
    · rcases hg.ahead.cover n h1 h2 with ⟨d, hd, he⟩ | ⟨x, hx, he⟩
      · by_cases hdc : d = c
        · subst hdc
          exact .inr ⟨y, List.mem_append_right _ (List.mem_singleton_self _), hn.trans he⟩
        · obtain ⟨m, hm⟩ := List.getElem?_of_mem hd
          refine .inl ⟨d, List.mem_eraseIdx_iff_getElem?.2 ⟨m, ?_, hm⟩, he⟩
          rintro rfl
          exact hdc (Option.some.inj (hm.symm.trans hc))
      · exact .inr ⟨x, List.mem_append_left _ hx, he⟩
    · rcases List.mem_append.1 hx with hx | hx
      · exact hg.ahead.taken_lt x hx
      · rw [List.mem_singleton.1 hx]
        exact .inr (by show w.num y < w.ahead; omega)
  · refine hh ?_
    show sh.one.holes.eraseIdx k = []
    rw [he]
    rfl
  · have := hr.1.take_aux hx
    rwa [hn] at this

/-- The cell taken from is marked. -/
theorem setTaken_step {v : α} (hl : OneL K t sh w (.setTaken s j v)) :
    OneKept K t sh w ((sh.setState s j .taken).setOne { sh.one with streaming := true })
      (.done (some v)) := by
  obtain ⟨hp, hj, hwalk, hm, y, hy, hn⟩ := hl
  have hyf := hg.valid.taken_sub y hy
  have hcase : ∀ s' j', (s', j') = (s, j) ∨ (s', j') ≠ (s, j) := fun _ _ => Classical.em _
  have hself : ((sh.setState s j .taken).setOne { sh.one with streaming := true }).state s j =
      .taken := setState_self
  have hne : ∀ {s' j'}, (s', j') ≠ (s, j) →
      ((sh.setState s j .taken).setOne { sh.one with streaming := true }).state s' j' =
        sh.state s' j' := fun h => setState_ne h
  have hst : sh.state s j ≠ .empty := fun h => by
    rcases hg.cells.mark y hyf s j hj hn with h' | ⟨h', -⟩ <;> rw [h] at h' <;> cases h'
  refine ⟨w, .refl, ⟨(hg.chain.setState s j _).setOne _, hg.valid, { hg.cells with
    mark := fun x hx s' j' hj' he => ?_
    elem := fun s' j' hj' h' => ?_ }, { hg.ahead with }⟩, ⟨hp, fun x hx => ?_, hwalk⟩,
    { Rely.refl K t t sh w with
      owned := fun s' j' u _ hj' ho => ⟨ho, fun h' => ⟨?_, rfl⟩⟩
      quiet := fun h => absurd rfl h }⟩
  · rcases hcase s' j' with h' | h'
    · cases h'
      rw [hself, hg.cells.num_inj x hx y hyf (he.trans hn.symm)]
      exact .inr ⟨rfl, hy⟩
    · rw [hne h']
      exact hg.cells.mark x hx s' j' hj' he
  · rcases hcase s' j' with he | he
    · cases he
      exact ⟨y, hyf, hn⟩
    · rw [hne he] at h'
      exact hg.cells.elem s' j' hj' h'
  · rcases hm x hx with h1 | h1 | ⟨s', j', hj', he, h1⟩
    · exact .inl h1
    · exact .inr (.inr ⟨s, j, hj, Option.some.inj h1, hself⟩)
    · refine .inr (.inr ⟨s', j', hj', he, ?_⟩)
      rcases hcase s' j' with h' | h'
      · cases h'; exact hself
      · rw [hne h']; exact h1
  · rcases hcase s' j' with he | he
    · cases he; exact absurd h' hst
    · rw [hne he]; exact h'

/-! ## Every step -/

/-- At the end of the last segment everything is taken. -/
theorem next_step (hl : OneL K t sh w (.next h)) (hs : oneStep K sh (.next h) = some (sh', l')) :
    OneKept K t sh w sh' l' := by
  obtain ⟨hp, hr, rfl, hd⟩ := hl
  simp only [oneStep] at hs
  split at hs
  · next n hn =>
    cases hs
    exact .same hg ⟨hp, hr, rfl, hd, hn⟩
  · next hn =>
    cases hs
    have hlast := hg.chain.next_eq_none hg.chain.head_lt hn
    have hle := hg.chain.reserved_le
    rw [← hlast, Nat.add_mul] at hle
    obtain ⟨hpath, hg'⟩ := empty_path hg hp fun x hx => hg.taken_of_num hx.filled <|
      hg.ahead.below _ (by
        have := hg.cells.num_lt x hx.filled
        rw [passed]
        omega)
    exact ⟨_, hpath, hg', ⟨Loose.State.set_pend_self .., hr⟩, { Rely.refl K t t sh w with
      grows := { Loose.Grows.refl w.lo with }
      pend := fun u hu => Loose.State.set_pend_ne _ hu _
      quiet := fun h => absurd rfl h }⟩

/-- The consumer looks at the cell under the head. -/
theorem state_step (hl : OneL K t sh w (.state h i))
    (hs : oneStep K sh (.state h i) = some (sh', l')) : OneKept K t sh w sh' l' := by
  obtain ⟨hp, hr, ha⟩ := hl
  simp only [oneStep] at hs
  split_ifs at hs with hst hfull hempty
  · cases hs
    exact .same hg ⟨hp, hr, ha, hst⟩
  · cases hs
    exact .same hg ⟨hp, hr, ha, hfull⟩
  · cases hs
    exact .same hg ⟨hp, hr, ha, hempty.1, ha.fresh hr.1 hst⟩
  · have hkept := goAhead_step hg hp hr ha (ha.fresh hr.1 hst)
    rwa [Option.some.inj hs] at hkept

/-- The consumer waits for the cell under the head for a while. -/
theorem spin_step (hl : OneL K t sh w (.spin h i n))
    (hs : oneStep K sh (.spin h i n) = some (sh', l')) : OneKept K t sh w sh' l' := by
  obtain ⟨hp, hr, ha, hh, hfresh⟩ := hl
  simp only [oneStep] at hs
  split_ifs at hs
  · cases hs
    exact .same hg ⟨hp, hr, ha, hh, hfresh⟩
  · cases hs
    exact .same hg ⟨hp, hr⟩
  · have hkept := goAhead_step hg hp hr ha hfresh
    rwa [Option.some.inj hs] at hkept

/-- Every step of the consumer keeps the rule. -/
theorem one_step {l : OneLoc α} (hl : OneL K t sh w l) (hs : oneStep K sh l = some (sh', l')) :
    OneKept K t sh w sh' l' := by
  cases l with
  | head => cases hs; exact .same hg ⟨hl.1, hl.2, rfl⟩
  | deq h =>
    obtain ⟨hp, hr, rfl⟩ := hl
    simp only [oneStep] at hs
    split_ifs at hs with hd
    · cases hs; exact .same hg ⟨hp, hr, rfl, hd⟩
    · cases hs; exact .same hg ⟨hp, hr, rfl, rfl, by omega⟩
  | next h => exact next_step hg hl hs
  | advTail h n => cases hs; exact advTail_step hg hl
  | advHead h n => cases hs; exact advHead_step hg hl
  | state h i => exact state_step hg hl hs
  | stepOver h i => cases hs; exact stepOver_step hg hl
  | take h i =>
    simp only [oneStep, Option.map_eq_some_iff] at hs
    obtain ⟨v, hv, he⟩ := hs
    cases he
    exact take_step hg hl hv
  | setDeq h i v => cases hs; exact setDeq_step hg hl
  | spin h i n => exact spin_step hg hl hs
  | look k =>
    simp only [oneStep] at hs
    split at hs
    · next s j hc =>
      have hkept := look_step hg hl hc rfl
      split_ifs at hs hkept <;> cases hs <;> exact hkept
    · cases hs
  | enq s j => exact enq_step hg hl hs
  | walk s j stop taken => exact walk_step hg hl hs
  | walkNext s => exact walkNext_step hg hl hs
  | again k m =>
    simp only [oneStep] at hs
    split at hs
    · next s j hc =>
      have hkept := again_step hg hl hc rfl
      split_ifs at hs hkept <;> cases hs <;> exact hkept
    · cases hs
  | pick k =>
    simp only [oneStep] at hs
    split at hs
    · next s j hc =>
      obtain ⟨v, hv, he⟩ := Option.map_eq_some_iff.1 hs
      cases he
      exact pick_step hg hl hc hv
    · cases hs
  | setTaken s j v => cases hs; exact setTaken_step hg hl
  | done v => cases hs

end

end Wtc.Segment.One
