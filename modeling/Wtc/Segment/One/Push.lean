import Wtc.Segment.One.Invariant

/-!
# Pushes to the queue for one consumer

Each step of `push_run` that writes keeps `G`, one lemma for each; then each step keeps the rule. A
new segment is linked with its cells full: that is the same as filling them one after another.
-/

namespace Wtc.Segment.One

open Wtc.Concurrent

variable {α Tid : Type} {K : Nat} {sh sh' : Shared α} {w w' : Ghost Tid α}

/-! ## Reserving and writing cells -/

theorem Ahead.congr (h : Ahead K sh w) (hp : passed K sh' = passed K sh) (ho : sh'.one = sh.one)
    (ht : w'.lo.taken = w.lo.taken) (ha : w'.ahead = w.ahead)
    (hn : ∀ x ∈ w.lo.taken, w'.num x = w.num x) : Ahead K sh' w' where
  below n hlt := by
    rw [hp] at hlt
    obtain ⟨x, hx, he⟩ := h.below n hlt
    exact ⟨x, by rwa [ht], (hn x hx).trans he⟩
  sorted := by rw [ho]; exact h.sorted
  hole := by rw [ho, hp, ha]; exact h.hole
  fresh c hc x hx := by
    rw [ho] at hc
    rw [ht] at hx
    rw [hn x hx]
    exact h.fresh c hc x hx
  cover n h1 h2 := by
    rw [hp] at h1
    rw [ha] at h2
    rw [ho]
    refine (h.cover n h1 h2).imp_right ?_
    rintro ⟨x, hx, he⟩
    exact ⟨x, by rwa [ht], (hn x hx).trans he⟩
  taken_lt x hx := by
    rw [ht] at hx
    rw [hn x hx, hp, ha]
    exact h.taken_lt x hx

/-- A step that leaves the cells as they are and does not give any back. -/
theorem Cells.of_reserved (h : Cells K sh w) (hr : reserved K sh ≤ reserved K sh')
    (hs : sh'.state = sh.state) (hc : sh'.cell = sh.cell) : Cells K sh' w where
  num_lt x hx := (h.num_lt x hx).trans_le hr
  owner_lt n u hu := (h.owner_lt n u hu).trans_le hr
  num_inj := h.num_inj
  mark := by rw [hs]; exact h.mark
  cell := by rw [hc]; exact h.cell
  elem := by rw [hs]; exact h.elem
  earlier := h.earlier

theorem G.reserve (hg : G K sh w) {s : Nat} (hs : s < sh.segs) (n : Nat) :
    G K (sh.reserve s n) w :=
  ⟨hg.chain.reserve hs n, hg.valid, hg.cells.of_reserved (reserved_le_reserve s n) rfl rfl,
    hg.ahead.congr rfl rfl rfl rfl fun _ _ => rfl⟩

/-- A cell that is empty may be written. -/
theorem G.setCell (hg : G K sh w) {s j : Nat} (hst : sh.state s j = .empty) (v : Option α) :
    G K (sh.setCell s j v) w :=
  { hg with
    chain := hg.chain.setCell s j v
    cells :=
      { hg.cells with
        cell := fun x hx hn s' j' hj he => by
          rw [setCell_ne]
          · exact hg.cells.cell x hx hn s' j' hj he
          · rintro ⟨⟩
            rcases hg.cells.mark x hx s j hj he with h | ⟨h, -⟩ <;> rw [hst] at h <;> cases h }
    ahead := hg.ahead.congr rfl rfl rfl rfl fun _ _ => rfl }

/-- A cell that is not reserved is empty. -/
theorem G.empty_of_le (hg : G K sh w) {s j : Nat} (hj : j < K) (hle : reserved K sh ≤ s * K + j) :
    sh.state s j = .empty := by
  by_contra hne
  obtain ⟨x, hx, he⟩ := hg.cells.elem s j hj hne
  have := hg.cells.num_lt x hx
  omega

variable [DecidableEq Tid]

/-! ## Filling a cell -/

def Ghost.fill (w : Ghost Tid α) (t : Tid) (c k n : Nat) : Ghost Tid α :=
  { w with lo := w.lo.fill t c k, num := Function.update w.num (c, k) n }

theorem G.fill (hg : G K sh w) {t : Tid} {c k : Nat} {b : Loose.Batch α} {v : α} {s j : Nat}
    (hp : w.lo.pend t = some (.push c k)) (hb : w.lo.calls[c]? = some b)
    (hv : b.elems[k]? = some v) (hs : s < sh.segs) (hj : j < K) (hjr : j < sh.enq s)
    (hst : sh.state s j = .empty) (hcell : sh.cell s j = some v)
    (hlow : ∀ x, w.lo.Earlier x (c, k) → w.num x < s * K + j) :
    Loose.Path w.lo [] (w.lo.fill t c k) ∧
      G K (sh.setState s j .full) (w.fill t c k (s * K + j)) := by
  have hn : Loose.Next w.lo [] (w.lo.fill t c k) := .fill hp hb (lt_length_of_getElem? hv)
  obtain ⟨hc, hfilled⟩ := hg.valid.opens t c k hp
  have hnew : (c, k) ∉ w.lo.filled := fun h => lt_irrefl k ((hfilled k).1 h)
  have hnum : ∀ x ∈ w.lo.filled, (w.fill t c k (s * K + j)).num x = w.num x := fun x hx =>
    Function.update_of_ne (by rintro rfl; exact hnew hx) _ _
  have hself : (w.fill t c k (s * K + j)).num (c, k) = s * K + j := Function.update_self ..
  have hmem : ∀ x, x ∈ (w.lo.fill t c k).filled ↔ x ∈ w.lo.filled ∨ x = (c, k) := fun x => by
    simp [Loose.State.fill]
  -- nothing was in the cell
  have hfree : ∀ x ∈ w.lo.filled, w.num x ≠ s * K + j := fun x hx he => by
    rcases hg.cells.mark x hx s j hj he with h | ⟨h, -⟩ <;> rw [hst] at h <;> cases h
  have hcase : ∀ s' j', (s', j') = (s, j) ∨ (s', j') ≠ (s, j) := fun _ _ => Classical.em _
  refine ⟨.single hn, hg.chain.setState s j _, hg.valid.next hn, ⟨?_, hg.cells.owner_lt, ?_, ?_, ?_,
    ?_, ?_⟩, hg.ahead.congr rfl rfl rfl rfl fun x hx => hnum x (hg.valid.taken_sub x hx)⟩
  · intro x hx
    rcases (hmem x).1 hx with hx | rfl
    · rw [hnum x hx]; exact hg.cells.num_lt x hx
    · rw [hself]; exact (hg.chain.lt_reserved hs hj).2 hjr
  · intro x hx y hy he
    rcases (hmem x).1 hx with hx | rfl <;> rcases (hmem y).1 hy with hy | rfl
    · rw [hnum x hx, hnum y hy] at he
      exact hg.cells.num_inj x hx y hy he
    · rw [hnum x hx, hself] at he
      exact absurd he (hfree x hx)
    · rw [hnum y hy, hself] at he
      exact absurd he.symm (hfree y hy)
    · rfl
  · intro x hx s' j' hj' he
    rcases (hmem x).1 hx with hx | rfl
    · rw [hnum x hx] at he
      rw [setState_ne]
      · exact hg.cells.mark x hx s' j' hj' he
      · rintro ⟨⟩
        exact hfree x hx he
    · rw [hself] at he
      obtain ⟨rfl, rfl⟩ := number_inj hj hj' he
      exact .inl setState_self
  · intro x hx hnt s' j' hj' he
    rcases (hmem x).1 hx with hx | rfl
    · rw [hnum x hx] at he
      exact hg.cells.cell x hx hnt s' j' hj' he
    · rw [hself] at he
      obtain ⟨rfl, rfl⟩ := number_inj hj hj' he
      refine hcell.trans ?_
      show some v = w.lo.val (c, k)
      rw [Loose.State.val, hb]
      exact hv.symm
  · intro s' j' hj' hne
    rcases hcase s' j' with h | h
    · cases h
      exact ⟨(c, k), (hmem _).2 (.inr rfl), hself⟩
    · rw [setState_ne h] at hne
      obtain ⟨x, hx, he⟩ := hg.cells.elem s' j' hj' hne
      exact ⟨x, (hmem x).2 (.inl hx), (hnum x hx).trans he⟩
  · intro y hy x hx
    rcases (hmem y).1 hy with hy | rfl
    · have hx : w.lo.Earlier x y := (hn.grows.earlier hg.valid (hg.valid.call_lt hy)).1 hx
      obtain ⟨i, hi⟩ := List.getElem?_of_mem hy
      rw [hnum y hy, hnum x (List.mem_of_mem_take (hg.valid.earlier i y x hi hx))]
      exact hg.cells.earlier y hy x hx
    · have hx : w.lo.Earlier x (c, k) := (hn.grows.earlier hg.valid hc).1 hx
      rw [hself, hnum x (hg.filled_of_earlier hp hx)]
      exact hlow x hx

/-- What is to come before the next element has an earlier cell than the next one. -/
theorem G.fill_low (hg : G K sh w) {t : Tid} {c k n : Nat} (hp : w.lo.pend t = some (.push c k))
    (hlow : ∀ x, w.lo.Earlier x (c, k) → w.num x < n) {x : Loose.Elem}
    (hx : (w.fill t c k n).lo.Earlier x (c, k + 1)) : (w.fill t c k n).num x < n + 1 := by
  obtain ⟨hc, hfilled⟩ := hg.valid.opens t c k hp
  have hold : w.lo.Earlier x (c, k) → (w.fill t c k n).num x < n + 1 := fun hx => by
    have hne : x ≠ (c, k) := by
      rintro rfl
      exact lt_irrefl k ((hfilled k).1 (hg.filled_of_earlier hp hx))
    rw [show (w.fill t c k n).num x = w.num x from Function.update_of_ne hne _ _]
    have := hlow x hx
    omega
  have hgr : Loose.Grows w.lo (w.lo.fill t c k) :=
    { Loose.Grows.refl w.lo with filled := List.prefix_append .. }
  rcases (hgr.earlier hg.valid hc).1 hx with hx | ⟨h1, h2⟩
  · exact hold (.inl hx)
  · obtain ⟨c', p⟩ := x
    obtain rfl : c' = c := h1
    have h2 : p < k + 1 := h2
    by_cases hpk : p = k
    · subst hpk
      rw [show (w.fill t c' p n).num (c', p) = n from Function.update_self ..]
      omega
    · exact hold (.inr ⟨rfl, by show p < k; omega⟩)

/-- The thread fills a cell of its own. -/
theorem Rely.fill {cons t : Tid} {c k s j : Nat} (hg : G K sh w)
    (hp : w.lo.pend t = some (.push c k)) (ho : w.owner (s * K + j) = some t)
    (hst : sh.state s j = .empty) :
    Rely K cons t sh w (sh.setState s j .full) (w.fill t c k (s * K + j)) ∧
      Quiet K sh w (sh.setState s j .full) (w.fill t c k (s * K + j)) := by
  have hq : Quiet K sh w (sh.setState s j .full) (w.fill t c k (s * K + j)) := by
    refine ⟨rfl, rfl, rfl, rfl, rfl, fun s' j' _ hne => setState_ne ?_⟩
    rintro ⟨⟩
    exact hne hst
  refine ⟨?_, hq⟩
  refine
    { Rely.refl K cons t sh w with
      grows := { Loose.Grows.refl w.lo with filled := List.prefix_append .. }
      num := fun x hx => Function.update_of_ne ?_ _ _
      pend := fun u hu => Loose.State.set_pend_ne _ hu _
      owned := fun s' j' u hu _ ho' => ⟨ho', fun h => ⟨?_, rfl⟩⟩
      quiet := fun _ => hq }
  · rintro rfl
    exact lt_irrefl k (((hg.valid.opens t c k hp).2 k).1 hx)
  · rw [setState_ne]
    · exact h
    · rintro ⟨⟩
      exact hu (Option.some.inj (ho'.symm.trans ho))

/-! ## The steps -/

/-- A step of a push keeps the rule. -/
def Kept (K : Nat) (cons t : Tid) (sh : Shared α) (w : Ghost Tid α) (sh' : Shared α)
    (l' : PushLoc α) : Prop :=
  ∃ w' : Ghost Tid α, Loose.Path w.lo [] w'.lo ∧ G K sh' w' ∧ PushL K t sh' w' l' ∧
    Rely K cons t sh w sh' w' ∧ Quiet K sh w sh' w'

section Steps

variable {cons t : Tid} {k : Nat} {vs : List α} {s : Nat}

omit [DecidableEq Tid] in
theorem Quiet.refl (K : Nat) (sh : Shared α) (w : Ghost Tid α) : Quiet K sh w sh w :=
  ⟨rfl, rfl, rfl, rfl, rfl, fun _ _ _ _ => rfl⟩

theorem Kept.same {l' : PushLoc α} (hg : G K sh w) (hl : PushL K t sh w l') :
    Kept K cons t sh w sh l' :=
  ⟨w, .refl, hg, hl, .refl .., .refl ..⟩

omit [DecidableEq Tid] in
theorem Rely.reserve (n : Nat) : Rely K cons t sh w (sh.reserve s n) w :=
  { Rely.refl K cons t sh w with
    enq := fun u => by
      by_cases hus : u = s
      · subst hus; simp [Shared.reserve]
      · simp [Shared.reserve, hus]
    quiet := fun _ => { Quiet.refl K sh w with } }

/-- The fetch-and-add of a push that finds cells in the segment. -/
theorem reserve_step (hg : G K sh w) (hv : vs ≠ []) (hp : Pushing w t k vs) (hs : s < sh.segs)
    (hi : sh.enq s < K) :
    Kept K cons t sh w (sh.reserve s vs.length)
      (.build k vs s (sh.enq s) (min (sh.enq s + vs.length) K) (sh.enq s + vs.length)) := by
  have hlast := hg.chain.last_of_enq_lt hs hi.le
  have hpos : 0 < vs.length := List.length_pos_iff.2 hv
  have hR : reserved K sh = s * K + sh.enq s := by
    rw [reserved_last hlast]
    omega
  have hg' := hg.reserve hs vs.length
  have hR' : reserved K (sh.reserve s vs.length) = s * K + min (sh.enq s + vs.length) K :=
    reserved_reserve_last hlast _
  set i := sh.enq s with hi_def
  set stop := min (i + vs.length) K with hstop
  have howned : ∀ n, w.owner n ≠ none → ¬ (s * K + i ≤ n ∧ n < s * K + stop) := fun n hn hlt => by
    obtain ⟨u, hu⟩ := Option.ne_none_iff_exists'.1 hn
    have := hg.cells.owner_lt n u hu
    omega
  have hres : Rely K cons t sh w (sh.reserve s vs.length) w := Rely.reserve _
  refine ⟨{ w with
      owner := fun n => if s * K + i ≤ n ∧ n < s * K + stop then some t else w.owner n },
    .refl, { hg' with cells := { hg'.cells with owner_lt := ?_ }, ahead := { hg'.ahead with } },
    ?_, { hres with owned := ?_, quiet := ?_ }, { Quiet.refl K sh w with }⟩
  · intro n u hu
    rw [hR']
    by_cases hn : s * K + i ≤ n ∧ n < s * K + stop
    · exact hn.2
    · have := hg.cells.owner_lt n u ((if_neg hn).symm.trans hu)
      omega
  · refine ⟨hs, rfl, rfl, by omega, ?_, fun r h1 h2 => ?_, ?_⟩
    · simp [Shared.reserve, hi_def]
    · exact ⟨if_pos ⟨by omega, by omega⟩, hg.empty_of_le (by omega) (by omega)⟩
    · obtain ⟨c, b, hpc, hb, hd, hk⟩ := hp
      refine ⟨c, b, hpc, hb, hd, hk, fun x hx => ?_⟩
      rw [← hR]
      exact hg.cells.num_lt x (hg.filled_of_earlier hpc hx)
  · intro s' j' u _ _ ho
    exact ⟨(if_neg (howned _ (by simp [ho]))).trans ho, fun h => ⟨h, rfl⟩⟩
  · exact fun _ => { Quiet.refl K sh w with }

/-- The fetch-and-add of a push past the end of the segment. -/
theorem reserve_past_step (hg : G K sh w) (hv : vs ≠ []) (hp : Pushing w t k vs)
    (hs : s < sh.segs) (hi : ¬ sh.enq s < K) :
    Kept K cons t sh w (sh.reserve s vs.length) (.nextLoad k vs s 0) := by
  have hpos : 0 < vs.length := List.length_pos_iff.2 hv
  have henq : (sh.reserve s vs.length).enq s = sh.enq s + vs.length := by simp [Shared.reserve]
  exact ⟨w, .refl, hg.reserve hs _, ⟨hv, hp, hs, fun _ => by rw [henq]; omega⟩, .reserve _,
    { Quiet.refl K sh w with }⟩

/-- A push builds its element in its cell. -/
theorem build_step {j stop fin : Nat} (hg : G K sh w)
    (hq : Filling K sh w t k vs s j stop fin) :
    Kept K cons t sh w (sh.setCell s j vs.head?) (.mark k vs s j stop fin) := by
  obtain ⟨ho, hst⟩ := hq.owner j le_rfl hq.lt
  refine ⟨w, .refl, hg.setCell hst _, ⟨{ hq with }, setCell_self⟩,
    { Rely.refl K cons t sh w with
      owned := fun s' j' u hu _ ho' => ⟨ho', fun h => ⟨h, setCell_ne ?_⟩⟩
      quiet := fun _ => { Quiet.refl K sh w with } },
    { Quiet.refl K sh w with }⟩
  rintro ⟨⟩
  exact hu (Option.some.inj (ho'.symm.trans ho))

omit [DecidableEq Tid] in
theorem PushL_afterFill {fin : Nat} (hp : Pushing w t k vs) (hs : s < sh.segs)
    (hK : K < fin → K < sh.enq s) : PushL K t sh w (afterFill K k vs s fin) := by
  unfold afterFill
  split_ifs with hv hfin
  · subst hv; exact hp
  · exact ⟨hv, hp⟩
  · exact ⟨hv, hp, hs, fun _ => hK (by omega)⟩

omit [DecidableEq Tid] in
theorem PushL_loop (hp : Pushing w t k vs) : PushL K t sh w (loop k vs) := by
  unfold loop
  split_ifs with hv
  · subst hv; exact hp
  · exact ⟨hv, hp⟩

/-- A push fills its cell. -/
theorem mark_step {j stop fin : Nat} (hg : G K sh w)
    (hl : PushL K t sh w (.mark k vs s j stop fin)) :
    Kept K cons t sh w (sh.setState s j .full)
      (if j + 1 < stop then .build (k + 1) vs.tail s (j + 1) stop fin
        else afterFill K (k + 1) vs.tail s fin) := by
  obtain ⟨hq, hcell⟩ := hl
  have hlt := hq.lt
  have hstop := hq.stop_eq
  have hfin := hq.fin_eq
  obtain ⟨ho, hst⟩ := hq.owner j le_rfl hq.lt
  obtain ⟨c, b, hp, hb, hd, hk, hlow⟩ := hq.pend
  obtain ⟨v, vs, rfl⟩ : ∃ v vs', vs = v :: vs' := by
    cases vs with
    | nil => simp at hfin; omega
    | cons v vs' => exact ⟨v, vs', rfl⟩
  have hv : b.elems[k]? = some v := by
    rw [← List.head?_drop, hd]
    rfl
  have hk' := lt_length_of_getElem? hv
  obtain ⟨hpath, hg'⟩ :=
    hg.fill hp hb hv hq.seg (by omega) (by have := hq.enq; omega) hst hcell hlow
  obtain ⟨hr, hqt⟩ : Rely K cons t sh w _ _ ∧ _ := Rely.fill hg hp ho hst
  have hp' : (w.fill t c k (s * K + j)).lo.pend t = some (.push c (k + 1)) :=
    Loose.State.set_pend_self ..
  have hd' : b.elems.drop (k + 1) = vs := by
    rw [← List.drop_drop, hd]
    rfl
  refine ⟨_, hpath, hg', ?_, hr, hqt⟩
  split_ifs with hj
  · refine ⟨hq.seg, ?_, hstop, hj, hq.enq, fun r h1 h2 => ?_, c, b, hp', hb, hd', hk',
      fun x hx => ?_⟩
    · rw [hfin]
      simp
      omega
    · obtain ⟨ho', hst'⟩ := hq.owner r (by omega) h2
      refine ⟨ho', ?_⟩
      rw [setState_ne (by rintro ⟨⟩; omega)]
      exact hst'
    · exact hg.fill_low hp hlow hx
  · exact PushL_afterFill ⟨c, b, hp', hb, hd', hk'⟩ hq.seg fun h => h.trans_le hq.enq

/-- The tail moves on. -/
theorem casTail_step {n : Nat} {l' : PushLoc α} (hg : G K sh w) (hn : n < sh.segs)
    (hl : ∀ m, PushL K t { sh with tail := m } w l') : Kept K cons t sh w (sh.casTail s n) l' := by
  unfold Shared.casTail
  split_ifs
  · exact ⟨w, .refl, { hg with
        chain := hg.chain.setTail hn
        cells := { hg.cells with }
        ahead := { hg.ahead with } }, hl n,
      { Rely.refl K cons t sh w with quiet := fun _ => { Quiet.refl K sh w with } },
      { Quiet.refl K sh w with }⟩
  · exact .same hg (hl sh.tail)

/-! ## A new segment -/

omit [DecidableEq Tid] in
/-- A segment linked with one more element is the segment linked without it and the element put in
as a push would. -/
theorem link_append (us : List α) (v : α) :
    sh.link s (us ++ [v]) = (((sh.link s us).reserve sh.segs 1).setCell sh.segs us.length
      (some v)).setState sh.segs us.length .full := by
  have hstate : (fun j => if j ≤ us.length then Mark.full else .empty) =
      Function.update (fun j => if j < us.length then Mark.full else .empty) us.length .full := by
    funext j
    by_cases hj : j = us.length
    · simp [hj]
    · rw [Function.update_of_ne hj]
      have : j ≤ us.length ↔ j < us.length := by omega
      simp [this]
  have hcell : (fun j => (us ++ [v])[j]?) =
      Function.update (fun j => us[j]?) us.length (some v) := by
    funext j
    by_cases hj : j = us.length
    · simp [hj]
    · rw [Function.update_of_ne hj, List.getElem?_append]
      split_ifs with hlt
      · rfl
      · rw [List.getElem?_eq_none (by simp; omega), List.getElem?_eq_none (by omega)]
  simp [Shared.link, Shared.reserve, Shared.setCell, Shared.setState, hstate, hcell]

omit [DecidableEq Tid] in
/-- An empty segment is linked. -/
theorem G.link_nil (hg : G K sh w) (hs : s + 1 = sh.segs) (hK : K < sh.enq s) :
    G K (sh.link s []) w := by
  have hR : reserved K sh = sh.segs * K := reserved_of_full hs hK
  have hR' : reserved K (sh.link s []) = sh.segs * K := reserved_link (Nat.zero_le _)
  have hother : ∀ {s' : Nat}, s' ≠ sh.segs → ∀ j, (sh.link s []).state s' j = sh.state s' j ∧
      (sh.link s []).cell s' j = sh.cell s' j := fun hne j => by simp [Shared.link, hne]
  have hlow : ∀ {s' j : Nat} {x : Loose.Elem}, x ∈ w.lo.filled → w.num x = s' * K + j →
      s' ≠ sh.segs := by
    rintro s' j x hx he rfl
    have := hg.cells.num_lt x hx
    omega
  refine ⟨hg.chain.link hs hK [], hg.valid, ⟨?_, ?_, hg.cells.num_inj, ?_, ?_, ?_,
    hg.cells.earlier⟩, hg.ahead.congr rfl rfl rfl rfl fun _ _ => rfl⟩
  · intro x hx
    rw [hR', ← hR]
    exact hg.cells.num_lt x hx
  · intro n u hu
    rw [hR', ← hR]
    exact hg.cells.owner_lt n u hu
  · intro x hx s' j hj he
    rw [(hother (hlow hx he) j).1]
    exact hg.cells.mark x hx s' j hj he
  · intro x hx hn s' j hj he
    rw [(hother (hlow hx he) j).2]
    exact hg.cells.cell x hx hn s' j hj he
  · intro s' j hj hne
    by_cases he : s' = sh.segs
    · subst he
      simp [Shared.link] at hne
    · rw [(hother he j).1] at hne
      exact hg.cells.elem s' j hj hne

/-- The elements of a new segment are filled one after another. -/
theorem G.link (hg : G K sh w) (hs : s + 1 = sh.segs) (hK : K < sh.enq s) {c : Nat}
    {b : Loose.Batch α} (hp : w.lo.pend t = some (.push c k)) (hb : w.lo.calls[c]? = some b)
    {us rest : List α} (hd : b.elems.drop k = us ++ rest) (hlen : us.length ≤ K) :
    ∃ w' : Ghost Tid α, Loose.Path w.lo [] w'.lo ∧ G K (sh.link s us) w' ∧
      w'.lo.pend t = some (.push c (k + us.length)) ∧ w'.lo.calls = w.lo.calls ∧
      Loose.Grows w.lo w'.lo ∧ w'.lo.taken = w.lo.taken ∧ w'.owner = w.owner ∧
      w'.ahead = w.ahead ∧ (∀ x ∈ w.lo.filled, w'.num x = w.num x) ∧
      (∀ u, u ≠ t → w'.lo.pend u = w.lo.pend u) ∧
      ∀ x, w'.lo.Earlier x (c, k + us.length) → w'.num x < sh.segs * K + us.length := by
  induction us using List.reverseRecOn generalizing rest with
  | nil =>
    refine ⟨w, .refl, hg.link_nil hs hK, hp, rfl, .refl _, rfl, rfl, rfl, fun _ _ => rfl,
      fun _ _ => rfl, fun x hx => ?_⟩
    have := hg.cells.num_lt x (hg.filled_of_earlier hp hx)
    rw [reserved_of_full hs hK] at this
    exact this
  | append_singleton us v ih =>
    have hlen' : us.length < K := by simpa using hlen
    have hd₁ : b.elems.drop k = us ++ v :: rest := by rw [hd]; simp
    obtain ⟨w₁, hpath, hg₁, hp₁, hcalls, hgr, ht, ho, ha, hnum, hpend, hlow⟩ := ih hd₁ hlen'.le
    have hb₁ : w₁.lo.calls[c]? = some b := by rw [hcalls]; exact hb
    have hv : b.elems[k + us.length]? = some v := by
      rw [← List.getElem?_drop, hd]
      simp
    have hst : ∀ sh₁ : Shared α, sh₁.state = (sh.link s us).state →
        sh₁.state sh.segs us.length = .empty := fun sh₁ h => by
      rw [h]
      simp [Shared.link]
    have hg₂ := (hg₁.reserve (Nat.lt_succ_self sh.segs) 1).setCell
      (hst ((sh.link s us).reserve sh.segs 1) rfl) (some v)
    obtain ⟨hpath', hg₃⟩ := hg₂.fill hp₁ hb₁ hv (Nat.lt_succ_self sh.segs) hlen'
      (by simp [Shared.setCell, Shared.reserve, Shared.link]) (hst _ rfl) setCell_self hlow
    rw [← link_append] at hg₃
    refine ⟨w₁.fill t c (k + us.length) (sh.segs * K + us.length), hpath.trans hpath', hg₃,
      ?_, hcalls,
      hgr.trans { Loose.Grows.refl w₁.lo with filled := List.prefix_append .. }, ht, ho, ha,
        ?_, ?_, ?_⟩
    · rw [List.length_append]
      exact Loose.State.set_pend_self ..
    · intro x hx
      have hx₁ : x ∈ w₁.lo.filled := hgr.filled.subset hx
      rw [← hnum x hx]
      refine Function.update_of_ne ?_ _ _
      rintro rfl
      exact lt_irrefl _ (((hg₁.valid.opens t c _ hp₁).2 _).1 hx₁)
    · intro u hu
      rw [← hpend u hu]
      exact Loose.State.set_pend_ne _ hu _
    · intro x hx
      rw [List.length_append] at hx ⊢
      exact hg₁.fill_low hp₁ hlow hx

/-- The compare-and-swap of a push that links a segment of its own. -/
theorem link_step (hg : G K sh w) (hl : PushL K t sh w (.link k vs s)) (hn : sh.next s = none) :
    Kept K cons t sh w (sh.link s (vs.take K))
      (.linkTail (k + (vs.take K).length) (vs.drop K) s sh.segs) := by
  obtain ⟨-, ⟨c, b, hp, hb, hd, hk⟩, hs, hK⟩ := hl
  have hK : K < sh.enq s := hK (by omega)
  have hlast := hg.chain.next_eq_none hs hn
  have hR : reserved K sh = sh.segs * K := reserved_of_full hlast hK
  have hlen : (vs.take K).length ≤ K := by
    rw [List.length_take]
    omega
  have hd' : b.elems.drop k = vs.take K ++ vs.drop K := by rw [hd, List.take_append_drop]
  obtain ⟨w', hpath, hg', hp', hcalls, hgr, ht, ho, ha, hnum, hpend, -⟩ :=
    hg.link hlast hK hp hb hd' hlen
  have hnew : ∀ {s' j : Nat}, j < K →
      (sh.state s' j ≠ .empty ∨ ∃ u, w.owner (s' * K + j) = some u) →
      s' ≠ sh.segs := by
    rintro s' j hj h rfl
    rcases h with h | ⟨u, hu⟩
    · exact h (hg.empty_of_le hj (by omega))
    · have := hg.cells.owner_lt _ u hu
      omega
  have hq : Quiet K sh w (sh.link s (vs.take K)) w' :=
    ⟨rfl, rfl, rfl, ht, ha, fun s' j hj hne => by
      have := hnew hj (.inl hne)
      simp [Shared.link, this]⟩
  refine ⟨w', hpath, hg', ⟨⟨c, b, hp', by rw [hcalls]; exact hb, ?_, ?_⟩, Nat.lt_succ_self _⟩,
    ⟨Nat.le_succ _, fun u => ?_, fun u n hu => ?_, hgr, hnum, hpend, fun s' j u _ hj hou => ?_,
      fun _ => hq⟩, hq⟩
  · rw [← List.drop_drop, hd', List.drop_left]
  · have := congrArg List.length hd
    rw [List.length_drop] at this
    rw [List.length_take]
    omega
  · by_cases hus : u = sh.segs
    · subst hus; rw [hg.chain.enq_gt _ le_rfl]; exact Nat.zero_le _
    · simp [Shared.link, hus]
  · have hus : u ≠ s := by
      rintro rfl
      rw [hn] at hu
      cases hu
    simpa [Shared.link, hus] using hu
  · have hne := hnew hj (.inr ⟨u, hou⟩)
    refine ⟨by rw [ho]; exact hou, fun h => ?_⟩
    simpa [Shared.link, hne] using h

/-- Every step of `push_run` keeps the rule. -/
theorem push_step {l l' : PushLoc α} (hg : G K sh w) (hl : PushL K t sh w l)
    (hs : pushStep K false sh l = some (sh', l')) : Kept K cons t sh w sh' l' := by
  cases l with
  | load k vs =>
    cases hs
    exact .same hg ⟨hl.1, hl.2, hg.chain.tail_lt⟩
  | check k vs s =>
    simp only [pushStep] at hs
    split_ifs at hs
    · cases hs; exact .same hg hl
    · cases hs; exact .same hg ⟨hl.1, hl.2.1, hg.chain.tail_lt⟩
  | reserve k vs s =>
    obtain ⟨hv, hp, hs'⟩ := hl
    simp only [pushStep] at hs
    split_ifs at hs with hi
    · cases hs; exact reserve_step hg hv hp hs' hi
    · cases hs; exact reserve_past_step hg hv hp hs' hi
  | build k vs s j stop fin => cases hs; exact build_step hg hl
  | mark k vs s j stop fin =>
    simp only [pushStep, Bool.false_eq_true, false_and, if_false] at hs
    split_ifs at hs with hj
    all_goals
      have hm : Kept K cons t sh w _ _ := mark_step hg hl
      cases hs
    · rwa [if_pos hj] at hm
    · rwa [if_neg hj] at hm
  | takeBack k vs s j stop fin | giveUp k vs s r stop fin => exact hl.elim
  | nextLoad k vs s spin =>
    simp only [pushStep] at hs
    split at hs
    · next n hn =>
      cases hs
      exact .same hg ⟨hl.2.1, (hg.chain.next_eq_some hn).2⟩
    · split_ifs at hs
      · cases hs; exact .same hg hl
      · cases hs; exact .same hg hl
  | link k vs s =>
    simp only [pushStep] at hs
    split at hs
    · next n hn =>
      cases hs
      exact .same hg ⟨hl.2.1, (hg.chain.next_eq_some hn).2⟩
    · next hn => cases hs; exact link_step hg hl hn
  | linkTail k vs s n | tailCas k vs s n =>
    cases hs
    exact casTail_step hg hl.2 fun _ => PushL_loop hl.1
  | done k => cases hs

end Steps

end Wtc.Segment.One
