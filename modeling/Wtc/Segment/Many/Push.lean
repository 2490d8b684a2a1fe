import Wtc.Segment.Many.Invariant

/-!
# Pushes to the queue for many consumers

Each step of `push_run` that writes keeps `G`, one lemma for each; then each step keeps the rule.
-/

namespace Wtc.Segment.Many

open Wtc.Concurrent

variable {α Tid : Type} {K : Nat} {F : Nat → Nat → Prop} {sh : Shared α} {w : Ghost Tid α}

/-! ## The counters -/

variable {n : Nat}

/-- A cell that is not reserved holds nothing. -/
theorem G.val_none (hg : G K F sh w) (h : reserved K sh ≤ n) : w.val n = none := by
  cases hv : w.val n with
  | none => rfl
  | some v =>
    have := hg.val_lt n v hv
    omega

/-- Cells are reserved without any effect yet. -/
theorem G.reserve (hg : G K F sh w) {s : Nat} (hs : s < sh.segs) (n : Nat) :
    G K F (sh.reserve s n) w :=
  { hg with
    chain := hg.chain.reserve hs n
    val_lt := fun m v hv => (hg.val_lt m v hv).trans_le (reserved_le_reserve s n)
    owner_lt := fun m u hu => (hg.owner_lt m u hu).trans_le (reserved_le_reserve s n)
    queue := by
      rw [hg.queue]
      exact (window_extend (reserved_le_reserve s n) fun m hm => hg.val_none hm).symm }

/-- One more cell is reserved and its element takes effect. -/
theorem G.put_aux (hg : G K F sh w) {s : Nat} (hs : s + 1 = sh.segs) (he : sh.enq s < K)
    (hF : F s (sh.enq s)) (v : α) {a : Atomic.State Tid (FifoOp α) (FifoAns α) (List α)}
    (hobj : a.obj = window (passed K sh) (s * K + sh.enq s + 1)
      (Function.update w.val (s * K + sh.enq s) (some v)))
    (hpend : ∀ u s' j', w.claim u = some (s', j') →
      Claimed { w with abs := a } u
        (Function.update w.val (s * K + sh.enq s) (some v) (s' * K + j'))) :
    G K F (sh.reserve s 1)
      { w with abs := a, val := Function.update w.val (s * K + sh.enq s) (some v) } := by
  have hR : reserved K sh = s * K + sh.enq s := by
    rw [reserved_last hs]
    omega
  have hR' : reserved K (sh.reserve s 1) = s * K + sh.enq s + 1 := by
    rw [reserved_reserve_last hs]
    omega
  -- the element of any other cell is as before
  have hother : ∀ {s' j'}, j' < K → (s', j') ≠ (s, sh.enq s) →
      Function.update w.val (s * K + sh.enq s) (some v) (s' * K + j') = w.val (s' * K + j') := by
    intro s' j' hj hne
    refine Function.update_of_ne (fun h => hne ?_) _ _
    obtain ⟨rfl, rfl⟩ := number_inj hj he h
    rfl
  have hself : Function.update w.val (s * K + sh.enq s) (some v) (s * K + sh.enq s) = some v :=
    Function.update_self ..
  have hcase : ∀ s' j', (s', j') = (s, sh.enq s) ∨ (s', j') ≠ (s, sh.enq s) :=
    fun _ _ => Classical.em _
  refine
    { hg with
      chain := hg.chain.reserve (by omega) 1
      val_lt := ?_
      owner_lt := fun m u hu => (hg.owner_lt m u hu).trans_le (reserved_le_reserve s 1)
      val_fin := ?_
      full_val := ?_
      cell := ?_
      claimed := ?_
      claim_pend := hpend
      queue := ?_ }
  · intro m u hu
    rw [hR']
    by_cases hm : m = s * K + sh.enq s
    · omega
    · have := hg.val_lt m u (by simpa [hm] using hu)
      omega
  · intro s' j' u hj hu
    rcases hcase s' j' with h | h
    · cases h; exact hF
    · exact hg.val_fin s' j' u hj ((hother hj h).symm.trans hu)
  · intro s' j' hj hst
    rcases hcase s' j' with h | h
    · cases h; exact fun hn => nomatch hself.symm.trans hn
    · exact fun hn => hg.full_val s' j' hj hst ((hother hj h).symm.trans hn)
  · intro s' j' hj hst hc
    rcases hcase s' j' with h | h
    · -- the cell was not reserved, so it was not full
      cases h
      exact absurd (hg.val_none hR.le) (hg.full_val s _ he hst)
    · exact (hg.cell s' j' hj hst hc).trans (hother hj h).symm
  · intro s' j' hj hlt hst hn
    rcases hcase s' j' with h | h
    · cases h; exact nomatch hself.symm.trans hn
    · exact hg.claimed s' j' hj hlt hst ((hother hj h).symm.trans hn)
  · rw [hobj, hR']
    rfl

/-- What a pop that holds a cell has done does not depend on the other threads. -/
theorem Claimed.of_pend {w w' : Ghost Tid α} {u : Tid} {v : Option α}
    (hp : w'.abs.pend u = w.abs.pend u) (h : Claimed w u v) : Claimed w' u v := by
  cases v with
  | none | some v => exact Atomic.State.Pend.of_eq hp h

variable [DecidableEq Tid]

/-- A push takes effect where it takes its cell, and with it a pop that holds the cell. -/
theorem G.put (hg : G K F sh w) (hsee : Sees F sh) {s : Nat} (hs : s + 1 = sh.segs)
    (he : sh.enq s < K) (hF : F s (sh.enq s)) {t : Tid} {v : α} {rest : List (FifoOp α)}
    {done : List (FifoAns α)} (hp : w.abs.Pend t (.push v :: rest) done) (hc : w.claim t = none) :
    ∃ a, Atomic.Steps (fifo α) w.abs a ∧
      G K F (sh.reserve s 1)
        { w with abs := a, val := Function.update w.val (s * K + sh.enq s) (some v) } ∧
      a.Pend t rest (done ++ [.pushed]) ∧
      ∀ u, u ≠ t → w.claim u = none → a.pend u = w.abs.pend u := by
  have hR : reserved K sh = s * K + sh.enq s := by
    rw [reserved_last hs]
    omega
  have hpush := hp.lin (O := fifo α) (FifoStep.push w.abs.obj v)
  have hne : ∀ {u s' j'}, w.claim u = some (s', j') → u ≠ t := by
    rintro u s' j' hu rfl
    rw [hc] at hu
    cases hu
  rcases Nat.lt_or_ge (s * K + sh.enq s) (passed K sh) with hlt | hge
  · -- a pop holds the cell already; the queue is empty and the element goes to the pop
    have hst : sh.state s (sh.enq s) ≠ .skipped := fun h => hsee.skipped _ _ (by omega) h hF
    obtain ⟨u, hu⟩ := hg.claimed s _ he hlt hst (hg.val_none hR.le)
    have hut := hne hu
    have hup : w.abs.Pend u [.pop] [] := by
      have := hg.claim_pend u _ _ hu
      rwa [hg.val_none hR.le] at this
    have hempty : w.abs.obj = [] := by
      rw [hg.queue]
      exact window_of_le (by omega)
    have hup' : (w.abs.lin t rest (done ++ [.pushed]) (w.abs.obj ++ [v])).Pend u [.pop] [] :=
      hup.of_eq (Atomic.State.lin_pend_ne _ hut _ _ _)
    have hpop := hup'.lin (O := fifo α) (a := .popped (some v)) (q := []) (by
      rw [Atomic.State.lin_obj, hempty]
      exact .pop v [])
    refine ⟨_, hpush.trans hpop, hg.put_aux hs he hF v ?_ ?_, ?_, ?_⟩
    · exact (window_of_le hlt).symm
    · intro u' s' j' hu'
      by_cases heq : (s', j') = (s, sh.enq s)
      · cases heq
        obtain rfl := hg.claim_inj _ _ _ hu' hu
        rw [Function.update_self]
        exact Atomic.State.lin_pend_self _ _ _ _ _
      · have hn : s' * K + j' ≠ s * K + sh.enq s := fun h => heq (by
          obtain ⟨rfl, rfl⟩ := number_inj (hg.claim_lt _ _ _ hu').1 he h
          rfl)
        have huu : u' ≠ u := by
          rintro rfl
          exact heq (Option.some.inj (hu'.symm.trans hu))
        rw [Function.update_of_ne hn]
        refine (hg.claim_pend u' s' j' hu').of_pend ?_
        rw [Atomic.State.lin_pend_ne _ huu, Atomic.State.lin_pend_ne _ (hne hu')]
    · exact (Atomic.State.lin_pend_self _ _ _ _ _).of_eq (Atomic.State.lin_pend_ne _ hut.symm _ _ _)
    · intro u' hu' hcu
      have huu : u' ≠ u := by
        rintro rfl
        rw [hcu] at hu
        cases hu
      rw [Atomic.State.lin_pend_ne _ huu, Atomic.State.lin_pend_ne _ hu']
  · refine ⟨_, hpush, hg.put_aux hs he hF v ?_ ?_, Atomic.State.lin_pend_self _ _ _ _ _,
      fun u hu _ => Atomic.State.lin_pend_ne _ hu _ _ _⟩
    · rw [window_right hge, Function.update_self, Atomic.State.lin_obj, hg.queue, hR]
      congr 1
      exact window_congr fun n _ hn => (Function.update_of_ne (by omega) _ _).symm
    · intro u s' j' hu
      have hlt' := (hg.claim_lt _ _ _ hu).2
      rw [Function.update_of_ne (by omega)]
      exact (hg.claim_pend u s' j' hu).of_pend (Atomic.State.lin_pend_ne _ (hne hu) _ _ _)

/-- The cells of a push that get full take effect, one after another. -/
theorem G.putAll {vs rest : List α} (hg : G K F sh w) (hsee : Sees F sh) {s : Nat}
    (hs : s + 1 = sh.segs) (hle : sh.enq s + vs.length ≤ K)
    (hF : ∀ r, r < vs.length → F s (sh.enq s + r)) {t : Tid} {done : List (FifoAns α)}
    (hp : w.abs.Pend t ((vs ++ rest).map .push) done) (hc : w.claim t = none) :
    ∃ a val, Atomic.Steps (fifo α) w.abs a ∧
      G K F (sh.reserve s vs.length) { w with abs := a, val := val } ∧
      a.Pend t (rest.map .push) (done ++ List.replicate vs.length .pushed) ∧
      (∀ u, u ≠ t → w.claim u = none → a.pend u = w.abs.pend u) ∧
      (∀ r, r < vs.length → val (s * K + (sh.enq s + r)) = vs[r]?) ∧
      ∀ n, n < s * K + sh.enq s ∨ s * K + sh.enq s + vs.length ≤ n → val n = w.val n := by
  induction vs generalizing sh w done with
  | nil =>
    refine ⟨w.abs, w.val, .refl, hg.reserve (by omega) 0, by simpa using hp, fun _ _ _ => rfl,
      nofun, fun _ _ => rfl⟩
  | cons v vs ih =>
    rw [List.length_cons] at hle hF
    obtain ⟨a, hsteps, hg', hp', hoth⟩ := hg.put hsee hs (by omega) (hF 0 (by omega)) hp hc
    have henq : (sh.reserve s 1).enq s = sh.enq s + 1 := by simp [Shared.reserve]
    obtain ⟨a', val', hsteps', hg'', hp'', hoth', hval, hold⟩ := ih hg' ⟨hsee.full, hsee.skipped⟩ hs
      (by rw [henq]; omega) (fun r hr => by
        rw [henq, Nat.add_assoc, Nat.add_comm 1]
        exact hF (r + 1) (by omega)) hp' hc
    rw [reserve_reserve, Nat.add_comm 1] at hg''
    refine ⟨a', val', hsteps.trans hsteps', hg'', ?_, fun u hu hcu => ?_, fun r hr => ?_,
      fun n hn => ?_⟩
    · rw [List.append_assoc] at hp''
      exact hp''
    · rw [hoth' u hu hcu, hoth u hu hcu]
    · cases r with
      | zero =>
        rw [hold _ (.inl (by rw [henq]; omega))]
        exact Function.update_self ..
      | succ r =>
        have := hval r (by simpa using hr)
        rw [henq, Nat.add_assoc, Nat.add_comm 1] at this
        exact this
    · rw [List.length_cons] at hn
      rw [hold n (by rw [henq]; omega)]
      exact Function.update_of_ne (by omega) _ _

/-! ## Pushes -/

/-- A step keeps the rule. -/
def Kept (K : Nat) (F : Nat → Nat → Prop) (t : Tid) (sh : Shared α) (w : Ghost Tid α)
    (sh' : Shared α) (l' : Loc α) : Prop :=
  ∃ w' : Ghost Tid α, Atomic.Steps (fifo α) w.abs w'.abs ∧ G K F sh' w' ∧
    L K F t sh' w' (some l') ∧ Rely K t sh w sh' w'

theorem Kept.same {t : Tid} {l' : Loc α} (hg : G K F sh w) (hl : L K F t sh w (some l')) :
    Kept K F t sh w sh l' :=
  ⟨w, .refl, hg, hl, .refl ..⟩

/-- The most of some numbers that all have a property, from the first. -/
theorem exists_most (p : Nat → Prop) (n : Nat) :
    ∃ q, q ≤ n ∧ (∀ r, r < q → p r) ∧ (q < n → ¬ p q) := by
  induction n with
  | zero => exact ⟨0, le_rfl, nofun, nofun⟩
  | succ n ih =>
    obtain ⟨q, hle, hp, hno⟩ := ih
    by_cases hq : q < n
    · exact ⟨q, by omega, hp, fun _ => hno hq⟩
    · by_cases hn : p n
      · refine ⟨n + 1, le_rfl, fun r hr => ?_, fun h => absurd h (by omega)⟩
        by_cases hrn : r = n
        · exact hrn ▸ hn
        · exact hp r (by omega)
      · refine ⟨n, by omega, fun r hr => hp r (by omega), fun _ => hn⟩

section Push

variable {t : Tid} {k : Nat} {vs : List α} {s : Nat}

/-- The fetch-and-add of a push that finds cells in the segment. -/
theorem reserve_step (hg : G K F sh w) (hsee : Sees F sh) (hv : vs ≠ []) (hp : Pushing w t k vs)
    (hs : s < sh.segs) (hi : sh.enq s < K) :
    Kept K F t sh w (sh.reserve s vs.length)
      (.push (.build k vs s (sh.enq s) (min (sh.enq s + vs.length) K) (sh.enq s + vs.length))) := by
  have hlast := hg.chain.last_of_enq_lt hs hi.le
  have hpos : 0 < vs.length := List.length_pos_iff.2 hv
  have hR : reserved K sh = s * K + sh.enq s := by
    rw [reserved_last hlast]
    omega
  set i := sh.enq s with hi_def
  set stop := min (i + vs.length) K with hstop
  obtain ⟨q, hq, hF, hmost⟩ := exists_most (fun r => F s (i + r)) (stop - i)
  have hlen : (vs.take q).length = q := by rw [List.length_take]; omega
  have hpend : w.abs.Pend t ((vs.take q ++ vs.drop q).map .push) (List.replicate k .pushed) := by
    rw [List.take_append_drop]
    exact hp.1
  obtain ⟨a, val, hsteps, hg', hp', hoth, hval, hold⟩ := hg.putAll hsee hlast (by omega)
    (fun r hr => hF r (by omega)) hpend hp.2
  rw [hlen] at hg' hp' hval hold
  -- the rest of the cells is reserved without effect
  have hg'' := hg'.reserve hs (vs.length - q)
  rw [reserve_reserve, show q + (vs.length - q) = vs.length by omega] at hg''
  have hR' : reserved K (sh.reserve s vs.length) = s * K + stop := by
    rw [reserved_reserve_last hlast]
  have hfree : ∀ r, i ≤ r → r < K → sh.state s r ≠ .full := fun r hr hrK hst =>
    hg.full_val s r hrK hst (hg.val_none (by omega))
  refine ⟨{ w with
      abs := a
      val := val
      owner := fun n => if s * K + i ≤ n ∧ n < s * K + stop then some t else w.owner n },
    hsteps, { hg'' with owner_lt := ?_ }, ⟨q, ?_⟩, ?_⟩
  · intro n u hu
    rw [hR']
    by_cases hn : s * K + i ≤ n ∧ n < s * K + stop
    · exact hn.2
    · have := hg.owner_lt n u ((if_neg hn).symm.trans hu)
      omega
  · refine ⟨hs, rfl, rfl, by omega, ?_, ?_, by omega, ?_, ?_, fun h => hmost (by omega), ?_, hp.2⟩
    · simp [Shared.reserve, hi_def]
    · intro r h1 h2
      exact ⟨if_pos ⟨by omega, by omega⟩, hfree r h1 (by omega)⟩
    · intro r hr
      exact (hval r hr).trans (by rw [List.getElem?_take, if_pos hr])
    · intro r h1 h2
      exact (hold _ (.inr (by omega))).trans (hg.val_none (by omega))
    · rw [List.replicate_append_replicate] at hp'
      exact hp'
  · refine ⟨le_rfl, le_rfl, fun _ => le_rfl, fun u => ?_, fun _ _ h => h, fun _ _ _ h => h,
      fun _ _ => rfl, hoth, fun s' j' u hu hj ho => ?_⟩
    · by_cases hus : u = s
      · subst hus; simp [Shared.reserve]
      · simp [Shared.reserve, hus]
    · have hlt := hg.owner_lt _ _ ho
      exact ⟨(if_neg (by omega)).trans ho, hold _ (.inl (by omega)), fun h => ⟨h, rfl⟩⟩

/-- The fetch-and-add of a push past the end of the segment. -/
theorem reserve_past_step (hg : G K F sh w) (hv : vs ≠ []) (hp : Pushing w t k vs)
    (hs : s < sh.segs) (hi : ¬ sh.enq s < K) :
    Kept K F t sh w (sh.reserve s vs.length) (.push (.nextLoad k vs s 0)) := by
  have hpos : 0 < vs.length := List.length_pos_iff.2 hv
  have henq : (sh.reserve s vs.length).enq s = sh.enq s + vs.length := by simp [Shared.reserve]
  refine ⟨w, .refl, hg.reserve hs _, ⟨hv, hp, hs, fun _ => by rw [henq]; omega⟩, ?_⟩
  refine { Rely.refl K t sh w with enq := fun u => ?_ }
  by_cases hus : u = s
  · subst hus; rw [henq]; omega
  · simp [Shared.reserve, hus]

variable {j fin stop : Nat}

omit [DecidableEq Tid] in
/-- A cell that is not full may be written. -/
theorem G.setCell (hg : G K F sh w) (hst : sh.state s j ≠ .full) (v : Option α) :
    G K F (sh.setCell s j v) w :=
  { hg with
    chain := hg.chain.setCell s j v
    cell := fun s' j' hj hf hc => by
      rw [setCell_ne (by rintro ⟨⟩; exact hst hf)]
      exact hg.cell s' j' hj hf hc }

omit [DecidableEq Tid] in
/-- A push writes a cell of its own. -/
theorem Rely.setCell (ho : w.owner (s * K + j) = some t) (v : Option α) :
    Rely K t sh w (sh.setCell s j v) w :=
  { Rely.refl K t sh w with
    owned := fun s' j' u hu hj' ho' => by
      refine ⟨ho', rfl, fun h => ⟨h, setCell_ne ?_⟩⟩
      rintro ⟨⟩
      exact hu (Option.some.inj (ho'.symm.trans ho)) }

theorem build_step (hg : G K F sh w) (hl : PushL K F t sh w (.build k vs s j stop fin)) :
    Kept K F t sh w (sh.setCell s j vs.head?) (.push (.mark k vs s j stop fin)) := by
  obtain ⟨q, hq⟩ := hl
  obtain ⟨ho, hst⟩ := hq.owner j le_rfl hq.lt
  exact ⟨w, .refl, hg.setCell hst _, ⟨⟨q, { hq with }⟩, setCell_self⟩, .setCell ho _⟩

theorem takeBack_step {l' : PushLoc α} (hg : G K F sh w)
    (hl : PushL K F t sh w (.takeBack k vs s j stop fin))
    (hl' : PushL K F t (sh.setCell s j none) w l') :
    Kept K F t sh w (sh.setCell s j none) (.push l') := by
  have hq : Filling K F sh w t k vs s j stop fin 0 := hl
  obtain ⟨ho, hst⟩ := hq.owner j le_rfl hq.lt
  exact ⟨w, .refl, hg.setCell hst _, hl', .setCell ho _⟩

omit [DecidableEq Tid] in
/-- A cell is filled whose element has taken effect. -/
theorem G.setFull (hg : G K F sh w) (hval : w.val (s * K + j) ≠ none)
    (hcell : sh.cell s j = w.val (s * K + j)) : G K F (sh.setState s j .full) w := by
  have hcase : ∀ s' j', (s', j') = (s, j) ∨ (s', j') ≠ (s, j) := fun _ _ => Classical.em _
  refine
    { hg with
      chain := hg.chain.setState s j _
      full_val := ?_
      not_taken := ?_
      cell := ?_
      claimed := ?_ }
  all_goals
    intro s' j'
    rcases hcase s' j' with h | h
  all_goals first | (cases h; rw [setState_self]) | rw [setState_ne h]
  · exact fun _ _ => hval
  · exact hg.full_val s' j'
  · nofun
  · exact hg.not_taken s' j'
  · exact fun _ _ _ => hcell
  · exact hg.cell s' j'
  · exact fun _ _ _ hn => absurd hn hval
  · exact hg.claimed s' j'

omit [DecidableEq Tid] in
/-- A push fills a cell of its own. -/
theorem Rely.setFull (ho : w.owner (s * K + j) = some t) :
    Rely K t sh w (sh.setState s j .full) w :=
  { Rely.refl K t sh w with
    full := fun s' j' _ h => by
      by_cases he : (s', j') = (s, j)
      · cases he; exact setState_self
      · rw [setState_ne he]; exact h
    owned := fun s' j' u hu _ ho' => by
      refine ⟨ho', rfl, fun h => ⟨?_, rfl⟩⟩
      rw [setState_ne]
      · exact h
      · rintro ⟨⟩
        exact hu (Option.some.inj (ho'.symm.trans ho)) }

omit [DecidableEq Tid] in
theorem PushL_afterFill (hp : Pushing w t k vs) (hs : s < sh.segs) (hK : K < fin → K < sh.enq s) :
    PushL K F t sh w (afterFill K k vs s fin) := by
  unfold afterFill
  split_ifs with hv hfin
  · subst hv; exact hp
  · exact ⟨hv, hp⟩
  · exact ⟨hv, hp, hs, fun _ => hK (by omega)⟩

omit [DecidableEq Tid] in
theorem PushL_loop (hp : Pushing w t k vs) : PushL K F t sh w (loop k vs) := by
  unfold loop
  split_ifs with hv
  · subst hv; exact hp
  · exact ⟨hv, hp⟩

omit [DecidableEq Tid] in
/-- The cell after a filled one is the next to fill. -/
theorem Filling.next {q : Nat} (hq : Filling K F sh w t k vs s j stop fin (q + 1))
    (hlt : j + 1 < stop) :
    Filling K F (sh.setState s j .full) w t (k + 1) vs.tail s (j + 1) stop fin q := by
  have hle := hq.le
  have hlen : vs.tail.length = vs.length - 1 := List.length_tail
  have hpos : 0 < vs.length := by
    have := hq.fin_eq
    have := hq.stop_eq
    omega
  refine ⟨hq.seg, by rw [hq.fin_eq, hlen]; omega, hq.stop_eq, hlt, hq.enq, fun r h1 h2 => ?_,
    by omega, fun r hr => ?_, fun r h1 h2 => hq.val_none r (by omega) h2, fun h => ?_, ?_⟩
  · obtain ⟨ho, hst⟩ := hq.owner r (by omega) h2
    rw [setState_ne (by rintro ⟨⟩; omega)]
    exact ⟨ho, hst⟩
  · have := hq.val (r + 1) (by omega)
    rw [List.getElem?_tail, Nat.add_assoc, Nat.add_comm 1]
    exact this
  · rw [Nat.add_assoc, Nat.add_comm 1]
    exact hq.most (by omega)
  · have := hq.pend
    rw [List.drop_tail, Nat.add_assoc, Nat.add_comm 1]
    exact this

/-- A push fills its cell. -/
theorem mark_step (hg : G K F sh w) (hsee : Sees F (sh.setState s j .full))
    (hl : PushL K F t sh w (.mark k vs s j stop fin)) :
    Kept K F t sh w (sh.setState s j .full)
      (.push (if j + 1 < stop then .build (k + 1) vs.tail s (j + 1) stop fin
        else afterFill K (k + 1) vs.tail s fin)) := by
  obtain ⟨⟨q, hq⟩, hcell⟩ := hl
  have hlt := hq.lt
  have hle := hq.le
  have hstop := hq.stop_eq
  have hfin := hq.fin_eq
  obtain ⟨ho, -⟩ := hq.owner j le_rfl hq.lt
  -- the cell is full at the end, so its element has taken effect
  obtain ⟨q, rfl⟩ : ∃ q', q = q' + 1 := by
    cases q with
    | zero => exact absurd (hsee.full s j hq.seg setState_self) (hq.most hlt)
    | succ q' => exact ⟨q', rfl⟩
  have hv : vs.head? = w.val (s * K + j) := by
    have := hq.val 0 (by omega)
    rw [List.head?_eq_getElem?]
    exact this.symm
  have hne : w.val (s * K + j) ≠ none := by
    rw [← hv, ne_eq, List.head?_eq_none_iff]
    rintro rfl
    simp at hfin
    omega
  refine ⟨w, .refl, hg.setFull hne (hcell.trans hv), ?_, .setFull ho⟩
  split_ifs with hj
  · exact ⟨q, hq.next hj⟩
  · obtain rfl : q = 0 := by omega
    have hp := hq.pend
    rw [← List.drop_one]
    exact PushL_afterFill hp hq.seg fun h => h.trans_le hq.enq

/-- A push finds its cell skipped. -/
theorem mark_fail_step (hg : G K F sh w) (hsee : Sees F sh)
    (hl : PushL K F t sh w (.mark k vs s j stop fin)) (hst : sh.state s j ≠ .empty) :
    Kept K F t sh w sh (.push (.takeBack k vs s j stop fin)) := by
  obtain ⟨⟨q, hq⟩, -⟩ := hl
  have hlt := hq.lt
  have hstop := hq.stop_eq
  have hskip : sh.state s j = .skipped := by
    have h1 := (hq.owner j le_rfl hq.lt).2
    have h2 := hg.not_taken s j
    revert hst h1 h2
    cases sh.state s j <;> simp
  refine Kept.same hg ?_
  cases q with
  | zero => exact hq
  | succ q =>
    have hv := hq.val 0 (by omega)
    have hpos : 0 < vs.length := by
      have := hq.fin_eq
      omega
    rw [List.getElem?_eq_getElem hpos] at hv
    exact absurd (hg.val_fin s j _ (by omega) hv) (hsee.skipped s j hq.seg hskip)

omit [DecidableEq Tid] in
/-- An empty cell may be skipped. -/
theorem G.setSkipped (hg : G K F sh w) (s j : Nat) : G K F (sh.setState s j .skipped) w := by
  have hcase : ∀ s' j', (s', j') = (s, j) ∨ (s', j') ≠ (s, j) := fun _ _ => Classical.em _
  refine
    { hg with
      chain := hg.chain.setState s j _
      full_val := ?_
      not_taken := ?_
      cell := ?_
      claimed := ?_ }
  all_goals
    intro s' j'
    rcases hcase s' j' with h | h
  all_goals first | (cases h; rw [setState_self]) | rw [setState_ne h]
  · nofun
  · exact hg.full_val s' j'
  · nofun
  · exact hg.not_taken s' j'
  · nofun
  · exact hg.cell s' j'
  · exact fun _ _ hne => absurd rfl hne
  · exact hg.claimed s' j'

omit [DecidableEq Tid] in
theorem Rely.setSkipped (hst : sh.state s j = .empty) :
    Rely K t sh w (sh.setState s j .skipped) w :=
  { Rely.refl K t sh w with
    full := fun s' j' _ h => by
      rw [setState_ne]
      · exact h
      · rintro ⟨⟩
        rw [hst] at h
        cases h
    owned := fun s' j' u hu _ ho' => by
      refine ⟨ho', rfl, fun h => ⟨?_, rfl⟩⟩
      by_cases he : (s', j') = (s, j)
      · cases he; rw [setState_self]; nofun
      · rw [setState_ne he]; exact h }

theorem giveUp_step {r : Nat} {l' : PushLoc α} (hg : G K F sh w)
    (hl : ∀ sh' : Shared α, sh'.segs = sh.segs → sh'.enq = sh.enq → PushL K F t sh' w l') :
    Kept K F t sh w (if sh.state s r = .empty then sh.setState s r .skipped else sh)
      (.push l') := by
  split_ifs with hst
  · exact ⟨w, .refl, hg.setSkipped s r, hl _ rfl rfl, .setSkipped hst⟩
  · exact .same hg (hl sh rfl rfl)

/-- The tail moves on. -/
theorem casTail_step {l' : Loc α} (hg : G K F sh w) (hn : n < sh.segs)
    (hl : ∀ m, m < sh.segs → L K F t { sh with tail := m } w (some l')) :
    Kept K F t sh w (sh.casTail s n) l' := by
  unfold Shared.casTail
  split_ifs
  · exact ⟨w, .refl, { hg with chain := hg.chain.setTail hn }, hl n hn, { Rely.refl K t sh w with }⟩
  · exact .same hg (hl sh.tail hg.chain.tail_lt)

omit [DecidableEq Tid] in
/-- A new segment is linked and its elements take effect. -/
theorem G.link (hg : G K F sh w) (hsee : Sees F (sh.link s vs)) (hs : s + 1 = sh.segs)
    (hK : K < sh.enq s) (hlen : vs.length ≤ K)
    {a : Atomic.State Tid (FifoOp α) (FifoAns α) (List α)} (hobj : a.obj = w.abs.obj ++ vs)
    (hpend : ∀ u, w.claim u ≠ none → a.pend u = w.abs.pend u) :
    G K F (sh.link s vs)
      { w with
        abs := a
        val := fun n => if sh.segs * K ≤ n then vs[n - sh.segs * K]? else w.val n } := by
  have hR : reserved K sh = sh.segs * K := reserved_of_full hs hK
  have hR' : reserved K (sh.link s vs) = sh.segs * K + vs.length := reserved_link hlen
  have hP : passed K sh ≤ sh.segs * K := hg.chain.passed_le
  have hlow : ∀ s' j, s' * K + j < sh.segs * K → s' ≠ sh.segs := by
    rintro s' j h rfl
    omega
  have hstate : ∀ {s' j}, s' ≠ sh.segs → (sh.link s vs).state s' j = sh.state s' j := fun h => by
    simp [Shared.link, h]
  have hcell : ∀ {s' j}, s' ≠ sh.segs → (sh.link s vs).cell s' j = sh.cell s' j := fun h => by
    simp [Shared.link, h]
  have hnew : ∀ {j}, (sh.link s vs).state sh.segs j = if j < vs.length then .full else .empty := by
    simp [Shared.link]
  -- a cell that was full before is one of the old segments
  have hold : ∀ s' j, j < K → s' ≠ sh.segs → (sh.link s vs).state s' j = .full →
      sh.state s' j = .full ∧ s' * K + j < sh.segs * K := by
    intro s' j hj hne hst
    rw [hstate hne] at hst
    obtain ⟨v, hv⟩ := Option.ne_none_iff_exists'.1 (hg.full_val s' j hj hst)
    exact ⟨hst, hR ▸ hg.val_lt _ v hv⟩
  refine
    { hg with
      chain := hg.chain.link hs hK vs
      val_lt := ?_
      owner_lt := ?_
      val_fin := ?_
      full_val := ?_
      not_taken := ?_
      cell := ?_
      claimed := ?_
      claim_pend := ?_
      queue := ?_ }
  · intro n v hv
    rw [hR']
    by_cases hn : sh.segs * K ≤ n
    · have hv := (if_pos hn).symm.trans hv
      have := (List.getElem?_eq_some_iff.1 hv).1
      omega
    · omega
  · intro n u hu
    have := hg.owner_lt n u hu
    omega
  · intro s' j v hj hv
    by_cases hn : sh.segs * K ≤ s' * K + j
    · have hv := (if_pos hn).symm.trans hv
      have hlt := (List.getElem?_eq_some_iff.1 hv).1
      have hnum : s' * K + j = sh.segs * K + (s' * K + j - sh.segs * K) := by omega
      obtain ⟨rfl, hj'⟩ := number_inj hj (by omega) hnum
      refine hsee.full _ _ (Nat.lt_succ_self _) ?_
      rw [hnew, if_pos (by omega)]
    · exact hg.val_fin s' j v hj ((if_neg hn).symm.trans hv)
  · intro s' j hj hst
    by_cases hne : s' = sh.segs
    · subst hne
      have hlt : j < vs.length := by
        rw [hnew] at hst
        by_contra hn
        rw [if_neg hn] at hst
        cases hst
      show (if _ then _ else _) ≠ none
      rw [if_pos (by omega), Nat.add_sub_cancel_left, List.getElem?_eq_getElem hlt]
      exact Option.some_ne_none _
    · obtain ⟨hst, hlt⟩ := hold s' j hj hne hst
      show (if _ then _ else _) ≠ none
      rw [if_neg (by omega)]
      exact hg.full_val s' j hj hst
  · intro s' j
    by_cases hne : s' = sh.segs
    · subst hne
      rw [hnew]
      split_ifs <;> simp
    · rw [hstate hne]
      exact hg.not_taken s' j
  · intro s' j hj hst hc
    by_cases hne : s' = sh.segs
    · subst hne
      show _ = if _ then _ else _
      rw [if_pos (by omega), Nat.add_sub_cancel_left]
      simp [Shared.link]
    · obtain ⟨hst, hlt⟩ := hold s' j hj hne hst
      show _ = if _ then _ else _
      rw [if_neg (by omega), hcell hne]
      exact hg.cell s' j hj hst hc
  · intro s' j hj (hlt : s' * K + j < passed K sh) hst hv
    rw [hstate (hlow s' j (by omega))] at hst
    exact hg.claimed s' j hj hlt hst ((if_neg (by omega)).symm.trans hv)
  · intro u s' j hu
    have hlt := (hg.claim_lt u s' j hu).2
    show Claimed _ u (if _ then _ else _)
    rw [if_neg (by omega)]
    exact (hg.claim_pend u s' j hu).of_pend (hpend u (hu ▸ Option.some_ne_none _))
  · have hleft : window (passed K sh) (sh.segs * K) w.val = window (passed K sh) (sh.segs * K)
        fun n => if sh.segs * K ≤ n then vs[n - sh.segs * K]? else w.val n :=
      window_congr fun n _ hn => (if_neg (by omega)).symm
    have hright : window (sh.segs * K) (sh.segs * K + vs.length)
        (fun n => if sh.segs * K ≤ n then vs[n - sh.segs * K]? else w.val n) = vs :=
      (window_congr fun n hn _ => if_pos hn).trans (window_list vs)
    show a.obj = window (passed K sh) _ _
    rw [hobj, hR', hg.queue, hR, window_append hP (Nat.le_add_right _ _), hleft, hright]

/-- The compare-and-swap of a push that links a segment of its own. -/
theorem link_step (hg : G K F sh w) (hsee : Sees F (sh.link s (vs.take K)))
    (hl : PushL K F t sh w (.link k vs s)) (hn : sh.next s = none) :
    Kept K F t sh w (sh.link s (vs.take K))
      (.push (.linkTail (k + (vs.take K).length) (vs.drop K) s sh.segs)) := by
  obtain ⟨-, hp, hs, hK⟩ := hl
  have hK : K < sh.enq s := hK (by omega)
  have hlast := hg.chain.next_eq_none hs hn
  have hR : reserved K sh = sh.segs * K := reserved_of_full hlast hK
  have hlen : (vs.take K).length ≤ K := by
    rw [List.length_take]
    omega
  have hpend := hp.1
  rw [← List.take_append_drop K vs] at hpend
  obtain ⟨a, hsteps, hobj, hp', hoth⟩ := hpend.push_all
  rw [List.replicate_append_replicate] at hp'
  refine ⟨_, hsteps, hg.link hsee hlast hK hlen hobj fun u hu => hoth u ?_, ⟨⟨hp', hp.2⟩, ?_⟩, ?_⟩
  · rintro rfl
    exact hu hp.2
  · exact Nat.lt_succ_self _
  · refine ⟨Nat.le_succ _, le_rfl, fun _ => le_rfl, fun u => ?_, fun u n hu => ?_,
      fun s' j hj hst => ?_, fun _ _ => rfl, fun u hu _ => hoth u hu, fun s' j u hu hj ho => ?_⟩
    · by_cases hus : u = sh.segs
      · subst hus; rw [hg.chain.enq_gt _ le_rfl]; exact Nat.zero_le _
      · simp [Shared.link, hus]
    · have hus : u ≠ s := by
        rintro rfl
        rw [hn] at hu
        cases hu
      simpa [Shared.link, hus] using hu
    · obtain ⟨v, hv⟩ := Option.ne_none_iff_exists'.1 (hg.full_val s' j hj hst)
      have hlt := hg.val_lt _ v hv
      have hne : s' ≠ sh.segs := by
        rintro rfl
        omega
      simpa [Shared.link, hne] using hst
    · have hlt := hg.owner_lt _ _ ho
      have hne : s' ≠ sh.segs := by
        rintro rfl
        omega
      refine ⟨ho, if_neg (by omega), fun h => ?_⟩
      simpa [Shared.link, hne] using h

/-- Every step of `push_run` keeps the rule. -/
theorem push_step {sh' : Shared α} {l l' : PushLoc α} (hg : G K F sh w) (hsee : Sees F sh)
    (hsee' : Sees F sh') (hl : PushL K F t sh w l) (hs : pushStep K true sh l = some (sh', l')) :
    Kept K F t sh w sh' (.push l') := by
  cases l with
  | load k vs =>
    cases hs
    exact .same hg ⟨hl.1, hl.2, hg.chain.tail_lt⟩
  | check k vs s =>
    simp only [pushStep] at hs
    split_ifs at hs
    · cases hs; exact .same hg hl
    · cases hs; exact .same hg ⟨hl.1, hl.2.1, hg.chain.tail_lt⟩
  | reserve k vs s =>
    obtain ⟨hv, hp, hs'⟩ := hl
    simp only [pushStep] at hs
    split_ifs at hs with hi
    · cases hs; exact reserve_step hg hsee hv hp hs' hi
    · cases hs; exact reserve_past_step hg hv hp hs' hi
  | build k vs s j stop fin => cases hs; exact build_step hg hl
  | mark k vs s j stop fin =>
    simp only [pushStep, true_and] at hs
    split_ifs at hs with hst hj
    · cases hs; exact mark_fail_step hg hsee hl hst
    · cases hs; simpa only [if_pos hj] using mark_step hg hsee' hl
    · cases hs; simpa only [if_neg hj] using mark_step hg hsee' hl
  | takeBack k vs s j stop fin =>
    have hq : Filling K F sh w t k vs s j stop fin 0 := hl
    have hp : Pushing w t k vs := hq.pend
    have hv : vs ≠ [] := by
      rintro rfl
      have h1 : fin = j := hq.fin_eq
      have := hq.lt
      have := hq.stop_eq
      omega
    have hK : K < fin → K < sh.enq s := fun h => h.trans_le hq.enq
    simp only [pushStep] at hs
    split_ifs at hs
    · cases hs; exact takeBack_step hg hl ⟨hv, hp, hq.seg, hK⟩
    · cases hs; exact takeBack_step hg hl (PushL_afterFill hp hq.seg hK)
  | giveUp k vs s r stop fin =>
    obtain ⟨hv, hp, hseg, hK⟩ := hl
    simp only [pushStep] at hs
    by_cases hr : r + 1 < stop
    · rw [if_pos hr] at hs
      cases hs
      exact giveUp_step hg fun sh' h1 h2 => ⟨hv, hp, by rw [h1]; exact hseg, by rw [h2]; exact hK⟩
    · rw [if_neg hr] at hs
      cases hs
      exact giveUp_step hg fun sh' h1 h2 =>
        PushL_afterFill hp (by rw [h1]; exact hseg) (by rw [h2]; exact hK)
  | nextLoad k vs s spin =>
    simp only [pushStep] at hs
    split at hs
    · next n hn =>
      cases hs
      exact .same hg ⟨hl.2.1, (hg.chain.next_eq_some hn).2⟩
    · split_ifs at hs
      · cases hs; exact .same hg hl
      · cases hs; exact .same hg hl
  | link k vs s =>
    simp only [pushStep] at hs
    split at hs
    · next n hn =>
      cases hs
      exact .same hg ⟨hl.2.1, (hg.chain.next_eq_some hn).2⟩
    · next hn => cases hs; exact link_step hg hsee' hl hn
  | linkTail k vs s n | tailCas k vs s n =>
    cases hs
    exact casTail_step hg hl.2 fun _ _ => PushL_loop hl.1
  | done k => cases hs

end Push

end Wtc.Segment.Many
