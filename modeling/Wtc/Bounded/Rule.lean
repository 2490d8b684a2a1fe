import Wtc.Bounded.Packed

/-!
# The proof of the bounded ring

All the steps together, for both layouts.
-/

namespace Wtc.Bounded

open Wtc.Concurrent

variable {α Tid : Type} [DecidableEq Tid] {cfg : Cfg} {prod cons t : Tid}

/-! ## Waiting for a cell -/

section Wait

variable {s : Config Tid (Shared α) (Loc α)} {w : Ghost Tid α}

theorem fill_step (hg : G cfg s.sh w) (hl : ∀ u, L cfg prod cons u s.sh w (s.loc u))
    (ht : Timely s) {st : Stamp} {x : BitVec 32} {vs : List α} {ans : BoundedAns α}
    (hlt : L cfg prod cons t s.sh w (some (.fill st x vs ans))) :
    Kept cfg prod cons t s.sh w (s.sh,
      if s.sh.seq (cfg.cell x) = x then .build st x vs ans else .fill st x vs ans) := by
  obtain ⟨p, c, hh, hst, hf⟩ := hlt
  split
  · next hseq =>
    obtain ⟨-, rfl, hne, -⟩ := id hf
    have hp : w.holdP p = some t :=
      (hh.holdP p).mpr ⟨le_rfl, Nat.lt_add_of_pos_right (List.length_pos_iff.mpr hne)⟩
    have hcap := capacity_le_ringSize cfg
    have hle := hg.pushed_le
    rw [cell_word] at hseq
    have hrs := hg.cells.eq_of_seqP (fun _ _ => nearP hl ht) (fun _ _ => nearC hl ht)
      (two_le_ringSize cfg) (ringSize_le cfg) (by omega) hp hseq
    exact kept_holding hg hh hst ⟨rfl, rfl, rfl, rfl, rfl⟩ ⟨hf, hrs⟩
  · exact kept_holding hg hh hst ⟨rfl, rfl, rfl, rfl, rfl⟩ hf

theorem take_step (hg : G cfg s.sh w) (hl : ∀ u, L cfg prod cons u s.sh w (s.loc u))
    (ht : Timely s) {st : Stamp} {x : BitVec 32} {k : Nat} {got : List α} {e : Then α}
    (hlt : L cfg prod cons t s.sh w (some (.take st x k got e))) :
    Kept cfg prod cons t s.sh w (s.sh,
      if s.sh.seq (cfg.cell x) = x + 1 then .read st x k got e else .take st x k got e) := by
  obtain ⟨p, c, hh, hst, hf⟩ := hlt
  split
  · next hseq =>
    obtain ⟨rfl, -, y, ys, hk, -⟩ := id hf
    have hc : w.holdC c = some t :=
      (hh.holdC c).mpr ⟨le_rfl, Nat.lt_add_of_pos_right (by simp only [Loc.pops]; omega)⟩
    rw [cell_word, ← word_succ] at hseq
    have hrs := hg.cells.eq_of_seqC (fun _ _ => nearP hl ht) (fun _ _ => nearC hl ht)
      (two_le_ringSize cfg) hg.popped_le hc hseq
    refine kept_holding hg hh hst ⟨?_, rfl, rfl, rfl, rfl⟩ ⟨hf, hrs⟩
    cases e <;> rfl
  · exact kept_holding hg hh hst ⟨rfl, rfl, rfl, rfl, rfl⟩ hf

end Wait

section Step

variable {sh : Shared α} {w : Ghost Tid α}

omit [DecidableEq Tid] in
/-- The cell of a pop about to read holds its element. -/
theorem read_raw (hg : G cfg sh w) {st : Stamp} {x : BitVec 32} {k : Nat} {got : List α}
    {e : Then α} (hl : L cfg prod cons t sh w (some (.read st x k got e))) :
    ∃ p c v, Holds w t p (Loc.read st x k got e).pushes c k false false ∧ x = word c ∧
      w.elems[c]? = some v ∧ sh.raw (cfg.cell x) = some v ∧ Taken w t x k (got ++ [v]) e p c := by
  obtain ⟨p, c, hh, -, ⟨rfl, hown, y, ys, hk, hpre, hpend⟩, hrs⟩ := hl
  have hc : w.holdC c = some t :=
    (hh.holdC c).mpr ⟨le_rfl, Nat.lt_add_of_pos_right (by simp only [Loc.pops]; omega)⟩
  have hgone : ¬ w.gone c = true :=
    fun h => absurd ((hh.gone c hc).mp h).1 Bool.false_ne_true
  have hy := getElem?_of_cons_drop hpre
  refine ⟨p, c, y, hh, rfl, hy, ?_, rfl, hown, ys, hk, prefix_drop_succ hpre, ?_⟩
  · rw [cell_word, hg.cells.full c hrs, if_neg hgone, hy]
  · rwa [List.append_assoc]

theorem read_step (hg : G cfg sh w) {b : Bool} {st : Stamp} {x : BitVec 32} {k : Nat}
    {got : List α} {e : Then α} {r : Shared α × Loc α}
    (hl : L cfg prod cons t sh w (some (.read st x k got e)))
    (hs : step cfg b sh (.read st x k got e) = some r) : Kept cfg prod cons t sh w r := by
  obtain ⟨p', c', hh', hst, -, hrs⟩ := id hl
  obtain ⟨p, c, v, hh, hx, -, hraw, htaken⟩ := read_raw hg hl
  simp only [step, hraw, Option.map_some, Option.some.injEq] at hs
  subst hs
  -- the two descriptions of the tickets held agree
  have hk : 0 < k := by
    obtain ⟨-, -, xs, hk, -⟩ := htaken
    omega
  have hcc : c' = c := by
    have h1 := (hh.holdC c').mp ((hh'.holdC c').mpr ⟨le_rfl, Nat.lt_add_of_pos_right hk⟩)
    have h2 := (hh'.holdC c).mp ((hh.holdC c).mpr ⟨le_rfl, Nat.lt_add_of_pos_right hk⟩)
    omega
  subst hcc
  have hpp : 0 < (Loc.read st x k got e).pushes → p' = p := by
    intro hpos
    have h1 := (hh.holdP p').mp ((hh'.holdP p').mpr ⟨le_rfl, Nat.lt_add_of_pos_right hpos⟩)
    have h2 := (hh'.holdP p).mp ((hh.holdP p).mpr ⟨le_rfl, Nat.lt_add_of_pos_right hpos⟩)
    omega
  refine kept_holding hg (l := .read st x k got e) hh ?_ ⟨?_, rfl, rfl, rfl, rfl⟩ ⟨htaken, hrs⟩
  · intro st' h
    exact ⟨fun hpos => hpp hpos ▸ (hst st' h).1 hpos, (hst st' h).2⟩
  · cases e <;> rfl

theorem count_step (hg : G cfg sh w) {st : Stamp} {x : BitVec 32} {v : α}
    (hl : L cfg prod cons t sh w (some (.count st x v))) :
    Kept cfg prod cons t sh w
      ({ sh with overruns := sh.overruns + 1 }, .fill st x [v] (.overran true)) := by
  obtain ⟨p, c, hh, hst, hf⟩ := hl
  exact ⟨w, .steps .refl,
    { hg with cells := { hg.cells with }, split := fun h => { hg.split h with } },
    ⟨p, c, hh, hst, hf⟩, { Rely.refl cfg prod cons t sh w with }⟩

theorem drop_step (hg : G cfg sh w) (hl : L cfg prod cons t sh w (some .drop)) :
    Kept cfg prod cons t sh w
      ({ sh with overruns := sh.overruns + 1 }, .done (.overran true)) := by
  obtain ⟨p, c, hh, -, hcap, v, hp⟩ := hl
  have hstep : boundedStep cfg.capacity w.abs.obj (.overrun v) = (.overran true, w.abs.obj) :=
    if_pos hcap
  obtain ⟨w', hT, hG, ⟨p', c', h1, h2, h3⟩, hR⟩ : Kept cfg prod cons t sh w (sh, .done _) :=
    kept_answer hg hh hp hstep
  exact ⟨w', hT,
    { hG with cells := { hG.cells with }, split := fun h => { hG.split h with } },
    ⟨p', c', h1, h2, h3⟩, { hR with }⟩

end Step

/-- Every step keeps everything. -/
theorem any_step {s : Config Tid (Shared α) (Loc α)} {w : Ghost Tid α} (hg : G cfg s.sh w)
    (hl : ∀ u, L cfg prod cons u s.sh w (s.loc u)) (ht : Timely s) {l : Loc α} {b : Bool}
    {r : Shared α × Loc α} (hloc : s.loc t = some l) (hs : step cfg b s.sh l = some r) :
    Kept cfg prod cons t s.sh w r := by
  have hlt := hl t
  rw [hloc] at hlt
  have hrec : Recent s.sh l := fun st hst => ht t l st hloc hst
  cases l with
  | pushTail v first =>
    obtain rfl := Option.some.inj hs
    obtain ⟨p, c, hh, -, hp, hpast, hpk, hsingle⟩ := hlt
    exact kept_same hg hh ⟨rfl, rfl⟩ ⟨hp, s.sh.pushed, (hg.split hpk).tail, hpast.getD.1, le_rfl,
      hpk, fun hm => ⟨hsingle hm, rfl⟩, hpast.getD.2⟩
  | pushHead v st x =>
    obtain rfl := Option.some.inj hs
    exact pushHead_step hg hlt
  | pushAgain v st x =>
    obtain rfl := Option.some.inj hs
    exact pushAgain_step hg hrec hlt
  | pushClaim v st x => exact pushClaim_step hg hrec hlt hs
  | popHead first =>
    obtain rfl := Option.some.inj hs
    obtain ⟨p, c, hh, -, hp, hpast, hpk, hsingle⟩ := hlt
    exact kept_same hg hh ⟨rfl, rfl⟩ ⟨hp, s.sh.popped, ⟨(hg.split hpk).head, hpast.getD.2, le_rfl,
      hpast.getD.1⟩, hpk, fun hm => ⟨hsingle hm, rfl⟩⟩
  | popSeen st x =>
    obtain rfl := Option.some.inj hs
    exact popSeen_step hg hlt
  | popTail st x =>
    obtain rfl := Option.some.inj hs
    exact popTail_step hg hrec hlt
  | popStore st x y =>
    obtain rfl := Option.some.inj hs
    exact popStore_step hg hrec hlt
  | popClaim st x => exact popClaim_step hg hrec hlt hs
  | sizeHead first =>
    obtain rfl := Option.some.inj hs
    obtain ⟨p, c, hh, -, hp, hpast, hpk⟩ := hlt
    exact kept_same hg hh ⟨rfl, rfl⟩ ⟨hp, hpk, s.sh.popped, (hg.split hpk).head, hpast.getD.2,
      le_rfl, hpast.getD.1⟩
  | sizeTail st x =>
    obtain rfl := Option.some.inj hs
    exact sizeTail_step hg hlt
  | sizeAgain st x y =>
    obtain rfl := Option.some.inj hs
    exact sizeAgain_step hg hrec hlt
  | load op =>
    obtain rfl := Option.some.inj hs
    obtain ⟨p, c, hh, -, hp, hpk, hr, ha⟩ := hlt
    exact attempt_step hg hh hp hpk hr ha
  | swap op x => exact swap_step hg hlt hs
  | fill st x vs ans =>
    obtain rfl := Option.some.inj hs
    exact fill_step hg hl ht hlt
  | build st x vs ans =>
    obtain rfl := Option.some.inj hs
    exact build_step hg hlt
  | publish st x vs ans =>
    obtain rfl := Option.some.inj hs
    exact publish_step hg hlt
  | take st x k got e =>
    obtain rfl := Option.some.inj hs
    exact take_step hg hl ht hlt
  | read st x k got e => exact read_step hg hlt hs
  | destroy st x k got e =>
    obtain rfl := Option.some.inj hs
    exact destroy_step hg hlt
  | release st x k got e =>
    obtain rfl := Option.some.inj hs
    exact release_step hg hlt
  | count st x v =>
    obtain rfl := Option.some.inj hs
    exact count_step hg hlt
  | drop =>
    obtain rfl := Option.some.inj hs
    exact drop_step hg hlt
  | nothing ans =>
    obtain rfl := Option.some.inj hs
    obtain ⟨p, c, hh, -, op, hp, hstep⟩ := hlt
    have hle : w.abs.obj.length ≤ cfg.capacity := by
      have := hg.pushed_le
      rw [hg.length]
      omega
    exact kept_answer hg hh hp (hstep _ hle)
  | abort | done ans => cases hs

/-- A call finds nothing held and goes to its first location. -/
theorem L.call {sh : Shared α} {w : Ghost Tid α} (hl : L cfg prod cons t sh w none) {c : Call α}
    (ha : c.allowed cfg prod cons t) :
    L cfg prod cons t sh { w with abs := w.abs.set t (some (.new [c.op])) }
      (some (start cfg c)) := by
  obtain ⟨-, hh⟩ := hl
  have hnew : (w.abs.set t (some (.new [c.op]))).Pend t [c.op] [] :=
    ⟨_, Atomic.State.set_pend_self _ _ _⟩
  -- a location without tickets and without a stamp
  have free : ∀ {l : Loc α}, l.pushes = 0 → l.pops = 0 → l.stamp = none →
      Facts cfg prod cons t sh { w with abs := w.abs.set t (some (.new [c.op])) } 0 0 l →
      L cfg prod cons t sh { w with abs := w.abs.set t (some (.new [c.op])) } (some l) := by
    intro l h1 h2 h3 hf
    refine ⟨0, 0, ?_, (fun st hst => by rw [h3] at hst; cases hst), hf⟩
    rw [h1, h2]
    exact { (hh.none : Holds w t 0 0 0 0 _ _) with }
  have past : Past sh none := fun st h => by cases h
  cases c with
  | tryPush v | consume =>
    simp only [start]
    split
    · next hpk => exact free rfl rfl rfl ⟨hnew, hpk, trivial, ha⟩
    · next hpk =>
      refine free rfl rfl rfl ⟨hnew, past, by simpa using hpk, fun hm => ?_⟩
      exact ha.resolve_left (by rw [hm]; simp)
  | pushOverrun v =>
    simp only [start]
    split
    · exact free rfl rfl rfl trivial
    · next ho =>
      have ho' : cfg.overrun = true := by simpa using ho
      split
      · next hcap => exact free rfl rfl rfl ⟨hcap, v, hnew⟩
      · next hcap =>
        exact free rfl rfl rfl ⟨hnew, by rw [Cfg.packed, ho']; rfl, ⟨hcap, ho'⟩, ha⟩
  | tryPushN vs =>
    simp only [start]
    split
    · exact free rfl rfl rfl trivial
    · next hpk =>
      split
      · next hnil =>
        obtain rfl : vs = [] := List.isEmpty_iff.mp hnil
        exact free rfl rfl rfl ⟨_, hnew, fun q _ => by simp [Call.op, boundedStep]⟩
      · next hne =>
        exact free rfl rfl rfl ⟨hnew, by simpa using hpk, fun h => hne (by rw [h]; rfl), ha⟩
  | consumeN n =>
    simp only [start]
    split
    · exact free rfl rfl rfl trivial
    · next hpk =>
      split
      · next hnil =>
        subst hnil
        exact free rfl rfl rfl ⟨_, hnew, fun q _ => by simp [Call.op, boundedStep]⟩
      · next hne => exact free rfl rfl rfl ⟨hnew, by simpa using hpk, hne, ha⟩
  | size =>
    simp only [start]
    split
    · next hpk => exact free rfl rfl rfl ⟨hnew, hpk, trivial, trivial⟩
    · next hpk => exact free rfl rfl rfl ⟨hnew, past, by simpa using hpk⟩

omit [DecidableEq Tid] in
theorem G.init (cfg : Cfg) : G cfg (.init : Shared α) (.init cfg.capacity : Ghost Tid α) := by
  have hR := two_le_ringSize cfg
  refine ⟨⟨fun _ _ => rfl, ?_, ?_, ?_, ?_, ?_, ?_, ?_, ?_, ?_, ?_, ?_⟩, le_rfl, Nat.zero_le _, rfl,
    rfl, fun _ => (by decide : (0 : BitVec 64) = pack (word 0) (word 0)),
      fun _ => ⟨rfl, rfl, rfl, le_rfl, le_rfl, by simp [Ghost.init],
      Or.inl (Nat.zero_le _)⟩⟩
  · intro j hj
    exact ⟨j, Nat.mod_eq_of_lt hj, Or.inl rfl⟩
  · intro n hn
    change n % ringSize cfg.capacity = n at hn
    have := Nat.mod_lt n (by omega : 0 < ringSize cfg.capacity)
    show n < 0 + _
    omega
  · intro n hn
    change n % ringSize cfg.capacity = n + 1 at hn
    have := Nat.mod_le n (ringSize cfg.capacity)
    omega
  · intro n u h
    cases h
  · intro n u h
    cases h
  · intro n h
    exact absurd h (Nat.not_lt_zero n)
  · intro n h
    exact absurd h (Nat.not_lt_zero n)
  · intro n _
    rfl
  · intro n hn
    change n % ringSize cfg.capacity = n + 1 at hn
    have := Nat.mod_le n (ringSize cfg.capacity)
    omega
  · intro n h
    cases h
  · intro n h
    cases h

/-- The proof of the queue. -/
def rule (cfg : Cfg) (prod cons : Tid) :
    Rule (machine cfg prod cons) Timely (carries (bounded α cfg.capacity) Ghost.abs) where
  w₀ := .init cfg.capacity
  G := G cfg
  L := L cfg prod cons
  rely := Rely cfg prod cons
  init := by
    refine ⟨G.init cfg, fun t => ⟨rfl, ⟨fun n => ?_, fun n => ?_, ?_, ?_⟩⟩⟩
    · exact ⟨nofun, fun h => absurd h (by omega)⟩
    · exact ⟨nofun, fun h => absurd h (by omega)⟩
    · intro n h
      cases h
    · intro n h
      cases h
  call := by
    intro s w t c hg hl _ hloc hm
    have hlt := hl t
    rw [hloc] at hlt
    exact ⟨{ w with abs := w.abs.set t (some (.new [c.op])) }, .call hlt.1 _, hg.setAbs rfl,
      hlt.call hm, { Rely.refl cfg prod cons t s.sh w with
        pend := fun u hu => Atomic.State.set_pend_ne _ hu _ }⟩
  step := fun hg hl ht _ hloc _ hs => any_step hg hl ht hloc hs
  ret := by
    intro s w t l ans hg hl _ hloc ha
    have hlt := hl t
    rw [hloc] at hlt
    cases l <;> simp only [machine, answer, Option.some.injEq, reduceCtorEq] at ha
    subst ha
    obtain ⟨p, c, hh, -, seen, hp⟩ := hlt
    exact ⟨{ w with abs := w.abs.set t none }, .ret .refl hp, hg.setAbs rfl,
      ⟨Atomic.State.set_pend_self _ _ _, { (hh.none : Holds w t 0 0 0 0 _ _) with }⟩,
      { Rely.refl cfg prod cons t s.sh w with
        pend := fun u hu => Atomic.State.set_pend_ne _ hu _ }⟩
  stable := fun hu _ _ hl hr => hl.stable hu hr

end Wtc.Bounded
