import Wtc.Bounded.Cells

/-!
# The bounded ring is linearizable

Every operation takes effect where it takes its tickets. A refused push of the split layout was
refused at its read of `head`, an empty answer at the read of `tail`, and a size at the read of
`tail`; the later reads only tell the program so. A packed operation is refused where it reads the
word.
-/

namespace Wtc.Bounded

open Wtc.Concurrent

variable {α Tid : Type}

/-! ## Tickets held -/

theorem Loc.stamp_of_pushes {l : Loc α} (h : 0 < l.pushes) : ∃ st, l.stamp = some st := by
  cases l <;> simp_all [Loc.pushes, Loc.stamp]

theorem Loc.stamp_of_pops {l : Loc α} (h : 0 < l.pops) : ∃ st, l.stamp = some st := by
  cases l <;> simp_all [Loc.pops, Loc.stamp]

variable {n c p : Nat} {a : Atomic.State Tid (BoundedOp α) (BoundedAns α) (List α)}

section Near

variable {cfg : Cfg} {prod cons : Tid} {s : Config Tid (Shared α) (Loc α)} {w : Ghost Tid α}

/-- A push ticket that is still held is not long past. -/
theorem nearP (hl : ∀ u, L cfg prod cons u s.sh w (s.loc u)) (ht : Timely s) {u : Tid}
    (hn : w.holdP n = some u) : s.sh.pushed < n + (2 ^ 31 + 2 ^ 30) := by
  have hlu := hl u
  cases hloc : s.loc u with
  | none =>
    rw [hloc] at hlu
    have := (hlu.2.holdP n).mp hn
    omega
  | some l =>
    rw [hloc] at hlu
    obtain ⟨p, c, hh, hst, -⟩ := hlu
    have hn' := (hh.holdP n).mp hn
    obtain ⟨st, hst'⟩ := Loc.stamp_of_pushes (l := l) (by omega)
    have h1 := (hst st hst').1 (by omega)
    have h2 := (ht u l st hloc hst').1
    omega

/-- A pop ticket that is still held is not long past. -/
theorem nearC (hl : ∀ u, L cfg prod cons u s.sh w (s.loc u)) (ht : Timely s) {u : Tid}
    (hn : w.holdC n = some u) : s.sh.popped < n + (2 ^ 31 + 2 ^ 30) := by
  have hlu := hl u
  cases hloc : s.loc u with
  | none =>
    rw [hloc] at hlu
    have := (hlu.2.holdC n).mp hn
    omega
  | some l =>
    rw [hloc] at hlu
    obtain ⟨p, c, hh, hst, -⟩ := hlu
    have hn' := (hh.holdC n).mp hn
    obtain ⟨st, hst'⟩ := Loc.stamp_of_pops (l := l) (by omega)
    have h1 := (hst st hst').2 (by omega)
    have h2 := (ht u l st hloc hst').2
    omega

end Near

/-! ## What a step proves -/

section Base

variable {cfg : Cfg} {t : Tid} {sh : Shared α} {w : Ghost Tid α}

/-- The queue's length. -/
theorem G.length (hg : G cfg sh w) : w.abs.obj.length = sh.pushed - sh.popped := by
  rw [hg.queue, List.length_drop, hg.elems]

theorem G.setAbs (hg : G cfg sh w) (ha : a.obj = w.abs.obj) : G cfg sh { w with abs := a } :=
  { hg with
    cells := { hg.cells with }
    queue := ha.trans hg.queue
    split := fun h => { hg.split h with } }

/-- A thread without tickets. -/
theorem Holds.none {p' c' : Nat} {e e' f f' : Bool} (hh : Holds w t p 0 c 0 e e') :
    Holds w t p' 0 c' 0 f f' := by
  refine ⟨fun n => ?_, fun n => ?_, fun n hn => ?_, fun n hn => ?_⟩
  · have := hh.holdP n
    exact ⟨fun h => absurd (this.mp h) (by omega), fun h => absurd h (by omega)⟩
  · have := hh.holdC n
    exact ⟨fun h => absurd (this.mp h) (by omega), fun h => absurd h (by omega)⟩
  · exact absurd ((hh.holdP n).mp hn) (by omega)
  · exact absurd ((hh.holdC n).mp hn) (by omega)

end Base

section Steps

variable [DecidableEq Tid] {cfg : Cfg} {prod cons t : Tid} {sh : Shared α} {w : Ghost Tid α}

/-- The ghost moves along and everything is kept. -/
def Kept (cfg : Cfg) (prod cons t : Tid) (sh : Shared α) (w : Ghost Tid α)
    (r : Shared α × Loc α) : Prop :=
  ∃ w', carries (bounded α cfg.capacity) Ghost.abs w [] w' ∧ G cfg r.1 w' ∧
    L cfg prod cons t r.1 w' (some r.2) ∧ Rely cfg prod cons t sh w r.1 w'

/-- A step to a location without tickets that changes nothing but the open call. -/
theorem kept_free (hg : G cfg sh w) {e e' : Bool} {l : Loc α} (hh : Holds w t p 0 c 0 e e')
    (hl : l.pushes = 0 ∧ l.pops = 0) (hs : Atomic.Steps (bounded α cfg.capacity) w.abs a)
    (hobj : a.obj = w.abs.obj) (hpend : ∀ u, u ≠ t → a.pend u = w.abs.pend u)
    (hf : Facts cfg prod cons t sh { w with abs := a } 0 0 l) :
    Kept cfg prod cons t sh w (sh, l) := by
  refine ⟨{ w with abs := a }, .steps hs, hg.setAbs hobj, ⟨0, 0, ?_, ?_, hf⟩,
    { Rely.refl cfg prod cons t sh w with pend := hpend }⟩
  · rw [hl.1, hl.2]
    exact { (hh.none : Holds w t 0 0 0 0 _ _) with }
  · intro st _
    rw [hl.1, hl.2]
    exact ⟨fun h => absurd h (lt_irrefl _), fun h => absurd h (lt_irrefl _)⟩

/-- The same for a step that does not touch the open call either. -/
theorem kept_same (hg : G cfg sh w) {e e' : Bool} {l : Loc α} (hh : Holds w t p 0 c 0 e e')
    (hl : l.pushes = 0 ∧ l.pops = 0) (hf : Facts cfg prod cons t sh w 0 0 l) :
    Kept cfg prod cons t sh w (sh, l) :=
  kept_free hg hh hl .refl rfl (fun _ _ => rfl) hf

variable {ans : BoundedAns α} {vs got : List α} {k : Nat}

/-- An answer that leaves the queue as it is is given on the spot. -/
theorem kept_answer (hg : G cfg sh w) {e e' : Bool} {op : BoundedOp α}
    (hh : Holds w t p 0 c 0 e e') (hp : w.abs.Pend t [op] [])
    (hstep : boundedStep cfg.capacity w.abs.obj op = (ans, w.abs.obj)) :
    Kept cfg prod cons t sh w (sh, .done ans) :=
  kept_free hg hh ⟨rfl, rfl⟩ (hp.lin hstep) rfl (fun _ hu => w.abs.lin_pend_ne hu _ _ _)
    (w.abs.lin_pend_self _ _ _ _)

/-- The step that takes tickets: the operation takes effect. -/
theorem claim_step (prod cons : Tid) (hg : G cfg sh w) {b b' : Bool} (hh : Holds w t p 0 c 0 b b')
    {op : BoundedOp α} (hp : w.abs.Pend t [op] []) {nc : Nat} (hnc : sh.popped + nc ≤ sh.pushed)
    (hvs : sh.pushed + vs.length ≤ sh.popped + nc + cfg.capacity)
    (hstep : boundedStep cfg.capacity w.abs.obj op = (ans, w.abs.obj.drop nc ++ vs))
    (sh' : Shared α) (hseq : sh'.seq = sh.seq) (hraw : sh'.raw = sh.raw)
    (hpu : sh'.pushed = sh.pushed + vs.length) (hpo : sh'.popped = sh.popped + nc)
    (hstate : cfg.packed = true → sh'.state = pack (word sh'.popped) (word sh'.pushed))
    (hsplit : cfg.packed = false → Split sh' w) (hprod : cfg.mp = false → vs ≠ [] → t = prod)
    (hcons : cfg.mc = false → nc ≠ 0 → t = cons) :
    ∃ w', carries (bounded α cfg.capacity) Ghost.abs w [] w' ∧ G cfg sh' w' ∧
      Holds w' t sh.pushed vs.length sh.popped nc false false ∧
      w'.abs.Pend t [] [ans] ∧ w'.elems = w.elems ++ vs ∧
      Rely cfg prod cons t sh w sh' w' := by
  have hR := two_le_ringSize cfg
  have hcapR := capacity_le_ringSize cfg
  have hpl := hg.pushed_le
  have hcells := hg.cells.claim hR hg.popped_le (by omega) hg.elems t hseq hraw hpu hpo
  -- the thread holds no ticket, and nobody one of the new ones
  have hnoP : ∀ n, w.holdP n ≠ some t := fun n h => absurd ((hh.holdP n).mp h) (by omega)
  have hnoC : ∀ n, w.holdC n ≠ some t := fun n h => absurd ((hh.holdC n).mp h) (by omega)
  have hltP := fun n u hn => (hg.cells.heldP n u hn).1
  have hltC := fun n u hn => (hg.cells.heldC n u hn).1
  refine ⟨{ w.claim t sh vs nc with abs := w.abs.lin t [] [ans] (w.abs.obj.drop nc ++ vs) },
    .steps (hp.lin hstep), ?_, ?_, w.abs.lin_pend_self _ _ _ _, rfl, ?_⟩
  · refine ⟨{ hcells with }, by omega, by omega, ?_, ?_, hstate, fun h => { hsplit h with }⟩
    · show (w.elems ++ vs).length = sh'.pushed
      rw [List.length_append, hg.elems, hpu]
    · show w.abs.obj.drop nc ++ vs = (w.elems ++ vs).drop sh'.popped
      rw [hpo, hg.queue, List.drop_drop, List.drop_append_of_le_length
        (by rw [hg.elems]; exact hnc)]
  · refine ⟨fun n => taken_iff_self hnoP, fun n => taken_iff_self hnoC, fun n hn => ?_,
      fun n hn => ?_⟩
    · refine ⟨fun hb => ?_, fun h => absurd h.1 (by simp)⟩
      obtain ⟨u, hu⟩ := Option.ne_none_iff_exists'.mp (hg.cells.built_held n hb).1
      have := hltP n u hu
      have := (taken_iff_self hnoP).mp hn
      omega
    · refine ⟨fun hb => ?_, fun h => absurd h.1 (by simp)⟩
      obtain ⟨u, hu⟩ := Option.ne_none_iff_exists'.mp (hg.cells.gone_held n hb).1
      have := hltC n u hu
      have := (taken_iff_self hnoC).mp hn
      omega
  · refine ⟨fun u hu => w.abs.lin_pend_ne hu _ _ _, by omega, by omega,
      fun _ _ hu => taken_iff_of_ne hltP hu, fun _ _ hu => taken_iff_of_ne hltC hu,
      fun _ _ _ _ => rfl, fun _ _ _ _ => rfl, fun _ _ _ _ h => h, fun _ _ _ _ h => h,
      List.prefix_append _ _, Or.inl ⟨rfl, rfl⟩, ?_, ?_⟩
    · intro hm ht
      have : vs = [] := by
        by_contra hne
        exact ht (hprod hm hne)
      rw [hpu, this]
      rfl
    · intro hm ht
      have : nc = 0 := by
        by_contra hne
        exact ht (hcons hm hne)
      omega

/-! ## The cells -/

/-- A step of the holder of tickets that changes neither the cells nor the ghost. -/
theorem kept_holding (hg : G cfg sh w) {l l' : Loc α}
    (hh : Holds w t p l.pushes c l.pops l.building l.emptied)
    (hst : ∀ st, l.stamp = some st → (0 < l.pushes → st.pushed ≤ p + 2 ^ 30) ∧
      (0 < l.pops → st.popped ≤ c + 2 ^ 30))
    (he : l'.pushes = l.pushes ∧ l'.pops = l.pops ∧ l'.building = l.building ∧
      l'.emptied = l.emptied ∧ l'.stamp = l.stamp)
    (hf : Facts cfg prod cons t sh w p c l') : Kept cfg prod cons t sh w (sh, l') := by
  obtain ⟨e1, e2, e3, e4, e5⟩ := he
  refine ⟨w, .steps .refl, hg, ⟨p, c, ?_, ?_, hf⟩, .refl _ _ _ _ _ _⟩
  · rw [e1, e2, e3, e4]; exact hh
  · rw [e1, e2, e5]; exact hst

omit [DecidableEq Tid] in
theorem getElem?_of_cons_drop {l : List α} {v : α} (h : v :: vs <+: l.drop n) : l[n]? = some v := by
  obtain ⟨more, h⟩ := h
  have h0 : (l.drop n)[0]? = some v := by rw [← h]; rfl
  rwa [List.getElem?_drop, Nat.add_zero] at h0

omit [DecidableEq Tid] in
theorem prefix_drop_succ {l : List α} {v : α} (h : v :: vs <+: l.drop n) :
    vs <+: l.drop (n + 1) := by
  obtain ⟨more, h⟩ := h
  refine ⟨more, ?_⟩
  have h1 := congrArg List.tail h
  rwa [List.tail_drop] at h1

/-- The element of the first ticket is built in its cell. -/
theorem build_step (hg : G cfg sh w) {st : Stamp} {x : BitVec 32}
    (hl : L cfg prod cons t sh w (some (.build st x vs ans))) :
    Kept cfg prod cons t sh w (sh.setRaw (cfg.cell x) vs.head?, .publish st x vs ans) := by
  obtain ⟨p, c, hh, hst, ⟨hpend, rfl, hne, hpre⟩, hrs⟩ := hl
  obtain ⟨v, vs', rfl⟩ := List.exists_cons_of_ne_nil hne
  have hp : w.holdP p = some t := (hh.holdP p).mpr ⟨le_rfl, by simp [Loc.pushes]⟩
  have hR := two_le_ringSize cfg
  rw [cell_word]
  refine ⟨{ w with built := Function.update w.built p true }, .steps .refl, ?_, ?_, ?_⟩
  · exact { hg with
      cells := hg.cells.build hR hp hrs (getElem?_of_cons_drop hpre).symm
      split := fun h => { hg.split h with } }
  · refine ⟨p, c, ⟨hh.holdP, hh.holdC, ?_, hh.gone⟩, hst, ⟨hpend, rfl, hne, hpre⟩, hrs⟩
    intro n hn
    show Function.update w.built p true n = true ↔ true = true ∧ n = p
    by_cases hnp : n = p
    · subst hnp; simp
    · rw [Function.update_of_ne hnp]
      exact ⟨fun hb => absurd ((hh.built n hn).mp hb).1 Bool.false_ne_true,
        fun h => absurd h.2 hnp⟩
  · refine { Rely.refl cfg prod cons t sh w with built := ?_ }
    exact fun n u hu hn => Function.update_of_ne (ne_of_holds hp hu hn) _ _

/-- The element of the first ticket is announced. -/
theorem publish_step (hg : G cfg sh w) {st : Stamp} {x : BitVec 32}
    (hl : L cfg prod cons t sh w (some (.publish st x vs ans))) :
    Kept cfg prod cons t sh w (sh.setSeq (cfg.cell x) (x + 1), nextFill st x ans vs.tail) := by
  obtain ⟨p, c, hh, hst, ⟨hpend, rfl, hne, hpre⟩, hrs⟩ := hl
  obtain ⟨v, vs', rfl⟩ := List.exists_cons_of_ne_nil hne
  have hp : w.holdP p = some t := (hh.holdP p).mpr ⟨le_rfl, by simp [Loc.pushes]⟩
  have hb : w.built p = true := (hh.built p hp).mpr ⟨rfl, rfl⟩
  have hR := two_le_ringSize cfg
  rw [cell_word, ← word_succ]
  have hholds : Holds { w with
      rs := Function.update w.rs (p % ringSize cfg.capacity) (p + 1)
      holdP := Function.update w.holdP p none
      built := Function.update w.built p false } t (p + 1) vs'.length c 0 false false := by
    exact ⟨fun n => given_iff_self hh.holdP, hh.holdC, fun n hn => given_mark hh.built hn, hh.gone⟩
  refine ⟨{ w with
      rs := Function.update w.rs (p % ringSize cfg.capacity) (p + 1)
      holdP := Function.update w.holdP p none
      built := Function.update w.built p false }, .steps .refl, ?_, ?_, ?_⟩
  · exact { hg with
      cells := hg.cells.publish hR hp hrs hb
      split := fun h => { hg.split h with } }
  · cases vs' with
    | nil =>
      exact ⟨p + 1, c, hholds, (fun st h => by cases h), hpend⟩
    | cons v' vs' =>
      refine ⟨p + 1, c, hholds, fun st' h => ?_, hpend, (word_succ p).symm, by simp,
        prefix_drop_succ hpre⟩
      have := (hst st' h).1 (by simp [Loc.pushes])
      exact ⟨fun _ => by omega, fun h => absurd h (lt_irrefl _)⟩
  · refine { Rely.refl cfg prod cons t sh w with holdP := ?_, built := ?_, rsP := ?_, rsC := ?_ }
    · exact fun n u hu => given_iff_of_ne hp hu
    · exact fun n u hu hn => Function.update_of_ne (ne_of_holds hp hu hn) _ _
    · intro n u hu hn hrn
      refine Eq.trans (Function.update_of_ne ?_ _ _) hrn
      intro hmod
      rw [hmod, hrs] at hrn
      exact ne_of_holds hp hu hn hrn.symm
    · intro n u hu hn hrn
      refine Eq.trans (Function.update_of_ne ?_ _ _) hrn
      intro hmod
      rw [hmod, hrs] at hrn
      have := le_of_mod_eq hmod.symm (by omega : p < n + ringSize cfg.capacity)
      omega

/-- The element of the first ticket is destroyed. -/
theorem destroy_step (hg : G cfg sh w) {st : Stamp} {x : BitVec 32} {e : Then α}
    (hl : L cfg prod cons t sh w (some (.destroy st x k got e))) :
    Kept cfg prod cons t sh w (sh.setRaw (cfg.cell x) none, .release st x k got e) := by
  obtain ⟨p, c, hh, hst, ⟨rfl, hown, xs, hk, hpre, hpend⟩, hrs⟩ := hl
  have hc : w.holdC c = some t := (hh.holdC c).mpr ⟨le_rfl, by simp only [Loc.pops]; omega⟩
  have hR := two_le_ringSize cfg
  rw [cell_word]
  refine ⟨{ w with gone := Function.update w.gone c true }, .steps .refl, ?_, ?_, ?_⟩
  · exact { hg with
      cells := hg.cells.destroy hR hc hrs
      split := fun h => { hg.split h with } }
  · refine ⟨p, c, ⟨?_, hh.holdC, ?_, ?_⟩, ?_, ⟨rfl, ?_, xs, hk, hpre, hpend⟩, hrs⟩
    · cases e <;> exact hh.holdP
    · intro n hn
      exact hh.built n hn
    · intro n hn
      show Function.update w.gone c true n = true ↔ true = true ∧ n = c
      by_cases hnc : n = c
      · subst hnc; simp
      · rw [Function.update_of_ne hnc]
        exact ⟨fun hb => absurd ((hh.gone n hn).mp hb).1 Bool.false_ne_true,
          fun h => absurd h.2 hnc⟩
    · cases e <;> exact hst
    · cases e <;> exact hown
  · refine { Rely.refl cfg prod cons t sh w with gone := ?_ }
    exact fun n u hu hn => Function.update_of_ne (ne_of_holds hc hu hn) _ _

/-- The cell of the first ticket is given back. -/
theorem release_step (hg : G cfg sh w) {st : Stamp} {x : BitVec 32} {e : Then α}
    (hl : L cfg prod cons t sh w (some (.release st x k got e))) :
    Kept cfg prod cons t sh w
      (sh.setSeq (cfg.cell x) (x + cfg.mask + 1), nextTake st x got e (k - 1)) := by
  obtain ⟨p, c, hh, hst, ⟨rfl, hown, xs, hk, hpre, hpend⟩, hrs⟩ := hl
  have hc : w.holdC c = some t := (hh.holdC c).mpr ⟨le_rfl, by simp only [Loc.pops]; omega⟩
  have hgone : w.gone c = true := (hh.gone c hc).mpr ⟨rfl, rfl⟩
  have hR := two_le_ringSize cfg
  rw [cell_word, word_next_lap]
  obtain ⟨np, hnp⟩ : ∃ np, (Loc.release st (word c) k got e).pushes = np := ⟨_, rfl⟩
  have hholds : Holds { w with
      rs := Function.update w.rs (c % ringSize cfg.capacity) (c + ringSize cfg.capacity)
      holdC := Function.update w.holdC c none
      gone := Function.update w.gone c false } t p np (c + 1) (k - 1) false false := by
    refine ⟨fun n => hnp ▸ hh.holdP n, fun n => given_iff_self fun n => ?_, hh.built,
      fun n hn => given_mark hh.gone hn⟩
    rw [hh.holdC n, show (Loc.release st (word c) k got e).pops = k - 1 + 1 by
      simp only [Loc.pops]; omega]
  refine ⟨{ w with
      rs := Function.update w.rs (c % ringSize cfg.capacity) (c + ringSize cfg.capacity)
      holdC := Function.update w.holdC c none
      gone := Function.update w.gone c false }, .steps .refl, ?_, ?_, ?_⟩
  · exact { hg with
      cells := hg.cells.release hR hc hrs hgone
      split := fun h => { hg.split h with } }
  · cases xs with
    | nil =>
      obtain rfl : k = 1 := by simpa using hk.symm
      rw [List.append_nil] at hpend
      cases e with
      | one | batch =>
        obtain rfl : 0 = np := hnp
        exact ⟨p, c + 1, hholds, (fun st h => by cases h), hpend⟩
      | overrun y v =>
        obtain rfl : 1 = np := hnp
        refine ⟨p, c + 1, hholds, fun st' h => ?_, hpend, hown.1, by simp, hown.2⟩
        exact ⟨fun _ => (hst st' h).1 (by simp [Loc.pushes]), fun h => absurd h (lt_irrefl _)⟩
    | cons y ys =>
      obtain ⟨k', rfl⟩ : ∃ k', k = k' + 2 := ⟨ys.length, by simpa using hk.symm⟩
      have hpushes : (Loc.take st (word c + 1) (k' + 1) got e).pushes = np := by
        cases e <;> exact hnp
      refine ⟨p, c + 1, ?_, fun st' h => ⟨fun h' => ?_, fun _ => ?_⟩, (word_succ c).symm, ?_,
        y, ys, by simpa using hk, hpre, hpend⟩
      · rw [show (nextTake st (word c) got e (k' + 2 - 1)).pushes = np from hpushes]
        exact hholds
      · refine (hst st' h).1 ?_
        rw [hnp, ← hpushes]
        exact h'
      · have := (hst st' h).2 (by simp [Loc.pops])
        omega
      · cases e <;> exact hown
  · refine { Rely.refl cfg prod cons t sh w with holdC := ?_, gone := ?_, rsP := ?_, rsC := ?_ }
    · exact fun n u hu => given_iff_of_ne hc hu
    · exact fun n u hu hn => Function.update_of_ne (ne_of_holds hc hu hn) _ _
    · intro n u hu hn hrn
      refine Eq.trans (Function.update_of_ne ?_ _ _) hrn
      intro hmod
      rw [hmod, hrs] at hrn
      have := le_of_mod_eq hmod (by omega : n < c + ringSize cfg.capacity)
      omega
    · intro n u hu hn hrn
      refine Eq.trans (Function.update_of_ne ?_ _ _) hrn
      intro hmod
      rw [hmod, hrs] at hrn
      exact ne_of_holds hc hu hn (by omega)

end Steps

end Wtc.Bounded
