import Wtc.Bounded.Linear

/-!
# The split layout

The steps of `try_push`, `consume` and `size` when `head` and `tail` are separate words.

A push reads `tail` and then `head`. It is refused only if a third read finds `tail` where it was,
and then `tail` stood there while `head` was read. A pop reads `head` and then decides by
`tail_seen_`, which may be an old value of `tail`; it is never half a turn behind `head`, since a
pop that finds it behind writes it anew, and at most one pop that has not done so comes in between.
-/

namespace Wtc.Bounded

open Wtc.Concurrent

variable {α Tid : Type} [DecidableEq Tid] {cfg : Cfg} {prod cons t : Tid} {sh : Shared α}
  {w : Ghost Tid α}

/-- No half turn of tickets since the stamp. -/
def Recent (sh : Shared α) (l : Loc α) : Prop :=
  ∀ st, l.stamp = some st → sh.pushed < st.pushed + 2 ^ 31 ∧ sh.popped < st.popped + 2 ^ 31

omit [DecidableEq Tid] in
theorem Past.getD {first : Option Stamp} (h : Past sh first) :
    (first.getD sh.stamp).pushed ≤ sh.pushed ∧ (first.getD sh.stamp).popped ≤ sh.popped := by
  cases first with
  | none => exact ⟨le_rfl, le_rfl⟩
  | some st => exact h st rfl

variable {st : Stamp} {x y : BitVec 32}

omit [DecidableEq Tid] in
theorem past_some (h1 : st.pushed ≤ sh.pushed) (h2 : st.popped ≤ sh.popped) :
    Past sh (some st) := by
  rintro _ ⟨⟩
  exact ⟨h1, h2⟩

/-- The capacity compared with the difference of two words. -/
theorem cap_le_word_sub {a b : Nat} (hle : b ≤ a) (hlt : a < b + 2 ^ 32) :
    word a - word b ≥ cfg.cap ↔ cfg.capacity ≤ a - b := by
  have hcap := cfg.capacity_le
  rw [ge_iff_le, BitVec.le_def, word_sub_toNat hle hlt, Cfg.cap, word_toNat,
    Nat.mod_eq_of_lt (by omega)]

/-! ## `try_push` -/

section

variable (hg : G cfg sh w)
include hg

theorem pushHead_step {v : α} (hl : L cfg prod cons t sh w (some (.pushHead v st x))) :
    Kept cfg prod cons t sh w
      (sh, if x - sh.head ≥ cfg.cap then .pushAgain v st x else .pushClaim v st x) := by
  obtain ⟨p, c, hh, -, hpend, n, hread⟩ := hl
  obtain ⟨rfl, -, hn, hpk, -⟩ := id hread
  have hcap := cfg.capacity_le
  have h1 := hg.popped_le
  have h2 := hg.pushed_le
  rw [(hg.split hpk).head]
  split
  · next hfull =>
    by_cases heq : sh.pushed = n
    · -- the queue is full now
      subst heq
      rw [cap_le_word_sub h1 (by omega), ← hg.length] at hfull
      have hstep : boundedStep cfg.capacity w.abs.obj (.push v) = (.pushed false, w.abs.obj) :=
        if_pos (by have := hg.length; omega)
      obtain ⟨a, hs, hobj, hothers, seen, hseen, hans⟩ :=
        hpend.see (O := bounded α cfg.capacity) hstep
      exact kept_free hg hh ⟨rfl, rfl⟩ hs hobj hothers ⟨_, seen, hseen, hread, fun _ => hans⟩
    · obtain ⟨seen, hseen⟩ := hpend
      exact kept_same hg hh ⟨rfl, rfl⟩ ⟨n, seen, hseen, hread, fun h => absurd h heq⟩
  · next hroom =>
    refine kept_same hg hh ⟨rfl, rfl⟩ ⟨hpend, n, hread, fun heq => ?_⟩
    subst heq
    rw [cap_le_word_sub h1 (by omega)] at hroom
    omega

theorem pushAgain_step {v : α} (hrec : Recent sh (.pushAgain v st x))
    (hl : L cfg prod cons t sh w (some (.pushAgain v st x))) :
    Kept cfg prod cons t sh w
      (sh, if sh.tail = x then .done (.pushed false) else .pushTail v (some st)) := by
  obtain ⟨p, c, hh, -, n, seen, hseen, ⟨rfl, hst, hn, hpk, hsingle, hst'⟩, hans⟩ := hl
  have hlt := (hrec st rfl).1
  rw [(hg.split hpk).tail]
  split
  · next heq =>
    -- `tail` has stood there since the first read
    have hpn : n = sh.pushed := word_inj hn (by omega) heq.symm
    exact kept_free hg hh ⟨rfl, rfl⟩ (Atomic.Steps.settle hseen (hans hpn.symm)) rfl
      (fun _ hu => w.abs.lin_pend_ne hu _ _ _) (w.abs.lin_pend_self _ _ _ _)
  · exact kept_same hg hh ⟨rfl, rfl⟩ ⟨⟨seen, hseen⟩, past_some (hst.trans hn) hst', hpk,
      fun hm => (hsingle hm).1⟩

theorem pushClaim_step {b : Bool} {v : α} {r : Shared α × Loc α}
    (hrec : Recent sh (.pushClaim v st x))
    (hl : L cfg prod cons t sh w (some (.pushClaim v st x)))
    (hs : step cfg b sh (.pushClaim v st x) = some r) : Kept cfg prod cons t sh w r := by
  obtain ⟨p, c, hh, -, hpend, n, ⟨rfl, hst, hn, hpk, hsingle, hst'⟩, hroom⟩ := hl
  have hlt := (hrec st rfl).1
  have hcap := cfg.capacity_le
  simp only [step] at hs
  split at hs
  · next hc =>
    obtain rfl := Option.some.inj hs
    -- the ticket is the next one
    obtain rfl : n = sh.pushed := by
      rcases hc with hm | ⟨-, heq⟩
      · exact (hsingle hm).2
      · rw [(hg.split hpk).tail] at heq
        exact word_inj hn (by omega) heq.symm
    have hlen := hg.length
    have hle := hg.popped_le
    have hroom := hroom rfl
    have hstep : boundedStep cfg.capacity w.abs.obj (.push v) =
        (.pushed true, w.abs.obj.drop 0 ++ [v]) := if_neg (by omega)
    obtain ⟨w', hT, hG, hH, hP, hE, hRely⟩ := claim_step prod cons hg hh hpend
      hg.popped_le (by simpa using hroom) hstep (sh.takeTail (word sh.pushed + 1)) rfl rfl rfl rfl
        (by rw [hpk]; intro h; cases h)
      (fun h => { hg.split h with
        tail := (word_succ _).symm
        seen_le := (hg.split h).seen_le.trans (Nat.le_succ _) })
      (fun hm _ => (hsingle hm).1) (fun _ h => absurd rfl h)
    refine ⟨w', hT, hG, ⟨sh.pushed, sh.popped, hH, ?_, hP, rfl, by simp, ?_⟩, hRely⟩
    · rintro st' ⟨⟩
      exact ⟨fun _ => by omega, fun h => absurd h (lt_irrefl _)⟩
    · rw [hE, List.drop_append_of_le_length (by rw [hg.elems]), ← hg.elems, List.drop_length]
      exact List.prefix_rfl
  · obtain rfl := Option.some.inj hs
    exact kept_same hg hh ⟨rfl, rfl⟩ ⟨hpend, past_some (hst.trans hn) hst', hpk,
      fun hm => (hsingle hm).1⟩

/-! ## `consume` -/

theorem popSeen_step (hl : L cfg prod cons t sh w (some (.popSeen st x))) :
    Kept cfg prod cons t sh w
      (sh, if (sh.tailSeen - x).toInt ≤ 0 then .popTail st x else .popClaim st x) := by
  obtain ⟨p, c, hh, -, hpend, m, hread⟩ := hl
  obtain ⟨⟨rfl, -, hm, -⟩, hpk, -⟩ := id hread
  have hsp := hg.split hpk
  rw [hsp.tailSeen]
  split
  · exact kept_same hg hh ⟨rfl, rfl⟩ ⟨hpend, m, hread⟩
  · next hpos =>
    -- the copy is at most half a turn behind
    have hlt : m < w.seen := by
      refine lt_of_word_sub_pos ?_ hpos
      have h1 := hsp.mark_lt
      rcases hsp.popped_le_mark with h | h <;> omega
    exact kept_same hg hh ⟨rfl, rfl⟩ ⟨hpend, m, hread, hlt.trans_le hsp.seen_le, Or.inr hlt⟩

theorem popTail_step (hrec : Recent sh (.popTail st x))
    (hl : L cfg prod cons t sh w (some (.popTail st x))) :
    Kept cfg prod cons t sh w (sh, .popStore st x sh.tail) := by
  obtain ⟨p, c, hh, -, hpend, m, hread⟩ := hl
  obtain ⟨⟨rfl, hst, hm, -⟩, hpk, -⟩ := id hread
  have hlt := (hrec st rfl).2
  have hcap := cfg.capacity_le
  have h1 := hg.popped_le
  have h2 := hg.pushed_le
  have htail := (hg.split hpk).tail
  by_cases heq : m = sh.pushed
  · -- nothing is left now
    have hnil : w.abs.obj = [] := List.eq_nil_of_length_eq_zero (by rw [hg.length]; omega)
    have hstep : boundedStep cfg.capacity w.abs.obj .pop = (.popped none, w.abs.obj) := by
      rw [hnil]; rfl
    obtain ⟨a, hs, hobj, hothers, seen, hseen, hans⟩ :=
      hpend.see (O := bounded α cfg.capacity) hstep
    exact kept_free hg hh ⟨rfl, rfl⟩ hs hobj hothers
      ⟨m, sh.pushed, seen, hseen, hread, htail, by omega, by omega, le_rfl, fun _ => hans⟩
  · obtain ⟨seen, hseen⟩ := hpend
    exact kept_same hg hh ⟨rfl, rfl⟩
      ⟨m, sh.pushed, seen, hseen, hread, htail, by omega, by omega, le_rfl, fun h => absurd h heq⟩

theorem popStore_step (hrec : Recent sh (.popStore st x y))
    (hl : L cfg prod cons t sh w (some (.popStore st x y))) :
    Kept cfg prod cons t sh w
      ({ sh with tailSeen := y }, if x = y then .done (.popped none) else .popClaim st x) := by
  obtain ⟨p, c, hh, -, m, n, seen, hseen, hread, rfl, hmn, hnm, hn, hans⟩ := hl
  obtain ⟨⟨rfl, hst, hm, -⟩, hpk, -⟩ := id hread
  have hlt := (hrec st rfl).2
  have hsp := hg.split hpk
  have hsplit : Split { sh with tailSeen := word n } { w with seen := n, mark := sh.popped } :=
    ⟨hsp.head, hsp.tail, rfl, hn, le_rfl, by show sh.popped < n + 2 ^ 31; omega,
      Or.inl (Nat.le_succ _)⟩
  have hG : ∀ {a}, a.obj = w.abs.obj → G cfg { sh with tailSeen := word n }
      { w with abs := a, seen := n, mark := sh.popped } := fun ha =>
    { hg with
      cells := { hg.cells with }
      queue := ha.trans hg.queue
      split := fun _ => { hsplit with } }
  split
  · next heq =>
    have hseen' := hans (word_inj hmn hnm heq)
    refine ⟨{ w with
        abs := w.abs.lin t [] [.popped none] w.abs.obj, seen := n, mark := sh.popped },
      .steps (Atomic.Steps.settle hseen hseen'), hG rfl,
      ⟨0, 0, { (hh.none : Holds w t 0 0 0 0 false false) with }, (fun st h => by cases h),
        w.abs.lin_pend_self _ _ _ _⟩, ?_⟩
    exact { Rely.refl cfg prod cons t sh w with
      pend := fun u hu => w.abs.lin_pend_ne hu _ _ _
      mark := Or.inr rfl }
  · next hne =>
    have hlt' : m < n := lt_of_le_of_ne hmn (fun h => hne (by rw [h]))
    refine ⟨{ w with seen := n, mark := sh.popped }, .steps .refl, hG rfl,
      ⟨0, 0, { (hh.none : Holds w t 0 0 0 0 false false) with },
        fun st _ => ⟨fun h => absurd h (lt_irrefl _), fun h => absurd h (lt_irrefl _)⟩,
        ⟨seen, hseen⟩, m, hread, hlt'.trans_le hn, Or.inl hm⟩, ?_⟩
    exact { Rely.refl cfg prod cons t sh w with mark := Or.inr rfl }

theorem popClaim_step {b : Bool} {r : Shared α × Loc α} (hrec : Recent sh (.popClaim st x))
    (hl : L cfg prod cons t sh w (some (.popClaim st x)))
    (hs : step cfg b sh (.popClaim st x) = some r) : Kept cfg prod cons t sh w r := by
  obtain ⟨p, c, hh, -, hpend, m, ⟨⟨rfl, hst, hm, hst'⟩, hpk, hsingle⟩, hlt, hmark⟩ := hl
  have hrec' := (hrec st rfl).2
  have hsp := hg.split hpk
  simp only [step] at hs
  split at hs
  · next hc =>
    obtain rfl := Option.some.inj hs
    -- the ticket is the next one
    obtain rfl : m = sh.popped := by
      rcases hc with hm | ⟨-, heq⟩
      · exact (hsingle hm).2
      · rw [hsp.head] at heq
        exact word_inj hm (by omega) heq.symm
    have hlen := hg.length
    obtain ⟨v, q, hq⟩ : ∃ v q, w.abs.obj = v :: q :=
      List.exists_cons_of_length_pos (by omega)
    have hstep : boundedStep cfg.capacity w.abs.obj .pop =
        (.popped (some v), w.abs.obj.drop 1 ++ []) := by rw [hq]; simp [boundedStep]
    have hcapL := hg.pushed_le
    obtain ⟨w', hT, hG, hH, hP, hE, hRely⟩ := claim_step prod cons hg hh hpend (by omega)
      (by rw [List.length_nil]; omega) hstep (sh.takeHead (word sh.popped + 1)) rfl rfl rfl rfl
      (by rw [hpk]; intro h; cases h)
      (fun h => { hg.split h with
        head := (word_succ _).symm
        mark_le := (hg.split h).mark_le.trans (Nat.le_succ _)
        popped_le_mark := by
          show sh.popped + 1 ≤ w.mark + 1 ∨ sh.popped + 1 ≤ w.seen
          omega })
      (fun _ h => absurd rfl h) (fun hm _ => (hsingle hm).1)
    refine ⟨w', hT, hG, ⟨sh.pushed, sh.popped, hH, ?_, rfl, trivial, v, [], rfl, ?_, hP⟩, hRely⟩
    · rintro st'' ⟨⟩
      exact ⟨fun h => absurd h (lt_irrefl _), fun _ => by omega⟩
    · rw [hE, List.append_nil, ← hg.queue, hq]
      exact List.prefix_append [v] q
  · obtain rfl := Option.some.inj hs
    exact kept_same hg hh ⟨rfl, rfl⟩ ⟨hpend, past_some hst' (hst.trans hm), hpk,
      fun hm => (hsingle hm).1⟩

/-! ## `size` -/

theorem sizeTail_step (hl : L cfg prod cons t sh w (some (.sizeTail st x))) :
    Kept cfg prod cons t sh w (sh, .sizeAgain st x sh.tail) := by
  obtain ⟨p, c, hh, -, hpend, hpk, m, hread⟩ := hl
  have hcap := cfg.capacity_le
  have h1 := hg.popped_le
  have h2 := hg.pushed_le
  by_cases heq : sh.popped = m
  · -- the two counts belong to this moment
    have hsize : (sh.tail - x).toNat = w.abs.obj.length := by
      rw [hread.1, (hg.split hpk).tail, ← heq, word_sub_toNat h1 (by omega), hg.length]
    have hstep : boundedStep cfg.capacity w.abs.obj .size =
        (.size (sh.tail - x).toNat, w.abs.obj) := by rw [hsize]; rfl
    obtain ⟨a, hs, hobj, hothers, seen, hseen, hans⟩ :=
      hpend.see (O := bounded α cfg.capacity) hstep
    exact kept_free hg hh ⟨rfl, rfl⟩ hs hobj hothers
      ⟨m, seen, hseen, hpk, hread, fun _ => hans⟩
  · obtain ⟨seen, hseen⟩ := hpend
    exact kept_same hg hh ⟨rfl, rfl⟩ ⟨m, seen, hseen, hpk, hread, fun h => absurd h heq⟩

theorem sizeAgain_step (hrec : Recent sh (.sizeAgain st x y))
    (hl : L cfg prod cons t sh w (some (.sizeAgain st x y))) :
    Kept cfg prod cons t sh w
      (sh, if sh.head = x then .done (.size (y - x).toNat) else .sizeHead (some st)) := by
  obtain ⟨p, c, hh, -, m, seen, hseen, hpk, ⟨hx, hst, hm, hst'⟩, hans⟩ := hl
  have hlt := (hrec st rfl).2
  split
  · next heq =>
    rw [(hg.split hpk).head, hx] at heq
    have hpm : m = sh.popped := word_inj hm (by omega) heq.symm
    exact kept_free hg hh ⟨rfl, rfl⟩ (Atomic.Steps.settle hseen (hans hpm.symm)) rfl
      (fun _ hu => w.abs.lin_pend_ne hu _ _ _) (w.abs.lin_pend_self _ _ _ _)
  · exact kept_same hg hh ⟨rfl, rfl⟩ ⟨⟨seen, hseen⟩, past_some hst' (hst.trans hm), hpk⟩

end

end Wtc.Bounded
