import Wtc.Bounded.Invariant

/-!
# The cells of the bounded ring

Each step on a cell keeps `Cells`, one lemma for each, and so does the taking of tickets.

The program compares the sequence number of a cell with the word of its ticket. `Cells.eq_of_seqP`
and `Cells.eq_of_seqC` say that what it finds equal is equal as numbers: a cell more than a turn
behind would be waiting for a ticket that its holder has kept for too long.
-/

namespace Wtc.Bounded

open Wtc.Concurrent

variable {α Tid : Type}

/-! ## Words -/

theorem ringLoop_spec {capacity : Nat} (hcap : capacity ≤ 2 ^ 30) :
    ∀ rounds e, e + rounds = 30 →
      ∃ e', e ≤ e' ∧ e' ≤ 30 ∧ ringLoop capacity rounds (2 ^ e) = 2 ^ e' ∧ capacity ≤ 2 ^ e' := by
  intro rounds
  induction rounds with
  | zero =>
    rintro e rfl
    exact ⟨_, le_rfl, le_rfl, rfl, hcap⟩
  | succ rounds ih =>
    intro e he
    unfold ringLoop
    split
    · obtain ⟨e', h1, h2, h3, h4⟩ := ih (e + 1) (by omega)
      refine ⟨e', by omega, h2, ?_, h4⟩
      rw [← h3, Nat.shiftLeft_eq, pow_one, pow_succ]
    · next hc =>
      refine ⟨e, le_rfl, by omega, rfl, ?_⟩
      by_contra hlt
      have hlt30 : (2 : Nat) ^ e < 2 ^ 30 := lt_of_lt_of_le (by omega) hcap
      exact hc (by simp; omega)

/-- The ring is a power of two, at least two and at least the capacity. -/
theorem ringSize_spec (cfg : Cfg) : ∃ e, e ≤ 30 ∧ ringSize cfg.capacity = 2 ^ e ∧
    2 ≤ ringSize cfg.capacity ∧ cfg.capacity ≤ ringSize cfg.capacity := by
  obtain ⟨e, h1, h2, h3, h4⟩ := ringLoop_spec cfg.capacity_le 29 1 rfl
  have h3' : ringSize cfg.capacity = 2 ^ e := h3
  refine ⟨e, h2, h3', ?_, by rw [h3']; exact h4⟩
  rw [h3']
  calc 2 = 2 ^ 1 := rfl
    _ ≤ 2 ^ e := Nat.pow_le_pow_right (by omega) h1

theorem two_le_ringSize (cfg : Cfg) : 2 ≤ ringSize cfg.capacity := by
  obtain ⟨e, -, -, h, -⟩ := ringSize_spec cfg
  exact h

theorem capacity_le_ringSize (cfg : Cfg) : cfg.capacity ≤ ringSize cfg.capacity := by
  obtain ⟨e, -, -, -, h⟩ := ringSize_spec cfg
  exact h

theorem ringSize_le (cfg : Cfg) : ringSize cfg.capacity ≤ 2 ^ 30 := by
  obtain ⟨e, he, h, -⟩ := ringSize_spec cfg
  rw [h]
  exact Nat.pow_le_pow_right (by omega) he

/-- The cell of ticket `n`. -/
theorem cell_word (cfg : Cfg) (n : Nat) : cfg.cell (word n) = n % ringSize cfg.capacity := by
  obtain ⟨e, he, h, -⟩ := ringSize_spec cfg
  unfold Cfg.cell Cfg.mask
  rw [h]
  exact word_and_mask (by omega) n

/-- The ticket of the next lap. -/
theorem word_next_lap (cfg : Cfg) (n : Nat) :
    word n + cfg.mask + 1 = word (n + ringSize cfg.capacity) := by
  have h := two_le_ringSize cfg
  unfold Cfg.mask
  rw [← word_add, ← word_succ]
  congr 1
  omega

theorem headOf_pack (h t : BitVec 32) : headOf (pack h t) = h := by
  apply BitVec.eq_of_getLsbD_eq
  intro i hi
  simp [headOf, pack, hi, show 32 + i < 64 by omega]

theorem tailOf_pack (h t : BitVec 32) : tailOf (pack h t) = t := by
  apply BitVec.eq_of_getLsbD_eq
  intro i hi
  simp [tailOf, pack, hi]

/-! ## Laps -/

/-- Two tickets of one cell are laps apart. -/
theorem add_le_of_mod_eq {R m n : Nat} (hmod : m % R = n % R) (hlt : m < n) : m + R ≤ n := by
  have hd : R ∣ n - m := (Nat.modEq_iff_dvd' hlt.le).mp hmod
  have := Nat.le_of_dvd (by omega) hd
  omega

theorem le_of_mod_eq {R m n : Nat} (hmod : m % R = n % R) (hlt : m < n + R) : m ≤ n := by
  by_contra hgt
  have := add_le_of_mod_eq hmod.symm (Nat.lt_of_not_le hgt)
  omega

/-! ## Who holds a ticket

What `holdP` and `holdC` become when tickets are taken or one is given up.
-/

section Holders

variable {hold : Nat → Option Tid} {t u : Tid} {x : Option Tid} {a k n p : Nat}

/-- After `t` has taken the `k` tickets from `a` on. -/
theorem taken_cases (h : (if a ≤ n ∧ n < a + k then some t else hold n) = x) :
    (a ≤ n ∧ n < a + k) ∧ some t = x ∨ ¬ (a ≤ n ∧ n < a + k) ∧ hold n = x := by
  split at h
  · next hn => exact Or.inl ⟨hn, h⟩
  · next hn => exact Or.inr ⟨hn, h⟩

theorem taken_iff_self (h : ∀ n, hold n ≠ some t) :
    (if a ≤ n ∧ n < a + k then some t else hold n) = some t ↔ a ≤ n ∧ n < a + k := by
  split
  · next hn => exact ⟨fun _ => hn, fun _ => rfl⟩
  · next hn => exact ⟨fun he => absurd he (h n), fun he => absurd he hn⟩

theorem taken_iff_of_ne (h : ∀ n u, hold n = some u → n < a) (hu : u ≠ t) :
    (if a ≤ n ∧ n < a + k then some t else hold n) = some u ↔ hold n = some u := by
  split
  · next hn =>
    refine ⟨fun he => absurd (Option.some.inj he).symm hu, fun he => ?_⟩
    have := h n u he
    omega
  · exact Iff.rfl

theorem ne_of_holds (hp : hold p = some t) (hu : u ≠ t) (hn : hold n = some u) : n ≠ p := by
  rintro rfl
  rw [hp] at hn
  exact hu (Option.some.inj hn).symm

/-- After `t` has given up the first of its tickets. -/
theorem given_iff_self (h : ∀ n, hold n = some t ↔ p ≤ n ∧ n < p + (k + 1)) :
    Function.update hold p none n = some t ↔ p + 1 ≤ n ∧ n < p + 1 + k := by
  by_cases hnp : n = p
  · subst hnp; simp
  · rw [Function.update_of_ne hnp, h n]
    omega

theorem given_iff_of_ne (hp : hold p = some t) (hu : u ≠ t) :
    Function.update hold p none n = some u ↔ hold n = some u := by
  by_cases hnp : n = p
  · subst hnp
    rw [Function.update_self, hp]
    simp [Ne.symm hu]
  · rw [Function.update_of_ne hnp]

/-- The mark of the ticket given up goes with it. -/
theorem given_mark {mark : Nat → Bool}
    (h : ∀ n, hold n = some t → (mark n = true ↔ true = true ∧ n = p)) {q : Nat}
    (hn : Function.update hold p none n = some t) :
    Function.update mark p false n = true ↔ false = true ∧ n = q := by
  by_cases hnp : n = p
  · subst hnp; simp at hn
  · rw [Function.update_of_ne hnp] at hn
    rw [Function.update_of_ne hnp]
    simp only [Bool.false_eq_true, false_and, iff_false]
    exact fun hb => hnp ((h n hn).mp hb).2

end Holders

section Cells

variable {R : Nat} {sh : Shared α} {w : Ghost Tid α}

/-! ## One ticket -/

/-- What `Cells` says of ticket `n`, whose cell has the sequence number `r` and holds `raw`. -/
structure Ticket (R : Nat) (sh : Shared α) (w : Ghost Tid α) (r : Nat) (raw : Option α) (n : Nat) :
    Prop where
  free_lt : r = n → n < sh.popped + R
  full_lt : r = n + 1 → n < sh.pushed
  heldP : ∀ u, w.holdP n = some u → n < sh.pushed ∧ r ≤ n
  heldC : ∀ u, w.holdC n = some u → n < sh.popped ∧ r ≤ n + 1
  doneP : n < sh.pushed → w.holdP n = none → n + 1 ≤ r
  doneC : n < sh.popped → w.holdC n = none → n + R ≤ r
  empty : r = n → raw = if w.built n then w.elems[n]? else none
  full : r = n + 1 → raw = if w.gone n then none else w.elems[n]?
  built_held : w.built n = true → w.holdP n ≠ none ∧ r = n
  gone_held : w.gone n = true → w.holdC n ≠ none ∧ r = n + 1

theorem Cells.ticket (hc : Cells R sh w) (n : Nat) :
    Ticket R sh w (w.rs (n % R)) (sh.raw (n % R)) n :=
  ⟨hc.free_lt n, hc.full_lt n, hc.heldP n, hc.heldC n, hc.doneP n, hc.doneC n, hc.empty n,
    hc.full n, hc.built_held n, hc.gone_held n⟩

theorem Ticket.congr {w' : Ghost Tid α} {r n : Nat} {raw : Option α} (h : Ticket R sh w r raw n)
    (hP : w'.holdP n = w.holdP n) (hC : w'.holdC n = w.holdC n) (hb : w'.built n = w.built n)
    (hg : w'.gone n = w.gone n) (he : w'.elems = w.elems) : Ticket R sh w' r raw n := by
  refine ⟨h.free_lt, h.full_lt, ?_, ?_, ?_, ?_, ?_, ?_, ?_, ?_⟩
  · rw [hP]; exact h.heldP
  · rw [hC]; exact h.heldC
  · rw [hP]; exact h.doneP
  · rw [hC]; exact h.doneC
  · rw [hb, he]; exact h.empty
  · rw [hg, he]; exact h.full
  · rw [hb, hP]; exact h.built_held
  · rw [hg, hC]; exact h.gone_held

/-- The cell `j` gets the sequence number `r`: only its own tickets are to be looked at. -/
theorem Cells.advance (hc : Cells R sh w) (w' : Ghost Tid α) {j r : Nat}
    (hrs : w'.rs = Function.update w.rs j r) (hlap : ∃ n, n % R = j ∧ (r = n ∨ r = n + 1))
    (hsame : ∀ n, n % R = j → Ticket R sh w' r (sh.raw j) n)
    (hother : ∀ n, n % R ≠ j → Ticket R sh w' (w.rs (n % R)) (sh.raw (n % R)) n) :
    Cells R (sh.setSeq j (word r)) w' := by
  have hall : ∀ n, Ticket R sh w' (w'.rs (n % R)) (sh.raw (n % R)) n := by
    intro n
    rw [hrs]
    by_cases hmod : n % R = j
    · rw [hmod, Function.update_self]
      exact hsame n hmod
    · rw [Function.update_of_ne hmod]
      exact hother n hmod
  refine ⟨fun i hi => ?_, fun i hi => ?_, fun n => (hall n).free_lt, fun n => (hall n).full_lt,
    fun n => (hall n).heldP, fun n => (hall n).heldC, fun n => (hall n).doneP,
    fun n => (hall n).doneC, fun n => (hall n).empty, fun n => (hall n).full,
    fun n => (hall n).built_held, fun n => (hall n).gone_held⟩
  · show Function.update sh.seq j (word r) i = word (w'.rs i)
    rw [hrs]
    by_cases hij : i = j
    · rw [hij, Function.update_self, Function.update_self]
    · rw [Function.update_of_ne hij, Function.update_of_ne hij]
      exact hc.seq i hi
  · rw [hrs]
    by_cases hij : i = j
    · rw [hij, Function.update_self]
      exact hlap
    · rw [Function.update_of_ne hij]
      exact hc.lap i hi

/-- The cell of a ticket is free for a ticket of the same cell, or full with one. -/
theorem Cells.lap_of (hc : Cells R sh w) (hR : 2 ≤ R) (n : Nat) :
    ∃ n', n' % R = n % R ∧ (w.rs (n' % R) = n' ∨ w.rs (n' % R) = n' + 1) := by
  obtain ⟨n', h1, h2⟩ := hc.lap (n % R) (Nat.mod_lt _ (by omega))
  exact ⟨n', h1, by rw [h1]; exact h2⟩

/-! ## The sequence numbers seen by the program -/

section Seen

variable (hP : ∀ n u, w.holdP n = some u → sh.pushed < n + (2 ^ 31 + 2 ^ 30))
  (hC : ∀ n u, w.holdC n = some u → sh.popped < n + (2 ^ 31 + 2 ^ 30))

include hP in
/-- A cell that waits for the push of a ticket taken is not long behind. -/
theorem Cells.near_free (hc : Cells R sh w) {n : Nat} (hn : w.rs (n % R) = n)
    (hlt : n < sh.pushed) : sh.pushed < n + (2 ^ 31 + 2 ^ 30) := by
  cases hh : w.holdP n with
  | none =>
    have := hc.doneP n hlt hh
    omega
  | some u => exact hP n u hh

include hC in
/-- A cell that waits for the pop of a ticket taken is not long behind. -/
theorem Cells.near_full (hc : Cells R sh w) (hR : 2 ≤ R) {n : Nat} (hn : w.rs (n % R) = n + 1)
    (hlt : n < sh.popped) : sh.popped < n + (2 ^ 31 + 2 ^ 30) := by
  cases hh : w.holdC n with
  | none =>
    have := hc.doneC n hlt hh
    omega
  | some u => exact hC n u hh

include hP hC

/-- A push that finds the word of its ticket finds its cell free for it. -/
theorem Cells.eq_of_seqP (hc : Cells R sh w) (hR : 2 ≤ R) (hR' : R ≤ 2 ^ 30)
    (hcap : sh.pushed ≤ sh.popped + R) {p : Nat} {u : Tid}
    (hp : w.holdP p = some u) (hs : sh.seq (p % R) = word p) : w.rs (p % R) = p := by
  obtain ⟨hlt, hle⟩ := hc.heldP p u hp
  rw [hc.seq _ (Nat.mod_lt _ (by omega))] at hs
  refine word_inj hle ?_ hs
  obtain ⟨n, hmod, hn | hn⟩ := hc.lap_of hR p
  · -- the cell waits for the push of ticket `n`
    have := hc.near_free hP hn
    rw [hmod] at hn
    omega
  · -- the cell waits for the pop of ticket `n`, which has been taken
    have := hc.near_full hC hR hn
    rw [hmod] at hn
    have := add_le_of_mod_eq hmod (by omega)
    omega

/-- A pop that finds the word after its ticket finds its cell filled for it. -/
theorem Cells.eq_of_seqC (hc : Cells R sh w) (hR : 2 ≤ R) (hle : sh.popped ≤ sh.pushed)
    {c : Nat} {u : Tid} (hp : w.holdC c = some u) (hs : sh.seq (c % R) = word (c + 1)) :
    w.rs (c % R) = c + 1 := by
  obtain ⟨hlt, hrs⟩ := hc.heldC c u hp
  rw [hc.seq _ (Nat.mod_lt _ (by omega))] at hs
  refine word_inj hrs ?_ hs
  obtain ⟨n, hmod, hn | hn⟩ := hc.lap_of hR c
  · have := hc.near_free hP hn
    rw [hmod] at hn
    have := le_of_mod_eq hmod (by omega)
    omega
  · have := hc.near_full hC hR hn
    rw [hmod] at hn
    omega

end Seen

/-! ## Taking tickets -/

/-- The cell of a ticket that is not yet taken is not past it. -/
theorem Cells.rs_le (hc : Cells R sh w) (hR : 2 ≤ R) (hcap : sh.pushed ≤ sh.popped + R) {n : Nat}
    (hn : sh.popped ≤ n) : w.rs (n % R) ≤ n + 1 ∧ (sh.pushed ≤ n → w.rs (n % R) ≤ n) := by
  obtain ⟨n', hmod, h | h⟩ := hc.lap_of hR n
  · have := hc.free_lt n' h
    have := le_of_mod_eq hmod (by omega)
    rw [hmod] at h
    omega
  · have := hc.full_lt n' h
    have := le_of_mod_eq hmod (by omega)
    rw [hmod] at h
    omega

/-- The ghost after thread `t` takes a push ticket for each of `vs` and `nc` pop tickets. -/
def Ghost.claim [DecidableEq Tid] (w : Ghost Tid α) (t : Tid) (sh : Shared α) (vs : List α)
    (nc : Nat) : Ghost Tid α :=
  { w with
    elems := w.elems ++ vs
    holdP := fun n => if sh.pushed ≤ n ∧ n < sh.pushed + vs.length then some t else w.holdP n
    holdC := fun n => if sh.popped ≤ n ∧ n < sh.popped + nc then some t else w.holdC n }

/-- The next tickets find their cells not yet past them. -/
theorem Cells.claim [DecidableEq Tid] (hc : Cells R sh w) (hR : 2 ≤ R)
    (hle : sh.popped ≤ sh.pushed) (hcap : sh.pushed ≤ sh.popped + R)
    (hlen : w.elems.length = sh.pushed) {sh' : Shared α} (t : Tid) {vs : List α} {nc : Nat}
    (hseq : sh'.seq = sh.seq) (hraw : sh'.raw = sh.raw)
    (hpu : sh'.pushed = sh.pushed + vs.length) (hpo : sh'.popped = sh.popped + nc) :
    Cells R sh' (w.claim t sh vs nc) := by
  have helem : ∀ n, n < sh.pushed → (w.elems ++ vs)[n]? = w.elems[n]? :=
    fun n hn => List.getElem?_append_left (by rw [hlen]; exact hn)
  refine ⟨by rw [hseq]; exact hc.seq, hc.lap, ?_, ?_, ?_, ?_, ?_, ?_, ?_, ?_, ?_, ?_⟩
  · intro n hn
    have := hc.free_lt n hn
    omega
  · intro n hn
    have := hc.full_lt n hn
    omega
  · intro n u hn
    show n < sh'.pushed ∧ w.rs (n % R) ≤ n
    rcases taken_cases hn with ⟨hnew, -⟩ | ⟨-, hn⟩
    · exact ⟨by omega, (hc.rs_le hR hcap (by omega)).2 hnew.1⟩
    · have := hc.heldP n u hn
      omega
  · intro n u hn
    show n < sh'.popped ∧ w.rs (n % R) ≤ n + 1
    rcases taken_cases hn with ⟨hnew, -⟩ | ⟨-, hn⟩
    · exact ⟨by omega, (hc.rs_le hR hcap hnew.1).1⟩
    · have := hc.heldC n u hn
      omega
  · intro n hn hnone
    rcases taken_cases hnone with ⟨-, h⟩ | ⟨hnew, h⟩
    · cases h
    · exact hc.doneP n (by omega) h
  · intro n hn hnone
    rcases taken_cases hnone with ⟨-, h⟩ | ⟨hnew, h⟩
    · cases h
    · exact hc.doneC n (by omega) h
  · intro n hn
    show sh'.raw (n % R) = if w.built n then (w.elems ++ vs)[n]? else none
    rw [hraw, hc.empty n hn]
    split
    · next hb =>
      cases hh : w.holdP n with
      | none => exact absurd hh (hc.built_held n hb).1
      | some u => rw [helem n (hc.heldP n u hh).1]
    · rfl
  · intro n hn
    show sh'.raw (n % R) = if w.gone n then none else (w.elems ++ vs)[n]?
    rw [hraw, hc.full n hn, helem n (hc.full_lt n hn)]
  · intro n hb
    obtain ⟨h1, h2⟩ := hc.built_held n hb
    refine ⟨fun hnone => ?_, h2⟩
    rcases taken_cases hnone with ⟨-, h⟩ | ⟨-, h⟩
    · cases h
    · exact h1 h
  · intro n hb
    obtain ⟨h1, h2⟩ := hc.gone_held n hb
    refine ⟨fun hnone => ?_, h2⟩
    rcases taken_cases hnone with ⟨-, h⟩ | ⟨-, h⟩
    · cases h
    · exact h1 h

/-! ## Filling a cell -/

/-- The element of ticket `p` is built in its cell. -/
theorem Cells.build (hc : Cells R sh w) (hR : 2 ≤ R) {p : Nat} {u : Tid} (hp : w.holdP p = some u)
    (hrs : w.rs (p % R) = p) {v : Option α} (hv : v = w.elems[p]?) :
    Cells R (sh.setRaw (p % R) v) { w with built := Function.update w.built p true } := by
  have hother : ∀ n, n % R = p % R → w.rs (n % R) = n → n = p := by
    intro n hmod hn
    rw [hmod, hrs] at hn
    exact hn.symm
  refine { hc with empty := ?_, full := ?_, built_held := ?_ }
  · intro n hn
    show Function.update sh.raw (p % R) v (n % R) =
      if Function.update w.built p true n then w.elems[n]? else none
    by_cases hmod : n % R = p % R
    · obtain rfl := hother n hmod hn
      rw [Function.update_self, Function.update_self, if_pos rfl, hv]
    · rw [Function.update_of_ne hmod, Function.update_of_ne (fun h => hmod (by rw [h]))]
      exact hc.empty n hn
  · intro n hn
    change w.rs (n % R) = n + 1 at hn
    show Function.update sh.raw (p % R) v (n % R) = if w.gone n then none else w.elems[n]?
    have hmod : n % R ≠ p % R := by
      intro hmod
      have hpn : p = n + 1 := by rw [← hrs, ← hmod, hn]
      have := le_of_mod_eq hmod.symm (by omega : p < n + R)
      omega
    rw [Function.update_of_ne hmod]
    exact hc.full n hn
  · intro n hn
    by_cases hnp : n = p
    · subst hnp
      exact ⟨by rw [show w.holdP n = some u from hp]; simp, hrs⟩
    · exact hc.built_held n (by simpa [hnp] using hn)

/-- The element of ticket `p` is announced. -/
theorem Cells.publish (hc : Cells R sh w) (hR : 2 ≤ R) {p : Nat} {u : Tid}
    (hp : w.holdP p = some u) (hrs : w.rs (p % R) = p) (hb : w.built p = true) :
    Cells R (sh.setSeq (p % R) (word (p + 1))) { w with
      rs := Function.update w.rs (p % R) (p + 1)
      holdP := Function.update w.holdP p none
      built := Function.update w.built p false } := by
  have hlt := (hc.heldP p u hp).1
  have hraw := hc.empty p hrs
  rw [if_pos hb] at hraw
  refine hc.advance _ rfl ⟨p, rfl, Or.inr rfl⟩ (fun n hmod => ?_) (fun n hmod => ?_)
  · have hn := hc.ticket n
    rw [hmod, hrs] at hn
    have hnp := le_of_mod_eq hmod
    have hpn := le_of_mod_eq hmod.symm
    by_cases h : n = p
    · subst h
      have hg : ¬ w.gone n = true := fun hg => absurd (hn.gone_held hg).2 (by omega)
      refine ⟨by omega, fun _ => hlt, ?_, fun v hv => ⟨(hn.heldC v hv).1, le_rfl⟩,
        fun _ _ => le_rfl, fun h1 h2 => ?_, by omega, fun _ => ?_, ?_, fun h => absurd h hg⟩
      · simp
      · have := hn.doneC h1 h2
        omega
      · rw [if_neg hg, hraw]
      · simp
    · have hb' : ¬ w.built n = true := fun hb' => h (hn.built_held hb').2.symm
      refine ⟨by omega, by omega, fun v hv => ?_, fun v hv => ?_, fun h1 h2 => ?_,
        fun h1 h2 => ?_, by omega, by omega, fun h' => ?_, fun hg => ?_⟩
      · have := hn.heldP v (by simpa [h] using hv)
        omega
      · have := hn.heldC v hv
        omega
      · have := hn.doneP h1 (by simpa [h] using h2)
        omega
      · have := hn.doneC h1 h2
        omega
      · exact absurd (by simpa [h] using h') hb'
      · have := (hn.gone_held hg).2
        omega
  · have hne : n ≠ p := fun h => hmod (by rw [h])
    exact (hc.ticket n).congr (Function.update_of_ne hne _ _) rfl (Function.update_of_ne hne _ _)
      rfl rfl

/-! ## Emptying a cell -/

/-- The element of ticket `c` is out of its cell. -/
theorem Cells.destroy (hc : Cells R sh w) (hR : 2 ≤ R) {c : Nat} {u : Tid}
    (hh : w.holdC c = some u) (hrs : w.rs (c % R) = c + 1) :
    Cells R (sh.setRaw (c % R) none) { w with gone := Function.update w.gone c true } := by
  refine { hc with empty := ?_, full := ?_, gone_held := ?_ }
  · intro n hn
    change w.rs (n % R) = n at hn
    show Function.update sh.raw (c % R) none (n % R) = if w.built n then w.elems[n]? else none
    have hmod : n % R ≠ c % R := by
      intro hmod
      rw [hmod, hrs] at hn
      have := le_of_mod_eq hmod (by omega : n < c + R)
      omega
    rw [Function.update_of_ne hmod]
    exact hc.empty n hn
  · intro n hn
    change w.rs (n % R) = n + 1 at hn
    show Function.update sh.raw (c % R) none (n % R) =
      if Function.update w.gone c true n then none else w.elems[n]?
    by_cases hmod : n % R = c % R
    · rw [hmod, hrs] at hn
      obtain rfl : c = n := by omega
      rw [Function.update_self, Function.update_self, if_pos rfl]
    · rw [Function.update_of_ne hmod, Function.update_of_ne (fun h => hmod (by rw [h]))]
      exact hc.full n hn
  · intro n hn
    by_cases hnc : n = c
    · subst hnc
      exact ⟨by rw [show w.holdC n = some u from hh]; simp, hrs⟩
    · exact hc.gone_held n (by simpa [hnc] using hn)

/-- The cell of ticket `c` is free for the next lap. -/
theorem Cells.release (hc : Cells R sh w) (hR : 2 ≤ R) {c : Nat} {u : Tid}
    (hh : w.holdC c = some u) (hrs : w.rs (c % R) = c + 1) (hg : w.gone c = true) :
    Cells R (sh.setSeq (c % R) (word (c + R))) { w with
      rs := Function.update w.rs (c % R) (c + R)
      holdC := Function.update w.holdC c none
      gone := Function.update w.gone c false } := by
  have hlt := (hc.heldC c u hh).1
  have hraw := hc.full c hrs
  rw [if_pos hg] at hraw
  refine hc.advance _ rfl ⟨c + R, Nat.add_mod_right c R, Or.inl rfl⟩ (fun n hmod => ?_)
    (fun n hmod => ?_)
  · have hn := hc.ticket n
    rw [hmod, hrs] at hn
    have hnc := le_of_mod_eq hmod
    have hcn : c < n → c + R ≤ n := add_le_of_mod_eq hmod.symm
    have hb : ¬ w.built n = true := fun hb => absurd (hn.built_held hb).2 (by omega)
    refine ⟨by omega, by omega, fun v hv => ?_, fun v hv => ?_, fun h1 h2 => ?_, fun h1 h2 => ?_,
      fun _ => ?_, by omega, fun h => absurd h hb, fun h => ?_⟩
    · have := hn.heldP v hv
      omega
    · by_cases h : n = c
      · simp [h] at hv
      · have := hn.heldC v (by simpa [h] using hv)
        omega
    · have := hn.doneP h1 h2
      omega
    · by_cases h : n = c
      · omega
      · have := hn.doneC h1 (by simpa [h] using h2)
        omega
    · rw [if_neg hb, hraw]
    · by_cases h' : n = c
      · simp [h'] at h
      · have := (hn.gone_held (by simpa [h'] using h)).2
        omega
  · have hne : n ≠ c := fun h => hmod (by rw [h])
    exact (hc.ticket n).congr rfl (Function.update_of_ne hne _ _) rfl
      (Function.update_of_ne hne _ _) rfl

end Cells

end Wtc.Bounded
