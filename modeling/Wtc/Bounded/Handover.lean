import Wtc.Bounded.Properties

/-!
# The cells of the bounded ring

How a cell goes from the push of one ticket to its pop and on to the push of the next lap.

* `cells_handed_over` — a push fills only an empty cell and a pop takes the element of its own
  ticket, one operation at a time is at a cell, its sequence number goes round in order, and of the
  operations that hold tickets one can go on

Nobody waits in a circle: of the tickets held, the push or the pop of the least one has its cell.
The one operation that holds tickets of both sides is an overrunning push, which is at the lesser.
-/

namespace Wtc.Bounded

open Wtc.Concurrent

variable {α Tid : Type}

/-! ## The statement -/

/-- The operation holds tickets it has not finished with. -/
def Loc.Holding (l : Loc α) : Prop := 0 < l.pushes + l.pops

/-- The cell an operation is at, once it has waited for it. -/
def Loc.inside (cfg : Cfg) : Loc α → Option Nat
  | .build _ t _ _ | .publish _ t _ _ => some (cfg.cell t)
  | .read _ h _ _ _ | .destroy _ h _ _ _ | .release _ h _ _ _ => some (cfg.cell h)
  | _ => none

/-- The next step of an operation takes it further. An operation that waits for a cell stays where
it is until it finds the sequence number it waits for. -/
def Proceeds (cfg : Cfg) (sh : Shared α) (l : Loc α) : Prop :=
  ∃ r, step cfg true sh l = some r ∧ r.2 ≠ l

/-- The sequence number of cell `j` goes from `a` to `b` in its round: a ticket's own number, the
next one, and the number of the next lap's ticket. -/
def Turns (R j : Nat) (a b : BitVec 32) : Prop :=
  ∃ n, n % R = j ∧ (a = word n ∧ b = word (n + 1) ∨ a = word (n + 1) ∧ b = word (n + R))

/-- What holds of the cells in a state of a run whose pushes put in the elements `elems`, in the
order of their tickets. -/
structure Handover (cfg : Cfg) (elems : List α) (s : Config Tid (Shared α) (Loc α)) : Prop where
  /-- The push of a ticket finds its cell empty, and what it puts there is the ticket's element. -/
  fills : ∀ t st x vs ans, s.loc t = some (.build st x vs ans) →
    s.sh.raw (cfg.cell x) = none ∧
      ∃ p v, x = word p ∧ p < s.sh.pushed ∧ vs.head? = some v ∧ elems[p]? = some v
  /-- The pop of a ticket finds the ticket's element in its cell. -/
  takes : ∀ t st x k got e, s.loc t = some (.read st x k got e) →
    ∃ c v, x = word c ∧ c < s.sh.popped ∧ s.sh.raw (cfg.cell x) = some v ∧ elems[c]? = some v
  /-- No two operations are at one cell. -/
  apart : ∀ t u l l' j, s.loc t = some l → s.loc u = some l' → l.inside cfg = some j →
    l'.inside cfg = some j → t = u
  seq : ∀ j, j < ringSize cfg.capacity → ∃ n, n % ringSize cfg.capacity = j ∧
    (s.sh.seq j = word n ∨ s.sh.seq j = word (n + 1))
  /-- Of the operations that hold tickets one can go on. -/
  live : (∃ t l, s.loc t = some l ∧ l.Holding) →
    ∃ t l, s.loc t = some l ∧ l.Holding ∧ Proceeds cfg s.sh l

/-! ## An overrunning push holds two tickets -/

/-- The two tickets of an overrunning push are the capacity apart. -/
def Loc.Gap (cfg : Cfg) : Loc α → Prop
  | .take _ h k _ (.overrun t _) | .read _ h k _ (.overrun t _)
  | .destroy _ h k _ (.overrun t _) | .release _ h k _ (.overrun t _) =>
    t = h + cfg.cap ∧ k = 1 ∧ cfg.capacity ≠ 0
  | _ => True

def Gaps (cfg : Cfg) (s : Config Tid (Shared α) (Loc α)) : Prop :=
  ∀ t l, s.loc t = some l → l.Gap cfg

section Gap

variable {cfg : Cfg} {prod cons t : Tid} {sh sh' : Shared α} {w : Ghost Tid α}

theorem plan_gap {s : BitVec 64} {op : Call α} {pl : Plan α} {popped pushed : Nat}
    (hs : s = pack (word popped) (word pushed)) (hle : popped ≤ pushed)
    (hcap : pushed ≤ popped + cfg.capacity) (hr : op.reads cfg) (hpl : plan cfg s op = .ok pl)
    (st : Stamp) : (pl.next st).Gap cfg := by
  subst hs
  have hmax := cfg.capacity_le
  cases op with
  | tryPush v | consume | tryPushN vs | consumeN n =>
    simp only [plan] at hpl
    split at hpl <;> cases hpl
    trivial
  | pushOverrun v =>
    simp only [plan, headOf_pack, tailOf_pack] at hpl
    split at hpl
    · next hfull =>
      cases hpl
      rw [cap_le_word_sub hle (by omega)] at hfull
      refine ⟨?_, rfl, hr.1⟩
      rw [show pushed = popped + cfg.capacity by omega, word_add]
      rfl
    · cases hpl
      trivial
  | size => cases hpl

theorem attempt_gap {s : BitVec 64} {op : Call α} : (attempt cfg s op).Gap cfg := by
  unfold attempt
  split <;> trivial

theorem step_gap {b : Bool} {l l' : Loc α} (hg : G cfg sh w)
    (hl : L cfg prod cons t sh w (some l)) (hgap : l.Gap cfg)
    (hs : step cfg b sh l = some (sh', l')) : l'.Gap cfg := by
  cases l with
  | swap op s =>
    obtain ⟨p, c, -, -, -, hpk, hr, -, pl, hpl⟩ := hl
    simp only [step, hpl] at hs
    split at hs
    · next hc =>
      obtain ⟨-, rfl⟩ := Prod.mk.inj (Option.some.inj hs)
      exact plan_gap (hc.2 ▸ hg.state hpk) hg.popped_le hg.pushed_le hr hpl _
    · obtain ⟨-, rfl⟩ := Prod.mk.inj (Option.some.inj hs)
      exact attempt_gap
  | load op => obtain ⟨-, rfl⟩ := Prod.mk.inj (Option.some.inj hs); exact attempt_gap
  | pushHead v st x | pushAgain v st x | popSeen st x | popStore st x y | sizeAgain st x y
  | fill st x vs ans =>
    obtain ⟨-, rfl⟩ := Prod.mk.inj (Option.some.inj hs)
    split <;> trivial
  | pushClaim v st x | popClaim st x =>
    simp only [step] at hs
    split at hs <;> obtain ⟨-, rfl⟩ := Prod.mk.inj (Option.some.inj hs) <;> trivial
  | publish st x vs ans =>
    obtain ⟨-, rfl⟩ := Prod.mk.inj (Option.some.inj hs)
    cases vs.tail <;> trivial
  | take st x k got e =>
    obtain ⟨-, rfl⟩ := Prod.mk.inj (Option.some.inj hs)
    split
    · cases e <;> exact hgap
    · exact hgap
  | read st x k got e =>
    simp only [step, Option.map_eq_some_iff] at hs
    obtain ⟨v, -, he⟩ := hs
    obtain ⟨-, rfl⟩ := Prod.mk.inj he
    cases e <;> exact hgap
  | destroy st x k got e =>
    obtain ⟨-, rfl⟩ := Prod.mk.inj (Option.some.inj hs)
    cases e <;> exact hgap
  | release st x k got e =>
    obtain ⟨-, rfl⟩ := Prod.mk.inj (Option.some.inj hs)
    cases e with
    | overrun y v => rw [hgap.2.1]; trivial
    | one | batch => cases k - 1 <;> trivial
  | pushTail v first | popHead first | popTail st x | sizeHead first | sizeTail st x
  | build st x vs ans | count st x v | drop | nothing ans =>
    obtain ⟨-, rfl⟩ := Prod.mk.inj (Option.some.inj hs)
    trivial
  | abort | done ans => cases hs

theorem start_gap (c : Call α) : (start cfg c).Gap cfg := by
  cases c <;> simp only [start] <;> (repeat' split) <;> trivial

variable [DecidableEq Tid]

/-- The tickets of every overrunning push of a run are the capacity apart. -/
theorem gaps {h : List (Event Tid (BoundedOp α) (BoundedAns α))}
    {s : Config Tid (Shared α) (Loc α)} (hr : (machine cfg prod cons).Run Timely h s) :
    (machine cfg prod cons).Run (fun s => Timely s ∧ Gaps cfg s) h s := by
  induction hr with
  | init hP => exact .init ⟨hP, nofun⟩
  | @next h es s s' hr hn hP ih =>
    refine ih.next hn ⟨hP, fun u l hu => ?_⟩
    obtain ⟨w, -, hg, hl⟩ := (rule cfg prod cons).sound hr
    have hgaps := ih.last.2
    cases hn with
    | @call t hloc c hm =>
      by_cases hut : u = t
      · subst hut
        rw [Config.set_loc_self] at hu
        cases hu
        exact start_gap c
      · rw [Config.set_loc_ne s hut] at hu
        exact hgaps u l hu
    | @step t l₀ hloc c sh' l' hs =>
      by_cases hut : u = t
      · subst hut
        have hlt := hl u
        rw [hloc] at hlt
        cases (Config.set_loc_self s u (some l')).symm.trans hu
        exact step_gap hg hlt (hgaps u l₀ hloc) hs
      · exact hgaps u l ((Config.set_loc_ne s hut _).symm.trans hu)
    | @ret t l₀ hloc ans ha =>
      by_cases hut : u = t
      · subst hut
        rw [Config.set_loc_self] at hu
        cases hu
      · rw [Config.set_loc_ne s hut] at hu
        exact hgaps u l hu

end Gap

/-! ## One operation at a cell -/

section Cell

variable {cfg : Cfg} {prod cons t u : Tid} {sh : Shared α} {w : Ghost Tid α} {l l' : Loc α}
    {j : Nat}

/-- An operation at a cell has the cell: it holds the ticket the cell is free for, or the one it is
filled for. -/
theorem holds_cell (hl : L cfg prod cons t sh w (some l)) (hj : l.inside cfg = some j) :
    (∃ p, p % ringSize cfg.capacity = j ∧ w.rs j = p ∧ w.holdP p = some t) ∨
      ∃ c, c % ringSize cfg.capacity = j ∧ w.rs j = c + 1 ∧ w.holdC c = some t := by
  have push : ∀ {x vs ans p c} {b : Bool}, Holds w t p vs.length c 0 b false →
      Filling w t x vs ans p → w.rs (p % ringSize cfg.capacity) = p → some (cfg.cell x) = some j →
      ∃ p, p % ringSize cfg.capacity = j ∧ w.rs j = p ∧ w.holdP p = some t := by
    rintro x vs ans p c b hh ⟨-, rfl, hne, -⟩ hrs hj
    obtain rfl : p % ringSize cfg.capacity = j := (cell_word cfg p).symm.trans (Option.some.inj hj)
    exact ⟨p, rfl, hrs,
      (hh.holdP p).mpr ⟨le_rfl, Nat.lt_add_of_pos_right (List.length_pos_iff.mpr hne)⟩⟩
  have pop : ∀ {x k p c np} {b b' : Bool}, Holds w t p np c k b b' → x = word c → 0 < k →
      w.rs (c % ringSize cfg.capacity) = c + 1 → some (cfg.cell x) = some j →
      ∃ c, c % ringSize cfg.capacity = j ∧ w.rs j = c + 1 ∧ w.holdC c = some t := by
    rintro x k p c np b b' hh rfl hk hrs hj
    obtain rfl : c % ringSize cfg.capacity = j := (cell_word cfg c).symm.trans (Option.some.inj hj)
    exact ⟨c, rfl, hrs, (hh.holdC c).mpr ⟨le_rfl, Nat.lt_add_of_pos_right hk⟩⟩
  obtain ⟨p, c, hh, -, hf⟩ := hl
  cases l with
  | build st x vs ans | publish st x vs ans => exact .inl (push hh hf.1 hf.2 hj)
  | read st x k got e =>
    obtain ⟨⟨hx, -, y, ys, hk, -⟩, hrs⟩ := hf
    exact .inr (pop hh hx (show 0 < k by omega) hrs hj)
  | destroy st x k got e | release st x k got e =>
    obtain ⟨⟨hx, -, ys, hk, -⟩, hrs⟩ := hf
    exact .inr (pop hh hx (show 0 < k by omega) hrs hj)
  | _ => cases hj

/-- A cell is not free for one ticket and filled for another. -/
theorem succ_mod_ne {R n : Nat} (hR : 2 ≤ R) : (n + 1) % R ≠ n % R := by
  intro h
  have := add_le_of_mod_eq h.symm (Nat.lt_succ_self n)
  omega

theorem inside_inj (hl : L cfg prod cons t sh w (some l)) (hl' : L cfg prod cons u sh w (some l'))
    (hj : l.inside cfg = some j) (hj' : l'.inside cfg = some j) : t = u := by
  have hR := two_le_ringSize cfg
  rcases holds_cell hl hj with ⟨p, hp, hrs, hh⟩ | ⟨c, hc, hrs, hh⟩ <;>
    rcases holds_cell hl' hj' with ⟨p', hp', hrs', hh'⟩ | ⟨c', hc', hrs', hh'⟩
  · obtain rfl : p = p' := hrs.symm.trans hrs'
    exact Option.some.inj (hh.symm.trans hh')
  · obtain rfl : p = c' + 1 := hrs.symm.trans hrs'
    exact absurd (hp.trans hc'.symm) (succ_mod_ne hR)
  · obtain rfl : p' = c + 1 := hrs'.symm.trans hrs
    exact absurd (hp'.trans hc.symm) (succ_mod_ne hR)
  · obtain rfl : c = c' := Nat.succ.inj (hrs.symm.trans hrs')
    exact Option.some.inj (hh.symm.trans hh')

end Cell

/-! ## The least ticket held -/

section Live

variable {cfg : Cfg} {prod cons : Tid} {s : Config Tid (Shared α) (Loc α)} {w : Ghost Tid α}

/-- The push of a ticket has its cell if no lesser ticket is held. -/
theorem G.free_of_least (hg : G cfg s.sh w) {n : Nat} {u : Tid} (hn : w.holdP n = some u)
    (hleast : ∀ m, m < n → w.holdP m = none ∧ w.holdC m = none) :
    w.rs (n % ringSize cfg.capacity) = n := by
  have hR := two_le_ringSize cfg
  have hcap := capacity_le_ringSize cfg
  have hpush := hg.pushed_le
  obtain ⟨hlt, hle⟩ := hg.cells.heldP n u hn
  obtain ⟨m, hm, hrs⟩ := hg.cells.lap_of hR n
  rw [hm] at hrs
  rcases hrs with hrs | hrs
  · by_contra hne
    -- free for the push of an earlier lap, which would still be held
    have hlt' : m < n := by omega
    have := hg.cells.doneP m (by omega) (hleast m hlt').1
    rw [hm] at this
    omega
  · exfalso
    -- filled in an earlier lap, whose pop would still be held
    have hlap := add_le_of_mod_eq hm (show m < n by omega)
    have := hg.cells.doneC m (by omega) (hleast m (by omega)).2
    rw [hm] at this
    omega

/-- The pop of a ticket has its cell if the push of the ticket is over. -/
theorem G.filled_of_done (hg : G cfg s.sh w) {n : Nat} {u : Tid} (hn : w.holdC n = some u)
    (hdone : w.holdP n = none) : w.rs (n % ringSize cfg.capacity) = n + 1 := by
  have hle := hg.popped_le
  obtain ⟨hlt, hrs⟩ := hg.cells.heldC n u hn
  have := hg.cells.doneP n (by omega) hdone
  omega

/-- An overrunning push that has not taken out the oldest element yet holds a lesser ticket than
that of its own element. -/
theorem pop_lt_push (hg : G cfg s.sh w) (hl : ∀ u, L cfg prod cons u s.sh w (s.loc u))
    (ht : Timely s) {p c : Nat} {u : Tid} (hp : w.holdP p = some u) (hc : w.holdC c = some u)
    (hgap : word p = word c + cfg.cap) (h0 : cfg.capacity ≠ 0) : c < p := by
  have h1 := (hg.cells.heldP p u hp).1
  have h2 := (hg.cells.heldC c u hc).1
  have h3 := nearP hl ht hp
  have h4 := nearC hl ht hc
  have h5 := hg.popped_le
  have h6 := hg.pushed_le
  have hcap := cfg.capacity_le
  have hw : word (c + cfg.capacity) = word p := by
    rw [hgap, word_add]
    rfl
  have heq : p = c + cfg.capacity := by
    rcases Nat.le_total p (c + cfg.capacity) with hle | hle
    · exact word_inj hle (by omega) hw.symm
    · exact (word_inj hle (by omega) hw).symm
  omega

/-- The operation with the least push ticket can go on. -/
theorem push_proceeds (hg : G cfg s.sh w) (hl : ∀ u, L cfg prod cons u s.sh w (s.loc u))
    (ht : Timely s) (hgaps : Gaps cfg s) {n : Nat} {u : Tid} (hn : w.holdP n = some u)
    (hleast : ∀ m, m < n → w.holdP m = none ∧ w.holdC m = none) :
    ∃ l, s.loc u = some l ∧ l.Holding ∧ Proceeds cfg s.sh l := by
  have hlu := hl u
  cases hloc : s.loc u with
  | none =>
    rw [hloc] at hlu
    have := (hlu.2.holdP n).mp hn
    omega
  | some l =>
    rw [hloc] at hlu
    obtain ⟨p, c, hh, -, hf⟩ := id hlu
    have hin := (hh.holdP n).mp hn
    have hpu : w.holdP p = some u := (hh.holdP p).mpr ⟨le_rfl, by omega⟩
    -- the first of the tickets is the least one
    obtain rfl : p = n := by
      by_contra hne
      have := (hleast p (by omega)).1
      rw [hpu] at this
      cases this
    have hrs := hg.free_of_least hn hleast
    have hhold : l.Holding := by
      show 0 < l.pushes + l.pops
      omega
    refine ⟨l, rfl, hhold, ?_⟩
    -- an overrunning push at its pop ticket would hold a lesser one
    have hover : ∀ {h x : BitVec 32}, 0 < l.pops → h = word c → x = word p →
        x = h + cfg.cap ∧ cfg.capacity ≠ 0 → False := by
      rintro h x hk rfl rfl ⟨hgap, h0⟩
      have hcu : w.holdC c = some u := (hh.holdC c).mpr ⟨le_rfl, by omega⟩
      have hlt := pop_lt_push hg hl ht hpu hcu hgap h0
      have := (hleast c hlt).2
      rw [hcu] at this
      cases this
    have hgap := hgaps u l hloc
    cases l with
    | fill st x vs ans =>
      obtain ⟨-, rfl, -⟩ := hf
      have hseq : s.sh.seq (cfg.cell (word p)) = word p := by
        rw [cell_word, hg.cells.seq _ (Nat.mod_lt _ (by have := two_le_ringSize cfg; omega)), hrs]
      exact ⟨(s.sh, .build st (word p) vs ans), by rw [step, if_pos hseq], by simp⟩
    | build st x vs ans | count st x v | destroy st x k got e => exact ⟨_, rfl, by simp⟩
    | publish st x vs ans => exact ⟨_, rfl, by cases vs.tail <;> simp [nextFill]⟩
    | take st x k got e =>
      obtain ⟨rfl, hown, y, ys, hk, -⟩ := hf
      cases e with
      | overrun y v => exact (hover (show 0 < k by omega) rfl hown.1 ⟨hgap.1, hgap.2.2⟩).elim
      | one | batch => simp only [Loc.pushes] at hin; omega
    | read st x k got e =>
      obtain ⟨⟨rfl, hown, y, ys, hk, -⟩, -⟩ := hf
      cases e with
      | overrun y v => exact (hover (show 0 < k by omega) rfl hown.1 ⟨hgap.1, hgap.2.2⟩).elim
      | one | batch => simp only [Loc.pushes] at hin; omega
    | release st x k got e =>
      refine ⟨_, rfl, ?_⟩
      cases k - 1 with
      | zero => cases e <;> simp [nextTake, finish]
      | succ k => simp [nextTake]
    | _ => simp only [Loc.pushes] at hin; omega

/-- The operation with the least pop ticket can go on if the push of the ticket is over. -/
theorem pop_proceeds (hg : G cfg s.sh w) (hl : ∀ u, L cfg prod cons u s.sh w (s.loc u))
    {n : Nat} {u : Tid} (hn : w.holdC n = some u) (hdone : w.holdP n = none)
    (hleast : ∀ m, m < n → w.holdP m = none ∧ w.holdC m = none) :
    ∃ l, s.loc u = some l ∧ l.Holding ∧ Proceeds cfg s.sh l := by
  have hlu := hl u
  cases hloc : s.loc u with
  | none =>
    rw [hloc] at hlu
    have := (hlu.2.holdC n).mp hn
    omega
  | some l =>
    rw [hloc] at hlu
    obtain ⟨p, c, hh, -, hf⟩ := id hlu
    have hin := (hh.holdC n).mp hn
    have hcu : w.holdC c = some u := (hh.holdC c).mpr ⟨le_rfl, by omega⟩
    obtain rfl : c = n := by
      by_contra hne
      have := (hleast c (by omega)).2
      rw [hcu] at this
      cases this
    have hrs := hg.filled_of_done hn hdone
    have hhold : l.Holding := by
      show 0 < l.pushes + l.pops
      omega
    refine ⟨l, rfl, hhold, ?_⟩
    cases l with
    | take st x k got e =>
      obtain ⟨rfl, -⟩ := hf
      have hseq : s.sh.seq (cfg.cell (word c)) = word c + 1 := by
        rw [cell_word, hg.cells.seq _ (Nat.mod_lt _ (by have := two_le_ringSize cfg; omega)), hrs,
          word_succ]
      exact ⟨(s.sh, .read st (word c) k got e), by rw [step, if_pos hseq], by simp⟩
    | read st x k got e =>
      obtain ⟨p', c', v, -, -, -, hraw, -⟩ := read_raw hg hlu
      exact ⟨(s.sh, .destroy st x k (got ++ [v]) e), by rw [step, hraw]; rfl, by simp⟩
    | destroy st x k got e => exact ⟨_, rfl, by simp⟩
    | release st x k got e =>
      refine ⟨_, rfl, ?_⟩
      cases k - 1 with
      | zero => cases e <;> simp [nextTake, finish]
      | succ k => simp [nextTake]
    | _ => simp only [Loc.pops] at hin; omega

/-- Of the operations that hold tickets one can go on. -/
theorem live_of_rule (hg : G cfg s.sh w) (hl : ∀ u, L cfg prod cons u s.sh w (s.loc u))
    (ht : Timely s) (hgaps : Gaps cfg s) (hsome : ∃ t l, s.loc t = some l ∧ l.Holding) :
    ∃ t l, s.loc t = some l ∧ l.Holding ∧ Proceeds cfg s.sh l := by
  classical
  have hheld : ∃ n, w.holdP n ≠ none ∨ w.holdC n ≠ none := by
    obtain ⟨t, l, hloc, hhold⟩ := hsome
    have hlt := hl t
    rw [hloc] at hlt
    obtain ⟨p, c, hh, -⟩ := hlt
    have hhold : 0 < l.pushes + l.pops := hhold
    by_cases hp : 0 < l.pushes
    · exact ⟨p, .inl (by rw [(hh.holdP p).mpr ⟨le_rfl, by omega⟩]; nofun)⟩
    · exact ⟨c, .inr (by rw [(hh.holdC c).mpr ⟨le_rfl, by omega⟩]; nofun)⟩
  have hleast : ∀ m, m < Nat.find hheld → w.holdP m = none ∧ w.holdC m = none := fun m hm => by
    have := Nat.find_min hheld hm
    simpa using this
  have hmin := Nat.find_spec hheld
  generalize Nat.find hheld = n at hleast hmin
  cases hp : w.holdP n with
  | some u =>
    obtain ⟨l, h⟩ := push_proceeds hg hl ht hgaps hp hleast
    exact ⟨u, l, h⟩
  | none =>
    obtain ⟨u, hc⟩ := Option.ne_none_iff_exists'.1 (hmin.resolve_left fun h => h hp)
    obtain ⟨l, h⟩ := pop_proceeds hg hl hc hp hleast
    exact ⟨u, l, h⟩

end Live

/-! ## The sequence numbers -/

section Seq

variable {cfg : Cfg} {prod cons t : Tid} {sh sh' : Shared α} {w : Ghost Tid α} {j : Nat}

theorem setSeq_turns {R i : Nat} {a : BitVec 32} (hi : j = i → Turns R j (sh.seq j) a) :
    (sh.setSeq i a).seq j = sh.seq j ∨ Turns R j (sh.seq j) ((sh.setSeq i a).seq j) := by
  by_cases h : j = i
  · subst h
    have hself : (sh.setSeq j a).seq j = a := Function.update_self ..
    rw [hself]
    exact .inr (hi rfl)
  · exact .inl (Function.update_of_ne h ..)

/-- A step leaves a sequence number alone or takes it on in its round. -/
theorem step_seq {b : Bool} {l l' : Loc α} (hg : G cfg sh w)
    (hl : L cfg prod cons t sh w (some l)) (hs : step cfg b sh l = some (sh', l'))
    (hj : j < ringSize cfg.capacity) :
    sh'.seq j = sh.seq j ∨ Turns (ringSize cfg.capacity) j (sh.seq j) (sh'.seq j) := by
  have same : ∀ {x : Shared α}, x = sh' → x.seq = sh.seq → sh'.seq j = sh.seq j ∨
      Turns (ringSize cfg.capacity) j (sh.seq j) (sh'.seq j) := by
    rintro x rfl h
    exact .inl (congrFun h j)
  cases l with
  | publish st x vs ans =>
    obtain ⟨rfl, -⟩ := Prod.mk.inj (Option.some.inj hs)
    obtain ⟨p, c, -, -, ⟨-, rfl, -⟩, hrs⟩ := hl
    refine setSeq_turns fun he => ?_
    rw [cell_word] at he
    subst he
    exact ⟨p, rfl, .inl ⟨by rw [hg.cells.seq _ hj, hrs], (word_succ p).symm⟩⟩
  | release st x k got e =>
    obtain ⟨rfl, -⟩ := Prod.mk.inj (Option.some.inj hs)
    obtain ⟨p, c, -, -, ⟨rfl, -⟩, hrs⟩ := hl
    refine setSeq_turns fun he => ?_
    rw [cell_word] at he
    subst he
    exact ⟨c, rfl, .inr ⟨by rw [hg.cells.seq _ hj, hrs], word_next_lap cfg c⟩⟩
  | pushClaim v st x | popClaim st x =>
    simp only [step] at hs
    split at hs <;> exact same (Prod.mk.inj (Option.some.inj hs)).1 rfl
  | swap op x =>
    simp only [step] at hs
    split at hs
    · exact same (Prod.mk.inj (Option.some.inj hs)).1 rfl
    · split at hs <;> exact same (Prod.mk.inj (Option.some.inj hs)).1 rfl
  | read st x k got e =>
    simp only [step, Option.map_eq_some_iff] at hs
    obtain ⟨v, -, hs⟩ := hs
    exact same (Prod.mk.inj hs).1 rfl
  | abort | done ans => cases hs
  | _ => exact same (Prod.mk.inj (Option.some.inj hs)).1 rfl

end Seq

/-! ## Runs -/

section Theorems

variable {cfg : Cfg} {prod cons : Tid} {s : Config Tid (Shared α) (Loc α)}

theorem handover_of_rule {w : Ghost Tid α} {elems : List α} (hg : G cfg s.sh w)
    (hl : ∀ t, L cfg prod cons t s.sh w (s.loc t)) (ht : Timely s) (hgaps : Gaps cfg s)
    (hpre : w.elems <+: elems) : Handover cfg elems s := by
  -- the list of the whole run has the elements put in so far
  have helem : ∀ {n : Nat} {v : α}, w.elems[n]? = some v → elems[n]? = some v := by
    rintro n v hv
    obtain ⟨r, rfl⟩ := hpre
    rw [List.getElem?_append_left (lt_length_of_getElem? hv)]
    exact hv
  refine ⟨fun t st x vs ans hloc => ?_, fun t st x k got e hloc => ?_,
    fun t u l l' j ht hu hj hj' => ?_, fun j hj => ?_, live_of_rule hg hl ht hgaps⟩
  · have hlt := hl t
    rw [hloc] at hlt
    obtain ⟨p, c, hh, -, ⟨-, rfl, hne, hvs⟩, hrs⟩ := hlt
    obtain ⟨v, vs, rfl⟩ := List.exists_cons_of_ne_nil hne
    have hp : w.holdP p = some t :=
      (hh.holdP p).mpr ⟨le_rfl, Nat.lt_add_of_pos_right (Nat.succ_pos _)⟩
    refine ⟨?_, p, v, rfl, (hg.cells.heldP p t hp).1, rfl, helem (getElem?_of_cons_drop hvs)⟩
    rw [cell_word, hg.cells.empty p hrs, if_neg]
    exact fun hb => absurd ((hh.built p hp).mp hb).1 Bool.false_ne_true
  · have hlt := hl t
    rw [hloc] at hlt
    obtain ⟨p, c, v, hh, hx, hv, hraw, -, -, xs, hk, -⟩ := read_raw hg hlt
    have hc : w.holdC c = some t := (hh.holdC c).mpr ⟨le_rfl, by omega⟩
    exact ⟨c, v, hx, (hg.cells.heldC c t hc).1, hraw, helem hv⟩
  · have h1 := hl t
    have h2 := hl u
    rw [ht] at h1
    rw [hu] at h2
    exact inside_inj h1 h2 hj hj'
  · obtain ⟨n, hn, hrs⟩ := hg.cells.lap j hj
    rw [hg.cells.seq j hj]
    exact ⟨n, hn, hrs.imp (congrArg word) (congrArg word)⟩

variable [DecidableEq Tid]

/--
**The cells of the ring are handed over in turn, and nobody waits for ever.**

For either layout: there is one list of elements, in the order of the push tickets, such that in
every state of the run a push fills an empty cell with the element of its ticket, a pop takes that
of its ticket, no two operations are at one cell, and of the operations that hold tickets at least
one can go on. A cell's sequence number goes from `t` to `t + 1` and on to `t + R`, as words.
-/
theorem cells_handed_over {h : List (Event Tid (BoundedOp α) (BoundedAns α))}
    (hr : (machine cfg prod cons).Run Timely h s) :
    (∃ elems, (machine cfg prod cons).Run (Handover cfg elems) h s) ∧
      ∀ es s', (machine cfg prod cons).Next s es s' → ∀ j, j < ringSize cfg.capacity →
        s'.sh.seq j = s.sh.seq j ∨
          Turns (ringSize cfg.capacity) j (s.sh.seq j) (s'.sh.seq j) := by
  let R := (rule (α := α) cfg prod cons).restrict (Q := fun s => Timely s ∧ Gaps cfg s) And.left
  obtain ⟨w, hg, hl, hrun⟩ := R.throughout (D := fun w elems => w.elems <+: elems)
    (Q := fun s elems => Handover cfg elems s) (fun hrely hx => hrely.elems.trans hx)
    (fun hP hg hl hx => handover_of_rule hg hl hP.1 hP.2 hx) (gaps hr)
  refine ⟨⟨w.elems, hrun w.elems List.prefix_rfl⟩, fun es s' hn j hj => ?_⟩
  cases hn with
  | call hloc hm | ret hloc ha => exact .inl rfl
  | @step t l hloc c sh' l' hs =>
    have hlt := hl t
    rw [hloc] at hlt
    exact step_seq hg hlt hs hj

/-- Two slots are full. Thread 0 overruns the oldest element and thread 1 the next; both have taken
their tickets and neither has taken its element out. -/
def overrunSchedule : List (Action Nat (Call Nat) Bool) :=
  [.call 0 (.tryPushN [7, 8]), .step 0 true, .step 0 true, .step 0 true, .step 0 true,
   .step 0 true, .step 0 true, .step 0 true, .step 0 true, .ret 0,
   .call 0 (.pushOverrun 9), .step 0 true, .step 0 true,
   .call 1 (.pushOverrun 10), .step 1 true, .step 1 true]

theorem cells_handed_over_example : ∃ s, (machine packedCfg 0 0).Run Timely
    [.call 0 [.pushN [7, 8]], .ret 0 [.pushedN 2], .call 0 [.overrun 9], .call 1 [.overrun 10]] s ∧
    (∃ l, s.loc 0 = some l ∧ l.Holding) ∧ (∃ l, s.loc 1 = some l ∧ l.Holding) ∧
    (∃ elems, (machine packedCfg 0 0).Run (Handover packedCfg elems)
      [.call 0 [.pushN [7, 8]], .ret 0 [.pushedN 2], .call 0 [.overrun 9],
       .call 1 [.overrun 10]] s) ∧
      ∀ es s', (machine packedCfg 0 0).Next s es s' → ∀ j, j < ringSize 2 →
        s'.sh.seq j = s.sh.seq j ∨ Turns (ringSize 2) j (s.sh.seq j) (s'.sh.seq j) := by
  have hr : (machine packedCfg 0 0).Runs _ _ :=
    Machine.runs_of_exec (.init trivial) overrunSchedule rfl
  have hr' := timely_of_short hr (by decide) (by decide)
  exact ⟨_, hr', ⟨_, rfl, Nat.succ_pos 1⟩, ⟨_, rfl, Nat.succ_pos 1⟩, cells_handed_over hr'⟩

end Theorems

end Wtc.Bounded
