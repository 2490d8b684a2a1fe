import Wtc.CQueue.Linear

/-!
# The proof rule for the lifted queue

The ghost is the original queue as an atomic object. `G` ties it to the shared state; `L` says how
much of its call each thread has done.
-/

namespace Wtc.CQueue

open Wtc.Concurrent

variable {P Tid : Type} [DecidableEq Tid] {cfg : Cfg}

abbrev Ghost (P Tid : Type) := Atomic.State Tid (Call P) (Ans P) (Held P)

structure G (cfg : Cfg) (sh : Shared P Tid) (w : Ghost P Tid) : Prop where
  obj : w.obj = ⟨sh.ring, sh.terms⟩
  ended : sh.ended = BitVec.ofNat 32 sh.terms
  open_full : (sh.waiter .notFull).closed = false
  closed_empty : (sh.waiter .notEmpty).closed = true → cfg.Finished sh.terms
  room : sh.ring.length ≤ cfg.capacity

/-- What thread `t` relies on at its location. -/
def L (cfg : Cfg) (t : Tid) (sh : Shared P Tid) (w : Ghost P Tid) : Option (Loc P) → Prop
  | none => w.pend t = none
  | some (.wait c l) =>
    c ≠ .terminate ∧ l.waits false = true ∧
    (l.sawClosed = true → c.side = .notEmpty ∧ cfg.Finished sh.terms) ∧
    (l.outcome = none → w.Pend t [c] []) ∧
    ∀ r, l.outcome = some r → w.Pend t [] [c.answer r]
  | some (.tell _ a l) => l.signals = true ∧ l ≠ .shut ∧ w.Pend t [] [a]
  | some .terminate => w.Pend t [.terminate] []
  | some (.closing l) => l.signals = true ∧ cfg.Finished sh.terms ∧ w.Pend t [] [.terminated]
  | some (.fail _) => True
  | some (.done a) => w.Pend t [] [a]

/-- What a step of thread `t` leaves to the others. -/
structure Rely (t : Tid) (sh : Shared P Tid) (w : Ghost P Tid) (sh' : Shared P Tid)
    (w' : Ghost P Tid) : Prop where
  terms : sh.terms ≤ sh'.terms
  pend : ∀ u, u ≠ t → w'.pend u = w.pend u

theorem Cfg.Finished.mono {m n : Nat} (h : m ≤ n) (hf : cfg.Finished m) : cfg.Finished n :=
  ⟨hf.1, hf.2.trans (by exact_mod_cast h)⟩

omit [DecidableEq Tid] in
theorem L.stable {t u : Tid} {sh sh' : Shared P Tid} {w w' : Ghost P Tid} {x : Option (Loc P)}
    (hu : u ≠ t) (hl : L cfg u sh w x) (hr : Rely t sh w sh' w') : L cfg u sh' w' x := by
  have hp := hr.pend u hu
  rcases x with _ | ⟨c, l⟩ | ⟨side, a, l⟩ | _ | l | _ | a
  · exact hp.trans hl
  · obtain ⟨h1, h2, h3, h4, h5⟩ := hl
    exact ⟨h1, h2, fun h => (h3 h).imp_right (Cfg.Finished.mono hr.terms), fun h => (h4 h).of_eq hp,
      fun r h => (h5 r h).of_eq hp⟩
  · exact ⟨hl.1, hl.2.1, hl.2.2.of_eq hp⟩
  · exact Atomic.State.Pend.of_eq hp hl
  · exact ⟨hl.1, Cfg.Finished.mono hr.terms hl.2.1, hl.2.2.of_eq hp⟩
  · trivial
  · exact Atomic.State.Pend.of_eq hp hl

/-- A step keeps the rule: the ghost moves along, `G` and `L` hold again. -/
def Kept (cfg : Cfg) (t : Tid) (sh : Shared P Tid) (w : Ghost P Tid) (sh' : Shared P Tid)
    (l' : Loc P) : Prop :=
  ∃ w', Atomic.Steps (original P cfg) w w' ∧ G cfg sh' w' ∧ L cfg t sh' w' (some l') ∧
    Rely t sh w sh' w'

section Steps

variable {t : Tid} {sh sh' : Shared P Tid} {w : Ghost P Tid} {ch : Waiter.Choice Tid} {l' : Loc P}

/-- A step that leaves the ghost alone. -/
theorem Kept.still (hg : G cfg sh' w) (hl : L cfg t sh' w (some l')) (ht : sh.terms ≤ sh'.terms) :
    Kept cfg t sh w sh' l' :=
  ⟨w, .refl, hg, hl, ht, fun _ _ => rfl⟩

/-- A step at which the call of `t` takes effect. -/
theorem Kept.lin {c : Call P} {a : Ans P} {q : Held P} (hp : w.Pend t [c] [])
    (hs : Original.Step cfg w.obj c a q) (hg : G cfg sh' (w.lin t [] [a] q))
    (hl : L cfg t sh' (w.lin t [] [a] q) (some l')) (ht : sh.terms ≤ sh'.terms) :
    Kept cfg t sh w sh' l' :=
  ⟨_, hp.lin hs, hg, hl, ht, fun _ hu => Atomic.State.lin_pend_ne _ hu _ _ _⟩

omit [DecidableEq Tid] in
/-- A step inside an eventcount that leaves the ring alone and sets `closed_` only rightly. -/
theorem G.setWaiter (hg : G cfg sh w) {side : Side} {v : Waiter.Shared Tid}
    (hc : v.closed = (sh.waiter side).closed ∨ side = .notEmpty ∧ cfg.Finished sh.terms) :
    G cfg (sh.setWaiter side v) w := by
  refine ⟨hg.obj, hg.ended, ?_, ?_, hg.room⟩
  · cases side with
    | notEmpty => exact hg.open_full
    | notFull => exact (hc.resolve_right nofun).trans hg.open_full
  · intro h
    cases side with
    | notEmpty =>
      rcases hc with hc | hc
      · exact hg.closed_empty (hc.symm.trans h)
      · exact hc.2
    | notFull => exact hg.closed_empty h

omit [DecidableEq Tid] in
/-- Only the eventcount of the consumers is ever closed. -/
theorem G.finished_of_closed (hg : G cfg sh w) {side : Side}
    (h : (sh.waiter side).closed = true) : side = .notEmpty ∧ cfg.Finished sh.terms := by
  cases side with
  | notEmpty => exact ⟨rfl, hg.closed_empty h⟩
  | notFull => rw [hg.open_full] at h; cases h

theorem G.lin (hg : G cfg sh w) {c : Call P} {a : Ans P} {q : List P}
    (hs : Original.Step cfg ⟨sh.ring, sh.terms⟩ c a ⟨q, sh.terms⟩) :
    G cfg { sh with ring := q } (w.lin t [] [a] ⟨q, sh.terms⟩) :=
  ⟨rfl, hg.ended, hg.open_full, hg.closed_empty, original_length_le hg.room hs⟩

/-! ## One step at each kind of location -/

variable {l : Waiter.Loc (Got P)}

/-- A step inside an eventcount is one of the eventcount. -/
theorem inside_step {look : List P → List P × Option (Got P)} {side : Side}
    {f : Waiter.Loc (Got P) → Loc P}
    (hs : (inside look t ch sh side l).map (fun (sh', l') => (sh', f l')) = some (sh', l')) :
    ∃ q v l₁, Waiter.step policy look t ch sh.ring (sh.waiter side) l = some (q, v, l₁) ∧
      sh' = ({ sh with ring := q } : Shared P Tid).setWaiter side v ∧ l' = f l₁ := by
  simp only [inside, Option.map_map, Option.map_eq_some_iff] at hs
  obtain ⟨⟨q, v, l₁⟩, hs, he⟩ := hs
  cases he
  exact ⟨q, v, l₁, hs, rfl, rfl⟩

theorem step_wait {c : Call P} (hs : step cfg t ch sh (.wait c l) = some (sh', l')) :
    (∃ r, l = .done r ∧ sh' = sh ∧ l' = after c r) ∨
    ∃ q v l₁, Waiter.step policy (look cfg c) t ch sh.ring (sh.waiter c.side) l = some (q, v, l₁) ∧
      sh' = ({ sh with ring := q } : Shared P Tid).setWaiter c.side v ∧ l' = .wait c l₁ := by
  cases l with
  | done r => cases hs; exact .inl ⟨r, rfl, rfl, rfl⟩
  | _ => exact .inr (inside_step hs)

theorem step_tell {side : Side} {a : Ans P}
    (hs : step cfg t ch sh (.tell side a l) = some (sh', l')) :
    (sh' = sh ∧ l' = .done a) ∨
    ∃ q v l₁, Waiter.step policy noLook t ch sh.ring (sh.waiter side) l = some (q, v, l₁) ∧
      sh' = ({ sh with ring := q } : Shared P Tid).setWaiter side v ∧ l' = .tell side a l₁ := by
  cases l with
  | done r => cases hs; exact .inl ⟨rfl, rfl⟩
  | _ => exact .inr (inside_step hs)

theorem step_closing (hs : step cfg t ch sh (.closing l) = some (sh', l')) :
    (sh' = sh ∧ l' = .done .terminated) ∨
    ∃ q v l₁, Waiter.step policy noLook t ch sh.ring (sh.waiter .notEmpty) l = some (q, v, l₁) ∧
      sh' = ({ sh with ring := q } : Shared P Tid).setWaiter .notEmpty v ∧ l' = .closing l₁ := by
  cases l with
  | done r => cases hs; exact .inl ⟨rfl, rfl⟩
  | _ => exact .inr (inside_step hs)

omit [DecidableEq Tid] in
/-- The end of a wait leaves its answer to the rest of the operation. -/
theorem L_after {c : Call P} {r : Option (Got P)} (hp : w.Pend t [] [c.answer r]) :
    L cfg t sh w (some (after c r)) := by
  have tell : ∀ side k, L cfg t sh w (some (.tell side (c.answer r) (Waiter.notify policy k))) :=
    fun side k => ⟨(Waiter.signals_notify policy k).1, (Waiter.signals_notify policy k).2, hp⟩
  cases c with
  | pushWait v => exact tell _ _
  | popWait =>
    cases r with
    | none => exact hp
    | some g => exact tell _ _
  | terminate => exact hp
  | pushBatch src limit =>
    simp only [after]
    split_ifs
    · exact tell _ _
    · exact tell _ _
  | popBatch dst limit =>
    cases r with
    | none => exact hp
    | some g =>
      simp only [after]
      split_ifs
      · exact tell _ _
      · exact tell _ _

theorem kept_wait {c : Call P} (hcap : cfg.capacity ≤ 2 ^ 30) (hg : G cfg sh w)
    (hl : L cfg t sh w (some (.wait c l))) (hs : step cfg t ch sh (.wait c l) = some (sh', l')) :
    Kept cfg t sh w sh' l' := by
  obtain ⟨hc, hw, hsaw, hopen, hover⟩ := hl
  rcases step_wait hs with ⟨r, rfl, rfl, rfl⟩ | ⟨q, v, l₁, hstep, rfl, rfl⟩
  · exact .still hg (L_after (hover r rfl)) le_rfl
  obtain ⟨hw', hclosed, hstep⟩ := Waiter.step_wait hw hstep
  have same : ∀ {w' : Ghost P Tid}, G cfg { sh with ring := q } w' →
      G cfg (({ sh with ring := q } : Shared P Tid).setWaiter c.side v) w' :=
    fun h => h.setWaiter (.inl hclosed)
  cases hstep with
  | on hq ho hsaw' _ =>
    subst hq
    refine .still (same hg) ⟨hc, hw', fun h => ?_, fun h => hopen (ho ▸ h),
      fun r h => hover r (ho ▸ h)⟩ le_rfl
    rcases hsaw' h with h | h
    · exact hsaw h
    · exact hg.finished_of_closed h
  | took r hn hq ho hsaw' _ =>
    have hs' := look_took hcap hg.room hq sh.terms
    refine .lin (hopen hn) (hg.obj ▸ hs') (same (hg.lin hs')) ?_ le_rfl
    refine ⟨hc, hw', by simp [hsaw'], by simp [ho], fun r' h => ?_⟩
    obtain rfl : some r = r' := Option.some.inj (ho.symm.trans h)
    exact Atomic.State.lin_pend_self _ _ _ _ _
  | missed hn hq ho hsaw' =>
    obtain ⟨rfl, -⟩ := look_missed hq
    exact .still (same hg) ⟨hc, hw', by simp [hsaw'], fun _ => hopen hn, by simp [ho]⟩ le_rfl
  -- these waits have no time limit
  | late hlim => cases hlim
  | ended hn hq hs ho hsaw' _ =>
    obtain ⟨hside, hfin⟩ := hsaw hs
    obtain ⟨rfl, hempty⟩ := look_missed hq
    have hs' := look_ended hside hc ((hempty hside).resolve_left hc) hfin
    refine .lin (hopen hn) (hg.obj ▸ hs') (same (hg.lin hs')) ?_ le_rfl
    refine ⟨hc, hw', by simp [hsaw'], by simp [ho], fun r' h => ?_⟩
    obtain rfl : none = r' := Option.some.inj (ho.symm.trans h)
    exact Atomic.State.lin_pend_self _ _ _ _ _

theorem kept_tell {side : Side} {a : Ans P} (hg : G cfg sh w)
    (hl : L cfg t sh w (some (.tell side a l)))
    (hs : step cfg t ch sh (.tell side a l) = some (sh', l')) : Kept cfg t sh w sh' l' := by
  obtain ⟨hsig, hshut, hp⟩ := hl
  rcases step_tell hs with ⟨rfl, rfl⟩ | ⟨q, v, l₁, hstep, rfl, rfl⟩
  · exact .still hg hp le_rfl
  · obtain ⟨rfl, hsig', hclosed, hshut'⟩ := Waiter.step_signal hsig hstep
    exact .still (hg.setWaiter (.inl (hclosed.resolve_right hshut))) ⟨hsig', hshut', hp⟩ le_rfl

theorem kept_closing (hg : G cfg sh w) (hl : L cfg t sh w (some (.closing l)))
    (hs : step cfg t ch sh (.closing l) = some (sh', l')) : Kept cfg t sh w sh' l' := by
  obtain ⟨hsig, hfin, hp⟩ := hl
  rcases step_closing hs with ⟨rfl, rfl⟩ | ⟨q, v, l₁, hstep, rfl, rfl⟩
  · exact .still hg hp le_rfl
  · obtain ⟨rfl, hsig', -, -⟩ := Waiter.step_signal hsig hstep
    exact .still (hg.setWaiter (.inr ⟨rfl, hfin⟩)) ⟨hsig', hfin, hp⟩ le_rfl

/-- The count in the `int` is at most the number of terminations. -/
theorem toInt_le (n : Nat) : (BitVec.ofNat 32 n).toInt ≤ n := by
  rw [BitVec.toInt_eq_toNat_cond, BitVec.toNat_ofNat]
  split <;> omega

theorem kept_terminate (hg : G cfg sh w) (hl : L cfg t sh w (some .terminate))
    (hs : step cfg t ch sh .terminate = some (sh', l')) : Kept cfg t sh w sh' l' := by
  simp only [step] at hs
  have hend : sh.ended + 1 = BitVec.ofNat 32 (sh.terms + 1) := by
    rw [hg.ended, BitVec.ofNat_add]
    rfl
  have hg' : G cfg { sh with ended := sh.ended + 1, terms := sh.terms + 1 }
      (w.lin t [] [.terminated] ⟨sh.ring, sh.terms + 1⟩) :=
    ⟨rfl, hend, hg.open_full, fun h => (hg.closed_empty h).mono (Nat.le_succ _), hg.room⟩
  have hs' : Original.Step cfg w.obj .terminate .terminated ⟨sh.ring, sh.terms + 1⟩ :=
    ⟨rfl, by rw [hg.obj]⟩
  have hp' : (w.lin t [] [.terminated] ⟨sh.ring, sh.terms + 1⟩).Pend t [] [.terminated] :=
    Atomic.State.lin_pend_self _ _ _ _ _
  split_ifs at hs with hn hgt he heq <;> cases hs
  · exact .still hg trivial le_rfl
  · exact .lin hl hs' hg' trivial (Nat.le_succ _)
  · exact .lin hl hs' hg' hp' (Nat.le_succ _)
  · refine .lin hl hs' hg' ⟨rfl, ⟨hn, ?_⟩, hp'⟩ (Nat.le_succ _)
    rw [← heq, hend]
    exact toInt_le _
  · exact .lin hl hs' hg' hp' (Nat.le_succ _)

theorem kept_step {l : Loc P} (hcap : cfg.capacity ≤ 2 ^ 30) (hg : G cfg sh w)
    (hl : L cfg t sh w (some l)) (hs : step cfg t ch sh l = some (sh', l')) :
    Kept cfg t sh w sh' l' := by
  cases l with
  | wait c l => exact kept_wait hcap hg hl hs
  | tell side a l => exact kept_tell hg hl hs
  | terminate => exact kept_terminate hg hl hs
  | closing l => exact kept_closing hg hl hs
  | fail what | done a => cases hs

end Steps

/-! ## The rule -/

omit [DecidableEq Tid] in
theorem G_init : G cfg (Shared.init cfg : Shared P Tid) (Atomic.init (original P cfg)) where
  obj := rfl
  ended := rfl
  open_full := by simp [Shared.init, Waiter.Shared.init]
  closed_empty := by
    intro h
    simp only [Shared.init] at h
    split_ifs at h with hc
    · exact ⟨hc.2.1, hc.2.2⟩
    · cases h
  room := Nat.zero_le _

/-- The thread-modular proof that the lifted queue carries the original along. -/
def rule (hcap : cfg.capacity ≤ 2 ^ 30) :
    Rule (machine P Tid cfg) (fun _ => True) (carries (original P cfg) id) where
  w₀ := Atomic.init (original P cfg)
  G := G cfg
  L := L cfg
  rely := Rely
  init := ⟨G_init, fun _ => rfl⟩
  call := by
    intro s w t c hg hl _ hn _
    have hp : w.pend t = none := by simpa [hn, L] using hl t
    refine ⟨w.set t (some (.new [c])), .call hp _, ⟨hg.obj, hg.ended, hg.open_full,
      hg.closed_empty, hg.room⟩, ?_, le_rfl, fun u hu => Atomic.State.set_pend_ne _ hu _⟩
    have hp' : (w.set t (some (.new [c]))).Pend t [c] [] := ⟨_, Atomic.State.set_pend_self _ _ _⟩
    have hw := Waiter.sawClosed_waitUntil (R := Got P) policy false
    have ho := Waiter.outcome_waitUntil (R := Got P) policy false
    cases c with
    | terminate => exact hp'
    | _ =>
      exact ⟨nofun, Waiter.waits_waitUntil _ _, by simp [hw], fun _ => hp', by simp [ho]⟩
  step := by
    intro s w t l ch sh' l' hg _ _ _ _ hl hs
    obtain ⟨w', hsteps, hk⟩ := kept_step hcap hg hl hs
    exact ⟨w', .steps hsteps, hk⟩
  ret := by
    intro s w t l ans hg hl _ hn ha
    obtain ⟨a, rfl, rfl⟩ : ∃ a, l = .done a ∧ ans = [a] := by
      simp only [machine] at ha
      split at ha <;> cases ha
      exact ⟨_, rfl, rfl⟩
    obtain ⟨seen, hp⟩ : w.Pend t [] [a] := by simpa [hn, L] using hl t
    exact ⟨w.set t none, .ret .refl hp, ⟨hg.obj, hg.ended, hg.open_full, hg.closed_empty, hg.room⟩,
      Atomic.State.set_pend_self _ _ _, le_rfl, fun u hu => Atomic.State.set_pend_ne _ hu _⟩
  stable := fun hu _ _ hl hr => hl.stable hu hr

end Wtc.CQueue
