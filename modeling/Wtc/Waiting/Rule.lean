import Wtc.Waiting.Model

/-!
# The proof rule for queues that are waited on

The ghost is the queue as an atomic object that can be closed. A close takes effect where it sets
`closed_` of the consumers' eventcount. A wait that answers false because of the close takes effect
at its last look; one with a time limit takes note of an empty queue at each look that finds
nothing and settles on that when the clock shows the limit passed.
-/

namespace Wtc.Waiting

open Wtc.Concurrent

variable {α Tid : Type} [DecidableEq Tid] {cfg : Cfg}

abbrev Ghost (α Tid : Type) := Atomic.State Tid (WaitOp α) (WaitAns α) (Closable α)

/-- `closed_` of the consumers' eventcount, which is closed first. -/
abbrev Shared.closed (sh : Shared α Tid) : Bool := (sh.waiter .notEmpty).closed

structure G (sh : Shared α Tid) (w : Ghost α Tid) : Prop where
  obj : w.obj = ⟨sh.elems, sh.closed⟩
  first : (sh.waiter .notFull).closed = true → sh.closed = true

/-- Thread `t` has its operation to do, and has seen what these answers say. -/
def Noted (w : Ghost α Tid) (t : Tid) (op : WaitOp α) (a : WaitAns α) : Prop :=
  ∃ seen, w.pend t = some ⟨[op], [], seen⟩ ∧ seen a

/-- What a wait answers. -/
def Waits.answer : Waits α → Option (Got α) → WaitAns α
  | .push v, none => .pushed (some v)
  | .push _, some _ => .pushed none
  | _, some (.popped v) => .popped (some v)
  | _, _ => .popped none

/-- Thread `t` has done its call and is to answer this, which is not that a limit has passed. -/
def Ready (w : Ghost α Tid) (t : Tid) (ans : List (WaitAns α)) : Prop :=
  w.Pend t [] ans ∧ .timedOut ∉ ans

/-- What thread `t` relies on at its location. -/
def L (cfg : Cfg) (t : Tid) (sh : Shared α Tid) (w : Ghost α Tid) : Option (Loc α) → Prop
  | none => w.pend t = none
  | some (.push vs n) => w.Pend t (vs.map .push) (List.replicate n (.pushed none))
  | some (.tryPush v) => w.Pend t [.tryPush v] []
  | some (.pushOverrun v) => w.Pend t [.overrun v] []
  | some .tryPop => w.Pend t [.tryPop] []
  | some (.wait u looked l) =>
    l.waits u.limit.isSome = true ∧ (l.sawClosed = true → sh.closed = true) ∧
    (l.outcome = none → w.Pend t [u.op] []) ∧
    (∀ r, l.outcome = some r → w.Pend t [] [u.answer r]) ∧
    (l.missed = true → u.limit.isSome = true → Noted w t .popFor .timedOut) ∧
    ∀ lim, u.limit = some lim → lim.started ≤ looked ∧ looked ≤ sh.clock ∧
      0 < lim.ns.toInt ∧ lim.ns.toNat ≤ kForeverNs
  | some (.popOnce _) => w.Pend t [.popFor] []
  | some (.readClock limit) =>
    0 < limit.toInt ∧ limit.toNat ≤ kForeverNs ∧ w.Pend t [.popFor] []
  | some (.tell _ ans l) => l.signals = true ∧ l ≠ .shut ∧ Ready w t ans
  | some (.closeEmpty l) =>
    l.signals = true ∧ (l = .shut → w.Pend t [.close] []) ∧
    (l ≠ .shut → w.Pend t [] [.closed] ∧ sh.closed = true)
  | some (.closeFull l) => l.signals = true ∧ w.Pend t [] [.closed] ∧ sh.closed = true
  | some (.gaveUp lim looked) =>
    lim.started ≤ looked ∧ looked ≤ sh.clock ∧ w.Pend t [] [.timedOut] ∧
    (lim.ns.toInt ≤ 0 ∨ lim.ns.toNat ≤ kForeverNs ∧ ∃ now, looked ≤ now ∧ now ≤ sh.clock ∧
      passed (lim.until cfg) (BitVec.ofNat 64 now) = true)
  | some (.done ans) => Ready w t ans

/-- What a step of thread `t` leaves to the others. -/
structure Rely (t : Tid) (sh : Shared α Tid) (w : Ghost α Tid) (sh' : Shared α Tid)
    (w' : Ghost α Tid) : Prop where
  closed : sh.closed = true → sh'.closed = true
  clock : sh.clock ≤ sh'.clock
  pend : ∀ u, u ≠ t → w'.pend u = w.pend u

omit [DecidableEq Tid] in
theorem Noted.of_eq {w w' : Ghost α Tid} {t : Tid} {op : WaitOp α} {a : WaitAns α}
    (he : w'.pend t = w.pend t) (h : Noted w t op a) : Noted w' t op a := by
  obtain ⟨seen, hp, ha⟩ := h
  exact ⟨seen, he.trans hp, ha⟩

variable {ans : List (WaitAns α)}

omit [DecidableEq Tid] in
theorem Ready.of_eq {w w' : Ghost α Tid} {t : Tid} (he : w'.pend t = w.pend t) (h : Ready w t ans) :
    Ready w' t ans :=
  ⟨h.1.of_eq he, h.2⟩

omit [DecidableEq Tid] in
theorem L.mono {t : Tid} {sh sh' : Shared α Tid} {w w' : Ghost α Tid} {x : Option (Loc α)}
    (hl : L cfg t sh w x) (hc : sh.closed = true → sh'.closed = true) (hk : sh.clock ≤ sh'.clock)
    (hp : w'.pend t = w.pend t) : L cfg t sh' w' x := by
  rcases x with _ | x
  · exact hp.trans hl
  cases x with
  | wait v looked l =>
    obtain ⟨h1, h2, h3, h4, h5, h6⟩ := hl
    exact ⟨h1, fun h => hc (h2 h), fun h => (h3 h).of_eq hp, fun r h => (h4 r h).of_eq hp,
      fun h h' => (h5 h h').of_eq hp,
      fun lim h => (h6 lim h).imp_right fun h => h.imp_left fun h => h.trans hk⟩
  | tell side ans l | readClock limit => exact ⟨hl.1, hl.2.1, hl.2.2.of_eq hp⟩
  | closeEmpty l =>
    exact ⟨hl.1, fun h => (hl.2.1 h).of_eq hp,
      fun h => ⟨(hl.2.2 h).1.of_eq hp, hc (hl.2.2 h).2⟩⟩
  | closeFull l => exact ⟨hl.1, hl.2.1.of_eq hp, hc hl.2.2⟩
  | gaveUp lim looked =>
    obtain ⟨h1, h2, h3, h4⟩ := hl
    refine ⟨h1, h2.trans hk, h3.of_eq hp, h4.imp_right fun h => h.imp_right ?_⟩
    rintro ⟨now, h5, h6, h7⟩
    exact ⟨now, h5, h6.trans hk, h7⟩
  | done ans => exact Ready.of_eq hp hl
  | push | tryPush | pushOverrun | tryPop | popOnce =>
    exact Atomic.State.Pend.of_eq hp hl

/-- A step keeps the rule: the ghost moves along, `G` and `L` hold again. -/
def Kept (cfg : Cfg) (t : Tid) (sh : Shared α Tid) (w : Ghost α Tid) (sh' : Shared α Tid)
    (l' : Loc α) : Prop :=
  ∃ w', Atomic.Steps (closable α cfg.capacity) w w' ∧ G sh' w' ∧ L cfg t sh' w' (some l') ∧
    Rely t sh w sh' w'

section Steps

variable {t : Tid} {sh sh' : Shared α Tid} {w : Ghost α Tid} {ch : Choice Tid} {l' : Loc α}

/-- A step that leaves the ghost alone. -/
theorem Kept.still (hg : G sh' w) (hl : L cfg t sh' w (some l'))
    (hc : sh.closed = true → sh'.closed = true) (hk : sh.clock ≤ sh'.clock) :
    Kept cfg t sh w sh' l' :=
  ⟨w, .refl, hg, hl, hc, hk, fun _ _ => rfl⟩

variable {done : List (WaitAns α)} {side : Side} {u : Waits α} {l : Waiter.Loc (Got α)}

/-- A step at which the next part of the call of `t` takes effect. -/
theorem Kept.lin {op : WaitOp α} {todo : List (WaitOp α)} {a : WaitAns α} {q : Closable α}
    (hp : w.Pend t (op :: todo) done) (hs : ClosableStep cfg.capacity w.obj op a q)
    (hg : G sh' (w.lin t todo (done ++ [a]) q))
    (hl : L cfg t sh' (w.lin t todo (done ++ [a]) q) (some l'))
    (hc : sh.closed = true → sh'.closed = true) (hk : sh.clock ≤ sh'.clock) :
    Kept cfg t sh w sh' l' :=
  ⟨_, hp.lin hs, hg, hl, hc, hk, fun _ hu => Atomic.State.lin_pend_ne _ hu _ _ _⟩

/-- The same where only the elements change. -/
theorem Kept.lin_elems {op : WaitOp α} {todo : List (WaitOp α)} {a : WaitAns α} {q : List α}
    (hg : G sh w) (hp : w.Pend t (op :: todo) done)
    (hs : ClosableStep cfg.capacity ⟨sh.elems, sh.closed⟩ op a ⟨q, sh.closed⟩)
    (hl : ∀ w' : Ghost α Tid, w'.Pend t todo (done ++ [a]) →
      L cfg t { sh with elems := q } w' (some l')) :
    Kept cfg t sh w { sh with elems := q } l' :=
  .lin hp (hg.obj ▸ hs) ⟨rfl, hg.first⟩ (hl _ (Atomic.State.lin_pend_self ..)) id le_rfl

omit [DecidableEq Tid] in
/-- A step inside an eventcount that leaves the elements alone and `closed_` as it is. -/
theorem G.setWaiter (hg : G sh w) {v : Waiter.Shared Tid}
    (hc : v.closed = (sh.waiter side).closed) : G (sh.setWaiter side v) w := by
  cases side with
  | notEmpty =>
    have he : (sh.setWaiter .notEmpty v).closed = sh.closed := hc
    exact ⟨by rw [he]; exact hg.obj, fun h => he.trans (hg.first h)⟩
  | notFull => exact ⟨hg.obj, fun h => hg.first (hc.symm.trans h)⟩

omit [DecidableEq Tid] in
theorem closed_setWaiter {v : Waiter.Shared Tid} (hc : v.closed = (sh.waiter side).closed) :
    (sh.setWaiter side v).closed = sh.closed := by
  cases side with
  | notEmpty => exact hc
  | notFull => rfl

omit [DecidableEq Tid] in
theorem G.closed_side (hg : G sh w) (h : (sh.waiter side).closed = true) : sh.closed = true := by
  cases side with
  | notEmpty => exact h
  | notFull => exact hg.first h

/-! ## What follows an operation -/

omit [DecidableEq Tid] in
theorem L_published {n : Nat} (hp : Ready w t ans) : L cfg t sh w (some (published cfg n ans)) :=
  ⟨(Waiter.signals_notify cfg.policy n).1, (Waiter.signals_notify cfg.policy n).2, hp⟩

omit [DecidableEq Tid] in
theorem L_took {v : α} (hp : w.Pend t [] [.popped (some v)]) :
    L cfg t sh w (some (took cfg v)) := by
  have hp : Ready w t [.popped (some v)] := ⟨hp, by simp⟩
  unfold took
  split_ifs
  · exact ⟨(Waiter.signals_notify cfg.policy 1).1, (Waiter.signals_notify cfg.policy 1).2, hp⟩
  · exact hp

omit [DecidableEq Tid] in
theorem L_after {r : Option (Got α)} (hp : w.Pend t [] [u.answer r]) :
    L cfg t sh w (some (after cfg u r)) := by
  rcases u with v | _ | lim <;> rcases r with _ | _ | x
  all_goals first | exact L_took hp | exact L_published ⟨hp, by simp⟩ | exact ⟨hp, by simp⟩

/-! ## The looks -/

omit [DecidableEq Tid] in
theorem look_took {q q' : List α} {c : Bool} {r : Got α} (h : look cfg u q = (q', some r)) :
    ClosableStep cfg.capacity ⟨q, c⟩ u.op (u.answer (some r)) ⟨q', c⟩ := by
  have pop : ∀ {u : Waits α}, u.op.pops = true → tryPop q = (q', some r) →
      (∀ x, u.answer (some (.popped x)) = .popped (some x)) →
      ClosableStep cfg.capacity ⟨q, c⟩ u.op (u.answer (some r)) ⟨q', c⟩ := by
    intro u ho h ha
    cases q with
    | nil => cases h
    | cons v q => cases h; rw [ha]; exact .pop _ _ _ ho
  cases u with
  | push v =>
    simp only [look, tryPush] at h
    split_ifs at h with hf <;> cases h
    exact .pushWait c v hf
  | pop | popFor lim => exact pop rfl h fun _ => rfl

omit [DecidableEq Tid] in
theorem look_missed {q q' : List α} (h : look cfg u q = (q', none)) :
    q' = q ∧ ClosableStep cfg.capacity ⟨q, true⟩ u.op (u.answer none) ⟨q, true⟩ := by
  have pop : ∀ {u : Waits α}, u.op.waits = true → tryPop q = (q', none) →
      u.answer none = .popped none → q' = q ∧
        ClosableStep cfg.capacity ⟨q, true⟩ u.op (u.answer none) ⟨q, true⟩ := by
    intro u ho h ha
    cases q with
    | nil => cases h; rw [ha]; exact ⟨rfl, .finish ho⟩
    | cons v q => cases h
  cases u with
  | push v =>
    simp only [look, tryPush] at h
    split_ifs at h with hf <;> cases h
    exact ⟨rfl, .pushEnd v hf⟩
  | pop | popFor lim => exact pop rfl h rfl

omit [DecidableEq Tid] in
/-- A pop that finds nothing has looked at an empty queue. -/
theorem tryPop_none {q q' : List α} (h : tryPop q = (q', none)) : q = [] := by
  cases q with
  | nil => rfl
  | cons v q => cases h

/-! ## One step at each kind of location -/

/-- A step inside an eventcount is one of the eventcount. -/
theorem inside_step {look : List α → List α × Option (Got α)} {late : Bool}
    {f : Waiter.Loc (Got α) → Loc α}
    (hs : (inside cfg look t ch late sh side l).map (fun (sh', l') => (sh', f l')) =
      some (sh', l')) :
    ∃ q v l₁, Waiter.step cfg.policy look t ⟨ch.woken, ch.spin, late, ch.spurious⟩ sh.elems
        (sh.waiter side) l = some (q, v, l₁) ∧
      sh' = ({ sh with elems := q } : Shared α Tid).setWaiter side v ∧ l' = f l₁ := by
  simp only [inside, Option.map_map, Option.map_eq_some_iff] at hs
  obtain ⟨⟨q, v, l₁⟩, hs, he⟩ := hs
  cases he
  exact ⟨q, v, l₁, hs, rfl, rfl⟩

theorem act_wait {looked : Nat} (hs : act cfg t ch sh (.wait u looked l) = some (sh', l')) :
    (∃ r, l = .done r ∧ sh' = sh ∧ l' = after cfg u r) ∨
    ∃ q v l₁, Waiter.step cfg.policy (look cfg u) t
        ⟨ch.woken, ch.spin, u.late cfg sh.clock, ch.spurious⟩ sh.elems (sh.waiter u.side) l =
          some (q, v, l₁) ∧
      sh' = ({ sh with elems := q } : Shared α Tid).setWaiter u.side v ∧
      l' = u.next (if looking l then sh.clock else looked) l l₁ := by
  cases l with
  | done r => cases hs; exact .inl ⟨r, rfl, rfl, rfl⟩
  | _ => exact .inr (inside_step hs)

theorem act_tell (hs : act cfg t ch sh (.tell side ans l) = some (sh', l')) :
    (sh' = sh ∧ l' = .done ans) ∨
    ∃ q v l₁, Waiter.step cfg.policy noLook t ⟨ch.woken, ch.spin, false, ch.spurious⟩ sh.elems
        (sh.waiter side) l = some (q, v, l₁) ∧
      sh' = ({ sh with elems := q } : Shared α Tid).setWaiter side v ∧ l' = .tell side ans l₁ := by
  cases l with
  | done r => cases hs; exact .inl ⟨rfl, rfl⟩
  | _ => exact .inr (inside_step hs)

theorem act_closeEmpty (hs : act cfg t ch sh (.closeEmpty l) = some (sh', l')) :
    ((∃ r, l = .done r) ∧ sh' = sh ∧ (l' = .closeFull .shut ∨ l' = .done [.closed])) ∨
    ∃ q v l₁, Waiter.step cfg.policy noLook t ⟨ch.woken, ch.spin, false, ch.spurious⟩ sh.elems
        (sh.waiter .notEmpty) l = some (q, v, l₁) ∧
      sh' = ({ sh with elems := q } : Shared α Tid).setWaiter .notEmpty v ∧
      l' = .closeEmpty l₁ := by
  cases l with
  | done r =>
    simp only [act] at hs
    split_ifs at hs <;> cases hs
    · exact .inl ⟨⟨r, rfl⟩, rfl, .inl rfl⟩
    · exact .inl ⟨⟨r, rfl⟩, rfl, .inr rfl⟩
  | _ => exact .inr (inside_step hs)

theorem act_closeFull (hs : act cfg t ch sh (.closeFull l) = some (sh', l')) :
    (sh' = sh ∧ l' = .done [.closed]) ∨
    ∃ q v l₁, Waiter.step cfg.policy noLook t ⟨ch.woken, ch.spin, false, ch.spurious⟩ sh.elems
        (sh.waiter .notFull) l = some (q, v, l₁) ∧
      sh' = ({ sh with elems := q } : Shared α Tid).setWaiter .notFull v ∧
      l' = .closeFull l₁ := by
  cases l with
  | done r => cases hs; exact .inl ⟨rfl, rfl⟩
  | _ => exact .inr (inside_step hs)

omit [DecidableEq Tid] in
theorem Waits.next_eq_wait {k : Nat} {l₁ : Waiter.Loc (Got α)}
    (h : l.missed = true → l₁ ≠ .done none) : u.next k l l₁ = .wait u k l₁ := by
  unfold Waits.next
  split
  · next hm _ => exact absurd rfl (h hm)
  · rfl

omit [DecidableEq Tid] in
/-- The times that a wait with a limit keeps, after one more step. -/
theorem looked_le {looked : Nat}
    (h : ∀ lim, u.limit = some lim → lim.started ≤ looked ∧ looked ≤ sh.clock ∧
      0 < lim.ns.toInt ∧ lim.ns.toNat ≤ kForeverNs)
    (lim : Limit) (hlim : u.limit = some lim) :
    lim.started ≤ (if looking l then sh.clock else looked) ∧
      (if looking l then sh.clock else looked) ≤ sh.clock ∧
      0 < lim.ns.toInt ∧ lim.ns.toNat ≤ kForeverNs := by
  obtain ⟨h1, h2, h3⟩ := h lim hlim
  split
  · exact ⟨h1.trans h2, le_rfl, h3⟩
  · exact ⟨h1, h2, h3⟩

theorem kept_wait {looked : Nat} (hg : G sh w) (hl : L cfg t sh w (some (.wait u looked l)))
    (hs : act cfg t ch sh (.wait u looked l) = some (sh', l')) : Kept cfg t sh w sh' l' := by
  obtain ⟨hw, hsaw, hopen, hover, hnoted, htime⟩ := hl
  rcases act_wait hs with ⟨r, rfl, rfl, rfl⟩ | ⟨q, v, l₁, hstep, rfl, rfl⟩
  · exact .still hg (L_after (hover r rfl)) id le_rfl
  clear hs
  obtain ⟨hw', hclosed, hstep⟩ := Waiter.step_wait hw hstep
  have hsame : (({ sh with elems := q } : Shared α Tid).setWaiter u.side v).closed = sh.closed :=
    closed_setWaiter hclosed
  have htime' := looked_le (l := l) htime
  generalize (if looking l = true then sh.clock else looked) = k at htime' ⊢
  cases hstep with
  | on hq ho hsaw' hm =>
    subst hq
    rw [Waits.next_eq_wait fun h hd => by
      rw [hd, Waiter.Loc.outcome_of_missed h] at ho
      cases ho]
    refine .still (hg.setWaiter hclosed) ⟨hw', fun h => hsame.trans ?_, fun h => hopen (ho ▸ h),
      fun r h => hover r (ho ▸ h), fun h => ?_, htime'⟩ hsame.ge le_rfl
    · rcases hsaw' h with h | h
      · exact hsaw h
      · exact hg.closed_side h
    · rw [hm] at h
      cases h
  | took r hn hq ho hsaw' hm =>
    rw [Waits.next_eq_wait fun h hd => by rw [hd] at ho; cases ho]
    have hg' : G { sh with elems := q } (w.lin t [] [u.answer (some r)] ⟨q, sh.closed⟩) :=
      ⟨rfl, hg.first⟩
    refine .lin (hopen hn) (hg.obj ▸ look_took hq) (hg'.setWaiter hclosed) ⟨hw', by simp [hsaw'],
      by simp [ho], fun r' h => ?_, by simp [hm], htime'⟩ hsame.ge le_rfl
    obtain rfl : some r = r' := Option.some.inj (ho.symm.trans h)
    exact Atomic.State.lin_pend_self ..
  | missed hn hq ho hsaw' =>
    obtain ⟨rfl, -⟩ := look_missed hq
    rw [Waits.next_eq_wait fun h hd => by rw [hd] at ho; cases ho]
    cases hlim : u.limit with
    | none =>
      exact .still (hg.setWaiter hclosed) ⟨hw', by simp [hsaw'], fun _ => hopen hn, by simp [ho],
        by simp [hlim], htime'⟩ hsame.ge le_rfl
    | some lim =>
      -- the wait takes note of the empty queue
      obtain rfl : u = .popFor (some lim) := by
        cases u with
        | popFor x => exact congrArg _ hlim
        | _ => cases hlim
      have hstep : ClosableStep cfg.capacity w.obj .popFor .timedOut w.obj := by
        rw [hg.obj, tryPop_none hq]
        exact .giveUp _
      obtain ⟨w', hsteps, hobj, hne, seen, hp, hseen⟩ :=
        (hopen hn).see (O := closable α cfg.capacity) hstep
      have hg' : G sh w' := ⟨hobj.trans hg.obj, hg.first⟩
      exact ⟨w', hsteps, hg'.setWaiter hclosed, ⟨hw', by simp [hsaw'], fun _ => ⟨seen, hp⟩,
        by simp [ho], fun _ _ => ⟨seen, hp, hseen⟩, htime'⟩, hsame.ge, le_rfl, hne⟩
  | ended hn hq hs ho hsaw' hm =>
    obtain ⟨rfl, hend⟩ := look_missed hq
    rw [Waits.next_eq_wait fun h => by
      rw [Waiter.Loc.missed_of_sawClosed hs] at h
      cases h]
    have hstep : ClosableStep cfg.capacity w.obj u.op (u.answer none) ⟨sh.elems, sh.closed⟩ := by
      rw [hg.obj, hsaw hs]
      exact hend
    have hg' : G sh (w.lin t [] [u.answer none] ⟨sh.elems, sh.closed⟩) := ⟨rfl, hg.first⟩
    refine .lin (hopen hn) hstep (hg'.setWaiter hclosed) ⟨hw', by simp [hsaw'],
      by simp [ho], fun r' h => ?_, by simp [hm], htime'⟩ hsame.ge le_rfl
    obtain rfl : none = r' := Option.some.inj (ho.symm.trans h)
    exact Atomic.State.lin_pend_self ..
  | late hlim hp hm hq ho =>
    subst hq ho
    obtain ⟨lim, hlim'⟩ := Option.isSome_iff_exists.1 hlim
    obtain ⟨seen, hpend, hseen⟩ := hnoted hm hlim
    have hnext : u.next k l (.done none) = .gaveUp lim k := by simp [Waits.next, hm, hlim']
    rw [hnext]
    have hpassed : passed (lim.until cfg) (BitVec.ofNat 64 sh.clock) = true := by
      simpa [Waits.late, hlim'] using hp
    obtain ⟨h1, h2, -, h4⟩ := htime' lim hlim'
    have hg' : G sh (w.lin t [] [.timedOut] w.obj) := ⟨hg.obj, hg.first⟩
    exact ⟨_, Atomic.Steps.settle hpend hseen, hg'.setWaiter hclosed,
      ⟨h1, h2, Atomic.State.lin_pend_self .., .inr ⟨h4, sh.clock, h2, le_rfl, hpassed⟩⟩,
      hsame.ge, le_rfl, fun _ hu => Atomic.State.lin_pend_ne _ hu _ _ _⟩

theorem kept_tell (hg : G sh w) (hl : L cfg t sh w (some (.tell side ans l)))
    (hs : act cfg t ch sh (.tell side ans l) = some (sh', l')) : Kept cfg t sh w sh' l' := by
  obtain ⟨hsig, hshut, hp⟩ := hl
  rcases act_tell hs with ⟨rfl, rfl⟩ | ⟨q, v, l₁, hstep, rfl, rfl⟩
  · exact .still hg hp id le_rfl
  · obtain ⟨rfl, hsig', hclosed, hshut'⟩ := Waiter.step_signal hsig hstep
    have hclosed := hclosed.resolve_right hshut
    exact .still (hg.setWaiter hclosed) ⟨hsig', hshut', hp⟩ (closed_setWaiter hclosed).ge le_rfl

theorem kept_closeEmpty (hg : G sh w) (hl : L cfg t sh w (some (.closeEmpty l)))
    (hs : act cfg t ch sh (.closeEmpty l) = some (sh', l')) : Kept cfg t sh w sh' l' := by
  obtain ⟨hsig, hbefore, hafter⟩ := hl
  rcases act_closeEmpty hs with ⟨⟨r, rfl⟩, rfl, hl'⟩ | ⟨q, v, l₁, hstep, rfl, rfl⟩
  · obtain ⟨hp, hc⟩ := hafter nofun
    rcases hl' with rfl | rfl
    · exact .still hg ⟨rfl, hp, hc⟩ id le_rfl
    · exact .still hg ⟨hp, by simp⟩ id le_rfl
  obtain ⟨rfl, hsig', hclosed, hshut'⟩ := Waiter.step_signal hsig hstep
  by_cases hshut : l = .shut
  · subst hshut
    cases hstep
    refine .lin (hbefore rfl) (hg.obj ▸ .close _ _) ⟨rfl, fun _ => rfl⟩
      ⟨hsig', nofun, fun _ => ⟨Atomic.State.lin_pend_self .., rfl⟩⟩ (fun _ => rfl) le_rfl
  · obtain ⟨hp, hc⟩ := hafter hshut
    have hclosed := hclosed.resolve_right hshut
    have hsame := closed_setWaiter hclosed
    exact .still (hg.setWaiter hclosed) ⟨hsig', fun h => absurd h hshut',
      fun _ => ⟨hp, hsame.trans hc⟩⟩ hsame.ge le_rfl

theorem kept_closeFull (hg : G sh w) (hl : L cfg t sh w (some (.closeFull l)))
    (hs : act cfg t ch sh (.closeFull l) = some (sh', l')) : Kept cfg t sh w sh' l' := by
  obtain ⟨hsig, hp, hc⟩ := hl
  rcases act_closeFull hs with ⟨rfl, rfl⟩ | ⟨q, v, l₁, hstep, rfl, rfl⟩
  · exact .still hg ⟨hp, by simp⟩ id le_rfl
  · obtain ⟨rfl, hsig', -, -⟩ := Waiter.step_signal hsig hstep
    exact .still ⟨hg.obj, fun _ => hc⟩ ⟨hsig', hp, hc⟩ id le_rfl

theorem kept_popOnce {limit : BitVec 64} (hg : G sh w)
    (hl : L cfg t sh w (some (.popOnce limit)))
    (hs : act cfg t ch sh (.popOnce limit) = some (sh', l')) : Kept cfg t sh w sh' l' := by
  simp only [act] at hs
  split at hs
  · next v q hq =>
    cases hs
    exact .lin_elems hg hl (hq ▸ .pop q _ v rfl) fun _ => L_took
  · next hq =>
    have hstart := Waiter.waits_waitUntil (R := Got α) cfg.policy false
    split_ifs at hs with hneg hlong <;> cases hs
    · exact .lin_elems hg hl (hq ▸ .giveUp _ :
        ClosableStep cfg.capacity ⟨sh.elems, sh.closed⟩ .popFor
        .timedOut ⟨sh.elems, sh.closed⟩) fun _ hp => ⟨le_rfl, le_rfl, hp, .inl hneg⟩
    · exact .still hg ⟨hstart, by simp [Waiter.sawClosed_waitUntil], fun _ => hl,
        by simp [Waiter.outcome_waitUntil], nofun, nofun⟩ id le_rfl
    · exact .still hg ⟨by omega, by omega, hl⟩ id le_rfl

theorem kept_act {l : Loc α} (hg : G sh w) (hl : L cfg t sh w (some l))
    (hs : act cfg t ch sh l = some (sh', l')) : Kept cfg t sh w sh' l' := by
  cases l with
  | push vs n =>
    cases vs with
    | nil => cases hs; exact .still hg (L_published ⟨hl, by simp⟩) id le_rfl
    | cons v vs =>
      cases hs
      refine .lin_elems hg hl (.push _ _ v) fun w' hp => ?_
      rw [← List.replicate_succ'] at hp
      exact hp
  | tryPush v =>
    simp only [act, tryPush] at hs
    split_ifs at hs with hf <;> cases hs
    · exact .lin_elems hg hl (.tryFull _ v hf) fun _ hp => ⟨hp, by simp⟩
    · exact .lin_elems hg hl (.tryPush _ v hf) fun _ hp => L_published ⟨hp, by simp⟩
  | pushOverrun v =>
    simp only [act, overrun] at hs
    split_ifs at hs with hf <;> cases hs
    · obtain ⟨x, r, hx⟩ := List.exists_cons_of_ne_nil (l := sh.elems ++ [v]) (by simp)
      rw [hx]
      exact .lin_elems hg hl (.lose _ hf hx) fun _ hp => L_published ⟨hp, by simp⟩
    · exact .lin_elems hg hl (.overrun _ v hf) fun _ hp => L_published ⟨hp, by simp⟩
  | tryPop =>
    simp only [act] at hs
    split at hs
    · next hq =>
      cases hs
      exact .lin_elems hg hl (hq ▸ .empty _ :
        ClosableStep cfg.capacity ⟨sh.elems, sh.closed⟩ .tryPop
        (.popped none) ⟨sh.elems, sh.closed⟩) fun _ hp => ⟨hp, by simp⟩
    · next v q hq =>
      cases hs
      exact .lin_elems hg hl (hq ▸ .pop q _ v rfl) fun _ => L_took
  | wait u looked l => exact kept_wait hg hl hs
  | popOnce limit => exact kept_popOnce hg hl hs
  | readClock limit =>
    cases hs
    have hstart := Waiter.waits_waitUntil (R := Got α) cfg.policy true
    refine .still hg ⟨hstart, by simp [Waiter.sawClosed_waitUntil], fun _ => hl.2.2,
      by simp [Waiter.outcome_waitUntil], by simp [Waiter.missed_waitUntil],
        fun lim h => ?_⟩ id le_rfl
    cases h
    exact ⟨le_rfl, le_rfl, hl.1, hl.2.1⟩
  | tell side ans l => exact kept_tell hg hl hs
  | closeEmpty l => exact kept_closeEmpty hg hl hs
  | closeFull l => exact kept_closeFull hg hl hs
  | gaveUp lim looked | done ans => cases hs

theorem kept_step {l : Loc α} (hg : G sh w) (hl : L cfg t sh w (some l))
    (hs : step cfg t ch sh l = some (sh', l')) : Kept cfg t sh w sh' l' := by
  have hclock : sh.clock ≤ sh.clock + ch.elapsed := Nat.le_add_right ..
  have hlate : G { sh with clock := sh.clock + ch.elapsed } w := ⟨hg.obj, hg.first⟩
  obtain ⟨w', hsteps, hg', hl', hr⟩ := kept_act hlate (hl.mono id hclock rfl) hs
  exact ⟨w', hsteps, hg', hl', hr.closed, hclock.trans hr.clock, hr.pend⟩

end Steps

/-! ## The rule -/

omit [DecidableEq Tid] in
theorem L_start {t : Tid} {sh : Shared α Tid} {w : Ghost α Tid} {c : Call α}
    (hp : w.Pend t c.ops []) : L cfg t sh w (some (start cfg c)) := by
  have hw := Waiter.waits_waitUntil (R := Got α) cfg.policy false
  have wait : ∀ {u : Waits α}, w.Pend t [u.op] [] → u.limit = none →
      L cfg t sh w (some (.wait u 0 (Waiter.waitUntil cfg.policy false))) := by
    intro u hp hu
    exact ⟨by rw [hu]; exact hw, by simp [Waiter.sawClosed_waitUntil], fun _ => hp,
      by simp [Waiter.outcome_waitUntil], by simp [Waiter.missed_waitUntil], by simp [hu]⟩
  cases c with
  | pushWait v | popWait => exact wait hp rfl
  | close => exact ⟨rfl, fun _ => hp, fun h => absurd rfl h⟩
  | _ => exact hp

/-- The thread-modular proof that the queue carries the atomic one along. -/
def rule (cfg : Cfg) :
    Rule (machine α Tid cfg) (fun _ => True) (carries (closable α cfg.capacity) id) where
  w₀ := Atomic.init (closable α cfg.capacity)
  G := G
  L := L cfg
  rely := Rely
  init := ⟨⟨rfl, id⟩, fun _ => rfl⟩
  call := by
    intro s w t c hg hl _ hn _
    have hp : w.pend t = none := by simpa [hn, L] using hl t
    exact ⟨w.set t (some (.new c.ops)), .call hp _, ⟨hg.obj, hg.first⟩,
      L_start ⟨_, Atomic.State.set_pend_self _ _ _⟩, id, le_rfl,
      fun u hu => Atomic.State.set_pend_ne _ hu _⟩
  step := by
    intro s w t l ch sh' l' hg _ _ _ _ hl hs
    obtain ⟨w', hsteps, hk⟩ := kept_step hg hl hs
    exact ⟨w', .steps hsteps, hk⟩
  ret := by
    intro s w t l ans hg hl _ hn ha
    have hp : w.Pend t [] ans := by
      have hl := hl t
      rw [hn] at hl
      simp only [machine] at ha
      split at ha <;> cases ha
      · exact hl.2.2.1
      · exact hl.1
    obtain ⟨seen, hp⟩ := hp
    exact ⟨w.set t none, .ret .refl hp, ⟨hg.obj, hg.first⟩, Atomic.State.set_pend_self _ _ _, id,
      le_rfl, fun u hu => Atomic.State.set_pend_ne _ hu _⟩
  stable := fun hu _ _ hl hr => hl.mono hr.closed hr.clock (hr.pend _ hu)

end Wtc.Waiting
