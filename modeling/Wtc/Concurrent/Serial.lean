import Wtc.Concurrent.Machine
import Mathlib.Data.List.Sort

/-!
# Calls made one after another

Where each call is answered before the next one is made, a linearizable history is a sequence of
operations of the sequential object, and a machine can be run call by call.

* `Machine.goOn` — one call carried through with nobody else running
* `Linearizable.gives` — the answers of a serial history are those of the object
* `Machine.Ends` — the call comes to its end
-/

namespace Wtc.Concurrent

variable {Tid Sh Loc Call Ch Op Ans σ : Type}

/-! ## The object, operation by operation -/

/-- Operations with answers that the object can give, one after another. -/
inductive Object.Gives (O : Object σ Op Ans) : σ → List (Op × Ans) → σ → Prop
  | nil (q : σ) : Gives O q [] q
  | cons {q q' q'' : σ} {op : Op} {a : Ans} {l : List (Op × Ans)} (hs : O.step q op a q')
      (hl : Gives O q' l q'') : Gives O q ((op, a) :: l) q''

variable {O : Object σ Op Ans} {l : List (Tid × List Op × List Ans)} {n : Nat}

theorem Object.Exec.gives {L : List (Point Op Ans)} {q q' : σ} (h : O.Exec q L q') :
    O.Gives q (L.map fun p => (p.op, p.ans)) q' := by
  induction h with
  | nil q => exact .nil q
  | cons hs _ ih => exact .cons hs ih

theorem Object.gives_append {l₁ l₂ : List (Op × Ans)} {q q'' : σ} :
    O.Gives q (l₁ ++ l₂) q'' ↔ ∃ q', O.Gives q l₁ q' ∧ O.Gives q' l₂ q'' := by
  induction l₁ generalizing q with
  | nil =>
    constructor
    · exact fun h => ⟨q, .nil q, h⟩
    · rintro ⟨q', h, h'⟩
      cases h
      exact h'
  | cons x l ih =>
    constructor
    · intro h
      cases h with
      | cons hs hl =>
        obtain ⟨q', h1, h2⟩ := ih.mp hl
        exact ⟨q', .cons hs h1, h2⟩
    · rintro ⟨q', h, h'⟩
      cases h with
      | cons hs hl => exact .cons hs (ih.mpr ⟨q', hl, h'⟩)

theorem Object.Gives.det {l : List (Op × Ans)} {q q₁ q₂ : σ} (h₁ : O.Gives q l q₁)
    (h₂ : O.Gives q l q₂) : q₁ = q₂ := by
  induction h₁ with
  | nil => cases h₂; rfl
  | cons hs _ ih =>
    cases h₂ with
    | cons hs' hl' =>
      cases O.det hs hs'
      exact ih hl'

/-! ## Serial histories -/

/-- Calls with their answers, each before the next. -/
def serial : List (Tid × List Op × List Ans) → List (Event Tid Op Ans)
  | [] => []
  | (t, ops, ans) :: l => .call t ops :: .ret t ans :: serial l

/-- The operations of such calls with their answers. -/
def answers (l : List (Tid × List Op × List Ans)) : List (Op × Ans) :=
  l.flatMap fun x => x.2.1.zip x.2.2

theorem serial_append (l l' : List (Tid × List Op × List Ans)) :
    serial (l ++ l') = serial l ++ serial l' := by
  induction l with
  | nil => rfl
  | cons x l ih => rw [List.cons_append, serial, ih]; rfl

theorem answers_append (l l' : List (Tid × List Op × List Ans)) :
    answers (l ++ l') = answers l ++ answers l' := List.flatMap_append ..

theorem serial_call (l : List (Tid × List Op × List Ans)) (n : Nat) :
    (serial l)[2 * n]? = l[n]?.map fun x => .call x.1 x.2.1 := by
  induction l generalizing n with
  | nil => rfl
  | cons x l ih =>
    cases n with
    | zero => rfl
    | succ n => exact ih n

theorem serial_ret (l : List (Tid × List Op × List Ans)) (n : Nat) :
    (serial l)[2 * n + 1]? = l[n]?.map fun x => .ret x.1 x.2.2 := by
  induction l generalizing n with
  | nil => rfl
  | cons x l ih =>
    cases n with
    | zero => rfl
    | succ n => exact ih n

theorem serial_answers {t : Tid} {ops : List Op} {ans : List Ans} (h : l[n]? = some (t, ops, ans)) :
    Answers (serial l) (2 * n) (2 * n + 1) t ops ans where
  call := by rw [serial_call, h]; rfl
  ret := by rw [serial_ret, h]; rfl
  lt := Nat.lt_succ_self _
  between m e h1 h2 := by omega

/-- A call in a serial history stands at an even place, and is answered. -/
theorem of_serial_call {i : Nat} {t : Tid} {ops : List Op}
    (h : (serial l)[i]? = some (.call t ops)) :
    ∃ n ans, i = 2 * n ∧ l[n]? = some (t, ops, ans) := by
  obtain ⟨n, rfl | rfl⟩ : ∃ n, i = 2 * n ∨ i = 2 * n + 1 := ⟨i / 2, by omega⟩
  · rw [serial_call] at h
    obtain ⟨⟨t', ops', ans⟩, hn, he⟩ := Option.map_eq_some_iff.1 h
    cases he
    exact ⟨n, ans, rfl, hn⟩
  · rw [serial_ret] at h
    obtain ⟨x, -, he⟩ := Option.map_eq_some_iff.1 h
    cases he

/-- The parts of serial calls, in their order; `n` is the number of the first call. -/
def points : Nat → List (Tid × List Op × List Ans) → List (Point Op Ans)
  | _, [] => []
  | n, (_, ops, ans) :: l =>
    ((ops.zip ans).zipIdx.map fun x => ⟨2 * n, x.2, x.1.1, x.1.2⟩) ++ points (n + 1) l

theorem points_map (n : Nat) (l : List (Tid × List Op × List Ans)) :
    (points n l).map (fun p => (p.op, p.ans)) = answers l := by
  induction l generalizing n with
  | nil => rfl
  | cons x l ih =>
    rw [points, List.map_append, ih, List.map_map]
    exact congrArg (· ++ answers l) (List.zipIdx_map_fst 0 _)

/-- The order of the parts of serial calls. -/
def Point.lt (p r : Point Op Ans) : Prop :=
  p.call < r.call ∨ p.call = r.call ∧ p.part < r.part

theorem mem_points {p : Point Op Ans} :
    p ∈ points n l ↔ ∃ m t ops ans, l[m]? = some (t, ops, ans) ∧ p.call = 2 * (n + m) ∧
      (ops.zip ans)[p.part]? = some (p.op, p.ans) := by
  induction l generalizing n with
  | nil => simp [points]
  | cons x l ih =>
    obtain ⟨t, ops, ans⟩ := x
    rw [points, List.mem_append, ih, List.mem_map]
    constructor
    · rintro (⟨⟨⟨op, a⟩, k⟩, hk, rfl⟩ | ⟨m, u, ops', ans', hm, hc, hp⟩)
      · exact ⟨0, t, ops, ans, rfl, rfl, by simpa using List.mem_zipIdx_iff_getElem?.1 hk⟩
      · exact ⟨m + 1, u, ops', ans', hm, by omega, hp⟩
    · rintro ⟨m, u, ops', ans', hm, hc, hp⟩
      cases m with
      | zero =>
        cases hm
        obtain ⟨call, part, op, a⟩ := p
        obtain rfl : call = 2 * n := hc
        exact .inl ⟨((op, a), part), List.mem_zipIdx_iff_getElem?.2 (by simpa using hp), rfl⟩
      | succ m => exact .inr ⟨m, u, ops', ans', hm, by omega, hp⟩

theorem points_pairwise (n : Nat) (l : List (Tid × List Op × List Ans)) :
    (points n l).Pairwise Point.lt := by
  induction l generalizing n with
  | nil => exact .nil
  | cons x l ih =>
    obtain ⟨t, ops, ans⟩ := x
    rw [points, List.pairwise_append]
    refine ⟨?_, ih (n + 1), ?_⟩
    · rw [List.pairwise_map]
      have hlt : (ops.zip ans).zipIdx.Pairwise fun x y => x.2 < y.2 := by
        rw [← List.pairwise_map (f := Prod.snd), List.zipIdx_map_snd]
        exact List.pairwise_lt_range'
      exact hlt.imp fun h => .inr ⟨rfl, h⟩
    · intro p hp r hr
      obtain ⟨x, -, rfl⟩ := List.mem_map.1 hp
      obtain ⟨m, t, ops, ans, -, hc, -⟩ := mem_points.1 hr
      exact .inl (by rw [hc]; show 2 * n < _; omega)

/-- An order of a serial history has the parts of the calls in the order of the calls. -/
theorem Linearization.eq_points {L : List (Point Op Ans)} (hL : Linearization O (serial l) L) :
    L = points 0 l := by
  have place : ∀ p ∈ L, ∃ n t ops ans, l[n]? = some (t, ops, ans) ∧ p.call = 2 * n ∧
      ops[p.part]? = some p.op := by
    intro p hp
    obtain ⟨t, ops, hc, hop⟩ := hL.part_of p hp
    obtain ⟨n, ans, he, hn⟩ := of_serial_call hc
    exact ⟨n, t, ops, ans, hn, he, hop⟩
  have unique : ∀ r ∈ L, ∀ p ∈ L, r.call = p.call → r.part = p.part → r = p := by
    intro r hr p hp hcall hpart
    obtain ⟨m, hm⟩ := List.mem_iff_getElem?.1 hr
    obtain ⟨n, hn⟩ := List.mem_iff_getElem?.1 hp
    rcases Nat.lt_trichotomy m n with hlt | rfl | hlt
    · have := pairwise_at hL.order hm hn hlt hcall
      omega
    · exact Option.some.inj (hm.symm.trans hn)
    · have := pairwise_at hL.order hn hm hlt hcall.symm
      omega
  have hsorted : L.Pairwise Point.lt := by
    refine (hL.order.and hL.realtime).imp_of_mem ?_
    rintro x y hx hy ⟨horder, hreal⟩
    rcases Nat.lt_trichotomy x.call y.call with hlt | heq | hlt
    · exact .inl hlt
    · exact .inr ⟨heq, horder heq⟩
    · obtain ⟨n, t, ops, ans, hn, hxc, -⟩ := place x hx
      obtain ⟨m, u, ops', ans', hm, hyc, -⟩ := place y hy
      rw [hyc] at hreal
      exact absurd ⟨2 * m + 1, u, ops', ans', serial_answers hm, by omega⟩ hreal
  have hmem : ∀ p, p ∈ L ↔ p ∈ points 0 l := by
    intro p
    rw [mem_points]
    constructor
    · intro hp
      obtain ⟨n, t, ops, ans, hn, hc, hop⟩ := place p hp
      obtain ⟨hlen, hans⟩ := hL.answered _ _ _ _ _ (serial_answers hn)
      have hlt : p.part < ans.length := by
        have := lt_length_of_getElem? hop
        omega
      obtain ⟨r, hr, hrc, hrp, hra⟩ := hans p.part _ (List.getElem?_eq_getElem hlt)
      -- the answer is that of the same part, and a part has one place
      obtain rfl := unique r hr p hp (by omega) hrp
      refine ⟨n, t, ops, ans, hn, by omega, ?_⟩
      rw [List.getElem?_zip_eq_some]
      exact ⟨hop, by rw [hra, List.getElem?_eq_getElem hlt]⟩
    · rintro ⟨n, t, ops, ans, hn, hc, hp⟩
      obtain ⟨hop, ha⟩ := List.getElem?_zip_eq_some.1 hp
      obtain ⟨-, hans⟩ := hL.answered _ _ _ _ _ (serial_answers hn)
      obtain ⟨r, hr, hrc, hrp, hra⟩ := hans p.part p.ans ha
      obtain ⟨m, u, ops', ans', hm, hc', hop'⟩ := place r hr
      obtain rfl : m = n := by omega
      cases hm.symm.trans hn
      have hro : r.op = p.op := by
        rw [hrp, hop] at hop'
        exact (Option.some.inj hop').symm
      obtain rfl : r = p := Point.ext (by omega) hrp hro hra
      exact hr
  have hirr : ∀ p : Point Op Ans, ¬ p.lt p := by
    intro p h
    rcases h with h | ⟨-, h⟩ <;> omega
  have hnodup : ∀ {L' : List (Point Op Ans)}, L'.Pairwise Point.lt → L'.Nodup := by
    intro L' h
    refine h.imp ?_
    rintro p _ hlt rfl
    exact hirr p hlt
  have hperm := (List.perm_ext_iff_of_nodup (hnodup hsorted) (hnodup (points_pairwise 0 l))).2 hmem
  refine hperm.eq_of_pairwise (fun p r _ _ h h' => ?_) hsorted (points_pairwise 0 l)
  rcases h with h | h <;> rcases h' with h' | h' <;> omega

/-- **The answers of a serial history are those of the object.** -/
theorem Linearizable.gives (h : Linearizable O (serial l)) :
    (∀ x ∈ l, x.2.2.length = x.2.1.length) ∧ ∃ q, O.Gives O.init (answers l) q := by
  obtain ⟨L, hL⟩ := h
  obtain ⟨q, hq⟩ := hL.legal
  refine ⟨fun x hx => ?_, q, ?_⟩
  · obtain ⟨n, hn⟩ := List.mem_iff_getElem?.1 hx
    exact (hL.answered _ _ _ _ _ (serial_answers hn)).1
  rw [← points_map 0 l, ← hL.eq_points]
  exact hq.gives

/-! ## Enough fuel -/

/-- With enough fuel the result is there, always the same one, and has `P`. -/
def Settles {β : Type} (f : Nat → Option β) (P : β → Prop) : Prop :=
  ∃ n b, P b ∧ ∀ m, n ≤ m → f m = some b

theorem Settles.pure {β : Type} {P : β → Prop} {b : β} (h : P b) : Settles (fun _ => some b) P :=
  ⟨0, b, h, fun _ _ => rfl⟩

theorem Settles.bind {β γ : Type} {f : Nat → Option β} {g : Nat → β → Option γ} {P : β → Prop}
    {Q : γ → Prop} (h : Settles f P) (hg : ∀ b, P b → Settles (g · b) Q) :
    Settles (fun m => (f m).bind (g m)) Q := by
  obtain ⟨n, b, hP, hf⟩ := h
  obtain ⟨n', c, hQ, hg⟩ := hg b hP
  refine ⟨max n n', c, hQ, fun m hm => ?_⟩
  simp only [hf m (by omega), Option.bind_some]
  exact hg m (by omega)

theorem Settles.imp {β : Type} {f : Nat → Option β} {P Q : β → Prop} (h : Settles f P)
    (hQ : ∀ b, P b → Q b) : Settles f Q := by
  obtain ⟨n, b, hP, hf⟩ := h
  exact ⟨n, b, hQ b hP, hf⟩

/-- What every result has, the settled one has. -/
theorem Settles.and {β : Type} {f : Nat → Option β} {P Q : β → Prop} (h : Settles f P)
    (hQ : ∀ m b, f m = some b → Q b) : Settles f fun b => P b ∧ Q b := by
  obtain ⟨n, b, hP, hf⟩ := h
  exact ⟨n, b, ⟨hP, hQ n b (hf n le_rfl)⟩, hf⟩

/-! ## Running a machine call by call -/

section Machines

variable [DecidableEq Tid] {M : Machine Tid Sh Loc Call Ch Op Ans} {t : Tid} {ch : Nat → Ch}

/-- Thread `t` goes on alone until its call is answered; `ch` resolves what its steps leave open,
from number `k` on. The result has the next such number, the state and the answer. -/
def Machine.goOn (M : Machine Tid Sh Loc Call Ch Op Ans) (t : Tid) (ch : Nat → Ch) :
    Nat → Nat → Sh → Loc → Option (Nat × Sh × List Ans)
  | 0, _, _, _ => none
  | fuel + 1, k, sh, l =>
    match M.answer l with
    | some ans => some (k, sh, ans)
    | none =>
      match M.step t (ch k) sh l with
      | none => none
      | some (sh', l') => M.goOn t ch fuel (k + 1) sh' l'

/-- No thread is inside a call. -/
def Machine.idle (_ : Machine Tid Sh Loc Call Ch Op Ans) (sh : Sh) : Config Tid Sh Loc :=
  ⟨sh, fun _ => none⟩

/-- Thread `t` alone is inside a call. -/
def Machine.alone (_ : Machine Tid Sh Loc Call Ch Op Ans) (t : Tid) (sh : Sh) (l : Loc) :
    Config Tid Sh Loc :=
  ⟨sh, Function.update (fun _ => none) t (some l)⟩

variable {h : List (Event Tid Op Ans)} {sh sh' : Sh} {fuel k k' : Nat}

theorem Machine.runs_alone {c : Ch} {l l' : Loc} (hr : M.Runs h (M.alone t sh l))
    (hs : M.step t c sh l = some (sh', l')) : M.Runs h (M.alone t sh' l') := by
  have hloc : (M.alone t sh l).loc t = some l := by simp [Machine.alone]
  have hnext := hr.next (.step hloc hs) trivial
  have halone : { (M.alone t sh l).set t (some l') with sh := sh' } = M.alone t sh' l' := by
    simp [Machine.alone, Config.set]
  rwa [List.append_nil, halone] at hnext

theorem Machine.runs_of_goOn {l : Loc} {ans : List Ans} (hr : M.Runs h (M.alone t sh l))
    (he : M.goOn t ch fuel k sh l = some (k', sh', ans)) :
    M.Runs (h ++ [.ret t ans]) (M.idle sh') := by
  induction fuel generalizing k sh l with
  | zero => cases he
  | succ fuel ih =>
    have hloc : (M.alone t sh l).loc t = some l := by simp [Machine.alone]
    simp only [Machine.goOn] at he
    split at he
    · next ha =>
      obtain ⟨-, rfl, rfl⟩ : k = k' ∧ sh = sh' ∧ _ = ans := by simpa using he
      have hidle : (M.alone t sh l).set t none = M.idle sh := by
        simp [Machine.alone, Machine.idle, Config.set]
      rw [← hidle]
      exact hr.next (.ret hloc ha) trivial
    · split at he
      · cases he
      · next hs => exact ih (Machine.runs_alone hr hs) he

theorem Machine.runs_call {c : Call} (hr : M.Runs h (M.idle sh)) (hm : M.may (M.idle sh) t c) :
    M.Runs (h ++ [.call t (M.ops c)]) (M.alone t sh (M.start c)) :=
  hr.next (.call rfl hm) trivial

/-- A call carried through adds itself and its answer to the history. -/
theorem Machine.runs_perform {c : Call} {ans : List Ans} (hr : M.Runs (serial l) (M.idle sh))
    (hm : M.may (M.idle sh) t c) (he : M.goOn t ch fuel k sh (M.start c) = some (k', sh', ans)) :
    M.Runs (serial (l ++ [(t, M.ops c, ans)])) (M.idle sh') := by
  have hret := Machine.runs_of_goOn (Machine.runs_call hr hm) he
  rw [List.append_assoc] at hret
  rw [serial_append]
  exact hret

/-- The call of thread `t` at `l` comes to its end with nobody else running, in a state with `P`. -/
inductive Machine.Ends (M : Machine Tid Sh Loc Call Ch Op Ans) (t : Tid) (ch : Nat → Ch)
    (P : Sh → Prop) : Nat → Sh → Loc → Prop
  | answer {k : Nat} {sh : Sh} {l : Loc} (ha : (M.answer l).isSome = true) (hP : P sh) :
      Ends M t ch P k sh l
  | step {k : Nat} {sh sh' : Sh} {l l' : Loc} (hn : M.answer l = none)
      (hs : M.step t (ch k) sh l = some (sh', l')) (he : Ends M t ch P (k + 1) sh' l') :
      Ends M t ch P k sh l

omit [DecidableEq Tid] in
theorem Machine.Ends.goOn {P : Sh → Prop} {l : Loc} (h : M.Ends t ch P k sh l) :
    Settles (M.goOn t ch · k sh l) fun r => P r.2.1 := by
  induction h with
  | @answer k sh l ha hP =>
    obtain ⟨ans, ha⟩ := Option.isSome_iff_exists.1 ha
    refine ⟨1, (k, sh, ans), hP, fun m hm => ?_⟩
    obtain ⟨m, rfl⟩ := Nat.exists_eq_add_of_le' hm
    simp [Machine.goOn, ha]
  | step hn hs _ ih =>
    obtain ⟨n, r, hP, hgo⟩ := ih
    refine ⟨n + 1, r, hP, fun m hm => ?_⟩
    obtain ⟨m, rfl⟩ := Nat.exists_eq_add_of_le' (Nat.le_of_add_left_le hm)
    simp only [Machine.goOn, hn, hs]
    exact hgo m (by omega)

/-- Steps of one kind lead to a place with `P`. -/
inductive Reaches (f : Sh → Loc → Option (Sh × Loc)) (P : Sh → Loc → Prop) : Sh → Loc → Prop
  | here {sh : Sh} {l : Loc} (h : P sh l) : Reaches f P sh l
  | step {sh sh' : Sh} {l l' : Loc} (hs : f sh l = some (sh', l')) (hr : Reaches f P sh' l') :
      Reaches f P sh l

omit [DecidableEq Tid] in
/-- Part of a call goes by steps of one kind. -/
theorem Machine.Ends.of_reaches {Q : Sh → Prop} {L : Type} {f : Sh → L → Option (Sh × L)}
    {P : Sh → L → Prop} {g : L → Loc}
    (hf : ∀ {sh l sh' l'}, f sh l = some (sh', l') →
      M.answer (g l) = none ∧ ∀ c, M.step t c sh (g l) = some (sh', g l'))
    (hP : ∀ {k sh l}, P sh l → M.Ends t ch Q k sh (g l)) {l : L} (h : Reaches f P sh l) :
    M.Ends t ch Q k sh (g l) := by
  induction h generalizing k with
  | here h => exact hP h
  | step hs _ ih => exact .step (hf hs).1 ((hf hs).2 _) ih

/-! ## A machine that serves calls one after another -/

/-- Each value comes up again and again. -/
def Fair (coin : Nat → Bool) : Prop := ∀ k b, ∃ m, k ≤ m ∧ coin m = b

/-- The machine, called by one thread after another, is in a state that the object calls `q`. -/
def Machine.Served (M : Machine Tid Sh Loc Call Ch Op Ans) (O : Object σ Op Ans) (sh : Sh) (q : σ) :
    Prop :=
  ∃ l, M.Runs (serial l) (M.idle sh) ∧ O.Gives O.init (answers l) q

theorem Machine.Served.init : M.Served O M.init O.init :=
  ⟨[], .init trivial, .nil _⟩

/-- A call carried through is answered as the object answers. -/
theorem Machine.Served.perform {q : σ} {c : Call} {ans : List Ans}
    (hlin : ∀ {h s}, M.Runs h s → Linearizable O h) (hq : M.Served O sh q)
    (hm : M.may (M.idle sh) t c) (he : M.goOn t ch fuel k sh (M.start c) = some (k', sh', ans)) :
    ans.length = (M.ops c).length ∧ ∃ q', O.Gives q ((M.ops c).zip ans) q' ∧ M.Served O sh' q' := by
  obtain ⟨l, hr, hg⟩ := hq
  have hr' := Machine.runs_perform hr hm he
  obtain ⟨hlen, q', hg'⟩ := (hlin hr').gives
  have hsplit := hg'
  rw [answers_append, Object.gives_append] at hsplit
  obtain ⟨q₁, h₁, h₂⟩ := hsplit
  obtain rfl := hg.det h₁
  refine ⟨hlen _ (List.mem_append_right _ List.mem_cons_self), q', ?_, _, hr', hg'⟩
  simpa [answers] using h₂

end Machines

end Wtc.Concurrent
