import Wtc.Specialise.Execution

/-!
# Performing an execution

An interpreter of single steps: a leaf that leaves something open changes no memory and computes
zero, and a call starts its function. What it does is one of the things that may be done
(`perform_does`), so a list of steps each of which is legal makes an execution (`performed`).

`straight` are functions for it: leaves, and then perhaps a `for` loop.
-/

namespace Wtc.Specialise

open Wtc.Nested

/-! ## One step -/

def compute (M : Module) (s : State) (act : Nat) (fr : Frame) : Leaf → Int
  | .const d k => ((M.func fr.func).type d |>.getD ⟨32, true⟩).wrap k
  | .load _ addr => (M.locate fr.func act addr).elim 0 s.value
  | .inc d x => ((M.func fr.func).type d |>.getD ⟨32, true⟩).wrap (fr.env x + 1)
  | .add d x y => ((M.func fr.func).type d |>.getD ⟨32, true⟩).wrap (fr.env x + fr.env y)
  | .cmp _ kind x y => Counted.boolInt (kind.holds (fr.env x) (fr.env y))
  | _ => 0

/-- A function with one value replaced. -/
def put (env : Nat → Int) (v : Nat) (n : Int) : Nat → Int := fun w => if w = v then n else env w

/-- The activation after a step of `act`: the leaf has run, what it computes is known, and what it
stores is stored. -/
def advance (M : Module) (s : State) (act : Nat) (p : Pos) (fr : Frame) (o : Leaf) (act' : Nat)
    (b : Frame) : Frame :=
  { b with
    trace := if act' = act then b.trace ++ [p] else b.trace
    env := if act' = act then o.result.elim b.env (fun d => put b.env d (compute M s act fr o))
      else b.env
    slots := fun v => if M.target fr.func act o = some (.slot act' v) then storedValue fr o
      else b.slots v }

/-- The activations that a leaf starts. -/
def started (M : Module) (act : Nat) (fr : Frame) : Leaf → List Frame
  | .call _ callee args =>
    if (M.func callee).body.isEmpty then []
    else [⟨callee, fun v => (args[(M.func callee).params.idxOf v]?).elim 0 fr.env, fun _ => 0, [],
      some (act, fr.trace.length)⟩]
  | _ => []

def perform (M : Module) (s : State) (act : Nat) (p : Pos) (fr : Frame) (o : Leaf) : State where
  frames := s.frames.mapIdx (advance M s act p fr o) ++ started M act fr o
  globals g := if M.target fr.func act o = some (.global g) then storedValue fr o else s.globals g

theorem compute_computes (M : Module) (s : State) (act : Nat) (fr : Frame) (o : Leaf) :
    Computes M s act fr o (compute M s act fr o) := by
  cases o with
  | load d addr =>
    intro x hx
    simp [compute, hx]
  | _ => first | rfl | trivial

theorem started_starts {M : Module} {act : Nat} {fr new : Frame} {o : Leaf}
    (hparams : ∀ f, (M.func f).params.Nodup) (h : new ∈ started M act fr o) :
    Starts M act fr o new := by
  cases o with
  | call d callee args =>
    simp only [started] at h
    split at h
    · cases h
    · cases List.mem_singleton.1 h
      refine ⟨rfl, ?_⟩
      intro c k hck
      cases hck
      refine ⟨rfl, rfl, d, callee, args, rfl, rfl, ?_⟩
      intro i v x hv hx
      obtain ⟨hi, hget⟩ := List.getElem?_eq_some_iff.1 hv
      have hidx : (M.func callee).params.idxOf v = i := by
        rw [← hget]
        exact (hparams callee).idxOf_getElem i hi
      simp [hidx, hx]
  | _ => cases h

theorem perform_does {M : Module} {s : State} {act : Nat} {p : Pos} {fr : Frame} {o : Leaf}
    (hparams : ∀ f, (M.func f).params.Nodup) (hfr : s.frames[act]? = some fr)
    (hleaf : (p, o) ∈ (M.func fr.func).leaves)
    (hops : ∀ v ∈ o.operands, ∀ x ∈ (M.func fr.func).leaves, x.2.result = some v → x.1 ∈ fr.trace) :
    Does M s (perform M s act p fr o) act p fr o := by
  have hold : ∀ {act' : Nat} {b : Frame}, s.frames[act']? = some b →
      (perform M s act p fr o).frames[act']? = some (advance M s act p fr o act' b) := by
    intro act' b hb
    have hlt := (List.getElem?_eq_some_iff.1 hb).1
    rw [perform, List.getElem?_append_left (by simpa using hlt), List.getElem?_mapIdx, hb]
    rfl
  refine ⟨hfr, hleaf, hops, ?_, ?_, ?_, ?_⟩
  · intro act' b hb
    refine ⟨_, hold hb, rfl, rfl, rfl, ?_⟩
    intro v hv
    simp only [advance]
    split
    · next hact =>
      cases hres : o.result with
      | none => rfl
      | some d =>
        have hne : v ≠ d := fun heq => hv hact (by rw [hres, heq])
        simp [put, hne]
    · rfl
  · intro act' b hnone hb
    have hge : s.frames.length ≤ act' := List.getElem?_eq_none_iff.1 hnone
    rw [perform, List.getElem?_append_right (by simpa using hge)] at hb
    exact started_starts hparams (List.mem_of_getElem? hb)
  · intro v fr' hres hfr'
    cases (hold hfr).symm.trans hfr'
    simpa [advance, hres, put] using compute_computes M s act fr o
  · intro x hx
    cases x with
    | global g => rfl
    | slot act' v =>
      obtain ⟨b, hb, -⟩ := hx
      simp [State.value, hold hb, hb, advance]

/-! ## A list of steps -/

/-- The leaf at a place of an activation, if its operands have been computed. -/
def ready (M : Module) (s : State) (e : Nat × Pos) : Option (Frame × Leaf) := do
  let fr ← s.frames[e.1]?
  let (_, o) ← (M.func fr.func).leaves.find? (·.1 = e.2)
  if o.operands.all fun v =>
      (M.func fr.func).leaves.all fun x => x.2.result ≠ some v || x.1 ∈ fr.trace then some (fr, o)
  else none

/-- The step, or none if it is not legal. -/
def stepOf (M : Module) (s : State) (e : Nat × Pos) : State :=
  match ready M s e with
  | some (fr, o) => perform M s e.1 e.2 fr o
  | none => s

def stateAfter (M : Module) (s : State) (events : List (Nat × Pos)) : State :=
  events.foldl (stepOf M) s

theorem stepOf_does {M : Module} {s : State} {e : Nat × Pos}
    (hparams : ∀ f, (M.func f).params.Nodup)
    (h : (ready M s e).isSome) : ∃ fr o, Does M s (stepOf M s e) e.1 e.2 fr o := by
  obtain ⟨⟨fr, o⟩, hready⟩ := Option.isSome_iff_exists.1 h
  refine ⟨fr, o, ?_⟩
  simp only [stepOf, hready]
  unfold ready at hready
  obtain ⟨fr', hfr, hready⟩ := Option.bind_eq_some_iff.1 hready
  obtain ⟨⟨p, o'⟩, hfind, hready⟩ := Option.bind_eq_some_iff.1 hready
  dsimp only at hready
  split at hready
  · next hops =>
    cases hready
    have hp : p = e.2 := by simpa using List.find?_some hfind
    subst hp
    refine perform_does hparams hfr (List.mem_of_find?_eq_some hfind) ?_
    intro v hv x hx hres
    have hor := List.all_eq_true.1 (List.all_eq_true.1 hops v hv) x hx
    simpa [hres] using hor
  · cases hready

/-- The execution of a list of steps. -/
def performed (M : Module) (s : State) (events : List (Nat × Pos))
    (hparams : ∀ f, (M.func f).params.Nodup)
    (hinit : ∀ fr ∈ s.frames, fr.trace = [] ∧ fr.caller = none)
    (hready : ∀ i < events.length,
      (ready M (stateAfter M s (events.take i)) (events.getD i (0, .here ⟨0, 0⟩))).isSome)
    (hruns : ∀ i ≤ events.length, ∀ fr ∈ (stateAfter M s (events.take i)).frames,
      ∃ e, Runs (M.func fr.func).body fr.trace e) : Execution M where
  len := events.length
  state i := stateAfter M s (events.take i)
  event i := events.getD i (0, .here ⟨0, 0⟩)
  init := by simpa [stateAfter] using hinit
  step := by
    intro i hi
    have hstep := stepOf_does hparams (hready i hi)
    have htake : events.take (i + 1) = events.take i ++ [events.getD i (0, .here ⟨0, 0⟩)] := by
      rw [List.take_succ_eq_append_getElem hi]
      simp [hi]
    rw [htake]
    simpa only [stateAfter, List.foldl_append, List.foldl_cons, List.foldl_nil] using hstep
  runs := fun {i} hi => hruns i hi

/-! ## Straight functions -/

def leafOp (o : Leaf) : Op Leaf := .mk (.leaf o) []

/-- A `for` loop whose condition, body and step are leaves. -/
structure StraightLoop where
  cond : List Leaf
  body : List Leaf
  step : List Leaf
  deriving DecidableEq, Repr

def StraightLoop.op (l : StraightLoop) : Op Leaf :=
  .mk (.loop .forLoop) [[l.cond.map leafOp], [l.body.map leafOp], [l.step.map leafOp]]

/-- Leaves, and then perhaps a loop. -/
def straight (leaves : List Leaf) (loop : Option StraightLoop) : Region Leaf :=
  [leaves.map leafOp ++ loop.toList.map StraightLoop.op]

/-- The first leaves of a straight function. -/
def firstLeaves (n : Nat) : List Pos := (List.range n).map fun i => .here ⟨0, i⟩

/-- The leaves that a straight function may have run, up to the first test of its loop. -/
def straightTrace (leaves : List Leaf) (loop : Option StraightLoop) (t : List Pos) : Bool :=
  (t = firstLeaves t.length && t.length ≤ leaves.length) ||
    loop.any fun l => t.length - leaves.length ≤ l.cond.length &&
      t = firstLeaves leaves.length ++
        (firstLeaves (t.length - leaves.length)).map (.inside ⟨0, leaves.length⟩ 0)

theorem blockRuns_leaves (leaves : List Leaf) (rest : Block Leaf) {n m : Nat} {t : List Pos}
    {e : Outcome} (hm : n + m ≤ leaves.length)
    (h : BlockRuns Op.Runs (n + m) (leaves.map leafOp ++ rest) none t e) :
    BlockRuns Op.Runs n (leaves.map leafOp ++ rest) none
      ((List.range' n m).map (fun i => .here ⟨0, i⟩) ++ t) e := by
  induction m generalizing n with
  | zero => simpa using h
  | succ m ih =>
    have hget : (leaves.map leafOp ++ rest)[n]? = some (leafOp (leaves.get ⟨n, by omega⟩)) := by
      rw [List.getElem?_append_left (by simp; omega)]
      simp [(by omega : n < leaves.length)]
    have hnext := ih (n := n + 1) (by omega) (by rw [Nat.add_right_comm]; exact h)
    have hleaf : Op.Runs (leafOp (leaves.get ⟨n, by omega⟩)) none [none] .fin :=
      .leaf .fin (.inl rfl)
    have hrun := BlockRuns.next hget hleaf hnext
    simpa [List.range'_succ, Pos.of] using hrun

theorem runs_firstLeaves (leaves : List Leaf) (rest : Block Leaf) {n : Nat}
    (hn : n ≤ leaves.length) :
    Runs [leaves.map leafOp ++ rest] (firstLeaves n) .cut := by
  have hrun := blockRuns_leaves leaves rest (n := 0) (m := n) (by omega) BlockRuns.cut
  exact .start (by simpa [firstLeaves, List.range_eq_range', front] using hrun)

theorem runs_of_straightTrace {leaves : List Leaf} {loop : Option StraightLoop} {t : List Pos}
    (h : straightTrace leaves loop t = true) : ∃ e, Runs (straight leaves loop) t e := by
  simp only [straightTrace, Bool.or_eq_true, Bool.and_eq_true, decide_eq_true_eq,
    Option.any_eq_true] at h
  refine ⟨.cut, ?_⟩
  rcases h with ⟨ht, hle⟩ | ⟨l, rfl, hle, ht⟩
  · rw [ht]
    exact runs_firstLeaves leaves _ hle
  · generalize t.length - leaves.length = k at hle ht
    rw [ht]
    have htest : Runs [l.cond.map leafOp] (firstLeaves k) .cut := by
      simpa using runs_firstLeaves l.cond [] hle
    have hloop : l.op.Runs none ((firstLeaves k).map (within 0)) .cut :=
      .loop (.leave htest (by decide) (by decide) (by decide))
    have hlast : BlockRuns Op.Runs (0 + leaves.length) (leaves.map leafOp ++ [l.op]) none
        ((firstLeaves k).map (.inside ⟨0, leaves.length⟩ 0)) .cut := by
      have hget : (leaves.map leafOp ++ [l.op])[0 + leaves.length]? = some l.op := by simp
      have hleave := BlockRuns.leave hget hloop (by decide)
      rw [List.map_map, Nat.zero_add] at hleave
      rw [Nat.zero_add]
      exact hleave
    have hrun := blockRuns_leaves leaves _ (n := 0) (by omega) hlast
    exact .start (by simpa [firstLeaves, List.range_eq_range', straight, front] using hrun)

/-- Values that are all different are computed at one place each. -/
theorem ssa_of_nodup {l : List (Pos × Leaf)} (h : (l.filterMap (·.2.result)).Nodup)
    {x y : Pos × Leaf} {v : Nat} (hx : x ∈ l) (hy : y ∈ l) (hvx : x.2.result = some v)
    (hvy : y.2.result = some v) : x = y := by
  induction l with
  | nil => cases hx
  | cons z l ih =>
    have htail : (l.filterMap (·.2.result)).Nodup :=
      h.sublist ((List.sublist_cons_self z l).filterMap _)
    have hnot : ∀ {w : Pos × Leaf}, w ∈ l → w.2.result = some v → z.2.result ≠ some v := by
      intro w hw hwv hz
      simp only [List.filterMap_cons, hz, List.nodup_cons] at h
      exact h.1 (List.mem_filterMap.2 ⟨w, hw, hwv⟩)
    rcases List.mem_cons.1 hx with hxz | hxl <;> rcases List.mem_cons.1 hy with hyz | hyl
    · exact hxz.trans hyz.symm
    · exact absurd (hxz ▸ hvx) (hnot hyl hvy)
    · exact absurd (hyz ▸ hvy) (hnot hxl hvx)
    · exact ih htail hxl hyl

end Wtc.Specialise
