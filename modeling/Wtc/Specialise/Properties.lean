import Mathlib.Data.Nat.Basic
import Wtc.Specialise.Perform
import Wtc.Specialise.Settled

/-!
# The count read at the constructor is the count the loop runs with

Where the choice is made, every store to the bound has run that this activation will run. So the
bound holds one value from there on, and every test of a loop in the same function reads it. A loop
one call down tests a parameter, which is the value that the caller loaded for the call; it is the
same value if that load, too, comes after every store (`Loaded`), which the pass does not check. Nor
does it check that no other activation stores to a bound that is a global between the two
(`Undisturbed`).
-/

namespace Wtc.Specialise

open Wtc.Nested
open Counted (usesDirectly)

variable {M : Module} {X : Execution M}

/-! ## Functions of activations -/

variable {f i j addr v a k c d param passed : Nat} {fr fr' new : Frame}

theorem Execution.At.func_eq {act f' : Nat} {p q : Pos} (h : X.At i act f p)
    (h' : X.At j act f' q) : f = f' := by
  obtain ⟨fr, hfr, rfl⟩ := h.func
  obtain ⟨fr', hfr', rfl⟩ := h'.func
  rcases Nat.le_total i j with hij | hij
  · obtain ⟨fr₁, h₁, hfunc, -, -⟩ := lasts hij (Nat.le_of_lt h'.lt) hfr
    cases hfr'.symm.trans h₁
    exact hfunc.symm
  · obtain ⟨fr₁, h₁, hfunc, -, -⟩ := lasts hij (Nat.le_of_lt h.lt) hfr'
    cases hfr.symm.trans h₁
    exact hfunc

/-- The value of a slot or global is known by its address. -/
theorem locate_slot {act act' : Nat} (h : M.locate f act addr = some (.slot act' v)) :
    act' = act ∧ v = addr ∧ ∃ d, (M.func f).defOf addr = some (.alloca d) := by
  unfold Module.locate at h
  split at h
  · next d hd =>
    cases h
    exact ⟨rfl, rfl, d, hd⟩
  · cases h
  · cases h

theorem locate_global {act g : Nat} (h : M.locate f act addr = some (.global g)) :
    addr ∈ (M.func f).globalAddrs g := by
  unfold Module.locate at h
  split at h
  · cases h
  · next d g' hd =>
    cases h
    exact mem_globalAddrs hd
  · cases h

theorem target_eq_some {act : Nat} {o : Leaf} {x : Var} (h : M.target f act o = some x) :
    ∃ v addr, o = .store v addr ∧ M.locate f act addr = some x := by
  cases o <;> first | exact ⟨_, _, rfl, h⟩ | cases h

theorem mem_funcs_of_leaves {x : Pos × Leaf} (h : x ∈ (M.func f).leaves) : f ∈ M.funcs := by
  refine M.mem_funcs f fun hnil => ?_
  rw [Func.leaves, hnil] at h
  cases h

/-! ## The bound from the constructor on -/

/-- A moment at which what is put just before the leaf of a step is run: the activation is there,
and does nothing else until the step. -/
structure JustBefore (X : Execution M) (t i act : Nat) : Prop where
  le : t ≤ i
  there : ∃ fr, (X.state t).frames[act]? = some fr
  quiet : ∀ k, t ≤ k → k < i → (X.event k).1 ≠ act

section Bound

variable {site : Site} {b : SideBound} {act : Nat} {x : Var}

theorem Settled.locate (hs : Settled M site b) (act : Nat) :
    ∃ x, M.locate b.site.func act b.addr = some x := by
  rw [hs.func]
  unfold Module.locate
  rcases hs.var with ⟨d, hd, -⟩ | ⟨d, g, hg, -⟩
  · exact ⟨_, by rw [hd]⟩
  · exact ⟨_, by rw [hg]⟩

/-- A store to the bound comes before the site; one to a slot is of the same activation. -/
theorem Settled.store (hs : Settled M site b) (hx : M.locate b.site.func act b.addr = some x)
    {p : Pos} {o : Leaf} (hat : X.At k a f p) (hleaf : (p, o) ∈ (M.func f).leaves)
    (htarget : M.target f a o = some x) (hsite : X.At i act site.func site.pos) :
    f = site.func ∧ precedes (M.func site.func).body p site.pos = true ∧
      (a = act ∨ ∃ g, x = .global g) := by
  obtain ⟨v, addr, rfl, hloc⟩ := target_eq_some htarget
  rcases hs.var with ⟨d, hd, hbefore⟩ | ⟨d, g, hg, -, hall⟩
  · have hslot : x = .slot act b.addr := by
      rw [hs.func] at hx
      simpa [Module.locate, hd] using hx.symm
    subst hslot
    obtain ⟨rfl, rfl, -⟩ := locate_slot hloc
    cases hat.func_eq hsite
    exact ⟨rfl, (hbefore.store hleaf).2, .inl rfl⟩
  · have hglobal : x = .global g := by
      rw [hs.func] at hx
      simpa [Module.locate, hg] using hx.symm
    subst hglobal
    have hmem := hall f (mem_funcs_of_leaves hleaf) addr (locate_global hloc)
    obtain ⟨rfl, hpre⟩ := hmem.store hleaf
    exact ⟨rfl, hpre, .inr ⟨g, rfl⟩⟩

variable {t r : Nat}

/-- Once the place of the choice is reached the activation does not store to the bound. -/
theorem Settled.no_store (hs : Settled M site b) (hx : M.locate b.site.func act b.addr = some x)
    (hsite : X.At i act site.func site.pos)
    (hquiet : ∀ k, t ≤ k → k < i → (X.event k).1 ≠ act) (htk : t ≤ k) : ¬ X.StoresBy act k x := by
  rintro ⟨f, p, o, hat, hleaf, htarget⟩
  obtain ⟨rfl, hpre, -⟩ := hs.store hx hat hleaf htarget hsite
  rcases Nat.lt_trichotomy k i with hlt | rfl | hlt
  · exact hquiet k htk hlt (by rw [hat.event])
  · exact hat.ne_of_precedes hsite hpre rfl
  · exact hat.not_lt hsite hpre hlt

theorem Settled.kept (hs : Settled M site b) (hx : M.locate b.site.func act b.addr = some x)
    (hfr : (X.state t).frames[act]? = some fr) (hf : fr.func = b.site.func) :
    M.Kept (X.state t) x := by
  rw [hs.func] at hx hf
  rcases hs.var with ⟨d, hd, hbefore⟩ | ⟨d, g, hg, hview, hall⟩
  · have hslot : x = .slot act b.addr := by simpa [Module.locate, hd] using hx.symm
    subst hslot
    exact ⟨fr, hfr, by rw [hf]; exact hbefore.direct⟩
  · have hglobal : x = .global g := by simpa [Module.locate, hg] using hx.symm
    subst hglobal
    exact ⟨hview, fun f hf a ha => (hall f hf a ha).direct⟩

/-- The bound holds one value at the choice and at another moment, if nothing stores to it in
between that is not after the choice in the same activation. -/
theorem Settled.same_value (hs : Settled M site b) (hx : M.locate b.site.func act b.addr = some x)
    (hsite : X.At i act site.func site.pos) (hjust : JustBefore X t i act) (hr : r ≤ X.len)
    (hfr : (X.state r).frames[act]? = some fr) (hf : fr.func = b.site.func)
    (hown : ∀ k, r ≤ k → k < t → ¬ X.StoresBy act k x)
    (hother : ∀ {g k a}, x = .global g → min t r ≤ k → k < max t r → a ≠ act →
      ¬ X.StoresBy a k (.global g)) : (X.state t).value x = (X.state r).value x := by
  have hnone : ∀ k, min t r ≤ k → k < max t r → ¬ X.Stores k x := by
    rintro k hmin hmax ⟨a, f, p, o, hat, hleaf, htarget⟩
    by_cases ha : a = act
    · subst ha
      by_cases htk : t ≤ k
      · exact hs.no_store hx hsite hjust.quiet htk ⟨f, p, o, hat, hleaf, htarget⟩
      · exact hown k (by omega) (by omega) ⟨f, p, o, hat, hleaf, htarget⟩
    · rcases (hs.store hx hat hleaf htarget hsite).2.2 with h | ⟨g, rfl⟩
      · exact ha h
      · exact hother rfl hmin hmax ha ⟨f, p, o, hat, hleaf, htarget⟩
  obtain ⟨frt, hfrt⟩ := hjust.there
  have hft : frt.func = b.site.func := by
    obtain ⟨fr₀, hfr₀, hf₀⟩ := hsite.func
    obtain ⟨fr₁, hfr₁, hfunc, -, -⟩ := Execution.lasts hjust.le (Nat.le_of_lt hsite.lt) hfrt
    cases hfr₀.symm.trans hfr₁
    rw [hs.func, ← hf₀, hfunc]
  rcases Nat.le_total t r with h | h
  · refine (Execution.value_lasts h hr (hs.kept hx hfrt hft) fun k hk hk' => hnone k ?_ ?_).symm <;>
      omega
  · have htlen : t ≤ X.len := Nat.le_trans hjust.le (Nat.le_of_lt hsite.lt)
    refine Execution.value_lasts h htlen (hs.kept hx hfr hf) fun k hk hk' => hnone k ?_ ?_ <;> omega

end Bound

/-! ## The tests of the loop -/

/-- The loop that is run for an activation tests its bound at a step, and reads a value. -/
inductive Tests (X : Execution M) (b : SideBound) (act : Nat) : Nat → Int → Prop where
  | here {j q fr'} : b.via = none → X.At j act b.loop.func q → under b.loop.pos q = true →
      (q, .load b.l.bound b.l.boundAddr) ∈ (M.func b.loop.func).leaves →
      (X.state (j + 1)).frames[act]? = some fr' → Tests X b act j (fr'.env b.l.bound)
  /-- In the function that the call at the bound's site runs. -/
  | called {j q c k fr new fr'} : b.via ≠ none → (X.state j).frames[act]? = some fr →
      fr.func = b.site.func → fr.trace[k]? = some b.site.pos → (X.state j).frames[c]? = some new →
      new.caller = some (act, k) → X.At j c b.loop.func q → under b.loop.pos q = true →
      (q, .load b.l.bound b.l.boundAddr) ∈ (M.func b.loop.func).leaves →
      (X.state (j + 1)).frames[c]? = some fr' → Tests X b act j (fr'.env b.l.bound)

/-- The step at which the value that a test uses was read from the bound: the test itself or, for a
loop one call down, the last load of the value passed before the call. -/
inductive Reads (X : Execution M) (b : SideBound) (act : Nat) : Nat → Nat → Prop where
  | here {j : Nat} : b.via = none → Reads X b act j j
  | called {j r s k v param : Nat} {q : Pos} {fr new : Frame} {o : Leaf} : b.via = some (v, param) →
      (X.state j).frames[(X.event j).1]? = some new → new.caller = some (act, k) →
      (X.state s).frames[act]? = some fr → fr.trace.length = k →
      X.At s act b.site.func b.site.pos → X.At r act b.site.func q →
      (q, o) ∈ (M.func b.site.func).leaves → o.result = some v → r < s →
      (∀ k, r < k → k < s → ¬ X.At k act b.site.func q) → Reads X b act j r

/-- Where the bound is a global, no other activation stores to it between the two moments at which
it is read: just before the place of the choice, at `t`, and for the test. -/
def Undisturbed (X : Execution M) (b : SideBound) (act t j : Nat) : Prop :=
  ∀ {g r k a : Nat}, M.locate b.site.func act b.addr = some (.global g) → Reads X b act j r →
    min t r ≤ k → k < max t r → a ≠ act → ¬ X.StoresBy a k (.global g)

/-- The value of a load is that of the variable. -/
theorem load_value {q : Pos} {x : Var} (hat : X.At j c f q)
    (hleaf : (q, .load d addr) ∈ (M.func f).leaves) (hx : M.locate f c addr = some x)
    (hfr' : (X.state (j + 1)).frames[c]? = some fr') : fr'.env d = (X.state j).value x := by
  obtain ⟨b, o, hdoes⟩ := X.step hat.lt
  rw [hat.event] at hdoes
  obtain ⟨fr, hfr, rfl⟩ := hat.func
  cases hfr.symm.trans hdoes.frame
  have ho := (leafAt_of_mem hdoes.leaf).symm.trans (leafAt_of_mem hleaf)
  cases ho
  exact hdoes.result (by rfl) hfr' x hx

/-! ## A loop one call down -/

/-- Every store to the bound comes before the load whose value the call passes, and the function
that the call runs keeps its parameter before its loop. -/
structure Loaded (M : Module) (b : SideBound) : Prop where
  load : ∀ {v param act : Nat} {x y : Pos × Leaf}, b.via = some (v, param) →
    x ∈ (M.func b.site.func).leaves → y ∈ (M.func b.site.func).leaves →
    M.target b.site.func act x.2 ≠ none →
    M.target b.site.func act x.2 = M.locate b.site.func act b.addr → y.2.result = some v →
    precedes (M.func b.site.func).body x.1 y.1 = true
  spill : b.via ≠ none → ∀ {p : Pos} {v : Nat}, (p, .store v b.l.boundAddr) ∈
    (M.func b.loop.func).leaves → precedes (M.func b.loop.func).body p b.loop.pos = true

/-- A value that nothing computes stays what it was. -/
theorem env_lasts {act : Nat} (hij : i ≤ j) (hj : j ≤ X.len)
    (hfr : (X.state i).frames[act]? = some fr)
    (h : ∀ x ∈ (M.func fr.func).leaves, x.2.result ≠ some v)
    (hfr' : (X.state j).frames[act]? = some fr') : fr'.env v = fr.env v := by
  induction j generalizing fr' with
  | zero =>
    cases Nat.le_zero.1 hij
    cases hfr.symm.trans hfr'
    rfl
  | succ j ih =>
    rcases Nat.lt_or_eq_of_le hij with hlt | rfl
    · obtain ⟨fr₁, hfr₁, hfunc, -, -⟩ := Execution.lasts (by omega : i ≤ j) (by omega) hfr
      obtain ⟨b, o, hdoes⟩ := X.step (by omega : j < X.len)
      obtain ⟨fr₂, hfr₂, hcont⟩ := hdoes.continues hfr₁
      cases hfr'.symm.trans hfr₂
      rw [← ih (by omega) (by omega) hfr₁]
      refine hcont.env v fun hact => ?_
      rw [hact] at hfr₁
      cases hdoes.frame.symm.trans hfr₁
      exact h _ (hfunc ▸ hdoes.leaf)
    · cases hfr.symm.trans hfr'
      rfl

/-- Once the load has run, its value is what the bound held when it last ran. -/
theorem operand_value {b : SideBound} {act : Nat} {x : Var}
    (hx : M.locate b.site.func act b.addr = some x) (hk : k ≤ X.len)
    (hfr : (X.state k).frames[act]? = some fr) (hf : fr.func = b.site.func) {q : Pos}
    (hq : (q, .load v b.addr) ∈ (M.func b.site.func).leaves) (hmem : q ∈ fr.trace) :
    ∃ r, r < k ∧ X.At r act b.site.func q ∧ (∀ s, r < s → s < k → ¬ X.At s act b.site.func q) ∧
      fr.env v = (X.state r).value x := by
  induction k generalizing fr with
  | zero =>
    rw [(X.init fr (List.mem_of_getElem? hfr)).1] at hmem
    cases hmem
  | succ k ih =>
    rcases Execution.before hk hfr with ⟨fr₀, o, hfr₀, hcont, c, hdoes⟩ | ⟨-, c, o, -, hstarts⟩
    · have hf₀ : fr₀.func = b.site.func := hcont.func.symm.trans hf
      by_cases hact : X.At k act b.site.func q
      · exact ⟨k, Nat.lt_succ_self k, hact, by omega, load_value hact hq hx hfr⟩
      · -- the step is not the load
        have hne : ¬ (act = (X.event k).1 ∧ (X.event k).2 = q) := by
          rintro ⟨hact', hq'⟩
          exact hact ⟨hk, Prod.ext hact'.symm hq', fr₀, hfr₀, hf₀⟩
        have henv : fr.env v = fr₀.env v := by
          refine hcont.env v fun hact' hres => hne ⟨hact', ?_⟩
          cases hfr₀.symm.trans (hact' ▸ hdoes.frame)
          have hleaf := hdoes.leaf
          rw [hf₀] at hleaf
          cases (M.func b.site.func).ssa hleaf hq hres rfl
          rfl
        have hmem₀ : q ∈ fr₀.trace := by
          rw [hcont.trace] at hmem
          split at hmem
          · next hact' =>
            rcases List.mem_append.1 hmem with hmem | hmem
            · exact hmem
            · exact absurd ⟨hact', (List.mem_singleton.1 hmem).symm⟩ hne
          · exact hmem
        obtain ⟨r, hr, hat, hlast, hval⟩ := ih (Nat.le_of_lt hk) hfr₀ hf₀ hmem₀
        refine ⟨r, Nat.lt_succ_of_lt hr, hat, fun s hrs hs => ?_, henv.trans hval⟩
        rcases Nat.lt_succ_iff_lt_or_eq.1 hs with hs | rfl
        · exact hlast s hrs hs
        · exact hact
    · rw [hstarts.trace] at hmem
      cases hmem

/-- The step that called an activation. -/
theorem called_at (hj : j ≤ X.len) (hc : (X.state j).frames[c]? = some new)
    (hcaller : new.caller = some (a, k)) :
    ∃ t fr o new₀, t < j ∧
      Does M (X.state t) (X.state (t + 1)) a (X.event t).2 fr o ∧ (X.event t).1 = a ∧
      Starts M a fr o new₀ ∧ (X.state (t + 1)).frames[c]? = some new₀ ∧
      new₀.caller = some (a, k) := by
  induction j generalizing new with
  | zero =>
    rw [(X.init new (List.mem_of_getElem? hc)).2] at hcaller
    cases hcaller
  | succ j ih =>
    rcases Execution.before hj hc with ⟨fr₀, o, hfr₀, hcont, -⟩ | ⟨-, b, o, hdoes, hstarts⟩
    · obtain ⟨t, fr, o, new₀, ht, h⟩ :=
        ih (Nat.le_of_lt hj) hfr₀ (hcont.caller.symm.trans hcaller)
      exact ⟨t, fr, o, new₀, Nat.lt_succ_of_lt ht, h⟩
    · have ha := (hstarts.caller hcaller).1
      subst ha
      exact ⟨j, b, o, new, Nat.lt_succ_self j, hdoes, rfl, hstarts, hc, hcaller⟩

/-- The parameter of the activation that the call at the bound's site runs is the value that was
read from the bound for it. -/
theorem param_value {b : SideBound} {act : Nat} {x : Var} (hvia : b.via = some (v, param))
    (hthrough : Through M b v param) (hx : M.locate b.site.func act b.addr = some x)
    (hj : j ≤ X.len) (hfr : (X.state j).frames[act]? = some fr) (hf : fr.func = b.site.func)
    (hk : fr.trace[k]? = some b.site.pos) (hc : (X.state j).frames[(X.event j).1]? = some new)
    (hcaller : new.caller = some (act, k)) :
    ∃ r q, Reads X b act j r ∧ X.At r act b.site.func q ∧
      (q, .load v b.addr) ∈ (M.func b.site.func).leaves ∧ new.env param = (X.state r).value x := by
  obtain ⟨t, frt, o, new₀, ht, hdoes, hact, hstarts, hnew₀, hcaller₀⟩ := called_at hj hc hcaller
  obtain ⟨-, hlen, d, callee, args, rfl, hcallee, hparams⟩ := hstarts.caller hcaller₀
  have htlen : t < X.len := by omega
  -- the call is the one at the bound's site
  have hat : X.At t act frt.func (X.event t).2 := by
    refine ⟨htlen, ?_, frt, hdoes.frame, rfl⟩
    rw [← hact]
  obtain ⟨fr₁, hfr₁, -, htr₁⟩ := hat.trace hdoes.frame
  obtain ⟨fr₂, hfr₂, hfunc₂, -, hpre⟩ := Execution.lasts (Nat.succ_le_of_lt ht) hj hfr₁
  cases hfr.symm.trans hfr₂
  have hft : frt.func = b.site.func := by
    obtain ⟨fr₃, hfr₃, hfunc₃, -, -⟩ := Execution.lasts (Nat.le_of_lt ht) hj hdoes.frame
    cases hfr.symm.trans hfr₃
    exact hfunc₃.symm.trans hf
  have hpos : (X.event t).2 = b.site.pos := by
    have hget : fr.trace[k]? = some (X.event t).2 := by
      obtain ⟨rest, hrest⟩ := hpre
      rw [← hrest, htr₁, hlen]
      simp
    exact Option.some.inj (hget.symm.trans hk)
  obtain ⟨d', args', hcall, harg⟩ := hthrough.call
  have hleaf := hdoes.leaf
  rw [hft, hpos] at hleaf
  cases hcall.symm.trans (leafAt_of_mem hleaf)
  -- so the parameter is the operand's value then
  have hidx : (M.func b.loop.func).params[(M.func b.loop.func).params.idxOf param]? = some param :=
    List.getElem?_idxOf hthrough.keeps.mem
  obtain ⟨d'', hload⟩ := hthrough.operand
  obtain ⟨q, hq, hres⟩ := defOf_eq_some hload
  cases hres
  have hrun : q ∈ frt.trace :=
    hdoes.operands v (List.mem_of_getElem? harg) (q, _) (by rw [hft]; exact hq) rfl
  have hlast : new.env param = new₀.env param := by
    refine env_lasts (Nat.succ_le_of_lt ht) hj hnew₀ ?_ hc
    rw [hcallee]
    exact fun y hy => (M.func b.loop.func).params_ssa y hy param hthrough.keeps.mem
  obtain ⟨r, hr, hread, hlast', hval⟩ :=
    operand_value hx (Nat.le_of_lt htlen) hdoes.frame hft hq hrun
  rw [hft, hpos] at hat
  exact ⟨r, q, .called hvia hc hcaller hdoes.frame hlen.symm hat hread hq rfl hr hlast', hread, hq,
    by rw [hlast, hparams hidx harg, hval]⟩

/-- A slot that keeps a parameter holds it once the parameter has been stored. -/
theorem slot_value {f : Func} {slot : Nat} (hkeeps : Keeps f slot param)
    (hslot : ∃ d, f.defOf slot = some (.alloca d)) (hj : j ≤ X.len)
    (hfr : (X.state j).frames[c]? = some fr) (hf : M.func fr.func = f) {p : Pos}
    (hp : (p, .store param slot) ∈ f.leaves) (hmem : p ∈ fr.trace) :
    (X.state j).value (.slot c slot) = fr.env param := by
  obtain ⟨d, hd⟩ := hslot
  induction j generalizing fr with
  | zero =>
    rw [(X.init fr (List.mem_of_getElem? hfr)).1] at hmem
    cases hmem
  | succ j ih =>
    rcases Execution.before hj hfr with ⟨fr₀, o, hfr₀, hcont, b, hdoes⟩ | ⟨-, b, o, -, hstarts⟩
    · have hf₀ : M.func fr₀.func = f := by rw [← hcont.func, hf]
      have henv : fr.env param = fr₀.env param := by
        refine env_lasts (Nat.le_succ j) hj hfr₀ ?_ hfr
        rw [hf₀]
        exact fun y hy => f.params_ssa y hy param hkeeps.mem
      have hkept : M.Kept (X.state j) (.slot c slot) :=
        ⟨fr₀, hfr₀, by rw [hf₀]; exact hkeeps.direct⟩
      rw [hdoes.memory _ hkept, henv]
      split
      · next htarget =>
        obtain ⟨w, addr, rfl, hloc⟩ := target_eq_some htarget
        obtain ⟨hact, rfl, -⟩ := locate_slot hloc
        subst hact
        cases hfr₀.symm.trans hdoes.frame
        have hleaf := hdoes.leaf
        rw [hf₀] at hleaf
        rw [storedValue, (hkeeps.store hleaf).1]
      · next htarget =>
        refine ih (Nat.le_of_lt hj) hfr₀ hf₀ ?_
        rw [hcont.trace] at hmem
        split at hmem
        · next hact =>
          rcases List.mem_append.1 hmem with hmem | hmem
          · exact hmem
          · -- the step is the store
            exfalso
            have hpj : p = (X.event j).2 := List.mem_singleton.1 hmem
            subst hact
            cases hfr₀.symm.trans hdoes.frame
            have hleaf := hdoes.leaf
            rw [hf₀, ← hpj] at hleaf
            cases (leafAt_of_mem hleaf).symm.trans (leafAt_of_mem hp)
            refine htarget ?_
            simp [Module.target, Module.locate, hf₀, hd]
        · exact hmem
    · rw [hstarts.trace] at hmem
      cases hmem

/-- The parameter has been stored once the loop tests its bound. -/
theorem spilled {b : SideBound} (hl : Loaded M b) (hvia : b.via = some (v, param))
    (hthrough : Through M b v param) {q : Pos} (hat : X.At j c b.loop.func q)
    (hunder : under b.loop.pos q = true) (hnew : (X.state j).frames[c]? = some new) :
    ∃ p, (p, .store param b.l.boundAddr) ∈ (M.func b.loop.func).leaves ∧ p ∈ new.trace := by
  obtain ⟨p, hp⟩ := hthrough.keeps.stored
  refine ⟨p, hp, ?_⟩
  obtain ⟨hpre, hentry⟩ := And.intro
    (precedes_of_under (hl.spill (by simp [hvia]) hp) hunder) (hthrough.keeps.store hp).2
  obtain ⟨fr', hfr', hf', htrace⟩ := hat.trace hnew
  obtain ⟨e, hrun⟩ := X.runs (Nat.succ_le_of_lt hat.lt) fr' (List.mem_of_getElem? hfr')
  rw [hf'] at hrun
  cases p with
  | inside l k p => cases hentry
  | here l =>
    obtain ⟨block, idx⟩ := l
    have hblock : block = 0 := by simpa [inEntry] using hentry
    subst hblock
    obtain ⟨i, s, rfl⟩ := hrun.sub (by simp [htrace] : q ∈ fr'.trace)
    have hlt : idx < i := by
      have hb : (⟨0, idx⟩ : Nested.Loc).before ⟨0, i⟩ = true := by
        rcases s with _ | ⟨k, q⟩ <;> simpa [precedes, Pos.loc, Pos.of] using hpre
      simpa [Loc.before] using hb
    obtain ⟨rs, hget⟩ := opAt_of_leaf hp
    have hmem := hrun.passed hget hlt (by simp [htrace] : .of i s ∈ fr'.trace)
    rw [htrace] at hmem
    rcases List.mem_append.1 hmem with hmem | hmem
    · exact hmem
    · have heq := (of_injective (List.mem_singleton.1 hmem)).1
      omega

/-! ## The count at the constructor -/

/-- In every execution in which a queue is built and the loop that starts its threads is then run
for it, the value of the bound that is read just before the constructor, or the call that builds the
queue, is the value that the loop's condition reads at each of its tests. -/
theorem bound_read_is_bound_run (M : Module) (root : Root) (ctors : List Site) (r : Rewrite)
    (h : specialiseAtRunTime M root ctors = .ok r) (b : SideBound) (hb : b ∈ r.sides)
    (hl : Loaded M b) (X : Execution M) (act i t j : Nat) (n : Int)
    (hsite : X.At i act r.site.func r.site.pos) (hjust : JustBefore X t i act)
    (htest : Tests X b act j n) (hun : Undisturbed X b act t j) :
    ∃ x, M.locate b.site.func act b.addr = some x ∧ (X.state t).value x = n := by
  obtain ⟨hs, hcounted, hcases⟩ := specialiseAtRunTime_sides h hb
  obtain ⟨x, hx⟩ := hs.locate act
  refine ⟨x, hx, ?_⟩
  have hti := hjust.le
  cases htest with
  | here hvia hat hunder hleaf hfr' =>
    rcases hcases with ⟨-, haddr, hloop⟩ | ⟨v, param, hsome, -⟩
    · -- the test comes after the constructor
      have hpre := hs.order
      rw [hloop] at hpre
      have hpre := precedes_of_under hpre hunder
      have hsite' := hsite
      rw [← hs.func, hloop] at hpre hsite'
      have hij : i < j := by
        have hge := hsite'.not_lt hat hpre
        have hne := hsite'.ne_of_precedes hat hpre
        omega
      obtain ⟨fr, hfr, hf⟩ := hat.func
      rw [hs.same_value hx hsite hjust (Nat.le_of_lt hat.lt) hfr (hf.trans (by rw [hloop]))
        (fun k hk hk' => by omega) fun hg => hun (hg ▸ hx) (.here hvia)]
      rw [hloop, haddr] at hx
      rw [load_value hat hleaf hx hfr']
    · rw [hvia] at hsome
      cases hsome
  | @called q c k fr new fr' hvia hfr hf hk hnew hcaller hat hunder hleaf hfr' =>
    rcases hcases with ⟨hno, -⟩ | ⟨v, param, hsome, hthrough⟩
    · exact absurd hno hvia
    · have hc : (X.event j).1 = c := by rw [hat.event]
      obtain ⟨r, q', hreads, hread, hload, hparam⟩ :=
        param_value hsome hthrough hx (Nat.le_of_lt hat.lt) hfr hf hk (hc ▸ hnew) hcaller
      obtain ⟨p, hp, hmem⟩ := spilled hl hsome hthrough hat hunder hnew
      have hfunc : new.func = b.loop.func := by
        obtain ⟨new', hnew', hf'⟩ := hat.func
        cases hnew.symm.trans hnew'
        exact hf'
      have hslot := slot_value hthrough.keeps hthrough.slot (Nat.le_of_lt hat.lt) hnew
        (congrArg M.func hfunc) hp hmem
      have hloc : M.locate b.loop.func c b.l.boundAddr = some (.slot c b.l.boundAddr) := by
        obtain ⟨d, hd⟩ := hthrough.slot
        simp [Module.locate, hd]
      rw [load_value hat hleaf hloc hfr', hslot, hparam]
      obtain ⟨frr, hfrr, hfr⟩ := hread.func
      refine hs.same_value hx hsite hjust (Nat.le_of_lt hread.lt) hfrr hfr ?_
        fun hg => hun (hg ▸ hx) hreads
      -- the activation's own stores come before the load
      rintro k hrk - ⟨f, p, o, hat', hleaf', htarget⟩
      obtain ⟨rfl, -, -⟩ := hs.store hx hat' hleaf' htarget hsite
      rw [← hs.func] at hleaf' hat' htarget
      have hpre := hl.load (y := (q', .load v b.addr)) hsome hleaf' hload (by simp [htarget])
        (htarget.trans hx.symm) rfl
      rcases Nat.lt_or_eq_of_le hrk with hlt | rfl
      · exact hat'.not_lt hread hpre hlt
      · exact hat'.ne_of_precedes hread hpre rfl

/-! ## A queue built after the bound was loaded for the call -/

/-- `n = 2; ...; n = n - 1; build the queue; run(..)`, where the call passes the value `2`, which
was loaded before the last store, or `8`, which is loaded after the constructor. -/
def builderLeaves (passed : Nat) : List Leaf :=
  [.alloca 0, .alloca 6, .const 1 2, .store 1 0, .load 2 0, .const 3 (-1), .add 4 2 3, .store 4 0,
    .const 5 0, .call none 2 [6, 5], .load 8 0, .call none 1 [passed]]

/-- `run(n)`: keeps its parameter `0` in a slot, and starts a thread for each `i` from zero below
it. -/
def runLeaves : List Leaf := [.alloca 1, .store 0 1, .alloca 2, .const 3 0, .store 3 2]

def runLoop : StraightLoop where
  cond := [.load 4 2, .load 5 1, .cmp 6 .lt 4 5]
  body := [.call none 3 []]
  step := [.load 7 2, .inc 8 7, .store 8 2]

def allInt (_ : Nat) : Option Counted.IntType := some ⟨32, true⟩

def builderFunc (passed : Nat) : Func where
  body := straight (builderLeaves passed) none
  params := []
  type := allInt
  ssa := ssa_of_nodup (l := leavesOf (straight (builderLeaves passed) none))
    (show ([0, 6, 1, 2, 3, 4, 5, 8] : List Nat).Nodup by decide)
  params_ssa := nofun

def runFunc : Func where
  body := straight runLeaves (some runLoop)
  params := [0]
  type := allInt
  ssa := ssa_of_nodup (by decide)
  params_ssa := by decide

def declared : Func where
  body := []
  params := []
  type := allInt
  ssa := nofun
  params_ssa := nofun

/-- The loop of `run`. -/
def runLoopSite : Site := ⟨1, .here ⟨0, 5⟩⟩

def builder (passed : Nat) : Module where
  funcs := [0, 1]
  func
    | 0 => builderFunc passed
    | 1 => runFunc
    | _ => declared
  mem_funcs := by
    intro f hf
    match f with
    | 0 | 1 => decide
    | n + 2 => exact absurd rfl hf
  viewed _ := false
  isAlias _ := false
  loopNumbered _ := some runLoopSite
  viaNumbered _ := some ⟨0, .here ⟨0, 11⟩⟩
  countedLoop s := if s = runLoopSite then some ⟨5, 1, 0, false⟩ else none
  counted_bound := by
    intro s l h
    split at h
    · next hs =>
      subst hs
      cases h
      have hleaf : (Pos.inside ⟨0, 5⟩ 0 (.here ⟨0, 1⟩), .load 5 1) ∈ runFunc.leaves := by decide
      exact ⟨_, hleaf, by decide⟩
    · cases h
  takesTopologyTag _ := true
  tag _ := some 0

def builderRoot : Root := ⟨some 0, none, some 0, none⟩
def builderCtor : Site := ⟨0, .here ⟨0, 9⟩⟩

/-- What is read for the producers. -/
def builderBound (passed : Nat) : SideBound :=
  ⟨⟨5, 1, 0, false⟩, runLoopSite, 0, ⟨0, .here ⟨0, 11⟩⟩, some (passed, 0)⟩

/-- All of the builder, and `run` up to its first test. -/
def builderEvents : List (Nat × Pos) :=
  (firstLeaves 12).map (0, ·) ++ (firstLeaves 5).map (1, ·) ++
    (firstLeaves 2).map fun p => (1, .inside ⟨0, 5⟩ 0 p)

def builderStart : State := ⟨[⟨0, fun _ => 0, fun _ => 0, [], none⟩], fun _ => 0⟩

def okFrame (passed : Nat) (fr : Frame) : Bool :=
  if fr.func = 0 then straightTrace (builderLeaves passed) none fr.trace
  else fr.func = 1 && straightTrace runLeaves (some runLoop) fr.trace

theorem runs_of_okFrame (h : okFrame passed fr = true) :
    ∃ e, Runs ((builder passed).func fr.func).body fr.trace e := by
  unfold okFrame at h
  split at h
  · next hf =>
    rw [hf]
    exact runs_of_straightTrace h
  · simp only [Bool.and_eq_true, decide_eq_true_eq] at h
    rw [h.1]
    exact runs_of_straightTrace h.2

theorem builder_params (passed f : Nat) : ((builder passed).func f).params.Nodup := by
  match f with
  | 0 => exact List.nodup_nil
  | 1 => exact List.pairwise_singleton _ _
  | n + 2 => exact List.nodup_nil

/-- The steps are legal whichever of the two values is passed. -/
def builderRun (passed : Nat) (h : passed = 2 ∨ passed = 8) : Execution (builder passed) :=
  performed (builder passed) builderStart builderEvents (builder_params passed)
    (by simp [builderStart])
    (by rcases h with rfl | rfl <;> decide)
    (by
      have hall : ∀ i ≤ builderEvents.length, ∀ fr ∈
          (stateAfter (builder passed) builderStart (builderEvents.take i)).frames,
          okFrame passed fr = true := by
        rcases h with rfl | rfl <;> decide
      exact fun i hi fr hfr => runs_of_okFrame (hall i hi fr hfr))

theorem builderRun_site (passed : Nat) (h : passed = 2 ∨ passed = 8) :
    (builderRun passed h).At 9 0 builderCtor.func builderCtor.pos ∧
      JustBefore (builderRun passed h) 9 9 0 := by
  have hthere : ∃ fr, ((builderRun passed h).state 9).frames[0]? = some fr ∧ fr.func = 0 := by
    rcases h with rfl | rfl <;> exact ⟨_, rfl, rfl⟩
  refine ⟨⟨show 9 < builderEvents.length by decide, rfl, hthere⟩, le_rfl,
    hthere.imp fun _ h => h.1, ?_⟩
  intro k hk hk'
  omega

/-- The first test of the loop reads `n`. -/
theorem builderRun_tests (h : passed = 2 ∨ passed = 8) {n : Int}
    (hn : (((builderRun passed h).state 19).frames[1]?).map (·.env 5) = some n) :
    Tests (builderRun passed h) (builderBound passed) 0 18 n := by
  obtain ⟨fr', hfr', rfl⟩ := Option.map_eq_some_iff.1 hn
  have hcaller : ∃ fr, ((builderRun passed h).state 18).frames[0]? = some fr ∧ fr.func = 0 ∧
      fr.trace[11]? = some (.here ⟨0, 11⟩) := by
    rcases h with rfl | rfl <;> exact ⟨_, rfl, rfl, rfl⟩
  have hnew : ∃ fr, ((builderRun passed h).state 18).frames[1]? = some fr ∧ fr.func = 1 ∧
      fr.caller = some (0, 11) := by
    rcases h with rfl | rfl <;> exact ⟨_, rfl, rfl, rfl⟩
  obtain ⟨fr, hfr, hfunc, htrace⟩ := hcaller
  obtain ⟨new, hnew, hfunc', hcall⟩ := hnew
  have hleaf : (Pos.inside ⟨0, 5⟩ 0 (.here ⟨0, 1⟩), .load 5 1) ∈ runFunc.leaves := by decide
  exact .called nofun hfr hfunc htrace hnew hcall
    ⟨show 18 < builderEvents.length by decide, rfl, new, hnew, hfunc'⟩
    (show under runLoopSite.pos _ = true by decide) hleaf
    hfr'

/-- The value passed was loaded before the last store: the choice is made for a count of one, and
the loop runs with two. -/
theorem passed_before_last_store : ∃ r b,
    specialiseAtRunTime (builder 2) builderRoot [builderCtor] = .ok r ∧ b ∈ r.sides ∧
      ∃ (X : Execution (builder 2)) (i t j : Nat) (x : Var), X.At i 0 r.site.func r.site.pos ∧
        JustBefore X t i 0 ∧ Tests X b 0 j 2 ∧
        (builder 2).locate b.site.func 0 b.addr = some x ∧ (X.state t).value x = 1 := by
  have hsite := builderRun_site 2 (.inl rfl)
  exact ⟨⟨builderCtor, false, some (builderBound 2), none⟩, builderBound 2, by decide, by decide,
    builderRun 2 (.inl rfl), 9, 9, 18, .slot 0 0, hsite.1, hsite.2,
    builderRun_tests (.inl rfl) (by decide), by decide, by decide⟩

def Leaf.isStore : Leaf → Bool
  | .store _ _ => true
  | _ => false

/-- The value passed is loaded last. -/
theorem builder_loaded : Loaded (builder 8) (builderBound 8) := by
  have hstores : ∀ x ∈ (builderFunc 8).leaves, ∀ y ∈ (builderFunc 8).leaves, x.2.isStore = true →
      y.2.result = some 8 → precedes (builderFunc 8).body x.1 y.1 = true := by decide
  have hspill : ∀ x ∈ runFunc.leaves, x.2.isStore = true → under runLoopSite.pos x.1 = false →
      precedes runFunc.body x.1 runLoopSite.pos = true := by decide
  have hstep : ∀ x ∈ runFunc.leaves, under runLoopSite.pos x.1 = true → x.2 = .store 8 2 ∨
      x.2.isStore = false := by decide
  constructor
  · intro v param act x y hvia hx hy hsome _ hres
    cases hvia
    obtain ⟨w, addr, hstore, -⟩ := target_eq_some (Option.ne_none_iff_exists'.1 hsome).choose_spec
    exact hstores x hx y hy (by rw [hstore]; rfl) hres
  · intro _ p v hp
    refine hspill _ hp rfl (Bool.eq_false_iff.2 fun hunder => ?_)
    rcases hstep _ hp hunder with h | h <;> cases h

/-- Passing the value that is loaded after the constructor. -/
theorem passed_after_last_store :
    specialiseAtRunTime (builder 8) builderRoot [builderCtor] =
        .ok ⟨builderCtor, false, some (builderBound 8), none⟩ ∧
      Tests (builderRun 8 (.inr rfl)) (builderBound 8) 0 18 1 ∧
      ∃ x, (builder 8).locate (builderBound 8).site.func 0 (builderBound 8).addr = some x ∧
        ((builderRun 8 (.inr rfl)).state 9).value x = 1 := by
  have hsite := builderRun_site 8 (.inr rfl)
  have htest : Tests (builderRun 8 (.inr rfl)) (builderBound 8) 0 18 1 :=
    builderRun_tests (.inr rfl) (by decide)
  have hchosen : specialiseAtRunTime (builder 8) builderRoot [builderCtor] =
      .ok ⟨builderCtor, false, some (builderBound 8), none⟩ := by decide
  exact ⟨hchosen, htest, bound_read_is_bound_run (builder 8) builderRoot [builderCtor] _ hchosen
    (builderBound 8) (by decide) builder_loaded _ 0 9 9 18 1 hsite.1 hsite.2 htest
      (fun hg => by cases hg)⟩

end Wtc.Specialise
