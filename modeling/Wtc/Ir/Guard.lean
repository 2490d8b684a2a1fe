import Wtc.Ir.Policy

/-!
# Programs that obey a policy

If every operation of a program obeys the policy, then in every execution guarded names are where
the policy lets them be (`Inv.run`), and a guarded object is reached by its own thread alone
(`Inv.touches`).
-/

namespace Wtc.Ir

open Wtc.Control

variable {P C V B : Type}

/-! ## Parts of a step -/

variable {x g i o : Nat} {dest : Option Nat}

section Parts

variable {π : Policy} {D : Data P C V B} {G : Program P C B} {ob : Objects} {t : Nat}
  {opened : Nat → Bool} {a : Activation P C V} {l l' : Layer P C V} {below : List (Layer P C V)}
  {v : V} {d : Option Nat}

@[simp] theorem Activation.set_func (a : Activation P C V) (d : Option Nat) (v : V) :
    (a.set d v).func = a.func := by
  cases d <;> rfl

@[simp] theorem Activation.set_args (a : Activation P C V) (d : Option Nat) (v : V) :
    (a.set d v).args = a.args := by
  cases d <;> rfl

@[simp] theorem Activation.set_dest (a : Activation P C V) (d : Option Nat) (v : V) :
    (a.set d v).dest = a.dest := by
  cases d <;> rfl

@[simp] theorem Activation.set_ctrl (a : Activation P C V) (d : Option Nat) (v : V) :
    (a.set d v).ctrl = a.ctrl := by
  cases d <;> rfl

@[simp] theorem Activation.set_result (a : Activation P C V) (d : Option Nat) (v : V) :
    (a.set d v).result = a.result := by
  cases d <;> rfl

theorem Activation.set_env (a : Activation P C V) (d : Option Nat) (v : V) (x : Nat) :
    (a.set d v).env x = if d = some x then v else a.env x := by
  cases d with
  | none => rfl
  | some d =>
    by_cases hx : x = d
    · simp [Activation.set, hx]
    · simp [Activation.set, Function.update_of_ne hx, Ne.symm hx]

section

variable (h : CodeOk π D G ob t a)
include h

/-- A value is defined. -/
theorem CodeOk.set
    (hv : ∀ x, d = some x → π.free a.func x ∨ π.sealed a.func x ∨ Plain π ob D v ∨
      π.kept a.func x ∧ Kept π ob D t v)
    (hown : ∀ x, d = some x → π.own a.func x → ∀ n ∈ D.names v, OwnName π ob n)
    (hsealed : ∀ x, d = some x → π.sealed a.func x →
      ∀ n ∈ D.names v, SlotName ob ⟨t, a.func, x⟩ n) :
    CodeOk π D G ob t (a.set d v) where
  code := by simpa using h.code
  env x := by
    rw [Activation.set_env, Activation.set_func]
    split
    · next hx => exact hv x hx
    · exact h.env x
  own x hx := by
    rw [Activation.set_func] at hx
    rw [Activation.set_env]
    split
    · next hd => exact hown x hd hx
    · exact h.own x hx
  sealed x hx := by
    rw [Activation.set_func] at hx
    rw [Activation.set_env, Activation.set_func]
    split
    · next hd => exact hsealed x hd hx
    · exact h.sealed x hx
  result := by simpa using h.result
  args := by simpa using h.args

/-- A value that is not a slot's address is defined. -/
theorem CodeOk.set_other
    (hv : ∀ x, d = some x → π.free a.func x ∨ Plain π ob D v ∨ π.kept a.func x ∧ Kept π ob D t v)
    (hd : ∀ x, d = some x → ¬ π.own a.func x ∧ ¬ π.sealed a.func x) :
    CodeOk π D G ob t (a.set d v) :=
  h.set (fun x hx => (hv x hx).imp_right .inr) (fun x hx ho => absurd ho (hd x hx).1)
    fun x hx hs => absurd hs (hd x hx).2

theorem CodeOk.set_plain (hv : Plain π ob D v)
    (hd : ∀ x, d = some x → ¬ π.own a.func x ∧ ¬ π.sealed a.func x) :
    CodeOk π D G ob t (a.set d v) :=
  h.set_other (fun _ _ => .inr (.inl hv)) hd

theorem CodeOk.goto {k : List (Frame (Instr P) (Test C))} (hk : ∀ f, Within f a.ctrl → Within f k) :
    CodeOk π D G ob t { a with ctrl := k } := by
  obtain ⟨f, hf, hw⟩ := h.code
  exact ⟨⟨f, hf, hk _ hw⟩, h.env, h.own, h.sealed, h.result, h.args⟩

/-- A value that is neither free nor a sealed slot's address is plain, or kept. -/
theorem CodeOk.env_kept (hx : ¬ π.free a.func x) (hs : ¬ π.sealed a.func x) :
    Kept π ob D t (a.env x) := by
  rcases h.env x with hf | hs' | hp | ⟨-, hk⟩
  · exact absurd hf hx
  · exact absurd hs' hs
  · exact hp.kept
  · exact hk

theorem CodeOk.env_plain (hx : ¬ π.free a.func x) (hs : ¬ π.sealed a.func x)
    (hk : ¬ π.kept a.func x) : Plain π ob D (a.env x) := by
  rcases h.env x with hf | hs' | hp | ⟨hk', -⟩
  · exact absurd hf hx
  · exact absurd hs' hs
  · exact hp
  · exact absurd hk' hk

end

theorem Fits.code {a' : Activation P C V} {below : Option (Layer P C V)}
    (h : Fits π D ob (.code a) below) (hf : a'.func = a.func) (ha : a'.args = a.args)
    (hd : a'.dest = a.dest) : Fits π D ob (.code a') below := by
  rcases below with _ | (c | _)
  · trivial
  · simpa [Fits, hf, ha, hd] using h
  · simpa [Fits, hf] using h

theorem Fits.set {below : Option (Layer P C V)} (h : Fits π D ob (.code a) below) :
    Fits π D ob (.code (a.set d v)) below :=
  h.code (by simp) (by simp) (by simp)

theorem Fits.learned {leaks : Bool} {given learned learned' : List V}
    {below : Option (Layer P C V)} (h : Fits π D ob (.outside leaks given learned dest) below) :
    Fits π D ob (.outside leaks given learned' dest) below := by
  rcases below with _ | (c | _) <;> exact h

/-- The innermost call goes on. -/
theorem StackOk.top (h : StackOk π D G ob t (l :: below)) (hl : LayerOk π D G ob t l')
    (hf : Fits π D ob l' below.head?) : StackOk π D G ob t (l' :: below) :=
  ⟨List.forall_mem_cons.2 ⟨hl, fun k hk => h.layers k (List.mem_cons_of_mem _ hk)⟩, hf, h.linked.2⟩

theorem StackOk.push (h : StackOk π D G ob t below) (hl : LayerOk π D G ob t l)
    (hf : Fits π D ob l below.head?) : StackOk π D G ob t (l :: below) :=
  ⟨List.forall_mem_cons.2 ⟨hl, h.layers⟩, hf, h.linked⟩

theorem StackOk.pop (h : StackOk π D G ob t (l :: below)) : StackOk π D G ob t below :=
  ⟨fun k hk => h.layers k (List.mem_cons_of_mem _ hk), h.linked.2⟩

theorem StackOk.head (h : StackOk π D G ob t (l :: below)) : LayerOk π D G ob t l :=
  h.layers l List.mem_cons_self

/-- A call returns. -/
theorem StackOk.deliver (h : StackOk π D G ob t below)
    (hcode : ∀ {c}, below.head? = some (.code c) → ∀ x, d = some x →
      (¬ π.own c.func x ∧ ¬ π.sealed c.func x) ∧ (π.free c.func x ∨ Plain π ob D v))
    (hout : ∀ {leaks given learned dest},
      below.head? = some (.outside leaks given learned dest) → Plain π ob D v) :
    StackOk π D G ob t (deliver v d below) := by
  rcases below with _ | ⟨c | ⟨leaks, given, learned, dest⟩, below⟩
  · exact h
  · have hc : CodeOk π D G ob t c := h.head
    refine h.top (hc.set_other (fun x hx => ?_) fun x hx => (hcode rfl x hx).1) h.linked.1.set
    exact ((hcode rfl x hx).2).imp_right .inl
  · exact h.top ⟨h.head.1, List.forall_mem_cons.2 ⟨hout rfl, h.head.2⟩⟩ h.linked.1.learned

theorem StackOk.unwind (h : StackOk π D G ob t below) :
    StackOk π D G ob t (unwind below) := by
  rcases below with _ | ⟨c | _, below⟩
  · exact h
  · have hc : CodeOk π D G ob t c := h.head
    exact h.top (hc.goto fun f hw => hw.exit _) (h.linked.1.code rfl rfl rfl)
  · exact h

/-- A function is entered. -/
theorem enter_ok (hπ : π.Ok D G opened) {vs : List V} (he : enter D G g vs d = some l)
    (hvs : ∀ i v, vs[i]? = some v → Plain π ob D v ∨ π.Welcomes G g i ∧ Kept π ob D t v) :
    LayerOk π D G ob t l := by
  have hkept : ∀ v ∈ vs, Kept π ob D t v := by
    intro v hv
    obtain ⟨i, hi⟩ := List.mem_iff_getElem?.1 hv
    rcases hvs i v hi with hp | ⟨-, hk⟩
    · exact hp.kept
    · exact hk
  unfold enter at he
  unfold Policy.Welcomes at hvs
  split at he
  · next f hf =>
    cases he
    simp only [hf] at hvs
    have hslot : ∀ x, π.own g x ∨ π.sealed g x → D.names (bind D f.params vs x) = [] := by
      intro x hx
      have hx' := (f.slots x (hπ.slot hf hx)).1
      simp [bind, hx', D.names_undef]
    refine ⟨⟨f, hf, .start _⟩, fun x => .inr (.inr ?_), fun x hx n hn => ?_, fun x hx n hn => ?_,
      .inr plain_undef, hkept⟩
    · simp only [activate, bind]
      split_ifs with hx
      · cases hv : vs[f.params.idxOf x]? with
        | none => exact .inl plain_undef
        | some v =>
          rcases hvs _ v hv with hp | ⟨hw, hk⟩
          · exact .inl hp
          · exact .inr ⟨hw x (List.getElem?_idxOf hx), hk⟩
      · exact .inl plain_undef
    · simp [activate, hslot x (.inl hx)] at hn
    · simp [activate, hslot x (.inr hx)] at hn
  · next leaks hf =>
    cases he
    simp only [hf] at hvs
    refine ⟨fun v hv => ?_, by simp⟩
    obtain ⟨i, hi⟩ := List.mem_iff_getElem?.1 hv
    exact hvs i v hi
  · cases he

end Parts

/-! ## One step -/

section Step

variable {π : Policy} {D : Data P C V B} {G : Program P C B} {opened : Nat → Bool}
  {s : State P C V B} {t : Nat} {a : Activation P C V} {below : List (Layer P C V)} {given : V}
  {f : Func P C} {e : Effect P C V B}

/-- Nothing but its `alloca` defines a guarded slot's address. -/
theorem Policy.Ok.not_slot (hπ : π.Ok D G opened) {h : Nat} (hf : G.decls[h]? = some (.body f))
    {o : Instr P} (ho : o ∈ f.code.ops) (hne : ∀ x, o ≠ .alloca x) (hx : o.result = some x) :
    ¬ π.own h x ∧ ¬ π.sealed h x :=
  ⟨fun hown => hne x ((f.slots x (hπ.slot hf (.inl hown))).2 o ho hx),
    fun hs => hne x ((f.slots x (hπ.slot hf (.inr hs))).2 o ho hx)⟩

theorem exec_pure (h : StackOk π D G s.objs t (.code a :: below)) {d : Nat} {p : P} {xs : List Nat}
    (hallow : π.Allows D G a.func (.pure d p xs))
    (hd : ∀ x, some d = some x → ¬ π.own a.func x ∧ ¬ π.sealed a.func x) :
    StackOk π D G s.objs t (.code (a.set (some d) (D.eval p (xs.map a.env))) :: below) := by
  have ha : CodeOk π D G s.objs t a := h.head
  refine h.top (ha.set_other (fun x hx => ?_) hd) h.linked.1.set
  cases hx
  by_cases hk : π.kept a.func d
  · refine .inr (.inr ⟨hk, fun n hn => ?_⟩)
    obtain ⟨v, hv, hnv⟩ := D.names_eval hn
    obtain ⟨x, hx, rfl⟩ := List.mem_map.1 hv
    exact ha.env_kept (hallow x hx).1 (hallow x hx).2.1 n hnv
  · refine .inr (.inl fun n hn => ?_)
    obtain ⟨v, hv, hnv⟩ := D.names_eval hn
    obtain ⟨x, hx, rfl⟩ := List.mem_map.1 hv
    obtain ⟨hfree, hsealed, hkept⟩ := hallow x hx
    refine ha.env_plain hfree hsealed (fun hx' => ?_) n hnv
    rcases hkept hx' with hd' | hinert
    · exact hk hd'
    · rw [hinert] at hn
      cases hn

theorem exec_alloca (h : StackOk π D G s.objs t (.code a :: below)) {d : Nat}
    (hallow : π.Allows D G a.func (.alloca d)) :
    StackOk π D G (s.objs.add ⟨t, a.func, d⟩) t
      (.code (a.set (some d) (D.addr s.objs.next)) :: below) := by
  have h' := h.grow (grows_add s.objs ⟨t, a.func, d⟩)
  have ha : CodeOk π D G _ t a := h'.head
  have howner : (s.objs.add ⟨t, a.func, d⟩).owner s.objs.next = some ⟨t, a.func, d⟩ := by
    simp [Objects.add]
  have hlt : s.objs.next < (s.objs.add ⟨t, a.func, d⟩).next := Nat.lt_succ_self _
  have hnew : ∀ n ∈ D.names (D.addr s.objs.next), n = .obj s.objs.next := by simp [D.names_addr]
  refine h'.top (ha.set (fun x hx => ?_) (fun x hx ho n hn => ?_) fun x hx hs n hn => ?_)
    h'.linked.1.set
  · cases hx
    by_cases hs : π.sealed a.func d
    · exact .inr (.inl hs)
    have hs' : ¬ Sealed π (s.objs.add ⟨t, a.func, d⟩) s.objs.next := by
      rintro ⟨w, hw, hsealed⟩
      rw [howner] at hw
      cases hw
      exact hs hsealed
    by_cases ho : π.own a.func d
    · refine .inr (.inr (.inr ⟨(hallow ho).1, fun n hn => ?_⟩))
      rw [hnew n hn]
      exact ⟨hlt, hs', fun _ => ⟨_, howner, rfl⟩⟩
    · refine .inr (.inr (.inl fun n hn => ?_))
      rw [hnew n hn]
      refine ⟨hlt, ?_, hs'⟩
      rintro ⟨w, hw, hown⟩
      rw [howner] at hw
      cases hw
      exact ho hown
  · cases hx
    exact ⟨_, hnew n hn, hlt, _, howner, ho⟩
  · cases hx
    exact ⟨_, hnew n hn, hlt, howner⟩

/-- The object that a value points to, if it is sealed, is a slot of that value. -/
theorem CodeOk.target (ha : CodeOk π D G s.objs t a) (hx : ¬ π.free a.func x)
    (ht : D.target (a.env x) = some (o, i)) {w : Owner} (hw : s.objs.owner o = some w)
    (hs : π.sealed w.func w.id) : π.sealed a.func x ∧ w = ⟨t, a.func, x⟩ := by
  have hname := D.target_names ht
  by_cases hsx : π.sealed a.func x
  · obtain ⟨o', ho, -, hown⟩ := ha.sealed x hsx _ hname
    cases ho
    rw [hw] at hown
    exact ⟨hsx, Option.some.inj hown⟩
  · exact absurd ⟨w, hw, hs⟩ (ha.env_kept hx hsx _ hname).2.1

theorem exec_load (hinv : Inv π D G s) (h : StackOk π D G s.objs t (.code a :: below)) {d : Nat}
    (hallow : π.Allows D G a.func (.load d x))
    (hd : ∀ x, some d = some x → ¬ π.own a.func x ∧ ¬ π.sealed a.func x)
    (ht : D.target (a.env x) = some (o, i)) :
    StackOk π D G s.objs t (.code (a.set (some d) (D.read (s.mem o) i)) :: below) := by
  have ha : CodeOk π D G s.objs t a := h.head
  refine h.top (ha.set_other (fun y hy => ?_) hd) h.linked.1.set
  cases hy
  by_cases hs : π.sealed a.func x
  · obtain ⟨o', ho, -, hw⟩ := ha.sealed x hs _ (D.target_names ht)
    cases ho
    obtain ⟨hfree, hkept⟩ := hallow.2 hs
    by_cases hf : π.freeIn a.func x
    · exact .inl (hfree hf)
    by_cases hk : π.keptIn a.func x
    · refine .inr (.inr ⟨hkept hk, fun n hn => ?_⟩)
      rcases hinv.mem o n (D.holds_read hn) with hp | ⟨w, hw', -, hin⟩
      · exact hp.kept
      · cases hw.symm.trans hw'
        exact (hin.resolve_left hf).2
    · refine .inr (.inl fun n hn => ?_)
      rcases hinv.mem o n (D.holds_read hn) with hp | ⟨w, hw', -, hin⟩
      · exact hp
      · cases hw.symm.trans hw'
        exact absurd (hin.resolve_left hf).1 hk
  · refine .inr (.inl fun n hn => ?_)
    rcases hinv.mem o n (D.holds_read hn) with hp | ⟨w, hw, hs', -⟩
    · exact hp
    · exact absurd (ha.target hallow.1 ht hw hs').1 hs

theorem exec_store (hinv : Inv π D G s) (h : StackOk π D G s.objs t (.code a :: below)) {v : Nat}
    (hallow : π.Allows D G a.func (.store v x)) (ht : D.target (a.env x) = some (o, i)) :
    BytesOk π D s.objs o (D.write (s.mem o) i (a.env v)) := by
  have ha : CodeOk π D G s.objs t a := h.head
  obtain ⟨-, hsv, hkeep, hfree⟩ := hallow
  have hslot : π.sealed a.func x → s.objs.owner o = some ⟨t, a.func, x⟩ := by
    intro hs
    obtain ⟨o', ho, -, hw⟩ := ha.sealed x hs _ (D.target_names ht)
    cases ho
    exact hw
  intro n hn
  rcases D.holds_write hn with hn | hn
  · exact hinv.mem o n hn
  · by_cases hf : π.free a.func v
    · obtain ⟨hs, hin⟩ := hfree hf
      exact .inr ⟨_, hslot hs, hs, .inl hin⟩
    by_cases hk : π.kept a.func v
    · obtain ⟨hs, hin⟩ := hkeep hk
      exact .inr ⟨_, hslot hs, hs, .inr ⟨hin, ha.env_kept hf hsv n hn⟩⟩
    · exact .inl (ha.env_plain hf hsv hk n hn)

/-- The function that a call enters: by name, or by an address that is not guarded. -/
theorem callee_cases {c : Callee} {d : Option Nat} {xs : List Nat} (ha : CodeOk π D G s.objs t a)
    (hallow : π.AllowsCall G a.func d xs c) (hg : calleeOf D a c = some g) :
    c = .direct g ∨ ¬ π.hid g ∧ ∀ x ∈ xs, ¬ π.kept a.func x := by
  cases c with
  | direct g' =>
    cases hg
    exact .inl rfl
  | indirect y =>
    obtain ⟨hf, hs, hk, hxs⟩ := hallow
    exact .inr ⟨ha.env_plain hf hs hk _ (D.callee_names hg), hxs⟩

/-- What a call passes on is plain, or the function may be handed it. -/
theorem call_args {c : Callee} {d : Option Nat} {xs : List Nat} (ha : CodeOk π D G s.objs t a)
    (hxs : ∀ x ∈ xs, ¬ π.free a.func x ∧ ¬ π.sealed a.func x)
    (hallow : π.AllowsCall G a.func d xs c) (hg : calleeOf D a c = some g) {v : V}
    (hv : (xs.map a.env)[i]? = some v) :
    Plain π s.objs D v ∨ π.Welcomes G g i ∧ Kept π s.objs D t v := by
  rw [List.getElem?_map] at hv
  obtain ⟨x, hx, rfl⟩ := Option.map_eq_some_iff.1 hv
  have hmem := List.mem_of_getElem? hx
  obtain ⟨hfree, hsealed⟩ := hxs x hmem
  by_cases hk : π.kept a.func x
  · rcases callee_cases ha hallow hg with rfl | ⟨-, hnone⟩
    · exact .inr ⟨hallow.1 i x hx hk, ha.env_kept hfree hsealed⟩
    · exact absurd hk (hnone x hmem)
  · exact .inl (ha.env_plain hfree hsealed hk)

section

variable (hπ : π.Ok D G opened)
include hπ

/-- A call fits what made it. -/
theorem call_fits {c : Callee} {d : Option Nat} {xs : List Nat} {l : Layer P C V}
    (ha : CodeOk π D G s.objs t a) (hallow : π.AllowsCall G a.func d xs c)
    (hg : calleeOf D a c = some g) (hd : ∀ x, d = some x → ¬ π.own a.func x ∧ ¬ π.sealed a.func x)
    (hl : enter D G g (xs.map a.env) d = some l) : Fits π D s.objs l (some (.code a)) := by
  unfold enter at hl
  split at hl
  · cases hl
    rcases callee_cases ha hallow hg with rfl | ⟨hhid, -⟩
    · refine ⟨hallow.2.1, fun i v hp hv n hn => ?_, hd⟩
      simp only [activate, List.getElem?_map] at hv
      obtain ⟨x, hx, rfl⟩ := Option.map_eq_some_iff.1 hv
      exact ha.own x (hallow.2.2 i x hp hx) n hn
    · exact ⟨fun hr => absurd (hπ.hides hr) hhid, fun i v hp => absurd (hπ.passes hp) hhid, hd⟩
  · cases hl
    exact hd
  · cases hl

theorem exec_ok (hinv : Inv π D G s) (h : StackOk π D G s.objs t (.code a :: below))
    (hf : G.decls[a.func]? = some (.body f)) {o : Instr P} (ho : o ∈ f.code.ops)
    (he : exec D G s a below given o = some e) : EffectOk π D G s.objs t s.threads.length e := by
  have ha : CodeOk π D G s.objs t a := h.head
  have hallow := hπ.instr hf o ho
  have hd : (∀ y, o ≠ .alloca y) → ∀ x, o.result = some x →
      ¬ π.own a.func x ∧ ¬ π.sealed a.func x := fun hne x hx => hπ.not_slot hf ho hne hx
  cases o with
  | pure d p xs =>
    cases he
    exact exec_pure h hallow (hd (by simp))
  | alloca d =>
    cases he
    exact exec_alloca h hallow
  | getGlobal d g =>
    simp only [exec] at he
    split at he
    · next hg =>
      cases he
      refine h.top (ha.set_plain (fun n hn => ?_) (hd (by simp))) h.linked.1.set
      rw [D.names_addr, List.mem_singleton] at hn
      subst hn
      have hnone := hinv.unowned hg
      exact ⟨Nat.lt_of_lt_of_le hg hinv.globals, by simp [Own, hnone], by simp [Sealed, hnone]⟩
    · cases he
  | getFunc d g =>
    cases he
    refine h.top (ha.set_plain (fun n hn => ?_) (hd (by simp))) h.linked.1.set
    rw [D.names_fn, List.mem_singleton] at hn
    subst hn
    exact hallow
  | load d x =>
    obtain ⟨⟨o, i⟩, ht, he⟩ := Option.bind_eq_some_iff.1 he
    cases he
    exact exec_load hinv h hallow (hd (by simp)) ht
  | store v x =>
    obtain ⟨⟨o, i⟩, ht, he⟩ := Option.bind_eq_some_iff.1 he
    cases he
    exact ⟨h, exec_store hinv h hallow ht⟩
  | lifetime x =>
    cases he
    exact h
  | ret v =>
    cases he
    refine h.top ⟨ha.code, ha.env, ha.own, ha.sealed, ?_, ha.args⟩ (h.linked.1.code rfl rfl rfl)
    cases v with
    | none => exact .inr plain_undef
    | some x =>
      by_cases hfree : π.free a.func x
      · exact .inl ((hallow x rfl).2.2 hfree)
      · exact .inr (ha.env_plain hfree (hallow x rfl).1 (hallow x rfl).2.1)
  | call d c xs =>
    obtain ⟨g, hg, he⟩ := Option.bind_eq_some_iff.1 he
    have hdest : ∀ x, d = some x → ¬ π.own a.func x ∧ ¬ π.sealed a.func x := hd (by simp)
    have hargs : ∀ (i : Nat) (v : V), (xs.map a.env)[i]? = some v →
        Plain π s.objs D v ∨ π.Welcomes G g i ∧ Kept π s.objs D t v :=
      fun i v hv => call_args ha hallow.1 hallow.2 hg hv
    dsimp only at he
    split at he
    · next entry hspawn =>
      -- a thread is started, on plain values alone
      have hplain : ∀ (i : Nat) (v : V), (xs.map a.env)[i]? = some v → Plain π s.objs D v := by
        intro i v hv
        rcases hargs i v hv with hp | ⟨hw, -⟩
        · exact hp
        · simp [Policy.Welcomes, hspawn] at hw
      obtain ⟨v, hv, he⟩ := Option.bind_eq_some_iff.1 he
      obtain ⟨f', -, he⟩ := Option.bind_eq_some_iff.1 he
      obtain ⟨new, hnew, he⟩ := Option.bind_eq_some_iff.1 he
      split at he
      · next hgiven =>
        cases he
        refine ⟨h.top (ha.set_plain (.of_names hgiven) hdest) h.linked.1.set,
          enter_ok hπ hnew fun i v hv => .inl ?_⟩
        rw [List.getElem?_drop] at hv
        exact hplain _ v hv
      · cases he
    · obtain ⟨l, hl, he⟩ := Option.bind_eq_some_iff.1 he
      cases he
      exact h.push (enter_ok hπ hl hargs) (call_fits hπ ha hallow.2 hg hdest hl)

/-- A function returns. -/
theorem return_ok {answer : V} (h : StackOk π D G s.objs t (.code a :: below)) :
    StackOk π D G s.objs t (deliver (if opened a.func then answer else a.result) a.dest below) := by
  have ha : CodeOk π D G s.objs t a := h.head
  have hval : π.freeResult a.func ∨
      Plain π s.objs D (if opened a.func then answer else a.result) := by
    by_cases ho : opened a.func = true
    · exact .inl (hπ.opened ho)
    · simpa [ho] using ha.result
  have hfits := h.linked.1
  refine h.pop.deliver (fun {c} hc x hx => ?_) fun hout => ?_
  · rw [hc] at hfits
    exact ⟨hfits.dest x hx, hval.imp_left fun hr => hfits.result hr x hx⟩
  · rw [hout] at hfits
    exact hval.resolve_left fun hr => hfits (hπ.hides hr)

theorem runCode_ok (hinv : Inv π D G s) {answer : V}
    (h : StackOk π D G s.objs t (.code a :: below))
    (he : runCode D G s opened answer given a below = some e) :
    EffectOk π D G s.objs t s.threads.length e := by
  have ha : CodeOk π D G s.objs t a := h.head
  unfold runCode at he
  split at he
  · next k hk =>
    cases he
    exact h.top (ha.goto fun f hw => hw.tau hk) (h.linked.1.code rfl rfl rfl)
  · next c k hk =>
    cases he
    exact h.top (ha.goto fun f hw => (hw.test hk).2 _) (h.linked.1.code rfl rfl rfl)
  · next o k hk =>
    obtain ⟨f, hf, hw⟩ := ha.code
    have h' : StackOk π D G s.objs t (.code { a with ctrl := k } :: below) :=
      h.top (ha.goto fun f hw => (hw.op hk).2) (h.linked.1.code rfl rfl rfl)
    exact exec_ok hπ hinv h' hf (hw.op hk).1 he
  · split at he
    · cases he
      exact return_ok hπ h
    · cases he
      exact return_ok hπ h
    · cases he
      exact h.pop.unwind
    · cases he

omit hπ in
/-- What code that is not shown knows. -/
theorem known_kept (hinv : Inv π D G s) {leaks : Bool} {given learned : List V}
    (h : LayerOk π D G s.objs t (.outside leaks given learned dest)) :
    ∀ k ∈ given ++ learned ++ s.shared, Kept π s.objs D t k := by
  intro k hk
  rcases List.mem_append.1 hk with hk | hk
  · rcases List.mem_append.1 hk with hk | hk
    · rcases h.1 k hk with hp | ⟨-, hk⟩
      · exact hp.kept
      · exact hk
    · exact (h.2 k hk).kept
  · exact (hinv.shared k hk).kept

omit hπ in
/-- What it may let out. -/
theorem known_plain (hinv : Inv π D G s) {leaks : Bool} {given learned : List V}
    (h : LayerOk π D G s.objs t (.outside leaks given learned dest)) :
    ∀ k ∈ lets leaks given ++ learned ++ s.shared, Plain π s.objs D k := by
  intro k hk
  rcases List.mem_append.1 hk with hk | hk
  · rcases List.mem_append.1 hk with hk | hk
    · cases leaks with
      | false => simp [lets] at hk
      | true =>
        rcases h.1 k hk with hp | ⟨hl, -⟩
        · exact hp
        · cases hl
    · exact h.2 k hk
  · exact hinv.shared k hk

/-- Code that is not shown calls a function whose address it has, or starts it. -/
theorem outside_enters (hinv : Inv π D G s) {leaks : Bool} {given learned : List V} {t' : Nat}
    {f : V} {vs : List V} {new : Layer P C V}
    (h : LayerOk π D G s.objs t (.outside leaks given learned dest)) (hg : D.callee f = some g)
    (hnew : enter D G g vs none = some new) (hf : knows D (given ++ learned ++ s.shared) f = true)
    (hvs : vs.all (knows D (lets leaks given ++ learned ++ s.shared)) = true) :
    LayerOk π D G s.objs t' new ∧
      Fits π D s.objs new (some (.outside leaks given learned dest)) := by
  refine ⟨enter_ok hπ hnew fun i v hv => .inl ?_, ?_⟩
  · exact .of_knows (List.all_eq_true.1 hvs v (List.mem_of_getElem? hv)) (known_plain hinv h)
  · have hhid : ¬ π.hid g := Kept.of_knows hf (known_kept hinv h) _ (D.callee_names hg)
    unfold enter at hnew
    split at hnew
    · cases hnew
      exact hhid
    · cases hnew
      trivial
    · cases hnew

theorem effect_ok (hinv : Inv π D G s) {m : Move V} {stack : List (Layer P C V)}
    (h : StackOk π D G s.objs t stack) (he : effect D G s opened m stack = some e) :
    EffectOk π D G s.objs t s.threads.length e := by
  unfold effect at he
  split at he
  · exact runCode_ok hπ hinv h he
  · next v leaks given learned dest below =>
    obtain ⟨⟨o, i⟩, ht, he⟩ := Option.bind_eq_some_iff.1 he
    dsimp only at he
    split at he
    · next hknows =>
      cases he
      refine h.top ⟨h.head.1, List.forall_mem_cons.2 ⟨fun n hn => ?_, h.head.2⟩⟩ h.linked.1.learned
      rcases hinv.mem o n (D.holds_read hn) with hp | ⟨w, hw, hs, -⟩
      · exact hp
      · have hv := Kept.of_knows hknows (known_kept hinv h.head) _ (D.target_names ht)
        exact absurd ⟨w, hw, hs⟩ hv.2.1
    · cases he
  · next v w leaks given learned dest below =>
    obtain ⟨⟨o, i⟩, ht, he⟩ := Option.bind_eq_some_iff.1 he
    dsimp only at he
    split at he
    · next hknows =>
      cases he
      refine ⟨h, fun n hn => ?_⟩
      rcases D.holds_write hn with hn | hn
      · exact hinv.mem o n hn
      · exact .inl (Plain.of_knows hknows.2 (known_plain hinv h.head) n hn)
    · cases he
  · next f vs leaks given learned dest below =>
    obtain ⟨g, hg, he⟩ := Option.bind_eq_some_iff.1 he
    obtain ⟨new, hnew, he⟩ := Option.bind_eq_some_iff.1 he
    split at he
    · next hknows =>
      cases he
      obtain ⟨hl, hfit⟩ := outside_enters hπ hinv h.head hg hnew hknows.1 hknows.2
      exact h.push hl hfit
    · cases he
  · next f vs leaks given learned dest below =>
    obtain ⟨g, hg, he⟩ := Option.bind_eq_some_iff.1 he
    obtain ⟨new, hnew, he⟩ := Option.bind_eq_some_iff.1 he
    split at he
    · next hknows =>
      cases he
      exact ⟨h, (outside_enters hπ hinv h.head hg hnew hknows.1 hknows.2).1⟩
    · cases he
  · next v leaks given learned dest below =>
    split at he
    · next hknows =>
      cases he
      exact ⟨h, .of_knows hknows (known_plain hinv h.head)⟩
    · cases he
  · next v leaks given learned dest below =>
    split at he
    · next hknows =>
      cases he
      have hv : Plain π s.objs D v := .of_knows hknows (known_plain hinv h.head)
      have hfits := h.linked.1
      refine h.pop.deliver (fun {c} hc x hx => ?_) fun _ => hv
      rw [hc] at hfits
      exact ⟨hfits x hx, .inr hv⟩
    · cases he
  · cases he
    exact h.pop.unwind
  · cases he

theorem Inv.step (hinv : Inv π D G s) {s' : State P C V B} {m : Move V}
    (hs : step D G opened t m s = some s') : Inv π D G s' := by
  obtain ⟨stack, hstack, hs⟩ := Option.bind_eq_some_iff.1 hs
  obtain ⟨e, he, hs⟩ := Option.bind_eq_some_iff.1 hs
  cases hs
  exact hinv.apply (effect_ok hπ hinv (hinv.threads hstack) he)

end

end Step

/-! ## Executions -/

section Run

variable {π : Policy} {D : Data P C V B} {G : Program P C B} {opened : Nat → Bool}
  {s s' : State P C V B}

theorem Inv.run (hπ : π.Ok D G opened) {ms : List (Nat × Move V)} (hinv : Inv π D G s)
    (hr : run D G opened ms s = some s') : Inv π D G s' := by
  induction ms generalizing s with
  | nil =>
    cases hr
    exact hinv
  | cons m ms ih =>
    obtain ⟨s₁, h₁, hr⟩ := Option.bind_eq_some_iff.1 hr
    exact ih (hinv.step hπ h₁) hr

/-- The arguments of the program name nothing but globals. -/
def ArgsOk (D : Data P C V B) (G : Program P C B) (args : List V) : Prop :=
  ∀ v ∈ args, ∀ n ∈ D.names v, ∃ o, n = .obj o ∧ o < G.globals

theorem inv_start (hπ : π.Ok D G opened) {args : List V} (hargs : ArgsOk D G args) :
    Inv π D G (G.start D args) := by
  have hplain : ∀ o, o < G.globals → PlainName π (G.start D args).objs (.obj o) := by
    exact fun o ho => ⟨ho, by simp [Own, Program.start], by simp [Sealed, Program.start]⟩
  refine ⟨fun {t stack} ht => ?_, fun o n hn => .inl ?_, by simp [Program.start],
    fun _ => rfl, Nat.le_refl _, fun _ => rfl⟩
  · have hstack : stack = (enter D G G.main args none).toList := by
      cases t with
      | zero => simpa [Program.start] using ht.symm
      | succ t => simp [Program.start] at ht
    subst hstack
    cases hl : enter D G G.main args none with
    | none => exact ⟨by simp, trivial⟩
    | some l =>
      refine ⟨fun l' hl' => ?_, ?_, trivial⟩
      · cases List.mem_singleton.1 hl'
        refine enter_ok hπ hl fun i v hv => .inl fun n hn => ?_
        obtain ⟨o, rfl, ho⟩ := hargs v (List.mem_of_getElem? hv) n hn
        exact hplain o ho
      · cases l <;> trivial
  · cases n with
    | obj o' => exact hplain o' (hπ.objects hn)
    | func f => exact hπ.funcs hn

/-! ## Who reaches a guarded object -/

theorem Linked.of_append {ob : Objects} {above below : List (Layer P C V)}
    (h : Linked π D ob (above ++ below)) : Linked π D ob below := by
  induction above with
  | nil => exact h
  | cons l above ih => exact ih h.2

/-- What a call passes that the policy has as `own` is, and is of the thread. -/
theorem Inv.passed (hπ : π.Ok D G opened) (hinv : Inv π D G s) {t j : Nat} {v : V}
    {a : Activation P C V} {caller : Layer P C V} {above below : List (Layer P C V)}
    (ht : s.threads[t]? = some (above ++ .code a :: caller :: below)) (hp : π.passed a.func i)
    (hv : a.args[i]? = some v) (ho : D.target v = some (o, j)) :
    Own π s.objs o ∧ Home s.objs o t := by
  have hstack := hinv.threads ht
  have ha : CodeOk π D G s.objs t a := hstack.layers (.code a) (by simp)
  have hfits : Fits π D s.objs (.code a) (some caller) := hstack.linked.of_append.1
  cases caller with
  | code c =>
    obtain ⟨o', he, -, hown⟩ := hfits.passed i v hp hv _ (D.target_names ho)
    cases he
    exact ⟨hown, (ha.args v (List.mem_of_getElem? hv) _ (D.target_names ho)).2.2 hown⟩
  | outside => exact absurd (hπ.passes hp) hfits

/-- A guarded object is touched by its own thread alone. -/
theorem Inv.touches (hπ : π.Ok D G opened) (hinv : Inv π D G s) {t : Nat} {m : Move V}
    {stack : List (Layer P C V)} (hstack : s.threads[t]? = some stack) {e : Effect P C V B}
    (he : effect D G s opened m stack = some e) (ht : Ir.touches D m stack = some o)
    (hg : Own π s.objs o) : Home s.objs o t := by
  have h := hinv.threads hstack
  rcases stack with _ | ⟨a | ⟨leaks, given, learned, dest⟩, below⟩
  · cases ht
  · have ha : CodeOk π D G s.objs t a := h.head
    obtain ⟨f, hf, hw⟩ := ha.code
    have hreach : ∀ x, ¬ π.free a.func x → (D.target (a.env x)).map (·.1) = some o →
        Home s.objs o t := by
      intro x hx ho
      obtain ⟨⟨o', i⟩, htarget, rfl⟩ := Option.map_eq_some_iff.1 ho
      by_cases hs : π.sealed a.func x
      · obtain ⟨o'', ho, -, hw⟩ := ha.sealed x hs _ (D.target_names htarget)
        cases ho
        exact ⟨_, hw, rfl⟩
      · exact (ha.env_kept hx hs _ (D.target_names htarget)).2.2 hg
    simp only [Ir.touches] at ht
    split at ht
    · next hn => exact hreach _ (hπ.instr hf _ (hw.op hn).1).1 ht
    · next hn => exact hreach _ (hπ.instr hf _ (hw.op hn).1).1 ht
    · cases ht
  · have hreach : ∀ v i, D.target v = some (o, i) →
        knows D (given ++ learned ++ s.shared) v = true → Home s.objs o t := fun v i hv hk =>
      (Kept.of_knows hk (known_kept hinv h.head) _ (D.target_names hv)).2.2 hg
    simp only [Ir.touches] at ht
    split at ht
    · obtain ⟨⟨o', i⟩, hv, rfl⟩ := Option.map_eq_some_iff.1 ht
      simp only [effect, hv, Option.bind_eq_bind, Option.bind_some] at he
      split at he
      · next hk => exact hreach _ i hv hk
      · cases he
    · obtain ⟨⟨o', i⟩, hv, rfl⟩ := Option.map_eq_some_iff.1 ht
      simp only [effect, hv, Option.bind_eq_bind, Option.bind_some] at he
      split at he
      · next hk => exact hreach _ i hv hk.1
      · cases he
    · cases ht

end Run

end Wtc.Ir
