import Wtc.Segment.One.Pop

/-!
# The proof rule for the queue for one consumer

The ghost goes along with the queue taken from out of order: each event of the machine is some
events there, and its own history is that of the machine.
-/

namespace Wtc.Segment.One

open Wtc.Concurrent

variable {α Tid : Type} {K : Nat} {cons t : Tid} {sh : Shared α} {w : Ghost Tid α}

theorem G.init : G K (Shared.init : Shared α) (Ghost.init : Ghost Tid α) where
  chain := .init
  valid := .init
  cells := ⟨nofun, nofun, nofun, nofun, nofun, fun s j _ h => absurd rfl h, nofun⟩
  ahead := by
    have h0 : passed K (Shared.init : Shared α) = 0 := by simp [passed, Shared.init]
    exact ⟨fun n hn => absurd (h0 ▸ hn) (Nat.not_lt_zero n), .nil,
      by simp [Shared.init], by simp [Shared.init], fun n _ hn => absurd hn (Nat.not_lt_zero n),
      by simp [Ghost.init, Loose.State.init]⟩

theorem Rest.init : Rest K (Shared.init : Shared α) (Ghost.init : Ghost Tid α) :=
  ⟨nofun, fun h => absurd rfl h⟩

variable [DecidableEq Tid]

/-- What a thread does to its own call alone. -/
theorem G.call (hg : G K sh w) {lo : Loose.State Tid α}
    {es : List (Event Tid (FifoOp α) (FifoAns α))} (hn : Loose.Next w.lo es lo)
    (hf : lo.filled = w.lo.filled) (ht : lo.taken = w.lo.taken) : G K sh { w with lo := lo } := by
  have hgrow := hn.grows
  have hval : ∀ x ∈ w.lo.filled, lo.val x = w.lo.val x := fun x hx =>
    hgrow.val (hg.valid.val x hx)
  refine ⟨hg.chain, hg.valid.next hn, ⟨?_, hg.cells.owner_lt, ?_, ?_, ?_, ?_, ?_⟩,
    hg.ahead.congr rfl rfl ht rfl fun _ _ => rfl⟩
  · rw [hf]; exact hg.cells.num_lt
  · rw [hf]; exact hg.cells.num_inj
  · rw [hf, ht]; exact hg.cells.mark
  · intro x (hx : x ∈ lo.filled) hnt s j hj he
    rw [hf] at hx
    rw [ht] at hnt
    rw [hval x hx]
    exact hg.cells.cell x hx hnt s j hj he
  · rw [hf]; exact hg.cells.elem
  · intro y (hy : y ∈ lo.filled) x hx
    rw [hf] at hy
    rw [hgrow.earlier hg.valid (hg.valid.call_lt hy)] at hx
    exact hg.cells.earlier y hy x hx

theorem Rely.call {lo : Loose.State Tid α} {es : List (Event Tid (FifoOp α) (FifoAns α))}
    (hn : Loose.Next w.lo es lo) (ht : lo.taken = w.lo.taken)
    (hp : ∀ u, u ≠ t → lo.pend u = w.lo.pend u) : Rely K cons t sh w sh { w with lo := lo } :=
  { Rely.refl K cons t sh w with
    grows := hn.grows
    pend := hp
    quiet := fun _ => { Quiet.refl K sh w with taken := ht } }

omit [DecidableEq Tid] in
theorem Rest.congr {w' : Ghost Tid α} (h : Rest K sh w) (ht : w'.lo.taken = w.lo.taken)
    (hn : w'.num = w.num) (ha : w'.ahead = w.ahead) : Rest K sh w' := by
  refine ⟨fun x hx => ?_, fun hne => ?_⟩
  · rw [ht] at hx
    rw [hn]
    exact h.1 x hx
  · rw [ha]
    exact h.2 hne

/-- A thread outside every call begins one. -/
theorem call_kept {s : Config Tid (Shared α) (LocOne α)} {c : Call α} (hg : G K s.sh w)
    (hl : L K cons t s.sh w none) (hm : (oneMachine α K cons).may s t c) :
    ∃ w' : Ghost Tid α, Loose.Path w.lo [.call t c.ops] w'.lo ∧ G K s.sh w' ∧
      L K cons t s.sh w' (some ((oneMachine α K cons).start c)) ∧ Rely K cons t s.sh w s.sh w' := by
  obtain ⟨hp, hrest⟩ := hl
  cases c with
  | push vs =>
    have hn : Loose.Next w.lo [.call t (vs.map .push)] (w.lo.begin t vs) := .callPush hp vs
    refine ⟨{ w with lo := w.lo.begin t vs }, .single hn, hg.call hn rfl rfl, ⟨?_, fun he =>
      (hrest he).congr rfl rfl rfl⟩, .call hn rfl fun u hu => Loose.State.set_pend_ne _ hu _⟩
    exact PushL_loop ⟨w.lo.calls.length, ⟨w.lo.filled.length, vs⟩, Loose.State.set_pend_self ..,
      List.getElem?_concat_length, rfl, Nat.zero_le _⟩
  | pop =>
    obtain rfl := hm rfl
    have hn : Loose.Next w.lo [.call t [.pop]] _ := .callPop hp
    exact ⟨{ w with lo := _ }, .single hn, hg.call hn rfl rfl, ⟨rfl, ⟨w.lo.filled.length,
      Loose.State.set_pend_self .., le_rfl⟩, (hrest rfl).congr rfl rfl rfl⟩,
      .call hn rfl fun u hu => Loose.State.set_pend_ne _ hu _⟩

/-- A thread at the end of a call gives its answer. -/
theorem ret_kept {l : LocOne α} {ans : List (FifoAns α)} (hg : G K sh w)
    (hl : L K cons t sh w (some l)) (ha : (oneMachine α K cons).answer l = some ans) :
    ∃ w' : Ghost Tid α, Loose.Path w.lo [.ret t ans] w'.lo ∧ G K sh w' ∧ L K cons t sh w' none ∧
      Rely K cons t sh w sh w' := by
  have hend : Loose.Next w.lo [.ret t ans] (w.lo.set t none) ∧ (t = cons → Rest K sh w) := by
    rcases l with l | l <;> cases l <;> cases ha
    · obtain ⟨⟨c, b, hp, hb, hd, hk⟩, hrest⟩ := hl
      exact ⟨.retPush hp hb (Nat.le_antisymm (List.drop_eq_nil_iff.1 hd) hk), hrest⟩
    · exact ⟨.retPop hl.2.1, fun _ => hl.2.2⟩
  obtain ⟨hn, hrest⟩ := hend
  exact ⟨{ w with lo := w.lo.set t none }, .single hn, hg.call hn rfl rfl,
    ⟨Loose.State.set_pend_self .., fun he => (hrest he).congr rfl rfl rfl⟩,
    .call hn rfl fun u hu => Loose.State.set_pend_ne _ hu _⟩

/-- A thread inside a call makes a step. -/
theorem step_kept {l l' : LocOne α} {sh' : Shared α} {c : Unit} (hg : G K sh w)
    (hl : L K cons t sh w (some l)) (hs : (oneMachine α K cons).step t c sh l = some (sh', l')) :
    ∃ w' : Ghost Tid α, Loose.Path w.lo [] w'.lo ∧ G K sh' w' ∧ L K cons t sh' w' (some l') ∧
      Rely K cons t sh w sh' w' := by
  rcases l with l | l
  · obtain ⟨⟨sh₁, l₁⟩, hstep, he⟩ := Option.map_eq_some_iff.1 hs
    cases he
    have hk : Kept K cons t sh w sh' _ := push_step hg hl.1 hstep
    obtain ⟨w', h1, h2, h3, h4, hq⟩ := hk
    exact ⟨w', h1, h2, ⟨h3, fun he => (hl.2 he).stable hg h4 hq⟩, h4⟩
  · obtain ⟨⟨sh₁, l₁⟩, hstep, he⟩ := Option.map_eq_some_iff.1 hs
    cases he
    obtain ⟨rfl, hl⟩ := hl
    obtain ⟨w', h1, h2, h3, h4⟩ := one_step hg hl hstep
    exact ⟨w', h1, h2, ⟨rfl, h3⟩, h4⟩

/-- The thread-modular proof of the queue. -/
def rule (α : Type) (K : Nat) (cons : Tid) :
    Rule (oneMachine α K cons) (fun _ => True)
      (fun (w : Ghost Tid α) es w' => Loose.Path w.lo es w'.lo) where
  w₀ := .init
  G := G K
  L := L K cons
  rely := Rely K cons
  init := ⟨.init, fun t => ⟨rfl, fun _ => .init⟩⟩
  call := by
    intro s w t c hg hl _ hloc hm
    have hlt := hl t
    rw [hloc] at hlt
    exact call_kept hg hlt hm
  step := fun hg _ _ _ _ hl hs => step_kept hg hl hs
  ret := by
    intro s w t l ans hg hl _ hloc ha
    have hlt := hl t
    rw [hloc] at hlt
    exact ret_kept hg hlt ha
  stable := fun hu hg _ hl hr => hl.stable hg hu hr

/-- The moves of the ghost are events of the queue taken from out of order. -/
theorem path_of_trace {h : List (Event Tid (FifoOp α) (FifoAns α))} {w₀ w : Ghost Tid α}
    (ht : Trace (fun (w : Ghost Tid α) es w' => Loose.Path w.lo es w'.lo) w₀ h w) :
    Loose.Path w₀.lo h w.lo := by
  induction ht with
  | init => exact .refl
  | next _ hT ih => exact ih.trans hT

end Wtc.Segment.One
