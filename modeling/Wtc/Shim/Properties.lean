import Wtc.Shim.Pop

/-!
# Every tag of `wtc::queue` is a list

Programs of one thread get the same answers from a queue of any tag, those of a list.
-/

namespace Wtc.Shim

open Wtc.Concurrent

variable {α : Type} {cfg : Cfg} {env : Env} {q q' : Queue α} {vis : List α} {closed : Bool}
  {coin : Nat → Bool}

/-! ## Every operation comes to its end -/

theorem has_push (impl : Impl α) (v : α) : impl.Has (.push v) := by cases impl <;> rfl

theorem has_consume (impl : Impl α) : impl.Has .consume := by cases impl <;> rfl

theorem has_inPlace {tag : Tag} {impl : Impl α} (h : Impl.fits tag impl = true)
    (ht : tag.inPlace = true) : (∀ v, impl.Has (.pushDeferred v)) ∧ impl.Has .publish := by
  cases tag <;> cases ht <;> cases impl <;> cases h <;> exact ⟨fun _ => rfl, rfl⟩

theorem has_aside {tag : Tag} {impl : Impl α} (h : Impl.fits tag impl = true)
    (ht : tag.inPlace = false) (vs : List α) : impl.Has (.pushRun vs) := by
  cases tag <;> cases ht <;> cases impl <;> cases h <;> rfl

theorem has_borrow {impl : Impl α} (h : Impl.fits .spscInline impl = true) :
    impl.Has .tryPopBorrow := by
  cases impl <;> cases h
  rfl

section

variable (hf : Fair coin)
include hf

theorem push_settles (hq : q.Ready cfg) (v : α) :
    Settles (fun fuel => q.push cfg ⟨fuel, coin⟩ v) (·.Ready cfg) :=
  (ask_settles hf hq (has_push _ v)).bind fun _ hx => notify_settles hx.1.waiters hx.1

/-- What a settled step of a batch leaves. -/
def Queue.Goes (cfg : Cfg) (q : Queue α) (x : Batch α × Queue α) : Prop :=
  x.2.Ready cfg ∧ x.2.tag = q.tag

theorem publishInPlace_settles (hq : q.Ready cfg) (ht : q.tag.inPlace = true) (b : Batch α) :
    Settles (fun fuel => q.publishInPlace cfg ⟨fuel, coin⟩ b) (q.Goes cfg) := by
  refine (ask_settles hf hq (has_inPlace hq.fits ht).2).bind fun x hx => ?_
  exact (notify_settles hx.1.waiters hx).bind fun q₂ hq₂ => .pure hq₂

theorem publishRun_settles (hq : q.Ready cfg) (ht : q.tag.inPlace = false) (b : Batch α) :
    Settles (fun fuel => q.publishRun cfg ⟨fuel, coin⟩ b) (q.Goes cfg) := by
  unfold Queue.publishRun
  split_ifs
  · exact .pure ⟨hq, rfl⟩
  · refine (ask_settles hf hq (has_aside hq.fits ht b.run)).bind fun x hx => ?_
    exact (notify_settles hx.1.waiters hx).bind fun q₂ hq₂ => .pure hq₂

theorem publish_settles (hq : q.Ready cfg) (b : Batch α) :
    Settles (fun fuel => q.publish cfg ⟨fuel, coin⟩ b) (q.Goes cfg) := by
  cases ht : q.tag <;> simp only [Queue.publish, ht]
  · exact publishRun_settles hf hq (by rw [ht]; rfl) b
  · exact publishInPlace_settles hf hq (by rw [ht]; rfl) b
  · exact publishInPlace_settles hf hq (by rw [ht]; rfl) b
  · exact publishRun_settles hf hq (by rw [ht]; rfl) b
  · exact publishInPlace_settles hf hq (by rw [ht]; rfl) b

theorem deferInPlace_settles (hq : q.Ready cfg) (ht : q.tag.inPlace = true) (b : Batch α) (v : α) :
    Settles (fun fuel => q.deferInPlace cfg ⟨fuel, coin⟩ b v) (q.Goes cfg) :=
  (ask_settles hf hq ((has_inPlace hq.fits ht).1 v)).bind fun _ hx => .pure hx

theorem defer_settles (hq : q.Ready cfg) (b : Batch α) (v : α) :
    Settles (fun fuel => q.defer cfg ⟨fuel, coin⟩ b v) (q.Goes cfg) := by
  cases ht : q.tag <;> simp only [Queue.defer, ht]
  · exact .pure ⟨hq, rfl⟩
  · exact deferInPlace_settles hf hq (by rw [ht]; rfl) b v
  · exact deferInPlace_settles hf hq (by rw [ht]; rfl) b v
  · exact .pure ⟨hq, rfl⟩
  · exact deferInPlace_settles hf hq (by rw [ht]; rfl) b v

theorem pushDeferred_settles (hq : q.Ready cfg) (b : Batch α) (v : α) :
    Settles (fun fuel => q.pushDeferred cfg ⟨fuel, coin⟩ b v) (·.2.Ready cfg) := by
  refine (defer_settles hf hq b v).bind fun x hx => ?_
  by_cases hK : x.1.pending = cfg.batchK
  · simp only [hK, if_true]
    exact (publish_settles hf hx.1 x.1).imp fun _ h => h.1
  · simp only [hK, if_false]
    exact .pure hx.1

theorem deferAll_settles (hq : q.Ready cfg) (vs : List α) (b : Batch α) :
    Settles (fun fuel => Queue.deferAll cfg ⟨fuel, coin⟩ vs b q) (·.2.Ready cfg) := by
  induction vs generalizing b q with
  | nil => exact .pure hq
  | cons v vs ih => exact (pushDeferred_settles hf hq b v).bind fun x hx => ih hx x.1

theorem consume_settles (hq : q.Ready cfg) :
    Settles (fun fuel => q.consume cfg ⟨fuel, coin⟩) (·.1.Ready cfg) :=
  (ask_settles hf hq (has_consume _)).bind fun _ hx => .pure hx.1

theorem tryPop_settles (hq : q.Ready cfg) :
    Settles (fun fuel => q.tryPop cfg ⟨fuel, coin⟩) (·.1.Ready cfg) := by
  unfold Queue.tryPop
  split_ifs with ht
  · refine (ask_settles hf hq (has_borrow ?_)).bind fun x hx => .pure hx.1
    rw [← ht]
    exact hq.fits
  · exact (consume_settles hf hq).bind fun x hx => .pure hx

theorem popWait_settles (hq : q.Ready cfg) (hh : q.Holds cfg vis [] closed)
    (hd : ¬ (vis = [] ∧ closed = false)) :
    Settles (fun fuel => q.popWait cfg ⟨fuel, coin⟩) (·.1.Ready cfg) := by
  obtain ⟨n, ⟨q₁, v⟩, hq₁, hc⟩ := consume_settles hf hq
  obtain ⟨rfl, -⟩ := consume_spec hh (hc n le_rfl)
  refine ⟨n + 3, ⟨{ q₁ with wait := q.wait }, vis.head?⟩,
    ⟨hq₁.fits, hq₁.impl, hq.waiters, hq.asleep⟩, fun m hm => ?_⟩
  have hlook : Queue.look cfg ⟨m, coin⟩ (some q) = (some q₁, vis.head?) := by
    simp [Queue.look, hc m (by omega)]
  have hcl : vis.head? = none → q.wait.closed = true := by
    intro hv
    rw [List.head?_eq_none_iff] at hv
    have hcl : closed ≠ false := fun hcl => hd ⟨hv, hcl⟩
    rw [hh.closed]
    simpa using hcl
  obtain ⟨m, rfl⟩ := Nat.exists_eq_add_of_le' (show 3 ≤ m by omega)
  simp [Queue.popWait, waitAlone_look hlook hcl]

omit hf in
theorem close_settles (hq : q.Ready cfg) :
    Settles (fun fuel => q.close cfg ⟨fuel, coin⟩) (·.Ready cfg) := by
  refine ⟨4, { q with wait := ({ q.wait with closed := true } : Waiter.Shared Unit).bump },
    ⟨hq.fits, hq.impl, hq.waiters, hq.asleep⟩, fun m hm => ?_⟩
  obtain ⟨m, rfl⟩ := Nat.exists_eq_add_of_le' hm
  simp [Queue.close, waitAlone_shut hq.asleep]

/-! ## One operation -/

omit hf in
/-- An operation is answered as the list answers it. -/
theorem apply_spec {op : Op α} {a b : Ans α} {p' : Plain α} (hq : q.Holds cfg vis [] closed)
    (hp : (⟨vis, closed⟩ : Plain α).apply op = some (p', b))
    (h : q.apply cfg env op = some (q', a)) :
    a = b ∧ q'.Holds cfg p'.elems [] p'.closed ∧ (op.isPop = false → q.Keeps q') := by
  cases op with
  | push v =>
    obtain ⟨q₁, h₁, he⟩ := Option.bind_eq_some_iff.1 h
    cases he
    cases hp
    obtain ⟨hq₁, hk⟩ := push_spec hq h₁
    exact ⟨rfl, hq₁, fun _ => hk⟩
  | batch vs =>
    obtain ⟨⟨b₁, q₁⟩, h₁, h⟩ := Option.bind_eq_some_iff.1 h
    obtain ⟨q₂, h₂, he⟩ := Option.bind_eq_some_iff.1 h
    cases he
    cases hp
    obtain ⟨hq₂, hk⟩ := batch_spec hq h₁ h₂
    exact ⟨rfl, hq₂, fun _ => hk⟩
  | tryPop =>
    obtain ⟨⟨q₁, p⟩, h₁, he⟩ := Option.bind_eq_some_iff.1 h
    cases he
    cases hp
    obtain ⟨hv, hq₁, -⟩ := tryPop_spec hq h₁
    exact ⟨congrArg Ans.popped hv, hq₁, nofun⟩
  | tryPopInto =>
    obtain ⟨⟨q₁, v⟩, h₁, he⟩ := Option.bind_eq_some_iff.1 h
    cases he
    cases hp
    obtain ⟨rfl, hq₁⟩ := consume_spec hq h₁
    exact ⟨rfl, hq₁, nofun⟩
  | popWait =>
    obtain ⟨⟨q₁, v⟩, h₁, he⟩ := Option.bind_eq_some_iff.1 h
    cases he
    simp only [Plain.apply] at hp
    split_ifs at hp with hd
    cases hp
    obtain ⟨rfl, hq₁⟩ := popWait_spec hq hd h₁
    exact ⟨rfl, hq₁, nofun⟩
  | close =>
    obtain ⟨q₁, h₁, he⟩ := Option.bind_eq_some_iff.1 h
    cases he
    cases hp
    obtain ⟨hq₁, hk⟩ := close_spec hq h₁
    exact ⟨rfl, hq₁, fun _ => hk⟩

theorem apply_settles {op : Op α} {b : Ans α} {p' : Plain α} (hr : q.Ready cfg)
    (hq : q.Holds cfg vis [] closed) (hp : (⟨vis, closed⟩ : Plain α).apply op = some (p', b)) :
    Settles (fun fuel => q.apply cfg ⟨fuel, coin⟩ op) (·.1.Ready cfg) := by
  cases op with
  | push v => exact (push_settles hf hr v).bind fun _ hx => .pure hx
  | batch vs =>
    refine (deferAll_settles hf hr vs Queue.batchBegin).bind fun x hx => ?_
    refine Settles.bind (P := (·.Ready cfg)) ?_ fun q₂ hq₂ => .pure hq₂
    exact (publish_settles hf hx x.1).bind fun y hy => .pure hy.1
  | tryPop => exact (tryPop_settles hf hr).bind fun _ hx => .pure hx
  | tryPopInto => exact (consume_settles hf hr).bind fun _ hx => .pure hx
  | popWait =>
    simp only [Plain.apply] at hp
    split_ifs at hp with hd
    exact (popWait_settles hf hr hq hd).bind fun _ hx => .pure hx
  | close => exact (close_settles hr).bind fun _ hx => .pure hx

/-! ## Programs -/

omit hf in
theorem run_spec {prog : List (Op α)} {as bs : List (Ans α)} {p p' : Plain α}
    (hq : q.Holds cfg p.elems [] p.closed) (hp : Plain.run prog p = some (p', bs))
    (h : q.run cfg env prog = some (q', as)) :
    as = bs ∧ q'.Holds cfg p'.elems [] p'.closed ∧
      ((∀ op ∈ prog, op.isPop = false) → q.Keeps q') := by
  induction prog generalizing q p as bs with
  | nil =>
    cases h
    cases hp
    exact ⟨rfl, hq, fun _ => .refl _⟩
  | cons op prog ih =>
    obtain ⟨⟨q₁, a⟩, h₁, h⟩ := Option.bind_eq_some_iff.1 h
    obtain ⟨⟨q₂, as₂⟩, h₂, he⟩ := Option.bind_eq_some_iff.1 h
    cases he
    obtain ⟨⟨p₁, b⟩, hp₁, hp⟩ := Option.bind_eq_some_iff.1 hp
    obtain ⟨⟨p₂, bs₂⟩, hp₂, he⟩ := Option.bind_eq_some_iff.1 hp
    cases he
    obtain ⟨rfl, hq₁, hk₁⟩ := apply_spec hq hp₁ h₁
    obtain ⟨rfl, hq₂, hk₂⟩ := ih hq₁ hp₂ h₂
    refine ⟨rfl, hq₂, fun hpop => (hk₁ (hpop op List.mem_cons_self)).trans (hk₂ fun o ho => ?_)⟩
    exact hpop o (List.mem_cons_of_mem _ ho)

theorem run_settles {prog : List (Op α)} {bs : List (Ans α)} {p p' : Plain α} (hr : q.Ready cfg)
    (hq : q.Holds cfg p.elems [] p.closed) (hp : Plain.run prog p = some (p', bs)) :
    Settles (fun fuel => q.run cfg ⟨fuel, coin⟩ prog) fun _ => True := by
  induction prog generalizing q p p' bs with
  | nil => exact .pure trivial
  | cons op prog ih =>
    obtain ⟨⟨p₁, b⟩, hp₁, hp⟩ := Option.bind_eq_some_iff.1 hp
    obtain ⟨⟨p₂, bs₂⟩, hp₂, -⟩ := Option.bind_eq_some_iff.1 hp
    have h₁ := (apply_settles hf hr hq hp₁).and fun m x hx => (apply_spec hq hp₁ hx).2.1
    exact h₁.bind fun x hx => (ih hx.1 hx.2 hp₂).bind fun _ _ => .pure trivial

end

theorem holds_construct (cfg : Cfg) (tag : Tag) :
    (construct cfg tag : Queue α).Holds cfg [] [] false := by
  cases tag with
  | generic | mpsc => exact ⟨rfl, ⟨.init, rfl⟩, rfl, rfl, rfl⟩
  | spsc | spmc => exact ⟨rfl, ⟨0, .init⟩, rfl, rfl, rfl⟩
  | spscInline =>
    refine ⟨?_, ⟨0, .init⟩, rfl, rfl, rfl⟩
    cases h : cfg.inlineOk <;> simp [construct, h, Impl.fits]

theorem ready_construct (cfg : Cfg) (tag : Tag) : (construct cfg tag : Queue α).Ready cfg := by
  have hfits := (holds_construct (α := α) cfg tag).fits
  cases tag with
  | generic | mpsc | spmc => exact ⟨hfits, .init, rfl, rfl⟩
  | spsc | spscInline => exact ⟨hfits, trivial, rfl, rfl⟩

/-- Programs without pops have their answers, whatever the list. -/
theorem plain_run_of_pushes {prog : List (Op α)} (h : ∀ op ∈ prog, op.isPop = false) (p : Plain α) :
    ∃ p' bs, Plain.run prog p = some (p', bs) := by
  induction prog generalizing p with
  | nil => exact ⟨p, [], rfl⟩
  | cons op prog ih =>
    have hop := h op List.mem_cons_self
    obtain ⟨p₁, b, h₁⟩ : ∃ p₁ b, p.apply op = some (p₁, b) := by
      cases op <;> first | cases hop; done | exact ⟨_, _, rfl⟩
    obtain ⟨p₂, bs, h₂⟩ := ih (fun o ho => h o (List.mem_cons_of_mem _ ho)) p₁
    exact ⟨p₂, b :: bs, by simp [Plain.run, h₁, h₂]⟩

/-- The element behind a pointer stays while nothing is popped, an open batch included. -/
theorem deref_keeps {env' : Env} {h : Handle α} {more : List (Op α)} {bs : List (Ans α)}
    {vs : List α} {b : Batch α} {q₁ q₂ q₃ : Queue α} (hq : q.Holds cfg vis [] closed)
    (hpop : q.tryPop cfg env = some (q₁, some h)) (hmore : ∀ op ∈ more, op.isPop = false)
    (hrun : q₁.run cfg env' more = some (q₂, bs))
    (hb : Queue.deferAll cfg env' vs Queue.batchBegin q₂ = some (b, q₃)) :
    q₃.deref h = vis.head? := by
  obtain ⟨hv, hq₁, hlent⟩ := tryPop_spec hq hpop
  cases h with
  | owned v => exact hv
  | lent x i =>
    obtain ⟨p', bs', hp⟩ := plain_run_of_pushes hmore ⟨vis.tail, closed⟩
    obtain ⟨-, hq₂, hk⟩ := run_spec (p := ⟨vis.tail, closed⟩) hq₁ hp hrun
    have hk₃ := (hk hmore).trans (deferAll_spec (batched_begin hq₂) hb).keeps
    exact (hk₃ x i (hlent x i rfl)).2.trans hv

/--
A program of one thread that a list answers is answered in the same way by a queue of each tag: no
other answers are possible, and if what the steps leave open is resolved fairly they are given
after finitely many steps. The element behind a pointer from `try_pop()` is the oldest one, and it
stays so while nothing more is popped: after more operations, and inside an open batch.
-/
theorem tags_agree (cfg : Cfg) (tag : Tag) {prog : List (Op α)} {p : Plain α}
    {answers : List (Ans α)} (hp : Plain.run prog ⟨[], false⟩ = some (p, answers)) :
    (∀ env q as, (construct cfg tag).run cfg env prog = some (q, as) → as = answers) ∧
    (∀ coin, Fair coin → ∃ n, ∀ fuel, n ≤ fuel →
      ∃ q, (construct cfg tag).run cfg ⟨fuel, coin⟩ prog = some (q, answers)) ∧
    ∀ env env' q as q₁ h more q₂ bs vs b q₃, (construct cfg tag).run cfg env prog = some (q, as) →
      q.tryPop cfg env = some (q₁, some h) → (∀ op ∈ more, op.isPop = false) →
      q₁.run cfg env' more = some (q₂, bs) →
      Queue.deferAll cfg env' vs Queue.batchBegin q₂ = some (b, q₃) →
      q₃.deref h = p.elems.head? := by
  have hq := holds_construct (α := α) cfg tag
  refine ⟨fun env q as h => (run_spec (p := ⟨[], false⟩) hq hp h).1, fun coin hf => ?_, ?_⟩
  · obtain ⟨n, ⟨q, as⟩, -, hn⟩ := run_settles (p := ⟨[], false⟩) hf (ready_construct cfg tag) hq hp
    obtain rfl := (run_spec (p := ⟨[], false⟩) hq hp (hn n le_rfl)).1
    exact ⟨n, fun fuel hfuel => ⟨q, hn fuel hfuel⟩⟩
  · intro env env' q as q₁ h more q₂ bs vs b q₃ hrun hpop hmore hrun' hb
    exact deref_keeps (run_spec (p := ⟨[], false⟩) hq hp hrun).2.1 hpop hmore hrun' hb

/-- Small blocks and segments, and runs of two. -/
def small : Cfg := ⟨2, 1, 2, 2, true, .park, le_rfl, Nat.one_pos, le_rfl⟩

def mixed : List (Op Nat) := [.push 1, .batch [2, 3, 4], .tryPop, .tryPopInto, .close, .popWait]

def alternating (k : Nat) : Bool := k % 2 == 0

theorem fair_alternating : Fair alternating := by
  intro k b
  cases b with
  | false => exact ⟨2 * k + 1, by omega, by simp [alternating, Nat.add_mod]⟩
  | true => exact ⟨2 * k, by omega, by simp [alternating]⟩

theorem tags_agree_mixed : ∃ n, ∀ fuel, n ≤ fuel → ∃ q,
    (construct small .spscInline).run small ⟨fuel, alternating⟩ mixed =
      some (q, [.done, .done, .popped (some 1), .popped (some 2), .done, .popped (some 3)]) :=
  (tags_agree small .spscInline (p := ⟨[4], true⟩) rfl).2.1 alternating fair_alternating

end Wtc.Shim
