import Wtc.Shim.Impl

/-!
# Pushes, batches and waits of `wtc::queue`

What each operation of the queue does to the elements it holds, under every tag.
-/

namespace Wtc.Shim

open Wtc.Concurrent

variable {α : Type} {cfg : Cfg} {env : Env} {q q' : Queue α} {vis hid : List α} {closed : Bool}

/-- The queue shows some elements and has others deferred; nobody waits. -/
structure Queue.Holds (cfg : Cfg) (q : Queue α) (vis hid : List α) (closed : Bool) : Prop where
  fits : Impl.fits q.tag q.impl = true
  impl : q.impl.Holds cfg vis hid
  waiters : q.wait.waiters = 0
  asleep : q.wait.asleep = ∅
  closed : q.wait.closed = closed

/-- Calls of the queue come to their end. -/
structure Queue.Ready (cfg : Cfg) (q : Queue α) : Prop where
  fits : Impl.fits q.tag q.impl = true
  impl : q.impl.Ready cfg
  waiters : q.wait.waiters = 0
  asleep : q.wait.asleep = ∅

/-! ## A request and a notify -/

theorem ask_eq {r : Request α} {ans : List (FifoAns α)}
    (h : q.ask cfg env r = some (q', ans)) :
    ∃ k impl, q.impl.serve cfg env q.coins r = some (k, impl, ans) ∧
      q' = { q with impl := impl, coins := k } := by
  obtain ⟨⟨k, impl, ans'⟩, hs, he⟩ := Option.bind_eq_some_iff.1 h
  cases he
  exact ⟨k, impl, hs, rfl⟩

/-- A request changes what the implementation holds, and nothing else. -/
theorem Queue.Holds.ask {r : Request α} {ans : List (FifoAns α)} (hq : q.Holds cfg vis hid closed)
    (h : q.ask cfg env r = some (q', ans)) {vis' hid' : List α}
    (hi : ∀ {k impl}, q.impl.serve cfg env q.coins r = some (k, impl, ans) →
      impl.Holds cfg vis' hid') : q'.Holds cfg vis' hid' closed ∧ q'.tag = q.tag := by
  obtain ⟨k, impl, hs, rfl⟩ := ask_eq h
  exact ⟨⟨(serve_fits _ hs).trans hq.fits, hi hs, hq.waiters, hq.asleep, hq.closed⟩, rfl⟩

/-- What is lent stays lent, and is as it was. -/
def Queue.Keeps (q q' : Queue α) : Prop :=
  ∀ b i, q.lent = some (.lent b i) →
    q'.lent = some (.lent b i) ∧ q'.deref (.lent b i) = q.deref (.lent b i)

theorem Queue.Keeps.refl (q : Queue α) : q.Keeps q := fun _ _ h => ⟨h, rfl⟩

theorem Queue.Keeps.trans {q₁ q₂ q₃ : Queue α} (h : q₁.Keeps q₂) (h' : q₂.Keeps q₃) :
    q₁.Keeps q₃ := by
  intro b i hl
  obtain ⟨hl₂, hd₂⟩ := h b i hl
  obtain ⟨hl₃, hd₃⟩ := h' b i hl₂
  exact ⟨hl₃, hd₃.trans hd₂⟩

/-- Requests of the producer leave what is lent alone. -/
theorem Queue.Holds.keeps {r : Request α} {ans : List (FifoAns α)} (hq : q.Holds cfg vis hid closed)
    (hr : r.isPop = false) (h : q.ask cfg env r = some (q', ans)) : q.Keeps q' := by
  obtain ⟨k, impl, hs, rfl⟩ := ask_eq h
  intro b i hl
  obtain ⟨tag, impl₀, wait, coins⟩ := q
  cases impl₀ with
  | ring sh =>
    obtain ⟨c, sh', hc, hgo, rfl⟩ := serve_ring hs
    have hlent : sh.c.lent = some (b, i) := by
      simpa [Queue.lent, Prod.ext_iff] using hl
    obtain ⟨h1, h2⟩ := ring_lent hq.impl hr hc hgo hlent
    exact ⟨by simp [Queue.lent, h1], h2⟩
  | _ => cases hl

theorem ask_settles {coin : Nat → Bool} (hf : Fair coin) {r : Request α} (hq : q.Ready cfg)
    (hr : q.impl.Has r) : Settles (fun fuel => q.ask cfg ⟨fuel, coin⟩ r) fun x =>
      x.1.Ready cfg ∧ x.1.tag = q.tag := by
  refine ((serve_settles hf hq.impl hr).and fun m b hs => serve_fits q.tag hs).bind
    fun b hb => .pure ?_
  exact ⟨⟨hb.2.trans hq.fits, hb.1, hq.waiters, hq.asleep⟩, rfl⟩

section Eventcount

variable {Q R : Type} {policy : Waiter.Policy} {look : Q → Q × Option R} {x : Q}
  {w : Waiter.Shared Unit}

/-- With nobody waiting a notify does nothing. -/
theorem waitAlone_notify {n : Nat} (hw : w.waiters = 0) (fuel : Nat) :
    waitAlone policy look (fuel + 2) x w (Waiter.notify policy n) = some (x, w, none) := by
  unfold Waiter.notify
  split_ifs
  · rfl
  · simp [waitAlone, Waiter.step, hw]

/-- A close with nobody asleep. -/
theorem waitAlone_shut (hw : w.asleep = ∅) (fuel : Nat) :
    waitAlone policy look (fuel + 4) x w .shut =
      some (x, ({ w with closed := true } : Waiter.Shared Unit).bump, none) := by
  have hwake : ({ w with closed := true } : Waiter.Shared Unit).bump.futexWake Waiter.intMax ∅ =
      some ({ w with closed := true } : Waiter.Shared Unit).bump := by
    simp [Waiter.Shared.futexWake, Waiter.Shared.rouse, Waiter.Shared.bump, hw]
  simp [waitAlone, Waiter.step, quiet, hwake]

theorem waitAlone_succ {l : Waiter.Loc R} (hl : ∀ r, l ≠ .done r) (fuel : Nat) :
    waitAlone policy look (fuel + 1) x w l =
      (Waiter.step policy look () quiet x w l).bind fun s =>
        waitAlone policy look fuel s.1 s.2.1 s.2.2 := by
  cases l with
  | done r => exact absurd rfl (hl r)
  | _ => rfl

/-- More fuel does not change a result. -/
theorem waitAlone_mono {l : Waiter.Loc R} {r : Q × Waiter.Shared Unit × Option R} {fuel : Nat}
    (h : waitAlone policy look fuel x w l = some r) (n : Nat) :
    waitAlone policy look (fuel + n) x w l = some r := by
  induction fuel generalizing x w l with
  | zero => cases h
  | succ fuel ih =>
    rw [Nat.add_right_comm]
    by_cases hl : ∃ r, l = .done r
    · obtain ⟨r, rfl⟩ := hl
      exact h
    · have hl : ∀ r, l ≠ .done r := fun r he => hl ⟨r, he⟩
      rw [waitAlone_succ hl] at h ⊢
      obtain ⟨s, hs, h⟩ := Option.bind_eq_some_iff.1 h
      exact Option.bind_eq_some_iff.2 ⟨s, hs, ih h⟩

end Eventcount

theorem notify_eq {n : Nat} (hw : q.wait.waiters = 0) (h : q.notify cfg env n = some q') :
    q' = q := by
  obtain ⟨⟨u, w, r⟩, hn, he⟩ := Option.bind_eq_some_iff.1 h
  cases he
  have h1 := waitAlone_mono hn 2
  rw [waitAlone_notify hw] at h1
  cases h1
  rfl

theorem notify_settles {coin : Nat → Bool} {n : Nat} {P : Queue α → Prop}
    (hw : q.wait.waiters = 0) (hP : P q) :
    Settles (fun fuel => q.notify cfg ⟨fuel, coin⟩ n) P := by
  refine ⟨2, q, hP, fun m hm => ?_⟩
  obtain ⟨m, rfl⟩ := Nat.exists_eq_add_of_le' hm
  simp [Queue.notify, waitAlone_notify hw]

/-! ## Pushes -/

theorem push_spec {v : α} (hq : q.Holds cfg vis [] closed) (h : q.push cfg env v = some q') :
    q'.Holds cfg (vis ++ [v]) [] closed ∧ q.Keeps q' := by
  obtain ⟨⟨q₁, ans⟩, ha, hn⟩ := Option.bind_eq_some_iff.1 h
  obtain ⟨hq₁, -⟩ := hq.ask ha fun hs => serve_push hq.impl hs
  obtain rfl := notify_eq hq₁.waiters hn
  exact ⟨hq₁, hq.keeps rfl ha⟩

/-- The tags whose deferred pushes go into their places at once. -/
def Tag.inPlace : Tag → Bool
  | .spscInline => true
  | .spsc => true
  | .spmc => true
  | _ => false

/-- What a queue with an open batch comes to: the elements it shows, those deferred in place, and
those set aside. `q₀` is the queue the batch began with. -/
structure Batched (cfg : Cfg) (q₀ : Queue α) (b : Batch α) (q : Queue α) (all : List α)
    (closed : Bool) : Prop where
  holds : ∃ vis hid, q.Holds cfg vis hid closed ∧ vis ++ hid ++ b.run = all
  inPlace : q.tag.inPlace = true → b.run = []
  aside : q.tag.inPlace = false → b.pending = b.run.length
  keeps : q₀.Keeps q

/-- An implementation without deferred pushes has nothing deferred. -/
theorem Queue.Holds.hidden (hq : q.Holds cfg vis hid closed) (ht : q.tag.inPlace = false) :
    hid = [] := by
  obtain ⟨tag, impl, wait, coins⟩ := q
  have hfits := hq.fits
  have himpl := hq.impl
  cases impl with
  | ring sh => cases tag <;> cases hfits <;> cases ht
  | mpsc sh | generic sh => exact himpl.2
  | spmc sh =>
    cases tag <;> cases hfits
    cases ht

variable {q₀ : Queue α} {b b' : Batch α} {all : List α}

section

variable (hb : Batched cfg q₀ b q all closed)
include hb

theorem publishRun_spec (ht : q.tag.inPlace = false) (h : q.publishRun cfg env b = some (b', q')) :
    Batched cfg q₀ b' q' all closed ∧ q'.Holds cfg all [] closed := by
  obtain ⟨vis, hid, hq, hall⟩ := hb.holds
  obtain rfl := hq.hidden ht
  rw [List.append_nil] at hall
  simp only [Queue.publishRun] at h
  split_ifs at h with hp
  · cases h
    have hrun : b.run = [] := List.length_eq_zero_iff.1 ((hb.aside ht).symm.trans hp)
    rw [hrun, List.append_nil] at hall
    subst hall
    exact ⟨⟨⟨_, [], hq, by rw [hrun]; simp⟩, fun _ => hrun, fun _ => by rw [hrun]; rfl,
      hb.keeps⟩, hq⟩
  · obtain ⟨⟨q₁, ans⟩, ha, h⟩ := Option.bind_eq_some_iff.1 h
    obtain ⟨q₂, hn, he⟩ := Option.bind_eq_some_iff.1 h
    cases he
    obtain ⟨hq₁, htag⟩ := hq.ask ha fun hs => serve_pushRun hq.impl hs
    obtain rfl := notify_eq hq₁.waiters hn
    rw [hall] at hq₁
    exact ⟨⟨⟨_, [], hq₁, by simp⟩, fun _ => rfl, fun _ => rfl,
      hb.keeps.trans (hq.keeps rfl ha)⟩, hq₁⟩

theorem publishInPlace_spec (ht : q.tag.inPlace = true)
    (h : q.publishInPlace cfg env b = some (b', q')) :
    Batched cfg q₀ b' q' all closed ∧ q'.Holds cfg all [] closed := by
  obtain ⟨vis, hid, hq, hall⟩ := hb.holds
  have hrun := hb.inPlace ht
  obtain ⟨⟨q₁, ans⟩, ha, h⟩ := Option.bind_eq_some_iff.1 h
  obtain ⟨q₂, hn, he⟩ := Option.bind_eq_some_iff.1 h
  cases he
  obtain ⟨hq₁, htag⟩ := hq.ask ha fun hs => serve_publish hq.impl hs
  obtain rfl := notify_eq hq₁.waiters hn
  rw [hrun, List.append_nil] at hall
  rw [hall] at hq₁
  refine ⟨⟨⟨_, [], hq₁, by rw [hrun]; simp⟩, fun _ => hrun, fun h => ?_,
    hb.keeps.trans (hq.keeps rfl ha)⟩, hq₁⟩
  rw [htag, ht] at h
  cases h

/-- After a publish everything is shown. -/
theorem publish_spec (h : q.publish cfg env b = some (b', q')) :
    Batched cfg q₀ b' q' all closed ∧ q'.Holds cfg all [] closed := by
  cases ht : q.tag <;> simp only [Queue.publish, ht] at h
  · exact publishRun_spec hb (by rw [ht]; rfl) h
  · exact publishInPlace_spec hb (by rw [ht]; rfl) h
  · exact publishInPlace_spec hb (by rw [ht]; rfl) h
  · exact publishRun_spec hb (by rw [ht]; rfl) h
  · exact publishInPlace_spec hb (by rw [ht]; rfl) h

theorem deferInPlace_spec {v : α} (ht : q.tag.inPlace = true)
    (h : q.deferInPlace cfg env b v = some (b', q')) :
    Batched cfg q₀ b' q' (all ++ [v]) closed := by
  obtain ⟨vis, hid, hq, hall⟩ := hb.holds
  have hrun := hb.inPlace ht
  obtain ⟨⟨q₂, ans⟩, ha, he⟩ := Option.bind_eq_some_iff.1 h
  cases he
  obtain ⟨k, impl, hs, -⟩ := ask_eq ha
  obtain ⟨vis', hid', hi, hv⟩ := serve_pushDeferred hq.impl hs
  obtain ⟨hq₁, htag⟩ := hq.ask ha fun hs' => by
    rw [hs] at hs'
    cases hs'
    exact hi
  refine ⟨⟨vis', hid', hq₁, ?_⟩, fun _ => hrun, fun h => ?_, hb.keeps.trans (hq.keeps rfl ha)⟩
  · rw [hv, hrun, List.append_nil, ← hall, hrun, List.append_nil]
  · rw [htag, ht] at h
    cases h

theorem deferAside_spec {v : α} (ht : q.tag.inPlace = false)
    (h : q.deferAside b v = some (b', q')) : Batched cfg q₀ b' q' (all ++ [v]) closed := by
  obtain ⟨vis, hid, hq, hall⟩ := hb.holds
  cases h
  refine ⟨⟨vis, hid, hq, by rw [← hall]; simp⟩, fun h => ?_, fun _ => by simp [hb.aside ht],
    hb.keeps⟩
  rw [ht] at h
  cases h

theorem defer_spec {v : α} (h : q.defer cfg env b v = some (b', q')) :
    Batched cfg q₀ b' q' (all ++ [v]) closed := by
  cases ht : q.tag <;> simp only [Queue.defer, ht] at h
  · exact deferAside_spec hb (by rw [ht]; rfl) h
  · exact deferInPlace_spec hb (by rw [ht]; rfl) h
  · exact deferInPlace_spec hb (by rw [ht]; rfl) h
  · exact deferAside_spec hb (by rw [ht]; rfl) h
  · exact deferInPlace_spec hb (by rw [ht]; rfl) h

/-- A deferred push adds its element; a full run is then published. -/
theorem pushDeferred_spec {v : α} (h : q.pushDeferred cfg env b v = some (b', q')) :
    Batched cfg q₀ b' q' (all ++ [v]) closed := by
  obtain ⟨⟨b₁, q₁⟩, h₁, h⟩ := Option.bind_eq_some_iff.1 h
  have hb₁ := defer_spec hb h₁
  dsimp only at h
  split_ifs at h
  · exact (publish_spec hb₁ h).1
  · cases h
    exact hb₁

theorem deferAll_spec {vs : List α} (h : Queue.deferAll cfg env vs b q = some (b', q')) :
    Batched cfg q₀ b' q' (all ++ vs) closed := by
  induction vs generalizing b q all with
  | nil =>
    cases h
    rwa [List.append_nil]
  | cons v vs ih =>
    obtain ⟨⟨b₁, q₁⟩, h₁, h⟩ := Option.bind_eq_some_iff.1 h
    have := ih (pushDeferred_spec hb h₁) h
    rwa [List.append_assoc] at this

end

theorem batched_begin (hq : q.Holds cfg vis [] closed) :
    Batched cfg q Queue.batchBegin q vis closed :=
  ⟨⟨vis, [], hq, by simp [Queue.batchBegin]⟩, fun _ => rfl, fun _ => rfl, .refl q⟩

/-- A whole batch. -/
theorem batch_spec {vs : List α} (hq : q.Holds cfg vis [] closed)
    (h : Queue.deferAll cfg env vs Queue.batchBegin q = some (b, q')) {q'' : Queue α}
    (he : q'.batchEnd cfg env b = some q'') :
    q''.Holds cfg (vis ++ vs) [] closed ∧ q.Keeps q'' := by
  obtain ⟨⟨b₁, q₁⟩, hp, he⟩ := Option.bind_eq_some_iff.1 he
  cases he
  obtain ⟨hb', hq'⟩ := publish_spec (deferAll_spec (batched_begin hq) h) hp
  exact ⟨hq', hb'.keeps⟩

end Wtc.Shim
