import Wtc.Spsc.Model
import Mathlib.Tactic

/-!
# What holds of the single-producer single-consumer ring

The ghost beside a run: the atomic queue, the elements built so far in push order, and which block
each chunk of `K` elements was put in. Elements `i * K` to `i * K + K - 1` are chunk `i`; the
producer is in chunk `m` and the consumer in chunk `k`.

The chunks from `k` to `m` are in blocks that are all different, and each leads to the next one.
A block that the producer reuses holds none of them, since its `end` is not past `pop_pub_`, which
is not past chunk `k`. Nothing is said about the other blocks.
-/

namespace Wtc.Spsc

open Wtc.Concurrent

variable {α : Type}

/-- `held` is the slot of an element already popped whose place is not yet free: lent, or being
taken out. -/
structure Ghost (α : Type) where
  abs : Atomic.State Side (DeferOp α) (FifoAns α) (Deferred α)
  hist : List (Event Side (DeferOp α) (FifoAns α))
  built : List α
  place : Nat → Nat
  m : Nat
  k : Nat
  held : Option (Nat × Nat)

/-- Nothing shows before it is published. -/
def never (_ : Nat) : Bool := false

/-- Before any call. -/
def Ghost.init : Ghost α where
  abs := Atomic.init (deferredFifo α never)
  hist := []
  built := []
  place _ := 0
  m := 0
  k := 0
  held := none

/-- What holds of the shared state. -/
structure G (K : Nat) (sh : Shared α) (w : Ghost α) : Prop where
  p_count : sh.p.count = w.m * K + sh.p.off
  p_off : sh.p.off ≤ K
  p_blk : sh.p.blk = w.place w.m
  c_count : sh.c.count = w.k * K + sh.c.off
  c_off : sh.c.off ≤ K
  c_blk : sh.c.blk = w.place w.k
  k_le : w.k ≤ w.m
  built : w.built.length = sh.p.count
  pushPub_le : sh.pushPub ≤ sh.p.count
  cachedPush_le : sh.c.cachedPush ≤ sh.pushPub
  count_le : sh.c.count ≤ sh.c.cachedPush
  popPub_le : sh.popPub ≤ w.k * K
  cachedPop_le : sh.p.cachedPop ≤ sh.popPub
  next_lt : ∀ b, b < sh.blocks → sh.next b < sh.blocks
  live : ∀ i, w.k ≤ i → i ≤ w.m → w.place i < sh.blocks
  distinct : ∀ i j, w.k ≤ i → i < j → j ≤ w.m → w.place i ≠ w.place j
  next : ∀ i, w.k ≤ i → i < w.m → sh.next (w.place i) = w.place (i + 1)
  last : ∀ i, w.k ≤ i → i ≤ w.m → sh.last (w.place i) = i * K + K
  slot : ∀ i j, j < K → sh.c.count ≤ i * K + j → i * K + j < sh.p.count →
    sh.slot (w.place i) j = w.built[i * K + j]?
  full : ∀ b j, sh.slot b j ≠ none →
    (∃ i, j < K ∧ b = w.place i ∧ sh.c.count ≤ i * K + j ∧ i * K + j < sh.p.count) ∨
      w.held = some (b, j)
  held : ∀ b j, w.held = some (b, j) → b = w.place w.k ∧ j < sh.c.off ∧ sh.slot b j ≠ none
  queue : w.abs.obj.queue = (w.built.take sh.pushPub).drop sh.c.count
  hidden : w.abs.obj.hidden = w.built.drop sh.pushPub

/-- The publish that ends a `push`. -/
def rest (pub : Bool) : List (DeferOp α) := if pub then [.publish] else []

/-- A push whose element is not built. -/
def Pushing (w : Ghost α) (t : Side) (v : α) (pub : Bool) : Prop :=
  t = .producer ∧ w.abs.Pend t (.defer v :: rest pub) [] ∧ pushes w.hist = w.built ++ [v]

/-- A pop that has not taken effect. -/
def Popping (sh : Shared α) (w : Ghost α) (t : Side) : Prop :=
  t = .consumer ∧ w.abs.Pend t [.pop] [] ∧ pops w.hist = w.built.take sh.c.count

/-- The consumer holds no slot. -/
def Free (sh : Shared α) (w : Ghost α) : Prop := w.held = none ∧ sh.c.lent = none

/-- A pop that has taken effect, with its element still in its slot. -/
def Taking (sh : Shared α) (w : Ghost α) (t : Side) (b i : Nat) (v : α) : Prop :=
  t = .consumer ∧ w.abs.Pend t [] [.popped (some v)] ∧
    w.built.take sh.c.count = pops w.hist ++ [v] ∧ w.held = some (b, i) ∧ sh.c.lent = none ∧
    sh.slot b i = some v

/-- The answers to come, and those given, are the elements popped. -/
def Settled (sh : Shared α) (w : Ghost α) (ans : List (FifoAns α)) : Side → Prop
  | .producer => pushes w.hist = w.built ∧ elements ans = []
  | .consumer => w.built.take sh.c.count = pops w.hist ++ elements ans ∧ w.held = sh.c.lent

/-- What a thread relies on at its location. -/
def L (K : Nat) (t : Side) (sh : Shared α) (w : Ghost α) : Option (Loc α) → Prop
  | none => w.abs.pend t = none ∧ Settled sh w [] t
  | some (.put v pub) => Pushing w t v pub
  | some (.drain v pub cand) => Pushing w t v pub ∧ sh.p.off = K ∧ cand = sh.next sh.p.blk
  | some (.insert v pub nb) => Pushing w t v pub ∧ sh.p.off = K ∧ nb < sh.blocks ∧
      sh.last nb = sh.p.count + K ∧ ∀ i, w.k ≤ i → i ≤ w.m → w.place i ≠ nb
  | some (.build v pub) => Pushing w t v pub ∧ sh.p.off < K
  | some (.publish deferred) => t = .producer ∧ pushes w.hist = w.built ∧
      w.abs.Pend t [.publish] (if deferred then [.pushed] else [])
  | some (.release _) => Popping sh w t ∧ w.held = sh.c.lent
  | some (.check _) => Popping sh w t ∧ Free sh w
  | some (.slip _) => Popping sh w t ∧ Free sh w ∧ sh.c.count < sh.c.cachedPush
  | some (.turn _) => Popping sh w t ∧ Free sh w ∧ sh.c.count < sh.c.cachedPush
  | some (.leave _) => Popping sh w t ∧ Free sh w ∧ sh.c.count < sh.c.cachedPush ∧ sh.c.off = 0
  | some (.fetch _) => Popping sh w t ∧ Free sh w ∧ sh.c.count < sh.c.cachedPush ∧ sh.c.off < K
  | some (.take b i) => ∃ v, Taking sh w t b i v
  | some (.destroy b i x) => ∃ v, Taking sh w t b i v ∧ x = some v
  | some (.done ans) => w.abs.Pend t [] ans ∧ Settled sh w ans t

/-- What a step of thread `t` may change, seen by the other. -/
def Rely (t : Side) (sh : Shared α) (w : Ghost α) (sh' : Shared α) (w' : Ghost α) : Prop :=
  (∀ u, u ≠ t → w'.abs.pend u = w.abs.pend u) ∧
  match t with
  | .producer => sh'.c = sh.c ∧ w'.held = w.held ∧ pops w'.hist = pops w.hist ∧
      w'.built.take sh.c.count = w.built.take sh.c.count ∧
      ∀ b j, w.held = some (b, j) → sh'.slot b j = sh.slot b j
  | .consumer => sh'.p = sh.p ∧ sh'.next = sh.next ∧ sh'.last = sh.last ∧
      sh'.blocks = sh.blocks ∧ w'.place = w.place ∧ w'.m = w.m ∧ w'.built = w.built ∧
      pushes w'.hist = pushes w.hist ∧ w.k ≤ w'.k

theorem Rely.refl (t : Side) (sh : Shared α) (w : Ghost α) : Rely t sh w sh w := by
  refine ⟨fun _ _ => rfl, ?_⟩
  cases t with
  | producer => exact ⟨rfl, rfl, rfl, rfl, fun _ _ _ => rfl⟩
  | consumer => exact ⟨rfl, rfl, rfl, rfl, rfl, rfl, rfl, rfl, le_rfl⟩

/-! ## Stability -/

section Stable

variable {K : Nat} {sh sh' : Shared α} {w w' : Ghost α}

/-- What the producer relies on survives the consumer's steps. -/
theorem L.stable_producer {x : Option (Loc α)} (hr : Rely .consumer sh w sh' w')
    (h : L K .producer sh w x) : L K .producer sh' w' x := by
  obtain ⟨hpend, hp, hn, hl, hb, hpl, hm, hbu, hpu, hk⟩ := hr
  have hpend := hpend .producer (by decide)
  have push : ∀ {v pub}, Pushing w .producer v pub → Pushing w' .producer v pub := by
    rintro v pub ⟨-, h1, h2⟩
    exact ⟨rfl, h1.of_eq hpend, by rw [hpu, hbu, h2]⟩
  have settle : ∀ {ans}, Settled sh w ans .producer → Settled sh' w' ans .producer := by
    rintro ans ⟨h1, h2⟩
    exact ⟨by rw [hpu, hbu, h1], h2⟩
  cases x with
  | none => exact ⟨hpend.trans h.1, settle h.2⟩
  | some l =>
    cases l with
    | put v pub => exact push h
    | drain v pub cand => exact ⟨push h.1, by rw [hp, h.2.1], by rw [hn, hp]; exact h.2.2⟩
    | insert v pub nb =>
      obtain ⟨h1, h2, h3, h4, h5⟩ := h
      refine ⟨push h1, by rw [hp, h2], by rw [hb]; exact h3, by rw [hl, hp, h4], ?_⟩
      intro i hi him
      rw [hpl]
      exact h5 i (hk.trans hi) (by rw [← hm]; exact him)
    | build v pub => exact ⟨push h.1, by rw [hp]; exact h.2⟩
    | publish deferred =>
      obtain ⟨-, h1, h2⟩ := h
      exact ⟨rfl, by rw [hpu, hbu, h1], h2.of_eq hpend⟩
    | release b | check b | slip b | turn b | leave b | fetch b => exact absurd h.1.1 (by decide)
    | take b i =>
      obtain ⟨v, hv, -⟩ := h
      exact absurd hv (by decide)
    | destroy b i x =>
      obtain ⟨v, ⟨hv, -⟩, -⟩ := h
      exact absurd hv (by decide)
    | done ans => exact ⟨h.1.of_eq hpend, settle h.2⟩

/-- What the consumer relies on survives the producer's steps. -/
theorem L.stable_consumer {x : Option (Loc α)} (hr : Rely .producer sh w sh' w')
    (h : L K .consumer sh w x) : L K .consumer sh' w' x := by
  obtain ⟨hpend, hc, hh, hpo, hbu, hsl⟩ := hr
  have hpend := hpend .consumer (by decide)
  have pop : Popping sh w .consumer → Popping sh' w' .consumer := by
    rintro ⟨-, h1, h2⟩
    exact ⟨rfl, h1.of_eq hpend, by rw [hpo, hc, hbu, h2]⟩
  have free : Free sh w → Free sh' w' := by
    rintro ⟨h1, h2⟩
    exact ⟨by rw [hh, h1], by rw [hc, h2]⟩
  have take : ∀ {b i v}, Taking sh w .consumer b i v → Taking sh' w' .consumer b i v := by
    rintro b i v ⟨-, h1, h2, h3, h4, h5⟩
    exact ⟨rfl, h1.of_eq hpend, by rw [hc, hbu, hpo, h2], by rw [hh, h3], by rw [hc, h4],
      by rw [hsl b i h3, h5]⟩
  have settle : ∀ {ans}, Settled sh w ans .consumer → Settled sh' w' ans .consumer := by
    rintro ans ⟨h1, h2⟩
    exact ⟨by rw [hc, hbu, hpo, h1], by rw [hh, hc, h2]⟩
  cases x with
  | none => exact ⟨hpend.trans h.1, settle h.2⟩
  | some l =>
    cases l with
    | put v pub | publish deferred => exact absurd h.1 (by decide)
    | drain v pub cand | insert v pub nb | build v pub => exact absurd h.1.1 (by decide)
    | release b => exact ⟨pop h.1, by rw [hh, hc]; exact h.2⟩
    | check b => exact ⟨pop h.1, free h.2⟩
    | slip b | turn b | leave b | fetch b => exact ⟨pop h.1, free h.2.1, by rw [hc]; exact h.2.2⟩
    | take b i =>
      obtain ⟨v, hv⟩ := h
      exact ⟨v, take hv⟩
    | destroy b i x =>
      obtain ⟨v, hv, hx⟩ := h
      exact ⟨v, take hv, hx⟩
    | done ans => exact ⟨h.1.of_eq hpend, settle h.2⟩

theorem L.stable {t u : Side} {x : Option (Loc α)} (hu : u ≠ t) (hr : Rely t sh w sh' w')
    (h : L K u sh w x) : L K u sh' w' x := by
  cases t with
  | producer =>
    cases u with
    | producer => exact absurd rfl hu
    | consumer => exact L.stable_consumer hr h
  | consumer =>
    cases u with
    | producer => exact L.stable_producer hr h
    | consumer => exact absurd rfl hu

end Stable

end Wtc.Spsc
