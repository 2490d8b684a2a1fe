import Wtc.Spmc.Model
import Mathlib.Tactic

/-!
# What holds of the one-producer queue

The ghost beside a run: the atomic queue, the elements built so far in push order, and which
consumer has claimed which cell.

An element has a number, its place in push order; element `i * K + j` lives in cell `j` of
segment `i`. The elements below `popped` are claimed and those below `shown` are published, so the
atomic queue holds the elements from `popped` to `shown`.
-/

namespace Wtc.Spmc

open Wtc.Concurrent

variable {α Tid : Type}

/-! ## The ghost -/

/-- `extra` holds the element of a push that has shown the full segment before it and not yet
filled its own cell: it has taken effect and is not built. -/
structure Ghost (Tid α : Type) where
  abs : Atomic.State Tid (DeferOp α) (FifoAns α) (Deferred α)
  built : List α
  extra : List α
  owner : Nat → Nat → Option Tid

/-- Before any call. -/
def Ghost.init (full : Nat → Bool) : Ghost Tid α :=
  ⟨Atomic.init (deferredFifo α full), [], [], fun _ _ => none⟩

/-- Elements claimed so far. -/
def popped (K : Nat) (sh : Shared α) : Nat := sh.head * K + sh.deq sh.head

/-- Elements published so far. -/
def shown (K : Nat) (sh : Shared α) : Nat := sh.tail * K + sh.enq sh.tail

/-- A segment shows its elements when it is full, at the push that finds it so. -/
def full (K n : Nat) : Bool := n != 0 && n % K == 0

/-- What holds of the shared state. -/
structure G (K : Nat) (sh : Shared α) (w : Ghost Tid α) : Prop where
  segs : sh.segs = sh.tail + 1
  filled_le : sh.filled ≤ K
  next : ∀ i, sh.next i = if i < sh.tail then some (i + 1) else none
  enq_lt : ∀ i, i < sh.tail → sh.enq i = K
  enq_tail : sh.enq sh.tail ≤ sh.filled
  enq_gt : ∀ i, sh.tail < i → sh.enq i = 0
  deq_le : ∀ i, sh.deq i ≤ sh.enq i
  seen_le : ∀ i, sh.seen i ≤ sh.enq i
  head_le : sh.head ≤ sh.tail
  deq_lt : ∀ i, i < sh.head → sh.deq i = K
  deq_gt : ∀ i, sh.head < i → sh.deq i = 0
  fresh : sh.filled = 0 → sh.tail = 0 ∨ w.extra ≠ []
  built : w.built.length = sh.tail * K + sh.filled
  cell : ∀ i j, j < K → popped K sh ≤ i * K + j → i * K + j < w.built.length →
    sh.cell i j = w.built[i * K + j]?
  owner : ∀ i j t, w.owner i j = some t → j < sh.deq i
  queue : w.abs.obj.queue = (w.built.take (shown K sh)).drop (popped K sh)
  hidden : w.abs.obj.hidden = w.built.drop (shown K sh) ++ w.extra
  pushed : w.abs.obj.pushed = w.built.length + w.extra.length

/-- The publish that ends a `push`. -/
def rest (pub : Bool) : List (DeferOp α) := if pub then [.publish] else []

/-- A pop that has not taken effect. -/
def Popping (prod : Tid) (w : Ghost Tid α) (t : Tid) : Prop :=
  w.abs.Pend t [.pop] [] ∧ (t = prod → w.extra = [])

/-- What a thread relies on at its location. -/
def L (K : Nat) (prod : Tid) (t : Tid) (sh : Shared α) (w : Ghost Tid α) :
    Option (Loc α) → Prop
  | none => w.abs.pend t = none ∧ (t = prod → w.extra = [])
  | some (.put v pub) => t = prod ∧ w.extra = [] ∧ w.abs.Pend t (.defer v :: rest pub) []
  | some (.link v pub) =>
    t = prod ∧ w.extra = [v] ∧ sh.filled = K ∧ sh.enq sh.tail = K ∧
      w.abs.Pend t (rest pub) [.pushed]
  | some (.fill v pub) =>
    t = prod ∧ w.extra = [v] ∧ sh.filled = 0 ∧ sh.enq sh.tail = 0 ∧
      w.abs.Pend t (rest pub) [.pushed]
  | some (.publish deferred) =>
    t = prod ∧ w.extra = [] ∧ w.abs.Pend t [.publish] (if deferred then [.pushed] else [])
  | some .head => Popping prod w t
  | some .protect => Popping prod w t
  | some (.reload p) => Popping prod w t ∧ p ≤ sh.head
  | some (.deq h) => Popping prod w t ∧ h ≤ sh.head
  | some (.seen h d) => Popping prod w t ∧ h ≤ sh.head ∧ d ≤ sh.deq h
  | some (.test h d e) => Popping prod w t ∧ h ≤ sh.head ∧ d ≤ sh.deq h ∧ e ≤ sh.enq h
  | some (.tell h d e) => Popping prod w t ∧ h ≤ sh.head ∧ d ≤ sh.deq h ∧ d < e ∧ e ≤ sh.enq h
  | some (.claim h d e) => Popping prod w t ∧ h ≤ sh.head ∧ d ≤ sh.deq h ∧ d < e ∧ e ≤ sh.enq h
  | some (.take h d) =>
    ∃ v, w.abs.Pend t [] [.popped (some v)] ∧ (t = prod → w.extra = []) ∧ w.owner h d = some t ∧
      sh.cell h d = some v
  | some (.next h) => Popping prod w t ∧ h ≤ sh.head ∧ sh.deq h = K
  | some (.advance h n) => Popping prod w t ∧ h ≤ sh.head ∧ sh.deq h = K ∧ n = h + 1 ∧ h < sh.tail
  | some (.done ans) => w.abs.Pend t [] ans ∧ (t = prod → w.extra = [])

/-- What a step of thread `t` may change, seen by the others. -/
structure Rely (prod : Tid) (t : Tid) (sh : Shared α) (w : Ghost Tid α) (sh' : Shared α)
    (w' : Ghost Tid α) : Prop where
  pend : ∀ u, u ≠ t → w'.abs.pend u = w.abs.pend u
  head : sh.head ≤ sh'.head
  tail : sh.tail ≤ sh'.tail
  deq : ∀ i, sh.deq i ≤ sh'.deq i
  enq : ∀ i, sh.enq i ≤ sh'.enq i
  owned : ∀ i j u, u ≠ t → w.owner i j = some u →
    w'.owner i j = some u ∧ sh'.cell i j = sh.cell i j
  own : t ≠ prod → sh'.tail = sh.tail ∧ sh'.filled = sh.filled ∧ sh'.enq = sh.enq ∧
    w'.extra = w.extra

theorem Rely.refl (prod t : Tid) (sh : Shared α) (w : Ghost Tid α) : Rely prod t sh w sh w :=
  ⟨fun _ _ => rfl, le_rfl, le_rfl, fun _ => le_rfl, fun _ => le_rfl, fun _ _ _ _ h => ⟨h, rfl⟩,
    fun _ => ⟨rfl, rfl, rfl, rfl⟩⟩

theorem extra_stable {prod t u : Tid} {sh sh' : Shared α} {w w' : Ghost Tid α} (hu : u ≠ t)
    (hr : Rely prod t sh w sh' w') {l : List α} (h : u = prod → w.extra = l) :
    u = prod → w'.extra = l := by
  intro hp
  rw [(hr.own (fun ht => hu (hp.trans ht.symm))).2.2.2]
  exact h hp

theorem Popping.stable {prod t u : Tid} {sh sh' : Shared α} {w w' : Ghost Tid α} (hu : u ≠ t)
    (hr : Rely prod t sh w sh' w') (h : Popping prod w u) : Popping prod w' u :=
  ⟨h.1.of_eq (hr.pend _ hu), extra_stable hu hr h.2⟩

/-- What a thread relies on survives the steps of the others. -/
theorem L.stable {K : Nat} {prod t u : Tid} {sh sh' : Shared α} {w w' : Ghost Tid α}
    {x : Option (Loc α)} (hu : u ≠ t) (hg' : G K sh' w') (hr : Rely prod t sh w sh' w')
    (h : L K prod u sh w x) : L K prod u sh' w' x := by
  have hhead := hr.head
  have htail := hr.tail
  have hdeq := hr.deq
  have henq := hr.enq
  -- the deques of a drained segment stay at `K`
  have hfull : ∀ i, i ≤ sh.head → sh.deq i = K → sh'.deq i = K := by
    intro i hi hK
    have h1 := hdeq i
    have h2 := hg'.deq_le i
    have h3 : sh'.enq i ≤ K := by
      rcases Nat.lt_trichotomy i sh'.tail with h | h | h
      · rw [hg'.enq_lt i h]
      · subst h; exact hg'.enq_tail.trans hg'.filled_le
      · rw [hg'.enq_gt i h]; omega
    omega
  have hown : u = prod → sh'.tail = sh.tail ∧ sh'.filled = sh.filled ∧ sh'.enq = sh.enq ∧
      w'.extra = w.extra := fun hp => hr.own (fun ht => hu (hp.trans ht.symm))
  cases x with
  | none =>
    obtain ⟨h1, h2⟩ := h
    exact ⟨by rw [hr.pend u hu, h1], extra_stable hu hr h2⟩
  | some l =>
    cases l with
    | put v pub | publish deferred =>
      obtain ⟨h1, h2, h3⟩ := h
      exact ⟨h1, by rw [(hown h1).2.2.2, h2], h3.of_eq (hr.pend _ hu)⟩
    | link v pub | fill v pub =>
      obtain ⟨h1, h2, h3, h4, h5⟩ := h
      obtain ⟨e1, e2, e3, e4⟩ := hown h1
      exact ⟨h1, by rw [e4, h2], by rw [e2, h3], by rw [e3, e1, h4], h5.of_eq (hr.pend _ hu)⟩
    | head | protect => exact Popping.stable hu hr h
    | reload p | deq i => exact ⟨h.1.stable hu hr, h.2.trans hhead⟩
    | seen i d => exact ⟨h.1.stable hu hr, h.2.1.trans hhead, h.2.2.trans (hdeq i)⟩
    | test i d e =>
      obtain ⟨h1, h2, h3, h4⟩ := h
      exact ⟨h1.stable hu hr, h2.trans hhead, h3.trans (hdeq i), h4.trans (henq i)⟩
    | tell i d e | claim i d e =>
      obtain ⟨h1, h2, h3, h4, h5⟩ := h
      exact ⟨h1.stable hu hr, h2.trans hhead, h3.trans (hdeq i), h4, h5.trans (henq i)⟩
    | take i d =>
      obtain ⟨v, h1, h2, h3, h4⟩ := h
      obtain ⟨e1, e2⟩ := hr.owned i d u hu h3
      exact ⟨v, h1.of_eq (hr.pend _ hu), extra_stable hu hr h2, e1, by rw [e2, h4]⟩
    | next i =>
      obtain ⟨h1, h2, h3⟩ := h
      exact ⟨h1.stable hu hr, h2.trans hhead, hfull i h2 h3⟩
    | advance i n =>
      obtain ⟨h1, h2, h3, h4, h5⟩ := h
      exact ⟨h1.stable hu hr, h2.trans hhead, hfull i h2 h3, h4, h5.trans_le htail⟩
    | done ans => exact ⟨h.1.of_eq (hr.pend _ hu), extra_stable hu hr h.2⟩

end Wtc.Spmc
