import Wtc.Segment.Chain
import Wtc.Concurrent.LooseLinear

/-!
# What holds of the queue for one consumer

The consumer may take a cell before an earlier one that is not filled yet, so the queue is one taken
from out of order: an element is filled when its cell gets full, and taken when the consumer takes
it from its cell.

The cells before `passed` are taken; those from there to where the walk has come are taken or among
the holes. An element filled before the call of another began has the earlier cell, so what the
consumer takes is behind holes only that were filled later.
-/

namespace Wtc.Segment.One

open Wtc.Concurrent

variable {α Tid : Type}

/-- The number of a cell. -/
def number (K : Nat) (c : Nat × Nat) : Nat := c.1 * K + c.2

/-! ## The ghost -/

/-- The queue taken from out of order; `num` gives the cells of the filled elements, `owner` the
pushes that took the cells, `ahead` where the walk has come. -/
structure Ghost (Tid α : Type) where
  lo : Loose.State Tid α
  num : Loose.Elem → Nat
  owner : Nat → Option Tid
  ahead : Nat

def Ghost.init : Ghost Tid α := ⟨.init, fun _ => 0, fun _ => none, 0⟩

/-- Elements and their cells. -/
structure Cells (K : Nat) (sh : Shared α) (w : Ghost Tid α) : Prop where
  num_lt : ∀ x ∈ w.lo.filled, w.num x < reserved K sh
  owner_lt : ∀ n u, w.owner n = some u → n < reserved K sh
  num_inj : ∀ x ∈ w.lo.filled, ∀ y ∈ w.lo.filled, w.num x = w.num y → x = y
  mark : ∀ x ∈ w.lo.filled, ∀ s j, j < K → w.num x = s * K + j →
    sh.state s j = .full ∨ sh.state s j = .taken ∧ x ∈ w.lo.taken
  cell : ∀ x ∈ w.lo.filled, x ∉ w.lo.taken → ∀ s j, j < K → w.num x = s * K + j →
    sh.cell s j = w.lo.val x
  elem : ∀ s j, j < K → sh.state s j ≠ .empty → ∃ x ∈ w.lo.filled, w.num x = s * K + j
  earlier : ∀ y ∈ w.lo.filled, ∀ x, w.lo.Earlier x y → w.num x < w.num y

/-- What the consumer has passed and what it has left behind. -/
structure Ahead (K : Nat) (sh : Shared α) (w : Ghost Tid α) : Prop where
  below : ∀ n, n < passed K sh → ∃ x ∈ w.lo.taken, w.num x = n
  sorted : sh.one.holes.Pairwise fun c d => number K c < number K d
  hole : ∀ c ∈ sh.one.holes, c.2 < K ∧ passed K sh ≤ number K c ∧ number K c < w.ahead
  fresh : ∀ c ∈ sh.one.holes, ∀ x ∈ w.lo.taken, w.num x ≠ number K c
  cover : ∀ n, passed K sh ≤ n → n < w.ahead →
    (∃ c ∈ sh.one.holes, number K c = n) ∨ ∃ x ∈ w.lo.taken, w.num x = n
  taken_lt : ∀ x ∈ w.lo.taken, w.num x < passed K sh ∨ w.num x < w.ahead

structure G (K : Nat) (sh : Shared α) (w : Ghost Tid α) : Prop where
  chain : Chain K sh
  valid : Loose.Valid w.lo
  cells : Cells K sh w
  ahead : Ahead K sh w

/-! ## What a pushing thread relies on -/

/-- A push with `k` elements in and `vs` left. -/
def Pushing (w : Ghost Tid α) (t : Tid) (k : Nat) (vs : List α) : Prop :=
  ∃ c b, w.lo.pend t = some (.push c k) ∧ w.lo.calls[c]? = some b ∧ b.elems.drop k = vs ∧
    k ≤ b.elems.length

/-- A push that has taken the cells from `j` to `stop` of segment `s` and not filled them. What is
to come before its next element has an earlier cell. -/
structure Filling (K : Nat) (sh : Shared α) (w : Ghost Tid α) (t : Tid) (k : Nat) (vs : List α)
    (s j stop fin : Nat) : Prop where
  seg : s < sh.segs
  fin_eq : fin = j + vs.length
  stop_eq : stop = min fin K
  lt : j < stop
  enq : fin ≤ sh.enq s
  owner : ∀ r, j ≤ r → r < stop → w.owner (s * K + r) = some t ∧ sh.state s r = .empty
  pend : ∃ c b, w.lo.pend t = some (.push c k) ∧ w.lo.calls[c]? = some b ∧ b.elems.drop k = vs ∧
    k ≤ b.elems.length ∧ ∀ x, w.lo.Earlier x (c, k) → w.num x < s * K + j

/-- A push past the cells of segment `s`. -/
def Leaving (K : Nat) (sh : Shared α) (w : Ghost Tid α) (t : Tid) (k : Nat) (vs : List α)
    (s fin : Nat) : Prop :=
  vs ≠ [] ∧ Pushing w t k vs ∧ s < sh.segs ∧ (K < fin → K < sh.enq s)

def PushL (K : Nat) (t : Tid) (sh : Shared α) (w : Ghost Tid α) : PushLoc α → Prop
  | .load k vs => vs ≠ [] ∧ Pushing w t k vs
  | .check k vs s => vs ≠ [] ∧ Pushing w t k vs ∧ s < sh.segs
  | .reserve k vs s => vs ≠ [] ∧ Pushing w t k vs ∧ s < sh.segs
  | .build k vs s j stop fin => Filling K sh w t k vs s j stop fin
  | .mark k vs s j stop fin => Filling K sh w t k vs s j stop fin ∧ sh.cell s j = vs.head?
  -- no cell is skipped with one consumer
  | .takeBack .. => False
  | .giveUp .. => False
  | .nextLoad k vs s _ => Leaving K sh w t k vs s (K + 1)
  | .link k vs s => Leaving K sh w t k vs s (K + 1)
  | .linkTail k vs _ n => Pushing w t k vs ∧ n < sh.segs
  | .tailCas k vs _ n => Pushing w t k vs ∧ n < sh.segs
  | .done k => Pushing w t k []

/-! ## What the consumer relies on -/

/-- Every element taken is marked as taken or passed, but for the one in cell number `n`. -/
def Marked (K : Nat) (sh : Shared α) (w : Ghost Tid α) (n : Option Nat) : Prop :=
  ∀ x ∈ w.lo.taken, w.num x < passed K sh ∨ some (w.num x) = n ∨
    ∃ s j, j < K ∧ w.num x = s * K + j ∧ sh.state s j = .taken

/-- With holes the next walk goes on where the last one stopped. -/
def Walk (K : Nat) (sh : Shared α) (w : Ghost Tid α) : Prop :=
  sh.one.holes ≠ [] → w.ahead = number K sh.one.walk ∧ sh.one.walk.1 < sh.segs ∧
    sh.one.walk.2 ≤ K

/-- The consumer between two pops. -/
def Rest (K : Nat) (sh : Shared α) (w : Ghost Tid α) : Prop := Marked K sh w none ∧ Walk K sh w

/-- A pop that has taken nothing yet. -/
def Popping (w : Ghost Tid α) (t : Tid) : Prop :=
  ∃ i, w.lo.pend t = some (.pop i w.lo.taken.length) ∧ i ≤ w.lo.filled.length

/-- The element was filled when the pop began. -/
def Old (w : Ghost Tid α) (t : Tid) (x : Loose.Elem) : Prop :=
  ∃ i b, w.lo.pend t = some (.pop i b) ∧ x ∈ w.lo.filled.take i

/-- The consumer at the cell `i` of the head segment. -/
structure AtHead (K : Nat) (sh : Shared α) (h i : Nat) : Prop where
  head : h = sh.head
  deq : i = sh.deq h
  lt : i < K

/-- None of the first `k` holes was full when the pop began. -/
def NoneOld (K : Nat) (t : Tid) (sh : Shared α) (w : Ghost Tid α) (k : Nat) : Prop :=
  ∀ m c, m < k → sh.one.holes[m]? = some c → ∀ x, Old w t x → w.num x ≠ number K c

/-- The walk in segment `s`. -/
structure Walking (K : Nat) (t : Tid) (sh : Shared α) (w : Ghost Tid α) (s j : Nat) : Prop where
  pend : Popping w t
  marked : Marked K sh w none
  ahead : w.ahead = s * K + j
  le : passed K sh ≤ w.ahead
  seg : s < sh.segs
  noneOld : NoneOld K t sh w sh.one.holes.length

/-- The `k`-th hole is full, and of the first `m` holes none was filled before it. -/
def Found (K : Nat) (sh : Shared α) (w : Ghost Tid α) (k m : Nat) : Prop :=
  ∃ c y i, sh.one.holes[k]? = some c ∧ w.lo.filled[i]? = some y ∧ w.num y = number K c ∧
    ∀ m' d, m' < m → sh.one.holes[m']? = some d → ∀ x ∈ w.lo.filled.take i, w.num x ≠ number K d

def OneL (K : Nat) (t : Tid) (sh : Shared α) (w : Ghost Tid α) : OneLoc α → Prop
  | .head => Popping w t ∧ Rest K sh w
  | .deq h => Popping w t ∧ Rest K sh w ∧ h = sh.head
  | .next h => Popping w t ∧ Rest K sh w ∧ h = sh.head ∧ K ≤ sh.deq h
  | .advTail h n => Popping w t ∧ Rest K sh w ∧ h = sh.head ∧ K ≤ sh.deq h ∧ sh.next h = some n
  | .advHead h n => Popping w t ∧ Rest K sh w ∧ h = sh.head ∧ K ≤ sh.deq h ∧ sh.next h = some n
  | .state h i => Popping w t ∧ Rest K sh w ∧ AtHead K sh h i
  | .stepOver h i => Popping w t ∧ Rest K sh w ∧ AtHead K sh h i ∧ sh.state h i = .taken
  | .take h i => Popping w t ∧ Rest K sh w ∧ AtHead K sh h i ∧ sh.one.holes = [] ∧
    sh.state h i = .full
  | .setDeq h i v => w.lo.pend t = some (.popped (some v)) ∧ AtHead K sh h i ∧
    sh.one.holes = [] ∧ Marked K sh w (some (h * K + i)) ∧ ∃ x ∈ w.lo.taken, w.num x = h * K + i
  | .spin h i _ => Popping w t ∧ Rest K sh w ∧ AtHead K sh h i ∧ sh.one.holes = [] ∧
    ∀ x ∈ w.lo.taken, w.num x ≠ h * K + i
  | .look k => Popping w t ∧ Rest K sh w ∧ k < sh.one.holes.length ∧ NoneOld K t sh w k
  | .enq s j => Walking K t sh w s j ∧ j ≤ K ∧ sh.one.walk = (s, j)
  | .walk s j stop taken => Walking K t sh w s j ∧ j < stop ∧ stop = min taken K ∧
    taken ≤ sh.enq s ∧ (taken ≤ K → ∀ x, Old w t x → w.num x < s * K + taken)
  | .walkNext s => Walking K t sh w s K ∧ sh.one.walk = (s, K)
  | .again k m => Popping w t ∧ Rest K sh w ∧ m < k ∧ Found K sh w k m
  | .pick k => Popping w t ∧ Rest K sh w ∧ Found K sh w k k
  | .setTaken s j v => w.lo.pend t = some (.popped (some v)) ∧ j < K ∧ Walk K sh w ∧
    Marked K sh w (some (s * K + j)) ∧ ∃ x ∈ w.lo.taken, w.num x = s * K + j
  | .done v => w.lo.pend t = some (.popped v) ∧ Rest K sh w

def L (K : Nat) (cons t : Tid) (sh : Shared α) (w : Ghost Tid α) : Option (LocOne α) → Prop
  | none => w.lo.pend t = none ∧ (t = cons → Rest K sh w)
  | some (.push l) => PushL K t sh w l ∧ (t = cons → Rest K sh w)
  | some (.pop l) => t = cons ∧ OneL K t sh w l

/-! ## What the other threads do -/

/-- What a step of another thread leaves to the consumer. -/
structure Quiet (K : Nat) (sh : Shared α) (w : Ghost Tid α) (sh' : Shared α) (w' : Ghost Tid α) :
    Prop where
  one : sh'.one = sh.one
  head : sh'.head = sh.head
  deq : sh'.deq = sh.deq
  taken : w'.lo.taken = w.lo.taken
  ahead : w'.ahead = w.ahead
  state : ∀ s j, j < K → sh.state s j ≠ .empty → sh'.state s j = sh.state s j

/-- What a step of thread `t` may change, seen by the others. -/
structure Rely (K : Nat) (cons t : Tid) (sh : Shared α) (w : Ghost Tid α) (sh' : Shared α)
    (w' : Ghost Tid α) : Prop where
  segs : sh.segs ≤ sh'.segs
  enq : ∀ s, sh.enq s ≤ sh'.enq s
  next : ∀ s n, sh.next s = some n → sh'.next s = some n
  grows : Loose.Grows w.lo w'.lo
  num : ∀ x ∈ w.lo.filled, w'.num x = w.num x
  pend : ∀ u, u ≠ t → w'.lo.pend u = w.lo.pend u
  owned : ∀ s j u, u ≠ t → j < K → w.owner (s * K + j) = some u →
    w'.owner (s * K + j) = some u ∧ (sh.state s j = .empty →
      sh'.state s j = .empty ∧ sh'.cell s j = sh.cell s j)
  quiet : t ≠ cons → Quiet K sh w sh' w'

section Stable

variable {K : Nat} {cons t u : Tid} {sh sh' : Shared α} {w w' : Ghost Tid α}

theorem Rely.refl (K : Nat) (cons t : Tid) (sh : Shared α) (w : Ghost Tid α) :
    Rely K cons t sh w sh w :=
  ⟨le_rfl, fun _ => le_rfl, fun _ _ h => h, .refl _, fun _ _ => rfl, fun _ _ => rfl,
    fun _ _ _ _ _ h => ⟨h, fun h => ⟨h, rfl⟩⟩,
    fun _ => ⟨rfl, rfl, rfl, rfl, rfl, fun _ _ _ _ => rfl⟩⟩

/-- What is to come before an element of an open call is filled. -/
theorem G.filled_of_earlier (hg : G K sh w) {c k : Nat} (hp : w.lo.pend u = some (.push c k))
    {x : Loose.Elem} (hx : w.lo.Earlier x (c, k)) : x ∈ w.lo.filled := by
  rcases hx with ⟨b, -, hx⟩ | ⟨hc, hk⟩
  · exact List.mem_of_mem_take hx
  · obtain ⟨c', k'⟩ := x
    obtain rfl : c' = c := hc
    exact ((hg.valid.opens u c' k hp).2 k').2 hk

theorem Pushing.stable (hg : G K sh w) (hu : u ≠ t) (hr : Rely K cons t sh w sh' w') {k : Nat}
    {vs : List α} (h : Pushing w u k vs) : Pushing w' u k vs := by
  obtain ⟨c, b, hp, hb, hd, hk⟩ := h
  refine ⟨c, b, (hr.pend u hu).trans hp, ?_, hd, hk⟩
  rw [hr.grows.call (hg.valid.opens u c k hp).1]
  exact hb

theorem Filling.stable (hg : G K sh w) (hu : u ≠ t) (hr : Rely K cons t sh w sh' w') {k : Nat}
    {vs : List α} {s j stop fin : Nat} (h : Filling K sh w u k vs s j stop fin) :
    Filling K sh' w' u k vs s j stop fin := by
  refine ⟨h.seg.trans_le hr.segs, h.fin_eq, h.stop_eq, h.lt, h.enq.trans (hr.enq s), ?_, ?_⟩
  · intro r h1 h2
    obtain ⟨ho, hst⟩ := h.owner r h1 h2
    obtain ⟨ho', hst'⟩ := hr.owned s r u hu (by have := h.stop_eq; omega) ho
    exact ⟨ho', (hst' hst).1⟩
  · obtain ⟨c, b, hp, hb, hd, hk, hlt⟩ := h.pend
    have hc := (hg.valid.opens u c k hp).1
    refine ⟨c, b, (hr.pend u hu).trans hp, (hr.grows.call hc).trans hb, hd, hk, fun x hx => ?_⟩
    rw [hr.grows.earlier hg.valid hc] at hx
    rw [hr.num x (hg.filled_of_earlier hp hx)]
    exact hlt x hx

theorem Leaving.stable (hg : G K sh w) (hu : u ≠ t) (hr : Rely K cons t sh w sh' w') {k : Nat}
    {vs : List α} {s fin : Nat} (h : Leaving K sh w u k vs s fin) :
    Leaving K sh' w' u k vs s fin :=
  ⟨h.1, h.2.1.stable hg hu hr, h.2.2.1.trans_le hr.segs,
    fun hK => (h.2.2.2 hK).trans_le (hr.enq s)⟩

theorem PushL.stable (hg : G K sh w) (hu : u ≠ t) (hr : Rely K cons t sh w sh' w')
    {l : PushLoc α} (h : PushL K u sh w l) : PushL K u sh' w' l := by
  have hseg := hr.segs
  cases l with
  | load k vs => exact ⟨h.1, h.2.stable hg hu hr⟩
  | check k vs s | reserve k vs s => exact ⟨h.1, h.2.1.stable hg hu hr, h.2.2.trans_le hseg⟩
  | build k vs s j stop fin => exact Filling.stable hg hu hr h
  | mark k vs s j stop fin =>
    obtain ⟨hq, hcell⟩ := h
    refine ⟨hq.stable hg hu hr, ?_⟩
    obtain ⟨ho, hst⟩ := hq.owner j le_rfl hq.lt
    have hj : j < K := by
      have := hq.lt
      have := hq.stop_eq
      omega
    rw [((hr.owned s j u hu hj ho).2 hst).2]
    exact hcell
  | takeBack k vs s j stop fin | giveUp k vs s r stop fin => exact h
  | nextLoad k vs s spin | link k vs s => exact Leaving.stable hg hu hr h
  | linkTail k vs s n | tailCas k vs s n => exact ⟨h.1.stable hg hu hr, h.2.trans_le hseg⟩
  | done k => exact Pushing.stable hg hu hr h

/-! ### The consumer -/

theorem Quiet.passed (hq : Quiet K sh w sh' w') : passed K sh' = passed K sh := by
  rw [Segment.passed, Segment.passed, hq.head, hq.deq]

theorem Marked.stable (hg : G K sh w) (hr : Rely K cons t sh w sh' w')
    (hq : Quiet K sh w sh' w') {n : Option Nat} (h : Marked K sh w n) : Marked K sh' w' n := by
  intro x hx
  rw [hq.taken] at hx
  rw [hr.num x (hg.valid.taken_sub x hx), hq.passed]
  refine (h x hx).imp_right (Or.imp_right ?_)
  rintro ⟨s, j, hj, hn, hst⟩
  exact ⟨s, j, hj, hn, (hq.state s j hj (by rw [hst]; nofun)).trans hst⟩

theorem Walk.stable (hr : Rely K cons t sh w sh' w') (hq : Quiet K sh w sh' w')
    (h : Walk K sh w) : Walk K sh' w' := by
  intro hne
  rw [hq.one] at hne ⊢
  obtain ⟨h1, h2, h3⟩ := h hne
  exact ⟨hq.ahead.trans h1, h2.trans_le hr.segs, h3⟩

theorem Rest.stable (hg : G K sh w) (hr : Rely K cons t sh w sh' w') (hq : Quiet K sh w sh' w')
    (h : Rest K sh w) : Rest K sh' w' :=
  ⟨h.1.stable hg hr hq, h.2.stable hr hq⟩

theorem Popping.stable (hu : u ≠ t) (hr : Rely K cons t sh w sh' w')
    (hq : Quiet K sh w sh' w') (h : Popping w u) : Popping w' u := by
  obtain ⟨i, hp, hi⟩ := h
  refine ⟨i, ?_, hi.trans hr.grows.filled.length_le⟩
  rw [hr.pend u hu, hq.taken]
  exact hp

theorem Old.of_stable (hu : u ≠ t) (hr : Rely K cons t sh w sh' w') (hp : Popping w u)
    {x : Loose.Elem} (h : Old w' u x) : Old w u x := by
  obtain ⟨i, b, hp', hx⟩ := h
  rw [hr.pend u hu] at hp'
  obtain ⟨i', hp, hi⟩ := hp
  obtain rfl : i' = i := by
    rw [hp] at hp'
    simp only [Option.some.injEq, Loose.Pend.pop.injEq] at hp'
    exact hp'.1
  obtain ⟨r, hr'⟩ := hr.grows.filled
  rw [← hr', List.take_append_of_le_length hi] at hx
  exact ⟨i', b, hp', hx⟩

theorem Old.filled {x : Loose.Elem} (h : Old w u x) : x ∈ w.lo.filled := by
  obtain ⟨i, b, -, hx⟩ := h
  exact List.mem_of_mem_take hx

theorem NoneOld.stable (hu : u ≠ t) (hr : Rely K cons t sh w sh' w') (hq : Quiet K sh w sh' w')
    (hp : Popping w u) {k : Nat} (h : NoneOld K u sh w k) : NoneOld K u sh' w' k := by
  intro m c hm hc x hx
  have hx := hx.of_stable hu hr hp
  rw [hq.one] at hc
  rw [hr.num x hx.filled]
  exact h m c hm hc x hx

theorem Walking.stable (hg : G K sh w) (hu : u ≠ t) (hr : Rely K cons t sh w sh' w')
    (hq : Quiet K sh w sh' w') {s j : Nat} (h : Walking K u sh w s j) :
    Walking K u sh' w' s j := by
  refine ⟨h.pend.stable hu hr hq, h.marked.stable hg hr hq, hq.ahead.trans h.ahead, ?_,
    h.seg.trans_le hr.segs, ?_⟩
  · rw [hq.passed, hq.ahead]
    exact h.le
  · rw [hq.one]
    exact h.noneOld.stable hu hr hq h.pend

theorem Found.stable (hr : Rely K cons t sh w sh' w') (hq : Quiet K sh w sh' w') {k m : Nat}
    (h : Found K sh w k m) : Found K sh' w' k m := by
  obtain ⟨c, y, i, hc, hy, hn, hm⟩ := h
  obtain ⟨r, hr'⟩ := hr.grows.filled
  have hi := lt_length_of_getElem? hy
  refine ⟨c, y, i, by rw [hq.one]; exact hc, ?_, ?_, ?_⟩
  · rw [← hr', List.getElem?_append_left hi]
    exact hy
  · rw [hr.num y (List.mem_of_getElem? hy)]
    exact hn
  · intro m' d hm' hd x hx
    rw [← hr', List.take_append_of_le_length hi.le] at hx
    rw [hq.one] at hd
    rw [hr.num x (List.mem_of_mem_take hx)]
    exact hm m' d hm' hd x hx

theorem AtHead.stable (hq : Quiet K sh w sh' w') {h i : Nat} (ha : AtHead K sh h i) :
    AtHead K sh' h i :=
  ⟨ha.head.trans hq.head.symm, by rw [hq.deq]; exact ha.deq, ha.lt⟩

theorem exists_taken_stable (hg : G K sh w) (hr : Rely K cons t sh w sh' w')
    (hq : Quiet K sh w sh' w') {n : Nat} (h : ∃ x ∈ w.lo.taken, w.num x = n) :
    ∃ x ∈ w'.lo.taken, w'.num x = n := by
  obtain ⟨x, hx, hn⟩ := h
  exact ⟨x, by rwa [hq.taken], (hr.num x (hg.valid.taken_sub x hx)).trans hn⟩

theorem OneL.stable (hg : G K sh w) (hu : u ≠ t) (hr : Rely K cons t sh w sh' w')
    (hq : Quiet K sh w sh' w') {l : OneLoc α} (h : OneL K u sh w l) : OneL K u sh' w' l := by
  have hpop : Popping w u → Popping w' u := Popping.stable hu hr hq
  have hrest : Rest K sh w → Rest K sh' w' := Rest.stable hg hr hq
  have hwalk : ∀ {s j}, Walking K u sh w s j → Walking K u sh' w' s j := Walking.stable hg hu hr hq
  have hpend := hr.pend u hu
  cases l with
  | head => exact ⟨hpop h.1, hrest h.2⟩
  | deq p => exact ⟨hpop h.1, hrest h.2.1, h.2.2.trans hq.head.symm⟩
  | next p =>
    exact ⟨hpop h.1, hrest h.2.1, h.2.2.1.trans hq.head.symm, by rw [hq.deq]; exact h.2.2.2⟩
  | advTail p n | advHead p n =>
    exact ⟨hpop h.1, hrest h.2.1, h.2.2.1.trans hq.head.symm, by rw [hq.deq]; exact h.2.2.2.1,
      hr.next _ _ h.2.2.2.2⟩
  | state p i => exact ⟨hpop h.1, hrest h.2.1, h.2.2.stable hq⟩
  | stepOver p i =>
    obtain ⟨h1, h2, h3, hst⟩ := h
    exact ⟨hpop h1, hrest h2, h3.stable hq, (hq.state p i h3.lt (by rw [hst]; nofun)).trans hst⟩
  | take p i =>
    obtain ⟨h1, h2, h3, hh, hst⟩ := h
    exact ⟨hpop h1, hrest h2, h3.stable hq, by rw [hq.one]; exact hh,
      (hq.state p i h3.lt (by rw [hst]; nofun)).trans hst⟩
  | setDeq p i v =>
    obtain ⟨h1, h2, hh, hm, hx⟩ := h
    exact ⟨hpend.trans h1, h2.stable hq, by rw [hq.one]; exact hh, hm.stable hg hr hq,
      exists_taken_stable hg hr hq hx⟩
  | spin p i n =>
    obtain ⟨h1, h2, h3, hh, hx⟩ := h
    refine ⟨hpop h1, hrest h2, h3.stable hq, by rw [hq.one]; exact hh, fun x hxt => ?_⟩
    rw [hq.taken] at hxt
    rw [hr.num x (hg.valid.taken_sub x hxt)]
    exact hx x hxt
  | look k =>
    exact ⟨hpop h.1, hrest h.2.1, by rw [hq.one]; exact h.2.2.1, h.2.2.2.stable hu hr hq h.1⟩
  | enq s j => exact ⟨hwalk h.1, h.2.1, by rw [hq.one]; exact h.2.2⟩
  | walk s j stop taken =>
    obtain ⟨h1, h2, h3, h4, h5⟩ := h
    refine ⟨hwalk h1, h2, h3, h4.trans (hr.enq s), fun hK x hx => ?_⟩
    have hx := hx.of_stable hu hr h1.pend
    rw [hr.num x hx.filled]
    exact h5 hK x hx
  | walkNext s => exact ⟨hwalk h.1, by rw [hq.one]; exact h.2⟩
  | again k m => exact ⟨hpop h.1, hrest h.2.1, h.2.2.1, h.2.2.2.stable hr hq⟩
  | pick k => exact ⟨hpop h.1, hrest h.2.1, h.2.2.stable hr hq⟩
  | setTaken s j v =>
    obtain ⟨h1, hj, h2, hm, hx⟩ := h
    exact ⟨hpend.trans h1, hj, h2.stable hr hq, hm.stable hg hr hq, exists_taken_stable hg hr hq hx⟩
  | done v => exact ⟨hpend.trans h.1, hrest h.2⟩

/-- What a thread relies on survives the steps of the others. -/
theorem L.stable {x : Option (LocOne α)} (hg : G K sh w) (hu : u ≠ t)
    (hr : Rely K cons t sh w sh' w') (h : L K cons u sh w x) : L K cons u sh' w' x := by
  have hq : u = cons → Quiet K sh w sh' w' := fun he => hr.quiet fun ht => hu (he.trans ht.symm)
  rcases x with _ | l | l
  · exact ⟨(hr.pend u hu).trans h.1, fun he => (h.2 he).stable hg hr (hq he)⟩
  · exact ⟨h.1.stable hg hu hr, fun he => (h.2 he).stable hg hr (hq he)⟩
  · exact ⟨h.1, h.2.stable hg hu hr (hq h.1)⟩

end Stable

end Wtc.Segment.One
