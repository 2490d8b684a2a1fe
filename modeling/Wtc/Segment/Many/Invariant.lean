import Wtc.Segment.Chain

/-!
# What holds of the queue for many consumers

Whether a push that takes a cell has an effect there is decided only later, when it fills the cell
or finds it skipped. The proof knows the end of the run: `F s j` says that cell `j` of segment `s`
is full then. A push takes effect where it takes its cells, for those that get full; a pop at the
later of the moments at which it and the push take the cell.

The atomic queue then holds the elements of the cells from `passed` to `reserved`.
-/

namespace Wtc.Segment.Many

open Wtc.Concurrent

variable {α Tid : Type}

/-! ## The ghost -/

/-- `val` gives the elements that have taken effect, by the number of their cell; `owner` the
pushes that took the cells; `claim` the cell that a pop has taken and not left yet. -/
structure Ghost (Tid α : Type) where
  abs : Atomic.State Tid (FifoOp α) (FifoAns α) (List α)
  val : Nat → Option α
  owner : Nat → Option Tid
  claim : Tid → Option (Nat × Nat)

def Ghost.init : Ghost Tid α := ⟨Atomic.init (fifo α), fun _ => none, fun _ => none, fun _ => none⟩

/-- The end of the run is in keeping with the marks so far. -/
structure Sees (F : Nat → Nat → Prop) (sh : Shared α) : Prop where
  full : ∀ s j, s < sh.segs → sh.state s j = .full → F s j
  skipped : ∀ s j, s < sh.segs → sh.state s j = .skipped → ¬ F s j

/-- What a pop that holds a cell has done: with an element there it has taken effect. -/
def Claimed (w : Ghost Tid α) (t : Tid) : Option α → Prop
  | none => w.abs.Pend t [.pop] []
  | some v => w.abs.Pend t [] [.popped (some v)]

structure G (K : Nat) (F : Nat → Nat → Prop) (sh : Shared α) (w : Ghost Tid α) : Prop where
  chain : Chain K sh
  val_lt : ∀ n v, w.val n = some v → n < reserved K sh
  owner_lt : ∀ n u, w.owner n = some u → n < reserved K sh
  val_fin : ∀ s j v, j < K → w.val (s * K + j) = some v → F s j
  full_val : ∀ s j, j < K → sh.state s j = .full → w.val (s * K + j) ≠ none
  not_taken : ∀ s j, sh.state s j ≠ .taken
  cell : ∀ s j, j < K → sh.state s j = .full →
    (passed K sh ≤ s * K + j ∨ ∃ t, w.claim t = some (s, j)) → sh.cell s j = w.val (s * K + j)
  claimed : ∀ s j, j < K → s * K + j < passed K sh → sh.state s j ≠ .skipped →
    w.val (s * K + j) = none → ∃ t, w.claim t = some (s, j)
  claim_inj : ∀ t u c, w.claim t = some c → w.claim u = some c → t = u
  claim_lt : ∀ t s j, w.claim t = some (s, j) → j < K ∧ s * K + j < passed K sh
  claim_pend : ∀ t s j, w.claim t = some (s, j) → Claimed w t (w.val (s * K + j))
  queue : w.abs.obj = window (passed K sh) (reserved K sh) w.val

/-! ## What a thread relies on -/

/-- A push with `k` elements in and `vs` left. -/
def Pushing (w : Ghost Tid α) (t : Tid) (k : Nat) (vs : List α) : Prop :=
  w.abs.Pend t (vs.map .push) (List.replicate k .pushed) ∧ w.claim t = none

/-- A push that has taken the cells from `j` to `stop` of segment `s` and not filled them. The
first `q` of them get full at the end and have taken effect. -/
structure Filling (K : Nat) (F : Nat → Nat → Prop) (sh : Shared α) (w : Ghost Tid α) (t : Tid)
    (k : Nat) (vs : List α) (s j stop fin q : Nat) : Prop where
  seg : s < sh.segs
  fin_eq : fin = j + vs.length
  stop_eq : stop = min fin K
  lt : j < stop
  enq : fin ≤ sh.enq s
  owner : ∀ r, j ≤ r → r < stop → w.owner (s * K + r) = some t ∧ sh.state s r ≠ .full
  le : j + q ≤ stop
  val : ∀ r, r < q → w.val (s * K + (j + r)) = vs[r]?
  val_none : ∀ r, j + q ≤ r → r < stop → w.val (s * K + r) = none
  most : j + q < stop → ¬ F s (j + q)
  pend : Pushing w t (k + q) (vs.drop q)

/-- A push past the cells of segment `s`. -/
def Leaving (K : Nat) (sh : Shared α) (w : Ghost Tid α) (t : Tid) (k : Nat) (vs : List α)
    (s fin : Nat) : Prop :=
  vs ≠ [] ∧ Pushing w t k vs ∧ s < sh.segs ∧ (K < fin → K < sh.enq s)

def PushL (K : Nat) (F : Nat → Nat → Prop) (t : Tid) (sh : Shared α) (w : Ghost Tid α) :
    PushLoc α → Prop
  | .load k vs => vs ≠ [] ∧ Pushing w t k vs
  | .check k vs s => vs ≠ [] ∧ Pushing w t k vs ∧ s < sh.segs
  | .reserve k vs s => vs ≠ [] ∧ Pushing w t k vs ∧ s < sh.segs
  | .build k vs s j stop fin => ∃ q, Filling K F sh w t k vs s j stop fin q
  | .mark k vs s j stop fin =>
    (∃ q, Filling K F sh w t k vs s j stop fin q) ∧ sh.cell s j = vs.head?
  | .takeBack k vs s j stop fin =>
    Filling K F sh w t k vs s j stop fin 0
  | .giveUp k vs s _ _ fin => Leaving K sh w t k vs s fin
  | .nextLoad k vs s _ => Leaving K sh w t k vs s (K + 1)
  | .link k vs s => Leaving K sh w t k vs s (K + 1)
  | .linkTail k vs _ n => Pushing w t k vs ∧ n < sh.segs
  | .tailCas k vs _ n => Pushing w t k vs ∧ n < sh.segs
  | .done k => Pushing w t k []

/-- A pop that holds no cell and has not taken effect. -/
def Popping (w : Ghost Tid α) (t : Tid) : Prop := w.abs.Pend t [.pop] [] ∧ w.claim t = none

/-- A pop that may answer empty if the segment has no successor. -/
def MayBeEmpty (sh : Shared α) (w : Ghost Tid α) (t : Tid) (h : Nat) : Prop :=
  w.claim t = none ∧ ∃ seen, w.abs.pend t = some ⟨[.pop], [], seen⟩ ∧
    (sh.next h = none → seen (.popped none))

def PopL (K : Nat) (t : Tid) (sh : Shared α) (w : Ghost Tid α) : ManyLoc α → Prop
  | .load => Popping w t
  | .check p => Popping w t ∧ p ≤ sh.head
  | .deqLoad h => Popping w t ∧ h ≤ sh.head
  | .enqLoad h d => Popping w t ∧ h ≤ sh.head ∧ d ≤ sh.deq h
  | .nextLoad h => MayBeEmpty sh w t h ∧ h ≤ sh.head
  | .claim h => Popping w t ∧ h ≤ sh.head
  | .endNext h => Popping w t ∧ h ≤ sh.head ∧ K ≤ sh.deq h
  | .advTail h n => Popping w t ∧ h ≤ sh.head ∧ K ≤ sh.deq h ∧ sh.next h = some n
  | .advHead h n => Popping w t ∧ h ≤ sh.head ∧ K ≤ sh.deq h ∧ sh.next h = some n
  | .look h i => w.claim t = some (h, i)
  | .patience h i _ => w.claim t = some (h, i)
  | .reserved h i => w.claim t = some (h, i)
  | .await h i => w.claim t = some (h, i)
  | .skip h i => w.claim t = some (h, i)
  | .take h i => w.claim t = some (h, i) ∧ sh.state h i = .full
  | .done v => w.abs.Pend t [] [.popped v] ∧ w.claim t = none

def L (K : Nat) (F : Nat → Nat → Prop) (t : Tid) (sh : Shared α) (w : Ghost Tid α) :
    Option (Loc α) → Prop
  | none => w.abs.pend t = none ∧ w.claim t = none
  | some (.push l) => PushL K F t sh w l
  | some (.pop l) => PopL K t sh w l

/-- What a step of thread `t` may change, seen by the others. -/
structure Rely (K : Nat) (t : Tid) (sh : Shared α) (w : Ghost Tid α) (sh' : Shared α)
    (w' : Ghost Tid α) : Prop where
  segs : sh.segs ≤ sh'.segs
  head : sh.head ≤ sh'.head
  deq : ∀ s, sh.deq s ≤ sh'.deq s
  enq : ∀ s, sh.enq s ≤ sh'.enq s
  next : ∀ s n, sh.next s = some n → sh'.next s = some n
  full : ∀ s j, j < K → sh.state s j = .full → sh'.state s j = .full
  claim : ∀ u, u ≠ t → w'.claim u = w.claim u
  pend : ∀ u, u ≠ t → w.claim u = none → w'.abs.pend u = w.abs.pend u
  owned : ∀ s j u, u ≠ t → j < K → w.owner (s * K + j) = some u →
    w'.owner (s * K + j) = some u ∧ w'.val (s * K + j) = w.val (s * K + j) ∧
    (sh.state s j ≠ .full → sh'.state s j ≠ .full ∧ sh'.cell s j = sh.cell s j)

section Stable

variable {K : Nat} {F : Nat → Nat → Prop} {t u : Tid} {sh sh' : Shared α} {w w' : Ghost Tid α}

theorem Rely.refl (K : Nat) (t : Tid) (sh : Shared α) (w : Ghost Tid α) : Rely K t sh w sh w :=
  ⟨le_rfl, le_rfl, fun _ => le_rfl, fun _ => le_rfl, fun _ _ h => h, fun _ _ _ h => h,
    fun _ _ => rfl, fun _ _ _ => rfl, fun _ _ _ _ _ h => ⟨h, rfl, fun h => ⟨h, rfl⟩⟩⟩

theorem Pushing.stable (hu : u ≠ t) (hr : Rely K t sh w sh' w') {k : Nat} {vs : List α}
    (h : Pushing w u k vs) : Pushing w' u k vs :=
  ⟨h.1.of_eq (hr.pend u hu h.2), (hr.claim u hu).trans h.2⟩

theorem Popping.stable (hu : u ≠ t) (hr : Rely K t sh w sh' w') (h : Popping w u) :
    Popping w' u :=
  ⟨h.1.of_eq (hr.pend u hu h.2), (hr.claim u hu).trans h.2⟩

theorem MayBeEmpty.stable (hu : u ≠ t) (hr : Rely K t sh w sh' w') {h : Nat}
    (hm : MayBeEmpty sh w u h) : MayBeEmpty sh' w' u h := by
  obtain ⟨hc, seen, hp, hs⟩ := hm
  refine ⟨(hr.claim u hu).trans hc, seen, (hr.pend u hu hc).trans hp, fun hn => hs ?_⟩
  cases he : sh.next h with
  | none => rfl
  | some n => rw [hr.next h n he] at hn; cases hn

theorem Filling.stable (hu : u ≠ t) (hr : Rely K t sh w sh' w') {k : Nat} {vs : List α}
    {s j stop fin q : Nat} (h : Filling K F sh w u k vs s j stop fin q) :
    Filling K F sh' w' u k vs s j stop fin q := by
  have hK : ∀ r, r < stop → r < K := fun r hlt => by
    have := h.stop_eq
    omega
  have hown : ∀ r, j ≤ r → r < stop → _ := fun r h1 h2 =>
    hr.owned s r u hu (hK r h2) (h.owner r h1 h2).1
  refine ⟨h.seg.trans_le hr.segs, h.fin_eq, h.stop_eq, h.lt, h.enq.trans (hr.enq s), ?_,
    h.le, ?_, ?_,
    h.most, h.pend.stable hu hr⟩
  · intro r h1 h2
    obtain ⟨ho, -, hst⟩ := hown r h1 h2
    exact ⟨ho, (hst (h.owner r h1 h2).2).1⟩
  · intro r hrq
    have hle := h.le
    rw [(hown (j + r) (by omega) (by omega)).2.1]
    exact h.val r hrq
  · intro r h1 h2
    rw [(hown r (by omega) h2).2.1]
    exact h.val_none r h1 h2

theorem Leaving.stable (hu : u ≠ t) (hr : Rely K t sh w sh' w') {k : Nat} {vs : List α}
    {s fin : Nat} (h : Leaving K sh w u k vs s fin) : Leaving K sh' w' u k vs s fin :=
  ⟨h.1, h.2.1.stable hu hr, h.2.2.1.trans_le hr.segs,
    fun hK => (h.2.2.2 hK).trans_le (hr.enq s)⟩

/-- What a thread relies on survives the steps of the others. -/
theorem L.stable {x : Option (Loc α)} (hg : G K F sh w) (hu : u ≠ t) (hr : Rely K t sh w sh' w')
    (h : L K F u sh w x) : L K F u sh' w' x := by
  have hseg := hr.segs
  have hhead := hr.head
  have hdeq := hr.deq
  rcases x with _ | l | l
  · exact ⟨(hr.pend u hu h.2).trans h.1, (hr.claim u hu).trans h.2⟩
  · cases l with
    | load k vs => exact ⟨h.1, h.2.stable hu hr⟩
    | check k vs s | reserve k vs s => exact ⟨h.1, h.2.1.stable hu hr, h.2.2.trans_le hseg⟩
    | build k vs s j stop fin => exact h.imp fun q hq => hq.stable hu hr
    | mark k vs s j stop fin =>
      obtain ⟨⟨q, hq⟩, hcell⟩ := h
      refine ⟨⟨q, hq.stable hu hr⟩, ?_⟩
      have hown := hq.owner j le_rfl hq.lt
      have hj : j < K := by
        have := hq.lt
        have := hq.stop_eq
        omega
      rw [((hr.owned s j u hu hj hown.1).2.2 hown.2).2]
      exact hcell
    | takeBack k vs s j stop fin => exact Filling.stable hu hr h
    | giveUp k vs s r stop fin | nextLoad k vs s spin | link k vs s => exact Leaving.stable hu hr h
    | linkTail k vs s n | tailCas k vs s n => exact ⟨h.1.stable hu hr, h.2.trans_le hseg⟩
    | done k => exact Pushing.stable hu hr h
  · cases l with
    | load => exact Popping.stable hu hr h
    | check p | deqLoad p | nextLoad p | claim p => exact ⟨h.1.stable hu hr, h.2.trans hhead⟩
    | enqLoad p d | endNext p => exact ⟨h.1.stable hu hr, h.2.1.trans hhead, h.2.2.trans (hdeq p)⟩
    | advTail p n | advHead p n =>
      exact ⟨h.1.stable hu hr, h.2.1.trans hhead, h.2.2.1.trans (hdeq p), hr.next _ _ h.2.2.2⟩
    | take p i => exact ⟨(hr.claim u hu).trans h.1, hr.full _ _ (hg.claim_lt _ _ _ h.1).1 h.2⟩
    | done v => exact ⟨h.1.of_eq (hr.pend u hu h.2), (hr.claim u hu).trans h.2⟩
    | look p i | patience p i spin | reserved p i | await p i | skip p i =>
      exact (hr.claim u hu).trans h

end Stable

end Wtc.Segment.Many
