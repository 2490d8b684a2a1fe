import Wtc.Concurrent.Serial
import Wtc.Segment.Chain

/-!
# The segmented queues, used by one thread

Used by one thread, a queue never has a reserved cell that is not full: no cell is skipped, no
push takes an element back, and the consumer never looks ahead. Every call comes to its end.
-/

namespace Wtc.Segment

open Wtc.Concurrent

variable {α : Type} {K : Nat} {many : Bool} {sh : Shared α}

/-- The cells before number `lo` of the last segment, and those of the segments before it, are
full; the others are empty. -/
structure Filled (K : Nat) (sh : Shared α) (lo : Nat) : Prop where
  chain : Chain K sh
  tail : sh.tail + 1 = sh.segs
  full : ∀ s j, j < K → s < sh.tail ∨ s = sh.tail ∧ j < lo → sh.state s j = .full
  empty : ∀ s j, sh.tail < s ∨ s = sh.tail ∧ lo ≤ j → sh.state s j = .empty
  cell : ∀ s j, j < K → sh.deq s ≤ j → s < sh.tail ∨ s = sh.tail ∧ j < lo → sh.cell s j ≠ none
  holes : sh.one.holes = []

/-- Between calls the full cells are the reserved ones. -/
structure Tidy (K : Nat) (sh : Shared α) : Prop where
  filled : Filled K sh (sh.enq sh.tail)
  last : sh.enq sh.tail ≤ K

theorem Tidy.init : Tidy K (Shared.init : Shared α) where
  filled := by
    refine ⟨.init, rfl, fun s j _ h => ?_, fun _ _ _ => rfl, fun s j _ _ h => ?_, rfl⟩
    all_goals
      rcases h with h | ⟨-, h⟩
      · exact absurd h (Nat.not_lt_zero _)
      · exact absurd h (Nat.not_lt_zero _)
  last := Nat.zero_le _

/-! ## A push -/

variable {j lo s n i : Nat}

theorem before_of_ne {t : Nat} (he : (s, j) ≠ (t, lo)) (hs : s < t ∨ s = t ∧ j < lo + 1) :
    s < t ∨ s = t ∧ j < lo := by
  refine hs.imp_right ?_
  rintro ⟨rfl, hj⟩
  have : j ≠ lo := fun h => he (by rw [h])
  exact ⟨rfl, by omega⟩

/-- The element goes into the next cell, which is then full. -/
theorem Filled.fill {v : α} (h : Filled K sh lo) :
    Filled K ((sh.setCell sh.tail lo (some v)).setState sh.tail lo .full) (lo + 1) where
  chain := (h.chain.setCell ..).setState ..
  tail := h.tail
  full s j hj hs := by
    by_cases he : (s, j) = (sh.tail, lo)
    · cases he
      exact setState_self
    · rw [setState_ne he]
      exact h.full s j hj (before_of_ne he hs)
  empty s j hs := by
    have he : (s, j) ≠ (sh.tail, lo) := by
      rintro he
      cases he
      rcases hs with hs | hs
      · exact absurd hs (lt_irrefl _)
      · omega
    rw [setState_ne he]
    exact h.empty s j (hs.imp_right fun hs => ⟨hs.1, by omega⟩)
  cell s j hj hd hs := by
    by_cases he : (s, j) = (sh.tail, lo)
    · cases he
      show (sh.setCell sh.tail lo (some v)).cell sh.tail lo ≠ none
      rw [setCell_self]
      exact Option.some_ne_none v
    · show (sh.setCell sh.tail lo (some v)).cell s j ≠ none
      rw [setCell_ne he]
      exact h.cell s j hj hd (before_of_ne he hs)
  holes := h.holes

theorem Filled.reserve (h : Filled K sh lo) : Filled K (sh.reserve sh.tail n) lo where
  chain := h.chain.reserve h.chain.tail_lt n
  tail := h.tail
  full := h.full
  empty := h.empty
  cell := h.cell
  holes := h.holes

/-- A new segment with the given elements becomes the last one. -/
theorem Filled.link {vs : List α} (h : Filled K sh K) (hK : K < sh.enq sh.tail)
    (hv : vs.length ≤ K) : Tidy K { sh.link sh.tail vs with tail := sh.segs } := by
  have henq : (sh.link sh.tail vs).enq sh.segs = vs.length := Function.update_self ..
  have hold : ∀ {s}, s < sh.segs → s < sh.tail ∨ s = sh.tail := fun hs => by
    have := h.tail
    omega
  have hnew : ∀ j, (sh.link sh.tail vs).state sh.segs j =
      if j < vs.length then .full else .empty := fun j => by
    simp only [Shared.link, Function.update_self]
  have hother : ∀ s j, s ≠ sh.segs → (sh.link sh.tail vs).state s j = sh.state s j ∧
      (sh.link sh.tail vs).cell s j = sh.cell s j := fun s j hs => by
    simp only [Shared.link, Function.update_of_ne hs, and_self]
  refine ⟨⟨(h.chain.link h.tail hK vs).setTail (Nat.lt_succ_self _), rfl, ?_, ?_, ?_, h.holes⟩, ?_⟩
  · intro s j hj hs
    have hs : s < sh.segs ∨ s = sh.segs ∧ j < (sh.link sh.tail vs).enq sh.segs := hs
    show (sh.link sh.tail vs).state s j = _
    rcases hs with hs | ⟨rfl, hs⟩
    · rw [(hother s j (by omega)).1]
      exact h.full s j hj ((hold hs).imp_right fun h => ⟨h, hj⟩)
    · rw [hnew, if_pos (by omega)]
  · intro s j hs
    have hs : sh.segs < s ∨ s = sh.segs ∧ (sh.link sh.tail vs).enq sh.segs ≤ j := hs
    show (sh.link sh.tail vs).state s j = _
    rcases hs with hs | ⟨rfl, hs⟩
    · rw [(hother s j (by omega)).1]
      refine h.empty s j (.inl ?_)
      have := h.tail
      omega
    · rw [hnew, if_neg (by omega)]
  · intro s j hj hd hs
    have hd : sh.deq s ≤ j := hd
    have hs : s < sh.segs ∨ s = sh.segs ∧ j < (sh.link sh.tail vs).enq sh.segs := hs
    show (sh.link sh.tail vs).cell s j ≠ none
    rcases hs with hs | ⟨rfl, hs⟩
    · rw [(hother s j (by omega)).2]
      exact h.cell s j hj hd ((hold hs).imp_right fun h => ⟨h, hj⟩)
    · have hj : j < vs.length := by omega
      simp [Shared.link, hj]
  · show (sh.link sh.tail vs).enq sh.segs ≤ K
    omega

/-- A push at its end, with the queue tidy. -/
def Pushed (K : Nat) (sh : Shared α) (l : PushLoc α) : Prop := Tidy K sh ∧ ∃ k, l = .done k

/-- Past the last segment: a new one is linked, and the rest is pushed again. -/
theorem reaches_nextLoad {k spin : Nat} {vs : List α} (h : Filled K sh K)
    (hK : K < sh.enq sh.tail)
    (hloop : ∀ {sh' : Shared α} {k'}, Tidy K sh' →
      Reaches (pushStep K many) (Pushed K) sh' (loop k' (vs.drop K))) :
    Reaches (pushStep K many) (Pushed K) sh (.nextLoad k vs sh.tail spin) := by
  have hnext : sh.next sh.tail = none := by
    rw [h.chain.next, if_neg]
    have := h.tail
    omega
  have hlink : Reaches (pushStep K many) (Pushed K) sh (.link k vs sh.tail) := by
    have hs : pushStep K many sh (.link k vs sh.tail) = some (sh.link sh.tail (vs.take K),
        .linkTail (k + (vs.take K).length) (vs.drop K) sh.tail sh.segs) := by
      simp only [pushStep, hnext]
    have hcas : (sh.link sh.tail (vs.take K)).casTail sh.tail sh.segs =
        { sh.link sh.tail (vs.take K) with tail := sh.segs } := if_pos rfl
    refine .step hs (.step rfl ?_)
    rw [hcas]
    exact hloop (h.link hK (List.length_take_le _ _))
  obtain ⟨n, hn⟩ : ∃ n, 64 - spin = n := ⟨_, rfl⟩
  induction n generalizing spin with
  | zero =>
    have hs : pushStep K many sh (.nextLoad k vs sh.tail spin) = some (sh, .link k vs sh.tail) := by
      simp only [pushStep, hnext]
      rw [if_neg (by omega)]
    exact .step hs hlink
  | succ n ih =>
    have hs : pushStep K many sh (.nextLoad k vs sh.tail spin) =
        some (sh, .nextLoad k vs sh.tail (spin + 1)) := by
      simp only [pushStep, hnext]
      rw [if_pos (by omega)]
    exact .step hs (ih (by omega))

/-- The cells reserved in the last segment are filled, and the rest goes to the next one. -/
theorem reaches_build {k stop fin : Nat} {vs : List α} (h : Filled K sh j) (hj : j < stop)
    (hstop : stop = min fin K) (hfin : fin = j + vs.length) (henq : sh.enq sh.tail = fin)
    (hloop : ∀ {sh' : Shared α} {k' vs'}, Tidy K sh' → vs'.length < vs.length →
      Reaches (pushStep K many) (Pushed K) sh' (loop k' vs')) :
    Reaches (pushStep K many) (Pushed K) sh (.build k vs sh.tail j stop fin) := by
  induction vs generalizing sh j k with
  | nil => simp only [List.length_nil] at hfin; omega
  | cons v rest ih =>
    simp only [List.length_cons] at hfin hloop
    have hempty : (sh.setCell sh.tail j (some v)).state sh.tail j = .empty :=
      h.empty _ _ (.inr ⟨rfl, le_rfl⟩)
    have hskip : ¬ (many = true ∧ (sh.setCell sh.tail j (some v)).state sh.tail j ≠ .empty) :=
      fun hc => hc.2 hempty
    refine .step rfl ?_
    by_cases hlt : j + 1 < stop
    · refine .step ((if_neg hskip).trans (if_pos hlt)) (ih h.fill hlt (by omega) henq ?_)
      exact fun ht hl => hloop ht (by omega)
    · refine .step ((if_neg hskip).trans (if_neg hlt)) ?_
      show Reaches _ _ _ (afterFill K (k + 1) rest sh.tail fin)
      unfold afterFill
      split_ifs with hrest hK
      · subst hrest
        simp only [List.length_nil] at hfin
        refine .here ⟨⟨?_, ?_⟩, _, rfl⟩
        · show Filled K _ (sh.enq sh.tail)
          rw [henq, hfin]
          exact h.fill
        · show sh.enq sh.tail ≤ K
          omega
      · have := List.length_pos_iff.2 hrest
        omega
      · obtain rfl : K = j + 1 := by omega
        refine reaches_nextLoad h.fill (by show _ < sh.enq sh.tail; omega) fun ht => hloop ht ?_
        rw [List.length_drop]
        omega

/-- A push by the only thread ends. -/
theorem reaches_loop (many : Bool) (hK : 0 < K) {k : Nat} {vs : List α} (h : Tidy K sh) :
    Reaches (pushStep K many) (Pushed K) sh (loop k vs) := by
  obtain ⟨n, hn⟩ : ∃ n, vs.length = n := ⟨_, rfl⟩
  induction n using Nat.strong_induction_on generalizing sh k vs with
  | _ n ih =>
    unfold loop
    split_ifs with hvs
    · exact .here ⟨h, k, rfl⟩
    have hpos := List.length_pos_iff.2 hvs
    refine .step rfl (.step (if_pos rfl) ?_)
    have henq : (sh.reserve sh.tail vs.length).enq sh.tail = sh.enq sh.tail + vs.length :=
      Function.update_self ..
    have hloop : ∀ {sh' : Shared α} {k' vs'}, Tidy K sh' → vs'.length < vs.length →
        Reaches (pushStep K many) (Pushed K) sh' (loop k' vs') :=
      fun ht hlt => ih _ (by omega) ht rfl
    by_cases hlt : sh.enq sh.tail < K
    · refine .step (if_pos hlt) ?_
      exact reaches_build h.filled.reserve (by omega) rfl rfl henq hloop
    · refine .step (if_neg hlt) ?_
      have hlast := h.last
      have hfull : Filled K (sh.reserve sh.tail vs.length) K := by
        have : sh.enq sh.tail = K := by omega
        exact this ▸ h.filled.reserve
      refine reaches_nextLoad hfull (by show K < (sh.reserve _ _).enq sh.tail; omega) fun ht => ?_
      refine hloop ht ?_
      rw [List.length_drop]
      omega

/-! ## What a pop leaves -/

section

variable (h : Tidy K sh)
include h

/-- A cell that a pop is to take: it is full, and holds an element. -/
theorem Tidy.cell (hi : i < K) (hd : sh.deq sh.head ≤ i) (he : i < sh.enq sh.head) :
    sh.state sh.head i = .full ∧ ∃ v, sh.cell sh.head i = some v := by
  have hplace : sh.head < sh.tail ∨ sh.head = sh.tail ∧ i < sh.enq sh.tail := by
    have h1 := h.filled.chain.head_lt
    have h2 := h.filled.tail
    rcases Nat.lt_or_ge sh.head sh.tail with hlt | hge
    · exact .inl hlt
    · obtain heq : sh.head = sh.tail := by omega
      exact .inr ⟨heq, heq ▸ he⟩
  exact ⟨h.filled.full _ _ hi hplace,
    Option.ne_none_iff_exists'.1 (h.filled.cell _ _ hi hd hplace)⟩

theorem Tidy.setDeq {d : Nat} (hd : sh.deq sh.head ≤ d) : Tidy K (sh.setDeq sh.head d) where
  filled := by
    refine ⟨h.filled.chain.setDeq le_rfl hd, h.filled.tail, h.filled.full, h.filled.empty, ?_,
      h.filled.holes⟩
    intro s j hj hdeq hs
    refine h.filled.cell s j hj ?_ hs
    by_cases he : s = sh.head
    · subst he
      have hdeq : d ≤ j := by simpa [Shared.setDeq] using hdeq
      omega
    · simpa [Shared.setDeq, he] using hdeq
  last := h.last

/-- The cell before `deq` is emptied. -/
theorem Tidy.clear (hi : i < sh.deq s) : Tidy K (sh.setCell s i none) where
  filled := by
    refine ⟨h.filled.chain.setCell .., h.filled.tail, h.filled.full, h.filled.empty, ?_,
      h.filled.holes⟩
    intro s' j hj hd hs
    have hd : sh.deq s' ≤ j := hd
    have hne : (s', j) ≠ (s, i) := by
      rintro he
      cases he
      omega
    rw [setCell_ne hne]
    exact h.filled.cell s' j hj hd hs
  last := h.last

theorem Tidy.setHead (hn : sh.head + 1 < sh.segs) (hd : K ≤ sh.deq sh.head) :
    Tidy K { sh with head := sh.head + 1 } where
  filled := { h.filled with chain := h.filled.chain.setHead hn hd }
  last := h.last

theorem Tidy.setOne {one : One} (ho : one.holes = []) : Tidy K (sh.setOne one) where
  filled := { h.filled with chain := h.filled.chain.setOne one, holes := ho }
  last := h.last

/-- With a segment after the head, the tail is not there. -/
theorem Tidy.casTail (hn : sh.head + 1 < sh.segs) : sh.casTail sh.head n = sh := by
  have := h.filled.tail
  exact if_neg (by omega)

theorem Tidy.next :
    sh.next sh.head = none ∧ sh.enq sh.head ≤ K ∨
      sh.next sh.head = some (sh.head + 1) ∧ sh.head + 1 < sh.segs ∧ K < sh.enq sh.head := by
  rw [h.filled.chain.next]
  split_ifs with hlt
  · exact .inr ⟨rfl, hlt, h.filled.chain.enq_full _ hlt⟩
  · have h1 := h.filled.chain.head_lt
    have h2 := h.filled.tail
    obtain heq : sh.head = sh.tail := by omega
    exact .inl ⟨rfl, heq ▸ h.last⟩

/-! ## A pop of the queue for many consumers -/

def PoppedMany (K : Nat) (sh : Shared α) (l : ManyLoc α) : Prop := Tidy K sh ∧ ∃ v, l = .done v

/-- Past the cells of the head segment: the end of the queue, or the next segment. -/
theorem reaches_endNext (hd : K ≤ sh.deq sh.head)
    (hadv : ∀ {sh' : Shared α}, Tidy K sh' → sh'.segs = sh.segs → sh'.head = sh.head + 1 →
      Reaches (manyStep K) (PoppedMany K) sh' .load) :
    Reaches (manyStep K) (PoppedMany K) sh (.endNext sh.head) := by
  rcases h.next with ⟨hnext, -⟩ | ⟨hnext, hlt, -⟩
  · have hs : manyStep K sh (.endNext sh.head) = some (sh, .done none) := by
      simp only [manyStep, hnext]
    exact .step hs (.here ⟨h, _, rfl⟩)
  · have hs : manyStep K sh (.endNext sh.head) = some (sh, .advTail sh.head (sh.head + 1)) := by
      simp only [manyStep, hnext]
    have htail : manyStep K sh (.advTail sh.head (sh.head + 1)) =
        some (sh, .advHead sh.head (sh.head + 1)) := by
      simp only [manyStep, h.casTail hlt]
    have hhead : manyStep K sh (.advHead sh.head (sh.head + 1)) =
        some ({ sh with head := sh.head + 1 }, .load) := by
      simp only [manyStep, Shared.casHead, if_pos]
    exact .step hs (.step htail (.step hhead (hadv (h.setHead hlt hd) rfl rfl)))

/-- A pop that claims a cell gets its element, or goes on to the next segment. -/
theorem reaches_claim (hc : sh.deq sh.head < sh.enq sh.head ∨ K < sh.enq sh.head)
    (hadv : ∀ {sh' : Shared α}, Tidy K sh' → sh'.segs = sh.segs → sh'.head = sh.head + 1 →
      Reaches (manyStep K) (PoppedMany K) sh' .load) :
    Reaches (manyStep K) (PoppedMany K) sh (.claim sh.head) := by
  have h' := h.setDeq (Nat.le_succ (sh.deq sh.head))
  by_cases hK : sh.deq sh.head ≥ K
  · refine .step (if_pos hK) (reaches_endNext h' ?_ hadv)
    simp only [Shared.setDeq, Function.update_self]
    omega
  · obtain ⟨hfull, v, hv⟩ := h.cell (Nat.lt_of_not_le hK) le_rfl (by omega)
    have hlook : manyStep K (sh.setDeq sh.head (sh.deq sh.head + 1))
          (.look sh.head (sh.deq sh.head)) =
        some (sh.setDeq sh.head (sh.deq sh.head + 1), .take sh.head (sh.deq sh.head)) := by
      have hfull :
          (sh.setDeq sh.head (sh.deq sh.head + 1)).state sh.head (sh.deq sh.head) = .full := hfull
      simp only [manyStep, hfull]
    refine .step (if_neg hK) (.step hlook (.step (congrArg (Option.map _) hv) (.here ⟨?_, _, rfl⟩)))
    refine h'.clear ?_
    simp [Shared.setDeq]

/-- A pop by the only thread ends. -/
theorem reaches_load : Reaches (manyStep K) (PoppedMany K) sh .load := by
  obtain ⟨n, hn⟩ : ∃ n, sh.segs - sh.head = n := ⟨_, rfl⟩
  induction n generalizing sh with
  | zero => have := h.filled.chain.head_lt; omega
  | succ n ih =>
    have hclaim : sh.deq sh.head < sh.enq sh.head ∨ K < sh.enq sh.head →
        Reaches (manyStep K) (PoppedMany K) sh (.claim sh.head) := fun hc =>
      reaches_claim h hc fun h' hsegs hhead => ih h' (by omega)
    refine .step rfl (.step (if_pos rfl) (.step rfl ?_))
    by_cases hd : sh.deq sh.head ≥ sh.enq sh.head
    · refine .step (if_pos hd) ?_
      rcases h.next with ⟨hnext, -⟩ | ⟨hnext, -, hK⟩
      · have hs : manyStep K sh (.nextLoad sh.head) = some (sh, .done none) := by
          simp only [manyStep, hnext]
        exact .step hs (.here ⟨h, _, rfl⟩)
      · have hs : manyStep K sh (.nextLoad sh.head) = some (sh, .claim sh.head) := by
          simp only [manyStep, hnext]
        exact .step hs (hclaim (.inr hK))
    · exact .step (if_neg hd) (hclaim (.inl (by omega)))

/-! ## A pop of the queue for one consumer -/

def PoppedOne (K : Nat) (sh : Shared α) (l : OneLoc α) : Prop := Tidy K sh ∧ ∃ v, l = .done v

/-- An empty cell at the head is the end of the queue. -/
theorem reaches_goAhead (hi : i < K) (hempty : sh.state sh.head i = .empty)
    (hd : sh.deq sh.head ≤ i) :
    Reaches (oneStep K) (PoppedOne K) (goAhead sh sh.head i).1 (goAhead sh sh.head i).2 := by
  have henq : sh.enq sh.head ≤ i := by
    by_contra hlt
    have := (h.cell hi hd (by omega)).1
    rw [hempty] at this
    cases this
  have hg : goAhead sh sh.head i =
      (sh.setOne { sh.one with walk := (sh.head, i) }, .enq sh.head i) := by
    simp [goAhead, popAhead, h.filled.holes]
  rw [hg]
  have h' : Tidy K (sh.setOne { sh.one with walk := (sh.head, i) }) := h.setOne h.filled.holes
  have hend : ¬ i < min (sh.enq sh.head) K := by omega
  have hlast : sh.enq sh.head ≤ K := by omega
  have he : endWalk K (sh.setOne { sh.one with walk := (sh.head, i) }) sh.head i (sh.enq sh.head) =
      (sh.setOne { sh.one with walk := (sh.head, i), streaming := false }, .done none) :=
        if_pos hlast
  have hs : oneStep K (sh.setOne { sh.one with walk := (sh.head, i) }) (.enq sh.head i) =
      some (sh.setOne { sh.one with walk := (sh.head, i), streaming := false }, .done none) :=
    (if_neg hend).trans (congrArg some he)
  exact .step hs (.here ⟨h.setOne h.filled.holes, _, rfl⟩)

/-- A consumer that has just popped looks at an empty cell a few times. -/
theorem reaches_spin (hi : i < K) (hempty : sh.state sh.head i = .empty) (hd : sh.deq sh.head ≤ i) :
    Reaches (oneStep K) (PoppedOne K) sh (.spin sh.head i n) := by
  have hfull : sh.state sh.head i ≠ .full := by rw [hempty]; nofun
  obtain ⟨m, hm⟩ : ∃ m, 4 - n = m := ⟨_, rfl⟩
  induction m generalizing n with
  | zero =>
    refine .step ((if_neg ?_).trans (if_neg hfull)) (reaches_goAhead h hi hempty hd)
    omega
  | succ m ih =>
    by_cases hn : n + 1 < 4
    · exact .step (if_pos ⟨hempty, hn⟩) (ih (by omega))
    · exact .step ((if_neg (by tauto)).trans (if_neg hfull)) (reaches_goAhead h hi hempty hd)

/-- A pop by the only thread ends. -/
theorem reaches_head : Reaches (oneStep K) (PoppedOne K) sh .head := by
  obtain ⟨n, hn⟩ : ∃ n, sh.segs - sh.head = n := ⟨_, rfl⟩
  induction n generalizing sh with
  | zero => have := h.filled.chain.head_lt; omega
  | succ n ih =>
    refine .step rfl ?_
    by_cases hd : sh.deq sh.head ≥ K
    · refine .step (if_pos hd) ?_
      rcases h.next with ⟨hnext, -⟩ | ⟨hnext, hlt, -⟩
      · have hs : oneStep K sh (.next sh.head) = some (sh, .done none) := by
          simp only [oneStep, hnext]
        exact .step hs (.here ⟨h, _, rfl⟩)
      · have hs : oneStep K sh (.next sh.head) = some (sh, .advTail sh.head (sh.head + 1)) := by
          simp only [oneStep, hnext]
        have htail : oneStep K sh (.advTail sh.head (sh.head + 1)) =
            some (sh, .advHead sh.head (sh.head + 1)) := by
          simp only [oneStep, h.casTail hlt]
        refine .step hs (.step htail (.step rfl (ih (h.setHead hlt hd) ?_)))
        show sh.segs - (sh.head + 1) = n
        omega
    · have hi : sh.deq sh.head < K := by omega
      refine .step (if_neg hd) ?_
      by_cases he : sh.deq sh.head < sh.enq sh.head
      · obtain ⟨hfull, v, hv⟩ := h.cell hi le_rfl he
        have hs : oneStep K sh (.state sh.head (sh.deq sh.head)) =
            some (sh, .take sh.head (sh.deq sh.head)) := by
          simp [oneStep, hfull, h.filled.holes]
        refine .step hs (.step (congrArg (Option.map _) hv) (.step rfl (.here ⟨?_, _, rfl⟩)))
        have h1 := (h.setDeq (Nat.le_succ (sh.deq sh.head))).clear (s := sh.head)
          (i := sh.deq sh.head) (by simp [Shared.setDeq])
        exact h1.setOne h.filled.holes
      · have hempty : sh.state sh.head (sh.deq sh.head) = .empty := by
          refine h.filled.empty _ _ (.inr ?_)
          rcases h.next with ⟨hnext, -⟩ | ⟨-, -, hK⟩
          · have h1 := h.filled.chain.next_eq_none h.filled.chain.head_lt hnext
            have h2 := h.filled.tail
            obtain heq : sh.head = sh.tail := by omega
            exact ⟨heq, heq ▸ by omega⟩
          · omega
        cases hst : sh.one.streaming with
        | true =>
          have hs : oneStep K sh (.state sh.head (sh.deq sh.head)) =
              some (sh, .spin sh.head (sh.deq sh.head) 0) := by
            simp [oneStep, hempty, h.filled.holes, hst]
          exact .step hs (reaches_spin h hi hempty le_rfl)
        | false =>
          have hs : oneStep K sh (.state sh.head (sh.deq sh.head)) =
              some (goAhead sh sh.head (sh.deq sh.head)) := by
            simp [oneStep, hempty, hst]
          exact .step hs (reaches_goAhead h hi hempty le_rfl)

end

/-! ## The two queues -/

section Machines

variable {Tid : Type} {t : Tid} {ch : Nat → Unit} {k : Nat}

/-- Every call of the queue for many consumers comes to its end. -/
theorem many_ends (hK : 0 < K) (h : Tidy K sh) (c : Call α) :
    (manyMachine α Tid K).Ends t ch (Tidy K) k sh ((manyMachine α Tid K).start c) := by
  cases c with
  | push vs =>
    refine .of_reaches (g := Loc.push) ?_ ?_ (reaches_loop true hK h)
    · intro sh l sh' l' hs
      refine ⟨?_, fun c => congrArg (Option.map _) hs⟩
      cases l with
      | done k => cases hs
      | _ => rfl
    · rintro k sh l ⟨ht, n, rfl⟩
      exact .answer rfl ht
  | pop =>
    refine .of_reaches (g := Loc.pop) ?_ ?_ (reaches_load h)
    · intro sh l sh' l' hs
      refine ⟨?_, fun c => congrArg (Option.map _) hs⟩
      cases l with
      | done v => cases hs
      | _ => rfl
    · rintro k sh l ⟨ht, v, rfl⟩
      exact .answer rfl ht

/-- Every call of the queue for one consumer comes to its end. -/
theorem one_ends (hK : 0 < K) {cons : Tid} (h : Tidy K sh) (c : Call α) :
    (oneMachine α K cons).Ends t ch (Tidy K) k sh ((oneMachine α K cons).start c) := by
  cases c with
  | push vs =>
    refine .of_reaches (g := LocOne.push) ?_ ?_ (reaches_loop false hK h)
    · intro sh l sh' l' hs
      refine ⟨?_, fun c => congrArg (Option.map _) hs⟩
      cases l with
      | done k => cases hs
      | _ => rfl
    · rintro k sh l ⟨ht, n, rfl⟩
      exact .answer rfl ht
  | pop =>
    refine .of_reaches (g := LocOne.pop) ?_ ?_ (reaches_head h)
    · intro sh l sh' l' hs
      refine ⟨?_, fun c => congrArg (Option.map _) hs⟩
      cases l with
      | done v => cases hs
      | _ => rfl
    · rintro k sh l ⟨ht, v, rfl⟩
      exact .answer rfl ht

end Machines

end Wtc.Segment
