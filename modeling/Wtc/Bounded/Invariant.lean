import Wtc.Bounded.Model

/-!
# What holds of the bounded ring

The ghost beside a run: the atomic queue, every element ever put in by the number of its ticket,
and the tickets as numbers that do not wrap: the sequence number of each cell, the threads that
hold a ticket they have not finished with, and the count that `tail_seen_` is the word of.

Element `n` is the one of push ticket `n`, and pop ticket `n` takes it out, so the atomic queue
holds the elements from `popped` to `pushed`.
-/

namespace Wtc.Bounded

open Wtc.Concurrent

variable {α Tid : Type}

/-- `built` marks the push tickets whose element is in its cell and not yet announced, `gone` the
pop tickets whose element is out of its cell, which is not yet free. `seen` is `tail_seen_`, and
`mark` the pops taken when it was last written. -/
structure Ghost (Tid α : Type) where
  abs : Atomic.State Tid (BoundedOp α) (BoundedAns α) (List α)
  elems : List α
  rs : Nat → Nat
  holdP : Nat → Option Tid
  holdC : Nat → Option Tid
  built : Nat → Bool
  gone : Nat → Bool
  seen : Nat
  mark : Nat

/-- Before any call. -/
def Ghost.init (cap : Nat) : Ghost Tid α where
  abs := Atomic.init (bounded α cap)
  elems := []
  rs := id
  holdP _ := none
  holdC _ := none
  built _ := false
  gone _ := false
  seen := 0
  mark := 0

/-! ## The shared state -/

/-- The cells of a ring of `R`. A ticket taken is held until its cell has moved on. -/
structure Cells (R : Nat) (sh : Shared α) (w : Ghost Tid α) : Prop where
  seq : ∀ j, j < R → sh.seq j = word (w.rs j)
  lap : ∀ j, j < R → ∃ n, n % R = j ∧ (w.rs j = n ∨ w.rs j = n + 1)
  free_lt : ∀ n, w.rs (n % R) = n → n < sh.popped + R
  full_lt : ∀ n, w.rs (n % R) = n + 1 → n < sh.pushed
  heldP : ∀ n u, w.holdP n = some u → n < sh.pushed ∧ w.rs (n % R) ≤ n
  heldC : ∀ n u, w.holdC n = some u → n < sh.popped ∧ w.rs (n % R) ≤ n + 1
  doneP : ∀ n, n < sh.pushed → w.holdP n = none → n + 1 ≤ w.rs (n % R)
  doneC : ∀ n, n < sh.popped → w.holdC n = none → n + R ≤ w.rs (n % R)
  empty : ∀ n, w.rs (n % R) = n → sh.raw (n % R) = if w.built n then w.elems[n]? else none
  full : ∀ n, w.rs (n % R) = n + 1 → sh.raw (n % R) = if w.gone n then none else w.elems[n]?
  built_held : ∀ n, w.built n = true → w.holdP n ≠ none ∧ w.rs (n % R) = n
  gone_held : ∀ n, w.gone n = true → w.holdC n ≠ none ∧ w.rs (n % R) = n + 1

/-- The words of the split layout. A pop that decides by `tail_seen_` must not find it half a turn
behind `head`; `popped_le_mark` is why it does not. -/
structure Split (sh : Shared α) (w : Ghost Tid α) : Prop where
  head : sh.head = word sh.popped
  tail : sh.tail = word sh.pushed
  tailSeen : sh.tailSeen = word w.seen
  seen_le : w.seen ≤ sh.pushed
  mark_le : w.mark ≤ sh.popped
  mark_lt : w.mark < w.seen + 2 ^ 31
  popped_le_mark : sh.popped ≤ w.mark + 1 ∨ sh.popped ≤ w.seen

/-- What holds of the shared state. -/
structure G (cfg : Cfg) (sh : Shared α) (w : Ghost Tid α) : Prop where
  cells : Cells (ringSize cfg.capacity) sh w
  popped_le : sh.popped ≤ sh.pushed
  pushed_le : sh.pushed ≤ sh.popped + cfg.capacity
  elems : w.elems.length = sh.pushed
  queue : w.abs.obj = w.elems.drop sh.popped
  state : cfg.packed = true → sh.state = pack (word sh.popped) (word sh.pushed)
  split : cfg.packed = false → Split sh w

/-! ## The threads -/

/-- How many push tickets an operation holds. -/
def Loc.pushes : Loc α → Nat
  | .fill _ _ vs _ | .build _ _ vs _ | .publish _ _ vs _ => vs.length
  | .take _ _ _ _ (.overrun _ _) | .read _ _ _ _ (.overrun _ _) => 1
  | .destroy _ _ _ _ (.overrun _ _) | .release _ _ _ _ (.overrun _ _) => 1
  | .count _ _ _ => 1
  | _ => 0

/-- How many pop tickets an operation holds. -/
def Loc.pops : Loc α → Nat
  | .take _ _ k _ _ | .read _ _ k _ _ | .destroy _ _ k _ _ | .release _ _ k _ _ => k
  | _ => 0

/-- The element of the first push ticket held is in its cell. -/
def Loc.building : Loc α → Bool
  | .publish _ _ _ _ => true
  | _ => false

/-- The element of the first pop ticket held is out of its cell. -/
def Loc.emptied : Loc α → Bool
  | .release _ _ _ _ _ => true
  | _ => false

/-- Thread `u` holds the `np` push tickets from `p` on and the `nc` pop tickets from `c` on. -/
structure Holds (w : Ghost Tid α) (u : Tid) (p np c nc : Nat) (building emptied : Bool) :
    Prop where
  holdP : ∀ n, w.holdP n = some u ↔ p ≤ n ∧ n < p + np
  holdC : ∀ n, w.holdC n = some u ↔ c ≤ n ∧ n < c + nc
  built : ∀ n, w.holdP n = some u → (w.built n = true ↔ building = true ∧ n = p)
  gone : ∀ n, w.holdC n = some u → (w.gone n = true ↔ emptied = true ∧ n = c)

/-- The answer of an operation whose elements are `xs`. -/
def Then.ans (xs : List α) : Then α → BoundedAns α
  | .one => .popped xs.head?
  | .batch => .poppedN xs
  | .overrun _ _ => .overran true

/-- An overrunning push has its own ticket and element in hand. -/
def Then.own (w : Ghost Tid α) (p : Nat) : Then α → Prop
  | .overrun t v => t = word p ∧ [v] <+: w.elems.drop p
  | _ => True

/-- A stamp from the past. -/
def Past (sh : Shared α) (first : Option Stamp) : Prop :=
  ∀ st, first = some st → st.pushed ≤ sh.pushed ∧ st.popped ≤ sh.popped

/-- The word `t` is that of the count `n`, read from `tail` by thread `u`. -/
def ReadTail (cfg : Cfg) (prod u : Tid) (sh : Shared α) (st : Stamp) (t : BitVec 32) (n : Nat) :
    Prop :=
  t = word n ∧ st.pushed ≤ n ∧ n ≤ sh.pushed ∧ cfg.packed = false ∧
    (cfg.mp = false → u = prod ∧ n = sh.pushed) ∧ st.popped ≤ sh.popped

/-- The word `h` is that of the count `m`, read from `head` by thread `u`. -/
def ReadHead (sh : Shared α) (st : Stamp) (h : BitVec 32) (m : Nat) : Prop :=
  h = word m ∧ st.popped ≤ m ∧ m ≤ sh.popped ∧ st.pushed ≤ sh.pushed

/-- A pop on the split layout that has read the count `m` from `head`. -/
def PopHead (cfg : Cfg) (cons u : Tid) (sh : Shared α) (st : Stamp) (h : BitVec 32) (m : Nat) :
    Prop :=
  ReadHead sh st h m ∧ cfg.packed = false ∧ (cfg.mc = false → u = cons ∧ m = sh.popped)

/-- A packed operation is of a kind that reads the word. -/
def Call.reads (cfg : Cfg) : Call α → Prop
  | .pushOverrun _ => cfg.capacity ≠ 0 ∧ cfg.overrun = true
  | .tryPushN vs => vs ≠ []
  | .consumeN n => n ≠ 0
  | _ => True

/-- The elements `vs` are those of the push tickets from `p` on, and `t` is the word of `p`. -/
def Filling (w : Ghost Tid α) (u : Tid) (t : BitVec 32) (vs : List α) (ans : BoundedAns α)
    (p : Nat) : Prop :=
  w.abs.Pend u [] [ans] ∧ t = word p ∧ vs ≠ [] ∧ vs <+: w.elems.drop p

/-- The elements of the pop tickets from `c` on complete the answer, and `h` is the word of `c`. -/
def Taking (w : Ghost Tid α) (u : Tid) (h : BitVec 32) (k : Nat) (got : List α) (e : Then α)
    (p c : Nat) : Prop :=
  h = word c ∧ e.own w p ∧ ∃ x xs, xs.length + 1 = k ∧ x :: xs <+: w.elems.drop c ∧
    w.abs.Pend u [] [e.ans (got ++ x :: xs)]

/-- The same with the first of the elements already got. -/
def Taken (w : Ghost Tid α) (u : Tid) (h : BitVec 32) (k : Nat) (got : List α) (e : Then α)
    (p c : Nat) : Prop :=
  h = word c ∧ e.own w p ∧ ∃ xs, xs.length + 1 = k ∧ xs <+: w.elems.drop (c + 1) ∧
    w.abs.Pend u [] [e.ans (got ++ xs)]

/-- What a thread relies on at its location, where it holds the tickets from `p` and `c` on. -/
def Facts (cfg : Cfg) (prod cons u : Tid) (sh : Shared α) (w : Ghost Tid α) (p c : Nat) :
    Loc α → Prop
  | .pushTail v first => w.abs.Pend u [.push v] [] ∧ Past sh first ∧ cfg.packed = false ∧
      (cfg.mp = false → u = prod)
  | .pushHead v st t => w.abs.Pend u [.push v] [] ∧ ∃ n, ReadTail cfg prod u sh st t n
  | .pushAgain v st t => ∃ n seen, w.abs.pend u = some ⟨[.push v], [], seen⟩ ∧
      ReadTail cfg prod u sh st t n ∧ (sh.pushed = n → seen (.pushed false))
  | .pushClaim v st t => w.abs.Pend u [.push v] [] ∧ ∃ n, ReadTail cfg prod u sh st t n ∧
      (sh.pushed = n → n < sh.popped + cfg.capacity)
  | .popHead first => w.abs.Pend u [.pop] [] ∧ Past sh first ∧ cfg.packed = false ∧
      (cfg.mc = false → u = cons)
  | .popSeen st h => w.abs.Pend u [.pop] [] ∧ ∃ m, PopHead cfg cons u sh st h m
  | .popTail st h => w.abs.Pend u [.pop] [] ∧ ∃ m, PopHead cfg cons u sh st h m
  | .popStore st h t => ∃ m n seen, w.abs.pend u = some ⟨[.pop], [], seen⟩ ∧
      PopHead cfg cons u sh st h m ∧ t = word n ∧ m ≤ n ∧ n < m + 2 ^ 32 ∧ n ≤ sh.pushed ∧
      (m = n → seen (.popped none))
  | .popClaim st h => w.abs.Pend u [.pop] [] ∧ ∃ m, PopHead cfg cons u sh st h m ∧
      m < sh.pushed ∧ (m ≤ w.mark ∨ m < w.seen)
  | .sizeHead first => w.abs.Pend u [.size] [] ∧ Past sh first ∧ cfg.packed = false
  | .sizeTail st h => w.abs.Pend u [.size] [] ∧ cfg.packed = false ∧ ∃ m, ReadHead sh st h m
  | .sizeAgain st h t => ∃ m seen, w.abs.pend u = some ⟨[.size], [], seen⟩ ∧
      cfg.packed = false ∧ ReadHead sh st h m ∧ (sh.popped = m → seen (.size (t - h).toNat))
  | .load op => w.abs.Pend u [op.op] [] ∧ cfg.packed = true ∧ op.reads cfg ∧
      op.allowed cfg prod cons u
  | .swap op s => w.abs.Pend u [op.op] [] ∧ cfg.packed = true ∧ op.reads cfg ∧
      op.allowed cfg prod cons u ∧ ∃ pl, plan cfg s op = .ok pl
  | .fill _ t vs ans => Filling w u t vs ans p
  | .build _ t vs ans => Filling w u t vs ans p ∧ w.rs (p % ringSize cfg.capacity) = p
  | .publish _ t vs ans => Filling w u t vs ans p ∧ w.rs (p % ringSize cfg.capacity) = p
  | .take _ h k got e => Taking w u h k got e p c
  | .read _ h k got e => Taking w u h k got e p c ∧ w.rs (c % ringSize cfg.capacity) = c + 1
  | .destroy _ h k got e => Taken w u h k got e p c ∧ w.rs (c % ringSize cfg.capacity) = c + 1
  | .release _ h k got e => Taken w u h k got e p c ∧ w.rs (c % ringSize cfg.capacity) = c + 1
  | .count _ t v => Filling w u t [v] (.overran true) p
  | .drop => cfg.capacity = 0 ∧ ∃ v, w.abs.Pend u [.overrun v] []
  | .nothing ans => ∃ op, w.abs.Pend u [op] [] ∧
      ∀ q, q.length ≤ cfg.capacity → boundedStep cfg.capacity q op = (ans, q)
  | .abort => True
  | .done ans => w.abs.Pend u [] [ans]

/-- What a thread relies on. The stamp of an operation is hardly later than its tickets. -/
def L (cfg : Cfg) (prod cons u : Tid) (sh : Shared α) (w : Ghost Tid α) :
    Option (Loc α) → Prop
  | none => w.abs.pend u = none ∧ Holds w u 0 0 0 0 false false
  | some l => ∃ p c, Holds w u p l.pushes c l.pops l.building l.emptied ∧
      (∀ st, l.stamp = some st → (0 < l.pushes → st.pushed ≤ p + 2 ^ 30) ∧
        (0 < l.pops → st.popped ≤ c + 2 ^ 30)) ∧
      Facts cfg prod cons u sh w p c l

/-- What a step of thread `t` may change, seen by the others. -/
structure Rely (cfg : Cfg) (prod cons t : Tid) (sh : Shared α) (w : Ghost Tid α)
    (sh' : Shared α) (w' : Ghost Tid α) : Prop where
  pend : ∀ u, u ≠ t → w'.abs.pend u = w.abs.pend u
  pushed : sh.pushed ≤ sh'.pushed
  popped : sh.popped ≤ sh'.popped
  holdP : ∀ n u, u ≠ t → (w'.holdP n = some u ↔ w.holdP n = some u)
  holdC : ∀ n u, u ≠ t → (w'.holdC n = some u ↔ w.holdC n = some u)
  built : ∀ n u, u ≠ t → w.holdP n = some u → w'.built n = w.built n
  gone : ∀ n u, u ≠ t → w.holdC n = some u → w'.gone n = w.gone n
  rsP : ∀ n u, u ≠ t → w.holdP n = some u → w.rs (n % ringSize cfg.capacity) = n →
    w'.rs (n % ringSize cfg.capacity) = n
  rsC : ∀ n u, u ≠ t → w.holdC n = some u → w.rs (n % ringSize cfg.capacity) = n + 1 →
    w'.rs (n % ringSize cfg.capacity) = n + 1
  elems : w.elems <+: w'.elems
  mark : (w'.mark = w.mark ∧ w'.seen = w.seen) ∨ w'.mark = sh'.popped
  prod : cfg.mp = false → t ≠ prod → sh'.pushed = sh.pushed
  cons : cfg.mc = false → t ≠ cons → sh'.popped = sh.popped

theorem Rely.refl (cfg : Cfg) (prod cons t : Tid) (sh : Shared α) (w : Ghost Tid α) :
    Rely cfg prod cons t sh w sh w :=
  ⟨fun _ _ => rfl, le_rfl, le_rfl, fun _ _ _ => Iff.rfl, fun _ _ _ => Iff.rfl,
    fun _ _ _ _ => rfl, fun _ _ _ _ => rfl, fun _ _ _ _ h => h, fun _ _ _ _ h => h,
    List.prefix_rfl, Or.inl ⟨rfl, rfl⟩, fun _ _ => rfl, fun _ _ => rfl⟩

/-! ## Stability -/

section Stable

variable {cfg : Cfg} {prod cons t u : Tid} {sh sh' : Shared α} {w w' : Ghost Tid α}

variable {c p m k : Nat} {x : BitVec 32}

theorem Holds.stable {np nc : Nat} {building emptied : Bool} (hu : u ≠ t)
    (hr : Rely cfg prod cons t sh w sh' w') (h : Holds w u p np c nc building emptied) :
    Holds w' u p np c nc building emptied := by
  refine ⟨fun n => (hr.holdP n u hu).trans (h.holdP n),
    fun n => (hr.holdC n u hu).trans (h.holdC n), fun n hn => ?_, fun n hn => ?_⟩
  · have hn' := (hr.holdP n u hu).mp hn
    rw [hr.built n u hu hn']
    exact h.built n hn'
  · have hn' := (hr.holdC n u hu).mp hn
    rw [hr.gone n u hu hn']
    exact h.gone n hn'

theorem Past.stable {first : Option Stamp} (hr : Rely cfg prod cons t sh w sh' w')
    (h : Past sh first) : Past sh' first :=
  fun st hst => ⟨(h st hst).1.trans hr.pushed, (h st hst).2.trans hr.popped⟩

theorem ReadTail.stable {st : Stamp} {n : Nat} (hu : u ≠ t)
    (hr : Rely cfg prod cons t sh w sh' w') (h : ReadTail cfg prod u sh st x n) :
    ReadTail cfg prod u sh' st x n := by
  obtain ⟨h1, h2, h3, h4, h5, h6⟩ := h
  refine ⟨h1, h2, h3.trans hr.pushed, h4, fun hm => ?_, h6.trans hr.popped⟩
  obtain ⟨hp, hn⟩ := h5 hm
  exact ⟨hp, by rw [hr.prod hm (fun ht => hu (hp.trans ht.symm)), hn]⟩

theorem ReadHead.stable {st : Stamp} (hr : Rely cfg prod cons t sh w sh' w')
    (h : ReadHead sh st x m) : ReadHead sh' st x m :=
  ⟨h.1, h.2.1, h.2.2.1.trans hr.popped, h.2.2.2.trans hr.pushed⟩

theorem PopHead.stable {st : Stamp} (hu : u ≠ t) (hr : Rely cfg prod cons t sh w sh' w')
    (h : PopHead cfg cons u sh st x m) : PopHead cfg cons u sh' st x m := by
  refine ⟨h.1.stable hr, h.2.1, fun hm => ?_⟩
  obtain ⟨hp, hn⟩ := h.2.2 hm
  exact ⟨hp, by rw [hr.cons hm (fun ht => hu (hp.trans ht.symm)), hn]⟩

theorem drop_prefix_drop {l l' : List α} (h : l <+: l') (n : Nat) : l.drop n <+: l'.drop n := by
  obtain ⟨more, rfl⟩ := h
  rw [List.drop_append]
  exact List.prefix_append _ _

theorem Then.own.stable {e : Then α} (hr : Rely cfg prod cons t sh w sh' w') (h : e.own w p) :
    e.own w' p := by
  cases e with
  | one | batch => trivial
  | overrun x v => exact ⟨h.1, h.2.trans (drop_prefix_drop hr.elems p)⟩

theorem Filling.stable {vs : List α} {ans : BoundedAns α} (hu : u ≠ t)
    (hr : Rely cfg prod cons t sh w sh' w') (h : Filling w u x vs ans p) :
    Filling w' u x vs ans p :=
  ⟨h.1.of_eq (hr.pend u hu), h.2.1, h.2.2.1, h.2.2.2.trans (drop_prefix_drop hr.elems p)⟩

theorem Taking.stable {got : List α} {e : Then α} (hu : u ≠ t)
    (hr : Rely cfg prod cons t sh w sh' w') (h : Taking w u x k got e p c) :
    Taking w' u x k got e p c := by
  obtain ⟨h1, h2, y, ys, h3, h4, h5⟩ := h
  exact ⟨h1, h2.stable hr, y, ys, h3, h4.trans (drop_prefix_drop hr.elems c),
    h5.of_eq (hr.pend u hu)⟩

theorem Taken.stable {got : List α} {e : Then α} (hu : u ≠ t)
    (hr : Rely cfg prod cons t sh w sh' w') (h : Taken w u x k got e p c) :
    Taken w' u x k got e p c := by
  obtain ⟨h1, h2, ys, h3, h4, h5⟩ := h
  exact ⟨h1, h2.stable hr, ys, h3, h4.trans (drop_prefix_drop hr.elems (c + 1)),
    h5.of_eq (hr.pend u hu)⟩

/-- What a thread relies on at its location survives the steps of the others. -/
theorem Facts.stable {l : Loc α} (hu : u ≠ t) (hr : Rely cfg prod cons t sh w sh' w')
    (hh : Holds w u p l.pushes c l.pops l.building l.emptied)
    (h : Facts cfg prod cons u sh w p c l) : Facts cfg prod cons u sh' w' p c l := by
  have hpend := hr.pend u hu
  have hpushed := hr.pushed
  have hpopped := hr.popped
  have hrsC : ∀ {k}, l.pops = k + 1 → w.rs (c % ringSize cfg.capacity) = c + 1 →
      w'.rs (c % ringSize cfg.capacity) = c + 1 := by
    intro k hk hrs
    exact hr.rsC c u hu ((hh.holdC c).mpr ⟨le_rfl, by omega⟩) hrs
  have hrsP : 0 < l.pushes → w.rs (p % ringSize cfg.capacity) = p →
      w'.rs (p % ringSize cfg.capacity) = p := by
    intro hk hrs
    exact hr.rsP p u hu ((hh.holdP p).mpr ⟨le_rfl, by omega⟩) hrs
  cases l with
  | pushTail v first | popHead first | sizeHead first =>
    exact ⟨h.1.of_eq hpend, h.2.1.stable hr, h.2.2⟩
  | pushHead v st x =>
    obtain ⟨h1, n, h2⟩ := h
    exact ⟨h1.of_eq hpend, n, h2.stable hu hr⟩
  | pushAgain v st x =>
    obtain ⟨n, seen, h1, h2, h3⟩ := h
    refine ⟨n, seen, hpend.trans h1, h2.stable hu hr, fun hn => h3 ?_⟩
    have := h2.2.2.1
    omega
  | pushClaim v st x =>
    obtain ⟨h1, n, h2, h3⟩ := h
    refine ⟨h1.of_eq hpend, n, h2.stable hu hr, fun hn => ?_⟩
    have := h2.2.2.1
    have := h3 (by omega)
    omega
  | popSeen st x | popTail st x =>
    obtain ⟨h1, m, h2⟩ := h
    exact ⟨h1.of_eq hpend, m, h2.stable hu hr⟩
  | popStore st x y =>
    obtain ⟨m, n, seen, h1, h2, h3, h4, h5, h6, h7⟩ := h
    exact ⟨m, n, seen, hpend.trans h1, h2.stable hu hr, h3, h4, h5, h6.trans hpushed, h7⟩
  | popClaim st x =>
    obtain ⟨h1, m, h2, h3, h4⟩ := h
    refine ⟨h1.of_eq hpend, m, h2.stable hu hr, h3.trans_le hpushed, ?_⟩
    rcases hr.mark with ⟨hm, hs⟩ | hm
    · rwa [hm, hs]
    · have := h2.1.2.2.1
      omega
  | sizeTail st x =>
    obtain ⟨h1, h2, m, h3⟩ := h
    exact ⟨h1.of_eq hpend, h2, m, h3.stable hr⟩
  | sizeAgain st x y =>
    obtain ⟨m, seen, h1, h2, h3, h4⟩ := h
    refine ⟨m, seen, hpend.trans h1, h2, h3.stable hr, fun hm => h4 ?_⟩
    have := h3.2.2.1
    omega
  | load op | swap op s => exact ⟨h.1.of_eq hpend, h.2⟩
  | fill st x vs ans | count st x v => exact Filling.stable hu hr h
  | build st x vs ans | publish st x vs ans =>
    exact ⟨h.1.stable hu hr, hrsP (List.length_pos_iff.mpr h.1.2.2.1) h.2⟩
  | take st x k got e => exact Taking.stable hu hr h
  | read st x k got e =>
    obtain ⟨h1, h2⟩ := h
    obtain ⟨-, -, y, ys, hk, -⟩ := id h1
    exact ⟨h1.stable hu hr, hrsC hk.symm h2⟩
  | destroy st x k got e | release st x k got e =>
    obtain ⟨h1, h2⟩ := h
    obtain ⟨-, -, ys, hk, -⟩ := id h1
    exact ⟨h1.stable hu hr, hrsC hk.symm h2⟩
  | drop =>
    obtain ⟨h1, v, h2⟩ := h
    exact ⟨h1, v, h2.of_eq hpend⟩
  | nothing ans =>
    obtain ⟨op, h1, h2⟩ := h
    exact ⟨op, h1.of_eq hpend, h2⟩
  | abort => trivial
  | done ans => exact h.of_eq hpend

theorem L.stable {x : Option (Loc α)} (hu : u ≠ t) (hr : Rely cfg prod cons t sh w sh' w')
    (h : L cfg prod cons u sh w x) : L cfg prod cons u sh' w' x := by
  cases x with
  | none => exact ⟨(hr.pend u hu).trans h.1, h.2.stable hu hr⟩
  | some l =>
    obtain ⟨p, c, h1, h2, h3⟩ := h
    exact ⟨p, c, h1.stable hu hr, h2, h3.stable hu hr h1⟩

end Stable

end Wtc.Bounded
