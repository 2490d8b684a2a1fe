import Mathlib.Tactic

/-!
# The caller's ring

The model of `own_ring`: the ring of pointers that a thread keeps for itself and hands to the
batched operations. Its indices are `int`s, its number of slots an `unsigned long`; the arithmetic
is that of the source, modulo the words.

* `contents` — the elements in the ring, oldest first
* `contents_remove`, `contents_insert` — the operations on the ring, as operations on the contents
-/

namespace Wtc.CQueue

variable {P : Type}

/-- A ring as the program keeps it: both indices name a slot, and an `int` can. -/
structure OwnRing (P : Type) where
  data : Nat → P
  inp : BitVec 32
  out : BitVec 32
  slots : BitVec 64
  slots_le : slots.toNat ≤ 2 ^ 31
  inp_lt : inp.toNat < slots.toNat
  out_lt : out.toNat < slots.toNat

/-! ## The arithmetic of the indices -/

/-- `static_cast<int>((static_cast<unsigned long>(i) + 1) % slots)`. -/
def next (slots : BitVec 64) (i : BitVec 32) : BitVec 32 :=
  ((i.signExtend 64 + 1) % slots).setWidth 32

/-- An index is not negative, so it keeps its value as an `unsigned long`. -/
theorem signExtend_toNat {i : BitVec 32} (h : i.toNat < 2 ^ 31) :
    (i.signExtend 64).toNat = i.toNat := by
  have hm : i.msb = false := by
    rw [BitVec.msb_eq_false_iff_two_mul_lt]
    omega
  rw [BitVec.signExtend_eq_setWidth_of_msb_false hm, BitVec.toNat_setWidth]
  omega

theorem next_toNat {slots : BitVec 64} {i : BitVec 32} (hs : slots.toNat ≤ 2 ^ 31)
    (hi : i.toNat < slots.toNat) : (next slots i).toNat = (i.toNat + 1) % slots.toNat := by
  have hlt : (i.toNat + 1) % slots.toNat < slots.toNat := Nat.mod_lt _ (by omega)
  have hadd : (i.signExtend 64 + 1).toNat = i.toNat + 1 := by
    rw [BitVec.toNat_add, signExtend_toNat (by omega)]
    simp
    omega
  rw [next, BitVec.toNat_setWidth, BitVec.toNat_umod, hadd]
  omega

/-- A sum that goes round at most once. -/
theorem mod_cases {a n : Nat} (h : a < 2 * n) : a < n ∧ a % n = a ∨ n ≤ a ∧ a % n = a - n := by
  rcases Nat.lt_or_ge a n with hlt | hge
  · exact .inl ⟨hlt, Nat.mod_eq_of_lt hlt⟩
  · refine .inr ⟨hge, ?_⟩
    rw [Nat.mod_eq_sub_mod hge, Nat.mod_eq_of_lt (by omega)]

namespace OwnRing

/-! ## The operations -/

def count (r : OwnRing P) : BitVec 64 :=
  (r.inp.signExtend 64 + r.slots - r.out.signExtend 64) % r.slots

def room (r : OwnRing P) : BitVec 64 := r.slots - 1 - r.count

def insert (r : OwnRing P) (v : P) : OwnRing P :=
  { r with
    data := Function.update r.data r.inp.toNat v
    inp := next r.slots r.inp
    inp_lt := by
      have := r.inp_lt
      rw [next_toNat r.slots_le r.inp_lt]
      exact Nat.mod_lt _ (by omega) }

def remove (r : OwnRing P) : P × OwnRing P :=
  (r.data r.out.toNat,
    { r with
      out := next r.slots r.out
      out_lt := by
        have := r.out_lt
        rw [next_toNat r.slots_le r.out_lt]
        exact Nat.mod_lt _ (by omega) })

/-- The elements that `n` calls of `remove` return, and the ring after them. -/
def removeN : Nat → OwnRing P → List P × OwnRing P
  | 0, r => ([], r)
  | n + 1, r => (r.remove.1 :: (removeN n r.remove.2).1, (removeN n r.remove.2).2)

/-- Calls of `insert` with the given elements. -/
def insertAll (r : OwnRing P) (vs : List P) : OwnRing P := vs.foldl insert r

/-! ## The contents -/

/-- The elements in the ring, oldest first. -/
def contents (r : OwnRing P) : List P :=
  (List.range r.count.toNat).map fun i => r.data ((r.out.toNat + i) % r.slots.toNat)

section

variable (r : OwnRing P)
include r

theorem count_toNat :
    r.count.toNat = (r.inp.toNat + r.slots.toNat - r.out.toNat) % r.slots.toNat := by
  have hs := r.slots_le
  have hi := r.inp_lt
  have ho := r.out_lt
  rw [count, BitVec.toNat_umod, BitVec.toNat_sub, BitVec.toNat_add, signExtend_toNat (by omega),
    signExtend_toNat (by omega)]
  congr 1
  omega

theorem count_lt : r.count.toNat < r.slots.toNat := by
  have := r.inp_lt
  rw [count_toNat]
  exact Nat.mod_lt _ (by omega)

theorem room_toNat : r.room.toNat = r.slots.toNat - 1 - r.count.toNat := by
  have := r.count_lt
  have := r.slots_le
  rw [room, BitVec.toNat_sub, BitVec.toNat_sub]
  simp
  omega

@[simp] theorem length_contents : r.contents.length = r.count.toNat := by
  simp [contents]

/-- The slot after the newest element is the next to insert at. -/
theorem out_add_count : (r.out.toNat + r.count.toNat) % r.slots.toNat = r.inp.toNat := by
  have hi := r.inp_lt
  have ho := r.out_lt
  rw [count_toNat]
  rcases mod_cases (a := r.inp.toNat + r.slots.toNat - r.out.toNat) (n := r.slots.toNat) (by omega)
    with ⟨h1, h2⟩ | ⟨h1, h2⟩ <;> rw [h2]
  · rcases mod_cases (a := r.out.toNat + (r.inp.toNat + r.slots.toNat - r.out.toNat))
      (n := r.slots.toNat) (by omega) with ⟨h3, h4⟩ | ⟨h3, h4⟩ <;> omega
  · rcases mod_cases
      (a := r.out.toNat + (r.inp.toNat + r.slots.toNat - r.out.toNat - r.slots.toNat))
      (n := r.slots.toNat) (by omega) with ⟨h3, h4⟩ | ⟨h3, h4⟩ <;> omega

/-- There is one number of elements that leads from the oldest to the slot to insert at. -/
theorem count_eq {c : Nat} (hc : c < r.slots.toNat)
    (h : (r.out.toNat + c) % r.slots.toNat = r.inp.toNat) : r.count.toNat = c := by
  have ho := r.out_lt
  have hlt := r.count_lt
  have hr := r.out_add_count
  rcases mod_cases (a := r.out.toNat + c) (n := r.slots.toNat) (by omega) with h1 | h1 <;>
    rcases mod_cases (a := r.out.toNat + r.count.toNat) (n := r.slots.toNat) (by omega)
      with h2 | h2 <;> omega

theorem count_remove (h : 0 < r.count.toNat) : r.remove.2.count.toNat = r.count.toNat - 1 := by
  have hlt := r.count_lt
  refine r.remove.2.count_eq (by show _ < r.slots.toNat; omega) ?_
  show ((next r.slots r.out).toNat + (r.count.toNat - 1)) % r.slots.toNat = r.inp.toNat
  rw [next_toNat r.slots_le r.out_lt, Nat.mod_add_mod, ← r.out_add_count]
  congr 1
  omega

theorem count_insert (v : P) (h : r.count.toNat + 1 < r.slots.toNat) :
    (r.insert v).count.toNat = r.count.toNat + 1 := by
  refine (r.insert v).count_eq h ?_
  show (r.out.toNat + (r.count.toNat + 1)) % r.slots.toNat = (next r.slots r.inp).toNat
  rw [next_toNat r.slots_le r.inp_lt, ← Nat.add_assoc, ← Nat.mod_add_mod, r.out_add_count]

/-- **`remove` takes the oldest element.** -/
theorem contents_remove (h : 0 < r.count.toNat) :
    r.contents = r.remove.1 :: r.remove.2.contents := by
  have ho := r.out_lt
  obtain ⟨n, hn⟩ := Nat.exists_eq_add_of_lt h
  unfold contents
  rw [count_remove r h, hn]
  simp only [Nat.zero_add, Nat.add_sub_cancel, List.range_succ_eq_map, List.map_cons, List.map_map,
    Nat.add_zero]
  congr 1
  · rw [Nat.mod_eq_of_lt ho]
    rfl
  · refine List.map_congr_left fun i _ => ?_
    show r.data ((r.out.toNat + (i + 1)) % r.slots.toNat) =
      r.data (((next r.slots r.out).toNat + i) % r.slots.toNat)
    rw [next_toNat r.slots_le r.out_lt, Nat.mod_add_mod]
    congr 2
    omega

/-- **`insert` appends an element, if there is room.** -/
theorem contents_insert (v : P) (h : r.count.toNat + 1 < r.slots.toNat) :
    (r.insert v).contents = r.contents ++ [v] := by
  have hr := r.out_add_count
  have ho := r.out_lt
  unfold contents
  rw [count_insert r v h, List.range_succ, List.map_append, List.map_singleton]
  congr 1
  · refine List.map_congr_left fun i hi => ?_
    rw [List.mem_range] at hi
    show Function.update r.data r.inp.toNat v ((r.out.toNat + i) % r.slots.toNat) = _
    refine Function.update_of_ne ?_ _ _
    -- a slot in use is not the one to insert at
    intro he
    exact absurd (r.count_eq (c := i) (by omega) he) (by omega)
  · show [Function.update r.data r.inp.toNat v ((r.out.toNat + r.count.toNat) % r.slots.toNat)] = _
    rw [hr, Function.update_self]

end

theorem removeN_spec (n : Nat) (r : OwnRing P) (h : n ≤ r.contents.length) :
    (removeN n r).1 = r.contents.take n ∧ (removeN n r).2.contents = r.contents.drop n ∧
      (removeN n r).2.slots = r.slots := by
  induction n generalizing r with
  | zero => exact ⟨rfl, rfl, rfl⟩
  | succ n ih =>
    rw [length_contents] at h
    have hc := r.contents_remove (by omega)
    have hr := r.count_remove (by omega)
    obtain ⟨h1, h2, h3⟩ := ih r.remove.2 (by rw [length_contents]; omega)
    rw [hc]
    exact ⟨congrArg _ h1, h2, h3⟩

theorem insertAll_spec (vs : List P) (r : OwnRing P)
    (h : r.contents.length + vs.length < r.slots.toNat) :
    (r.insertAll vs).contents = r.contents ++ vs ∧ (r.insertAll vs).slots = r.slots := by
  induction vs generalizing r with
  | nil => exact ⟨(List.append_nil _).symm, rfl⟩
  | cons v vs ih =>
    rw [length_contents, List.length_cons] at h
    have hc := r.contents_insert v (by omega)
    obtain ⟨h1, h2⟩ := ih (r.insert v) (by
      rw [hc, List.length_append, length_contents, List.length_singleton]
      show _ < r.slots.toNat
      omega)
    rw [hc, List.append_assoc] at h1
    exact ⟨h1, h2⟩

end OwnRing

end Wtc.CQueue
