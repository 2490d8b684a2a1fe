import Mathlib.Tactic

/-!
# Counters in 32-bit words

A counter that only grows is kept in a word and wraps. Two counts less than `2 ^ 32` apart are
told apart by their words, and the difference of the words is the difference of the counts.
-/

namespace Wtc.Concurrent

/-- The word of a count. -/
def word (n : Nat) : BitVec 32 := BitVec.ofNat 32 n

@[simp] theorem word_toNat (n : Nat) : (word n).toNat = n % 2 ^ 32 := BitVec.toNat_ofNat ..

theorem word_add (a b : Nat) : word (a + b) = word a + word b := BitVec.ofNat_add ..

theorem word_succ (a : Nat) : word (a + 1) = word a + 1 := word_add a 1

/-- Words tell counts apart that are less than a whole turn apart. -/
theorem word_inj {a b : Nat} (hle : a ≤ b) (hlt : b < a + 2 ^ 32) (h : word a = word b) :
    a = b := by
  have h' := congrArg BitVec.toNat h
  simp only [word_toNat] at h'
  omega

/-- The difference of the words is that of the counts. -/
theorem word_sub_toNat {a b : Nat} (hle : b ≤ a) (hlt : a < b + 2 ^ 32) :
    (word a - word b).toNat = a - b := by
  rw [BitVec.toNat_sub, word_toNat, word_toNat]
  omega

/-- A positive signed difference means that the first count is ahead, as long as it is not more
than half a turn behind. -/
theorem lt_of_word_sub_pos {a b : Nat} (hle : b ≤ a + 2 ^ 31)
    (h : ¬ (word a - word b).toInt ≤ 0) : b < a := by
  by_contra hge
  apply h
  have hnat : (word a - word b).toNat = (2 ^ 32 - (b - a)) % 2 ^ 32 := by
    rw [BitVec.toNat_sub, word_toNat, word_toNat]
    omega
  rw [BitVec.toInt_eq_toNat_cond, hnat]
  split <;> omega

/-- Masking a word takes the count modulo a power of two. -/
theorem word_and_mask {e : Nat} (he : e ≤ 32) (n : Nat) :
    (word n &&& word (2 ^ e - 1)).toNat = n % 2 ^ e := by
  have hlt : 2 ^ e - 1 < 2 ^ 32 := by
    have := Nat.pow_le_pow_right (n := 2) (by omega) he
    omega
  rw [BitVec.toNat_and, word_toNat, word_toNat, Nat.mod_eq_of_lt hlt,
    Nat.and_two_pow_sub_one_eq_mod, Nat.mod_mod_of_dvd]
  exact pow_dvd_pow 2 he

end Wtc.Concurrent
