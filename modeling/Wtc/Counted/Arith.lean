import Mathlib.Tactic
import Wtc.Counted.Model

/-!
# The limit that the emitted test compares with

A constant is read back as a signed number of 64 bits and made a constant of the bound's type again.
For a start value that the reading does not cut, the limit is not above the start value plus one
(plus nothing, for a loop that includes its bound), whatever the type, as long as that number is in
the type.
-/

namespace Wtc.Counted

/-- The greatest number of the type. -/
def IntType.max (t : IntType) : Int :=
  if t.signed then 2 ^ (t.width - 1) - 1 else 2 ^ t.width - 1

/-- The least. -/
def IntType.min (t : IntType) : Int := if t.signed then -(2 ^ t.width / 2) else 0

variable {t : IntType} {k n x : Int}

theorem two_pow_half {w : Nat} (hw : w ≠ 0) : (2 : Int) ^ w / 2 = 2 ^ (w - 1) := by
  obtain ⟨v, rfl⟩ := Nat.exists_eq_succ_of_ne_zero hw
  rw [Nat.succ_sub_one, pow_succ]
  omega

theorem bmod_le (w : Nat) (x : Int) : Int.bmod x (2 ^ w) ≤ 2 ^ (w - 1) - 1 := by
  have hlt := Int.bmod_lt (x := x) (m := 2 ^ w) (by positivity)
  rcases Nat.eq_zero_or_pos w with rfl | hw
  · simp at hlt ⊢
  · have hhalf := two_pow_half (w := w) (by omega)
    have heven : (2 : Int) ^ w = 2 * 2 ^ (w - 1) := by
      rw [← pow_succ', Nat.sub_add_cancel hw]
    push_cast at hlt
    omega

theorem le_bmod (w : Nat) (x : Int) : -(2 ^ w / 2) ≤ Int.bmod x (2 ^ w) := by
  have := Int.le_bmod (x := x) (m := 2 ^ w) (by positivity)
  push_cast at this
  exact this

theorem wrap_le_max (t : IntType) (x : Int) : t.wrap x ≤ t.max := by
  unfold IntType.wrap IntType.max
  split
  · exact bmod_le _ _
  · have := Int.emod_lt_of_pos x (b := 2 ^ t.width) (by positivity)
    omega

theorem min_le_wrap (t : IntType) (x : Int) : t.min ≤ t.wrap x := by
  unfold IntType.wrap IntType.min
  split
  · exact le_bmod _ _
  · exact Int.emod_nonneg _ (by positivity)

/-- A number of the type is kept. -/
theorem wrap_of_mem (hl : t.min ≤ x) (hu : x ≤ t.max) : t.wrap x = x := by
  unfold IntType.wrap IntType.min IntType.max at *
  split
  · next hs =>
    rw [if_pos hs] at hl hu
    apply Int.bmod_eq_of_le
    · push_cast
      exact hl
    · push_cast
      rcases Nat.eq_zero_or_pos t.width with hw | hw
      · rw [hw] at hu ⊢
        simp at hu ⊢
        omega
      · have heven : (2 : Int) ^ t.width = 2 * 2 ^ (t.width - 1) := by
          rw [← pow_succ', Nat.sub_add_cancel hw]
        omega
  · next hs =>
    rw [if_neg hs] at hl hu
    exact Int.emod_eq_of_lt hl (by omega)

/-- The number of the type depends on the bits alone. -/
theorem wrap_congr {y : Int} (h : x % 2 ^ t.width = y % 2 ^ t.width) : t.wrap x = t.wrap y := by
  unfold IntType.wrap
  split
  · rw [Int.bmod_def, Int.bmod_def]
    push_cast
    rw [h]
  · exact h

theorem wrap_emod (t : IntType) (x : Int) : t.wrap x % 2 ^ t.width = x % 2 ^ t.width := by
  unfold IntType.wrap
  split
  · exact_mod_cast Int.bmod_emod (x := x) (m := 2 ^ t.width)
  · exact Int.emod_emod_of_dvd _ (dvd_refl _)

theorem attr_le_max (t : IntType) (x : Int) : t.attr x ≤ t.max := by
  unfold IntType.attr
  split <;> exact wrap_le_max _ _

/-- The bits of a constant fit in 64. -/
def IntType.Small (t : IntType) (k : Int) : Prop := t.getSInt k = Int.bmod k (2 ^ t.width)

theorem max_le_int64 (hs : t.signed) (hw : t.width ≤ 64) : t.max ≤ int64.max := by
  unfold IntType.max
  rw [if_pos (show int64.signed from rfl), if_pos hs]
  show _ ≤ (2 : Int) ^ 63 - 1
  have hle : (2 : Int) ^ (t.width - 1) ≤ 2 ^ 63 := pow_le_pow_right₀ (by norm_num) (by omega)
  omega

/-- A signed start value is read as it is. -/
theorem getSInt_signed (hs : t.signed) (hr : t.Small k) : t.getSInt k = t.wrap k :=
  hr.trans (if_pos hs).symm

/-- A constant that is read as one is one. -/
theorem wrap_add_one (hr : t.Small k) (h : t.getSInt k = 1) (v : Int) :
    t.wrap (v + t.wrap k) = t.wrap (v + 1) := by
  apply wrap_congr
  have hone : Int.bmod k (2 ^ t.width) = 1 := hr.symm.trans h
  have hk : t.wrap k % 2 ^ t.width = 1 % 2 ^ t.width := by
    rw [wrap_emod, ← hone]
    exact_mod_cast (Int.bmod_emod (x := k) (m := 2 ^ t.width)).symm
  rw [Int.add_emod, hk, ← Int.add_emod]

theorem int64_wrap_emod (x : Int) : int64.wrap x % 2 ^ 64 = x % 2 ^ 64 := by
  show Int.bmod x (2 ^ 64) % 2 ^ 64 = _
  exact_mod_cast Int.bmod_emod (x := x) (m := 2 ^ 64)

/-- What an unsigned start value is read as, modulo 2^64. -/
theorem getSInt_unsigned (hs : ¬ t.signed) (d : Int) :
    ((t.getSInt k + d) % 2 ^ 64) % 2 ^ t.width = ((t.wrap k + d) % 2 ^ 64) % 2 ^ t.width := by
  have hwrap : t.wrap k = k % 2 ^ t.width := if_neg hs
  have hread : (t.getSInt k + d) % 2 ^ 64 = (Int.bmod k (2 ^ t.width) + d) % 2 ^ 64 := by
    unfold IntType.getSInt
    rw [Int.add_emod, int64_wrap_emod, ← Int.add_emod]
  have hmod : Int.bmod k (2 ^ t.width) % 2 ^ t.width = k % 2 ^ t.width := by
    exact_mod_cast Int.bmod_emod (x := k) (m := 2 ^ t.width)
  rw [hread, hwrap]
  rcases Nat.le_total t.width 64 with hw | hw
  · have hdvd : (2 : Int) ^ t.width ∣ 2 ^ 64 := pow_dvd_pow 2 hw
    rw [Int.emod_emod_of_dvd _ hdvd, Int.emod_emod_of_dvd _ hdvd, Int.add_emod, hmod]
    conv_rhs => rw [Int.add_emod, Int.emod_emod_of_dvd _ (dvd_refl _)]
  · have hdvd : (2 : Int) ^ 64 ∣ 2 ^ t.width := pow_dvd_pow 2 hw
    have h64 : Int.bmod k (2 ^ t.width) % 2 ^ 64 = (k % 2 ^ t.width) % 2 ^ 64 := by
      rw [← Int.emod_emod_of_dvd _ hdvd, hmod]
    rw [Int.add_emod (Int.bmod k (2 ^ t.width)), h64, ← Int.add_emod]

theorem emod_le_self {a b : Int} (ha : 0 ≤ a) (hb : 0 ≤ b) : a % b ≤ a := by
  have hq := mul_nonneg hb (Int.ediv_nonneg ha hb)
  have heq := Int.emod_add_mul_ediv a b
  omega

/-- The limit is no more than the start value plus `d`, if that is in the type. -/
theorem attr_le {d : Int} (hd : 0 ≤ d) (hd' : d ≤ 1) (hr : t.Small k)
    (hm : t.wrap k + d ≤ t.max) :
    t.attr (int64.wrap (t.getSInt k + d)) ≤ t.wrap k + d := by
  by_cases hs : t.signed
  · have hattr : ∀ y, t.attr y = t.wrap y := fun y => if_pos hs
    have hread := getSInt_signed hs hr
    have hl : int64.min ≤ t.wrap k := by
      rw [← hread]
      exact min_le_wrap int64 _
    rw [hattr, hread]
    by_cases hu : t.wrap k + d ≤ int64.max
    · rw [wrap_of_mem (by omega) hu, wrap_of_mem (by have := min_le_wrap t k; omega) hm]
    · -- the sum wraps round to the least number of 64 bits, and the type is wider than that
      have hw : 64 < t.width := by
        by_contra hle
        exact hu (le_trans hm (max_le_int64 hs (by omega)))
      have hv : t.wrap k ≤ int64.max := by
        rw [← hread]
        exact wrap_le_max int64 _
      have hmax : int64.max = 2 ^ 63 - 1 := rfl
      have heq : t.wrap k + d = 2 ^ 63 := by omega
      have h64 : int64.wrap (2 ^ 63) = -(2 ^ 63) := by decide
      have hmin : t.min ≤ -(2 ^ 63) := by
        unfold IntType.min
        rw [if_pos hs]
        have hle : (2 : Int) ^ 64 ≤ 2 ^ t.width := pow_le_pow_right₀ (by norm_num) (by omega)
        omega
      rw [heq, h64, wrap_of_mem hmin (by omega)]
      norm_num
  · have hattr : ∀ y, t.attr y = (y % 2 ^ 64) % 2 ^ t.width := by
      intro y
      unfold IntType.attr IntType.wrap
      rw [if_neg hs, if_neg hs]
    have hnonneg : 0 ≤ t.wrap k := by
      have := min_le_wrap t k
      unfold IntType.min at this
      rw [if_neg hs] at this
      exact this
    rw [hattr, int64_wrap_emod, getSInt_unsigned hs]
    calc ((t.wrap k + d) % 2 ^ 64) % 2 ^ t.width ≤ (t.wrap k + d) % 2 ^ 64 :=
          emod_le_self (Int.emod_nonneg _ (by positivity)) (by positivity)
      _ ≤ t.wrap k + d := emod_le_self (by omega) (by positivity)

/-- What the loop's test says of `i`. -/
def below (inclusive : Bool) (x n : Int) : Prop := if inclusive then x ≤ n else x < n

/-- **A second test fails.** The first test let the start value through, the emitted test was true,
and the start value and an included bound are not both the greatest number of the type. -/
theorem second_test_fails {inclusive : Bool} (hr : t.Small k)
    (hmax : inclusive → ¬ (t.wrap k = t.max ∧ n = t.max))
    (h₁ : below inclusive (t.wrap k) n)
    (hn : n ≤ t.attr (int64.wrap (t.getSInt k + if inclusive then 0 else 1))) :
    t.wrap (t.wrap k + 1) = t.wrap k + 1 ∧
      ¬ below inclusive (t.wrap k + 1) n := by
  have hmin := min_le_wrap t k
  cases inclusive with
  | true =>
    have h₁' : t.wrap k ≤ n := h₁
    have hgreatest := wrap_le_max t k
    simp only [if_true] at hn
    have hle := attr_le (d := 0) (by omega) (by omega) hr (by omega)
    have hlt := hmax rfl
    refine ⟨wrap_of_mem (by omega) (by omega), ?_⟩
    show ¬ t.wrap k + 1 ≤ n
    omega
  | false =>
    have h₁' : t.wrap k < n := h₁
    simp only [Bool.false_eq_true, if_false] at hn
    have hlim := attr_le_max t (int64.wrap (t.getSInt k + 1))
    have hle := attr_le (d := 1) (by omega) (by omega) hr (by omega)
    refine ⟨wrap_of_mem (by omega) (by omega), ?_⟩
    show ¬ t.wrap k + 1 < n
    omega

end Wtc.Counted
