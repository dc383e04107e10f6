import Mathlib.Tactic.Common
import YinFrontEnd.Number.Decimal

/-!
# Rounding to words

The nearest word depends only on the value of a fraction, not on how the fraction is written,
and a fraction with the value of a word is rounded to that word. The same follows for decimals:
the short cuts for powers far out of range only skip work, and zeros at the end of the digits
can be moved into the power.
-/
namespace YinFrontEnd

section Powers

lemma twoPow_pos (n : Nat) : 0 < twoPow n := Nat.two_pow_pos n

lemma twoPow_add (m n : Nat) : twoPow (m + n) = twoPow m * twoPow n := Nat.pow_add 2 m n

lemma twoPow_le_twoPow {m n : Nat} (h : m ≤ n) : twoPow m ≤ twoPow n :=
  Nat.pow_le_pow_right (by decide) h

lemma fivePow_pos (n : Nat) : 0 < fivePow n := Nat.pow_pos (by decide)

lemma tenPow_zero : tenPow 0 = 1 := rfl

lemma tenPow_pos (n : Nat) : 0 < tenPow n := Nat.pow_pos (by decide)

lemma tenPow_add (m n : Nat) : tenPow (m + n) = tenPow m * tenPow n := Nat.pow_add 10 m n

lemma tenPow_le_tenPow {m n : Nat} (h : m ≤ n) : tenPow m ≤ tenPow n :=
  Nat.pow_le_pow_right (by decide) h

lemma tenPow_eq_mul (n : Nat) : tenPow n = twoPow n * fivePow n := Nat.mul_pow 2 5 n

lemma twoPow_le_tenPow (n : Nat) : twoPow n ≤ tenPow n := Nat.pow_le_pow_left (by decide) n

lemma fivePow_le_tenPow (n : Nat) : fivePow n ≤ tenPow n := Nat.pow_le_pow_left (by decide) n

/-- Ten is more than eight. -/
lemma twoPow_mul_three_le (n : Nat) : twoPow (3 * n) ≤ tenPow n := by
  have h : twoPow (3 * n) = Nat.pow 8 n := Nat.pow_mul 2 3 n
  rw [h]
  exact Nat.pow_le_pow_left (by decide) n

lemma twoPow_log2_le {n : Nat} (h : n ≠ 0) : twoPow n.log2 ≤ n := Nat.log2_self_le h

lemma lt_twoPow_log2 (n : Nat) : n < twoPow (n.log2 + 1) := Nat.lt_log2_self

lemma le_log2_iff {n k : Nat} (h : n ≠ 0) : k ≤ n.log2 ↔ twoPow k ≤ n := Nat.le_log2 h

end Powers

namespace Binary64

lemma unitsPerOne_pos : 0 < unitsPerOne := twoPow_pos 1074

lemma roundHalfEven_mul_left {c : Nat} (hc : 0 < c) (n d : Nat) :
    roundHalfEven (c * n) (c * d) = roundHalfEven n d := by
  have hmod : 2 * (c * n % (c * d)) = c * (2 * (n % d)) := by
    rw [Nat.mul_mod_mul_left, Nat.mul_left_comm]
  simp only [roundHalfEven, hmod, Nat.mul_div_mul_left _ _ hc, Nat.mul_lt_mul_left hc,
    Nat.mul_right_inj (Nat.pos_iff_ne_zero.mp hc)]

lemma roundHalfEven_one (n : Nat) : roundHalfEven n 1 = n := by
  simp [roundHalfEven, Nat.mod_one]

lemma div_le_roundHalfEven (n d : Nat) : n / d ≤ roundHalfEven n d := by
  unfold roundHalfEven
  split <;> omega

lemma nearest_mul_left {c : Nat} (hc : 0 < c) (n d : Nat) :
    nearest (c * n) (c * d) = nearest n d := by
  simp only [nearest, Nat.mul_assoc, Nat.mul_div_mul_left _ _ hc, roundHalfEven_mul_left hc]

/-- Fractions of one value have one nearest word. -/
theorem nearest_congr {n d n' d' : Nat} (hd : 0 < d) (hd' : 0 < d') (h : n * d' = n' * d) :
    nearest n d = nearest n' d' := by
  calc nearest n d = nearest (d' * n) (d' * d) := (nearest_mul_left hd' n d).symm
    _ = nearest (d * n') (d * d') := by
      rw [Nat.mul_comm d' n, h, Nat.mul_comm n' d, Nat.mul_comm d' d]
    _ = nearest n' d' := nearest_mul_left hd n' d'

lemma log2_mul_twoPow {m k : Nat} (hlow : wordsPerBinade ≤ m) (hhigh : m < 2 * wordsPerBinade) :
    (m * twoPow k).log2 = 52 + k := by
  have hpos := twoPow_pos k
  have hw : wordsPerBinade = twoPow 52 := rfl
  have hne : m * twoPow k ≠ 0 := by
    have hm : m ≠ 0 := by
      unfold wordsPerBinade at hlow
      omega
    exact Nat.mul_ne_zero hm (Nat.pos_iff_ne_zero.mp hpos)
  refine (Nat.log2_eq_iff hne).mpr ⟨?_, ?_⟩
  · change twoPow (52 + k) ≤ m * twoPow k
    rw [twoPow_add]
    exact Nat.mul_le_mul_right _ hlow
  · change m * twoPow k < twoPow (52 + k + 1)
    rw [twoPow_succ, twoPow_add, Nat.mul_right_comm, ← hw, Nat.mul_comm wordsPerBinade]
    exact Nat.mul_lt_mul_of_pos_right hhigh hpos

/-- The value of a finite word is rounded to the word. -/
theorem nearest_units {word : Nat} (h : word < infinity) :
    nearest (units word) unitsPerOne = word := by
  have hround : ∀ s, roundHalfEven (units word * unitsPerOne) (unitsPerOne * twoPow s) =
      roundHalfEven (units word) (twoPow s) := by
    intro s
    rw [Nat.mul_comm (units word), roundHalfEven_mul_left unitsPerOne_pos]
  simp only [nearest, Nat.mul_div_cancel _ unitsPerOne_pos, hround]
  by_cases hw : word < wordsPerBinade
  · -- Among the words below the first binade the units are the words themselves.
    have hlog : word.log2 + 1 - 53 = 0 := by
      by_cases h0 : word = 0
      · subst h0
        rfl
      · have hlt : word.log2 < 52 := (Nat.log2_lt h0).mpr hw
        omega
    have hone : twoPow 0 = 1 := rfl
    rw [units, if_pos hw, hlog, hone, roundHalfEven_one, Nat.zero_mul, Nat.zero_add,
      Nat.min_eq_right (Nat.le_of_lt h)]
  · have hlow : wordsPerBinade ≤ word % wordsPerBinade + wordsPerBinade := by omega
    have hhigh : word % wordsPerBinade + wordsPerBinade < 2 * wordsPerBinade := by
      have := Nat.mod_lt word (show 0 < wordsPerBinade by decide)
      omega
    have hshift : 52 + (word / wordsPerBinade - 1) + 1 - 53 = word / wordsPerBinade - 1 := by omega
    have hvalue : roundHalfEven ((word % wordsPerBinade + wordsPerBinade) *
        twoPow (word / wordsPerBinade - 1)) (twoPow (word / wordsPerBinade - 1)) =
        word % wordsPerBinade + wordsPerBinade := by
      have hs := roundHalfEven_mul_left (twoPow_pos (word / wordsPerBinade - 1))
        (word % wordsPerBinade + wordsPerBinade) 1
      rw [roundHalfEven_one, Nat.mul_one, Nat.mul_comm] at hs
      exact hs
    rw [units, if_neg hw, log2_mul_twoPow hlow hhigh, hshift, hvalue]
    simp only [wordsPerBinade, infinity] at hw h ⊢
    omega

/-- A fraction of at least 2¹⁰²⁴ is rounded to infinity. -/
lemma nearest_eq_infinity {n d : Nat} (hd : 0 < d) (h : twoPow 2098 * d ≤ n * unitsPerOne) :
    nearest n d = infinity := by
  have hquot : twoPow 2098 ≤ n * unitsPerOne / d := (Nat.le_div_iff_mul_le hd).mpr h
  have hne : n * unitsPerOne / d ≠ 0 := by
    have := twoPow_pos 2098
    omega
  have hlog : 2098 ≤ (n * unitsPerOne / d).log2 := (le_log2_iff hne).mpr hquot
  obtain ⟨shift, hshift⟩ : ∃ shift, (n * unitsPerOne / d).log2 = 52 + shift :=
    ⟨_, (Nat.add_sub_of_le (by omega)).symm⟩
  have hround : wordsPerBinade ≤ roundHalfEven (n * unitsPerOne) (d * twoPow shift) := by
    refine Nat.le_trans ?_ (div_le_roundHalfEven _ _)
    rw [← Nat.div_div_eq_div_mul, Nat.le_div_iff_mul_le (twoPow_pos shift)]
    have hle := twoPow_log2_le hne
    rw [hshift, twoPow_add] at hle
    exact hle
  have hs : 52 + shift + 1 - 53 = shift := by omega
  simp only [nearest, hshift, hs]
  refine Nat.min_eq_left ?_
  simp only [infinity, wordsPerBinade] at hround ⊢
  omega

/-- A fraction of less than half a unit is rounded to nothing. -/
lemma nearest_eq_zero {n d : Nat} (h : 2 * (n * unitsPerOne) < d) : nearest n d = 0 := by
  have hdiv : n * unitsPerOne / d = 0 := Nat.div_eq_of_lt (by omega)
  have hmod : n * unitsPerOne % d = n * unitsPerOne := Nat.mod_eq_of_lt (by omega)
  have hone : d * twoPow 0 = d := Nat.mul_one d
  simp [nearest, hdiv, hone, roundHalfEven, hmod, h]

end Binary64

namespace Decimal

open Binary64

/-- The short cuts for powers far out of range give the nearest word as well. -/
lemma word_eq_nearest {digits : Nat} (h : digits ≠ 0) (exponent : Int) :
    word digits exponent = nearest (digits * tenPow exponent.toNat) (tenPow (-exponent).toNat) := by
  rw [word, if_neg h]
  by_cases hhigh : 400 < exponent
  · rw [if_pos hhigh]
    have hneg : (-exponent).toNat = 0 := by omega
    have hpow : twoPow 2098 ≤ tenPow exponent.toNat * unitsPerOne := by
      calc twoPow 2098 ≤ twoPow (3 * 400 + 1074) := twoPow_le_twoPow (by omega)
        _ = twoPow (3 * 400) * unitsPerOne := by rw [unitsPerOne, twoPow_add]
        _ ≤ tenPow 400 * unitsPerOne := Nat.mul_le_mul_right _ (twoPow_mul_three_le 400)
        _ ≤ tenPow exponent.toNat * unitsPerOne :=
          Nat.mul_le_mul_right _ (tenPow_le_tenPow (by omega))
    symm
    apply nearest_eq_infinity (tenPow_pos _)
    rw [hneg, tenPow_zero, Nat.mul_one, Nat.mul_assoc]
    exact Nat.le_trans hpow (Nat.le_mul_of_pos_left _ (Nat.pos_iff_ne_zero.mpr h))
  rw [if_neg hhigh]
  by_cases hlow : exponent + digits.log2 < -400
  · rw [if_pos hlow]
    have hpos : exponent.toNat = 0 := by omega
    obtain ⟨k, hk⟩ : ∃ k : Nat, (-exponent).toNat = 401 + digits.log2 + k :=
      ⟨(-exponent).toNat - (401 + digits.log2), by omega⟩
    symm
    apply nearest_eq_zero
    rw [hpos, hk]
    have hunit : 2 * unitsPerOne * 2 ≤ tenPow 401 := by
      calc 2 * unitsPerOne * 2 = twoPow 1076 := by
            rw [unitsPerOne, Nat.mul_comm 2, ← twoPow_succ, ← twoPow_succ]
        _ ≤ twoPow (3 * 401) := twoPow_le_twoPow (by omega)
        _ ≤ tenPow 401 := twoPow_mul_three_le 401
    have hdigits : digits < 2 * tenPow digits.log2 := by
      have hlt := lt_twoPow_log2 digits
      have hle := twoPow_le_tenPow digits.log2
      rw [twoPow_succ] at hlt
      omega
    calc 2 * (digits * tenPow 0 * unitsPerOne) = 2 * unitsPerOne * digits := by
          rw [tenPow_zero, Nat.mul_one, Nat.mul_comm digits, Nat.mul_assoc]
      _ < 2 * unitsPerOne * (2 * tenPow digits.log2) := by
          refine Nat.mul_lt_mul_of_pos_left hdigits ?_
          have := unitsPerOne_pos
          omega
      _ = 2 * unitsPerOne * 2 * tenPow digits.log2 := (Nat.mul_assoc _ _ _).symm
      _ ≤ tenPow 401 * tenPow digits.log2 := Nat.mul_le_mul_right _ hunit
      _ = tenPow (401 + digits.log2) := (tenPow_add _ _).symm
      _ ≤ tenPow (401 + digits.log2 + k) := tenPow_le_tenPow (by omega)
  · rw [if_neg hlow]

/-- Zeros at the end of the digits can be moved into the power. -/
theorem word_mul_tenPow (digits j : Nat) (exponent : Int) :
    word (digits * tenPow j) exponent = word digits (exponent + j) := by
  by_cases h : digits = 0
  · simp [word, h]
  · have hj : digits * tenPow j ≠ 0 := Nat.mul_ne_zero h (Nat.pos_iff_ne_zero.mp (tenPow_pos j))
    rw [word_eq_nearest hj, word_eq_nearest h]
    refine nearest_congr (tenPow_pos _) (tenPow_pos _) ?_
    simp only [Nat.mul_assoc, ← tenPow_add]
    congr 2
    omega

/-- The value of a word, written out in full. -/
lemma word_units {w : Nat} (h : w < infinity) : word (units w * fivePow 1074) (-1074) = w := by
  by_cases h0 : units w = 0
  · have hw := nearest_units h
    rw [h0] at hw ⊢
    rw [← hw, nearest_eq_zero]
    · simp [word]
    · rw [Nat.zero_mul]
      exact unitsPerOne_pos
  · have hfive : fivePow 1074 ≠ 0 := Nat.pos_iff_ne_zero.mp (fivePow_pos 1074)
    rw [word_eq_nearest (Nat.mul_ne_zero h0 hfive)]
    refine Eq.trans (nearest_congr (tenPow_pos _) unitsPerOne_pos ?_) (nearest_units h)
    have hneg : (-(-1074 : Int)).toNat = 1074 := rfl
    have hpos : (-1074 : Int).toNat = 0 := rfl
    rw [hneg, hpos, tenPow_eq_mul 1074, tenPow_zero, Nat.mul_one, Nat.mul_assoc,
      Nat.mul_comm (fivePow 1074), unitsPerOne]

end Decimal

end YinFrontEnd
