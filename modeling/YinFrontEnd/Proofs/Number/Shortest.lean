import YinFrontEnd.Number.Shortest
import YinFrontEnd.Proofs.Number.Rounding

/-!
# Shortest decimals are read back

Whichever grid the shortest decimal of a finite word is found on, and also if it is the word's
value written out in full, it is read as the word again. Its digits and its power stay far
below the point where the digits of a written power stop counting.
-/
namespace YinFrontEnd

namespace Binary64

lemma units_lt {word : Nat} (h : word < infinity) : units word < twoPow 2099 := by
  have hwords : 2 * wordsPerBinade = twoPow 53 := rfl
  unfold units
  by_cases hw : word < wordsPerBinade
  · rw [if_pos hw]
    have hle : twoPow 53 ≤ twoPow 2099 := twoPow_le_twoPow (by omega)
    omega
  · rw [if_neg hw]
    have hlt : word % wordsPerBinade + wordsPerBinade < twoPow 53 := by
      have := Nat.mod_lt word (show 0 < wordsPerBinade by decide)
      omega
    have hpow : word / wordsPerBinade - 1 ≤ 2046 := by
      simp only [infinity, wordsPerBinade] at h ⊢
      omega
    calc (word % wordsPerBinade + wordsPerBinade) * twoPow (word / wordsPerBinade - 1)
        < twoPow 53 * twoPow (word / wordsPerBinade - 1) :=
          Nat.mul_lt_mul_of_pos_right hlt (twoPow_pos _)
      _ ≤ twoPow 53 * twoPow 2046 := Nat.mul_le_mul_left _ (twoPow_le_twoPow hpow)
      _ = twoPow 2099 := by rw [← twoPow_add]

end Binary64

namespace Shortest

open Binary64

lemma digitCount_le {n k : Nat} (hk : 0 < k) (h : n < tenPow k) : digitCount n ≤ k :=
  (Nat.length_toDigits_le_iff (by decide) hk).mpr h

/-- No word stands for less than a unit. -/
lemma leadingPower_ge (word : Nat) : -1075 ≤ leadingPower word := by
  rw [leadingPower]
  split
  · omega
  · have hlt : unitsPerOne / units word < tenPow 1075 := by
      have h1 : unitsPerOne / units word ≤ unitsPerOne := Nat.div_le_self _ _
      have h2 : unitsPerOne ≤ tenPow 1074 := twoPow_le_tenPow 1074
      have h3 := tenPow_pos 1074
      have h4 : tenPow 1075 = tenPow 1074 * 10 := tenPow_succ 1074
      omega
    have := digitCount_le (by omega) hlt
    omega

/-- What is chosen on a grid is read as the word, and is a neighbour of its value there. -/
lemma onGrid?_spec {word k : Nat} {exponent : Int} (h : onGrid? word exponent = some k) :
    Decimal.word k exponent = word ∧ k ≤ units word * tenPow (-exponent).toNat + 1 := by
  have hle : units word * tenPow (-exponent).toNat / (unitsPerOne * tenPow exponent.toNat) ≤
      units word * tenPow (-exponent).toNat := Nat.div_le_self _ _
  simp only [onGrid?] at h
  split at h
  · rename_i hfits
    rw [Bool.and_eq_true, beq_iff_eq] at hfits
    obtain rfl := Option.some.inj h
    exact ⟨hfits.1, by omega⟩
  split at h
  · rename_i hfits
    rw [beq_iff_eq] at hfits
    obtain rfl := Option.some.inj h
    exact ⟨hfits, by omega⟩
  · exact absurd h (by simp)

lemma ofWord_cases (word : Nat) : (word = 0 ∧ ofWord word = (0, 0)) ∨ ofWord word = exact word ∨
    ∃ k exponent, ofWord word = (k, exponent) ∧ onGrid? word exponent = some k ∧
      leadingPower word - 16 ≤ exponent := by
  simp only [ofWord]
  split
  · rename_i h0
    exact .inl ⟨h0, rfl⟩
  cases hfind : List.findSome? _ (List.range 17) with
  | none => exact .inr (.inl rfl)
  | some r =>
    obtain ⟨i, hi, hr⟩ := List.exists_of_findSome?_eq_some hfind
    obtain ⟨k, hk, rfl⟩ := Option.map_eq_some_iff.mp hr
    have hi := List.mem_range.mp hi
    exact .inr (.inr ⟨k, _, rfl, hk, by omega⟩)

/-- The decimal chosen for a finite word is read as the word; its power is not far below the
unit, and it has about as many digits as the word's value on that grid. -/
lemma ofWord_spec {word : Nat} (h : word < infinity) :
    Decimal.word (ofWord word).1 (ofWord word).2 = word ∧ -1100 ≤ (ofWord word).2 ∧
      (ofWord word).1 ≤ units word * tenPow (-(ofWord word).2).toNat + 1 := by
  obtain ⟨rfl, hzero⟩ | hexact | ⟨k, exponent, hgrid, hk, hlow⟩ := ofWord_cases word
  · simp [hzero, Decimal.word]
  · have hle := Nat.mul_le_mul_left (units word) (fivePow_le_tenPow 1074)
    have hneg : (-(-1074 : Int)).toNat = 1074 := rfl
    rw [hexact, exact]
    refine ⟨Decimal.word_units h, by omega, ?_⟩
    rw [hneg]
    exact Nat.le_succ_of_le hle
  · obtain ⟨hword, hle⟩ := onGrid?_spec hk
    have hpower := leadingPower_ge word
    rw [hgrid]
    exact ⟨hword, by omega, hle⟩

/-- A decimal that is read as a word other than zero has digits, and its power is not large. -/
lemma ofWord_bounds {word : Nat} (h : word < infinity) (h0 : word ≠ 0) :
    (ofWord word).1 ≠ 0 ∧ (ofWord word).2 ≤ 400 := by
  obtain ⟨hword, -, -⟩ := ofWord_spec h
  have hne : (ofWord word).1 ≠ 0 := by
    intro hd
    rw [hd] at hword
    exact h0 (by simpa [Decimal.word] using hword.symm)
  refine ⟨hne, ?_⟩
  by_contra hp
  rw [Decimal.word, if_neg hne, if_pos (by omega)] at hword
  omega

lemma digitCount_ofWord_le {word : Nat} (h : word < infinity) :
    digitCount (ofWord word).1 ≤ 3200 := by
  obtain ⟨-, hlow, hle⟩ := ofWord_spec h
  apply digitCount_le (by omega)
  have hprod : units word * tenPow (-(ofWord word).2).toNat ≤ tenPow 3199 := by
    calc units word * tenPow (-(ofWord word).2).toNat
        ≤ twoPow 2099 * tenPow 1100 :=
          Nat.mul_le_mul (Nat.le_of_lt (units_lt h)) (tenPow_le_tenPow (by omega))
      _ ≤ tenPow 2099 * tenPow 1100 := Nat.mul_le_mul_right _ (twoPow_le_tenPow 2099)
      _ = tenPow 3199 := by rw [← tenPow_add]
  have hpos := tenPow_pos 3199
  have hsucc : tenPow 3200 = tenPow 3199 * 10 := tenPow_succ 3199
  omega

end Shortest

end YinFrontEnd
