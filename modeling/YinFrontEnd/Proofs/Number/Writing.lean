import YinFrontEnd.Number.FloatText
import YinFrontEnd.Proofs.Lexeme.Spelling
import YinFrontEnd.Proofs.Number.Shortest

/-!
# Numbers are read as they are written

An integer of 64 bits and a finite floating-point number are written as numerals, and the
numerals are read as the same numbers. For the latter the digits may be laid out in two ways;
in both of them the text has the value of the shortest decimal, and it is told apart from an
integer by its point or its power.
-/
namespace YinFrontEnd

namespace Decimal

lemma ofDigits_toDigits (n : Nat) : ofDigits (Nat.toDigits 10 n) = n :=
  Nat.ofDigitChars_ten_toDigits

lemma isDigit_of_mem_toDigits (n : Nat) : ∀ c ∈ Nat.toDigits 10 n, c.isDigit = true :=
  fun _ hc => Nat.isDigit_of_mem_toDigits (by decide) (by decide) hc

lemma ofDigits_append_zeros (ds : List Char) (n : Nat) :
    ofDigits (ds ++ List.replicate n '0') = ofDigits ds * tenPow n := by
  have h : ofDigits (ds ++ List.replicate n '0') = 10 ^ n * ofDigits ds := by
    change Nat.ofDigitChars 10 (ds ++ List.replicate n '0') 0 = _
    rw [Nat.ofDigitChars_append, Nat.ofDigitChars_replicate_zero]
    rfl
  rw [h, Nat.mul_comm]
  rfl

lemma ofDigits_zeros_append (n : Nat) (ds : List Char) :
    ofDigits (List.replicate n '0' ++ ds) = ofDigits ds := by
  change Nat.ofDigitChars 10 (List.replicate n '0' ++ ds) 0 = _
  rw [Nat.ofDigitChars_append, Nat.ofDigitChars_replicate_zero, Nat.mul_zero]
  rfl

lemma ofDigits_concat (ds : List Char) (c : Char) :
    ofDigits (ds ++ [c]) = 10 * ofDigits ds + digitValue c := by simp [ofDigits]

/-- The digits of a power of practical size all count. -/
lemma powerOfDigits_eq (ds : List Char) (h : ofDigits ds < 655360) :
    powerOfDigits ds = ofDigits ds := by
  induction ds using List.reverseRec with
  | nil => rfl
  | append_singleton ds c ih =>
    rw [ofDigits_concat] at h
    have hds := ih (by omega)
    have hlt : powerOfDigits ds < 65536 := by omega
    rw [ofDigits_concat, ← hds]
    simp only [powerOfDigits, List.foldl_append, List.foldl_cons, List.foldl_nil] at hlt ⊢
    rw [if_pos hlt]

lemma unsign_of_isDigit {c : Char} (h : c.isDigit = true) (cs : List Char) :
    unsign (c :: cs) = (false, c :: cs) := by
  rw [unsign]
  · rintro cs' hc
    cases hc
    exact absurd h (by decide)
  · rintro cs' hc
    cases hc
    exact absurd h (by decide)

/-- The characters of a whole number. -/
lemma intText_cases (n : Int) :
    (intText n = '-' :: Nat.toDigits 10 n.natAbs ∧ n = -n.natAbs) ∨
      (intText n = Nat.toDigits 10 n.natAbs ∧ n = n.natAbs) := by
  unfold intText
  by_cases h : n < 0
  · exact .inl ⟨if_pos h, by omega⟩
  · exact .inr ⟨if_neg h, by omega⟩

lemma exists_toDigits (n : Nat) : ∃ c cs, Nat.toDigits 10 n = c :: cs ∧ c.isDigit = true := by
  have hpos : 0 < (Nat.toDigits 10 n).length := Nat.length_toDigits_pos
  obtain ⟨c, cs, hcs⟩ := List.exists_cons_of_ne_nil (List.ne_nil_of_length_pos hpos)
  exact ⟨c, cs, hcs, isDigit_of_mem_toDigits n c (by simp [hcs])⟩

lemma unsign_intText (n : Int) :
    ∃ negative, unsign (intText n) = (negative, Nat.toDigits 10 n.natAbs) ∧
    n = if negative then -(n.natAbs : Int) else n.natAbs := by
  obtain ⟨ht, hn⟩ | ⟨ht, hn⟩ := intText_cases n
  · exact ⟨true, by rw [ht, unsign], hn⟩
  · obtain ⟨c, cs, hcs, hc⟩ := exists_toDigits n.natAbs
    exact ⟨false, by rw [ht, hcs, unsign_of_isDigit hc], hn⟩

/-- What may stand after the digits of a floating-point number, with the power it writes. -/
inductive WrittenPower : List Char → Int → Prop
  | none : WrittenPower [] 0
  | some {p : Int} : p.natAbs < 655360 → WrittenPower ('e' :: intText p) p

lemma WrittenPower.power? {cs : List Char} {p : Int} (h : WrittenPower cs p) :
    power? cs = .some p := by
  cases h with
  | none => rfl
  | some hp =>
    obtain ⟨negative, hs, hn⟩ := unsign_intText p
    have hall : (Nat.toDigits 10 p.natAbs).all Char.isDigit = true := by
      rw [List.all_eq_true]
      exact isDigit_of_mem_toDigits _
    have hpower : powerOfDigits (Nat.toDigits 10 p.natAbs) = p.natAbs := by
      rw [powerOfDigits_eq, ofDigits_toDigits]
      rwa [ofDigits_toDigits]
    simp only [Decimal.power?, hs, hall, hpower]
    simpa using hn.symm

/-- A point and the digits after it, if there are any. -/
def pointed (part : List Char) : List Char := if part = [] then [] else '.' :: part

/-- A text writes an unsigned decimal: at least one digit, a point with more digits or nothing,
and a power or nothing, but not nothing twice. -/
inductive Writes : List Char → Nat → Int → Prop
  | intro {whole part rest : List Char} {p : Int} : whole ≠ [] →
      (∀ c ∈ whole ++ part, c.isDigit = true) → WrittenPower rest p → (part = [] → rest ≠ []) →
      Writes (whole ++ (pointed part ++ rest)) (ofDigits (whole ++ part)) (p - part.length)

lemma WrittenPower.isDigit_head? {cs : List Char} {p : Int} (h : WrittenPower cs p) :
    ∀ c ∈ cs.head?, c.isDigit = false := by
  cases h with
  | none => simp
  | some _ =>
    intro c hc
    obtain rfl : 'e' = c := by simpa using hc
    decide

lemma fraction_pointed {part rest : List Char} {p : Int} (hd : ∀ c ∈ part, c.isDigit = true)
    (hp : WrittenPower rest p) : fraction (pointed part ++ rest) = (part, rest) := by
  unfold pointed
  by_cases h : part = []
  · subst h
    cases hp <;> rfl
  · rw [if_neg h, List.cons_append, fraction, Text.takeWhile_append hd hp.isDigit_head?,
      Text.dropWhile_append hd hp.isDigit_head?]

lemma isDigit_head?_pointed {part rest : List Char} {p : Int} (hp : WrittenPower rest p) :
    ∀ c ∈ (pointed part ++ rest).head?, c.isDigit = false := by
  unfold pointed
  split
  · exact hp.isDigit_head?
  · intro c hc
    obtain rfl : '.' = c := by simpa using hc
    decide

/-- What writes a decimal begins with a digit and goes on as a numeral does. -/
lemma Writes.isNumeral {text : List Char} {digits : Nat} {exponent : Int}
    (h : Writes text digits exponent) :
    ∃ c cs, text = c :: cs ∧ c.isDigit = true ∧ Token.numeralTail cs = cs := by
  obtain @⟨whole, part, rest, p, hw, hd, hp, -⟩ := h
  obtain ⟨c, whole, rfl⟩ := List.exists_cons_of_ne_nil hw
  have hrest : Token.numeralTail rest = rest := by
    cases hp with
    | none => rfl
    | some _ =>
      have hname : ∀ c ∈ 'e' :: intText p, Token.isNameChar c = true := by
        intro c hc
        obtain rfl | hc := List.mem_cons.mp hc
        · decide
        obtain ⟨ht, -⟩ | ⟨ht, -⟩ := intText_cases p
        · rw [ht] at hc
          obtain rfl | hc := List.mem_cons.mp hc
          · decide
          · exact Token.isNameChar_of_isDigit (isDigit_of_mem_toDigits _ c hc)
        · rw [ht] at hc
          exact Token.isNameChar_of_isDigit (isDigit_of_mem_toDigits _ c hc)
      simpa [Token.numeralTail] using Token.numeralTail_append_left hname []
  have hdigits : ∀ ds : List Char, (∀ c ∈ ds, c.isDigit = true) →
      ∀ cs, Token.numeralTail (ds ++ cs) = ds ++ Token.numeralTail cs :=
    fun ds hds cs => Token.numeralTail_append_left
      (fun c hc => Token.isNameChar_of_isDigit (hds c hc)) cs
  have hpointed : Token.numeralTail (pointed part ++ rest) = pointed part ++ rest := by
    cases part with
    | nil => exact hrest
    | cons d part =>
      have hpart := hdigits (d :: part) (fun c hc => hd c (by simp [hc])) rest
      simp only [pointed, if_neg (List.cons_ne_nil d part), List.cons_append] at hpart ⊢
      rw [Token.numeralTail_point (hd d (by simp)), hpart, hrest]
  refine ⟨c, whole ++ (pointed part ++ rest), rfl, hd c (by simp), ?_⟩
  rw [hdigits whole (fun d hm => hd d (by simp [hm])), hpointed]

/-- What writes a decimal is read as the decimal, with or without a sign. -/
lemma Writes.ofChars? {text : List Char} {digits : Nat} {exponent : Int}
    (h : Writes text digits exponent) :
    ofChars? text = some ⟨false, digits, exponent⟩ ∧
      ofChars? ('-' :: text) = some ⟨true, digits, exponent⟩ := by
  obtain ⟨c, cs, ht, hc, -⟩ := h.isNumeral
  have hpos : unsign text = (false, text) := by rw [ht, unsign_of_isDigit hc]
  have hneg : unsign ('-' :: text) = (true, text) := rfl
  clear ht
  obtain @⟨whole, part, rest, p, hw, hd, hp, -⟩ := h
  have hwhole : ∀ c ∈ whole, c.isDigit = true := fun c hc => hd c (by simp [hc])
  have hpart : ∀ c ∈ part, c.isDigit = true := fun c hc => hd c (by simp [hc])
  have hhead : ∀ c ∈ (pointed part ++ rest).head?, c.isDigit = false := isDigit_head?_pointed hp
  have htake := Text.takeWhile_append hwhole hhead
  have hdrop := Text.dropWhile_append hwhole hhead
  constructor
  · simp [Decimal.ofChars?, hpos, htake, hdrop, fraction_pointed hpart hp, hp.power?, hw]
  · simp [Decimal.ofChars?, hneg, htake, hdrop, fraction_pointed hpart hp, hp.power?, hw]

/-- What writes a decimal is told apart from an integer, and it has no underscores. -/
lemma Writes.isFloat {text : List Char} {digits : Nat} {exponent : Int}
    (h : Writes text digits exponent) :
    '_' ∉ text ∧ ∃ c ∈ text, Numeral.isFloatMark c = true := by
  obtain @⟨whole, part, rest, p, hw, hd, hp, hm⟩ := h
  have hdigits : ∀ ds : List Char, (∀ c ∈ ds, c.isDigit = true) → '_' ∉ ds :=
    fun ds hds hc => absurd (hds _ hc) (by decide)
  constructor
  · have hrest : '_' ∉ rest := by
      cases hp with
      | none => simp
      | some _ =>
        have hp := hdigits _ (isDigit_of_mem_toDigits p.natAbs)
        obtain ⟨ht, -⟩ | ⟨ht, -⟩ := intText_cases p <;> simp [ht, hp]
    have hwhole : '_' ∉ whole := hdigits whole (fun c hc => hd c (by simp [hc]))
    have hpart : '_' ∉ part := hdigits part (fun c hc => hd c (by simp [hc]))
    unfold pointed
    split <;> simp [hwhole, hpart, hrest]
  · by_cases hpart : part = []
    · cases hp with
      | none => exact absurd rfl (hm hpart)
      | some _ => exact ⟨'e', by simp, rfl⟩
    · exact ⟨'.', by simp [pointed, hpart], rfl⟩

end Decimal

namespace FloatText

open Decimal Binary64

lemma isDigit_of_mem_zeros {n : Nat} : ∀ c ∈ List.replicate n '0', c.isDigit = true := by
  intro c hc
  rw [List.eq_of_mem_replicate hc]
  decide

/-- Digits after a point and zeros. -/
lemma writes_below_one {ds : List Char} (hne : ds ≠ []) (hd : ∀ c ∈ ds, c.isDigit = true)
    {p : Int} (hp : p < 0) :
    Writes (positional ds p) (ofDigits ds * tenPow 0) (p + 1 - ds.length - (0 : Nat)) := by
  have hw := @Writes.intro ['0'] (List.replicate (-p - 1).toNat '0' ++ ds) _ _
    (by simp) (fun c hc => ?_) .none (by simp [hne])
  · have hvalue : ofDigits (['0'] ++ (List.replicate (-p - 1).toNat '0' ++ ds)) =
        ofDigits ds * tenPow 0 := by
      have h := ofDigits_zeros_append ((-p - 1).toNat + 1) ds
      rw [List.replicate_succ, List.cons_append] at h
      rw [tenPow_zero, Nat.mul_one, ← h, List.singleton_append]
    have hpower : (0 : Int) - (List.replicate (-p - 1).toNat '0' ++ ds).length =
        p + 1 - ds.length - (0 : Nat) := by
      rw [List.length_append, List.length_replicate]
      omega
    rw [hvalue, hpower] at hw
    simpa [positional, layout, hp, pointed, hne] using hw
  · simp only [List.mem_append, List.mem_singleton] at hc
    obtain rfl | hc | hc := hc
    · decide
    · exact isDigit_of_mem_zeros c hc
    · exact hd c hc

/-- Digits and zeros before a point, and one zero after it. -/
lemma writes_whole {ds : List Char} (hne : ds ≠ []) (hd : ∀ c ∈ ds, c.isDigit = true) {n : Nat}
    (hl : ds.length ≤ n + 1) :
    Writes (positional ds n) (ofDigits ds * tenPow (n + 1 - ds.length + 1))
      (n + 1 - ds.length - (n + 1 - ds.length + 1 : Nat)) := by
  have hp : ¬ (n : Int) < 0 := by omega
  have hwhole : ((n : Int) + 1).toNat = n + 1 := by omega
  have hw := @Writes.intro (ds ++ List.replicate (n + 1 - ds.length) '0') ['0'] _ _
    (by simp [hne]) (fun c hc => ?_) .none (by simp)
  · have hvalue : ofDigits (ds ++ List.replicate (n + 1 - ds.length) '0' ++ ['0']) =
        ofDigits ds * tenPow (n + 1 - ds.length + 1) := by
      rw [← ofDigits_append_zeros, List.append_assoc, List.replicate_succ']
    have hpower : (0 : Int) - (['0'] : List Char).length =
        n + 1 - ds.length - (n + 1 - ds.length + 1 : Nat) := by
      rw [List.length_singleton]
      omega
    rw [hvalue, hpower] at hw
    simpa [positional, layout, hwhole, hp, pointed, List.take_of_length_le hl,
      List.drop_of_length_le hl] using hw
  · simp only [List.mem_append, List.mem_singleton] at hc
    obtain (hc | hc) | rfl := hc
    · exact hd c hc
    · exact isDigit_of_mem_zeros c hc
    · decide

/-- Digits on both sides of a point. -/
lemma writes_split {ds : List Char} (hne : ds ≠ []) (hd : ∀ c ∈ ds, c.isDigit = true) {n : Nat}
    (hl : n + 1 < ds.length) :
    Writes (positional ds n) (ofDigits ds * tenPow 0) (n + 1 - ds.length - (0 : Nat)) := by
  have hp : ¬ (n : Int) < 0 := by omega
  have hwhole : ((n : Int) + 1).toNat = n + 1 := by omega
  have htake : ds.take (n + 1) ≠ [] := by simp [hne]
  have hdrop : ds.drop (n + 1) ≠ [] := by
    rw [Ne, List.drop_eq_nil_iff]
    omega
  have hw := @Writes.intro (ds.take (n + 1)) (ds.drop (n + 1)) _ _ htake
    (fun c hc => hd c (by rwa [List.take_append_drop] at hc)) .none (fun h => absurd h hdrop)
  have hpower : (0 : Int) - (ds.drop (n + 1)).length = n + 1 - ds.length - (0 : Nat) := by
    rw [List.length_drop]
    omega
  have hfill : n + 1 - ds.length = 0 := by omega
  rw [List.take_append_drop, hpower] at hw
  rw [tenPow_zero, Nat.mul_one]
  simpa [positional, layout, hwhole, hp, pointed, hdrop, hfill] using hw

/-- Digits with a point among or after them, or after zeros, have the value that the power of
their first digit gives them. -/
lemma writes_positional {ds : List Char} (hne : ds ≠ []) (hd : ∀ c ∈ ds, c.isDigit = true)
    (p : Int) :
    ∃ j : Nat, Writes (positional ds p) (ofDigits ds * tenPow j) (p + 1 - ds.length - j) := by
  by_cases hp : p < 0
  · exact ⟨0, writes_below_one hne hd hp⟩
  · obtain ⟨n, rfl⟩ : ∃ n : Nat, p = n := ⟨p.toNat, by omega⟩
    by_cases hl : ds.length ≤ n + 1
    · exact ⟨_, writes_whole hne hd hl⟩
    · exact ⟨0, writes_split hne hd (by omega)⟩

/-- One digit before the point has that value with the power written out. -/
lemma writes_scientific {ds : List Char} (hne : ds ≠ []) (hd : ∀ c ∈ ds, c.isDigit = true)
    {p : Int} (hp : p.natAbs < 655360) :
    Writes (scientific ds p) (ofDigits ds) (p + 1 - ds.length) := by
  have hlen := List.length_pos_iff.mpr hne
  have hw := @Writes.intro (ds.take 1) (ds.drop 1) _ _ (by simp [hne])
    (fun c hc => hd c (by rwa [List.take_append_drop] at hc)) (.some hp) (by simp)
  have hpower : p - (ds.drop 1).length = p + 1 - ds.length := by
    rw [List.length_drop]
    omega
  rw [List.take_append_drop, hpower] at hw
  simpa [scientific, layout, pointed] using hw

lemma exists_trimZeros (ds : List Char) : ∃ j, ds = trimZeros ds ++ List.replicate j '0' := by
  have h : ds.reverse.takeWhile (· == '0') ++ ds.reverse.dropWhile (· == '0') = ds.reverse :=
    List.takeWhile_append_dropWhile
  have hzeros : ds.reverse.takeWhile (· == '0') =
      List.replicate (ds.reverse.takeWhile (· == '0')).length '0' := by
    refine List.eq_replicate_of_mem fun c hc => ?_
    simpa using List.all_eq_true.mp List.all_takeWhile c hc
  refine ⟨(ds.reverse.takeWhile (· == '0')).length, ?_⟩
  have hr := congrArg List.reverse h
  rw [List.reverse_append, List.reverse_reverse, hzeros, List.reverse_replicate] at hr
  exact hr.symm

/-- The text of a finite unsigned word writes a decimal that is read as the word. -/
lemma writes_ofWord {word : Nat} (h : word < infinity) :
    ∃ digits exponent, Writes (ofWord word) digits exponent ∧
      Decimal.word digits exponent = word := by
  obtain ⟨hword, hlow, -⟩ := Shortest.ofWord_spec h
  have hcount := Shortest.digitCount_ofWord_le h
  have hbounds := Shortest.ofWord_bounds h
  cases hs : Shortest.ofWord word with
  | mk k e =>
    simp only [hs] at hword hlow hcount hbounds
    simp only [ofWord, hs]
    split
    · rename_i hk
      have hzero : ∀ c ∈ ['0'], c.isDigit = true := by
        intro c hc
        obtain rfl := List.mem_singleton.mp hc
        decide
      obtain ⟨j, hj⟩ := writes_positional (List.cons_ne_nil _ _) hzero 0
      refine ⟨_, _, hj, ?_⟩
      rw [← hword, hk]
      simp [Decimal.word, ofDigits, digitValue]
    · rename_i hk
      obtain ⟨m, hm⟩ := exists_trimZeros (Nat.toDigits 10 k)
      have hvalue : k = ofDigits (trimZeros (Nat.toDigits 10 k)) * tenPow m := by
        rw [← ofDigits_append_zeros, ← hm, ofDigits_toDigits]
      have hlen := congrArg List.length hm
      rw [List.length_append, List.length_replicate] at hlen
      have hd : ∀ c ∈ trimZeros (Nat.toDigits 10 k), c.isDigit = true := by
        intro c hc
        refine isDigit_of_mem_toDigits k c ?_
        rw [hm]
        exact List.mem_append_left _ hc
      have hne : trimZeros (Nat.toDigits 10 k) ≠ [] := by
        intro hnil
        rw [hnil] at hvalue
        exact hk (by simpa [ofDigits] using hvalue)
      generalize hp : e + ((Nat.toDigits 10 k).length : Int) - 1 = p
      have hread : Decimal.word (ofDigits (trimZeros (Nat.toDigits 10 k)))
          (p + 1 - (trimZeros (Nat.toDigits 10 k)).length) = word := by
        rw [← hword, hvalue, word_mul_tenPow, ← hvalue]
        congr 1
        omega
      split
      · obtain ⟨j, hj⟩ := writes_positional hne hd p
        refine ⟨_, _, hj, ?_⟩
        rw [word_mul_tenPow, Int.sub_add_cancel, hread]
      · have hw : word ≠ 0 := by
          rintro rfl
          simp [Shortest.ofWord] at hs
          omega
        have hhigh := (hbounds hw).2
        unfold Shortest.digitCount at hcount
        exact ⟨_, _, writes_scientific hne hd (by omega), hread⟩

end FloatText

namespace Binary64

/-- A word is put together again from its sign and its magnitude. -/
lemma ofMagnitude_magnitude (bits : UInt64) :
    ofMagnitude (isNegative bits) (magnitude bits) = bits := by
  have hlt := bits.toNat_lt
  rw [← UInt64.toNat_inj, ofMagnitude, UInt64.toNat_ofNat']
  simp only [isNegative, magnitude, decide_eq_true_eq]
  by_cases h : signWord ≤ bits.toNat
  · rw [if_pos h]
    simp only [signWord] at h ⊢
    omega
  · rw [if_neg h]
    simp only [signWord] at h ⊢
    omega

lemma magnitude_ofMagnitude {word : Nat} (h : word < infinity) (negative : Bool) :
    magnitude (ofMagnitude negative word) = word := by
  simp only [magnitude, ofMagnitude, UInt64.toNat_ofNat', signWord]
  simp only [infinity, wordsPerBinade] at h
  split <;> omega

end Binary64

namespace Numeral

open Decimal Binary64

lemma le_foldl_digits (cs : List Char) (n : Nat) :
    n ≤ cs.foldl (fun n c => 10 * n + digitValue c) n := by
  induction cs generalizing n with
  | nil => exact Nat.le_refl n
  | cons c cs ih =>
    have h := ih (10 * n + digitValue c)
    rw [List.foldl_cons]
    omega

lemma digitsUpTo_eq {limit : Nat} {cs : List Char} (hd : ∀ c ∈ cs, c.isDigit = true) (n : Nat)
    (h : cs.foldl (fun n c => 10 * n + digitValue c) n ≤ limit) :
    digitsUpTo limit n cs = .ok (cs.foldl (fun n c => 10 * n + digitValue c) n) := by
  induction cs generalizing n with
  | nil => rfl
  | cons c cs ih =>
    have hle := le_foldl_digits cs (10 * n + digitValue c)
    rw [List.foldl_cons] at h ⊢
    have hc := hd c (by simp)
    have hn : ¬ limit < 10 * n + digitValue c := by omega
    rw [digitsUpTo, hc, if_neg (by simp), if_neg hn, ih (fun d hd' => hd d (by simp [hd'])) _ h]

lemma digitsUpTo_toDigits {limit n : Nat} (h : n ≤ limit) :
    digitsUpTo limit 0 (Nat.toDigits 10 n) = .ok n := by
  have hv : (Nat.toDigits 10 n).foldl (fun n c => 10 * n + digitValue c) 0 = n :=
    ofDigits_toDigits n
  rw [digitsUpTo_eq (isDigit_of_mem_toDigits n) 0 (by rwa [hv]), hv]

/-- A text without underscores is read as it is. -/
lemma filter_eq_self {text : List Char} (h : '_' ∉ text) : text.filter (· != '_') = text := by
  rw [List.filter_eq_self]
  intro c hc
  rw [bne_iff_ne]
  rintro rfl
  exact h hc

lemma not_isFloatMark_intText (n : Int) :
    '_' ∉ intText n ∧ (intText n).any isFloatMark = false := by
  have hu : '_' ∉ Nat.toDigits 10 n.natAbs :=
    fun hc => absurd (isDigit_of_mem_toDigits _ _ hc) (by decide)
  have hm : ∀ c ∈ Nat.toDigits 10 n.natAbs, isFloatMark c = false := by
    intro c hc
    have hd := isDigit_of_mem_toDigits _ c hc
    rw [Bool.eq_false_iff]
    intro h
    simp only [isFloatMark, Bool.or_eq_true, beq_iff_eq] at h
    obtain (rfl | rfl) | rfl := h <;> exact absurd hd (by decide)
  obtain ⟨ht, -⟩ | ⟨ht, -⟩ := intText_cases n
  · rw [ht]
    refine ⟨by simp [hu], ?_⟩
    rw [List.any_eq_false]
    intro c hc
    obtain rfl | hc := List.mem_cons.mp hc
    · decide
    · simp [hm c hc]
  · rw [ht]
    refine ⟨hu, ?_⟩
    rw [List.any_eq_false]
    intro c hc
    simp [hm c hc]

/-- An integer is written as a numeral. -/
lemma isNumeral_intText (n : Int) : Token.IsNumeral (intText n) := by
  obtain ⟨c, cs, hcs, hc⟩ := exists_toDigits n.natAbs
  have hname : ∀ d ∈ cs, Token.isNameChar d = true := by
    intro d hd
    exact Token.isNameChar_of_isDigit (isDigit_of_mem_toDigits n.natAbs d (by simp [hcs, hd]))
  have htail : Token.numeralTail cs = cs := by
    simpa [Token.numeralTail] using Token.numeralTail_append_left hname []
  obtain ⟨hpos, hneg⟩ := Token.isNumeral_of_isDigit hc htail
  obtain ⟨ht, -⟩ | ⟨ht, -⟩ := intText_cases n
  · rwa [ht, hcs]
  · rwa [ht, hcs]

/-- Every integer of 64 bits is read as it is written, down to the smallest. -/
theorem read_intText (v : Int64) : read (intText v.toInt) = .ok (.int v) := by
  obtain ⟨hu, hm⟩ := not_isFloatMark_intText v.toInt
  have hlow := v.le_toInt
  have hhigh := v.toInt_lt
  have hne : Nat.toDigits 10 v.toInt.natAbs ≠ [] :=
    List.ne_nil_of_length_pos Nat.length_toDigits_pos
  obtain ⟨negative, hs, hn⟩ := unsign_intText v.toInt
  have hread : readInt (intText v.toInt) = .ok v := by
    rw [readInt, hs]
    cases negative with
    | true =>
      simp only [if_true] at hn
      have hle : v.toInt.natAbs ≤ maxInt + 1 := by
        simp only [maxInt]
        omega
      simp only [if_neg hne, if_true, digitsUpTo_toDigits hle]
      change Except.ok (Int64.ofInt (-(v.toInt.natAbs : Int))) = _
      rw [← hn, Int64.ofInt_toInt]
    | false =>
      simp only [Bool.false_eq_true, if_false] at hn
      have hle : v.toInt.natAbs ≤ maxInt := by
        simp only [maxInt]
        omega
      simp only [if_neg hne, Bool.false_eq_true, if_false, digitsUpTo_toDigits hle]
      change Except.ok (Int64.ofInt (v.toInt.natAbs : Int)) = _
      rw [← hn, Int64.ofInt_toInt]
  simp only [read, filter_eq_self hu, hm, Bool.false_eq_true, if_false, hread, Except.map]

/-- What writes a decimal in range is read as its word, with or without a sign. -/
lemma read_of_writes {text : List Char} {digits : Nat} {exponent : Int}
    (h : Writes text digits exponent) (hlt : Decimal.word digits exponent < infinity) :
    read text = .ok (.float (ofMagnitude false (Decimal.word digits exponent))) ∧
      read ('-' :: text) = .ok (.float (ofMagnitude true (Decimal.word digits exponent))) := by
  obtain ⟨hpos, hneg⟩ := h.ofChars?
  obtain ⟨hu, c, hc, hm⟩ := h.isFloat
  have hany : text.any isFloatMark = true := List.any_eq_true.mpr ⟨c, hc, hm⟩
  have hu' : '_' ∉ '-' :: text := by simp [hu]
  constructor
  · simp [read, filter_eq_self hu, hany, readFloat, hpos, Nat.not_le.mpr hlt, toBits, Except.map]
  · simp [read, filter_eq_self hu', hany, readFloat, hneg, Nat.not_le.mpr hlt, toBits, Except.map]

/-- A finite floating-point number is written as a numeral, which is read as the number. -/
theorem read_ofBits {bits : UInt64} (h : isFinite bits = true) :
    Token.IsNumeral (FloatText.ofBits bits) ∧ read (FloatText.ofBits bits) = .ok (.float bits) := by
  have hlt : magnitude bits < infinity := by simpa [isFinite] using h
  obtain ⟨digits, exponent, hw, hword⟩ := FloatText.writes_ofWord hlt
  obtain ⟨c, cs, ht, hc, hcs⟩ := hw.isNumeral
  obtain ⟨hpos, hneg⟩ := Token.isNumeral_of_isDigit hc hcs
  rw [← hword] at hlt
  obtain ⟨hread, hread'⟩ := read_of_writes hw hlt
  have hbits := ofMagnitude_magnitude bits
  rw [hword] at hlt hread hread'
  rw [← ht] at hpos hneg
  simp only [FloatText.ofBits, if_neg (Nat.not_lt.mpr (Nat.le_of_lt hlt)),
    if_neg (Nat.ne_of_lt hlt)]
  cases hsign : isNegative bits with
  | true =>
    rw [hsign] at hbits
    rw [hbits] at hread'
    exact ⟨hneg, hread'⟩
  | false =>
    rw [hsign] at hbits
    rw [hbits] at hread
    exact ⟨hpos, hread⟩

/-- No numeral is read as infinity, or as what is not a number. -/
theorem isFinite_of_read {text : List Char} {bits : UInt64}
    (h : read text = .ok (.float bits)) : isFinite bits = true := by
  simp only [read] at h
  split at h
  · cases hr : readFloat (text.filter (· != '_')) with
    | error e =>
      rw [hr] at h
      exact absurd h (by simp [Except.map])
    | ok b =>
      rw [hr] at h
      obtain rfl : b = bits := by simpa [Except.map] using h
      simp only [readFloat] at hr
      split at hr
      · exact absurd hr (by simp)
      · split at hr
        · exact absurd hr (by simp)
        · rename_i d _ hd
          obtain rfl := Except.ok.inj hr
          have hlt := Nat.not_le.mp hd
          simpa [isFinite, toBits, magnitude_ofMagnitude hlt] using hlt
  · cases hr : readInt (text.filter (· != '_')) with
    | error e =>
      rw [hr] at h
      exact absurd h (by simp [Except.map])
    | ok b =>
      rw [hr] at h
      exact absurd h (by simp [Except.map])

end Numeral

end YinFrontEnd
