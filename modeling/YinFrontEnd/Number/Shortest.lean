import YinFrontEnd.Number.Decimal

/-!
# The shortest decimal of a word

Of the decimals that are read as a given word, those with the fewest digits are
found on the coarsest grid of powers of ten that holds one. On each grid only the
two neighbours of the word's exact value are in question. If both are read as the
word the nearer one is taken, and of two equally near ones the larger.
-/
namespace YinFrontEnd.Shortest

/-- The number of decimal digits of a whole number. -/
def digitCount (n : Nat) : Nat := (Nat.toDigits 10 n).length

/-- The power of ten at the first digit of a word's value. -/
def leadingPower (word : Nat) : Int :=
  let u := Binary64.units word
  if Binary64.unitsPerOne ≤ u then digitCount (u / Binary64.unitsPerOne) - 1
  else -digitCount (Binary64.unitsPerOne / u)

/-- The multiple of a power of ten chosen for a word, if one is read as the word. -/
def onGrid? (word : Nat) (exponent : Int) : Option Nat :=
  let n := Binary64.units word * tenPow (-exponent).toNat
  let d := Binary64.unitsPerOne * tenPow exponent.toNat
  let below := n / d
  let fits (k : Nat) : Bool := Decimal.word k exponent == word
  if fits below && (decide (2 * (n % d) < d) || !fits (below + 1)) then some below
  else if fits (below + 1) then some (below + 1)
  else none

/-- A word's value written out in full. -/
def exact (word : Nat) : Nat × Int := (Binary64.units word * fivePow 1074, -1074)

/-- The digits and the power of the shortest decimal that is read as a finite word. -/
def ofWord (word : Nat) : Nat × Int :=
  if word = 0 then (0, 0)
  else
    let p := leadingPower word
    ((List.range 17).findSome? fun (i : Nat) => (onGrid? word (p - i)).map fun k => (k, p - i)).getD
      (exact word)

end YinFrontEnd.Shortest
