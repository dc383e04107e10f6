import YinFrontEnd.Number.Shortest

/-!
# Floating-point numbers as text

A word is written with the fewest digits that are read as it. Numbers of moderate
size have a point among their digits and at least one digit after it; very small
and very large ones have one digit before the point and a power of ten.
-/
namespace YinFrontEnd.FloatText

/-- The powers of ten of the first digit between which no power is written, the digit that
fills up, the mark before a power, and the texts of what is not a number of digits. -/
structure Layout where
  lowest : Int
  highest : Int
  filler : Char
  point : Char
  powerMark : Char
  infinity : List Char
  notNumber : List Char

/-- Numbers from 0.0001 up to 10¹⁶ are written without a power. -/
def layout : Layout := ⟨-4, 15, '0', '.', 'e', ['i', 'n', 'f'], ['N', 'a', 'N']⟩

/-- Digits without the zeros at their end. -/
def trimZeros (ds : List Char) : List Char := (ds.reverse.dropWhile (· == '0')).reverse

/-- Digits whose first stands at the power of ten `p`, with a point. -/
def positional (ds : List Char) (p : Int) : List Char :=
  if p < 0 then
    layout.filler :: layout.point :: (List.replicate (-p - 1).toNat layout.filler ++ ds)
  else
    let whole := (p + 1).toNat
    let part := ds.drop whole
    ds.take whole ++ List.replicate (whole - ds.length) layout.filler ++
      layout.point :: (if part = [] then [layout.filler] else part)

/-- Digits whose first stands at the power of ten `p`, with the power. -/
def scientific (ds : List Char) (p : Int) : List Char :=
  let part := ds.drop 1
  ds.take 1 ++ (if part = [] then [] else layout.point :: part) ++ layout.powerMark :: Decimal.intText p

/-- The text of a finite unsigned word. -/
def ofWord (word : Nat) : List Char :=
  let (digits, exponent) := Shortest.ofWord word
  let ds := Nat.toDigits 10 digits
  let p := exponent + ds.length - 1
  if digits = 0 then positional [layout.filler] 0
  else if layout.lowest ≤ p ∧ p ≤ layout.highest then positional (trimZeros ds) p
  else scientific (trimZeros ds) p

def ofBits (bits : UInt64) : List Char :=
  let word := Binary64.magnitude bits
  if Binary64.infinity < word then layout.notNumber
  else
    let unsigned := if word = Binary64.infinity then layout.infinity else ofWord word
    if Binary64.isNegative bits then '-' :: unsigned else unsigned

/-- One third needs all its digits; a number without a fraction keeps its point. -/
example : ofBits 0x3fd5555555555555 = "0.3333333333333333".toList ∧
    ofBits 0x4059000000000000 = "100.0".toList := by decide +kernel

/-- The layout changes at 10¹⁶ and below 0.0001. -/
example : ofBits 0x4341c37937e08000 = "1e16".toList ∧
    ofBits 0x4341c37937e07fff = "9999999999999998.0".toList ∧
    ofBits 0x3f1a36e2eb1c432d = "0.0001".toList ∧
    ofBits 0x3f1a36e2eb1c432c = "9.999999999999999e-5".toList := by decide +kernel

/-- Zero keeps its sign, and the smallest word has one digit. -/
example : ofBits 0x8000000000000000 = "-0.0".toList ∧ ofBits 1 = "5e-324".toList := by
  decide +kernel

end YinFrontEnd.FloatText
