import YinFrontEnd.Number.Binary64

/-!
# Decimal numbers

A decimal is a signed whole number times a power of ten. It is written as digits
with an optional point among or after them and an optional power after `e`. The
digits of a power stop counting once they have reached 65536, which no number of
practical length can tell from the full power.
-/
namespace YinFrontEnd

structure Decimal where
  negative : Bool
  digits : Nat
  exponent : Int
  deriving DecidableEq, Repr

namespace Decimal

/-- The value of a digit. -/
def digitValue (c : Char) : Nat := c.toNat - '0'.toNat

/-- The whole number that a list of digits writes. -/
def ofDigits (cs : List Char) : Nat := cs.foldl (fun n c => 10 * n + digitValue c) 0

/-- The power that a list of digits writes, up to where its digits stop counting. -/
def powerOfDigits (cs : List Char) : Nat :=
  cs.foldl (fun n c => if n < 65536 then 10 * n + digitValue c else n) 0

/-- A whole number as it is written. -/
def intText (n : Int) : List Char :=
  if n < 0 then '-' :: Nat.toDigits 10 n.natAbs else Nat.toDigits 10 n.natAbs

/-- Takes a sign off the front, and says whether it was a minus. -/
def unsign : List Char → Bool × List Char
  | '+' :: cs => (false, cs)
  | '-' :: cs => (true, cs)
  | cs => (false, cs)

/-- The power written after the digits: nothing, or `e` and a signed number up to the end. -/
def power? : List Char → Option Int
  | [] => some 0
  | c :: cs =>
      let (negative, ds) := unsign cs
      if (c = 'e' ∨ c = 'E') ∧ ds ≠ [] ∧ ds.all Char.isDigit then
        some (if negative then -powerOfDigits ds else powerOfDigits ds)
      else none

/-- The digits after a point, if there is one, and what follows them. -/
def fraction : List Char → List Char × List Char
  | '.' :: cs => (cs.takeWhile Char.isDigit, cs.dropWhile Char.isDigit)
  | cs => ([], cs)

def ofChars? (text : List Char) : Option Decimal :=
  let (negative, cs) := unsign text
  let whole := cs.takeWhile Char.isDigit
  let (part, rest) := fraction (cs.dropWhile Char.isDigit)
  if whole ++ part = [] then none
  else (power? rest).map fun p => ⟨negative, ofDigits (whole ++ part), p - part.length⟩

/-- The unsigned word nearest to a decimal. Powers far outside the range of words are not
multiplied out. -/
def word (digits : Nat) (exponent : Int) : Nat :=
  if digits = 0 then 0
  else if 400 < exponent then Binary64.infinity
  else if exponent + digits.log2 < -400 then 0
  else Binary64.nearest (digits * tenPow exponent.toNat) (tenPow (-exponent).toNat)

/-- The floating-point word nearest to a decimal. -/
def toBits (d : Decimal) : UInt64 := Binary64.ofMagnitude d.negative (word d.digits d.exponent)

end Decimal

end YinFrontEnd
