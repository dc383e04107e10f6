import YinFrontEnd.Number.Decimal

/-!
# Numerals

A numeral is a signed integer of 64 bits, or a floating-point number if it has a
point or an `e`. Underscores may stand anywhere in it and mean nothing.
-/
namespace YinFrontEnd

/-- What a numeral writes. -/
inductive Numeral where
  | int (value : Int64)
  | float (bits : UInt64)
  deriving DecidableEq, Repr

namespace Numeral

/-- Why a text is no numeral: its characters are wrong, or its value is not in range. -/
inductive Fault where
  | malformed
  | outOfRange
  deriving DecidableEq, Repr

/-- Reads digits after `n`, and refuses the first that is no digit or leads past `limit`. -/
def digitsUpTo (limit : Nat) : Nat → List Char → Except Fault Nat
  | n, [] => .ok n
  | n, c :: cs =>
      if !c.isDigit then .error .malformed
      else if limit < 10 * n + Decimal.digitValue c then .error .outOfRange
      else digitsUpTo limit (10 * n + Decimal.digitValue c) cs

/-- The largest integer. The smallest one is further from zero by one. -/
def maxInt : Nat := 0x7fffffffffffffff

def readInt (text : List Char) : Except Fault Int64 :=
  let (negative, ds) := Decimal.unsign text
  if ds = [] then .error .malformed
  else if negative then (digitsUpTo (maxInt + 1) 0 ds).map fun n => Int64.ofInt (-n)
  else (digitsUpTo maxInt 0 ds).map fun n => Int64.ofInt n

def readFloat (text : List Char) : Except Fault UInt64 :=
  match Decimal.ofChars? text with
  | none => .error .malformed
  | some d =>
      if Binary64.infinity ≤ Decimal.word d.digits d.exponent then .error .outOfRange
      else .ok d.toBits

/-- True of the characters that only a floating-point numeral has. -/
def isFloatMark (c : Char) : Bool := c == '.' || c == 'e' || c == 'E'

def read (text : List Char) : Except Fault Numeral :=
  let digits := text.filter (· != '_')
  if digits.any isFloatMark then (readFloat digits).map float else (readInt digits).map int

end Numeral

end YinFrontEnd
