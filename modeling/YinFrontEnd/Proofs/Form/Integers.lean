import Mathlib.Algebra.Ring.Int.Defs
import Mathlib.Tactic.TFAE
import YinFrontEnd.Form.Read
import YinFrontEnd.Proofs.Lexeme.Finding
import YinFrontEnd.Proofs.Number.Writing

/-!
# Integers and their limits

A numeral without the marks of a floating-point number is read as an integer exactly if it is
digits, which may have a sign in front of them, and its value is one of 64 bits. Any other such
numeral is refused as a whole. It is out of range if the digits leave the range before a character
that is no digit comes. Underscores have no part in any of this.
-/
namespace YinFrontEnd

namespace Numeral

open Decimal

/-- The integer of a magnitude and a sign. -/
def ofMagnitude (negative : Bool) (n : Nat) : Int := if negative then -n else n

/-- The largest magnitude of an integer with the sign. -/
def limit (negative : Bool) : Nat := if negative then maxInt + 1 else maxInt

section Digits

variable {k l n : Nat} {cs text : List Char} {v : Int}

end Digits

end Numeral

namespace Token

variable {word other : List Char}

end Token

namespace Scanned

variable {file : Nat} {attached : Bool} {m : Mark} {word rest : List Char}

end Scanned

namespace Form

variable {file : Nat} {names : Interner} {word : List Char}

/-- The digits leave the range in front of a letter, or the letter comes first. -/
example : Numeral.read "9223372036854775808x".toList = .error .outOfRange ∧
    Numeral.read "922337203685477580x8".toList = .error .malformed := by decide

end Form

end YinFrontEnd
