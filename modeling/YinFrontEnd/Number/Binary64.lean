import YinFrontEnd.Number.Power

/-!
# Binary floating-point words

A finite word of 64 bits stands for a whole number of units of 2⁻¹⁰⁷⁴, with a
sign in front. Without its sign a word is a number below 2⁶³, and larger words
stand for larger numbers; the first one past the finite words stands for infinity.
A fraction is read as the nearest word, and a tie goes to the even word.
-/
namespace YinFrontEnd.Binary64

/-- The number of units that make one. -/
def unitsPerOne : Nat := twoPow 1074

/-- The number of words between a power of two and the next. -/
def wordsPerBinade : Nat := 0x10000000000000

/-- The first word with a sign. -/
def signWord : Nat := 0x8000000000000000

/-- The unsigned word of infinity. -/
def infinity : Nat := 2047 * wordsPerBinade

/-- The number of units that a finite unsigned word stands for. -/
def units (word : Nat) : Nat :=
  if word < wordsPerBinade then word
  else (word % wordsPerBinade + wordsPerBinade) * twoPow (word / wordsPerBinade - 1)

/-- The whole number nearest to `n / d`, the even one if two are equally near. -/
def roundHalfEven (n d : Nat) : Nat :=
  if 2 * (n % d) < d ∨ (2 * (n % d) = d ∧ n / d % 2 = 0) then n / d else n / d + 1

/-- The unsigned word nearest to `n / d`. -/
def nearest (n d : Nat) : Nat :=
  let scaled := n * unitsPerOne
  let shift := (scaled / d).log2 + 1 - 53
  min infinity (shift * wordsPerBinade + roundHalfEven scaled (d * twoPow shift))

/-- A word without its sign. -/
def magnitude (bits : UInt64) : Nat := bits.toNat % signWord

def isNegative (bits : UInt64) : Bool := decide (signWord ≤ bits.toNat)

def isFinite (bits : UInt64) : Bool := decide (magnitude bits < infinity)

/-- The word with the given sign and unsigned word. -/
def ofMagnitude (negative : Bool) (word : Nat) : UInt64 :=
  UInt64.ofNat (if negative then signWord + word else word)

end YinFrontEnd.Binary64
