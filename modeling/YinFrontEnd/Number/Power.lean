/-!
# Powers

The powers of the two bases in which numbers are written here.
-/
namespace YinFrontEnd

/-- Two to the power `n`. -/
def twoPow (n : Nat) : Nat := Nat.pow 2 n

/-- Five to the power `n`. -/
def fivePow (n : Nat) : Nat := Nat.pow 5 n

/-- Ten to the power `n`. -/
def tenPow (n : Nat) : Nat := Nat.pow 10 n

theorem tenPow_succ (n : Nat) : tenPow (n + 1) = tenPow n * 10 := rfl

theorem twoPow_succ (n : Nat) : twoPow (n + 1) = twoPow n * 2 := rfl

end YinFrontEnd
