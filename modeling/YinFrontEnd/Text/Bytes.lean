/-!
# Text measured in bytes

Offsets into source text count the bytes of its UTF-8 form. The functions here
cut a list of characters at such an offset and find the first byte of a kind.
-/
namespace YinFrontEnd.Text

/-- The number of bytes that a text takes. -/
def byteLength : List Char → Nat
  | [] => 0
  | c :: cs => c.utf8Size + byteLength cs

/-- The longest beginning that takes at most `n` bytes. -/
def takeBytes : Nat → List Char → List Char
  | _, [] => []
  | n, c :: cs => if c.utf8Size ≤ n then c :: takeBytes (n - c.utf8Size) cs else []

/-- What is left after the longest beginning that takes at most `n` bytes. -/
def dropBytes : Nat → List Char → List Char
  | _, [] => []
  | n, c :: cs => if c.utf8Size ≤ n then dropBytes (n - c.utf8Size) cs else c :: cs

/-- The two parts of a text at an offset that lies between two characters or at an end. -/
def splitAtByte? (n : Nat) (cs : List Char) : Option (List Char × List Char) :=
  if byteLength (takeBytes n cs) = n then some (takeBytes n cs, dropBytes n cs) else none

/-- The number of bytes before the first byte that satisfies `p`, or of all bytes if none does. -/
def bytesBefore (p : UInt8 → Bool) : List Char → Nat
  | [] => 0
  | c :: cs =>
      match (String.utf8EncodeChar c).findIdx? p with
      | some i => i
      | none => c.utf8Size + bytesBefore p cs

theorem takeBytes_append_dropBytes (n : Nat) (cs : List Char) :
    takeBytes n cs ++ dropBytes n cs = cs := by
  induction cs generalizing n with
  | nil => rfl
  | cons c cs ih => simp only [takeBytes, dropBytes]; split <;> simp [ih]

theorem byteLength_takeBytes_le (n : Nat) (cs : List Char) : byteLength (takeBytes n cs) ≤ n := by
  induction cs generalizing n with
  | nil => simp [takeBytes, byteLength]
  | cons c cs ih =>
    simp only [takeBytes]
    split
    · have := ih (n - c.utf8Size)
      simp only [byteLength]
      omega
    · simp [byteLength]

theorem dropBytes_length_le (n : Nat) (cs : List Char) :
    (dropBytes n cs).length ≤ cs.length := by
  induction cs generalizing n with
  | nil => simp [dropBytes]
  | cons c cs ih =>
    simp only [dropBytes]
    split
    · have := ih (n - c.utf8Size)
      simp only [List.length_cons]
      omega
    · simp

end YinFrontEnd.Text
