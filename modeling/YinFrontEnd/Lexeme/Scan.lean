import YinFrontEnd.Lexeme
import YinFrontEnd.ReadError
import YinFrontEnd.Text.Quoted

/-!
# Scanning

Source text is cut into lexemes from left to right, without regard to how brackets
nest. Blanks and comments, which run from two hyphens to the end of the line, only
separate. A point right after a name, a member or a closing bracket begins a
member; everywhere else it is a mistake.
-/
namespace YinFrontEnd

def Cursor.skipBlanks (c : Cursor) : Cursor := c.skipWhile Text.isBlank

/-- Moves over the line that begins with the two hyphens at a cursor. -/
def Cursor.skipComment (c : Cursor) : Cursor := (c.past ['-', '-']).skipLine

theorem Cursor.skipComment_length_lt {c : Cursor} (h : c.rest ≠ []) :
    c.skipComment.rest.length < c.rest.length :=
  Nat.lt_of_le_of_lt (skipToByte_length_le _ _) (past_length_lt (by simp) h)

/-- Moves over blanks and comments. -/
def Cursor.skipTrivia (c : Cursor) : Cursor :=
  match _h : c.skipBlanks.rest with
  | '-' :: '-' :: _ => Cursor.skipTrivia c.skipBlanks.skipComment
  | _ => c.skipBlanks
termination_by c.rest.length
decreasing_by
  exact Nat.lt_of_lt_of_le (Cursor.skipComment_length_lt (by simp [_h]))
    (Cursor.skipWhile_length_le _ c)

/-- What is found at a cursor: the end of the text, a mistake, or a lexeme. -/
inductive Scanned where
  | finish (m : Mark)
  | fault (e : ReadError)
  | lexeme (l : Lexeme) (rest : Cursor)

namespace Scanned

/-- The lexeme that a text at the front makes up. -/
def accept (c : Cursor) (token : Token) (text : List Char) : Scanned :=
  lexeme ⟨token, c.mark, (c.past text).mark⟩ (c.past text)

/-- A mistake in a text at the front. -/
def refuse (file : Nat) (c : Cursor) (f : ReadFault) (text : List Char) : Scanned :=
  fault ⟨f, c.mark.spanTo file (c.past text).mark⟩

/-- The content of a string from a cursor after its opening quote, which is at `start`, and the
cursor after its closing quote. -/
def stringBody (file : Nat) (start : Mark) (c : Cursor) : Except ReadError (List Char × Cursor) :=
  match _h : c.skipToQuote.rest with
  | '"' :: rest =>
      .ok (c.blockBefore Cursor.isQuoteMark, ⟨c.skipToQuote.mark.step '"', rest⟩)
  | '\\' :: letter :: rest =>
      let stop := (c.skipToQuote.mark.step '\\').step letter
      match Text.unescape? letter with
      | none => .error ⟨.invalidEscape letter, c.skipToQuote.mark.spanTo file stop⟩
      | some ch =>
          (stringBody file start ⟨stop, rest⟩).map fun (text, d) =>
            (c.blockBefore Cursor.isQuoteMark ++ ch :: text, d)
  | tail => .error ⟨.unterminatedString, start.spanTo file (c.skipToQuote.mark.after tail)⟩
termination_by c.rest.length
decreasing_by
  have h1 := Cursor.skipToByte_length_le Cursor.isQuoteMark c
  simp only [Cursor.skipToQuote] at _h
  simp only [_h, List.length_cons] at h1
  omega

/-- The string that begins with the quote at a cursor. -/
def string (file : Nat) (c : Cursor) : Scanned :=
  match stringBody file c.mark (c.past ['"']) with
  | .error e => fault e
  | .ok (text, d) => lexeme ⟨.str (String.ofList text), c.mark, d.mark⟩ d

/-- The keyword that begins with the colon at a cursor. -/
def keyword (file : Nat) (c : Cursor) : Scanned :=
  let text := (c.rest.drop 1).takeWhile Token.isNameChar
  if text = [] then refuse file c .emptyKeyword [':']
  else accept c (.keyword (String.ofList text)) (':' :: text)

/-- The member that begins with the point at a cursor. -/
def member (file : Nat) (c : Cursor) : Scanned :=
  let text := (c.rest.drop 1).takeWhile Token.isNameChar
  if text = [] then refuse file c .danglingMember ['.']
  else accept c (.member (String.ofList text)) ('.' :: text)

/-- The numeral at a cursor. -/
def numeral (file : Nat) (c : Cursor) : Scanned :=
  let text := c.rest.take 1 ++ Token.numeralTail (c.rest.drop 1)
  match Numeral.read text with
  | .ok n => accept c (.numeral n) text
  | .error .malformed => refuse file c (.invalidNumber (String.ofList text) false) text
  | .error .outOfRange => refuse file c (.invalidNumber (String.ofList text) true) text

/-- The name at a cursor. -/
def name (c : Cursor) : Scanned :=
  let text := c.rest.takeWhile Token.isNameChar
  accept c (.name (String.ofList text)) text

/-- What begins with the character `ch` at a cursor, where it is neither blank nor a comment. -/
def dispatch (file : Nat) (c : Cursor) (ch : Char) : Scanned :=
  match Delimiter.ofOpening? ch, Delimiter.ofClosing? ch with
  | some d, _ => accept c (.opening d) [ch]
  | none, some d => accept c (.closing d) [ch]
  | none, none =>
      if ch = '"' then string file c
      else if ch = ':' then keyword file c
      else if ch = '.' then refuse file c .danglingMember ['.']
      else if Token.startsNumeral c.rest then numeral file c
      else name c

/-- What comes next at a cursor; `attached` says that a member may follow directly. -/
def next (file : Nat) (attached : Bool) (c : Cursor) : Scanned :=
  if attached && c.rest.head? == some '.' then member file c
  else
    match c.skipTrivia.rest with
    | [] => finish c.skipTrivia.mark
    | ch :: _ => dispatch file c.skipTrivia ch

end Scanned

namespace Cursor

theorem skipTrivia_length_le (c : Cursor) : c.skipTrivia.rest.length ≤ c.rest.length := by
  fun_induction skipTrivia c with
  | case1 c rest h ih =>
    have h1 : c.skipBlanks.rest.length ≤ c.rest.length := skipWhile_length_le _ c
    have h2 := skipComment_length_lt (c := c.skipBlanks) (by simp [h])
    omega
  | case2 c h => exact skipWhile_length_le _ c

theorem not_isBlank_of_skipTrivia {c : Cursor} {ch : Char} {rest : List Char}
    (h : c.skipTrivia.rest = ch :: rest) : Text.isBlank ch = false := by
  fun_induction skipTrivia c with
  | case1 c rest h ih => exact ih h
  | case2 c hc =>
    have hp := List.head?_dropWhile_not Text.isBlank c.rest
    simp only [skipBlanks, skipWhile] at h
    simpa [h] using hp

end Cursor

namespace Scanned

/-- The lexeme, if one is found, leaves less text than the cursor had. -/
def Shortens (s : Scanned) (c : Cursor) : Prop :=
  ∀ l d, s = lexeme l d → d.rest.length < c.rest.length

theorem shortens_accept {c : Cursor} {token : Token} {text : List Char} (h : text ≠ [])
    (hc : c.rest ≠ []) : (accept c token text).Shortens c := by
  rintro l d ⟨rfl, rfl⟩
  exact Cursor.past_length_lt h hc

theorem stringBody_length_le {file : Nat} {start : Mark} {c d : Cursor} {text : List Char}
    (h : stringBody file start c = .ok (text, d)) : d.rest.length ≤ c.rest.length := by
  fun_induction stringBody file start c generalizing text d with
  | case1 c rest hr =>
    have h1 := Cursor.skipToByte_length_le Cursor.isQuoteMark c
    simp only [Cursor.skipToQuote] at hr
    simp only [hr, List.length_cons] at h1
    cases h
    simp only
    omega
  | case2 => simp at h
  | case3 c letter rest hr stop ch hch =>
    rename_i ih
    have h1 := Cursor.skipToByte_length_le Cursor.isQuoteMark c
    simp only [Cursor.skipToQuote] at hr
    simp only [hr, List.length_cons] at h1
    cases hb : stringBody file start ⟨stop, rest⟩ with
    | error e => simp [hb, Except.map] at h
    | ok r =>
      simp only [hb, Except.map] at h
      have := ih hb
      cases h
      simp only at this ⊢
      omega
  | case4 => simp at h

theorem shortens_dispatch {file : Nat} {c : Cursor} {ch : Char} {rest : List Char}
    (hc : c.rest = ch :: rest) (hb : Text.isBlank ch = false) :
    (dispatch file c ch).Shortens c := by
  have hne : c.rest ≠ [] := by simp [hc]
  unfold dispatch
  split
  · exact shortens_accept (by simp) hne
  · exact shortens_accept (by simp) hne
  · rename_i hopen hclose
    split
    · intro l d h
      unfold string at h
      split at h
      · simp at h
      · rename_i text e hs
        have := stringBody_length_le hs
        have hp : (c.past ['"']).rest.length < c.rest.length :=
          Cursor.past_length_lt (by simp) hne
        cases h
        omega
    split
    · simp only [keyword]
      split
      · simp [Shortens, refuse]
      · exact shortens_accept (by simp) hne
    split
    · simp [Shortens, refuse]
    split
    · simp only [numeral]
      split
      · exact shortens_accept (by simp [hc]) hne
      · simp [Shortens, refuse]
      · simp [Shortens, refuse]
    · rename_i hq hk hd _
      refine shortens_accept ?_ hne
      have hn : Token.isNameChar ch = true := by
        have : ch ≠ '(' ∧ ch ≠ '[' ∧ ch ≠ '\x7b' := by
          grind [Delimiter.ofOpening?]
        have : ch ≠ ')' ∧ ch ≠ ']' ∧ ch ≠ '\x7d' := by
          grind [Delimiter.ofClosing?]
        simp_all [Token.isNameChar, Token.separators]
      simp [hc, hn]

theorem shortens_next (file : Nat) (attached : Bool) (c : Cursor) :
    (next file attached c).Shortens c := by
  unfold next
  split
  · rename_i h
    have hne : c.rest ≠ [] := by
      intro hc
      simp [hc] at h
    simp only [member]
    split
    · simp [Shortens, refuse]
    · exact shortens_accept (by simp) hne
  · have hle := Cursor.skipTrivia_length_le c
    split
    · simp [Shortens]
    · rename_i ch rest hr
      intro l d hd
      have := shortens_dispatch hr (Cursor.not_isBlank_of_skipTrivia hr) l d hd
      omega

end Scanned

/-- The lexemes of a text up to its end, or up to the first mistake. -/
structure Scan where
  lexemes : List Lexeme
  ending : Except ReadError Mark

namespace Scan

def run (file : Nat) (attached : Bool) (c : Cursor) : Scan :=
  match _h : Scanned.next file attached c with
  | .finish m => ⟨[], .ok m⟩
  | .fault e => ⟨[], .error e⟩
  | .lexeme l d =>
      let s := run file l.token.takesMember d
      ⟨l :: s.lexemes, s.ending⟩
termination_by c.rest.length
decreasing_by exact Scanned.shortens_next file attached c _ _ _h

def ofText (file : Nat) (text : List Char) : Scan := run file false (Cursor.start text)

end Scan

end YinFrontEnd
