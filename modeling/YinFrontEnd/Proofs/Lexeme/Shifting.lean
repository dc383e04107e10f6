import YinFrontEnd.Proofs.Lexeme.Finding
import YinFrontEnd.Proofs.Source.Shift

/-!
# Scanning text that stands further behind

A scan looks at the text that remains and at nothing else, and its marks only tell where it has
come to. So the lexemes and the mistakes in a text that stands further behind are those in the
text by itself, moved like the text.
-/
namespace YinFrontEnd

variable {d : Shift}

def Lexeme.shift (d : Shift) (l : Lexeme) : Lexeme := ⟨l.token, l.start.shift d, l.stop.shift d⟩

/-- A wrong closing bracket names the place of the opening one, which moves with it. -/
def ReadFault.shift (d : Shift) : ReadFault → ReadFault
  | .mismatchedCloser o s c => .mismatchedCloser o (s.shift d) c
  | f => f

def ReadError.shift (d : Shift) (e : ReadError) : ReadError := ⟨e.fault.shift d, e.span.shift d⟩

lemma ReadError.shift_zero (e : ReadError) : e.shift .zero = e := by
  obtain ⟨f, s⟩ := e
  cases f <;> rfl

namespace Scanned

def shift (d : Shift) : Scanned → Scanned
  | finish m => finish (m.shift d)
  | fault e => fault (e.shift d)
  | lexeme l c => lexeme (l.shift d) (c.shift d)

lemma accept_shift (c : Cursor) (token : Token) (text : List Char) :
    accept (c.shift d) token text = (accept c token text).shift d := by
  simp only [accept, Cursor.past_shift]
  rfl

lemma refuse_shift (file : Nat) (c : Cursor) {f : ReadFault} (hf : f.shift d = f)
    (text : List Char) : refuse file (c.shift d) f text = (refuse file c f text).shift d := by
  simp only [refuse, Cursor.past_shift, shift, ReadError.shift, hf]
  rfl

lemma keyword_shift (file : Nat) (c : Cursor) :
    keyword file (c.shift d) = (keyword file c).shift d := by
  have hr : refuse file (c.shift d) .emptyKeyword [':'] = _ := refuse_shift file c rfl _
  simp only [keyword, Cursor.shift_rest, accept_shift, hr, apply_ite (shift d)]

lemma member_shift (file : Nat) (c : Cursor) :
    member file (c.shift d) = (member file c).shift d := by
  have hr : refuse file (c.shift d) .danglingMember ['.'] = _ := refuse_shift file c rfl _
  simp only [member, Cursor.shift_rest, accept_shift, hr, apply_ite (shift d)]

lemma numeral_shift (file : Nat) (c : Cursor) :
    numeral file (c.shift d) = (numeral file c).shift d := by
  simp only [numeral, Cursor.shift_rest]
  split
  · exact accept_shift c _ _
  · exact refuse_shift file c rfl _
  · exact refuse_shift file c rfl _

lemma name_shift (c : Cursor) : name (c.shift d) = (name c).shift d := accept_shift c _ _

/-- What becomes of a string's content when the text is moved. -/
def shiftBody (d : Shift) :
    Except ReadError (List Char × Cursor) → Except ReadError (List Char × Cursor)
  | .ok (text, c) => .ok (text, c.shift d)
  | .error e => .error (e.shift d)

lemma shiftBody_map (x : Except ReadError (List Char × Cursor)) (f : List Char → List Char) :
    shiftBody d (x.map fun (text, c) => (f text, c)) =
      (shiftBody d x).map fun (text, c) => (f text, c) := by
  cases x <;> rfl

lemma stringBody_shift (file : Nat) (start m : Mark) (cs : List Char) :
    stringBody file (start.shift d) ⟨m.shift d, cs⟩ =
      shiftBody d (stringBody file start ⟨m, cs⟩) := by
  match cs with
  | [] =>
    rw [stringBody_nil, stringBody_nil]
    rfl
  | c :: rest =>
    by_cases hq : c = '"'
    · rw [hq, stringBody_quote, stringBody_quote, Mark.step_shift]
      rfl
    by_cases hb : c = '\\'
    · subst hb
      match rest with
      | [] =>
        rw [stringBody_lone_backslash, stringBody_lone_backslash, Mark.step_shift]
        rfl
      | letter :: rest =>
        rw [stringBody_escape, stringBody_escape, Mark.step_shift, Mark.step_shift]
        cases Text.unescape? letter with
        | none => rfl
        | some ch => simp only [stringBody_shift file start _ rest, shiftBody_map _ (ch :: ·)]
    · rw [stringBody_plain _ hq hb, stringBody_plain _ hq hb, Mark.step_shift,
        stringBody_shift file start _ rest, shiftBody_map _ (c :: ·)]
termination_by cs.length

lemma string_shift (file : Nat) (c : Cursor) :
    string file (c.shift d) = (string file c).shift d := by
  have h := stringBody_shift (d := d) file c.mark (c.past ['"']).mark (c.past ['"']).rest
  have hp : (c.shift d).past ['"'] = ⟨(c.past ['"']).mark.shift d, (c.past ['"']).rest⟩ :=
    Cursor.past_shift c _
  simp only [string, Cursor.shift_mark, hp, h]
  cases stringBody file c.mark (c.past ['"']) with
  | error e => rfl
  | ok r => rfl

lemma dispatch_shift (file : Nat) (c : Cursor) (ch : Char) :
    dispatch file (c.shift d) ch = (dispatch file c ch).shift d := by
  have hr : refuse file (c.shift d) .danglingMember ['.'] = _ := refuse_shift file c rfl _
  unfold dispatch
  split
  · exact accept_shift c _ _
  · exact accept_shift c _ _
  · simp only [string_shift, keyword_shift, hr, Cursor.shift_rest, numeral_shift, name_shift,
      apply_ite (shift d)]

end Scanned

namespace Cursor

lemma skipTrivia_shift (c : Cursor) : (c.shift d).skipTrivia = c.skipTrivia.shift d := by
  have hblanks (c : Cursor) : (c.shift d).skipBlanks = c.skipBlanks.shift d := skipWhile_shift _ c
  have hcomment (c : Cursor) : (c.shift d).skipComment = c.skipComment.shift d := by
    rw [skipComment, past_shift, skipLine_shift]
    rfl
  fun_induction skipTrivia c with
  | case1 c rest h ih =>
    rw [skipTrivia, hblanks]
    split
    · rw [hcomment, ih]
    · rename_i hne
      exact absurd h (hne rest)
  | case2 c h =>
    rw [skipTrivia, hblanks]
    split
    · rename_i rest hr
      exact absurd hr (h rest)
    · rfl

end Cursor

lemma Scanned.next_shift (file : Nat) (attached : Bool) (c : Cursor) :
    next file attached (c.shift d) = (next file attached c).shift d := by
  simp only [next, Cursor.shift_rest, Cursor.skipTrivia_shift, member_shift, apply_ite (shift d)]
  congr 1
  split
  · rfl
  · exact dispatch_shift file _ _

namespace Scan

def shift (d : Shift) (s : Scan) : Scan :=
  ⟨s.lexemes.map (Lexeme.shift d), match s.ending with
    | .ok m => .ok (m.shift d)
    | .error e => .error (e.shift d)⟩

/-- The scan of a text that stands further behind is the scan of the text, moved. -/
theorem run_shift (file : Nat) (attached : Bool) (c : Cursor) :
    run file attached (c.shift d) = (run file attached c).shift d := by
  fun_induction run file attached c with
  | case1 attached c m h =>
    rw [run_eq, Scanned.next_shift, h]
    rfl
  | case2 attached c e h =>
    rw [run_eq, Scanned.next_shift, h]
    rfl
  | case3 attached c l rest h s ih =>
    rw [run_eq, Scanned.next_shift, h]
    simp only [Scanned.shift, Lexeme.shift, ih]
    rfl

end Scan

end YinFrontEnd
