import YinFrontEnd.Lexeme.Scan
import YinFrontEnd.Proofs.Source.Position

/-!
# Reading quoted text

What stands between two quotes is described one character or one escape at a time, without
regard to the blocks in which the scanner takes it. The scanner reads exactly what is so
described, and every text has a description, the one that is written.
-/
namespace YinFrontEnd

namespace Text

/-- The characters `body` between quotes stand for the text. -/
inductive Quoted : List Char → List Char → Prop
  | nil : Quoted [] []
  | plain {c : Char} {body text : List Char} :
      c ≠ '"' → c ≠ '\\' → Quoted body text → Quoted (c :: body) (c :: text)
  | escape {letter c : Char} {body text : List Char} :
      unescape? letter = some c → Quoted body text → Quoted ('\\' :: letter :: body) (c :: text)

lemma Quoted.append {body text body' text' : List Char} (h : Quoted body text)
    (h' : Quoted body' text') :
    Quoted (body ++ body') (text ++ text') := by
  induction h with
  | nil => exact h'
  | plain hq hb _ ih => exact .plain hq hb ih
  | escape hl _ ih => exact .escape hl ih

/-- What the content of a string does not go on into. -/
inductive Halts : List Char → Prop
  | nil : Halts []
  | backslash : Halts ['\\']
  | quote (rest : List Char) : Halts ('"' :: rest)
  | escape {letter : Char} (rest : List Char) : unescape? letter = none →
      Halts ('\\' :: letter :: rest)

/-- Every text begins with the content of a string. -/
lemma exists_quoted (cs : List Char) : ∃ body text rest, cs = body ++ rest ∧ Quoted body text ∧
    Halts rest := by
  induction cs using List.twoStepInduction with
  | nil => exact ⟨[], [], [], rfl, .nil, .nil⟩
  | singleton c =>
    by_cases hq : c = '"'
    · exact ⟨[], [], [c], rfl, .nil, hq ▸ .quote []⟩
    by_cases hb : c = '\\'
    · exact ⟨[], [], [c], rfl, .nil, hb ▸ .backslash⟩
    · exact ⟨[c], [c], [], rfl, .plain hq hb .nil, .nil⟩
  | cons_cons c d cs ih ih' =>
    by_cases hq : c = '"'
    · exact ⟨[], [], c :: d :: cs, rfl, .nil, hq ▸ .quote _⟩
    by_cases hb : c = '\\'
    · subst hb
      cases hl : unescape? d with
      | none => exact ⟨[], [], _, rfl, .nil, .escape cs hl⟩
      | some ch =>
        obtain ⟨body, text, rest, rfl, hbody, hrest⟩ := ih
        exact ⟨'\\' :: d :: body, ch :: text, rest, rfl, .escape hl hbody, hrest⟩
    · obtain ⟨body, text, rest, hcs, hbody, hrest⟩ := ih' d
      exact ⟨c :: body, c :: text, rest, by rw [hcs]; rfl, .plain hq hb hbody, hrest⟩

lemma ne_of_escapeLetter?_eq_none {c : Char} (h : escapeLetter? c = none) :
    c ≠ '"' ∧ c ≠ '\\' := by
  constructor
  · rintro rfl
    exact absurd h (by decide)
  · rintro rfl
    exact absurd h (by decide)

lemma quoted_flatMap_quotedChar (text : List Char) : Quoted (text.flatMap quotedChar) text := by
  induction text with
  | nil => exact .nil
  | cons c text ih =>
    rw [List.flatMap_cons, quotedChar]
    cases h : escapeLetter? c with
    | none =>
      obtain ⟨hq, hb⟩ := ne_of_escapeLetter?_eq_none h
      exact .plain hq hb ih
    | some letter => exact .escape (unescape?_escapeLetter? h) ih

end Text

namespace Scanned

variable {file : Nat} {start : Mark}

/-- One block, and what ends it. -/
lemma stringBody_eq (c : Cursor) : stringBody file start c =
    match c.skipToQuote.rest with
    | '"' :: rest =>
        .ok (c.blockBefore Cursor.isQuoteMark, ⟨c.skipToQuote.mark.step '"', rest⟩)
    | '\\' :: letter :: rest =>
        match Text.unescape? letter with
        | none => .error ⟨.invalidEscape letter,
            c.skipToQuote.mark.spanTo file ((c.skipToQuote.mark.step '\\').step letter)⟩
        | some ch =>
            (stringBody file start ⟨(c.skipToQuote.mark.step '\\').step letter, rest⟩).map
              fun (text, d) => (c.blockBefore Cursor.isQuoteMark ++ ch :: text, d)
    | tail => .error ⟨.unterminatedString, start.spanTo file (c.skipToQuote.mark.after tail)⟩ := by
  rw [stringBody]
  split
  · simp_all
  · rename_i letter rest h
    rw [h]
    cases hu : Text.unescape? letter <;> simp only [hu]
  · simp_all

lemma skipToQuote_of_mark {m : Mark} {cs : List Char}
    (h : ∀ c ∈ cs.head?, c = '"' ∨ c = '\\') : Cursor.skipToQuote ⟨m, cs⟩ = ⟨m, cs⟩ := by
  rw [Cursor.skipToQuote_eq, Cursor.skipWhile]
  cases cs with
  | nil => rfl
  | cons c cs =>
    obtain rfl | rfl := h c rfl <;> simp

lemma blockBefore_of_mark {m : Mark} {cs : List Char}
    (h : ∀ c ∈ cs.head?, c = '"' ∨ c = '\\') :
    Cursor.blockBefore Cursor.isQuoteMark ⟨m, cs⟩ = [] := by
  rw [Cursor.blockBefore_eq Cursor.marks_isQuoteMark]
  cases cs with
  | nil => rfl
  | cons c cs =>
    obtain rfl | rfl := h c rfl <;> simp

lemma skipToQuote_plain (m : Mark) {c : Char} (hq : c ≠ '"') (hb : c ≠ '\\') (cs : List Char) :
    Cursor.skipToQuote ⟨m, c :: cs⟩ = Cursor.skipToQuote ⟨m.step c, cs⟩ := by
  simp [Cursor.skipToQuote_eq, Cursor.skipWhile, hq, hb, Mark.after_cons]

lemma blockBefore_plain (m : Mark) {c : Char} (hq : c ≠ '"') (hb : c ≠ '\\') (cs : List Char) :
    Cursor.blockBefore Cursor.isQuoteMark ⟨m, c :: cs⟩ =
      c :: Cursor.blockBefore Cursor.isQuoteMark ⟨m.step c, cs⟩ := by
  simp [Cursor.blockBefore_eq Cursor.marks_isQuoteMark, hq, hb]

lemma stringBody_nil (m : Mark) : stringBody file start ⟨m, []⟩ =
    .error ⟨.unterminatedString, start.spanTo file m⟩ := by
  rw [stringBody_eq, skipToQuote_of_mark (by simp)]
  rfl

lemma stringBody_quote (m : Mark) (rest : List Char) : stringBody file start ⟨m, '"' :: rest⟩ =
    .ok ([], ⟨m.step '"', rest⟩) := by
  rw [stringBody_eq, skipToQuote_of_mark (by simp), blockBefore_of_mark (by simp)]
  rfl

lemma stringBody_lone_backslash (m : Mark) : stringBody file start ⟨m, ['\\']⟩ =
    .error ⟨.unterminatedString, start.spanTo file (m.step '\\')⟩ := by
  rw [stringBody_eq, skipToQuote_of_mark (by simp)]
  rfl

lemma stringBody_escape (m : Mark) (letter : Char) (rest : List Char) :
    stringBody file start ⟨m, '\\' :: letter :: rest⟩ =
      match Text.unescape? letter with
      | none => .error ⟨.invalidEscape letter, m.spanTo file ((m.step '\\').step letter)⟩
      | some c => (stringBody file start ⟨(m.step '\\').step letter, rest⟩).map
          fun (text, d) => (c :: text, d) := by
  rw [stringBody_eq, skipToQuote_of_mark (by simp), blockBefore_of_mark (by simp)]
  rfl

/-- A plain character only comes in front of what is read after it, although the scanner takes
it together with the whole block up to the next quote or backslash. -/
lemma stringBody_plain (m : Mark) {c : Char} (hq : c ≠ '"') (hb : c ≠ '\\') (rest : List Char) :
    stringBody file start ⟨m, c :: rest⟩ =
      (stringBody file start ⟨m.step c, rest⟩).map fun (text, d) => (c :: text, d) := by
  rw [stringBody_eq, stringBody_eq ⟨m.step c, rest⟩, skipToQuote_plain m hq hb,
    blockBefore_plain m hq hb]
  split
  · rfl
  · rename_i letter tail _
    cases Text.unescape? letter with
    | none => rfl
    | some ch =>
      simp only
      cases stringBody file start ⟨_, tail⟩ <;> rfl
  · rfl

/-- The content of a string comes in front of what is read after it. -/
lemma stringBody_append {body text : List Char} (h : Text.Quoted body text) (m : Mark)
    (rest : List Char) :
    stringBody file start ⟨m, body ++ rest⟩ =
      (stringBody file start ⟨m.after body, rest⟩).map fun (s, d) => (text ++ s, d) := by
  induction h generalizing m with
  | nil =>
    rw [List.nil_append, Mark.after_nil]
    cases stringBody file start ⟨m, rest⟩ <;> rfl
  | plain hq hb _ ih =>
    rw [List.cons_append, stringBody_plain m hq hb, ih, Mark.after_cons]
    cases stringBody file start ⟨_, rest⟩ <;> rfl
  | escape hl _ ih =>
    rw [List.cons_append, List.cons_append, stringBody_escape, hl, Mark.after_cons, Mark.after_cons]
    simp only [ih]
    cases stringBody file start ⟨_, rest⟩ <;> rfl

/-- What is described is read, up to its closing quote. -/
theorem stringBody_of_quoted {body text : List Char} (h : Text.Quoted body text) (m : Mark)
    (rest : List Char) : stringBody file start ⟨m, body ++ '"' :: rest⟩ =
      .ok (text, ⟨m.after (body ++ ['"']), rest⟩) := by
  rw [stringBody_append h, stringBody_quote, Mark.after_append, Mark.after_singleton]
  simp [Except.map]

/-- What becomes of the content of a string that begins after `before` in a text, with its
opening quote further in front. -/
def BodySound (file : Nat) (text before rest : List Char) :
    Except ReadError (List Char × Cursor) → Prop
  | .ok (s, d) => ∃ body, Text.Quoted body s ∧ rest = body ++ '"' :: d.rest ∧
      d.After text (before ++ (body ++ ['"']))
  | .error e => e.span.CoversIn file text ∧
      (e.fault = .unterminatedString ∨ ∃ c, e.fault = .invalidEscape c)

/-- What is read was described, and a mistake lies where it is said to lie. -/
theorem bodySound_stringBody {text opened quoted : List Char} (rest : List Char) {m : Mark}
    (ho : quoted ≠ []) (hs : start = Mark.origin.after opened)
    (h : (⟨m, rest⟩ : Cursor).After text (opened ++ quoted)) :
    BodySound file text (opened ++ quoted) rest (stringBody file start ⟨m, rest⟩) := by
  have hm : m = Mark.origin.after (opened ++ quoted) := h.mark_eq
  obtain ⟨body, s, tail, rfl, hbody, htail⟩ := Text.exists_quoted rest
  have htext : opened ++ quoted ++ (body ++ tail) = text := h.text_eq
  rw [stringBody_append hbody]
  cases htail with
  | nil =>
    rw [stringBody_nil]
    refine ⟨⟨opened, quoted ++ body, [], by simpa using htext, by simp [ho], ?_⟩, .inl rfl⟩
    rw [hs, hm, ← Mark.after_append, List.append_assoc, Span.spanTo_after]
  | backslash =>
    rw [stringBody_lone_backslash]
    refine ⟨⟨opened, quoted ++ body ++ ['\\'], [], by simpa using htext, by simp, ?_⟩, .inl rfl⟩
    rw [hs, hm, ← Mark.after_append, ← Mark.after_singleton, ← Mark.after_append]
    simp only [List.append_assoc, Span.spanTo_after]
  | quote tail =>
    rw [stringBody_quote]
    refine ⟨body, by simpa using hbody, rfl, ⟨by simpa using htext, ?_⟩⟩
    rw [hm, ← Mark.after_singleton, ← Mark.after_append, ← Mark.after_append, List.append_assoc]
  | @escape letter tail hl =>
    rw [stringBody_escape, hl]
    refine ⟨⟨opened ++ quoted ++ body, ['\\', letter], tail, by simpa using htext, by simp, ?_⟩,
      .inr ⟨letter, rfl⟩⟩
    have hmark : ((m.after body).step '\\').step letter =
        Mark.origin.after (opened ++ quoted ++ body ++ ['\\', letter]) := by
      rw [hm, ← Mark.after_append]
      exact (Mark.after_append _ _ ['\\', letter]).symm
    rw [hmark, hm, ← Mark.after_append, Span.spanTo_after]

end Scanned

end YinFrontEnd
