import YinFrontEnd.Proofs.Lexeme.Appending

/-!
# Mistakes

A scan ends at the first mistake. What stands behind a mistake has no part in it, unless a word or
a numeral goes on into it; only a string that is not ended may be ended there.
-/
namespace YinFrontEnd

namespace Token

/-- No token goes on into a blank, a bracket or a quote. -/
lemma ends_of_mark {rest : List Char} (h : ∀ c ∈ rest.head?, Text.isBlank c = true ∨
    (∃ d : Delimiter, c = d.opening ∨ c = d.closing) ∨ c = '"') : Ends rest := by
  intro c hc
  obtain ⟨tail, rfl⟩ := List.head?_eq_some_iff.mp hc
  obtain hb | ⟨d, rfl | rfl⟩ | rfl := h c hc
  · exact ends_blank hb tail c hc
  · exact ⟨isNameChar_opening d, by cases d <;> decide⟩
  · exact ends_closing d tail _ hc
  · decide

end Token

namespace Scanned

/-- The mistake that is made where a text stands at a mark. The flag says whether a member may come
first. -/
inductive Mistaken (file : Nat) (attached : Bool) (m : Mark) : List Char → ReadError → Prop
  | string {body text tail : List Char} : Text.Quoted body text → tail = [] ∨ tail = ['\\'] →
      Mistaken file attached m ('"' :: (body ++ tail))
        ⟨.unterminatedString, m.spanTo file (m.after ('"' :: (body ++ tail)))⟩
  | escape {body text rest : List Char} {letter : Char} : Text.Quoted body text →
      Text.unescape? letter = none →
      Mistaken file attached m ('"' :: (body ++ '\\' :: letter :: rest))
        ⟨.invalidEscape letter, (m.after ('"' :: body)).spanTo file
          (m.after ('"' :: (body ++ ['\\', letter])))⟩
  | numeral {word rest : List Char} {f : Numeral.Fault} : Token.IsNumeral word →
      Numeral.read word = .error f → Token.numeralTail rest = [] →
      Mistaken file attached m (word ++ rest)
        ⟨.invalidNumber (String.ofList word) (decide (f = .outOfRange)),
          m.spanTo file (m.after word)⟩
  | keyword {rest : List Char} : (∀ c ∈ rest.head?, Token.isNameChar c = false) →
      Mistaken file attached m (':' :: rest) ⟨.emptyKeyword, m.spanTo file (m.after [':'])⟩
  | member {rest : List Char} :
      (attached = true → ∀ c ∈ rest.head?, Token.isNameChar c = false) →
      Mistaken file attached m ('.' :: rest) ⟨.danglingMember, m.spanTo file (m.after ['.'])⟩

variable {file : Nat} {attached : Bool} {m start : Mark} {body text cs rest : List Char}
  {e : ReadError} {c : Cursor}

lemma takeWhile_eq_nil_iff : rest.takeWhile Token.isNameChar = [] ↔
    ∀ c ∈ rest.head?, Token.isNameChar c = false := by
  cases rest with
  | nil => simp
  | cons c cs => simp [List.takeWhile_cons]

lemma next_quote (rest : List Char) :
    next file attached ⟨m, '"' :: rest⟩ = string file ⟨m, '"' :: rest⟩ := by
  rw [next_eq_dispatch (by decide) (by decide) (by simp), dispatch_quote]

lemma next_colon (rest : List Char) :
    next file attached ⟨m, ':' :: rest⟩ = keyword file ⟨m, ':' :: rest⟩ := by
  rw [next_eq_dispatch (by decide) (by decide) (by simp), dispatch_colon]

lemma next_point (rest : List Char) :
    next file false ⟨m, '.' :: rest⟩ = refuse file ⟨m, '.' :: rest⟩ .danglingMember ['.'] := by
  have hskip : Cursor.skipTrivia ⟨m, '.' :: rest⟩ = ⟨m, '.' :: rest⟩ :=
    Cursor.skipTrivia_self (by decide) (by simp)
  simp [next, hskip, dispatch, Delimiter.ofOpening?, Delimiter.ofClosing?]

lemma next_member (rest : List Char) :
    next file true ⟨m, '.' :: rest⟩ = member file ⟨m, '.' :: rest⟩ := by
  simp [next]

lemma refuse_eq (f : ReadFault) (ch : Char) (rest : List Char) :
    refuse file ⟨m, ch :: rest⟩ f [ch] = .fault ⟨f, m.spanTo file (m.after [ch])⟩ := by
  rw [refuse, Cursor.past_eq rfl]

/-- A mistake is found where it is made. -/
theorem next_of_mistaken (h : Mistaken file attached m cs e) :
    next file attached ⟨m, cs⟩ = .fault e := by
  have past (rest : List Char) :
      Cursor.past ⟨m, '"' :: rest⟩ ['"'] = ⟨m.after ['"'], rest⟩ := Cursor.past_eq rfl
  cases h with
  | @string _ _ tail hbody htail =>
    rw [next_quote, string, past]
    simp only [stringBody_append hbody]
    obtain rfl | rfl := htail
    · rw [stringBody_nil]
      simp [Except.map, ← Mark.after_append]
    · rw [stringBody_lone_backslash]
      simp [Except.map, ← Mark.after_append, ← Mark.after_singleton]
  | @escape _ _ rest letter hbody hl =>
    rw [next_quote, string, past]
    simp only [stringBody_append hbody, stringBody_escape, hl]
    simp [Except.map, ← Mark.after_append, ← Mark.after_singleton]
  | numeral hw hn hr => rw [next_numeral hw, numeral_eq_fault hw hn hr]
  | @keyword rest hr =>
    rw [next_colon, ← refuse_eq _ _ rest]
    simp [keyword, takeWhile_eq_nil_iff.mpr hr]
  | @member rest hr =>
    rw [← refuse_eq _ _ rest]
    cases attached with
    | true =>
      rw [next_member]
      simp [member, takeWhile_eq_nil_iff.mpr (hr rfl)]
    | false => rw [next_point]

/-- Only one mistake is made in one place. -/
lemma Mistaken.of_next {f : ReadError} (h : Mistaken file attached m cs f)
    (hn : next file attached ⟨m, cs⟩ = .fault e) : Mistaken file attached m cs e := by
  obtain rfl := fault.inj ((next_of_mistaken h).symm.trans hn)
  exact h

lemma mistaken_of_string (h : string file ⟨m, '"' :: rest⟩ = .fault e) :
    Mistaken file attached m ('"' :: rest) e := by
  have hn : next file attached ⟨m, '"' :: rest⟩ = .fault e := (next_quote rest).trans h
  obtain ⟨body, text, tail, rfl, hbody, htail⟩ := Text.exists_quoted rest
  cases htail with
  | nil => exact (Mistaken.string hbody (.inl rfl)).of_next hn
  | backslash => exact (Mistaken.string hbody (.inr rfl)).of_next hn
  | escape tail hl => exact (Mistaken.escape hbody hl).of_next hn
  | quote tail =>
    rw [string_eq hbody] at h
    exact absurd h (by simp)

lemma mistaken_of_keyword (h : keyword file ⟨m, ':' :: rest⟩ = .fault e) :
    Mistaken file attached m (':' :: rest) e := by
  by_cases hr : rest.takeWhile Token.isNameChar = []
  · exact (Mistaken.keyword (takeWhile_eq_nil_iff.mp hr)).of_next ((next_colon rest).trans h)
  · exact absurd h (by simp [keyword, hr, accept])

lemma mistaken_of_member (h : member file ⟨m, '.' :: rest⟩ = .fault e) :
    Mistaken file true m ('.' :: rest) e := by
  by_cases hr : rest.takeWhile Token.isNameChar = []
  · exact (Mistaken.member fun _ => takeWhile_eq_nil_iff.mp hr).of_next ((next_member rest).trans h)
  · exact absurd h (by simp [member, hr, accept])

lemma mistaken_of_numeral (h : numeral file ⟨m, cs⟩ = .fault e)
    (hs : Token.startsNumeral cs = true) : Mistaken file attached m cs e := by
  obtain ⟨rest, hcs, hr, hw⟩ := Token.exists_isNumeral hs
  generalize cs.take 1 ++ Token.numeralTail (cs.drop 1) = word at hcs hw
  subst hcs
  cases hread : Numeral.read word with
  | ok n =>
    rw [numeral_eq hw hread hr] at h
    exact absurd h (by simp [accept])
  | error f => exact (Mistaken.numeral hw hread hr).of_next ((next_numeral hw).trans h)

lemma mistaken_of_dispatch {ch : Char} (h : dispatch file ⟨m, ch :: rest⟩ ch = .fault e)
    (ha : ch = '.' → attached = false) : Mistaken file attached m (ch :: rest) e := by
  unfold dispatch at h
  split at h
  · exact absurd h (by simp [accept])
  · exact absurd h (by simp [accept])
  split at h
  · rename_i hq
    subst hq
    exact mistaken_of_string h
  split at h
  · rename_i hk
    subst hk
    exact mistaken_of_keyword h
  split at h
  · rename_i hp
    subst hp
    obtain rfl := ha rfl
    exact (Mistaken.member (by simp)).of_next ((next_point rest).trans h)
  split at h
  · rename_i hs
    exact mistaken_of_numeral h hs
  · exact absurd h (by simp [name, accept])

/-- What is found to be a mistake is one, behind some trivia. -/
theorem mistaken_of_next (h : next file attached ⟨m, cs⟩ = .fault e) : ∃ gap tail flag,
    cs = gap ++ tail ∧ Mistaken file flag (m.after gap) tail e ∧
      ∀ after, next file attached ⟨m, gap ++ after⟩ = next file flag ⟨m.after gap, after⟩ := by
  by_cases ha : (attached && cs.head? == some '.') = true
  · rw [Bool.and_eq_true, beq_iff_eq] at ha
    obtain ⟨rfl, hhead⟩ := ha
    obtain ⟨rest, rfl⟩ := List.head?_eq_some_iff.mp hhead
    rw [next_member] at h
    exact ⟨[], _, true, rfl, mistaken_of_member h, fun _ => rfl⟩
  · obtain ⟨gap, hgap, hmark, -, htrivia⟩ := Cursor.skipTrivia_spec ⟨m, cs⟩
    rw [next, if_neg ha] at h
    generalize Cursor.skipTrivia ⟨m, cs⟩ = d at h hgap hmark htrivia
    obtain ⟨n, tail⟩ := d
    obtain rfl : n = m.after gap := hmark
    obtain rfl : cs = gap ++ tail := hgap
    cases tail with
    | nil => exact absurd h (by simp)
    | cons ch tail =>
      -- Only where nothing was passed over may a member come first.
      by_cases hne : gap = []
      · subst hne
        refine ⟨[], _, attached, rfl, mistaken_of_dispatch h ?_, fun _ => rfl⟩
        rintro rfl
        simpa using ha
      · refine ⟨gap, _, false, rfl, mistaken_of_dispatch h fun _ => rfl, fun after => ?_⟩
        exact Scan.next_trivia (htrivia (by simp)) hne m

lemma Mistaken.append {after : List Char} (h : Mistaken file attached m cs e)
    (hs : e.code ≠ .unterminatedString) (ha : Token.Ends after) :
    Mistaken file attached m (cs ++ after) e := by
  have word {rest : List Char} (hr : ∀ c ∈ rest.head?, Token.isNameChar c = false) :
      ∀ c ∈ (rest ++ after).head?, Token.isNameChar c = false := by
    cases rest with
    | nil => exact fun c hc => (ha c hc).1
    | cons d rest => exact hr
  cases h with
  | string => exact absurd rfl hs
  | escape hbody hl =>
    rw [List.cons_append, List.append_assoc]
    exact .escape hbody hl
  | numeral hw hn hr =>
    rw [List.append_assoc]
    exact .numeral hw hn (Token.numeralTail_append_of_ends hr ha)
  | keyword hr => exact .keyword (word hr)
  | member hr => exact .member fun hattached => word (hr hattached)

/-- What comes behind an unknown escape does not matter at all. -/
lemma Mistaken.append_escape (h : Mistaken file attached m cs e) (hs : e.code = .invalidEscape)
    (after : List Char) :
    cs.head? = some '"' ∧ Mistaken file attached m (cs ++ after) e := by
  cases h with
  | escape hbody hl =>
    rw [List.cons_append, List.append_assoc]
    exact ⟨rfl, .escape hbody hl⟩
  | _ => exact absurd hs (by simp [ReadError.code, ReadFault.code])

/-- A quote ends a string that is cut short, or two of them if it is cut short within an escape. -/
lemma Mistaken.exists_close (h : Mistaken file attached m cs e)
    (hs : e.code = .unterminatedString) :
    ∃ close body text, cs ++ close = '"' :: (body ++ ['"']) ∧ Text.Quoted body text := by
  cases h with
  | @string body text tail hbody htail =>
    obtain rfl | rfl := htail
    · exact ⟨['"'], body, text, by simp, hbody⟩
    · refine ⟨['"', '"'], body ++ ['\\', '"'], text ++ ['"'], by simp, hbody.append ?_⟩
      exact .escape (by decide) .nil
  | _ => exact absurd hs (by simp [ReadError.code, ReadFault.code])

end Scanned

namespace Scan

variable {file : Nat} {text : List Char} {e : ReadError} {l : Lexeme} {ls ks : List Lexeme}

lemma ends_quote (rest : List Char) : Token.Ends ('"' :: rest) :=
  Token.ends_of_mark (by simp)

/-- A scan that ends with a mistake has come to where the mistake is made. It comes there as well if
another text stands there, unless a token goes on into that. -/
theorem exists_mistaken (he : (ofText file text).ending = .error e) : ∃ inside tail flag,
    text = inside ++ tail ∧ Scanned.Mistaken file flag (Mark.origin.after inside) tail e ∧
      ∀ front back after, tail = front ++ back → Token.Ends after →
        ofText file (inside ++ (front ++ after)) =
          ⟨(ofText file text).lexemes ++
              (run file flag ⟨Mark.origin.after inside, front ++ after⟩).lexemes,
            (run file flag ⟨Mark.origin.after inside, front ++ after⟩).ending⟩ := by
  obtain ⟨inside, rest, flag, hrest, hstop, hrun⟩ := run_before file false (Cursor.after_start text)
  rw [show (run file false (Cursor.start text)).ending = .error e from he] at hstop
  obtain ⟨gap, tail, flag', rfl, hmistaken, hgap⟩ :=
    Scanned.mistaken_of_next (next_of_run_error hstop)
  rw [← Mark.after_append] at hmistaken hgap
  refine ⟨inside ++ gap, tail, flag', ?_, hmistaken, fun front back after hback ha => ?_⟩
  · rw [List.append_assoc]
    exact hrest
  · have hwhole := hrun (gap ++ front) back after (by rw [hback, List.append_assoc]) ha
    rw [List.append_assoc, run_eq file flag, hgap, ← run_eq] at hwhole
    rw [List.append_assoc]
    exact hwhole

/-- A text has the same lexemes in front of another, unless a token goes on into that. -/
lemma exists_lexemes (file : Nat) (text : List Char) {after : List Char} (ha : Token.Ends after) :
    ∃ js, (ofText file (text ++ after)).lexemes = (ofText file text).lexemes ++ js := by
  obtain ⟨inside, rest, flag, hrest, -, hrun⟩ := run_before file false (Cursor.after_start text)
  have hwhole := hrun rest [] after (List.append_nil rest).symm ha
  rw [← List.append_assoc, ← hrest] at hwhole
  exact ⟨_, congrArg lexemes hwhole⟩

lemma run_of_mistaken {flag : Bool} {m : Mark} {tail : List Char}
    (h : Scanned.Mistaken file flag m tail e) : run file flag ⟨m, tail⟩ = ⟨[], .error e⟩ := by
  rw [run_eq, Scanned.next_of_mistaken h]

/-- A mistake remains one if a text comes behind it into which no token goes on. -/
theorem ofText_append {after : List Char} (he : (ofText file text).ending = .error e)
    (hs : e.code ≠ .unterminatedString) (ha : Token.Ends after) :
    ofText file (text ++ after) = ofText file text := by
  obtain ⟨inside, tail, flag, rfl, hmistaken, hwhole⟩ := exists_mistaken he
  have hlonger := hwhole tail [] after (List.append_nil tail).symm ha
  rw [run_of_mistaken (hmistaken.append hs ha), ← he, List.append_nil] at hlonger
  rw [List.append_assoc]
  exact hlonger

/-- An unknown escape remains one whatever comes behind it. -/
theorem ofText_append_escape (he : (ofText file text).ending = .error e)
    (hs : e.code = .invalidEscape) (after : List Char) :
    ofText file (text ++ after) = ofText file text := by
  obtain ⟨inside, tail, flag, rfl, hmistaken, hwhole⟩ := exists_mistaken he
  obtain ⟨hhead, hafter⟩ := hmistaken.append_escape hs after
  obtain ⟨rest, rfl⟩ := List.head?_eq_some_iff.mp hhead
  have hlonger := hwhole [] _ ('"' :: rest ++ after) rfl (ends_quote _)
  rw [List.nil_append, run_of_mistaken hafter, ← he, List.append_nil] at hlonger
  rw [List.append_assoc]
  exact hlonger

/-- A closing bracket is found whatever comes behind it. -/
theorem exists_closing {d : Delimiter} (hl : (ofText file text).lexemes = ls ++ l :: ks)
    (hd : l.token = .closing d) (after : List Char) :
    ∃ js, (ofText file (text ++ after)).lexemes = ls ++ l :: js := by
  obtain ⟨inside, rest, htext, hlayout, -⟩ := layout_ofText file text
  rw [hl] at hlayout
  obtain ⟨first, second, flag, rfl, hfirst, hsecond⟩ := hlayout.append_inv
  cases hsecond with
  | @cons _ _ gap word tail _ _ _ hcovers hgap _ _ _ =>
    have hspells := hcovers.spells
    rw [hd] at hspells
    obtain rfl : word = [d.closing] := hspells
    rw [List.append_assoc, List.append_assoc] at hfirst
    -- No token goes on into the bracket, so what stands in front of it is scanned as before.
    have hends : Token.Ends ([d.closing] ++ (tail ++ rest ++ after)) := Token.ends_closing d _
    obtain ⟨js, -, hsame, hrun⟩ := run_layout file gap hfirst hends Mark.origin
    obtain rfl := hsame rfl
    have hnext : Scanned.next file (attachedAfter false js)
        ⟨Mark.origin.after first, gap ++ ([d.closing] ++ (tail ++ rest ++ after))⟩ = _ :=
      next_gap hgap hcovers.spells (by rw [hd]; trivial) (by simp [hd, Token.isMember])
    have hlexeme : (⟨l.token, (Mark.origin.after first).after gap,
        (Mark.origin.after first).after (gap ++ [d.closing])⟩ : Lexeme) = l := by
      rw [← Mark.after_append, ← Mark.after_append, ← List.append_assoc]
      exact congrArg₂ (Lexeme.mk l.token) hcovers.start_eq.symm hcovers.stop_eq.symm
    rw [run_eq file (attachedAfter false js), hnext, hlexeme] at hrun
    have hwhole : first ++ (gap ++ [d.closing] ++ tail) ++ rest ++ after =
        first ++ (gap ++ ([d.closing] ++ (tail ++ rest ++ after))) := by simp
    rw [← htext, hwhole]
    exact ⟨_, congrArg Scan.lexemes hrun⟩

/-- A string that is cut short can be ended. -/
theorem exists_string (he : (ofText file text).ending = .error e)
    (hs : e.code = .unterminatedString) : ∃ close s start stop, ∀ after,
    ofText file (text ++ (close ++ after)) =
      ⟨(ofText file text).lexemes ++
          ⟨.str s, start, stop⟩ :: (run file false ⟨stop, after⟩).lexemes,
        (run file false ⟨stop, after⟩).ending⟩ := by
  obtain ⟨inside, tail, flag, rfl, hmistaken, hwhole⟩ := exists_mistaken he
  obtain ⟨close, body, s, hclose, hbody⟩ := hmistaken.exists_close hs
  refine ⟨close, String.ofList s, Mark.origin.after inside,
    (Mark.origin.after inside).after ('"' :: (body ++ ['"'])), fun after => ?_⟩
  have hlonger := hwhole [] tail ('"' :: (body ++ '"' :: after)) rfl (ends_quote _)
  rw [List.nil_append, run_eq, Scanned.next_quote, Scanned.string_eq hbody] at hlonger
  rw [List.append_assoc, ← List.append_assoc tail, hclose]
  simpa [Token.takesMember] using hlonger

/-- Closing brackets are found one after another. -/
lemma exists_closers (file : Nat) (attached : Bool) (m : Mark) (ds : List Delimiter) :
    ∃ ls n, run file attached ⟨m, ds.map Delimiter.closing⟩ = ⟨ls, .ok n⟩ ∧
      ls.map Lexeme.token = ds.map Token.closing := by
  induction ds generalizing attached m with
  | nil => exact ⟨[], m, run_nil m, rfl⟩
  | cons d ds ih =>
    obtain ⟨ls, n, hrun, hls⟩ := ih true (m.after [d.closing])
    have hnext : Scanned.next file attached ⟨m, [d.closing] ++ ds.map Delimiter.closing⟩ = _ :=
      Scanned.next_of_spells (show (Token.closing d).Spells [d.closing] from rfl) trivial
        (by simp [Token.isMember])
    refine ⟨⟨.closing d, m, m.after [d.closing]⟩ :: ls, n, ?_, by simp [hls]⟩
    rw [List.map_cons, ← List.singleton_append, run_eq, hnext]
    simp only [Token.takesMember, hrun]

end Scan

end YinFrontEnd
