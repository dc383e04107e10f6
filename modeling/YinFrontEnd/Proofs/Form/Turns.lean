import YinFrontEnd.Proofs.Form.Descent

/-!
# Reading in so many turns

The loops and calls of a reader by descent are cut off here after a number of turns, nested or
one after another. Nothing in their definitions says that a turn gets on in the text, so a turn
that consumed nothing would be repeated until the cut. No such turn exists: with two turns for
each character and two more nothing is cut off, and what is read is what the reader reads.
-/
namespace YinFrontEnd.Limited

open Descent (Outcome Onward)

variable {α β γ : Type}

/-- Goes on with what has been read, unless there was a mistake or reading was cut off. -/
def andThen (r : Option (Outcome α)) (f : Interner → α → Option (Outcome β)) :
    Option (Outcome β) :=
  match r with
  | none => none
  | some (names, .error e) => some (names, .error e)
  | some (names, .ok a) => f names a

/-- Moves over blanks and comments. -/
def skipTrivia : Nat → Cursor → Option Cursor
  | 0, _ => none
  | n + 1, c =>
      if ['-', '-'].isPrefixOf c.skipBlanks.rest then skipTrivia n c.skipBlanks.skipLine
      else some c.skipBlanks

/-- The content of a string from a cursor after its opening quote, which is at `start`, and the
cursor after its closing quote. -/
def stringBody (file : Nat) (start : Mark) :
    Nat → Cursor → Option (Except ReadError (List Char × Cursor))
  | 0, _ => none
  | n + 1, c =>
      match c.skipToQuote.rest with
      | '"' :: rest =>
          some (.ok (c.blockBefore Cursor.isQuoteMark, ⟨c.skipToQuote.mark.step '"', rest⟩))
      | '\\' :: letter :: rest =>
          let stop := (c.skipToQuote.mark.step '\\').step letter
          match Text.unescape? letter with
          | none => some (.error ⟨.invalidEscape letter, c.skipToQuote.mark.spanTo file stop⟩)
          | some ch => (stringBody file start n ⟨stop, rest⟩).map fun r => r.map fun p =>
              (c.blockBefore Cursor.isQuoteMark ++ ch :: p.1, p.2)
      | tail =>
          some (.error ⟨.unterminatedString, start.spanTo file (c.skipToQuote.mark.after tail)⟩)

/-- What begins with the character `ch` at a cursor. -/
def dispatch (file n : Nat) (c : Cursor) (ch : Char) : Option Scanned :=
  if ch = '"' then
    (stringBody file c.mark n (c.past ['"'])).map fun r =>
      match r with
      | .error e => .fault e
      | .ok (text, d) => .lexeme ⟨.str (String.ofList text), c.mark, d.mark⟩ d
  else some (Scanned.dispatch file c ch)

/-- Reads the members that stand directly behind the form `v`, which begins at `start`. -/
def members (file : Nat) (start : Mark) :
    Nat → Interner → Form → Cursor → Option (Outcome (Form × Cursor))
  | 0, _, _, _ => none
  | n + 1, names, v, c =>
      match c.rest with
      | '.' :: rest =>
          let point := c.mark.step '.'
          let word := rest.takeWhile Token.isNameChar
          if word = [] then some (names, .error ⟨.danglingMember, c.mark.spanTo file point⟩)
          else
            let stop := point.after word
            let met := names.intern (String.ofList word)
            members file start n met.1
              (.member (start.spanTo file stop) v ⟨met.2, point.spanTo file stop⟩)
              ⟨stop, rest.dropWhile Token.isNameChar⟩
      | _ => some (names, .ok (v, c))

mutual

/-- Reads the form that begins with the character `ch` at a cursor. -/
def form (file : Nat) : Nat → Interner → Cursor → Char → Option (Outcome (Form × Cursor))
  | 0, _, _, _ => none
  | n + 1, names, c, ch =>
      match dispatch file n c ch with
      | none | some (.finish _) => none
      | some (.fault e) => some (names, .error e)
      | some (.lexeme l d) =>
          match l.token with
          | .opening k =>
              andThen (elements file k l.start n names d) fun names r =>
                members file l.start n names (.group (l.start.spanTo file r.2.1) k r.1) r.2.2
          | .name s =>
              let met := names.intern s
              members file l.start n met.1 (.name (l.span file) met.2) d
          | .keyword s =>
              let met := names.intern s
              some (met.1, .ok (.keyword (l.span file) met.2, d))
          | .str s =>
              let met := names.intern s
              some (met.1, .ok (.str (l.span file) met.2, d))
          | .numeral (.int v) => some (names, .ok (.int (l.span file) v, d))
          | .numeral (.float b) => some (names, .ok (.float (l.span file) b, d))
          -- No form begins with one of these.
          | .closing k => some (names, .error ⟨.unexpectedCloser k, l.span file⟩)
          | .member _ => some (names, .error ⟨.danglingMember, l.span file⟩)

/-- Reads the elements of the group that `k` opened at `start`, and its closing bracket. -/
def elements (file : Nat) (k : Delimiter) (start : Mark) :
    Nat → Interner → Cursor → Option (Outcome (List Form × Mark × Cursor))
  | 0, _, _ => none
  | n + 1, names, c =>
      match skipTrivia n c with
      | none => none
      | some e =>
          match e.rest with
          | [] =>
              some (names, .error ⟨.unclosedDelimiter k, start.spanTo file (start.step k.opening)⟩)
          | ch :: _ =>
              match Delimiter.ofClosing? ch with
              | some j =>
                  let stop := (e.past [ch]).mark
                  if j = k then some (names, .ok ([], stop, e.past [ch]))
                  else
                    some (names, .error ⟨.mismatchedCloser k
                      (start.spanTo file (start.step k.opening)) j, e.mark.spanTo file stop⟩)
              | none =>
                  andThen (form file n names e ch) fun names r =>
                    andThen (elements file k start n names r.2) fun names rs =>
                      some (names, .ok (r.1 :: rs.1, rs.2))

end

/-- Reads the statements of a program up to the end of the text. -/
def statements (file : Nat) : Nat → Interner → Cursor → Option (Outcome (List Form × Mark))
  | 0, _, _ => none
  | n + 1, names, c =>
      match skipTrivia n c with
      | none => none
      | some e =>
          match e.rest with
          | [] => some (names, .ok ([], e.mark))
          | ch :: _ =>
              match Delimiter.ofClosing? ch with
              | some j =>
                  some (names, .error ⟨.unexpectedCloser j, e.mark.spanTo file (e.past [ch]).mark⟩)
              | none =>
                  andThen (form file n names e ch) fun names r =>
                    andThen (statements file n names r.2) fun names rs =>
                      some (names, .ok (r.1 :: rs.1, rs.2))

/-- Reads a program. -/
def read (file n : Nat) (names : Interner) (text : String) : Option (Outcome Form) :=
  andThen (statements file n names (Cursor.start text.toList)) fun names r =>
    some (names, .ok (.block (Mark.origin.spanTo file r.2) r.1))

variable {file n : Nat} {c : Cursor} {names : Interner} {start : Mark}

lemma skipLine_comment {rest : List Char} (h : c.rest = '-' :: '-' :: rest) :
    c.skipLine = c.skipComment := by
  have hp : c.past ['-', '-'] = ⟨c.mark.after ['-', '-'], rest⟩ := Cursor.past_eq h
  rw [Cursor.skipComment, hp, Cursor.skipLine_eq, Cursor.skipLine_eq, Cursor.skipWhile,
    Cursor.skipWhile, h]
  simp [Mark.after_cons]

lemma exists_eq_succ (h : c.rest.length < n) : ∃ m, n = m + 1 := ⟨n - 1, by omega⟩

theorem skipTrivia_eq (h : c.rest.length < n) : skipTrivia n c = some c.skipTrivia := by
  fun_induction Cursor.skipTrivia c generalizing n with
  | case1 c rest hr ih =>
    obtain ⟨n, rfl⟩ := exists_eq_succ h
    have hlt : c.skipBlanks.skipComment.rest.length < c.rest.length :=
      Nat.lt_of_lt_of_le (Cursor.skipComment_length_lt (by simp [hr]))
        (Cursor.skipWhile_length_le _ c)
    have hp : ['-', '-'].isPrefixOf ('-' :: '-' :: rest) = true :=
      List.isPrefixOf_iff_prefix.mpr ⟨rest, rfl⟩
    rw [skipTrivia, hr, if_pos hp, skipLine_comment hr]
    exact ih (by omega)
  | case2 c hr =>
    obtain ⟨n, rfl⟩ := exists_eq_succ h
    rw [skipTrivia, if_neg]
    intro hp
    rw [List.isPrefixOf_iff_prefix] at hp
    obtain ⟨rest, hrest⟩ := hp
    exact hr rest hrest.symm

lemma stringBody_eq (h : c.rest.length < n) :
    stringBody file start n c = some (Scanned.stringBody file start c) := by
  fun_induction Scanned.stringBody file start c generalizing n with
  | case1 c rest hr =>
    obtain ⟨n, rfl⟩ := exists_eq_succ h
    rw [stringBody, hr]
    rfl
  | case2 c letter rest hr stop =>
    rename_i hu
    obtain ⟨n, rfl⟩ := exists_eq_succ h
    rw [stringBody, hr]
    simp only [hu]
    rfl
  | case3 c letter rest hr stop ch hu =>
    rename_i ih
    obtain ⟨n, rfl⟩ := exists_eq_succ h
    have hle : c.skipToQuote.rest.length ≤ c.rest.length := Cursor.skipToByte_length_le _ c
    rw [hr, List.length_cons, List.length_cons] at hle
    have hrec := @ih n (by dsimp only; omega)
    rw [stringBody, hr]
    simp only [hu]
    rw [hrec]
    rfl
  | case4 c hq hb =>
    obtain ⟨n, rfl⟩ := exists_eq_succ h
    rw [stringBody]
    split
    · rename_i rest hr
      exact absurd hr (hq rest)
    · rename_i letter rest hr
      exact absurd hr (hb letter rest)
    · rfl

lemma dispatch_eq {ch : Char} {rest : List Char} (hr : c.rest = ch :: rest)
    (h : c.rest.length ≤ n) : dispatch file n c ch = some (Scanned.dispatch file c ch) := by
  rw [dispatch]
  split
  · rename_i hq
    subst hq
    have hp : (c.past ['"']).rest.length < c.rest.length :=
      Cursor.past_length_lt (by simp) (by simp [hr])
    rw [stringBody_eq (by omega), Option.map_some, Scanned.dispatch_quote]
    rfl
  · rfl

/-- Changes what has been read. -/
def map (g : α → β) (r : Outcome α) : Outcome β := (r.1, r.2.map g)

/-- Forgets that a cursor behind what has been read is not before `c`. -/
abbrev bare {c : Cursor} (p : α × Onward c) : α × Cursor := (p.1, p.2.1)

lemma andThen_map {r : Outcome α} {g : α → β} {f : Interner → β → Option (Outcome γ)}
    {h : Interner → α → Outcome γ} (hf : ∀ names a, f names (g a) = some (h names a)) :
    andThen (some (map g r)) f = some (r.andThen h) := by
  obtain ⟨names, e | a⟩ := r
  · rfl
  · exact hf names a

lemma andThen_some {r : Outcome α} {f : Interner → α → Option (Outcome β)}
    {h : Interner → α → Outcome β} (hf : ∀ names a, f names a = some (h names a)) :
    andThen (some r) f = some (r.andThen h) := by
  obtain ⟨names, e | a⟩ := r
  · rfl
  · exact hf names a

lemma map_andThen (r : Outcome α) (g : β → γ) (h : Interner → α → Outcome β) :
    map g (r.andThen h) = r.andThen fun names a => map g (h names a) := by
  obtain ⟨names, e | a⟩ := r <;> rfl

lemma map_bare_trans {d : Cursor} (r : Outcome (α × Onward d))
    (h : d.rest.length ≤ c.rest.length) :
    map bare (r.andThen fun names (a, e) => (names, .ok (a, e.trans h))) = map bare r := by
  obtain ⟨names, e | ⟨a, e⟩⟩ := r <;> rfl

lemma members_eq (v : Form) (h : c.rest.length < n) :
    members file start n names v c = some (map bare (Descent.members file start names v c)) := by
  fun_induction Descent.members file start names v c generalizing n with
  | case1 names v c rest hr point word =>
    rename_i hw
    obtain ⟨n, rfl⟩ := exists_eq_succ h
    rw [members, hr]
    exact if_pos hw
  | case2 names v c rest hr point word hw stop more m hm w hlt =>
    rename_i ih
    obtain ⟨n, rfl⟩ := exists_eq_succ h
    have hrec := @ih n (by dsimp only; omega)
    rw [members, hr]
    refine (if_neg hw).trans ?_
    dsimp only
    rw [hm, map_bare_trans]
    exact hrec
  | case3 names v c hr =>
    obtain ⟨n, rfl⟩ := exists_eq_succ h
    rw [members]
    split
    · rename_i rest hrest
      exact absurd hrest (hr rest)
    · rfl

section Next

variable {l : Lexeme} {d : Cursor} {ch : Char} {rest : List Char} {k : Delimiter}

lemma next_finish (h : c.skipTrivia.rest = []) :
    Scanned.next file false c = .finish c.skipTrivia.mark := by
  simp [Scanned.next, h]

lemma next_dispatch (file : Nat) (h : c.skipTrivia.rest = ch :: rest) :
    Scanned.next file false c = Scanned.dispatch file c.skipTrivia ch := by
  simp [Scanned.next, h]

lemma dispatch_ofClosing (h : Delimiter.ofClosing? ch = some k) :
    Scanned.dispatch file c ch = Scanned.accept c (.closing k) [ch] := by
  rw [Delimiter.ofClosing?_eq_some_iff] at h
  subst h
  cases k <;> rfl

/-- What begins with any other character than a closing bracket begins a form. -/
lemma begins_of_dispatch (h : Delimiter.ofClosing? ch = none)
    (hd : Scanned.dispatch file c ch = .lexeme l d) : Descent.Begins l := by
  refine ⟨fun k hk => ?_, Scanned.not_isMember_of_dispatch hd⟩
  simp only [Scanned.dispatch, h, Scanned.string, Scanned.keyword, Scanned.numeral, Scanned.name,
    Scanned.accept, Scanned.refuse] at hd
  repeat' split at hd
  all_goals cases hd
  all_goals contradiction

/-- The elements of a group are read in full within `n` turns, if so many are enough for the
characters that are left. -/
def EnoughForElements (file n : Nat) : Prop :=
  ∀ (k : Delimiter) (start : Mark) (names : Interner) (c : Cursor), 2 * c.rest.length + 2 ≤ n →
    elements file k start n names c = some (map (fun p => (p.1, p.2.1, p.2.2.1))
      (Descent.elements file k start names c))

/-- A form is then read in full within one turn more. -/
lemma form_eq (h : EnoughForElements file n) (hlt : d.rest.length < c.rest.length)
    (hr : c.rest = ch :: rest) (hn : 2 * c.rest.length ≤ n)
    (hd : Scanned.dispatch file c ch = .lexeme l d) :
    form file (n + 1) names c ch = some (map bare (Descent.form file names l d)) := by
  rw [form, dispatch_eq hr (by omega), hd, Descent.form]
  dsimp only
  cases ht : l.token with
  | opening k =>
    dsimp only
    rw [h k l.start names d (by omega), map_andThen]
    refine andThen_map fun more r => ?_
    obtain ⟨fs, stop, e⟩ := r
    have he := e.2
    exact (members_eq _ (by dsimp only; omega)).trans (congrArg some (map_bare_trans _ _).symm)
  | name s => exact members_eq _ (by omega)
  | keyword s => rfl
  | str s => rfl
  | numeral v => cases v <;> rfl
  | closing k => rfl
  | member s => rfl

/-- What begins with a character that is neither blank nor a closing bracket is a mistake, or a
lexeme of its own with which a form begins. -/
lemma form_cases (file : Nat) (names : Interner) (h : EnoughForElements file n)
    (hr : c.rest = ch :: rest) (hb : Text.isBlank ch = false)
    (hclose : Delimiter.ofClosing? ch = none) (hn : 2 * c.rest.length ≤ n) :
    (∃ e, Scanned.dispatch file c ch = .fault e ∧
      form file (n + 1) names c ch = some (names, .error e)) ∨
    ∃ l d, Scanned.dispatch file c ch = .lexeme l d ∧ Descent.Begins l ∧
      d.rest.length < c.rest.length ∧
      form file (n + 1) names c ch = some (map bare (Descent.form file names l d)) := by
  cases hd : Scanned.dispatch file c ch with
  | finish m =>
    simp only [Scanned.dispatch, Scanned.string, Scanned.keyword, Scanned.numeral, Scanned.name,
      Scanned.accept, Scanned.refuse] at hd
    repeat' split at hd
    all_goals cases hd
  | fault e =>
    refine .inl ⟨e, rfl, ?_⟩
    rw [form, dispatch_eq hr (by omega), hd]
  | lexeme l d =>
    have hlt := Scanned.shortens_dispatch hr hb l d hd
    exact .inr ⟨l, d, rfl, begins_of_dispatch hclose hd, hlt, form_eq h hlt hr hn hd⟩

/-- What a turn of reading forms finds behind blanks and comments: the end of the text, a closing
bracket, or any other character, with which a mistake begins, or a form. -/
inductive Turn (file n : Nat) (names : Interner) (c : Cursor) : Prop
  | finish (rest_eq : c.skipTrivia.rest = [])
      (next_eq : Scanned.next file false c = .finish c.skipTrivia.mark) : Turn file n names c
  | closing {ch : Char} {rest : List Char} {k : Delimiter}
      (rest_eq : c.skipTrivia.rest = ch :: rest) (closes : Delimiter.ofClosing? ch = some k)
      (next_eq : Scanned.next file false c = Scanned.accept c.skipTrivia (.closing k) [ch]) :
      Turn file n names c
  | fault {ch : Char} {rest : List Char} {e : ReadError}
      (rest_eq : c.skipTrivia.rest = ch :: rest) (not_closing : Delimiter.ofClosing? ch = none)
      (next_eq : Scanned.next file false c = .fault e)
      (form_eq : form file n names c.skipTrivia ch = some (names, .error e)) : Turn file n names c
  | begins {ch : Char} {rest : List Char} {l : Lexeme} {d : Cursor}
      (rest_eq : c.skipTrivia.rest = ch :: rest) (not_closing : Delimiter.ofClosing? ch = none)
      (next_eq : Scanned.next file false c = .lexeme l d) (begins : Descent.Begins l)
      (shorter : d.rest.length < c.rest.length)
      (form_eq : form file n names c.skipTrivia ch =
        some (map bare (Descent.form file names l d))) : Turn file n names c

lemma turn (file : Nat) (names : Interner) (c : Cursor) (h : EnoughForElements file n)
    (hn : 2 * c.rest.length ≤ n) : Turn file (n + 1) names c := by
  have htrivia := Cursor.skipTrivia_length_le c
  cases hr : c.skipTrivia.rest with
  | nil => exact .finish hr (next_finish hr)
  | cons ch rest =>
    have hnext := next_dispatch file hr
    cases hclose : Delimiter.ofClosing? ch with
    | some k => exact .closing hr hclose (hnext.trans (dispatch_ofClosing hclose))
    | none =>
      have hb := Cursor.not_isBlank_of_skipTrivia hr
      obtain ⟨e, hd, hform⟩ | ⟨l, d, hd, hbegins, hlt, hform⟩ :=
        form_cases file names h hr hb hclose (by omega)
      · exact .fault hr hclose (hnext.trans hd) hform
      · exact .begins hr hclose (hnext.trans hd) hbegins (by omega) hform

end Next

/-- With two turns for each character that is left and two more, no group is cut off. -/
lemma enoughForElements (file n : Nat) : EnoughForElements file n := by
  induction n using Nat.strongRecOn with
  | _ n ih =>
    intro k start names c hn
    obtain ⟨n, rfl⟩ : ∃ m, n = m + 2 := ⟨n - 2, by omega⟩
    rw [elements, skipTrivia_eq (by omega)]
    cases turn file names c (ih n (by omega)) (by omega) with
    | finish hr hnext =>
      rw [Descent.elements_finish hnext]
      simp only [hr]
      rfl
    | closing hr hclose hnext =>
      rw [Descent.elements_closing hnext rfl]
      simp only [hr, hclose]
      split <;> rfl
    | fault hr hclose hnext hform =>
      rw [Descent.elements_fault hnext]
      simp only [hr, hclose, hform]
      rfl
    | begins hr hclose hnext hbegins hlt hform =>
      rw [Descent.elements_form hnext hbegins]
      simp only [hr, hclose, hform, map_andThen]
      refine andThen_map fun more r => ?_
      obtain ⟨f, e⟩ := r
      have he := e.2
      dsimp only
      rw [ih (n + 1) (by omega) k start more e.1 (by omega)]
      exact andThen_map fun _ _ => rfl

/-- Nor is a program. -/
lemma statements_eq (h : 2 * c.rest.length + 2 ≤ n) :
    statements file n names c = some (Descent.statements file names c) := by
  induction n using Nat.strongRecOn generalizing names c with
  | _ n ih =>
    obtain ⟨n, rfl⟩ : ∃ m, n = m + 2 := ⟨n - 2, by omega⟩
    rw [statements, skipTrivia_eq (by omega)]
    cases turn file names c (enoughForElements file n) (by omega) with
    | finish hr hnext =>
      rw [Descent.statements_finish hnext]
      simp only [hr]
    | closing hr hclose hnext =>
      rw [Descent.statements_closing hnext rfl]
      simp only [hr, hclose]
      rfl
    | fault hr hclose hnext hform =>
      rw [Descent.statements_fault hnext]
      simp only [hr, hclose, hform]
      rfl
    | begins hr hclose hnext hbegins hlt hform =>
      rw [Descent.statements_form hnext hbegins]
      simp only [hr, hclose, hform]
      refine andThen_map fun more r => ?_
      obtain ⟨f, e⟩ := r
      have he := e.2
      dsimp only
      rw [ih (n + 1) (by omega) (by omega)]
      exact andThen_some fun _ _ => rfl

/-- Reading comes to an end, whatever the text. -/
theorem read_eq (file : Nat) (names : Interner) (text : String)
    (h : 2 * text.toList.length + 2 ≤ n) :
    read file n names text = some (Form.read file names text) := by
  rw [← Descent.read_eq, read, statements_eq h]
  exact andThen_some fun _ _ => rfl

end YinFrontEnd.Limited
