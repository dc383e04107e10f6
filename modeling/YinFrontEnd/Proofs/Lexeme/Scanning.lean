import YinFrontEnd.Proofs.Lexeme.Spelling

/-!
# What scanning finds

Where a spelling of a token stands in front of a text that may follow it, the token is found.
Conversely a text is cut into lexemes that stand where they say and are spelled as they say,
with nothing lost between them, and the first mistake lies in the text as well.
-/
namespace YinFrontEnd

namespace ReadError

/-- The places that an error names: the place to blame, and for a wrong closing bracket also
the bracket that it does not fit. -/
def spans (e : ReadError) : List Span :=
  match e.fault with
  | .mismatchedCloser _ opened _ => [e.span, opened]
  | _ => [e.span]

end ReadError

namespace Scanned

variable {file : Nat} {attached : Bool} {m : Mark} {rest : List Char}

lemma accept_eq {c : Cursor} {word : List Char} (token : Token) (h : c.rest = word ++ rest) :
    accept c token word = lexeme ⟨token, c.mark, c.mark.after word⟩ ⟨c.mark.after word, rest⟩ := by
  rw [accept, Cursor.past_eq h]

lemma next_eq_dispatch {c : Char} {cs : List Char} (hb : Text.isBlank c = false) (hd : c ≠ '.')
    (hc : ¬ ['-', '-'] <+: c :: cs) :
    next file attached ⟨m, c :: cs⟩ = dispatch file ⟨m, c :: cs⟩ c := by
  simp [next, hd, Cursor.skipTrivia_self hb hc]

lemma dispatch_opening (d : Delimiter) :
    dispatch file ⟨m, d.opening :: rest⟩ d.opening =
      accept ⟨m, d.opening :: rest⟩ (.opening d) [d.opening] := by
  rw [dispatch, (Delimiter.ofOpening?_eq_some_iff _ d).mpr rfl]

lemma dispatch_closing (d : Delimiter) :
    dispatch file ⟨m, d.closing :: rest⟩ d.closing =
      accept ⟨m, d.closing :: rest⟩ (.closing d) [d.closing] := by
  have ho : Delimiter.ofOpening? d.closing = none := by cases d <;> rfl
  rw [dispatch, ho, (Delimiter.ofClosing?_eq_some_iff _ d).mpr rfl]

lemma dispatch_quote (c : Cursor) : dispatch file c '"' = string file c := rfl

lemma dispatch_colon (c : Cursor) : dispatch file c ':' = keyword file c := rfl

/-- A name character other than a colon begins a numeral or a name. -/
lemma dispatch_nameChar (c : Cursor) {ch : Char} (h : Token.isNameChar ch = true) (hk : ch ≠ ':') :
    dispatch file c ch = if Token.startsNumeral c.rest then numeral file c else name c := by
  obtain ⟨ho, hc, hq, hp, -⟩ := Token.not_special_of_isNameChar h
  simp [dispatch, ho, hc, hq, hp, hk]

lemma string_eq {body text : List Char} (h : Text.Quoted body text) :
    string file ⟨m, '"' :: (body ++ '"' :: rest)⟩ =
      lexeme ⟨.str (String.ofList text), m, m.after ('"' :: (body ++ ['"']))⟩
        ⟨m.after ('"' :: (body ++ ['"'])), rest⟩ := by
  have hb : stringBody file m ⟨m.after ['"'], body ++ '"' :: rest⟩ = _ :=
    stringBody_of_quoted h (m.after ['"']) rest
  have hp : Cursor.past ⟨m, '"' :: (body ++ '"' :: rest)⟩ ['"'] =
      ⟨m.after ['"'], body ++ '"' :: rest⟩ := Cursor.past_eq rfl
  simp only [string, hp, hb, ← Mark.after_append]
  rfl

lemma keyword_eq {word : List Char} (hw : Token.IsWord word)
    (hr : ∀ c ∈ rest.head?, Token.isNameChar c = false) :
    keyword file ⟨m, ':' :: (word ++ rest)⟩ =
      accept ⟨m, ':' :: (word ++ rest)⟩ (.keyword (String.ofList word)) (':' :: word) := by
  simp [keyword, Token.takeWhile_isNameChar hw.2 hr, hw.1]

lemma member_eq {word : List Char} (hw : Token.IsWord word)
    (hr : ∀ c ∈ rest.head?, Token.isNameChar c = false) :
    member file ⟨m, '.' :: (word ++ rest)⟩ =
      accept ⟨m, '.' :: (word ++ rest)⟩ (.member (String.ofList word)) ('.' :: word) := by
  simp [member, Token.takeWhile_isNameChar hw.2 hr, hw.1]

lemma numeral_eq {word : List Char} {n : Numeral} (hw : Token.IsNumeral word)
    (hn : Numeral.read word = .ok n) (hr : Token.numeralTail rest = []) :
    numeral file ⟨m, word ++ rest⟩ = accept ⟨m, word ++ rest⟩ (.numeral n) word := by
  obtain ⟨c, t, rfl, -⟩ := Token.exists_of_startsNumeral hw.starts
  have ht : Token.numeralTail t = t := by simpa using hw.whole
  simp [numeral, Token.numeralTail_append ht hr, hn]

lemma numeral_eq_fault {word : List Char} {e : Numeral.Fault} (hw : Token.IsNumeral word)
    (hn : Numeral.read word = .error e) (hr : Token.numeralTail rest = []) :
    numeral file ⟨m, word ++ rest⟩ =
      fault ⟨.invalidNumber (String.ofList word) (decide (e = .outOfRange)),
        m.spanTo file (m.after word)⟩ := by
  obtain ⟨c, t, rfl, -⟩ := Token.exists_of_startsNumeral hw.starts
  have ht : Token.numeralTail t = t := by simpa using hw.whole
  have hp : Cursor.past ⟨m, c :: t ++ rest⟩ (c :: t) = ⟨m.after (c :: t), rest⟩ :=
    Cursor.past_eq rfl
  rw [List.cons_append] at hp ⊢
  cases e <;> simp [numeral, refuse, Token.numeralTail_append ht hr, hn, hp]

lemma name_eq {word : List Char} (hw : Token.IsWord word)
    (hr : ∀ c ∈ rest.head?, Token.isNameChar c = false) :
    name ⟨m, word ++ rest⟩ = accept ⟨m, word ++ rest⟩ (.name (String.ofList word)) word := by
  simp [name, Token.takeWhile_isNameChar hw.2 hr]

/-- Where a numeral stands it is looked at, whether or not it can be read. -/
lemma next_numeral {word : List Char} (hw : Token.IsNumeral word) :
    next file attached ⟨m, word ++ rest⟩ = numeral file ⟨m, word ++ rest⟩ := by
  have hs := Token.startsNumeral_append hw.starts rest
  obtain ⟨c, t, ht, hc, hk, hd⟩ := Token.exists_of_startsNumeral hs
  obtain ⟨-, -, -, hp, hb⟩ := Token.not_special_of_isNameChar hc
  rw [ht] at hd hs ⊢
  rw [next_eq_dispatch hb hp hd, dispatch_nameChar _ hc hk, hs, if_pos rfl]

/-- Where a spelling of a token stands in front of a text that may follow it, the token is
found. A member is only looked for directly after what it is a member of. -/
theorem next_of_spells {token : Token} {word : List Char} (h : token.Spells word)
    (hr : token.StopsBefore rest) (ha : token.isMember = true → attached = true) :
    next file attached ⟨m, word ++ rest⟩ =
      lexeme ⟨token, m, m.after word⟩ ⟨m.after word, rest⟩ := by
  cases token with
  | opening d =>
    obtain rfl := h
    rw [List.singleton_append, next_eq_dispatch (by cases d <;> decide) (by cases d <;> decide)
      (by cases d <;> simp [Delimiter.opening]), dispatch_opening, accept_eq _ rfl]
  | closing d =>
    obtain rfl := h
    rw [List.singleton_append, next_eq_dispatch (by cases d <;> decide) (by cases d <;> decide)
      (by cases d <;> simp [Delimiter.closing]), dispatch_closing, accept_eq _ rfl]
  | member s =>
    obtain ⟨rfl, hw⟩ := h
    rw [List.cons_append, next, ha rfl]
    simp only [List.head?_cons, BEq.rfl, Bool.and_self, if_true]
    rw [member_eq hw hr, accept_eq _ rfl, String.ofList_toList]
  | name s =>
    obtain ⟨rfl, hw⟩ := h
    have hn := Token.startsNumeral_append_eq_false hw.not_numeral hw.word.1 hr
    have hm := name_eq (m := m) hw.word hr
    obtain ⟨c, t, hs⟩ := List.exists_cons_of_ne_nil hw.word.1
    have hc : Token.isNameChar c = true := hw.word.2 c (by simp [hs])
    obtain ⟨-, -, -, hp, hb⟩ := Token.not_special_of_isNameChar hc
    have hk : c ≠ ':' := by simpa [hs] using hw.not_keyword
    have hd : ¬ ['-', '-'] <+: s.toList ++ rest :=
      Token.not_comment_append hw.not_comment hw.word.1 hr
    rw [hs, List.cons_append] at hn hd ⊢
    rw [next_eq_dispatch hb hp hd, dispatch_nameChar _ hc hk, hn, if_neg (by simp),
      ← List.cons_append, ← hs, hm, accept_eq _ rfl, String.ofList_toList]
  | keyword s =>
    obtain ⟨rfl, hw⟩ := h
    rw [List.cons_append, next_eq_dispatch (by decide) (by decide) (by simp), dispatch_colon,
      keyword_eq hw hr, accept_eq _ rfl, String.ofList_toList]
  | numeral n =>
    obtain ⟨hw, hn⟩ := h
    rw [next_numeral hw, numeral_eq hw hn hr, accept_eq _ rfl]
  | str s =>
    obtain ⟨body, rfl, hb⟩ := h
    rw [List.cons_append, List.append_assoc, List.singleton_append,
      next_eq_dispatch (by decide) (by decide) (by simp), dispatch_quote, string_eq hb,
      String.ofList_toList]

end Scanned

namespace Token

lemma Spells.ne_nil {token : Token} {word : List Char} (h : token.Spells word) : word ≠ [] := by
  cases token with
  | opening d => obtain rfl := h; simp
  | closing d => obtain rfl := h; simp
  | member s => obtain ⟨rfl, -⟩ := h; simp
  | name s => obtain ⟨rfl, hw⟩ := h; exact hw.word.1
  | keyword s => obtain ⟨rfl, -⟩ := h; simp
  | numeral n =>
    obtain ⟨hw, -⟩ := h
    obtain ⟨c, t, rfl, -⟩ := exists_of_startsNumeral hw.starts
    simp
  | str s => obtain ⟨body, rfl, -⟩ := h; simp

end Token

/-- A lexeme stands after `before` in a text and is spelled by `word` there. -/
structure Lexeme.Covers (before word : List Char) (l : Lexeme) : Prop where
  start_eq : l.start = Mark.origin.after before
  stop_eq : l.stop = Mark.origin.after (before ++ word)
  spells : l.token.Spells word

lemma Lexeme.Covers.span_eq {before word : List Char} {l : Lexeme} (h : l.Covers before word)
    (file : Nat) : l.span file = Span.covering file before word := by
  rw [span, h.start_eq, h.stop_eq, Span.spanTo_after]

namespace Scanned

/-- What is found after `before` in a text is the end of the text, a mistake in it, or a
lexeme that covers what comes next and could not have been longer. -/
def Sound (file : Nat) (text before : List Char) : Scanned → Prop
  | finish m => m = Mark.origin.after text
  | fault e => ∀ s ∈ e.spans, s.CoversIn file text
  | lexeme l d => ∃ word, l.Covers before word ∧ d.After text (before ++ word) ∧
      l.token.StopsBefore d.rest

variable {file : Nat} {text before word rest : List Char} {c : Cursor}

lemma sound_accept {token : Token} (h : c.After text before) (hr : c.rest = word ++ rest)
    (hs : token.Spells word) (ht : token.StopsBefore rest) :
    (accept c token word).Sound file text before := by
  rw [accept_eq token hr]
  refine ⟨word, ⟨h.mark_eq, ?_, hs⟩, h.move hr, ht⟩
  rw [Mark.after_append, ← h.mark_eq]

lemma sound_refuse {f : ReadFault} (h : c.After text before) (hr : c.rest = word ++ rest)
    (hw : word ≠ []) (hf : ∀ s, ReadError.spans ⟨f, s⟩ = [s]) :
    (refuse file c f word).Sound file text before := by
  intro s hs
  rw [hf, List.mem_singleton] at hs
  subst hs
  refine ⟨before, word, rest, ?_, hw, ?_⟩
  · rw [← h.text_eq, hr, List.append_assoc]
  · rw [Cursor.past_eq hr, h.mark_eq, ← Mark.after_append, Span.spanTo_after]

lemma head?_dropWhile_isNameChar (cs : List Char) :
    ∀ c ∈ (cs.dropWhile Token.isNameChar).head?, Token.isNameChar c = false := by
  intro c hc
  have h := List.head?_dropWhile_not Token.isNameChar cs
  rw [Option.mem_def.mp hc] at h
  simpa using h

lemma isWord_takeWhile {cs : List Char} (h : cs.takeWhile Token.isNameChar ≠ []) :
    Token.IsWord (String.ofList (cs.takeWhile Token.isNameChar)).toList := by
  rw [String.toList_ofList]
  exact ⟨h, fun c hc => List.all_eq_true.mp List.all_takeWhile c hc⟩

/-- Where a word has to follow a character, its lack is a mistake. -/
lemma sound_marked {mark : Char} {token : Token} {f : ReadFault} (h : c.After text before)
    (hr : c.rest = mark :: rest) (hf : ∀ s, ReadError.spans ⟨f, s⟩ = [s])
    (hs : rest.takeWhile Token.isNameChar ≠ [] →
      token.Spells (mark :: rest.takeWhile Token.isNameChar))
    (ht : token.StopsBefore (rest.dropWhile Token.isNameChar)) :
    (if rest.takeWhile Token.isNameChar = [] then refuse file c f [mark]
      else accept c token (mark :: rest.takeWhile Token.isNameChar)).Sound file text before := by
  have hc : c.rest = [mark] ++ rest := hr
  have hword : c.rest =
      (mark :: rest.takeWhile Token.isNameChar) ++ rest.dropWhile Token.isNameChar := by simp [hr]
  split
  · exact sound_refuse h hc (by simp) hf
  · rename_i hne
    exact sound_accept h hword (hs hne) ht

lemma sound_keyword (h : c.After text before) (hr : c.rest = ':' :: rest) :
    (keyword file c).Sound file text before := by
  simp only [keyword, hr, List.drop_succ_cons, List.drop_zero]
  refine sound_marked h hr (fun _ => rfl) (fun hne => ⟨?_, isWord_takeWhile hne⟩)
    (head?_dropWhile_isNameChar rest)
  rw [String.toList_ofList]

lemma sound_member (h : c.After text before) (hr : c.rest = '.' :: rest) :
    (member file c).Sound file text before := by
  simp only [member, hr, List.drop_succ_cons, List.drop_zero]
  refine sound_marked h hr (fun _ => rfl) (fun hne => ⟨?_, isWord_takeWhile hne⟩)
    (head?_dropWhile_isNameChar rest)
  rw [String.toList_ofList]

lemma sound_numeral (h : c.After text before) (hn : Token.startsNumeral c.rest = true) :
    (numeral file c).Sound file text before := by
  obtain ⟨rest, hs, hr, hw⟩ := Token.exists_isNumeral hn
  simp only [numeral]
  split
  · rename_i n hread
    exact sound_accept h hs ⟨hw, hread⟩ hr
  · exact sound_refuse h hs (Token.IsNumeral.ne_nil hw) (fun _ => rfl)
  · exact sound_refuse h hs (Token.IsNumeral.ne_nil hw) (fun _ => rfl)

lemma sound_name {ch : Char} (h : c.After text before) (hr : c.rest = ch :: rest)
    (hc : Token.isNameChar ch = true) (hk : ch ≠ ':') (hn : Token.startsNumeral c.rest = false)
    (hd : ¬ ['-', '-'] <+: c.rest) : (name c).Sound file text before := by
  have hs : c.rest = c.rest.takeWhile Token.isNameChar ++ c.rest.dropWhile Token.isNameChar :=
    List.takeWhile_append_dropWhile.symm
  have hne : c.rest.takeWhile Token.isNameChar ≠ [] := by simp [hr, hc]
  refine sound_accept h hs ⟨(String.toList_ofList).symm, isWord_takeWhile hne, ?_, ?_, ?_⟩
    (head?_dropWhile_isNameChar c.rest)
  · simp [hr, hc, hk]
  · by_contra ht
    rw [Bool.not_eq_false, String.toList_ofList] at ht
    have := Token.startsNumeral_append ht (c.rest.dropWhile Token.isNameChar)
    rw [← hs, hn] at this
    exact absurd this (by simp)
  · rw [String.toList_ofList]
    intro ht
    exact hd (ht.trans (List.takeWhile_prefix _))

lemma sound_string (h : c.After text before) (hr : c.rest = '"' :: rest) :
    (string file c).Sound file text before := by
  have hp : c.rest = ['"'] ++ rest := hr
  have hb : BodySound file text (before ++ ['"']) rest _ :=
    bodySound_stringBody rest (by simp) h.mark_eq (h.move hp)
  rw [string, Cursor.past_eq hp]
  cases hbody : stringBody file c.mark ⟨c.mark.after ['"'], rest⟩ with
  | error e =>
    rw [hbody] at hb
    obtain ⟨hin, hf⟩ := hb
    intro s hs
    have hspan : e.spans = [e.span] := by
      obtain hf | ⟨_, hf⟩ := hf <;> simp [ReadError.spans, hf]
    rw [hspan, List.mem_singleton] at hs
    exact hs ▸ hin
  | ok r =>
    rw [hbody] at hb
    obtain ⟨body, hq, hrest, hd⟩ := hb
    refine ⟨'"' :: (body ++ ['"']), ⟨h.mark_eq, ?_, body, rfl, ?_⟩, ?_, trivial⟩
    · simpa using hd.mark_eq
    · rw [String.toList_ofList]
      exact hq
    · simpa using hd

lemma sound_dispatch {ch : Char} (h : c.After text before) (hr : c.rest = ch :: rest)
    (hb : Text.isBlank ch = false) (hd : ¬ ['-', '-'] <+: c.rest) :
    (dispatch file c ch).Sound file text before := by
  unfold dispatch
  split
  · rename_i d ho
    rw [Delimiter.ofOpening?_eq_some_iff] at ho
    exact sound_accept h hr (by rw [ho]; rfl) trivial
  · rename_i d _ hc
    rw [Delimiter.ofClosing?_eq_some_iff] at hc
    exact sound_accept h hr (by rw [hc]; rfl) trivial
  · rename_i ho hc
    split
    · rename_i hq
      exact sound_string h (hq ▸ hr)
    split
    · rename_i hk
      exact sound_keyword h (hk ▸ hr)
    split
    · rename_i hp
      exact sound_refuse h (hp ▸ hr) (by simp) (fun _ => rfl)
    split
    · rename_i hn
      exact sound_numeral h hn
    · rename_i hq hk hp hn
      refine sound_name h hr ?_ hk (by simpa using hn) hd
      exact Token.isNameChar_of_ne hb ho hc hq hp

lemma not_isMember_of_dispatch {ch : Char} {l : Lexeme} {d : Cursor}
    (h : dispatch file c ch = lexeme l d) : l.token.isMember = false := by
  simp only [dispatch, string, keyword, numeral, name, accept, refuse] at h
  repeat' split at h
  all_goals cases h
  all_goals rfl

/-- Whatever is found after `before` in a text stands after some trivia, and a member stands
directly after what it is a member of. -/
theorem sound_next {attached : Bool} (h : c.After text before) :
    ∃ gap, (next file attached c).Sound file text (before ++ gap) ∧
      ∀ l d, next file attached c = lexeme l d → Text.Trivia gap ∧
        (l.token.isMember = true → attached = true ∧ gap = []) := by
  unfold next
  split
  · rename_i ha
    rw [Bool.and_eq_true, beq_iff_eq] at ha
    obtain ⟨rest, hr⟩ : ∃ rest, c.rest = '.' :: rest := by
      cases hc : c.rest with
      | nil => simp [hc] at ha
      | cons ch rest => exact ⟨rest, by simpa [hc] using ha.2⟩
    refine ⟨[], ?_, fun _ _ _ => ⟨.nil, fun _ => ⟨ha.1, rfl⟩⟩⟩
    rw [List.append_nil]
    exact sound_member h hr
  · obtain ⟨gap, hgap, hmark, hd, htrivia⟩ := c.skipTrivia_spec
    have ht : c.skipTrivia.After text (before ++ gap) := by
      have hm := h.move hgap
      rw [← hmark] at hm
      exact hm
    refine ⟨gap, ?_, ?_⟩
    · split
      · rename_i hr
        rw [Sound, ht.mark_eq, ← ht.text_eq, hr, List.append_nil]
      · rename_i ch rest hr
        exact sound_dispatch ht hr (Cursor.not_isBlank_of_skipTrivia hr) hd
    · intro l d hl
      split at hl
      · exact absurd hl (by simp)
      · rename_i ch rest hr
        refine ⟨htrivia (by simp [hr]), fun hm => ?_⟩
        rw [not_isMember_of_dispatch hl] at hm
        exact absurd hm (by simp)

/-- Behind a lexeme the cursor stands further on in the text. -/
lemma after_next {attached : Bool} {l : Lexeme} {d : Cursor} (h : c.After text before)
    (hn : next file attached c = lexeme l d) : ∃ word, d.After text (before ++ word) := by
  have hsound : ∃ gap, (next file attached c).Sound file text (before ++ gap) ∧ _ := sound_next h
  obtain ⟨gap, hs, -⟩ := hsound
  rw [hn] at hs
  obtain ⟨word, -, hd, -⟩ := hs
  exact ⟨gap ++ word, by simpa using hd⟩

end Scanned

end YinFrontEnd
