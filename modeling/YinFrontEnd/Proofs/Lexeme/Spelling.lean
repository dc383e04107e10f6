import YinFrontEnd.Proofs.Lexeme.Quoted

/-!
# The spelling of lexemes

Each token has its spellings, and each spelling has texts that may follow it without being
taken for a part of it. The scanner finds a token wherever a spelling of it stands in front
of such a text, and it finds nothing else: whatever it reports lies in the text where it
says, spelled as it says. These two statements are all that later proofs know of scanning.
-/
namespace YinFrontEnd

namespace Text

/-- Characters of a kind end where one of another kind follows. -/
lemma takeWhile_append {p : Char → Bool} {t rest : List Char} (ht : ∀ c ∈ t, p c = true)
    (hr : ∀ c ∈ rest.head?, p c = false) : (t ++ rest).takeWhile p = t := by
  rw [List.takeWhile_append_of_pos ht]
  cases rest with
  | nil => simp
  | cons c rest => simp [hr c rfl]

lemma dropWhile_append {p : Char → Bool} {t rest : List Char} (ht : ∀ c ∈ t, p c = true)
    (hr : ∀ c ∈ rest.head?, p c = false) : (t ++ rest).dropWhile p = rest := by
  rw [List.dropWhile_append_of_pos ht]
  cases rest with
  | nil => simp
  | cons c rest => simp [hr c rfl]

lemma isBlank_eq_false_of_isDigit {c : Char} (h : c.isDigit = true) : isBlank c = false := by
  simp only [Char.isDigit, Bool.and_eq_true, decide_eq_true_eq, UInt32.le_iff_toNat_le] at h
  have h0 : '0'.val.toNat = 48 := rfl
  have h9 : '9'.val.toNat = 57 := rfl
  have hc : c.toNat = c.val.toNat := rfl
  simp only [isBlank, inRanges, blankRanges, List.any_cons, List.any_nil, Bool.or_eq_false_iff,
    decide_eq_false_iff_not, and_true]
  omega

/-- Blanks, and comments with the breaks at the ends of their lines. -/
inductive Trivia : List Char → Prop
  | nil : Trivia []
  | blank {c : Char} {cs : List Char} : isBlank c = true → Trivia cs → Trivia (c :: cs)
  | comment {line cs : List Char} : '\n' ∉ line → Trivia cs →
      Trivia ('-' :: '-' :: (line ++ '\n' :: cs))

lemma trivia_append {cs ds : List Char} (h : ∀ c ∈ cs, isBlank c = true) (hd : Trivia ds) :
    Trivia (cs ++ ds) := by
  induction cs with
  | nil => exact hd
  | cons c cs ih => exact .blank (h c (by simp)) (ih fun d hd => h d (by simp [hd]))

lemma Trivia.of_blank {c : Char} {cs : List Char} (hc : isBlank c = true)
    (h : Trivia (c :: cs)) : Trivia cs := by
  cases h with
  | blank _ h => exact h
  | comment => exact absurd hc (by decide)

end Text

namespace Token

lemma isNameChar_of_isDigit {c : Char} (h : c.isDigit = true) : isNameChar c = true := by
  have hs : c ∉ separators := by
    intro hc
    simp only [separators, List.mem_cons, List.not_mem_nil, or_false] at hc
    rcases hc with rfl | rfl | rfl | rfl | rfl | rfl | rfl | rfl <;> exact absurd h (by decide)
  simp [isNameChar, Text.isBlank_eq_false_of_isDigit h, hs]

/-- A text that may stand after a colon or a point. -/
def IsWord (t : List Char) : Prop := t ≠ [] ∧ ∀ c ∈ t, isNameChar c = true

/-- A word that is not taken for a keyword, a numeral or a comment where it stands alone. -/
structure IsName (t : List Char) : Prop where
  word : IsWord t
  not_keyword : t.head? ≠ some ':'
  not_numeral : startsNumeral t = false
  not_comment : ¬ ['-', '-'] <+: t

lemma isWord_iff (t : List Char) : IsWord t ↔ t ≠ [] ∧ t.all isNameChar = true := by
  rw [IsWord, List.all_eq_true]

instance (t : List Char) : Decidable (IsWord t) := decidable_of_iff _ (isWord_iff t).symm

lemma isName_iff (t : List Char) : IsName t ↔ IsWord t ∧ t.head? ≠ some ':' ∧
    startsNumeral t = false ∧ ['-', '-'].isPrefixOf t = false := by
  rw [← Bool.not_eq_true (List.isPrefixOf _ _), List.isPrefixOf_iff_prefix]
  exact ⟨fun h => ⟨h.word, h.not_keyword, h.not_numeral, h.not_comment⟩,
    fun ⟨hw, hk, hn, hc⟩ => ⟨hw, hk, hn, hc⟩⟩

instance (t : List Char) : Decidable (IsName t) := decidable_of_iff _ (isName_iff t).symm

/-- A text that begins like a numeral and is taken for one as a whole. -/
structure IsNumeral (t : List Char) : Prop where
  starts : startsNumeral t = true
  whole : t.take 1 ++ numeralTail (t.drop 1) = t

/-- The texts that stand for a token. -/
def Spells : Token → List Char → Prop
  | opening d, t => t = [d.opening]
  | closing d, t => t = [d.closing]
  | member s, t => t = '.' :: s.toList ∧ IsWord s.toList
  | name s, t => t = s.toList ∧ IsName s.toList
  | keyword s, t => t = ':' :: s.toList ∧ IsWord s.toList
  | numeral n, t => IsNumeral t ∧ Numeral.read t = .ok n
  | str s, t => ∃ body, t = '"' :: (body ++ ['"']) ∧ Text.Quoted body s.toList

/-- The texts that may follow a token, since no beginning of them continues it. -/
def StopsBefore : Token → List Char → Prop
  | opening _, _ | closing _, _ | str _, _ => True
  | member _, rest | name _, rest | keyword _, rest => ∀ c ∈ rest.head?, isNameChar c = false
  | numeral _, rest => numeralTail rest = []

def isMember : Token → Bool
  | member _ => true
  | _ => false

lemma isNameChar_opening (d : Delimiter) : isNameChar d.opening = false := by cases d <;> decide

lemma isNameChar_closing (d : Delimiter) : isNameChar d.closing = false := by cases d <;> decide

/-- A name character is nothing else that the scanner looks for. -/
lemma not_special_of_isNameChar {c : Char} (h : isNameChar c = true) :
    Delimiter.ofOpening? c = none ∧ Delimiter.ofClosing? c = none ∧ c ≠ '"' ∧ c ≠ '.' ∧
      Text.isBlank c = false := by
  refine ⟨?_, ?_, ?_, ?_, ?_⟩
  · by_contra ho
    obtain ⟨d, hd⟩ := Option.ne_none_iff_exists'.mp ho
    rw [(Delimiter.ofOpening?_eq_some_iff c d).mp hd, isNameChar_opening] at h
    exact absurd h (by simp)
  · by_contra ho
    obtain ⟨d, hd⟩ := Option.ne_none_iff_exists'.mp ho
    rw [(Delimiter.ofClosing?_eq_some_iff c d).mp hd, isNameChar_closing] at h
    exact absurd h (by simp)
  · rintro rfl
    exact absurd h (by decide)
  · rintro rfl
    exact absurd h (by decide)
  · simp only [isNameChar, Bool.and_eq_true, Bool.not_eq_true'] at h
    exact h.1

lemma takeWhile_isNameChar {t rest : List Char} (ht : ∀ c ∈ t, isNameChar c = true)
    (hr : ∀ c ∈ rest.head?, isNameChar c = false) : (t ++ rest).takeWhile isNameChar = t :=
  Text.takeWhile_append ht hr

lemma startsNumeral_append {t : List Char} (h : startsNumeral t = true) (rest : List Char) :
    startsNumeral (t ++ rest) = true := by
  match t with
  | [] => exact absurd h (by simp [startsNumeral])
  | [c] =>
    cases rest with
    | nil => exact h
    | cons d rest =>
      simp only [startsNumeral] at h
      simp [startsNumeral, h]
  | c :: d :: t => exact h

/-- A sign does not become the beginning of a numeral through a text that may follow a name. -/
lemma startsNumeral_append_eq_false {t : List Char} (h : startsNumeral t = false)
    (hne : t ≠ []) {rest : List Char} (hr : ∀ c ∈ rest.head?, isNameChar c = false) :
    startsNumeral (t ++ rest) = false := by
  match t with
  | [] => exact absurd rfl hne
  | [c] =>
    cases rest with
    | nil => exact h
    | cons d rest =>
      have hd : d.isDigit = false := by
        rw [Bool.eq_false_iff]
        intro hd
        have hn := hr d rfl
        rw [isNameChar_of_isDigit hd] at hn
        exact absurd hn (by simp)
      simp only [startsNumeral] at h
      simp [startsNumeral, h, hd]
  | c :: d :: t => exact h

/-- Nor does a hyphen become the beginning of a comment. -/
lemma not_comment_append {t : List Char} (h : ¬ ['-', '-'] <+: t) (hne : t ≠ [])
    {rest : List Char} (hr : ∀ c ∈ rest.head?, isNameChar c = false) :
    ¬ ['-', '-'] <+: t ++ rest := by
  match t with
  | [] => exact absurd rfl hne
  | [c] =>
    cases rest with
    | nil => exact h
    | cons d rest =>
      have hd := hr d rfl
      rw [List.cons_append, List.nil_append, List.cons_prefix_cons, List.cons_prefix_cons]
      rintro ⟨-, rfl, -⟩
      exact absurd hd (by decide)
  | c :: d :: t => simpa using h

lemma numeralTail_append {t rest : List Char} (ht : numeralTail t = t)
    (hr : numeralTail rest = []) : numeralTail (t ++ rest) = t := by
  induction t with
  | nil => exact hr
  | cons c t ih =>
    cases t with
    | nil =>
      have hc : isNameChar c = true := by
        by_contra hc
        simp [numeralTail, hc] at ht
      cases rest with
      | nil => simp [numeralTail, hc]
      | cons d rest => simp [numeralTail, hc, hr]
    | cons d t =>
      have hc : (isNameChar c || (c == '.' && d.isDigit)) = true := by
        by_contra hc
        simp only [numeralTail, if_neg hc] at ht
        exact absurd ht (by simp)
      simp only [numeralTail, if_pos hc, List.cons.injEq, true_and] at ht
      simp only [List.cons_append, numeralTail, if_pos hc] at ih ⊢
      rw [ih ht]

/-- Name characters continue a numeral, whatever follows them. -/
lemma numeralTail_append_left {t : List Char} (ht : ∀ c ∈ t, isNameChar c = true)
    (rest : List Char) : numeralTail (t ++ rest) = t ++ numeralTail rest := by
  induction t with
  | nil => rfl
  | cons c t ih =>
    have hc := ht c (by simp)
    have hrest := ih (fun d hd => ht d (by simp [hd]))
    cases h : t ++ rest with
    | nil =>
      obtain ⟨rfl, rfl⟩ := List.append_eq_nil_iff.mp h
      simp [numeralTail, hc]
    | cons d ds =>
      rw [h] at hrest
      rw [List.cons_append, h, numeralTail, hc, Bool.true_or, if_pos rfl, hrest, List.cons_append]

/-- And so does a point in front of a digit. -/
lemma numeralTail_point {c : Char} (hc : c.isDigit = true) (cs : List Char) :
    numeralTail ('.' :: c :: cs) = '.' :: numeralTail (c :: cs) := by
  simp [numeralTail, hc]

/-- A numeral begins with a digit, or with a sign in front of a digit. -/
lemma exists_of_startsNumeral {t : List Char} (h : startsNumeral t = true) :
    ∃ c rest, t = c :: rest ∧ isNameChar c = true ∧ c ≠ ':' ∧ ¬ ['-', '-'] <+: t := by
  match t with
  | [] => exact absurd h (by simp [startsNumeral])
  | [c] =>
    simp only [startsNumeral] at h
    refine ⟨c, [], rfl, isNameChar_of_isDigit h, ?_, by simp⟩
    rintro rfl
    exact absurd h (by decide)
  | c :: d :: t =>
    simp only [startsNumeral, Bool.or_eq_true, Bool.and_eq_true, beq_iff_eq] at h
    refine ⟨c, d :: t, rfl, ?_, ?_, ?_⟩
    · obtain h | ⟨rfl | rfl, -⟩ := h
      · exact isNameChar_of_isDigit h
      · decide
      · decide
    · rintro rfl
      obtain h | ⟨h | h, -⟩ := h <;> exact absurd h (by decide)
    · rw [List.cons_prefix_cons, List.cons_prefix_cons]
      rintro ⟨rfl, rfl, -⟩
      obtain h | ⟨-, h⟩ := h <;> exact absurd h (by decide)

lemma numeralTail_ne_nil {c : Char} (h : isNameChar c = true) (cs : List Char) :
    numeralTail (c :: cs) ≠ [] := by
  cases cs <;> simp [numeralTail, h]

/-- The characters that continue a numeral are in front, they are all that do, and they would
continue it without what follows them as well. -/
lemma numeralTail_spec (cs : List Char) : ∃ rest, cs = numeralTail cs ++ rest ∧
    numeralTail rest = [] ∧ numeralTail (numeralTail cs) = numeralTail cs := by
  induction cs with
  | nil => exact ⟨[], rfl, rfl, rfl⟩
  | cons c cs ih =>
    cases cs with
    | nil =>
      by_cases hc : isNameChar c = true
      · exact ⟨[], by simp [numeralTail, hc], rfl, by simp [numeralTail, hc]⟩
      · exact ⟨[c], by simp [numeralTail, hc], by simp [numeralTail, hc],
          by simp [numeralTail, hc]⟩
    | cons d cs =>
      by_cases hc : (isNameChar c || (c == '.' && d.isDigit)) = true
      · obtain ⟨rest, hcs, hr, hi⟩ := ih
        have ht : numeralTail (c :: d :: cs) = c :: numeralTail (d :: cs) := by
          rw [numeralTail, if_pos hc]
        refine ⟨rest, ?_, hr, ?_⟩
        · rw [ht, List.cons_append, ← hcs]
        · rw [ht]
          cases hn : numeralTail (d :: cs) with
          | nil =>
            have hd : isNameChar d = false := by
              by_contra hd
              exact numeralTail_ne_nil (Bool.not_eq_false _ ▸ hd) cs hn
            have hc' : isNameChar c = true := by
              by_contra hc'
              have hdig : d.isDigit = true := by simp_all
              rw [isNameChar_of_isDigit hdig] at hd
              exact absurd hd (by simp)
            simp [numeralTail, hc']
          | cons e es =>
            have he : e = d := by
              rw [hn] at hcs
              exact (List.cons.inj hcs).1.symm
            subst he
            rw [numeralTail, if_pos hc, ← hn, hi]
      · have ht : numeralTail (c :: d :: cs) = [] := by rw [numeralTail, if_neg hc]
        exact ⟨c :: d :: cs, by rw [ht, List.nil_append], ht, by rw [ht, numeralTail]⟩

/-- Where a numeral begins, a numeral stands in front of what may follow it. -/
lemma exists_isNumeral {cs : List Char} (h : startsNumeral cs = true) :
    ∃ rest, cs = (cs.take 1 ++ numeralTail (cs.drop 1)) ++ rest ∧ numeralTail rest = [] ∧
      IsNumeral (cs.take 1 ++ numeralTail (cs.drop 1)) := by
  match cs with
  | [] => exact absurd h (by simp [startsNumeral])
  | [c] =>
    exact ⟨[], by simp [numeralTail], rfl, by simpa [numeralTail] using h, by simp [numeralTail]⟩
  | c :: d :: cs =>
    obtain ⟨rest, hs, hr, hi⟩ := numeralTail_spec (d :: cs)
    refine ⟨rest, ?_, hr, ?_, ?_⟩
    · simpa using hs
    · simp only [startsNumeral, Bool.or_eq_true, Bool.and_eq_true] at h
      obtain h | ⟨hc, hd⟩ := h
      · simpa using startsNumeral_append (t := [c]) h _
      · have hne := numeralTail_ne_nil (isNameChar_of_isDigit hd) cs
        obtain ⟨e, es, hes⟩ := List.exists_cons_of_ne_nil hne
        have he : e = d := by
          rw [hes] at hs
          exact (List.cons.inj hs).1.symm
        subst he
        simp only [beq_iff_eq] at hc
        simp [hes, startsNumeral, hc, hd]
    · simpa using hi

/-- A digit and what continues a numeral are a numeral, and they are one with a sign as well. -/
lemma isNumeral_of_isDigit {c : Char} {cs : List Char} (hc : c.isDigit = true)
    (hcs : numeralTail cs = cs) : IsNumeral (c :: cs) ∧ IsNumeral ('-' :: c :: cs) := by
  refine ⟨⟨?_, ?_⟩, ⟨?_, ?_⟩⟩
  · cases cs <;> simp [startsNumeral, hc]
  · simp [hcs]
  · simp [startsNumeral, hc]
  · have htail := numeralTail_append_left (t := [c]) (by simpa using isNameChar_of_isDigit hc) cs
    rw [List.singleton_append, hcs] at htail
    simp [htail]

lemma IsNumeral.ne_nil {t : List Char} (h : IsNumeral t) : t ≠ [] := by
  rintro rfl
  exact absurd h.starts (by simp [startsNumeral])

/-- A character that nothing else begins with is a name character. -/
lemma isNameChar_of_ne {c : Char} (hb : Text.isBlank c = false)
    (ho : Delimiter.ofOpening? c = none) (hc : Delimiter.ofClosing? c = none) (hq : c ≠ '"')
    (hp : c ≠ '.') : isNameChar c = true := by
  have h1 : c ≠ '(' ∧ c ≠ '[' ∧ c ≠ '\x7b' := by grind [Delimiter.ofOpening?]
  have h2 : c ≠ ')' ∧ c ≠ ']' ∧ c ≠ '\x7d' := by grind [Delimiter.ofClosing?]
  simp_all [isNameChar, separators]

end Token

namespace Cursor

lemma skipBlanks_cons {m : Mark} {c : Char} (h : Text.isBlank c = true) (cs : List Char) :
    skipBlanks ⟨m, c :: cs⟩ = skipBlanks ⟨m.step c, cs⟩ := by
  simp [skipBlanks, skipWhile, h, Mark.after_cons]

lemma skipTrivia_of_skipBlanks {c d : Cursor} (h : c.skipBlanks = d.skipBlanks) :
    c.skipTrivia = d.skipTrivia := by
  rw [skipTrivia, skipTrivia.eq_1 d, h]

/-- A blank in front of trivia is trivia. -/
lemma skipTrivia_cons {m : Mark} {c : Char} (h : Text.isBlank c = true) (cs : List Char) :
    skipTrivia ⟨m, c :: cs⟩ = skipTrivia ⟨m.step c, cs⟩ :=
  skipTrivia_of_skipBlanks (skipBlanks_cons h cs)

lemma skipTrivia_nil (m : Mark) : skipTrivia ⟨m, []⟩ = ⟨m, []⟩ := by
  rw [skipTrivia]
  simp [skipBlanks, skipWhile]

lemma skipTrivia_self {m : Mark} {c : Char} {cs : List Char} (hb : Text.isBlank c = false)
    (hc : ¬ ['-', '-'] <+: c :: cs) : skipTrivia ⟨m, c :: cs⟩ = ⟨m, c :: cs⟩ := by
  have hs : skipBlanks ⟨m, c :: cs⟩ = ⟨m, c :: cs⟩ := by simp [skipBlanks, skipWhile, hb]
  rw [skipTrivia]
  split
  · rename_i rest h
    rw [hs] at h
    exact absurd ⟨rest, h.symm⟩ hc
  · exact hs

lemma skipComment_eq (m : Mark) (cs : List Char) : skipComment ⟨m, '-' :: '-' :: cs⟩ =
    skipWhile (fun ch => !(ch == '\n')) ⟨m.after ['-', '-'], cs⟩ := by
  rw [skipComment, skipLine_eq, past_eq rfl]

/-- A comment goes to the end of its line. -/
lemma skipComment_spec {c : Cursor} {rest : List Char} (h : c.rest = '-' :: '-' :: rest) :
    ∃ line, rest = line ++ c.skipComment.rest ∧
      c.skipComment.mark = c.mark.after ('-' :: '-' :: line) ∧ '\n' ∉ line ∧
      ∀ ch ∈ c.skipComment.rest.head?, ch = '\n' := by
  have hs : c.skipComment = skipWhile (fun ch => !(ch == '\n')) ⟨c.mark.after ['-', '-'], rest⟩ := by
    rw [← skipComment_eq, ← h]
  rw [hs]
  refine ⟨rest.takeWhile (fun ch => !(ch == '\n')), List.takeWhile_append_dropWhile.symm, ?_,
    fun hmem => ?_, fun ch hch => ?_⟩
  · rw [skipWhile, ← Mark.after_append]
    rfl
  · simpa using List.all_eq_true.mp List.all_takeWhile _ hmem
  · have hnot := List.head?_dropWhile_not (fun ch => !(ch == '\n')) rest
    rw [skipWhile, Option.mem_def] at hch
    rw [hch] at hnot
    simpa using hnot

/-- Trivia in front of something, if it begins with a line break at all, does so itself. -/
lemma exists_cons_of_skipTrivia {c : Cursor} {gap : List Char}
    (hr : c.rest = gap ++ c.skipTrivia.rest) (hne : c.skipTrivia.rest ≠ [])
    (hhead : ∀ ch ∈ c.rest.head?, ch = '\n') : ∃ tail, gap = '\n' :: tail := by
  cases gap with
  | nil =>
    obtain ⟨ch, after, ha⟩ := List.exists_cons_of_ne_nil hne
    have hch : ch = '\n' := hhead ch (by rw [hr, List.nil_append, ha]; rfl)
    have hblank := not_isBlank_of_skipTrivia ha
    rw [hch] at hblank
    exact absurd hblank (by decide)
  | cons ch tail => exact ⟨tail, by rw [hhead ch (by rw [hr]; rfl)]⟩

/-- What is passed over in front of something is trivia, and no comment begins after it. -/
lemma skipTrivia_spec (c : Cursor) : ∃ gap, c.rest = gap ++ c.skipTrivia.rest ∧
    c.skipTrivia.mark = c.mark.after gap ∧ ¬ ['-', '-'] <+: c.skipTrivia.rest ∧
    (c.skipTrivia.rest ≠ [] → Text.Trivia gap) := by
  have blanks (c : Cursor) : ∀ d ∈ c.rest.takeWhile Text.isBlank, Text.isBlank d = true :=
    fun d hd => List.all_eq_true.mp List.all_takeWhile d hd
  fun_induction skipTrivia c with
  | case1 c rest h ih =>
    obtain ⟨gap, hr, hm, hc, ht⟩ := ih
    obtain ⟨line, hline, hmark, hbreak, hhead⟩ := skipComment_spec h
    have hb : c.rest = c.rest.takeWhile Text.isBlank ++ '-' :: '-' :: rest := by
      rw [← h]
      exact List.takeWhile_append_dropWhile.symm
    refine ⟨c.rest.takeWhile Text.isBlank ++ '-' :: '-' :: (line ++ gap), ?_, ?_, hc,
      fun hne => ?_⟩
    · rw [hr] at hline
      simpa [hline] using hb
    · rw [hm, hmark, ← List.cons_append, ← List.cons_append, Mark.after_append, Mark.after_append]
      rfl
    · obtain ⟨tail, rfl⟩ := exists_cons_of_skipTrivia hr hne hhead
      exact Text.trivia_append (blanks c) (.comment hbreak ((ht hne).of_blank (by decide)))
  | case2 c h =>
    refine ⟨c.rest.takeWhile Text.isBlank, List.takeWhile_append_dropWhile.symm, rfl, ?_,
      fun _ => ?_⟩
    · rintro ⟨rest, hr⟩
      exact h rest hr.symm
    · simpa using Text.trivia_append (blanks c) .nil

lemma skipTrivia_comment (m : Mark) (cs : List Char) :
    skipTrivia ⟨m, '-' :: '-' :: cs⟩ = skipTrivia (skipComment ⟨m, '-' :: '-' :: cs⟩) := by
  have hb : Text.isBlank '-' = false := by decide
  have hs : skipBlanks ⟨m, '-' :: '-' :: cs⟩ = ⟨m, '-' :: '-' :: cs⟩ := by
    simp [skipBlanks, skipWhile, hb]
  rw [skipTrivia]
  split
  · rw [hs]
  · rename_i hne
    exact absurd (by rw [hs]) (hne cs)

/-- Trivia is passed over, whatever follows. -/
lemma skipTrivia_append {gap : List Char} (h : Text.Trivia gap) (m : Mark) (rest : List Char) :
    skipTrivia ⟨m, gap ++ rest⟩ = skipTrivia ⟨m.after gap, rest⟩ := by
  induction h generalizing m with
  | nil => rfl
  | @blank c cs hc _ ih =>
    rw [List.cons_append, skipTrivia_cons hc, ih, Mark.after_cons]
  | @comment line cs hl _ ih =>
    have hp : ∀ c ∈ line, (!(c == '\n')) = true := by
      intro c hc
      have hne : c ≠ '\n' := ne_of_mem_of_not_mem hc hl
      simp [hne]
    have hcomment : skipComment ⟨m, '-' :: '-' :: (line ++ '\n' :: (cs ++ rest))⟩ =
        ⟨(m.after ['-', '-']).after line, '\n' :: (cs ++ rest)⟩ := by
      rw [skipComment_eq, skipWhile, Text.takeWhile_append hp (by simp),
        Text.dropWhile_append hp (by simp)]
    rw [List.cons_append, List.cons_append, List.append_assoc, List.cons_append,
      skipTrivia_comment, hcomment, skipTrivia_cons (by decide), ih, ← Mark.after_cons,
      ← Mark.after_append, ← Mark.after_append]
    simp

end Cursor

end YinFrontEnd
