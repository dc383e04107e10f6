import YinFrontEnd.Proofs.Lexeme.Sequence

/-!
# Finding tokens in written text

Text that is written piece by piece is scanned piece by piece. Where a piece is found depends
on what stands before it, but which tokens are found does not.
-/
namespace YinFrontEnd

namespace Token

/-- No token goes on into the text. -/
def Ends (rest : List Char) : Prop := ∀ c ∈ rest.head?, isNameChar c = false ∧ c ≠ '.'

lemma Ends.numeralTail {rest : List Char} (h : Ends rest) : numeralTail rest = [] := by
  match rest with
  | [] => rfl
  | [c] => simp [Token.numeralTail, (h c rfl).1]
  | c :: d :: cs =>
    obtain ⟨hn, hp⟩ := h c rfl
    simp [Token.numeralTail, hn, hp]

lemma ends_nil : Ends [] := by simp [Ends]

lemma ends_closing (d : Delimiter) (rest : List Char) : Ends (d.closing :: rest) := by
  intro c hc
  obtain rfl : d.closing = c := by simpa using hc
  exact ⟨isNameChar_closing d, by cases d <;> decide⟩

lemma ends_blank {c : Char} (h : Text.isBlank c = true) (rest : List Char) : Ends (c :: rest) := by
  intro d hd
  obtain rfl : c = d := by simpa using hd
  refine ⟨by simp [isNameChar, h], ?_⟩
  rintro rfl
  exact absurd h (by decide)

end Token

namespace Scan

variable {file : Nat} {attached flag : Bool} {text mid rest : List Char}

/-- Wherever the text stands, scanning it finds the tokens, and then scans the rest of it. The
flags say whether a member may come first. -/
def Finds (file : Nat) (attached : Bool) (text : List Char) (tokens : List Token) (flag : Bool)
    (rest : List Char) : Prop :=
  ∀ m, ∃ ls m', ls.map Lexeme.token = tokens ∧ run file attached ⟨m, text⟩ =
    ⟨ls ++ (run file flag ⟨m', rest⟩).lexemes, (run file flag ⟨m', rest⟩).ending⟩

lemma Finds.refl (file : Nat) (attached : Bool) (text : List Char) :
    Finds file attached text [] attached text :=
  fun m => ⟨[], m, rfl, rfl⟩

lemma Finds.trans {flag' : Bool} {ts us : List Token} (h : Finds file attached text ts flag mid)
    (k : Finds file flag mid us flag' rest) : Finds file attached text (ts ++ us) flag' rest := by
  intro m
  obtain ⟨ls, m₁, rfl, hls⟩ := h m
  obtain ⟨ks, m₂, rfl, hks⟩ := k m₁
  refine ⟨ls ++ ks, m₂, by simp, ?_⟩
  rw [hls, hks, List.append_assoc]

/-- A spelling of a token is found in front of a text that may follow it. -/
lemma finds_token {token : Token} {word : List Char} (h : token.Spells word)
    (hr : token.StopsBefore rest) (ha : token.isMember = true → attached = true) :
    Finds file attached (word ++ rest) [token] token.takesMember rest := by
  intro m
  refine ⟨[⟨token, m, m.after word⟩], m.after word, rfl, ?_⟩
  rw [run_eq, Scanned.next_of_spells h hr ha]
  rfl

lemma next_trivia {gap : List Char} (h : Text.Trivia gap) (hne : gap ≠ []) (m : Mark) :
    Scanned.next file attached ⟨m, gap ++ rest⟩ =
      Scanned.next file false ⟨m.after gap, rest⟩ := by
  have hhead : ((gap ++ rest).head? == some '.') = false := by
    cases h with
    | nil => exact absurd rfl hne
    | @blank c cs hc _ =>
      have hp : c ≠ '.' := by
        rintro rfl
        exact absurd hc (by decide)
      simpa using hp
    | comment => simp
  simp only [Scanned.next, hhead, Bool.and_false, Bool.false_and, Bool.false_eq_true, if_false,
    Cursor.skipTrivia_append h]

/-- Trivia is passed over, and no member comes after it. -/
lemma run_trivia {gap : List Char} (h : Text.Trivia gap) (hne : gap ≠ []) (m : Mark) :
    run file attached ⟨m, gap ++ rest⟩ = run file false ⟨m.after gap, rest⟩ := by
  rw [run_eq, next_trivia h hne, ← run_eq]

lemma finds_trivia {gap : List Char} (h : Text.Trivia gap) (hne : gap ≠ []) (attached : Bool)
    (rest : List Char) : Finds file attached (gap ++ rest) [] false rest := by
  intro m
  refine ⟨[], m.after gap, rfl, ?_⟩
  rw [run_trivia h hne]
  rfl

/-- A lexeme is found behind the trivia in front of it. -/
lemma next_gap {token : Token} {gap word : List Char} {m : Mark} (hg : Text.Trivia gap)
    (hs : token.Spells word) (hr : token.StopsBefore rest)
    (hm : token.isMember = true → attached = true ∧ gap = []) :
    Scanned.next file attached ⟨m, gap ++ (word ++ rest)⟩ =
      .lexeme ⟨token, m.after gap, m.after (gap ++ word)⟩ ⟨m.after (gap ++ word), rest⟩ := by
  rw [Mark.after_append]
  by_cases hne : gap = []
  · subst hne
    exact Scanned.next_of_spells hs hr fun h => (hm h).1
  · rw [next_trivia hg hne]
    exact Scanned.next_of_spells hs hr fun h => absurd (hm h).2 hne

lemma finds_blank (attached : Bool) {c : Char} (h : Text.isBlank c = true) (cs : List Char) :
    Finds file attached (c :: cs) [] false cs :=
  finds_trivia (.blank h .nil) (List.cons_ne_nil _ _) attached cs

/-- Nothing is found in no text. -/
lemma run_nil (m : Mark) : run file attached ⟨m, []⟩ = ⟨[], .ok m⟩ := by
  rw [run_eq]
  simp [Scanned.next, Cursor.skipTrivia_nil]

end Scan

end YinFrontEnd
