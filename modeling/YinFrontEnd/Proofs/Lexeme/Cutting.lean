import YinFrontEnd.Proofs.Lexeme.Finding

/-!
# How lexemes are laid out

Between the lexemes of a text there is trivia: blanks, and comments with the breaks of their
lines. No lexeme could have been longer, and what follows it tells as much by its first two
characters. So a piece of a text that begins and ends with lexemes can be cut out and put in
front of any other text into which no token goes on, and the same tokens are found in it.
-/
namespace YinFrontEnd

namespace Token

variable {token : Token} {cs rest : List Char}

lemma numeralTail_of_append (h : numeralTail (cs ++ rest) = []) : numeralTail cs = [] := by
  match cs with
  | [] => rfl
  | [c] =>
    cases rest with
    | nil => exact h
    | cons d rest =>
      have hc : isNameChar c = false := by
        by_contra hc
        exact numeralTail_ne_nil (by simpa using hc) _ h
      simp [numeralTail, hc]
  | c :: d :: cs =>
    by_cases hc : (isNameChar c || (c == '.' && d.isDigit)) = true
    · exact absurd h (by simp [numeralTail, hc])
    · rw [numeralTail, if_neg hc]

lemma numeralTail_append_of_ends (h : numeralTail cs = []) (hr : Ends rest) :
    numeralTail (cs ++ rest) = [] := by
  match cs with
  | [] => exact hr.numeralTail
  | [c] =>
    have hc : isNameChar c = false := by
      by_contra hc
      exact numeralTail_ne_nil (by simpa using hc) [] h
    cases rest with
    | nil => exact h
    | cons d rest =>
      have hd : d.isDigit = false := by
        by_contra hd
        have hn := isNameChar_of_isDigit (by simpa using hd)
        rw [(hr d rfl).1] at hn
        exact absurd hn (by simp)
      simp [numeralTail, hc, hd]
  | c :: d :: cs =>
    by_cases hc : (isNameChar c || (c == '.' && d.isDigit)) = true
    · exact absurd h (by simp [numeralTail, hc])
    · rw [List.cons_append, List.cons_append, numeralTail, if_neg hc]

/-- A token that stops in front of a text stops in front of a beginning of it, whatever comes
after that, unless a token goes on into it. -/
lemma StopsBefore.cut {after : List Char} (h : token.StopsBefore (cs ++ after)) (hr : Ends rest) :
    token.StopsBefore (cs ++ rest) := by
  have word (h : ∀ c ∈ (cs ++ after).head?, isNameChar c = false) :
      ∀ c ∈ (cs ++ rest).head?, isNameChar c = false := by
    cases cs with
    | nil => exact fun c hc => (hr c hc).1
    | cons d cs => exact h
  cases token with
  | opening d => trivial
  | closing d => trivial
  | str s => trivial
  | member s => exact word h
  | name s => exact word h
  | keyword s => exact word h
  | numeral n => exact numeralTail_append_of_ends (numeralTail_of_append h) hr

end Token

namespace Lexeme

variable {attached : Bool} {before inside rest : List Char} {l : Lexeme} {ls ks : List Lexeme}

lemma Layout.append_inv (h : Layout attached before inside rest (ls ++ ks)) :
    ∃ first second flag, inside = first ++ second ∧
      Layout attached before first (second ++ rest) ls ∧
      Layout flag (before ++ first) second rest ks := by
  induction ls generalizing attached before inside with
  | nil => exact ⟨[], inside, attached, rfl, .nil _ _ _, by simpa using h⟩
  | cons l ls ih =>
    cases h with
    | @cons _ _ gap word tail _ _ _ hl hg hs hm ht =>
      obtain ⟨first, second, flag, rfl, hfirst, hsecond⟩ := ih ht
      refine ⟨gap ++ word ++ first, second, flag, by simp, .cons hl hg ?_ hm hfirst, ?_⟩
      · rwa [← List.append_assoc]
      · simpa using hsecond

/-- What stands in front of the first lexeme can be left out. -/
lemma Layout.from_first (h : Layout attached before inside rest (l :: ls)) :
    ∃ gap tail, inside = gap ++ tail ∧ Text.Trivia gap ∧
      l.start = Mark.origin.after (before ++ gap) ∧
      ∀ flag, (l.token.isMember = true → flag = true) →
        Layout flag (before ++ gap) tail rest (l :: ls) := by
  cases h with
  | @cons _ _ gap word tail _ _ _ hl hg hs hm ht =>
    refine ⟨gap, word ++ tail, by simp, hg, hl.start_eq, fun flag hflag => ?_⟩
    have hl' : l.Covers (before ++ gap ++ []) word := by simpa using hl
    have ht' : Layout l.token.takesMember (before ++ gap ++ [] ++ word) tail rest ls := by
      simpa using ht
    simpa using Layout.cons hl' .nil hs (fun h => ⟨hflag h, rfl⟩) ht'

/-- The last lexeme ends where the piece of text does. -/
lemma Layout.stop_eq (h : Layout attached before inside rest ls) :
    ∀ k ∈ ls.getLast?, k.stop = Mark.origin.after (before ++ inside) := by
  induction h with
  | nil => simp
  | @cons _ before gap word inside _ l ls hl _ _ _ ht ih =>
    intro k hk
    cases ls with
    | nil =>
      obtain rfl : l = k := by simpa using hk
      cases ht
      simpa using hl.stop_eq
    | cons l' ls => simpa using ih k (by simpa [List.getLast?_cons_cons] using hk)

end Lexeme

namespace Scan

variable {file : Nat} {attached : Bool} {before gap inside rest after front text : List Char}
  {ls : List Lexeme}

/-- Whether a member may come first behind the lexemes. -/
def attachedAfter (attached : Bool) (ls : List Lexeme) : Bool :=
  ls.foldl (fun _ l => l.token.takesMember) attached

/-- Where lexemes are laid out they are found, whatever comes after them, unless a token goes on
into it. At another place the same tokens are found. -/
theorem run_layout (file : Nat) (front : List Char)
    (h : Lexeme.Layout attached before inside (front ++ rest) ls) (ha : Token.Ends after)
    (m : Mark) :
    ∃ ks, ks.map Lexeme.token = ls.map Lexeme.token ∧ (m = Mark.origin.after before → ks = ls) ∧
      run file attached ⟨m, inside ++ (front ++ after)⟩ =
        ⟨ks ++ (run file (attachedAfter attached ls) ⟨m.after inside, front ++ after⟩).lexemes,
          (run file (attachedAfter attached ls) ⟨m.after inside, front ++ after⟩).ending⟩ := by
  generalize hwhole : front ++ rest = whole at h
  induction h generalizing m with
  | nil => exact ⟨[], rfl, fun _ => rfl, rfl⟩
  | @cons attached before gap word inside _ l ls hl hg hs hm _ ih =>
    subst hwhole
    rw [← List.append_assoc] at hs
    have hstops := hs.cut ha
    rw [List.append_assoc] at hstops
    have hnext : Scanned.next file attached
        ⟨m, gap ++ (word ++ (inside ++ (front ++ after)))⟩ = _ :=
      next_gap hg hl.spells hstops hm
    obtain ⟨ks, hks, hsame, hrun⟩ := ih (m.after (gap ++ word)) rfl
    refine ⟨⟨l.token, m.after gap, m.after (gap ++ word)⟩ :: ks, ?_, ?_, ?_⟩
    · rw [List.map_cons, List.map_cons, hks]
    · rintro rfl
      have hlexeme : (⟨l.token, (Mark.origin.after before).after gap,
          (Mark.origin.after before).after (gap ++ word)⟩ : Lexeme) = l := by
        rw [← Mark.after_append, ← Mark.after_append, ← List.append_assoc, ← hl.start_eq,
          ← hl.stop_eq]
      rw [hlexeme, hsame (by rw [← Mark.after_append, List.append_assoc])]
    · rw [List.append_assoc, List.append_assoc, run_eq, hnext]
      dsimp only
      rw [hrun, Mark.after_append m (gap ++ word)]
      rfl

/-- Behind the lexemes of a text nothing more is found than what ended its scan. -/
theorem run_stops (file : Nat) (attached : Bool) {c : Cursor} (h : c.After text before) :
    ∃ inside rest, before ++ inside ++ rest = text ∧
      Lexeme.Layout attached before inside rest (run file attached c).lexemes ∧
      run file (attachedAfter attached (run file attached c).lexemes)
        ⟨Mark.origin.after (before ++ inside), rest⟩ = ⟨[], (run file attached c).ending⟩ := by
  obtain ⟨inside, rest, htext, hlayout, -⟩ : ∃ inside rest, _ ∧
      Lexeme.Layout attached before inside rest (run file attached c).lexemes ∧ _ := sound_run h
  refine ⟨inside, rest, htext, hlayout, ?_⟩
  have hrest : c.rest = inside ++ rest := by
    rw [List.append_assoc, ← h.text_eq] at htext
    exact (List.append_cancel_left htext).symm
  obtain ⟨ks, -, hsame, hrun⟩ := run_layout file rest (by rwa [List.append_nil]) Token.ends_nil
    c.mark
  obtain rfl := hsame h.mark_eq
  have hc : (⟨c.mark, inside ++ (rest ++ [])⟩ : Cursor) = c := by rw [List.append_nil, ← hrest]
  rw [hc, List.append_nil, h.mark_eq, ← Mark.after_append] at hrun
  generalize run file _ ⟨Mark.origin.after (before ++ inside), rest⟩ = final at hrun ⊢
  have hnone : final.lexemes = [] := by
    have hlexemes := congrArg Scan.lexemes hrun
    simpa using hlexemes
  have hending := congrArg Scan.ending hrun
  dsimp only at hending
  rw [← hnone, hending]

end Scan

end YinFrontEnd
