import YinFrontEnd.Proofs.Lexeme.Scanning

/-!
# Sequences of lexemes

The lexemes of a text stand one after another in it, with trivia between them, and a
member stands directly after a lexeme that takes one.
-/
namespace YinFrontEnd

namespace Lexeme

/-- The lexemes stand one after another after `before` in a text and end where `inside` ends.
The flag says whether the first of them may be a member. -/
inductive Sequence : Bool → List Char → List Char → List Lexeme → Prop
  | nil (attached : Bool) (before : List Char) : Sequence attached before [] []
  | cons {attached : Bool} {before gap word inside : List Char} {l : Lexeme} {ls : List Lexeme} :
      l.Covers (before ++ gap) word →
      (l.token.isMember = true → attached = true ∧ gap = []) →
      Sequence l.token.takesMember (before ++ gap ++ word) inside ls →
      Sequence attached before (gap ++ word ++ inside) (l :: ls)

/-- The lexemes stand one after another after `before` in a text and end where `inside` ends,
before `rest`, with nothing but trivia between them. The flag says whether the first of them may
be a member. -/
inductive Layout : Bool → List Char → List Char → List Char → List Lexeme → Prop
  | nil (attached : Bool) (before rest : List Char) : Layout attached before [] rest []
  | cons {attached : Bool} {before gap word inside rest : List Char} {l : Lexeme}
      {ls : List Lexeme} : l.Covers (before ++ gap) word → Text.Trivia gap →
      l.token.StopsBefore (inside ++ rest) →
      (l.token.isMember = true → attached = true ∧ gap = []) →
      Layout l.token.takesMember (before ++ gap ++ word) inside rest ls →
      Layout attached before (gap ++ word ++ inside) rest (l :: ls)

lemma Layout.sequence {attached : Bool} {before inside rest : List Char} {ls : List Lexeme}
    (h : Layout attached before inside rest ls) : Sequence attached before inside ls := by
  induction h with
  | nil => exact .nil _ _
  | cons hl _ _ hm _ ih => exact .cons hl hm ih

lemma Sequence.append_inv {attached : Bool} {before inside : List Char} {ls ks : List Lexeme}
    (h : Sequence attached before inside (ls ++ ks)) :
    ∃ first second flag, inside = first ++ second ∧ Sequence attached before first ls ∧
      Sequence flag (before ++ first) second ks := by
  induction ls generalizing attached before inside with
  | nil => exact ⟨[], inside, attached, rfl, .nil _ _, by simpa using h⟩
  | cons l ls ih =>
    cases h with
    | @cons _ _ gap word tail _ _ hl hm ht =>
      obtain ⟨first, second, flag, rfl, hfirst, hsecond⟩ := ih ht
      refine ⟨gap ++ word ++ first, second, flag, by simp, .cons hl hm hfirst, ?_⟩
      simpa using hsecond

/-- A single lexeme with what stands in front of it. -/
lemma Sequence.single_inv {attached : Bool} {before inside : List Char} {l : Lexeme}
    (h : Sequence attached before inside [l]) :
    ∃ gap word, inside = gap ++ word ∧ l.Covers (before ++ gap) word ∧
      (l.token.isMember = true → gap = []) := by
  cases h with
  | @cons _ _ gap word tail _ _ hl hm ht =>
    cases ht
    exact ⟨gap, word, by simp, hl, fun h => (hm h).2⟩

/-- The lexeme covers some part of a text. -/
def In (text : List Char) (l : Lexeme) : Prop :=
  ∃ before word rest, before ++ word ++ rest = text ∧ l.Covers before word

lemma Sequence.mem_in {attached : Bool} {text before inside rest : List Char} {ls : List Lexeme}
    (h : Sequence attached before inside ls) (ht : before ++ inside ++ rest = text) :
    ∀ l ∈ ls, l.In text := by
  induction h with
  | nil => simp
  | @cons _ before gap word inside l ls hl _ _ ih =>
    intro k hk
    obtain rfl | hk := List.mem_cons.mp hk
    · exact ⟨before ++ gap, word, inside ++ rest, by simpa using ht, hl⟩
    · exact ih (by simpa using ht) k hk

lemma In.span {text : List Char} {l : Lexeme} (h : l.In text) (file : Nat) :
    (l.span file).CoversIn file text := by
  obtain ⟨before, word, rest, ht, hl⟩ := h
  exact ⟨before, word, rest, ht, hl.spells.ne_nil, hl.span_eq file⟩

/-- The first character of a lexeme lies in the text where the lexeme starts. -/
lemma In.first {text : List Char} {l : Lexeme} (h : l.In text) {c : Char}
    (hc : ∀ word, l.token.Spells word → ∃ t, word = c :: t) (file : Nat) :
    (l.start.spanTo file (l.start.step c)).CoversIn file text := by
  obtain ⟨before, word, rest, ht, hl⟩ := h
  obtain ⟨t, rfl⟩ := hc word hl.spells
  refine ⟨before, [c], t ++ rest, by simpa using ht, by simp, ?_⟩
  rw [hl.start_eq, ← Mark.after_singleton, ← Mark.after_append, Span.spanTo_after]

end Lexeme

namespace Scan

lemma run_eq (file : Nat) (attached : Bool) (c : Cursor) : run file attached c =
    match Scanned.next file attached c with
    | .finish m => ⟨[], .ok m⟩
    | .fault e => ⟨[], .error e⟩
    | .lexeme l d => ⟨l :: (run file l.token.takesMember d).lexemes,
        (run file l.token.takesMember d).ending⟩ := by
  rw [run]
  split <;> simp_all

/-- A text ends where its scan ends, and a mistake lies in it. -/
def EndSound (file : Nat) (text : List Char) : Except ReadError Mark → Prop
  | .ok m => m = Mark.origin.after text
  | .error e => ∀ s ∈ e.spans, s.CoversIn file text

theorem sound_run {file : Nat} {attached : Bool} {text before : List Char} {c : Cursor}
    (h : c.After text before) : ∃ inside rest, before ++ inside ++ rest = text ∧
      Lexeme.Layout attached before inside rest (run file attached c).lexemes ∧
      EndSound file text (run file attached c).ending := by
  obtain ⟨gap, hs, hm⟩ := Scanned.sound_next h
  rw [run_eq]
  cases hn : Scanned.next file attached c with
  | finish m =>
    rw [hn] at hs
    exact ⟨[], c.rest, by simpa using h.text_eq, .nil _ _ _, hs⟩
  | fault e =>
    rw [hn] at hs
    exact ⟨[], c.rest, by simpa using h.text_eq, .nil _ _ _, hs⟩
  | lexeme l d =>
    rw [hn] at hs
    obtain ⟨word, hl, hd, hstops⟩ := hs
    have hlt := Scanned.shortens_next file attached c l d hn
    obtain ⟨inside, rest, htext, hlayout, hend⟩ := sound_run hd
    obtain ⟨hgap, hmember⟩ := hm l d hn
    have hrest : inside ++ rest = d.rest := by
      rw [List.append_assoc, ← hd.text_eq] at htext
      exact List.append_cancel_left htext
    exact ⟨gap ++ word ++ inside, rest, by simpa using htext,
      .cons hl hgap (hrest ▸ hstops) hmember hlayout, hend⟩
termination_by c.rest.length

/-- All of a text is scanned. -/
theorem layout_ofText (file : Nat) (text : List Char) : ∃ inside rest, inside ++ rest = text ∧
    Lexeme.Layout false [] inside rest (ofText file text).lexemes ∧
    EndSound file text (ofText file text).ending :=
  sound_run (Cursor.after_start text)

theorem sound_ofText (file : Nat) (text : List Char) : ∃ inside rest, inside ++ rest = text ∧
    Lexeme.Sequence false [] inside (ofText file text).lexemes ∧
    EndSound file text (ofText file text).ending := by
  obtain ⟨inside, rest, htext, hlayout, hend⟩ := layout_ofText file text
  exact ⟨inside, rest, htext, hlayout.sequence, hend⟩

end Scan

end YinFrontEnd
