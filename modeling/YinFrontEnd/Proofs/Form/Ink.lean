import YinFrontEnd.Proofs.Form.Brackets
import YinFrontEnd.Proofs.Form.Slice

/-!
# What blame begins with

Every form that is read, and every place that a reading error names, begins with a character that
is not blank. So there is something to see where it begins, and it is never a line break.
-/
namespace YinFrontEnd

/-- A character that is not blank stands at the offset. -/
def Text.InkAt (text : List Char) (offset : Nat) : Prop :=
  ∃ before c after, before ++ c :: after = text ∧ isBlank c = false ∧ offset = byteLength before

variable {file : Nat} {text before rest : List Char} {c d : Cursor} {e : ReadError}

/-- A lexeme begins with a character that is not blank. -/
lemma Token.Spells.ink {token : Token} {word : List Char} (h : token.Spells word) :
    ∃ c tail, word = c :: tail ∧ Text.isBlank c = false := by
  cases token with
  | opening d =>
    obtain rfl := h
    exact ⟨_, _, rfl, by cases d <;> decide⟩
  | closing d =>
    obtain rfl := h
    exact ⟨_, _, rfl, by cases d <;> decide⟩
  | member s => exact ⟨_, _, h.1, by decide⟩
  | keyword s => exact ⟨_, _, h.1, by decide⟩
  | str s =>
    obtain ⟨body, rfl, -⟩ := h
    exact ⟨_, _, rfl, by decide⟩
  | name s =>
    obtain ⟨rfl, hw⟩ := h
    obtain ⟨c, tail, hs⟩ := List.exists_cons_of_ne_nil hw.word.1
    have hc := Token.not_special_of_isNameChar (hw.word.2 c (by simp [hs]))
    exact ⟨c, tail, hs, hc.2.2.2.2⟩
  | numeral n =>
    obtain ⟨c, tail, rfl, hc, -⟩ := Token.exists_of_startsNumeral h.1.starts
    exact ⟨c, tail, rfl, (Token.not_special_of_isNameChar hc).2.2.2.2⟩

lemma Lexeme.In.ink {l : Lexeme} (h : l.In text) : Text.InkAt text l.start.offset := by
  obtain ⟨before, word, rest, rfl, hl⟩ := h
  obtain ⟨c, tail, rfl, hc⟩ := hl.spells.ink
  exact ⟨before, c, tail ++ rest, by simp, hc, by rw [hl.start_eq, Mark.origin_after]⟩

/-- The mistake that ends a scan is made where a character is that is not blank. -/
lemma ink_ending (he : (Scan.ofText file text).ending = .error e) :
    ∀ s ∈ e.spans, Text.InkAt text s.start := by
  obtain ⟨inside, tail, flag, rfl, hmistaken, -⟩ := Scan.exists_mistaken he
  have hstart : (Mark.origin.after inside).offset = Text.byteLength inside := by
    rw [Mark.origin_after]
  cases hmistaken with
  | string hbody htail =>
    refine List.forall_mem_singleton.mpr ⟨inside, '"', _, rfl, by decide, hstart⟩
  | @escape body _ rest letter hbody hl =>
    refine List.forall_mem_singleton.mpr
      ⟨inside ++ '"' :: body, '\\', letter :: rest, by simp, by decide, ?_⟩
    rw [← Mark.after_append, Mark.origin_after]
    rfl
  | numeral hw hn hr =>
    obtain ⟨c, word, rfl, hc, -⟩ := Token.exists_of_startsNumeral hw.starts
    have hb := (Token.not_special_of_isNameChar hc).2.2.2.2
    exact List.forall_mem_singleton.mpr ⟨inside, c, _, rfl, hb, hstart⟩
  | keyword hr => exact List.forall_mem_singleton.mpr ⟨inside, ':', _, rfl, by decide, hstart⟩
  | member hr => exact List.forall_mem_singleton.mpr ⟨inside, '.', _, rfl, by decide, hstart⟩

section Reading

open Brackets (Opener)

variable {ls : List Lexeme} {stack : List Opener}

/-- The machine only ever blames brackets that it has met. -/
lemma Brackets.spans_run {P : Span → Prop} (hl : ∀ l ∈ ls, P (l.span file))
    (hs : ∀ o ∈ stack, P o.span) : match Brackets.run file stack ls with
      | .ok stack => ∀ o ∈ stack, P o.span
      | .error e => ∀ s ∈ e.spans, P s := by
  induction ls generalizing stack with
  | nil => exact hs
  | cons l ls ih =>
    rw [List.forall_mem_cons] at hl
    rw [run]
    cases ht : l.token with
    | opening d =>
      rw [step_opening ht]
      exact ih hl.2 (List.forall_mem_cons.mpr ⟨hl.1, hs⟩)
    | closing d =>
      cases stack with
      | nil =>
        simp only [step, ht]
        simpa [ReadError.spans, Except.bind] using hl.1
      | cons o stack =>
        rw [List.forall_mem_cons] at hs
        by_cases hd : d = o.delimiter
        · simp only [step, ht, if_pos hd]
          exact ih hl.2 hs.2
        · simp only [step, ht, if_neg hd]
          simpa [ReadError.spans, Except.bind] using ⟨hl.1, hs.1⟩
    | _ =>
      rw [step_other (by rw [ht]; rfl)]
      exact ih hl.2 hs

variable {names more : Interner}

/-- Where reading fails, the error blames places that are not blank. -/
lemma Form.ink_of_error {source : String} (h : (Form.read file names source).2 = .error e) :
    ∀ s ∈ e.spans, Text.InkAt source.toList s.start := by
  obtain ⟨inside, rest, htext, hseq, -⟩ := Scan.sound_ofText file source.toList
  have hl : ∀ l ∈ (Scan.ofText file source.toList).lexemes,
      Text.InkAt source.toList (l.span file).start :=
    fun l hmem => (hseq.mem_in (by simpa using htext) l hmem).ink
  have hrun := Brackets.spans_run (P := fun s => Text.InkAt source.toList s.start) hl
    (List.forall_mem_nil _)
  have hfirst := Brackets.firstProblem?_read file names source
  rw [h, Brackets.firstProblem?] at hfirst
  cases hr : Brackets.run file [] (Scan.ofText file source.toList).lexemes with
  | error f =>
    rw [hr] at hrun hfirst
    obtain rfl := Option.some.inj hfirst
    exact hrun
  | ok stack =>
    rw [hr] at hrun hfirst
    cases he : (Scan.ofText file source.toList).ending with
    | error f =>
      rw [he] at hfirst
      obtain rfl : f = e := by cases stack <;> exact Option.some.inj hfirst
      exact ink_ending he
    | ok m =>
      rw [he] at hfirst
      cases stack with
      | nil => exact absurd hfirst (by simp)
      | cons o stack =>
        obtain rfl := Option.some.inj hfirst
        intro s hs
        obtain rfl := List.mem_singleton.mp hs
        exact hrun o List.mem_cons_self

/-- The span covers some part of a text that begins with a character that is not blank. -/
def Span.InkIn (file : Nat) (text : List Char) (s : Span) : Prop :=
  ∃ before c inside rest, before ++ c :: inside ++ rest = text ∧ Text.isBlank c = false ∧
    s = covering file before (c :: inside)

lemma Span.CoversIn.inkIn {s : Span} (h : s.CoversIn file text) (hi : Text.InkAt text s.start) :
    s.InkIn file text := by
  obtain ⟨before, inside, rest, rfl, hne, rfl⟩ := h
  obtain ⟨before', c, after, htext, hc, hstart⟩ := hi
  have hlength : Text.byteLength before = Text.byteLength before' := hstart
  obtain rfl : before' = before := by
    have htake := congrArg (Text.takeBytes (Text.byteLength before)) htext
    rwa [List.append_assoc, Text.takeBytes_byteLength, hlength, Text.takeBytes_byteLength] at htake
  obtain ⟨i, tail, rfl⟩ := List.exists_cons_of_ne_nil hne
  obtain ⟨rfl, -⟩ : c = i ∧ _ := by simpa using htext
  exact ⟨before', c, tail, rest, rfl, hc, rfl⟩

lemma Form.inkIn_of_error (hv : names.Valid) {source : String}
    (h : (Form.read file names source).2 = .error e) :
    ∀ s ∈ e.spans, s.InkIn file source.toList := by
  have hsound := sound_read hv file source
  rw [show read file names source = (_, .error e) from Prod.ext rfl h] at hsound
  cases hsound with
  | error _ _ hcovers => exact fun s hs => (hcovers s hs).inkIn (ink_of_error h s hs)

/-- Every form in a program that is read covers text that begins with ink. -/
lemma Form.inkIn_of_inside (hv : names.Valid) {source : String} {root n : Form}
    (h : read file names source = (more, .ok root)) (hn : n.Inside root) :
    n.span.InkIn file source.toList := by
  obtain ⟨s, fs, rfl, hall⟩ := built_of_read hv h
  obtain ⟨inside, rest, htext, hq, -⟩ := Scan.layout_ofText file source.toList
  obtain ⟨ks, hks, hb⟩ := hall.piece_of_inside hn
  obtain ⟨first, last, hfirst, -, -, hends⟩ := hb.ends
  have hin : first.In source.toList := hq.sequence.mem_in (by simpa using htext) first
    (hks.subset (List.mem_of_head? hfirst))
  obtain ⟨before, word, after, hcut, hspan, hlayout⟩ := hb.exists_layout hq hks
  rw [List.nil_append, htext] at hcut
  have hword : word ≠ [] := by
    cases hlayout with
    | nil => exact absurd hfirst (by simp)
    | cons hl _ _ _ _ => simp [hl.spells.ne_nil]
  refine Span.CoversIn.inkIn ⟨before, word, after, hcut, hword, hspan⟩ ?_
  rw [hends]
  exact hin.ink

end Reading

end YinFrontEnd
