import YinFrontEnd.Proofs.Form.Ink
import YinFrontEnd.Proofs.Form.Joining
import YinFrontEnd.Proofs.Form.Legible

/-!
# Statements in lines

A legible form has no line break in its text, since a string is written with an escape in place of
each. So a program that is written one statement in each line is read with one statement in each
line, where it was written.
-/
namespace YinFrontEnd

section Breaks

lemma Token.ne_newline_of_isNameChar {c : Char} (h : isNameChar c = true) : c ≠ '\n' := by
  rintro rfl
  exact absurd h (by decide)

lemma Token.newline_notMem_numeralTail (t : List Char) : '\n' ∉ numeralTail t := by
  fun_induction numeralTail t with
  | case1 => exact List.not_mem_nil
  | case2 c hc => simpa using (ne_newline_of_isNameChar hc).symm
  | case3 => exact List.not_mem_nil
  | case4 c d cs hc ih =>
    refine List.not_mem_cons_of_ne_of_not_mem ?_ ih
    rintro rfl
    have hname : isNameChar '\n' = false := by decide
    exact absurd hc (by simp [hname])
  | case5 => exact List.not_mem_nil

lemma Token.IsNumeral.newline_notMem {t : List Char} (h : IsNumeral t) : '\n' ∉ t := by
  obtain ⟨c, tail, rfl, hc, -⟩ := exists_of_startsNumeral h.starts
  obtain htail : numeralTail tail = tail := by simpa using h.whole
  refine List.not_mem_cons_of_ne_of_not_mem (ne_newline_of_isNameChar hc).symm ?_
  rw [← htail]
  exact newline_notMem_numeralTail tail

lemma Text.newline_notMem_quote (cs : List Char) : '\n' ∉ quote cs := by
  intro h
  obtain ⟨c, -, hc⟩ : ∃ c ∈ cs, '\n' ∈ quotedChar c := by simpa [quote] using h
  by_cases hn : c = '\n'
  · subst hn
    exact absurd hc (by decide)
  · rw [quotedChar] at hc
    split at hc
    · rename_i letter hletter
      obtain ⟨e, he, rfl⟩ := Option.map_eq_some_iff.mp hletter
      have hmem := List.mem_of_find?_eq_some he
      simp only [escapes, List.mem_cons, List.not_mem_nil, or_false] at hmem
      obtain rfl | rfl | rfl | rfl | rfl | rfl := hmem <;> exact absurd hc (by decide)
    · exact hn (List.mem_singleton.mp hc).symm

lemma Text.newline_notMem_bracketed {o c : Char} {pieces : List (List Char)} (ho : o ≠ '\n')
    (hc : c ≠ '\n') (h : ∀ piece ∈ pieces, '\n' ∉ piece) : '\n' ∉ bracketed o c pieces := by
  have hseparated : '\n' ∉ separated ' ' pieces := by
    cases pieces with
    | nil => exact List.not_mem_nil
    | cons piece pieces =>
      rw [separated, List.mem_append, List.mem_flatMap]
      rintro (hp | ⟨p, hp, hmem⟩)
      · exact h piece List.mem_cons_self hp
      · obtain hb | hmem := List.mem_cons.mp hmem
        · exact absurd hb (by decide)
        · exact h p (List.mem_cons_of_mem _ hp) hmem
  simp [bracketed, hseparated, ho.symm, hc.symm]

end Breaks

namespace Form

variable {names more : Interner} {file : Nat} {f g : Form} {fs gs : List Form}

mutual

/-- What is written for a form does not depend on its places. -/
theorem chars_unplaced (names : Interner) : ∀ f : Form, chars names f.unplaced = chars names f
  | block _ fs => by rw [unplaced, chars, chars, charsAll_unplaced names fs]
  | group _ d fs => by rw [unplaced, chars, chars, charsAll_unplaced names fs]
  | member _ v n => by rw [unplaced, chars, chars, chars_unplaced names v]
  | name _ _ | keyword _ _ | int _ _ | float _ _ | str _ _ => by rw [unplaced, chars, chars]

theorem charsAll_unplaced (names : Interner) :
    ∀ fs : List Form, charsAll names (unplacedAll fs) = charsAll names fs
  | [] => rfl
  | f :: fs => by
    rw [unplacedAll, charsAll, charsAll, chars_unplaced names f, charsAll_unplaced names fs]

end

lemma chars_eq_of_unplaced (h : g.unplaced = f.unplaced) : chars names g = chars names f := by
  rw [← chars_unplaced names g, h, chars_unplaced]

/-- A form that differs from a legible one in nothing but places is written like it. -/
lemma Legible.write_eq (h : f.Legible names) (hg : g.unplaced = f.unplaced) :
    g.write names = String.ofList (chars names f) := by
  rw [← chars_eq_of_unplaced hg]
  cases g with
  | block s gs => cases h <;> simp at hg
  | _ => rfl

lemma write_eq_of_unplaced (h : ∀ f ∈ fs, f.Legible names)
    (hg : gs.map unplaced = fs.map unplaced) :
    gs.map (write names) = (charsAll names fs).map String.ofList := by
  induction fs generalizing gs with
  | nil =>
    obtain rfl := List.map_eq_nil_iff.mp hg
    rfl
  | cons f fs ih =>
    obtain ⟨g, gs, rfl, hhead, htail⟩ := List.map_eq_cons_iff.mp hg
    obtain ⟨hf, hfs⟩ := List.forall_mem_cons.mp h
    rw [List.map_cons, hf.write_eq hhead, ih hfs htail, charsAll, List.map_cons]

/-- A legible form is written in one line. -/
theorem Legible.newline_notMem (h : f.Legible names) : '\n' ∉ chars names f := by
  have word {n : Name} (hn : names.Spells Token.IsWord n) : '\n' ∉ names.chars n := by
    obtain ⟨t, ht, hw⟩ := hn
    rw [Interner.chars, Interner.text_of_text? ht]
    exact fun hmem => Token.ne_newline_of_isNameChar (hw.2 _ hmem) rfl
  induction h with
  | name s hn =>
    obtain ⟨t, ht, hw⟩ := hn
    exact word ⟨t, ht, hw.word⟩
  | keyword s hn => exact List.not_mem_cons_of_ne_of_not_mem (by decide) (word hn)
  | str s _ => exact Text.newline_notMem_quote _
  | int s v => exact (Numeral.isNumeral_intText _).newline_notMem
  | float s hb => exact (Numeral.read_ofBits hb).1.newline_notMem
  | group s d _ ih =>
    refine Text.newline_notMem_bracketed (by cases d <;> decide) (by cases d <;> decide) ?_
    rw [charsAll_eq_map, List.forall_mem_map]
    exact ih
  | member s i _ _ hn ih =>
    rw [chars, List.mem_append]
    rintro (hmem | hmem)
    · exact ih hmem
    · exact List.not_mem_cons_of_ne_of_not_mem (by decide) (word hn) hmem

/-- What is read from a text without line breaks stands in its only line. -/
lemma line_eq_one (hv : names.Valid) {text : String} {s : Span}
    (h : read file names text = (more, .ok (.block s fs))) (hn : '\n' ∉ text.toList) :
    ∀ f ∈ fs, f.span.line = 1 := by
  intro f hf
  have hin : f.Inside (.block s fs) := .single hf
  obtain ⟨before, c, inside, rest, htext, -, hspan⟩ := inkIn_of_inside hv h hin
  have hbefore : '\n' ∉ before := fun hmem => hn (by simp [← htext, hmem])
  rw [hspan]
  exact congrArg (1 + ·) (List.count_eq_zero_of_not_mem hbefore)

lemma CopyAll.map_line {d : Shift} (h : CopyAll d names more fs gs) :
    gs.map (·.span.line) = fs.map fun f => f.span.line + d.lines := by
  rw [← List.forall₂_eq_eq_eq, List.forall₂_map_left_iff, List.forall₂_map_right_iff]
  refine (copyAll_iff.mp h).flip.imp fun g f hfg => ?_
  rw [hfg.span_eq]
  rfl

lemma read_lines (hv : names.Valid) (file : Nat) (h : ∀ f ∈ fs, f.Legible names) :
    ∃ s, ∃ gs : List Form, gs.map unplaced = fs.map unplaced ∧
      read file names (String.ofList (Text.separated '\n' (charsAll names fs))) =
        (names, .ok (.block s gs)) := read_separated hv (by decide) h

lemma length_of_read (hv : names.Valid) (h : ∀ f ∈ fs, f.Legible names) {s : Span}
    (hread : read file names (String.ofList (Text.separated '\n' (charsAll names fs))) =
      (more, .ok (.block s gs))) : gs.length = fs.length := by
  obtain ⟨t, hs, hhs, hread'⟩ := read_lines hv file h
  rw [hread] at hread'
  obtain ⟨-, rfl⟩ := block.inj (Except.ok.inj (Prod.mk.inj hread').2)
  simpa using congrArg List.length hhs

/-- Statements that are written one in each line are read from those lines. -/
theorem lines_of_read (hv : names.Valid) (h : ∀ f ∈ fs, f.Legible names) {s : Span}
    (hread : read file names (String.ofList (Text.separated '\n' (charsAll names fs))) =
      (more, .ok (.block s gs))) : gs.map (·.span.line) = List.range' 1 fs.length := by
  induction fs generalizing gs s more with
  | nil =>
    obtain rfl := List.eq_nil_of_length_eq_zero (length_of_read hv h hread)
    rfl
  | cons f fs ih =>
    obtain ⟨hf, hfs⟩ := List.forall_mem_cons.mp h
    have hone : ∀ f' ∈ [f], f'.Legible names := List.forall_mem_singleton.mpr hf
    have hbreak : '\n' ∉ (String.ofList (Text.separated '\n' (charsAll names [f]))).toList := by
      simpa [charsAll, Text.separated] using hf.newline_notMem
    obtain ⟨t, first, -, hfirst⟩ := read_lines hv file hone
    obtain ⟨g, rfl⟩ := List.length_eq_one_iff.mp (length_of_read hv hone hfirst)
    have hline : g.span.line = 1 := line_eq_one hv hfirst hbreak g List.mem_cons_self
    cases fs with
    | nil =>
      rw [hread] at hfirst
      obtain ⟨-, rfl⟩ := block.inj (Except.ok.inj (Prod.mk.inj hfirst).2)
      rw [List.map_singleton, hline]
      rfl
    | cons f' fs =>
      -- The other lines are read as by themselves, and moved by the first.
      obtain ⟨u, hs, -, hsecond⟩ := read_lines hv file hfs
      have hlines := ih hfs hsecond
      have hjoin : String.ofList (Text.separated '\n' (charsAll names (f :: f' :: fs))) =
          String.ofList (Text.separated '\n' (charsAll names [f])) ++ "\n" ++
            String.ofList (Text.separated '\n' (charsAll names (f' :: fs))) := by
        simp [charsAll, Text.separated, ← String.toList_inj]
      obtain ⟨gs₀, hgs₀, -, -, hagree⟩ := tracks_second hv hv hv hfirst
        (String.ofList (Text.separated '\n' (charsAll names (f' :: fs))))
      rw [← hjoin, hread] at hgs₀ hagree
      rw [hsecond] at hagree
      cases hagree with
      | ok hjoined =>
        cases hjoined with
        | program m hcopies =>
          have hcount := List.count_eq_zero_of_not_mem hbreak
          rw [List.map_append, hgs₀.map_line, hcopies.map_line, Shift.behind, hcount,
            List.length_cons, List.range'_succ, List.range'_succ_left, ← hlines, List.map_map,
            List.map_singleton, hline]
          rfl

end Form

end YinFrontEnd
