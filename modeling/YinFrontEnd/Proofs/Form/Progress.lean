import YinFrontEnd.Proofs.Form.Parts
import YinFrontEnd.Proofs.Form.Turns

/-!
# Progress

What a reader by descent reads lies behind what it has read before, and a form never takes up
nothing. This is why the limits of the loops are never met. It also bounds what reading makes: each
form of a program is made for a lexeme of its own, and each lexeme takes up characters of its own.
-/
namespace YinFrontEnd

variable {file : Nat} {names more : Interner} {text before : List Char} {c : Cursor} {start : Mark}

namespace Cursor

/-- Moving over blanks and comments is moving on, to the end of the text or to what is neither. -/
lemma After.skipTrivia (h : c.After text before) :
    (∃ gap, c.skipTrivia.After text (before ++ gap)) ∧
      (c.skipTrivia.rest = [] ∨ ∃ ch rest, c.skipTrivia.rest = ch :: rest ∧
        Text.isBlank ch = false ∧ ¬ ['-', '-'] <+: ch :: rest) := by
  obtain ⟨gap, hgap, hmark, hd, -⟩ := c.skipTrivia_spec
  refine ⟨⟨gap, ?_⟩, ?_⟩
  · have hmove := h.move hgap
    rwa [← hmark] at hmove
  · cases hr : c.skipTrivia.rest with
    | nil => exact .inl rfl
    | cons ch rest => exact .inr ⟨ch, rest, rfl, not_isBlank_of_skipTrivia hr, hr ▸ hd⟩

end Cursor

/-- A lexeme takes up characters, also where two hyphens are taken for the beginning of a name. -/
lemma Scanned.after_dispatch {ch : Char} {rest : List Char} {l : Lexeme} {d : Cursor}
    (h : c.After text before) (hr : c.rest = ch :: rest) (hb : Text.isBlank ch = false)
    (hd : dispatch file c ch = lexeme l d) :
    ∃ word, word ≠ [] ∧ d.After text (before ++ word) := by
  by_cases hhyphens : ['-', '-'] <+: c.rest
  · obtain ⟨tail, htail⟩ := hhyphens
    obtain ⟨rfl, rfl⟩ : '-' = ch ∧ '-' :: tail = rest := by simpa [hr] using htail
    have hword : c.rest = c.rest.takeWhile Token.isNameChar ++ c.rest.dropWhile Token.isNameChar :=
      List.takeWhile_append_dropWhile.symm
    have hname : dispatch file c '-' = name c := by
      rw [dispatch_nameChar c rfl (by decide), hr]
      rfl
    rw [hname, name, accept_eq _ hword] at hd
    obtain ⟨-, rfl⟩ := lexeme.inj hd
    refine ⟨_, ?_, h.move hword⟩
    rw [hr]
    exact List.cons_ne_nil _ _
  · have hs : (dispatch file c ch).Sound file text before := sound_dispatch h hr hb hhyphens
    rw [hd] at hs
    obtain ⟨word, hl, hafter, -⟩ := hs
    exact ⟨word, hl.spells.ne_nil, hafter⟩

namespace Descent

lemma exists_of_andThen_ok {α β : Type} {r : Outcome α} {f : Interner → α → Outcome β} {b : β}
    (h : r.andThen f = (more, .ok b)) :
    ∃ names a, r = (names, .ok a) ∧ f names a = (more, .ok b) := by
  obtain ⟨names, e | a⟩ := r
  · exact absurd h (by simp)
  · exact ⟨names, a, rfl, h⟩

lemma after_members (file : Nat) (start : Mark) (names : Interner) (v : Form)
    (h : c.After text before) : ∀ more w d, members file start names v c = (more, .ok (w, d)) →
      ∃ word, d.1.After text (before ++ word) := by
  fun_induction members file start names v c generalizing before with
  | case1 =>
    intro more w d hm
    cases hm
  | case2 names v c rest hr point word hw stop met m hmet =>
    rename_i ih
    intro more w d hm
    obtain ⟨more, ⟨w', d'⟩, hrec, hd⟩ := exists_of_andThen_ok hm
    obtain ⟨-, -, rfl⟩ : _ ∧ _ ∧ _ = d := by simpa using hd
    have hrest : c.rest = ('.' :: word) ++ rest.dropWhile Token.isNameChar := by simp [hr, word]
    obtain ⟨tail, htail⟩ := ih (h.move hrest) _ _ _ hrec
    exact ⟨('.' :: word) ++ tail, by simpa using htail⟩
  | case3 names v c hr =>
    intro more w d hm
    cases hm
    exact ⟨[], by simpa using h⟩

/-- Behind the elements of a group the cursor stands further on in the text, if no more than `n`
characters were left. -/
def ElementsAdvance (file : Nat) (text : List Char) (n : Nat) : Prop :=
  ∀ (k : Delimiter) (start : Mark) (names : Interner) (c : Cursor) (before : List Char),
    c.rest.length ≤ n → c.After text before →
      ∀ more fs stop d, elements file k start names c = (more, .ok (fs, stop, d)) →
        ∃ word, d.1.After text (before ++ word)

/-- The cursor then stands further on behind a form as well. -/
lemma after_form {l : Lexeme} (he : ElementsAdvance file text c.rest.length)
    (h : c.After text before) : ∀ more f d, form file names l c = (more, .ok (f, d)) →
      ∃ word, d.1.After text (before ++ word) := by
  intro more f d hf
  have hstay : ∃ word, c.After text (before ++ word) := ⟨[], by simpa using h⟩
  rw [form] at hf
  cases ht : l.token with
  | opening k =>
    simp only [ht] at hf
    obtain ⟨names, ⟨fs, stop, e⟩, helements, hf⟩ := exists_of_andThen_ok hf
    obtain ⟨names, ⟨g, e'⟩, hmembers, hf⟩ := exists_of_andThen_ok hf
    obtain ⟨-, -, rfl⟩ : _ ∧ _ ∧ _ = d := by simpa using hf
    obtain ⟨inner, hinner⟩ := he k l.start _ c before (Nat.le_refl _) h _ _ _ _ helements
    obtain ⟨tail, htail⟩ := after_members file l.start _ _ hinner _ _ _ hmembers
    exact ⟨inner ++ tail, by simpa using htail⟩
  | name s =>
    simp only [ht] at hf
    exact after_members file l.start _ _ h _ _ _ hf
  | keyword s =>
    simp only [ht] at hf
    cases hf
    exact hstay
  | str s =>
    simp only [ht] at hf
    cases hf
    exact hstay
  | numeral v =>
    cases v <;> simp only [ht] at hf <;> cases hf <;> exact hstay
  | closing k =>
    simp only [ht] at hf
    cases hf
  | member s =>
    simp only [ht] at hf
    cases hf

lemma elementsAdvance (file : Nat) (text : List Char) (n : Nat) :
    ElementsAdvance file text n := by
  induction n using Nat.strongRecOn with
  | _ n ih =>
    intro k start names c before hn h more fs stop d helements
    cases hnext : Scanned.next file false c with
    | finish m =>
      rw [elements_finish hnext] at helements
      cases helements
    | fault e =>
      rw [elements_fault hnext] at helements
      cases helements
    | lexeme l e =>
      have hlt := Scanned.shortens_next file false c l e hnext
      obtain ⟨word, hafter⟩ := Scanned.after_next h hnext
      by_cases hl : ∃ j, l.token = .closing j
      · obtain ⟨j, hj⟩ := hl
        rw [elements_closing hnext hj] at helements
        split at helements
        · cases helements
          exact ⟨word, hafter⟩
        · cases helements
      · rw [elements_form hnext (begins_of_next hnext (not_exists.mp hl))] at helements
        obtain ⟨names, ⟨f, e'⟩, hform, helements⟩ := exists_of_andThen_ok helements
        obtain ⟨names, ⟨gs, stop', e''⟩, hrest, helements⟩ := exists_of_andThen_ok helements
        obtain ⟨-, -, -, rfl⟩ : _ ∧ _ ∧ _ ∧ _ = d := by simpa using helements
        obtain ⟨first, hfirst⟩ := after_form (ih e.rest.length (by omega)) hafter _ _ _ hform
        have he' := e'.2
        obtain ⟨others, hothers⟩ := ih e'.1.rest.length (by omega) k start _ e'.1 _ (Nat.le_refl _)
          hfirst _ _ _ _ hrest
        exact ⟨word ++ first ++ others, by simpa using hothers⟩

end Descent

/-- Reading a form is over after some turns, and either fails or takes up characters. -/
lemma Limited.advances_form {ch : Char} {rest : List Char} {n : Nat} (names : Interner)
    (h : c.After text before) (hr : c.rest = ch :: rest) (hb : Text.isBlank ch = false)
    (hclose : Delimiter.ofClosing? ch = none) (hn : 2 * c.rest.length + 1 ≤ n) :
    (∃ more e, form file n names c ch = some (more, .error e)) ∨
    ∃ more f d word, form file n names c ch = some (more, .ok (f, d)) ∧ word ≠ [] ∧
      d.After text (before ++ word) := by
  obtain ⟨n, rfl⟩ : ∃ m, n = m + 1 := ⟨n - 1, by omega⟩
  obtain ⟨e, -, hform⟩ | ⟨l, d, hd, -, -, hform⟩ :=
    form_cases file names (enoughForElements file n) hr hb hclose (by omega)
  · exact .inl ⟨names, e, hform⟩
  · obtain ⟨word, hword, hafter⟩ := Scanned.after_dispatch h hr hb hd
    cases hf : Descent.form file names l d with
    | mk more r =>
      cases r with
      | error e => exact .inl ⟨more, e, by rw [hform, hf]; rfl⟩
      | ok p =>
        obtain ⟨f, d'⟩ := p
        obtain ⟨tail, htail⟩ :=
          Descent.after_form (Descent.elementsAdvance file text _) hafter _ _ _ hf
        refine .inr ⟨more, f, d'.1, word ++ tail, by rw [hform, hf]; rfl, ?_, by simpa using htail⟩
        exact List.append_ne_nil_of_left_ne_nil hword tail

namespace Form

mutual

/-- The number of forms that a form is made of, itself among them. -/
def nodes : Form → Nat
  | block _ fs | group _ _ fs => nodesOfAll fs + 1
  | member _ v _ => nodes v + 1
  | name _ _ | keyword _ _ | int _ _ | float _ _ | str _ _ => 1

def nodesOfAll : List Form → Nat
  | [] => 0
  | f :: fs => nodes f + nodesOfAll fs

end

/-- The number of forms that stand in a form. -/
def nodesBelow (f : Form) : Nat := nodesOfAll f.parts

lemma nodesOfAll_append (fs gs : List Form) :
    nodesOfAll (fs ++ gs) = nodesOfAll fs + nodesOfAll gs := by
  induction fs with
  | nil => rw [List.nil_append, nodesOfAll, Nat.zero_add]
  | cons f fs ih => rw [List.cons_append, nodesOfAll, nodesOfAll, ih, Nat.add_assoc]

@[simp] lemma nodesOfAll_reverse (fs : List Form) : nodesOfAll fs.reverse = nodesOfAll fs := by
  induction fs with
  | nil => rfl
  | cons f fs ih =>
    rw [List.reverse_cons, nodesOfAll_append, ih, nodesOfAll, nodesOfAll, nodesOfAll, Nat.add_zero,
      Nat.add_comm]

end Form

namespace Assembly

/-- The number of forms that have been made at the levels that are open. -/
def nodesOutside : List OpenGroup → Nat
  | [] => 0
  | g :: groups => Form.nodesOfAll g.before + nodesOutside groups

def nodes (a : Assembly) : Nat := Form.nodesOfAll a.done + nodesOutside a.groups

lemma nodes_push (a : Assembly) {f : Form} (hf : f.nodes = 1) :
    (a.push f).nodes = a.nodes + 1 := by
  simp only [nodes, push, Form.nodesOfAll, hf]
  omega

/-- Each lexeme makes one form at most. -/
lemma nodes_step {a b : Assembly} {l : Lexeme} (h : a.step file names l = (more, .ok b)) :
    b.nodes ≤ a.nodes + 1 := by
  obtain ⟨done, groups⟩ := a
  cases ht : l.token with
  | opening d =>
    simp only [step, ht, Prod.mk.injEq, Except.ok.injEq] at h
    obtain ⟨-, rfl⟩ := h
    simp only [nodes, nodesOutside, Form.nodesOfAll]
    omega
  | closing d =>
    simp only [step, ht, close, Prod.mk.injEq] at h
    obtain ⟨-, h⟩ := h
    cases groups with
    | nil => cases h
    | cons g groups =>
      simp only at h
      split at h
      · cases h
        simp only [nodes, nodesOutside, Form.nodesOfAll, Form.nodes, Form.nodesOfAll_reverse]
        omega
      · cases h
  | member s =>
    simp only [step, ht, attach, Prod.mk.injEq] at h
    obtain ⟨-, h⟩ := h
    cases done with
    | nil => cases h
    | cons v done =>
      cases h
      simp only [nodes, Form.nodesOfAll, Form.nodes]
      omega
  | numeral v =>
    cases v with
    | int v =>
      simp only [step, ht, Prod.mk.injEq, Except.ok.injEq] at h
      obtain ⟨-, rfl⟩ := h
      exact Nat.le_of_eq (nodes_push _ (by rw [Form.nodes]))
    | float b =>
      simp only [step, ht, Prod.mk.injEq, Except.ok.injEq] at h
      obtain ⟨-, rfl⟩ := h
      exact Nat.le_of_eq (nodes_push _ (by rw [Form.nodes]))
  | name s | keyword s | str s =>
    simp only [step, ht, Prod.mk.injEq, Except.ok.injEq] at h
    obtain ⟨-, rfl⟩ := h
    exact Nat.le_of_eq (nodes_push _ (by rw [Form.nodes]))

lemma nodes_run {a b : Assembly} {ls : List Lexeme} (h : a.run file names ls = (more, .ok b)) :
    b.nodes ≤ a.nodes + ls.length := by
  induction ls generalizing a names with
  | nil =>
    cases h
    exact Nat.le_refl _
  | cons l ls ih =>
    rw [run] at h
    cases hs : a.step file names l with
    | mk met r =>
      rw [hs] at h
      cases r with
      | error e => cases h
      | ok b' =>
        have hstep := nodes_step hs
        have hrun := ih h
        rw [List.length_cons]
        omega

end Assembly

/-- Lexemes take up characters of their own. -/
lemma Lexeme.Sequence.length_le {attached : Bool} {inside : List Char} {ls : List Lexeme}
    (h : Sequence attached before inside ls) : ls.length ≤ inside.length := by
  induction h with
  | nil => exact Nat.le_refl _
  | @cons _ _ gap word inside l ls hl _ _ ih =>
    have hpos := List.length_pos_iff.mpr hl.spells.ne_nil
    simp only [List.length_cons, List.length_append]
    omega

lemma Assembly.nodesBelow_of_finish {a : Assembly} {stop : Mark} {f : Form}
    (h : a.finish file stop = .ok f) : f.nodesBelow = a.nodes := by
  obtain ⟨done, groups⟩ := a
  cases groups with
  | nil =>
    cases h
    rw [Form.nodesBelow, Form.parts, Form.nodesOfAll_reverse, nodes, nodesOutside, Nat.add_zero]
  | cons g groups => cases h

/-- A program that is read has no more forms in it than its text has characters. -/
lemma Form.nodesBelow_le {text : String} {f : Form} (h : read file names text = (more, .ok f)) :
    f.nodesBelow ≤ text.toList.length := by
  obtain ⟨inside, rest, htext, hseq, -⟩ := Scan.sound_ofText file text.toList
  have hlexemes := hseq.length_le
  have hlength : inside.length + rest.length = text.toList.length := by
    rw [← htext, List.length_append]
  simp only [read] at h
  cases hr : Assembly.empty.run file names (Scan.ofText file text.toList).lexemes with
  | mk met r =>
    rw [hr] at h
    cases r with
    | error e => cases h
    | ok a =>
      have hrun := Assembly.nodes_run hr
      have hempty : Assembly.empty.nodes = 0 := rfl
      obtain ⟨-, hfinish⟩ := Prod.mk.inj h
      cases hend : (Scan.ofText file text.toList).ending with
      | error e =>
        rw [hend] at hfinish
        cases hfinish
      | ok m =>
        rw [hend] at hfinish
        have hnodes := Assembly.nodesBelow_of_finish hfinish
        omega

/-- A reader gets on. Moving over blanks and comments is over after at most one turn for each
character and one more; it never goes back, and stops at the end of the text or at what is neither
blank nor the beginning of a comment. Reading a form that begins with a character other than a
closing bracket is over as well, and fails or takes up characters. So reading a program comes to
an end with what the machine reads, and what is read has no more forms in it than the text has
characters. -/
theorem Form.read_progress (file : Nat) :
    (∀ (text before : List Char) (c : Cursor) (n : Nat), c.After text before →
      c.rest.length + 1 ≤ n →
      Limited.skipTrivia n c = some c.skipTrivia ∧
      (∃ gap, c.skipTrivia.After text (before ++ gap)) ∧
      (c.skipTrivia.rest = [] ∨ ∃ ch rest, c.skipTrivia.rest = ch :: rest ∧
        Text.isBlank ch = false ∧ ¬ ['-', '-'] <+: ch :: rest)) ∧
    (∀ (names : Interner) (text before : List Char) (c : Cursor) (ch : Char) (rest : List Char)
      (n : Nat), c.After text before → c.rest = ch :: rest → Text.isBlank ch = false →
      Delimiter.ofClosing? ch = none → 2 * c.rest.length + 1 ≤ n →
      (∃ more e, Limited.form file n names c ch = some (more, .error e)) ∨
      ∃ more f d word, Limited.form file n names c ch = some (more, .ok (f, d)) ∧ word ≠ [] ∧
        d.After text (before ++ word)) ∧
    ∀ (names : Interner) (text : String),
      (∀ n, 2 * text.toList.length + 2 ≤ n →
        Limited.read file n names text = some (read file names text)) ∧
      ∀ more f, read file names text = (more, .ok f) → f.nodesBelow ≤ text.toList.length := by
  refine ⟨fun text before c n h hn => ?_, fun names text before c ch rest n h hr hb hclose hn => ?_,
    fun names text => ⟨fun n hn => Limited.read_eq file names text hn, ?_⟩⟩
  · obtain ⟨hgap, hstop⟩ := h.skipTrivia
    exact ⟨Limited.skipTrivia_eq (by omega), hgap, hstop⟩
  · exact Limited.advances_form names h hr hb hclose hn
  · exact fun more f hread => nodesBelow_le hread

/-- A comment in front of a group with a member in it. -/
theorem Form.read_progress_group :
    let c : Cursor := .start "-- c\n(f.x 1)".toList
    let d : Cursor := ⟨⟨5, 2, 1⟩, "(f.x 1)".toList⟩
    (c.After "-- c\n(f.x 1)".toList [] ∧ c.rest.length + 1 ≤ 13 ∧
      Limited.skipTrivia 13 c = some c.skipTrivia ∧ c.skipTrivia = d) ∧
    (d.After "-- c\n(f.x 1)".toList "-- c\n".toList ∧ d.rest = '(' :: "f.x 1)".toList ∧
      Text.isBlank '(' = false ∧ Delimiter.ofClosing? '(' = none ∧ 2 * d.rest.length + 1 ≤ 15 ∧
      ((∃ more e, Limited.form 0 15 .empty d '(' = some (more, .error e)) ∨
        ∃ more f e word, Limited.form 0 15 .empty d '(' = some (more, .ok (f, e)) ∧ word ≠ [] ∧
          e.After "-- c\n(f.x 1)".toList ("-- c\n".toList ++ word))) ∧
    Limited.read 0 26 .empty "-- c\n(f.x 1)" = some (read 0 .empty "-- c\n(f.x 1)") ∧
    ∃ more f, read 0 .empty "-- c\n(f.x 1)" = (more, .ok f) ∧ f.nodesBelow = 4 ∧
      f.nodesBelow ≤ "-- c\n(f.x 1)".toList.length := by
  have hc : (Cursor.start "-- c\n(f.x 1)".toList).After "-- c\n(f.x 1)".toList [] :=
    Cursor.after_start _
  have hd : (⟨⟨5, 2, 1⟩, "(f.x 1)".toList⟩ : Cursor).After "-- c\n(f.x 1)".toList
      "-- c\n".toList := ⟨by decide, by decide⟩
  have hnodes : (read 0 .empty "-- c\n(f.x 1)").2.map nodesBelow = .ok 4 := by decide +kernel
  obtain ⟨htrivia, hform, hread⟩ := Form.read_progress 0
  refine ⟨⟨hc, by decide, (htrivia _ _ _ 13 hc (by decide)).1, by decide +kernel⟩,
    ⟨hd, by decide, by decide, by decide, by decide, ?_⟩, (hread _ _).1 26 (by decide), ?_⟩
  · exact hform .empty _ _ _ '(' _ 15 hd rfl (by decide) (by decide) (by decide)
  · cases hok : read 0 .empty "-- c\n(f.x 1)" with
    | mk more r =>
      rw [hok] at hnodes
      cases r with
      | error e => cases hnodes
      | ok f => exact ⟨more, f, rfl, Except.ok.inj hnodes, (hread _ _).2 more f hok⟩

end YinFrontEnd
