import YinFrontEnd.Command
import YinFrontEnd.Proofs.Expr.Joining
import YinFrontEnd.Proofs.Expr.Reprinting
import YinFrontEnd.Proofs.Expr.Rules

/-!
# Programs without fields

Forms are written by one function and expressions by another. What is parsed from a form may be
written differently where fields are concerned: of a field that is given twice one is left, the
type comes first, and what is no field is gone. A form without declarations and record types,
whose functions have lists of names for parameters, has no fields, and is written like the
expression that it denotes. So the forms and the expressions of such a program have the same lines.
-/
namespace YinFrontEnd

namespace Form

variable {names : Interner} {f g : Form} {fs : List Form} {k : SpecialForm}

/-- The operands, if the form has the head of the special form. -/
def operands? (names : Interner) (k : SpecialForm) : Form → Option (List Form)
  | group _ .paren (name _ n :: operands) =>
      if names.text? n = some k.keyword then some operands else none
  | _ => none

lemma operands?_eq_some_iff : f.operands? names k = some fs ↔ f.IsSpecial names k fs := by
  constructor
  · intro h
    unfold operands? at h
    split at h
    · rename_i s t n operands
      split at h
      · rename_i hn
        obtain rfl := Option.some.inj h
        exact ⟨s, .name t n, rfl, t, n, rfl, hn⟩
      · exact absurd h (by simp)
    · exact absurd h (by simp)
  · rintro ⟨s, head, rfl, t, n, rfl, hn⟩
    exact if_pos hn

/-- Names in parentheses. -/
def isNameList : Form → Bool
  | group _ .paren elements => elements.all (·.name?.isSome)
  | _ => false

/-- The form is no declaration and no record type, and if it is a function, then its parameters
are names in parentheses. -/
structure Fieldless (names : Interner) (f : Form) : Prop where
  declaration (fs : List Form) : ¬ f.IsSpecial names .declaration fs
  record (fs : List Form) : ¬ f.IsSpecial names .record fs
  function (list : Form) (fs : List Form) : f.IsSpecial names .function (list :: fs) →
    list.isNameList = true

/-- Neither the form nor any form in it has fields. -/
def Plain (names : Interner) (f : Form) : Prop :=
  ∀ g : Form, g.Within f → g.Fieldless names

lemma fieldless_iff : f.Fieldless names ↔ f.operands? names .declaration = none ∧
    f.operands? names .record = none ∧
      ∀ list ∈ (f.operands? names .function).bind List.head?, list.isNameList = true := by
  simp only [Option.eq_none_iff_forall_ne_some, Ne, operands?_eq_some_iff, Option.mem_def,
    Option.bind_eq_some_iff, List.head?_eq_some_iff]
  constructor
  · rintro ⟨hd, hr, hf⟩
    refine ⟨hd, hr, ?_⟩
    rintro list ⟨_, h, others, rfl⟩
    exact hf list others h
  · rintro ⟨hd, hr, hf⟩
    exact ⟨hd, hr, fun list others h => hf list ⟨_, h, others, rfl⟩⟩

instance : Decidable (f.Fieldless names) := decidable_of_iff _ fieldless_iff.symm

lemma fieldless_of_group? (h : f.group? = none) : f.Fieldless names := by
  rw [fieldless_iff]
  cases f with
  | group => exact absurd h (by simp [group?])
  | _ => exact ⟨rfl, rfl, by simp [operands?]⟩

lemma Plain.of_part (h : f.Plain names) (hg : g ∈ f.parts) : g.Plain names :=
  fun k hk => h k (hk.trans (.single hg))

/-- A form is plain if it has no fields and its parts are plain. -/
lemma plain_iff : f.Plain names ↔ f.Fieldless names ∧ ∀ g ∈ f.parts, g.Plain names := by
  constructor
  · intro h
    exact ⟨h f (.refl f), fun g => h.of_part⟩
  · rintro ⟨hf, hparts⟩ k hk
    obtain rfl | ⟨g, hkg, hg⟩ := Relation.ReflTransGen.cases_tail hk
    · exact hf
    · exact hparts g hg k hkg

mutual

/-- True of the plain forms. -/
def isPlain (names : Interner) : Form → Bool
  | block _ fs => allPlain names fs
  | group s d fs => decide ((group s d fs).Fieldless names) && allPlain names fs
  | member _ v _ => isPlain names v
  | _ => true

def allPlain (names : Interner) : List Form → Bool
  | [] => true
  | f :: fs => isPlain names f && allPlain names fs

end

mutual

theorem isPlain_iff (names : Interner) : ∀ f : Form, isPlain names f = true ↔ f.Plain names
  | block s fs => by
    rw [isPlain, allPlain_iff names fs, plain_iff, and_iff_right (fieldless_of_group? rfl)]
    rfl
  | group s d fs => by
    rw [isPlain, Bool.and_eq_true, decide_eq_true_iff, allPlain_iff names fs, plain_iff]
    rfl
  | member s v n => by
    rw [isPlain, isPlain_iff names v, plain_iff (f := member s v n),
      and_iff_right (fieldless_of_group? rfl)]
    exact List.forall_mem_singleton.symm
  | name _ _ | keyword _ _ | int _ _ | float _ _ | str _ _ => by
    rw [plain_iff, and_iff_right (fieldless_of_group? rfl)]
    simp [isPlain, parts]

theorem allPlain_iff (names : Interner) :
    ∀ fs : List Form, allPlain names fs = true ↔ ∀ f ∈ fs, f.Plain names
  | [] => by simp [allPlain]
  | f :: fs => by
    rw [allPlain, Bool.and_eq_true, isPlain_iff names f, allPlain_iff names fs,
      List.forall_mem_cons]

end

instance : Decidable (f.Plain names) := decidable_of_iff _ (isPlain_iff names f)

end Form

namespace Expr

variable {names : Interner} {f : Form} {fs : List Form} {e : Expr} {es : List Expr}

lemma charsAll_of_ofForms (h : ofForms names fs = .ok es)
    (hall : ∀ f ∈ fs, ∀ e, ofForm names f = .ok e → chars names e = Form.chars names f) :
    charsAll names es = fs.map (Form.chars names) := by
  have hpairs := ofForms_eq_ok_iff.mp h
  clear h
  induction hpairs with
  | nil => rfl
  | cons he _ ih =>
    obtain ⟨hf, hfs⟩ := List.forall_mem_cons.mp hall
    rw [charsAll, hf _ he, ih hfs, List.map_cons]

/-- A plain form is written like the expression that it denotes. -/
theorem chars_of_ofForm (hv : names.Valid) (hp : f.Plain names) (h : ofForm names f = .ok e) :
    chars names e = Form.chars names f := by
  induction f using Form.wellFounded_inside.induction generalizing e with
  | _ f ih =>
    have part {g : Form} (hg : g ∈ f.parts) {d : Expr} (hd : ofForm names g = .ok d) :
        chars names d = Form.chars names g := ih g (.of_part hg) (hp.of_part hg) hd
    have all {gs : List Form} {ds : List Expr} (hds : ofForms names gs = .ok ds)
        (hin : ∀ g ∈ gs, g ∈ f.parts) : charsAll names ds = gs.map (Form.chars names) :=
      charsAll_of_ofForms hds fun g hg d hd => part (hin g hg) hd
    have hless := (Form.plain_iff.mp hp).1
    have special (s t : Span) (k : SpecialForm) (fs : List Form) :
        (Form.group s .paren (.name t k.name :: fs)).IsSpecial names k fs :=
      ⟨s, .name t k.name, rfl, t, k.name, rfl, hv.text?_special k⟩
    cases parses_of_ofForm h with
    | block s hes =>
      rw [chars, Form.chars, all hes fun g hg => hg, Form.charsAll_eq_map]
      rfl
    | member s n he => rw [chars, Form.chars, part (List.mem_singleton_self _) he]
    | name s n => rw [chars, Form.chars]
    | keyword s n => rw [chars, Form.chars]
    | int s v => rw [chars, Form.chars]
    | float s b => rw [chars, Form.chars]
    | str s n => rw [chars, Form.chars]
    | curly s hes =>
      rw [chars, chars_group, all hes fun g hg => hg]
      rfl
    | square s hes =>
      rw [chars, chars_group, all hes fun g hg => hg]
      rfl
    | call s _ he hes =>
      rw [chars, chars_group, part List.mem_cons_self he,
        all hes fun g hg => List.mem_cons_of_mem _ hg]
      rfl
    | sequence s t hes =>
      rw [chars, chars_headed hv, all hes fun g hg => List.mem_cons_of_mem _ hg]
      rfl
    | conditional s t ha hb hc =>
      rw [chars, chars_headed hv, part (by simp [Form.parts]) ha, part (by simp [Form.parts]) hb,
        part (by simp [Form.parts]) hc]
      rfl
    | definition s t ha hb =>
      rw [chars, chars_headed hv, part (by simp [Form.parts]) ha, part (by simp [Form.parts]) hb]
      rfl
    | assignment s t ha hb =>
      rw [chars, chars_headed hv, part (by simp [Form.parts]) ha, part (by simp [Form.parts]) hb]
      rfl
    | declaration s t _ => exact absurd (special s t .declaration _) (hless.declaration _)
    | @function s t ls b d elements fs params es hparams _ hes =>
      have hlist := hless.function _ _ (special s t .function _)
      obtain rfl : d = .paren := by
        cases d with
        | paren => rfl
        | _ => exact absurd hlist (by simp [Form.isNameList])
      have hparts : ∀ g ∈ fs, g ∈ Form.parts (.group s .paren
          (.name t SpecialForm.function.name :: .group ls .paren elements :: fs)) :=
        fun g hg => by simp [Form.parts, hg]
      obtain rfl := elements_of_parameters hparams
      rw [chars, chars_headed hv, all hes hparts, List.map_cons, chars_group, List.map_map]
      rfl
    | @typedFunction s t ls b d elements fs params table es hparams _ _ _ =>
      have hlist := hless.function _ _ (special s t .function _)
      obtain ⟨hne, htyped⟩ := parameters_typed_iff.mp ⟨_, hparams⟩
      obtain ⟨p, hmem⟩ := List.exists_mem_of_ne_nil _ hne
      obtain ⟨u, c, v, n, others, rfl⟩ := htyped p hmem
      cases d with
      | paren => exact absurd (List.all_eq_true.mp hlist _ hmem) (by simp [Form.name?])
      | _ => exact absurd hlist (by simp [Form.isNameList])
    | recordType s t u ls n _ _ => exact absurd (special s t .record _) (hless.record _)
    | recordAlone s t u n _ => exact absurd (special s t .record _) (hless.record _)

end Expr

section Programs

variable {names : Interner} {fs : List Form}

/-- A program with a statement is written as something. -/
lemma Form.eq_nil_of_write (hv : names.Valid) (hl : ∀ f ∈ fs, f.Legible names)
    (h : String.ofList (Text.separated '\n' (charsAll names fs)) = "") : fs = [] := by
  obtain ⟨s, gs, hgs, hread⟩ := read_lines hv 0 (List.forall_mem_nil (Legible names))
  obtain rfl := List.map_eq_nil_iff.mp hgs
  have hnone : String.ofList (Text.separated '\n' (charsAll names [])) = "" := by
    simp [charsAll, Text.separated]
  rw [hnone, ← h] at hread
  exact List.eq_nil_of_length_eq_zero (length_of_read hv hl hread).symm

lemma Command.lines_cons (l : String) (ls : List String) :
    lines (l :: ls) = l ++ "\n" ++ lines ls := by
  simp [lines]

/-- Pieces with line breaks between them are printed as lines. -/
lemma Command.lines_separated (piece : List Char) (pieces : List (List Char)) :
    lines [String.ofList (Text.separated '\n' (piece :: pieces))] =
      lines ((piece :: pieces).map String.ofList) := by
  induction pieces generalizing piece with
  | nil => simp [lines, Text.separated]
  | cons next pieces ih =>
    rw [List.map_cons, lines_cons _ (List.map _ _), ← ih next, ← String.toList_inj]
    simp [lines, Text.separated]

/-- The forms of a program are printed one in each line. -/
lemma Command.readFile_eq {colors : Bool} {path content : String} {s : Span}
    (h : Form.read mainFile .new content = (names, .ok (.block s fs))) :
    readFile colors path content =
      succeed ((fs.map (Form.chars names)).map String.ofList) := by
  have hl : ∀ f ∈ fs, f.Legible names := by
    cases Form.readable_of_read Interner.valid_new h with
    | program _ hl => exact hl
  have hvalid : names.Valid := (Form.nested_of_read Interner.valid_new h).1
  simp only [readFile, h]
  rw [← Form.charsAll_eq_map, Form.write]
  split
  · rename_i hempty
    rw [Form.eq_nil_of_write hvalid hl hempty]
    rfl
  · cases fs with
    | nil => contradiction
    | cons f fs =>
      rw [succeed, succeed, Form.charsAll, Command.lines_separated]

end Programs

namespace Expr

variable {names : Interner} {f : Form} {e : Expr}

/-- A plain form that is no block is written like the expression that it denotes. The forms and the
expressions of a plain program are printed in the same lines. -/
theorem write_of_ofForm (hr : names.Reached) (hp : f.Plain names) (h : ofForm names f = .ok e) :
    ((∀ s fs, f ≠ .block s fs) → e.write names = f.write names) ∧
      ∀ (colors : Bool) (path content : String),
        Form.read Command.mainFile .new content = (names, .ok f) →
          Command.readFile colors path content = Command.succeed (e.writeLines names) ∧
            Command.parseFile colors path content = Command.succeed (e.writeLines names) := by
  refine ⟨fun hblock => ?_, fun colors path content hread => ?_⟩
  · have hform : f.write names = String.ofList (Form.chars names f) := by
      cases f with
      | block s fs => exact absurd rfl (hblock s fs)
      | _ => rfl
    rw [write, hform, chars_of_ofForm hr.valid hp h]
  · obtain ⟨-, s, fs, rfl, -⟩ := Form.nested_of_read Interner.valid_new hread
    obtain ⟨es, hes, rfl⟩ := map_eq_ok.mp h
    have hchars : charsAll names es = fs.map (Form.chars names) :=
      charsAll_of_ofForms hes fun g hg d hd => chars_of_ofForm hr.valid (hp.of_part hg) hd
    rw [Command.readFile_eq hread, writeLines_eq_map, hchars]
    refine ⟨rfl, ?_⟩
    have hparse : parse Command.mainFile .new content = (names, .ok (block s es)) := by
      rw [parse_of_read hread, h]
    simp only [Command.parseFile, hparse]
    rw [writeLines_eq_map, hchars]

/-- An assignment, and a program with a function of two parameters in it, one of them the name of
the arrow. -/
theorem write_of_ofForm_function :
    let content := "(define f (fun (a ->)\n (if a.b (seq -01 :k) [\"\n\" \x7b2.50\x7d]))) (f) --"
    let names := (Form.read Command.mainFile .new content).1
    let g := Form.group .dummy .paren [.name .dummy SpecialForm.assignment.name,
      .name .dummy .typeKey, .group .dummy .square [.int .dummy (-1)]]
    Interner.new.Reached ∧ g.Plain .new ∧
      (∃ d, ofForm .new g = .ok d ∧ d.write .new = g.write .new) ∧
      names.Reached ∧ ∃ f e, Form.read Command.mainFile .new content = (names, .ok f) ∧
        f.Plain names ∧ ofForm names f = .ok e ∧ ∀ colors path,
          Command.readFile colors path content = Command.parseFile colors path content := by
  intro content names g
  have hg : g.Plain .new := by decide +kernel
  have hwrite := (write_of_ofForm .new hg rfl).1 (by simp [g])
  refine ⟨.new, hg, ⟨_, rfl, hwrite⟩, ?_⟩
  have hr : names.Reached := Form.reached_read .new Command.mainFile content
  have hplain : (Form.read Command.mainFile .new content).2.toOption.map (·.isPlain names) =
      some true := by decide +kernel
  have hok : (parse Command.mainFile .new content).2.isOk = true := by decide +kernel
  obtain ⟨f, hf, hplain⟩ := exists_ok_of_toOption hplain
  have hread : Form.read Command.mainFile .new content = (names, .ok f) := Prod.ext rfl hf
  have hp : f.Plain names := (Form.isPlain_iff names f).mp hplain
  rw [parse_of_read hread] at hok
  obtain ⟨e, he⟩ := exists_ok_of_isOk hok
  refine ⟨hr, f, e, hread, hp, he, fun colors path => ?_⟩
  obtain ⟨hforms, hexprs⟩ := (write_of_ofForm hr hp he).2 colors path content hread
  exact hforms.trans hexprs.symm

end Expr

end YinFrontEnd
