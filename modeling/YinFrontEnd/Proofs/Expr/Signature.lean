import YinFrontEnd.Proofs.Expr.FirstError
import YinFrontEnd.Proofs.Expr.History
import YinFrontEnd.Proofs.Expr.Mirror
import YinFrontEnd.Proofs.Expr.Rules

/-!
# Parameter lists

The parameters of a function are names, or they are groups that begin with names, and the square
groups among these are the fields of a table. What a function has of them, and for which error it
is rejected where something is wrong with it, is said here from the forms alone. In a list of
groups `->` is no parameter, since it stands for the return type. In a list of names it is taken for
one.
-/
namespace YinFrontEnd

namespace Expr

/-- What a function has of its parameters. There is a table if one of them is a group. Without a
table they are all names. With a table they are the names that the groups begin with, except `->`,
and the fields are named like the square groups among them. -/
structure Signature (names : Interner) (elements : List Form) (params : List Ident)
    (table : Option (Properties Expr)) : Prop where
  table_iff : table.isSome = true ↔ ∃ p ∈ elements, p.group?.isSome = true
  names_of_none : table = none → elements = params.map fun i => .name i.span i.name
  heads_of_some : ∀ t ∈ table, ∃ js, Heads elements js ∧
    params = js.filter fun i => names.text? i.name ≠ some "->"
  fields_of_some : ∀ t ∈ table,
    Heads (elements.filter (·.isGroupIn .square)) (t.entries.map Prod.fst) ∧
      ((t.entries.map Prod.fst).filter fun i => names.text? i.name ≠ some "->").Sublist params

/-- The error for which a function is rejected, given its operands: each kind of error excludes
those above it. -/
inductive FunctionError (names : Interner) (s : Span) : List Form → ParseError → Prop
  | withoutParameters : FunctionError names s [] (FormFault.error .functionWithoutParameters s)
  | withoutBody (list : Form) :
      FunctionError names s [list] (FormFault.error .functionWithoutBody s)
  | parametersNotGroup {list first : Form} {fs : List Form} : list.group? = none →
      FunctionError names s (list :: first :: fs)
        (FormFault.error (.parametersNotGroup (list.write names)) list.span)
  | parameter (ls : Span) (d : Delimiter) {before after fs : List Form} {p first : Form}
      {err : ParseError} : (∀ q ∈ before, q.IsParameter) → ParameterError names p err →
      FunctionError names s (.group ls d (before ++ p :: after) :: first :: fs) err
  | mixedParameters (ls : Span) (d : Delimiter) {elements fs : List Form} {p q first : Form} :
      (∀ r ∈ elements, r.IsParameter) → p ∈ elements → p.name?.isSome = true → q ∈ elements →
      q.IsTypedParameter → FunctionError names s (.group ls d elements :: first :: fs)
        (FormFault.error (.mixedParameters ((Form.group ls d elements).write names)) ls)
  | field (ls r : Span) (d : Delimiter) {before es after fs : List Form} {first : Form}
      {t : Properties Expr} {err : ParseError} :
      (∀ p ∈ before ++ .group r .square es :: after, p.IsTypedParameter) →
      properties names before = .ok t → FieldError names t.names r es err →
      FunctionError names s
        (.group ls d (before ++ .group r .square es :: after) :: first :: fs) err
  | body (ls : Span) (d : Delimiter) {elements fs : List Form} {first : Form}
      {err : ParseError} : (∀ p ∈ elements, p.name?.isSome = true) ∨
        (∀ p ∈ elements, p.IsTypedParameter) ∧ (∃ t, properties names elements = .ok t) →
      FirstError (ofForm names) (first :: fs) err →
      FunctionError names s (.group ls d elements :: first :: fs) err

variable {names : Interner} {first : Form} {fs gs elements : List Form} {s t ls : Span}
  {d : Delimiter} {params : List Ident} {err : ParseError}

section Functions

/-- The parameters and the table are read. -/
lemma exists_table_iff {list : Form} : (∃ r table, parameters names list elements = .ok r ∧
      (if r.2 then (tableOf names .empty elements).map some else .ok none) = .ok table) ↔
    (∀ p ∈ elements, p.name?.isSome = true) ∨
      (∀ p ∈ elements, p.IsTypedParameter) ∧ ∃ t, properties names elements = .ok t := by
  constructor
  · rintro ⟨⟨params, typed⟩, table, hp, ht⟩
    cases typed with
    | false => exact .inl (parameters_untyped_iff.mp ⟨_, hp⟩)
    | true =>
      obtain ⟨t, ht, -⟩ := map_eq_ok.mp ht
      exact .inr ⟨(parameters_typed_iff.mp ⟨_, hp⟩).2, t, ht⟩
  · rintro (h | ⟨h, t, ht⟩)
    · obtain ⟨params, hp⟩ := parameters_untyped_iff.mpr h
      exact ⟨_, none, hp, rfl⟩
    · by_cases hnil : elements = []
      · subst hnil
        exact ⟨_, none, rfl, rfl⟩
      · obtain ⟨params, hp⟩ := parameters_typed_iff.mpr ⟨hnil, h⟩
        exact ⟨_, some t, hp, map_eq_ok.mpr ⟨t, ht, rfl⟩⟩

/-- A function with a parameter list and a body is rejected for the first thing in them that is
wrong. -/
lemma function_eq_error_iff : ofForm names (.group s .paren (.name t SpecialForm.function.name ::
      .group ls d elements :: first :: fs)) = .error err ↔
    FunctionError names s (.group ls d elements :: first :: fs) err := by
  rw [ofForm_function, bind_eq_error_iff]
  constructor
  · rintro (h | ⟨⟨params, typed⟩, hp, h⟩)
    · obtain ⟨before, p, after, rfl, hbefore, herr⟩ |
        ⟨hall, ⟨⟨p, hp, hname⟩, q, hq, htyped⟩, rfl⟩ := parameters_eq_error_iff.mp h
      · exact .parameter ls d (fun q hq => exists_parameter_iff.mp (hbefore q hq))
          (parameter_eq_error_iff.mp herr)
      · exact .mixedParameters ls d hall hp hname hq htyped
    · obtain h | ⟨table, htable, h⟩ := bind_eq_error_iff.mp h
      · cases typed with
        | false => exact absurd h (by simp)
        | true =>
          obtain ⟨before, r, es, after, u, rfl, hu, hfield⟩ :=
            (tableOf_eq_error_iff Properties.indexed_empty).mp (map_eq_error_iff.mp h)
          exact .field ls r d (parameters_typed_iff.mp ⟨_, hp⟩).2 hu hfield
      · obtain h | ⟨es, -, h⟩ := bind_eq_error_iff.mp h
        · exact .body ls d (exists_table_iff.mp ⟨_, table, hp, htable⟩)
            (ofForms_eq_error_iff.mp h)
        · exact absurd h (by simp)
  · intro h
    cases h with
    | parametersNotGroup hlist => exact absurd hlist (by simp [Form.group?])
    | @parameter _ _ before after _ p _ _ hbefore hp =>
      refine .inl (parameters_eq_error_iff.mpr (.inl ⟨before, p, after, rfl, ?_, ?_⟩))
      · exact fun q hq => exists_parameter_iff.mpr (hbefore q hq)
      · exact parameter_eq_error_iff.mpr hp
    | mixedParameters _ _ hall hp hname hq htyped =>
      exact .inl (parameters_eq_error_iff.mpr
        (.inr ⟨hall, ⟨⟨_, hp, hname⟩, _, hq, htyped⟩, rfl⟩))
    | @field _ r _ before es after _ _ u _ hall hu hfield =>
      obtain ⟨params, hp⟩ := parameters_typed_iff.mpr ⟨by simp, hall⟩
      refine .inr ⟨_, hp, bind_eq_error_iff.mpr (.inl (map_eq_error_iff.mpr ?_))⟩
      exact (tableOf_eq_error_iff Properties.indexed_empty).mpr
        ⟨before, r, es, after, u, rfl, hu, hfield⟩
    | body _ _ hlist herr =>
      obtain ⟨r, table, hp, htable⟩ := exists_table_iff.mpr hlist
      exact .inr ⟨r, hp, bind_eq_error_iff.mpr (.inr ⟨table, htable,
        bind_eq_error_iff.mpr (.inl (ofForms_eq_error_iff.mpr herr))⟩)⟩

/-- A function is rejected for the first thing in it that is wrong. -/
lemma ofForm_function_eq_error_iff {operands : List Form} :
    ofForm names (.group s .paren (.name t SpecialForm.function.name :: operands)) = .error err ↔
      FunctionError names s operands err := by
  match operands with
  | [] =>
    constructor
    · intro h
      obtain rfl := Except.error.inj h
      exact .withoutParameters
    · intro h
      cases h
      rfl
  | [list] =>
    constructor
    · intro h
      obtain rfl := Except.error.inj h
      exact .withoutBody list
    · intro h
      cases h
      rfl
  | list :: first :: fs =>
    cases hlist : list.group? with
    | some g =>
      cases list with
      | group ls d elements => exact function_eq_error_iff
      | _ => exact absurd hlist (by simp [Form.group?])
    | none =>
      rw [ofForm_function_of_list hlist]
      constructor
      · intro h
        obtain rfl := Except.error.inj h
        exact .parametersNotGroup hlist
      · intro h
        cases h with
        | parametersNotGroup _ => rfl
        | _ => exact absurd hlist (by simp [Form.group?])

lemma Fields.heads {fields : List (Ident × Attributes Expr)} (h : Fields names gs fields) :
    Heads (gs.filter (·.isGroupIn .square)) (fields.map Prod.fst) := by
  induction h with
  | nil => exact .nil
  | skip hg _ ih => rwa [List.filter_cons_of_neg (by simp [hg])]
  | field s s' he _ _ ih =>
    rw [List.filter_cons_of_pos (by rfl)]
    obtain ⟨f, rest, hf, -, rfl⟩ := List.forall₂_cons_right_iff.mp (ofForms_eq_ok_iff.mp he)
    obtain rfl := form_of_ident hf
    exact .cons s .square ⟨_, s'⟩ rest ih

lemma signature_untyped {list : Form}
    (h : parameters names list elements = .ok (params, false)) :
    Signature names elements params none where
  table_iff := by
    obtain rfl := elements_of_parameters h
    simp [Form.group?]
  names_of_none _ := elements_of_parameters h
  heads_of_some := by simp
  fields_of_some := by simp

lemma signature_typed (hv : names.Valid) {list : Form} {table : Properties Expr}
    (h : parameters names list elements = .ok (params, true))
    (ht : tableOf names .empty elements = .ok table) :
    Signature names elements params (some table) := by
  have hfields := (tableOf_iff.mp ⟨table, ht, rfl⟩).1
  obtain ⟨js, hjs, rfl⟩ := heads_of_parameters h
  have harrow (is : List Ident) : is.filter (fun i => names.text? i.name ≠ some "->") =
      is.filter (·.name ≠ .returnArrow) := by simp only [ne_eq, hv.text?_eq_arrow_iff]
  refine ⟨?_, by simp, fun t ht => ⟨js, hjs, (harrow js).symm⟩, fun t ht => ?_⟩
  · obtain ⟨hne, htyped⟩ := parameters_typed_iff.mp ⟨_, h⟩
    obtain ⟨p, rest, rfl⟩ := List.exists_cons_of_ne_nil hne
    obtain ⟨s, d, t, n, es, rfl⟩ := htyped p List.mem_cons_self
    simp [Form.group?]
  · obtain rfl := Option.some.inj (Option.mem_def.mp ht)
    rw [harrow]
    exact ⟨hfields.heads, (hjs.sublist hfields).filter _⟩

lemma exists_signature (hv : names.Valid) {operands : List Form} {e : Expr}
    (h : ofForm names (.group s .paren (.name t SpecialForm.function.name :: operands)) = .ok e) :
    ∃ ls d elements fs params table body, operands = .group ls d elements :: fs ∧
      e = function s params table body ∧ Signature names elements params table := by
  cases parses_function h with
  | call _ hhead _ _ => exact absurd (hhead _ rfl) (by decide)
  | function _ _ ls b d hp _ _ =>
    exact ⟨ls, d, _, _, _, _, _, rfl, rfl, signature_untyped hp⟩
  | typedFunction _ _ ls b d hp ht _ _ =>
    exact ⟨ls, d, _, _, _, _, _, rfl, rfl, signature_typed hv hp ht⟩

/-- A function that is parsed has of its parameters what the list says, and otherwise the error is
that of the first thing that is wrong with its operands. -/
theorem function_signature (hr : names.Reached) {f : Form} {operands : List Form}
    (hf : f.IsSpecial names .function operands) :
    (∀ e, ofForm names f = .ok e → ∃ ls d elements fs params table body,
      operands = .group ls d elements :: fs ∧ e = function f.span params table body ∧
        Signature names elements params table) ∧
    ∀ err, ofForm names f = .error err ↔ FunctionError names f.span operands err := by
  obtain ⟨s, head, rfl, hhead⟩ := hf
  obtain ⟨t, rfl⟩ := (Form.announces_iff hr.valid).mp hhead
  exact ⟨fun e he => exists_signature hr.valid he, fun err => ofForm_function_eq_error_iff⟩

/-- Three groups, of which the second has no type and the third names the type of the result. -/
def threeGroups : List Form :=
  [.group .dummy .square [.name .dummy ⟨10⟩, .name .dummy ⟨11⟩],
    .group .dummy .paren [.name .dummy ⟨12⟩],
    .group .dummy .square [.name .dummy .returnArrow, .name .dummy ⟨11⟩]]

/-- A function with these groups for its parameters. -/
def ofThreeGroups : Form :=
  .group .dummy .paren [.name .dummy SpecialForm.function.name,
    .group .dummy .paren threeGroups, .int .dummy 1]

/-- The first two are parameters, and the first and the third are fields. -/
theorem function_signature_threeGroups : Interner.new.Reached ∧
    ofThreeGroups.IsSpecial Interner.new .function
      [.group .dummy .paren threeGroups, .int .dummy 1] ∧
    ∃ params t body, ofForm Interner.new ofThreeGroups =
        .ok (function .dummy params (some t) body) ∧
      params.map Ident.name = [⟨10⟩, ⟨12⟩] ∧ t.names = [⟨10⟩, .returnArrow] ∧
      Signature Interner.new threeGroups params (some t) := by
  have hf : ofThreeGroups.IsSpecial Interner.new .function
      [.group .dummy .paren threeGroups, .int .dummy 1] :=
    ⟨.dummy, .name .dummy SpecialForm.function.name, rfl, .dummy, _, rfl, by decide⟩
  obtain ⟨params, t, body, he, hparams, hnames⟩ : ∃ params t body,
      ofForm Interner.new ofThreeGroups = .ok (function .dummy params (some t) body) ∧
      params.map Ident.name = [⟨10⟩, ⟨12⟩] ∧ t.names = [⟨10⟩, .returnArrow] :=
    ⟨_, _, _, rfl, rfl, rfl⟩
  obtain ⟨ls, d, elements, fs, is, table, body', hlist, heq, hsignature⟩ :=
    (function_signature .new hf).1 _ he
  obtain ⟨hgroup, -⟩ := List.cons.inj hlist
  obtain ⟨-, -, rfl⟩ := Form.group.inj hgroup
  obtain ⟨-, rfl, rfl, -⟩ := function.inj heq
  exact ⟨.new, hf, params, t, body, he, hparams, hnames, hsignature⟩

end Functions

section ReturnType

variable {old : Interner} {file : Nat} {text : String} {e body : Expr}
  {table : Option (Properties Expr)}

/-- What is parsed has been read. -/
lemma read_of_parse (h : parse file old text = (names, .ok e)) :
    ∃ root, Form.read file old text = (names, .ok root) ∧ ofForm names root = .ok e := by
  cases hread : Form.read file old text with
  | mk more r =>
    cases r with
    | error err =>
      rw [parse, hread] at h
      exact absurd (Prod.mk.inj h).2 (by simp)
    | ok root =>
      rw [parse_of_read hread] at h
      obtain ⟨rfl, he⟩ := Prod.mk.inj h
      exact ⟨root, rfl, he⟩

/-- In a program that is parsed, a function has `->` among its parameters if and only if it has no
table and `->` is one of the names in its list. -/
theorem arrow_mem_params_iff (hr : old.Reached) (h : parse file old text = (names, .ok e))
    (hd : (function s params table body).Within e) :
    ∃ (root g : Form) (ls : Span) (d : Delimiter) (elements fs : List Form),
      Form.read file old text = (names, .ok root) ∧ g.Within root ∧
      Mirrors g (function s params table body) ∧
      g.IsSpecial names .function (.group ls d elements :: fs) ∧
      ((∃ i ∈ params, names.text? i.name = some "->") ↔
        table = none ∧ ∃ u n, Form.name u n ∈ elements ∧ names.text? n = some "->") := by
  obtain ⟨root, hread, he⟩ := read_of_parse h
  obtain ⟨hv, -⟩ := Form.nested_of_read hr.valid hread
  obtain ⟨g, hg, hmirrors⟩ := function_of_within (mirrors_of_ofForm he) hd
  have hhead (t : Span) : (Form.name t SpecialForm.function.name).Announces names .function :=
    (Form.announces_iff hv).mpr ⟨t, rfl⟩
  cases hmirrors with
  | function s t ls d params hfirst hlast hb hall =>
    refine ⟨root, _, ls, d, _, _, hread, hg, .function s t ls d params hfirst hlast hb hall,
      ⟨s, _, rfl, hhead t⟩, ?_⟩
    constructor
    · rintro ⟨i, hi, harrow⟩
      exact ⟨rfl, i.span, i.name, List.mem_map_of_mem hi, harrow⟩
    · rintro ⟨-, u, n, hmem, harrow⟩
      obtain ⟨i, hi, heq⟩ := List.mem_map.mp hmem
      obtain ⟨-, rfl⟩ := Form.name.inj heq
      exact ⟨i, hi, harrow⟩
  | typedFunction s t ls d hjs hfields hfirst hlast hb hall =>
    refine ⟨root, _, ls, d, _, _, hread, hg,
      .typedFunction s t ls d hjs hfields hfirst hlast hb hall, ⟨s, _, rfl, hhead t⟩, ?_⟩
    constructor
    · rintro ⟨i, hi, harrow⟩
      have hne : i.name ≠ .returnArrow := by simpa using (List.mem_filter.mp hi).2
      exact absurd (hv.text?_eq_arrow_iff.mp harrow) hne
    · rintro ⟨hnone, -⟩
      exact absurd hnone (by simp)

/-- A program of a function whose only parameter is written `->`. -/
def arrowAlone : Form :=
  .block ⟨0, 0, 12, 1, 1⟩ [.group ⟨0, 0, 12, 1, 1⟩ .paren
    [.name ⟨0, 1, 4, 1, 2⟩ SpecialForm.function.name,
      .group ⟨0, 5, 9, 1, 6⟩ .paren [.name ⟨0, 6, 8, 1, 7⟩ .returnArrow],
      .int ⟨0, 10, 11, 1, 11⟩ 1]]

lemma parse_arrowAlone : ∃ names e s params body,
    parse 0 Interner.new "(fun (->) 1)" = (names, .ok e) ∧
    (function s params none body).Within e ∧ params.map Ident.name = [.returnArrow] ∧
      names.text? .returnArrow = some "->" := by
  have hread : (Form.read 0 Interner.new "(fun (->) 1)").2 = .ok arrowAlone := by decide +kernel
  exact ⟨_, _, _, _, _, parse_of_read (Prod.ext rfl hread), .single (List.mem_singleton_self _),
    rfl, (Form.reached_read .new 0 "(fun (->) 1)").valid.text?_returnArrow⟩

/-- In a list of names `->` is taken for a parameter. -/
theorem arrow_mem_params : ∃ names e s params body,
    parse 0 Interner.new "(fun (->) 1)" = (names, .ok e) ∧
    (function s params none body).Within e ∧ ∃ i ∈ params, names.text? i.name = some "->" := by
  obtain ⟨names, e, s, params, body, hparse, hd, hparams, harrow⟩ := parse_arrowAlone
  obtain ⟨i, rest, rfl, hi, -⟩ := List.map_eq_cons_iff.mp hparams
  exact ⟨names, e, s, _, body, hparse, hd, i, List.mem_cons_self, hi ▸ harrow⟩

/-- The list that the function comes from has the name. -/
theorem arrow_mem_params_iff_alone : Interner.new.Reached ∧ ∃ names e s params body,
    parse 0 Interner.new "(fun (->) 1)" = (names, .ok e) ∧
    (function s params none body).Within e ∧
    ∃ (root g : Form) (ls : Span) (d : Delimiter) (elements fs : List Form),
      Form.read 0 Interner.new "(fun (->) 1)" = (names, .ok root) ∧ g.Within root ∧
      g.IsSpecial names .function (.group ls d elements :: fs) ∧
      ∃ u n, Form.name u n ∈ elements ∧ names.text? n = some "->" := by
  obtain ⟨names, e, s, params, body, hparse, hd, hparams, harrow⟩ := parse_arrowAlone
  obtain ⟨i, rest, rfl, hi, -⟩ := List.map_eq_cons_iff.mp hparams
  obtain ⟨root, g, ls, d, elements, fs, hread, hg, -, hspecial, hiff⟩ :=
    arrow_mem_params_iff .new hparse hd
  obtain ⟨-, hmem⟩ := hiff.mp ⟨i, List.mem_cons_self, hi ▸ harrow⟩
  exact ⟨.new, names, e, s, _, body, hparse, hd, root, g, ls, d, elements, fs, hread, hg,
    hspecial, hmem⟩

end ReturnType

end Expr

end YinFrontEnd
