import YinFrontEnd.Proofs.Expr.FirstError
import YinFrontEnd.Proofs.Expr.Rules

/-!
# What a form is rejected for

Parsing reports the first form that does not fit. Whatever error it ends with, the form at the
place of the error stands in the form that was parsed and breaks the rule of the error's code.
-/
namespace YinFrontEnd

namespace Expr

open Form (BreaksField BreaksParameter Breaks specs)

/-- The error is that of a fault at a form which breaks the rule of the fault's code. -/
def Blames (Rule : ErrorCode → Form → Prop) (err : ParseError) : Prop :=
  ∃ (x : FormFault) (n : Form), err = x.error n.span ∧ Rule x.code n

variable {names : Interner} {f : Form} {fs gs elements : List Form} {err : ParseError}

lemma Blames.imp {R Q : ErrorCode → Form → Prop} (h : Blames R err) (hq : ∀ c n, R c n → Q c n) :
    Blames Q err := by
  obtain ⟨x, n, he, hn⟩ := h
  exact ⟨x, n, he, hq _ _ hn⟩

lemma exists_of_ofForms_eq_error (h : ofForms names fs = .error err) :
    ∃ f ∈ fs, ofForm names f = .error err :=
  (ofForms_eq_error_iff.mp h).exists_mem

section Parameters

variable {list p : Form} {params : List Form}

lemma blames_of_parameterError (hp : p ∈ params) (h : ParameterError names p err) :
    Blames (BreaksParameter list params) err := by
  cases h with
  | emptyParameter s d => exact ⟨_, .group s d [], rfl, .emptyParameter hp⟩
  | illegalParameter hname hgroup => exact ⟨_, p, rfl, .illegalParameter hp hname hgroup⟩
  | illegalParameterName s d hname => exact ⟨_, _, rfl, .illegalParameterName hp hname⟩

/-- A list of parameters is rejected for a parameter, or for having parameters of both kinds. -/
lemma parameters_eq_error (h : parameters names list params = .error err) :
    Blames (BreaksParameter list params) err := by
  obtain herr | ⟨-, ⟨⟨p, hp, hname⟩, q, hq, s, d, t, n, es, rfl⟩, rfl⟩ :=
    parameters_eq_error_iff.mp h
  · obtain ⟨p, hp, hpe⟩ := herr.exists_mem
    exact blames_of_parameterError hp (parameter_eq_error_iff.mp hpe)
  · exact ⟨_, list, rfl, .mixedParameters hp hname hq rfl⟩

/-- A list of parents is rejected for a parent that is not a name. -/
lemma parents_eq_error (h : parents names params = .error err) :
    Blames (fun c p => c = .parentNotName ∧ p ∈ params ∧ p.name? = none) err := by
  obtain ⟨p, hp, hpe⟩ := (mapM_eq_error_iff.mp h).exists_mem
  cases p with
  | name s n => exact absurd hpe (by simp [Form.ident?])
  | _ =>
    obtain rfl := Except.error.inj hpe
    exact ⟨_, _, rfl, rfl, hp, rfl⟩

end Parameters

section Fields

lemma exists_of_firstNonKeyword {key : Form} (h : FirstNonKeyword fs key) :
    (∃ i : Nat, fs[2 * i]? = some key) ∧ ∀ s k, key ≠ .keyword s k := by
  induction h with
  | here v fs hkey => exact ⟨⟨0, rfl⟩, hkey⟩
  | later s k v _ ih =>
    obtain ⟨⟨i, hi⟩, hkey⟩ := ih
    exact ⟨⟨i + 1, by simpa [Nat.mul_add] using hi⟩, hkey⟩

/-- A name in a table opens one of the square groups that the table was read from. -/
lemma exists_of_mem_names {t : Properties Expr} {n : Name}
    (h : tableOf names .empty fs = .ok t) (hn : n ∈ t.names) :
    ∃ s u es, Form.group s .square (.name u n :: es) ∈ fs := by
  have hnames := (tableOf_iff.mp ⟨t, h, rfl⟩).1.specs.2
  rw [Properties.names, hnames] at hn
  obtain ⟨es, hes, hname⟩ := List.mem_filterMap.mp hn
  obtain ⟨s, hs⟩ := Form.mem_specs_iff.mp hes
  obtain ⟨f, hf, hfn⟩ := Option.bind_eq_some_iff.mp hname
  obtain ⟨rest, rfl⟩ := List.head?_eq_some_iff.mp hf
  cases f with
  | name u m =>
    obtain rfl := Option.some.inj hfn
    exact ⟨s, u, rest, hs⟩
  | _ => exact absurd hfn (by simp [Form.name?])

/-- Fields are rejected for a form in one of them, or because one breaks a rule. -/
lemma tableOf_eq_error (h : tableOf names .empty gs = .error err) :
    (∃ es ∈ specs gs, ∃ g ∈ es, ofForm names g = .error err) ∨
      Blames (BreaksField gs) err := by
  obtain ⟨before, s, es, after, u, rfl, hu, hfield⟩ :=
    (tableOf_eq_error_iff Properties.indexed_empty).mp h
  have hmem : Form.group s .square es ∈ before ++ .group s .square es :: after := by simp
  cases hfield with
  | element herr => exact .inl ⟨es, Form.mem_specs_iff.mpr ⟨s, hmem⟩, herr.exists_mem⟩
  | emptySlot _ hlt => exact .inr ⟨_, .group s .square es, rfl, .emptySlot hmem hlt⟩
  | fieldNotName _ _ hname => exact .inr ⟨_, _, rfl, .fieldNotName hmem hname⟩
  | @duplicateField r n _ _ _ hn =>
    obtain ⟨s', t', es', hearlier⟩ := exists_of_mem_names hu hn
    exact .inr ⟨_, .name r n, rfl, .duplicateField rfl hearlier⟩
  | oddKeywordMap r _ _ _ hodd =>
    exact .inr ⟨_, .group s .square _, rfl, .oddKeywordMap hmem hodd⟩
  | keyNotKeyword r _ _ heven hfirst _ =>
    obtain ⟨⟨i, hi⟩, hkey⟩ := exists_of_firstNonKeyword hfirst
    exact .inr ⟨_, _, rfl, .keyNotKeyword hmem heven hi hkey⟩

end Fields

section Shapes

/-- The error is that of a form inside, or the form breaks the rule of its code. -/
def Fails (names : Interner) (f : Form) (err : ParseError) : Prop :=
  (∃ g, g.Inside f ∧ ofForm names g = .error err) ∨ Blames (Breaks names f) err

variable {s t : Span} {k : SpecialForm}

lemma Fails.of_broken (x : FormFault) (h : Breaks names f x.code f) :
    Fails names f (x.error f.span) := .inr ⟨x, f, rfl, h⟩

lemma Fails.of_forms (h : ofForms names fs = .error err) (hin : ∀ g ∈ fs, g.Inside f) :
    Fails names f err := by
  obtain ⟨g, hg, hge⟩ := exists_of_ofForms_eq_error h
  exact .inl ⟨g, hin g hg, hge⟩

lemma Fails.of_table (h : tableOf names .empty fs = .error err) (hf : f.HasFields names fs) :
    Fails names f err := by
  obtain ⟨es, hes, g, hg, hge⟩ | h := tableOf_eq_error h
  · exact .inl ⟨g, Form.inside_of_mem_specs hf.inside hes g hg, hge⟩
  · exact .inr (h.imp fun c n hn => .field hf hn)

lemma fails_pair {a b : Form} {build : Expr → Expr → Expr} (hf : f.IsSpecial names k [a, b])
    (h : (ofForm names a >>= fun x => ofForm names b >>= fun y => .ok (build x y)) = .error err) :
    Fails names f err := by
  obtain h | ⟨_, -, h⟩ := bind_eq_error_iff.mp h
  · exact .inl ⟨a, hf.inside a (by simp), h⟩
  · obtain h | ⟨_, -, h⟩ := bind_eq_error_iff.mp h
    · exact .inl ⟨b, hf.inside b (by simp), h⟩
    · exact absurd h (by simp)

lemma fails_function {first : Form} {ls : Span} {d : Delimiter}
    (hf : f.IsSpecial names .function (.group ls d elements :: first :: fs))
    (h : ofForm names (.group s .paren (.name t SpecialForm.function.name ::
      .group ls d elements :: first :: fs)) = .error err) : Fails names f err := by
  rw [ofForm_function] at h
  obtain h | ⟨⟨is, typed⟩, -, h⟩ := bind_eq_error_iff.mp h
  · exact .inr ((parameters_eq_error h).imp fun c n hn => .parameter hf hn)
  · obtain h | ⟨table, -, h⟩ := bind_eq_error_iff.mp h
    · cases typed with
      | false => exact absurd h (by simp)
      | true => exact .of_table (map_eq_error_iff.mp h) (.function hf)
    · obtain h | ⟨es, -, h⟩ := bind_eq_error_iff.mp h
      · exact .of_forms h fun g hg => hf.inside g (List.mem_cons_of_mem _ hg)
      · exact absurd h (by simp)

lemma fails_record {name first : Form}
    (hf : f.IsSpecial names .record (name :: first :: fs))
    (h : ofForm names (.group s .paren (.name t SpecialForm.record.name ::
      name :: first :: fs)) = .error err) : Fails names f err := by
  cases name with
  | name u n =>
    obtain ⟨ls, elements, rfl⟩ | hfirst := first.group_or_not .paren
    · obtain h | ⟨is, -, h⟩ := bind_eq_error_iff.mp h
      · refine .inr ((parents_eq_error h).imp ?_)
        rintro c p ⟨rfl, hp, hname⟩
        exact .parentNotName hf hp hname
      · obtain h | ⟨table, -, h⟩ := bind_eq_error_iff.mp h
        · exact .of_table h (.derivedRecord hf)
        · exact absurd h (by simp [pure, Except.pure])
    · rw [ofForm_recordAlone hfirst] at h
      exact .of_table (map_eq_error_iff.mp h) (.record hf hfirst)
  | _ =>
    obtain rfl := Except.error.inj h
    exact .inr ⟨_, _, rfl, .recordNameNotName hf rfl⟩

lemma fails_specialForm (hf : (Form.group s .paren (.name t k.name :: fs)).IsSpecial names k fs)
    (h : ofForm names (.group s .paren (.name t k.name :: fs)) = .error err) :
    Fails names (.group s .paren (.name t k.name :: fs)) err := by
  cases k with
  | sequence => exact .of_forms (map_eq_error_iff.mp h) hf.inside
  | conditional =>
    match fs with
    | [a, b, c] =>
      obtain h | ⟨_, -, h⟩ := bind_eq_error_iff.mp h
      · exact .inl ⟨a, hf.inside a (by simp), h⟩
      · obtain h | ⟨_, -, h⟩ := bind_eq_error_iff.mp h
        · exact .inl ⟨b, hf.inside b (by simp), h⟩
        · obtain h | ⟨_, -, h⟩ := bind_eq_error_iff.mp h
          · exact .inl ⟨c, hf.inside c (by simp), h⟩
          · exact absurd h (by simp [pure, Except.pure])
    | [] | [_] | [_, _] | _ :: _ :: _ :: _ :: _ =>
      obtain rfl := Except.error.inj h
      exact .of_broken _ (.conditionalShape hf (by simp))
  | definition =>
    match fs with
    | [a, b] => exact fails_pair hf h
    | [] | [_] | _ :: _ :: _ :: _ =>
      obtain rfl := Except.error.inj h
      exact .of_broken _ (.definitionShape hf (by simp))
  | assignment =>
    match fs with
    | [a, b] => exact fails_pair hf h
    | [] | [_] | _ :: _ :: _ :: _ =>
      obtain rfl := Except.error.inj h
      exact .of_broken _ (.assignmentShape hf (by simp))
  | declaration =>
    match fs with
    | [] =>
      obtain rfl := Except.error.inj h
      exact .of_broken _ (.declarationShape hf)
    | first :: fs => exact .of_table (map_eq_error_iff.mp h) (.declaration hf)
  | function =>
    match fs with
    | [] | [_] =>
      obtain rfl := Except.error.inj h
      exact .of_broken _ (.functionShape hf (by simp))
    | list :: first :: fs =>
      cases list with
      | group ls d elements => exact fails_function hf h
      | _ =>
        obtain rfl := Except.error.inj h
        exact .inr ⟨_, _, rfl, .parametersNotGroup hf rfl⟩
  | record =>
    match fs with
    | [] | [_] =>
      obtain rfl := Except.error.inj h
      exact .of_broken .recordShape (.recordShape hf (by simp))
    | name :: first :: fs => exact fails_record hf h

/-- A form is rejected with the error of a form inside, or because it breaks a rule itself. -/
theorem fails_of_ofForm (hv : names.Valid) (h : ofForm names f = .error err) :
    Fails names f err := by
  cases f with
  | block s fs => exact .of_forms (map_eq_error_iff.mp h) fun g hg => .of_part hg
  | member s v n => exact .inl ⟨v, .of_part (by simp [Form.parts]), map_eq_error_iff.mp h⟩
  | group s d fs =>
    cases d with
    | square | curly => exact .of_forms (map_eq_error_iff.mp h) fun g hg => .of_part hg
    | paren =>
      cases fs with
      | nil =>
        obtain rfl := Except.error.inj h
        exact .of_broken .emptyForm (.emptyForm rfl)
      | cons head fs =>
        by_cases hhead : ∃ k, head.Announces names k
        · obtain ⟨k, hk⟩ := hhead
          obtain ⟨t, rfl⟩ := (Form.announces_iff hv).mp hk
          exact fails_specialForm ⟨s, _, rfl, hk⟩ h
        · rw [ofForm_call ((Form.not_announces_iff hv).mp (not_exists.mp hhead))] at h
          obtain h | ⟨e, -, h⟩ := bind_eq_error_iff.mp h
          · exact .inl ⟨head, .of_part (by simp [Form.parts]), h⟩
          · obtain h | ⟨es, -, h⟩ := bind_eq_error_iff.mp h
            · exact .of_forms h fun g hg => .of_part (List.mem_cons_of_mem _ hg)
            · exact absurd h (by simp)
  | _ => exact ne_ok_of_eq_error h rfl

/-- The codes of the errors of parsing. -/
def formCodes : List String :=
  ["E1001", "E1002", "E1003", "E1004", "E1005", "E1006", "E1007", "E1008", "E1009", "E1010",
    "E1011", "E1012", "E1013", "E1014", "E1015", "E1016", "E1017", "E1018"]

lemma text_code_mem (x : FormFault) : x.code.text ∈ formCodes := by
  cases x <;> simp [FormFault.code, ErrorCode.text, formCodes]

/-- Every error of parsing has one of its codes and says something about its place, and the form at
that place breaks the rule of the code, which speaks of a form in the form that was parsed. -/
theorem rejected_for_rule (hr : names.Reached) (f : Form) (h : ofForm names f = .error err) :
    err.code.text ∈ formCodes ∧ err.context.isSome = true ∧ err.readError = none ∧
      ∃ n g : Form, n.Within f ∧ n.span = err.span ∧ g.Within f ∧ g.Breaks names err.code n := by
  induction f using Form.wellFounded_inside.induction with
  | _ f ih =>
    obtain ⟨g, hg, hge⟩ | ⟨x, n, rfl, hn⟩ := fails_of_ofForm hr.valid h
    · obtain ⟨hcode, hcontext, hread, n, k, hin, hspan, hk, hbreaks⟩ := ih g hg hge
      exact ⟨hcode, hcontext, hread, n, k, hin.trans hg.within, hspan, hk.trans hg.within, hbreaks⟩
    · exact ⟨text_code_mem x, rfl, rfl, n, f, hn.within, rfl, .refl f, hn⟩

/-- A declaration of two fields with one name. -/
def twice : Form :=
  let field (line : Nat) : Form := .group ⟨0, 0, 0, line, 1⟩ .square
    [.name ⟨0, 0, 0, line, 2⟩ ⟨20⟩, .name ⟨0, 0, 0, line, 3⟩ ⟨21⟩]
  .group .dummy .paren [.name .dummy SpecialForm.declaration.name, field 1, field 2]

/-- The second field is to blame for having the name of the first. -/
theorem rejected_for_rule_twice : Interner.new.Reached ∧ ∃ err,
    ofForm Interner.new twice = .error err ∧ err.code = .duplicateField ∧
      ∃ n g : Form, n.Within twice ∧ n.span = ⟨0, 0, 0, 2, 2⟩ ∧ g.Within twice ∧
        g.Breaks Interner.new .duplicateField n := by
  have h : ofForm Interner.new twice = .error (FormFault.error
      (.duplicateField (Interner.new.text ⟨20⟩)) ⟨0, 0, 0, 2, 2⟩) := rfl
  obtain ⟨-, -, -, hblamed⟩ := rejected_for_rule .new twice h
  exact ⟨.new, _, h, rfl, hblamed⟩

end Shapes

end Expr

end YinFrontEnd
