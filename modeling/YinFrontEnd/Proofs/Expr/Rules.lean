import YinFrontEnd.Proofs.Expr.Acceptance

/-!
# The rules that a form can break

The rules are said without parsing, one for each code of an error: which operands a special form
has, what its parameters and parents are, and what its fields are. What breaks a rule stands in the
form of which the rule speaks, and that form is not well formed.
-/
namespace YinFrontEnd.Form

/-- The form is a group in parentheses with the head of a special form and these operands. -/
def IsSpecial (names : Interner) (k : SpecialForm) (operands : List Form) (f : Form) : Prop :=
  ∃ s head, f = .group s .paren (head :: operands) ∧ head.Announces names k

/-- These are the forms among which the form has its fields. -/
inductive HasFields (names : Interner) (f : Form) : List Form → Prop
  | declaration {fs : List Form} : f.IsSpecial names .declaration fs → HasFields names f fs
  | function {s : Span} {d : Delimiter} {params fs : List Form} :
      f.IsSpecial names .function (.group s d params :: fs) → HasFields names f params
  | record {name first : Form} {fs : List Form} :
      f.IsSpecial names .record (name :: first :: fs) → first.isGroupIn .paren = false →
      HasFields names f (first :: fs)
  | derivedRecord {s : Span} {name : Form} {parents fs : List Form} :
      f.IsSpecial names .record (name :: .group s .paren parents :: fs) → HasFields names f fs

/-- One of the square groups, or a form in it, breaks the rule of the code. -/
inductive BreaksField (fs : List Form) : ErrorCode → Form → Prop
  | emptySlot {s : Span} {es : List Form} : .group s .square es ∈ fs → es.length < 2 →
      BreaksField fs .emptySlot (.group s .square es)
  | fieldNotName {s : Span} {name : Form} {es : List Form} : .group s .square (name :: es) ∈ fs →
      name.name? = none → BreaksField fs .fieldNotName name
  | duplicateField {s s' t t' : Span} {n : Name} {es es' before after : List Form} :
      fs = before ++ .group s .square (.name t n :: es) :: after →
      .group s' .square (.name t' n :: es') ∈ before →
      BreaksField fs .duplicateField (.name t n)
  | oddKeywordMap {s : Span} {name type : Form} {es : List Form} :
      .group s .square (name :: type :: es) ∈ fs → es.length % 2 = 1 →
      BreaksField fs .oddKeywordMap (.group s .square (name :: type :: es))
  | keyNotKeyword {s : Span} {name type key : Form} {es : List Form} {i : Nat} :
      .group s .square (name :: type :: es) ∈ fs → es.length % 2 = 0 → es[2 * i]? = some key →
      (∀ t k, key ≠ .keyword t k) → BreaksField fs .keyNotKeyword key

/-- A parameter, a form in it or the list breaks the rule of the code. -/
inductive BreaksParameter (list : Form) (params : List Form) : ErrorCode → Form → Prop
  | emptyParameter {s : Span} {d : Delimiter} : .group s d [] ∈ params →
      BreaksParameter list params .illegalParameter (.group s d [])
  | illegalParameter {p : Form} : p ∈ params → p.name? = none → p.group? = none →
      BreaksParameter list params .illegalParameter p
  | illegalParameterName {s : Span} {d : Delimiter} {name : Form} {es : List Form} :
      .group s d (name :: es) ∈ params → name.name? = none →
      BreaksParameter list params .illegalParameterName name
  | mixedParameters {p q : Form} : p ∈ params → p.name?.isSome = true → q ∈ params →
      q.group?.isSome = true → BreaksParameter list params .mixedParameters list

/-- The form, or the form in it that is named last, breaks the rule of the code. -/
inductive Breaks (names : Interner) (f : Form) : ErrorCode → Form → Prop
  | emptyForm {s : Span} : f = .group s .paren [] → Breaks names f .emptyForm f
  | conditionalShape {fs : List Form} : f.IsSpecial names .conditional fs → fs.length ≠ 3 →
      Breaks names f .conditionalShape f
  | definitionShape {fs : List Form} : f.IsSpecial names .definition fs → fs.length ≠ 2 →
      Breaks names f .definitionShape f
  | assignmentShape {fs : List Form} : f.IsSpecial names .assignment fs → fs.length ≠ 2 →
      Breaks names f .assignmentShape f
  | declarationShape : f.IsSpecial names .declaration [] → Breaks names f .declarationShape f
  | functionShape {fs : List Form} : f.IsSpecial names .function fs → fs.length < 2 →
      Breaks names f .functionShape f
  | parametersNotGroup {list : Form} {fs : List Form} :
      f.IsSpecial names .function (list :: fs) → list.group? = none →
      Breaks names f .parametersNotGroup list
  | parameter {s : Span} {d : Delimiter} {params fs : List Form} {c : ErrorCode} {n : Form} :
      f.IsSpecial names .function (.group s d params :: fs) →
      BreaksParameter (.group s d params) params c n → Breaks names f c n
  | recordShape {fs : List Form} : f.IsSpecial names .record fs → fs.length < 2 →
      Breaks names f .recordShape f
  | recordNameNotName {name : Form} {fs : List Form} : f.IsSpecial names .record (name :: fs) →
      name.name? = none → Breaks names f .recordNameNotName name
  | parentNotName {s : Span} {name p : Form} {parents fs : List Form} :
      f.IsSpecial names .record (name :: .group s .paren parents :: fs) → p ∈ parents →
      p.name? = none → Breaks names f .parentNotName p
  | field {fs : List Form} {c : ErrorCode} {n : Form} : f.HasFields names fs →
      BreaksField fs c n → Breaks names f c n

variable {names : Interner} {f n : Form} {fs gs : List Form} {c : ErrorCode}

lemma IsSpecial.inside {k : SpecialForm} (h : f.IsSpecial names k fs) : ∀ g ∈ fs, g.Inside f := by
  obtain ⟨s, head, rfl, -⟩ := h
  exact fun g hg => .of_part (List.mem_cons_of_mem _ hg)

lemma HasFields.inside (h : f.HasFields names fs) : ∀ g ∈ fs, g.Inside f := by
  intro g hg
  cases h with
  | declaration h => exact h.inside g hg
  | @function s d _ _ h =>
    exact (Inside.of_part (show g ∈ (group s d fs).parts from hg)).trans (h.inside _ (by simp))
  | record h _ => exact h.inside g (List.mem_cons_of_mem _ hg)
  | derivedRecord h => exact h.inside g (by simp [hg])

lemma BreaksField.inside (h : BreaksField fs c n) : ∃ g ∈ fs, n.Within g := by
  cases h with
  | emptySlot h _ => exact ⟨_, h, .refl _⟩
  | fieldNotName h _ => exact ⟨_, h, .single (by simp [parts])⟩
  | @duplicateField s _ t _ m es _ _ _ h _ =>
    exact ⟨.group s .square (.name t m :: es), by simp [h], .single (by simp [parts])⟩
  | oddKeywordMap h _ => exact ⟨_, h, .refl _⟩
  | keyNotKeyword h _ hi _ =>
    exact ⟨_, h, .single (by simp [parts, List.mem_of_getElem? hi])⟩

lemma BreaksParameter.within {s : Span} {d : Delimiter}
    (h : BreaksParameter (.group s d fs) fs c n) : n.Within (.group s d fs) := by
  cases h with
  | emptyParameter h => exact .single h
  | illegalParameter h _ _ => exact .single h
  | illegalParameterName h _ => exact Relation.ReflTransGen.head (by simp [parts]) (.single h)
  | mixedParameters _ _ _ _ => exact .refl _

/-- What breaks a rule stands in the form of which the rule speaks. -/
lemma Breaks.within (h : f.Breaks names c n) : n.Within f := by
  cases h with
  | parametersNotGroup h _ => exact (h.inside _ (by simp)).within
  | parameter h hp => exact hp.within.trans (h.inside _ (by simp)).within
  | recordNameNotName h _ => exact (h.inside _ (by simp)).within
  | @parentNotName s _ _ parents _ h hp _ =>
    exact ((Inside.of_part (show n ∈ (group s .paren parents).parts from hp)).trans
      (h.inside _ (by simp))).within
  | field h hf =>
    obtain ⟨g, hg, hn⟩ := hf.inside
    exact hn.trans (h.inside g hg).within
  | _ => exact .refl _

section Violations

/-- The operands that a special form needs to be well formed. -/
inductive Fits : SpecialForm → List Form → Prop
  | sequence (fs : List Form) : Fits .sequence fs
  | conditional {fs : List Form} : fs.length = 3 → Fits .conditional fs
  | definition {fs : List Form} : fs.length = 2 → Fits .definition fs
  | assignment {fs : List Form} : fs.length = 2 → Fits .assignment fs
  | declaration {fs : List Form} : fs ≠ [] → AreFields fs → Fits .declaration fs
  | function (s : Span) (d : Delimiter) {params fs : List Form} :
      (∀ p ∈ params, p.name?.isSome = true) → fs ≠ [] →
      Fits .function (.group s d params :: fs)
  | typedFunction (s : Span) (d : Delimiter) {params fs : List Form} :
      (∀ p ∈ params, p.IsTypedParameter) → AreFields params → fs ≠ [] →
      Fits .function (.group s d params :: fs)
  | record (s : Span) (n : Name) {first : Form} {fs : List Form} :
      first.isGroupIn .paren = false → AreFields (first :: fs) →
      Fits .record (.name s n :: first :: fs)
  | derivedRecord (s t : Span) (n : Name) {parents fs : List Form} :
      (∀ p ∈ parents, p.name?.isSome = true) → AreFields fs →
      Fits .record (.name s n :: .group t .paren parents :: fs)

lemma Announces.unique {head : Form} {k l : SpecialForm} (h : head.Announces names k)
    (h' : head.Announces names l) : k = l := by
  obtain ⟨s, n, rfl, hk⟩ := h
  obtain ⟨_, _, heq, hl⟩ := h'
  obtain ⟨rfl, rfl⟩ := name.inj heq
  have hkeyword : k.keyword = l.keyword := Option.some.inj (hk.symm.trans hl)
  have hname := (SpecialForm.find?_keyword k).symm.trans
    (hkeyword ▸ SpecialForm.find?_keyword l)
  revert hname
  cases k <;> cases l <;> decide

lemma WellFormed.fits {k : SpecialForm} (hw : f.WellFormed names)
    (h : f.IsSpecial names k fs) : Fits k fs := by
  obtain ⟨s, head, rfl, hk⟩ := h
  cases hw with
  | literal _ hd _ => exact absurd rfl hd
  | call _ hhead _ => exact absurd hk (hhead k)
  | sequence _ hhead _ =>
    obtain rfl := hk.unique hhead
    exact .sequence _
  | fixed _ hhead ha _ =>
    obtain rfl := hk.unique hhead
    cases k with
    | conditional => exact .conditional (Option.some.inj ha).symm
    | definition => exact .definition (Option.some.inj ha).symm
    | assignment => exact .assignment (Option.some.inj ha).symm
    | _ => exact absurd ha (by simp [SpecialForm.arity?])
  | declaration _ hhead hne hfields _ =>
    obtain rfl := hk.unique hhead
    exact .declaration hne hfields
  | function _ _ _ hhead hparams hne _ =>
    obtain rfl := hk.unique hhead
    exact .function _ _ hparams hne
  | typedFunction _ _ _ hhead hparams hfields _ hne _ =>
    obtain rfl := hk.unique hhead
    exact .typedFunction _ _ hparams hfields hne
  | record _ _ _ hhead hfirst hfields _ =>
    obtain rfl := hk.unique hhead
    exact .record _ _ hfirst hfields
  | derivedRecord _ _ _ _ hhead hparents hfields _ =>
    obtain rfl := hk.unique hhead
    exact .derivedRecord _ _ _ hparents hfields

lemma Alternating.length_even (h : Alternating fs) : fs.length % 2 = 0 := by
  induction h with
  | nil => rfl
  | cons _ _ _ _ ih =>
    simp only [List.length_cons]
    omega

lemma Alternating.keyword_at (h : Alternating fs) {i : Nat} {key : Form}
    (hk : fs[2 * i]? = some key) : ∃ s k, key = .keyword s k := by
  induction h generalizing i with
  | nil => exact absurd hk (by simp)
  | cons s k _ _ ih =>
    cases i with
    | zero => exact ⟨s, k, (Option.some.inj hk).symm⟩
    | succ i => exact ih (by simpa [Nat.mul_add] using hk)

lemma AreFields.isField {s : Span} {es : List Form} (h : AreFields fs)
    (hes : .group s .square es ∈ fs) : IsField es :=
  h.field es (mem_specs_iff.mpr ⟨s, hes⟩)

lemma specs_append (fs gs : List Form) : specs (fs ++ gs) = specs fs ++ specs gs :=
  List.filterMap_append ..

lemma BreaksField.exists_square (h : BreaksField fs c n) :
    ∃ s es, group s .square es ∈ fs := by
  cases h with
  | emptySlot hes _ => exact ⟨_, _, hes⟩
  | fieldNotName hes _ => exact ⟨_, _, hes⟩
  | @duplicateField s _ t _ m es _ _ _ heq _ => exact ⟨s, .name t m :: es, by simp [heq]⟩
  | oddKeywordMap hes _ => exact ⟨_, _, hes⟩
  | keyNotKeyword hes _ _ _ => exact ⟨_, _, hes⟩

lemma BreaksField.not_areFields (h : BreaksField fs c n) : ¬ AreFields fs := by
  intro hf
  cases h with
  | emptySlot hes hlt =>
    obtain ⟨s, n, type, rest, rfl, -⟩ := hf.isField hes
    exact absurd hlt (by simp)
  | fieldNotName hes hname =>
    obtain ⟨s, n, type, rest, heq, -⟩ := hf.isField hes
    obtain ⟨rfl, -⟩ := List.cons.inj heq
    exact absurd hname (by simp [name?])
  | @duplicateField s s' t t' m es es' before after heq hbefore =>
    have hnames := hf.distinct
    rw [heq, specs_append, List.filterMap_append, List.nodup_append] at hnames
    refine hnames.2.2 m ?_ m ?_ rfl
    · exact List.mem_filterMap.mpr ⟨_, mem_specs_iff.mpr ⟨s', hbefore⟩, rfl⟩
    · exact List.mem_filterMap.mpr ⟨_, mem_specs_iff.mpr ⟨s, List.mem_cons_self⟩, rfl⟩
  | oddKeywordMap hes hodd =>
    obtain ⟨s, n, type, rest, heq, halt⟩ := hf.isField hes
    obtain ⟨-, -, rfl⟩ : _ ∧ _ ∧ _ := by simpa using heq
    have heven := halt.length_even
    omega
  | keyNotKeyword hes _ hkey hnot =>
    obtain ⟨s, n, type, rest, heq, halt⟩ := hf.isField hes
    obtain ⟨-, -, rfl⟩ : _ ∧ _ ∧ _ := by simpa using heq
    obtain ⟨t, k, rfl⟩ := halt.keyword_at hkey
    exact hnot t k rfl

lemma BreaksParameter.not_names {list : Form} (h : BreaksParameter list fs c n) :
    ¬ ∀ p ∈ fs, p.name?.isSome = true := by
  intro hall
  cases h with
  | emptyParameter hp => exact absurd (hall _ hp) (by simp [name?])
  | illegalParameter hp hname _ => exact absurd (hall _ hp) (by simp [hname])
  | illegalParameterName hp _ => exact absurd (hall _ hp) (by simp [name?])
  | @mixedParameters _ q _ _ hq hgroup =>
    cases q with
    | group _ _ _ => exact absurd (hall _ hq) (by simp [name?])
    | _ => exact absurd hgroup (by simp [group?])

lemma BreaksParameter.not_typed {list : Form} (h : BreaksParameter list fs c n) :
    ¬ ∀ p ∈ fs, p.IsTypedParameter := by
  intro hall
  cases h with
  | emptyParameter hp =>
    obtain ⟨s, d, t, n, es, heq⟩ := hall _ hp
    exact absurd heq (by simp)
  | illegalParameter hp _ hgroup =>
    obtain ⟨s, d, t, n, es, rfl⟩ := hall _ hp
    exact absurd hgroup (by simp [group?])
  | illegalParameterName hp hname =>
    obtain ⟨s, d, t, n, es, heq⟩ := hall _ hp
    obtain ⟨-, -, rfl, -⟩ : _ ∧ _ ∧ _ ∧ _ := by simpa using heq
    exact absurd hname (by simp [name?])
  | mixedParameters hp hname _ _ =>
    obtain ⟨s, d, t, n, es, rfl⟩ := hall _ hp
    exact absurd hname (by simp [name?])

lemma HasFields.areFields (h : f.HasFields names fs) (hw : f.WellFormed names)
    (hs : ∃ s es, group s .square es ∈ fs) : AreFields fs := by
  cases h with
  | declaration h =>
    cases hw.fits h with
    | declaration _ hfields => exact hfields
  | function h =>
    cases hw.fits h with
    | function _ _ hparams _ =>
      -- Among names there is no group that could be a field.
      obtain ⟨t, es, ht⟩ := hs
      exact absurd (hparams _ ht) (by simp [name?])
    | typedFunction _ _ _ hfields _ => exact hfields
  | record h hfirst =>
    cases hw.fits h with
    | record _ _ _ hfields => exact hfields
    | derivedRecord => exact absurd hfirst (by simp [isGroupIn])
  | derivedRecord h =>
    cases hw.fits h with
    | record _ _ hfirst _ => exact absurd hfirst (by simp [isGroupIn])
    | derivedRecord _ _ _ _ hfields => exact hfields

/-- A form that breaks a rule is not well formed. -/
theorem Breaks.not_wellFormed (h : f.Breaks names c n) : ¬ f.WellFormed names := by
  intro hw
  cases h with
  | emptyForm heq =>
    subst heq
    cases hw with
    | literal _ hd _ => exact hd rfl
  | conditionalShape h hne =>
    cases hw.fits h with
    | conditional hlen => exact hne hlen
  | definitionShape h hne =>
    cases hw.fits h with
    | definition hlen => exact hne hlen
  | assignmentShape h hne =>
    cases hw.fits h with
    | assignment hlen => exact hne hlen
  | declarationShape h =>
    cases hw.fits h with
    | declaration hne _ => exact hne rfl
  | functionShape h hlt =>
    cases hw.fits h with
    | function _ _ _ hne | typedFunction _ _ _ _ hne =>
      have hpos := List.length_pos_iff.mpr hne
      simp only [List.length_cons] at hlt
      omega
  | parametersNotGroup h hgroup =>
    cases hw.fits h <;> exact absurd hgroup (by simp [group?])
  | parameter h hp =>
    cases hw.fits h with
    | function _ _ hparams _ => exact hp.not_names hparams
    | typedFunction _ _ hparams _ _ => exact hp.not_typed hparams
  | recordShape h hlt =>
    cases hw.fits h <;> exact absurd hlt (by simp)
  | recordNameNotName h hname =>
    cases hw.fits h <;> exact absurd hname (by simp [name?])
  | parentNotName h hp hname =>
    cases hw.fits h with
    | record _ _ hfirst _ => exact absurd hfirst (by simp [isGroupIn])
    | derivedRecord _ _ _ hparents _ => exact absurd (hparents _ hp) (by simp [hname])
  | field h hb => exact hb.not_areFields (h.areFields hw hb.exists_square)

end Violations

end YinFrontEnd.Form
