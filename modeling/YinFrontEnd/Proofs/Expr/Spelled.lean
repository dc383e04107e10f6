import YinFrontEnd.Proofs.Expr.Items
import YinFrontEnd.Proofs.Form.Legible
import YinFrontEnd.Proofs.Table

/-!
# Expressions as forms

An expression is written as a form that has its meaning. Where every text in it can be told
from the others, and bags begin with the type, the form has the expression's text and is
legible. What the form is read as is the matter of a later module.
-/
namespace YinFrontEnd

/-- The keys of a bag are distinct words, and the first of them is the type. -/
structure Attributes.Keyed {α : Type} (names : Interner) (a : Attributes α) : Prop where
  nodup : a.keys.Nodup
  typed : a.keys.head? = some .typeKey
  words : ∀ k ∈ a.keys, names.Spells Token.IsWord k

/-- The fields of a table have distinct names and bags that begin with the type. -/
structure Properties.Keyed {α : Type} (names : Interner) (t : Properties α) : Prop where
  nodup : t.names.Nodup
  named : ∀ f ∈ t.entries, names.Spells Token.IsName f.1.name
  bags : ∀ f ∈ t.entries, f.2.Keyed names

/-- The identifier of a field or parameter without its place. -/
def Ident.unplaced (i : Ident) : Ident := ⟨i.name, .dummy⟩

namespace Expr

mutual

/-- The expression without its places. A table is what its entries are. -/
@[simp] def unplaced : Expr → Expr
  | block _ es => block .dummy (unplacedAll es)
  | conditional _ a b c => conditional .dummy (unplaced a) (unplaced b) (unplaced c)
  | definition _ a b => definition .dummy (unplaced a) (unplaced b)
  | assignment _ a b => assignment .dummy (unplaced a) (unplaced b)
  | declaration _ ⟨fields, _⟩ => declaration .dummy ⟨unplacedFields fields, {}⟩
  | function _ params none e => function .dummy (params.map Ident.unplaced) none (unplaced e)
  | function _ params (some ⟨fields, _⟩) e =>
      function .dummy (params.map Ident.unplaced) (some ⟨unplacedFields fields, {}⟩) (unplaced e)
  | recordType _ n parents ⟨fields, _⟩ =>
      recordType .dummy n.unplaced (parents.map (·.map Ident.unplaced))
        ⟨unplacedFields fields, {}⟩
  | recordLiteral _ es => recordLiteral .dummy (unplacedAll es)
  | vector _ es => vector .dummy (unplacedAll es)
  | call _ e es => call .dummy (unplaced e) (unplacedAll es)
  | member _ e n => member .dummy (unplaced e) n.unplaced
  | ident _ n => ident .dummy n
  | keyword _ n => keyword .dummy n
  | int _ v => int .dummy v
  | float _ b => float .dummy b
  | str _ n => str .dummy n

@[simp] def unplacedAll : List Expr → List Expr
  | [] => []
  | e :: es => unplaced e :: unplacedAll es

@[simp] def unplacedFields : List (Ident × Attributes Expr) → List (Ident × Attributes Expr)
  | [] => []
  | (field, ⟨entries⟩) :: fields =>
      (field.unplaced, ⟨unplacedBag entries⟩) :: unplacedFields fields

@[simp] def unplacedBag : List (Name × Expr) → List (Name × Expr)
  | [] => []
  | (key, e) :: es => (key, unplaced e) :: unplacedBag es

end

/-- True of the expressions that a member may follow directly. -/
def takesMember : Expr → Bool
  | keyword _ _ | int _ _ | float _ _ | str _ _ => false
  | _ => true

/-- The texts of the expression can be told from each other, calls from special forms, and
parameters from the return type. The body of a function is a block with statements, and the
fields of a parameter table name parameters, in the same order and in the same places. -/
inductive Spelled (names : Interner) : Expr → Prop
  | block (s : Span) {es : List Expr} : (∀ e ∈ es, Spelled names e) → Spelled names (.block s es)
  | conditional (s : Span) {a b c : Expr} : Spelled names a → Spelled names b →
      Spelled names c → Spelled names (.conditional s a b c)
  | definition (s : Span) {a b : Expr} : Spelled names a → Spelled names b →
      Spelled names (.definition s a b)
  | assignment (s : Span) {a b : Expr} : Spelled names a → Spelled names b →
      Spelled names (.assignment s a b)
  | declaration (s : Span) {fields : Properties Expr} : fields.Keyed names →
      (∀ f ∈ fields.entries, ∀ a ∈ f.2.entries, Spelled names a.2) →
      Spelled names (.declaration s fields)
  | function (s t : Span) {params : List Ident} {es : List Expr} :
      (∀ i ∈ params, names.Spells Token.IsName i.name) → es ≠ [] →
      (∀ e ∈ es, Spelled names e) → Spelled names (.function s params none (.block t es))
  | typedFunction (s t : Span) {params : List Ident} {fields : Properties Expr}
      {es : List Expr} : (∀ i ∈ params, names.Spells Token.IsName i.name) →
      (∀ i ∈ params, i.name ≠ .returnArrow) → params.Nodup → fields.Keyed names →
      ((fields.entries.map Prod.fst).filter (·.name ≠ .returnArrow)).Sublist params →
      (∀ f ∈ fields.entries, ∀ a ∈ f.2.entries, Spelled names a.2) → es ≠ [] →
      (∀ e ∈ es, Spelled names e) → Spelled names (.function s params (some fields) (.block t es))
  | recordType (s : Span) {n : Ident} {parents : Option (List Ident)} {fields : Properties Expr} :
      names.Spells Token.IsName n.name →
      (∀ is ∈ parents, ∀ i ∈ is, names.Spells Token.IsName i.name) → fields.Keyed names →
      (∀ f ∈ fields.entries, ∀ a ∈ f.2.entries, Spelled names a.2) →
      Spelled names (.recordType s n parents fields)
  | recordLiteral (s : Span) {es : List Expr} : (∀ e ∈ es, Spelled names e) →
      Spelled names (.recordLiteral s es)
  | vector (s : Span) {es : List Expr} : (∀ e ∈ es, Spelled names e) →
      Spelled names (.vector s es)
  | call (s : Span) {e : Expr} {es : List Expr} : Spelled names e →
      (∀ n ∈ e.ident?, ∀ f : SpecialForm, names.text? n ≠ some f.keyword) →
      (∀ e ∈ es, Spelled names e) → Spelled names (.call s e es)
  | member (s i : Span) {e : Expr} {n : Name} : Spelled names e → e.takesMember = true →
      names.Spells Token.IsWord n → Spelled names (.member s e ⟨n, i⟩)
  | ident (s : Span) {n : Name} : names.Spells Token.IsName n → Spelled names (.ident s n)
  | keyword (s : Span) {n : Name} : names.Spells Token.IsWord n → Spelled names (.keyword s n)
  | int (s : Span) (v : Int64) : Spelled names (.int s v)
  | float (s : Span) {b : UInt64} : Binary64.isFinite b = true → Spelled names (.float s b)
  | str (s : Span) {n : Name} {t : String} : names.text? n = some t → Spelled names (.str s n)

/-- The form of a special form. -/
def specialForm (f : SpecialForm) (operands : List Form) : Form :=
  .group .dummy .paren (.name .dummy f.name :: operands)

/-- The forms of a bag whose values are forms already: the type, then keys and values. -/
def bagForms (names : Interner) (entries : List (Name × Form)) : List Form :=
  let isType (e : Name × Form) : Bool := isTypeKey names e.1
  ((entries.find? isType).map Prod.snd).toList ++
    (entries.filter fun e => !isType e).flatMap fun e => [.keyword .dummy e.1, e.2]

/-- A field with the forms of its attributes. -/
def fieldForm (field : Ident) (pieces : List Form) : Form :=
  .group .dummy .square (.name .dummy field.name :: pieces)

/-- A list of names. -/
def namesForm (idents : List Ident) : Form :=
  .group .dummy .paren (idents.map fun i => .name .dummy i.name)

/-- A parameter with the forms of its attributes, if it has an entry in the table. -/
def paramForm : Ident × Option (List Form) → Form
  | (field, some pieces) => fieldForm field pieces
  | (param, none) => namesForm [param]

/-- A typed parameter list. -/
def paramsForm (params : List Ident) (fields : List (Ident × List Form)) : Form :=
  .group .dummy .paren ((alignParams params fields).map paramForm)

mutual

/-- The form that an expression is written as. -/
@[simp] def form (names : Interner) : Expr → Form
  | block _ es => specialForm .sequence (formAll names es)
  | conditional _ a b c => specialForm .conditional [form names a, form names b, form names c]
  | definition _ a b => specialForm .definition [form names a, form names b]
  | assignment _ a b => specialForm .assignment [form names a, form names b]
  | declaration _ ⟨fields, _⟩ =>
      specialForm .declaration ((formFields names fields).map fun f => fieldForm f.1 f.2)
  | function _ params none (block _ es) =>
      specialForm .function (namesForm params :: formAll names es)
  | function _ params none e => specialForm .function [namesForm params, form names e]
  | function _ params (some ⟨fields, _⟩) (block _ es) =>
      specialForm .function (paramsForm params (formFields names fields) :: formAll names es)
  | function _ params (some ⟨fields, _⟩) e =>
      specialForm .function [paramsForm params (formFields names fields), form names e]
  | recordType _ n parents ⟨fields, _⟩ =>
      specialForm .record (.name .dummy n.name :: ((parents.map namesForm).toList ++
        (formFields names fields).map fun f => fieldForm f.1 f.2))
  | recordLiteral _ es => .group .dummy .curly (formAll names es)
  | vector _ es => .group .dummy .square (formAll names es)
  | call _ e es => .group .dummy .paren (form names e :: formAll names es)
  | member _ e n => .member .dummy (form names e) n
  | ident _ n => .name .dummy n
  | keyword _ n => .keyword .dummy n
  | int _ v => .int .dummy v
  | float _ b => .float .dummy b
  | str _ n => .str .dummy n

@[simp] def formAll (names : Interner) : List Expr → List Form
  | [] => []
  | e :: es => form names e :: formAll names es

@[simp] def formFields (names : Interner) :
    List (Ident × Attributes Expr) → List (Ident × List Form)
  | [] => []
  | (field, ⟨entries⟩) :: fields =>
      (field, bagForms names (formBag names entries)) :: formFields names fields

@[simp] def formBag (names : Interner) : List (Name × Expr) → List (Name × Form)
  | [] => []
  | (key, e) :: es => (key, form names e) :: formBag names es

end

section Lists

variable (names : Interner)

lemma unplacedAll_eq_map (es : List Expr) : unplacedAll es = es.map unplaced := by
  induction es with
  | nil => rfl
  | cons e es ih => rw [unplacedAll, ih, List.map_cons]

lemma unplacedFields_eq_map (fields : List (Ident × Attributes Expr)) :
    unplacedFields fields = fields.map fun f => (f.1.unplaced, ⟨unplacedBag f.2.entries⟩) := by
  induction fields with
  | nil => rfl
  | cons f fields ih => rw [unplacedFields, ih, List.map_cons]

lemma formAll_eq_map (es : List Expr) : formAll names es = es.map (form names) := by
  induction es with
  | nil => rfl
  | cons e es ih => rw [formAll, ih, List.map_cons]

lemma formBag_eq_map (es : List (Name × Expr)) :
    formBag names es = es.map fun a => (a.1, form names a.2) := by
  induction es with
  | nil => rfl
  | cons e es ih => rw [formBag, ih, List.map_cons]

lemma formFields_eq_map (fields : List (Ident × Attributes Expr)) :
    formFields names fields =
      fields.map fun f => (f.1, bagForms names (formBag names f.2.entries)) := by
  induction fields with
  | nil => rfl
  | cons f fields ih => rw [formFields, ih, List.map_cons]

lemma charsBag_eq_map (es : List (Name × Expr)) :
    charsBag names es = es.map fun a => (a.1, chars names a.2) := by
  induction es with
  | nil => rfl
  | cons e es ih => rw [charsBag, ih, List.map_cons]

lemma charsFields_eq_map (fields : List (Ident × Attributes Expr)) :
    charsFields names fields =
      fields.map fun f => (f.1, bagPieces names (charsBag names f.2.entries)) := by
  induction fields with
  | nil => rfl
  | cons f fields ih => rw [charsFields, ih, List.map_cons]

end Lists

variable {names : Interner}

section Texts

lemma chars_group (s : Span) (d : Delimiter) (fs : List Form) : Form.chars names (.group s d fs) =
    Text.bracketed d.opening d.closing (fs.map (Form.chars names)) := by
  rw [Form.chars, Form.charsAll_eq_map]

lemma chars_headed (hv : names.Valid) (s t : Span) (f : SpecialForm) (operands : List Form) :
    Form.chars names (.group s .paren (.name t f.name :: operands)) =
      Text.bracketed '(' ')' (f.keyword.toList :: operands.map (Form.chars names)) := by
  have hname : names.chars f.name = f.keyword.toList := by
    rw [Interner.chars, Interner.text_of_text? (hv.text?_special f)]
  rw [chars_group, List.map_cons, Form.chars, hname]
  rfl

lemma chars_specialForm (hv : names.Valid) (f : SpecialForm) (operands : List Form) :
    Form.chars names (specialForm f operands) =
      Text.bracketed '(' ')' (f.keyword.toList :: operands.map (Form.chars names)) :=
  chars_headed hv .dummy .dummy f operands

lemma chars_fieldForm (field : Ident) (pieces : List Form) :
    Form.chars names (fieldForm field pieces) =
      fieldChars names field (pieces.map (Form.chars names)) := chars_group _ _ _

lemma chars_namesForm (idents : List Ident) :
    Form.chars names (namesForm idents) = namesChars names idents := by
  rw [namesForm, chars_group, List.map_map]
  rfl

lemma chars_bagForms (entries : List (Name × Form)) :
    (bagForms names entries).map (Form.chars names) =
      bagPieces names (entries.map fun e => (e.1, Form.chars names e.2)) := by
  simp only [bagForms, bagPieces, List.map_append, List.find?_map, List.filter_map,
    List.map_flatMap, List.flatMap_map, Option.map_map]
  congr 1
  change ((entries.find? fun e => isTypeKey names e.1).map Prod.snd).toList.map (Form.chars names) =
    ((entries.find? fun e => isTypeKey names e.1).map fun e => Form.chars names e.2).toList
  cases entries.find? fun e => isTypeKey names e.1 with
  | none => rfl
  | some e => rfl

lemma chars_paramsForm (params : List Ident) (fields : List (Ident × List Form)) :
    Form.chars names (paramsForm params fields) =
      paramsChars names params (fields.map fun f => (f.1, f.2.map (Form.chars names))) := by
  rw [paramsForm, chars_group, paramsChars, alignParams_map, List.map_map, List.map_map]
  congr 1
  refine List.map_congr_left fun q _ => ?_
  obtain ⟨field, pieces | _⟩ := q
  · exact chars_namesForm [field]
  · exact chars_fieldForm field _

/-- The forms of a table have the texts of its fields if those of the values do. -/
lemma chars_formFields {fields : List (Ident × Attributes Expr)}
    (h : ∀ f ∈ fields, ∀ a ∈ f.2.entries, Form.chars names (form names a.2) = chars names a.2) :
    (formFields names fields).map (fun f => (f.1, f.2.map (Form.chars names))) =
      charsFields names fields := by
  rw [formFields_eq_map, charsFields_eq_map, List.map_map]
  refine List.map_congr_left fun f hf => ?_
  simp only [Function.comp_apply, chars_bagForms, formBag_eq_map, charsBag_eq_map, List.map_map]
  congr 2
  refine List.map_congr_left fun a ha => ?_
  simp only [Function.comp_apply, h f hf a ha]

lemma chars_fieldForms (fields : List (Ident × List Form)) :
    (fields.map fun f => fieldForm f.1 f.2).map (Form.chars names) =
      (fields.map fun f => (f.1, f.2.map (Form.chars names))).map fun f =>
        fieldChars names f.1 f.2 := by
  rw [List.map_map, List.map_map]
  exact List.map_congr_left fun f _ => chars_fieldForm f.1 f.2

lemma chars_formAll {es : List Expr}
    (h : ∀ e ∈ es, Form.chars names (form names e) = chars names e) :
    (formAll names es).map (Form.chars names) = charsAll names es := by
  rw [formAll_eq_map, charsAll_eq_map, List.map_map]
  exact List.map_congr_left h

/-- The form of an expression has the text of the expression. -/
theorem Spelled.chars_form (hv : names.Valid) {e : Expr} (h : e.Spelled names) :
    Form.chars names (form names e) = chars names e := by
  induction h with
  | block s _ ih => rw [form, chars_specialForm hv, chars_formAll ih]; rfl
  | conditional s _ _ _ iha ihb ihc =>
    rw [form, chars_specialForm hv, List.map_cons, List.map_cons, List.map_cons, iha, ihb, ihc]
    rfl
  | definition s _ _ iha ihb =>
    rw [form, chars_specialForm hv, List.map_cons, List.map_cons, iha, ihb]
    rfl
  | assignment s _ _ iha ihb =>
    rw [form, chars_specialForm hv, List.map_cons, List.map_cons, iha, ihb]
    rfl
  | @declaration s fields _ _ ih =>
    obtain ⟨entries, index⟩ := fields
    rw [form, chars_specialForm hv, chars_fieldForms, chars_formFields ih]
    rfl
  | function s t _ _ _ ih =>
    rw [form, chars_specialForm hv, List.map_cons, chars_namesForm, chars_formAll ih]
    rfl
  | @typedFunction s t params fields es _ _ _ _ _ _ _ _ ihf ih =>
    obtain ⟨entries, index⟩ := fields
    rw [form, chars_specialForm hv, List.map_cons, chars_paramsForm, chars_formFields ihf,
      chars_formAll ih]
    rfl
  | @recordType s n parents fields _ _ _ _ ih =>
    obtain ⟨entries, index⟩ := fields
    rw [form, chars_specialForm hv, List.map_cons, List.map_append, chars_fieldForms,
      chars_formFields ih]
    cases parents with
    | none => rfl
    | some is =>
      simp only [Option.map_some, Option.toList_some, List.map_cons, List.map_nil, chars_namesForm]
      rfl
  | recordLiteral s _ ih => rw [form, chars_group, chars_formAll ih]; rfl
  | vector s _ ih => rw [form, chars_group, chars_formAll ih]; rfl
  | call s _ _ _ ih ihs => rw [form, chars_group, List.map_cons, ih, chars_formAll ihs]; rfl
  | member s i _ _ _ ih => rw [form, Form.chars, ih]; rfl
  | ident s _ => rfl
  | keyword s _ => rfl
  | int s v => rfl
  | float s _ => rfl
  | str s _ => rfl

end Texts

section Legibility

lemma spells_specialForm (hv : names.Valid) (f : SpecialForm) :
    names.Spells Token.IsName f.name := by
  refine ⟨f.keyword, hv.text?_special f, ?_⟩
  cases f <;> decide

lemma legible_specialForm (hv : names.Valid) (f : SpecialForm) {operands : List Form}
    (h : ∀ g ∈ operands, g.Legible names) : (specialForm f operands).Legible names := by
  refine .group _ _ fun g hg => ?_
  obtain rfl | hg := List.mem_cons.mp hg
  · exact .name _ (spells_specialForm hv f)
  · exact h g hg

lemma mem_bagForms {entries : List (Name × Form)} {g : Form} (h : g ∈ bagForms names entries) :
    ∃ e ∈ entries, g = e.2 ∨ g = .keyword .dummy e.1 := by
  rw [bagForms, List.mem_append] at h
  obtain h | h := h
  · rw [Option.mem_toList, Option.map_eq_some_iff] at h
    obtain ⟨e, he, rfl⟩ := h
    exact ⟨e, List.mem_of_find?_eq_some he, .inl rfl⟩
  · obtain ⟨e, he, hg⟩ := List.mem_flatMap.mp h
    refine ⟨e, (List.mem_filter.mp he).1, ?_⟩
    simp only [List.mem_cons, List.not_mem_nil, or_false] at hg
    exact hg.symm

lemma legible_namesForm {idents : List Ident}
    (h : ∀ i ∈ idents, names.Spells Token.IsName i.name) : (namesForm idents).Legible names := by
  refine .group _ _ fun g hg => ?_
  obtain ⟨i, hi, rfl⟩ := List.mem_map.mp hg
  exact .name _ (h i hi)

lemma legible_formAll {es : List Expr} (h : ∀ e ∈ es, (form names e).Legible names) :
    ∀ g ∈ formAll names es, g.Legible names := by
  intro g hg
  rw [formAll_eq_map] at hg
  obtain ⟨e, he, rfl⟩ := List.mem_map.mp hg
  exact h e he

lemma legible_fieldForm {fields : Properties Expr} (hk : fields.Keyed names)
    (h : ∀ f ∈ fields.entries, ∀ a ∈ f.2.entries, (form names a.2).Legible names) :
    ∀ f ∈ formFields names fields.entries, (fieldForm f.1 f.2).Legible names := by
  intro f hf
  rw [formFields_eq_map] at hf
  obtain ⟨e, he, rfl⟩ := List.mem_map.mp hf
  refine .group _ _ fun g hg => ?_
  obtain rfl | hg := List.mem_cons.mp hg
  · exact .name _ (hk.named e he)
  · rw [formBag_eq_map] at hg
    obtain ⟨d, hd, hg⟩ := mem_bagForms hg
    obtain ⟨a, ha, rfl⟩ := List.mem_map.mp hd
    obtain rfl | rfl := hg
    · exact h e he a ha
    · exact .keyword _ ((hk.bags e he).words a.1 (List.mem_map_of_mem ha))

lemma legible_paramsForm {params : List Ident} {fields : Properties Expr}
    (hp : ∀ i ∈ params, names.Spells Token.IsName i.name) (hk : fields.Keyed names)
    (h : ∀ f ∈ fields.entries, ∀ a ∈ f.2.entries, (form names a.2).Legible names) :
    (paramsForm params (formFields names fields.entries)).Legible names := by
  refine .group _ _ fun g hg => ?_
  obtain ⟨q, hq, rfl⟩ := List.mem_map.mp hg
  obtain ⟨f, hf, rfl⟩ | ⟨p, hp', rfl⟩ := mem_alignParams hq
  · exact legible_fieldForm hk h f hf
  · exact legible_namesForm (by simpa using hp p hp')

lemma Spelled.takesMember_form {e : Expr} (h : e.Spelled names) (ht : e.takesMember = true) :
    (form names e).takesMember = true := by
  cases h with
  | keyword | int | float | str => exact absurd ht (by simp [takesMember])
  | _ => rfl

/-- The form of an expression is legible. -/
theorem Spelled.legible_form (hv : names.Valid) {e : Expr} (h : e.Spelled names) :
    (form names e).Legible names := by
  induction h with
  | block s _ ih => exact legible_specialForm hv _ (legible_formAll ih)
  | conditional s _ _ _ iha ihb ihc => exact legible_specialForm hv _ (by simp [iha, ihb, ihc])
  | definition s _ _ iha ihb => exact legible_specialForm hv _ (by simp [iha, ihb])
  | assignment s _ _ iha ihb => exact legible_specialForm hv _ (by simp [iha, ihb])
  | declaration s hk _ ih =>
    refine legible_specialForm hv _ fun g hg => ?_
    obtain ⟨f, hf, rfl⟩ := List.mem_map.mp hg
    exact legible_fieldForm hk ih f hf
  | function s t hp _ _ ih =>
    refine legible_specialForm hv _ fun g hg => ?_
    obtain rfl | hg := List.mem_cons.mp hg
    · exact legible_namesForm hp
    · exact legible_formAll ih g hg
  | typedFunction s t hp _ _ hk _ _ _ _ ihf ih =>
    refine legible_specialForm hv _ fun g hg => ?_
    obtain rfl | hg := List.mem_cons.mp hg
    · exact legible_paramsForm hp hk ihf
    · exact legible_formAll ih g hg
  | @recordType s n parents fields hn hp hk _ ih =>
    refine legible_specialForm hv _ fun g hg => ?_
    simp only [List.mem_cons, List.mem_append, Option.mem_toList] at hg
    obtain rfl | hg | hg := hg
    · exact .name _ hn
    · obtain ⟨is, his, rfl⟩ := Option.map_eq_some_iff.mp hg
      exact legible_namesForm (hp is his)
    · obtain ⟨f, hf, rfl⟩ := List.mem_map.mp hg
      exact legible_fieldForm hk ih f hf
  | recordLiteral s _ ih => exact .group _ _ (legible_formAll ih)
  | vector s _ ih => exact .group _ _ (legible_formAll ih)
  | call s _ _ _ ih ihs =>
    refine .group _ _ fun g hg => ?_
    obtain rfl | hg := List.mem_cons.mp hg
    · exact ih
    · exact legible_formAll ihs g hg
  | member s i he ht hn ih => exact .member _ _ ih (he.takesMember_form ht) hn
  | ident s hn => exact .name _ hn
  | keyword s hn => exact .keyword _ hn
  | int s v => exact .int _ v
  | float s hb => exact .float _ hb
  | str s hn => exact .str _ hn

end Legibility

end Expr

end YinFrontEnd
