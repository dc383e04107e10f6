import Mathlib.Data.List.Forall2
import YinFrontEnd.Proofs.Expr.Parsed

/-!
# The grammar of forms

Which forms are parsed is said here without parsing them. A special form has the operands that it
needs, a field is a name, a type, and keywords with values, and no two fields have one name.
Everything that is looked at has to be well formed in turn. The elements of a parameter or a
field list that are not square groups are not looked at. A form is parsed exactly if it is
well formed.
-/
namespace YinFrontEnd

/-- The number of operands of the special forms that fix it. -/
def SpecialForm.arity? : SpecialForm → Option Nat
  | conditional => some 3
  | definition | assignment => some 2
  | _ => none

namespace Form

/-- The form is a name that is spelled like the head of the special form. -/
def Announces (names : Interner) (f : Form) (k : SpecialForm) : Prop :=
  ∃ s n, f = .name s n ∧ names.text? n = some k.keyword

/-- The elements of the square groups among some forms. -/
def specs (fs : List Form) : List (List Form) :=
  fs.filterMap fun f =>
    match f with
    | .group _ .square es => some es
    | _ => none

/-- Keywords and values take turns. -/
inductive Alternating : List Form → Prop
  | nil : Alternating []
  | cons (s : Span) (k : Name) (v : Form) {fs : List Form} :
      Alternating fs → Alternating (.keyword s k :: v :: fs)

/-- A name, a type, and keywords with values. -/
def IsField (es : List Form) : Prop :=
  ∃ s n type rest, es = .name s n :: type :: rest ∧ Alternating rest

/-- The square groups among some forms are fields with distinct names. -/
structure AreFields (fs : List Form) : Prop where
  field : ∀ es ∈ specs fs, IsField es
  distinct : ((specs fs).filterMap fun es => es.head?.bind name?).Nodup

/-- A group that begins with a name. -/
def IsTypedParameter (f : Form) : Prop := ∃ s d t n es, f = .group s d (.name t n :: es)

/-- Everything in the form that is looked at has the shape that it needs. -/
inductive WellFormed (names : Interner) : Form → Prop
  | name (s : Span) (n : Name) : WellFormed names (.name s n)
  | keyword (s : Span) (n : Name) : WellFormed names (.keyword s n)
  | int (s : Span) (v : Int64) : WellFormed names (.int s v)
  | float (s : Span) (b : UInt64) : WellFormed names (.float s b)
  | str (s : Span) (n : Name) : WellFormed names (.str s n)
  | block (s : Span) {fs : List Form} : (∀ f ∈ fs, WellFormed names f) →
      WellFormed names (.block s fs)
  | member (s : Span) (n : Ident) {v : Form} : WellFormed names v →
      WellFormed names (.member s v n)
  | literal (s : Span) {d : Delimiter} {fs : List Form} : d ≠ .paren →
      (∀ f ∈ fs, WellFormed names f) → WellFormed names (.group s d fs)
  | call (s : Span) {head : Form} {fs : List Form} : (∀ k, ¬ head.Announces names k) →
      (∀ f ∈ head :: fs, WellFormed names f) → WellFormed names (.group s .paren (head :: fs))
  | sequence (s : Span) {head : Form} {fs : List Form} : head.Announces names .sequence →
      (∀ f ∈ fs, WellFormed names f) → WellFormed names (.group s .paren (head :: fs))
  | fixed (s : Span) {head : Form} {k : SpecialForm} {fs : List Form} :
      head.Announces names k → k.arity? = some fs.length → (∀ f ∈ fs, WellFormed names f) →
      WellFormed names (.group s .paren (head :: fs))
  | declaration (s : Span) {head : Form} {fs : List Form} : head.Announces names .declaration →
      fs ≠ [] → AreFields fs → (∀ es ∈ specs fs, ∀ f ∈ es, WellFormed names f) →
      WellFormed names (.group s .paren (head :: fs))
  | function (s ls : Span) (d : Delimiter) {head : Form} {params fs : List Form} :
      head.Announces names .function → (∀ p ∈ params, p.name?.isSome = true) →
      fs ≠ [] → (∀ f ∈ fs, WellFormed names f) →
      WellFormed names (.group s .paren (head :: .group ls d params :: fs))
  | typedFunction (s ls : Span) (d : Delimiter) {head : Form} {params fs : List Form} :
      head.Announces names .function → (∀ p ∈ params, p.IsTypedParameter) →
      AreFields params → (∀ es ∈ specs params, ∀ f ∈ es, WellFormed names f) →
      fs ≠ [] → (∀ f ∈ fs, WellFormed names f) →
      WellFormed names (.group s .paren (head :: .group ls d params :: fs))
  | record (s t : Span) (n : Name) {head first : Form} {fs : List Form} :
      head.Announces names .record → first.isGroupIn .paren = false → AreFields (first :: fs) →
      (∀ es ∈ specs (first :: fs), ∀ f ∈ es, WellFormed names f) →
      WellFormed names (.group s .paren (head :: .name t n :: first :: fs))
  | derivedRecord (s t ls : Span) (n : Name) {head : Form} {parents fs : List Form} :
      head.Announces names .record → (∀ p ∈ parents, p.name?.isSome = true) → AreFields fs →
      (∀ es ∈ specs fs, ∀ f ∈ es, WellFormed names f) →
      WellFormed names
        (.group s .paren (head :: .name t n :: .group ls .paren parents :: fs))

lemma mem_specs_iff {fs es : List Form} : es ∈ specs fs ↔ ∃ s, Form.group s .square es ∈ fs := by
  simp only [specs, List.mem_filterMap]
  constructor
  · rintro ⟨f, hf, h⟩
    split at h
    · obtain rfl := Option.some.inj h
      exact ⟨_, hf⟩
    · exact absurd h (by simp)
  · rintro ⟨s, hf⟩
    exact ⟨_, hf, rfl⟩

/-- What stands in a field stands wherever the fields do. -/
lemma inside_of_mem_specs {f : Form} {fs es : List Form} (hin : ∀ g ∈ fs, g.Inside f)
    (hes : es ∈ specs fs) : ∀ g ∈ es, g.Inside f := by
  intro g hg
  obtain ⟨s, hs⟩ := mem_specs_iff.mp hes
  exact (Inside.of_part (show g ∈ (group s .square es).parts from hg)).trans (hin _ hs)

variable {names : Interner} {head : Form} {k : SpecialForm}

lemma announces_iff (hv : names.Valid) : head.Announces names k ↔ ∃ s, head = .name s k.name := by
  constructor
  · rintro ⟨s, n, rfl, hn⟩
    exact ⟨s, by rw [hv.text?_inj hn (hv.text?_special k)]⟩
  · rintro ⟨s, rfl⟩
    exact ⟨s, _, rfl, hv.text?_special k⟩

lemma not_announces_iff (hv : names.Valid) : (∀ k, ¬ head.Announces names k) ↔
    ∀ n ∈ head.name?, SpecialForm.ofName? n = none := by
  simp only [announces_iff hv]
  constructor
  · intro h n hn
    by_contra hne
    obtain ⟨k, hk⟩ := Option.ne_none_iff_exists'.mp hne
    obtain rfl := (SpecialForm.ofName?_eq_some_iff n k).mp hk
    cases head with
    | name s m =>
      obtain rfl : m = k.name := by simpa [name?] using hn
      exact h k ⟨s, rfl⟩
    | _ => exact absurd hn (by simp [name?])
  · rintro h k ⟨s, rfl⟩
    have hnone := h k.name rfl
    rw [(SpecialForm.ofName?_eq_some_iff k.name k).mpr rfl] at hnone
    exact absurd hnone (by simp)

end Form

namespace Expr

open Form (Alternating IsField AreFields specs Announces)

/-- The form is parsed. -/
def Accepted (names : Interner) (f : Form) : Prop := ∃ e, ofForm names f = .ok e

variable {names : Interner} {f g : Form} {fs gs : List Form} {e : Expr} {es : List Expr}

/-- Forms are parsed one by one. -/
lemma ofForms_eq_ok_iff :
    ofForms names fs = .ok es ↔ List.Forall₂ (fun f e => ofForm names f = .ok e) fs es := by
  rw [ofForms_eq_mapM, mapM_eq_ok_iff]

lemma accepted_ofForms_iff :
    (∃ es, ofForms names fs = .ok es) ↔ ∀ f ∈ fs, Accepted names f := by
  simp only [ofForms_eq_mapM, exists_mapM_iff, Accepted]

/-- What is parsed keeps its span, and is a name or a keyword only if it was one. -/
lemma span_of_ofForm (h : ofForm names f = .ok e) : e.span = f.span := by
  cases parses_of_ofForm h <;> rfl

lemma ident?_of_ofForm (h : ofForm names f = .ok e) : e.ident? = f.name? := by
  cases parses_of_ofForm h <;> rfl

lemma keyword?_of_ofForm (h : ofForm names f = .ok e) :
    e.keyword? = none ↔ ∀ s k, f ≠ .keyword s k := by
  cases parses_of_ofForm h <;> simp [keyword?]

lemma form_of_keyword {s : Span} {k : Name} (h : ofForm names f = .ok (keyword s k)) :
    f = .keyword s k := by
  cases parses_of_ofForm h
  rfl

lemma form_of_ident {s : Span} {n : Name} (h : ofForm names f = .ok (ident s n)) :
    f = .name s n := by
  cases parses_of_ofForm h
  rfl

lemma alternating_of_paired {vs : List (Name × Expr)} (h : Paired es vs)
    (hes : List.Forall₂ (fun f e => ofForm names f = .ok e) fs es) : Alternating fs := by
  induction h generalizing fs with
  | nil =>
    obtain rfl := List.forall₂_nil_right_iff.mp hes
    exact .nil
  | cons s _ ih =>
    obtain ⟨k, tail, hk, htail, rfl⟩ := List.forall₂_cons_right_iff.mp hes
    obtain ⟨v, rest, -, hrest, rfl⟩ := List.forall₂_cons_right_iff.mp htail
    obtain rfl := form_of_keyword hk
    exact .cons _ _ v (ih hrest)

lemma paired_of_alternating (h : Alternating fs)
    (hes : List.Forall₂ (fun f e => ofForm names f = .ok e) fs es) : ∃ vs, Paired es vs := by
  induction h generalizing es with
  | nil =>
    obtain rfl := List.forall₂_nil_left_iff.mp hes
    exact ⟨[], .nil⟩
  | cons s k v _ ih =>
    obtain ⟨e, tail, he, htail, rfl⟩ := List.forall₂_cons_left_iff.mp hes
    obtain ⟨d, rest, -, hrest, rfl⟩ := List.forall₂_cons_left_iff.mp htail
    obtain rfl := Except.ok.inj he
    obtain ⟨vs, hvs⟩ := ih hrest
    exact ⟨(k, d) :: vs, .cons s hvs⟩

section Tables

variable {fields : List (Ident × Attributes Expr)}

lemma specs_skip (h : g.isGroupIn .square = false) : specs (g :: gs) = specs gs := by
  cases g with
  | group s d es => cases d <;> first | rfl | exact absurd h (by simp [Form.isGroupIn])
  | _ => rfl

lemma specs_square (s : Span) (es : List Form) :
    specs (.group s .square es :: gs) = es :: specs gs := rfl

/-- The fields that are read are the square groups. -/
lemma Fields.specs (h : Fields names gs fields) :
    (∀ es ∈ specs gs, IsField es ∧ ∀ f ∈ es, Accepted names f) ∧
      fields.map (·.1.name) = (specs gs).filterMap fun es => es.head?.bind Form.name? := by
  induction h with
  | nil => exact ⟨by simp [Form.specs], rfl⟩
  | skip hg _ ih => rwa [specs_skip hg]
  | @field s s' n type elements gs rest vs fields he hvs _ ih =>
    have hall := ofForms_eq_ok_iff.mp he
    obtain ⟨f, tail, hf, htail, rfl⟩ := List.forall₂_cons_right_iff.mp hall
    obtain ⟨g, fs, -, hfs, rfl⟩ := List.forall₂_cons_right_iff.mp htail
    obtain rfl := form_of_ident hf
    rw [specs_square]
    refine ⟨?_, ?_⟩
    · intro es hes
      obtain rfl | hes := List.mem_cons.mp hes
      · exact ⟨⟨s', n, g, fs, rfl, alternating_of_paired hvs hfs⟩,
          accepted_ofForms_iff.mp ⟨_, he⟩⟩
      · exact ih.1 es hes
    · rw [List.map_cons, ih.2]
      rfl

lemma exists_fields (h : ∀ es ∈ specs gs, IsField es ∧ ∀ f ∈ es, Accepted names f) :
    ∃ fields, Fields names gs fields := by
  induction gs with
  | nil => exact ⟨[], .nil⟩
  | cons g gs ih =>
    obtain ⟨s, es, rfl⟩ | hg := g.group_or_not .square
    · rw [specs_square, List.forall_mem_cons] at h
      obtain ⟨⟨⟨s', n, type, rest, rfl, halt⟩, hacc⟩, hothers⟩ := h
      obtain ⟨es, hes⟩ := accepted_ofForms_iff.mpr hacc
      obtain ⟨e, tail, he, htail, rfl⟩ :=
        List.forall₂_cons_left_iff.mp (ofForms_eq_ok_iff.mp hes)
      obtain ⟨d, ds, -, hds, rfl⟩ := List.forall₂_cons_left_iff.mp htail
      obtain rfl := Except.ok.inj he
      obtain ⟨vs, hvs⟩ := paired_of_alternating halt hds
      obtain ⟨fields, hfields⟩ := ih hothers
      exact ⟨_, .field s s' hes hvs hfields⟩
    · rw [specs_skip hg] at h
      obtain ⟨fields, hfields⟩ := ih h
      exact ⟨fields, .skip hg hfields⟩

/-- A table is read from fields with distinct names. -/
lemma accepted_tableOf_iff : (∃ t, tableOf names .empty gs = .ok t) ↔
    AreFields gs ∧ ∀ es ∈ specs gs, ∀ f ∈ es, Accepted names f := by
  constructor
  · rintro ⟨t, ht⟩
    obtain ⟨hfields, hn⟩ := tableOf_iff.mp ⟨t, ht, rfl⟩
    obtain ⟨hspecs, hnames⟩ := hfields.specs
    rw [hnames] at hn
    exact ⟨⟨fun es hes => (hspecs es hes).1, hn⟩, fun es hes => (hspecs es hes).2⟩
  · rintro ⟨⟨hfield, hn⟩, hacc⟩
    obtain ⟨fields, hfields⟩ := exists_fields fun es hes => ⟨hfield es hes, hacc es hes⟩
    rw [← hfields.specs.2] at hn
    obtain ⟨t, ht, -⟩ := tableOf_iff.mpr ⟨hfields, hn⟩
    exact ⟨t, ht⟩

end Tables

section Parameters

variable {list : Form} {is : List Ident}

lemma name?_isSome_of_parameter {o : Option Ident} (h : parameter names f = .ok (o, false)) :
    f.name?.isSome = true := by
  obtain ⟨i, rfl, -⟩ := name_of_parameter h
  rfl

lemma isTypedParameter_of_parameter {o : Option Ident} (h : parameter names f = .ok (o, true)) :
    f.IsTypedParameter := by
  obtain ⟨s, d, i, es, rfl, -⟩ := group_of_parameter h
  exact ⟨s, d, i.span, i.name, es, rfl⟩

lemma exists_parameter_of_name (h : f.name?.isSome = true) :
    ∃ o, parameter names f = .ok (o, false) := by
  cases f with
  | name s n => exact ⟨_, rfl⟩
  | _ => exact absurd h (by simp [Form.name?])

lemma exists_parameter_of_typed (h : f.IsTypedParameter) :
    ∃ o, parameter names f = .ok (o, true) := by
  obtain ⟨s, d, t, n, es, rfl⟩ := h
  exact ⟨_, rfl⟩

/-- Parameters without a table are names. -/
lemma parameters_untyped_iff : (∃ is, parameters names list fs = .ok (is, false)) ↔
    ∀ f ∈ fs, f.name?.isSome = true := by
  constructor
  · rintro ⟨is, h⟩ f hf
    obtain ⟨ps, hps, hall, -⟩ := parameters_eq_ok_iff.mp h
    obtain ⟨⟨o, typed⟩, hp, hfp⟩ := exists_of_mapM_eq_ok hps f hf
    obtain rfl : typed = false := hall _ hp
    exact name?_isSome_of_parameter hfp
  · intro h
    have hone : ∀ f ∈ fs, ∃ p, parameter names f = .ok p ∧ p.2 = false := by
      intro f hf
      obtain ⟨o, ho⟩ := exists_parameter_of_name (h f hf)
      exact ⟨_, ho, rfl⟩
    obtain ⟨ps, hps, -, hall⟩ := mapM_eq_ok_of_forall hone
    exact ⟨_, parameters_eq_ok_iff.mpr ⟨ps, hps, hall, by simp, rfl⟩⟩

/-- Parameters with a table are groups that begin with a name. -/
lemma parameters_typed_iff : (∃ is, parameters names list fs = .ok (is, true)) ↔
    fs ≠ [] ∧ ∀ f ∈ fs, f.IsTypedParameter := by
  constructor
  · rintro ⟨is, h⟩
    obtain ⟨ps, hps, hall, hne, -⟩ := parameters_eq_ok_iff.mp h
    refine ⟨?_, fun f hf => ?_⟩
    · rintro rfl
      exact hne rfl (Except.ok.inj hps).symm
    · obtain ⟨⟨o, typed⟩, hp, hfp⟩ := exists_of_mapM_eq_ok hps f hf
      obtain rfl : typed = true := hall _ hp
      exact isTypedParameter_of_parameter hfp
  · rintro ⟨hne, h⟩
    have hone : ∀ f ∈ fs, ∃ p, parameter names f = .ok p ∧ p.2 = true := by
      intro f hf
      obtain ⟨o, ho⟩ := exists_parameter_of_typed (h f hf)
      exact ⟨_, ho, rfl⟩
    obtain ⟨ps, hps, hlen, hall⟩ := mapM_eq_ok_of_forall hone
    have hps' : ps ≠ [] := by
      rintro rfl
      exact hne (List.length_eq_zero_iff.mp hlen.symm)
    exact ⟨_, parameters_eq_ok_iff.mpr ⟨ps, hps, hall, fun _ => hps', rfl⟩⟩

/-- Parents are names. -/
lemma accepted_parents_iff :
    (∃ is, parents names fs = .ok is) ↔ ∀ f ∈ fs, f.name?.isSome = true := by
  rw [parents, exists_mapM_iff]
  refine forall₂_congr fun f _ => ?_
  cases f <;> simp [Form.ident?, Form.name?]

end Parameters

section Shapes

variable {s : Span} {head : Form}

/-- A form that is parsed has a shape that is well formed, if the forms in it have. -/
lemma wellFormed_of_ofForm (hv : names.Valid) (h : ofForm names f = .ok e)
    (ih : ∀ g, g.Inside f → Accepted names g → g.WellFormed names) : f.WellFormed names := by
  have all {gs : List Form} {ds : List Expr} (hds : ofForms names gs = .ok ds)
      (hin : ∀ g ∈ gs, g.Inside f) : ∀ g ∈ gs, g.WellFormed names := fun g hg =>
    ih g (hin g hg) (accepted_ofForms_iff.mp ⟨ds, hds⟩ g hg)
  have table {gs : List Form} {t : Properties Expr} (ht : tableOf names .empty gs = .ok t)
      (hin : ∀ g ∈ gs, g.Inside f) :
      AreFields gs ∧ ∀ es ∈ specs gs, ∀ g ∈ es, g.WellFormed names := by
    obtain ⟨hfields, hacc⟩ := accepted_tableOf_iff.mp ⟨t, ht⟩
    exact ⟨hfields, fun es hes g hg =>
      ih g (Form.inside_of_mem_specs hin hes g hg) (hacc es hes g hg)⟩
  have announced (t : Span) (k : SpecialForm) : (Form.name t k.name).Announces names k :=
    (Form.announces_iff hv).mpr ⟨t, rfl⟩
  cases parses_of_ofForm h with
  | block s hes => exact .block s (all hes fun g hg => .of_part hg)
  | member s n he => exact .member s n (ih _ (.of_part (List.mem_singleton_self _)) ⟨_, he⟩)
  | name s n => exact .name s n
  | keyword s n => exact .keyword s n
  | int s v => exact .int s v
  | float s b => exact .float s b
  | str s n => exact .str s n
  | curly s hes => exact .literal s (by simp) (all hes fun g hg => .of_part hg)
  | square s hes => exact .literal s (by simp) (all hes fun g hg => .of_part hg)
  | @call s g gs e es hhead he hes =>
    exact .call s ((Form.not_announces_iff hv).mpr hhead)
      (all (ofForms_cons_eq_ok.mpr ⟨e, es, he, hes, rfl⟩) fun g hg => .of_part hg)
  | sequence s t hes =>
    exact .sequence s (announced t _) (all hes fun g hg => .of_part (List.mem_cons_of_mem _ hg))
  | conditional s t ha hb hc =>
    refine .fixed s (announced t .conditional) rfl ?_
    simp only [List.forall_mem_cons]
    exact ⟨ih _ (.of_part (by simp [Form.parts])) ⟨_, ha⟩,
      ih _ (.of_part (by simp [Form.parts])) ⟨_, hb⟩,
      ih _ (.of_part (by simp [Form.parts])) ⟨_, hc⟩, by simp⟩
  | definition s t ha hb =>
    refine .fixed s (announced t .definition) rfl ?_
    simp only [List.forall_mem_cons]
    exact ⟨ih _ (.of_part (by simp [Form.parts])) ⟨_, ha⟩,
      ih _ (.of_part (by simp [Form.parts])) ⟨_, hb⟩, by simp⟩
  | assignment s t ha hb =>
    refine .fixed s (announced t .assignment) rfl ?_
    simp only [List.forall_mem_cons]
    exact ⟨ih _ (.of_part (by simp [Form.parts])) ⟨_, ha⟩,
      ih _ (.of_part (by simp [Form.parts])) ⟨_, hb⟩, by simp⟩
  | @declaration s t gs _ ht =>
    obtain ⟨hfields, hwf⟩ := table ht fun g hg => .of_part (List.mem_cons_of_mem _ hg)
    refine .declaration s (announced t _) ?_ hfields hwf
    rintro rfl
    exact ne_ok_of_eq_error rfl h
  | function s t ls b d hp hne hes =>
    exact .function s ls d (announced t _) (parameters_untyped_iff.mp ⟨_, hp⟩) hne
      (all hes fun g hg => .of_part (by simp [Form.parts, hg]))
  | typedFunction s t ls b d hp ht hne hes =>
    obtain ⟨hfields, hwf⟩ := table ht fun g hg =>
      (Form.Inside.of_part (show g ∈ (Form.group ls d _).parts from hg)).trans
        (.of_part (by simp [Form.parts]))
    exact .typedFunction s ls d (announced t _) (parameters_typed_iff.mp ⟨_, hp⟩).2 hfields hwf hne
      (all hes fun g hg => .of_part (by simp [Form.parts, hg]))
  | recordType s t u ls n hps ht =>
    obtain ⟨hfields, hwf⟩ := table ht fun g hg => .of_part (by simp [Form.parts, hg])
    exact .derivedRecord s u ls n (announced t _) (accepted_parents_iff.mp ⟨_, hps⟩) hfields hwf
  | @recordAlone s t u n gs _ ht =>
    obtain ⟨hfields, hwf⟩ := table ht fun g hg => .of_part (by simp [Form.parts, hg])
    cases gs with
    | nil => exact ne_ok_of_eq_error rfl h
    | cons first others =>
      refine .record s u n (announced t _) ?_ hfields hwf
      obtain ⟨ls, elements, rfl⟩ | hfirst := first.group_or_not .paren
      · obtain ⟨is, -, h⟩ := bind_eq_ok.mp h
        obtain ⟨_, -, h⟩ := bind_eq_ok.mp h
        exact absurd (Except.ok.inj h) (by simp)
      · exact hfirst

lemma accepted_of_map {F : List Expr → Expr} (h : ofForm names f = (ofForms names fs).map F)
    (hfs : ∀ g ∈ fs, Accepted names g) : Accepted names f := by
  obtain ⟨es, hes⟩ := accepted_ofForms_iff.mpr hfs
  exact ⟨F es, h.trans (map_eq_ok.mpr ⟨es, hes, rfl⟩)⟩

lemma accepted_fixed {t : Span} {k : SpecialForm} (hk : k.arity? = some fs.length)
    (hfs : ∀ g ∈ fs, Accepted names g) :
    Accepted names (.group s .paren (.name t k.name :: fs)) := by
  cases k with
  | conditional =>
    match fs with
    | [test, consequent, alternative] =>
      simp only [List.forall_mem_cons] at hfs
      obtain ⟨⟨a, ha⟩, ⟨b, hb⟩, ⟨c, hc⟩, -⟩ := hfs
      exact ⟨_, bind_eq_ok.mpr ⟨a, ha, bind_eq_ok.mpr ⟨b, hb, bind_eq_ok.mpr ⟨c, hc, rfl⟩⟩⟩⟩
  | definition | assignment =>
    match fs with
    | [pattern, value] =>
      simp only [List.forall_mem_cons] at hfs
      obtain ⟨⟨a, ha⟩, ⟨b, hb⟩, -⟩ := hfs
      exact ⟨_, bind_eq_ok.mpr ⟨a, ha, bind_eq_ok.mpr ⟨b, hb, rfl⟩⟩⟩
  | _ => exact absurd hk (by simp [SpecialForm.arity?])

lemma accepted_function {t ls : Span} {d : Delimiter} {is : List Ident} {typed : Bool}
    (hp : parameters names (.group ls d gs) gs = .ok (is, typed))
    (ht : typed = true → ∃ t, tableOf names .empty gs = .ok t) (hne : fs ≠ [])
    (hfs : ∀ g ∈ fs, Accepted names g) : Accepted names
      (.group s .paren (.name t SpecialForm.function.name :: .group ls d gs :: fs)) := by
  obtain ⟨first, others, rfl⟩ := List.exists_cons_of_ne_nil hne
  obtain ⟨es, hes⟩ := accepted_ofForms_iff.mpr hfs
  cases typed with
  | false =>
    exact ⟨_, (ofForm_plainFunction hp).trans (map_eq_ok.mpr ⟨es, hes, rfl⟩)⟩
  | true =>
    obtain ⟨table, htable⟩ := ht rfl
    exact ⟨_, (ofForm_typedFunction hp).trans
      (bind_eq_ok.mpr ⟨table, htable, map_eq_ok.mpr ⟨es, hes, rfl⟩⟩)⟩

/-- A well-formed form is parsed. -/
lemma accepted_of_wellFormed (hv : names.Valid) (h : f.WellFormed names) : Accepted names f := by
  induction h with
  | name s n => exact ⟨_, rfl⟩
  | keyword s n => exact ⟨_, rfl⟩
  | int s v => exact ⟨_, rfl⟩
  | float s b => exact ⟨_, rfl⟩
  | str s n => exact ⟨_, rfl⟩
  | block s _ ih => exact accepted_of_map rfl ih
  | member s n _ ih =>
    obtain ⟨e, he⟩ := ih
    exact ⟨_, map_eq_ok.mpr ⟨e, he, rfl⟩⟩
  | @literal s d fs hd _ ih =>
    cases d with
    | paren => exact absurd rfl hd
    | square | curly => exact accepted_of_map rfl ih
  | call s hhead _ ih =>
    rw [List.forall_mem_cons] at ih
    obtain ⟨⟨e, he⟩, hothers⟩ := ih
    obtain ⟨es, hes⟩ := accepted_ofForms_iff.mpr hothers
    exact ⟨_, (ofForm_call ((Form.not_announces_iff hv).mp hhead)).trans
      (bind_eq_ok.mpr ⟨e, he, bind_eq_ok.mpr ⟨es, hes, rfl⟩⟩)⟩
  | sequence s hhead _ ih =>
    obtain ⟨t, rfl⟩ := (Form.announces_iff hv).mp hhead
    exact accepted_of_map rfl ih
  | fixed s hhead hk _ ih =>
    obtain ⟨t, rfl⟩ := (Form.announces_iff hv).mp hhead
    exact accepted_fixed hk ih
  | declaration s hhead hne hfields _ ih =>
    obtain ⟨t, rfl⟩ := (Form.announces_iff hv).mp hhead
    obtain ⟨first, others, rfl⟩ := List.exists_cons_of_ne_nil hne
    obtain ⟨table, htable⟩ := accepted_tableOf_iff.mpr ⟨hfields, ih⟩
    exact ⟨_, map_eq_ok.mpr ⟨table, htable, rfl⟩⟩
  | function s ls d hhead hparams hne _ ih =>
    obtain ⟨t, rfl⟩ := (Form.announces_iff hv).mp hhead
    obtain ⟨is, his⟩ := parameters_untyped_iff.mpr hparams
    exact accepted_function his (by simp) hne ih
  | @typedFunction s ls d head params fs hhead hparams hfields _ hne _ ih ihfs =>
    obtain ⟨t, rfl⟩ := (Form.announces_iff hv).mp hhead
    by_cases hnil : params = []
    · -- a parameter list without elements is one of names
      subst hnil
      exact accepted_function rfl (by simp) hne ihfs
    · obtain ⟨is, his⟩ := parameters_typed_iff.mpr ⟨hnil, hparams⟩
      exact accepted_function his (fun _ => accepted_tableOf_iff.mpr ⟨hfields, ih⟩) hne ihfs
  | @record s t n head first fs hhead hfirst hfields _ ih =>
    obtain ⟨u, rfl⟩ := (Form.announces_iff hv).mp hhead
    obtain ⟨table, htable⟩ := accepted_tableOf_iff.mpr ⟨hfields, ih⟩
    exact ⟨_, (ofForm_recordAlone hfirst).trans (map_eq_ok.mpr ⟨table, htable, rfl⟩)⟩
  | derivedRecord s t ls n hhead hparents hfields _ ih =>
    obtain ⟨u, rfl⟩ := (Form.announces_iff hv).mp hhead
    obtain ⟨is, his⟩ := accepted_parents_iff.mpr hparents
    obtain ⟨table, htable⟩ := accepted_tableOf_iff.mpr ⟨hfields, ih⟩
    exact ⟨_, (ofForm_derivedRecord his).trans (map_eq_ok.mpr ⟨table, htable, rfl⟩)⟩

/-- A form is parsed if and only if it is well formed. -/
theorem accepted_iff_wellFormed (hr : names.Reached) (f : Form) :
    (∃ e, ofForm names f = .ok e) ↔ f.WellFormed names := by
  constructor
  · intro h
    induction f using Form.wellFounded_inside.induction with
    | _ f ih =>
      obtain ⟨e, he⟩ := h
      exact wellFormed_of_ofForm hr.valid he ih
  · exact accepted_of_wellFormed hr.valid

/-- An empty list among the fields of a declaration is not looked at, though it is not well formed
by itself. -/
theorem accepted_iff_wellFormed_declaration : Interner.new.Reached ∧
    (Form.group .dummy .paren [.name .dummy SpecialForm.declaration.name,
      .group .dummy .paren [], .group .dummy .square [.name .dummy ⟨20⟩, .name .dummy ⟨21⟩]]
      ).WellFormed Interner.new ∧ ¬ (Form.group .dummy .paren []).WellFormed Interner.new := by
  refine ⟨.new, (accepted_iff_wellFormed .new _).mp ⟨_, rfl⟩, fun h => ?_⟩
  obtain ⟨e, he⟩ := (accepted_iff_wellFormed .new _).mpr h
  exact ne_ok_of_eq_error rfl he

end Shapes

end Expr

end YinFrontEnd
