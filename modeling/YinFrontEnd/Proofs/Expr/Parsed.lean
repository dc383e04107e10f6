import YinFrontEnd.Proofs.Expr.Fields
import YinFrontEnd.Proofs.Expr.Spelled
import YinFrontEnd.Proofs.Form.Parts
import YinFrontEnd.Proofs.Form.Position

/-!
# What parsed expressions are like

Parsing a form looks at one level of it at a time. Since the forms that are read are legible and
their parts stand in order, the texts of a parsed expression can be told apart, its bags begin
with the type, and the fields of a parameter table name parameters in their order and at their
places.
-/
namespace YinFrontEnd

namespace Form

variable {names : Interner} {f g : Form}

lemma Legible.parts (h : f.Legible names) : ∀ g ∈ f.parts, g.Legible names := by
  cases h with
  | group s d h => exact h
  | member s i h _ _ => simpa [Form.parts] using h
  | _ => simp [Form.parts]

lemma Nested.parts (h : f.Nested) : ∀ g ∈ f.parts, g.Nested := by
  cases h with
  | group h _ _ => exact h
  | member h _ _ _ _ => simpa [Form.parts] using h
  | _ => simp [Form.parts]

end Form

namespace Expr

variable {names : Interner}

/-- One level of parsing. -/
inductive Parses (names : Interner) : Form → Expr → Prop
  | block (s : Span) {fs : List Form} {es : List Expr} : ofForms names fs = .ok es →
      Parses names (.block s fs) (block s es)
  | member (s : Span) (n : Ident) {f : Form} {e : Expr} : ofForm names f = .ok e →
      Parses names (.member s f n) (member s e n)
  | name (s : Span) (n : Name) : Parses names (.name s n) (ident s n)
  | keyword (s : Span) (n : Name) : Parses names (.keyword s n) (keyword s n)
  | int (s : Span) (v : Int64) : Parses names (.int s v) (int s v)
  | float (s : Span) (b : UInt64) : Parses names (.float s b) (float s b)
  | str (s : Span) (n : Name) : Parses names (.str s n) (str s n)
  | curly (s : Span) {fs : List Form} {es : List Expr} : ofForms names fs = .ok es →
      Parses names (.group s .curly fs) (recordLiteral s es)
  | square (s : Span) {fs : List Form} {es : List Expr} : ofForms names fs = .ok es →
      Parses names (.group s .square fs) (vector s es)
  | call (s : Span) {f : Form} {fs : List Form} {e : Expr} {es : List Expr} :
      (∀ n ∈ f.name?, SpecialForm.ofName? n = none) → ofForm names f = .ok e →
      ofForms names fs = .ok es → Parses names (.group s .paren (f :: fs)) (call s e es)
  | sequence (s t : Span) {fs : List Form} {es : List Expr} : ofForms names fs = .ok es →
      Parses names (.group s .paren (.name t SpecialForm.sequence.name :: fs)) (block s es)
  | conditional (s t : Span) {f g h : Form} {a b c : Expr} : ofForm names f = .ok a →
      ofForm names g = .ok b → ofForm names h = .ok c →
      Parses names (.group s .paren [.name t SpecialForm.conditional.name, f, g, h])
        (conditional s a b c)
  | definition (s t : Span) {f g : Form} {a b : Expr} : ofForm names f = .ok a →
      ofForm names g = .ok b →
      Parses names (.group s .paren [.name t SpecialForm.definition.name, f, g]) (definition s a b)
  | assignment (s t : Span) {f g : Form} {a b : Expr} : ofForm names f = .ok a →
      ofForm names g = .ok b →
      Parses names (.group s .paren [.name t SpecialForm.assignment.name, f, g]) (assignment s a b)
  | declaration (s t : Span) {fs : List Form} {table : Properties Expr} :
      tableOf names .empty fs = .ok table →
      Parses names (.group s .paren (.name t SpecialForm.declaration.name :: fs))
        (declaration s table)
  | function (s t ls b : Span) (d : Delimiter) {elements fs : List Form} {params : List Ident}
      {es : List Expr} : parameters names (.group ls d elements) elements = .ok (params, false) →
      fs ≠ [] → ofForms names fs = .ok es →
      Parses names (.group s .paren (.name t SpecialForm.function.name :: .group ls d elements :: fs))
        (function s params none (block b es))
  | typedFunction (s t ls b : Span) (d : Delimiter) {elements fs : List Form}
      {params : List Ident} {table : Properties Expr} {es : List Expr} :
      parameters names (.group ls d elements) elements = .ok (params, true) →
      tableOf names .empty elements = .ok table → fs ≠ [] → ofForms names fs = .ok es →
      Parses names (.group s .paren (.name t SpecialForm.function.name :: .group ls d elements :: fs))
        (function s params (some table) (block b es))
  | recordType (s t u ls : Span) (n : Name) {elements fs : List Form} {is : List Ident}
      {table : Properties Expr} : parents names elements = .ok is →
      tableOf names .empty fs = .ok table →
      Parses names (.group s .paren (.name t SpecialForm.record.name :: .name u n ::
        .group ls .paren elements :: fs)) (recordType s ⟨n, u⟩ (some is) table)
  | recordAlone (s t u : Span) (n : Name) {fs : List Form} {table : Properties Expr} :
      tableOf names .empty fs = .ok table →
      Parses names (.group s .paren (.name t SpecialForm.record.name :: .name u n :: fs))
        (recordType s ⟨n, u⟩ none table)

lemma parses_function {s t : Span} {fs : List Form} {e : Expr}
    (h : ofForm names (.group s .paren (.name t SpecialForm.function.name :: fs)) = .ok e) :
    Parses names (.group s .paren (.name t SpecialForm.function.name :: fs)) e := by
  match fs with
  | [] => exact ne_ok_of_eq_error rfl h
  | [_] => exact ne_ok_of_eq_error rfl h
  | .group ls d elements :: first :: others =>
    rw [ofForm_function] at h
    obtain ⟨⟨params, typed⟩, hp, h⟩ := bind_eq_ok.mp h
    obtain ⟨table, htable, h⟩ := bind_eq_ok.mp h
    obtain ⟨es, hes, h⟩ := bind_eq_ok.mp h
    obtain rfl := Except.ok.inj h
    cases typed with
    | false =>
      obtain rfl := Except.ok.inj htable
      exact .function s t ls _ d hp (by simp) hes
    | true =>
      obtain ⟨table, ht, rfl⟩ := map_eq_ok.mp htable
      exact .typedFunction s t ls _ d hp ht (by simp) hes
  | .block _ _ :: _ :: _ | .member _ _ _ :: _ :: _ | .name _ _ :: _ :: _ | .keyword _ _ :: _ :: _
  | .int _ _ :: _ :: _ | .float _ _ :: _ :: _ | .str _ _ :: _ :: _ => exact ne_ok_of_eq_error rfl h

lemma parses_record {s t : Span} {fs : List Form} {e : Expr}
    (h : ofForm names (.group s .paren (.name t SpecialForm.record.name :: fs)) = .ok e) :
    Parses names (.group s .paren (.name t SpecialForm.record.name :: fs)) e := by
  match fs with
  | [] => exact ne_ok_of_eq_error rfl h
  | [_] => exact ne_ok_of_eq_error rfl h
  | .name u n :: first :: others =>
    obtain ⟨ls, elements, rfl⟩ | hfirst := first.group_or_not .paren
    · obtain ⟨is, his, h⟩ := bind_eq_ok.mp h
      obtain ⟨table, htable, h⟩ := bind_eq_ok.mp h
      obtain rfl := Except.ok.inj h
      exact .recordType s t u ls n his htable
    · rw [ofForm_recordAlone hfirst] at h
      obtain ⟨table, htable, rfl⟩ := map_eq_ok.mp h
      exact .recordAlone s t u n htable
  | .block _ _ :: _ :: _ | .member _ _ _ :: _ :: _ | .group _ _ _ :: _ :: _ | .keyword _ _ :: _ :: _
  | .int _ _ :: _ :: _ | .float _ _ :: _ :: _ | .str _ _ :: _ :: _ => exact ne_ok_of_eq_error rfl h

lemma parses_specialForm {s t : Span} {f : SpecialForm} {fs : List Form} {e : Expr}
    (h : ofForm names (.group s .paren (.name t f.name :: fs)) = .ok e) :
    Parses names (.group s .paren (.name t f.name :: fs)) e := by
  cases f with
  | sequence =>
    obtain ⟨es, hes, rfl⟩ := map_eq_ok.mp h
    exact .sequence s t hes
  | conditional =>
    match fs with
    | [f, g, k] =>
      obtain ⟨a, ha, h⟩ := bind_eq_ok.mp h
      obtain ⟨b, hb, h⟩ := bind_eq_ok.mp h
      obtain ⟨c, hc, h⟩ := bind_eq_ok.mp h
      obtain rfl := Except.ok.inj h
      exact .conditional s t ha hb hc
    | [] | [_] | [_, _] | _ :: _ :: _ :: _ :: _ => exact ne_ok_of_eq_error rfl h
  | definition =>
    match fs with
    | [f, g] =>
      obtain ⟨a, ha, h⟩ := bind_eq_ok.mp h
      obtain ⟨b, hb, h⟩ := bind_eq_ok.mp h
      obtain rfl := Except.ok.inj h
      exact .definition s t ha hb
    | [] | [_] | _ :: _ :: _ :: _ => exact ne_ok_of_eq_error rfl h
  | assignment =>
    match fs with
    | [f, g] =>
      obtain ⟨a, ha, h⟩ := bind_eq_ok.mp h
      obtain ⟨b, hb, h⟩ := bind_eq_ok.mp h
      obtain rfl := Except.ok.inj h
      exact .assignment s t ha hb
    | [] | [_] | _ :: _ :: _ :: _ => exact ne_ok_of_eq_error rfl h
  | declaration =>
    match fs with
    | [] => exact ne_ok_of_eq_error rfl h
    | f :: fs =>
      obtain ⟨table, htable, rfl⟩ := map_eq_ok.mp h
      exact .declaration s t htable
  | function => exact parses_function h
  | record => exact parses_record h

/-- Each form that is parsed has one of these shapes. -/
theorem parses_of_ofForm {f : Form} {e : Expr} (h : ofForm names f = .ok e) : Parses names f e := by
  cases f with
  | block s fs =>
    obtain ⟨es, hes, rfl⟩ := map_eq_ok.mp h
    exact .block s hes
  | member s f n =>
    obtain ⟨e, he, rfl⟩ := map_eq_ok.mp h
    exact .member s n he
  | name s n => obtain rfl := Except.ok.inj h; exact .name s n
  | keyword s n => obtain rfl := Except.ok.inj h; exact .keyword s n
  | int s v => obtain rfl := Except.ok.inj h; exact .int s v
  | float s b => obtain rfl := Except.ok.inj h; exact .float s b
  | str s n => obtain rfl := Except.ok.inj h; exact .str s n
  | group s d fs =>
    cases d with
    | curly =>
      obtain ⟨es, hes, rfl⟩ := map_eq_ok.mp h
      exact .curly s hes
    | square =>
      obtain ⟨es, hes, rfl⟩ := map_eq_ok.mp h
      exact .square s hes
    | paren =>
      cases fs with
      | nil => exact ne_ok_of_eq_error rfl h
      | cons head fs =>
        cases hh : head.name?.bind SpecialForm.ofName? with
        | none =>
          have hname : ∀ n ∈ head.name?, SpecialForm.ofName? n = none := by
            intro n hn
            rwa [Option.mem_def.mp hn] at hh
          rw [ofForm_call hname] at h
          obtain ⟨e, he, h⟩ := bind_eq_ok.mp h
          obtain ⟨es, hes, h⟩ := bind_eq_ok.mp h
          obtain rfl := Except.ok.inj h
          exact .call s hname he hes
        | some f =>
          obtain ⟨n, hn, hf⟩ := Option.bind_eq_some_iff.mp hh
          obtain rfl := (SpecialForm.ofName?_eq_some_iff n f).mp hf
          cases head with
          | name t n =>
            obtain rfl : n = f.name := by simpa [Form.name?] using hn
            exact parses_specialForm h
          | _ => exact absurd hn (by simp [Form.name?])

section Parameters

variable {list : Form} {elements : List Form} {is js : List Ident} {typed : Bool}

/-- Each form is a group that begins with one of the names. -/
inductive Heads : List Form → List Ident → Prop
  | nil : Heads [] []
  | cons (s : Span) (d : Delimiter) (i : Ident) (fs : List Form) {gs : List Form}
      {js : List Ident} : Heads gs js → Heads (.group s d (.name i.span i.name :: fs) :: gs) (i :: js)

/-- A parameter by itself is a name. -/
lemma name_of_parameter {f : Form} {o : Option Ident} (h : parameter names f = .ok (o, false)) :
    ∃ i, f = .name i.span i.name ∧ o = some i := by
  cases f with
  | name s n =>
    obtain ⟨rfl, -⟩ := Prod.mk.inj (Except.ok.inj h)
    exact ⟨⟨n, s⟩, rfl, rfl⟩
  | group s d fs =>
    cases fs with
    | nil => exact absurd h (by simp [parameter])
    | cons g fs =>
      simp only [parameter] at h
      split at h <;> simp at h
  | _ => exact absurd h (by simp [parameter])

/-- A parameter with attributes is a group that begins with a name. -/
lemma group_of_parameter {f : Form} {o : Option Ident} (h : parameter names f = .ok (o, true)) :
    ∃ s d i fs, f = .group s d (.name i.span i.name :: fs) ∧
      o = if i.name = .returnArrow then none else some i := by
  cases f with
  | group s d fs =>
    cases fs with
    | nil => exact absurd h (by simp [parameter])
    | cons g fs =>
      cases g with
      | name t n =>
        obtain ⟨rfl, -⟩ : (if n = .returnArrow then none else some ⟨n, t⟩) = o ∧ True := by
          simpa [parameter, Form.ident?] using h
        exact ⟨s, d, ⟨n, t⟩, fs, rfl, rfl⟩
      | _ => exact absurd h (by simp [parameter, Form.ident?])
  | _ => exact absurd h (by simp [parameter])

/-- Parameters without attributes are the elements. -/
lemma elements_of_parameters (h : parameters names list elements = .ok (is, false)) :
    elements = is.map fun i => .name i.span i.name := by
  obtain ⟨ps, hps, hall, -, rfl⟩ := parameters_eq_ok_iff.mp h
  clear h
  induction elements generalizing ps with
  | nil =>
    obtain rfl := Except.ok.inj hps
    rfl
  | cons f fs ih =>
    obtain ⟨⟨o, typed⟩, rest, hp, hrest, rfl⟩ := mapM_cons_eq_ok.mp hps
    obtain rfl : typed = false := hall (o, typed) List.mem_cons_self
    obtain ⟨i, rfl, rfl⟩ := name_of_parameter hp
    rw [ih rest hrest fun p hp => hall p (List.mem_cons_of_mem _ hp)]
    rfl

/-- Parameters with attributes are the names that the elements begin with. -/
lemma heads_of_parameters (h : parameters names list elements = .ok (is, true)) :
    ∃ js, Heads elements js ∧ is = js.filter (·.name ≠ .returnArrow) := by
  obtain ⟨ps, hps, hall, -, rfl⟩ := parameters_eq_ok_iff.mp h
  clear h
  induction elements generalizing ps with
  | nil =>
    obtain rfl := Except.ok.inj hps
    exact ⟨[], .nil, rfl⟩
  | cons f fs ih =>
    obtain ⟨⟨o, typed⟩, rest, hp, hrest, rfl⟩ := mapM_cons_eq_ok.mp hps
    obtain rfl : typed = true := hall (o, typed) List.mem_cons_self
    obtain ⟨s, d, i, gs, rfl, rfl⟩ := group_of_parameter hp
    obtain ⟨js, hjs, he⟩ := ih rest hrest fun p hp => hall p (by simp [hp])
    refine ⟨i :: js, .cons s d i gs hjs, ?_⟩
    by_cases hi : i.name = .returnArrow
    · simp [hi, he]
    · simp [hi, he]

/-- Parents are the elements. -/
lemma elements_of_parents (h : parents names elements = .ok is) :
    elements = is.map fun i => .name i.span i.name := by
  induction elements generalizing is with
  | nil =>
    obtain rfl := Except.ok.inj h
    rfl
  | cons f fs ih =>
    obtain ⟨i, rest, hi, hrest, rfl⟩ := mapM_cons_eq_ok.mp h
    rw [ih hrest]
    cases f with
    | name s n =>
      obtain rfl := Except.ok.inj hi
      rfl
    | _ => exact absurd hi (by simp [Form.ident?])

/-- The names that elements begin with stand in those elements. -/
lemma Heads.inside (h : Heads elements js) (hn : ∀ g ∈ elements, g.Nested) :
    ∀ j ∈ js, ∃ g ∈ elements, g.span.start < j.span.start ∧ j.span.start < g.span.stop := by
  induction h with
  | nil => simp
  | cons s d i fs _ ih =>
    intro j hj
    obtain rfl | hj := List.mem_cons.mp hj
    · refine ⟨_, List.mem_cons_self, ?_⟩
      cases hn _ List.mem_cons_self with
      | group _ hin _ =>
        have hb := hin _ List.mem_cons_self
        simp only [Form.span] at hb ⊢
        omega
    · obtain ⟨g, hg, hb⟩ := ih (fun g hg => hn g (List.mem_cons_of_mem _ hg)) j hj
      exact ⟨g, List.mem_cons_of_mem _ hg, hb⟩

/-- No two of those names stand in the same place. -/
lemma Heads.nodup (h : Heads elements js) (hn : ∀ g ∈ elements, g.Nested)
    (ho : elements.Pairwise fun f g => f.span.stop ≤ g.span.start) : js.Nodup := by
  induction h with
  | nil => exact List.nodup_nil
  | @cons s d i fs gs js htail ih =>
    obtain ⟨hfirst, hrest⟩ := List.pairwise_cons.mp ho
    have hn' : ∀ g ∈ gs, g.Nested := fun g hg => hn g (List.mem_cons_of_mem _ hg)
    refine List.nodup_cons.mpr ⟨fun hi => ?_, ih hn' hrest⟩
    obtain ⟨g, hg, hlt, -⟩ := htail.inside hn' i hi
    have hle := hfirst g hg
    obtain ⟨f, hf, -, hin⟩ := (Heads.cons s d i fs .nil).inside
      (by simpa using hn _ List.mem_cons_self) i List.mem_cons_self
    obtain rfl := List.mem_singleton.mp hf
    omega

/-- The fields are named by the parameters, in their order and at their places. -/
lemma Heads.sublist (h : Heads elements js) {fs : List (Ident × Attributes Expr)}
    (hf : Fields names elements fs) : (fs.map Prod.fst).Sublist js := by
  induction h generalizing fs with
  | nil =>
    cases hf
    exact .slnil
  | cons s d i gs _ ih =>
    cases hf with
    | skip _ hf => exact (ih hf).cons _
    | field _ s' he _ hf =>
      obtain ⟨e, es, hname, -, heq⟩ := ofForms_cons_eq_ok.mp he
      obtain rfl := Except.ok.inj hname
      obtain ⟨hident, -⟩ := List.cons.inj heq
      obtain ⟨rfl, rfl⟩ := ident.inj hident
      exact (ih hf).cons_cons _

end Parameters

/-- The texts of whatever the form is parsed as can be told apart. -/
def Yields (names : Interner) (f : Form) : Prop := ∀ e, ofForm names f = .ok e → e.Spelled names

section Tables

variable {fs gs : List Form} {es : List Expr} {vs : List (Name × Expr)} {type : Expr}

lemma spelled_of_ofForms (hy : ∀ f ∈ fs, Yields names f) (h : ofForms names fs = .ok es) :
    ∀ e ∈ es, e.Spelled names := by
  induction fs generalizing es with
  | nil =>
    obtain rfl := Except.ok.inj h
    simp
  | cons f fs ih =>
    obtain ⟨e, es, he, hes, rfl⟩ := ofForms_cons_eq_ok.mp h
    intro d hd
    obtain rfl | hd := List.mem_cons.mp hd
    · exact hy f List.mem_cons_self d he
    · exact ih (fun g hg => hy g (List.mem_cons_of_mem _ hg)) hes d hd

lemma Paired.spelled (h : Paired es vs) (hs : ∀ e ∈ es, e.Spelled names) :
    ∀ a ∈ vs, names.Spells Token.IsWord a.1 ∧ a.2.Spelled names := by
  induction h with
  | nil => simp
  | @cons s k v es vs _ ih =>
    intro a ha
    obtain rfl | ha := List.mem_cons.mp ha
    · refine ⟨?_, hs v (by simp)⟩
      cases hs (.keyword s k) (by simp) with
      | keyword _ hk => exact hk
    · exact ih (fun e he => hs e (by simp [he])) a ha

lemma mem_bagOf {a : Name × Expr} (h : a ∈ (Properties.bagOf type vs).entries) :
    a = (.typeKey, type) ∨ a ∈ vs := by
  obtain h | h := Attributes.mem_merge h
  · exact .inl (List.mem_singleton.mp h)
  · obtain h | h := Attributes.mem_merge h
    · exact absurd h (by simp [Attributes.empty])
    · exact .inr h

/-- The bag of a field begins with the type, whatever keywords follow it. -/
lemma keyed_bagOf (hv : names.Valid) (hw : ∀ a ∈ vs, names.Spells Token.IsWord a.1) :
    (Properties.bagOf type vs).Keyed names where
  nodup := Properties.nodup_bagOf type vs
  typed := Attributes.head?_merge rfl _
  words k hk := by
    obtain ⟨a, ha, rfl⟩ := List.mem_map.mp hk
    obtain rfl | ha := mem_bagOf ha
    · exact ⟨"type", hv.text?_typeKey, by decide⟩
    · exact hw a ha

lemma Fields.spelled (hv : names.Valid) {fields : List (Ident × Attributes Expr)}
    (h : Fields names gs fields) (hy : ∀ g ∈ gs, Yields names g) : ∀ f ∈ fields,
      names.Spells Token.IsName f.1.name ∧ f.2.Keyed names ∧
        ∀ a ∈ f.2.entries, a.2.Spelled names := by
  induction h with
  | nil => simp
  | skip _ _ ih => exact ih fun g hg => hy g (List.mem_cons_of_mem _ hg)
  | @field s s' n type elements gs rest vs fields he hvs _ ih =>
    have hvector := hy _ List.mem_cons_self (vector s _) (map_eq_ok.mpr ⟨_, he, rfl⟩)
    have hall : ∀ e ∈ ident s' n :: type :: rest, e.Spelled names := by
      cases hvector with
      | vector _ hall => exact hall
    have hpairs := hvs.spelled fun e hmem => hall e (by simp [hmem])
    intro f hf
    obtain rfl | hf := List.mem_cons.mp hf
    · refine ⟨?_, keyed_bagOf hv fun a ha => (hpairs a ha).1, fun a ha => ?_⟩
      · cases hall (ident s' n) List.mem_cons_self with
        | ident _ hn => exact hn
      · obtain rfl | ha := mem_bagOf ha
        · exact hall type (by simp)
        · exact (hpairs a ha).2
    · exact ih (fun g hg => hy g (List.mem_cons_of_mem _ hg)) f hf

/-- A table that is read is in order, and what it holds can be told apart. -/
lemma spelled_table (hv : names.Valid) {t : Properties Expr} (h : tableOf names .empty gs = .ok t)
    (hy : ∀ g ∈ gs, Yields names g) : t.Keyed names ∧
      ∀ f ∈ t.entries, ∀ a ∈ f.2.entries, a.2.Spelled names := by
  obtain ⟨hfields, hn⟩ := tableOf_iff.mp ⟨t, h, rfl⟩
  have hall := hfields.spelled hv hy
  exact ⟨⟨hn, fun f hf => (hall f hf).1, fun f hf => (hall f hf).2.1⟩, fun f hf => (hall f hf).2.2⟩

end Tables

section Spelling

variable {f : Form} {e : Expr}

lemma name?_of_ident? (h : ofForm names f = .ok e) {n : Name} (hn : e.ident? = some n) :
    f.name? = some n := by
  cases parses_of_ofForm h with
  | name => exact hn
  | _ => exact absurd hn (by simp [ident?])

lemma takesMember_of_ofForm (h : ofForm names f = .ok e) (ht : f.takesMember = true) :
    e.takesMember = true := by
  cases parses_of_ofForm h with
  | keyword | int | float | str => exact absurd ht (by simp [Form.takesMember])
  | _ => rfl

/-- What is called is not spelled like a special form, or it would be one. -/
lemma text?_of_call (hv : names.Valid) (h : ∀ n ∈ f.name?, SpecialForm.ofName? n = none)
    (he : ofForm names f = .ok e) :
    ∀ n ∈ e.ident?, ∀ f : SpecialForm, names.text? n ≠ some f.keyword := by
  intro n hn g ht
  obtain rfl := hv.text?_inj ht (hv.text?_special g)
  have hnone := h g.name (name?_of_ident? he hn)
  rw [(SpecialForm.ofName?_eq_some_iff g.name g).mpr rfl] at hnone
  exact absurd hnone (by simp)

lemma spells_of_mem {elements : List Form} (hl : ∀ g ∈ elements, g.Legible names) {i : Ident}
    (h : Form.name i.span i.name ∈ elements) : names.Spells Token.IsName i.name := by
  cases hl _ h with
  | name _ hn => exact hn

lemma Heads.spells {elements : List Form} {js : List Ident} (h : Heads elements js)
    (hl : ∀ g ∈ elements, g.Legible names) : ∀ j ∈ js, names.Spells Token.IsName j.name := by
  induction h with
  | nil => simp
  | cons s d i fs _ ih =>
    intro j hj
    obtain rfl | hj := List.mem_cons.mp hj
    · cases hl _ List.mem_cons_self with
      | group _ _ hfs => exact spells_of_mem hfs List.mem_cons_self
    · exact ih (fun g hg => hl g (List.mem_cons_of_mem _ hg)) j hj

lemma ofForms_ne_nil {fs : List Form} {es : List Expr} (hfs : fs ≠ [])
    (h : ofForms names fs = .ok es) : es ≠ [] := by
  cases fs with
  | nil => exact absurd rfl hfs
  | cons f fs =>
    obtain ⟨e, es, -, -, rfl⟩ := ofForms_cons_eq_ok.mp h
    simp

/-- A typed function that is parsed has its parameters where they stand. -/
lemma spelled_typedFunction (hv : names.Valid) {s t ls : Span} {d : Delimiter}
    {elements fs : List Form} {params : List Ident} {table : Properties Expr} {es : List Expr}
    (hp : parameters names (.group ls d elements) elements = .ok (params, true))
    (ht : tableOf names .empty elements = .ok table) (hfs : fs ≠ [])
    (hes : ofForms names fs = .ok es)
    (hl : (Form.group ls d elements).Legible names) (hn : (Form.group ls d elements).Nested)
    (hye : ∀ g ∈ elements, Yields names g) (hy : ∀ g ∈ fs, Yields names g) :
    (function s params (some table) (block t es)).Spelled names := by
  obtain ⟨js, hjs, rfl⟩ := heads_of_parameters hp
  obtain ⟨hkeyed, hvalues⟩ := spelled_table hv ht hye
  have hsub := hjs.sublist (tableOf_iff.mp ⟨table, ht, rfl⟩).1
  cases hl with
  | group _ _ hle =>
    cases hn with
    | group hne _ ho =>
      refine .typedFunction s t (fun i hi => ?_) (fun i hi => ?_) ?_ hkeyed (hsub.filter _) hvalues
        (ofForms_ne_nil hfs hes) (spelled_of_ofForms hy hes)
      · exact hjs.spells hle i (List.mem_filter.mp hi).1
      · simpa using (List.mem_filter.mp hi).2
      · exact (hjs.nodup hne ho).filter _

lemma spelled_of_parses (hv : names.Valid) (hl : f.Legible names) (hn : f.Nested)
    (hy : ∀ g ∈ f.parts, Yields names g) (hyy : ∀ g ∈ f.parts, ∀ k ∈ g.parts, Yields names k)
    (h : Parses names f e) : e.Spelled names := by
  cases h with
  | block s hes => cases hl
  | member s n he =>
    cases hl with
    | member _ i hl ht hw =>
      exact .member s i (hy _ (by simp [Form.parts]) _ he) (takesMember_of_ofForm he ht) hw
  | name s n => cases hl with | name _ hw => exact .ident s hw
  | keyword s n => cases hl with | keyword _ hw => exact .keyword s hw
  | int s v => exact .int s v
  | float s b => cases hl with | float _ hb => exact .float s hb
  | str s n => cases hl with | str _ hw => exact .str s hw
  | curly s hes => exact .recordLiteral s (spelled_of_ofForms hy hes)
  | square s hes => exact .vector s (spelled_of_ofForms hy hes)
  | call s hname he hes =>
    refine .call s (hy _ List.mem_cons_self _ he) (text?_of_call hv hname he) ?_
    exact spelled_of_ofForms (fun g hg => hy g (List.mem_cons_of_mem _ hg)) hes
  | sequence s t hes =>
    exact .block s (spelled_of_ofForms (fun g hg => hy g (List.mem_cons_of_mem _ hg)) hes)
  | @conditional s t f g h a b c ha hb hc =>
    exact .conditional s (hy f (by simp [Form.parts]) a ha) (hy g (by simp [Form.parts]) b hb)
      (hy h (by simp [Form.parts]) c hc)
  | @definition s t f g a b ha hb =>
    exact .definition s (hy f (by simp [Form.parts]) a ha) (hy g (by simp [Form.parts]) b hb)
  | @assignment s t f g a b ha hb =>
    exact .assignment s (hy f (by simp [Form.parts]) a ha) (hy g (by simp [Form.parts]) b hb)
  | declaration s t ht =>
    obtain ⟨hkeyed, hvalues⟩ := spelled_table hv ht fun g hg => hy g (List.mem_cons_of_mem _ hg)
    exact .declaration s hkeyed hvalues
  | @function s t ls b d elements fs params es hp hfs hes =>
    have hrest : ∀ g ∈ fs, Yields names g := fun g hg => hy g (by simp [Form.parts, hg])
    cases hl with
    | group _ _ hl =>
      cases hl (.group ls d elements) (by simp) with
      | group _ _ hle =>
        obtain rfl := elements_of_parameters hp
        exact .function s b (fun i hi => spells_of_mem hle (List.mem_map_of_mem hi))
          (ofForms_ne_nil hfs hes) (spelled_of_ofForms hrest hes)
  | @typedFunction s t ls b d elements fs params table es hp ht hfs hes =>
    have hrest : ∀ g ∈ fs, Yields names g := fun g hg => hy g (by simp [Form.parts, hg])
    cases hl with
    | group _ _ hl =>
      cases hn with
      | group hn _ _ =>
        exact spelled_typedFunction hv hp ht hfs hes (hl _ (by simp)) (hn _ (by simp))
          (hyy (.group ls d elements) (by simp [Form.parts])) hrest
  | @recordType s t u ls n elements fs is table his ht =>
    obtain ⟨hkeyed, hvalues⟩ := spelled_table hv ht fun g hg => hy g (by simp [Form.parts, hg])
    cases hl with
    | group _ _ hl =>
      cases hl (.group ls .paren elements) (by simp) with
      | group _ _ hle =>
        refine .recordType s (spells_of_mem (i := ⟨n, u⟩) hl (by simp)) (fun js hjs i hi => ?_)
          hkeyed hvalues
        obtain rfl := Option.some.inj (Option.mem_def.mp hjs)
        obtain rfl := elements_of_parents his
        exact spells_of_mem hle (List.mem_map_of_mem hi)
  | @recordAlone s t u n fs table ht =>
    obtain ⟨hkeyed, hvalues⟩ := spelled_table hv ht fun g hg => hy g (by simp [Form.parts, hg])
    cases hl with
    | group _ _ hl =>
      exact .recordType s (spells_of_mem (i := ⟨n, u⟩) hl (by simp)) (by simp) hkeyed hvalues

/-- The texts of an expression that is parsed from a legible form, with its parts in order, can be
told apart. -/
theorem yields_of_legible (hv : names.Valid) {f : Form} (hl : f.Legible names) (hn : f.Nested) :
    Yields names f := by
  intro e he
  refine spelled_of_parses hv hl hn (fun g hg => ?_) (fun g hg k hk => ?_) (parses_of_ofForm he)
  · have hlt := Form.sizeOf_lt_of_mem_parts hg
    exact yields_of_legible hv (hl.parts g hg) (hn.parts g hg)
  · -- Parameters and their attributes lie two levels below the function.
    have hlt := Form.sizeOf_lt_of_mem_parts hg
    have hlt' := Form.sizeOf_lt_of_mem_parts hk
    exact yields_of_legible hv ((hl.parts g hg).parts k hk) ((hn.parts g hg).parts k hk)
termination_by sizeOf f

end Spelling

end Expr

end YinFrontEnd
