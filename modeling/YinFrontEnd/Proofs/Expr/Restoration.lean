import YinFrontEnd.Proofs.Expr.Parameters

/-!
# What written expressions are read as

The form that an expression is written as is read as the expression exactly if every special
form in it is full. A declaration without fields, and a record type without parents and fields,
is not read at all, and a parameter table of which nothing is written is lost.
-/
namespace YinFrontEnd

namespace Expr

variable {names : Interner} {g : Form} {gs : List Form} {e : Expr} {es : List Expr}

section Definitions

variable {s s' t t' ls : Span} {ld : Delimiter} {elements others : List Form} {first : Form}

variable {is params : List Ident} {fields : Properties Expr} {list name : Form} {n : Ident}

lemma denotes_function (hp : parameters names (.group ls ld elements) elements = .ok (is, false))
    (hi : is.map Ident.unplaced = params.map Ident.unplaced) :
    Denotes names (.group s .paren (.name t SpecialForm.function.name ::
      .group ls ld elements :: first :: others)) (function s' params none (block t' es)) ↔
      DenotesAll names (first :: others) es := by
  rw [Denotes, ofForm_plainFunction hp]
  constructor
  · rintro ⟨d, hd, he⟩
    obtain ⟨ds, hds, rfl⟩ := map_eq_ok.mp hd
    simp only [unplaced, function.injEq, block.injEq, true_and, unplacedAll_eq_map] at he
    exact ⟨ds, hds, he.2⟩
  · rintro ⟨ds, hds, he⟩
    refine ⟨_, map_eq_ok.mpr ⟨ds, hds, rfl⟩, ?_⟩
    simp only [unplaced, unplacedAll_eq_map, hi, he]

lemma denotes_typedFunction
    (hp : parameters names (.group ls ld elements) elements = .ok (is, true))
    (hi : is.map Ident.unplaced = params.map Ident.unplaced) :
    Denotes names (.group s .paren (.name t SpecialForm.function.name ::
      .group ls ld elements :: first :: others)) (function s' params (some fields) (block t' es)) ↔
      DenotesTable names elements fields.entries ∧ DenotesAll names (first :: others) es := by
  obtain ⟨entries, index⟩ := fields
  rw [Denotes, ofForm_typedFunction hp]
  constructor
  · rintro ⟨d, hd, he⟩
    obtain ⟨⟨entries', index'⟩, hentries, hd⟩ := bind_eq_ok.mp hd
    obtain ⟨ds, hds, rfl⟩ := map_eq_ok.mp hd
    simp only [unplaced, function.injEq, block.injEq, true_and, unplacedAll_eq_map,
      Option.some.injEq, Properties.mk.injEq, and_true] at he
    exact ⟨⟨_, hentries, he.2.1⟩, ⟨ds, hds, he.2.2⟩⟩
  · rintro ⟨⟨⟨entries', index'⟩, htable, hfields⟩, ⟨ds, hds, he⟩⟩
    refine ⟨_, bind_eq_ok.mpr ⟨_, htable, map_eq_ok.mpr ⟨ds, hds, rfl⟩⟩, ?_⟩
    simp only at hfields
    simp only [unplaced, unplacedAll_eq_map, hi, he, hfields]

/-- A parameter list of which nothing is left is read as one without a table. -/
lemma not_denotes_function {e : Expr}
    (hp : parameters names (.group ls ld elements) elements = .ok (is, false)) :
    ¬ Denotes names (.group s .paren (.name t SpecialForm.function.name ::
      .group ls ld elements :: first :: others)) (function s' params (some fields) e) := by
  obtain ⟨entries, index⟩ := fields
  rw [Denotes, ofForm_plainFunction hp]
  rintro ⟨d, hd, he⟩
  obtain ⟨ds, hds, rfl⟩ := map_eq_ok.mp hd
  simp [unplaced] at he

lemma denotes_declaration :
    Denotes names (.group s .paren (.name t SpecialForm.declaration.name :: first :: others))
      (declaration s' fields) ↔ DenotesTable names (first :: others) fields.entries := by
  refine denotes_table rfl fun t => ?_
  simp [unplaced]

lemma denotes_recordType (hp : parents names elements = .ok is)
    (hi : is.map Ident.unplaced = params.map Ident.unplaced) :
    Denotes names (.group s .paren (.name t SpecialForm.record.name :: .name t' n.name ::
      .group ls .paren elements :: others)) (recordType s' n (some params) fields) ↔
      DenotesTable names others fields.entries := by
  refine denotes_table (ofForm_derivedRecord hp) fun t => ?_
  simp [unplaced, Ident.unplaced, hi]

lemma denotes_recordType_alone :
    Denotes names (.group s .paren (.name t SpecialForm.record.name :: .name t' n.name ::
      .group ls .square elements :: others)) (recordType s' n none fields) ↔
      DenotesTable names (.group ls .square elements :: others) fields.entries := by
  refine denotes_table (ofForm_recordAlone rfl) fun t => ?_
  simp [unplaced, Ident.unplaced]

end Definitions

lemma specialForm_of_unplaced {f : SpecialForm} {operands : List Form}
    (h : g.unplaced = (specialForm f operands).unplaced) :
    ∃ s t gs, g = .group s .paren (.name t f.name :: gs) ∧
      gs.map Form.unplaced = operands.map Form.unplaced := by
  obtain ⟨s, _, rfl, hgs⟩ := Form.group_of_unplaced h
  obtain ⟨_, gs, rfl, hname, htail⟩ := List.map_eq_cons_iff.mp hgs
  obtain ⟨t, rfl⟩ := Form.name_of_unplaced hname
  exact ⟨s, t, gs, rfl, htail⟩

lemma pair_of_unplaced {f : SpecialForm} {x y : Form}
    (h : g.unplaced = (specialForm f [x, y]).unplaced) :
    ∃ s t a b, g = .group s .paren [.name t f.name, a, b] ∧ a.unplaced = x.unplaced ∧
      b.unplaced = y.unplaced := by
  obtain ⟨s, t, gs, rfl, hgs⟩ := specialForm_of_unplaced h
  obtain ⟨a, _, rfl, ha, hgs⟩ := List.map_eq_cons_iff.mp hgs
  obtain ⟨b, _, rfl, hb, hgs⟩ := List.map_eq_cons_iff.mp hgs
  obtain rfl := List.map_eq_nil_iff.mp hgs
  exact ⟨s, t, a, b, rfl, ha, hb⟩

lemma triple_of_unplaced {f : SpecialForm} {x y z : Form}
    (h : g.unplaced = (specialForm f [x, y, z]).unplaced) :
    ∃ s t a b c, g = .group s .paren [.name t f.name, a, b, c] ∧ a.unplaced = x.unplaced ∧
      b.unplaced = y.unplaced ∧ c.unplaced = z.unplaced := by
  obtain ⟨s, t, gs, rfl, hgs⟩ := specialForm_of_unplaced h
  obtain ⟨a, _, rfl, ha, hgs⟩ := List.map_eq_cons_iff.mp hgs
  obtain ⟨b, _, rfl, hb, hgs⟩ := List.map_eq_cons_iff.mp hgs
  obtain ⟨c, _, rfl, hc, hgs⟩ := List.map_eq_cons_iff.mp hgs
  obtain rfl := List.map_eq_nil_iff.mp hgs
  exact ⟨s, t, a, b, c, rfl, ha, hb, hc⟩

/-- What a function is written as has its parameters in parentheses, and its body behind them. -/
lemma function_of_unplaced {ls' : Span} {list body : List Form} (hbody : body ≠ [])
    (h : g.unplaced = (specialForm .function (.group ls' .paren list :: body)).unplaced) :
    ∃ s t ls elements first others, g = .group s .paren (.name t SpecialForm.function.name ::
        .group ls .paren elements :: first :: others) ∧
      elements.map Form.unplaced = list.map Form.unplaced ∧
      (first :: others).map Form.unplaced = body.map Form.unplaced := by
  obtain ⟨s, t, _, rfl, hgs⟩ := specialForm_of_unplaced h
  obtain ⟨_, gs, rfl, hlist, hrest⟩ := List.map_eq_cons_iff.mp hgs
  obtain ⟨ls, elements, rfl, hel⟩ := Form.group_of_unplaced hlist
  cases gs with
  | nil => exact absurd (List.map_eq_nil_iff.mp hrest.symm) hbody
  | cons first others => exact ⟨s, t, ls, elements, first, others, rfl, hel, hrest⟩

lemma record_of_unplaced {n : Name} {operands : List Form}
    (h : g.unplaced = (specialForm .record (.name .dummy n :: operands)).unplaced) :
    ∃ s t u gs, g = .group s .paren (.name t SpecialForm.record.name :: .name u n :: gs) ∧
      gs.map Form.unplaced = operands.map Form.unplaced := by
  obtain ⟨s, t, _, rfl, hgs⟩ := specialForm_of_unplaced h
  obtain ⟨_, gs, rfl, hname, hrest⟩ := List.map_eq_cons_iff.mp hgs
  obtain ⟨u, rfl⟩ := Form.name_of_unplaced hname
  exact ⟨s, t, u, gs, rfl, hrest⟩

section Restored

variable {fields : Properties Expr} {params : List Ident} {s t : Span}

lemma restored_function (ih : ∀ e ∈ es, Restored names e) (hes : es ≠ []) :
    Restored names (function s params none (block t es)) := by
  intro g hg
  obtain ⟨s', t', ls, elements, first, others, rfl, hel, hbody⟩ :=
    function_of_unplaced (by simpa [formAll_eq_map] using hes) hg
  obtain ⟨is, hp, hi⟩ := parameters_names names (.group ls .paren elements) hel
  rw [denotes_function hp hi, denotesAll_iff ih hbody]
  rfl

lemma restored_typedFunction (hv : names.Valid) (ha : ∀ i ∈ params, i.name ≠ .returnArrow)
    (hn : params.Nodup) (hk : fields.Keyed names)
    (hs : ((fields.entries.map Prod.fst).filter (·.name ≠ .returnArrow)).Sublist params)
    (ihf : ∀ f ∈ fields.entries, ∀ a ∈ f.2.entries, Restored names a.2) (hes : es ≠ [])
    (ih : ∀ e ∈ es, Restored names e) :
    Restored names (function s params (some fields) (block t es)) := by
  obtain ⟨entries, index⟩ := fields
  intro g hg
  obtain ⟨s', t', ls, elements, first, others, rfl, hel, hbody⟩ :=
    function_of_unplaced (by simpa [formAll_eq_map] using hes) hg
  rw [paramForms_eq_map] at hel
  obtain ⟨is, hp, hi⟩ := parameters_groups (.group ls .paren elements) hel
  have ho : Ordered params entries := ⟨hn, hs⟩
  rw [ho.params_alignParams ha] at hi
  have hall := denotesAll_iff ih hbody
  have hfull : (function s params (some ⟨entries, index⟩) (block t es)).isFull = true ↔
      (alignParams params entries).isEmpty = false ∧ isFullFields entries = true ∧
        isFullAll es = true := by
    rw [ho.isEmpty_alignParams ha, ← Bool.not_eq_true', ← Bool.and_eq_true, ← Bool.and_eq_true, ← Bool.and_assoc]
    rfl
  rw [hfull]
  cases hq : (alignParams params entries).isEmpty with
  | true =>
    rw [hq] at hp
    exact ⟨fun h => absurd h (not_denotes_function hp), fun h => absurd h.1 (by simp)⟩
  | false =>
    rw [hq] at hp
    have htable := denotesTable_iff hv hk ihf (entriesOf_alignParams params entries) hel
    rw [denotes_typedFunction hp hi, hall, htable]
    simp

lemma restored_declaration (hv : names.Valid) (hk : fields.Keyed names)
    (ih : ∀ f ∈ fields.entries, ∀ a ∈ f.2.entries, Restored names a.2) :
    Restored names (declaration s fields) := by
  obtain ⟨entries, index⟩ := fields
  intro g hg
  obtain ⟨s', t', gs, rfl, hgs⟩ := specialForm_of_unplaced hg
  cases entries with
  | nil =>
    obtain rfl : gs = [] := by simpa [formFields] using hgs
    constructor
    · rintro ⟨d, hd, -⟩
      exact absurd (show Except.error _ = Except.ok d from hd) (by simp)
    · intro h
      exact absurd h (by simp [isFull])
  | cons f entries =>
    have htable := denotesTable_fields hv hk ih hgs
    obtain ⟨first, others, rfl, -, -⟩ := List.map_eq_cons_iff.mp hgs
    rw [denotes_declaration, htable]
    rfl

lemma restored_recordType (hv : names.Valid) {n : Ident} {parents : Option (List Ident)}
    (hk : fields.Keyed names)
    (ih : ∀ f ∈ fields.entries, ∀ a ∈ f.2.entries, Restored names a.2) :
    Restored names (recordType s n parents fields) := by
  obtain ⟨entries, index⟩ := fields
  intro g hg
  obtain ⟨s', t', u, gs, rfl, hrest⟩ := record_of_unplaced hg
  cases parents with
  | some is =>
    obtain ⟨_, gs, rfl, hlist, hfields⟩ := List.map_eq_cons_iff.mp hrest
    obtain ⟨ls, elements, rfl, hel⟩ := Form.group_of_unplaced hlist
    obtain ⟨is', hp, hi⟩ := parents_names names hel
    rw [denotes_recordType hp hi, denotesTable_fields hv hk ih hfields]
    simp [isFull]
  | none =>
    cases entries with
    | nil =>
      obtain rfl : gs = [] := by simpa [formFields] using hrest
      constructor
      · rintro ⟨d, hd, -⟩
        exact absurd (show Except.error _ = Except.ok d from hd) (by simp)
      · intro h
        exact absurd h (by simp [isFull])
    | cons f entries =>
      have htable := denotesTable_fields hv hk ih hrest
      obtain ⟨_, others, rfl, hfirst, -⟩ := List.map_eq_cons_iff.mp hrest
      obtain ⟨ls, elements, rfl, -⟩ := Form.group_of_unplaced hfirst
      rw [denotes_recordType_alone, htable]
      rfl

lemma Spelled.ident?_of_form (h : e.Spelled names) {n : Name} (hn : (form names e).name? = some n) :
    e.ident? = some n := by
  cases h with
  | ident s _ => exact hn
  | _ => exact absurd hn (by simp [form, specialForm, Form.name?])

lemma ofName?_eq_none (hv : names.Valid) {n : Name}
    (h : ∀ f : SpecialForm, names.text? n ≠ some f.keyword) : SpecialForm.ofName? n = none := by
  by_contra hne
  obtain ⟨f, hf⟩ := Option.ne_none_iff_exists'.mp hne
  rw [SpecialForm.ofName?_eq_some_iff] at hf
  exact h f (hf ▸ hv.text?_special f)

/-- What a call is written as is not headed by the word of a special form. -/
lemma Spelled.call_of_unplaced (hv : names.Valid) (he : e.Spelled names)
    (hh : ∀ n ∈ e.ident?, ∀ f : SpecialForm, names.text? n ≠ some f.keyword)
    (h : g.unplaced = (form names (.call s e es)).unplaced) :
    ∃ t head gs, g = .group t .paren (head :: gs) ∧ head.unplaced = (form names e).unplaced ∧
      gs.map Form.unplaced = (formAll names es).map Form.unplaced ∧
      ∀ n ∈ head.name?, SpecialForm.ofName? n = none := by
  obtain ⟨t, _, rfl, hgs⟩ := Form.group_of_unplaced h
  obtain ⟨head, gs, rfl, hhead, htail⟩ := List.map_eq_cons_iff.mp hgs
  refine ⟨t, head, gs, rfl, hhead, htail, fun n hn => ?_⟩
  rw [← Form.name?_unplaced, hhead, Form.name?_unplaced] at hn
  exact ofName?_eq_none hv (hh n (he.ident?_of_form hn))

/-- An expression whose texts can be told apart is read as it is written if it is full, and only
then. -/
theorem Spelled.restored (hv : names.Valid) (h : e.Spelled names) : Restored names e := by
  induction h with
  | block s _ ih =>
    intro g hg
    obtain ⟨s', t', gs, rfl, hgs⟩ := specialForm_of_unplaced hg
    rw [denotes_sequence, denotesAll_iff ih hgs]
    rfl
  | conditional s _ _ _ iha ihb ihc =>
    intro g hg
    obtain ⟨s', t', a, b, c, rfl, ha, hb, hc⟩ := triple_of_unplaced hg
    rw [denotes_conditional, iha a ha, ihb b hb, ihc c hc, isFull, Bool.and_eq_true,
      Bool.and_eq_true, and_assoc]
  | definition s _ _ iha ihb =>
    intro g hg
    obtain ⟨s', t', a, b, rfl, ha, hb⟩ := pair_of_unplaced hg
    rw [denotes_definition, iha a ha, ihb b hb, isFull, Bool.and_eq_true]
  | assignment s _ _ iha ihb =>
    intro g hg
    obtain ⟨s', t', a, b, rfl, ha, hb⟩ := pair_of_unplaced hg
    rw [denotes_assignment, iha a ha, ihb b hb, isFull, Bool.and_eq_true]
  | declaration s hk _ ih => exact restored_declaration hv hk ih
  | function s t _ hes _ ih => exact restored_function ih hes
  | typedFunction s t _ ha hn hk hs _ hes _ ihf ih =>
    exact restored_typedFunction hv ha hn hk hs ihf hes ih
  | recordType s _ _ hk _ ih => exact restored_recordType hv hk ih
  | recordLiteral s _ ih =>
    intro g hg
    obtain ⟨s', gs, rfl, hgs⟩ := Form.group_of_unplaced hg
    rw [denotes_curly, denotesAll_iff ih hgs]
    rfl
  | vector s _ ih =>
    intro g hg
    obtain ⟨s', gs, rfl, hgs⟩ := Form.group_of_unplaced hg
    rw [denotes_square, denotesAll_iff ih hgs]
    rfl
  | @call s e es he hh _ ih ihs =>
    intro g hg
    obtain ⟨s', head, gs, rfl, hhead, htail, hname⟩ := he.call_of_unplaced hv hh hg
    rw [denotes_call hname, ih head hhead, denotesAll_iff ihs htail, isFull, Bool.and_eq_true]
  | member s i _ _ _ ih =>
    intro g hg
    obtain ⟨s', i', v, rfl, hvalue⟩ := Form.member_of_unplaced hg
    rw [denotes_member, ih v hvalue]
    rfl
  | ident s _ => exact restored_ident _ _
  | keyword s _ => exact restored_keyword _ _
  | int s v =>
    intro g hg
    obtain ⟨t, rfl⟩ := Form.int_of_unplaced hg
    exact ⟨fun _ => rfl, fun _ => ⟨_, rfl, rfl⟩⟩
  | float s _ =>
    intro g hg
    obtain ⟨t, rfl⟩ := Form.float_of_unplaced hg
    exact ⟨fun _ => rfl, fun _ => ⟨_, rfl, rfl⟩⟩
  | str s _ =>
    intro g hg
    obtain ⟨t, rfl⟩ := Form.str_of_unplaced hg
    exact ⟨fun _ => rfl, fun _ => ⟨_, rfl, rfl⟩⟩

end Restored

end Expr

end YinFrontEnd
