import YinFrontEnd.Proofs.Expr.Contents

/-!
# Which error comes first

Where more than one thing is wrong, parsing reports the one that it meets first. Parameters and
fields are looked at in the order in which they are written. What is looked for in a field comes in
a fixed order too, and each condition below excludes those above it: a field has one error at most.
-/
namespace YinFrontEnd

section Outcomes

variable {ε α β : Type} {err : ε}

/-- The error is that of the first element that is refused. -/
def FirstError (m : α → Except ε β) (xs : List α) (err : ε) : Prop :=
  ∃ before x after, xs = before ++ x :: after ∧ (∀ y ∈ before, ∃ b, m y = .ok b) ∧
    m x = .error err

variable {m : α → Except ε β} {x : α} {xs : List α}

lemma not_firstError_nil : ¬ FirstError m [] err := by
  rintro ⟨before, x, after, h, -⟩
  exact absurd h (by simp)

lemma firstError_cons : FirstError m (x :: xs) err ↔
    m x = .error err ∨ (∃ b, m x = .ok b) ∧ FirstError m xs err := by
  constructor
  · rintro ⟨before, y, after, h, hbefore, hy⟩
    cases before with
    | nil =>
      obtain ⟨rfl, -⟩ := List.cons.inj h
      exact .inl hy
    | cons z before =>
      obtain ⟨rfl, rfl⟩ := List.cons.inj h
      obtain ⟨hz, hbefore⟩ := List.forall_mem_cons.mp hbefore
      exact .inr ⟨hz, before, y, after, rfl, hbefore, hy⟩
  · rintro (hx | ⟨hx, before, y, after, rfl, hbefore, hy⟩)
    · exact ⟨[], x, xs, rfl, by simp, hx⟩
    · exact ⟨x :: before, y, after, rfl, List.forall_mem_cons.mpr ⟨hx, hbefore⟩, hy⟩

lemma FirstError.exists_mem (h : FirstError m xs err) : ∃ x ∈ xs, m x = .error err := by
  obtain ⟨before, x, after, rfl, -, hx⟩ := h
  exact ⟨x, by simp, hx⟩

/-- A list is refused for the first of its elements that is. -/
lemma mapM_eq_error_iff : xs.mapM m = .error err ↔ FirstError m xs err := by
  induction xs with
  | nil =>
    refine ⟨fun h => absurd h ?_, fun h => absurd h not_firstError_nil⟩
    simp [pure, Except.pure]
  | cons x xs ih =>
    rw [List.mapM_cons, bind_eq_error_iff, firstError_cons]
    refine or_congr_right ?_
    constructor
    · rintro ⟨b, hb, h⟩
      obtain h | ⟨_, -, h⟩ := bind_eq_error_iff.mp h
      · exact ⟨⟨b, hb⟩, ih.mp h⟩
      · exact absurd h (by simp [pure, Except.pure])
    · rintro ⟨⟨b, hb⟩, h⟩
      exact ⟨b, hb, bind_eq_error_iff.mpr (.inl (ih.mpr h))⟩

end Outcomes

/-- A name, or a group that begins with one. -/
def Form.IsParameter (p : Form) : Prop := p.name?.isSome = true ∨ p.IsTypedParameter

namespace Expr

/-- The error for which a form is not taken as a parameter. -/
inductive ParameterError (names : Interner) : Form → ParseError → Prop
  | emptyParameter (s : Span) (d : Delimiter) : ParameterError names (.group s d [])
      (FormFault.error (.emptyParameter ((Form.group s d []).write names)) s)
  | illegalParameter {p : Form} : p.name? = none → p.group? = none →
      ParameterError names p (FormFault.error (.illegalParameter (p.write names)) p.span)
  | illegalParameterName (s : Span) (d : Delimiter) {first : Form} {rest : List Form} :
      first.name? = none → ParameterError names (.group s d (first :: rest))
        (FormFault.error (.illegalParameterName (first.write names)) first.span)

/-- The form is the first of those in the places of keys that is no keyword. -/
inductive FirstNonKeyword : List Form → Form → Prop
  | here {key : Form} (v : Form) (fs : List Form) : (∀ s k, key ≠ .keyword s k) →
      FirstNonKeyword (key :: v :: fs) key
  | later (s : Span) (k : Name) (v : Form) {key : Form} {fs : List Form} :
      FirstNonKeyword fs key → FirstNonKeyword (.keyword s k :: v :: fs) key

/-- The error for which a group is not taken as a field, where the names in `taken` are those of
the fields before it: that of an element, or else of the first rule of a field that is broken. -/
inductive FieldError (names : Interner) (taken : List Name) (s : Span) :
    List Form → ParseError → Prop
  | element {es : List Form} {err : ParseError} : FirstError (ofForm names) es err →
      FieldError names taken s es err
  | emptySlot {es : List Form} : (∀ f ∈ es, Accepted names f) → es.length < 2 →
      FieldError names taken s es (FormFault.error .emptySlot s)
  | fieldNotName {f type : Form} {rest : List Form} {d : Expr} : ofForm names f = .ok d →
      (∀ g ∈ type :: rest, Accepted names g) → f.name? = none →
      FieldError names taken s (f :: type :: rest)
        (FormFault.error (.fieldNotName (d.write names)) f.span)
  | duplicateField (t : Span) {n : Name} {type : Form} {rest : List Form} :
      (∀ g ∈ type :: rest, Accepted names g) → n ∈ taken →
      FieldError names taken s (.name t n :: type :: rest)
        (FormFault.error (.duplicateField (names.text n)) t)
  | oddKeywordMap (t : Span) {n : Name} {type : Form} {rest : List Form} {ds : List Expr} :
      Accepted names type → ofForms names rest = .ok ds → n ∉ taken → rest.length % 2 = 1 →
      FieldError names taken s (.name t n :: type :: rest) (FormFault.error
        (.oddKeywordMap (String.ofList (Text.bracketed '(' ')' (ds.map (chars names))))) s)
  | keyNotKeyword (t : Span) {n : Name} {type key : Form} {rest : List Form} {d : Expr} :
      (∀ g ∈ type :: rest, Accepted names g) → n ∉ taken → rest.length % 2 = 0 →
      FirstNonKeyword rest key → ofForm names key = .ok d →
      FieldError names taken s (.name t n :: type :: rest)
        (FormFault.error (.keyNotKeyword (d.write names)) key.span)

variable {names : Interner} {fs gs es : List Form} {ds : List Expr} {s : Span}
  {t u : Properties Expr} {err : ParseError}

section Parameters

variable {list p : Form} {elements : List Form}

lemma parameter_eq_error_iff : parameter names p = .error err ↔ ParameterError names p err := by
  constructor
  · intro h
    cases p with
    | name s n => exact absurd h (by simp [parameter])
    | group s d es =>
      cases es with
      | nil =>
        obtain rfl := Except.error.inj h
        exact .emptyParameter s d
      | cons first es =>
        cases first with
        | name s n => exact absurd h (by simp [parameter, Form.ident?])
        | _ =>
          obtain rfl := Except.error.inj h
          exact .illegalParameterName s d rfl
    | _ =>
      obtain rfl := Except.error.inj h
      exact .illegalParameter rfl rfl
  · intro h
    cases h with
    | emptyParameter s d => rfl
    | illegalParameter hname hgroup =>
      cases p with
      | name s n => exact absurd hname (by simp [Form.name?])
      | group s d es => exact absurd hgroup (by simp [Form.group?])
      | _ => rfl
    | @illegalParameterName s d first rest hname =>
      cases first with
      | name s n => exact absurd hname (by simp [Form.name?])
      | _ => rfl

lemma exists_parameter_iff : (∃ r, parameter names p = .ok r) ↔ p.IsParameter := by
  constructor
  · rintro ⟨⟨o, typed⟩, h⟩
    cases typed with
    | false => exact .inl (name?_isSome_of_parameter h)
    | true => exact .inr (isTypedParameter_of_parameter h)
  · rintro (h | h)
    · obtain ⟨o, h⟩ := exists_parameter_of_name h
      exact ⟨_, h⟩
    · obtain ⟨o, h⟩ := exists_parameter_of_typed h
      exact ⟨_, h⟩

lemma exists_parameters_iff (names : Interner) (elements : List Form) :
    (∃ ps, elements.mapM (parameter names) = .ok ps) ↔ ∀ p ∈ elements, p.IsParameter := by
  simp only [exists_mapM_iff, exists_parameter_iff]

/-- Some of the parameters are groups, and some are names. -/
lemma mixed_iff {ps : List (Option Ident × Bool)} (h : elements.mapM (parameter names) = .ok ps) :
    (ps.any (·.2) && ps.any (!·.2)) = true ↔
      (∃ p ∈ elements, p.name?.isSome = true) ∧ ∃ q ∈ elements, q.IsTypedParameter := by
  rw [Bool.and_eq_true, List.any_eq_true, List.any_eq_true, and_comm]
  refine and_congr ⟨?_, ?_⟩ ⟨?_, ?_⟩
  · rintro ⟨⟨o, typed⟩, hr, htyped⟩
    obtain rfl : typed = false := by simpa using htyped
    obtain ⟨p, hp, hpr⟩ := mem_of_mapM_eq_ok h _ hr
    exact ⟨p, hp, name?_isSome_of_parameter hpr⟩
  · rintro ⟨p, hp, hname⟩
    obtain ⟨o, ho⟩ : ∃ o, parameter names p = .ok (o, false) := exists_parameter_of_name hname
    obtain ⟨r, hr, hpr⟩ := exists_of_mapM_eq_ok h p hp
    obtain rfl := Except.ok.inj (hpr.symm.trans ho)
    exact ⟨_, hr, rfl⟩
  · rintro ⟨⟨o, typed⟩, hr, htyped⟩
    obtain rfl : typed = true := htyped
    obtain ⟨q, hq, hqr⟩ := mem_of_mapM_eq_ok h _ hr
    exact ⟨q, hq, isTypedParameter_of_parameter hqr⟩
  · rintro ⟨q, hq, htyped⟩
    obtain ⟨o, ho⟩ : ∃ o, parameter names q = .ok (o, true) := exists_parameter_of_typed htyped
    obtain ⟨r, hr, hqr⟩ := exists_of_mapM_eq_ok h q hq
    obtain rfl := Except.ok.inj (hqr.symm.trans ho)
    exact ⟨_, hr, rfl⟩

/-- A list of parameters is refused for the first form that is no parameter, or else for having
parameters of both kinds. -/
lemma parameters_eq_error_iff : parameters names list elements = .error err ↔
    FirstError (parameter names) elements err ∨ (∀ p ∈ elements, p.IsParameter) ∧
      ((∃ p ∈ elements, p.name?.isSome = true) ∧ ∃ q ∈ elements, q.IsTypedParameter) ∧
        err = FormFault.error (.mixedParameters (list.write names)) list.span := by
  rw [← mapM_eq_error_iff, ← exists_parameters_iff names, parameters]
  cases hps : elements.mapM (parameter names) with
  | error e => simp
  | ok ps =>
    rw [← mixed_iff hps]
    by_cases hmixed : (ps.any (·.2) && ps.any (!·.2)) = true
    · simp only [if_pos hmixed]
      constructor
      · intro h
        exact .inr ⟨⟨ps, rfl⟩, hmixed, (Except.error.inj h).symm⟩
      · rintro (h | ⟨-, -, rfl⟩)
        · exact absurd h (by simp)
        · rfl
    · simp [hmixed]

end Parameters

section Tables

lemma ofForms_eq_error_iff : ofForms names fs = .error err ↔ FirstError (ofForm names) fs err := by
  rw [ofForms_eq_mapM, mapM_eq_error_iff]

/-- Keys and values are refused for the first key that is no keyword. -/
lemma ofPairs_eq_error_iff (a : Attributes Expr)
    (hes : List.Forall₂ (fun f e => ofForm names f = .ok e) fs ds) :
    Attributes.ofPairs names a ds = .error err ↔ ∃ key d, FirstNonKeyword fs key ∧
      ofForm names key = .ok d ∧
        err = FormFault.error (.keyNotKeyword (d.write names)) key.span := by
  fun_induction Attributes.ofPairs names a ds generalizing fs with
  | case1 a key value ds k hk ih =>
    obtain ⟨f, tail, hf, htail, rfl⟩ := List.forall₂_cons_right_iff.mp hes
    obtain ⟨g, fs, -, hfs, rfl⟩ := List.forall₂_cons_right_iff.mp htail
    obtain ⟨r, rfl⟩ := Attributes.exists_of_keyword? hk
    obtain rfl := form_of_keyword hf
    rw [ih hfs]
    refine exists₂_congr fun key d => and_congr_left' ⟨.later r k g, ?_⟩
    intro h
    cases h with
    | here _ _ hkey => exact absurd rfl (hkey r k)
    | later _ _ _ h => exact h
  | case2 a key value ds hk =>
    obtain ⟨f, tail, hf, htail, rfl⟩ := List.forall₂_cons_right_iff.mp hes
    obtain ⟨g, fs, -, hfs, rfl⟩ := List.forall₂_cons_right_iff.mp htail
    have hkey := (keyword?_of_ofForm hf).mp hk
    rw [span_of_ofForm hf]
    constructor
    · intro h
      exact ⟨f, key, .here g fs hkey, hf, (Except.error.inj h).symm⟩
    · rintro ⟨f', d, h, hd, rfl⟩
      cases h with
      | here _ _ _ =>
        obtain rfl := Except.ok.inj (hf.symm.trans hd)
        rfl
      | later r k _ _ => exact absurd rfl (hkey r k)
  | case3 a ds hshort =>
    refine ⟨fun h => absurd h (by simp), ?_⟩
    rintro ⟨key, d, h, -, -⟩
    cases h <;>
    · obtain ⟨k, tail, -, htail, rfl⟩ := List.forall₂_cons_left_iff.mp hes
      obtain ⟨v, ds, -, -, rfl⟩ := List.forall₂_cons_left_iff.mp htail
      exact absurd rfl (hshort k v ds)

lemma addField_unnamed {d dt : Expr} (hd : d.ident? = none) :
    t.addField names s (d :: dt :: ds) =
      .error (FormFault.error (.fieldNotName (d.write names)) d.span) := by
  simp only [Properties.addField, hd]

lemma addField_known (ht : t.Indexed) {r : Span} {n : Name} {dt : Expr} (hn : n ∈ t.names) :
    t.addField names s (ident r n :: dt :: ds) =
      .error (FormFault.error (.duplicateField (names.text n)) r) := by
  simp only [Properties.addField, ident?, if_pos ((ht.contains_iff n).mpr hn), span]

lemma addField_new (ht : t.Indexed) {r : Span} {n : Name} {dt : Expr} (hn : n ∉ t.names) :
    t.addField names s (ident r n :: dt :: ds) = (Attributes.ofKeywordMap names ds s).map fun a =>
      t.extend ⟨n, r⟩ ((Attributes.empty.insert .typeKey dt).merge a) := by
  simp only [Properties.addField, ident?, if_neg (mt (ht.contains_iff n).mp hn), span]

/-- A group whose elements are parsed is refused for the first rule of a field that it breaks. -/
lemma fieldError_of_addField (ht : t.Indexed)
    (hes : List.Forall₂ (fun f e => ofForm names f = .ok e) es ds)
    (h : t.addField names s ds = .error err) : FieldError names t.names s es err := by
  have hall : ∀ f ∈ es, Accepted names f := accepted_ofForms_iff.mp ⟨ds, ofForms_eq_ok_iff.mpr hes⟩
  cases hes with
  | nil =>
    obtain rfl := Except.error.inj h
    exact .emptySlot hall (by simp)
  | @cons f d es ds hf hes =>
    cases hes with
    | nil =>
      obtain rfl := Except.error.inj h
      exact .emptySlot hall (by simp)
    | @cons type dt rest ds htype hrest =>
      obtain ⟨-, hothers⟩ := List.forall_mem_cons.mp hall
      cases hd : d.ident? with
      | none =>
        rw [addField_unnamed hd, span_of_ofForm hf] at h
        obtain rfl := Except.error.inj h
        exact .fieldNotName hf hothers ((ident?_of_ofForm hf).symm.trans hd)
      | some n =>
        obtain ⟨r, rfl⟩ : ∃ r, d = ident r n := by
          cases d <;> simp_all [ident?]
        obtain rfl := form_of_ident hf
        by_cases hn : n ∈ t.names
        · rw [addField_known ht hn] at h
          obtain rfl := Except.error.inj h
          exact .duplicateField r hothers hn
        · rw [addField_new ht hn, map_eq_error_iff, Attributes.ofKeywordMap] at h
          split at h
          · rename_i heven
            obtain ⟨key, d, hkey, hd, rfl⟩ := (ofPairs_eq_error_iff _ hrest).mp h
            exact .keyNotKeyword r hothers hn (hrest.length_eq ▸ heven) hkey hd
          · rename_i hodd
            obtain rfl := Except.error.inj h
            exact .oddKeywordMap r ⟨dt, htype⟩ (ofForms_eq_ok_iff.mpr hrest) hn
              (by rw [hrest.length_eq]; omega)

lemma ofForms_name_cons {r : Span} {n : Name} {type : Form}
    (h : ∀ g ∈ type :: es, Accepted names g) :
    ∃ dt ds, ofForms names (.name r n :: type :: es) = .ok (ident r n :: dt :: ds) ∧
      List.Forall₂ (fun f e => ofForm names f = .ok e) es ds := by
  obtain ⟨es, hes⟩ := accepted_ofForms_iff.mpr h
  obtain ⟨dt, ds, -, hds, rfl⟩ := ofForms_cons_eq_ok.mp hes
  exact ⟨dt, ds, ofForms_cons_eq_ok.mpr ⟨_, _, rfl, hes, rfl⟩, ofForms_eq_ok_iff.mp hds⟩

/-- A group is refused for the first element that is, or for the first rule that it breaks. -/
lemma field_eq_error_iff (ht : t.Indexed) :
    (ofForms names es >>= t.addField names s) = .error err ↔ FieldError names t.names s es err := by
  constructor
  · intro h
    obtain h | ⟨ds, hds, h⟩ := bind_eq_error_iff.mp h
    · exact .element (ofForms_eq_error_iff.mp h)
    · exact fieldError_of_addField ht (ofForms_eq_ok_iff.mp hds) h
  · intro h
    cases h with
    | element h => exact bind_eq_error_iff.mpr (.inl (ofForms_eq_error_iff.mpr h))
    | emptySlot hall hlt =>
      obtain ⟨ds, hds⟩ := accepted_ofForms_iff.mpr hall
      refine bind_eq_error_iff.mpr (.inr ⟨ds, hds, ?_⟩)
      rw [(ofForms_eq_ok_iff.mp hds).length_eq] at hlt
      match ds with
      | [] | [_] => rfl
    | @fieldNotName f type rest d hd hothers hf =>
      obtain ⟨ds, hds⟩ := accepted_ofForms_iff.mpr hothers
      obtain ⟨dt, ds, -, -, rfl⟩ := ofForms_cons_eq_ok.mp hds
      have hall := ofForms_cons_eq_ok.mpr ⟨_, _, hd, hds, rfl⟩
      refine bind_eq_error_iff.mpr (.inr ⟨_, hall, ?_⟩)
      rw [addField_unnamed ((ident?_of_ofForm hd).trans hf), span_of_ofForm hd]
    | duplicateField r hothers hn =>
      obtain ⟨dt, ds, hds, -⟩ := ofForms_name_cons (r := r) hothers
      exact bind_eq_error_iff.mpr (.inr ⟨_, hds, addField_known ht hn⟩)
    | @oddKeywordMap r n type rest ds htype hrest hn hodd =>
      obtain ⟨dt, htype⟩ := htype
      have hall : ofForms names (.name r n :: type :: rest) = .ok (ident r n :: dt :: ds) :=
        ofForms_cons_eq_ok.mpr
          ⟨_, _, rfl, ofForms_cons_eq_ok.mpr ⟨_, _, htype, hrest, rfl⟩, rfl⟩
      refine bind_eq_error_iff.mpr (.inr ⟨_, hall, ?_⟩)
      rw [(ofForms_eq_ok_iff.mp hrest).length_eq] at hodd
      rw [addField_new ht hn, Attributes.ofKeywordMap, if_neg (by omega)]
      rfl
    | @keyNotKeyword r n type key rest d hothers hn heven hkey hd =>
      obtain ⟨dt, ds, hds, hrest⟩ := ofForms_name_cons (r := r) (n := n) hothers
      refine bind_eq_error_iff.mpr (.inr ⟨_, hds, ?_⟩)
      rw [hrest.length_eq] at heven
      rw [addField_new ht hn, map_eq_error_iff, Attributes.ofKeywordMap, if_pos heven]
      exact (ofPairs_eq_error_iff _ hrest).mpr ⟨key, d, hkey, hd, rfl⟩

lemma indexed_of_field (ht : t.Indexed)
    (h : (ofForms names es >>= t.addField names s) = .ok u) : u.Indexed := by
  obtain ⟨ds, -, h⟩ := bind_eq_ok.mp h
  obtain ⟨s', n, type, rest, vs, rfl, hnew, -, rfl⟩ := (Properties.addField_eq_ok ht).mp h
  exact (ht.extend ⟨n, s'⟩ hnew (Properties.nodup_bagOf type vs)).2

lemma tableOf_field (s : Span) (t : Properties Expr) (es gs : List Form) :
    tableOf names t (.group s .square es :: gs) =
      (ofForms names es >>= t.addField names s) >>= fun u => tableOf names u gs := by
  rw [tableOf_square, bind_assoc]

/-- Fields are refused for the first of them that is, given the names of those before it. -/
lemma tableOf_eq_error_iff (ht : t.Indexed) : tableOf names t gs = .error err ↔
    ∃ before s es after u, gs = before ++ .group s .square es :: after ∧
      tableOf names t before = .ok u ∧ FieldError names u.names s es err := by
  induction gs generalizing t with
  | nil => simp [tableOf]
  | cons g gs ih =>
    obtain ⟨s, es, rfl⟩ | hg := g.group_or_not .square
    · rw [tableOf_field, bind_eq_error_iff, field_eq_error_iff ht]
      constructor
      · rintro (h | ⟨u, hu, h⟩)
        · exact ⟨[], s, es, gs, t, rfl, rfl, h⟩
        · obtain ⟨before, r, ds, after, w, rfl, hw, h⟩ := (ih (indexed_of_field ht hu)).mp h
          refine ⟨.group s .square es :: before, r, ds, after, w, rfl, ?_, h⟩
          rw [tableOf_field, hu]
          exact hw
      · rintro ⟨before, r, ds, after, w, heq, hw, h⟩
        cases before with
        | nil =>
          obtain ⟨hgroup, rfl⟩ := List.cons.inj heq
          obtain ⟨rfl, -, rfl⟩ := Form.group.inj hgroup
          obtain rfl := Except.ok.inj hw
          exact .inl h
        | cons g before =>
          obtain ⟨rfl, rfl⟩ := List.cons.inj heq
          rw [tableOf_field] at hw
          obtain ⟨u, hu, hw⟩ := bind_eq_ok.mp hw
          exact .inr ⟨u, hu, (ih (indexed_of_field ht hu)).mpr
            ⟨before, r, ds, after, w, rfl, hw, h⟩⟩
    · rw [tableOf_skip hg, ih ht]
      constructor
      · rintro ⟨before, s, es, after, u, rfl, hu, h⟩
        exact ⟨g :: before, s, es, after, u, rfl, (tableOf_skip hg t before).trans hu, h⟩
      · rintro ⟨before, s, es, after, u, heq, hu, h⟩
        cases before with
        | nil =>
          obtain ⟨rfl, -⟩ := List.cons.inj heq
          exact absurd hg (by simp [Form.isGroupIn])
        | cons g before =>
          obtain ⟨rfl, rfl⟩ := List.cons.inj heq
          exact ⟨before, s, es, after, u, rfl, (tableOf_skip hg t before).symm.trans hu, h⟩

/-- Only the square groups count. Where they are read, each of them is a field of the table, under
distinct names, and each bag has distinct keys of which the type is the first. Where they are not
read, the error is that of the first group that is refused after the fields before it. -/
theorem table_of_squares (names : Interner) (fs : List Form) :
    properties names (fs.filter (·.isGroupIn .square)) = properties names fs ∧
    (∀ t, properties names fs = .ok t → t.Indexed ∧
      List.Forall₂ (FieldFrom fun f e => ofForm names f = .ok e) (Form.specs fs) t.entries ∧
      ∀ field ∈ t.entries, field.2.keys.Nodup ∧ field.2.keys.head? = some .typeKey) ∧
    ∀ err, properties names fs = .error err ↔ ∃ before s es after t,
      fs = before ++ .group s .square es :: after ∧ properties names before = .ok t ∧
        FieldError names t.names s es err := by
  refine ⟨tableOf_filter .empty fs, fun t ht => ?_, fun err => ?_⟩
  · obtain ⟨fields, hfields, hentries, hindexed⟩ := fields_of_tableOf Properties.indexed_empty ht
    have hfrom := hfields.fieldFrom (R := fun f e => ofForm names f = .ok e)
      fun _ _ _ _ _ h => h
    rw [Properties.empty, List.nil_append] at hentries
    rw [hentries]
    exact ⟨hindexed, hfrom, keyed_of_fieldFrom hfrom⟩
  · exact tableOf_eq_error_iff Properties.indexed_empty

/-- A name, which is no field, and a field whose type is given by position and then by its key. -/
def overridden : List Form :=
  [.name .dummy ⟨22⟩, .group .dummy .square [.name .dummy ⟨20⟩, .name .dummy ⟨21⟩,
    .keyword .dummy ⟨23⟩, .int .dummy 1, .keyword .dummy .typeKey, .name .dummy ⟨24⟩]]

/-- The type keeps the first place and has the value that comes last. -/
theorem table_of_squares_overridden : ∃ t, properties Interner.new overridden = .ok t ∧
    t.entries.map (fun f => f.2.keys) = [[.typeKey, ⟨23⟩]] ∧
    List.Forall₂ (FieldFrom fun f e => ofForm Interner.new f = .ok e) (Form.specs overridden)
      t.entries := by
  obtain ⟨t, ht, hkeys⟩ : ∃ t, properties Interner.new overridden = .ok t ∧
      t.entries.map (fun f => f.2.keys) = [[.typeKey, ⟨23⟩]] := ⟨_, rfl, rfl⟩
  obtain ⟨-, hok, -⟩ := table_of_squares Interner.new overridden
  obtain ⟨-, hfields, -⟩ := hok t ht
  exact ⟨t, ht, hkeys, hfields⟩

end Tables

end Expr

end YinFrontEnd
