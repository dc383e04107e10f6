import YinFrontEnd.Proofs.Expr.Acceptance
import YinFrontEnd.Proofs.Expr.Copy
import YinFrontEnd.Proofs.Form.Following

/-!
# Parsing side by side

A form and its copy are parsed in step, each with its own interner. Names are only ever compared
with each other and with the reserved words, and in two interners these comparisons come out the
same. Hence the expressions are copies of each other, in tables and bags as well, and an error in
one is the same error in the other, but for places.
-/
namespace YinFrontEnd

/-- The error with all of its places moved. -/
def ParseError.shift (d : Shift) (e : ParseError) : ParseError :=
  ⟨e.code, e.message, e.span.shift d, e.context, e.readError.map (ReadError.shift d)⟩

lemma ParseError.shift_zero (e : ParseError) : e.shift .zero = e := by
  obtain ⟨code, message, span, context, readError⟩ := e
  cases readError with
  | none => rfl
  | some r => exact congrArg (fun r => ParseError.mk _ _ _ _ (some r)) r.shift_zero

section Lists

variable {α β γ δ ε : Type} {move : ε → ε}

/-- Two lists are gone through in step. -/
lemma Agree.mapM {S : γ → δ → Prop} {f : α → Except ε γ} {g : β → Except ε δ} {xs : List α}
    {ys : List β} (h : List.Forall₂ (fun x y => Agree move S (f x) (g y)) xs ys) :
    Agree move (List.Forall₂ S) (xs.mapM f) (ys.mapM g) := by
  induction h with
  | nil => exact .ok .nil
  | cons hxy _ ih =>
    rw [List.mapM_cons, List.mapM_cons]
    exact hxy.bind fun a b hab => ih.bind fun as bs habs => .ok (.cons hab habs)

end Lists

variable {d : Shift} {names more : Interner}

/-- A name is the return arrow in both interners or in none. -/
lemma returnArrow_iff_of_same (hv : names.Valid) (hw : more.Valid) {m n : Name}
    (h : names.Same more m n) : m = .returnArrow ↔ n = .returnArrow :=
  Relator.rel_eq (Interner.biUnique_same hv hw) h
    (Interner.same_reserved hv hw (i := 8) (s := "->") rfl)

namespace Form

variable {f g : Form}

lemma Copy.ident? (h : f.Copy d names more g) :
    Option.Rel (Ident.Copy d names more) f.ident? g.ident? := by
  cases h with
  | name s h => exact .some ⟨h, rfl⟩
  | _ => exact .none

/-- A copy is the head of the same special form. -/
lemma Copy.announces_iff (h : f.Copy d names more g) {k : SpecialForm} :
    f.Announces names k ↔ g.Announces more k := by
  cases h with
  | name s h =>
    obtain ⟨text, hm, hn⟩ := h
    constructor
    · rintro ⟨_, _, heq, hk⟩
      obtain ⟨rfl, rfl⟩ := name.inj heq
      exact ⟨_, _, rfl, hn.trans (hm.symm.trans hk)⟩
    · rintro ⟨_, _, heq, hk⟩
      obtain ⟨rfl, rfl⟩ := name.inj heq
      exact ⟨_, _, rfl, hm.trans (hn.symm.trans hk)⟩
  | _ => constructor <;> rintro ⟨_, _, heq, -⟩ <;> exact absurd heq (by simp)

lemma Copy.isGroupIn (h : f.Copy d names more g) (b : Delimiter) :
    g.isGroupIn b = f.isGroupIn b := by
  cases h <;> rfl

end Form

namespace Attributes

/-- The entries of the second bag are copies of those of the first. -/
def Copy (d : Shift) (names more : Interner) (a b : Attributes Expr) : Prop :=
  Expr.CopyBag d names more a.entries b.entries

variable {a b a' b' : Attributes Expr} {es ds : List Expr}

lemma Copy.insert (hv : names.Valid) (hw : more.Valid) (h : a.Copy d names more b) {k l : Name}
    {v w : Expr} (hk : names.Same more k l) (hvw : v.Copy d names more w) :
    (a.insert k v).Copy d names more (b.insert l w) := by
  obtain ⟨es⟩ := a
  obtain ⟨ds⟩ := b
  rw [Copy, Expr.copyBag_iff] at h ⊢
  change List.Forall₂ _ es ds at h
  change List.Forall₂ _ (put k v es) (put l w ds)
  induction h with
  | nil => exact .cons ⟨hk, hvw⟩ .nil
  | @cons x y es ds hxy hrest ih =>
    have hkey : x.1 = k ↔ y.1 = l := Relator.rel_eq (Interner.biUnique_same hv hw) hxy.1 hk
    rw [put, put]
    by_cases hx : x.1 = k
    · rw [if_pos hx, if_pos (hkey.mp hx)]
      exact .cons ⟨hxy.1, hvw⟩ hrest
    · rw [if_neg hx, if_neg (mt hkey.mpr hx)]
      exact .cons hxy ih

lemma Copy.merge (hv : names.Valid) (hw : more.Valid) (h : a.Copy d names more b)
    (h' : a'.Copy d names more b') : (a.merge a').Copy d names more (b.merge b') := by
  obtain ⟨es⟩ := a'
  obtain ⟨ds⟩ := b'
  rw [Copy, Expr.copyBag_iff] at h'
  change List.Forall₂ _ es ds at h'
  induction h' generalizing a b with
  | nil => exact h
  | cons hxy _ ih =>
    rw [merge_cons, merge_cons]
    exact ih (h.insert hv hw hxy.1 hxy.2)

lemma agree_ofPairs (hv : names.Valid) (hw : more.Valid) :
    ∀ {es ds : List Expr} {a b : Attributes Expr}, a.Copy d names more b →
      List.Forall₂ (Expr.Copy d names more) es ds →
      Agree (ParseError.shift d) (Copy d names more) (ofPairs names a es) (ofPairs more b ds)
  | [], _, _, _, h, hes => by
    obtain rfl := List.forall₂_nil_left_iff.mp hes
    exact .ok h
  | [_], _, _, _, h, hes => by
    obtain ⟨key', tail, -, htail, rfl⟩ := List.forall₂_cons_left_iff.mp hes
    obtain rfl := List.forall₂_nil_left_iff.mp htail
    exact .ok h
  | key :: value :: es, _, _, _, h, hes => by
    obtain ⟨key', tail, hkey, htail, rfl⟩ := List.forall₂_cons_left_iff.mp hes
    obtain ⟨value', rest, hvalue, hrest, rfl⟩ := List.forall₂_cons_left_iff.mp htail
    have hrel := hkey.keyword?
    rw [ofPairs, ofPairs]
    generalize key.keyword? = o, key'.keyword? = p at hrel ⊢
    cases hrel with
    | none =>
      simp only [hkey.write_eq hv hw, hkey.span_eq]
      exact .error _
    | some hsame => exact agree_ofPairs hv hw (h.insert hv hw hsame hvalue) hrest

lemma agree_ofKeywordMap (hv : names.Valid) (hw : more.Valid)
    (hes : List.Forall₂ (Expr.Copy d names more) es ds) (s : Span) :
    Agree (ParseError.shift d) (Copy d names more) (ofKeywordMap names es s)
      (ofKeywordMap more ds (s.shift d)) := by
  have hchars : es.map (Expr.chars names) = ds.map (Expr.chars more) :=
    map_eq_of_forall₂ hes fun e e' he => (Expr.Copy.chars_eq hv hw he).symm
  rw [ofKeywordMap, ofKeywordMap, ← hes.length_eq, ← hchars]
  split
  · exact agree_ofPairs hv hw .nil hes
  · exact .error _

end Attributes

namespace Properties

/-- Both tables find their fields, and those of the second are copies of those of the first. -/
structure Copy (d : Shift) (names more : Interner) (t u : Properties Expr) : Prop where
  indexed : t.Indexed ∧ u.Indexed
  fields : Expr.CopyFields d names more t.entries u.entries

variable {t u : Properties Expr} {es ds : List Expr}

lemma copy_empty : Copy d names more empty empty := ⟨⟨indexed_empty, indexed_empty⟩, .nil⟩

/-- A name is in both tables or in none. -/
lemma Copy.contains (hv : names.Valid) (hw : more.Valid) (h : t.Copy d names more u) {m n : Name}
    (hn : names.Same more m n) : u.contains n = t.contains m := by
  have hnames : List.Forall₂ (names.Same more) t.names u.names := by
    rw [Properties.names, Properties.names, List.forall₂_map_left_iff, List.forall₂_map_right_iff]
    exact (Expr.copyFields_iff.mp h.fields).imp fun f g hfg => hfg.1.name
  rw [Bool.eq_iff_iff, h.indexed.1.contains_iff, h.indexed.2.contains_iff]
  exact (List.rel_mem (Interner.biUnique_same hv hw) hn hnames).symm

/-- A new field comes in at the end of both tables. -/
lemma Copy.extend (hv : names.Valid) (hw : more.Valid) (h : t.Copy d names more u) {i j : Ident}
    (hi : i.Copy d names more j) {a b : Attributes Expr} (ha : a.Copy d names more b)
    (hnew : t.contains i.name = false) (hka : a.keys.Nodup) (hkb : b.keys.Nodup) :
    (t.extend i a).Copy d names more (u.extend j b) := by
  have hnew' : u.contains j.name = false := (h.contains hv hw hi.name).trans hnew
  have hi' : i.name ∉ t.names := mt (h.indexed.1.contains_iff _).mpr (by simp [hnew])
  have hj' : j.name ∉ u.names := mt (h.indexed.2.contains_iff _).mpr (by simp [hnew'])
  obtain ⟨ht, hindexed⟩ := h.indexed.1.extend i hi' hka
  obtain ⟨hu, hindexed'⟩ := h.indexed.2.extend j hj' hkb
  refine ⟨⟨hindexed, hindexed'⟩, ?_⟩
  rw [ht, hu, Expr.copyFields_iff]
  exact List.rel_append (Expr.copyFields_iff.mp h.fields) (.cons ⟨hi, ha⟩ .nil)

lemma nodup_field (e : Expr) (a : Attributes Expr) :
    ((Attributes.empty.insert .typeKey e).merge a).keys.Nodup :=
  Attributes.nodup_merge (Attributes.nodup_insert (a := .empty) List.nodup_nil _ _) a

lemma agree_addField (hv : names.Valid) (hw : more.Valid) (h : t.Copy d names more u) (s : Span)
    (hes : List.Forall₂ (Expr.Copy d names more) es ds) :
    Agree (ParseError.shift d) (Copy d names more) (t.addField names s es)
      (u.addField more (s.shift d) ds) := by
  cases hes with
  | nil => exact .error _
  | @cons e e' _ _ he hes =>
    cases hes with
    | nil => exact .error _
    | @cons type type' rest rest' htype hrest =>
      have hident := he.ident?
      simp only [addField, he.write_eq hv hw, he.span_eq]
      generalize e.ident? = o, e'.ident? = p at hident ⊢
      cases hident with
      | none => exact .error _
      | @some m n hn =>
        simp only [h.contains hv hw hn, hn.text_eq]
        cases hc : t.contains m with
        | true => exact .error _
        | false =>
          refine (Attributes.agree_ofKeywordMap hv hw hrest s).map fun a b hab => ?_
          have htypeKey : names.Same more .typeKey .typeKey :=
            ⟨"type", hv.text?_typeKey, hw.text?_typeKey⟩
          have hbag : Attributes.Copy d names more _ _ :=
            (Attributes.Copy.insert hv hw (a := .empty) (b := .empty) .nil htypeKey htype).merge hv
              hw hab
          exact h.extend hv hw ⟨hn, rfl⟩ hbag hc (nodup_field _ _) (nodup_field _ _)

end Properties

namespace Expr

/-- Whatever the form is a copy of is parsed in step with it. -/
def InStep (d : Shift) (names more : Interner) (f : Form) : Prop :=
  ∀ g, f.Copy d names more g →
    Agree (ParseError.shift d) (Copy d names more) (ofForm names f) (ofForm more g)

variable {f g head : Form} {fs gs : List Form} {t u : Properties Expr}

lemma agree_ofForms (ih : ∀ f ∈ fs, InStep d names more f)
    (h : Form.CopyAll d names more fs gs) :
    Agree (ParseError.shift d) (CopyAll d names more) (ofForms names fs) (ofForms more gs) := by
  have hstep : List.Forall₂ (fun f g => Agree (ParseError.shift d) (Copy d names more)
      (ofForm names f) (ofForm more g)) fs gs :=
    ((List.forall₂_and_left _ _).mpr ⟨ih, Form.copyAll_iff.mp h⟩).imp fun f g hfg => hfg.1 g hfg.2
  rw [ofForms_eq_mapM, ofForms_eq_mapM]
  exact (Agree.mapM hstep).mono fun es ds hes => copyAll_iff.mpr hes

lemma agree_tableOf (hv : names.Valid) (hw : more.Valid)
    (ih : ∀ es ∈ Form.specs fs, ∀ f ∈ es, InStep d names more f)
    (h : Form.CopyAll d names more fs gs) (ht : t.Copy d names more u) :
    Agree (ParseError.shift d) (Properties.Copy d names more) (tableOf names t fs)
      (tableOf more u gs) := by
  induction fs generalizing gs t u with
  | nil => cases h with | nil => exact .ok ht
  | cons f fs ihs => cases h with
    | @cons _ g _ gs hf hfs =>
      obtain ⟨s, elements, rfl⟩ | hnot := f.group_or_not .square
      · cases hf with
        | group _ _ hel =>
          rw [specs_square, List.forall_mem_cons] at ih
          rw [tableOf_square, tableOf_square]
          refine (agree_ofForms ih.1 hel).bind fun es ds hes => ?_
          exact (Properties.agree_addField hv hw ht s (copyAll_iff.mp hes)).bind fun t u htu =>
            ihs ih.2 hfs htu
      · rw [specs_skip hnot] at ih
        rw [tableOf_skip hnot, tableOf_skip ((hf.isGroupIn .square).trans hnot)]
        exact ihs ih hfs ht

section Parameters

lemma agree_parameter (hv : names.Valid) (hw : more.Valid) (h : f.Copy d names more g) :
    Agree (ParseError.shift d)
      (fun p q => Option.Rel (Ident.Copy d names more) p.1 q.1 ∧ p.2 = q.2)
      (parameter names f) (parameter more g) := by
  have hwrite := h.write_eq
  have hspan := h.span_eq
  cases h with
  | name s h => exact .ok ⟨.some ⟨h, rfl⟩, rfl⟩
  | group s b hfs => cases hfs with
    | nil =>
      simp only [parameter, hwrite]
      exact .error _
    | @cons f f' _ _ hf _ =>
      have hident := hf.ident?
      simp only [parameter, hf.write_eq, hf.span_eq]
      generalize f.ident? = o, f'.ident? = p at hident ⊢
      cases hident with
      | none => exact .error _
      | @some i j hi =>
        have harrow := returnArrow_iff_of_same hv hw hi.name
        by_cases hn : i.name = .returnArrow
        · simp only [if_pos hn, if_pos (harrow.mp hn)]
          exact .ok ⟨.none, rfl⟩
        · simp only [if_neg hn, if_neg (mt harrow.mpr hn)]
          exact .ok ⟨.some hi, rfl⟩
  | _ =>
    simp only [parameter, hwrite]
    exact .error _

lemma agree_parameters (hv : names.Valid) (hw : more.Valid) {list list' : Form}
    (hl : list.Copy d names more list') (h : Form.CopyAll d names more fs gs) :
    Agree (ParseError.shift d)
      (fun p q => List.Forall₂ (Ident.Copy d names more) p.1 q.1 ∧ p.2 = q.2)
      (parameters names list fs) (parameters more list' gs) := by
  have hone := Agree.mapM ((Form.copyAll_iff.mp h).imp fun f g hfg => agree_parameter hv hw hfg)
  simp only [parameters, hl.write_eq, hl.span_eq]
  generalize fs.mapM (parameter names) = r, gs.mapM (parameter more) = q at hone ⊢
  cases hone with
  | error e => exact .error e
  | @ok ps qs hps =>
    have htyped : ps.any (·.2) = qs.any (·.2) := any_forall₂ hps fun p q hpq => hpq.2
    have hnot : ps.any (!·.2) = qs.any (!·.2) := any_forall₂ hps fun p q hpq => by rw [hpq.2]
    simp only [htyped, hnot]
    split
    · exact .error _
    · exact .ok ⟨List.rel_filterMap (fun p q hpq => hpq.1) hps, rfl⟩

lemma agree_parents (h : Form.CopyAll d names more fs gs) :
    Agree (ParseError.shift d) (List.Forall₂ (Ident.Copy d names more)) (parents names fs)
      (parents more gs) := by
  refine Agree.mapM ((Form.copyAll_iff.mp h).imp fun f g hfg => ?_)
  have hident := hfg.ident?
  simp only [hfg.write_eq, hfg.span_eq]
  generalize f.ident? = o, g.ident? = p at hident ⊢
  cases hident with
  | none => exact .error _
  | some hi => exact .ok hi

end Parameters

section Shapes

variable {s t ls : Span} {b : Delimiter} {k : SpecialForm} {first first' list list' : Form}
  {elements elements' : List Form}

lemma getLastD_copy (h : Form.CopyAll d names more fs gs) (hf : first.Copy d names more first') :
    (fs.getLastD first).Copy d names more (gs.getLastD first') := by
  induction fs generalizing gs first first' with
  | nil => cases h with | nil => exact hf
  | cons f fs ih => cases h with
    | @cons _ g _ gs hfg hrest =>
      rw [List.getLastD_cons, List.getLastD_cons]
      exact ih hrest hfg

/-- Two forms and what is built from them. -/
lemma agree_pair {p q p' q' : Form} {build build' : Expr → Expr → Expr}
    (hp : p.Copy d names more p') (hq : q.Copy d names more q')
    (ih : ∀ f ∈ [p, q], InStep d names more f)
    (h : ∀ x y x' y', x.Copy d names more x' → y.Copy d names more y' →
      (build x y).Copy d names more (build' x' y')) :
    Agree (ParseError.shift d) (Copy d names more)
      (ofForm names p >>= fun x => ofForm names q >>= fun y => .ok (build x y))
      (ofForm more p' >>= fun x => ofForm more q' >>= fun y => .ok (build' x y)) :=
  (ih p (by simp) p' hp).bind fun _ _ hx =>
    (ih q (by simp) q' hq).bind fun _ _ hy => .ok (h _ _ _ _ hx hy)

lemma copyAll_pair {p q : Form} (h : Form.CopyAll d names more [p, q] gs) :
    ∃ p' q', p.Copy d names more p' ∧ q.Copy d names more q' ∧ gs = [p', q'] := by
  obtain ⟨p', _, hp, hrest, rfl⟩ := List.forall₂_cons_left_iff.mp (Form.copyAll_iff.mp h)
  obtain ⟨q', _, hq, hnil, rfl⟩ := List.forall₂_cons_left_iff.mp hrest
  obtain rfl := List.forall₂_nil_left_iff.mp hnil
  exact ⟨p', q', hp, hq, rfl⟩

lemma ofForm_conditional_of_length (h : fs.length ≠ 3) :
    ofForm names (.group s .paren (.name t SpecialForm.conditional.name :: fs)) =
      .error (FormFault.error (.conditionalShape fs.length) s) := by
  match fs with
  | [] | [_] | [_, _] | _ :: _ :: _ :: _ :: _ => rfl
  | [_, _, _] => exact absurd rfl h

lemma ofForm_definition_of_length (h : fs.length ≠ 2) :
    ofForm names (.group s .paren (.name t SpecialForm.definition.name :: fs)) =
      .error (FormFault.error (.definitionShape fs.length) s) := by
  match fs with
  | [] | [_] | _ :: _ :: _ :: _ => rfl
  | [_, _] => exact absurd rfl h

lemma ofForm_assignment_of_length (h : fs.length ≠ 2) :
    ofForm names (.group s .paren (.name t SpecialForm.assignment.name :: fs)) =
      .error (FormFault.error (.assignmentShape fs.length) s) := by
  match fs with
  | [] | [_] | _ :: _ :: _ :: _ => rfl
  | [_, _] => exact absurd rfl h

lemma agree_table (hv : names.Valid) (hw : more.Valid) (hin : ∀ f ∈ fs, f.Inside g)
    (ih : ∀ f, f.Inside g → InStep d names more f) (h : Form.CopyAll d names more fs gs) :
    Agree (ParseError.shift d) (Properties.Copy d names more) (tableOf names .empty fs)
      (tableOf more .empty gs) := by
  exact agree_tableOf hv hw (fun es hes f hf => ih f (Form.inside_of_mem_specs hin hes f hf)) h
    Properties.copy_empty

lemma agree_function (hv : names.Valid) (hw : more.Valid)
    (ih : ∀ f, f.Inside (.group s .paren (.name t SpecialForm.function.name ::
      .group ls b elements :: first :: fs)) → InStep d names more f)
    (hel : Form.CopyAll d names more elements elements') (hf : first.Copy d names more first')
    (h : Form.CopyAll d names more fs gs) :
    Agree (ParseError.shift d) (Copy d names more)
      (ofForm names (.group s .paren (.name t SpecialForm.function.name ::
        .group ls b elements :: first :: fs)))
      (ofForm more (.group (s.shift d) .paren (.name (t.shift d) SpecialForm.function.name ::
        .group (ls.shift d) b elements' :: first' :: gs))) := by
  have hlist : Form.Inside (.group ls b elements) (.group s .paren (.name t
      SpecialForm.function.name :: .group ls b elements :: first :: fs)) :=
    .of_part (by simp [Form.parts])
  have hbody : first'.span.merge (gs.getLastD first').span =
      (first.span.merge (fs.getLastD first).span).shift d := by
    rw [hf.span_eq, (getLastD_copy h hf).span_eq, Span.merge_shift]
  rw [ofForm_function, ofForm_function]
  refine (agree_parameters hv hw (.group ls b hel) hel).bind fun p q hpq => ?_
  obtain ⟨is, typed⟩ := p
  obtain ⟨js, typed'⟩ := q
  obtain ⟨his, rfl⟩ : List.Forall₂ (Ident.Copy d names more) is js ∧ typed = typed' := hpq
  have htable : Agree (ParseError.shift d) (Option.Rel (Properties.Copy d names more))
      (if typed then (tableOf names .empty elements).map some else .ok none)
      (if typed then (tableOf more .empty elements').map some else .ok none) := by
    cases typed with
    | false => exact .ok .none
    | true =>
      have hin : ∀ f ∈ elements, f.Inside _ := fun f hmem =>
        (Form.Inside.of_part (show f ∈ (Form.group ls b elements).parts from hmem)).trans hlist
      exact (agree_table hv hw hin ih hel).map fun t u htu => .some htu
  have hes : Agree (ParseError.shift d) (CopyAll d names more) (ofForms names (first :: fs))
      (ofForms more (first' :: gs)) :=
    agree_ofForms (fun f hmem => ih f (.of_part (List.mem_cons_of_mem _
      (List.mem_cons_of_mem _ hmem)))) (.cons hf h)
  refine htable.bind fun t u htu => hes.bind fun es ds hes => ?_
  rw [hbody]
  cases htu with
  | none => exact .ok (.function s _ his hes)
  | some htu => exact .ok (.typedFunction s _ his htu.fields hes)

lemma agree_record (hv : names.Valid) (hw : more.Valid) {name name' : Form}
    (ih : ∀ f, f.Inside (.group s .paren (.name t SpecialForm.record.name ::
      name :: first :: fs)) → InStep d names more f)
    (hn : name.Copy d names more name') (hf : first.Copy d names more first')
    (h : Form.CopyAll d names more fs gs) :
    Agree (ParseError.shift d) (Copy d names more)
      (ofForm names (.group s .paren (.name t SpecialForm.record.name :: name :: first :: fs)))
      (ofForm more (.group (s.shift d) .paren (.name (t.shift d) SpecialForm.record.name ::
        name' :: first' :: gs))) := by
  have hin : ∀ f ∈ first :: fs, f.Inside (.group s .paren (.name t SpecialForm.record.name ::
      name :: first :: fs)) := fun f hmem =>
    .of_part (List.mem_cons_of_mem _ (List.mem_cons_of_mem _ hmem))
  have hwrite := hn.write_eq
  cases hn with
  | @name u m n hmn =>
    obtain ⟨ls, elements, rfl⟩ | hfirst := first.group_or_not .paren
    · cases hf with
      | group _ _ hel =>
        have htable := agree_table hv hw (fun f hmem => hin f (List.mem_cons_of_mem _ hmem)) ih h
        exact (agree_parents hel).bind fun is js his => htable.bind fun t u htu =>
          .ok (.recordType s ⟨hmn, rfl⟩ (.some his) htu.fields)
    · rw [ofForm_recordAlone hfirst, ofForm_recordAlone ((hf.isGroupIn .paren).trans hfirst)]
      exact (agree_table hv hw hin ih (.cons hf h)).map fun t u htu =>
        .recordType s ⟨hmn, rfl⟩ .none htu.fields
  | _ =>
    rw [ofForm_record_of_name rfl, ofForm_record_of_name rfl, hwrite]
    exact .error _

lemma agree_specialForm (hv : names.Valid) (hw : more.Valid)
    (ih : ∀ f, f.Inside (.group s .paren (.name t k.name :: fs)) → InStep d names more f)
    (h : Form.CopyAll d names more fs gs) :
    Agree (ParseError.shift d) (Copy d names more)
      (ofForm names (.group s .paren (.name t k.name :: fs)))
      (ofForm more (.group (s.shift d) .paren (.name (t.shift d) k.name :: gs))) := by
  have hin : ∀ f ∈ fs, f.Inside (.group s .paren (.name t k.name :: fs)) := fun f hf =>
    .of_part (List.mem_cons_of_mem _ hf)
  have hall : ∀ f ∈ fs, InStep d names more f := fun f hf => ih f (hin f hf)
  have hlen : gs.length = fs.length := (Form.copyAll_iff.mp h).length_eq.symm
  cases k with
  | sequence => exact (agree_ofForms hall h).map fun es ds hes => .block s hes
  | conditional =>
    by_cases hn : fs.length = 3
    · obtain ⟨p, q, r, rfl⟩ := List.length_eq_three.mp hn
      obtain ⟨p', _, hp, hrest, rfl⟩ := List.forall₂_cons_left_iff.mp (Form.copyAll_iff.mp h)
      obtain ⟨q', r', hq, hr, rfl⟩ := copyAll_pair (Form.copyAll_iff.mpr hrest)
      exact (hall p (by simp) p' hp).bind fun _ _ hx => (hall q (by simp) q' hq).bind
        fun _ _ hy => (hall r (by simp) r' hr).bind fun _ _ hz => .ok (.conditional s hx hy hz)
    · rw [ofForm_conditional_of_length hn, ofForm_conditional_of_length (by rwa [hlen]), hlen]
      exact .error _
  | definition =>
    by_cases hn : fs.length = 2
    · obtain ⟨p, q, rfl⟩ := List.length_eq_two.mp hn
      obtain ⟨p', q', hp, hq, rfl⟩ := copyAll_pair h
      exact agree_pair hp hq hall fun x y x' y' hx hy => .definition s hx hy
    · rw [ofForm_definition_of_length hn, ofForm_definition_of_length (by rwa [hlen]), hlen]
      exact .error _
  | assignment =>
    by_cases hn : fs.length = 2
    · obtain ⟨p, q, rfl⟩ := List.length_eq_two.mp hn
      obtain ⟨p', q', hp, hq, rfl⟩ := copyAll_pair h
      exact agree_pair hp hq hall fun x y x' y' hx hy => .assignment s hx hy
    · rw [ofForm_assignment_of_length hn, ofForm_assignment_of_length (by rwa [hlen]), hlen]
      exact .error _
  | declaration =>
    cases h with
    | nil => exact .error _
    | cons hf h =>
      exact (agree_table hv hw hin ih (.cons hf h)).map fun t u htu => .declaration s htu.fields
  | function =>
    cases h with
    | nil => exact .error _
    | cons hl h => cases h with
      | nil => exact .error _
      | cons hf h =>
        have hwrite := hl.write_eq
        cases hl with
        | group ls b hel => exact agree_function hv hw ih hel hf h
        | _ =>
          rw [ofForm_function_of_list rfl, ofForm_function_of_list rfl, hwrite]
          exact .error _
  | record =>
    cases h with
    | nil => exact .error _
    | cons hn h => cases h with
      | nil => exact .error _
      | cons hf h => exact agree_record hv hw ih hn hf h

/-- A form and its copy are parsed as copies, or rejected for the same mistake. -/
theorem agree_ofForm (hv : names.Valid) (hw : more.Valid) (h : f.Copy d names more g) :
    Agree (ParseError.shift d) (Copy d names more) (ofForm names f) (ofForm more g) := by
  suffices hstep : InStep d names more f from hstep g h
  clear h
  induction f using Form.wellFounded_inside.induction with
  | _ f ih =>
    intro g h
    cases h with
    | block s h =>
      exact (agree_ofForms (fun f hf => ih f (.of_part hf)) h).map fun es ds hes => .block s hes
    | member s h hi =>
      exact (ih _ (.of_part (by simp [Form.parts])) _ h).map fun e e' he => .member s he hi
    | name s h => exact .ok (.ident s h)
    | keyword s h => exact .ok (.keyword s h)
    | int s v => exact .ok (.int s v)
    | float s b => exact .ok (.float s b)
    | str s h => exact .ok (.str s h)
    | group s b h =>
      cases b with
      | square =>
        exact (agree_ofForms (fun f hf => ih f (.of_part hf)) h).map fun es ds hes => .vector s hes
      | curly =>
        exact (agree_ofForms (fun f hf => ih f (.of_part hf)) h).map
          fun es ds hes => .recordLiteral s hes
      | paren => cases h with
        | nil => exact .error _
        | @cons head head' fs gs hh h =>
          by_cases hspecial : ∃ k, head.Announces names k
          · obtain ⟨k, hk⟩ := hspecial
            obtain ⟨t', rfl⟩ := (Form.announces_iff hw).mp (hh.announces_iff.mp hk)
            obtain ⟨t, rfl⟩ := (Form.announces_iff hv).mp hk
            cases hh with
            | name _ _ => exact agree_specialForm hv hw ih h
          · have hcall := (Form.not_announces_iff hv).mp (not_exists.mp hspecial)
            have hcall' := (Form.not_announces_iff hw).mp fun k =>
              mt hh.announces_iff.mpr (not_exists.mp hspecial k)
            rw [ofForm_call hcall, ofForm_call hcall']
            exact (ih head (.of_part (by simp [Form.parts])) _ hh).bind fun e e' he =>
              (agree_ofForms (fun f hf => ih f (.of_part (List.mem_cons_of_mem _ hf))) h).bind
                fun es ds hes => .ok (.call s he hes)

end Shapes

end Expr

end YinFrontEnd
