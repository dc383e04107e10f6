import YinFrontEnd.Proofs.Expr.Spelled
import YinFrontEnd.Proofs.Form.Copy

/-!
# Copies of expressions

A copy of an expression is like a copy of a form: the same but for its places, which may all be
moved by as much, and for the names, which have the same texts. Tables and bags keep their order.
Parameters and fields that are one identifier stay one identifier, so a copy is written like the
expression.
-/
namespace YinFrontEnd

section Lists

variable {α β γ : Type}

/-- Parameters and fields are brought together in the same way if the same ones among them are one
identifier. -/
lemma alignParams_forall₂ {R : Ident → Ident → Prop} {S : α → β → Prop}
    (hR : Relator.BiUnique R) {ps qs : List Ident} {fs : List (Ident × α)}
    {gs : List (Ident × β)} (hp : List.Forall₂ R ps qs)
    (hf : List.Forall₂ (fun f g => R f.1 g.1 ∧ S f.2 g.2) fs gs) :
    List.Forall₂ (fun p q => R p.1 q.1 ∧ Option.Rel S p.2 q.2) (alignParams ps fs)
      (alignParams qs gs) := by
  have entries {fs : List (Ident × α)} {gs : List (Ident × β)}
      (h : List.Forall₂ (fun f g => R f.1 g.1 ∧ S f.2 g.2) fs gs) :
      List.Forall₂ (fun p q => R p.1 q.1 ∧ Option.Rel S p.2 q.2)
        (fs.map fun f => (f.1, some f.2)) (gs.map fun g => (g.1, some g.2)) := by
    rw [List.forall₂_map_left_iff, List.forall₂_map_right_iff]
    exact h.imp fun f g hfg => ⟨hfg.1, .some hfg.2⟩
  induction hp generalizing fs gs with
  | nil => exact entries hf
  | @cons p q ps qs hpq _ ih =>
    have hfind : (fs.findIdx? fun f => f.1 == p) = gs.findIdx? fun g => g.1 == q := by
      clear ih
      induction hf with
      | nil => rfl
      | @cons f g fs gs hfg _ ih =>
        have heq : (f.1 == p) = (g.1 == q) := by
          rw [Bool.eq_iff_iff, beq_iff_eq, beq_iff_eq]
          exact Relator.rel_eq hR hfg.1 hpq
        rw [List.findIdx?_cons, List.findIdx?_cons, heq, ih]
    rw [alignParams, alignParams, hfind]
    cases gs.findIdx? fun g => g.1 == q with
    | none => exact .cons ⟨hpq, .none⟩ (ih hf)
    | some i =>
      exact List.rel_append (entries (List.forall₂_take _ hf)) (ih (List.forall₂_drop _ hf))

end Lists

namespace Expr

mutual

/-- The second expression is the first, moved, with the names that its texts have in another
interner. The body of a function is a block. -/
inductive Copy (d : Shift) (names more : Interner) : Expr → Expr → Prop
  | block (s : Span) {es ds : List Expr} : CopyAll d names more es ds →
      Copy d names more (.block s es) (.block (s.shift d) ds)
  | conditional (s : Span) {a b c a' b' c' : Expr} : Copy d names more a a' →
      Copy d names more b b' → Copy d names more c c' →
      Copy d names more (.conditional s a b c) (.conditional (s.shift d) a' b' c')
  | definition (s : Span) {a b a' b' : Expr} : Copy d names more a a' → Copy d names more b b' →
      Copy d names more (.definition s a b) (.definition (s.shift d) a' b')
  | assignment (s : Span) {a b a' b' : Expr} : Copy d names more a a' → Copy d names more b b' →
      Copy d names more (.assignment s a b) (.assignment (s.shift d) a' b')
  | declaration (s : Span) {t u : Properties Expr} : CopyFields d names more t.entries u.entries →
      Copy d names more (.declaration s t) (.declaration (s.shift d) u)
  | function (s b : Span) {is js : List Ident} {es ds : List Expr} :
      List.Forall₂ (Ident.Copy d names more) is js → CopyAll d names more es ds →
      Copy d names more (.function s is none (.block b es))
        (.function (s.shift d) js none (.block (b.shift d) ds))
  | typedFunction (s b : Span) {is js : List Ident} {t u : Properties Expr} {es ds : List Expr} :
      List.Forall₂ (Ident.Copy d names more) is js →
      CopyFields d names more t.entries u.entries → CopyAll d names more es ds →
      Copy d names more (.function s is (some t) (.block b es))
        (.function (s.shift d) js (some u) (.block (b.shift d) ds))
  | recordType (s : Span) {i j : Ident} {ps qs : Option (List Ident)} {t u : Properties Expr} :
      i.Copy d names more j → Option.Rel (List.Forall₂ (Ident.Copy d names more)) ps qs →
      CopyFields d names more t.entries u.entries →
      Copy d names more (.recordType s i ps t) (.recordType (s.shift d) j qs u)
  | recordLiteral (s : Span) {es ds : List Expr} : CopyAll d names more es ds →
      Copy d names more (.recordLiteral s es) (.recordLiteral (s.shift d) ds)
  | vector (s : Span) {es ds : List Expr} : CopyAll d names more es ds →
      Copy d names more (.vector s es) (.vector (s.shift d) ds)
  | call (s : Span) {e e' : Expr} {es ds : List Expr} : Copy d names more e e' →
      CopyAll d names more es ds → Copy d names more (.call s e es) (.call (s.shift d) e' ds)
  | member (s : Span) {e e' : Expr} {i j : Ident} : Copy d names more e e' →
      i.Copy d names more j → Copy d names more (.member s e i) (.member (s.shift d) e' j)
  | ident (s : Span) {m n : Name} : names.Same more m n →
      Copy d names more (.ident s m) (.ident (s.shift d) n)
  | keyword (s : Span) {m n : Name} : names.Same more m n →
      Copy d names more (.keyword s m) (.keyword (s.shift d) n)
  | int (s : Span) (v : Int64) : Copy d names more (.int s v) (.int (s.shift d) v)
  | float (s : Span) (b : UInt64) : Copy d names more (.float s b) (.float (s.shift d) b)
  | str (s : Span) {m n : Name} : names.Same more m n →
      Copy d names more (.str s m) (.str (s.shift d) n)

inductive CopyAll (d : Shift) (names more : Interner) : List Expr → List Expr → Prop
  | nil : CopyAll d names more [] []
  | cons {e e' : Expr} {es ds : List Expr} : Copy d names more e e' →
      CopyAll d names more es ds → CopyAll d names more (e :: es) (e' :: ds)

inductive CopyFields (d : Shift) (names more : Interner) :
    List (Ident × Attributes Expr) → List (Ident × Attributes Expr) → Prop
  | nil : CopyFields d names more [] []
  | cons {i j : Ident} {a b : Attributes Expr} {fs gs : List (Ident × Attributes Expr)} :
      i.Copy d names more j → CopyBag d names more a.entries b.entries →
      CopyFields d names more fs gs → CopyFields d names more ((i, a) :: fs) ((j, b) :: gs)

inductive CopyBag (d : Shift) (names more : Interner) :
    List (Name × Expr) → List (Name × Expr) → Prop
  | nil : CopyBag d names more [] []
  | cons {m n : Name} {e e' : Expr} {es ds : List (Name × Expr)} : names.Same more m n →
      Copy d names more e e' → CopyBag d names more es ds →
      CopyBag d names more ((m, e) :: es) ((n, e') :: ds)

end

variable {d : Shift} {names more one : Interner} {e e' : Expr} {es ds : List Expr}

lemma copyAll_iff : CopyAll d names more es ds ↔ List.Forall₂ (Copy d names more) es ds := by
  refine iff_forall₂ .nil (by rintro _ _ ⟨⟩) (by rintro _ _ ⟨⟩) fun e es e' ds => ?_
  constructor
  · intro h
    cases h with
    | cons h hs => exact ⟨h, hs⟩
  · rintro ⟨h, hs⟩
    exact .cons h hs

lemma copyBag_iff {es ds : List (Name × Expr)} : CopyBag d names more es ds ↔
    List.Forall₂ (fun x y => names.Same more x.1 y.1 ∧ x.2.Copy d names more y.2) es ds := by
  refine iff_forall₂ .nil (by rintro _ _ ⟨⟩) (by rintro _ _ ⟨⟩) fun x es y ds => ?_
  constructor
  · intro h
    cases h with
    | cons hn he hs => exact ⟨⟨hn, he⟩, hs⟩
  · rintro ⟨⟨hn, he⟩, hs⟩
    exact .cons hn he hs

lemma copyFields_iff {fs gs : List (Ident × Attributes Expr)} : CopyFields d names more fs gs ↔
    List.Forall₂ (fun f g => f.1.Copy d names more g.1 ∧
      CopyBag d names more f.2.entries g.2.entries) fs gs := by
  refine iff_forall₂ .nil (by rintro _ _ ⟨⟩) (by rintro _ _ ⟨⟩) fun f fs g gs => ?_
  constructor
  · intro h
    cases h with
    | cons hi ha hs => exact ⟨⟨hi, ha⟩, hs⟩
  · rintro ⟨⟨hi, ha⟩, hs⟩
    exact .cons hi ha hs

lemma Copy.span_eq (h : e.Copy d names more e') : e'.span = e.span.shift d := by
  cases h <;> rfl

/-- A copy is an identifier if the expression is one. -/
lemma Copy.ident? (h : e.Copy d names more e') :
    Option.Rel (names.Same more) e.ident? e'.ident? := by
  cases h with
  | ident s h => exact .some h
  | _ => exact .none

/-- A copy is a keyword if the expression is one. -/
lemma Copy.keyword? (h : e.Copy d names more e') :
    Option.Rel (names.Same more) e.keyword? e'.keyword? := by
  cases h with
  | keyword s h => exact .some h
  | _ => exact .none

section Writing

lemma namesChars_eq {is js : List Ident} (h : List.Forall₂ (Ident.Copy d names more) is js) :
    namesChars more js = namesChars names is := by
  have hmap : is.map (fun i => names.chars i.name) = js.map fun j => more.chars j.name :=
    map_eq_of_forall₂ h fun i j hij => hij.name.chars_eq.symm
  rw [namesChars, namesChars, hmap]

lemma fieldChars_eq {i j : Ident} (h : i.Copy d names more j) (pieces : List (List Char)) :
    fieldChars more j pieces = fieldChars names i pieces := by
  rw [fieldChars, fieldChars, h.name.chars_eq]

/-- A bag is written by the texts of its keys. -/
lemma bagPieces_eq {xs ys : List (Name × List Char)}
    (h : List.Forall₂ (fun x y => names.Same more x.1 y.1 ∧ y.2 = x.2) xs ys) :
    bagPieces more ys = bagPieces names xs := by
  have hkey : ∀ x y : Name × List Char, names.Same more x.1 y.1 ∧ y.2 = x.2 →
      isTypeKey names x.1 = isTypeKey more y.1 := by
    rintro x y ⟨hn, -⟩
    rw [isTypeKey, isTypeKey, hn.text_eq]
  have hfind : (xs.find? fun x => isTypeKey names x.1).map Prod.snd =
      (ys.find? fun y => isTypeKey more y.1).map Prod.snd := by
    induction h with
    | nil => rfl
    | @cons x y xs ys hxy _ ih =>
      rw [List.find?_cons, List.find?_cons, hkey x y hxy]
      split
      · exact congrArg some hxy.2.symm
      · exact ih
  have hothers : (xs.filter fun x => !isTypeKey names x.1).flatMap
        (fun x => [':' :: names.chars x.1, x.2]) =
      (ys.filter fun y => !isTypeKey more y.1).flatMap fun y => [':' :: more.chars y.1, y.2] := by
    clear hfind
    induction h with
    | nil => rfl
    | @cons x y xs ys hxy _ ih =>
      rw [List.filter_cons, List.filter_cons, hkey x y hxy]
      split
      · rw [List.flatMap_cons, List.flatMap_cons, ih, hxy.1.chars_eq, hxy.2]
      · exact ih
  simp only [bagPieces, hfind, hothers]

lemma paramsChars_eq (hv : names.Valid) (hw : more.Valid) {is js : List Ident}
    {fs gs : List (Ident × List (List Char))} (hi : List.Forall₂ (Ident.Copy d names more) is js)
    (hf : List.Forall₂ (fun f g => f.1.Copy d names more g.1 ∧ f.2 = g.2) fs gs) :
    paramsChars more js gs = paramsChars names is fs := by
  have halign := alignParams_forall₂ (Ident.biUnique_copy hv hw) hi hf
  rw [paramsChars, paramsChars]
  refine congrArg _ (map_eq_of_forall₂ halign ?_).symm
  rintro ⟨i, x⟩ ⟨j, y⟩ ⟨hij, hxy⟩
  cases hxy with
  | none => exact (namesChars_eq (.cons hij .nil)).symm
  | some h =>
    obtain rfl := h
    exact (fieldChars_eq hij _).symm

lemma fieldsChars_eq {fs gs : List (Ident × List (List Char))}
    (hf : List.Forall₂ (fun f g => f.1.Copy d names more g.1 ∧ f.2 = g.2) fs gs) :
    gs.map (fun g => fieldChars more g.1 g.2) = fs.map fun f => fieldChars names f.1 f.2 := by
  refine (map_eq_of_forall₂ hf fun f g hfg => ?_).symm
  rw [hfg.2, fieldChars_eq hfg.1]

mutual

/-- A copy is written like the expression. -/
theorem Copy.chars_eq (hv : names.Valid) (hw : more.Valid) :
    ∀ {e e' : Expr}, e.Copy d names more e' → chars more e' = chars names e
  | _, _, .block s h => by rw [chars, chars, CopyAll.chars_eq hv hw h]
  | _, _, .conditional s ha hb hc => by
    rw [chars, chars, Copy.chars_eq hv hw ha, Copy.chars_eq hv hw hb, Copy.chars_eq hv hw hc]
  | _, _, .definition s ha hb => by
    rw [chars, chars, Copy.chars_eq hv hw ha, Copy.chars_eq hv hw hb]
  | _, _, .assignment s ha hb => by
    rw [chars, chars, Copy.chars_eq hv hw ha, Copy.chars_eq hv hw hb]
  | _, _, @Copy.declaration _ _ _ s ⟨_, _⟩ ⟨_, _⟩ h => by
    rw [chars, chars, fieldsChars_eq (CopyFields.chars_eq hv hw h)]
  | _, _, .function s b hi hes => by
    rw [chars, chars, namesChars_eq hi, CopyAll.chars_eq hv hw hes]
  | _, _, @Copy.typedFunction _ _ _ s b _ _ ⟨_, _⟩ ⟨_, _⟩ _ _ hi ht hes => by
    rw [chars, chars, paramsChars_eq hv hw hi (CopyFields.chars_eq hv hw ht),
      CopyAll.chars_eq hv hw hes]
  | _, _, @Copy.recordType _ _ _ s i j ps qs ⟨_, _⟩ ⟨_, _⟩ hi hp ht => by
    have hparents : (qs.map (namesChars more)) = ps.map (namesChars names) := by
      cases hp with
      | none => rfl
      | some h => rw [Option.map_some, Option.map_some, namesChars_eq h]
    rw [chars, chars, hi.name.chars_eq, hparents, fieldsChars_eq (CopyFields.chars_eq hv hw ht)]
  | _, _, .recordLiteral s h => by rw [chars, chars, CopyAll.chars_eq hv hw h]
  | _, _, .vector s h => by rw [chars, chars, CopyAll.chars_eq hv hw h]
  | _, _, .call s he hes => by
    rw [chars, chars, Copy.chars_eq hv hw he, CopyAll.chars_eq hv hw hes]
  | _, _, .member s he hi => by rw [chars, chars, Copy.chars_eq hv hw he, hi.name.chars_eq]
  | _, _, .ident s h => by rw [chars, chars, h.chars_eq]
  | _, _, .keyword s h => by rw [chars, chars, h.chars_eq]
  | _, _, .int s v => rfl
  | _, _, .float s b => rfl
  | _, _, .str s h => by rw [chars, chars, h.chars_eq]

theorem CopyAll.chars_eq (hv : names.Valid) (hw : more.Valid) :
    ∀ {es ds : List Expr}, CopyAll d names more es ds → charsAll more ds = charsAll names es
  | _, _, .nil => rfl
  | _, _, .cons h hs => by
    rw [charsAll, charsAll, Copy.chars_eq hv hw h, CopyAll.chars_eq hv hw hs]

theorem CopyFields.chars_eq (hv : names.Valid) (hw : more.Valid) :
    ∀ {fs gs : List (Ident × Attributes Expr)}, CopyFields d names more fs gs →
      List.Forall₂ (fun f g => f.1.Copy d names more g.1 ∧ f.2 = g.2) (charsFields names fs)
        (charsFields more gs)
  | _, _, .nil => .nil
  | _, _, @CopyFields.cons _ _ _ _ _ ⟨_⟩ ⟨_⟩ _ _ hi ha hs =>
    .cons ⟨hi, (bagPieces_eq (CopyBag.chars_eq hv hw ha)).symm⟩ (CopyFields.chars_eq hv hw hs)

theorem CopyBag.chars_eq (hv : names.Valid) (hw : more.Valid) :
    ∀ {es ds : List (Name × Expr)}, CopyBag d names more es ds →
      List.Forall₂ (fun x y => names.Same more x.1 y.1 ∧ y.2 = x.2) (charsBag names es)
        (charsBag more ds)
  | _, _, .nil => .nil
  | _, _, .cons hn he hs => .cons ⟨hn, Copy.chars_eq hv hw he⟩ (CopyBag.chars_eq hv hw hs)

end

lemma Copy.write_eq (hv : names.Valid) (hw : more.Valid) (h : e.Copy d names more e') :
    e'.write more = e.write names :=
  congrArg String.ofList (Copy.chars_eq hv hw h)

lemma Copy.writeLines_eq (hv : names.Valid) (hw : more.Valid) (h : e.Copy d names more e') :
    e'.writeLines more = e.writeLines names := by
  have hwrite := h.write_eq hv hw
  cases h with
  | block s hes =>
    refine (map_eq_of_forall₂ (copyAll_iff.mp hes) fun e e' he => ?_).symm
    exact (he.write_eq hv hw).symm
  | _ => exact congrArg (fun line => [line]) hwrite

end Writing

section Shifting

mutual

/-- The expression with all of its places moved. -/
@[simp] def shift (d : Shift) : Expr → Expr
  | block s es => block (s.shift d) (shiftAll d es)
  | conditional s a b c => conditional (s.shift d) (shift d a) (shift d b) (shift d c)
  | definition s a b => definition (s.shift d) (shift d a) (shift d b)
  | assignment s a b => assignment (s.shift d) (shift d a) (shift d b)
  | declaration s ⟨fields, index⟩ => declaration (s.shift d) ⟨shiftFields d fields, index⟩
  | function s params none e =>
      function (s.shift d) (params.map (Ident.shift d)) none (shift d e)
  | function s params (some ⟨fields, index⟩) e =>
      function (s.shift d) (params.map (Ident.shift d)) (some ⟨shiftFields d fields, index⟩)
        (shift d e)
  | recordType s n parents ⟨fields, index⟩ =>
      recordType (s.shift d) (n.shift d) (parents.map (·.map (Ident.shift d)))
        ⟨shiftFields d fields, index⟩
  | recordLiteral s es => recordLiteral (s.shift d) (shiftAll d es)
  | vector s es => vector (s.shift d) (shiftAll d es)
  | call s e es => call (s.shift d) (shift d e) (shiftAll d es)
  | member s e n => member (s.shift d) (shift d e) (n.shift d)
  | ident s n => ident (s.shift d) n
  | keyword s n => keyword (s.shift d) n
  | int s v => int (s.shift d) v
  | float s b => float (s.shift d) b
  | str s n => str (s.shift d) n

@[simp] def shiftAll (d : Shift) : List Expr → List Expr
  | [] => []
  | e :: es => shift d e :: shiftAll d es

@[simp] def shiftFields (d : Shift) :
    List (Ident × Attributes Expr) → List (Ident × Attributes Expr)
  | [] => []
  | (field, ⟨entries⟩) :: fields =>
      (field.shift d, ⟨shiftBag d entries⟩) :: shiftFields d fields

@[simp] def shiftBag (d : Shift) : List (Name × Expr) → List (Name × Expr)
  | [] => []
  | (key, e) :: es => (key, shift d e) :: shiftBag d es

end

lemma shiftAll_eq_map (d : Shift) (es : List Expr) : shiftAll d es = es.map (shift d) := by
  induction es with
  | nil => rfl
  | cons e es ih => rw [shiftAll, ih, List.map_cons]

lemma ident_shift_zero (i : Ident) : i.shift .zero = i := rfl

lemma idents_shift_zero (is : List Ident) : is.map (Ident.shift .zero) = is := List.map_id is

mutual

theorem shift_zero : ∀ e : Expr, e.shift .zero = e
  | block s es | recordLiteral s es | vector s es => by
    rw [shift, shiftAll_zero es, Span.shift_zero]
  | conditional s a b c => by
    rw [shift, shift_zero a, shift_zero b, shift_zero c, Span.shift_zero]
  | definition s a b | assignment s a b => by
    rw [shift, shift_zero a, shift_zero b, Span.shift_zero]
  | declaration s ⟨fields, _⟩ => by rw [shift, shiftFields_zero fields, Span.shift_zero]
  | function s is none e => by
    rw [shift, shift_zero e, idents_shift_zero, Span.shift_zero]
  | function s is (some ⟨fields, _⟩) e => by
    rw [shift, shift_zero e, shiftFields_zero fields, idents_shift_zero, Span.shift_zero]
  | recordType s n none ⟨fields, _⟩ => by
    rw [shift, shiftFields_zero fields, ident_shift_zero, Span.shift_zero]
    rfl
  | recordType s n (some is) ⟨fields, _⟩ => by
    rw [shift, shiftFields_zero fields, ident_shift_zero, Span.shift_zero, Option.map_some,
      idents_shift_zero]
  | call s e es => by rw [shift, shift_zero e, shiftAll_zero es, Span.shift_zero]
  | member s e n => by rw [shift, shift_zero e, ident_shift_zero, Span.shift_zero]
  | ident _ _ | keyword _ _ | int _ _ | float _ _ | str _ _ => rfl

theorem shiftAll_zero : ∀ es : List Expr, shiftAll .zero es = es
  | [] => rfl
  | e :: es => by rw [shiftAll, shift_zero e, shiftAll_zero es]

theorem shiftFields_zero : ∀ fs : List (Ident × Attributes Expr), shiftFields .zero fs = fs
  | [] => rfl
  | (i, ⟨entries⟩) :: fs => by
    rw [shiftFields, shiftBag_zero entries, shiftFields_zero fs, ident_shift_zero]

theorem shiftBag_zero : ∀ es : List (Name × Expr), shiftBag .zero es = es
  | [] => rfl
  | (n, e) :: es => by rw [shiftBag, shift_zero e, shiftBag_zero es]

end

lemma idents_eq_shift (hw : one.Valid) (hx : names.Extends one) (hy : more.Extends one)
    {is js : List Ident} (h : List.Forall₂ (Ident.Copy d names more) is js) :
    js = is.map (Ident.shift d) := by
  induction h with
  | nil => rfl
  | cons h _ ih => rw [List.map_cons, h.eq_shift hw hx hy, ih]

mutual

/-- In one interner a copy is the expression, moved. -/
theorem Copy.beq_shift (hw : one.Valid) (hx : names.Extends one) (hy : more.Extends one) :
    ∀ {e e' : Expr}, e.Copy d names more e' → beq e' (e.shift d) = true
  | _, _, .block s h => by simp [beq, CopyAll.beq_shift hw hx hy h]
  | _, _, .conditional s ha hb hc => by
    simp [beq, Copy.beq_shift hw hx hy ha, Copy.beq_shift hw hx hy hb,
      Copy.beq_shift hw hx hy hc]
  | _, _, .definition s ha hb => by
    simp [beq, Copy.beq_shift hw hx hy ha, Copy.beq_shift hw hx hy hb]
  | _, _, .assignment s ha hb => by
    simp [beq, Copy.beq_shift hw hx hy ha, Copy.beq_shift hw hx hy hb]
  | _, _, @Copy.declaration _ _ _ s ⟨_, _⟩ ⟨_, _⟩ h => by
    simp [beq, CopyFields.beq_shift hw hx hy h]
  | _, _, .function s b hi hes => by
    simp [beq, idents_eq_shift hw hx hy hi, CopyAll.beq_shift hw hx hy hes]
  | _, _, @Copy.typedFunction _ _ _ s b _ _ ⟨_, _⟩ ⟨_, _⟩ _ _ hi ht hes => by
    simp [beq, idents_eq_shift hw hx hy hi, CopyFields.beq_shift hw hx hy ht,
      CopyAll.beq_shift hw hx hy hes]
  | _, _, @Copy.recordType _ _ _ s i j ps qs ⟨_, _⟩ ⟨_, _⟩ hi hp ht => by
    have hparents : qs = ps.map (·.map (Ident.shift d)) := by
      cases hp with
      | none => rfl
      | some h => rw [Option.map_some, idents_eq_shift hw hx hy h]
    simp [beq, hi.eq_shift hw hx hy, hparents, CopyFields.beq_shift hw hx hy ht]
  | _, _, .recordLiteral s h => by simp [beq, CopyAll.beq_shift hw hx hy h]
  | _, _, .vector s h => by simp [beq, CopyAll.beq_shift hw hx hy h]
  | _, _, .call s he hes => by
    simp [beq, Copy.beq_shift hw hx hy he, CopyAll.beq_shift hw hx hy hes]
  | _, _, .member s he hi => by
    simp [beq, Copy.beq_shift hw hx hy he, hi.eq_shift hw hx hy]
  | _, _, .ident s h => by simp [beq, h.eq hw hx hy]
  | _, _, .keyword s h => by simp [beq, h.eq hw hx hy]
  | _, _, .int s v => by simp [beq]
  | _, _, .float s b => by simp [beq]
  | _, _, .str s h => by simp [beq, h.eq hw hx hy]

theorem CopyAll.beq_shift (hw : one.Valid) (hx : names.Extends one) (hy : more.Extends one) :
    ∀ {es ds : List Expr}, CopyAll d names more es ds → beqAll ds (shiftAll d es) = true
  | _, _, .nil => rfl
  | _, _, .cons h hs => by
    simp [beqAll, Copy.beq_shift hw hx hy h, CopyAll.beq_shift hw hx hy hs]

theorem CopyFields.beq_shift (hw : one.Valid) (hx : names.Extends one)
    (hy : more.Extends one) : ∀ {fs gs : List (Ident × Attributes Expr)},
      CopyFields d names more fs gs → beqFields gs (shiftFields d fs) = true
  | _, _, .nil => rfl
  | _, _, @CopyFields.cons _ _ _ _ _ ⟨_⟩ ⟨_⟩ _ _ hi ha hs => by
    simp [beqFields, hi.eq_shift hw hx hy, CopyBag.beq_shift hw hx hy ha,
      CopyFields.beq_shift hw hx hy hs]

theorem CopyBag.beq_shift (hw : one.Valid) (hx : names.Extends one) (hy : more.Extends one) :
    ∀ {es ds : List (Name × Expr)}, CopyBag d names more es ds →
      beqBag ds (shiftBag d es) = true
  | _, _, .nil => rfl
  | _, _, .cons hn he hs => by
    simp [beqBag, hn.eq hw hx hy, Copy.beq_shift hw hx hy he, CopyBag.beq_shift hw hx hy hs]

end

end Shifting

end Expr

end YinFrontEnd
