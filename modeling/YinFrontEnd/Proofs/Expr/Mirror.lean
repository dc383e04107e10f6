import YinFrontEnd.Proofs.Expr.Contents

/-!
# Where parsed expressions come from

A parsed expression has the shape of the form that it was parsed from. What is in it has the place
and the names of what is in the form: operands and elements, parameters, parents and the fields of
tables with the values in their bags. The body of a function alone comes from no single form. It
stands from the first of its statements to the last.
-/
namespace YinFrontEnd

namespace Span

/-- The span reaches from the smaller start of two spans, where it has the line and the column of
the one that starts there, to the greater of their ends. -/
structure Bridges (b first last : Span) : Prop where
  file : b.file = first.file
  start : b.start = min first.start last.start
  stop : b.stop = max first.stop last.stop
  place_first : first.start ≤ last.start → b.line = first.line ∧ b.column = first.column
  place_last : last.start < first.start → b.line = last.line ∧ b.column = last.column

/-- The span starts where the first of the spans does, ends where the last one does, and covers
them all. -/
structure Encloses (b : Span) (ss : List Span) : Prop where
  first : ∃ s ∈ ss.head?, b.start = s.start ∧ b.line = s.line ∧ b.column = s.column
  last : ∃ s ∈ ss.getLast?, b.stop = s.stop
  covers : ∀ s ∈ ss, b.start ≤ s.start ∧ s.stop ≤ b.stop

variable {b first last : Span} {ss : List Span}

lemma bridges_merge (first last : Span) : (first.merge last).Bridges first last where
  file := rfl
  start := merge_start first last
  stop := merge_stop first last
  place_first h := by simp [merge, Nat.not_lt.mpr h]
  place_last h := by simp [merge, h]

/-- Of spans that stand one after another, the first one starts first and the last one ends last. -/
lemma Bridges.encloses (h : b.Bridges first last) (hfirst : ss.head? = some first)
    (hlast : ss.getLast? = some last) (hs : ∀ s ∈ ss, s.start < s.stop)
    (ho : ss.Pairwise fun s t => s.stop ≤ t.start) : b.Encloses ss := by
  have hlower : ∀ s ∈ ss, first.start ≤ s.start := by
    obtain ⟨rest, rfl⟩ := List.head?_eq_some_iff.mp hfirst
    intro s hmem
    obtain rfl | hrest := List.mem_cons.mp hmem
    · exact Nat.le_refl _
    · have hle := (List.pairwise_cons.mp ho).1 s hrest
      have hlt := hs first List.mem_cons_self
      omega
  have hupper : ∀ s ∈ ss, s.stop ≤ last.stop := by
    obtain ⟨init, rfl⟩ := List.getLast?_eq_some_iff.mp hlast
    intro s hmem
    obtain hinit | hend := List.mem_append.mp hmem
    · have hle := (List.pairwise_append.mp ho).2.2 s hinit last (by simp)
      have hlt := hs last (by simp)
      omega
    · obtain rfl := List.mem_singleton.mp hend
      exact Nat.le_refl _
  have hstart := hlower last (List.mem_of_getLast? hlast)
  have hstop := hupper first (List.mem_of_head? hfirst)
  have hb : b.start = first.start := by rw [h.start, Nat.min_eq_left hstart]
  have hb' : b.stop = last.stop := by rw [h.stop, Nat.max_eq_right hstop]
  obtain ⟨hline, hcolumn⟩ := h.place_first hstart
  refine ⟨⟨first, hfirst, hb, hline, hcolumn⟩, ⟨last, hlast, hb'⟩, fun s hmem => ?_⟩
  rw [hb, hb']
  exact ⟨hlower s hmem, hupper s hmem⟩

end Span

namespace Expr

/-- The expression has the shape of the form, and everything in it, but for the bodies of
functions, stands where what it comes from stands. -/
inductive Mirrors : Form → Expr → Prop
  | block (s : Span) {fs : List Form} {es : List Expr} : List.Forall₂ Mirrors fs es →
      Mirrors (.block s fs) (block s es)
  | member (s : Span) (n : Ident) {f : Form} {e : Expr} : Mirrors f e →
      Mirrors (.member s f n) (member s e n)
  | name (s : Span) (n : Name) : Mirrors (.name s n) (ident s n)
  | keyword (s : Span) (n : Name) : Mirrors (.keyword s n) (keyword s n)
  | int (s : Span) (v : Int64) : Mirrors (.int s v) (int s v)
  | float (s : Span) (b : UInt64) : Mirrors (.float s b) (float s b)
  | str (s : Span) (n : Name) : Mirrors (.str s n) (str s n)
  | recordLiteral (s : Span) {fs : List Form} {es : List Expr} : List.Forall₂ Mirrors fs es →
      Mirrors (.group s .curly fs) (recordLiteral s es)
  | vector (s : Span) {fs : List Form} {es : List Expr} : List.Forall₂ Mirrors fs es →
      Mirrors (.group s .square fs) (vector s es)
  | call (s : Span) {f : Form} {fs : List Form} {e : Expr} {es : List Expr} :
      (∀ n ∈ f.name?, SpecialForm.ofName? n = none) → Mirrors f e → List.Forall₂ Mirrors fs es →
      Mirrors (.group s .paren (f :: fs)) (call s e es)
  | sequence (s t : Span) {fs : List Form} {es : List Expr} : List.Forall₂ Mirrors fs es →
      Mirrors (.group s .paren (.name t SpecialForm.sequence.name :: fs)) (block s es)
  | conditional (s t : Span) {f g h : Form} {a b c : Expr} : Mirrors f a → Mirrors g b →
      Mirrors h c → Mirrors (.group s .paren [.name t SpecialForm.conditional.name, f, g, h])
        (conditional s a b c)
  | definition (s t : Span) {f g : Form} {a b : Expr} : Mirrors f a → Mirrors g b →
      Mirrors (.group s .paren [.name t SpecialForm.definition.name, f, g]) (definition s a b)
  | assignment (s t : Span) {f g : Form} {a b : Expr} : Mirrors f a → Mirrors g b →
      Mirrors (.group s .paren [.name t SpecialForm.assignment.name, f, g]) (assignment s a b)
  | declaration (s t : Span) {fs : List Form} {table : Properties Expr} :
      List.Forall₂ (FieldFrom Mirrors) (Form.specs fs) table.entries →
      Mirrors (.group s .paren (.name t SpecialForm.declaration.name :: fs)) (declaration s table)
  | function (s t ls : Span) (d : Delimiter) (params : List Ident) {fs : List Form}
      {first last : Form} {b : Span} {es : List Expr} : fs.head? = some first →
      fs.getLast? = some last → b.Bridges first.span last.span → List.Forall₂ Mirrors fs es →
      Mirrors (.group s .paren (.name t SpecialForm.function.name ::
          .group ls d (params.map fun i => .name i.span i.name) :: fs))
        (function s params none (block b es))
  | typedFunction (s t ls : Span) (d : Delimiter) {elements fs : List Form} {js : List Ident}
      {table : Properties Expr} {first last : Form} {b : Span} {es : List Expr} :
      Heads elements js → List.Forall₂ (FieldFrom Mirrors) (Form.specs elements) table.entries →
      fs.head? = some first → fs.getLast? = some last → b.Bridges first.span last.span →
      List.Forall₂ Mirrors fs es →
      Mirrors (.group s .paren (.name t SpecialForm.function.name :: .group ls d elements :: fs))
        (function s (js.filter (·.name ≠ .returnArrow)) (some table) (block b es))
  | recordType (s t ls : Span) (i : Ident) (is : List Ident) {fs : List Form}
      {table : Properties Expr} :
      List.Forall₂ (FieldFrom Mirrors) (Form.specs fs) table.entries →
      Mirrors (.group s .paren (.name t SpecialForm.record.name :: .name i.span i.name ::
          .group ls .paren (is.map fun i => .name i.span i.name) :: fs))
        (recordType s i (some is) table)
  | recordAlone (s t : Span) (i : Ident) {fs : List Form} {table : Properties Expr} :
      List.Forall₂ (FieldFrom Mirrors) (Form.specs fs) table.entries →
      Mirrors (.group s .paren (.name t SpecialForm.record.name :: .name i.span i.name :: fs))
        (recordType s i none table)

/-- The expressions directly in an expression: operands, elements, the values in the bags of a
table, and the body of a function. -/
def parts : Expr → List Expr
  | block _ es | recordLiteral _ es | vector _ es => es
  | conditional _ a b c => [a, b, c]
  | definition _ a b | assignment _ a b => [a, b]
  | declaration _ table | recordType _ _ _ table => table.values
  | function _ _ none body => [body]
  | function _ _ (some table) body => body :: table.values
  | call _ e es => e :: es
  | member _ e _ => [e]
  | _ => []

/-- The first expression is the second, or stands in it at any depth. -/
def Within : Expr → Expr → Prop := Relation.ReflTransGen fun d e => d ∈ e.parts

variable {names : Interner} {f g : Form} {fs elements : List Form} {d e body : Expr}
  {es : List Expr} {params : List Ident} {s t ls b : Span}

section Parsing

/-- The body of a function stands from its first statement to its last. -/
lemma bridges_of_function {d : Delimiter} {table : Option (Properties Expr)}
    (h : ofForm names (.group s .paren (.name t SpecialForm.function.name ::
      .group ls d elements :: fs)) = .ok (function s params table (block b es))) :
    ∃ first last, fs.head? = some first ∧ fs.getLast? = some last ∧
      b.Bridges first.span last.span := by
  cases fs with
  | nil => exact ne_ok_of_eq_error rfl h
  | cons first others =>
    rw [ofForm_function] at h
    obtain ⟨_, -, h⟩ := bind_eq_ok.mp h
    obtain ⟨_, -, h⟩ := bind_eq_ok.mp h
    obtain ⟨_, -, h⟩ := bind_eq_ok.mp h
    obtain ⟨-, -, -, hbody⟩ := function.inj (Except.ok.inj h)
    obtain ⟨rfl, -⟩ := block.inj hbody
    refine ⟨first, others.getLastD first, rfl, ?_, Span.bridges_merge _ _⟩
    rw [List.getLast?_cons, List.getLastD_eq_getLast?]

/-- Forms are mirrored one by one. -/
lemma mirrors_ofForms (h : ofForms names fs = .ok es)
    (ih : ∀ g ∈ fs, ∀ d, ofForm names g = .ok d → Mirrors g d) : List.Forall₂ Mirrors fs es := by
  rw [ofForms_eq_ok_iff] at h
  induction h with
  | nil => exact .nil
  | cons hf _ hrest =>
    obtain ⟨hfirst, hothers⟩ := List.forall_mem_cons.mp ih
    exact .cons (hfirst _ hf) (hrest hothers)

/-- A form that is parsed is mirrored, if the forms in it are. -/
lemma mirrors_of_parts (h : ofForm names f = .ok e)
    (ih : ∀ g, g.Inside f → ∀ d, ofForm names g = .ok d → Mirrors g d) : Mirrors f e := by
  have all {gs : List Form} {ds : List Expr} (hds : ofForms names gs = .ok ds)
      (hin : ∀ g ∈ gs, g.Inside f) : List.Forall₂ Mirrors gs ds :=
    mirrors_ofForms hds fun g hg => ih g (hin g hg)
  have table {gs : List Form} {t : Properties Expr} (ht : tableOf names .empty gs = .ok t)
      (hin : ∀ g ∈ gs, g.Inside f) :
      List.Forall₂ (FieldFrom Mirrors) (Form.specs gs) t.entries := by
    obtain ⟨hfields, -⟩ := tableOf_iff.mp ⟨t, ht, rfl⟩
    exact hfields.fieldFrom fun es hes g hg => ih g (Form.inside_of_mem_specs hin hes g hg)
  cases parses_of_ofForm h with
  | block s hes => exact .block s (all hes fun g hg => .of_part hg)
  | member s n he => exact .member s n (ih _ (.of_part (List.mem_singleton_self _)) _ he)
  | name s n => exact .name s n
  | keyword s n => exact .keyword s n
  | int s v => exact .int s v
  | float s b => exact .float s b
  | str s n => exact .str s n
  | curly s hes => exact .recordLiteral s (all hes fun g hg => .of_part hg)
  | square s hes => exact .vector s (all hes fun g hg => .of_part hg)
  | call s hhead he hes =>
    exact .call s hhead (ih _ (.of_part List.mem_cons_self) _ he)
      (all hes fun g hg => .of_part (List.mem_cons_of_mem _ hg))
  | sequence s t hes =>
    exact .sequence s t (all hes fun g hg => .of_part (List.mem_cons_of_mem _ hg))
  | conditional s t ha hb hc =>
    exact .conditional s t (ih _ (.of_part (by simp [Form.parts])) _ ha)
      (ih _ (.of_part (by simp [Form.parts])) _ hb) (ih _ (.of_part (by simp [Form.parts])) _ hc)
  | definition s t ha hb =>
    exact .definition s t (ih _ (.of_part (by simp [Form.parts])) _ ha)
      (ih _ (.of_part (by simp [Form.parts])) _ hb)
  | assignment s t ha hb =>
    exact .assignment s t (ih _ (.of_part (by simp [Form.parts])) _ ha)
      (ih _ (.of_part (by simp [Form.parts])) _ hb)
  | declaration s t ht =>
    exact .declaration s t (table ht fun g hg => .of_part (List.mem_cons_of_mem _ hg))
  | @function s t ls b d elements fs params es hp _ hes =>
    obtain ⟨first, last, hfirst, hlast, hb⟩ := bridges_of_function h
    obtain rfl := elements_of_parameters hp
    exact .function s t ls d params hfirst hlast hb
      (all hes fun g hg => .of_part (by simp [Form.parts, hg]))
  | @typedFunction s t ls b d elements fs params u es hp ht _ hes =>
    obtain ⟨first, last, hfirst, hlast, hb⟩ := bridges_of_function h
    obtain ⟨js, hjs, rfl⟩ := heads_of_parameters hp
    refine .typedFunction s t ls d hjs (table ht fun g hg => ?_) hfirst hlast hb
      (all hes fun g hg => .of_part (by simp [Form.parts, hg]))
    exact (Form.Inside.of_part (show g ∈ (Form.group ls d elements).parts from hg)).trans
      (.of_part (by simp [Form.parts]))
  | recordType s t u ls n his ht =>
    obtain rfl := elements_of_parents his
    exact .recordType s t ls ⟨n, u⟩ _ (table ht fun g hg => .of_part (by simp [Form.parts, hg]))
  | recordAlone s t u n ht =>
    exact .recordAlone s t ⟨n, u⟩ (table ht fun g hg => .of_part (by simp [Form.parts, hg]))

/-- Whatever is parsed mirrors the form that it is parsed from. -/
lemma mirrors_of_ofForm (h : ofForm names f = .ok e) : Mirrors f e := by
  induction f using Form.wellFounded_inside.induction generalizing e with
  | _ f ih => exact mirrors_of_parts h fun g hg d => ih g hg

end Parsing

section Parts

lemma Mirrors.span (h : Mirrors f e) : e.span = f.span := by cases h <;> rfl

lemma map_span_of_mirrors (h : List.Forall₂ Mirrors fs es) :
    es.map Expr.span = fs.map Form.span := by
  induction h with
  | nil => rfl
  | cons hf _ ih => rw [List.map_cons, List.map_cons, hf.span, ih]

lemma exists_of_mem_parts (h : Mirrors f e) (hd : d ∈ e.parts) :
    (∃ g, g.Inside f ∧ Mirrors g d) ∨ ∃ s params table, e = function s params table d := by
  have all {gs : List Form} {ds : List Expr} (hall : List.Forall₂ Mirrors gs ds)
      (hin : ∀ g ∈ gs, g.Inside f) (hmem : d ∈ ds) : ∃ g, g.Inside f ∧ Mirrors g d := by
    obtain ⟨g, hg, hmirrors⟩ := exists_of_forall₂ hall hmem
    exact ⟨g, hin g hg, hmirrors⟩
  have values {gs : List Form} {t : Properties Expr}
      (hfields : List.Forall₂ (FieldFrom Mirrors) (Form.specs gs) t.entries)
      (hin : ∀ g ∈ gs, g.Inside f) (hmem : d ∈ t.values) : ∃ g, g.Inside f ∧ Mirrors g d := by
    obtain ⟨ds, hds, g, hg, hmirrors⟩ := exists_of_mem_values hfields hmem
    exact ⟨g, Form.inside_of_mem_specs hin hds g hg, hmirrors⟩
  cases h with
  | block s hall => exact .inl (all hall (fun g hg => .of_part hg) hd)
  | member s n he =>
    obtain rfl := List.mem_singleton.mp hd
    exact .inl ⟨_, .of_part (by simp [Form.parts]), he⟩
  | recordLiteral s hall => exact .inl (all hall (fun g hg => .of_part hg) hd)
  | vector s hall => exact .inl (all hall (fun g hg => .of_part hg) hd)
  | call s _ he hall => exact .inl (all (.cons he hall) (fun g hg => .of_part hg) hd)
  | sequence s t hall =>
    exact .inl (all hall (fun g hg => .of_part (List.mem_cons_of_mem _ hg)) hd)
  | conditional s t ha hb hc =>
    exact .inl (all (.cons ha (.cons hb (.cons hc .nil)))
      (fun g hg => .of_part (List.mem_cons_of_mem _ hg)) hd)
  | definition s t ha hb =>
    exact .inl (all (.cons ha (.cons hb .nil))
      (fun g hg => .of_part (List.mem_cons_of_mem _ hg)) hd)
  | assignment s t ha hb =>
    exact .inl (all (.cons ha (.cons hb .nil))
      (fun g hg => .of_part (List.mem_cons_of_mem _ hg)) hd)
  | declaration s t hfields =>
    exact .inl (values hfields (fun g hg => .of_part (List.mem_cons_of_mem _ hg)) hd)
  | function s t ls b params _ _ _ _ =>
    obtain rfl := List.mem_singleton.mp hd
    exact .inr ⟨_, _, _, rfl⟩
  | @typedFunction s t ls b elements _ _ _ _ _ _ _ _ hfields _ _ _ _ =>
    obtain rfl | hd := List.mem_cons.mp hd
    · exact .inr ⟨_, _, _, rfl⟩
    · refine .inl (values hfields (fun g hg => ?_) hd)
      exact (Form.Inside.of_part (show g ∈ (Form.group ls b elements).parts from hg)).trans
        (.of_part (by simp [Form.parts]))
  | recordType s t ls i is hfields =>
    exact .inl (values hfields (fun g hg => .of_part (by simp [Form.parts, hg])) hd)
  | recordAlone s t i hfields =>
    exact .inl (values hfields (fun g hg => .of_part (by simp [Form.parts, hg])) hd)
  | _ => exact absurd hd List.not_mem_nil

/-- The statements of a function mirror those of its form, and its body stands from the first to
the last of them. -/
lemma body_of_mirrors {table : Option (Properties Expr)}
    (h : Mirrors f (function s params table body)) : ∃ head list fs first last b es,
      f = .group s .paren (head :: list :: fs) ∧ body = block b es ∧ fs.head? = some first ∧
        fs.getLast? = some last ∧ b.Bridges first.span last.span ∧
        List.Forall₂ Mirrors fs es := by
  cases h with
  | function _ _ _ _ _ hfirst hlast hb hall =>
    exact ⟨_, _, _, _, _, _, _, rfl, rfl, hfirst, hlast, hb, hall⟩
  | typedFunction _ _ _ _ _ _ hfirst hlast hb hall =>
    exact ⟨_, _, _, _, _, _, _, rfl, rfl, hfirst, hlast, hb, hall⟩

/-- What stands in an expression mirrors what stands in the form, or is the body of a function
that does. -/
lemma mirrored_of_within (h : Mirrors f e) (hd : d.Within e) : (∃ g, g.Within f ∧ Mirrors g d) ∨
    ∃ g s params table, (function s params table d).Within e ∧ g.Within f ∧
      Mirrors g (function s params table d) := by
  induction hd using Relation.ReflTransGen.head_induction_on with
  | refl => exact .inl ⟨f, .refl f, h⟩
  | head hpart hwithin ih =>
    obtain ⟨g, hg, hmirrors⟩ | ⟨g, s, params, table, -, hg, hmirrors⟩ := ih
    · obtain ⟨k, hk, hmirrors⟩ | ⟨s, params, table, rfl⟩ := exists_of_mem_parts hmirrors hpart
      · exact .inl ⟨k, hk.within.trans hg, hmirrors⟩
      · exact .inr ⟨g, s, params, table, hwithin, hg, hmirrors⟩
    · obtain ⟨head, list, fs, _, _, _, _, rfl, rfl, -, -, -, hall⟩ := body_of_mirrors hmirrors
      obtain ⟨k, hk, hmirrors⟩ := exists_of_forall₂ hall hpart
      have hin : k.Inside (.group s .paren (head :: list :: fs)) :=
        .of_part (by simp [Form.parts, hk])
      exact .inl ⟨k, hin.within.trans hg, hmirrors⟩

/-- A function in an expression mirrors a form, since no body is a function. -/
lemma function_of_within (h : Mirrors f e) {table : Option (Properties Expr)}
    (hd : (function s params table body).Within e) :
    ∃ g, g.Within f ∧ Mirrors g (function s params table body) := by
  obtain hg | ⟨g, _, _, _, -, -, hmirrors⟩ := mirrored_of_within h hd
  · exact hg
  · cases hmirrors

end Parts

section Bodies

variable {old more : Interner} {file : Nat} {text : String} {root : Form}

/-- Whatever stands in a program that is read, other than the program itself, has its parts in
order. -/
lemma nested_of_within (hr : old.Reached) (h : Form.read file old text = (more, .ok root))
    (hg : g.Within root) : g = root ∨ g.Nested := by
  obtain ⟨-, s, fs, rfl, hall⟩ := Form.nested_of_read hr.valid h
  induction hg using Relation.ReflTransGen.head_induction_on with
  | refl => exact .inl rfl
  | head hpart _ ih =>
    obtain rfl | hn := ih
    · exact .inr (hall _ hpart)
    · exact .inr (hn.parts _ hpart)

/-- Where the parts of a function are in order, so are its statements. -/
lemma encloses_of_nested {head list : Form} {first last : Form}
    (hn : (Form.group s .paren (head :: list :: fs)).Nested) (hfirst : fs.head? = some first)
    (hlast : fs.getLast? = some last) (hb : b.Bridges first.span last.span) :
    b.Encloses (fs.map Form.span) ∧ s.start ≤ b.start ∧ b.stop ≤ s.stop := by
  cases hn with
  | group _ hin ho =>
    have hin' : ∀ g ∈ fs, s.start < g.span.start ∧ g.span.start < g.span.stop ∧
        g.span.stop < s.stop := fun g hg => hin g (by simp [hg])
    have ho' := (List.pairwise_cons.mp (List.pairwise_cons.mp ho).2).2
    refine ⟨hb.encloses (by simp [hfirst]) (by simp [hlast]) ?_ (List.pairwise_map.mpr ho'), ?_⟩
    · intro t ht
      obtain ⟨g, hg, rfl⟩ := List.mem_map.mp ht
      exact (hin' g hg).2.1
    · have hf := hin' first (List.mem_of_head? hfirst)
      have hl := hin' last (List.mem_of_getLast? hlast)
      rw [hb.start, hb.stop]
      omega

/-- The body of a function that is read has its statements between its first and its last one, and
stands in the function. -/
lemma encloses_of_mirrors (hn : f.Nested) {table : Option (Properties Expr)}
    (h : Mirrors f (function s params table body)) : ∃ b es, body = block b es ∧
      b.Encloses (es.map Expr.span) ∧ s.start ≤ b.start ∧ b.stop ≤ s.stop := by
  obtain ⟨_, _, _, _, _, _, _, rfl, rfl, hfirst, hlast, hb, hall⟩ := body_of_mirrors h
  have hbody := encloses_of_nested hn hfirst hlast hb
  rw [← map_span_of_mirrors hall] at hbody
  exact ⟨_, _, rfl, hbody⟩

/-- A parsed expression mirrors its form, and so does everything in it, but for the bodies of
functions. In a program that is read, these bodies stand where their statements do, in order and
within the function. -/
theorem mirrors_of_parsed (h : ofForm names f = .ok e) : e.span = f.span ∧ Mirrors f e ∧
    (∀ d, d.Within e → (∃ g, g.Within f ∧ Mirrors g d ∧ d.span = g.span) ∨
      ∃ s params table, (function s params table d).Within e) ∧
    ∀ {old more : Interner} {file : Nat} {text : String} {root : Form}, old.Reached →
      Form.read file old text = (more, .ok root) → f.Within root →
        ∀ s params table body, (function s params table body).Within e → ∃ b es,
          body = block b es ∧ b.Encloses (es.map Expr.span) ∧ s.start ≤ b.start ∧
            b.stop ≤ s.stop := by
  have hmirrors := mirrors_of_ofForm h
  refine ⟨hmirrors.span, hmirrors, fun d hd => ?_, ?_⟩
  · obtain ⟨g, hg, hgd⟩ | ⟨-, s, params, table, hbody, -⟩ := mirrored_of_within hmirrors hd
    · exact .inl ⟨g, hg, hgd, hgd.span⟩
    · exact .inr ⟨s, params, table, hbody⟩
  · intro old more file text root hr hread hf s params table body hd
    obtain ⟨g, hg, hgd⟩ := function_of_within hmirrors hd
    obtain rfl | hn := nested_of_within hr hread (hg.trans hf)
    · obtain ⟨-, _, _, rfl, -⟩ := Form.nested_of_read hr.valid hread
      cases hgd
    · exact encloses_of_mirrors hn hgd

/-- A function of two statements on the second line. -/
def twoLines : Form :=
  .block ⟨0, 0, 14, 1, 1⟩ [.group ⟨0, 0, 14, 1, 1⟩ .paren
    [.name ⟨0, 1, 4, 1, 2⟩ SpecialForm.function.name,
      .group ⟨0, 5, 8, 1, 6⟩ .paren [.name ⟨0, 6, 7, 1, 7⟩ ⟨10⟩],
      .name ⟨0, 10, 11, 2, 2⟩ ⟨10⟩, .name ⟨0, 12, 13, 2, 4⟩ ⟨11⟩]]

/-- The body stands on that line, from the first statement to the second. -/
theorem mirrors_of_parsed_twoLines : Interner.new.Reached ∧
    (Form.read 0 Interner.new "(fun (x)\n x y)").2 = .ok twoLines ∧
    ∃ e s params b es, ofForm Interner.new twoLines = .ok e ∧ Mirrors twoLines e ∧
      (function s params none (block b es)).Within e ∧ b = ⟨0, 10, 13, 2, 2⟩ ∧
      b.Encloses (es.map Expr.span) := by
  have hread : (Form.read 0 Interner.new "(fun (x)\n x y)").2 = .ok twoLines := by decide +kernel
  obtain ⟨e, he⟩ : ∃ e, ofForm Interner.new twoLines = .ok e := ⟨_, rfl⟩
  obtain ⟨-, hmirrors, -, hbodies⟩ := mirrors_of_parsed he
  refine ⟨.new, hread, e, ⟨0, 0, 14, 1, 1⟩, [⟨⟨10⟩, ⟨0, 6, 7, 1, 7⟩⟩], ⟨0, 10, 13, 2, 2⟩,
    [ident ⟨0, 10, 11, 2, 2⟩ ⟨10⟩, ident ⟨0, 12, 13, 2, 4⟩ ⟨11⟩], he, hmirrors, ?_, rfl, ?_⟩
  all_goals obtain rfl := Except.ok.inj he
  · exact .single List.mem_cons_self
  · obtain ⟨b, es, heq, hbody, -⟩ := hbodies .new (Prod.ext rfl hread) (.refl _) _ _ _ _
      (.single List.mem_cons_self)
    obtain ⟨rfl, rfl⟩ := block.inj heq
    exact hbody

end Bodies

end Expr

end YinFrontEnd
