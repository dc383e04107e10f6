import YinFrontEnd.Proofs.Expr.Aligning
import YinFrontEnd.Proofs.Expr.History
import YinFrontEnd.Proofs.Expr.RoundTrip
import YinFrontEnd.Proofs.Form.Statements

/-!
# Writing a program again

A program that is parsed may lose something where it is written, and what is written may be
rejected. But where it is parsed again nothing more is lost: it is written as before. All places
have changed by then, and the parameters of a function are told apart by their places. What
decides how they are laid out is which of them are one identifier, and that stays as it was.
-/
namespace YinFrontEnd

namespace Expr

variable {names : Interner} {g : Form} {gs : List Form} {d e : Expr} {es : List Expr}

/-- Whatever the form is read as is written like the expression. -/
def Rewrites (names : Interner) (g : Form) (e : Expr) : Prop :=
  ∀ d, ofForm names g = .ok d → chars names d = chars names e

/-- Whatever the forms are read as is written like the expressions. -/
def RewritesAll (names : Interner) (gs : List Form) (es : List Expr) : Prop :=
  ∀ ds, ofForms names gs = .ok ds → charsAll names ds = charsAll names es

/-- Wherever it stands, a form that is written like the expression is read as an expression that is
written in the same way, if it is read at all. -/
def Reprinted (names : Interner) (e : Expr) : Prop :=
  ∀ g : Form, g.Nested → g.unplaced = (form names e).unplaced → Rewrites names g e

lemma rewritesAll (h : ∀ e ∈ es, Reprinted names e) (hn : ∀ g ∈ gs, g.Nested)
    (hg : gs.map Form.unplaced = (formAll names es).map Form.unplaced) :
    RewritesAll names gs es := by
  induction es generalizing gs with
  | nil =>
    obtain rfl : gs = [] := by simpa [formAll] using hg
    rintro ds hds
    obtain rfl := Except.ok.inj hds
    rfl
  | cons e es ih =>
    obtain ⟨g, gs, rfl, he, hes⟩ := List.map_eq_cons_iff.mp hg
    obtain ⟨hfirst, hrest⟩ := List.forall_mem_cons.mp h
    obtain ⟨hng, hngs⟩ := List.forall_mem_cons.mp hn
    rintro _ hall
    obtain ⟨d, ds, hd, hds, rfl⟩ := ofForms_cons_eq_ok.mp hall
    rw [charsAll, charsAll, hfirst g hng he d hd, ih hrest hngs hes ds hds]

section Atoms

lemma reprinted_ident (s : Span) (n : Name) : Reprinted names (ident s n) := by
  rintro g - hg d hd
  obtain ⟨t, rfl⟩ := Form.name_of_unplaced hg
  obtain rfl := Except.ok.inj hd
  rw [chars, chars]

lemma reprinted_keyword (s : Span) (n : Name) : Reprinted names (keyword s n) := by
  rintro g - hg d hd
  obtain ⟨t, rfl⟩ := Form.keyword_of_unplaced hg
  obtain rfl := Except.ok.inj hd
  rw [chars, chars]

end Atoms

section Bags

variable {os vs : List (Name × Expr)} {rest : List Expr} {type : Expr}

lemma Paired.charsAll_eq (h : Paired rest vs) :
    charsAll names rest = charsAll names (pairs vs) := by
  induction h with
  | nil => rfl
  | cons s _ ih => rw [pairs_cons, charsAll, charsAll, charsAll, charsAll, chars, chars, ih]

lemma charsBag_eq_of_pairs (hk : vs.map Prod.fst = os.map Prod.fst)
    (h : charsAll names (pairs vs) = charsAll names (pairs os)) :
    charsBag names vs = charsBag names os := by
  induction vs generalizing os with
  | nil =>
    obtain rfl := List.map_eq_nil_iff.mp hk.symm
    rfl
  | cons a vs ih =>
    obtain ⟨b, os, rfl, hkey, hkeys⟩ := List.map_eq_cons_iff.mp hk.symm
    obtain ⟨k, v⟩ := a
    obtain ⟨k', w⟩ := b
    obtain rfl : k' = k := hkey
    rw [pairs_cons, pairs_cons, charsAll, charsAll, charsAll, charsAll] at h
    obtain ⟨-, hvalue⟩ := List.cons.inj h
    obtain ⟨hvalue, hvalues⟩ := List.cons.inj hvalue
    rw [charsBag, charsBag, hvalue, ih hkeys.symm hvalues]

/-- The elements of a field are read as a bag that is written like the one they stand for. -/
lemma charsBag_of_ofForms (hv : names.Valid) {a : Attributes Expr} (hk : a.Keyed names)
    (hr : ∀ b ∈ a.entries, Reprinted names b.2) {m n : Name} {s : Span} (hn : ∀ g ∈ gs, g.Nested)
    (hg : gs.map Form.unplaced =
      (Form.name .dummy n :: bagForms names (formBag names a.entries)).map Form.unplaced)
    (hes : ofForms names gs = .ok (ident s m :: type :: rest)) (hvs : Paired rest vs) :
    charsBag names (Properties.bagOf type vs).entries = charsBag names a.entries := by
  obtain ⟨first, os, ha, hnew, hnodup⟩ := keyed_cases hk
  rw [ha, bagForms_keyed hv hnew] at hg
  rw [ha] at hr ⊢
  have hall : ∀ e ∈ ident .dummy n :: first :: pairs os, Reprinted names e := by
    intro e he
    simp only [List.mem_cons] at he
    obtain rfl | rfl | he := he
    · exact reprinted_ident _ _
    · exact hr (.typeKey, e) List.mem_cons_self
    · obtain ⟨b, hb, he⟩ := List.mem_flatMap.mp he
      simp only [List.mem_cons, List.not_mem_nil, or_false] at he
      obtain rfl | rfl := he
      · exact reprinted_keyword _ _
      · exact hr b (List.mem_cons_of_mem _ hb)
  have hsame := rewritesAll hall hn hg _ hes
  rw [charsAll, charsAll, charsAll, charsAll, hvs.charsAll_eq] at hsame
  obtain ⟨-, hsame⟩ := List.cons.inj hsame
  obtain ⟨htype, hpairs⟩ := List.cons.inj hsame
  obtain ⟨_, _, rfl, -, htail⟩ := List.map_eq_cons_iff.mp hg
  obtain ⟨_, gs, rfl, -, htail⟩ := List.map_eq_cons_iff.mp htail
  obtain ⟨_, _, -, hes, heq⟩ := ofForms_cons_eq_ok.mp hes
  obtain ⟨-, rfl⟩ := List.cons.inj heq
  obtain ⟨_, _, -, hrest, heq⟩ := ofForms_cons_eq_ok.mp hes
  obtain ⟨-, rfl⟩ := List.cons.inj heq
  obtain ⟨us, hus, hkeys⟩ := paired_of_ofForms htail hrest
  obtain rfl := hvs.unique hus
  rw [entries_bagOf (by rwa [hkeys]) (by rwa [hkeys]), charsBag, charsBag, htype,
    charsBag_eq_of_pairs hkeys hpairs]

end Bags

section Tables

variable {qs : List (Ident × Option (Attributes Expr))} {fs : List (Ident × Attributes Expr)}
  {elements : List Form}

/-- A parameter with the pieces of its entry, if it has one. -/
def laidOut (names : Interner) (q : Ident × Option (Attributes Expr)) :
    Ident × Option (List (List Char)) :=
  (q.1, q.2.map fun a => bagPieces names (charsBag names a.entries))

/-- The identifiers that groups begin with are determined by the groups. -/
lemma Heads.unique {js ks : List Ident} (h : Heads gs js) (k : Heads gs ks) : ks = js := by
  induction h generalizing ks with
  | nil => cases k; rfl
  | @cons s b i fs gs js _ ih =>
    generalize hx : Form.group s b (.name i.span i.name :: fs) :: gs = xs at k
    cases k with
    | nil => exact absurd hx (by simp)
    | cons s' b' i' fs' k =>
      obtain ⟨hgroup, rfl⟩ := List.cons.inj hx
      obtain ⟨-, -, hparts⟩ := Form.group.inj hgroup
      obtain ⟨hspan, hname⟩ := Form.name.inj (List.cons.inj hparts).1
      rw [ih k, show i = i' from congrArg₂ Ident.mk hname hspan]

lemma entriesOf_laidOut (names : Interner) (qs : List (Ident × Option (Attributes Expr))) :
    entriesOf (qs.map (laidOut names)) = charsFields names (entriesOf qs) := by
  rw [charsFields_eq_map, entriesOf, entriesOf, List.filterMap_map, List.map_filterMap]
  refine List.filterMap_congr fun q _ => ?_
  obtain ⟨i, _ | a⟩ := q <;> rfl

lemma alignParams_charsFields (names : Interner) (params : List Ident)
    (fields : List (Ident × Attributes Expr)) : alignParams params (charsFields names fields) =
      (alignParams params fields).map (laidOut names) := by
  rw [charsFields_eq_map,
    alignParams_map fun a : Attributes Expr => bagPieces names (charsBag names a.entries)]
  rfl

/-- The forms of parameters and entries are read as such, in the order in which they stand. -/
lemma heads_of_fields (hv : names.Valid)
    (hq : ∀ f ∈ entriesOf qs, f.2.Keyed names ∧ ∀ a ∈ f.2.entries, Reprinted names a.2)
    (hn : ∀ g ∈ gs, g.Nested)
    (hg : gs.map Form.unplaced = (qs.map (bagParamForm names)).map Form.unplaced)
    (hf : Fields names gs fs) : ∃ ps, Heads gs (ps.map Prod.fst) ∧
      entriesOf ps = charsFields names fs ∧
      List.Forall₂ (fun q p => q.1.name = p.1.name ∧ q.2 = p.2) (qs.map (laidOut names)) ps := by
  induction qs generalizing gs fs with
  | nil =>
    obtain rfl : gs = [] := by simpa using hg
    cases hf
    exact ⟨[], .nil, rfl, .nil⟩
  | cons q qs ih =>
    obtain ⟨g, gs, rfl, hhead, htail⟩ := List.map_eq_cons_iff.mp hg
    obtain ⟨hng, hngs⟩ := List.forall_mem_cons.mp hn
    obtain ⟨i, _ | a⟩ := q
    · obtain ⟨t, elements, rfl, hel⟩ := Form.group_of_unplaced hhead
      obtain ⟨_, rest, rfl, hname, -⟩ := List.map_eq_cons_iff.mp hel
      obtain ⟨s, rfl⟩ := Form.name_of_unplaced hname
      cases hf with
      | skip _ hf =>
        obtain ⟨ps, hps, hentries, hall⟩ := ih hq hngs htail hf
        exact ⟨(⟨i.name, s⟩, none) :: ps, .cons t .paren ⟨i.name, s⟩ rest hps, hentries,
          .cons ⟨rfl, rfl⟩ hall⟩
    · obtain ⟨t, elements, rfl, hel⟩ := Form.group_of_unplaced hhead
      obtain ⟨⟨hk, hr⟩, hrest⟩ := List.forall_mem_cons.mp hq
      cases hf with
      | skip hs _ => exact absurd hs (by simp [Form.isGroupIn])
      | @field _ s n type _ _ rest vs fs hes hvs hf =>
        obtain ⟨ps, hps, hentries, hall⟩ := ih hrest hngs htail hf
        have hbag := charsBag_of_ofForms hv hk hr hng.parts hel hes hvs
        obtain ⟨_, others, rfl, hname, -⟩ := List.map_eq_cons_iff.mp hel
        obtain ⟨s', rfl⟩ := Form.name_of_unplaced hname
        obtain ⟨_, _, hident, -, heq⟩ := ofForms_cons_eq_ok.mp hes
        obtain rfl := Except.ok.inj hident
        obtain ⟨rfl, rfl⟩ := ident.inj (List.cons.inj heq).1
        refine ⟨(⟨i.name, s⟩, some (bagPieces names (charsBag names
          (Properties.bagOf type vs).entries))) :: ps, .cons t .square ⟨i.name, s⟩ others hps, ?_,
            .cons ⟨rfl, ?_⟩ hall⟩
        · rw [charsFields_eq_map, List.map_cons, ← charsFields_eq_map, ← hentries]
          rfl
        · rw [hbag]
          rfl

/-- The fields of a declaration or a record type are written as before. -/
lemma fieldChars_of_tableOf (hv : names.Valid) {fields table : Properties Expr}
    (hk : fields.Keyed names)
    (hr : ∀ f ∈ fields.entries, ∀ a ∈ f.2.entries, Reprinted names a.2)
    (hn : ∀ g ∈ gs, g.Nested) (hg : gs.map Form.unplaced =
      ((formFields names fields.entries).map fun f => fieldForm f.1 f.2).map Form.unplaced)
    (ht : tableOf names .empty gs = .ok table) :
    (charsFields names table.entries).map (fun f => fieldChars names f.1 f.2) =
      (charsFields names fields.entries).map fun f => fieldChars names f.1 f.2 := by
  rw [fieldForms_eq_map] at hg
  obtain ⟨hfields, -⟩ := tableOf_iff.mp ⟨table, ht, rfl⟩
  have hbags : ∀ f ∈ entriesOf (itemsOf fields.entries),
      f.2.Keyed names ∧ ∀ a ∈ f.2.entries, Reprinted names a.2 := by
    rw [entriesOf_itemsOf]
    exact fun f hf => ⟨hk.bags f hf, hr f hf⟩
  obtain ⟨ps, -, hentries, hall⟩ := heads_of_fields hv hbags hn hg hfields
  have hsame := entriesOf_forall₂ (R := fun i j : Ident => i.name = j.name) (S := Eq)
    (hall.imp fun q p hqp => ⟨hqp.1, optionRel_eq.mpr hqp.2⟩)
  rw [entriesOf_laidOut, entriesOf_itemsOf, hentries] at hsame
  refine (map_eq_of_forall₂ hsame fun f f' hff => ?_).symm
  rw [fieldChars, fieldChars, hff.1, hff.2]

/-- What is made of the table of a declaration or a record type is written as before. -/
lemma rewrites_table (hv : names.Valid) {fields : Properties Expr} (hk : fields.Keyed names)
    (hr : ∀ f ∈ fields.entries, ∀ a ∈ f.2.entries, Reprinted names a.2)
    (hn : ∀ g ∈ gs, g.Nested) (hg : gs.map Form.unplaced =
      ((formFields names fields.entries).map fun f => fieldForm f.1 f.2).map Form.unplaced)
    {f : Properties Expr → Expr} (h : ofForm names g = (tableOf names .empty gs).map f)
    (hf : ∀ t : Properties Expr, (charsFields names t.entries).map
        (fun f => fieldChars names f.1 f.2) = (charsFields names fields.entries).map
          (fun f => fieldChars names f.1 f.2) → chars names (f t) = chars names e) :
    Rewrites names g e := by
  intro d hd
  rw [h] at hd
  obtain ⟨table, htable, rfl⟩ := map_eq_ok.mp hd
  exact hf table (fieldChars_of_tableOf hv hk hr hn hg htable)

end Tables

section Groups

variable {s s' t t' ls : Span} {elements others : List Form} {first : Form}
  {is params : List Ident} {fields : Properties Expr}

/-- What is made of the expressions of a list is written as before if they are. -/
lemma rewrites_map {f : List Expr → Expr} (h : ofForm names g = (ofForms names gs).map f)
    (hall : RewritesAll names gs es)
    (hf : ∀ ds, charsAll names ds = charsAll names es → chars names (f ds) = chars names e) :
    Rewrites names g e := by
  intro d hd
  rw [h] at hd
  obtain ⟨ds, hds, rfl⟩ := map_eq_ok.mp hd
  exact hf ds (hall ds hds)

/-- What is made of two expressions is written as before if they are. -/
lemma rewrites_pair {a b : Form} {x y : Expr} {f : Expr → Expr → Expr} (h : ofForm names g =
      ofForm names a >>= fun x' => ofForm names b >>= fun y' => .ok (f x' y'))
    (ha : Rewrites names a x) (hb : Rewrites names b y)
    (hf : ∀ x' y', chars names x' = chars names x → chars names y' = chars names y →
      chars names (f x' y') = chars names e) : Rewrites names g e := by
  intro d hd
  rw [h] at hd
  obtain ⟨x', hx, hd⟩ := bind_eq_ok.mp hd
  obtain ⟨y', hy, hd⟩ := bind_eq_ok.mp hd
  obtain rfl := Except.ok.inj hd
  exact hf x' y' (ha x' hx) (hb y' hy)

lemma namesChars_of_unplaced (h : is.map Ident.unplaced = params.map Ident.unplaced) :
    namesChars names is = namesChars names params := by
  have hnames := congrArg (List.map fun i : Ident => names.chars i.name) h
  rw [List.map_map, List.map_map] at hnames
  exact congrArg (Text.bracketed '(' ')') hnames

lemma chars_of_names
    (hp : parameters names (.group ls .paren elements) elements = .ok (is, false))
    (hall : RewritesAll names (first :: others) es)
    (hd : ofForm names (.group s .paren (.name t SpecialForm.function.name ::
      .group ls .paren elements :: first :: others)) = .ok d) :
    chars names d =
      Text.bracketed '(' ')' ("fun".toList :: namesChars names is :: charsAll names es) := by
  rw [ofForm_plainFunction hp] at hd
  obtain ⟨ds, hds, rfl⟩ := map_eq_ok.mp hd
  rw [chars, hall ds hds]

lemma chars_of_fields
    (hp : parameters names (.group ls .paren elements) elements = .ok (is, true))
    (hall : RewritesAll names (first :: others) es)
    (hd : ofForm names (.group s .paren (.name t SpecialForm.function.name ::
      .group ls .paren elements :: first :: others)) = .ok d) :
    ∃ table, tableOf names .empty elements = .ok table ∧ chars names d =
      Text.bracketed '(' ')' ("fun".toList ::
        paramsChars names is (charsFields names table.entries) :: charsAll names es) := by
  rw [ofForm_typedFunction hp] at hd
  obtain ⟨⟨entries, index⟩, htable, hd⟩ := bind_eq_ok.mp hd
  obtain ⟨ds, hds, rfl⟩ := map_eq_ok.mp hd
  exact ⟨_, htable, by rw [chars, hall ds hds]⟩

lemma reprinted_function (hes : es ≠ []) (ih : ∀ e ∈ es, Reprinted names e) :
    Reprinted names (function s params none (block t es)) := by
  intro g hn hg d hd
  obtain ⟨s', t', ls, elements, first, others, rfl, hel, hbody⟩ :=
    function_of_unplaced (by simpa [formAll_eq_map] using hes) hg
  obtain ⟨is, hp, hi⟩ := parameters_names names (.group ls .paren elements) hel
  have hall := rewritesAll ih (fun g hg => hn.parts g (List.mem_cons_of_mem _
    (List.mem_cons_of_mem _ hg))) hbody
  rw [chars_of_names hp hall hd, chars, namesChars_of_unplaced hi]

/-- Typed parameters are found in the order in which they were laid out, and laid out in it. -/
lemma paramsChars_of_tableOf (hv : names.Valid) (hn : params.Nodup)
    (ha : ∀ i ∈ params, i.name ≠ .returnArrow) (hk : fields.Keyed names)
    (hs : ((fields.entries.map Prod.fst).filter (·.name ≠ .returnArrow)).Sublist params)
    (hr : ∀ f ∈ fields.entries, ∀ a ∈ f.2.entries, Reprinted names a.2)
    (hl : (Form.group ls .paren elements).Nested)
    (hg : elements.map Form.unplaced =
      ((alignParams params fields.entries).map (bagParamForm names)).map Form.unplaced)
    (hp : parameters names (.group ls .paren elements) elements = .ok (is, true))
    {table : Properties Expr} (ht : tableOf names .empty elements = .ok table) :
    paramsChars names is (charsFields names table.entries) =
      paramsChars names params (charsFields names fields.entries) := by
  have hbags : ∀ f ∈ entriesOf (alignParams params fields.entries),
      f.2.Keyed names ∧ ∀ a ∈ f.2.entries, Reprinted names a.2 := by
    rw [entriesOf_alignParams]
    exact fun f hf => ⟨hk.bags f hf, hr f hf⟩
  have hidents : (charsFields names fields.entries).map Prod.fst = fields.entries.map Prod.fst := by
    rw [charsFields_eq_map, List.map_map]
    rfl
  have hnames : (fields.entries.map Prod.fst).Nodup := by
    refine List.Nodup.of_map Ident.name ?_
    rw [List.map_map]
    exact hk.nodup
  obtain ⟨hfields, -⟩ := tableOf_iff.mp ⟨table, ht, rfl⟩
  cases hl with
  | group hparts _ horder =>
    obtain ⟨ps, hheads, hentries, hall⟩ := heads_of_fields hv hbags hparts hg hfields
    obtain ⟨js, hjs, rfl⟩ := heads_of_parameters hp
    obtain rfl := hheads.unique hjs
    rw [← alignParams_charsFields] at hall
    have hagain := alignParams_again ⟨hn, by rwa [hidents]⟩ ha (by rwa [hidents]) hall
      (hheads.nodup hparts horder)
    rw [hentries] at hagain
    refine congrArg _ (map_eq_of_forall₂ hagain ?_).symm
    rintro ⟨i, x⟩ ⟨j, y⟩ ⟨hij, hxy⟩
    obtain rfl : x = y := hxy
    cases x with
    | none => exact namesChars_of_unplaced (by simpa [Ident.unplaced] using hij)
    | some pieces => exact congrArg (fun n => Text.bracketed '[' ']' (names.chars n :: pieces)) hij

lemma reprinted_typedFunction (hv : names.Valid) (hn : params.Nodup)
    (ha : ∀ i ∈ params, i.name ≠ .returnArrow) (hk : fields.Keyed names)
    (hs : ((fields.entries.map Prod.fst).filter (·.name ≠ .returnArrow)).Sublist params)
    (hr : ∀ f ∈ fields.entries, ∀ a ∈ f.2.entries, Reprinted names a.2)
    (hes : es ≠ []) (ih : ∀ e ∈ es, Reprinted names e) :
    Reprinted names (function s params (some fields) (block t es)) := by
  intro g hnested hg d hd
  have hwritten : chars names (function s params (some fields) (block t es)) =
      Text.bracketed '(' ')' ("fun".toList ::
        paramsChars names params (charsFields names fields.entries) :: charsAll names es) := by
    rw [chars]
  obtain ⟨s', t', ls, elements, first, others, rfl, hel, hbody⟩ :=
    function_of_unplaced (by simpa [formAll_eq_map] using hes) hg
  rw [paramForms_eq_map] at hel
  obtain ⟨is, hp, hi⟩ := parameters_groups (.group ls .paren elements) hel
  have hall := rewritesAll ih (fun g hg => hnested.parts g (List.mem_cons_of_mem _
    (List.mem_cons_of_mem _ hg))) hbody
  rw [hwritten]
  cases hq : alignParams params fields.entries with
  | nil =>
    -- Nothing is left of the table, and nothing was written of it.
    rw [hq] at hp hi
    obtain rfl := List.map_eq_nil_iff.mp hi
    rw [chars_of_names hp hall hd, paramsChars, alignParams_charsFields, hq]
    rfl
  | cons q qs =>
    rw [hq] at hp
    obtain ⟨table, htable, hchars⟩ := chars_of_fields hp hall hd
    rw [hchars, paramsChars_of_tableOf hv hn ha hk hs hr (hnested.parts _ ?_) hel hp htable]
    simp [Form.parts]

lemma reprinted_declaration (hv : names.Valid) (hk : fields.Keyed names)
    (hr : ∀ f ∈ fields.entries, ∀ a ∈ f.2.entries, Reprinted names a.2) :
    Reprinted names (declaration s fields) := by
  intro g hn hg
  obtain ⟨s', t', gs, rfl, hgs⟩ := specialForm_of_unplaced hg
  cases gs with
  | nil => exact fun d hd => ne_ok_of_eq_error rfl hd
  | cons first others =>
    exact rewrites_table hv hk hr (fun g hg => hn.parts g (List.mem_cons_of_mem _ hg)) hgs rfl
      fun t ht => by rw [chars, chars, ht]

lemma reprinted_recordType (hv : names.Valid) {n : Ident} {parents : Option (List Ident)}
    (hk : fields.Keyed names)
    (hr : ∀ f ∈ fields.entries, ∀ a ∈ f.2.entries, Reprinted names a.2) :
    Reprinted names (recordType s n parents fields) := by
  intro g hn hg
  obtain ⟨entries, index⟩ := fields
  obtain ⟨s', t', u, gs, rfl, hrest⟩ := record_of_unplaced hg
  cases parents with
  | some params =>
    obtain ⟨_, gs, rfl, hlist, hfields⟩ := List.map_eq_cons_iff.mp hrest
    obtain ⟨ls, elements, rfl, hel⟩ := Form.group_of_unplaced hlist
    obtain ⟨is, hp, hi⟩ := parents_names names hel
    refine rewrites_table hv hk hr (fun g hg => hn.parts g (by simp [Form.parts, hg])) hfields
      (ofForm_derivedRecord hp) fun t ht => ?_
    rw [chars, chars, ht, Option.map_some, Option.map_some, namesChars_of_unplaced hi]
  | none =>
    cases entries with
    | nil =>
      obtain rfl : gs = [] := by simpa [formFields] using hrest
      exact fun d hd => ne_ok_of_eq_error rfl hd
    | cons f entries =>
      have hfields := hrest
      obtain ⟨first, others, rfl, hfirst, -⟩ := List.map_eq_cons_iff.mp hrest
      obtain ⟨ls, elements, rfl, -⟩ := Form.group_of_unplaced hfirst
      exact rewrites_table hv hk hr
        (fun g hg => hn.parts g (List.mem_cons_of_mem _ (List.mem_cons_of_mem _ hg))) hfields
        (ofForm_recordAlone rfl) fun t ht => by rw [chars, chars, ht]

/-- An expression whose texts can be told apart is written in the same way once it was read. -/
theorem Spelled.reprinted (hv : names.Valid) (h : e.Spelled names) : Reprinted names e := by
  induction h with
  | block s _ ih =>
    intro g hn hg
    obtain ⟨s', t', gs, rfl, hgs⟩ := specialForm_of_unplaced hg
    have hall := rewritesAll ih (fun g hg => hn.parts g (List.mem_cons_of_mem _ hg)) hgs
    exact rewrites_map rfl hall fun ds hds => by rw [chars, chars, hds]
  | conditional s _ _ _ iha ihb ihc =>
    intro g hn hg d hd
    obtain ⟨s', t', a, b, c, rfl, ha, hb, hc⟩ := triple_of_unplaced hg
    have hparts : ∀ g ∈ [a, b, c], g.Nested := fun g hg => hn.parts g (List.mem_cons_of_mem _ hg)
    obtain ⟨x, hx, hd⟩ := bind_eq_ok.mp hd
    obtain ⟨y, hy, hd⟩ := bind_eq_ok.mp hd
    obtain ⟨z, hz, hd⟩ := bind_eq_ok.mp hd
    obtain rfl := Except.ok.inj hd
    rw [chars, chars, iha a (hparts a (by simp)) ha x hx, ihb b (hparts b (by simp)) hb y hy,
      ihc c (hparts c (by simp)) hc z hz]
  | definition s _ _ iha ihb =>
    intro g hn hg
    obtain ⟨s', t', a, b, rfl, ha, hb⟩ := pair_of_unplaced hg
    have hparts : ∀ g ∈ [a, b], g.Nested := fun g hg => hn.parts g (List.mem_cons_of_mem _ hg)
    exact rewrites_pair rfl (iha a (hparts a (by simp)) ha) (ihb b (hparts b (by simp)) hb)
      fun x y hx hy => by rw [chars, chars, hx, hy]
  | assignment s _ _ iha ihb =>
    intro g hn hg
    obtain ⟨s', t', a, b, rfl, ha, hb⟩ := pair_of_unplaced hg
    have hparts : ∀ g ∈ [a, b], g.Nested := fun g hg => hn.parts g (List.mem_cons_of_mem _ hg)
    exact rewrites_pair rfl (iha a (hparts a (by simp)) ha) (ihb b (hparts b (by simp)) hb)
      fun x y hx hy => by rw [chars, chars, hx, hy]
  | declaration s hk _ ih => exact reprinted_declaration hv hk ih
  | function s t _ hes _ ih => exact reprinted_function hes ih
  | typedFunction s t _ ha hn hk hs _ hes _ ihf ih =>
    exact reprinted_typedFunction hv hn ha hk hs ihf hes ih
  | recordType s _ _ hk _ ih => exact reprinted_recordType hv hk ih
  | recordLiteral s _ ih =>
    intro g hn hg
    obtain ⟨s', gs, rfl, hgs⟩ := Form.group_of_unplaced hg
    exact rewrites_map rfl (rewritesAll ih hn.parts hgs) fun ds hds => by rw [chars, chars, hds]
  | vector s _ ih =>
    intro g hn hg
    obtain ⟨s', gs, rfl, hgs⟩ := Form.group_of_unplaced hg
    exact rewrites_map rfl (rewritesAll ih hn.parts hgs) fun ds hds => by rw [chars, chars, hds]
  | @call s e es he hh _ ih ihs =>
    intro g hn hg d hd
    obtain ⟨s', head, gs, rfl, hhead, htail, hname⟩ := he.call_of_unplaced hv hh hg
    have hall := rewritesAll ihs (fun g hg => hn.parts g (List.mem_cons_of_mem _ hg)) htail
    rw [ofForm_call hname] at hd
    obtain ⟨x, hx, hd⟩ := bind_eq_ok.mp hd
    obtain ⟨ds, hds, hd⟩ := bind_eq_ok.mp hd
    obtain rfl := Except.ok.inj hd
    rw [chars, chars, ih head (hn.parts head List.mem_cons_self) hhead x hx, hall ds hds]
  | member s i _ _ _ ih =>
    intro g hn hg d hd
    obtain ⟨s', i', v, rfl, hvalue⟩ := Form.member_of_unplaced hg
    obtain ⟨x, hx, rfl⟩ := map_eq_ok.mp hd
    rw [chars, chars, ih v (hn.parts v List.mem_cons_self) hvalue x hx]
  | ident s _ => exact reprinted_ident _ _
  | keyword s _ => exact reprinted_keyword _ _
  | int s v =>
    rintro g - hg d hd
    obtain ⟨t, rfl⟩ := Form.int_of_unplaced hg
    obtain rfl := Except.ok.inj hd
    rw [chars, chars]
  | float s _ =>
    rintro g - hg d hd
    obtain ⟨t, rfl⟩ := Form.float_of_unplaced hg
    obtain rfl := Except.ok.inj hd
    rw [chars, chars]
  | str s _ =>
    rintro g - hg d hd
    obtain ⟨t, rfl⟩ := Form.str_of_unplaced hg
    obtain rfl := Except.ok.inj hd
    rw [chars, chars]

end Groups

section Programs

variable {more others : Interner}

lemma writeLines_eq_map (names : Interner) (s : Span) (es : List Expr) :
    (block s es).writeLines names = (charsAll names es).map String.ofList := by
  rw [charsAll_eq_map, List.map_map]
  rfl

/-- Each statement is written in one line. -/
lemma newline_notMem_writeLines (hv : names.Valid) (s : Span) (hs : ∀ e ∈ es, e.Spelled names) :
    ∀ line ∈ (block s es).writeLines names, '\n' ∉ line.toList := by
  intro line hline
  obtain ⟨e, he, rfl⟩ := List.mem_map.mp hline
  have hlegible := (hs e he).legible_form hv
  rw [write, String.toList_ofList, ← (hs e he).chars_form hv]
  exact hlegible.newline_notMem

/-- The lines are read, and each of them as one statement. -/
lemma read_writeLines (hv : names.Valid) (again : Nat) (s : Span) (hs : ∀ e ∈ es, e.Spelled names) :
    ∃ t gs, Form.read again names ("\n".intercalate ((block s es).writeLines names)) =
        (names, .ok (.block t gs)) ∧
      gs.map Form.unplaced = (formAll names es).map Form.unplaced ∧
      gs.map (Form.write names) = (block s es).writeLines names ∧
      gs.map (·.span.line) = List.range' 1 es.length := by
  have hlegible : ∀ f ∈ formAll names es, f.Legible names :=
    legible_formAll fun e he => (hs e he).legible_form hv
  obtain ⟨t, gs, hgs, hread⟩ := Form.read_lines hv again hlegible
  have hplaces := Form.lines_of_read hv hlegible hread
  rw [formAll_eq_map, List.length_map] at hplaces
  rw [charsAll_form hv hs, ← intercalate_writeLines names s] at hread
  refine ⟨t, gs, hread, hgs, ?_, hplaces⟩
  rw [Form.write_eq_of_unplaced hlegible hgs, charsAll_form hv hs, writeLines_eq_map]

/-- What is written of a program that was parsed has one statement in each line, and each line is
read as a statement, whatever the interner. If the lines are parsed, the same lines are written
again. -/
theorem writeLines_stable (ha : names.Reached) {file : Nat} {text : String}
    (h : parse file names text = (more, .ok e)) (hb : others.Reached) (again : Nat) :
    let lines := e.writeLines more
    let whole := "\n".intercalate lines
    (∀ line ∈ lines, '\n' ∉ line.toList) ∧
      (∃ s gs, (Form.read again others whole).2 = .ok (.block s gs) ∧
        gs.map (Form.write (Form.read again others whole).1) = lines ∧
        gs.map (·.span.line) = List.range' 1 lines.length) ∧
      ∀ d, (parse again others whole).2 = .ok d →
        d.writeLines (parse again others whole).1 = lines := by
  intro lines whole
  obtain ⟨hvalid, s, es, rfl, hs⟩ := spelled_of_parse ha.valid h
  -- The lines are read and parsed with the interner that they were written with first.
  obtain ⟨t, gs, hread, hgs, hwritten, hplaces⟩ := read_writeLines hvalid again s hs
  refine ⟨newline_notMem_writeLines hvalid s hs, ?_, ?_⟩
  · have hmove := (Form.tracks_read hvalid hb.valid again whole).agree
    rw [hread] at hmove
    generalize Form.read again others whole = r at hmove ⊢
    obtain ⟨final, r⟩ := r
    cases hmove with
    | ok hcopy =>
      cases hcopy with
      | block u hcopies =>
        refine ⟨_, _, rfl, ?_, ?_⟩
        · have hsame := map_eq_of_forall₂ (Form.copyAll_iff.mp hcopies) fun f g hfg =>
            hfg.write_eq.symm
          exact hsame.symm.trans hwritten
        · have hlength : lines.length = es.length := List.length_map _
          rw [hcopies.map_line, hlength]
          exact hplaces
  · intro d hd
    obtain ⟨⟨-, hfinal⟩, -, hmove⟩ := tracks_parse hvalid hb.valid again whole
    obtain ⟨-, _, _, hblock, hnested⟩ := Form.nested_of_read hvalid hread
    obtain ⟨rfl, rfl⟩ := Form.block.inj hblock
    have hall := rewritesAll (fun e he => (hs e he).reprinted hvalid) hnested hgs
    have hparse : parse again more whole = (more, (ofForms more gs).map (block t)) :=
      parse_of_read hread
    rw [hparse, hd] at hmove
    generalize hr : (ofForms more gs).map (block t) = r at hmove
    cases hmove with
    | ok hcopy =>
      obtain ⟨ds, hds, rfl⟩ := map_eq_ok.mp hr
      rw [hcopy.writeLines_eq hvalid hfinal, writeLines_eq_map, hall ds hds]
      exact (writeLines_eq_map more s es).symm

/-- A function with a repeated parameter, an overridden type and a type of what it returns, and one
of whose parameters nothing is written. The lines are parsed with an interner that is new. -/
theorem writeLines_stable_function : Interner.new.Reached ∧ ∃ more e final d,
    parse 0 Interner.new "(fun ([-> 1] (x 2) [x 3 :type 4]) \"\n\")\n(fun ((->)) 1)" =
      (more, .ok e) ∧
    e.writeLines more = ["(fun ((x) [-> 1] [x 4]) \"\\n\")", "(fun () 1)"] ∧
    parse 1 Interner.new "(fun ((x) [-> 1] [x 4]) \"\\n\")\n(fun () 1)" = (final, .ok d) ∧
    d.writeLines final = e.writeLines more := by
  let run := parse 0 Interner.new "(fun ([-> 1] (x 2) [x 3 :type 4]) \"\n\")\n(fun ((->)) 1)"
  have hrun : run.2.toOption.map (fun e => e.writeLines run.1) =
      some ["(fun ((x) [-> 1] [x 4]) \"\\n\")", "(fun () 1)"] := by decide +kernel
  have hagain : (parse 1 Interner.new
      "(fun ((x) [-> 1] [x 4]) \"\\n\")\n(fun () 1)").2.isOk = true := by decide +kernel
  obtain ⟨e, he, hlines⟩ := exists_ok_of_toOption hrun
  have hparse : parse 0 Interner.new
      "(fun ([-> 1] (x 2) [x 3 :type 4]) \"\n\")\n(fun ((->)) 1)" = (run.1, .ok e) :=
    Prod.ext rfl he
  have hstable := (writeLines_stable .new hparse .new 1).2.2
  have hwhole : "\n".intercalate (e.writeLines run.1) =
      "(fun ((x) [-> 1] [x 4]) \"\\n\")\n(fun () 1)" := by
    rw [hlines]
    decide +kernel
  rw [hwhole] at hstable
  obtain ⟨d, hd⟩ := exists_ok_of_isOk hagain
  exact ⟨.new, run.1, e, _, d, hparse, hlines, Prod.ext rfl hd, hstable d hd⟩

end Programs

end Expr

end YinFrontEnd
