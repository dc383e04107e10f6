import YinFrontEnd.Proofs.Expr.Denotation

/-!
# What written tables are read as

A bag is written with its type first and then as keywords with values. Where the keys are
distinct and the type is the first of them, the field is read with the same bag. A table is read
field by field, whether its fields stand by themselves or among parameters without a field.
-/
namespace YinFrontEnd

namespace Expr

variable {names : Interner} {g : Form} {gs : List Form} {e : Expr} {es : List Expr}

section Bags

/-- Keywords and values in turns. -/
def pairs (os : List (Name × Expr)) : List Expr := os.flatMap fun a => [keyword .dummy a.1, a.2]

variable {os vs : List (Name × Expr)} {ds : List Expr}

lemma pairs_cons (a : Name × Expr) (os : List (Name × Expr)) :
    pairs (a :: os) = keyword .dummy a.1 :: a.2 :: pairs os := rfl

lemma isFullAll_pairs (os : List (Name × Expr)) : isFullAll (pairs os) = isFullBag os := by
  induction os with
  | nil => rfl
  | cons a os ih =>
    obtain ⟨k, e⟩ := a
    simp only [pairs_cons, isFullAll, isFullBag, isFull, Bool.true_and, ih]

lemma Paired.unplaced (h : Paired ds vs) :
    ds.map unplaced = (pairs vs).map unplaced := by
  induction h with
  | nil => rfl
  | cons s _ ih => simp only [pairs_cons, List.map_cons, ih, Expr.unplaced]

lemma pairs_unplaced_iff :
    (pairs vs).map unplaced = (pairs os).map unplaced ↔ unplacedBag vs = unplacedBag os := by
  induction vs generalizing os with
  | nil => cases os <;> simp [pairs, unplacedBag]
  | cons a vs ih =>
    cases os with
    | nil => simp [pairs, unplacedBag]
    | cons b os =>
      simp only [pairs_cons, List.map_cons, unplaced, unplacedBag, List.cons.injEq, Prod.mk.injEq,
        keyword.injEq, true_and, ih, and_assoc]

lemma restored_keyword (s : Span) (k : Name) : Restored names (keyword s k) := by
  intro g hg
  obtain ⟨t, rfl⟩ := Form.keyword_of_unplaced hg
  exact ⟨fun _ => rfl, fun _ => ⟨keyword t k, rfl, rfl⟩⟩

lemma restored_ident (s : Span) (n : Name) : Restored names (ident s n) := by
  intro g hg
  obtain ⟨t, rfl⟩ := Form.name_of_unplaced hg
  exact ⟨fun _ => rfl, fun _ => ⟨ident t n, rfl, rfl⟩⟩

lemma restored_pairs (h : ∀ a ∈ os, Restored names a.2) : ∀ e ∈ pairs os, Restored names e := by
  intro e he
  obtain ⟨a, ha, he⟩ := List.mem_flatMap.mp he
  simp only [List.mem_cons, List.not_mem_nil, or_false] at he
  obtain rfl | rfl := he
  · exact restored_keyword _ _
  · exact h a ha

/-- Forms that are written like keywords and values in turns are read as such. -/
lemma paired_of_ofForms (hg : gs.map Form.unplaced = (formAll names (pairs os)).map Form.unplaced)
    (h : ofForms names gs = .ok ds) : ∃ vs, Paired ds vs ∧ vs.map Prod.fst = os.map Prod.fst := by
  induction os generalizing gs ds with
  | nil =>
    obtain rfl : gs = [] := by simpa [pairs, formAll] using hg
    obtain rfl := Except.ok.inj h
    exact ⟨[], .nil, rfl⟩
  | cons a os ih =>
    obtain ⟨k, _, rfl, hk, htail⟩ := List.map_eq_cons_iff.mp hg
    obtain ⟨v, gs, rfl, -, htail⟩ := List.map_eq_cons_iff.mp htail
    obtain ⟨t, rfl⟩ := Form.keyword_of_unplaced hk
    obtain ⟨_, _, hkey, hvalues, rfl⟩ := ofForms_cons_eq_ok.mp h
    obtain rfl := Except.ok.inj hkey
    obtain ⟨e, ds, -, hothers, rfl⟩ := ofForms_cons_eq_ok.mp hvalues
    obtain ⟨vs, hvs, hkeys⟩ := ih htail hothers
    exact ⟨(a.1, e) :: vs, .cons t hvs, by simp [hkeys]⟩

lemma Paired.unique {us : List (Name × Expr)} (h : Paired ds vs)
    (k : Paired ds us) : vs = us := by
  induction h generalizing us with
  | nil => cases k; rfl
  | cons s _ ih =>
    cases k with
    | cons _ k => rw [ih k]

/-- A bag with its type in front of the other keys. -/
lemma keyed_cases {a : Attributes Expr} (h : a.Keyed names) : ∃ type os,
    a.entries = (.typeKey, type) :: os ∧ .typeKey ∉ os.map Prod.fst ∧ (os.map Prod.fst).Nodup := by
  obtain ⟨entries⟩ := a
  have hnodup := h.nodup
  have htyped := h.typed
  cases entries with
  | nil => exact absurd htyped (by simp [Attributes.keys])
  | cons e os =>
    obtain ⟨k, type⟩ := e
    obtain rfl : k = .typeKey := by simpa [Attributes.keys] using htyped
    simp only [Attributes.keys, List.map_cons, List.nodup_cons] at hnodup
    exact ⟨type, os, rfl, hnodup.1, hnodup.2⟩

lemma isTypeKey_iff (hv : names.Valid) (k : Name) : isTypeKey names k = true ↔ k = .typeKey := by
  rw [isTypeKey, beq_iff_eq]
  constructor
  · intro h
    unfold Interner.text at h
    cases hk : names.text? k with
    | none => exact absurd h (by simp [hk])
    | some t =>
      rw [hk, Option.getD_some] at h
      exact hv.text?_inj (h ▸ hk) hv.text?_typeKey
  · rintro rfl
    exact Interner.text_of_text? hv.text?_typeKey

/-- Such a bag is written with the type first, and then in its own order. -/
lemma bagForms_keyed (hv : names.Valid) {type : Expr} (h : .typeKey ∉ os.map Prod.fst) :
    bagForms names (formBag names ((.typeKey, type) :: os)) =
      form names type :: formAll names (pairs os) := by
  have htype : isTypeKey names .typeKey = true := (isTypeKey_iff hv _).mpr rfl
  have hothers : (formBag names os).filter (fun e => !isTypeKey names e.1) = formBag names os := by
    refine List.filter_eq_self.mpr fun e he => ?_
    rw [formBag_eq_map] at he
    obtain ⟨a, ha, rfl⟩ := List.mem_map.mp he
    have hne : ¬ isTypeKey names a.1 = true := by
      rw [isTypeKey_iff hv]
      rintro heq
      exact h (heq ▸ List.mem_map_of_mem ha)
    simpa using hne
  have hpairs : (formBag names os).flatMap (fun e => [Form.keyword .dummy e.1, e.2]) =
      formAll names (pairs os) := by
    rw [formBag_eq_map, formAll_eq_map, pairs, List.map_flatMap, List.flatMap_map]
    rfl
  simp only [bagForms, formBag, List.find?_cons, htype, List.filter_cons, Bool.not_true, hothers,
    Bool.false_eq_true, if_false, hpairs]
  rfl

lemma entries_bagOf {type : Expr} (h : .typeKey ∉ vs.map Prod.fst) (hn : (vs.map Prod.fst).Nodup) :
    (Properties.bagOf type vs).entries = (.typeKey, type) :: vs := by
  rw [Properties.bagOf, Attributes.empty_merge hn]
  exact Attributes.entries_merge (a := Attributes.empty.insert .typeKey type) (b := ⟨vs⟩)
    (List.nodup_cons.mpr ⟨h, hn⟩)

/-- The elements of a field are read as the field if its values are full, and only then. -/
lemma bag_iff (hv : names.Valid) {a : Attributes Expr} (hk : a.Keyed names)
    (hr : ∀ b ∈ a.entries, Restored names b.2) {n : Name}
    (hg : gs.map Form.unplaced =
      (Form.name .dummy n :: bagForms names (formBag names a.entries)).map Form.unplaced) :
    (∃ s type rest vs, ofForms names gs = .ok (ident s n :: type :: rest) ∧ Paired rest vs ∧
      unplacedBag (Properties.bagOf type vs).entries = unplacedBag a.entries) ↔
      isFullBag a.entries = true := by
  obtain ⟨type, os, ha, hnew, hnodup⟩ := keyed_cases hk
  rw [ha, bagForms_keyed hv hnew] at hg
  rw [ha] at hr ⊢
  have hall : DenotesAll names gs (ident .dummy n :: type :: pairs os) ↔
      isFullAll (ident .dummy n :: type :: pairs os) = true := by
    refine denotesAll_iff (fun e he => ?_) hg
    simp only [List.mem_cons] at he
    obtain rfl | rfl | he := he
    · exact restored_ident _ _
    · exact hr (.typeKey, e) (by simp)
    · exact restored_pairs (fun b hb => hr b (by simp [hb])) e he
  rw [isFullBag, ← isFullAll_pairs, ← isFullAll, ← Bool.true_and (isFullAll _)]
  refine Iff.trans ?_ hall
  -- The elements are read as a name, a type, and keywords with the keys of the bag.
  obtain ⟨_, _, rfl, hname, htail⟩ := List.map_eq_cons_iff.mp hg
  obtain ⟨_, gs, rfl, -, htail⟩ := List.map_eq_cons_iff.mp htail
  obtain ⟨t, rfl⟩ := Form.name_of_unplaced hname
  constructor
  · rintro ⟨s, type', rest, vs, hds, hvs, he⟩
    obtain ⟨_, _, -, htype, heq⟩ := ofForms_cons_eq_ok.mp hds
    obtain ⟨rfl, rfl⟩ := List.cons.inj heq
    obtain ⟨_, _, -, hrest, heq'⟩ := ofForms_cons_eq_ok.mp htype
    obtain ⟨rfl, rfl⟩ := List.cons.inj heq'
    obtain ⟨us, hus, hkeys⟩ := paired_of_ofForms htail hrest
    obtain rfl := hvs.unique hus
    rw [entries_bagOf (by rwa [hkeys]) (by rwa [hkeys])] at he
    simp only [unplacedBag, List.cons.injEq, Prod.mk.injEq, true_and] at he
    refine ⟨_, hds, ?_⟩
    simp only [List.map_cons, unplaced, he.1, hvs.unplaced, pairs_unplaced_iff.mpr he.2]
  · rintro ⟨_, hds, he⟩
    obtain ⟨_, _, hn, htype, rfl⟩ := ofForms_cons_eq_ok.mp hds
    obtain rfl := Except.ok.inj hn
    obtain ⟨type', rest, -, hrest, rfl⟩ := ofForms_cons_eq_ok.mp htype
    obtain ⟨vs, hvs, hkeys⟩ := paired_of_ofForms htail hrest
    rw [List.map_cons, List.map_cons, List.map_cons, List.map_cons, hvs.unplaced] at he
    simp only [List.cons.injEq, pairs_unplaced_iff] at he
    refine ⟨t, type', rest, vs, hds, hvs, ?_⟩
    rw [entries_bagOf (by rwa [hkeys]) (by rwa [hkeys])]
    simp only [unplacedBag, he.2.1, he.2.2]

end Bags

section Tables

/-- The form of a parameter with the bag of its entry, if it has one. -/
def bagParamForm (names : Interner) (q : Ident × Option (Attributes Expr)) : Form :=
  paramForm (q.1, q.2.map fun a => bagForms names (formBag names a.entries))

variable {qs : List (Ident × Option (Attributes Expr))} {fs : List (Ident × Attributes Expr)}

lemma unplacedFields_cons (f : Ident × Attributes Expr) (fs : List (Ident × Attributes Expr)) :
    unplacedFields (f :: fs) = (f.1.unplaced, ⟨unplacedBag f.2.entries⟩) :: unplacedFields fs := rfl

lemma names_of_unplacedFields {fs os : List (Ident × Attributes Expr)}
    (h : unplacedFields fs = unplacedFields os) :
    fs.map (fun f => f.1.name) = os.map fun f => f.1.name := by
  have hm := congrArg (List.map fun f : Ident × Attributes Expr => f.1.name) h
  simpa [unplacedFields_eq_map, Ident.unplaced, Function.comp_def] using hm

/-- The forms of fields, with or without names between them, are read as the fields if these
are full, and only then. -/
lemma fields_iff (hv : names.Valid)
    (hq : ∀ f ∈ entriesOf qs, f.2.Keyed names ∧ ∀ a ∈ f.2.entries, Restored names a.2)
    (hg : gs.map Form.unplaced = (qs.map (bagParamForm names)).map Form.unplaced) :
    (∃ fs, Fields names gs fs ∧ unplacedFields fs = unplacedFields (entriesOf qs)) ↔
      isFullFields (entriesOf qs) = true := by
  induction qs generalizing gs with
  | nil =>
    obtain rfl : gs = [] := by simpa using hg
    exact ⟨fun _ => rfl, fun _ => ⟨[], .nil, rfl⟩⟩
  | cons q qs ih =>
    obtain ⟨g, gs, rfl, hhead, htail⟩ := List.map_eq_cons_iff.mp hg
    obtain ⟨i, _ | a⟩ := q
    · -- A name alone is no field.
      obtain ⟨t, elements, rfl, -⟩ := Form.group_of_unplaced hhead
      rw [entriesOf_cons_none] at hq ⊢
      rw [← ih hq htail]
      constructor
      · rintro ⟨fs, hfs, he⟩
        cases hfs with
        | skip _ hfs => exact ⟨fs, hfs, he⟩
      · rintro ⟨fs, hfs, he⟩
        exact ⟨fs, .skip rfl hfs, he⟩
    · obtain ⟨t, elements, rfl, hel⟩ := Form.group_of_unplaced hhead
      obtain ⟨entries⟩ := a
      rw [entriesOf_cons_some] at hq ⊢
      obtain ⟨⟨hk, hr⟩, hq⟩ := List.forall_mem_cons.mp hq
      rw [isFullFields, Bool.and_eq_true, ← ih hq htail, ← bag_iff hv hk hr hel]
      constructor
      · rintro ⟨_, hfs, he⟩
        cases hfs with
        | skip hs _ => exact absurd hs (by simp [Form.isGroupIn])
        | @field _ s n type _ _ rest vs fs hes hvs hfs =>
          simp only [unplacedFields_cons, List.cons.injEq, Prod.mk.injEq, Ident.unplaced,
            Ident.mk.injEq, Attributes.mk.injEq, and_true] at he
          obtain ⟨⟨rfl, hbag⟩, hothers⟩ := he
          exact ⟨⟨s, type, rest, vs, hes, hvs, hbag⟩, fs, hfs, hothers⟩
      · rintro ⟨⟨s, type, rest, vs, hes, hvs, hbag⟩, fs, hfs, he⟩
        refine ⟨_, .field t s hes hvs hfs, ?_⟩
        rw [unplacedFields_cons, unplacedFields_cons, hbag, he]
        rfl

/-- What is read as a table, but for places. -/
def DenotesTable (names : Interner) (gs : List Form)
    (fields : List (Ident × Attributes Expr)) : Prop :=
  ∃ t, tableOf names .empty gs = .ok t ∧ unplacedFields t.entries = unplacedFields fields

/-- What is made of a table is read if the table is. -/
lemma denotes_table {g : Form} {e : Expr} {f : Properties Expr → Expr}
    (h : ofForm names g = (tableOf names .empty gs).map f)
    (hf : ∀ t : Properties Expr,
      (f t).unplaced = e.unplaced ↔ unplacedFields t.entries = unplacedFields fs) :
    Denotes names g e ↔ DenotesTable names gs fs := by
  rw [Denotes, h]
  constructor
  · rintro ⟨d, hd, he⟩
    obtain ⟨t, ht, rfl⟩ := map_eq_ok.mp hd
    exact ⟨t, ht, (hf t).mp he⟩
  · rintro ⟨t, ht, he⟩
    exact ⟨f t, map_eq_ok.mpr ⟨t, ht, rfl⟩, (hf t).mpr he⟩

/-- Whatever list the entries of a table are laid out in, the table is read from its forms if it is
full, and only then. -/
lemma denotesTable_iff (hv : names.Valid) {fields : Properties Expr} (hk : fields.Keyed names)
    (hr : ∀ f ∈ fields.entries, ∀ a ∈ f.2.entries, Restored names a.2)
    (he : entriesOf qs = fields.entries)
    (hg : gs.map Form.unplaced = (qs.map (bagParamForm names)).map Form.unplaced) :
    DenotesTable names gs fields.entries ↔ isFullFields fields.entries = true := by
  have hiff := fields_iff hv (by rw [he]; exact fun f hf => ⟨hk.bags f hf, hr f hf⟩) hg
  rw [he] at hiff
  rw [← hiff]
  constructor
  · rintro ⟨t, ht, hfields⟩
    exact ⟨t.entries, (tableOf_iff.mp ⟨t, ht, rfl⟩).1, hfields⟩
  · rintro ⟨fs, hfs, hfields⟩
    have hnodup : (fs.map fun f => f.1.name).Nodup := by
      rw [names_of_unplacedFields hfields]
      exact hk.nodup
    obtain ⟨t, ht, rfl⟩ := tableOf_iff.mpr ⟨hfs, hnodup⟩
    exact ⟨t, ht, hfields⟩

lemma fieldForms_eq_map (fields : List (Ident × Attributes Expr)) :
    (formFields names fields).map (fun f => fieldForm f.1 f.2) =
      (itemsOf fields).map (bagParamForm names) := by
  rw [formFields_eq_map, itemsOf, List.map_map, List.map_map]
  rfl

lemma paramForms_eq_map (params : List Ident) (fields : List (Ident × Attributes Expr)) :
    (alignParams params (formFields names fields)).map paramForm =
      (alignParams params fields).map (bagParamForm names) := by
  rw [formFields_eq_map,
    alignParams_map fun a : Attributes Expr => bagForms names (formBag names a.entries),
    List.map_map]
  rfl

/-- The fields of a declaration or a record type are read as its table. -/
lemma denotesTable_fields (hv : names.Valid) {fields : Properties Expr} (hk : fields.Keyed names)
    (hr : ∀ f ∈ fields.entries, ∀ a ∈ f.2.entries, Restored names a.2)
    (hg : gs.map Form.unplaced =
      ((formFields names fields.entries).map fun f => fieldForm f.1 f.2).map Form.unplaced) :
    DenotesTable names gs fields.entries ↔ isFullFields fields.entries = true := by
  rw [fieldForms_eq_map] at hg
  exact denotesTable_iff hv hk hr (entriesOf_itemsOf fields.entries) hg

end Tables

end Expr

end YinFrontEnd
