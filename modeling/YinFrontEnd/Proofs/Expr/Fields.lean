import YinFrontEnd.Expr.Parse
import YinFrontEnd.Proofs.Outcomes
import YinFrontEnd.Proofs.Table

/-!
# What a table is read from

A table is read from forms of which only the square groups count. Each of these is read as a
name, a type, and keywords with values; if no two of them have one name they make up the table,
in their order. This describes reading a table without the table that grows meanwhile.
-/
namespace YinFrontEnd

/-- A form is a group in the brackets, or none. -/
lemma Form.group_or_not (f : Form) (d : Delimiter) :
    (∃ s fs, f = .group s d fs) ∨ f.isGroupIn d = false := by
  cases f with
  | group s e fs =>
    by_cases h : e = d
    · subst h
      exact .inl ⟨s, fs, rfl⟩
    · exact .inr (by simpa [isGroupIn] using h)
  | _ => exact .inr rfl

/-- Keywords and values take turns in a list, and make up the entries. -/
inductive Expr.Paired : List Expr → List (Name × Expr) → Prop
  | nil : Paired [] []
  | cons (s : Span) {k : Name} {v : Expr} {es : List Expr} {vs : List (Name × Expr)} :
      Paired es vs → Paired (.keyword s k :: v :: es) ((k, v) :: vs)

namespace Attributes

variable {names : Interner} {a b : Attributes Expr}

lemma exists_of_keyword? {e : Expr} {k : Name} (h : e.keyword? = some k) :
    ∃ s, e = .keyword s k := by
  cases e with
  | keyword s n =>
    obtain rfl : n = k := by simpa [Expr.keyword?] using h
    exact ⟨s, rfl⟩
  | _ => exact absurd h (by simp [Expr.keyword?])

lemma ofPairs_of_paired {es : List Expr} {vs : List (Name × Expr)} (h : Expr.Paired es vs)
    (a : Attributes Expr) : ofPairs names a es = .ok (a.merge ⟨vs⟩) := by
  induction h generalizing a with
  | nil => rfl
  | cons s _ ih => simp only [ofPairs, Expr.keyword?, ih, merge_cons]

lemma even_of_paired {es : List Expr} {vs : List (Name × Expr)} (h : Expr.Paired es vs) :
    es.length % 2 = 0 := by
  induction h with
  | nil => rfl
  | cons s _ ih =>
    simp only [List.length_cons]
    omega

lemma paired_of_ofPairs : ∀ {es : List Expr} {a : Attributes Expr}, es.length % 2 = 0 →
    ofPairs names a es = .ok b → ∃ vs, Expr.Paired es vs
  | [], _, _, _ => ⟨[], .nil⟩
  | [e], _, he, _ => absurd he (by simp)
  | key :: value :: es, a, he, h => by
    rw [ofPairs] at h
    cases hk : key.keyword? with
    | none => exact absurd h (by simp [hk])
    | some k =>
      obtain ⟨s, rfl⟩ := exists_of_keyword? hk
      simp only [hk] at h
      have htail : es.length % 2 = 0 := by
        simp only [List.length_cons] at he
        omega
      obtain ⟨vs, hvs⟩ := paired_of_ofPairs htail h
      exact ⟨(k, value) :: vs, .cons s hvs⟩

/-- A bag is read from keywords and values that take turns, and from nothing else. -/
lemma ofKeywordMap_eq_ok {es : List Expr} {s : Span} :
    ofKeywordMap names es s = .ok b ↔ ∃ vs, Expr.Paired es vs ∧ b = empty.merge ⟨vs⟩ := by
  unfold ofKeywordMap
  constructor
  · intro h
    by_cases he : es.length % 2 = 0
    · rw [if_pos he] at h
      obtain ⟨vs, hvs⟩ := paired_of_ofPairs he h
      rw [ofPairs_of_paired hvs] at h
      exact ⟨vs, hvs, (Except.ok.inj h).symm⟩
    · rw [if_neg he] at h
      exact absurd h (by simp)
  · rintro ⟨vs, hvs, rfl⟩
    rw [if_pos (even_of_paired hvs), ofPairs_of_paired hvs]

end Attributes

namespace Properties

variable {names : Interner} {t u : Properties Expr}

/-- The bag of a field: the type by position, and then the keywords, which may change it. -/
def bagOf (type : Expr) (vs : List (Name × Expr)) : Attributes Expr :=
  (Attributes.empty.insert .typeKey type).merge (Attributes.empty.merge ⟨vs⟩)

lemma nodup_bagOf (type : Expr) (vs : List (Name × Expr)) : (bagOf type vs).keys.Nodup :=
  Attributes.nodup_merge (Attributes.nodup_insert (a := .empty) List.nodup_nil _ _) _

/-- A field is read from a name that is new, a type, and keywords with values. -/
lemma addField_eq_ok (ht : t.Indexed) {s : Span} {es : List Expr} :
    t.addField names s es = .ok u ↔ ∃ s' n type rest vs, es = .ident s' n :: type :: rest ∧
      n ∉ t.names ∧ Expr.Paired rest vs ∧ u = t.extend ⟨n, s'⟩ (bagOf type vs) := by
  constructor
  · intro h
    match es with
    | [] => exact absurd h (by simp [addField])
    | [e] => exact absurd h (by simp [addField])
    | field :: type :: rest =>
      rw [addField] at h
      cases field with
      | ident s' n =>
        simp only [Expr.ident?] at h
        by_cases hn : t.contains n = true
        · rw [if_pos hn] at h
          exact absurd h (by simp)
        · rw [if_neg hn] at h
          obtain ⟨a, ha, rfl⟩ := map_eq_ok.mp h
          obtain ⟨vs, hvs, rfl⟩ := Attributes.ofKeywordMap_eq_ok.mp ha
          exact ⟨s', n, type, rest, vs, rfl, mt (ht.contains_iff n).mpr hn, hvs, rfl⟩
      | _ => exact absurd h (by simp [Expr.ident?])
  · rintro ⟨s', n, type, rest, vs, rfl, hn, hvs, rfl⟩
    have hc : ¬ t.contains n = true := mt (ht.contains_iff n).mp hn
    simp only [addField, Expr.ident?, if_neg hc]
    exact map_eq_ok.mpr ⟨_, Attributes.ofKeywordMap_eq_ok.mpr ⟨vs, hvs, rfl⟩, rfl⟩

end Properties

namespace Expr

section Equations

variable {names : Interner} {s t ls : Span} {d : Delimiter} {g first : Form}
  {gs elements others : List Form} {ds : List Expr}

lemma ofForms_eq_mapM (fs : List Form) : ofForms names fs = fs.mapM (ofForm names) := by
  induction fs with
  | nil => rfl
  | cons f fs ih => rw [ofForms, ih, List.mapM_cons]

lemma ofForms_cons_eq_ok {ds : List Expr} : ofForms names (g :: gs) = .ok ds ↔
    ∃ e es, ofForm names g = .ok e ∧ ofForms names gs = .ok es ∧ ds = e :: es := by
  rw [ofForms_eq_mapM, ofForms_eq_mapM]
  exact mapM_cons_eq_ok

lemma ofForm_call (h : ∀ n ∈ g.name?, SpecialForm.ofName? n = none) :
    ofForm names (.group s .paren (g :: gs)) =
      ofForm names g >>= fun e => ofForms names gs >>= fun es => .ok (call s e es) := by
  have hh : g.name?.bind SpecialForm.ofName? = none := by
    cases hn : g.name? with
    | none => rfl
    | some n => exact h n hn
  refine (ofForm.eq_def names (.group s .paren (g :: gs))).trans ?_
  simp only [hh]
  rfl

/-- A list is read as parameters if all of them are groups, and there are some, or none is. -/
lemma parameters_eq_ok_iff {list : Form} {is : List Ident} {typed : Bool} :
    parameters names list elements = .ok (is, typed) ↔
      ∃ ps : List (Option Ident × Bool), elements.mapM (parameter names) = .ok ps ∧
        (∀ p ∈ ps, p.2 = typed) ∧ (typed = true → ps ≠ []) ∧ is = ps.filterMap (·.1) := by
  constructor
  · intro h
    unfold parameters at h
    cases hps : elements.mapM (parameter names) with
    | error e =>
      rw [hps] at h
      exact absurd h (by simp)
    | ok ps =>
      simp only [hps] at h
      split at h
      · exact absurd h (by simp)
      · rename_i hmixed
        obtain ⟨rfl, rfl⟩ := Prod.mk.inj (Except.ok.inj h)
        refine ⟨ps, rfl, fun p hp => ?_, ?_, rfl⟩
        · cases hp2 : p.2 with
          | true => exact (List.any_eq_true.mpr ⟨p, hp, hp2⟩).symm
          | false =>
            have hnot : ps.any (!·.2) = true := List.any_eq_true.mpr ⟨p, hp, by simp [hp2]⟩
            rw [hnot, Bool.and_true] at hmixed
            exact (Bool.eq_false_iff.mpr hmixed).symm
        · rintro hany rfl
          exact absurd hany (by simp)
  · rintro ⟨ps, hps, hall, hne, rfl⟩
    cases typed with
    | false =>
      have hnone : ps.any (·.2) = false := List.any_eq_false.mpr fun p hp => by simp [hall p hp]
      simp [parameters, hps, hnone]
    | true =>
      have hnot : ps.any (!·.2) = false := List.any_eq_false.mpr fun p hp => by simp [hall p hp]
      obtain ⟨p, hp⟩ := List.exists_mem_of_ne_nil ps (hne rfl)
      have hsome : ps.any (·.2) = true := List.any_eq_true.mpr ⟨p, hp, hall p hp⟩
      simp [parameters, hps, hnot, hsome]

lemma ofForm_function : ofForm names (.group s .paren (.name t SpecialForm.function.name ::
      .group ls d elements :: first :: others)) =
    parameters names (.group ls d elements) elements >>= fun r =>
      (if r.2 then (tableOf names .empty elements).map some else .ok none) >>= fun table =>
        ofForms names (first :: others) >>= fun es => .ok (function s r.1 table
          (block (first.span.merge (others.getLastD first).span) es)) := by
  refine (ofForm.eq_def names _).trans ?_
  change (parameters names (.group ls d elements) elements >>= _) = _
  congr 1
  funext r
  obtain ⟨is, typed⟩ := r
  cases typed with
  | false =>
    simp only [Bool.false_eq_true, if_false, ofForms]
    cases ofForm names first with
    | error e => rfl
    | ok e => cases ofForms names others <;> rfl
  | true =>
    simp only [if_true, ofForms]
    cases tableOf names .empty elements with
    | error e => rfl
    | ok table =>
      cases ofForm names first with
      | error e => rfl
      | ok e => cases ofForms names others <;> rfl

/-- With names alone as parameters there is no table to read. -/
lemma ofForm_plainFunction {is : List Ident}
    (hp : parameters names (.group ls d elements) elements = .ok (is, false)) :
    ofForm names (.group s .paren (.name t SpecialForm.function.name ::
        .group ls d elements :: first :: others)) =
      (ofForms names (first :: others)).map fun es => function s is none
        (block (first.span.merge (others.getLastD first).span) es) := by
  rw [ofForm_function, hp]
  rfl

lemma ofForm_typedFunction {is : List Ident}
    (hp : parameters names (.group ls d elements) elements = .ok (is, true)) :
    ofForm names (.group s .paren (.name t SpecialForm.function.name ::
        .group ls d elements :: first :: others)) =
      tableOf names .empty elements >>= fun table =>
        (ofForms names (first :: others)).map fun es => function s is (some table)
          (block (first.span.merge (others.getLastD first).span) es) := by
  rw [ofForm_function, hp]
  change (tableOf names .empty elements).map some >>= _ = _
  cases tableOf names .empty elements <;> rfl

lemma ofForm_function_of_list {list : Form} (h : list.group? = none) :
    ofForm names (.group s .paren (.name t SpecialForm.function.name ::
        list :: first :: others)) =
      .error (FormFault.error (.parametersNotGroup (list.write names)) list.span) := by
  cases list with
  | group _ _ _ => exact absurd h (by simp [Form.group?])
  | _ => rfl

lemma ofForm_record_of_name {name : Form} (h : name.ident? = none) :
    ofForm names (.group s .paren (.name t SpecialForm.record.name :: name :: first :: others)) =
      .error (FormFault.error (.recordNameNotName (name.write names)) name.span) := by
  cases name with
  | name _ _ => exact absurd h (by simp [Form.ident?])
  | _ => rfl

lemma ofForm_derivedRecord {u : Span} {n : Name} {is : List Ident}
    (hp : parents names elements = .ok is) :
    ofForm names (.group s .paren (.name t SpecialForm.record.name :: .name u n ::
        .group ls .paren elements :: others)) =
      (tableOf names .empty others).map (recordType s ⟨n, u⟩ (some is)) := by
  change (parents names elements >>= _) = _
  rw [hp]
  rfl

/-- A record without parents: what follows the name is not a group in parentheses. -/
lemma ofForm_recordAlone {u : Span} {n : Name} (hfirst : first.isGroupIn .paren = false) :
    ofForm names (.group s .paren (.name t SpecialForm.record.name :: .name u n ::
        first :: others)) =
      (tableOf names .empty (first :: others)).map (recordType s ⟨n, u⟩ none) := by
  cases first with
  | group ls d elements =>
    cases d with
    | paren => exact absurd hfirst (by simp [Form.isGroupIn])
    | _ => rfl
  | _ => rfl

end Equations

variable {names : Interner} {t u : Properties Expr}

/-- The square groups among the forms are read as the fields. -/
inductive Fields (names : Interner) : List Form → List (Ident × Attributes Expr) → Prop
  | nil : Fields names [] []
  | skip {g : Form} {gs : List Form} {fs : List (Ident × Attributes Expr)} :
      g.isGroupIn .square = false → Fields names gs fs → Fields names (g :: gs) fs
  | field (s s' : Span) {n : Name} {type : Expr} {elements gs : List Form} {rest : List Expr}
      {vs : List (Name × Expr)} {fs : List (Ident × Attributes Expr)} :
      ofForms names elements = .ok (.ident s' n :: type :: rest) → Paired rest vs →
      Fields names gs fs →
      Fields names (.group s .square elements :: gs) ((⟨n, s'⟩, Properties.bagOf type vs) :: fs)

lemma tableOf_skip {g : Form} (hg : g.isGroupIn .square = false) (t : Properties Expr)
    (gs : List Form) : tableOf names t (g :: gs) = tableOf names t gs := by
  cases g with
  | group s d elements =>
    cases d with
    | square => exact absurd hg (by simp [Form.isGroupIn])
    | _ => rfl
  | _ => rfl

lemma tableOf_square (s : Span) (t : Properties Expr) (elements gs : List Form) :
    tableOf names t (.group s .square elements :: gs) =
      ofForms names elements >>= fun es => t.addField names s es >>= fun t => tableOf names t gs :=
  rfl

/-- Reading puts fields with new and distinct names behind those that are there. -/
lemma tableOf_of_fields {gs : List Form} {fs : List (Ident × Attributes Expr)}
    (h : Fields names gs fs) (ht : t.Indexed)
    (hn : (t.names ++ fs.map fun f => f.1.name).Nodup) :
    ∃ u, tableOf names t gs = .ok u ∧ u.entries = t.entries ++ fs := by
  induction h generalizing t with
  | nil => exact ⟨t, rfl, (List.append_nil _).symm⟩
  | skip hg _ ih =>
    rw [tableOf_skip hg]
    exact ih ht hn
  | @field s s' n type elements gs rest vs fs he hvs _ ih =>
    have hnew : n ∉ t.names := fun hmem =>
      (List.nodup_append.mp hn).2.2 n hmem n (by simp) rfl
    obtain ⟨hentries, hindexed⟩ := ht.extend ⟨n, s'⟩ hnew (Properties.nodup_bagOf type vs)
    have hnames : (t.extend ⟨n, s'⟩ (Properties.bagOf type vs)).names = t.names ++ [n] := by
      simp [Properties.names, hentries]
    have hadd : t.addField names s (ident s' n :: type :: rest) = _ :=
      (Properties.addField_eq_ok ht).mpr ⟨s', n, type, rest, vs, rfl, hnew, hvs, rfl⟩
    obtain ⟨u, hu, heq⟩ := ih hindexed (by simpa [hnames] using hn)
    refine ⟨u, ?_, ?_⟩
    · rw [tableOf_square, he]
      change (t.addField names s _ >>= fun t => tableOf names t gs) = _
      rw [hadd]
      exact hu
    · rw [heq, hentries, List.append_assoc, List.singleton_append]

/-- Nothing but such fields is read. -/
lemma fields_of_tableOf {gs : List Form} (ht : t.Indexed) (h : tableOf names t gs = .ok u) :
    ∃ fs, Fields names gs fs ∧ u.entries = t.entries ++ fs ∧ u.Indexed := by
  induction gs generalizing t with
  | nil =>
    obtain rfl := Except.ok.inj h
    exact ⟨[], .nil, (List.append_nil _).symm, ht⟩
  | cons g gs ih =>
    obtain ⟨s, elements, rfl⟩ | hg := g.group_or_not .square
    · rw [tableOf_square] at h
      obtain ⟨es, hes, h⟩ := bind_eq_ok.mp h
      obtain ⟨t', ht', h⟩ := bind_eq_ok.mp h
      obtain ⟨s', n, type, rest, vs, rfl, hnew, hvs, rfl⟩ := (Properties.addField_eq_ok ht).mp ht'
      obtain ⟨hentries, hindexed⟩ :=
        ht.extend ⟨n, s'⟩ hnew (Properties.nodup_bagOf type vs)
      obtain ⟨fs, hfs, heq, hu⟩ := ih hindexed h
      refine ⟨_, .field s s' hes hvs hfs, ?_, hu⟩
      rw [heq, hentries, List.append_assoc, List.singleton_append]
    · rw [tableOf_skip hg] at h
      obtain ⟨fs, hfs, heq, hu⟩ := ih ht h
      exact ⟨fs, .skip hg hfs, heq, hu⟩

/-- The tables that are read are the lists of fields with distinct names. -/
theorem tableOf_iff {gs : List Form} {fs : List (Ident × Attributes Expr)} :
    (∃ u, tableOf names .empty gs = .ok u ∧ u.entries = fs) ↔
      Fields names gs fs ∧ (fs.map fun f => f.1.name).Nodup := by
  constructor
  · rintro ⟨u, hu, rfl⟩
    obtain ⟨fs, hfs, heq, hindexed⟩ := fields_of_tableOf Properties.indexed_empty hu
    have hnodup := hindexed.nodup
    unfold Properties.names at hnodup
    simp only [Properties.empty, List.nil_append] at heq
    rw [heq] at hnodup ⊢
    exact ⟨hfs, hnodup⟩
  · rintro ⟨hfs, hn⟩
    exact tableOf_of_fields hfs Properties.indexed_empty hn

end Expr

end YinFrontEnd
