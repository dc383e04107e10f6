import YinFrontEnd.Proofs.Bag
import YinFrontEnd.Proofs.Expr.Acceptance

/-!
# What is in a table

A table has one field for each square group, in the order of the groups, and nothing else among the
forms matters to it. A field has the name that its group begins with, at its place. The bag of a
field has its keys in the order in which they first come, the type before all of them, and under
each key there is what was written for it last.
-/
namespace YinFrontEnd

namespace Form

/-- Keywords, each with the form that follows it. -/
def keywordValues : List Form → List (Name × Form)
  | keyword _ k :: v :: fs => (k, v) :: keywordValues fs
  | _ => []

/-- What a field writes under its keys, in the order in which it comes. The type is written by
position, before everything else. -/
def writes (type : Form) (rest : List Form) : List (Name × Form) :=
  (.typeKey, type) :: keywordValues rest

end Form

/-- The values in the bags of a table. -/
def Properties.values {α : Type} (t : Properties α) : List α :=
  t.entries.flatMap fun f => f.2.entries.map Prod.snd

namespace Expr

open Form (Alternating specs writes keywordValues)

/-- The field comes from the elements of a group: its name at its place, its keys as they first
come, and under each key the last form that is written for it, as `R` takes forms. -/
inductive FieldFrom (R : Form → Expr → Prop) : List Form → Ident × Attributes Expr → Prop
  | mk (i : Ident) {type : Form} {rest : List Form} {a : Attributes Expr} : Alternating rest →
      a.keys = ((writes type rest).map Prod.fst).eraseDups →
      (∀ k, Option.Rel R ((writes type rest).reverse.lookup k) (a.get? k)) →
      FieldFrom R (.name i.span i.name :: type :: rest) (i, a)

variable {names : Interner} {R : Form → Expr → Prop} {fs gs : List Form} {es : List Expr}
  {vs : List (Name × Expr)} {type : Expr} {t : Properties Expr}

lemma FieldFrom.keyed {field : Ident × Attributes Expr} (h : FieldFrom R fs field) :
    field.2.keys.Nodup ∧ field.2.keys.head? = some .typeKey := by
  cases h with
  | mk i _ hkeys _ =>
    rw [hkeys]
    refine ⟨nodup_eraseDups _, ?_⟩
    rw [writes, List.map_cons, List.eraseDups_cons]
    rfl

lemma keyed_of_fieldFrom {fields : List (Ident × Attributes Expr)} {groups : List (List Form)}
    (h : List.Forall₂ (FieldFrom R) groups fields) :
    ∀ field ∈ fields, field.2.keys.Nodup ∧ field.2.keys.head? = some .typeKey := by
  induction h with
  | nil => simp
  | cons hfield _ ih => exact List.forall_mem_cons.mpr ⟨hfield.keyed, ih⟩

lemma lookup_forall₂ {α β : Type} {S : α → β → Prop} {xs : List (Name × α)} {ys : List (Name × β)}
    (h : List.Forall₂ (fun x y => x.1 = y.1 ∧ S x.2 y.2) xs ys) (k : Name) :
    Option.Rel S (xs.lookup k) (ys.lookup k) := by
  induction h with
  | nil => exact .none
  | @cons x y xs ys hxy _ ih =>
    obtain ⟨m, a⟩ := x
    obtain ⟨n, b⟩ := y
    obtain ⟨rfl, hab⟩ := hxy
    rw [List.lookup_cons, List.lookup_cons]
    by_cases hk : k = m
    · subst hk
      simpa using Option.Rel.some hab
    · simpa only [beq_false_of_ne hk] using ih

/-- The values of keywords stand among the forms. -/
lemma mem_of_keywordValues {g : Form} {k : Name} (h : (k, g) ∈ keywordValues fs) : g ∈ fs := by
  fun_induction keywordValues fs with
  | case1 s m v fs ih =>
    obtain heq | h := List.mem_cons.mp h
    · obtain ⟨-, rfl⟩ := Prod.mk.inj heq
      simp
    · simp [ih h]
  | case2 => exact absurd h List.not_mem_nil

/-- What is in a bag comes from one of the elements of its group. -/
lemma FieldFrom.exists_of_mem {field : Ident × Attributes Expr}
    (h : FieldFrom R fs field) {a : Name × Expr} (ha : a ∈ field.2.entries) :
    ∃ g ∈ fs, R g a.2 := by
  have hkeys := h.keyed.1
  cases h with
  | @mk i type rest bag _ _ hvalues =>
    have hget : bag.get? a.1 = some a.2 := Attributes.get?_of_mem hkeys ha
    have hrel := hvalues a.1
    rw [hget] at hrel
    obtain ⟨g, hg, hr⟩ : ∃ g, (writes type rest).reverse.lookup a.1 = some g ∧ R g a.2 := by
      cases hlookup : (writes type rest).reverse.lookup a.1 with
      | none =>
        rw [hlookup] at hrel
        cases hrel
      | some g =>
        rw [hlookup] at hrel
        cases hrel with
        | some hr => exact ⟨g, rfl, hr⟩
    obtain ⟨before, after, heq, -⟩ := List.lookup_eq_some_iff.mp hg
    have hmem : (a.1, g) ∈ writes type rest := by
      rw [← List.mem_reverse, heq]
      simp
    refine ⟨g, ?_, hr⟩
    obtain htype | hmem := List.mem_cons.mp hmem
    · obtain ⟨-, rfl⟩ := Prod.mk.inj htype
      simp
    · simp [mem_of_keywordValues hmem]

/-- What is in a table comes from the square groups. -/
lemma exists_of_mem_values (h : List.Forall₂ (FieldFrom R) (specs fs) t.entries) {d : Expr}
    (hd : d ∈ t.values) : ∃ es ∈ specs fs, ∃ g ∈ es, R g d := by
  obtain ⟨field, hfield, hd⟩ := List.mem_flatMap.mp hd
  obtain ⟨a, ha, rfl⟩ := List.mem_map.mp hd
  obtain ⟨es, hes, hfrom⟩ := exists_of_forall₂ h hfield
  exact ⟨es, hes, hfrom.exists_of_mem ha⟩

/-- The keywords and the values of a field are parsed where they are written. -/
lemma keywordValues_of_paired (h : Paired es vs)
    (hes : List.Forall₂ (fun f e => ofForm names f = .ok e) fs es)
    (hR : ∀ f ∈ fs, ∀ e, ofForm names f = .ok e → R f e) :
    List.Forall₂ (fun w v => w.1 = v.1 ∧ R w.2 v.2) (keywordValues fs) vs := by
  induction h generalizing fs with
  | nil =>
    obtain rfl := List.forall₂_nil_right_iff.mp hes
    exact .nil
  | cons s _ ih =>
    obtain ⟨key, tail, hkey, htail, rfl⟩ := List.forall₂_cons_right_iff.mp hes
    obtain ⟨v, rest, hv, hrest, rfl⟩ := List.forall₂_cons_right_iff.mp htail
    obtain rfl := form_of_keyword hkey
    exact .cons ⟨rfl, hR v (by simp) _ hv⟩ (ih hrest fun f hf => hR f (by simp [hf]))

/-- The type of a field is the first thing that is put into its bag. -/
lemma bagOf_eq (type : Expr) (vs : List (Name × Expr)) :
    Properties.bagOf type vs = Attributes.empty.merge ⟨(.typeKey, type) :: vs⟩ := by
  rw [Properties.bagOf, Attributes.merge_merge
    (Attributes.nodup_insert Attributes.nodup_empty _ _) Attributes.nodup_empty]
  rfl

lemma fieldFrom_bagOf {i : Ident}
    (hfs : List.Forall₂ (fun f e => ofForm names f = .ok e) fs (ident i.span i.name :: type :: es))
    (hvs : Paired es vs) (hR : ∀ f ∈ fs, ∀ e, ofForm names f = .ok e → R f e) :
    FieldFrom R fs (i, Properties.bagOf type vs) := by
  obtain ⟨name, tail, hname, htail, rfl⟩ := List.forall₂_cons_right_iff.mp hfs
  obtain ⟨f, rest, hf, hrest, rfl⟩ := List.forall₂_cons_right_iff.mp htail
  obtain rfl := form_of_ident hname
  have hwrites : List.Forall₂ (fun w v => w.1 = v.1 ∧ R w.2 v.2) (writes f rest)
      ((.typeKey, type) :: vs) :=
    .cons ⟨rfl, hR f (by simp) _ hf⟩
      (keywordValues_of_paired hvs hrest fun g hg => hR g (by simp [hg]))
  have hkeys : (writes f rest).map Prod.fst = ((Name.typeKey, type) :: vs).map Prod.fst := by
    rw [← List.forall₂_eq_eq_eq, List.forall₂_map_left_iff, List.forall₂_map_right_iff]
    exact hwrites.imp fun w v hwv => hwv.1
  refine .mk i (alternating_of_paired hvs hrest) ?_ fun k => ?_
  · rw [bagOf_eq, Attributes.keys_merge Attributes.nodup_empty, hkeys]
    rfl
  · rw [bagOf_eq, Attributes.get?_merge]
    simpa [Attributes.empty, Attributes.get?] using
      lookup_forall₂ (List.forall₂_reverse_iff.mpr hwrites) k

/-- The fields come from the square groups, one from each. -/
lemma Fields.fieldFrom {fields : List (Ident × Attributes Expr)} (h : Fields names gs fields)
    (hR : ∀ es ∈ Form.specs gs, ∀ f ∈ es, ∀ e, ofForm names f = .ok e → R f e) :
    List.Forall₂ (FieldFrom R) (Form.specs gs) fields := by
  induction h with
  | nil => exact .nil
  | skip hg _ ih =>
    rw [specs_skip hg] at hR ⊢
    exact ih hR
  | @field s s' n type elements gs rest vs fields hes hvs _ ih =>
    rw [specs_square] at hR ⊢
    obtain ⟨hfirst, hothers⟩ := List.forall_mem_cons.mp hR
    exact .cons (fieldFrom_bagOf (i := ⟨n, s'⟩) (ofForms_eq_ok_iff.mp hes) hvs hfirst) (ih hothers)

/-- Forms that are not square groups are as good as absent. -/
lemma tableOf_filter (t : Properties Expr) (gs : List Form) :
    tableOf names t (gs.filter (·.isGroupIn .square)) = tableOf names t gs := by
  induction gs generalizing t with
  | nil => rfl
  | cons g gs ih =>
    obtain ⟨s, elements, rfl⟩ | hg := g.group_or_not .square
    · rw [List.filter_cons_of_pos (by rfl), tableOf_square, tableOf_square]
      simp only [ih]
    · rw [List.filter_cons_of_neg (by simp [hg]), tableOf_skip hg, ih]

end Expr

end YinFrontEnd
