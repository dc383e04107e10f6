import Mathlib.Data.List.Basic
import YinFrontEnd.Expr.Write
import YinFrontEnd.SpecialForm

/-!
# Parameters and entries as one list of items

A parameter list with a table is written from one list of items, in which the parameters and the
entries of the table are brought together. A parameter takes the entries up to its own, or stands
alone; whatever is shown of the items goes by this distinction.
-/
namespace YinFrontEnd

namespace Expr

variable {α β : Type} {p : Ident} {params : List Ident} {fields front back : List (Ident × α)}

/-- Entries as items. -/
def itemsOf (fields : List (Ident × α)) : List (Ident × Option α) :=
  fields.map fun f => (f.1, some f.2)

/-- The entries of a list of parameters, of which some have one. -/
def entriesOf {α : Type} (qs : List (Ident × Option α)) : List (Ident × α) :=
  qs.filterMap fun q => q.2.map fun a => (q.1, a)

@[simp] lemma map_fst_itemsOf (fields : List (Ident × α)) :
    (itemsOf fields).map Prod.fst = fields.map Prod.fst := by
  simp [itemsOf]

@[simp] lemma entriesOf_itemsOf (fields : List (Ident × α)) :
    entriesOf (itemsOf fields) = fields := by
  rw [entriesOf, itemsOf, List.filterMap_map]
  exact List.filterMap_some

@[simp] lemma entriesOf_append (qs rs : List (Ident × Option α)) :
    entriesOf (qs ++ rs) = entriesOf qs ++ entriesOf rs := by
  simp [entriesOf]

@[simp] lemma entriesOf_cons_none (p : Ident) (qs : List (Ident × Option α)) :
    entriesOf ((p, none) :: qs) = entriesOf qs := rfl

@[simp] lemma entriesOf_cons_some (p : Ident) (a : α) (qs : List (Ident × Option α)) :
    entriesOf ((p, some a) :: qs) = (p, a) :: entriesOf qs := rfl

section Cases

/-- A parameter without an entry stands alone. -/
lemma alignParams_cons_of_notMem (params : List Ident) (h : p ∉ fields.map Prod.fst) :
    alignParams (p :: params) fields = (p, none) :: alignParams params fields := by
  have hnone : fields.findIdx? (fun f => f.1 == p) = none := by
    rw [List.findIdx?_eq_none_iff]
    intro f hf
    exact beq_eq_false_iff_ne.mpr fun heq => h (heq ▸ List.mem_map_of_mem hf)
  rw [alignParams, hnone]

/-- A parameter with an entry takes the first of its entries and those in front of it. -/
lemma alignParams_cons_of_mem (params : List Ident) {a : α} (h : p ∉ front.map Prod.fst) :
    alignParams (p :: params) (front ++ (p, a) :: back) =
      itemsOf (front ++ [(p, a)]) ++ alignParams params back := by
  have hsome : (front ++ (p, a) :: back).findIdx? (fun f => f.1 == p) = some front.length := by
    rw [List.findIdx?_append, List.findIdx?_eq_none_iff.mpr, List.findIdx?_cons]
    · simp
    · intro f hf
      exact beq_eq_false_iff_ne.mpr fun heq => h (heq ▸ List.mem_map_of_mem hf)
  have hlength : front.length + 1 = (front ++ [(p, a)]).length := by simp
  have happend : front ++ (p, a) :: back = front ++ [(p, a)] ++ back := List.append_cons ..
  rw [alignParams, hsome]
  dsimp only
  rw [hlength, happend, List.take_left, List.drop_left]
  rfl

/-- What holds of the entries alone, and goes on holding when a parameter is put in front, with
entries or alone, holds of any parameters and entries that are merged. -/
lemma alignParams_induction
    {motive : List Ident → List (Ident × α) → List (Ident × Option α) → Prop}
    (nil : ∀ fields, motive [] fields (itemsOf fields))
    (alone : ∀ p params fields, p ∉ fields.map Prod.fst →
      motive params fields (alignParams params fields) →
        motive (p :: params) fields ((p, none) :: alignParams params fields))
    (taken : ∀ p params front a back, p ∉ front.map Prod.fst →
      motive params back (alignParams params back) →
        motive (p :: params) (front ++ (p, a) :: back)
          (itemsOf (front ++ [(p, a)]) ++ alignParams params back))
    (params : List Ident) (fields : List (Ident × α)) :
    motive params fields (alignParams params fields) := by
  induction params generalizing fields with
  | nil => exact nil fields
  | cons p params ih =>
    by_cases hp : p ∈ fields.map Prod.fst
    · obtain ⟨is, js, hsplit, hnot⟩ := List.eq_append_cons_of_mem hp
      obtain ⟨front, rest, rfl, rfl, hrest⟩ := List.map_eq_append_iff.mp hsplit
      obtain ⟨⟨i, a⟩, back, rfl, rfl, -⟩ := List.map_eq_cons_iff.mp hrest
      rw [alignParams_cons_of_mem params hnot]
      exact taken i params front a back hnot (ih back)
    · rw [alignParams_cons_of_notMem params hp]
      exact alone p params fields hp (ih fields)

end Cases

section Items

lemma mem_alignParams {q : Ident × Option α} (h : q ∈ alignParams params fields) :
    (∃ f ∈ fields, q = (f.1, some f.2)) ∨ ∃ p ∈ params, q = (p, none) := by
  refine alignParams_induction (motive := fun params fields items => q ∈ items →
    (∃ f ∈ fields, q = (f.1, some f.2)) ∨ ∃ p ∈ params, q = (p, none)) ?_ ?_ ?_ params fields h
  · intro fields h
    obtain ⟨f, hf, rfl⟩ := List.mem_map.mp h
    exact .inl ⟨f, hf, rfl⟩
  · intro p params fields _ ih h
    obtain rfl | h := List.mem_cons.mp h
    · exact .inr ⟨p, List.mem_cons_self, rfl⟩
    · exact (ih h).imp_right fun ⟨p, hp, hq⟩ => ⟨p, List.mem_cons_of_mem _ hp, hq⟩
  · intro p params front a back _ ih h
    obtain h | h := List.mem_append.mp h
    · obtain ⟨f, hf, rfl⟩ := List.mem_map.mp h
      exact .inl ⟨f, by simpa [or_assoc] using Or.inl hf, rfl⟩
    · obtain ⟨f, hf, rfl⟩ | ⟨p, hp, rfl⟩ := ih h
      · exact .inl ⟨f, by simp [hf], rfl⟩
      · exact .inr ⟨p, List.mem_cons_of_mem _ hp, rfl⟩

/-- Items are made of changed entries as of the entries. -/
lemma alignParams_map (g : α → β) (params : List Ident) (fields : List (Ident × α)) :
    alignParams params (fields.map fun f => (f.1, g f.2)) =
      (alignParams params fields).map fun q => (q.1, q.2.map g) := by
  refine alignParams_induction (motive := fun params fields items =>
    alignParams params (fields.map fun f => (f.1, g f.2)) =
      items.map fun q => (q.1, q.2.map g)) ?_ ?_ ?_ params fields
  · intro fields
    simp [alignParams, itemsOf]
  · intro p params fields hp ih
    rw [alignParams_cons_of_notMem params (by simpa using hp), ih]
    rfl
  · intro p params front a back hp ih
    rw [List.map_append, List.map_cons, alignParams_cons_of_mem params (by simpa using hp), ih]
    simp [itemsOf]

/-- Nothing is lost when parameters and entries are brought together. -/
lemma entriesOf_alignParams (params : List Ident) (fields : List (Ident × α)) :
    entriesOf (alignParams params fields) = fields := by
  refine alignParams_induction (motive := fun _ fields items => entriesOf items = fields)
    entriesOf_itemsOf ?_ ?_ params fields
  · intro p params fields _ ih
    rw [entriesOf_cons_none, ih]
  · intro p params front a back _ ih
    rw [entriesOf_append, entriesOf_itemsOf, ih, List.append_assoc]
    rfl

end Items

section Ordered

/-- The entries, but for the type of the result, stand in the order of the parameters, none of which
repeats. -/
structure Ordered (params : List Ident) (fields : List (Ident × α)) : Prop where
  nodup : params.Nodup
  sublist : ((fields.map Prod.fst).filter (·.name ≠ .returnArrow)).Sublist params

/-- Nothing can stand before the first element of a list in a part of it that has the element. -/
lemma eq_nil_of_sublist_cons {p : Ident} {before after params : List Ident}
    (hs : (before ++ p :: after).Sublist (p :: params)) (hb : p ∉ before) (hp : p ∉ params) :
    before = [] := by
  cases before with
  | nil => rfl
  | cons x xs =>
    obtain h | ⟨r, hr, -⟩ := List.sublist_cons_iff.mp hs
    · exact absurd (h.subset (by simp)) hp
    · exact absurd (List.cons.inj hr).1.symm (List.ne_of_not_mem_cons hb)

lemma Ordered.of_alone (h : Ordered (p :: params) fields) (hp : p ∉ fields.map Prod.fst) :
    Ordered params fields := by
  refine ⟨(List.nodup_cons.mp h.nodup).2, ?_⟩
  obtain hs | ⟨r, hr, -⟩ := List.sublist_cons_iff.mp h.sublist
  · exact hs
  · have hmem : p ∈ (fields.map Prod.fst).filter (·.name ≠ .returnArrow) := by rw [hr]; simp
    exact absurd (List.mem_filter.mp hmem).1 hp

/-- In front of the first entry of the first parameter stand only entries for the result. -/
lemma Ordered.of_taken {a : α} (h : Ordered (p :: params) (front ++ (p, a) :: back))
    (hp : p ∉ front.map Prod.fst) (hr : p.name ≠ .returnArrow) :
    (front.map Prod.fst).filter (·.name ≠ .returnArrow) = [] ∧ Ordered params back := by
  obtain ⟨hnot, hnodup⟩ := List.nodup_cons.mp h.nodup
  have hs := h.sublist
  rw [List.map_append, List.map_cons, List.filter_append,
    List.filter_cons_of_pos (by simp [hr])] at hs
  have hnil := eq_nil_of_sublist_cons hs (fun hmem => hp (List.mem_filter.mp hmem).1) hnot
  rw [hnil, List.nil_append] at hs
  exact ⟨hnil, hnodup, List.cons_sublist_cons.mp hs⟩

/-- Entries for parameters stand where the parameters do, and only the return type stands
between them. -/
lemma Ordered.params_alignParams (h : Ordered params fields)
    (ha : ∀ p ∈ params, p.name ≠ .returnArrow) :
    ((alignParams params fields).map Prod.fst).filter (·.name ≠ .returnArrow) = params := by
  refine alignParams_induction (motive := fun params fields items => Ordered params fields →
    (∀ p ∈ params, p.name ≠ .returnArrow) →
      (items.map Prod.fst).filter (·.name ≠ .returnArrow) = params) ?_ ?_ ?_ params fields h ha
  · intro fields h _
    rw [map_fst_itemsOf, List.sublist_nil.mp h.sublist]
  · intro p params fields hp ih h ha
    obtain ⟨hname, ha⟩ := List.forall_mem_cons.mp ha
    rw [List.map_cons, List.filter_cons_of_pos (by simpa using hname), ih (h.of_alone hp) ha]
  · intro p params front a back hp ih h ha
    obtain ⟨hname, ha⟩ := List.forall_mem_cons.mp ha
    obtain ⟨hfront, hback⟩ := h.of_taken hp hname
    rw [List.map_append, List.filter_append, ih hback ha, map_fst_itemsOf, List.map_append,
      List.filter_append, hfront]
    simp [hname]

/-- There are no items only if there are neither parameters nor entries. -/
lemma Ordered.isEmpty_alignParams (h : Ordered params fields)
    (ha : ∀ p ∈ params, p.name ≠ .returnArrow) :
    (alignParams params fields).isEmpty = (params.isEmpty && fields.isEmpty) := by
  rw [Bool.eq_iff_iff, Bool.and_eq_true, List.isEmpty_iff, List.isEmpty_iff, List.isEmpty_iff]
  constructor
  · intro hnil
    have hparams := h.params_alignParams ha
    have hentries := entriesOf_alignParams params fields
    rw [hnil] at hparams hentries
    exact ⟨hparams.symm, hentries.symm⟩
  · rintro ⟨rfl, rfl⟩
    rfl

end Ordered

end Expr

end YinFrontEnd
