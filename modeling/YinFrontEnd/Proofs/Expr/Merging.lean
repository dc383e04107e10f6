import YinFrontEnd.Proofs.Expr.Parameters
import YinFrontEnd.Proofs.Expr.Signature
import YinFrontEnd.Proofs.Expr.RoundTrip

/-!
# Merging parameters and entries

A typed parameter list is written from the parameters and the entries of their table, merged into
one list of items by going through the entries once. Nothing is lost or repeated, and where the
entries stand in the order of the parameters the items do as well.
-/
namespace YinFrontEnd

/-- The part of a list from one index up to another, if these are in order and in range. -/
def slice? {α : Type} (start stop : Nat) (l : List α) : Option (List α) :=
  if start ≤ stop ∧ stop ≤ l.length then some ((l.drop start).take (stop - start)) else none

namespace Expr

variable {α : Type} {p : Ident} {params : List Ident} {fields front back : List (Ident × α)}

/-- The items that are no entries. -/
def bareOf (items : List (Ident × Option α)) : List Ident :=
  (items.filter (·.2.isNone)).map Prod.fst

/-- The items other than the entries for the type of the result. -/
def withoutReturn (items : List (Ident × Option α)) : List Ident :=
  (items.filter fun q => !(q.2.isSome && q.1.name == .returnArrow)).map Prod.fst

/-- Merges parameters into a list of items, where the entries from the index `next` on are left. -/
def mergeFrom? (fields : List (Ident × α)) :
    List Ident → Nat → List (Ident × Option α) → Option (List (Ident × Option α))
  | [], next, items => (slice? next fields.length fields).map (items ++ itemsOf ·)
  | p :: ps, next, items =>
      (slice? next fields.length fields).bind fun rest =>
        match rest.findIdx? fun f => f.1 == p with
        | some offset =>
            (slice? next (next + offset + 1) fields).bind fun taken =>
              mergeFrom? fields ps (next + offset + 1) (items ++ itemsOf taken)
        | none => mergeFrom? fields ps next (items ++ [(p, none)])

section Slices

lemma slice?_rest {next : Nat} {l : List α} (h : next ≤ l.length) :
    slice? next l.length l = some (l.drop next) := by
  rw [slice?, if_pos ⟨h, Nat.le_refl _⟩, List.take_of_length_le (by simp)]

lemma slice?_front {next n : Nat} {l : List α} (h : next + n ≤ l.length) :
    slice? next (next + n) l = some ((l.drop next).take n) := by
  rw [slice?, if_pos ⟨Nat.le_add_right _ _, h⟩, Nat.add_sub_cancel_left]

/-- No index leaves the table, wherever merging has come to. -/
lemma mergeFrom?_eq (fields : List (Ident × α)) (params : List Ident) {next : Nat}
    (h : next ≤ fields.length) (items : List (Ident × Option α)) :
    mergeFrom? fields params next items =
      some (items ++ alignParams params (fields.drop next)) := by
  induction params generalizing next items with
  | nil =>
    rw [mergeFrom?, slice?_rest h]
    rfl
  | cons p params ih =>
    rw [mergeFrom?, slice?_rest h, alignParams, Option.bind_some]
    cases hi : (fields.drop next).findIdx? fun f => f.1 == p with
    | none =>
      dsimp only
      rw [ih h, List.append_assoc]
      rfl
    | some i =>
      have hlt := (List.findIdx?_eq_some_iff_getElem.mp hi).1
      rw [List.length_drop] at hlt
      have hle : next + (i + 1) ≤ fields.length := by omega
      dsimp only
      rw [Nat.add_assoc, slice?_front hle, Option.bind_some, ih hle, List.append_assoc,
        List.drop_drop]
      rfl

end Slices

section Items

@[simp] lemma bareOf_append (qs rs : List (Ident × Option α)) :
    bareOf (qs ++ rs) = bareOf qs ++ bareOf rs := by
  simp [bareOf]

@[simp] lemma bareOf_itemsOf (fields : List (Ident × α)) : bareOf (itemsOf fields) = [] := by
  simp [bareOf, itemsOf, List.filter_map, Function.comp_def]

@[simp] lemma bareOf_cons_none (p : Ident) (qs : List (Ident × Option α)) :
    bareOf ((p, none) :: qs) = p :: bareOf qs := rfl

@[simp] lemma withoutReturn_append (qs rs : List (Ident × Option α)) :
    withoutReturn (qs ++ rs) = withoutReturn qs ++ withoutReturn rs := by
  simp [withoutReturn]

@[simp] lemma withoutReturn_itemsOf (fields : List (Ident × α)) :
    withoutReturn (itemsOf fields) = (fields.map Prod.fst).filter (·.name ≠ .returnArrow) := by
  induction fields with
  | nil => rfl
  | cons f fields ih =>
    by_cases hf : f.1.name = .returnArrow <;>
      simpa [withoutReturn, itemsOf, hf] using ih

@[simp] lemma withoutReturn_cons_none (p : Ident) (qs : List (Ident × Option α)) :
    withoutReturn ((p, none) :: qs) = p :: withoutReturn qs := rfl

end Items

section Merged

/-- Every parameter is among the items, in its place. -/
lemma sublist_alignParams (params : List Ident) (fields : List (Ident × α)) :
    params.Sublist ((alignParams params fields).map Prod.fst) := by
  refine alignParams_induction (motive := fun params _ items => params.Sublist (items.map Prod.fst))
    (fun _ => List.nil_sublist _) ?_ ?_ params fields
  · intro p params fields _ ih
    exact ih.cons_cons p
  · intro p params front a back _ ih
    rw [List.map_append, map_fst_itemsOf, List.map_append, List.append_assoc]
    exact (ih.cons_cons p).trans (List.sublist_append_right _ _)

/-- What stands alone is a parameter. -/
lemma bareOf_sublist (params : List Ident) (fields : List (Ident × α)) :
    (bareOf (alignParams params fields)).Sublist params := by
  refine alignParams_induction (motive := fun params _ items => (bareOf items).Sublist params)
    (fun _ => by simp) ?_ ?_ params fields
  · intro p params fields _ ih
    exact ih.cons_cons p
  · intro p params front a back _ ih
    rw [bareOf_append, bareOf_itemsOf, List.nil_append]
    exact ih.cons p

/-- An entry for a parameter that stands alone can only stand in front of it. -/
lemma pairwise_alignParams (params : List Ident) (fields : List (Ident × α)) :
    (alignParams params fields).Pairwise fun q r => q.2 = none → r.2.isSome = true →
      r.1 ≠ q.1 := by
  have hentries (fields : List (Ident × α)) {q : Ident × Option α} (hq : q ∈ itemsOf fields) :
      q.2 ≠ none := by
    obtain ⟨f, -, rfl⟩ := List.mem_map.mp hq
    exact Option.some_ne_none _
  have hitems (fields : List (Ident × α)) : (itemsOf fields).Pairwise fun q r =>
      q.2 = none → r.2.isSome = true → r.1 ≠ q.1 :=
    List.pairwise_iff_forall_sublist.mpr fun {q r} hsub hnone =>
      absurd hnone (hentries fields (hsub.subset List.mem_cons_self))
  refine alignParams_induction (motive := fun _ _ items => items.Pairwise fun q r =>
    q.2 = none → r.2.isSome = true → r.1 ≠ q.1) hitems ?_ ?_ params fields
  · intro p params fields hp ih
    refine List.pairwise_cons.mpr ⟨fun q hq _ hsome => ?_, ih⟩
    obtain ⟨f, hf, rfl⟩ | ⟨i, -, rfl⟩ := mem_alignParams hq
    · exact fun heq : f.1 = p => hp (heq ▸ List.mem_map_of_mem hf)
    · exact absurd hsome (by simp)
  · intro p params front a back _ ih
    refine List.pairwise_append.mpr ⟨hitems _, ih, fun q hq r _ hnone => ?_⟩
    exact absurd hnone (hentries _ hq)

end Merged

section Ordered

/-- Some parameter is the entry for the type of the result. -/
def TakesReturn (params : List Ident) (fields : List (Ident × α)) : Prop :=
  ∃ p ∈ params, p.name = .returnArrow ∧ p ∈ fields.map Prod.fst

/-- Merged in order, exactly the parameters without entries stand alone, and all parameters are
found again. -/
lemma merged_of_ordered (params : List Ident) (fields : List (Ident × α)) :
    Ordered params fields → ¬ TakesReturn params fields →
      bareOf (alignParams params fields) = params.filter (· ∉ fields.map Prod.fst) ∧
      withoutReturn (alignParams params fields) = params := by
  refine alignParams_induction (motive := fun params fields items => Ordered params fields →
    ¬ TakesReturn params fields → bareOf items = params.filter (· ∉ fields.map Prod.fst) ∧
      withoutReturn items = params) ?_ ?_ ?_ params fields
  · intro fields h _
    rw [bareOf_itemsOf, withoutReturn_itemsOf, List.sublist_nil.mp h.sublist]
    exact ⟨rfl, rfl⟩
  · intro p params fields hp ih h hr
    obtain ⟨hbare, hall⟩ := ih (h.of_alone hp) fun ⟨q, hq, hname, hmem⟩ =>
      hr ⟨q, List.mem_cons_of_mem _ hq, hname, hmem⟩
    rw [bareOf_cons_none, withoutReturn_cons_none, hbare, hall,
      List.filter_cons_of_pos (by simpa using hp)]
    exact ⟨rfl, rfl⟩
  · intro p params front a back hp ih h hr
    have hmem : p ∈ (front ++ (p, a) :: back).map Prod.fst := by simp
    have hname : p.name ≠ .returnArrow := fun hname => hr ⟨p, List.mem_cons_self, hname, hmem⟩
    obtain ⟨hfront, hback⟩ := h.of_taken hp hname
    obtain ⟨hbare, hall⟩ := ih hback fun ⟨q, hq, hreturn, hmem⟩ =>
      hr ⟨q, List.mem_cons_of_mem _ hq, hreturn, by simp [hmem]⟩
    constructor
    · rw [bareOf_append, bareOf_itemsOf, List.nil_append, hbare,
        List.filter_cons_of_neg (by simp)]
      refine List.filter_congr fun q hq => decide_eq_decide.mpr (not_congr ⟨fun hq => ?_, ?_⟩)
      · simp [hq]
      · intro hin
        rw [List.map_append, List.map_cons, List.mem_append, List.mem_cons] at hin
        obtain hin | rfl | hin := hin
        · -- In front stand entries for the result only, and none of these is a parameter.
          have hreturn : q.name = .returnArrow := by
            by_contra hne
            exact List.not_mem_nil (hfront ▸ List.mem_filter.mpr ⟨hin, by simpa using hne⟩)
          exact absurd ⟨q, List.mem_cons_of_mem _ hq, hreturn, by simp [hin]⟩ hr
        · exact absurd hq (List.nodup_cons.mp h.nodup).1
        · exact hin
    · rw [withoutReturn_append, withoutReturn_itemsOf, hall, List.map_append, List.filter_append,
        hfront]
      simp [hname]

/-- If a parameter is the entry for the result it cannot both have an entry and stand alone. -/
lemma Ordered.merged_iff (h : Ordered params fields) :
    (bareOf (alignParams params fields) = params.filter (· ∉ fields.map Prod.fst) ∧
      withoutReturn (alignParams params fields) = params) ↔ ¬ TakesReturn params fields := by
  constructor
  · rintro ⟨hbare, hall⟩ ⟨p, hp, hname, hmem⟩
    rw [← hall] at hp
    obtain ⟨⟨i, x⟩, hq, rfl⟩ := List.mem_map.mp hp
    obtain ⟨hq, hkept⟩ := List.mem_filter.mp hq
    have hnone : x.isNone = true := by simpa [show i.name = .returnArrow from hname] using hkept
    have halone : i ∈ bareOf (alignParams params fields) :=
      List.mem_map.mpr ⟨_, List.mem_filter.mpr ⟨hq, hnone⟩, rfl⟩
    rw [hbare] at halone
    exact absurd hmem (by simpa using (List.mem_filter.mp halone).2)
  · exact merged_of_ordered params fields h

end Ordered

section Parsing

variable {names : Interner} {d e : Expr}

lemma spelled_of_mem_values {t : Properties Expr}
    (h : ∀ f ∈ t.entries, ∀ a ∈ f.2.entries, Spelled names a.2) (hd : d ∈ t.values) :
    d.Spelled names := by
  obtain ⟨f, hf, hd⟩ := List.mem_flatMap.mp hd
  obtain ⟨a, ha, rfl⟩ := List.mem_map.mp hd
  exact h f hf a ha

/-- The texts in what stands in an expression can be told apart if those in the expression can. -/
lemma Spelled.of_mem_parts (h : e.Spelled names) (hd : d ∈ e.parts) : d.Spelled names := by
  cases h with
  | block s hes => exact hes d hd
  | recordLiteral s hes => exact hes d hd
  | vector s hes => exact hes d hd
  | conditional s ha hb hc =>
    simp only [parts, List.mem_cons, List.not_mem_nil, or_false] at hd
    obtain rfl | rfl | rfl := hd
    · exact ha
    · exact hb
    · exact hc
  | definition s ha hb =>
    simp only [parts, List.mem_cons, List.not_mem_nil, or_false] at hd
    obtain rfl | rfl := hd
    · exact ha
    · exact hb
  | assignment s ha hb =>
    simp only [parts, List.mem_cons, List.not_mem_nil, or_false] at hd
    obtain rfl | rfl := hd
    · exact ha
    · exact hb
  | declaration s _ hfields => exact spelled_of_mem_values hfields hd
  | function s t _ _ hes =>
    obtain rfl := List.mem_singleton.mp hd
    exact .block t hes
  | typedFunction s t _ _ _ _ _ hfields _ hes =>
    obtain rfl | hd := List.mem_cons.mp hd
    · exact .block t hes
    · exact spelled_of_mem_values hfields hd
  | recordType s _ _ _ hfields => exact spelled_of_mem_values hfields hd
  | call s he _ hes =>
    obtain rfl | hd := List.mem_cons.mp hd
    · exact he
    · exact hes d hd
  | member s i he _ _ =>
    obtain rfl := List.mem_singleton.mp hd
    exact he
  | _ => exact absurd hd List.not_mem_nil

lemma Spelled.of_within (h : e.Spelled names) (hd : d.Within e) : d.Spelled names := by
  induction hd using Relation.ReflTransGen.head_induction_on with
  | refl => exact h
  | head hpart _ ih => exact ih.of_mem_parts hpart

/-- In a program that is parsed the fields of a function with a table stand in the order of its
parameters, and no parameter stands for the result. -/
lemma ordered_of_parse {old : Interner} (hr : old.Reached) {file : Nat} {text : String}
    (h : parse file old text = (names, .ok e)) {s : Span} {t : Properties Expr} {body : Expr}
    (hd : (function s params (some t) body).Within e) :
    Ordered params t.entries ∧ ∀ p ∈ params, p.name ≠ .returnArrow := by
  obtain ⟨-, s', es, rfl, hes⟩ := spelled_of_parse hr.valid h
  have hspelled := (Spelled.block s' hes).of_within hd
  cases hspelled with
  | typedFunction _ _ _ hreturn hnodup _ hsublist _ _ _ => exact ⟨⟨hnodup, hsublist⟩, hreturn⟩

/-- Merging parameters and entries never leaves the table, keeps every entry with what it has and
in its place, and every parameter in its place. Whatever else there is stands alone, is a parameter,
and has no entry behind it. If the entries but for those for the result stand in the order of the
parameters, none of which repeats, exactly the parameters without an entry stand alone and the items
but for the result are the parameters, if and only if no parameter is the entry for the result. In
whatever is parsed from a text all of this is so. -/
theorem alignParams_merged :
    (∀ {α : Type} (params : List Ident) (fields : List (Ident × α)),
      mergeFrom? fields params 0 [] = some (alignParams params fields) ∧
      entriesOf (alignParams params fields) = fields ∧
      params.Sublist ((alignParams params fields).map Prod.fst) ∧
      (∀ q ∈ alignParams params fields,
        (∃ f ∈ fields, q = (f.1, some f.2)) ∨ ∃ p ∈ params, q = (p, none)) ∧
      (bareOf (alignParams params fields)).Sublist params ∧
      (alignParams params fields).Pairwise
        (fun q r => q.2 = none → r.2.isSome = true → r.1 ≠ q.1) ∧
      (Ordered params fields →
        ((bareOf (alignParams params fields) = params.filter (· ∉ fields.map Prod.fst) ∧
          withoutReturn (alignParams params fields) = params) ↔ ¬ TakesReturn params fields))) ∧
    ∀ {old names : Interner} {file : Nat} {text : String} {e body : Expr} {s : Span}
      {params : List Ident} {t : Properties Expr}, old.Reached →
      parse file old text = (names, .ok e) → (function s params (some t) body).Within e →
      Ordered params t.entries ∧ ¬ TakesReturn params t.entries := by
  refine ⟨fun params fields => ⟨?_, entriesOf_alignParams params fields,
    sublist_alignParams params fields, fun q => mem_alignParams, bareOf_sublist params fields,
    pairwise_alignParams params fields, Ordered.merged_iff⟩, fun hr h hd => ?_⟩
  · exact mergeFrom?_eq fields params (Nat.zero_le _) []
  · obtain ⟨hordered, hreturn⟩ := ordered_of_parse hr h hd
    exact ⟨hordered, fun ⟨p, hp, hname, _⟩ => hreturn p hp hname⟩

/-- A program of a function with a field, a parameter without an entry, and a result. -/
def threeItems : Form :=
  .block ⟨0, 0, 26, 1, 1⟩ [.group ⟨0, 0, 26, 1, 1⟩ .paren
    [.name ⟨0, 1, 4, 1, 2⟩ SpecialForm.function.name,
      .group ⟨0, 5, 23, 1, 6⟩ .paren
        [.group ⟨0, 6, 11, 1, 7⟩ .square [.name ⟨0, 7, 8, 1, 8⟩ ⟨10⟩, .name ⟨0, 9, 10, 1, 10⟩ ⟨11⟩],
          .group ⟨0, 12, 15, 1, 13⟩ .paren [.name ⟨0, 13, 14, 1, 14⟩ ⟨11⟩],
          .group ⟨0, 16, 22, 1, 17⟩ .square
            [.name ⟨0, 17, 19, 1, 18⟩ .returnArrow, .name ⟨0, 20, 21, 1, 21⟩ ⟨11⟩]],
      .int ⟨0, 24, 25, 1, 25⟩ 1]]

/-- Only the second parameter stands alone. -/
theorem alignParams_merged_three : Interner.new.Reached ∧ ∃ names e s params t body,
    parse 0 Interner.new "(fun ([x y] (y) [-> y]) 1)" = (names, .ok e) ∧
    (function s params (some t) body).Within e ∧
    Ordered params t.entries ∧ ¬ TakesReturn params t.entries ∧
    bareOf (alignParams params t.entries) = [⟨⟨11⟩, ⟨0, 13, 14, 1, 14⟩⟩] ∧
    params.filter (· ∉ t.entries.map Prod.fst) = [⟨⟨11⟩, ⟨0, 13, 14, 1, 14⟩⟩] ∧
    withoutReturn (alignParams params t.entries) = params := by
  have hread : (Form.read 0 Interner.new "(fun ([x y] (y) [-> y]) 1)").2 = .ok threeItems := by
    decide +kernel
  obtain ⟨names, e, s, params, t, body, hparse, hd, hbare, halone⟩ : ∃ names e s params t body,
      parse 0 Interner.new "(fun ([x y] (y) [-> y]) 1)" = (names, .ok e) ∧
      (function s params (some t) body).Within e ∧
      bareOf (alignParams params t.entries) = [⟨⟨11⟩, ⟨0, 13, 14, 1, 14⟩⟩] ∧
      params.filter (· ∉ t.entries.map Prod.fst) = [⟨⟨11⟩, ⟨0, 13, 14, 1, 14⟩⟩] :=
    ⟨_, _, _, _, _, _, parse_of_read (Prod.ext rfl hread), .single (List.mem_singleton_self _),
      rfl, rfl⟩
  obtain ⟨hmerged, hparsed⟩ := alignParams_merged
  obtain ⟨hordered, hreturn⟩ := hparsed .new hparse hd
  obtain ⟨-, -, -, -, -, -, hiff⟩ := hmerged params t.entries
  exact ⟨.new, names, e, s, params, t, body, hparse, hd, hordered, hreturn, hbare, halone,
    ((hiff hordered).mpr hreturn).2⟩

end Parsing

/-- Where a parameter is the entry for the result, the parameter behind it is passed over together
with its entry, and stands alone although it has one. -/
theorem not_merged_of_takesReturn :
    ¬ ∀ (params : List Ident) (fields : List (Ident × Attributes Expr)), params.Nodup →
      ((fields.map Prod.fst).filter (·.name ≠ .returnArrow)).Sublist params →
        bareOf (alignParams params fields) = params.filter (· ∉ fields.map Prod.fst) ∧
          withoutReturn (alignParams params fields) = params := by
  intro h
  let result : Ident := ⟨.returnArrow, .dummy⟩
  let param : Ident := ⟨⟨10⟩, .dummy⟩
  let type : Attributes Expr := ⟨[(.typeKey, ident .dummy ⟨11⟩)]⟩
  have hmerged := (h [result, param] [(param, type), (result, type)] (by decide) (by decide)).1
  exact absurd hmerged (by decide)

end Expr

end YinFrontEnd
