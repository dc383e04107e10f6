import Mathlib.Data.List.Forall2
import Mathlib.Data.List.Nodup
import YinFrontEnd.Proofs.Table

/-!
# Tables after operations

A table is filled by operations, each of which puts one attribute or a bag of attributes into a
field. What the table holds in the end is said by the operations alone: a field for each name that
comes up, in the order in which the names first do, with the identifier of the first operation on it
and the bag of all that was put in, from left to right. Every query answers as a search of the
entries does, and equal entries give equal answers.
-/
namespace YinFrontEnd.Properties

/-- An operation on a table. -/
inductive Operation (α : Type) where
  | insert (field : Ident) (key : Name) (value : α)
  | extend (field : Ident) (bag : Attributes α)

variable {α : Type}

namespace Operation

def field : Operation α → Ident
  | insert field _ _ | extend field _ => field

/-- What is put into the field. -/
def bag : Operation α → Attributes α
  | insert _ key value => Attributes.empty.insert key value
  | extend _ bag => bag

end Operation

/-- The table after one more operation. -/
def apply (t : Properties α) : Operation α → Properties α
  | .insert field key value => t.insert field key value
  | .extend field bag => t.extend field bag

/-- The table after operations on an empty one. -/
def after (ops : List (Operation α)) : Properties α := ops.foldl apply .empty

/-- All that operations put into the field with a name, from left to right. -/
def merged (ops : List (Operation α)) (n : Name) : Attributes α :=
  (ops.filter fun o => o.field.name == n).foldl (fun a o => a.merge o.bag) .empty

/-- The first of the entries that has the name. -/
def search (entries : List (Ident × Attributes α)) (n : Name) : Option (Ident × Attributes α) :=
  entries.find? fun e => e.1.name == n

/-- Entry by entry, the identifiers and the keys are the same and the values are equal. -/
def SameEntries [BEq α] (s t : Properties α) : Prop :=
  List.Forall₂ (fun e d => e.1 = d.1 ∧
    List.Forall₂ (fun x y => x.1 = y.1 ∧ (x.2 == y.2) = true) e.2.entries d.2.entries)
    s.entries t.entries

variable {s t : Properties α} {n : Name} {e : Ident × Attributes α} {ops : List (Operation α)}

section Search

lemma search_eq_none_iff : search t.entries n = none ↔ n ∉ t.names := by
  rw [search, List.find?_eq_none, names, List.mem_map]
  simp

/-- Where names are distinct, whatever has the name is the first that has it. -/
lemma search_eq_some_iff (h : t.names.Nodup) :
    search t.entries n = some e ↔ e ∈ t.entries ∧ e.1.name = n := by
  constructor
  · intro he
    exact ⟨List.mem_of_find?_eq_some he, by simpa using List.find?_some he⟩
  · rintro ⟨he, rfl⟩
    obtain ⟨d, hd⟩ : ∃ d, search t.entries e.1.name = some d :=
      Option.isSome_iff_exists.mp (List.find?_isSome.mpr ⟨e, he, by simp⟩)
    have hname : d.1.name = e.1.name := by simpa using List.find?_some hd
    obtain rfl := List.inj_on_of_nodup_map h (List.mem_of_find?_eq_some hd) he hname
    exact hd

/-- The index finds what a search of the entries finds. -/
lemma Indexed.entry_eq_search (h : t.Indexed) (n : Name) : t.entry? n = search t.entries n := by
  refine Option.ext fun e => ?_
  rw [search_eq_some_iff h.nodup, entry?, Option.bind_eq_some_iff]
  constructor
  · rintro ⟨i, hi, he⟩
    obtain ⟨d, hd, hname⟩ := h.position?_eq_some_iff.mp hi
    obtain rfl := Option.some.inj (hd.symm.trans he)
    exact ⟨List.mem_of_getElem? he, hname⟩
  · rintro ⟨he, hname⟩
    obtain ⟨i, hi⟩ := List.mem_iff_getElem?.mp he
    exact ⟨i, h.position?_eq_some_iff.mpr ⟨e, hi, hname⟩, hi⟩

lemma Indexed.contains_eq (h : t.Indexed) (n : Name) :
    t.contains n = (search t.entries n).isSome := by
  rw [Bool.eq_iff_iff, h.contains_iff, Option.isSome_iff_ne_none, Ne, search_eq_none_iff, not_not]

end Search

section Update

lemma Indexed.update (h : t.Indexed) (field : Ident) (f : Attributes α → Attributes α) :
    (t.update field f).Indexed := by
  by_cases hn : field.name ∈ t.names
  · exact (h.update_old hn f).2
  · exact (h.update_new hn f).2

lemma Indexed.names_update (h : t.Indexed) (field : Ident) (f : Attributes α → Attributes α) :
    (t.update field f).names =
      if field.name ∈ t.names then t.names else t.names ++ [field.name] := by
  split
  · rename_i hn
    rw [names, (h.update_old hn f).1, List.map_map]
    refine List.map_congr_left fun e _ => ?_
    rw [Function.comp_apply]
    split <;> rfl
  · rename_i hn
    rw [names, (h.update_new hn f).1, List.map_append]
    rfl

/-- An update changes what is found under its own name only. -/
lemma Indexed.entry_update (h : t.Indexed) (field : Ident) (f : Attributes α → Attributes α)
    (n : Name) : entry? (t.update field f) n =
      if field.name = n then some ((t.entry? n).elim (field, f .empty) fun e => (e.1, f e.2))
      else t.entry? n := by
  rw [(h.update field f).entry_eq_search, h.entry_eq_search]
  by_cases hn : field.name ∈ t.names
  · have hkeep : ((fun e : Ident × Attributes α => e.1.name == n) ∘
        fun e => if e.1.name = field.name then (e.1, f e.2) else e) = fun e => e.1.name == n := by
      funext e
      rw [Function.comp_apply]
      split <;> rfl
    rw [(h.update_old hn f).1, search, List.find?_map, hkeep, ← search]
    cases hs : search t.entries n with
    | none =>
      have hne : field.name ≠ n := fun heq => search_eq_none_iff.mp hs (heq ▸ hn)
      rw [if_neg hne, Option.map_none]
    | some e =>
      obtain ⟨-, rfl⟩ := (search_eq_some_iff h.nodup).mp hs
      by_cases hname : e.1.name = field.name
      · simp [hname]
      · simp [hname, Ne.symm hname]
  · have hnone := search_eq_none_iff.mpr hn
    rw [(h.update_new hn f).1, search, List.find?_append, ← search]
    by_cases hname : field.name = n
    · subst hname
      simp [hnone]
    · simp [hname]

/-- An update leaves the entries with other names where they are, and as they are. -/
lemma Indexed.getElem?_update (h : t.Indexed) (field : Ident) (f : Attributes α → Attributes α)
    {i : Nat} (he : t.entries[i]? = some e) (hne : e.1.name ≠ field.name) :
    (t.update field f).entries[i]? = some e := by
  by_cases hn : field.name ∈ t.names
  · rw [(h.update_old hn f).1, List.getElem?_map, he]
    simp [hne]
  · rw [(h.update_new hn f).1]
    exact List.getElem?_append_left (List.getElem?_eq_some_iff.mp he).1 ▸ he

end Update

section Runs

/-- Either kind of operation updates a field with what it puts in. -/
lemma apply_eq_update (t : Properties α) (o : Operation α) :
    t.apply o = t.update o.field fun a => a.merge o.bag := by
  cases o <;> rfl

lemma after_concat (ops : List (Operation α)) (o : Operation α) :
    after (ops ++ [o]) = (after ops).apply o := by
  simp [after]

lemma merged_concat (ops : List (Operation α)) (o : Operation α) (n : Name) :
    merged (ops ++ [o]) n = if o.field.name = n then (merged ops n).merge o.bag
      else merged ops n := by
  by_cases hn : o.field.name = n <;> simp [merged, hn]

lemma Reached.apply (h : t.Reached) (o : Operation α) : (t.apply o).Reached := by
  cases o with
  | insert field key value => exact h.insert field key value
  | extend field bag => exact h.extend field bag

lemma indexed_after (ops : List (Operation α)) : (after ops).Indexed :=
  (List.foldlRecOn ops _ Reached.empty fun _ h o _ => h.apply o : (after ops).Reached).nodup.1

/-- The names are those of the operations, each where it first comes. -/
theorem names_after (ops : List (Operation α)) :
    (after ops).names = (ops.map fun o => o.field.name).eraseDups := by
  induction ops using List.reverseRecOn with
  | nil => rfl
  | append_singleton ops o ih =>
    rw [after_concat, apply_eq_update, (indexed_after ops).names_update, ih, List.map_append,
      List.map_singleton, eraseDups_concat]

lemma merged_of_find?_eq_none (h : ops.find? (fun o => o.field.name == n) = none) :
    merged ops n = .empty := by
  rw [merged, List.filter_eq_nil_iff.mpr (List.find?_eq_none.mp h)]
  rfl

/-- Under a name there is the identifier of the first operation on it, with all that was put in. -/
theorem entry_after (ops : List (Operation α)) (n : Name) : entry? (after ops) n =
    (ops.find? fun o => o.field.name == n).map fun o => (o.field, merged ops n) := by
  induction ops using List.reverseRecOn with
  | nil => rfl
  | append_singleton ops o ih =>
    rw [after_concat, apply_eq_update, (indexed_after ops).entry_update, ih, merged_concat,
      List.find?_append]
    by_cases hn : o.field.name = n
    · subst hn
      cases hfind : ops.find? fun p => p.field.name == o.field.name with
      | none => simp [merged_of_find?_eq_none hfind]
      | some p => simp
    · simp [hn]

end Runs

section Equality

lemma beq_iff_forall₂ {β : Type} [BEq β] {xs ys : List β} :
    (xs == ys) = true ↔ List.Forall₂ (fun x y => (x == y) = true) xs ys := by
  induction xs generalizing ys with
  | nil => cases ys <;> simp
  | cons x xs ih => cases ys <;> simp [ih]

/-- Bags are compared by their entries. -/
lemma beq_bag_iff [BEq α] {a b : Attributes α} : (a == b) = true ↔
    List.Forall₂ (fun x y => x.1 = y.1 ∧ (x.2 == y.2) = true) a.entries b.entries := by
  have hpair (x y : Name × α) : (x == y) = true ↔ x.1 = y.1 ∧ (x.2 == y.2) = true := by
    rw [← beq_iff_eq (a := x.1), ← Bool.and_eq_true]
    rfl
  rw [← funext₂ fun x y => propext (hpair x y), ← beq_iff_forall₂]
  rfl

/-- Tables are compared by their entries. -/
lemma beq_iff_sameEntries [BEq α] : (s == t) = true ↔ SameEntries s t := by
  have hentry (e d : Ident × Attributes α) : (e == d) = true ↔ e.1 = d.1 ∧
      List.Forall₂ (fun x y => x.1 = y.1 ∧ (x.2 == y.2) = true) e.2.entries d.2.entries := by
    rw [← beq_iff_eq (a := e.1), ← beq_bag_iff, ← Bool.and_eq_true]
    rfl
  rw [SameEntries, ← funext₂ fun e d => propext (hentry e d), ← beq_iff_forall₂]
  rfl

lemma SameEntries.names_eq [BEq α] (h : SameEntries s t) : s.names = t.names := by
  have hidents : s.entries.map Prod.fst = t.entries.map Prod.fst :=
    List.forall₂_eq_eq_eq ▸ List.forall₂_map_left_iff.mpr
      (List.forall₂_map_right_iff.mpr (h.imp fun _ _ hed => hed.1))
  have hnames (u : Properties α) : u.names = (u.entries.map Prod.fst).map Ident.name :=
    (List.map_map ..).symm
  rw [hnames, hnames, hidents]

/-- A search finds under a name what stands at one place in both lists. -/
lemma search_forall₂ {R : Attributes α → Attributes α → Prop}
    {es ds : List (Ident × Attributes α)}
    (h : List.Forall₂ (fun e d => e.1 = d.1 ∧ R e.2 d.2) es ds) (n : Name) :
    Option.Rel (fun e d => e.1 = d.1 ∧ R e.2 d.2) (search es n) (search ds n) := by
  induction h with
  | nil => exact .none
  | @cons e d es ds hed _ ih =>
    rw [search, search, List.find?_cons, List.find?_cons, ← hed.1]
    cases e.1.name == n with
    | true => exact .some hed
    | false => exact ih

/-- Tables whose entries are the same answer alike. -/
lemma SameEntries.answers [BEq α] (h : SameEntries s t) (hs : s.Indexed) (ht : t.Indexed)
    (n : Name) : s.contains n = t.contains n ∧ s.field? n = t.field? n ∧
      Option.Rel (fun a b => (a == b) = true) (s.get? n) (t.get? n) := by
  rw [hs.contains_eq, ht.contains_eq, field?, field?, get?, get?, hs.entry_eq_search,
    ht.entry_eq_search]
  simp only [SameEntries, ← beq_bag_iff] at h
  have hfound := search_forall₂ (R := fun a b => (a == b) = true) h n
  generalize search s.entries n = x, search t.entries n = y at hfound ⊢
  cases hfound with
  | none => exact ⟨rfl, rfl, .none⟩
  | some hed => exact ⟨rfl, congrArg some hed.1, .some hed.2⟩

end Equality

/-- However a table was filled, its names are distinct and in the order of the first operations on
them, the index gives the position of every entry and nothing else, and queries find what a search
of the entries finds. A field has the identifier of the first operation on it and the bag of all
that was put in, one after the other. To put in an attribute is to put in a bag that has nothing
else. An operation leaves other entries where and as they are. Tables are equal if and only if their
entries are, one by one, and then no query tells them apart. -/
theorem table_of_operations [BEq α] (ops : List (Operation α)) :
    (after ops).names.Nodup ∧
    (after ops).names = (ops.map fun o => o.field.name).eraseDups ∧
    (∀ (n : Name) (i : Nat), (after ops).position? n = some i ↔
      ∃ e, (after ops).entries[i]? = some e ∧ e.1.name = n) ∧
    (∀ n, (after ops).contains n = (search (after ops).entries n).isSome ∧
      (after ops).get? n = (search (after ops).entries n).map Prod.snd ∧
      (after ops).field? n = (search (after ops).entries n).map Prod.fst) ∧
    (∀ n, (after ops).field? n = (ops.find? fun o => o.field.name == n).map Operation.field) ∧
    (∀ n ∈ (after ops).names, (after ops).get? n = some (merged ops n)) ∧
    (∀ field key value, (after ops).insert field key value =
      (after ops).extend field (Attributes.empty.insert key value)) ∧
    (∀ (o : Operation α) (i : Nat) (e : Ident × Attributes α), (after ops).entries[i]? = some e →
      e.1.name ≠ o.field.name → ((after ops).apply o).entries[i]? = some e) ∧
    ∀ others, ((after ops == after others) = true ↔ SameEntries (after ops) (after others)) ∧
      (SameEntries (after ops) (after others) → (after ops).names = (after others).names ∧ ∀ n,
        (after ops).contains n = (after others).contains n ∧
        (after ops).field? n = (after others).field? n ∧
        Option.Rel (fun a b => (a == b) = true) ((after ops).get? n) ((after others).get? n)) := by
  have hindexed := indexed_after ops
  refine ⟨hindexed.nodup, names_after ops, fun n i => hindexed.position?_eq_some_iff, fun n => ?_,
    fun n => ?_, fun n hn => ?_, fun field key value => rfl, fun o i e he hne => ?_,
    fun others => ⟨beq_iff_sameEntries, fun hsame => ⟨hsame.names_eq, fun n =>
      hsame.answers hindexed (indexed_after others) n⟩⟩⟩
  · rw [get?, field?, hindexed.entry_eq_search]
    exact ⟨hindexed.contains_eq n, rfl, rfl⟩
  · rw [field?, entry_after, Option.map_map]
    rfl
  · obtain ⟨o, ho⟩ : ∃ o, ops.find? (fun o => o.field.name == n) = some o := by
      rw [names_after, List.mem_eraseDups] at hn
      obtain ⟨o, ho, rfl⟩ := List.mem_map.mp hn
      exact Option.isSome_iff_exists.mp (List.find?_isSome.mpr ⟨o, ho, by simp⟩)
    rw [get?, entry_after, ho]
    rfl
  · rw [apply_eq_update]
    exact hindexed.getElem?_update o.field _ he hne

/-- A span that is not the dummy one. -/
def elsewhere : Span := ⟨1, 4, 5, 1, 5⟩

/-- Two fields, of which the first is met again elsewhere and has its first key replaced. -/
def interleaved : List (Operation Nat) :=
  [.insert ⟨⟨10⟩, .dummy⟩ ⟨20⟩ 1, .extend ⟨⟨11⟩, elsewhere⟩ ⟨[(⟨20⟩, 2)]⟩,
    .extend ⟨⟨10⟩, elsewhere⟩ ⟨[(⟨21⟩, 3), (⟨20⟩, 4)]⟩]

/-- One operation for each field, and then one that changes nothing. -/
def fieldwise : List (Operation Nat) :=
  [.extend ⟨⟨10⟩, .dummy⟩ ⟨[(⟨20⟩, 4), (⟨21⟩, 3)]⟩, .insert ⟨⟨11⟩, elsewhere⟩ ⟨20⟩ 2,
    .insert ⟨⟨10⟩, elsewhere⟩ ⟨21⟩ 3]

/-- Both lists of operations fill the same table, in which the first field has its first place, its
first span and all that was put in. -/
theorem table_of_operations_interleaved :
    (after interleaved).names = [⟨10⟩, ⟨11⟩] ∧
    (after interleaved).field? ⟨10⟩ = some ⟨⟨10⟩, .dummy⟩ ∧
    (after interleaved).get? ⟨10⟩ = some ⟨[(⟨20⟩, 4), (⟨21⟩, 3)]⟩ ∧
    (after interleaved == after fieldwise) = true ∧
    Option.Rel (fun a b => (a == b) = true) ((after interleaved).get? ⟨11⟩)
      ((after fieldwise).get? ⟨11⟩) := by
  obtain ⟨-, hnames, -, -, hfield, hget, -, -, hequal⟩ := table_of_operations interleaved
  have hnames : (after interleaved).names = [⟨10⟩, ⟨11⟩] := hnames.trans (by decide)
  have hsame : SameEntries (after interleaved) (after fieldwise) :=
    .cons ⟨rfl, .cons ⟨rfl, rfl⟩ (.cons ⟨rfl, rfl⟩ .nil)⟩
      (.cons ⟨rfl, .cons ⟨rfl, rfl⟩ .nil⟩ .nil)
  obtain ⟨hbeq, hqueries⟩ := hequal fieldwise
  refine ⟨hnames, hfield ⟨10⟩, ?_, hbeq.mpr hsame, ((hqueries hsame).2 ⟨11⟩).2.2⟩
  exact hget ⟨10⟩ (by simp [hnames])

end YinFrontEnd.Properties
