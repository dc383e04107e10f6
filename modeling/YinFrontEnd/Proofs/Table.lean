import YinFrontEnd.Proofs.FirstOccurrences
import YinFrontEnd.Properties

/-!
# Bags and tables as lists

A bag and a table are lists of entries with distinct keys and names, in the order in which these
first came. What is put in under a new key or name comes last, and everything else keeps its
place. The index of a table finds every name where the list has it.
-/
namespace YinFrontEnd

namespace Attributes

variable {α : Type} {a b : Attributes α} {key : Name} {value : α} {es : List (Name × α)}

lemma put_of_notMem (h : key ∉ es.map Prod.fst) : put key value es = es ++ [(key, value)] := by
  induction es with
  | nil => rfl
  | cons e es ih =>
    simp only [List.map_cons, List.mem_cons, not_or] at h
    rw [put, if_neg (Ne.symm h.1), ih h.2, List.cons_append]

lemma keys_put_of_mem (h : key ∈ es.map Prod.fst) :
    (put key value es).map Prod.fst = es.map Prod.fst := by
  induction es with
  | nil => exact absurd h (by simp)
  | cons e es ih =>
    by_cases hk : e.1 = key
    · rw [put, if_pos hk]
      rfl
    · have htail : key ∈ es.map Prod.fst := by simpa [Ne.symm hk] using h
      rw [put, if_neg hk, List.map_cons, ih htail, List.map_cons]

lemma mem_put {e : Name × α} (h : e ∈ put key value es) : e = (key, value) ∨ e ∈ es := by
  induction es with
  | nil => exact .inl (by simpa [put] using h)
  | cons d es ih =>
    rw [put] at h
    split at h
    · rename_i hk
      obtain rfl | h := List.mem_cons.mp h
      · exact .inl (by rw [← hk])
      · exact .inr (by simp [h])
    · obtain rfl | h := List.mem_cons.mp h
      · exact .inr (by simp)
      · obtain h | h := ih h
        · exact .inl h
        · exact .inr (by simp [h])

/-- The keys are those that were there, and the new one behind them unless it was. -/
lemma keys_insert (a : Attributes α) (key : Name) (value : α) :
    (a.insert key value).keys = if key ∈ a.keys then a.keys else a.keys ++ [key] := by
  by_cases h : key ∈ a.keys
  · rw [if_pos h]
    exact keys_put_of_mem h
  · rw [if_neg h]
    simp only [keys, insert, put_of_notMem h, List.map_append, List.map_cons, List.map_nil]

lemma nodup_insert (h : a.keys.Nodup) (key : Name) (value : α) :
    (a.insert key value).keys.Nodup := by
  rw [keys_insert]
  split
  · exact h
  · rename_i hk
    exact nodup_concat h hk

lemma head?_insert {k : Name} (h : a.keys.head? = some k) (key : Name) (value : α) :
    (a.insert key value).keys.head? = some k := by
  rw [keys_insert]
  split
  · exact h
  · rw [List.head?_append, h]
    rfl

lemma merge_cons (a : Attributes α) (e : Name × α) (es : List (Name × α)) :
    a.merge ⟨e :: es⟩ = (a.insert e.1 e.2).merge ⟨es⟩ := rfl

lemma nodup_merge (h : a.keys.Nodup) (b : Attributes α) : (a.merge b).keys.Nodup := by
  obtain ⟨es⟩ := b
  induction es generalizing a with
  | nil => exact h
  | cons e es ih =>
    rw [merge_cons]
    exact ih (nodup_insert h e.1 e.2)

lemma head?_merge {k : Name} (h : a.keys.head? = some k) (b : Attributes α) :
    (a.merge b).keys.head? = some k := by
  obtain ⟨es⟩ := b
  induction es generalizing a with
  | nil => exact h
  | cons e es ih =>
    rw [merge_cons]
    exact ih (head?_insert h e.1 e.2)

lemma mem_merge {e : Name × α} (h : e ∈ (a.merge b).entries) : e ∈ a.entries ∨ e ∈ b.entries := by
  obtain ⟨es⟩ := b
  induction es generalizing a with
  | nil => exact .inl h
  | cons d es ih =>
    rw [merge_cons] at h
    obtain h | h := ih h
    · obtain rfl | h := mem_put h
      · exact .inr (by simp)
      · exact .inl h
    · exact .inr (List.mem_cons_of_mem _ h)

/-- Bags without a common key are put one behind the other. -/
lemma entries_merge (h : (a.keys ++ b.keys).Nodup) :
    (a.merge b).entries = a.entries ++ b.entries := by
  obtain ⟨es⟩ := b
  induction es generalizing a with
  | nil => exact (List.append_nil _).symm
  | cons e es ih =>
    have hkey : e.1 ∉ a.keys := by
      intro he
      have hd := (List.nodup_append.mp h).2.2 e.1 he e.1 (by simp [keys])
      exact hd rfl
    have hentries : (a.insert e.1 e.2).entries = a.entries ++ [e] := put_of_notMem hkey
    have hkeys : (a.insert e.1 e.2).keys = a.keys ++ [e.1] := by
      rw [keys_insert, if_neg hkey]
    rw [merge_cons, ih, hentries, List.append_assoc, List.singleton_append]
    rw [hkeys, List.append_assoc]
    exact h

lemma empty_merge (h : b.keys.Nodup) : empty.merge b = b := by
  have he := entries_merge (a := empty) (b := b) (by simpa [empty, keys] using h)
  obtain ⟨es⟩ := b
  exact congrArg Attributes.mk he

end Attributes

namespace Properties

variable {α : Type} {t : Properties α} {field : Ident} {a : Attributes α}

/-- The names are distinct, and the index finds each where it is. -/
structure Indexed (t : Properties α) : Prop where
  position : ∀ k i : Nat, t.index[k]? = some i ↔ (t.names.map Name.index)[i]? = some k
  nodup : t.names.Nodup

lemma indexed_empty : (empty : Properties α).Indexed where
  position k i := by simp [empty, names]
  nodup := List.nodup_nil

lemma Indexed.contains_iff (h : t.Indexed) (n : Name) : t.contains n = true ↔ n ∈ t.names := by
  rw [contains, position?, Option.isSome_iff_exists]
  constructor
  · rintro ⟨i, hi⟩
    have hm := List.mem_of_getElem? ((h.position n.index i).mp hi)
    obtain ⟨m, hmem, he⟩ := List.mem_map.mp hm
    obtain rfl : m = n := by
      cases m
      cases n
      exact congrArg Name.mk he
    exact hmem
  · intro hn
    obtain ⟨i, hi⟩ := List.mem_iff_getElem?.mp (List.mem_map_of_mem (f := Name.index) hn)
    exact ⟨i, (h.position n.index i).mpr hi⟩

lemma Indexed.position?_eq_none_iff (h : t.Indexed) (n : Name) :
    t.position? n = none ↔ n ∉ t.names := by
  rw [← h.contains_iff, contains]
  simp

/-- A field with a new name comes in at the end. -/
lemma Indexed.update_new (h : t.Indexed) (hn : field.name ∉ t.names)
    (f : Attributes α → Attributes α) :
    (t.update field f).entries = t.entries ++ [(field, f .empty)] ∧ (t.update field f).Indexed := by
  have hnone := (h.position?_eq_none_iff field.name).mpr hn
  have hupdate : t.update field f =
      ⟨t.entries ++ [(field, f .empty)], t.index.insert field.name.index t.entries.length⟩ := by
    rw [update, hnone]
  have hlen : (t.names.map Name.index).length = t.entries.length := by simp [names]
  have hnames : (t.update field f).names = t.names ++ [field.name] := by simp [hupdate, names]
  refine ⟨by rw [hupdate], ?_, ?_⟩
  · intro k i
    rw [hnames, List.map_append, List.getElem?_append, hlen, hupdate]
    simp only [Std.TreeMap.getElem?_insert, Std.compare_eq_iff_eq]
    by_cases hk : field.name.index = k
    · subst hk
      rw [if_pos rfl]
      by_cases hi : i < t.entries.length
      · have hne : (t.names.map Name.index)[i]? ≠ some field.name.index := by
          rw [Ne, ← h.position, ← position?, hnone]
          simp
        simp only [if_pos hi, Option.some.injEq]
        exact ⟨fun he => absurd he (by omega), fun he => absurd he hne⟩
      · rw [if_neg hi]
        simp only [Option.some.injEq, List.map_cons, List.map_nil, List.getElem?_singleton]
        split <;> simp <;> omega
    · rw [if_neg hk, h.position]
      by_cases hi : i < t.entries.length
      · rw [if_pos hi]
      · rw [if_neg hi]
        have hnone' : (t.names.map Name.index)[i]? = none := List.getElem?_eq_none (by omega)
        rw [hnone', List.map_cons, List.map_nil, List.getElem?_singleton]
        split <;> simp [hk]
  · rw [hnames]
    exact nodup_concat h.nodup hn

/-- The index gives the position of the entry that has the name. -/
lemma Indexed.position?_eq_some_iff (h : t.Indexed) {n : Name} {i : Nat} :
    t.position? n = some i ↔ ∃ e, t.entries[i]? = some e ∧ e.1.name = n := by
  rw [position?, h.position, names, List.map_map, List.getElem?_map, Option.map_eq_some_iff]
  refine exists_congr fun e => and_congr_right fun _ => ?_
  constructor
  · intro he
    cases n
    exact congrArg Name.mk he
  · rintro rfl
    rfl

/-- A field with a name that is there keeps its place, and only its bag changes. -/
lemma Indexed.update_old (h : t.Indexed) (hn : field.name ∈ t.names)
    (f : Attributes α → Attributes α) :
    (t.update field f).entries =
      (t.entries.map fun e => if e.1.name = field.name then (e.1, f e.2) else e) ∧
      (t.update field f).Indexed := by
  obtain ⟨i, hi⟩ : ∃ i, t.position? field.name = some i := by
    by_contra hne
    refine (h.position?_eq_none_iff field.name).mp ?_ hn
    exact Option.eq_none_iff_forall_ne_some.mpr fun i hi => hne ⟨i, hi⟩
  have hentries : (t.update field f).entries =
      t.entries.map fun e => if e.1.name = field.name then (e.1, f e.2) else e := by
    rw [update, hi]
    refine List.ext_getElem? fun j => ?_
    rw [List.getElem?_modify, List.getElem?_map]
    cases hj : t.entries[j]? with
    | none => rfl
    | some e =>
      have hplace : i = j ↔ e.1.name = field.name := by
        constructor
        · rintro rfl
          obtain ⟨d, hd, hname⟩ := h.position?_eq_some_iff.mp hi
          obtain rfl := Option.some.inj (hd.symm.trans hj)
          exact hname
        · intro hname
          exact Option.some.inj (hi.symm.trans (h.position?_eq_some_iff.mpr ⟨e, hj, hname⟩))
      by_cases hij : i = j
      · simp [hij, hplace.mp hij]
      · simp [hij, mt hplace.mpr hij]
  have hnames : (t.update field f).names = t.names := by
    rw [names, hentries, List.map_map]
    refine List.map_congr_left fun e _ => ?_
    rw [Function.comp_apply]
    split <;> rfl
  have hindex : (t.update field f).index = t.index := by rw [update, hi]
  refine ⟨hentries, fun k j => ?_, ?_⟩
  · rw [hnames, ← h.position, hindex]
  · rw [hnames]
    exact h.nodup

lemma Indexed.extend (h : t.Indexed) (field : Ident) (hn : field.name ∉ t.names)
    (ha : a.keys.Nodup) :
    (t.extend field a).entries = t.entries ++ [(field, a)] ∧ (t.extend field a).Indexed := by
  obtain ⟨hentries, hindexed⟩ := h.update_new hn fun b => b.merge a
  rw [Attributes.empty_merge ha] at hentries
  exact ⟨hentries, hindexed⟩

/-- The table came about by putting in attributes and bags, one after another. -/
inductive Reached : Properties α → Prop
  | empty : Reached empty
  | insert (field : Ident) (key : Name) (value : α) {t : Properties α} :
      Reached t → Reached (t.insert field key value)
  | extend (field : Ident) (a : Attributes α) {t : Properties α} :
      Reached t → Reached (t.extend field a)

/-- Bags keep distinct keys if what is done to one of them keeps its keys distinct. -/
lemma Indexed.nodup_update (h : t.Indexed) (hk : ∀ e ∈ t.entries, e.2.keys.Nodup)
    {f : Attributes α → Attributes α} (hf : ∀ b, b.keys.Nodup → (f b).keys.Nodup) :
    (t.update field f).Indexed ∧ ∀ e ∈ (t.update field f).entries, e.2.keys.Nodup := by
  by_cases hn : field.name ∈ t.names
  · obtain ⟨hentries, hindexed⟩ := h.update_old hn f
    refine ⟨hindexed, fun e he => ?_⟩
    rw [hentries] at he
    obtain ⟨d, hd, rfl⟩ := List.mem_map.mp he
    split
    · exact hf d.2 (hk d hd)
    · exact hk d hd
  · obtain ⟨hentries, hindexed⟩ := h.update_new hn f
    refine ⟨hindexed, fun e he => ?_⟩
    rw [hentries, List.mem_append, List.mem_singleton] at he
    obtain he | rfl := he
    · exact hk e he
    · exact hf .empty List.nodup_nil

/-- However a table came about, its names are distinct and found where they are, and so are the
keys of each bag. -/
theorem Reached.nodup (h : t.Reached) : t.Indexed ∧ ∀ e ∈ t.entries, e.2.keys.Nodup := by
  induction h with
  | empty => exact ⟨indexed_empty, by simp [Properties.empty]⟩
  | insert field key value _ ih =>
    exact ih.1.nodup_update ih.2 fun b hb => Attributes.nodup_insert hb key value
  | extend field a _ ih => exact ih.1.nodup_update ih.2 fun b hb => Attributes.nodup_merge hb a

end Properties

end YinFrontEnd
